import LustreTools.Osc.ExtentTree

/-!
Each operation on an extent tree keeps it sound. The conditions under which it does are those
that the callers provide: locks that exclude each other, an RPC size that does not change under
cached extents, and no second truncate or sync where one is under way.
-/
namespace Extents
open Runs SearchTree Words

theorem directed_index {es : List Extent} {cli : Client} (good : Good cli es) (index : Nat) :
    Directed (fun e => decide (index < e.oeStart)) (fun e => decide (e.oeEnd < index)) es := by
  have ordered : es.Pairwise fun a b => a.oeStart ≤ a.oeEnd ∧ a.oeEnd < b.oeStart := by
    apply good.chain.imp_of_mem
    intro a b first _ before
    exact ⟨(good.fit a first).order, before.order⟩
  apply ordered.imp
  rintro a b ⟨order, before⟩
  simp only [decide_eq_true_eq, decide_eq_false_iff_not]
  omega

theorem search_eq {o : Object} {cli : Client} (good : Good cli o.extents) (index : Nat) :
    oscExtentSearch o index = (o.extents.filter fun e => !decide (index < e.oeStart)).getLast? := by
  rw [oscExtentSearch, search_inorder (directed_index good index), Option.or_none]
  rfl

theorem search_covering {o : Object} {cli : Client} (good : Good cli o.extents) {e : Extent} {index : Nat}
    (member : e ∈ o.extents) (low : e.oeStart ≤ index) (high : index ≤ e.oeEnd) :
    oscExtentSearch o index = some e := by
  obtain ⟨pre, post, split⟩ := split_extent member
  have after : post.filter (fun x => !decide (index < x.oeStart)) = [] := by
    apply List.filter_eq_nil_iff.mpr
    intro b inPost
    rw [split] at good
    have order := ((good_before good).2 b inPost).order
    simp only [Bool.not_eq_true', decide_eq_false_iff_not]
    omega
  rw [search_eq good, split, List.filter_append, List.filter_cons, after]
  simp [Nat.not_lt.mpr low]

theorem onward_eq {o : Object} {pre post : List Extent} {e : Extent} (split : o.extents = pre ++ e :: post)
    (ids : (o.extents.map Extent.oeId).Nodup) : o.onward e = e :: post := by
  rw [split] at ids
  rw [Object.onward, split, drop_while_id ids]

theorem range_start_eq {o : Object} {cli : Client} (good : Good cli o.extents) (index : Nat) :
    rangeStart o index = o.extents.filter fun e => decide (index ≤ e.oeEnd) := by
  have sides := filter_sides (directed_index good index)
  have late (e : Extent) (member : e ∈ o.extents.filter fun e => decide (index < e.oeStart)) :
      index ≤ e.oeEnd := by
    obtain ⟨inside, after⟩ := List.mem_filter.mp member
    have order := (good.fit e inside).order
    simp only [decide_eq_true_eq] at after
    omega
  have second : (o.extents.filter fun e => decide (index < e.oeStart)).filter
      (fun e => decide (index ≤ e.oeEnd)) =
      o.extents.filter fun e => decide (index < e.oeStart) :=
    List.filter_eq_self.mpr fun e member => decide_eq_true (late e member)
  rw [rangeStart, search_eq good]
  rcases List.eq_nil_or_concat (o.extents.filter fun e => !decide (index < e.oeStart))
    with none | ⟨front, e, some⟩
  · rw [none] at sides ⊢
    rw [List.nil_append] at sides
    rw [sides] at second
    exact second.symm
  · rw [List.concat_eq_append] at some
    have split : o.extents = front ++ e :: o.extents.filter (fun e => decide (index < e.oeStart)) := by
      rw [some, List.append_assoc] at sides
      exact sides.symm
    have early : front.filter (fun e => decide (index ≤ e.oeEnd)) = [] := by
      apply List.filter_eq_nil_iff.mpr
      intro a inFront
      have good' := good
      rw [split] at good'
      have order := ((good_before good').1 a inFront).order
      have reached : e ∈ o.extents.filter fun e => !decide (index < e.oeStart) := by simp [some]
      have start := (List.mem_filter.mp reached).2
      simp only [Bool.not_eq_true', decide_eq_false_iff_not] at start
      simp only [decide_eq_true_eq]
      omega
    have whole : o.extents.filter (fun e => decide (index ≤ e.oeEnd)) =
        if index ≤ e.oeEnd then e :: o.extents.filter (fun e => decide (index < e.oeStart))
        else o.extents.filter fun e => decide (index < e.oeStart) := by
      conv_lhs => rw [split]
      rw [List.filter_append, early, List.filter_cons, second]
      simp
    rw [some, List.getLast?_concat, whole]
    dsimp only
    rw [onward_eq split good.ids]
    by_cases short : e.oeEnd < index
    · rw [if_pos short, if_neg (by omega), List.tail_cons]
    · rw [if_neg short, if_pos (by omega)]

theorem kept_idle {cli : Client} {e e' : Extent} (kept : Kept cli e)
    (body : (e'.oeStart, e'.oeEnd, e'.oeGrants, e'.oeNrPages, e'.oePages, e'.oeSync, e'.oeDlmlock) =
      (e.oeStart, e.oeEnd, e.oeGrants, e.oeNrPages, e.oePages, e.oeSync, e.oeDlmlock))
    (refs : e'.oeRefc = if e'.oeState = .trunc ∨ e'.oeState = .rpc then 2 else 1) (placed : Placed e')
    (users : e'.oeUsers = 0) (free : e'.oeTruncPending = false) (idle : e'.oeState ≠ .active)
    (live : e'.oeState ≠ .inv ∧ e'.oeState ≠ .lockDone) (hp : e'.oeHp = true → e'.oeFsyncWait = true)
    (wait : e'.oeState = .cache → e'.oeFsyncWait = true → e'.oeUrgent = true ∨ e'.oeHp = true)
    (calm : e'.oeState = .trunc → e'.oeUrgent = false) : Kept cli e' := by
  simp only [Prod.mk.injEq] at body
  obtain ⟨start, stop, grants, nrPages, pages, sync, lock⟩ := body
  have unset : e'.oeTruncPending ≠ true := by
    rw [free]
    exact Bool.false_ne_true
  constructor
  case refs => rw [refs, quiet_references ⟨users, free⟩]
  case placed => exact placed
  case unsynced => rw [sync, kept.unsynced]
  case written => exact lock ▸ kept.written
  case users => exact iff_of_false idle (by rw [users]; exact Nat.lt_irrefl 0)
  case live => exact live
  case hp => exact fun set => ⟨hp set, idle⟩
  case activeWait => exact fun active => absurd active idle
  case cacheWait => exact wait
  case pending => exact fun set => absurd set unset
  case calm => exact fun either => either.elim (fun set => absurd set unset) calm
  case counted => rw [nrPages, pages, kept.counted]
  case single => exact pages ▸ kept.single
  case within =>
    rw [pages, start, stop]
    exact kept.within
  case funded =>
    rw [chunks, start, stop, grants]
    exact kept.funded

structure Holdable (e : Extent) : Prop where
  state : e.oeState = .active ∨ e.oeState = .cache
  plain : e.oeHp = false
  wait : e.oeFsyncWait = true → e.oeUrgent = true

theorem held_refs {cli : Client} {e : Extent} (kept : Kept cli e)
    (state : e.oeState = .active ∨ e.oeState = .cache) :
    (held e).oeRefc = references (held e) := by
  have refs := kept.refs
  rcases state with state | state <;> simp only [references, held, state, reduceCtorEq,
      or_false] at refs ⊢ <;> omega

theorem held_kept {cli : Client} {e : Extent} (kept : Kept cli e) (holdable : Holdable e) :
    Kept cli (held e) where
  refs := held_refs kept holdable.state
  placed := trivial
  unsynced := kept.unsynced
  written := kept.written
  users := iff_of_true rfl (Nat.succ_pos _)
  live := ⟨State.noConfusion, State.noConfusion⟩
  hp := by
    intro hp
    rw [show (held e).oeHp = e.oeHp from rfl, holdable.plain] at hp
    cases hp
  activeWait := fun _ => holdable.wait
  cacheWait := State.noConfusion
  pending := fun _ => rfl
  calm := by
    rintro (waiting | trunc)
    · exact kept.calm (Or.inl waiting)
    · cases trunc
  counted := kept.counted
  single := kept.single
  within := kept.within
  funded := kept.funded

theorem hold_tree {o : Object} {e : Extent} (state : e.oeState = .active ∨ e.oeState = .cache) :
    (oscExtentHold o e).tree = (o.set (held e)).tree ∧ (oscExtentHold o e).nextId = o.nextId ∧
      ((oscExtentHold o e).taken, (oscExtentHold o e).spent, (oscExtentHold o e).gaps) =
        (o.taken, o.spent, o.gaps) ∧
      (oscExtentHold o e).ooNrWrites = o.ooNrWrites + (weight (held e) - weight e) ∧
      (oscExtentHold o e).lbug = o.lbug ∧ (oscExtentHold o e).holders = o.holders := by
  have gone : weight (held e) = 0 := rfl
  rcases state with active | cached
  · have none : weight e = 0 := if_neg (by rw [active]; exact State.noConfusion)
    have is : oscExtentHold o e = o.set (held e) := by
      unfold oscExtentHold
      split
      · rename_i cached
        rw [active] at cached
        cases cached
      · rfl
      · rename_i other
        exact absurd active other
    rw [is, none, gone]
    exact ⟨rfl, rfl, rfl, by simp [Object.set], rfl, rfl⟩
  · have some : weight e = e.oeNrPages := if_pos cached
    simp only [oscExtentHold, cached, some, gone]
    exact ⟨rfl, rfl, rfl, by simp [oscUpdatePending, Object.set], rfl, rfl⟩

theorem hold_sound {cli : Client} {o : Object} {e x : Extent} (sound : Sound cli o) (member : e ∈ o.extents)
    (same : SameSpan e x) (grants : x.oeGrants = e.oeGrants) (weights : weight x = weight e)
    (kept : Kept cli x)
    (holdable : Holdable x) : Sound cli (oscExtentHold o x) := by
  obtain ⟨tree, next, ledger, pending, lbug, _⟩ := hold_tree (o := o) holdable.state
  have place : SameSpan e (held x) := ⟨same.id, same.start, same.stop, same.maxEnd, same.mppr, same.lock⟩
  apply sound_state sound member place grants (held_kept kept holdable) tree next ledger _ lbug
  rw [pending, weights]

theorem same_span_refl (e : Extent) : SameSpan e e := ⟨rfl, rfl, rfl, rfl, rfl, rfl⟩

theorem grown_kept {cli : Client} {e : Extent} {start stop : Nat} (kept : Kept cli e)
    (low : start ≤ e.oeStart)
    (high : e.oeEnd ≤ stop) (chunk : chunks cli (grown cli e start stop) = chunks cli e + 1) :
    Kept cli (grown cli e start stop) where
  refs := kept.refs
  placed := kept.placed
  unsynced := kept.unsynced
  written := kept.written
  users := kept.users
  live := kept.live
  hp := kept.hp
  activeWait := kept.activeWait
  cacheWait := kept.cacheWait
  pending := kept.pending
  calm := kept.calm
  counted := kept.counted
  single := kept.single
  within := by
    intro index page
    obtain ⟨above, below⟩ := kept.within index page
    exact ⟨Nat.le_trans low above, Nat.le_trans below high⟩
  funded := by
    have funded := kept.funded
    have grants : (grown cli e start stop).oeGrants = e.oeGrants + cli.chunksize := rfl
    rw [chunk, grants, Nat.succ_mul]
    omega

theorem grow_sound {cli : Client} {o : Object} {pre post : List Extent} {e : Extent} {start stop : Nat}
    (sound : Sound cli o) (split : o.extents = pre ++ e :: post) (shape : Shape cli (grown cli e start stop))
    (low : start ≤ e.oeStart) (high : e.oeEnd ≤ stop)
    (chunk : chunks cli (grown cli e start stop) = chunks cli e + 1)
    (before : ∀ a ∈ pre, a.oeEnd < start) (behind : ∀ b ∈ post, stop < b.oeStart) :
    Sound cli (o.grow cli (grown cli e start stop)) ∧
      (o.grow cli (grown cli e start stop)).extents = pre ++ grown cli e start stop :: post := by
  have good := sound.good
  rw [split] at good
  obtain ⟨left, right⟩ := good_before good
  have after : (o.grow cli (grown cli e start stop)).extents = pre ++ grown cli e start stop :: post := by
    change (o.set (grown cli e start stop)).extents = _
    rw [set_extents, split]
    exact map_set good.ids rfl
  refine ⟨?_, after⟩
  apply sound_replace sound split after rfl
  case fit => exact ⟨shape, grown_kept (good.fit e (by simp)).toKept low high chunk⟩
  case before => exact fun a inPre => before_right (left a inPre) (before a inPre) rfl rfl
  case behind => exact fun b inPost => before_left (right b inPost) (behind b inPost) rfl rfl
  case next => rfl
  case pending =>
    have same : weight (grown cli e start stop) = weight e := rfl
    rw [same, Int.sub_self, Int.add_zero]
    rfl
  case ledger =>
    dsimp only [Object.grow, Object.set, grown]
    omega
  case running => exact sound.running

def Clear (cur : Extent) (es : List Extent) : Prop := ∀ x ∈ es, x.oeEnd < cur.oeStart ∨ cur.oeEnd < x.oeStart

/-- What the callers of `osc_extent_find` provide. -/
structure Granted (cli : Client) (es : List Extent) (olck : Lock) (index maxPages grants : Nat) : Prop where
  low : olck.start ≤ index
  high : index ≤ olck.stop
  write : olck.mode ≠ .pr
  some : 0 < maxPages
  whole : maxPages % cli.ppc = 0
  enough : cli.chunksize + cli.clExtentTax ≤ grants
  locks : ∀ e ∈ es, Exclusive e.oeDlmlock olck
  size : ∀ e ∈ es, e.oeMppr = maxPages

theorem front_shape {cli : Client} {cur e : Extent} {index : Nat} (around : Around cli cur index)
    (shape : Shape cli e)
    (same : cur.oeDlmlock = e.oeDlmlock) (slot : e.oeMaxEnd = cur.oeMaxEnd) (size : e.oeMppr = cur.oeMppr)
    (low : cur.oeStart ≤ e.oeStart) : Shape cli (grown cli e cur.oeStart e.oeEnd) where
  order := Nat.le_trans low shape.order
  reach := shape.reach
  lockLow := same ▸ around.lockLow
  lockHigh := shape.lockHigh
  front := same ▸ around.front
  rear := shape.rear
  slot := shape.slot
  span := by
    have span := around.span
    rw [← slot, ← size] at span
    exact span

theorem rear_shape {cli : Client} {cur e : Extent} {index : Nat} (around : Around cli cur index)
    (shape : Shape cli e)
    (slot : e.oeMaxEnd = cur.oeMaxEnd) (high : e.oeEnd ≤ cur.oeEnd) :
    Shape cli (grown cli e e.oeStart cur.oeEnd) where
  order := Nat.le_trans shape.order high
  reach := slot ▸ around.reach
  lockLow := shape.lockLow
  lockHigh := shape.lockHigh
  front := shape.front
  rear := slot ▸ around.rear
  slot := shape.slot
  span := shape.span

theorem front_clear {cli : Client} {cur e a : Extent} {index : Nat} (around : Around cli cur index)
    (left : Shape cli a)
    (right : Shape cli e) (before : Before a e) (same : cur.oeDlmlock = e.oeDlmlock)
    (next : index / cli.ppc + 1 = e.oeStart / cli.ppc)
    (clear : a.oeEnd < cur.oeStart ∨ cur.oeEnd < a.oeStart) :
    a.oeEnd < cur.oeStart := by
  apply clear.resolve_right
  intro between
  have low := around.lockLow
  have order := around.order
  have inner := left.order
  by_cases one : a.oeDlmlock = e.oeDlmlock
  · have earlier := before_chunks left right before one
    have high := left.lockHigh
    have reach := left.reach
    rw [one, ← same] at high
    have later := end_chunk_lt around.toShape between (by omega)
    have chunk := Nat.div_le_div_right (c := cli.ppc) inner
    rw [around.ends] at later
    omega
  · have apart := apart_of_locks left right before.locks one
    have low' := left.lockLow
    have high' := left.lockHigh
    have locks := before.locks.resolve_left one
    rw [same] at low
    have reach := left.reach
    have end' := right.order
    have reach' := right.reach
    have stop := right.lockHigh
    have gap := before.order
    omega

theorem rear_clear {cli : Client} {cur e b : Extent} {index : Nat} (around : Around cli cur index)
    (left : Shape cli e)
    (right : Shape cli b) (before : Before e b) (same : cur.oeDlmlock = e.oeDlmlock)
    (next : index / cli.ppc = e.oeEnd / cli.ppc + 1) (clear : b.oeEnd < cur.oeStart ∨ cur.oeEnd < b.oeStart) :
    cur.oeEnd < b.oeStart := by
  apply clear.resolve_left
  intro between
  have order := around.order
  have reach := around.reach
  have high := around.lockHigh
  have inner := right.order
  by_cases one : e.oeDlmlock = b.oeDlmlock
  · have later := before_chunks left right before one
    rw [same, one] at high
    have earlier := end_chunk_lt right between (by omega)
    have chunk := Nat.div_le_div_right (c := cli.ppc) inner
    rw [around.begins] at earlier
    omega
  · have locks := before.locks.resolve_left one
    have low := left.lockLow
    have start := left.order
    have gap := before.order
    have low' := right.lockLow
    have reach' := right.reach
    have high' := right.lockHigh
    rw [same] at high
    omega

theorem scanned_subset (o : Object) (index : Nat) :
    ∀ e ∈ scanned o index, e ∈ o.extents := by
  intro e member
  unfold scanned at member
  split at member
  · exact member
  · exact (List.dropWhile_sublist _).subset member

theorem clear_of_scan {cli : Client} {o : Object} {cur : Extent} {index : Nat} (good : Good cli o.extents)
    (around : Around cli cur index) (locks : ∀ e ∈ o.extents, Exclusive e.oeDlmlock cur.oeDlmlock)
    (free : ∀ e, scan cli cur (index / cli.ppc) (scanned o cur.oeStart) ≠ .conflict e ∧
      scan cli cur (index / cli.ppc) (scanned o cur.oeStart) ≠ .hold e) : Clear cur o.extents := by
  intro e member
  by_contra touch
  have fit := good.fit e member
  have touching : cur.oeStart ≤ e.oeEnd ∧ e.oeStart ≤ cur.oeEnd := by omega
  have same : cur.oeDlmlock = e.oeDlmlock := by
    by_contra other
    have apart := apart_of_locks fit.toShape around.toShape (locks e member) (Ne.symm other)
    have reach := fit.reach
    have reach' := around.reach
    omega
  have contains := contains_of_overlap around fit.toShape same touching
  obtain ⟨pre, post, split⟩ := split_extent member
  have start : scanned o cur.oeStart = e :: post := by
    have found := search_covering good member contains.1 touching.1
    rw [scanned, found]
    exact onward_eq split good.ids
  rw [start] at free
  rcases scan_touching post around fit same contains with conflict | hold
  · exact (free e).1 conflict
  · exact (free e).2 hold

theorem insert_sound {cli : Client} (rb : Shaping Extent) {o : Object} {x : Extent} (sound : Sound cli o)
    (clear : Clear x o.extents) (fit : Fit cli x) (id : x.oeId = o.nextId) (active : x.oeState = .active)
    (locks : ∀ e ∈ o.extents, Exclusive e.oeDlmlock x.oeDlmlock)
    (size : ∀ e ∈ o.extents, e.oeMppr = x.oeMppr) :
    ∃ pre post, o.extents = pre ++ post ∧
      (oscExtentInsert rb { o with nextId := o.nextId + 1, taken := o.taken + x.oeGrants } x).extents =
        pre ++ x :: post ∧
      (oscExtentInsert rb { o with nextId := o.nextId + 1, taken := o.taken + x.oeGrants }
        x).holders = o.holders ∧
      (oscExtentInsert rb { o with nextId := o.nextId + 1, taken := o.taken + x.oeGrants } x).taken =
        o.taken + x.oeGrants ∧
      (oscExtentInsert rb { o with nextId := o.nextId + 1, taken := o.taken + x.oeGrants }
        x).spent = o.spent ∧
      (oscExtentInsert rb { o with nextId := o.nextId + 1, taken := o.taken + x.oeGrants } x).gaps = o.gaps ∧
      Sound cli (oscExtentInsert rb { o with nextId := o.nextId + 1, taken := o.taken + x.oeGrants } x) := by
  obtain ⟨good, fresh, writes, grants, running⟩ := sound
  have order := fit.order
  have directed : Directed (fun e => decide (x.oeEnd < e.oeStart))
      (fun e => decide (e.oeEnd < x.oeStart)) o.extents := by
    apply good.chain.imp_of_mem
    intro a b first second before
    have gap := before.order
    have inner := (good.fit a first).order
    have free := clear b second
    have inner' := (good.fit b second).order
    simp only [decide_eq_true_eq, decide_eq_false_iff_not]
    omega
  have apart (e : Extent) (member : e ∈ o.extents) :
      decide (x.oeEnd < e.oeStart) = true ∨ decide (e.oeEnd < x.oeStart) = true := by
    simpa only [decide_eq_true_eq] using (clear e member).symm
  obtain ⟨tree, put, sequence⟩ := insert_inorder x directed apart
  have sides := filter_sides directed
  change inorder tree = o.extents.filter (fun a => !decide (x.oeEnd < a.oeStart)) ++
    x :: o.extents.filter (fun a => decide (x.oeEnd < a.oeStart)) at sequence
  have before (a : Extent) (member : a ∈ o.extents.filter fun a => !decide (x.oeEnd < a.oeStart)) :
      Before a x := by
    obtain ⟨inside, stays⟩ := List.mem_filter.mp member
    simp only [Bool.not_eq_true', decide_eq_false_iff_not] at stays
    exact ⟨(clear a inside).resolve_right stays, locks a inside, size a inside⟩
  have behind (b : Extent) (member : b ∈ o.extents.filter fun a => decide (x.oeEnd < a.oeStart)) :
      Before x b := by
    obtain ⟨inside, after⟩ := List.mem_filter.mp member
    refine ⟨by simpa using after, ?_, (size b inside).symm⟩
    rcases locks b inside with same | left | right
    · exact Or.inl same.symm
    · exact Or.inr (Or.inr left)
    · exact Or.inr (Or.inl right)
  generalize o.extents.filter (fun a => !decide (x.oeEnd < a.oeStart)) = pre at sides sequence before
  generalize o.extents.filter (fun a => decide (x.oeEnd < a.oeStart)) = post at sides sequence behind
  have is : oscExtentInsert rb { o with nextId := o.nextId + 1, taken := o.taken + x.oeGrants } x =
      { o with nextId := o.nextId + 1, taken := o.taken + x.oeGrants, tree := rb.balance tree } := by
    rw [oscExtentInsert, put]
  have after : inorder (rb.balance tree) = pre ++ x :: post := by rw [rb.balance_keeps, sequence]
  refine ⟨pre, post, sides.symm, by rw [is]; exact after, by rw [is], by rw [is], by rw [is], by rw [is], ?_⟩
  rw [is]
  rw [← sides] at good fresh writes grants
  have none : weight x = 0 := if_neg (by rw [active]; exact State.noConfusion)
  constructor
  case good =>
    rw [Object.extents, after]
    apply good_insert good _ fit before behind
    intro e member same
    have old := fresh e member
    omega
  case fresh =>
    rw [Object.extents, after]
    intro e member
    simp only [List.mem_append, List.mem_cons] at member fresh
    rcases member with inPre | rfl | inPost
    · exact Nat.lt_succ_of_lt (fresh e (Or.inl inPre))
    · rw [id]
      exact Nat.lt_succ_self _
    · exact Nat.lt_succ_of_lt (fresh e (Or.inr inPost))
  case pending =>
    simp only [cachedPages, List.map_append, List.sum_append] at writes ⊢
    rw [Object.extents, after, writes]
    simp only [List.map_append, List.map_cons, List.sum_append, List.sum_cons, none]
    omega
  case ledger =>
    simp only [totalGrants, List.map_append, List.sum_append] at grants ⊢
    rw [Object.extents, after]
    simp only [List.map_append, List.map_cons, List.sum_append, List.sum_cons]
    omega
  case running => exact running

end Extents
