import LustreTools.Osc.ExtentShape
import Mathlib.Algebra.BigOperators.Group.List.Basic

/-!
What each operation keeps of the extent tree: the extents stay in order, apart from each other,
within their locks and paid for, and the pages that wait to be written are counted. Operations
that only change an extent's state share one lemma; growing, merging, inserting and removing have
one each.
-/
namespace Extents
open Runs SearchTree Words

structure Good (cli : Client) (es : List Extent) : Prop where
  ids : (es.map Extent.oeId).Nodup
  chain : es.Pairwise Before
  fit : ∀ e ∈ es, Fit cli e

def weight (e : Extent) : Int := if e.oeState = .cache then e.oeNrPages else 0

def cachedPages (es : List Extent) : Int := (es.map weight).sum

def totalGrants (es : List Extent) : Int := (es.map fun e => (e.oeGrants : Int)).sum

/-- What the code asks of an object whenever its lock is free. -/
structure Sound (cli : Client) (o : Object) : Prop where
  good : Good cli o.extents
  fresh : ∀ e ∈ o.extents, e.oeId < o.nextId
  pending : o.ooNrWrites = cachedPages o.extents
  ledger : totalGrants o.extents + o.spent = o.taken + o.gaps * cli.clExtentTax
  running : o.lbug = false

@[simp] theorem set_extents (o : Object) (ext : Extent) :
    (o.set ext).extents = o.extents.map fun e => if e.oeId = ext.oeId then ext else e := inorder_map _ _

@[simp] theorem pending_extents (o : Object) (delta : Int) :
  (oscUpdatePending o delta).extents = o.extents := rfl

theorem other_ids {pre post : List Extent} {e x : Extent} (ids : ((pre ++ e :: post).map Extent.oeId).Nodup)
    (member : x ∈ pre ∨ x ∈ post) : x.oeId ≠ e.oeId := by
  simp only [List.map_append, List.map_cons] at ids
  rw [List.nodup_middle, List.nodup_cons, List.mem_append] at ids
  intro same
  apply ids.1
  rcases member with before | behind
  · exact Or.inl (same ▸ List.mem_map_of_mem before)
  · exact Or.inr (same ▸ List.mem_map_of_mem behind)

theorem split_extent {es : List Extent} {e : Extent} (member : e ∈ es) : ∃ pre post, es = pre ++ e :: post :=
  List.append_of_mem member

theorem map_set {pre post : List Extent} {e e' : Extent} (ids : ((pre ++ e :: post).map Extent.oeId).Nodup)
    (same : e'.oeId = e.oeId) :
    (pre ++ e :: post).map (fun x => if x.oeId = e'.oeId then e' else x) = pre ++ e' :: post := by
  have keep {xs : List Extent} (other : ∀ x ∈ xs, x.oeId ≠ e.oeId) :
      xs.map (fun x => if x.oeId = e'.oeId then e' else x) = xs := by
    have unchanged : xs.map (fun x => if x.oeId = e'.oeId then e' else x) = xs.map id := by
      apply List.map_congr_left
      intro x member
      rw [same, if_neg (other x member)]
      rfl
    rw [unchanged, List.map_id]
  rw [List.map_append, List.map_cons, keep fun x before => other_ids ids (Or.inl before),
    keep fun x behind => other_ids ids (Or.inr behind), if_pos same.symm]

theorem filter_erase {pre post : List Extent} {e : Extent}
    (ids : ((pre ++ e :: post).map Extent.oeId).Nodup) :
    (pre ++ e :: post).filter (fun x => !decide (x.oeId = e.oeId)) = pre ++ post := by
  have keep {xs : List Extent} (other : ∀ x ∈ xs, x.oeId ≠ e.oeId) :
      xs.filter (fun x => !decide (x.oeId = e.oeId)) = xs := by
    apply List.filter_eq_self.mpr
    intro x member
    simpa using other x member
  rw [List.filter_append, List.filter_cons, keep fun x before => other_ids ids (Or.inl before),
    keep fun x behind => other_ids ids (Or.inr behind)]
  simp

theorem drop_while_id {pre post : List Extent} {e : Extent}
    (ids : ((pre ++ e :: post).map Extent.oeId).Nodup) :
    (pre ++ e :: post).dropWhile (fun x => x.oeId ≠ e.oeId) = e :: post := by
  rw [List.dropWhile_append_of_pos]
  · simp
  · intro x before
    simpa using other_ids ids (Or.inl before)

theorem take_while_id {pre post : List Extent} {e : Extent}
    (ids : ((pre ++ e :: post).map Extent.oeId).Nodup) :
    (pre ++ e :: post).takeWhile (fun x => x.oeId ≠ e.oeId) = pre := by
  rw [List.takeWhile_append_of_pos]
  · simp
  · intro x before
    simpa using other_ids ids (Or.inl before)

theorem lookup_some {o : Object} {id : Nat} {ext : Extent} (found : o.lookup id = some ext) :
    ext ∈ o.extents ∧ ext.oeId = id := by
  unfold Object.lookup at found
  have is := List.find?_some found
  exact ⟨List.mem_of_find?_eq_some found, by simpa using is⟩

theorem same_extent {es : List Extent} (ids : (es.map Extent.oeId).Nodup) {a b : Extent} (first : a ∈ es)
    (second : b ∈ es) (same : a.oeId = b.oeId) : a = b := List.inj_on_of_nodup_map ids first second same

theorem good_replace {cli : Client} {pre post : List Extent} {e e' : Extent}
    (good : Good cli (pre ++ e :: post))
    (same : e'.oeId = e.oeId) (fit : Fit cli e') (before : ∀ a ∈ pre, Before a e')
    (behind : ∀ b ∈ post, Before e' b) :
    Good cli (pre ++ e' :: post) := by
  obtain ⟨ids, chain, fits⟩ := good
  obtain ⟨first, second, across⟩ := List.pairwise_append.mp chain
  refine ⟨?_, ?_, ?_⟩
  · simpa only [List.map_append, List.map_cons, same] using ids
  · apply List.pairwise_append.mpr
    refine ⟨first, List.pairwise_cons.mpr ⟨behind, (List.pairwise_cons.mp second).2⟩, ?_⟩
    intro a inPre b inPost
    rcases List.mem_cons.mp inPost with rfl | later
    · exact before a inPre
    · exact across a inPre b (List.mem_cons_of_mem e later)
  · intro x member
    simp only [List.mem_append, List.mem_cons] at member
    rcases member with inPre | rfl | inPost
    · exact fits x (by simp [inPre])
    · exact fit
    · exact fits x (by simp [inPost])

theorem good_sublist {cli : Client} {es es' : List Extent} (good : Good cli es)
    (fewer : es'.Sublist es) : Good cli es' :=
  ⟨good.ids.sublist (fewer.map _), good.chain.sublist fewer, fun e member => good.fit e (fewer.subset member)⟩

theorem good_insert {cli : Client} {pre post : List Extent} {x : Extent} (good : Good cli (pre ++ post))
    (fresh : ∀ e ∈ pre ++ post, e.oeId ≠ x.oeId) (fit : Fit cli x) (before : ∀ a ∈ pre, Before a x)
    (behind : ∀ b ∈ post, Before x b) : Good cli (pre ++ x :: post) := by
  obtain ⟨ids, chain, fits⟩ := good
  obtain ⟨first, second, across⟩ := List.pairwise_append.mp chain
  refine ⟨?_, ?_, ?_⟩
  · rw [List.map_append, List.map_cons, List.nodup_middle, ← List.map_append, List.nodup_cons]
    refine ⟨fun used => ?_, ids⟩
    obtain ⟨e, member, same⟩ := List.mem_map.mp used
    exact fresh e member same
  · apply List.pairwise_append.mpr
    refine ⟨first, List.pairwise_cons.mpr ⟨behind, second⟩, ?_⟩
    intro a inPre b inPost
    rcases List.mem_cons.mp inPost with rfl | later
    · exact before a inPre
    · exact across a inPre b later
  · intro y member
    simp only [List.mem_append, List.mem_cons] at member
    rcases member with inPre | rfl | inPost
    · exact fits y (List.mem_append_left _ inPre)
    · exact fit
    · exact fits y (List.mem_append_right _ inPost)

theorem good_before {cli : Client} {pre post : List Extent} {e : Extent}
    (good : Good cli (pre ++ e :: post)) :
    (∀ a ∈ pre, Before a e) ∧ ∀ b ∈ post, Before e b := by
  obtain ⟨_, second, across⟩ := List.pairwise_append.mp good.chain
  exact ⟨fun a inPre => across a inPre e List.mem_cons_self, (List.pairwise_cons.mp second).1⟩

theorem sound_replace {cli : Client} {o o' : Object} {pre post : List Extent} {e e' : Extent}
    (sound : Sound cli o)
    (split : o.extents = pre ++ e :: post) (after : o'.extents = pre ++ e' :: post) (same : e'.oeId = e.oeId)
    (fit : Fit cli e') (before : ∀ a ∈ pre, Before a e') (behind : ∀ b ∈ post, Before e' b)
    (next : o'.nextId = o.nextId) (pending : o'.ooNrWrites = o.ooNrWrites + (weight e' - weight e))
    (ledger : o'.taken + o'.gaps * cli.clExtentTax - o'.spent =
      o.taken + o.gaps * cli.clExtentTax - o.spent + (e'.oeGrants - e.oeGrants))
    (running : o'.lbug = false) : Sound cli o' := by
  obtain ⟨good, fresh, writes, grants, _⟩ := sound
  rw [split] at good fresh writes grants
  constructor
  case good =>
    rw [after]
    exact good_replace good same fit before behind
  case fresh =>
    rw [after, next]
    intro x member
    simp only [List.mem_append, List.mem_cons] at member fresh
    rcases member with inPre | rfl | inPost
    · exact fresh x (Or.inl inPre)
    · rw [same]
      exact fresh e (Or.inr (Or.inl rfl))
    · exact fresh x (Or.inr (Or.inr inPost))
  case pending =>
    simp only [cachedPages, List.map_append, List.map_cons, List.sum_append, List.sum_cons] at writes ⊢
    rw [pending, after, writes]
    simp only [List.map_append, List.map_cons, List.sum_append, List.sum_cons]
    omega
  case ledger =>
    simp only [totalGrants, List.map_append, List.map_cons, List.sum_append, List.sum_cons] at grants ⊢
    rw [after]
    simp only [List.map_append, List.map_cons, List.sum_append, List.sum_cons]
    omega
  case running => exact running

structure SameSpan (e e' : Extent) : Prop where
  id : e'.oeId = e.oeId
  start : e'.oeStart = e.oeStart
  stop : e'.oeEnd = e.oeEnd
  maxEnd : e'.oeMaxEnd = e.oeMaxEnd
  mppr : e'.oeMppr = e.oeMppr
  lock : e'.oeDlmlock = e.oeDlmlock

theorem before_right {a e e' : Extent} (before : Before a e) (start : a.oeEnd < e'.oeStart)
    (mppr : e'.oeMppr = e.oeMppr) (lock : e'.oeDlmlock = e.oeDlmlock) : Before a e' :=
  ⟨start, lock ▸ before.locks, mppr ▸ before.size⟩

theorem before_left {e e' b : Extent} (before : Before e b) (stop : e'.oeEnd < b.oeStart)
    (mppr : e'.oeMppr = e.oeMppr) (lock : e'.oeDlmlock = e.oeDlmlock) : Before e' b :=
  ⟨stop, lock ▸ before.locks, mppr ▸ before.size⟩

theorem shape_same {cli : Client} {e e' : Extent} (same : SameSpan e e') (shape : Shape cli e) :
    Shape cli e' := by
  constructor <;> simp only [same.start, same.stop, same.maxEnd, same.mppr, same.lock]
  case order => exact shape.order
  case reach => exact shape.reach
  case lockLow => exact shape.lockLow
  case lockHigh => exact shape.lockHigh
  case front => exact shape.front
  case rear => exact shape.rear
  case slot => exact shape.slot
  case span => exact shape.span

theorem sound_state {cli : Client} {o o' : Object} {e e' : Extent} (sound : Sound cli o)
    (member : e ∈ o.extents)
    (same : SameSpan e e') (grants : e'.oeGrants = e.oeGrants) (kept : Kept cli e')
    (tree : o'.tree = (o.set e').tree)
    (next : o'.nextId = o.nextId) (ledger : (o'.taken, o'.spent, o'.gaps) = (o.taken, o.spent, o.gaps))
    (pending : o'.ooNrWrites = o.ooNrWrites + (weight e' - weight e)) (running : o'.lbug = o.lbug) :
    Sound cli o' := by
  obtain ⟨pre, post, split⟩ := split_extent member
  have good := sound.good
  rw [split] at good
  obtain ⟨before, behind⟩ := good_before good
  have fit := good.fit e (by simp)
  have after : o'.extents = pre ++ e' :: post := by
    rw [Object.extents, tree]
    change (o.set e').extents = _
    rw [set_extents, split, map_set good.ids same.id]
  simp only [Prod.mk.injEq] at ledger
  obtain ⟨taken, spent, gaps⟩ := ledger
  apply sound_replace sound split after same.id ⟨shape_same same fit.toShape, kept⟩
  case before =>
    intro a inPre
    exact before_right (before a inPre) (same.start ▸ (before a inPre).order) same.mppr same.lock
  case behind =>
    intro b inPost
    exact before_left (behind b inPost) (same.stop ▸ (behind b inPost).order) same.mppr same.lock
  case next => exact next
  case pending => exact pending
  case ledger =>
    rw [taken, spent, gaps, grants]
    omega
  case running => rw [running, sound.running]

theorem sound_erase {cli : Client} (rb : Shaping Extent) {o : Object} {e : Extent} (sound : Sound cli o)
    (member : e ∈ o.extents) (uncached : e.oeState ≠ .cache) :
    Sound cli
      { o with
        tree := rb.erase (fun x => decide (x.oeId = e.oeId)) o.tree
        spent := o.spent + e.oeGrants } := by
  obtain ⟨pre, post, split⟩ := split_extent member
  obtain ⟨good, fresh, writes, grants, running⟩ := sound
  have after : inorder (rb.erase (fun x => decide (x.oeId = e.oeId)) o.tree) = pre ++ post := by
    rw [rb.erase_drops]
    change o.extents.filter _ = _
    rw [split] at good ⊢
    exact filter_erase good.ids
  rw [split] at good fresh writes grants
  have fewer : (pre ++ post).Sublist (pre ++ e :: post) := (List.sublist_cons_self e post).append_left pre
  have none : weight e = 0 := if_neg uncached
  constructor
  case good =>
    rw [Object.extents, after]
    exact good_sublist good fewer
  case fresh =>
    rw [Object.extents, after]
    exact fun x left => fresh x (fewer.subset left)
  case pending =>
    simp only [cachedPages, List.map_append, List.map_cons, List.sum_append, List.sum_cons] at writes ⊢
    rw [Object.extents, after, writes, none]
    simp only [List.map_append, List.sum_append]
    omega
  case ledger =>
    simp only [totalGrants, List.map_append, List.map_cons, List.sum_append, List.sum_cons] at grants ⊢
    rw [Object.extents, after]
    simp only [List.map_append, List.sum_append]
    omega
  case running => exact running

structure Mergeable (cli : Client) (a b : Extent) : Prop where
  before : Before a b
  lock : a.oeDlmlock = b.oeDlmlock
  slot : a.oeMaxEnd = b.oeMaxEnd
  adjacent : a.oeEnd / cli.ppc + 1 = b.oeStart / cli.ppc
  first : a.oeState = .cache
  second : b.oeState = .cache

theorem chunks_join {cli : Client} {a b : Extent} (left : Shape cli a) (right : Shape cli b)
    (mergeable : Mergeable cli a b) :
    b.oeEnd / cli.ppc - a.oeStart / cli.ppc + 1 = chunks cli a + chunks cli b := by
  have inner := Nat.div_le_div_right (c := cli.ppc) left.order
  have outer := Nat.div_le_div_right (c := cli.ppc) right.order
  have adjacent := mergeable.adjacent
  unfold chunks
  omega

theorem joined_span {cli : Client} {cur victim a b : Extent} (left : Shape cli a) (right : Shape cli b)
    (mergeable : Mergeable cli a b) (which : cur = a ∧ victim = b ∨ cur = b ∧ victim = a) :
    (joined cur victim).oeStart = a.oeStart ∧ (joined cur victim).oeEnd = b.oeEnd := by
  have order := mergeable.before.order
  have low := left.order
  have high := right.order
  rcases which with ⟨rfl, rfl⟩ | ⟨rfl, rfl⟩ <;> dsimp only [joined] <;> omega

theorem joined_shape {cli : Client} {cur victim a b : Extent} (left : Shape cli a) (right : Shape cli b)
    (mergeable : Mergeable cli a b) (which : cur = a ∧ victim = b ∨ cur = b ∧ victim = a) :
    Shape cli (joined cur victim) := by
  obtain ⟨start, stop⟩ := joined_span left right mergeable which
  have lock : (joined cur victim).oeDlmlock = a.oeDlmlock := by
    rcases which with ⟨rfl, rfl⟩ | ⟨rfl, rfl⟩
    · rfl
    · exact mergeable.lock.symm
  have slot : (joined cur victim).oeMaxEnd = b.oeMaxEnd := by
    rcases which with ⟨rfl, rfl⟩ | ⟨rfl, rfl⟩
    · exact mergeable.slot
    · rfl
  have mppr : (joined cur victim).oeMppr = a.oeMppr := by
    rcases which with ⟨rfl, rfl⟩ | ⟨rfl, rfl⟩
    · rfl
    · exact mergeable.before.size.symm
  have order := mergeable.before.order
  have low := left.order
  have high := right.order
  constructor <;> simp only [start, stop, lock, slot, mppr]
  case order => omega
  case reach => exact right.reach
  case lockLow => exact left.lockLow
  case lockHigh => exact mergeable.lock ▸ right.lockHigh
  case front => exact left.front
  case rear => exact right.rear
  case slot => exact mergeable.lock ▸ right.slot
  case span => exact mergeable.slot ▸ left.span

theorem joined_kept {cli : Client} {cur victim a b : Extent} (left : Fit cli a) (right : Fit cli b)
    (mergeable : Mergeable cli a b) (which : cur = a ∧ victim = b ∨ cur = b ∧ victim = a) :
    Kept cli (joined cur victim) := by
  obtain ⟨start, stop⟩ := joined_span left.toShape right.toShape mergeable which
  have order := mergeable.before.order
  have low := left.order
  have high := right.order
  have size := chunks_join left.toShape right.toShape mergeable
  have fits : Fit cli cur ∧ Fit cli victim ∧ cur.oeState = .cache := by
    rcases which with ⟨rfl, rfl⟩ | ⟨rfl, rfl⟩
    · exact ⟨left, right, mergeable.first⟩
    · exact ⟨right, left, mergeable.second⟩
  obtain ⟨mine, theirs, cached⟩ := fits
  have ranges (index : Nat) : (index ∈ victim.oePages → a.oeStart ≤ index ∧ index ≤ b.oeEnd) ∧
      (index ∈ cur.oePages → a.oeStart ≤ index ∧ index ≤ b.oeEnd) := by
    have inside := mine.within index
    have inside' := theirs.within index
    rcases which with ⟨rfl, rfl⟩ | ⟨rfl, rfl⟩
    · exact ⟨fun here => by have := inside' here; omega, fun here => by have := inside here; omega⟩
    · exact ⟨fun here => by have := inside' here; omega, fun here => by have := inside here; omega⟩
  constructor
  case refs => exact mine.refs
  case placed => exact placed_flags mine.placed rfl id fun urgent => by rw [joined, urgent, Bool.true_or]
  case unsynced => exact mine.unsynced
  case written => exact mine.written
  case users => exact mine.users
  case live => exact mine.live
  case hp => exact mine.hp
  case activeWait =>
    intro active
    rw [show (joined cur victim).oeState = cur.oeState from rfl, cached] at active
    cases active
  case cacheWait =>
    intro _ wait
    rcases mine.cacheWait cached wait with urgent | hp
    · exact Or.inl (by simp [joined, urgent])
    · exact Or.inr hp
  case pending => exact mine.pending
  case calm =>
    have no : ¬ (cur.oeTruncPending = true ∨ cur.oeState = .trunc) := by
      rintro (waiting | trunc)
      · have active := mine.pending waiting
        rw [cached] at active
        cases active
      · rw [cached] at trunc
        cases trunc
    exact fun either => absurd either no
  case counted =>
    simp only [joined, List.length_append, mine.counted, theirs.counted]
    omega
  case single =>
    apply List.nodup_append.mpr
    refine ⟨theirs.single, mine.single, ?_⟩
    rintro index theirPage _ myPage rfl
    have inside := mine.within index myPage
    have inside' := theirs.within index theirPage
    rcases which with ⟨rfl, rfl⟩ | ⟨rfl, rfl⟩ <;> omega
  case within =>
    rw [start, stop]
    intro index page
    rcases List.mem_append.mp page with theirPage | myPage
    · exact (ranges index).1 theirPage
    · exact (ranges index).2 myPage
  case funded =>
    have mineFunded := mine.funded
    have theirFunded := theirs.funded
    have total : chunks cli (joined cur victim) = chunks cli cur + chunks cli victim := by
      rw [chunks, start, stop, size]
      rcases which with ⟨rfl, rfl⟩ | ⟨rfl, rfl⟩
      · rfl
      · exact Nat.add_comm _ _
    have grants : (joined cur victim).oeGrants = cur.oeGrants + victim.oeGrants := rfl
    rw [total, grants, Nat.add_mul]
    omega

theorem sound_join {cli : Client} {o o' : Object} {pre post : List Extent} {cur victim a b : Extent}
    (sound : Sound cli o) (split : o.extents = pre ++ a :: b :: post) (mergeable : Mergeable cli a b)
    (which : cur = a ∧ victim = b ∨ cur = b ∧ victim = a)
    (after : o'.extents = pre ++ joined cur victim :: post)
    (rest : { o' with tree := o.tree } = o) : Sound cli o' := by
  obtain ⟨good, fresh, writes, grants, running⟩ := sound
  rw [split] at good fresh writes grants
  have left := good.fit a (by simp)
  have right := good.fit b (by simp)
  obtain ⟨start, stop⟩ := joined_span left.toShape right.toShape mergeable which
  obtain ⟨beforeA, behindA⟩ := good_before good
  have good' : Good cli ((pre ++ [a]) ++ b :: post) := by simpa using good
  obtain ⟨beforeB, behindB⟩ := good_before good'
  have fit : Fit cli (joined cur victim) :=
    ⟨joined_shape left.toShape right.toShape mergeable which, joined_kept left right mergeable which⟩
  have attributes : (joined cur victim).oeMppr = a.oeMppr ∧ (joined cur victim).oeDlmlock = a.oeDlmlock := by
    rcases which with ⟨rfl, rfl⟩ | ⟨rfl, rfl⟩
    · exact ⟨rfl, rfl⟩
    · exact ⟨mergeable.before.size.symm, mergeable.lock.symm⟩
  have before (x : Extent) (inPre : x ∈ pre) : Before x (joined cur victim) :=
    before_right (beforeA x inPre) (start ▸ (beforeA x inPre).order) attributes.1 attributes.2
  have behind (x : Extent) (inPost : x ∈ post) : Before (joined cur victim) x :=
    before_left (behindB x inPost) (stop ▸ (behindB x inPost).order)
      (attributes.1.trans mergeable.before.size)
      (attributes.2.trans mergeable.lock)
  have fields : o'.nextId = o.nextId ∧ o'.ooNrWrites = o.ooNrWrites ∧ o'.taken = o.taken ∧
      o'.spent = o.spent ∧
      o'.gaps = o.gaps ∧ o'.lbug = o.lbug := by
    rw [← rest]
    exact ⟨rfl, rfl, rfl, rfl, rfl, rfl⟩
  obtain ⟨next, pending, taken, spent, gaps, lbug⟩ := fields
  have sums : weight (joined cur victim) = weight a + weight b ∧
      ((joined cur victim).oeGrants : Int) = a.oeGrants + b.oeGrants := by
    have first := mergeable.first
    have second := mergeable.second
    rcases which with ⟨rfl, rfl⟩ | ⟨rfl, rfl⟩ <;> simp only [weight, joined, first, second, if_true] <;> omega
  constructor
  case good =>
    rw [after]
    rcases which with ⟨rfl, rfl⟩ | ⟨rfl, rfl⟩
    · have fewer : (pre ++ cur :: post).Sublist (pre ++ cur :: victim :: post) :=
        ((List.sublist_cons_self victim post).cons_cons cur).append_left pre
      exact good_replace (good_sublist good fewer) rfl fit before behind
    · have fewer : (pre ++ cur :: post).Sublist (pre ++ victim :: cur :: post) :=
        (List.sublist_cons_self victim (cur :: post)).append_left pre
      exact good_replace (good_sublist good fewer) rfl fit before behind
  case fresh =>
    rw [after, next]
    intro x member
    simp only [List.mem_append, List.mem_cons] at member fresh
    rcases member with inPre | rfl | inPost
    · exact fresh x (Or.inl inPre)
    · rcases which with ⟨rfl, rfl⟩ | ⟨rfl, rfl⟩
      · exact fresh cur (Or.inr (Or.inl rfl))
      · exact fresh cur (Or.inr (Or.inr (Or.inl rfl)))
    · exact fresh x (Or.inr (Or.inr (Or.inr inPost)))
  case pending =>
    simp only [cachedPages, List.map_append, List.map_cons, List.sum_append, List.sum_cons] at writes ⊢
    rw [pending, after, writes]
    simp only [List.map_append, List.map_cons, List.sum_append, List.sum_cons, sums.1]
    omega
  case ledger =>
    simp only [totalGrants, List.map_append, List.map_cons, List.sum_append, List.sum_cons] at grants ⊢
    rw [after, taken, spent, gaps]
    simp only [List.map_append, List.map_cons, List.sum_append, List.sum_cons, sums.2]
    omega
  case running => rw [lbug, running]

inductive Merged (cli : Client) (o : Object) (cur : Extent) : Object × Extent × Bool → Prop
  | apart : Merged cli o cur (o, cur, false)
  | join {o' : Object} (pre post : List Extent) (a b victim : Extent)
    (split : o.extents = pre ++ a :: b :: post)
      (mergeable : Mergeable cli a b) (which : cur = a ∧ victim = b ∨ cur = b ∧ victim = a)
      (after : o'.extents = pre ++ joined cur victim :: post) (rest : { o' with tree := o.tree } = o) :
      Merged cli o cur (o', joined cur victim, true)

/-- Neighbours that may grow to the same page have the same lock, so no assertion fails. -/
theorem merge_neighbours {cli : Client} {cur victim a b : Extent} (left : Fit cli a) (right : Fit cli b)
    (before : Before a b) (which : cur = a ∧ victim = b ∨ cur = b ∧ victim = a)
    (cached : cur.oeState = .cache) :
    (∃ rc, oscExtentMerge cli cur (some victim) = .refused rc) ∨
      Mergeable cli a b ∧ oscExtentMerge cli cur (some victim) = .merged (joined cur victim) victim := by
  have order := before.order
  have low := left.order
  have high := right.order
  unfold oscExtentMerge
  rw [if_neg (not_not.mpr cached)]
  dsimp only
  split
  · exact Or.inl ⟨_, rfl⟩
  · rename_i open'
    rw [not_or, not_not] at open'
    split
    · exact Or.inl ⟨_, rfl⟩
    · rename_i slot
      rw [not_not] at slot
      have sameSlot : a.oeMaxEnd = b.oeMaxEnd := by
        rcases which with ⟨rfl, rfl⟩ | ⟨rfl, rfl⟩
        · exact slot
        · exact slot.symm
      have sameLock : a.oeDlmlock = b.oeDlmlock := by
        by_contra other
        have apart := apart_of_locks left.toShape right.toShape before.locks other
        have reach := left.reach
        have reach' := right.reach
        omega
      have lock : cur.oeDlmlock = victim.oeDlmlock := by
        rcases which with ⟨rfl, rfl⟩ | ⟨rfl, rfl⟩
        · exact sameLock
        · exact sameLock.symm
      rw [if_neg (not_not.mpr lock)]
      split
      · exact Or.inl ⟨_, rfl⟩
      · rename_i near
        have inner := Nat.div_le_div_right (c := cli.ppc) (show a.oeStart ≤ b.oeEnd by omega)
        have theirs : Kept cli victim := by
          rcases which with ⟨rfl, rfl⟩ | ⟨rfl, rfl⟩
          · exact right.toKept
          · exact left.toKept
        have quiet := quiet_of_kept theirs (by rw [open'.1]; exact State.noConfusion)
        have refs := theirs.refs
        have removable : Removable { victim with oeRefc := victim.oeRefc + 1 } := by
          unfold references at refs
          exact ⟨by dsimp only; omega, fun _ => quiet.users⟩
        rw [if_neg (not_not.mpr removable)]
        refine Or.inr ⟨⟨before, sameLock, sameSlot, ?_, ?_, ?_⟩, rfl⟩
        · rcases which with ⟨rfl, rfl⟩ | ⟨rfl, rfl⟩
          · omega
          · omega
        · rcases which with ⟨rfl, rfl⟩ | ⟨rfl, rfl⟩
          · exact cached
          · exact open'.1
        · rcases which with ⟨rfl, rfl⟩ | ⟨rfl, rfl⟩
          · exact open'.1
          · exact cached

theorem next_extent_eq {o : Object} {pre post : List Extent} {e : Extent}
    (split : o.extents = pre ++ e :: post)
    (ids : (o.extents.map Extent.oeId).Nodup) : nextExtent o e = post.head? := by
  rw [split] at ids
  rw [nextExtent, Object.onward, split, drop_while_id ids, List.tail_cons]

theorem prev_extent_eq {o : Object} {pre post : List Extent} {e : Extent}
    (split : o.extents = pre ++ e :: post)
    (ids : (o.extents.map Extent.oeId).Nodup) : prevExtent o e = pre.getLast? := by
  rw [split] at ids
  rw [prevExtent, split, take_while_id ids]

theorem erase_set {cli : Client} (rb : Shaping Extent) {o : Object} {pre post : List Extent}
    {cur victim a b m : Extent}
    (good : Good cli o.extents) (split : o.extents = pre ++ a :: b :: post)
    (which : cur = a ∧ victim = b ∨ cur = b ∧ victim = a) (same : m.oeId = cur.oeId) :
    ({ o with tree := rb.erase (fun e => decide (e.oeId = victim.oeId)) o.tree }.set m).extents =
      pre ++ m :: post := by
  have ids := good.ids
  rw [split] at ids
  have erased : inorder (rb.erase (fun e => decide (e.oeId = victim.oeId)) o.tree) = pre ++ cur :: post := by
    rw [rb.erase_drops]
    change o.extents.filter _ = _
    rw [split]
    rcases which with ⟨rfl, rfl⟩ | ⟨rfl, rfl⟩
    · have middle : ((pre ++ [cur]) ++ victim :: post).filter (fun x => !decide (x.oeId = victim.oeId)) =
          (pre ++ [cur]) ++ post := filter_erase (by simpa using ids)
      simpa using middle
    · exact filter_erase ids
  have fewer : (pre ++ cur :: post).Sublist (pre ++ a :: b :: post) := by
    rcases which with ⟨rfl, rfl⟩ | ⟨rfl, rfl⟩
    · exact ((List.sublist_cons_self victim post).cons_cons cur).append_left pre
    · exact (List.sublist_cons_self victim (cur :: post)).append_left pre
  rw [set_extents]
  change (inorder (rb.erase (fun e => decide (e.oeId = victim.oeId)) o.tree)).map _ = _
  rw [erased]
  exact map_set (ids.sublist (fewer.map _)) same

theorem merge_into_pair {cli : Client} (rb : Shaping Extent) {o : Object} {pre post : List Extent}
    {cur victim a b : Extent}
    (good : Good cli o.extents) (split : o.extents = pre ++ a :: b :: post)
    (which : cur = a ∧ victim = b ∨ cur = b ∧ victim = a) (cached : cur.oeState = .cache) :
    Merged cli o cur (mergeInto rb cli o cur (some victim)) := by
  have left := good.fit a (by simp [split])
  have right := good.fit b (by simp [split])
  have before : Before a b := by
    rw [split] at good
    exact (good_before good).2 b List.mem_cons_self
  unfold mergeInto
  rcases merge_neighbours left right before which cached with ⟨rc, refused⟩ | ⟨mergeable, merged⟩
  · rw [refused]
    exact .apart
  · rw [merged]
    exact .join pre post a b victim split mergeable which (erase_set rb good split which rfl) rfl

theorem merge_nothing {cli : Client} (rb : Shaping Extent) (o : Object) {cur : Extent}
    (cached : cur.oeState = .cache) :
    Merged cli o cur (mergeInto rb cli o cur none) := by
  rw [mergeInto, oscExtentMerge, if_neg (not_not.mpr cached)]
  exact .apart

theorem merge_next {cli : Client} (rb : Shaping Extent) {o : Object} {cur : Extent}
    (good : Good cli o.extents)
    (member : cur ∈ o.extents) (cached : cur.oeState = .cache) :
    Merged cli o cur (mergeInto rb cli o cur (nextExtent o cur)) := by
  obtain ⟨pre, post, split⟩ := split_extent member
  rw [next_extent_eq split good.ids]
  cases post with
  | nil => exact merge_nothing rb o cached
  | cons victim post => exact merge_into_pair rb good split (Or.inl ⟨rfl, rfl⟩) cached

theorem merge_prev {cli : Client} (rb : Shaping Extent) {o : Object} {cur : Extent}
    (good : Good cli o.extents)
    (member : cur ∈ o.extents) (cached : cur.oeState = .cache) :
    Merged cli o cur (mergeInto rb cli o cur (prevExtent o cur)) := by
  obtain ⟨pre, post, split⟩ := split_extent member
  rw [prev_extent_eq split good.ids]
  rcases List.eq_nil_or_concat pre with rfl | ⟨front, victim, rfl⟩
  · exact merge_nothing rb o cached
  · rw [List.concat_eq_append] at split ⊢
    rw [List.getLast?_concat]
    have pair : o.extents = front ++ victim :: cur :: post := by rw [split, List.append_assoc]; rfl
    exact merge_into_pair rb good pair (Or.inr ⟨rfl, rfl⟩) cached

theorem merged_sound {cli : Client} {o : Object} {cur : Extent} {r : Object × Extent × Bool}
    (merged : Merged cli o cur r)
    (sound : Sound cli o) (member : cur ∈ o.extents) : Sound cli r.1 ∧ r.2.1 ∈ r.1.extents := by
  cases merged with
  | apart => exact ⟨sound, member⟩
  | join pre post a b victim split mergeable which after rest =>
    refine ⟨sound_join sound split mergeable which after rest, ?_⟩
    rw [after]
    exact List.mem_append_right _ List.mem_cons_self

end Extents
