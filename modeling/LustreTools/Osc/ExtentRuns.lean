import Mathlib.Data.List.TakeWhile
import LustreTools.Osc.ExtentHolders

/-!
The extent tree over whole runs: writers, syncs, lock cancellations, RPCs and truncates in any
order. Whatever they do to an object, every assertion of the code holds as long as the callers keep
to what they promise.
-/
namespace Extents
open Runs SearchTree Words

structure Passes (cli : Client) (o o' : Object) (e : Extent) : Prop where
  ready : Ready cli o'
  others : ∀ x ∈ o.extents, x.oeId ≠ e.oeId → x ∈ o'.extents

theorem passes_state {cli : Client} {o : Object} (o' : Object) {e e' : Extent} (kept : Kept cli e')
    (ready : Ready cli o)
    (member : e ∈ o.extents) (same : SameSpan e e') (grants : e'.oeGrants = e.oeGrants)
    (users : e'.oeUsers = e.oeUsers)
    (pages : e'.oePages = e.oePages) (rest : { o' with ooNrWrites := o.ooNrWrites } = o.set e')
    (pending : o'.ooNrWrites = o.ooNrWrites + (weight e' - weight e)) : Passes cli o o' e := by
  obtain ⟨after, extents⟩ := state_ready o' kept ready member same grants users pages rest pending
  refine ⟨after, fun x inside other => ?_⟩
  rw [extents]
  exact List.mem_map.mpr ⟨x, inside, if_neg (same.id ▸ other)⟩

theorem kick_active_kept {cli : Client} {e : Extent} (kept : Kept cli e) (active : e.oeState = .active)
    (free : e.oeTruncPending = false) : Kept cli { e with oeUrgent := true } := by
  have placed : Placed { e with oeUrgent := true } := placed_flags kept.placed rfl id fun _ => rfl
  refine { kept with
    placed := placed
    activeWait := fun _ _ => rfl
    cacheWait := fun _ _ => Or.inl rfl
    calm := ?_ }
  rintro (set | trunc)
  · rw [show e.oeTruncPending = true from set] at free
    cases free
  · rw [show e.oeState = .trunc from trunc] at active
    cases active

theorem kick_cache_kept {cli : Client} {e : Extent} (kept : Kept cli e) (cached : e.oeState = .cache) :
    Kept cli { e with oeUrgent := true } := by
  have placed : Placed { e with oeUrgent := true } := placed_flags kept.placed rfl id fun _ => rfl
  refine { kept with
    placed := placed
    activeWait := fun _ _ => rfl
    cacheWait := fun _ _ => Or.inl rfl
    calm := ?_ }
  rintro (set | trunc)
  · have active := kept.pending set
    rw [cached] at active
    cases active
  · rw [show e.oeState = .trunc from trunc] at cached
    cases cached

theorem kick_ready {cli : Client} {o : Object} {e : Extent} {t : Nat} (ready : Ready cli o)
    (unknown : o.holder t = none)
    (member : e ∈ o.extents) (free : e.oeTruncPending = false) :
    Ready cli
      (if e.oeState = .cache ∧ e.oeUrgent = false ∧ e.oeHp = false then (kick cli o e).give t e.oeId none
      else kick cli o e) := by
  have fit := ready.sound.good.fit e member
  unfold kick
  rw [if_neg (not_not.mpr (sanity_check_fit fit))]
  split_ifs with cached plain plain
  · obtain ⟨state, calm, low⟩ := cached
    have kept := kick_cache_kept fit.toKept state
    have holdable : Holdable { e with oeUrgent := true } := ⟨Or.inr state, low, fun _ => rfl⟩
    have place : SameSpan e { e with oeUrgent := true } := ⟨rfl, rfl, rfl, rfl, rfl, rfl⟩
    split
    · rename_i active
      rw [state] at active
      cases active
    · exact (hold_ready none ready unknown member place rfl rfl rfl rfl kept holdable
        fun i is => absurd is.symm (Option.some_ne_none i)).1
    · rename_i other
      exact absurd state other
  · exact absurd ⟨cached.2.1, cached.2.2⟩ plain
  · split
    · rename_i active
      have kept := kick_active_kept fit.toKept active free
      exact (state_ready (o.set { e with oeUrgent := true }) kept ready member
        ⟨rfl, rfl, rfl, rfl, rfl, rfl⟩ rfl rfl rfl rfl
        (by simp [Object.set, weight])).1
    · rename_i state
      exact absurd ⟨state, plain.1, plain.2⟩ cached
    · exact ready
  · exact ready

/-- What a sync or a lock cancellation may find in its range. -/
structure Flushable (e : Extent) (start stop : Nat) (hp discard : Bool) : Prop where
  truncating : hp = false → discard = false → e.oeTruncPending = false
  inactive : hp = true ∨ discard = true → e.oeState ≠ .active
  once : hp = true → e.oeHp = false
  inside : discard = true → start ≤ e.oeDlmlock.start ∧ e.oeDlmlock.stop ≤ stop

theorem locking_kept {cli : Client} {e : Extent} {w : Bool} {link : Place} (kept : Kept cli e)
    (cached : e.oeState = .cache)
    (hp : e.oeHp = true → w = true) (listed : link = .rpc ∨ link = .discard) :
    Kept cli { e with oeFsyncWait := w, oeState := .locking, oeLink := link } := by
  have quiet := quiet_of_kept kept (by rw [cached]; exact State.noConfusion)
  apply kept_idle kept
  case body => rfl
  case refs =>
    change e.oeRefc = 1
    exact one_reference kept (Or.inl cached)
  case placed =>
    rcases listed with rfl | rfl
    · exact Or.inl rfl
    · exact rfl
  case users => exact quiet.users
  case free => exact quiet.free
  case idle => exact State.noConfusion
  case live => exact ⟨State.noConfusion, State.noConfusion⟩
  case hp => exact hp
  case wait => exact State.noConfusion
  case calm => exact State.noConfusion

theorem writeback_passes {cli : Client} {o : Object} {e : Extent} {start stop : Nat} {hp discard : Bool}
    (ready : Ready cli o) (member : e ∈ o.extents) (flushable : Flushable e start stop hp discard) :
    Passes cli o (writeback start stop hp discard o e) e := by
  have fit := ready.sound.good.fit e member
  unfold writeback
  split
  · rename_i cached
    have notActive : e.oeState ≠ .active := by rw [cached]; exact State.noConfusion
    split_ifs with drop outside high twice already
    · have kept := locking_kept (w := true) fit.toKept cached (fun _ => rfl) (Or.inr rfl)
      exact passes_state _ kept ready member ⟨rfl, rfl, rfl, rfl, rfl, rfl⟩ rfl rfl rfl rfl
        (by simp [oscUpdatePending, Object.set, weight, cached])
    · exact absurd ⟨Nat.le_trans (flushable.inside drop).1 fit.lockLow,
        Nat.le_trans fit.lockHigh (flushable.inside drop).2⟩
        outside
    · rw [flushable.once high] at twice
      cases twice
    · have kept : Kept cli { e with oeFsyncWait := true, oeHp := true, oeLink := .hp } :=
        { fit.toKept with
          placed := ⟨cached, rfl⟩
          hp := fun _ => ⟨rfl, notActive⟩
          activeWait := fun active => absurd active notActive
          cacheWait := fun _ _ => Or.inr rfl }
      exact passes_state _ kept ready member ⟨rfl, rfl, rfl, rfl, rfl, rfl⟩ rfl rfl rfl rfl
        (by simp [Object.set, weight])
    · have kept : Kept cli { e with oeFsyncWait := true } :=
        { fit.toKept with
          hp := fun _ => ⟨rfl, notActive⟩
          activeWait := fun active => absurd active notActive
          cacheWait := fun _ _ => Or.inl already }
      exact passes_state _ kept ready member ⟨rfl, rfl, rfl, rfl, rfl, rfl⟩ rfl rfl rfl rfl
        (by simp [Object.set, weight])
    · have kept : Kept cli { e with oeFsyncWait := true, oeUrgent := true, oeLink := .urgent } :=
        { kick_cache_kept fit.toKept cached with
          placed := ⟨cached, rfl⟩
          hp := fun _ => ⟨rfl, notActive⟩
          activeWait := fun _ _ => rfl
          cacheWait := fun _ _ => Or.inl rfl }
      exact passes_state _ kept ready member ⟨rfl, rfl, rfl, rfl, rfl, rfl⟩ rfl rfl rfl rfl
        (by simp [Object.set, weight])
  · rename_i active
    split_ifs with forced
    · exact absurd active (flushable.inactive forced)
    · rw [not_or, Bool.not_eq_true, Bool.not_eq_true] at forced
      have free := flushable.truncating forced.1 forced.2
      have kept : Kept cli { e with oeFsyncWait := true, oeUrgent := true } :=
        { kick_active_kept fit.toKept active free with
          hp := fun hp => absurd active (fit.hp hp).2
          activeWait := fun _ _ => rfl
          cacheWait := fun _ _ => Or.inl rfl }
      exact passes_state _ kept ready member ⟨rfl, rfl, rfl, rfl, rfl, rfl⟩ rfl rfl rfl rfl
        (by simp [Object.set, weight])
  · rename_i notCached notActive
    have kept : Kept cli { e with oeFsyncWait := true } :=
      { fit.toKept with
        hp := fun _ => ⟨rfl, notActive⟩
        activeWait := fun active => absurd active notActive
        cacheWait := fun cached => absurd cached notCached }
    exact passes_state _ kept ready member ⟨rfl, rfl, rfl, rfl, rfl, rfl⟩ rfl rfl rfl rfl
      (by simp [Object.set, weight])

theorem fold_ready {cli : Client} {f : Object → Extent → Object} {fine : Extent → Prop}
    (pass : ∀ o e, Ready cli o → e ∈ o.extents → fine e → Passes cli o (f o e) e)
    {es : List Extent} {o : Object}
    (ready : Ready cli o) (all : ∀ e ∈ es, e ∈ o.extents ∧ fine e) (ids : (es.map Extent.oeId).Nodup) :
    Ready cli (es.foldl f o) := by
  induction es generalizing o with
  | nil => exact ready
  | cons e es ih =>
    rw [List.map_cons, List.nodup_cons] at ids
    obtain ⟨member, good⟩ := all e List.mem_cons_self
    obtain ⟨after, others⟩ := pass o e ready member good
    apply ih after _ ids.2
    intro x later
    obtain ⟨inside, fine⟩ := all x (List.mem_cons_of_mem e later)
    exact ⟨others x inside fun same => ids.1 (same ▸ List.mem_map_of_mem later), fine⟩

theorem range_ids {cli : Client} {o : Object} (good : Good cli o.extents) (index : Nat) :
    ((rangeStart o index).map Extent.oeId).Nodup := by
  rw [range_start_eq good]
  exact good.ids.sublist (List.filter_sublist.map _)

theorem writeback_ready {cli : Client} {o : Object} {start stop : Nat} {hp discard : Bool}
    (ready : Ready cli o)
    (flushable : ∀ e ∈ o.extents, start ≤ e.oeEnd → e.oeStart ≤ stop → Flushable e start stop hp discard) :
    Ready cli (oscCacheWritebackRange o start stop hp discard) := by
  have good := ready.sound.good
  have range := range_ids good start
  unfold oscCacheWritebackRange
  apply fold_ready (fun o e ready member fine => writeback_passes ready member fine) ready
  · intro e member
    have inside := (List.takeWhile_sublist _).subset member
    have met : e.oeStart ≤ stop := by simpa using List.mem_takeWhile_imp member
    rw [range_start_eq good] at inside
    obtain ⟨known, reaches⟩ := List.mem_filter.mp inside
    exact ⟨known, flushable e known (by simpa using reaches) met⟩
  · exact range.sublist ((List.takeWhile_sublist _).map _)

theorem mark_active_kept {cli : Client} {e : Extent} (kept : Kept cli e) (active : e.oeState = .active)
    (free : e.oeTruncPending = false) (calm : e.oeUrgent = false) :
    Kept cli { e with oeTruncPending := true, oeRefc := e.oeRefc + 1, oeLink := .truncating } := by
  have refs := kept.refs
  simp only [references, free, active, Bool.false_eq_true, reduceCtorEq, or_self, if_false] at refs
  exact
    { kept with
      refs := by simp only [references, refs, true_or, if_true]
      placed := Or.inl rfl
      pending := fun _ => active
      calm := fun _ => calm }

theorem mark_cache_kept {cli : Client} {e : Extent} (kept : Kept cli e) (cached : e.oeState = .cache)
    (calm : e.oeUrgent = false) :
    Kept cli { e with oeState := .trunc, oeRefc := e.oeRefc + 1, oeLink := .truncating } := by
  have quiet := quiet_of_kept kept (by rw [cached]; exact State.noConfusion)
  apply kept_idle kept
  case body => rfl
  case refs => exact congrArg (· + 1) (one_reference kept (Or.inl cached))
  case placed => exact Or.inr rfl
  case users => exact quiet.users
  case free => exact quiet.free
  case idle => exact State.noConfusion
  case live => exact ⟨State.noConfusion, State.noConfusion⟩
  case hp => exact fun hp => (kept.hp hp).1
  case wait => exact State.noConfusion
  case calm => exact fun _ => calm

theorem truncate_mark_cases {cli : Client} {es : List Extent} {o : Object} (ready : Ready cli o)
    (all : ∀ e ∈ es, e ∈ o.extents ∧ e.oeState ≠ .trunc ∧ e.oeTruncPending = false)
    (ids : (es.map Extent.oeId).Nodup) :
    Ready cli (truncateMark o es) ∨
      (∃ o', Ready cli o' ∧ truncateMark o es = o'.fail) ∧
        ∃ e ∈ es, e.oeState = .cache ∧ e.oeHp = true ∧ e.oeUrgent = false := by
  induction es generalizing o with
  | nil => exact Or.inl ready
  | cons e es ih =>
    rw [List.map_cons, List.nodup_cons] at ids
    obtain ⟨member, state, free⟩ := all e List.mem_cons_self
    have fit := ready.sound.good.fit e member
    have onward {o' : Object} (passes : Passes cli o o' e) : Ready cli (truncateMark o' es) ∨
        (∃ p, Ready cli p ∧ truncateMark o' es = p.fail) ∧
          ∃ x ∈ e :: es, x.oeState = .cache ∧ x.oeHp = true ∧ x.oeUrgent = false := by
      have rest := ih passes.ready (fun x later => ?_) ids.2
      · rcases rest with after | ⟨failed, x, later, met⟩
        · exact Or.inl after
        · exact Or.inr ⟨failed, x, List.mem_cons_of_mem e later, met⟩
      · obtain ⟨inside, rest⟩ := all x (List.mem_cons_of_mem e later)
        exact ⟨passes.others x inside fun same => ids.1 (same ▸ List.mem_map_of_mem later), rest⟩
    have placed := fit.placed
    unfold Placed at placed
    rw [truncateMark, if_neg state]
    split
    · exact Or.inl ready
    · rename_i open'
      rw [not_or, Bool.not_eq_true, Bool.not_eq_true] at open'
      split
      · rename_i active
        have link : e.oeLink = .nowhere := by
          cases is : e.oeLink <;> rw [is] at placed <;> simp_all
        rw [if_neg (by rw [free, link]; simp)]
        have kept := mark_active_kept fit.toKept active free open'.2
        exact onward (passes_state _ kept ready member ⟨rfl, rfl, rfl, rfl, rfl, rfl⟩ rfl rfl rfl rfl
          (by simp [Object.set, weight, active]))
      · rename_i cached
        split
        · rename_i on
          have hp : e.oeHp = true := by
            cases is : e.oeLink <;> rw [is] at placed <;> simp_all
          exact Or.inr ⟨⟨o, ready, rfl⟩, e, List.mem_cons_self, cached, hp, open'.2⟩
        · have kept := mark_cache_kept fit.toKept cached open'.2
          exact onward (passes_state _ kept ready member ⟨rfl, rfl, rfl, rfl, rfl, rfl⟩ rfl rfl rfl rfl
            (by simp [oscUpdatePending, Object.set, weight, cached]))
      · rename_i notActive notCached
        have live := fit.live
        have busy := open'.1
        cases is : e.oeState <;> simp_all [State.busy]

theorem send_ready {cli : Client} {o : Object} {e : Extent} (ready : Ready cli o) (member : e ∈ o.extents) :
    Ready cli (lockForRpc o e) := by
  have fit := ready.sound.good.fit e member
  have placed := fit.placed
  unfold Placed at placed
  unfold lockForRpc
  split_ifs with state on
  · rcases on with link | ⟨link, _⟩ <;> rw [link] at placed <;> exact absurd placed.1 state
  · exact ready
  · have cached := not_not.mp state
    have kept := locking_kept fit.toKept cached (fun hp => (fit.hp hp).1) (Or.inl rfl)
    exact (state_ready _ kept ready member ⟨rfl, rfl, rfl, rfl, rfl, rfl⟩ rfl rfl rfl rfl
      (by simp [oscUpdatePending, Object.set, weight, cached])).1

theorem pages_of_idle {cli : Client} {o : Object} {e : Extent} (ready : Ready cli o) (member : e ∈ o.extents)
    (state : e.oeState ≠ .active) : e.oePages ≠ [] := by
  intro empty
  obtain ⟨h, holder, mine, _⟩ := ready.holding.filled e member empty
  exact state (active_of_holder ready member holder mine)

theorem make_ready_ready {cli : Client} {o : Object} {e : Extent} (ready : Ready cli o)
    (member : e ∈ o.extents) :
    Ready cli (oscExtentMakeReady cli o e) := by
  have fit := ready.sound.good.fit e member
  unfold oscExtentMakeReady
  split
  · exact ready
  · rename_i locking
    rw [not_not] at locking
    have notActive : e.oeState ≠ .active := by rw [locking]; exact State.noConfusion
    have quiet := quiet_of_kept fit.toKept notActive
    have pages := pages_of_idle ready member notActive
    rw [if_neg (by rw [sanity_check_fit fit, fit.counted]; simp [pages])]
    have kept : Kept cli
        { e with
          oeState := .rpc
          oeRefc := e.oeRefc + 1
          oeLink := if e.oeLink = .discard then .nowhere else e.oeLink } := by
      apply kept_idle fit.toKept
      case body => rfl
      case refs => exact congrArg (· + 1) (one_reference fit.toKept (Or.inr locking))
      case placed =>
        have placed := fit.placed
        unfold Placed at placed ⊢
        dsimp only
        cases is : e.oeLink <;> rw [is] at placed <;> simp_all
      case users => exact quiet.users
      case free => exact quiet.free
      case idle => exact State.noConfusion
      case live => exact ⟨State.noConfusion, State.noConfusion⟩
      case hp => exact fun hp => (fit.hp hp).1
      case wait => exact State.noConfusion
      case calm => exact State.noConfusion
    exact (state_ready _ kept ready member ⟨rfl, rfl, rfl, rfl, rfl, rfl⟩ rfl rfl rfl rfl
      (by simp [Object.set, weight, locking])).1

theorem erase_ready {cli : Client} (rb : Shaping Extent) {o : Object} {e : Extent} (ready : Ready cli o)
    (member : e ∈ o.extents) (uncached : e.oeState ≠ .cache) (inactive : e.oeState ≠ .active) :
    Ready cli
      { o with
        tree := rb.erase (fun x => decide (x.oeId = e.oeId)) o.tree
        spent := o.spent + e.oeGrants } := by
  refine ⟨sound_erase rb ready.sound member uncached, ?_⟩
  obtain ⟨pre, post, split⟩ := split_extent member
  have good := ready.sound.good
  have unused := (quiet_of_kept (good.fit e member).toKept inactive).users
  have holding := ready.holding
  have after : inorder (rb.erase (fun x => decide (x.oeId = e.oeId)) o.tree) = pre ++ post := by
    rw [rb.erase_drops]
    change o.extents.filter _ = _
    rw [split] at good ⊢
    exact filter_erase good.ids
  rw [split] at holding
  change Held (inorder (rb.erase (fun x => decide (x.oeId = e.oeId)) o.tree)) o.holders
  rw [after]
  exact held_erase holding unused

theorem removable_kept {cli : Client} {e : Extent} (kept : Kept cli e)
    (state : e.oeState = .trunc ∨ e.oeState = .rpc) :
    Removable e := by
  have refs := two_references kept state
  have quiet := quiet_of_kept kept (by rcases state with is | is <;> rw [is] <;> exact State.noConfusion)
  exact ⟨by omega, fun _ => quiet.users⟩

theorem finish_ready {cli : Client} (rb : Shaping Extent) {o : Object} {e : Extent} (ready : Ready cli o)
    (member : e ∈ o.extents) : Ready cli (oscExtentFinish rb o e) := by
  have fit := ready.sound.good.fit e member
  unfold oscExtentFinish
  split
  · exact ready
  · rename_i sent
    rw [not_not] at sent
    have removable := removable_kept fit.toKept (Or.inr sent)
    rw [if_neg (by rw [fit.counted]; simp [removable])]
    apply erase_ready rb ready member
    · rw [sent]
      exact State.noConfusion
    · rw [sent]
      exact State.noConfusion

theorem truncate_end_ready {cli : Client} {o : Object} {e : Extent} (ready : Ready cli o)
    (member : e ∈ o.extents) :
    Ready cli (oscCacheTruncateEnd o e) := by
  have fit := ready.sound.good.fit e member
  unfold oscCacheTruncateEnd
  split
  · exact ready
  · rename_i cut
    rw [not_or, not_not] at cut
    obtain ⟨trunc, left⟩ := cut
    have notActive : e.oeState ≠ .active := by rw [trunc]; exact State.noConfusion
    have quiet := quiet_of_kept fit.toKept notActive
    have pages := pages_of_idle ready member notActive
    have calm := fit.calm (Or.inr trunc)
    have refs := two_references fit.toKept (Or.inl trunc)
    rw [if_neg (by rw [fit.counted, calm, refs]; simp [pages])]
    have kept : Kept cli
        { e with
          oeState := .cache
          oeUrgent := e.oeFsyncWait
          oeLink := if e.oeFsyncWait = true then .urgent else e.oeLink
          oeRefc := e.oeRefc - 1 } := by
      apply kept_idle fit.toKept
      case body => rfl
      case refs =>
        change e.oeRefc - 1 = 1
        omega
      case placed =>
        have placed := fit.placed
        unfold Placed at placed ⊢
        dsimp only
        cases is : e.oeLink <;> rw [is] at placed <;> split_ifs <;> simp_all
      case users => exact quiet.users
      case free => exact quiet.free
      case idle => exact State.noConfusion
      case live => exact ⟨State.noConfusion, State.noConfusion⟩
      case hp => exact fun hp => (fit.hp hp).1
      case wait => exact fun _ wait => Or.inl wait
      case calm => exact State.noConfusion
    exact (state_ready _ kept ready member ⟨rfl, rfl, rfl, rfl, rfl, rfl⟩ rfl rfl rfl rfl
      (by simp [oscUpdatePending, Object.set, weight, trunc])).1

theorem kept_pages_range {cli : Client} {e : Extent} {truncIndex : Nat} {part : Bool}
    (kept : Kept cli e) {index : Nat}
    (member : index ∈ keptPages e truncIndex part) :
    e.oeStart ≤ index ∧ index ≤ e.oeEnd ∧ index < truncIndex + part.toNat ∧ index ≤ truncIndex := by
  obtain ⟨page, stays⟩ := List.mem_filter.mp member
  obtain ⟨low, high⟩ := kept.within index page
  simp only [Bool.or_eq_true, Bool.and_eq_true, decide_eq_true_eq] at stays
  rcases stays with below | ⟨equal, partly⟩
  · exact ⟨low, high, by omega, by omega⟩
  · rw [partly]
    exact ⟨low, high, by simp [equal], by omega⟩

structure CutAt (cli : Client) (e : Extent) (pages : List Nat) (last : Nat) : Prop where
  some : pages ≠ []
  sub : pages.Sublist e.oePages
  chunk : ∀ index ∈ pages, index / cli.ppc ≤ last
  reach : last ≤ e.oeEnd / cli.ppc

theorem cut_facts {cli : Client} {e : Extent} {pages : List Nat} {last stop : Nat} (fit : Fit cli e)
    (cut : CutAt cli e pages last) (is : stop = min ((last + 1) * cli.ppc - 1) e.oeMaxEnd) :
    e.oeStart ≤ stop ∧ stop ≤ e.oeEnd ∧ e.oeStart / cli.ppc ≤ last ∧ stop / cli.ppc ≤ last ∧
      ∀ index ∈ pages, index ≤ stop := by
  have pos := ppc_pos cli
  have below (index : Nat) (member : index ∈ pages) : index ≤ stop := by
    have high := (fit.within index (cut.sub.subset member)).2
    have reach := fit.reach
    have bound : index < (last + 1) * cli.ppc :=
      Nat.lt_mul_of_div_lt (Nat.lt_succ_of_le (cut.chunk index member)) pos
    omega
  obtain ⟨index, rest, split⟩ := List.exists_cons_of_ne_nil cut.some
  have member : index ∈ pages := by simp [split]
  have low := (fit.within index (cut.sub.subset member)).1
  have under := below index member
  have chunk := Nat.div_le_div_right (c := cli.ppc) low
  have most := cut.chunk index member
  have short : stop / cli.ppc ≤ last := by
    have bound : stop < (last + 1) * cli.ppc := by
      have some : 0 < (last + 1) * cli.ppc := Nat.mul_pos (Nat.succ_pos last) pos
      omega
    exact Nat.lt_succ_iff.mp ((Nat.div_lt_iff_lt_mul pos).mpr bound)
  refine ⟨by omega, ?_, by omega, short, below⟩
  rcases fit.rear with aligned | full
  · obtain ⟨k, whole⟩ := Nat.dvd_of_mod_eq_zero aligned
    have lastChunk : e.oeEnd / cli.ppc < k := Nat.div_lt_of_lt_mul (by omega)
    have reach := cut.reach
    have times : (last + 1) * cli.ppc ≤ k * cli.ppc := Nat.mul_le_mul_right _ (by omega)
    rw [Nat.mul_comm k] at times
    omega
  · omega

theorem cut_grants {cli : Client} {e : Extent} {pages : List Nat} {last stop : Nat} (fit : Fit cli e)
    (cut : CutAt cli e pages last) (is : stop = min ((last + 1) * cli.ppc - 1) e.oeMaxEnd) :
    (stop / cli.ppc - e.oeStart / cli.ppc + 1) * cli.chunksize + cli.clExtentTax +
      (e.oeEnd / cli.ppc - last) * cli.chunksize ≤ e.oeGrants := by
  obtain ⟨_, _, start, short, _⟩ := cut_facts fit cut is
  have funded := fit.funded
  have reach := cut.reach
  have parts : (stop / cli.ppc - e.oeStart / cli.ppc + 1) + (e.oeEnd / cli.ppc - last) ≤ chunks cli e := by
    unfold chunks
    omega
  have paid := Nat.mul_le_mul_right cli.chunksize parts
  rw [Nat.add_mul] at paid
  omega

theorem shortened_fit {cli : Client} {e : Extent} {pages : List Nat} {last stop : Nat} (fit : Fit cli e)
    (cut : CutAt cli e pages last) (is : stop = min ((last + 1) * cli.ppc - 1) e.oeMaxEnd) :
    Fit cli (shortened e pages pages.length stop
      (e.oeGrants - (e.oeEnd / cli.ppc - last) * cli.chunksize)) := by
  obtain ⟨low, high, start, short, below⟩ := cut_facts fit cut is
  have grants := cut_grants fit cut is
  have shape : Shape cli (shortened e pages pages.length stop
      (e.oeGrants - (e.oeEnd / cli.ppc - last) * cli.chunksize)) := by
    refine ⟨low, ?_, fit.lockLow, fit.lockHigh, fit.front, ?_, fit.slot, fit.span⟩
    · exact Nat.le_trans high fit.reach
    · rcases Nat.le_total ((last + 1) * cli.ppc - 1) e.oeMaxEnd with whole | full
      · left
        have some : 0 < (last + 1) * cli.ppc := Nat.mul_pos (Nat.succ_pos last) (ppc_pos cli)
        change (stop + 1) % cli.ppc = 0
        rw [is, Nat.min_eq_left whole, Nat.sub_add_cancel some]
        exact Nat.mul_mod_left _ _
      · right
        change stop = e.oeMaxEnd
        rw [is, Nat.min_eq_right full]
  refine ⟨shape,
    { fit.toKept with
      placed := trivial
      counted := rfl
      single := fit.single.sublist cut.sub
      within := ?_
      funded := ?_ }⟩
  · intro index member
    exact ⟨(fit.within index (cut.sub.subset member)).1, below index member⟩
  · dsimp only [chunks, shortened]
    omega

theorem cut_ready {cli : Client} {o : Object} {e : Extent} {pages : List Nat} {stop freed : Nat}
    (ready : Ready cli o)
    (member : e ∈ o.extents) (trunc : e.oeState = .trunc)
    (fit : Fit cli (shortened e pages pages.length stop (e.oeGrants - freed))) (high : stop ≤ e.oeEnd)
    (some : pages ≠ []) (enough : freed ≤ e.oeGrants) :
    Ready cli { o.set (shortened e pages pages.length stop
      (e.oeGrants - freed)) with spent := o.spent + freed } := by
  obtain ⟨pre, post, split⟩ := split_extent member
  have good := ready.sound.good
  have holding := ready.holding
  have unused := (quiet_of_kept (good.fit e member).toKept (by rw [trunc]; exact State.noConfusion)).users
  rw [split] at good holding
  obtain ⟨left, right⟩ := good_before good
  generalize shorterIs : shortened e pages pages.length stop (e.oeGrants - freed) = shorter at fit
  have same : shorter.oeId = e.oeId := by rw [← shorterIs]; rfl
  have after : { o.set shorter with spent := o.spent + freed }.extents = pre ++ shorter :: post := by
    change (o.set shorter).extents = _
    rw [set_extents, split, map_set good.ids same]
  constructor
  · apply sound_replace ready.sound split after same fit
    case before =>
      intro a inPre
      rw [← shorterIs]
      exact before_right (left a inPre) (left a inPre).order rfl rfl
    case behind =>
      intro b inPost
      rw [← shorterIs]
      exact before_left (right b inPost) (Nat.lt_of_le_of_lt high (right b inPost).order) rfl rfl
    case next => rfl
    case pending => rw [← shorterIs]; simp [Object.set, weight, shortened, trunc]
    case ledger =>
      rw [← shorterIs]
      dsimp only [Object.set, shortened]
      omega
    case running => exact ready.sound.running
  · rw [after]
    have nobody (h : Holder) (holder : h ∈ o.holders) : h.ext ≠ e.oeId := by
      have zero := holding.users e (by simp)
      rw [unused] at zero
      simpa using List.countP_eq_zero.mp zero.symm h holder
    apply held_replace holding good.ids same rfl holding.threads
    case users =>
      rw [← holding.users e (by simp), ← shorterIs]
      rfl
    case reach => exact fun h holder mine => absurd mine (nobody h holder)
    case filled =>
      rw [← shorterIs]
      exact fun none => absurd none some

theorem truncate_ready {cli : Client} (rb : Shaping Extent) {o : Object} {e : Extent}
    {truncIndex : Nat} {part : Bool}
    (ready : Ready cli o) (member : e ∈ o.extents) (reaches : truncIndex ≤ e.oeEnd) :
    Ready cli (oscExtentTruncate rb cli o e truncIndex part) := by
  have fit := ready.sound.good.fit e member
  have sub : (keptPages e truncIndex part).Sublist e.oePages := List.filter_sublist
  have range (index : Nat) (page : index ∈ keptPages e truncIndex part) := kept_pages_range fit.toKept page
  have few := sub.length_le
  have count : e.oeNrPages - (e.oePages.length - (keptPages e truncIndex part).length) =
      (keptPages e truncIndex part).length := by
    rw [fit.counted]
    omega
  unfold oscExtentTruncate
  dsimp only
  rw [count]
  generalize keptPages e truncIndex part = pages at sub range
  split
  · exact ready
  · rename_i trunc
    rw [not_not] at trunc
    have uncached : e.oeState ≠ .cache := by rw [trunc]; exact State.noConfusion
    have inactive : e.oeState ≠ .active := by rw [trunc]; exact State.noConfusion
    rw [if_neg (by rw [sanity_check_fit fit, fit.calm (Or.inr trunc)]; simp)]
    by_cases empty : pages = []
    · have removable := removable_kept fit.toKept (Or.inl trunc)
      rw [empty, if_neg (by simp), if_pos (by simp), if_neg (by simp [removable])]
      exact erase_ready rb ready member uncached inactive
    · obtain ⟨index, rest, split⟩ := List.exists_cons_of_ne_nil empty
      have first : index ∈ pages := by simp [split]
      have some : pages.length ≠ 0 := by simp [empty]
      have far : ¬ (truncIndex + part.toNat ≤ e.oeStart ∧ pages.length ≠ 0) := by
        have bounds := range index first
        omega
      have chunk (i : Nat) (page : i ∈ pages) : i / cli.ppc ≤ truncIndex / cli.ppc :=
        Nat.div_le_div_right (range i page).2.2.2
      have inChunk (none : pages.countP (fun i => decide (i / cli.ppc = truncIndex / cli.ppc)) = 0) (i : Nat)
          (page : i ∈ pages) : i / cli.ppc < truncIndex / cli.ppc := by
        have other := List.countP_eq_zero.mp none i page
        simp only [decide_eq_true_eq] at other
        exact Nat.lt_of_le_of_ne (chunk i page) other
      have notFirst : ¬ (pages.countP (fun i => decide (i / cli.ppc = truncIndex / cli.ppc)) = 0 ∧
          truncIndex / cli.ppc = 0) := by
        rintro ⟨none, zero⟩
        have less := inChunk none index first
        rw [zero] at less
        exact absurd less (Nat.not_lt_zero _)
      rw [if_neg far, if_neg some, if_neg notFirst]
      have reach := Nat.div_le_div_right (c := cli.ppc) reaches
      generalize lastIs : (if pages.countP (fun i => decide (i / cli.ppc = truncIndex / cli.ppc)) = 0 then
        truncIndex / cli.ppc - 1 else truncIndex / cli.ppc) = last
      have cut : CutAt cli e pages last := by
        refine ⟨empty, sub, fun i page => ?_, ?_⟩
        · rw [← lastIs]
          split_ifs with none
          · have less := inChunk none i page
            omega
          · exact chunk i page
        · rw [← lastIs]
          split_ifs
          · exact Nat.le_trans (Nat.sub_le _ 1) reach
          · exact reach
      generalize is : min ((last + 1) * cli.ppc - 1) e.oeMaxEnd = stop
      obtain ⟨low, high, _, _, _⟩ := cut_facts fit cut is.symm
      have grants := cut_grants fit cut is.symm
      have positive := chunksize_pos cli
      have left : ¬ (stop < e.oeStart ∨ e.oeGrants ≤ (e.oeEnd / cli.ppc - last) * cli.chunksize) := by
        rw [Nat.succ_mul] at grants
        omega
      rw [if_neg left]
      exact cut_ready ready member trunc (shortened_fit fit cut is.symm) high empty (by omega)

/-- What the callers provide, event by event. A page is written under a write lock that it lies in,
    with enough grants; the locks that are held at one time exclude each other, the size of an RPC
    does not change while extents are cached, a lock is cancelled once, whole and not while it is in
    use, nothing syncs or waits for an extent that a truncate waits for, and a truncate runs alone. -/
def Permitted (cli : Client) (o : Object) : Event → Prop
  | .find _ olck index maxPages grants => Granted cli o.extents olck index maxPages grants
  | .kick _ id => ∀ e ∈ o.extents, e.oeId = id → e.oeTruncPending = false
  | .writeback start stop hp discard =>
    ∀ e ∈ o.extents, start ≤ e.oeEnd → e.oeStart ≤ stop → Flushable e start stop hp discard
  | .truncateStart index => ∀ e ∈ o.extents, index ≤ e.oeEnd → e.oeState ≠ .trunc ∧ e.oeTruncPending = false
  | _ => True

/-- A truncate does not run into the extents of a lock that is being cancelled. -/
def Uncancelled (o : Object) : Event → Prop
  | .truncateStart index =>
    ∀ e ∈ o.extents, index ≤ e.oeEnd → e.oeState = .cache → e.oeHp = true → e.oeUrgent = true
  | _ => True

instance (a b : Lock) : Decidable (Exclusive a b) := inferInstanceAs (Decidable (_ ∨ _ ∨ _))

instance (cli : Client) (es : List Extent) (olck : Lock) (index maxPages grants : Nat) :
    Decidable (Granted cli es olck index maxPages grants) :=
  decidable_of_iff
    (olck.start ≤ index ∧ index ≤ olck.stop ∧ olck.mode ≠ .pr ∧ 0 < maxPages ∧ maxPages % cli.ppc = 0 ∧
      cli.chunksize + cli.clExtentTax ≤ grants ∧ (∀ e ∈ es, Exclusive e.oeDlmlock olck) ∧
      ∀ e ∈ es, e.oeMppr = maxPages)
    ⟨fun ⟨low, high, write, pages, whole, enough, locks, size⟩ =>
        ⟨low, high, write, pages, whole, enough, locks, size⟩,
      fun ⟨low, high, write, pages, whole, enough, locks, size⟩ =>
        ⟨low, high, write, pages, whole, enough, locks, size⟩⟩

instance (e : Extent) (start stop : Nat) (hp discard : Bool) :
    Decidable (Flushable e start stop hp discard) :=
  decidable_of_iff
    ((hp = false → discard = false → e.oeTruncPending = false) ∧
      (hp = true ∨ discard = true → e.oeState ≠ .active) ∧
      (hp = true → e.oeHp = false) ∧ (discard = true → start ≤ e.oeDlmlock.start ∧ e.oeDlmlock.stop ≤ stop))
    ⟨fun ⟨truncating, inactive, once, inside⟩ => ⟨truncating, inactive, once, inside⟩,
      fun flushable => ⟨flushable.truncating, flushable.inactive, flushable.once, flushable.inside⟩⟩

instance (cli : Client) (o : Object) : (e : Event) → Decidable (Permitted cli o e)
  | .find _ olck index maxPages grants =>
    inferInstanceAs (Decidable (Granted cli o.extents olck index maxPages grants))
  | .kick _ id => inferInstanceAs (Decidable (∀ e ∈ o.extents, e.oeId = id → e.oeTruncPending = false))
  | .writeback start stop hp discard => inferInstanceAs
    (Decidable (∀ e ∈ o.extents, start ≤ e.oeEnd → e.oeStart ≤ stop → Flushable e start stop hp discard))
  | .truncateStart index => inferInstanceAs
    (Decidable (∀ e ∈ o.extents, index ≤ e.oeEnd → e.oeState ≠ .trunc ∧ e.oeTruncPending = false))
  | .expand _ _ => isTrue trivial
  | .page _ => isTrue trivial
  | .release _ => isTrue trivial
  | .send _ => isTrue trivial
  | .ready _ => isTrue trivial
  | .finish _ => isTrue trivial
  | .truncate _ _ _ => isTrue trivial
  | .truncateEnd _ => isTrue trivial

instance (o : Object) : (e : Event) → Decidable (Uncancelled o e)
  | .truncateStart index => inferInstanceAs
    (Decidable (∀ e ∈ o.extents, index ≤ e.oeEnd → e.oeState = .cache → e.oeHp = true → e.oeUrgent = true))
  | .find _ _ _ _ _ => isTrue trivial
  | .expand _ _ => isTrue trivial
  | .page _ => isTrue trivial
  | .release _ => isTrue trivial
  | .kick _ _ => isTrue trivial
  | .writeback _ _ _ _ => isTrue trivial
  | .send _ => isTrue trivial
  | .ready _ => isTrue trivial
  | .finish _ => isTrue trivial
  | .truncate _ _ _ => isTrue trivial
  | .truncateEnd _ => isTrue trivial

theorem truncate_start_cases {cli : Client} {o : Object} {index : Nat} (ready : Ready cli o)
    (permitted : Permitted cli o (.truncateStart index)) :
    Ready cli (truncateMark o (rangeStart o index)) ∨
      (∃ o', Ready cli o' ∧ truncateMark o (rangeStart o index) = o'.fail) ∧
        ¬ Uncancelled o (.truncateStart index) := by
  have good := ready.sound.good
  have inside (e : Extent) (member : e ∈ rangeStart o index) : e ∈ o.extents ∧ index ≤ e.oeEnd := by
    rw [range_start_eq good] at member
    simpa using List.mem_filter.mp member
  have all (e : Extent) (member : e ∈ rangeStart o index) :
      e ∈ o.extents ∧ e.oeState ≠ .trunc ∧ e.oeTruncPending = false :=
    ⟨(inside e member).1, permitted e (inside e member).1 (inside e member).2⟩
  apply (truncate_mark_cases ready all (range_ids good index)).imp_right
  rintro ⟨failed, e, member, cached, hp, calm⟩
  refine ⟨failed, fun uncancelled => ?_⟩
  rw [uncancelled e (inside e member).1 (inside e member).2 cached hp] at calm
  cases calm

theorem step_cases (rb : Shaping Extent) {cli : Client} (o : Object) (e : Event) (ready : Ready cli o)
    (permitted : Permitted cli o e) :
    Ready cli (step rb cli o e) ∨ (∃ o', Ready cli o' ∧ step rb cli o e = o'.fail) ∧ ¬ Uncancelled o e := by
  unfold step
  rw [if_neg (by rw [ready.sound.running]; exact Bool.false_ne_true)]
  by_cases start : ∃ index, e = .truncateStart index
  · obtain ⟨index, rfl⟩ := start
    exact truncate_start_cases ready permitted
  apply Or.inl
  cases e with
  | find t olck index maxPages grants =>
    dsimp only
    split
    · exact ready
    · rename_i unknown
      rw [Bool.not_eq_true, Option.isSome_eq_false_iff, Option.isNone_iff_eq_none] at unknown
      have finding := find_finding rb ready unknown permitted
      generalize oscExtentFind rb cli o olck index maxPages grants = r at finding
      cases finding with
      | conflict e member covers busy => exact ready
      | extent e grants after member covers lock active balance same filled => exact after
  | expand t index =>
    dsimp only
    split
    · rename_i t' id found
      obtain ⟨holder, _⟩ := holder_some found
      exact at_ready ready fun ext member is => expand_ready index ready member holder is.symm
    · exact ready
  | page t =>
    dsimp only
    split
    · rename_i t' id index found
      obtain ⟨holder, _⟩ := holder_some found
      exact at_ready ready fun ext member is => page_ready ready member holder is.symm rfl
    · exact ready
  | release t =>
    dsimp only
    split
    · rename_i t' id found
      obtain ⟨holder, _⟩ := holder_some found
      exact at_ready ready fun ext member is => release_ready rb ready member holder is.symm rfl
    · exact ready
  | kick t id =>
    dsimp only
    split
    · exact ready
    · rename_i unknown
      rw [Bool.not_eq_true, Option.isSome_eq_false_iff, Option.isNone_iff_eq_none] at unknown
      apply at_ready ready
      rintro ext member rfl
      exact kick_ready ready unknown member (permitted ext member rfl)
  | writeback start stop hp discard => exact writeback_ready ready permitted
  | send id => exact at_ready ready fun ext member _ => send_ready ready member
  | ready id => exact at_ready ready fun ext member _ => make_ready_ready ready member
  | finish id => exact at_ready ready fun ext member _ => finish_ready rb ready member
  | truncateStart index => exact absurd ⟨index, rfl⟩ start
  | truncate id truncIndex part =>
    apply at_ready ready
    intro ext member _
    split
    · exact ready
    · rename_i reaches
      exact truncate_ready rb ready member (Nat.le_of_not_lt reaches)
  | truncateEnd id => exact at_ready ready fun ext member _ => truncate_end_ready ready member

def clean : Object := ⟨.nil, 0, 0, [], 0, 0, 0, false⟩

theorem clean_ready (cli : Client) : Ready cli clean := by
  have none (e : Extent) : e ∉ clean.extents := List.not_mem_nil
  have nobody (h : Holder) : h ∉ clean.holders := List.not_mem_nil
  refine ⟨⟨⟨List.nodup_nil, List.Pairwise.nil, ?_⟩, ?_, rfl, ?_, rfl⟩, ⟨?_, List.nodup_nil, ?_, ?_⟩⟩
  · exact fun e member => absurd member (none e)
  · exact fun e member => absurd member (none e)
  · simp [clean, totalGrants, Object.extents, inorder]
  · exact fun e member => absurd member (none e)
  · exact fun h holder => absurd holder (nobody h)
  · exact fun e member => absurd member (none e)

def Stands (cli : Client) (o : Object) : Prop := Ready cli { o with lbug := false }

theorem stands_iff_ready {cli : Client} {o : Object} (running : o.lbug = false) :
    Stands cli o ↔ Ready cli o := by
  rw [Stands, ← running]

theorem step_stands (rb : Shaping Extent) {cli : Client} (o : Object) (e : Event) (stands : Stands cli o)
    (permitted : Permitted cli o e) : Stands cli (step rb cli o e) := by
  cases crashed : o.lbug with
  | true =>
    unfold step
    rw [if_pos crashed]
    exact stands
  | false =>
    rcases step_cases rb o e ((stands_iff_ready crashed).mp stands) permitted with ready | ⟨⟨o',
        ready, failed⟩, _⟩
    · exact (stands_iff_ready ready.sound.running).mpr ready
    · rw [failed]
      exact (stands_iff_ready ready.sound.running).mpr ready

theorem run_stands (rb : Shaping Extent) (cli : Client) (es : List Event)
    (permitted : Along (step rb cli) (Permitted cli) clean es) : Always (step rb cli) (Stands cli) clean es :=
  always_of_along (step_stands rb) (clean_ready cli) permitted

theorem run_ready (rb : Shaping Extent) (cli : Client) (es : List Event)
    (permitted : Along (step rb cli) (Permitted cli) clean es)
    (uncancelled : Along (step rb cli) Uncancelled clean es) :
    Always (step rb cli) (Ready cli) clean es := by
  apply always_of_along _ (clean_ready cli) (along_and.mpr ⟨permitted, uncancelled⟩)
  intro o e ready both
  exact (step_cases rb o e ready both.1).resolve_right fun failed => failed.2 both.2

/-- A thread fills the gap between two extents, another one comes in, and a sync and a truncate are
    on their way. -/
def mixed : List Event :=
  let lock : Lock := ⟨1, .pw, 1, 40⟩
  [.find 1 lock 8 8 12288, .page 1, .release 1, .find 1 lock 13 8 12288, .page 1, .release 1,
    .find 1 lock 10 8 12288,
    .find 2 lock 9 8 12288, .page 2, .page 1, .expand 1 14, .page 1, .release 2, .release 1,
      .writeback 0 9 false false,
    .find 3 lock 20 8 12288, .page 3, .truncateStart 17, .release 3, .truncate 2 17 true, .send 0,
      .ready 0, .finish 0,
    .find 1 lock 7 8 12288, .page 1, .release 1]

def oneTax : Client := ⟨1, 4096, true⟩

theorem mixed_permitted : Along (step (plain Extent) oneTax) (Permitted oneTax) clean mixed :=
  by decide +kernel

theorem mixed_uncancelled : Along (step (plain Extent) oneTax) Uncancelled clean mixed := by decide +kernel

/-- A truncate of pages whose lock is being cancelled finds an extent on `oo_hp_exts`. -/
example :
    (run (step (plain Extent) ⟨0, 0, false⟩) clean
      [.find 1 ⟨1, .pw, 0, 40⟩ 4 8 4096, .page 1, .release 1, .writeback 0 40 true false,
        .truncateStart 0]).lbug = true := by
  decide +kernel

/-- In every state that is reached, a writer finds the extent of its page under its own lock, or one
    around the page that is being written. What it takes of its grants goes into the extents, except
    where it fills a gap: then it has the tax of the extent that went back, and the extent that is
    left keeps it as well. -/
theorem find_covers (rb : Shaping Extent) (cli : Client) (es : List Event)
    (permitted : Along (step rb cli) (Permitted cli) clean es) :
    Always (step rb cli)
      (fun o => o.lbug = false →
        ∀ t olck index maxPages grants, o.holder t = none → Granted cli o.extents olck index maxPages grants →
          (∃ e ∈ o.extents, oscExtentFind rb cli o olck index maxPages grants = (o, .conflict e.oeId) ∧
            (e.oeStart ≤ index ∧ index ≤ e.oeEnd) ∧ (e.oeState.busy = true ∨ e.oeFsyncWait = true)) ∨
          ∃ o' e rest, oscExtentFind rb cli o olck index maxPages grants = (o', .extent e.oeId rest) ∧
            o'.lbug = false ∧ e ∈ o'.extents ∧ (e.oeStart ≤ index ∧ index ≤ e.oeEnd) ∧ e.oeDlmlock = olck ∧
            e.oeState = .active ∧
            totalGrants o'.extents + rest = totalGrants o.extents + grants +
              if o'.extents.length < o.extents.length then (cli.clExtentTax : Int) else 0)
      clean es := by
  apply always_mono _ (run_stands rb cli es permitted)
  intro o stands running t olck index maxPages grants unknown granted
  have ready := (stands_iff_ready running).mp stands
  have finding := find_finding rb ready unknown granted
  generalize oscExtentFind rb cli o olck index maxPages grants = r at finding
  cases finding with
  | conflict e member covers busy => exact Or.inl ⟨e, member, rfl, covers, busy⟩
  | @extent o' e rest after member covers lock active balance same filled =>
    refine Or.inr ⟨o', e, rest, rfl, after.sound.running, member, covers, lock, active, ?_⟩
    have ledger := ready.sound.ledger
    have ledger' : totalGrants o'.extents + o'.spent = o'.taken + o'.gaps * cli.clExtentTax :=
      after.sound.ledger
    rw [filled, same] at ledger'
    split_ifs at ledger' ⊢
    · rw [Int.natCast_add, Int.add_mul] at ledger'
      omega
    · rw [Nat.add_zero] at ledger'
      omega

theorem find_covers_mixed :
    Always (step (plain Extent) oneTax)
      (fun o => o.lbug = false →
        ∀ t olck index maxPages grants, o.holder t = none → Granted oneTax o.extents olck index
          maxPages grants →
          (∃ e ∈ o.extents, oscExtentFind (plain Extent) oneTax o olck index maxPages grants =
            (o, .conflict e.oeId) ∧
            (e.oeStart ≤ index ∧ index ≤ e.oeEnd) ∧ (e.oeState.busy = true ∨ e.oeFsyncWait = true)) ∨
          ∃ o' e rest, oscExtentFind (plain Extent) oneTax o olck index maxPages grants =
            (o', .extent e.oeId rest) ∧
            o'.lbug = false ∧ e ∈ o'.extents ∧ (e.oeStart ≤ index ∧ index ≤ e.oeEnd) ∧ e.oeDlmlock = olck ∧
            e.oeState = .active ∧
            totalGrants o'.extents + rest = totalGrants o.extents + grants +
              if o'.extents.length < o.extents.length then (oneTax.clExtentTax : Int) else 0)
      clean mixed := find_covers (plain Extent) oneTax mixed mixed_permitted

/-- An extent counts the threads that hold it, a page that a thread is to add lies in the extent it
    holds, and an extent that nobody holds has pages. -/
theorem holders_counted (rb : Shaping Extent) (cli : Client) (es : List Event)
    (permitted : Along (step rb cli) (Permitted cli) clean es) :
    Always (step rb cli)
      (fun o => (∀ e ∈ o.extents, e.oeUsers = o.holders.countP fun h => decide (h.ext = e.oeId)) ∧
        (∀ h ∈ o.holders, ∃ e ∈ o.extents, e.oeId = h.ext ∧ e.oeState = .active ∧
          ∀ index, h.index = some index → e.oeStart ≤ index ∧ index ≤ e.oeEnd) ∧
        ∀ e ∈ o.extents, e.oeState ≠ .active → e.oePages ≠ [])
      clean es := by
  apply always_mono _ (run_stands rb cli es permitted)
  intro o ready
  refine ⟨ready.holding.users, fun h holder => ?_, fun e member idle => pages_of_idle ready member idle⟩
  obtain ⟨e, member, is, covers⟩ := ready.holding.reach h holder
  exact ⟨e, member, is, active_of_holder ready member holder is.symm, covers⟩

theorem holders_counted_mixed :
    Always (step (plain Extent) oneTax)
      (fun o => (∀ e ∈ o.extents, e.oeUsers = o.holders.countP fun h => decide (h.ext = e.oeId)) ∧
        (∀ h ∈ o.holders, ∃ e ∈ o.extents, e.oeId = h.ext ∧ e.oeState = .active ∧
          ∀ index, h.index = some index → e.oeStart ≤ index ∧ index ≤ e.oeEnd) ∧
        ∀ e ∈ o.extents, e.oeState ≠ .active → e.oePages ≠ [])
      clean mixed := holders_counted (plain Extent) oneTax mixed mixed_permitted

/-- With an RPC size that changes under a cached extent the slots of two sizes may end at the same
    page, and the extent grows beyond its own size. -/
example :
    (run (step (plain Extent) ⟨0, 0, false⟩) clean
      [.find 1 ⟨1, .pw, 0, 9⟩ 2 2 4096, .page 1, .expand 1 3, .page 1, .release 1,
        .find 1 ⟨1, .pw, 0, 9⟩ 1 4 4096, .page 1,
        .release 1]).lbug = true := by decide +kernel

/-- A sync of an extent that a truncate waits for makes it urgent, and the truncate then stops. -/
example :
    (run (step (plain Extent) ⟨0, 0, false⟩) clean
      [.find 1 ⟨1, .pw, 0, 9⟩ 2 2 4096, .page 1, .truncateStart 0, .writeback 0 9 false false, .release 1,
        .truncate 0 0 false]).lbug = true := by decide +kernel

end Extents
