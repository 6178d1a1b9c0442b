import LustreTools.Osc.ExtentOps

/-!
The threads inside a write. A thread finds the extent of its page, expands it, adds pages and
releases it; meanwhile others hold the same extent or merge into it. An extent is in use by exactly
the threads that hold it, and a page is added to an extent that covers it.
-/
namespace Extents
open Runs SearchTree Words

/-- The threads that use the extents: each is counted by its extent, the page it is to add lies in
    the extent, and an extent without a page is about to get one. -/
structure Held (es : List Extent) (hs : List Holder) : Prop where
  users : ∀ e ∈ es, e.oeUsers = hs.countP fun h => decide (h.ext = e.oeId)
  threads : (hs.map Holder.thread).Nodup
  reach : ∀ h ∈ hs, ∃ e ∈ es, e.oeId = h.ext ∧ ∀ index, h.index = some index →
    e.oeStart ≤ index ∧ index ≤ e.oeEnd
  filled : ∀ e ∈ es, e.oePages = [] → ∃ h ∈ hs, h.ext = e.oeId ∧ h.index ≠ none

def Elsewhere (id : Nat) (hs hs' : List Holder) : Prop :=
  hs'.filter (fun h => decide (h.ext ≠ id)) = hs.filter fun h => decide (h.ext ≠ id)

theorem elsewhere_mem {id : Nat} {hs hs' : List Holder} (elsewhere : Elsewhere id hs hs')
    {h : Holder} (other : h.ext ≠ id) :
    h ∈ hs' ↔ h ∈ hs := by
  have same : h ∈ hs'.filter (fun h => decide (h.ext ≠ id)) ↔ h ∈ hs.filter fun h => decide (h.ext ≠ id) := by
    rw [elsewhere]
  simpa [List.mem_filter, other] using same

theorem elsewhere_count {id other : Nat} {hs hs' : List Holder} (elsewhere : Elsewhere id hs hs')
    (differs : other ≠ id) :
    hs'.countP (fun h => decide (h.ext = other)) = hs.countP fun h => decide (h.ext = other) := by
  have part (xs : List Holder) : xs.countP (fun h => decide (h.ext = other)) =
      (xs.filter fun h => decide (h.ext ≠ id)).countP fun h => decide (h.ext = other) := by
    rw [List.countP_filter]
    apply List.countP_congr
    intro h _
    simp only [decide_eq_true_eq, Bool.and_eq_true]
    exact ⟨fun is => ⟨is, is ▸ differs⟩, And.left⟩
  rw [part hs', part hs, elsewhere]

theorem held_replace {pre post : List Extent} {e e' : Extent} {hs hs' : List Holder}
    (holding : Held (pre ++ e :: post) hs) (ids : ((pre ++ e :: post).map Extent.oeId).Nodup)
    (same : e'.oeId = e.oeId)
    (elsewhere : Elsewhere e.oeId hs hs') (threads : (hs'.map Holder.thread).Nodup)
    (users : e'.oeUsers = hs'.countP fun h => decide (h.ext = e.oeId))
    (reach : ∀ h ∈ hs', h.ext = e.oeId → ∀ index, h.index = some index → e'.oeStart ≤ index ∧
      index ≤ e'.oeEnd)
    (filled : e'.oePages = [] → ∃ h ∈ hs', h.ext = e.oeId ∧ h.index ≠ none) :
    Held (pre ++ e' :: post) hs' := by
  have others (x : Extent) (member : x ∈ pre ∨ x ∈ post) : x ∈ pre ++ e :: post := by
    simp only [List.mem_append, List.mem_cons]
    tauto
  constructor
  case users =>
    intro x member
    simp only [List.mem_append, List.mem_cons] at member
    rcases member with inPre | rfl | inPost
    · rw [holding.users x (others x (Or.inl inPre)), elsewhere_count elsewhere (other_ids ids (Or.inl inPre))]
    · rw [users, same]
    · rw [holding.users x (others x (Or.inr inPost)), elsewhere_count elsewhere
        (other_ids ids (Or.inr inPost))]
  case threads => exact threads
  case reach =>
    intro h holder
    by_cases mine : h.ext = e.oeId
    · exact ⟨e', by simp, by rw [same, mine], reach h holder mine⟩
    · obtain ⟨x, member, is, covers⟩ := holding.reach h ((elsewhere_mem elsewhere mine).mp holder)
      simp only [List.mem_append, List.mem_cons] at member
      rcases member with inPre | rfl | inPost
      · exact ⟨x, by simp [inPre], is, covers⟩
      · exact absurd is.symm mine
      · exact ⟨x, by simp [inPost], is, covers⟩
  case filled =>
    intro x member empty
    simp only [List.mem_append, List.mem_cons] at member
    have old (inside : x ∈ pre ∨ x ∈ post) : ∃ h ∈ hs', h.ext = x.oeId ∧ h.index ≠ none := by
      obtain ⟨h, holder, is, waits⟩ := holding.filled x (others x inside) empty
      exact ⟨h, (elsewhere_mem elsewhere (is ▸ other_ids ids inside)).mpr holder, is, waits⟩
    rcases member with inPre | rfl | inPost
    · exact old (Or.inl inPre)
    · rw [same]
      exact filled empty
    · exact old (Or.inr inPost)

theorem held_wider {pre post : List Extent} {e e' : Extent} {hs : List Holder}
    (holding : Held (pre ++ e :: post) hs)
    (ids : ((pre ++ e :: post).map Extent.oeId).Nodup) (same : e'.oeId = e.oeId)
    (users : e'.oeUsers = e.oeUsers)
    (low : e'.oeStart ≤ e.oeStart) (high : e.oeEnd ≤ e'.oeEnd) (pages : e'.oePages = [] → e.oePages = []) :
    Held (pre ++ e' :: post) hs := by
  have member : e ∈ pre ++ e :: post := by simp
  apply held_replace holding ids same rfl holding.threads
  case users => rw [users, holding.users e member]
  case reach =>
    intro h holder mine index is
    obtain ⟨x, inside, id, covers⟩ := holding.reach h holder
    have this : x = e := same_extent ids inside member (id.trans mine)
    have range := covers index is
    rw [this] at range
    omega
  case filled => exact fun empty => holding.filled e member (pages empty)

theorem held_erase {pre post : List Extent} {e : Extent} {hs : List Holder}
    (holding : Held (pre ++ e :: post) hs)
    (unused : e.oeUsers = 0) : Held (pre ++ post) hs := by
  have fewer : ∀ x ∈ pre ++ post, x ∈ pre ++ e :: post := by
    intro x member
    simp only [List.mem_append, List.mem_cons] at member ⊢
    tauto
  have none (h : Holder) (holder : h ∈ hs) : h.ext ≠ e.oeId := by
    have zero := holding.users e (by simp)
    rw [unused] at zero
    have no := List.countP_eq_zero.mp zero.symm h holder
    simpa using no
  constructor
  case users => exact fun x member => holding.users x (fewer x member)
  case threads => exact holding.threads
  case reach =>
    intro h holder
    obtain ⟨x, member, is, covers⟩ := holding.reach h holder
    simp only [List.mem_append, List.mem_cons] at member
    rcases member with inPre | rfl | inPost
    · exact ⟨x, by simp [inPre], is, covers⟩
    · exact absurd is.symm (none h holder)
    · exact ⟨x, by simp [inPost], is, covers⟩
  case filled => exact fun x member => holding.filled x (fewer x member)

theorem held_joined {pre post : List Extent} {cur victim : Extent} {hs : List Holder}
    (holding : Held (pre ++ cur :: post) hs) (ids : ((pre ++ cur :: post).map Extent.oeId).Nodup) :
    Held (pre ++ joined cur victim :: post) hs := by
  have same : (joined cur victim).oeId = cur.oeId := rfl
  apply held_wider holding ids same
  case users => rfl
  case low => exact Nat.min_le_left _ _
  case high => exact Nat.le_max_left _ _
  case pages => exact fun empty => (List.append_eq_nil_iff.mp empty).2

theorem merged_held {cli : Client} {o : Object} {cur : Extent} {r : Object × Extent × Bool} {hs : List Holder}
    (merged : Merged cli o cur r) (good : Good cli o.extents) (holding : Held o.extents hs) :
    Held r.1.extents hs := by
  cases merged with
  | apart => exact holding
  | join pre post a b victim split mergeable which after rest =>
    have unused : victim.oeUsers = 0 := by
      have fit : Fit cli victim ∧ victim.oeState = .cache := by
        rcases which with ⟨rfl, rfl⟩ | ⟨rfl, rfl⟩
        · exact ⟨good.fit victim (by simp [split]), mergeable.second⟩
        · exact ⟨good.fit victim (by simp [split]), mergeable.first⟩
      by_contra used
      have active := fit.1.users.mpr (Nat.pos_of_ne_zero used)
      rw [fit.2] at active
      cases active
    have ids := good.ids
    rw [split] at holding ids
    rw [after]
    rcases which with ⟨rfl, rfl⟩ | ⟨rfl, rfl⟩
    · have alone : Held (pre ++ cur :: post) hs := by
        have middle : Held ((pre ++ [cur]) ++ victim :: post) hs := by simpa using holding
        simpa using held_erase middle unused
      have fewer : (pre ++ cur :: post).Sublist (pre ++ cur :: victim :: post) :=
        ((List.sublist_cons_self victim post).cons_cons cur).append_left pre
      exact held_joined alone (ids.sublist (fewer.map _))
    · have alone : Held (pre ++ cur :: post) hs := held_erase holding unused
      have fewer : (pre ++ cur :: post).Sublist (pre ++ victim :: cur :: post) :=
        (List.sublist_cons_self victim (cur :: post)).append_left pre
      exact held_joined alone (ids.sublist (fewer.map _))

theorem holder_some {o : Object} {t : Nat} {h : Holder} (found : o.holder t = some h) :
    h ∈ o.holders ∧ h.thread = t := by
  have is := List.find?_some found
  exact ⟨List.mem_of_find?_eq_some found, by simpa using is⟩

theorem drop_unknown {o : Object} {t : Nat} (unknown : o.holder t = none) :
    o.holders.filter (fun h => h.thread ≠ t) = o.holders := by
  apply List.filter_eq_self.mpr
  intro h holder
  have no := List.find?_eq_none.mp unknown h holder
  simpa using no

theorem drop_known {hs front back : List Holder} {h : Holder} (threads : (hs.map Holder.thread).Nodup)
    (split : hs = front ++ h :: back) : hs.filter (fun x => x.thread ≠ h.thread) = front ++ back := by
  rw [split, List.map_append, List.map_cons, List.nodup_middle, List.nodup_cons, ← List.map_append] at threads
  have keep {xs : List Holder} (inside : ∀ x ∈ xs, x ∈ front ++ back) :
      xs.filter (fun x => x.thread ≠ h.thread) = xs := by
    apply List.filter_eq_self.mpr
    intro x member
    apply decide_eq_true
    intro same
    exact threads.1 (same ▸ List.mem_map_of_mem (inside x member))
  rw [split, List.filter_append, List.filter_cons, keep fun x member => List.mem_append_left _ member,
    keep fun x member => List.mem_append_right _ member]
  simp

structure Ready (cli : Client) (o : Object) : Prop where
  sound : Sound cli o
  holding : Held o.extents o.holders

theorem held_enter {o : Object} {pre post : List Extent} {e e' : Extent} {t : Nat} {index : Option Nat}
    (holding : Held (pre ++ e :: post) o.holders) (ids : ((pre ++ e :: post).map Extent.oeId).Nodup)
    (unknown : o.holder t = none) (same : e'.oeId = e.oeId) (users : e'.oeUsers = e.oeUsers + 1)
    (low : e'.oeStart ≤ e.oeStart) (high : e.oeEnd ≤ e'.oeEnd) (pages : e'.oePages = e.oePages)
    (covers : ∀ i, index = some i → e'.oeStart ≤ i ∧ i ≤ e'.oeEnd) :
    Held (pre ++ e' :: post) (o.give t e.oeId index).holders := by
  have is : (o.give t e.oeId index).holders = ⟨t, e.oeId, index⟩ :: o.holders := by
    simp only [Object.give, Object.drop]
    rw [drop_unknown unknown]
  have member : e ∈ pre ++ e :: post := by simp
  rw [is]
  apply held_replace holding ids same
  case elsewhere => simp [Elsewhere]
  case threads =>
    rw [List.map_cons, List.nodup_cons]
    refine ⟨fun known => ?_, holding.threads⟩
    obtain ⟨h, holder, thread⟩ := List.mem_map.mp known
    have no := List.find?_eq_none.mp unknown h holder
    simp [thread] at no
  case users => simp [users, holding.users e member]
  case reach =>
    intro h holder mine i found
    rcases List.mem_cons.mp holder with rfl | old
    · exact covers i found
    · obtain ⟨x, inside, id, range⟩ := holding.reach h old
      have this : x = e := same_extent ids inside member (id.trans mine)
      have within := range i found
      rw [this] at within
      omega
  case filled =>
    intro empty
    obtain ⟨h, holder, mine, waits⟩ := holding.filled e member (pages ▸ empty)
    exact ⟨h, List.mem_cons_of_mem _ holder, mine, waits⟩

theorem held_update {o : Object} {pre post : List Extent} {e e' : Extent} {h : Holder} {index : Option Nat}
    (holding : Held (pre ++ e :: post) o.holders) (ids : ((pre ++ e :: post).map Extent.oeId).Nodup)
    (holder : h ∈ o.holders) (mine : h.ext = e.oeId) (same : e'.oeId = e.oeId)
    (users : e'.oeUsers = e.oeUsers)
    (low : e'.oeStart ≤ e.oeStart) (high : e.oeEnd ≤ e'.oeEnd)
    (covers : ∀ i, index = some i → e'.oeStart ≤ i ∧ i ≤ e'.oeEnd) (pages : e'.oePages = [] → index ≠ none) :
    Held (pre ++ e' :: post) (o.give h.thread h.ext index).holders := by
  obtain ⟨front, back, split⟩ := List.append_of_mem holder
  have threads := holding.threads
  have is : (o.give h.thread h.ext index).holders = ⟨h.thread, h.ext, index⟩ :: (front ++ back) := by
    simp only [Object.give, Object.drop]
    rw [drop_known threads split]
  have member : e ∈ pre ++ e :: post := by simp
  rw [is, mine]
  apply held_replace holding ids same
  case elsewhere => simp [Elsewhere, split, mine]
  case threads =>
    rw [split, List.map_append, List.map_cons, List.nodup_middle, List.nodup_cons,
      ← List.map_append] at threads
    exact List.nodup_cons.mpr threads
  case users =>
    rw [users, holding.users e member, split]
    simp [mine]
    omega
  case reach =>
    intro x known its i found
    rcases List.mem_cons.mp known with rfl | old
    · exact covers i found
    · have inside : x ∈ o.holders := by
        rw [split]
        simp only [List.mem_append, List.mem_cons] at old ⊢
        tauto
      obtain ⟨y, there, id, range⟩ := holding.reach x inside
      have this : y = e := same_extent ids there member (id.trans its)
      have within := range i found
      rw [this] at within
      omega
  case filled => exact fun empty => ⟨⟨h.thread, e.oeId, index⟩, List.mem_cons_self, rfl, pages empty⟩

theorem held_leave {o : Object} {pre post : List Extent} {e e' : Extent} {h : Holder}
    (holding : Held (pre ++ e :: post) o.holders) (ids : ((pre ++ e :: post).map Extent.oeId).Nodup)
    (holder : h ∈ o.holders) (mine : h.ext = e.oeId) (done : h.index = none) (same : e'.oeId = e.oeId)
    (users : e'.oeUsers = e.oeUsers - 1) (start : e'.oeStart = e.oeStart) (stop : e'.oeEnd = e.oeEnd)
    (pages : e'.oePages = e.oePages) : Held (pre ++ e' :: post) (o.drop h.thread).holders := by
  obtain ⟨front, back, split⟩ := List.append_of_mem holder
  have threads := holding.threads
  have is : (o.drop h.thread).holders = front ++ back := drop_known threads split
  have member : e ∈ pre ++ e :: post := by simp
  have old (x : Holder) (known : x ∈ front ++ back) : x ∈ o.holders := by
    rw [split]
    simp only [List.mem_append, List.mem_cons] at known ⊢
    tauto
  rw [is]
  apply held_replace holding ids same
  case elsewhere => simp [Elsewhere, split, mine]
  case threads =>
    rw [split, List.map_append, List.map_cons, List.nodup_middle, List.nodup_cons,
      ← List.map_append] at threads
    exact threads.2
  case users =>
    rw [users, holding.users e member, split]
    simp [mine]
  case reach =>
    intro x known its i found
    obtain ⟨y, there, id, range⟩ := holding.reach x (old x known)
    have this : y = e := same_extent ids there member (id.trans its)
    rw [start, stop]
    exact this ▸ range i found
  case filled =>
    intro empty
    obtain ⟨x, known, its, waits⟩ := holding.filled e member (pages ▸ empty)
    have other : x ≠ h := by
      rintro rfl
      exact waits done
    rw [split] at known
    simp only [List.mem_append, List.mem_cons] at known
    refine ⟨x, ?_, its, waits⟩
    simp only [List.mem_append]
    tauto

theorem hold_extents {o : Object} {pre post : List Extent} {e x : Extent}
    (split : o.extents = pre ++ e :: post)
    (ids : (o.extents.map Extent.oeId).Nodup) (same : x.oeId = e.oeId)
    (state : x.oeState = .active ∨ x.oeState = .cache) :
    (oscExtentHold o x).extents = pre ++ held x :: post := by
  obtain ⟨tree, _⟩ := hold_tree (o := o) state
  rw [Object.extents, tree]
  change (o.set (held x)).extents = _
  rw [split] at ids
  rw [set_extents, split]
  exact map_set ids same

theorem hold_ready {cli : Client} {o : Object} {e x : Extent} {t : Nat} (index : Option Nat)
    (ready : Ready cli o)
    (unknown : o.holder t = none) (member : e ∈ o.extents) (same : SameSpan e x)
    (grants : x.oeGrants = e.oeGrants)
    (weights : weight x = weight e) (users : x.oeUsers = e.oeUsers) (pages : x.oePages = e.oePages)
    (kept : Kept cli x) (holdable : Holdable x) (covers : ∀ i, index = some i → e.oeStart ≤ i ∧ i ≤ e.oeEnd) :
    Ready cli ((oscExtentHold o x).give t e.oeId index) ∧ held x ∈ (oscExtentHold o x).extents := by
  have sound := hold_sound ready.sound member same grants weights kept holdable
  obtain ⟨_, _, _, _, _, holders⟩ := hold_tree (o := o) holdable.state
  obtain ⟨pre, post, split⟩ := split_extent member
  have ids := ready.sound.good.ids
  have after := hold_extents split ids same.id holdable.state
  refine ⟨⟨⟨sound.good, sound.fresh, sound.pending, sound.ledger, sound.running⟩, ?_⟩, by rw [after]; simp⟩
  have holding := ready.holding
  rw [split] at holding ids
  have unknown' : (oscExtentHold o x).holder t = none := by rw [Object.holder, holders]; exact unknown
  change Held (oscExtentHold o x).extents _
  rw [← holders] at holding
  rw [after]
  have id : (held x).oeId = e.oeId := same.id
  apply held_enter holding ids unknown' id
  case users => exact congrArg (· + 1) users
  case low => exact Nat.le_of_eq same.start
  case high => exact Nat.le_of_eq same.stop.symm
  case pages => exact pages
  case covers =>
    intro i is
    change x.oeStart ≤ i ∧ i ≤ x.oeEnd
    rw [same.start, same.stop]
    exact covers i is

/-- What `osc_extent_find` comes to: the extent of the page, held by the thread, or one around the
    page that has to be written first. -/
inductive Finding (cli : Client) (o : Object) (olck : Lock) (t index given : Nat) : Object × Found → Prop
  | conflict (e : Extent) (member : e ∈ o.extents) (covers : e.oeStart ≤ index ∧ index ≤ e.oeEnd)
      (busy : e.oeState.busy = true ∨ e.oeFsyncWait = true) :
        Finding cli o olck t index given (o, .conflict e.oeId)
  | extent {o' : Object} (e : Extent) (grants : Nat) (ready : Ready cli (o'.give t e.oeId (some index)))
      (member : e ∈ o'.extents) (covers : e.oeStart ≤ index ∧ index ≤ e.oeEnd) (lock : e.oeDlmlock = olck)
      (active : e.oeState = .active) (balance : o'.taken + grants = o.taken + given)
        (same : o'.spent = o.spent)
      (filled : o'.gaps = o.gaps + if o'.extents.length < o.extents.length then 1 else 0) :
      Finding cli o olck t index given (o', .extent e.oeId grants)

theorem finding_hold {cli : Client} {o o' : Object} {olck : Lock} {e : Extent} {t index given grants : Nat}
    (ready : Ready cli o') (unknown : o'.holder t = none) (member : e ∈ o'.extents)
    (state : e.oeState = .active ∨ e.oeState = .cache) (calm : e.oeFsyncWait = false)
    (lock : e.oeDlmlock = olck)
    (covers : e.oeStart ≤ index ∧ index ≤ e.oeEnd) (balance : o'.taken + grants = o.taken + given)
    (same : o'.spent = o.spent) (filled : o'.gaps = o.gaps +
      if o'.extents.length < o.extents.length then 1 else 0) :
    Finding cli o olck t index given (oscExtentHold o' e, .extent e.oeId grants) := by
  have fit := ready.sound.good.fit e member
  have holdable : Holdable e := by
    refine ⟨state, ?_, fun wait => ?_⟩
    · by_contra hp
      rw [(fit.hp (Bool.not_eq_false _ ▸ hp)).1] at calm
      cases calm
    · rw [calm] at wait
      cases wait
  obtain ⟨after, inside⟩ := hold_ready (some index) ready unknown member (same_span_refl e) rfl rfl rfl rfl
    fit.toKept holdable (by rintro i ⟨⟩; exact covers)
  obtain ⟨tree, _, ledger, _, _, _⟩ := hold_tree (o := o') state
  simp only [Prod.mk.injEq] at ledger
  have long : (oscExtentHold o' e).extents.length = o'.extents.length := by
    rw [Object.extents, tree]
    change (o'.set (held e)).extents.length = _
    rw [set_extents, List.length_map]
  refine .extent (held e) grants after inside covers lock rfl ?_ ?_ ?_
  · rw [ledger.1, balance]
  · rw [ledger.2.1, same]
  · rw [ledger.2.2, long, filled]

theorem new_extent_fit {cli : Client} {id : Nat} {olck : Lock} {index maxPages : Nat}
    (write : olck.mode ≠ .pr)
    (around : Around cli (newExtent cli id olck index maxPages) index) :
    Fit cli (created cli (newExtent cli id olck index maxPages)) := by
  refine ⟨⟨around.order, around.reach, around.lockLow, around.lockHigh, around.front, around.rear,
    around.slot, around.span⟩, ?_⟩
  constructor
  case refs => rfl
  case placed => exact trivial
  case unsynced => rfl
  case written => exact write
  case users => exact iff_of_true rfl Nat.one_pos
  case live => exact ⟨State.noConfusion, State.noConfusion⟩
  case hp => exact fun hp => absurd hp Bool.false_ne_true
  case activeWait => exact fun _ wait => absurd wait Bool.false_ne_true
  case cacheWait => exact State.noConfusion
  case pending => exact fun _ => rfl
  case calm => exact fun _ => rfl
  case counted => rfl
  case single => exact List.nodup_nil
  case within => exact fun _ page => absurd page List.not_mem_nil
  case funded =>
    have one : chunks cli (newExtent cli id olck index maxPages) = 1 := by
      rw [chunks, around.begins, around.ends, Nat.sub_self]
    change chunks cli (newExtent cli id olck index maxPages) * cli.chunksize + cli.clExtentTax ≤
      cli.chunksize + cli.clExtentTax
    rw [one, Nat.one_mul]

theorem grow_ready {cli : Client} {o : Object} {pre post : List Extent} {e : Extent} {start stop : Nat}
    (ready : Ready cli o) (split : o.extents = pre ++ e :: post) (shape : Shape cli (grown cli e start stop))
    (low : start ≤ e.oeStart) (high : e.oeEnd ≤ stop)
    (chunk : chunks cli (grown cli e start stop) = chunks cli e + 1)
    (before : ∀ a ∈ pre, a.oeEnd < start) (behind : ∀ b ∈ post, stop < b.oeStart) :
    Ready cli (o.grow cli (grown cli e start stop)) ∧
      (o.grow cli (grown cli e start stop)).extents = pre ++ grown cli e start stop :: post := by
  obtain ⟨sound, after⟩ := grow_sound ready.sound split shape low high chunk before behind
  refine ⟨⟨sound, ?_⟩, after⟩
  change Held (o.grow cli (grown cli e start stop)).extents o.holders
  have holding := ready.holding
  have ids := ready.sound.good.ids
  rw [split] at holding ids
  rw [after]
  have same : (grown cli e start stop).oeId = e.oeId := rfl
  exact held_wider holding ids same rfl low high id

theorem grow_length (o : Object) (cli : Client) (ext : Extent) :
    (o.grow cli ext).extents.length = o.extents.length := by
  change (o.set ext).extents.length = _
  rw [set_extents, List.length_map]

theorem overlapped_none {o : Object} {ext : Extent} (cli : Client)
    (apart : ∀ x ∈ o.extents, x.oeId ≠ ext.oeId → x.oeEnd < ext.oeStart ∨ ext.oeEnd < x.oeStart) :
    oscExtentIsOverlapped cli o ext = false := by
  rw [oscExtentIsOverlapped, Bool.and_eq_false_iff]
  right
  rw [List.any_eq_false]
  intro x member touch
  simp only [decide_eq_true_eq] at touch
  have free := apart x member touch.1
  omega

theorem good_apart {cli : Client} {es : List Extent} (good : Good cli es) {e x : Extent} (member : e ∈ es)
    (other : x ∈ es) (differs : x.oeId ≠ e.oeId) : x.oeEnd < e.oeStart ∨ e.oeEnd < x.oeStart := by
  obtain ⟨pre, post, rfl⟩ := split_extent member
  obtain ⟨left, right⟩ := good_before good
  simp only [List.mem_append, List.mem_cons] at other
  rcases other with inPre | rfl | inPost
  · exact Or.inl (left x inPre).order
  · exact absurd rfl differs
  · exact Or.inr (right x inPost).order

theorem find_front {cli : Client} {o : Object} {cur e : Extent} {index : Nat} (ready : Ready cli o)
    (around : Around cli cur index) (size : e.oeMppr = cur.oeMppr) (member : e ∈ o.extents)
    (clear : Clear cur o.extents) (same : cur.oeDlmlock = e.oeDlmlock) (slot : e.oeMaxEnd = cur.oeMaxEnd)
    (next : index / cli.ppc + 1 = e.oeStart / cli.ppc) :
    Ready cli (o.grow cli (grown cli e cur.oeStart e.oeEnd)) ∧
      grown cli e cur.oeStart e.oeEnd ∈ (o.grow cli (grown cli e cur.oeStart e.oeEnd)).extents ∧
      cur.oeStart ≤ e.oeStart := by
  obtain ⟨pre, post, split⟩ := split_extent member
  have good := ready.sound.good
  rw [split] at good
  have fit := good.fit e (by simp)
  obtain ⟨left, right⟩ := good_before good
  have low : cur.oeStart ≤ e.oeStart := by
    by_contra late
    have chunk := Nat.div_le_div_right (c := cli.ppc) (Nat.le_of_lt (Nat.lt_of_not_le late))
    rw [around.begins] at chunk
    omega
  have chunk : chunks cli (grown cli e cur.oeStart e.oeEnd) = chunks cli e + 1 := by
    have inner := Nat.div_le_div_right (c := cli.ppc) fit.order
    have first := around.begins
    dsimp only [chunks, grown]
    omega
  obtain ⟨after, extents⟩ := grow_ready ready split (front_shape around fit.toShape same slot size low) low
    (Nat.le_refl _) chunk
    (fun a inPre => front_clear around (good.fit a (by simp [inPre])).toShape fit.toShape
      (left a inPre) same next
      (clear a (by simp [split, inPre])))
    fun b inPost => (right b inPost).order
  exact ⟨after, by rw [extents]; simp, low⟩

theorem find_rear {cli : Client} {o : Object} {cur e : Extent} {index : Nat} (ready : Ready cli o)
    (around : Around cli cur index) (member : e ∈ o.extents) (clear : Clear cur o.extents)
    (same : cur.oeDlmlock = e.oeDlmlock) (slot : e.oeMaxEnd = cur.oeMaxEnd)
    (next : index / cli.ppc = e.oeEnd / cli.ppc + 1) :
    Ready cli (o.grow cli (grown cli e e.oeStart cur.oeEnd)) ∧
      grown cli e e.oeStart cur.oeEnd ∈ (o.grow cli (grown cli e e.oeStart cur.oeEnd)).extents ∧
      e.oeStart ≤ index := by
  obtain ⟨pre, post, split⟩ := split_extent member
  have good := ready.sound.good
  rw [split] at good
  have fit := good.fit e (by simp)
  obtain ⟨left, right⟩ := good_before good
  have early : e.oeEnd < index := by
    by_contra late
    have chunk := Nat.div_le_div_right (c := cli.ppc) (Nat.le_of_not_lt late)
    omega
  have high : e.oeEnd ≤ cur.oeEnd := Nat.le_of_lt (Nat.lt_of_lt_of_le early around.right)
  have chunk : chunks cli (grown cli e e.oeStart cur.oeEnd) = chunks cli e + 1 := by
    have inner := Nat.div_le_div_right (c := cli.ppc) fit.order
    have last := around.ends
    dsimp only [chunks, grown]
    omega
  obtain ⟨after, extents⟩ := grow_ready ready split (rear_shape around fit.toShape slot high)
      (Nat.le_refl _) high chunk
    (fun a inPre => (left a inPre).order)
    fun b inPost => rear_clear around fit.toShape (good.fit b (by simp [inPost])).toShape
      (right b inPost) same next
      (clear b (by simp [split, inPost]))
  have order := fit.order
  exact ⟨after, by rw [extents]; simp, by omega⟩

theorem merged_holders {cli : Client} {o : Object} {cur : Extent} {r : Object × Extent × Bool}
    (merged : Merged cli o cur r) : r.1.holders = o.holders := by
  cases merged with
  | apart => rfl
  | join pre post a b victim split mergeable which after rest => rw [← rest]

theorem merged_books {cli : Client} {o : Object} {cur : Extent} {r : Object × Extent × Bool}
    (merged : Merged cli o cur r) :
    (r.1.taken, r.1.spent, r.1.gaps) = (o.taken, o.spent, o.gaps) ∧
      r.1.extents.length + r.2.2.toNat = o.extents.length := by
  cases merged with
  | apart => exact ⟨rfl, rfl⟩
  | join pre post a b victim split mergeable which after rest =>
    refine ⟨by rw [← rest], ?_⟩
    rw [after, split]
    simp only [List.length_append, List.length_cons, Bool.toNat_true]
    omega

theorem merged_ready {cli : Client} {o : Object} {cur : Extent} {r : Object × Extent × Bool}
    (merged : Merged cli o cur r)
    (ready : Ready cli o) (member : cur ∈ o.extents) :
    Ready cli r.1 ∧ r.2.1 ∈ r.1.extents ∧ r.1.holders = o.holders := by
  obtain ⟨sound, inside⟩ := merged_sound merged ready.sound member
  refine ⟨⟨sound, ?_⟩, inside, merged_holders merged⟩
  rw [merged_holders merged]
  exact merged_held merged ready.sound.good ready.holding

theorem merged_covers {cli : Client} {o : Object} {cur : Extent} {r : Object × Extent × Bool}
    (merged : Merged cli o cur r) : r.2.1.oeStart ≤ cur.oeStart ∧ cur.oeEnd ≤ r.2.1.oeEnd ∧
      r.2.1.oeState = cur.oeState ∧ r.2.1.oeFsyncWait = cur.oeFsyncWait ∧
        r.2.1.oeDlmlock = cur.oeDlmlock := by
  cases merged with
  | apart => exact ⟨Nat.le_refl _, Nat.le_refl _, rfl, rfl, rfl⟩
  | join => exact ⟨Nat.min_le_left _ _, Nat.le_max_left _ _, rfl, rfl, rfl⟩

theorem gap_ready {cli : Client} {o : Object} (ready : Ready cli o) :
    Ready cli { o with taken := o.taken - cli.clExtentTax, gaps := o.gaps + 1 } := by
  obtain ⟨⟨good, fresh, pending, ledger, running⟩, holding⟩ := ready
  refine ⟨⟨good, fresh, pending, ?_, running⟩, holding⟩
  change totalGrants o.extents + o.spent = o.taken - cli.clExtentTax +
    ((o.gaps + 1 : Nat) : Int) * cli.clExtentTax
  rw [ledger, Int.natCast_add, Int.add_mul]
  omega

theorem insert_held {es pre post : List Extent} {x : Extent} {o : Object} {t index : Nat}
    (holding : Held es o.holders)
    (unknown : o.holder t = none) (split : es = pre ++ post) (fresh : ∀ e ∈ es, e.oeId < x.oeId)
    (users : x.oeUsers = 1)
    (covers : x.oeStart ≤ index ∧ index ≤ x.oeEnd) :
    Held (pre ++ x :: post) (o.give t x.oeId (some index)).holders := by
  have is : (o.give t x.oeId (some index)).holders = ⟨t, x.oeId, some index⟩ :: o.holders := by
    simp only [Object.give, Object.drop]
    rw [drop_unknown unknown]
  have old (h : Holder) (holder : h ∈ o.holders) : h.ext ≠ x.oeId := by
    obtain ⟨e, member, id, _⟩ := holding.reach h holder
    have less := fresh e member
    omega
  have mem (e : Extent) : e ∈ pre ++ x :: post ↔ e = x ∨ e ∈ es := by
    rw [split]
    simp only [List.mem_append, List.mem_cons]
    tauto
  rw [is]
  constructor
  case users =>
    intro e member
    rcases (mem e).mp member with rfl | before
    · have zero : o.holders.countP (fun h => decide (h.ext = e.oeId)) = 0 := by
        apply List.countP_eq_zero.mpr
        intro h holder
        simpa using old h holder
      simp [users, zero]
    · have less := fresh e before
      have other : x.oeId ≠ e.oeId := by omega
      simp [holding.users e before, other]
  case threads =>
    rw [List.map_cons, List.nodup_cons]
    refine ⟨fun known => ?_, holding.threads⟩
    obtain ⟨h, holder, thread⟩ := List.mem_map.mp known
    have no := List.find?_eq_none.mp unknown h holder
    simp [thread] at no
  case reach =>
    intro h holder
    rcases List.mem_cons.mp holder with rfl | before
    · refine ⟨x, (mem x).mpr (Or.inl rfl), rfl, ?_⟩
      rintro i ⟨⟩
      exact covers
    · obtain ⟨e, member, id, range⟩ := holding.reach h before
      exact ⟨e, (mem e).mpr (Or.inr member), id, range⟩
  case filled =>
    intro e member empty
    rcases (mem e).mp member with rfl | before
    · exact ⟨⟨t, e.oeId, some index⟩, List.mem_cons_self, rfl, Option.some_ne_none index⟩
    · obtain ⟨h, holder, id, waits⟩ := holding.filled e before empty
      exact ⟨h, List.mem_cons_of_mem _ holder, id, waits⟩

theorem find_gap {cli : Client} (rb : Shaping Extent) {o o' : Object} {olck : Lock} {e : Extent}
    {t index given : Nat}
    {grants : Nat} (ready : Ready cli o') (unknown : o'.holder t = none) (member : e ∈ o'.extents)
    (cached : e.oeState = .cache) (calm : e.oeFsyncWait = false) (lock : e.oeDlmlock = olck)
    (covers : e.oeStart ≤ index ∧ index ≤ e.oeEnd) (balance : o'.taken + grants = o.taken + given)
    (spent : o'.spent = o.spent) (gaps : o'.gaps = o.gaps) (long : o'.extents.length = o.extents.length) :
    Finding cli o olck t index given (fillGap rb cli o' e grants) := by
  have merged := merge_next rb ready.sound.good member cached
  obtain ⟨after, inside, holders⟩ := merged_ready merged ready member
  obtain ⟨start, stop, state, wait, same⟩ := merged_covers merged
  have books := merged_books merged
  unfold fillGap
  generalize mergeInto rb cli o' e (nextExtent o' e) =
    r at after inside holders start stop state wait same books
  obtain ⟨next, m, joint⟩ := r
  have still : next.holder t = none := by
    rw [Object.holder, holders]
    exact unknown
  dsimp only at start stop state wait same inside books
  simp only [Prod.mk.injEq] at books
  obtain ⟨⟨taken, spent', gaps'⟩, length⟩ := books
  have within : m.oeStart ≤ index ∧ index ≤ m.oeEnd := ⟨by omega, by omega⟩
  cases joint with
  | true =>
    rw [Bool.toNat_true] at length
    have shorter : next.extents.length < o.extents.length := by omega
    refine finding_hold (gap_ready after) still inside (Or.inr (state.trans cached))
      (wait.trans calm) (same.trans lock)
      within ?_ ?_ ?_
    · dsimp only
      omega
    · exact spent'.trans spent
    · change next.gaps + 1 = o.gaps + if next.extents.length < o.extents.length then 1 else 0
      rw [if_pos shorter, gaps', gaps]
  | false =>
    rw [Bool.toNat_false] at length
    have equal : ¬ next.extents.length < o.extents.length := by omega
    refine finding_hold after still inside (Or.inr (state.trans cached)) (wait.trans calm)
      (same.trans lock) within
      ?_ ?_ ?_
    · rw [taken, balance]
    · exact spent'.trans spent
    · rw [if_neg equal, gaps', gaps]
      rfl

theorem find_new {cli : Client} (rb : Shaping Extent) {o : Object} {cur : Extent} {t index given : Nat}
    (enough : cli.chunksize + cli.clExtentTax ≤ given) (ready : Ready cli o) (unknown : o.holder t = none)
    (around : Around cli cur index) (fit : Fit cli (created cli cur))
    (fresh : cur.oeId = o.nextId) (clear : Clear cur o.extents)
    (locks : ∀ e ∈ o.extents, Exclusive e.oeDlmlock cur.oeDlmlock)
    (size : ∀ e ∈ o.extents, e.oeMppr = cur.oeMppr) :
    Finding cli o cur.oeDlmlock t index given
      (oscExtentInsert rb
        { o with nextId := o.nextId + 1, taken := o.taken + (created cli cur).oeGrants } (created cli cur),
        .extent (created cli cur).oeId (given - (created cli cur).oeGrants)) := by
  have free : Clear (created cli cur) o.extents := clear
  obtain ⟨pre, post, split, after, holders, taken, spent, gaps, sound⟩ :=
    insert_sound rb ready.sound free fit fresh rfl locks size
  generalize oscExtentInsert rb _ (created cli cur) = o' at after holders taken spent gaps sound
  have still : o'.holder t = none := by
    rw [Object.holder, holders]
    exact unknown
  have covers : (created cli cur).oeStart ≤ index ∧ index ≤ (created cli cur).oeEnd :=
    ⟨around.left, around.right⟩
  refine .extent (created cli cur) _ ⟨⟨sound.good, sound.fresh, sound.pending, sound.ledger,
    sound.running⟩, ?_⟩ ?_
    covers rfl rfl ?_ spent ?_
  · change Held o'.extents _
    rw [after]
    apply insert_held (holders ▸ ready.holding) still split _ rfl covers
    intro e member
    rw [show (created cli cur).oeId = o.nextId from fresh]
    exact ready.sound.fresh e member
  · rw [after]
    simp
  · have grants : (created cli cur).oeGrants = cli.chunksize + cli.clExtentTax := rfl
    rw [taken, grants]
    omega
  · rw [gaps, after, split, if_neg]
    · rfl
    · simp only [List.length_append, List.length_cons]
      omega

theorem find_finding {cli : Client} (rb : Shaping Extent) {o : Object} {olck : Lock}
    {t index maxPages grants : Nat}
    (ready : Ready cli o) (unknown : o.holder t = none)
    (granted : Granted cli o.extents olck index maxPages grants) :
    Finding cli o olck t index grants (oscExtentFind rb cli o olck index maxPages grants) := by
  obtain ⟨low, high, write, some, whole, enough, locks, size⟩ := granted
  have around := new_extent_around cli o.nextId low high some whole
  have good := ready.sound.good
  have lock : (newExtent cli o.nextId olck index maxPages).oeDlmlock = olck := rfl
  have mppr : (newExtent cli o.nextId olck index maxPages).oeMppr = maxPages := rfl
  have fresh : (newExtent cli o.nextId olck index maxPages).oeId = o.nextId := rfl
  have fitted := new_extent_fit write around
  unfold oscExtentFind
  dsimp only
  generalize newExtent cli o.nextId olck index maxPages = cur at around lock mppr fresh fitted
  have asserted : ¬ (olck.mode = .pr ∨ maxPages % cli.ppc ≠ 0 ∨ grants < cli.chunksize + cli.clExtentTax ∨
      maxPages ≤ cur.oeMaxEnd - cur.oeStart) := by
    have span := around.span
    rintro (read | other)
    · exact write read
    · omega
  subst lock
  rw [if_neg asserted]
  have inside := scanned_subset o cur.oeStart
  have matched := scan_matches around (fun e member => good.fit e (inside e member))
    fun e member => locks e (inside e member)
  have clear := clear_of_scan good around locks
  generalize scan cli cur (index / cli.ppc) (scanned o cur.oeStart) = found at matched clear
  have left := around.left
  have right := around.right
  cases matched with
  | none =>
    have free : Clear cur o.extents := clear fun e => ⟨Match.noConfusion, Match.noConfusion⟩
    rw [if_neg (Bool.not_eq_true _ ▸ overlapped_none cli fun x known _ => free x known)]
    exact find_new rb enough ready unknown around fitted fresh free locks (mppr ▸ size)
  | conflict e member same contains busy => exact .conflict e (inside e member) ⟨by omega, by omega⟩ busy
  | hold e member same contains open' calm =>
    have live := (good.fit e (inside e member)).live
    have state : e.oeState = .active ∨ e.oeState = .cache := by
      cases is : e.oeState <;> simp_all [State.busy]
    exact finding_hold ready unknown (inside e member) state calm same.symm ⟨by omega, by omega⟩ rfl rfl
      (by rw [if_neg (Nat.lt_irrefl _)]; rfl)
  | front e member same cached calm slot next aligned =>
    have free : Clear cur o.extents := clear fun e => ⟨Match.noConfusion, Match.noConfusion⟩
    have known := inside e member
    obtain ⟨after, there, reach⟩ := find_front ready around ((size e known).trans mppr.symm) known
        free same slot next
    have order := (good.fit e known).order
    have later : index < e.oeStart := by
      by_contra late
      have chunk := Nat.div_le_div_right (c := cli.ppc) (Nat.le_of_not_lt late)
      omega
    have balance : (o.grow cli (grown cli e cur.oeStart e.oeEnd)).taken + (grants - cli.chunksize : Nat) =
        o.taken + grants := by
      dsimp only [Object.grow]
      omega
    exact finding_hold after unknown there (Or.inr cached) calm same.symm
      ⟨left, by dsimp only [grown]; omega⟩ balance rfl
      (by rw [grow_length, if_neg (Nat.lt_irrefl _)]; rfl)
  | rear e member same cached calm slot next =>
    have free : Clear cur o.extents := clear fun e => ⟨Match.noConfusion, Match.noConfusion⟩
    obtain ⟨after, there, reach⟩ := find_rear ready around (inside e member) free same slot next
    have balance : (o.grow cli (grown cli e e.oeStart cur.oeEnd)).taken + (grants - cli.chunksize : Nat) =
        o.taken + grants := by
      dsimp only [Object.grow]
      omega
    exact find_gap rb after unknown there cached calm same.symm ⟨reach, right⟩ balance rfl
      rfl (grow_length ..)

theorem at_ready {cli : Client} {o : Object} {id : Nat} {f : Extent → Object} (ready : Ready cli o)
    (each : ∀ e ∈ o.extents, e.oeId = id → Ready cli (f e)) : Ready cli (o.at id f) := by
  unfold Object.at
  split
  · exact ready
  · rename_i e found
    obtain ⟨member, is⟩ := lookup_some found
    exact each e member is

theorem set_fields {o o' : Object} {e' : Extent} (rest : { o' with ooNrWrites := o.ooNrWrites } = o.set e') :
    o'.tree = (o.set e').tree ∧ o'.nextId = o.nextId ∧ o'.holders = o.holders ∧
      (o'.taken, o'.spent, o'.gaps) = (o.taken, o.spent, o.gaps) ∧ o'.lbug = o.lbug := by
  have parts :=
    congrArg (fun x : Object => (x.tree, x.nextId, x.holders, (x.taken, x.spent, x.gaps), x.lbug)) rest
  simp only [Object.set, Prod.mk.injEq] at parts
  simpa [Object.set] using parts

theorem state_ready {cli : Client} {o : Object} (o' : Object) {e e' : Extent} (kept : Kept cli e')
    (ready : Ready cli o)
    (member : e ∈ o.extents) (same : SameSpan e e') (grants : e'.oeGrants = e.oeGrants)
    (users : e'.oeUsers = e.oeUsers)
    (pages : e'.oePages = e.oePages) (rest : { o' with ooNrWrites := o.ooNrWrites } = o.set e')
    (pending : o'.ooNrWrites = o.ooNrWrites + (weight e' - weight e)) :
    Ready cli o' ∧ o'.extents = o.extents.map fun x => if x.oeId = e'.oeId then e' else x := by
  obtain ⟨tree, next, holders, ledger, lbug⟩ := set_fields rest
  have after : o'.extents = o.extents.map fun x => if x.oeId = e'.oeId then e' else x := by
    rw [Object.extents, tree]
    exact set_extents o e'
  refine ⟨⟨sound_state ready.sound member same grants kept tree next ledger pending lbug, ?_⟩, after⟩
  obtain ⟨pre, post, split⟩ := split_extent member
  have holding := ready.holding
  have ids := ready.sound.good.ids
  rw [split] at holding ids
  rw [holders, after, split, map_set ids same.id]
  exact held_wider holding ids same.id users (Nat.le_of_eq same.start) (Nat.le_of_eq same.stop.symm)
    fun empty => pages ▸ empty

theorem give_ready {cli : Client} {o : Object} {e : Extent} {h : Holder} {index : Nat} (ready : Ready cli o)
    (member : e ∈ o.extents) (holder : h ∈ o.holders) (mine : h.ext = e.oeId)
    (covers : e.oeStart ≤ index ∧ index ≤ e.oeEnd) :
    Ready cli (o.give h.thread h.ext (some index)) := by
  obtain ⟨sound, holding⟩ := ready
  refine ⟨⟨sound.good, sound.fresh, sound.pending, sound.ledger, sound.running⟩, ?_⟩
  obtain ⟨pre, post, split⟩ := split_extent member
  have ids := sound.good.ids
  change Held o.extents _
  rw [split] at holding ids ⊢
  apply held_update holding ids holder mine rfl rfl (Nat.le_refl _) (Nat.le_refl _)
  · rintro i ⟨⟩
    exact covers
  · exact fun _ => Option.some_ne_none index

theorem expand_cases {cli : Client} {o : Object} {e : Extent} {index : Nat} (fit : Fit cli e)
    (inReach : e.oeStart ≤ index ∧ index ≤ e.oeMaxEnd) (early : e.oeEnd < index) :
    (∃ rc, rc < 0 ∧ oscExtentExpand cli o e index = (o, rc)) ∨
      ∃ stop, stop = min e.oeMaxEnd ((index / cli.ppc + 1) * cli.ppc - 1) ∧
        index / cli.ppc = e.oeEnd / cli.ppc + 1 ∧
        (∀ next, nextExtent o e = some next → stop < next.oeStart) ∧
        (oscExtentIsOverlapped cli (o.grow cli (grown cli e e.oeStart stop))
          (grown cli e e.oeStart stop) = false →
          oscExtentExpand cli o e index = (o.grow cli (grown cli e e.oeStart stop), 0)) := by
  have reach := inReach.2
  have high := fit.lockHigh
  have later := end_chunk_lt fit.toShape early (by omega)
  unfold oscExtentExpand
  rw [if_neg (by rw [sanity_check_fit fit]; simp [inReach])]
  by_cases far : e.oeEnd / cli.ppc + 1 < index / cli.ppc
  · exact Or.inl ⟨erange, by decide, if_pos far⟩
  · rw [if_neg far, if_neg (by omega)]
    dsimp only
    split
    · exact Or.inl ⟨eagain, by decide, rfl⟩
    · rename_i free
      refine Or.inr ⟨_, rfl, by omega, ?_, ?_⟩
      · intro next is
        rw [is, Option.any_some, decide_eq_true_eq] at free
        exact Nat.lt_of_not_le free
      · exact fun apart => if_neg (by rw [apart]; exact Bool.false_ne_true)

theorem expand_grow {cli : Client} {o : Object} {e : Extent} {index stop : Nat} (ready : Ready cli o)
    (member : e ∈ o.extents) (reach : index ≤ e.oeMaxEnd)
    (is : stop = min e.oeMaxEnd ((index / cli.ppc + 1) * cli.ppc - 1))
    (next : index / cli.ppc = e.oeEnd / cli.ppc + 1)
    (free : ∀ next, nextExtent o e = some next → stop < next.oeStart) :
    Ready cli (o.grow cli (grown cli e e.oeStart stop)) ∧
      grown cli e e.oeStart stop ∈ (o.grow cli (grown cli e e.oeStart stop)).extents ∧ index ≤ stop := by
  have good := ready.sound.good
  have fit := good.fit e member
  have pos := ppc_pos cli
  have lower := Nat.div_mul_le_self index cli.ppc
  have upper : index < (index / cli.ppc + 1) * cli.ppc := Nat.lt_mul_of_div_lt (Nat.lt_succ_self _) pos
  have covers : index ≤ stop := by omega
  have chunk : stop / cli.ppc = index / cli.ppc := Nat.div_eq_of_lt_le (by omega) (by omega)
  have early : e.oeEnd < index := by
    by_contra late
    have inner := Nat.div_le_div_right (c := cli.ppc) (Nat.le_of_not_lt late)
    omega
  obtain ⟨pre, post, split⟩ := split_extent member
  rw [next_extent_eq split good.ids] at free
  rw [split] at good
  obtain ⟨left, right⟩ := good_before good
  have behind : ∀ b ∈ post, stop < b.oeStart := by
    cases post with
    | nil => exact fun b inPost => absurd inPost List.not_mem_nil
    | cons first rest =>
      have start := free first rfl
      intro b inPost
      rcases List.mem_cons.mp inPost with rfl | after
      · exact start
      · have chain := (List.pairwise_cons.mp (List.pairwise_append.mp good.chain).2.1).2
        have gap := ((List.pairwise_cons.mp chain).1 b after).order
        have order := (good.fit first (by simp)).order
        omega
  have order := fit.order
  have shape : Shape cli (grown cli e e.oeStart stop) := by
    refine ⟨?_, ?_, fit.lockLow, fit.lockHigh, fit.front, ?_, fit.slot, fit.span⟩ <;> dsimp only [grown]
    · omega
    · omega
    · rcases Nat.le_total e.oeMaxEnd ((index / cli.ppc + 1) * cli.ppc - 1) with cut | whole
      · right
        rw [is, Nat.min_eq_left cut]
      · left
        rw [is, Nat.min_eq_right whole, Nat.sub_add_cancel (by omega)]
        exact Nat.mul_mod_left _ _
  have more : chunks cli (grown cli e e.oeStart stop) = chunks cli e + 1 := by
    have inner := Nat.div_le_div_right (c := cli.ppc) order
    dsimp only [chunks, grown]
    omega
  obtain ⟨after, extents⟩ := grow_ready ready split shape (Nat.le_refl _) (by omega) more
    (fun a inPre => (left a inPre).order) behind
  exact ⟨after, by rw [extents]; simp, covers⟩

theorem expand_ready {cli : Client} {o : Object} {e : Extent} {h : Holder} (index : Nat) (ready : Ready cli o)
    (member : e ∈ o.extents) (holder : h ∈ o.holders) (mine : h.ext = e.oeId) :
    Ready cli (expandFor cli o h e index) := by
  unfold expandFor
  split
  · exact ready
  · rename_i inReach
    rw [not_not] at inReach
    split
    · rename_i inside
      exact give_ready ready member holder mine ⟨inReach.1, inside⟩
    · rename_i outside
      have fit := ready.sound.good.fit e member
      rcases expand_cases fit inReach (Nat.lt_of_not_le outside) with ⟨rc, negative,
          refused⟩ | ⟨stop, is, next, free, done⟩
      · rw [refused]
        dsimp only
        rw [if_pos negative]
        exact ready
      · obtain ⟨after, inside, covers⟩ := expand_grow ready member inReach.2 is next free
        rw [done (overlapped_none cli fun x other differs => good_apart after.sound.good
          inside other differs)]
        dsimp only
        rw [if_neg (Int.lt_irrefl 0)]
        exact give_ready after inside holder mine ⟨inReach.1, covers⟩

theorem active_of_holder {cli : Client} {o : Object} {e : Extent} {h : Holder} (ready : Ready cli o)
    (member : e ∈ o.extents)
    (holder : h ∈ o.holders) (mine : h.ext = e.oeId) : e.oeState = .active := by
  apply (ready.sound.good.fit e member).users.mpr
  rw [ready.holding.users e member]
  exact List.countP_pos_iff.mpr ⟨h, holder, decide_eq_true mine⟩

theorem with_page_kept {cli : Client} {e : Extent} {index : Nat} (kept : Kept cli e) (new : index ∉ e.oePages)
    (covers : e.oeStart ≤ index ∧ index ≤ e.oeEnd) : Kept cli (withPage e index) := by
  refine { kept with counted := ?_, single := ?_, within := ?_ }
  · simp [withPage, kept.counted]
  · apply List.nodup_append.mpr
    refine ⟨kept.single, List.nodup_singleton index, ?_⟩
    rintro i page _ added rfl
    exact new (List.mem_singleton.mp added ▸ page)
  · intro i page
    rcases List.mem_append.mp page with old | added
    · exact kept.within i old
    · rw [List.mem_singleton.mp added]
      exact covers

theorem page_ready {cli : Client} {o : Object} {e : Extent} {h : Holder} {index : Nat} (ready : Ready cli o)
    (member : e ∈ o.extents) (holder : h ∈ o.holders) (mine : h.ext = e.oeId) (waits : h.index = some index) :
    Ready cli
      (if index ∈ e.oePages then o.give h.thread h.ext none else (addPage o e index).give h.thread
        h.ext none) := by
  have active := active_of_holder ready member holder mine
  obtain ⟨sound, holding⟩ := ready
  have fit := sound.good.fit e member
  have covers : e.oeStart ≤ index ∧ index ≤ e.oeEnd := by
    obtain ⟨x, inside, id, range⟩ := holding.reach h holder
    have this : x = e := same_extent sound.good.ids inside member (id.trans mine)
    exact this ▸ range index waits
  obtain ⟨pre, post, split⟩ := split_extent member
  have ids := sound.good.ids
  split_ifs with queued
  · refine ⟨⟨sound.good, sound.fresh, sound.pending, sound.ledger, sound.running⟩, ?_⟩
    change Held o.extents _
    rw [split] at holding ids ⊢
    apply held_update holding ids holder mine rfl rfl (Nat.le_refl _) (Nat.le_refl _)
    · exact fun i is => absurd is.symm (Option.some_ne_none i)
    · intro empty
      rw [empty] at queued
      exact absurd queued List.not_mem_nil
  · rw [addPage, if_neg (not_not.mpr ⟨covers.2, covers.1⟩)]
    have same : SameSpan e (withPage e index) := ⟨rfl, rfl, rfl, rfl, rfl, rfl⟩
    have after := sound_state sound member same rfl (with_page_kept fit.toKept queued covers) rfl rfl rfl
      (by simp [Object.set, weight, withPage, active]) rfl
    refine ⟨⟨after.good, after.fresh, after.pending, after.ledger, after.running⟩, ?_⟩
    change Held (o.set (withPage e index)).extents
      ((o.set (withPage e index)).give h.thread h.ext none).holders
    rw [set_extents]
    rw [split] at holding ids ⊢
    rw [map_set ids same.id]
    apply held_update holding ids holder mine same.id rfl (Nat.le_refl _) (Nat.le_refl _)
    · exact fun i is => absurd is.symm (Option.some_ne_none i)
    · exact fun empty => absurd empty (by simp [withPage])

theorem unheld_kept {cli : Client} {e : Extent} (kept : Kept cli e) (active : e.oeState = .active)
    (more : 1 < e.oeUsers) : Kept cli (unheld e) := by
  refine { kept with refs := ?_, users := iff_of_true active (by dsimp only [unheld]; omega) }
  have refs := kept.refs
  dsimp only [references, unheld] at refs ⊢
  omega

theorem yielded_kept {cli : Client} {e : Extent} (kept : Kept cli e) (active : e.oeState = .active)
    (last : e.oeUsers = 1) (waiting : e.oeTruncPending = true) : Kept cli (yielded e) := by
  apply kept_idle kept
  case body => rfl
  case refs =>
    have refs := kept.refs
    simp only [references, waiting, true_or, if_true] at refs
    change e.oeRefc - 1 = 2
    omega
  case placed =>
    have placed := kept.placed
    unfold Placed at placed ⊢
    dsimp only [yielded, unheld]
    cases link : e.oeLink <;> rw [link] at placed <;> simp_all
  case users =>
    dsimp only [yielded, unheld]
    omega
  case free => rfl
  case idle => exact State.noConfusion
  case live => exact ⟨State.noConfusion, State.noConfusion⟩
  case hp => exact fun hp => (kept.hp hp).1
  case wait => exact State.noConfusion
  case calm => exact fun _ => kept.calm (Or.inl waiting)

theorem cached_kept {cli : Client} {e : Extent} (kept : Kept cli e) (active : e.oeState = .active)
    (last : e.oeUsers = 1) (free : e.oeTruncPending = false) : Kept cli (cached e) := by
  apply kept_idle kept
  case body => rfl
  case refs =>
    have refs := kept.refs
    simp only [references, free, active, reduceCtorEq, or_self, if_false, Bool.false_eq_true] at refs
    change e.oeRefc - 1 = 1
    omega
  case placed =>
    have placed := kept.placed
    unfold Placed at placed ⊢
    dsimp only [cached, unheld]
    cases link : e.oeLink <;> rw [link] at placed <;> simp_all
  case users =>
    dsimp only [cached, unheld]
    omega
  case free => exact free
  case idle => exact State.noConfusion
  case live => exact ⟨State.noConfusion, State.noConfusion⟩
  case hp => exact fun hp => (kept.hp hp).1
  case wait => exact fun _ wait => Or.inl (kept.activeWait active wait)
  case calm => exact State.noConfusion

theorem listed_kept {cli : Client} {e : Extent} (kept : Kept cli e) (cached : e.oeState = .cache) :
    Kept cli (listed e) := by
  unfold listed
  split
  · rename_i urgent
    exact { kept with placed := ⟨cached, urgent⟩ }
  · exact kept

theorem listed_span (e : Extent) : SameSpan e (listed e) := by
  unfold listed
  split <;> exact ⟨rfl, rfl, rfl, rfl, rfl, rfl⟩

theorem merge_both_ready {cli : Client} (rb : Shaping Extent) {o : Object} {e : Extent} {hs : List Holder}
    (sound : Sound cli o) (holding : Held o.extents hs) (member : e ∈ o.extents)
    (cached : e.oeState = .cache) :
    Sound cli (mergeBoth rb cli o e).1 ∧ Held (mergeBoth rb cli o e).1.extents hs ∧
      (mergeBoth rb cli o e).1.holders = o.holders ∧ (mergeBoth rb cli o e).2 ∈
        (mergeBoth rb cli o e).1.extents ∧
      (mergeBoth rb cli o e).2.oeState = .cache := by
  have first := merge_prev rb sound.good member cached
  obtain ⟨sound', member'⟩ := merged_sound first sound member
  have holding' := merged_held first sound.good holding
  have cached' := (merged_covers first).2.2.1.trans cached
  have holders' := merged_holders first
  unfold mergeBoth
  generalize mergeInto rb cli o e (prevExtent o e) = r at sound' member' holding' cached' holders'
  have second := merge_next rb sound'.good member' cached'
  obtain ⟨sound'', member''⟩ := merged_sound second sound' member'
  exact ⟨sound'', merged_held second sound'.good holding', (merged_holders second).trans holders', member'',
    (merged_covers second).2.2.1.trans cached'⟩

theorem listed_ready {cli : Client} {o : Object} {e : Extent} {hs : List Holder} (sound : Sound cli o)
    (holding : Held o.extents hs) (member : e ∈ o.extents) (cached : e.oeState = .cache) :
    Sound cli (o.set (listed e)) ∧ Held (o.set (listed e)).extents hs := by
  have span := listed_span e
  have rest : (listed e).oeGrants = e.oeGrants ∧ (listed e).oeUsers = e.oeUsers ∧
      (listed e).oePages = e.oePages ∧
      weight (listed e) = weight e := by
    unfold listed
    split <;> exact ⟨rfl, rfl, rfl, rfl⟩
  obtain ⟨grants, users, pages, weights⟩ := rest
  have kept := listed_kept (sound.good.fit e member).toKept cached
  refine ⟨sound_state sound member span grants kept rfl rfl rfl (by simp [Object.set, weights]) rfl, ?_⟩
  obtain ⟨pre, post, split⟩ := split_extent member
  have ids := sound.good.ids
  rw [set_extents]
  rw [split] at holding ids ⊢
  rw [map_set ids span.id]
  exact held_wider holding ids span.id users (Nat.le_of_eq span.start)
    (Nat.le_of_eq span.stop.symm) fun empty =>
    pages ▸ empty

theorem leave_ready {cli : Client} {o : Object} (o' : Object) {e e' : Extent} {h : Holder}
    (kept : Kept cli e')
    (ready : Ready cli o) (member : e ∈ o.extents) (holder : h ∈ o.holders) (mine : h.ext = e.oeId)
    (done : h.index = none)
    (same : SameSpan e e') (grants : e'.oeGrants = e.oeGrants) (users : e'.oeUsers = e.oeUsers - 1)
    (pages : e'.oePages = e.oePages) (rest : { o' with ooNrWrites := o.ooNrWrites } = o.set e')
    (pending : o'.ooNrWrites = o.ooNrWrites + (weight e' - weight e)) :
    Sound cli o' ∧ Held o'.extents (o.drop h.thread).holders ∧ e' ∈ o'.extents ∧ o'.holders = o.holders := by
  obtain ⟨tree, next, holders, ledger, lbug⟩ := set_fields rest
  obtain ⟨pre, post, split⟩ := split_extent member
  have holding := ready.holding
  have ids := ready.sound.good.ids
  have after : o'.extents = pre ++ e' :: post := by
    rw [Object.extents, tree]
    change (o.set e').extents = _
    rw [split] at ids
    rw [set_extents, split, map_set ids same.id]
  refine ⟨sound_state ready.sound member same grants kept tree next ledger pending lbug, ?_,
    by rw [after]; simp, holders⟩
  rw [split] at holding ids
  rw [after]
  exact held_leave holding ids holder mine done same.id users same.start same.stop pages

theorem release_ready {cli : Client} (rb : Shaping Extent) {o : Object} {e : Extent} {h : Holder}
    (ready : Ready cli o)
    (member : e ∈ o.extents) (holder : h ∈ o.holders) (mine : h.ext = e.oeId) (done : h.index = none) :
    Ready cli ((oscExtentRelease rb cli o e).drop h.thread) := by
  have active := active_of_holder ready member holder mine
  have fit := ready.sound.good.fit e member
  have used := fit.users.mp active
  have dropped {o' : Object} (sound : Sound cli o') (holding : Held o'.extents (o.drop h.thread).holders)
      (holders : o'.holders = o.holders) : Ready cli (o'.drop h.thread) := by
    refine ⟨⟨sound.good, sound.fresh, sound.pending, sound.ledger, sound.running⟩, ?_⟩
    have same : (o'.drop h.thread).holders = (o.drop h.thread).holders :=
      by rw [Object.drop, Object.drop, holders]
    rw [same]
    exact holding
  have grants := grants_pos fit.toKept
  have refs := fit.refs
  unfold oscExtentRelease
  rw [if_neg (by rw [sanity_check_fit fit]; unfold references at refs; omega)]
  split_ifs with more state trunc
  · obtain ⟨sound, holding, _, holders⟩ := leave_ready (o.set (unheld e))
      (unheld_kept fit.toKept active more) ready member
      holder mine done ⟨rfl, rfl, rfl, rfl, rfl, rfl⟩ rfl rfl rfl rfl
        (by simp [Object.set, weight, unheld, active])
    exact dropped sound holding holders
  · exact absurd active state
  · have kept := yielded_kept fit.toKept active (by omega) trunc
    obtain ⟨sound, holding, _, holders⟩ := leave_ready (o.set (yielded e)) kept ready member holder mine done
      ⟨rfl, rfl, rfl, rfl, rfl, rfl⟩ rfl rfl rfl rfl (by simp [Object.set, weight, yielded, active])
    exact dropped sound holding holders
  · have kept := cached_kept fit.toKept active (by omega) (Bool.not_eq_true _ ▸ trunc)
    obtain ⟨sound, holding, inside, holders⟩ :=
      leave_ready (oscUpdatePending (o.set (cached e)) e.oeNrPages) kept ready
      member holder mine done ⟨rfl, rfl, rfl, rfl, rfl, rfl⟩ rfl rfl rfl rfl
      (by simp [oscUpdatePending, Object.set, weight, cached, unheld, active])
    obtain ⟨sound', holding', holders', inside', state'⟩ := merge_both_ready rb sound holding inside rfl
    obtain ⟨sound'', holding''⟩ := listed_ready sound' holding' inside' state'
    exact dropped sound'' holding'' (holders'.trans holders)

end Extents
