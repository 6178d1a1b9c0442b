import Mathlib.Data.List.Nodup
import Mathlib.Data.List.Perm.Subperm
import LustreTools.Osc.Extents

/-!
Where extents lie. An extent begins at a chunk or at its lock and ends at a chunk or where it may
grow no further, so two extents of one lock never share a chunk, and the chunk of a new page is
either inside an extent or outside of all of them. The scan of `osc_extent_find` rests on this.
-/
namespace Extents

structure Shape (cli : Client) (e : Extent) : Prop where
  order : e.oeStart ≤ e.oeEnd
  reach : e.oeEnd ≤ e.oeMaxEnd
  lockLow : e.oeDlmlock.start ≤ e.oeStart
  lockHigh : e.oeMaxEnd ≤ e.oeDlmlock.stop
  front : e.oeStart % cli.ppc = 0 ∨ e.oeStart = e.oeDlmlock.start
  rear : (e.oeEnd + 1) % cli.ppc = 0 ∨ e.oeEnd = e.oeMaxEnd
  slot : (e.oeMaxEnd + 1) % cli.ppc = 0 ∨ e.oeMaxEnd = e.oeDlmlock.stop
  span : e.oeMaxEnd < e.oeStart + e.oeMppr

/-- Locks that can be held at the same time. -/
def Exclusive (a b : Lock) : Prop := a = b ∨ a.stop < b.start ∨ b.stop < a.start

/-- How an extent stands to one that comes later in the tree. -/
structure Before (a b : Extent) : Prop where
  order : a.oeEnd < b.oeStart
  locks : Exclusive a.oeDlmlock b.oeDlmlock
  size : a.oeMppr = b.oeMppr

theorem ppc_pos (cli : Client) : 0 < cli.ppc := Nat.two_pow_pos cli.ppcBits

theorem chunk_lt_of_end {p x y : Nat} (pos : 0 < p) (aligned : (x + 1) % p = 0) (less : x < y) :
    x / p < y / p := by
  obtain ⟨k, whole⟩ := Nat.dvd_of_mod_eq_zero aligned
  have below : x / p < k := Nat.div_lt_of_lt_mul (by omega)
  have above : k ≤ y / p := (Nat.le_div_iff_mul_le pos).mpr (by rw [Nat.mul_comm]; omega)
  exact Nat.lt_of_lt_of_le below above

theorem chunk_lt_of_start {p x y : Nat} (aligned : y % p = 0) (less : x < y) : x / p < y / p := by
  obtain ⟨k, whole⟩ := Nat.dvd_of_mod_eq_zero aligned
  rcases Nat.eq_zero_or_pos p with zero | pos
  · rw [zero, Nat.zero_mul] at whole
    omega
  · rw [whole, Nat.mul_div_cancel_left k pos]
    exact Nat.div_lt_of_lt_mul (by omega)

theorem end_chunk_lt {cli : Client} {e : Extent} (shape : Shape cli e) {index : Nat} (after : e.oeEnd < index)
    (locked : index ≤ e.oeDlmlock.stop) : e.oeEnd / cli.ppc < index / cli.ppc := by
  have pos := ppc_pos cli
  rcases shape.rear with aligned | full
  · exact chunk_lt_of_end pos aligned after
  · rcases shape.slot with aligned | edge
    · rw [← full] at aligned
      exact chunk_lt_of_end pos aligned after
    · omega

theorem start_chunk_lt {cli : Client} {e : Extent} (shape : Shape cli e) {index : Nat}
    (before : index < e.oeStart)
    (locked : e.oeDlmlock.start ≤ index) : index / cli.ppc < e.oeStart / cli.ppc := by
  rcases shape.front with aligned | edge
  · exact chunk_lt_of_start aligned before
  · omega

theorem before_chunks {cli : Client} {a b : Extent} (first : Shape cli a) (second : Shape cli b)
    (before : Before a b)
    (same : a.oeDlmlock = b.oeDlmlock) : a.oeEnd / cli.ppc < b.oeStart / cli.ppc := by
  apply end_chunk_lt first before.order
  rw [same]
  have order := second.order
  have reach := second.reach
  have high := second.lockHigh
  omega

theorem apart_of_locks {cli : Client} {a b : Extent} (first : Shape cli a) (second : Shape cli b)
    (locks : Exclusive a.oeDlmlock b.oeDlmlock) (other : a.oeDlmlock ≠ b.oeDlmlock) :
    a.oeMaxEnd < b.oeStart ∨ b.oeMaxEnd < a.oeStart := by
  have low := first.lockLow
  have high := first.lockHigh
  have low' := second.lockLow
  have high' := second.lockHigh
  rcases locks with same | left | right
  · exact absurd same other
  · omega
  · omega

theorem overlapped_iff (a b : Extent) : overlapped a b = true ↔ b.oeStart ≤ a.oeEnd ∧
    a.oeStart ≤ b.oeEnd := by
  simp [overlapped]

structure Around (cli : Client) (cur : Extent) (index : Nat) : Prop extends Shape cli cur where
  left : cur.oeStart ≤ index
  right : index ≤ cur.oeEnd
  begins : cur.oeStart / cli.ppc = index / cli.ppc
  ends : cur.oeEnd / cli.ppc = index / cli.ppc

theorem slot_end {p n : Nat} (index : Nat) (pos : 0 < n) (whole : n % p = 0) :
    index ≤ index - index % n + n - 1 ∧ (index - index % n + n - 1 + 1) % p = 0 := by
  have small := Nat.mod_lt index pos
  have fits := Nat.mod_le index n
  refine ⟨by omega, ?_⟩
  have sum : index - index % n + n - 1 + 1 = index / n * n + n := by
    have split := Nat.div_add_mod' index n
    omega
  obtain ⟨k, times⟩ := Nat.dvd_of_mod_eq_zero whole
  rw [sum]
  apply Nat.mod_eq_zero_of_dvd
  exact Nat.dvd_add (Nat.dvd_mul_left_of_dvd ⟨k, times⟩ _) ⟨k, times⟩

theorem slot_start {p n : Nat} (index : Nat) (pos : 0 < p) (whole : n % p = 0) :
    index - index % n ≤ index / p * p := by
  have split := Nat.div_add_mod' index n
  have start : index - index % n = index / n * n := by omega
  obtain ⟨k, times⟩ := Nat.dvd_of_mod_eq_zero whole
  have whole' : index / n * n = index / n * k * p := by rw [times, Nat.mul_comm p k, Nat.mul_assoc]
  rw [start, whole']
  apply Nat.mul_le_mul_right
  apply (Nat.le_div_iff_mul_le pos).mpr
  rw [← whole']
  omega

theorem new_extent_around (cli : Client) (id : Nat) {olck : Lock} {index maxPages : Nat}
    (low : olck.start ≤ index)
    (high : index ≤ olck.stop) (some : 0 < maxPages) (whole : maxPages % cli.ppc = 0) :
    Around cli (newExtent cli id olck index maxPages) index := by
  have pos := ppc_pos cli
  obtain ⟨inside, aligned⟩ := slot_end index some whole
  have slot := slot_start index pos whole
  have split := Nat.div_add_mod' index cli.ppc
  have small := Nat.mod_lt index pos
  have next : (index / cli.ppc + 1) * cli.ppc = index / cli.ppc * cli.ppc + cli.ppc := Nat.succ_mul _ _
  have chunk {x : Nat} (lower : index / cli.ppc * cli.ppc ≤ x)
      (upper : x < index / cli.ppc * cli.ppc + cli.ppc) :
      x / cli.ppc = index / cli.ppc := by
    apply Nat.div_eq_of_lt_le lower
    rw [next]
    exact upper
  constructor
  case left =>
    dsimp only [newExtent]
    omega
  case right =>
    dsimp only [newExtent]
    omega
  case begins =>
    dsimp only [newExtent]
    exact chunk (by omega) (by omega)
  case ends =>
    dsimp only [newExtent]
    exact chunk (by omega) (by omega)
  case toShape =>
    constructor <;> dsimp only [newExtent]
    case order => omega
    case reach => omega
    case lockLow => omega
    case lockHigh => omega
    case front =>
      rcases Nat.le_total olck.start (index / cli.ppc * cli.ppc) with chunked | locked
      · left
        rw [Nat.max_eq_left chunked]
        exact Nat.mul_mod_left _ _
      · right
        exact Nat.max_eq_right locked
    case rear =>
      rcases Nat.le_total ((index / cli.ppc + 1) * cli.ppc - 1)
        (min (index - index % maxPages + maxPages - 1) olck.stop) with chunked | cut
      · left
        rw [Nat.min_eq_left chunked, Nat.sub_add_cancel (by omega)]
        exact Nat.mul_mod_left _ _
      · right
        exact Nat.min_eq_right cut
    case slot =>
      rcases Nat.le_total (index - index % maxPages + maxPages - 1) olck.stop with slotted | locked
      · left
        rw [Nat.min_eq_left slotted]
        exact aligned
      · right
        exact Nat.min_eq_right locked
    case span => omega

theorem contains_of_overlap {cli : Client} {cur e : Extent} {index : Nat} (around : Around cli cur index)
    (shape : Shape cli e) (same : cur.oeDlmlock = e.oeDlmlock)
    (touch : cur.oeStart ≤ e.oeEnd ∧ e.oeStart ≤ cur.oeEnd) :
    e.oeStart ≤ cur.oeStart ∧ cur.oeEnd ≤ e.oeEnd := by
  have low := around.lockLow
  have high := around.lockHigh
  have reach := around.reach
  rw [same] at low high
  constructor
  · by_contra late
    have later := start_chunk_lt shape (Nat.lt_of_not_le late) (by omega)
    have inside := Nat.div_le_div_right (c := cli.ppc) touch.2
    rw [around.begins] at later
    rw [around.ends] at inside
    omega
  · by_contra early
    have earlier := end_chunk_lt shape (Nat.lt_of_not_le early) (by omega)
    have inside := Nat.div_le_div_right (c := cli.ppc) touch.1
    rw [around.ends] at earlier
    rw [around.begins] at inside
    omega

def chunks (cli : Client) (e : Extent) : Nat := e.oeEnd / cli.ppc - e.oeStart / cli.ppc + 1

/-- The references to an extent: the tree's, one for each user, and one for the truncate or the
    RPC that it is in. -/
def references (e : Extent) : Nat :=
  1 + e.oeUsers + if e.oeTruncPending = true ∨ e.oeState = .trunc ∨ e.oeState = .rpc then 1 else 0

/-- What the list that an extent is on says of its state. -/
def Placed (e : Extent) : Prop :=
  match e.oeLink with
  | .nowhere => True
  | .hp => e.oeState = .cache ∧ e.oeHp = true
  | .urgent => e.oeState = .cache ∧ e.oeUrgent = true
  | .rpc => e.oeState = .locking ∨ e.oeState = .rpc
  | .discard => e.oeState = .locking
  | .truncating => e.oeTruncPending = true ∨ e.oeState = .trunc

/-- The state of an extent in the tree: what its flags say of each other, how often it is referred
    to and which list it is on, that its pages lie in it and are counted, and that its grants pay
    for every chunk of it. -/
structure Kept (cli : Client) (e : Extent) : Prop where
  refs : e.oeRefc = references e
  placed : Placed e
  unsynced : e.oeSync = false
  written : e.oeDlmlock.mode ≠ .pr
  users : e.oeState = .active ↔ 0 < e.oeUsers
  live : e.oeState ≠ .inv ∧ e.oeState ≠ .lockDone
  hp : e.oeHp = true → e.oeFsyncWait = true ∧ e.oeState ≠ .active
  activeWait : e.oeState = .active → e.oeFsyncWait = true → e.oeUrgent = true
  cacheWait : e.oeState = .cache → e.oeFsyncWait = true → e.oeUrgent = true ∨ e.oeHp = true
  pending : e.oeTruncPending = true → e.oeState = .active
  calm : e.oeTruncPending = true ∨ e.oeState = .trunc → e.oeUrgent = false
  counted : e.oeNrPages = e.oePages.length
  single : e.oePages.Nodup
  within : ∀ index ∈ e.oePages, e.oeStart ≤ index ∧ index ≤ e.oeEnd
  funded : chunks cli e * cli.chunksize + cli.clExtentTax ≤ e.oeGrants

structure Fit (cli : Client) (e : Extent) : Prop extends Shape cli e, Kept cli e

structure Quiet (e : Extent) : Prop where
  users : e.oeUsers = 0
  free : e.oeTruncPending = false

theorem quiet_of_kept {cli : Client} {e : Extent} (kept : Kept cli e)
    (state : e.oeState ≠ .active) : Quiet e := by
  constructor
  · by_contra used
    exact state (kept.users.mpr (Nat.pos_of_ne_zero used))
  · by_contra set
    exact state (kept.pending (Bool.not_eq_false _ ▸ set))

theorem quiet_references {e : Extent} (quiet : Quiet e) :
    references e = if e.oeState = .trunc ∨ e.oeState = .rpc then 2 else 1 := by
  simp only [references, quiet.users, quiet.free, Bool.false_eq_true, false_or]
  split <;> rfl

theorem one_reference {cli : Client} {e : Extent} (kept : Kept cli e)
    (state : e.oeState = .cache ∨ e.oeState = .locking) :
    e.oeRefc = 1 := by
  have quiet := quiet_of_kept kept (by rcases state with is | is <;> rw [is] <;> exact State.noConfusion)
  rw [kept.refs, quiet_references quiet]
  rcases state with is | is <;> rw [is] <;> rfl

theorem two_references {cli : Client} {e : Extent} (kept : Kept cli e)
    (state : e.oeState = .trunc ∨ e.oeState = .rpc) :
    e.oeRefc = 2 := by
  have quiet := quiet_of_kept kept (by rcases state with is | is <;> rw [is] <;> exact State.noConfusion)
  rw [kept.refs, quiet_references quiet, if_pos state]

theorem placed_flags {e e' : Extent} (placed : Placed e)
    (same : (e'.oeLink, e'.oeState, e'.oeTruncPending) = (e.oeLink, e.oeState, e.oeTruncPending))
    (hp : e.oeHp = true → e'.oeHp = true) (urgent : e.oeUrgent = true → e'.oeUrgent = true) : Placed e' := by
  simp only [Prod.mk.injEq] at same
  obtain ⟨link, state, pending⟩ := same
  unfold Placed at placed ⊢
  rw [link, state, pending]
  cases is : e.oeLink <;> rw [is] at placed
  case hp => exact ⟨placed.1, hp placed.2⟩
  case urgent => exact ⟨placed.1, urgent placed.2⟩
  all_goals exact placed

theorem chunksize_pos (cli : Client) : 0 < cli.chunksize := Nat.two_pow_pos _

theorem grants_pos {cli : Client} {e : Extent} (kept : Kept cli e) : 0 < e.oeGrants := by
  have chunk := chunksize_pos cli
  have one : 0 < chunks cli e * cli.chunksize := Nat.mul_pos (Nat.succ_pos _) chunk
  have funded := kept.funded
  omega

theorem nr_pages_le {cli : Client} {e : Extent} (fit : Fit cli e) : e.oeNrPages ≤ e.oeMppr := by
  have order := fit.order
  have reach := fit.reach
  have span := fit.span
  have fewer : e.oePages.Subperm (List.range' e.oeStart (e.oeEnd + 1 - e.oeStart)) := by
    apply List.subperm_of_subset fit.single
    intro index member
    obtain ⟨low, high⟩ := fit.within index member
    exact List.mem_range'_1.mpr ⟨low, by omega⟩
  have count := fewer.length_le
  rw [List.length_range'] at count
  rw [fit.counted]
  omega

theorem check_state_kept {cli : Client} {e : Extent} (kept : Kept cli e) : checkState e = 0 := by
  have users := kept.users
  have grants := grants_pos kept
  have hp := kept.hp
  have live := kept.live
  have active := kept.activeWait
  have cache := kept.cacheWait
  unfold checkState
  cases state : e.oeState with
  | inv => exact absurd state live.1
  | lockDone => exact absurd state live.2
  | active =>
    have held := users.mp state
    have plain : e.oeHp ≠ true := fun set => (hp set).2 state
    have urgent : ¬ (e.oeFsyncWait = true ∧ e.oeUrgent = false) := by
      rintro ⟨wait, calm⟩
      rw [active state wait] at calm
      cases calm
    simp only [if_neg (Nat.ne_of_gt held), if_neg plain, if_neg urgent]
  | cache =>
    have idle : ¬ 0 < e.oeUsers := fun held => by simp [users.mpr held] at state
    have marked : ¬ (e.oeFsyncWait = true ∧ e.oeUrgent = false ∧ e.oeHp = false) := by
      rintro ⟨wait, calm, low⟩
      rcases cache state wait with set | set <;> simp_all
    simp only [if_neg (Nat.ne_of_gt grants), if_neg marked, if_neg idle]
  | locking => simp [show ¬ 0 < e.oeUsers from fun held => by simp [users.mpr held] at state]
  | rpc => simp [show ¬ 0 < e.oeUsers from fun held => by simp [users.mpr held] at state]
  | trunc => simp [show ¬ 0 < e.oeUsers from fun held => by simp [users.mpr held] at state]

/-- An extent in such a state passes every check of `osc_extent_sanity_check0`. -/
theorem sanity_check_fit {cli : Client} {e : Extent} (fit : Fit cli e) : sanityCheck cli e = 0 := by
  have refs := fit.refs
  have referred : ¬ e.oeRefc = 0 ∧ ¬ e.oeRefc < e.oeUsers := by
    unfold references at refs
    omega
  have shape : ¬ (e.oeMaxEnd < e.oeEnd ∨ e.oeEnd < e.oeStart) := by
    have order := fit.order
    have reach := fit.reach
    omega
  have locked : e.oeDlmlock.start ≤ e.oeStart ∧ e.oeMaxEnd ≤ e.oeDlmlock.stop := ⟨fit.lockLow, fit.lockHigh⟩
  have few : ¬ e.oeMppr < e.oePages.length := by
    rw [← fit.counted]
    exact Nat.not_lt.mpr (nr_pages_le fit)
  have within : e.oePages.any (fun index => decide (e.oeEnd < index ∨ index < e.oeStart)) ≠ true := by
    intro some
    obtain ⟨index, member, outside⟩ := List.any_eq_true.mp some
    have inside := fit.within index member
    simp only [decide_eq_true_eq] at outside
    omega
  unfold sanityCheck
  simp only [if_neg referred.1, if_neg referred.2, check_state_kept fit.toKept, ne_eq,
    not_true_eq_false, if_false,
    if_neg fit.live.1, if_neg shape, fit.unsynced, Bool.false_eq_true, false_and, locked, and_self,
    if_neg fit.written, if_neg few, if_neg within, fit.counted, ite_self]

inductive Matches (cli : Client) (cur : Extent) (chunk : Nat) (es : List Extent) : Match → Prop
  | none : Matches cli cur chunk es .none
  | conflict (e : Extent) (member : e ∈ es) (same : cur.oeDlmlock = e.oeDlmlock)
      (contains : e.oeStart ≤ cur.oeStart ∧ cur.oeEnd ≤ e.oeEnd)
      (busy : e.oeState.busy = true ∨ e.oeFsyncWait = true) : Matches cli cur chunk es (.conflict e)
  | hold (e : Extent) (member : e ∈ es) (same : cur.oeDlmlock = e.oeDlmlock)
      (contains : e.oeStart ≤ cur.oeStart ∧ cur.oeEnd ≤ e.oeEnd)
      (open' : e.oeState.busy = false) (calm : e.oeFsyncWait = false) : Matches cli cur chunk es (.hold e)
  | front (e : Extent) (member : e ∈ es) (same : cur.oeDlmlock = e.oeDlmlock) (cached : e.oeState = .cache)
      (calm : e.oeFsyncWait = false) (slot : e.oeMaxEnd = cur.oeMaxEnd)
        (next : chunk + 1 = e.oeStart / cli.ppc)
      (aligned : e.oeStart % cli.ppc = 0) : Matches cli cur chunk es (.front e)
  | rear (e : Extent) (member : e ∈ es) (same : cur.oeDlmlock = e.oeDlmlock) (cached : e.oeState = .cache)
      (calm : e.oeFsyncWait = false) (slot : e.oeMaxEnd = cur.oeMaxEnd)
        (next : chunk = e.oeEnd / cli.ppc + 1) :
      Matches cli cur chunk es (.rear e)

theorem matches_cons {cli : Client} {cur : Extent} {chunk : Nat} {e : Extent}
    {es : List Extent} {found : Match}
    (later : Matches cli cur chunk es found) : Matches cli cur chunk (e :: es) found := by
  cases later with
  | none => exact .none
  | conflict x member same contains busy =>
    exact .conflict x (List.mem_cons_of_mem e member) same contains busy
  | hold x member same contains open' calm =>
    exact .hold x (List.mem_cons_of_mem e member) same contains open' calm
  | front x member same cached calm slot next aligned =>
    exact .front x (List.mem_cons_of_mem e member) same cached calm slot next aligned
  | rear x member same cached calm slot next =>
    exact .rear x (List.mem_cons_of_mem e member) same cached calm slot next

theorem scan_matches {cli : Client} {cur : Extent} {index : Nat} (around : Around cli cur index)
    {es : List Extent}
    (fit : ∀ e ∈ es, Fit cli e) (locks : ∀ e ∈ es, Exclusive e.oeDlmlock cur.oeDlmlock) :
    Matches cli cur (index / cli.ppc) es (scan cli cur (index / cli.ppc) es) := by
  induction es with
  | nil => exact .none
  | cons e es ih =>
    have rest := matches_cons (e := e) (ih (fun x member => fit x (List.mem_cons_of_mem e member))
      fun x member => locks x (List.mem_cons_of_mem e member))
    have here := fit e List.mem_cons_self
    rw [scan, sanity_check_fit here, if_neg (not_not.mpr rfl)]
    split
    · exact .none
    · split
      · rename_i other
        split
        · -- extents of two locks would have to overlap
          rename_i touch
          have touching := (overlapped_iff e cur).mp touch
          have apart := apart_of_locks here.toShape around.toShape
              (locks e List.mem_cons_self) (Ne.symm other)
          have reach := here.reach
          have reach' := around.reach
          omega
        · exact rest
      · rename_i same
        rw [not_not] at same
        split
        · exact rest
        · rename_i near
          split
          · rename_i touch
            have contains := contains_of_overlap around here.toShape same ((overlapped_iff e cur).mp touch)
            rw [if_neg (not_not.mpr contains)]
            split
            · rename_i busy
              exact .conflict e List.mem_cons_self same contains busy
            · rename_i idle
              rw [not_or, Bool.not_eq_true, Bool.not_eq_true] at idle
              exact .hold e List.mem_cons_self same contains idle.1 idle.2
          · split
            · exact rest
            · rename_i cached
              rw [not_or, not_not, Bool.not_eq_true] at cached
              split
              · exact rest
              · rename_i slot
                rw [not_not] at slot
                split
                · rename_i next
                  -- the lock begins before this chunk, so it is not the lock that cut the extent
                  have aligned : e.oeStart % cli.ppc = 0 := by
                    apply here.front.resolve_right
                    intro edge
                    have low := around.lockLow
                    have left := around.left
                    rw [same] at low
                    have chunk := Nat.div_le_div_right (c := cli.ppc) (Nat.le_trans low left)
                    rw [← edge] at chunk
                    omega
                  rw [if_neg (not_not.mpr aligned)]
                  exact .front e List.mem_cons_self same cached.1 cached.2 slot next aligned
                · split
                  · rename_i next
                    exact .rear e List.mem_cons_self same cached.1 cached.2 slot next
                  · exact rest

theorem scan_touching {cli : Client} {cur e : Extent} {index : Nat} (es : List Extent)
    (around : Around cli cur index)
    (fit : Fit cli e) (same : cur.oeDlmlock = e.oeDlmlock)
    (contains : e.oeStart ≤ cur.oeStart ∧ cur.oeEnd ≤ e.oeEnd) :
    scan cli cur (index / cli.ppc) (e :: es) = .conflict e ∨
      scan cli cur (index / cli.ppc) (e :: es) = .hold e := by
  have order := around.order
  have touch : overlapped e cur = true := (overlapped_iff e cur).mpr ⟨by omega, by omega⟩
  have last := Nat.div_le_div_right (c := cli.ppc) contains.2
  have first := Nat.div_le_div_right (c := cli.ppc) contains.1
  rw [around.ends] at last
  rw [around.begins] at first
  rw [scan, sanity_check_fit fit, if_neg (not_not.mpr rfl), if_neg (by omega), if_neg (not_not.mpr same),
    if_neg (by omega), if_pos touch, if_neg (not_not.mpr contains)]
  split
  · exact Or.inl rfl
  · exact Or.inr rfl

end Extents
