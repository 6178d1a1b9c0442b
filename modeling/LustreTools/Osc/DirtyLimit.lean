import LustreTools.Osc.Grant
import Mathlib.Data.Finsupp.Weight
import Mathlib.Data.Fintype.Card

/-!
The limit on the dirty pages of all clients of a node. Each client has a lock of its own, so
`osc_enter_cache_try` reads `obd_dirty_pages` and adds to it in two steps and other clients get in
between. `osc_announce_cached` allows for one page too many; the true excess grows with the number
of clients that may dirty pages at all.
-/
namespace DirtyLimit
open Runs

/-- What counts here of a client; `trying` is the time between the test and the increment, under
    the client's own lock. -/
structure Client where
  clDirtyPages : Int
  clDirtyMaxPages : Int
  trying : Bool
  deriving DecidableEq, Repr

structure Node (ι : Type) where
  obdDirtyPages : Int
  clients : ι → Client

inductive Event (ι : Type) where
  | test (i : ι)
  | consume (i : ι)
  | free (i : ι) (nrPages : Nat)

variable {ι : Type} [DecidableEq ι]

def Node.set (n : Node ι) (i : ι) (cli : Client) : Node ι :=
  { n with clients := Function.update n.clients i cli }

def step (k : Grant.Config) (n : Node ι) : Event ι → Node ι
  | .test i =>
    if (n.clients i).trying = false ∧ (n.clients i).clDirtyPages < (n.clients i).clDirtyMaxPages ∧
        1 + n.obdDirtyPages ≤ k.obdMaxDirtyPages then
      n.set i { n.clients i with trying := true }
    else n
  | .consume i =>
    if (n.clients i).trying = true then
      { n with obdDirtyPages := n.obdDirtyPages + 1 }.set i
        { n.clients i with clDirtyPages := (n.clients i).clDirtyPages + 1, trying := false }
    else n
  | .free i nrPages =>
    if (n.clients i).trying = false ∧ nrPages ≤ (n.clients i).clDirtyPages then
      { n with obdDirtyPages := n.obdDirtyPages - nrPages }.set i
        { n.clients i with clDirtyPages := (n.clients i).clDirtyPages - nrPages }
    else n

def clean (limit : ι → Nat) : Node ι := ⟨0, fun i => ⟨0, limit i, false⟩⟩

/-- The second test of `osc_announce_cached`. -/
def Tolerated (k : Grant.Config) (n : Node ι) : Prop := ¬ k.obdMaxDirtyPages + 1 < n.obdDirtyPages

section Bound
variable [Fintype ι] {k : Grant.Config} {limit : ι → Nat} {n : Node ι}

def Node.trying (n : Node ι) : Finset ι := Finset.univ.filter fun i => (n.clients i).trying = true

def able (limit : ι → Nat) : Finset ι := Finset.univ.filter fun i => 0 < limit i

structure Own (limit : Nat) (cli : Client) : Prop where
  fixed : cli.clDirtyMaxPages = limit
  low : 0 ≤ cli.clDirtyPages
  high : cli.clDirtyPages + (if cli.trying = true then 1 else 0) ≤ limit

structure Bounded (k : Grant.Config) (limit : ι → Nat) (n : Node ι) : Prop where
  own : ∀ i, Own (limit i) (n.clients i)
  summed : n.obdDirtyPages = ∑ i, (n.clients i).clDirtyPages
  within : n.obdDirtyPages + n.trying.card ≤ k.obdMaxDirtyPages + (able limit).card - 1

omit [DecidableEq ι] in
theorem mem_trying (n : Node ι) (i : ι) : i ∈ n.trying ↔ (n.clients i).trying = true := by
  simp [Node.trying]

omit [DecidableEq ι] in
theorem mem_able (limit : ι → Nat) (i : ι) : i ∈ able limit ↔ 0 < limit i := by simp [able]

theorem trying_erase (n : Node ι) (i : ι) (cli : Client) (idle : cli.trying = false) :
    (n.set i cli).trying = n.trying.erase i := by
  ext j
  rw [mem_trying, Finset.mem_erase, mem_trying]
  by_cases same : j = i
  · subst same
    simp [Node.set, idle]
  · simp [Node.set, same]

theorem set_sum (n : Node ι) (i : ι) (cli : Client) :
    ∑ j, ((n.set i cli).clients j).clDirtyPages =
      ∑ j, (n.clients j).clDirtyPages + (cli.clDirtyPages - (n.clients i).clDirtyPages) := by
  have inside : i ∈ (Finset.univ : Finset ι) := Finset.mem_univ i
  have others : ∑ j ∈ Finset.univ.erase i, ((n.set i cli).clients j).clDirtyPages =
      ∑ j ∈ Finset.univ.erase i, (n.clients j).clDirtyPages := by
    apply Finset.sum_congr rfl
    intro j member
    simp [Node.set, Finset.ne_of_mem_erase member]
  rw [← Finset.add_sum_erase _ _ inside, ← Finset.add_sum_erase _
    (fun j => (n.clients j).clDirtyPages) inside,
    others]
  simp only [Node.set, Function.update_self]
  ring

omit [DecidableEq ι] in
theorem trying_able (own : ∀ i, Own (limit i) (n.clients i)) : n.trying ⊆ able limit := by
  intro i trying
  rw [mem_trying] at trying
  rw [mem_able]
  have low := (own i).low
  have high := (own i).high
  rw [if_pos trying] at high
  omega

omit [Fintype ι] in
theorem set_own (own : ∀ i, Own (limit i) (n.clients i)) {i : ι} {cli : Client} (new : Own (limit i) cli) :
    ∀ j, Own (limit j) ((n.set i cli).clients j) := by
  intro j
  by_cases same : j = i
  · subst same
    simpa [Node.set] using new
  · simpa [Node.set, same] using own j

theorem test_bounded (bounded : Bounded k limit n) (i : ι)
    (own : (n.clients i).clDirtyPages < (n.clients i).clDirtyMaxPages)
    (room : 1 + n.obdDirtyPages ≤ k.obdMaxDirtyPages) :
    Bounded k limit (n.set i { n.clients i with trying := true }) := by
  obtain ⟨fixed, low, -⟩ := bounded.own i
  rw [fixed] at own
  have new : Own (limit i) { n.clients i with trying := true } :=
    ⟨fixed, low, by simp only [↓reduceIte]; omega⟩
  have each := set_own bounded.own new
  have most := Finset.card_le_card (trying_able each)
  refine ⟨each, ?_, ?_⟩
  · rw [set_sum, sub_self, add_zero]
    exact bounded.summed
  · change n.obdDirtyPages + _ ≤ _
    omega

theorem step_bounded (bounded : Bounded k limit n) (e : Event ι) : Bounded k limit (step k n e) := by
  have within := bounded.within
  have summed := bounded.summed
  cases e with
  | test i =>
    dsimp only [step]
    split_ifs with pass
    · exact test_bounded bounded i pass.2.1 pass.2.2
    · exact bounded
  | consume i =>
    dsimp only [step]
    split_ifs with trying
    · obtain ⟨fixed, low, high⟩ := bounded.own i
      rw [if_pos trying] at high
      have fewer := Finset.card_erase_add_one ((mem_trying n i).mpr trying)
      refine ⟨set_own bounded.own ⟨fixed, by simp only; omega, by simpa using high⟩, ?_, ?_⟩
      · rw [set_sum]
        change n.obdDirtyPages + 1 = ∑ j, (n.clients j).clDirtyPages + _
        simp only
        omega
      · rw [trying_erase _ _ _ rfl]
        change n.obdDirtyPages + 1 + ((n.trying.erase i).card : Int) ≤ _
        omega
    · exact bounded
  | free i nrPages =>
    dsimp only [step]
    split_ifs with idle
    · obtain ⟨fixed, low, high⟩ := bounded.own i
      obtain ⟨free, fewer⟩ := idle
      simp only [free, Bool.false_eq_true, ↓reduceIte] at high
      have less := Finset.card_erase_le (s := n.trying) (a := i)
      refine ⟨set_own bounded.own ⟨fixed, by simp only; omega, ?_⟩, ?_, ?_⟩
      · simp only [free, Bool.false_eq_true, ↓reduceIte]
        omega
      · rw [set_sum]
        change n.obdDirtyPages - nrPages = ∑ j, (n.clients j).clDirtyPages + _
        simp only
        omega
      · have erased := trying_erase { n with obdDirtyPages := n.obdDirtyPages - nrPages } i
          { n.clients i with clDirtyPages := (n.clients i).clDirtyPages - nrPages } free
        rw [erased]
        change n.obdDirtyPages - nrPages + ((n.trying.erase i).card : Int) ≤ _
        omega
    · exact bounded

theorem run_bounded (limit : ι → Nat) (positive : 1 ≤ k.obdMaxDirtyPages) (es : List (Event ι)) :
    Bounded k limit (run (step k) (clean limit) es) := by
  have start : Bounded k limit (clean limit) := by
    have none : (clean limit).trying = ∅ := by simp [Node.trying, clean]
    refine ⟨fun i => ⟨rfl, le_refl 0, by simp [clean]⟩, by simp [clean], ?_⟩
    rw [none, Finset.card_empty]
    change 0 + _ ≤ _
    omega
  exact always_run (always_of_along (fun n e bounded _ => step_bounded bounded e) start (along_true _ _ es))

/-- The most that a run can come to: all limits together, or one page for each client on top of
    a node that is one page short of its own limit. -/
def most (k : Grant.Config) (limit : ι → Nat) : Int :=
  min (∑ i, (limit i : Int)) (k.obdMaxDirtyPages + (able limit).card - 1)

omit [DecidableEq ι] in
theorem dirty_le_most (bounded : Bounded k limit n) : n.obdDirtyPages ≤ most k limit := by
  have within := bounded.within
  apply le_min
  · rw [bounded.summed]
    apply Finset.sum_le_sum
    intro i _
    have high := (bounded.own i).high
    split at high <;> omega
  · omega

end Bound

section Reached
variable {k : Grant.Config}

def fill (i : ι) : Nat → List (Event ι)
  | 0 => []
  | m + 1 => .test i :: .consume i :: fill i m

theorem fill_run (i : ι) (m : Nat) (n : Node ι) (idle : (n.clients i).trying = false)
    (own : (n.clients i).clDirtyPages + m ≤ (n.clients i).clDirtyMaxPages)
    (room : n.obdDirtyPages + m ≤ k.obdMaxDirtyPages) :
    run (step k) n (fill i m) =
      { n with obdDirtyPages := n.obdDirtyPages + m }.set i
        { n.clients i with clDirtyPages := (n.clients i).clDirtyPages + m } := by
  induction m generalizing n with
  | zero => simp [fill, Node.set]
  | succ m ih =>
    have pass : (n.clients i).trying = false ∧ (n.clients i).clDirtyPages < (n.clients i).clDirtyMaxPages ∧
        1 + n.obdDirtyPages ≤ k.obdMaxDirtyPages := ⟨idle, by omega, by omega⟩
    have once : step k (step k n (.test i)) (.consume i) =
        { n with obdDirtyPages := n.obdDirtyPages + 1 }.set i
          { n.clients i with clDirtyPages := (n.clients i).clDirtyPages + 1 } := by
      rw [step, if_pos pass]
      simp [step, Node.set, idle]
    rw [fill, run_cons, run_cons, once, ih]
    · simp [Node.set, add_assoc, add_comm (1 : Int) m]
    · simpa [Node.set] using idle
    · simp [Node.set]
      omega
    · simp [Node.set]
      omega

theorem fill_all (share : ι → Nat) (is : List ι) (n : Node ι) (nodup : is.Nodup)
    (idle : ∀ i ∈ is, (n.clients i).trying = false)
    (own : ∀ i ∈ is, (n.clients i).clDirtyPages + share i ≤ (n.clients i).clDirtyMaxPages)
    (room : n.obdDirtyPages + (is.map share).sum ≤ k.obdMaxDirtyPages) :
    let m := run (step k) n (is.flatMap fun i => fill i (share i))
    m.obdDirtyPages = n.obdDirtyPages + (is.map share).sum ∧
      ∀ j, m.clients j =
        { n.clients j with clDirtyPages := (n.clients j).clDirtyPages + if j ∈ is then share j else 0 } := by
  induction is generalizing n with
  | nil => simp
  | cons i is ih =>
    obtain ⟨fresh, rest⟩ := List.nodup_cons.mp nodup
    obtain ⟨firstIdle, othersIdle⟩ := List.forall_mem_cons.mp idle
    obtain ⟨firstOwn, othersOwn⟩ := List.forall_mem_cons.mp own
    rw [List.map_cons, List.sum_cons, Nat.cast_add] at room
    have filled := fill_run (k := k) i (share i) n firstIdle firstOwn (by omega)
    set after := run (step k) n (fill i (share i))
    have later : ∀ j ∈ is, after.clients j = n.clients j := by
      intro j member
      have apart : j ≠ i := by
        rintro rfl
        exact fresh member
      simp [filled, Node.set, apart]
    have level : after.obdDirtyPages = n.obdDirtyPages + share i := by rw [filled]; rfl
    have tail := ih after rest (fun j member => by rw [later j member]; exact othersIdle j member)
      (fun j member => by rw [later j member]; exact othersOwn j member) (by rw [level]; omega)
    rw [List.flatMap_cons, run_append]
    refine ⟨?_, fun j => ?_⟩
    · rw [tail.1, level, List.map_cons, List.sum_cons, Nat.cast_add]
      ring
    · rw [tail.2 j]
      by_cases same : j = i
      · subst same
        simp [filled, Node.set, fresh]
      · simp [filled, Node.set, same]

theorem test_all (is : List ι) (n : Node ι) (nodup : is.Nodup)
    (each : ∀ i ∈ is, (n.clients i).trying = false ∧ (n.clients i).clDirtyPages <
      (n.clients i).clDirtyMaxPages)
    (room : 1 + n.obdDirtyPages ≤ k.obdMaxDirtyPages) :
    (run (step k) n (is.map .test)).obdDirtyPages = n.obdDirtyPages ∧
      ∀ i, ((run (step k) n (is.map .test)).clients i).trying =
        ((n.clients i).trying || decide (i ∈ is)) := by
  induction is generalizing n with
  | nil => simp
  | cons i is ih =>
    obtain ⟨fresh, rest⟩ := List.nodup_cons.mp nodup
    obtain ⟨first, others⟩ := List.forall_mem_cons.mp each
    have went : step k n (.test i) = n.set i { n.clients i with trying := true } :=
      if_pos ⟨first.1, first.2, room⟩
    have later : ∀ j ∈ is, ((n.set i { n.clients i with trying := true }).clients j) = n.clients j := by
      intro j member
      have apart : j ≠ i := by
        rintro rfl
        exact fresh member
      simp [Node.set, apart]
    rw [List.map_cons, run_cons, went]
    have tail := ih (n.set i { n.clients i with trying := true }) rest
      (fun j member => by rw [later j member]; exact others j member) room
    refine ⟨tail.1, fun j => ?_⟩
    rw [tail.2 j]
    by_cases same : j = i
    · subst same
      simp [Node.set]
    · simp [Node.set, same]

theorem consume_all (is : List ι) (n : Node ι) (nodup : is.Nodup)
    (each : ∀ i ∈ is, (n.clients i).trying = true) :
    (run (step k) n (is.map .consume)).obdDirtyPages = n.obdDirtyPages + is.length := by
  induction is generalizing n with
  | nil => simp
  | cons i is ih =>
    obtain ⟨fresh, rest⟩ := List.nodup_cons.mp nodup
    obtain ⟨first, others⟩ := List.forall_mem_cons.mp each
    rw [List.map_cons, run_cons, step, if_pos first, ih _ rest]
    · simp only [Node.set, List.length_cons, Nat.cast_add, Nat.cast_one]
      omega
    · intro j member
      have apart : j ≠ i := by
        rintro rfl
        exact fresh member
      simpa [Node.set, apart] using others j member

/-- The clients dirty their shares, and then all of them test before any of them counts. -/
def rush (share : ι → Nat) (is : List ι) : List (Event ι) :=
  is.flatMap (fun i => fill i (share i)) ++ (is.map .test ++ is.map .consume)

theorem rush_dirty (limit share : ι → Nat) {is : List ι} (nodup : is.Nodup)
    (below : ∀ i ∈ is, share i < limit i)
    (room : 1 + ((is.map share).sum : Nat) ≤ k.obdMaxDirtyPages) :
    (run (step k) (clean limit) (rush share is)).obdDirtyPages = (is.map share).sum + is.length := by
  have filled := fill_all (k := k) share is (clean limit) nodup (fun _ _ => rfl)
    (fun i member => by
      have less := below i member
      change (0 : Int) + share i ≤ limit i
      omega)
    (by change (0 : Int) + _ ≤ _; omega)
  dsimp only at filled
  obtain ⟨level, each⟩ := filled
  rw [rush, run_append, run_append]
  set full := run (step k) (clean limit) (is.flatMap fun i => fill i (share i))
  have counted : full.obdDirtyPages = (is.map share).sum := level.trans (zero_add _)
  have tested := test_all (k := k) is full nodup
    (fun i member => by
      have less := below i member
      rw [each i, if_pos member]
      refine ⟨rfl, ?_⟩
      change (0 : Int) + share i < limit i
      omega)
    (by rw [counted]; exact room)
  rw [consume_all is _ nodup, tested.1, counted]
  intro j member
  rw [tested.2 j]
  simp [member]

omit [DecidableEq ι] in
theorem exists_shares [Fintype ι] (bound : ι → Nat) (m : Nat) (room : m ≤ ∑ i, bound i) :
    ∃ share : ι → Nat, (∀ i, share i ≤ bound i) ∧ ∑ i, share i = m := by
  obtain ⟨share, below, shared⟩ := Finsupp.exists_le_degree_eq (Finsupp.equivFunOnFinite.symm bound) m
    (by simpa [Finsupp.degree_eq_sum] using room)
  exact ⟨share, below, by rw [← shared, Finsupp.degree_eq_sum]⟩

omit [DecidableEq ι] in
theorem spare_sum [Fintype ι] (limit : ι → Nat) :
    ∑ i, (limit i - 1) + (able limit).card = ∑ i, limit i := by
  rw [able, Finset.card_filter, ← Finset.sum_add_distrib]
  apply Finset.sum_congr rfl
  intro i _
  split <;> omega

/-- Some run comes to `most`: the shares add up to one page short of the limit of the node, or to
    all that the clients can spare. -/
theorem most_reached [Fintype ι] (limit : ι → Nat) (positive : 1 ≤ k.obdMaxDirtyPages) :
    ∃ es, (run (step k) (clean limit) es).obdDirtyPages = most k limit := by
  have total := spare_sum limit
  obtain ⟨share, below, shared⟩ := exists_shares (fun i => limit i - 1)
    (min (∑ i, (limit i - 1)) (k.obdMaxDirtyPages - 1).toNat) (min_le_left _ _)
  have listed : ((able limit).toList.map share).sum = ∑ i, share i := by
    rw [Finset.sum_map_toList]
    apply Finset.sum_subset (Finset.subset_univ _)
    intro i _ outside
    rw [mem_able] at outside
    have small := below i
    omega
  have less : ∀ i ∈ (able limit).toList, share i < limit i := by
    intro i member
    rw [Finset.mem_toList, mem_able] at member
    have small := below i
    omega
  refine ⟨rush share (able limit).toList, ?_⟩
  rw [rush_dirty limit share (Finset.nodup_toList _) less (by rw [listed]; omega), listed,
    Finset.length_toList]
  unfold most
  have cast : (∑ i, (limit i : Int)) = ((∑ i, limit i : Nat) : Int) := by push_cast; rfl
  rw [cast]
  omega

end Reached

/-- The count of a node goes as far over its limit as clients can test before one of them counts,
    unless their own limits stop them; the allowance of one page in `osc_announce_cached` is right
    for two clients and no more. -/
theorem dirty_excess [Fintype ι] (k : Grant.Config) (limit : ι → Nat) (positive : 1 ≤ k.obdMaxDirtyPages) :
    IsGreatest (Set.range fun es => (run (step k) (clean limit) es).obdDirtyPages)
        (min (∑ i, (limit i : Int)) (k.obdMaxDirtyPages + (able limit).card - 1)) ∧
      ((∀ es, Tolerated k (run (step k) (clean limit) es)) ↔
        ∑ i, (limit i : Int) ≤ k.obdMaxDirtyPages + 1 ∨ (able limit).card ≤ 2) := by
  have bound (es : List (Event ι)) : (run (step k) (clean limit) es).obdDirtyPages ≤ most k limit :=
    dirty_le_most (run_bounded limit positive es)
  obtain ⟨worst, reached⟩ := most_reached limit positive
  refine ⟨⟨⟨worst, reached⟩, ?_⟩, ?_⟩
  · rintro _ ⟨es, rfl⟩
    exact bound es
  · constructor
    · intro tolerated
      have last := tolerated worst
      unfold Tolerated at last
      rw [reached, most] at last
      omega
    · intro few es
      have below := bound es
      unfold most at below
      unfold Tolerated
      omega

def hundred : Grant.Config := ⟨12, 0, 100, 800⟩

def forties (i : Fin 4) : Nat := if i = 3 then 0 else 40

theorem dirty_excess_forties : 1 ≤ hundred.obdMaxDirtyPages ∧
    IsGreatest (Set.range fun es => (run (step hundred) (clean forties) es).obdDirtyPages)
        (min (∑ i, (forties i : Int)) (hundred.obdMaxDirtyPages + (able forties).card - 1)) ∧
      ((∀ es, Tolerated hundred (run (step hundred) (clean forties) es)) ↔
        ∑ i, (forties i : Int) ≤ hundred.obdMaxDirtyPages + 1 ∨ (able forties).card ≤ 2) :=
  ⟨by decide, dirty_excess hundred forties (by decide)⟩

example : most hundred forties = 102 := by decide

end DirtyLimit
