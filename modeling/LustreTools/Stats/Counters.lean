import Mathlib.Logic.Function.Basic
import LustreTools.Lib.Words

/-!
The statistics counters (lprocfs_counters.c, lprocfs_status.c). Every CPU has an area of its
own with one counter for each slot of the table; the collector adds the areas up. An area
is allocated by the first update on its CPU, and the allocation is taken to succeed. An
index outside the table trips an assertion; such an update is left out here.
-/
namespace StatsCounters
open Words

structure Counter where
  lcCount : Int
  lcMin : Int
  lcMax : Int
  lcSumsquare : Int
  lcSum : Int
  deriving DecidableEq, Repr

def lcMinInit : Int := 9223372036854775807

def Counter.fresh : Counter := ⟨0, lcMinInit, 0, 0, 0⟩

/-- The name of a counter (which may be null), its unit, and the flags of its `lc_config`. -/
structure Header where
  lcName : Option String
  lcUnits : String
  avgminmax : Bool
  stddev : Bool
  deriving DecidableEq, Repr

structure Stats where
  lsNum : Nat
  lsBiggestAllocNum : Nat
  lsCntHeader : Nat → Header
  lsPercpu : Nat → Option (Nat → Counter)

/-- `lprocfs_calc_bandwidth` on the counter of a CPU: `lc_min` holds the second of the last
    request. The second after it is computed in 64 bits and wraps from the initial value. -/
def Counter.calcBandwidth (c : Counter) (sec amount : Int) : Counter :=
  let c := { c with lcCount := s64 (c.lcCount + 1) }
  if sec = c.lcMin then
    let sum := s64 (c.lcSum + amount)
    { c with lcSum := sum, lcMax := if sum > c.lcMax then sum else c.lcMax }
  else if sec = s64 (c.lcMin + 1) then
    { c with
      lcMax := if c.lcSum > c.lcMax then c.lcSum else c.lcMax
      lcSumsquare := s64 (c.lcSumsquare + s64 (c.lcSum * c.lcSum))
      lcMin := sec
      lcSum := amount }
  else if sec > s64 (c.lcMin + 1) then { c with lcMin := sec, lcSum := amount }
  else c

def Counter.add (c : Counter) (header : Header) (amount : Int) : Counter :=
  let c := { c with lcCount := s64 (c.lcCount + 1) }
  if header.avgminmax then
    { c with
      lcSum := s64 (c.lcSum + amount)
      lcSumsquare := if header.stddev then s64 (c.lcSumsquare + s64 (amount * amount)) else c.lcSumsquare
      lcMin := if amount < c.lcMin then amount else c.lcMin
      lcMax := if amount > c.lcMax then amount else c.lcMax }
  else c

def lprocfsStatsAllocOne (stats : Stats) (cpuid : Nat) : Stats :=
  { stats with
    lsPercpu := Function.update stats.lsPercpu cpuid (some fun _ => Counter.fresh)
    lsBiggestAllocNum :=
      if stats.lsBiggestAllocNum ≤ cpuid then cpuid + 1 else stats.lsBiggestAllocNum }

def lprocfsStatsLock (stats : Stats) (smpId : Nat) : Stats :=
  match stats.lsPercpu smpId with
  | none => lprocfsStatsAllocOne stats smpId
  | some _ => stats

def Stats.modify (stats : Stats) (smpId idx : Nat) (f : Counter → Counter) : Stats :=
  let locked := lprocfsStatsLock stats smpId
  match locked.lsPercpu smpId with
  | none => locked
  | some area =>
    { locked with
      lsPercpu := Function.update locked.lsPercpu smpId (some (Function.update area idx (f (area idx)))) }

def lprocfsCalcBandwidth (stats : Stats) (smpId idx : Nat) (sec amount : Int) : Stats :=
  if idx < stats.lsNum then stats.modify smpId idx (Counter.calcBandwidth · sec amount) else stats

def lprocfsCounterAdd (stats : Stats) (smpId idx : Nat) (amount : Int) : Stats :=
  if idx < stats.lsNum then stats.modify smpId idx (Counter.add · (stats.lsCntHeader idx) amount)
  else stats

def Counter.merge (cnt percpuCntr : Counter) : Counter :=
  { lcCount := s64 (cnt.lcCount + percpuCntr.lcCount)
    lcSum := s64 (cnt.lcSum + percpuCntr.lcSum)
    lcMin := if percpuCntr.lcMin < cnt.lcMin then percpuCntr.lcMin else cnt.lcMin
    lcMax := if percpuCntr.lcMax > cnt.lcMax then percpuCntr.lcMax else cnt.lcMax
    lcSumsquare := s64 (cnt.lcSumsquare + percpuCntr.lcSumsquare) }

def lprocfsStatsCollect (stats : Stats) (idx : Nat) : Counter :=
  (List.range stats.lsBiggestAllocNum).foldl (fun cnt i =>
    match stats.lsPercpu i with
    | none => cnt
    | some area => cnt.merge (area idx)) Counter.fresh

/-- Every counter of every allocated area is set back. -/
def lprocfsClearStats (stats : Stats) : Stats :=
  { stats with
    lsPercpu := fun i =>
      if i < stats.lsBiggestAllocNum then
        (stats.lsPercpu i).map fun area j => if j < stats.lsNum then Counter.fresh else area j
      else stats.lsPercpu i }

def lprocfsAllocStats (num : Nat) (header : Nat → Header) : Stats :=
  { lsNum := num, lsBiggestAllocNum := 0, lsCntHeader := header, lsPercpu := fun _ => none }

def Stats.counter (stats : Stats) (cpu idx : Nat) : Counter :=
  match stats.lsPercpu cpu with
  | none => Counter.fresh
  | some area => area idx

/-- No area lies beyond the number that the collector goes up to. -/
def Stats.Bounded (stats : Stats) : Prop :=
  ∀ cpu, stats.lsBiggestAllocNum ≤ cpu → stats.lsPercpu cpu = none

inductive Op where
  | add (amount : Int)
  | bandwidth (sec amount : Int)
  deriving DecidableEq, Repr

structure Update where
  smpId : Nat
  idx : Nat
  op : Op
  deriving DecidableEq, Repr

def Stats.update (stats : Stats) (u : Update) : Stats :=
  match u.op with
  | .add amount => lprocfsCounterAdd stats u.smpId u.idx amount
  | .bandwidth sec amount => lprocfsCalcBandwidth stats u.smpId u.idx sec amount

def Counter.perform (header : Header) (c : Counter) : Op → Counter
  | .add amount => c.add header amount
  | .bandwidth sec amount => c.calcBandwidth sec amount

/-- What the collector keeps in its sum. -/
structure Counter.Collected (c : Counter) : Prop where
  count : InS64 c.lcCount
  sum : InS64 c.lcSum
  sumsquare : InS64 c.lcSumsquare
  min : c.lcMin ≤ lcMinInit
  max : 0 ≤ c.lcMax

theorem lock_counter (stats : Stats) (smpId cpu idx : Nat) :
    (lprocfsStatsLock stats smpId).counter cpu idx = stats.counter cpu idx := by
  unfold lprocfsStatsLock
  split
  · rename_i missing
    simp only [Stats.counter, lprocfsStatsAllocOne]
    by_cases here : cpu = smpId
    · subst here
      simp [missing]
    · simp [Function.update_of_ne here]
  · rfl

theorem lock_allocated (stats : Stats) (smpId : Nat) :
    ∃ area, (lprocfsStatsLock stats smpId).lsPercpu smpId = some area := by
  unfold lprocfsStatsLock
  split
  · exact ⟨_, Function.update_self ..⟩
  · rename_i area found
    exact ⟨area, found⟩

theorem modify_counter (stats : Stats) (smpId idx cpu j : Nat) (f : Counter → Counter) :
    (stats.modify smpId idx f).counter cpu j =
      if cpu = smpId ∧ j = idx then f (stats.counter cpu j) else stats.counter cpu j := by
  obtain ⟨area, found⟩ := lock_allocated stats smpId
  rw [← lock_counter stats smpId cpu j]
  simp only [Stats.modify, found, Stats.counter]
  by_cases here : cpu = smpId
  · subst here
    by_cases slot : j = idx
    · subst slot
      simp [found]
    · simp [found, slot]
  · simp [here]

theorem lock_bounded {stats : Stats} (smpId : Nat) (bounded : stats.Bounded) :
    (lprocfsStatsLock stats smpId).Bounded ∧ smpId < (lprocfsStatsLock stats smpId).lsBiggestAllocNum := by
  unfold lprocfsStatsLock
  split
  · constructor
    · intro cpu beyond
      simp only [lprocfsStatsAllocOne] at beyond ⊢
      have other : cpu ≠ smpId ∧ stats.lsBiggestAllocNum ≤ cpu := by
        split at beyond <;> omega
      rw [Function.update_of_ne other.1]
      exact bounded cpu other.2
    · simp only [lprocfsStatsAllocOne]
      split <;> omega
  · rename_i area found
    refine ⟨bounded, ?_⟩
    by_contra beyond
    rw [bounded smpId (by omega)] at found
    cases found

theorem modify_bounded {stats : Stats} (smpId idx : Nat) (f : Counter → Counter) (bounded : stats.Bounded) :
    (stats.modify smpId idx f).Bounded := by
  obtain ⟨area, found⟩ := lock_allocated stats smpId
  obtain ⟨locked, inside⟩ := lock_bounded smpId bounded
  intro cpu beyond
  simp only [Stats.modify, found] at beyond ⊢
  have other : cpu ≠ smpId := by omega
  rw [Function.update_of_ne other]
  exact locked cpu beyond

theorem lock_table (stats : Stats) (smpId : Nat) :
    (lprocfsStatsLock stats smpId).lsNum = stats.lsNum ∧
      (lprocfsStatsLock stats smpId).lsCntHeader = stats.lsCntHeader := by
  unfold lprocfsStatsLock
  split <;> exact ⟨rfl, rfl⟩

theorem modify_table (stats : Stats) (smpId idx : Nat) (f : Counter → Counter) :
    (stats.modify smpId idx f).lsNum = stats.lsNum ∧
      (stats.modify smpId idx f).lsCntHeader = stats.lsCntHeader := by
  obtain ⟨area, found⟩ := lock_allocated stats smpId
  simp only [Stats.modify, found]
  exact lock_table stats smpId

theorem update_eq (stats : Stats) (u : Update) :
    stats.update u =
      if u.idx < stats.lsNum then
        stats.modify u.smpId u.idx (Counter.perform (stats.lsCntHeader u.idx) · u.op)
      else stats := by
  obtain ⟨smpId, idx, op⟩ := u
  cases op <;> rfl

theorem update_counter (stats : Stats) (u : Update) {cpu j : Nat} (inside : j < stats.lsNum) :
    (stats.update u).counter cpu j =
      if cpu = u.smpId ∧ j = u.idx then (stats.counter cpu j).perform (stats.lsCntHeader j) u.op
      else stats.counter cpu j := by
  rw [update_eq]
  split
  · rw [modify_counter]
    split
    · rename_i here
      rw [here.2]
    · rfl
  · rename_i outside
    rw [if_neg (by intro here; omega)]

theorem update_table (stats : Stats) (u : Update) :
    (stats.update u).lsNum = stats.lsNum ∧ (stats.update u).lsCntHeader = stats.lsCntHeader := by
  rw [update_eq]
  split
  · exact modify_table _ _ _ _
  · exact ⟨rfl, rfl⟩

theorem update_bounded {stats : Stats} (u : Update) (bounded : stats.Bounded) :
    (stats.update u).Bounded := by
  rw [update_eq]
  split
  · exact modify_bounded _ _ _ bounded
  · exact bounded

def Update.Hits (u : Update) (cpu idx : Nat) : Bool := u.smpId = cpu ∧ u.idx = idx

theorem counter_run (updates : List Update) (stats : Stats) {cpu j : Nat} (inside : j < stats.lsNum) :
    (updates.foldl Stats.update stats).counter cpu j =
      ((updates.filter (·.Hits cpu j)).map Update.op).foldl
        (Counter.perform (stats.lsCntHeader j)) (stats.counter cpu j) := by
  induction updates generalizing stats with
  | nil => rfl
  | cons u updates ih =>
    obtain ⟨num, header⟩ := update_table stats u
    rw [List.foldl_cons, ih (stats.update u) (by omega), header, update_counter stats u inside]
    by_cases hit : u.Hits cpu j = true
    · have here : cpu = u.smpId ∧ j = u.idx := by
        simp only [Update.Hits, decide_eq_true_eq] at hit
        exact ⟨hit.1.symm, hit.2.symm⟩
      rw [if_pos here]
      simp only [List.filter_cons, hit, ↓reduceIte, List.map_cons, List.foldl_cons]
    · have elsewhere : ¬ (cpu = u.smpId ∧ j = u.idx) := by
        simp only [Update.Hits, decide_eq_true_eq] at hit
        exact fun here => hit ⟨here.1.symm, here.2.symm⟩
      rw [if_neg elsewhere]
      simp only [List.filter_cons, hit, Bool.false_eq_true, ↓reduceIte]

theorem run_table (updates : List Update) (stats : Stats) :
    (updates.foldl Stats.update stats).lsNum = stats.lsNum ∧
      (updates.foldl Stats.update stats).lsCntHeader = stats.lsCntHeader := by
  induction updates generalizing stats with
  | nil => exact ⟨rfl, rfl⟩
  | cons u updates ih =>
    obtain ⟨num, header⟩ := update_table stats u
    rw [List.foldl_cons, ← num, ← header]
    exact ih (stats.update u)

theorem run_bounded (updates : List Update) {stats : Stats} (bounded : stats.Bounded) :
    (updates.foldl Stats.update stats).Bounded := by
  induction updates generalizing stats with
  | nil => exact bounded
  | cons u updates ih => exact ih (update_bounded u bounded)

theorem clear_bounded {stats : Stats} (bounded : stats.Bounded) : (lprocfsClearStats stats).Bounded := by
  intro cpu beyond
  simp only [lprocfsClearStats] at beyond ⊢
  rw [if_neg (by omega)]
  exact bounded cpu beyond

theorem clear_counter {stats : Stats} (bounded : stats.Bounded) {idx : Nat} (inside : idx < stats.lsNum)
    (cpu : Nat) : (lprocfsClearStats stats).counter cpu idx = Counter.fresh := by
  simp only [Stats.counter, lprocfsClearStats]
  split
  · rfl
  · rename_i area found
    split at found
    · obtain ⟨old, _, cleared⟩ := Option.map_eq_some_iff.mp found
      rw [← cleared]
      exact if_pos inside
    · rename_i beyond
      rw [bounded cpu (by omega)] at found
      cases found

theorem merge_sum (cnt percpuCntr : Counter) :
    (cnt.merge percpuCntr).lcSum = s64 (cnt.lcSum + percpuCntr.lcSum) := rfl

theorem merge_max (cnt percpuCntr : Counter) :
    (cnt.merge percpuCntr).lcMax = max cnt.lcMax percpuCntr.lcMax := by
  simp only [Counter.merge]
  split <;> omega

theorem merge_collected {cnt : Counter} (percpuCntr : Counter) (collected : cnt.Collected) :
    (cnt.merge percpuCntr).Collected := by
  have min := collected.min
  have max := collected.max
  constructor
  · exact s64_in _
  · exact s64_in _
  · exact s64_in _
  · simp only [Counter.merge]
    split <;> omega
  · simp only [Counter.merge]
    split <;> omega

theorem merge_fresh {cnt : Counter} (collected : cnt.Collected) : cnt.merge Counter.fresh = cnt := by
  obtain ⟨count, sum, sumsquare, min, max⟩ := collected
  have least : ¬ lcMinInit < cnt.lcMin := by omega
  have most : ¬ 0 > cnt.lcMax := by omega
  simp only [Counter.merge, Counter.fresh, Int.add_zero, s64_of_in count, s64_of_in sum,
    s64_of_in sumsquare, least, most, ↓reduceIte]

def total (counters : Nat → Counter) (n : Nat) : Counter :=
  (List.range n).foldl (fun cnt i => cnt.merge (counters i)) Counter.fresh

theorem fresh_collected : Counter.fresh.Collected := by
  constructor <;> decide

theorem total_succ (counters : Nat → Counter) (n : Nat) :
    total counters (n + 1) = (total counters n).merge (counters n) := by
  simp only [total, List.range_succ, List.foldl_append, List.foldl_cons, List.foldl_nil]

theorem total_collected (counters : Nat → Counter) (n : Nat) : (total counters n).Collected := by
  induction n with
  | zero => exact fresh_collected
  | succ n ih =>
    rw [total_succ]
    exact merge_collected _ ih

theorem total_extend {counters : Nat → Counter} {n : Nat}
    (untouched : ∀ i, n ≤ i → counters i = Counter.fresh)
    (k : Nat) : total counters (n + k) = total counters n := by
  induction k with
  | zero => rfl
  | succ k ih =>
    rw [← Nat.add_assoc, total_succ, ih, untouched (n + k) (by omega)]
    exact merge_fresh (total_collected counters n)

theorem collect_eq_total (stats : Stats) (idx : Nat) :
    lprocfsStatsCollect stats idx = total (stats.counter · idx) stats.lsBiggestAllocNum := by
  unfold lprocfsStatsCollect
  induction stats.lsBiggestAllocNum with
  | zero => rfl
  | succ n ih =>
    rw [List.range_succ, List.foldl_append, ih, total_succ]
    simp only [List.foldl_cons, List.foldl_nil, Stats.counter]
    split
    · exact (merge_fresh (total_collected _ n)).symm
    · rfl

theorem counter_beyond {stats : Stats} (bounded : stats.Bounded) (idx : Nat) :
    ∀ i, stats.lsBiggestAllocNum ≤ i → stats.counter i idx = Counter.fresh := by
  intro i beyond
  rw [Stats.counter, bounded i beyond]

theorem collect_up_to {stats : Stats} (bounded : stats.Bounded) {idx n : Nat}
    (untouched : ∀ i, n ≤ i → stats.counter i idx = Counter.fresh) :
    lprocfsStatsCollect stats idx = total (stats.counter · idx) n := by
  rw [collect_eq_total, ← total_extend (counter_beyond bounded idx) n, ← total_extend untouched
    stats.lsBiggestAllocNum, Nat.add_comm]

theorem collect_congr {a b : Stats} {idx : Nat} (boundedA : a.Bounded) (boundedB : b.Bounded)
    (same : ∀ i, a.counter i idx = b.counter i idx) :
    lprocfsStatsCollect a idx = lprocfsStatsCollect b idx := by
  have untouched : ∀ i, b.lsBiggestAllocNum ≤ i → a.counter i idx = Counter.fresh := by
    intro i beyond
    rw [same i]
    exact counter_beyond boundedB idx i beyond
  rw [collect_up_to boundedA untouched, collect_eq_total]
  simp only [same]

theorem total_changed {a b : Nat → Counter} {cpu : Nat} (same : ∀ i, i ≠ cpu → b i = a i) (n : Nat) :
    (total b n).lcCount =
        s64 ((total a n).lcCount + if cpu < n then (b cpu).lcCount - (a cpu).lcCount else 0) ∧
      (total b n).lcSum =
        s64 ((total a n).lcSum + if cpu < n then (b cpu).lcSum - (a cpu).lcSum else 0) := by
  induction n with
  | zero => exact ⟨rfl, rfl⟩
  | succ n ih =>
    obtain ⟨count, sum⟩ := ih
    rw [total_succ, total_succ]
    simp only [Counter.merge]
    by_cases here : n = cpu
    · subst here
      rw [if_neg (Nat.lt_irrefl n)] at count sum
      rw [count, sum, if_pos (by omega), if_pos (by omega)]
      simp only [s64]
      omega
    · have inside : cpu < n + 1 ↔ cpu < n := by omega
      rw [count, sum, same n here]
      simp only [inside, s64]
      omega

theorem collect_elsewhere {stats : Stats} (bounded : stats.Bounded) (u : Update) {j : Nat}
    (inside : j < stats.lsNum) (elsewhere : u.idx ≠ j) :
    lprocfsStatsCollect (stats.update u) j = lprocfsStatsCollect stats j := by
  apply collect_congr (update_bounded u bounded) bounded
  intro cpu
  rw [update_counter stats u inside, if_neg]
  intro here
  exact elsewhere here.2.symm

theorem collect_add {stats : Stats} (bounded : stats.Bounded) {j : Nat} (inside : j < stats.lsNum)
    (averaged : (stats.lsCntHeader j).avgminmax = true) (smpId : Nat) (amount : Int) :
    (lprocfsStatsCollect (stats.update ⟨smpId, j, .add amount⟩) j).lcCount =
        s64 ((lprocfsStatsCollect stats j).lcCount + 1) ∧
      (lprocfsStatsCollect (stats.update ⟨smpId, j, .add amount⟩) j).lcSum =
        s64 ((lprocfsStatsCollect stats j).lcSum + amount) := by
  have others : ∀ i, i ≠ smpId →
      (stats.update ⟨smpId, j, .add amount⟩).counter i j = stats.counter i j := by
    intro i other
    rw [update_counter stats _ inside, if_neg (fun here => other here.1)]
  have own : (stats.update ⟨smpId, j, .add amount⟩).counter smpId j =
      (stats.counter smpId j).add (stats.lsCntHeader j) amount := by
    rw [update_counter stats _ inside, if_pos ⟨rfl, rfl⟩]
    rfl
  -- A number of CPUs that both tables stay below.
  have reach := fun i (beyond : stats.lsBiggestAllocNum + smpId + 1 ≤ i) =>
    counter_beyond bounded j i (by omega)
  have reach' : ∀ i, stats.lsBiggestAllocNum + smpId + 1 ≤ i →
      (stats.update ⟨smpId, j, .add amount⟩).counter i j = Counter.fresh := by
    intro i beyond
    rw [others i (by omega)]
    exact reach i beyond
  obtain ⟨count, sum⟩ := total_changed others (stats.lsBiggestAllocNum + smpId + 1)
  rw [collect_up_to bounded reach, collect_up_to (update_bounded _ bounded) reach', count, sum, own,
    if_pos (by omega), if_pos (by omega)]
  simp only [Counter.add, averaged, ↓reduceIte, s64]
  omega

end StatsCounters
