import Mathlib.Algebra.BigOperators.Group.List.Basic
import Mathlib.Data.List.Induction
import LustreTools.Stats.Counters

/-!
The server bandwidth of one counter, for events that are spread over CPUs. Each CPU keeps its
own current second and is rolled over by its own next event only, while the collector adds
the sums of all CPUs.
-/
namespace StatsPlacement
open Words StatsCounters

structure Event where
  sec : Int
  bytes : Int
  deriving DecidableEq, Repr

def Event.Admissible (e : Event) : Prop := 0 ≤ e.bytes ∧ InS64 e.bytes ∧ InS64 e.sec

def Ascending (es : List Event) : Prop := es.Pairwise fun a b => a.sec ≤ b.sec

instance (e : Event) : Decidable e.Admissible := inferInstanceAs (Decidable (_ ∧ _ ∧ _))

instance (es : List Event) : Decidable (Ascending es) := inferInstanceAs (Decidable (List.Pairwise _ _))

def sumBytes (es : List Event) : Int := (es.map Event.bytes).sum

def latestTotal (es : List Event) : Int :=
  match es.getLast? with
  | none => 0
  | some last => sumBytes (es.filter fun e => e.sec = last.sec)

def bandwidthOf (es : List Event) : Counter :=
  es.foldl (fun c e => c.calcBandwidth e.sec e.bytes) Counter.fresh

abbrev Placed := Nat × Event

def onCpu (placed : List Placed) (cpu : Nat) : List Event :=
  (placed.filter fun p => p.1 = cpu).map Prod.snd

def record (stats : Stats) (slot : Nat) (placed : List Placed) : Stats :=
  (placed.map fun p => (⟨p.1, slot, .bandwidth p.2.sec p.2.bytes⟩ : Update)).foldl Stats.update stats

def collected (num slot : Nat) (header : Nat → Header) (placed : List Placed) : Counter :=
  lprocfsStatsCollect (record (lprocfsAllocStats num header) slot placed) slot

def Places (cpus : Nat) (events : List Event) (placed : List Placed) : Prop :=
  placed.map Prod.snd = events ∧ ∀ p ∈ placed, p.1 < cpus

theorem bandwidth_snoc (es : List Event) (e : Event) :
    bandwidthOf (es ++ [e]) = (bandwidthOf es).calcBandwidth e.sec e.bytes := by
  simp [bandwidthOf]

theorem sum_single (e : Event) : sumBytes [e] = e.bytes := by simp [sumBytes]

theorem sum_append (xs ys : List Event) : sumBytes (xs ++ ys) = sumBytes xs + sumBytes ys := by
  simp [sumBytes]

theorem sum_nonneg {es : List Event} (nonneg : ∀ e ∈ es, 0 ≤ e.bytes) : 0 ≤ sumBytes es := by
  induction es with
  | nil => exact Int.le_refl 0
  | cons e es ih =>
    have first := nonneg e (by simp)
    have rest := ih fun x member => nonneg x (by simp [member])
    simp only [sumBytes, List.map_cons, List.sum_cons] at rest ⊢
    omega

theorem latest_snoc (es : List Event) (e : Event) :
    latestTotal (es ++ [e]) = sumBytes (es.filter fun x => x.sec = e.sec) + e.bytes := by
  simp [latestTotal, sumBytes, List.filter_append]

theorem calc_same {c : Counter} {sec : Int} (same : sec = c.lcMin) (bytes : Int) :
    (c.calcBandwidth sec bytes).lcSum = s64 (c.lcSum + bytes) ∧
      (c.calcBandwidth sec bytes).lcMin = sec ∧
      (c.calcBandwidth sec bytes).lcMax = max c.lcMax (s64 (c.lcSum + bytes)) := by
  subst same
  simp only [Counter.calcBandwidth, ↓reduceIte, true_and]
  split <;> omega

theorem calc_later {c : Counter} {sec : Int} (other : sec ≠ c.lcMin) (later : s64 (c.lcMin + 1) ≤ sec)
    (bytes : Int) :
    (c.calcBandwidth sec bytes).lcSum = bytes ∧
      (c.calcBandwidth sec bytes).lcMin = sec ∧
      ((c.calcBandwidth sec bytes).lcMax = c.lcMax ∨
        (c.calcBandwidth sec bytes).lcMax = max c.lcMax c.lcSum) := by
  simp only [Counter.calcBandwidth, other, ↓reduceIte]
  split
  · refine ⟨rfl, rfl, Or.inr ?_⟩
    simp only
    split <;> omega
  · rename_i next
    rw [if_pos (by omega)]
    exact ⟨rfl, rfl, Or.inl rfl⟩

theorem same_or_later {es : List Event} {e : Event} (ascending : Ascending (es ++ [e]))
    (admissible : ∀ x ∈ es ++ [e], x.Admissible)
    (last : ∀ x, es.getLast? = some x → (bandwidthOf es).lcMin = x.sec) :
    e.sec = (bandwidthOf es).lcMin ∨
      (e.sec ≠ (bandwidthOf es).lcMin ∧ s64 ((bandwidthOf es).lcMin + 1) ≤ e.sec) := by
  have range := (admissible e (by simp)).2.2
  by_cases same : e.sec = (bandwidthOf es).lcMin
  · exact Or.inl same
  refine Or.inr ⟨same, ?_⟩
  cases known : es.getLast? with
  | none =>
    rw [List.getLast?_eq_none_iff.mp known]
    simp only [bandwidthOf, List.foldl_nil, Counter.fresh, lcMinInit, s64, InS64] at range ⊢
    omega
  | some x =>
    have member : x ∈ es := List.mem_of_getLast? known
    have order : x.sec ≤ e.sec := (List.pairwise_append.mp ascending).2.2 x member e (by simp)
    have inside := (admissible x (by simp [member])).2.2
    rw [last x known] at same ⊢
    simp only [s64, InS64] at *
    omega

theorem le_last {es : List Event} (ascending : Ascending es) {last : Event}
    (ends : es.getLast? = some last) : ∀ e ∈ es, e.sec ≤ last.sec := by
  obtain ⟨front, rfl⟩ := List.getLast?_eq_some_iff.mp ends
  intro e member
  rcases List.mem_append.mp member with earlier | final
  · exact (List.pairwise_append.mp ascending).2.2 e earlier last (by simp)
  · rw [List.mem_singleton.mp final]

theorem filter_earlier {es : List Event} {sec : Int} (earlier : ∀ e ∈ es, e.sec < sec) :
    es.filter (fun e => e.sec = sec) = [] := by
  rw [List.filter_eq_nil_iff]
  intro e member
  have before := earlier e member
  simp only [decide_eq_true_eq]
  omega

theorem bandwidth_sum {es : List Event} (ascending : Ascending es) (admissible : ∀ e ∈ es, e.Admissible) :
    (bandwidthOf es).lcSum = s64 (latestTotal es) ∧
      ∀ last, es.getLast? = some last → (bandwidthOf es).lcMin = last.sec := by
  induction es using List.reverseRecOn with
  | nil => exact ⟨rfl, by simp⟩
  | append_singleton es e ih =>
    have before := List.pairwise_append.mp ascending
    obtain ⟨sum, last⟩ := ih before.1 fun x member => admissible x (by simp [member])
    rw [bandwidth_snoc, latest_snoc]
    rcases same_or_later ascending admissible last with same | ⟨other, later⟩
    · obtain ⟨sum', min', _⟩ := calc_same same e.bytes
      refine ⟨?_, by simp [min']⟩
      rw [sum', sum, s64_add_left]
      cases known : es.getLast? with
      | none => simp [List.getLast?_eq_none_iff.mp known, latestTotal, sumBytes]
      | some x => simp only [latestTotal, known, same, last x known]
    · obtain ⟨sum', min', _⟩ := calc_later other later e.bytes
      refine ⟨?_, by simp [min']⟩
      have earlier : ∀ x ∈ es, x.sec < e.sec := by
        intro x member
        have known := List.getLast?_eq_getLast_of_ne_nil (List.ne_nil_of_mem member)
        generalize es.getLast _ = final at known
        have bound := le_last before.1 known x member
        have order := before.2.2 final (List.mem_of_getLast? known) e (by simp)
        rw [last final known] at other
        omega
      rw [sum', filter_earlier earlier]
      simp only [sumBytes, List.map_nil, List.sum_nil, Int.zero_add]
      exact (s64_of_in (admissible e (by simp)).2.1).symm

/-- The range of a counter that has seen at most `t` bytes. -/
def Within (c : Counter) (t : Int) : Prop := 0 ≤ c.lcSum ∧ c.lcSum ≤ t ∧ 0 ≤ c.lcMax ∧ c.lcMax ≤ t

instance (c : Counter) (t : Int) : Decidable (Within c t) :=
  inferInstanceAs (Decidable (_ ∧ _ ∧ _ ∧ _))

theorem calc_within {c : Counter} {t bytes : Int} (within : Within c t) (nonneg : 0 ≤ bytes)
    (fits : t + bytes < 9223372036854775808) (sec : Int) :
    Within (c.calcBandwidth sec bytes) (t + bytes) := by
  obtain ⟨low, high, least, most⟩ := within
  have plain : s64 (c.lcSum + bytes) = c.lcSum + bytes := by simp only [s64]; omega
  simp only [Within, Counter.calcBandwidth, plain]
  split
  · split <;> dsimp only <;> omega
  · split
    · split <;> dsimp only <;> omega
    · split <;> dsimp only <;> omega

theorem bandwidth_within {es : List Event} (nonneg : ∀ e ∈ es, 0 ≤ e.bytes)
    (fits : sumBytes es < 9223372036854775808) : Within (bandwidthOf es) (sumBytes es) := by
  induction es using List.reverseRecOn with
  | nil => decide
  | append_singleton es e ih =>
    have before : ∀ x ∈ es, 0 ≤ x.bytes := fun x member => nonneg x (by simp [member])
    have last : 0 ≤ e.bytes := nonneg e (by simp)
    rw [sum_append, sum_single] at fits ⊢
    rw [bandwidth_snoc]
    exact calc_within (ih before (by omega)) last fits e.sec

theorem sum_zero {es : List Event} (zero : ∀ e ∈ es, e.bytes = 0) : sumBytes es = 0 := by
  induction es with
  | nil => rfl
  | cons e es ih =>
    have rest := ih fun x member => zero x (by simp [member])
    simp only [sumBytes, List.map_cons, List.sum_cons] at rest ⊢
    rw [zero e (by simp), rest]
    rfl

theorem bandwidth_zero {es : List Event} (zero : ∀ e ∈ es, e.bytes = 0) :
    (bandwidthOf es).lcSum = 0 ∧ (bandwidthOf es).lcMax = 0 := by
  have total := sum_zero zero
  have within := bandwidth_within (fun e member => Int.le_of_eq (zero e member).symm) (by omega)
  simp only [Within, total] at within
  omega

theorem bandwidth_last {es : List Event} {e : Event} (zero : ∀ x ∈ es, x.bytes = 0)
    (earlier : ∀ x ∈ es, x.sec < e.sec) (ascending : Ascending (es ++ [e]))
    (admissible : ∀ x ∈ es ++ [e], x.Admissible) (rolls : e.sec ≠ lcMinInit ∨ es ≠ []) :
    (bandwidthOf (es ++ [e])).lcSum = e.bytes ∧ (bandwidthOf (es ++ [e])).lcMax = 0 := by
  have before := List.pairwise_append.mp ascending
  obtain ⟨sum, last⟩ := bandwidth_sum before.1 fun x member => admissible x (by simp [member])
  obtain ⟨none, least⟩ := bandwidth_zero zero
  have other : e.sec ≠ (bandwidthOf es).lcMin := by
    cases known : es.getLast? with
    | none =>
      have empty := List.getLast?_eq_none_iff.mp known
      rw [empty]
      exact rolls.resolve_right fun some => some empty
    | some x =>
      have order := earlier x (List.mem_of_getLast? known)
      rw [last x known]
      omega
  have later := (same_or_later ascending admissible last).resolve_left other
  obtain ⟨sum', _, max'⟩ := calc_later later.1 later.2 e.bytes
  rw [bandwidth_snoc]
  refine ⟨sum', ?_⟩
  rw [none, least] at max'
  omega

theorem bandwidth_again {es : List Event} {e last : Event} (ends : es.getLast? = some last)
    (same : e.sec = last.sec) (ascending : Ascending (es ++ [e]))
    (admissible : ∀ x ∈ es ++ [e], x.Admissible) :
    (bandwidthOf (es ++ [e])).lcSum ≤ (bandwidthOf (es ++ [e])).lcMax := by
  have before := List.pairwise_append.mp ascending
  have min := (bandwidth_sum before.1 fun x member => admissible x (by simp [member])).2 last ends
  obtain ⟨sum', _, max'⟩ := calc_same (same.trans min.symm) e.bytes
  rw [bandwidth_snoc, sum', max']
  exact Int.le_max_right _ _

theorem bandwidth_init {es : List Event} (init : ∀ e ∈ es, e.sec = lcMinInit)
    (nonneg : ∀ e ∈ es, 0 ≤ e.bytes) (fits : sumBytes es < 9223372036854775808) :
    (bandwidthOf es).lcMin = lcMinInit ∧ (bandwidthOf es).lcSum = sumBytes es ∧
      (bandwidthOf es).lcMax = sumBytes es := by
  induction es using List.reverseRecOn with
  | nil => decide
  | append_singleton es e ih =>
    have before : ∀ x ∈ es, 0 ≤ x.bytes := fun x member => nonneg x (by simp [member])
    have last : 0 ≤ e.bytes := nonneg e (by simp)
    have least := sum_nonneg before
    rw [sum_append, sum_single] at fits ⊢
    obtain ⟨min, sum, max⟩ := ih (fun x member => init x (by simp [member])) before (by omega)
    obtain ⟨sum', min', max'⟩ := calc_same ((init e (by simp)).trans min.symm) e.bytes
    have plain : s64 (sumBytes es + e.bytes) = sumBytes es + e.bytes := by simp only [s64]; omega
    rw [bandwidth_snoc, sum', min', max', sum, max, plain]
    refine ⟨init e (by simp), rfl, ?_⟩
    omega

theorem record_counter {num slot : Nat} (header : Nat → Header) (inside : slot < num)
    (placed : List Placed) (cpu : Nat) :
    (record (lprocfsAllocStats num header) slot placed).counter cpu slot =
      bandwidthOf (onCpu placed cpu) := by
  rw [record, counter_run _ _ inside, List.filter_map, List.map_map, List.foldl_map, onCpu, bandwidthOf,
    List.foldl_map]
  have hits : (fun u : Update => u.Hits cpu slot) ∘
      (fun p : Placed => (⟨p.1, slot, .bandwidth p.2.sec p.2.bytes⟩ : Update)) =
      fun p => decide (p.1 = cpu) := by
    funext p
    simp [Update.Hits]
  rw [hits]
  rfl

theorem on_cpu_none {placed : List Placed} {cpu : Nat} (none : ∀ p ∈ placed, p.1 ≠ cpu) :
    onCpu placed cpu = [] := by
  rw [onCpu, List.map_eq_nil_iff, List.filter_eq_nil_iff]
  intro p member
  simpa using none p member

theorem collected_total {num slot cpus : Nat} (header : Nat → Header) (inside : slot < num)
    {placed : List Placed} (valid : ∀ p ∈ placed, p.1 < cpus) :
    collected num slot header placed = total (fun cpu => bandwidthOf (onCpu placed cpu)) cpus := by
  have bounded : (record (lprocfsAllocStats num header) slot placed).Bounded :=
    run_bounded _ fun _ _ => rfl
  have counters := record_counter header inside placed
  have untouched : ∀ i, cpus ≤ i →
      (record (lprocfsAllocStats num header) slot placed).counter i slot = Counter.fresh := by
    intro i high
    rw [counters, on_cpu_none fun p member => Nat.ne_of_lt (Nat.lt_of_lt_of_le (valid p member) high)]
    rfl
  rw [collected, collect_up_to bounded untouched]
  simp only [counters]

theorem total_sum_max_single {counters : Nat → Counter} {cpu : Nat}
    (others : ∀ i, i ≠ cpu → (counters i).lcSum = 0 ∧ (counters i).lcMax = 0)
    (range : InS64 (counters cpu).lcSum ∧ 0 ≤ (counters cpu).lcMax) (n : Nat) :
    (total counters n).lcSum = (if cpu < n then (counters cpu).lcSum else 0) ∧
      (total counters n).lcMax = if cpu < n then (counters cpu).lcMax else 0 := by
  induction n with
  | zero => exact ⟨rfl, rfl⟩
  | succ n ih =>
    rw [total_succ, merge_sum, merge_max, ih.1, ih.2]
    by_cases here : n = cpu
    · subst here
      simp only [Nat.lt_irrefl, ↓reduceIte, Nat.lt_succ_self, Int.zero_add, s64_of_in range.1, true_and]
      omega
    · obtain ⟨noSum, noMax⟩ := others n here
      have bound : cpu < n + 1 ↔ cpu < n := by omega
      rw [noSum, noMax, Int.add_zero]
      simp only [bound]
      split
      · exact ⟨s64_of_in range.1, by omega⟩
      · exact ⟨rfl, rfl⟩

theorem total_two {counters : Nat → Counter} (untouched : ∀ i, 2 ≤ i → counters i = Counter.fresh)
    {cpus : Nat} (two : 2 ≤ cpus) :
    (total counters cpus).lcSum = s64 ((counters 0).lcSum + (counters 1).lcSum) ∧
      (total counters cpus).lcMax = max (max 0 (counters 0).lcMax) (counters 1).lcMax := by
  obtain ⟨k, rfl⟩ := Nat.exists_eq_add_of_le two
  rw [total_extend untouched k, total_succ, total_succ]
  simp only [merge_sum, merge_max]
  constructor
  · rw [s64_add_left]
    exact congrArg s64 (congrArg (· + _) (Int.zero_add _))
  · rfl

section
variable (num slot : Nat) (header : Nat → Header) (cpus : Nat) (events : List Event)

/-- Any two placements are collected alike, and the sum is that of the latest second. -/
def PlacementFree : Prop :=
  (∀ a b, Places cpus events a → Places cpus events b →
    (collected num slot header a).lcSum = (collected num slot header b).lcSum ∧
      (collected num slot header a).lcMax = (collected num slot header b).lcMax) ∧
  ∀ a, Places cpus events a → (collected num slot header a).lcSum = latestTotal events

def LastOnly : Prop :=
  ∃ front last, events = front ++ [last] ∧ last.sec ≠ lcMinInit ∧
    ∀ e ∈ front, e.bytes = 0 ∧ e.sec < last.sec

def AtInit : Prop :=
  (∀ e ∈ events, e.sec = lcMinInit) ∧
    ∃ before e after, events = before ++ e :: after ∧ ∀ x ∈ before ++ after, x.bytes = 0

end

theorem on_cpu_sublist (placed : List Placed) (cpu : Nat) :
    (onCpu placed cpu).Sublist (placed.map Prod.snd) := List.Sublist.map _ List.filter_sublist

theorem on_cpu_all {placed : List Placed} {cpu : Nat} (all : ∀ p ∈ placed, p.1 = cpu) :
    onCpu placed cpu = placed.map Prod.snd := by
  rw [onCpu, List.filter_eq_self.mpr]
  intro p member
  simpa using all p member

theorem on_cpu_append (a b : List Placed) (cpu : Nat) :
    onCpu (a ++ b) cpu = onCpu a cpu ++ onCpu b cpu := by
  simp [onCpu, List.filter_append]

theorem on_cpu_cons (p : Placed) (placed : List Placed) (cpu : Nat) :
    onCpu (p :: placed) cpu = (if p.1 = cpu then [p.2] else []) ++ onCpu placed cpu := by
  simp only [onCpu, List.filter_cons, decide_eq_true_eq]
  split <;> simp

section
variable {num slot cpus : Nat} {header : Nat → Header} {events : List Event}

theorem collected_single (header : Nat → Header) (inside : slot < num) {placed : List Placed}
    (valid : ∀ p ∈ placed, p.1 < cpus)
    {cpu : Nat} (here : cpu < cpus) (others : ∀ i, i ≠ cpu → ∀ e ∈ onCpu placed i, e.bytes = 0)
    (range : InS64 (bandwidthOf (onCpu placed cpu)).lcSum ∧ 0 ≤ (bandwidthOf (onCpu placed cpu)).lcMax) :
    (collected num slot header placed).lcSum = (bandwidthOf (onCpu placed cpu)).lcSum ∧
      (collected num slot header placed).lcMax = (bandwidthOf (onCpu placed cpu)).lcMax := by
  rw [collected_total header inside valid]
  have single := @total_sum_max_single (fun i => bandwidthOf (onCpu placed i)) _
    (fun i other => bandwidth_zero (others i other)) range cpus
  simpa only [here, ↓reduceIte] using single

theorem free_of_values {x y : Int} (value : ∀ a, Places cpus events a →
      (collected num slot header a).lcSum = x ∧ (collected num slot header a).lcMax = y)
    (latest : latestTotal events = x) : PlacementFree num slot header cpus events := by
  constructor
  · intro a b placesA placesB
    obtain ⟨sumA, maxA⟩ := value a placesA
    obtain ⟨sumB, maxB⟩ := value b placesB
    exact ⟨sumA.trans sumB.symm, maxA.trans maxB.symm⟩
  · intro a places
    exact (value a places).1.trans latest.symm

theorem free_of_one_cpu (inside : slot < num) (ascending : Ascending events)
    (admissible : ∀ e ∈ events, e.Admissible) (fits : InS64 (latestTotal events)) :
    PlacementFree num slot header 1 events := by
  have value : ∀ a, Places 1 events a →
      (collected num slot header a).lcSum = latestTotal events ∧
        (collected num slot header a).lcMax = max 0 (bandwidthOf events).lcMax := by
    intro a places
    have all : onCpu a 0 = events := by
      rw [on_cpu_all fun p member => Nat.lt_one_iff.mp (places.2 p member)]
      exact places.1
    have sum := (bandwidth_sum ascending admissible).1
    rw [collected_total header inside places.2, total_succ, merge_sum, merge_max, all, sum]
    refine ⟨?_, rfl⟩
    rw [s64_of_in fits]
    exact (congrArg s64 (Int.zero_add _)).trans (s64_of_in fits)
  exact free_of_values value rfl

theorem free_of_zero (inside : slot < num) (some : 0 < cpus) (zero : ∀ e ∈ events, e.bytes = 0) :
    PlacementFree num slot header cpus events := by
  apply free_of_values (x := 0) (y := 0)
  · intro a places
    have nothing (i : Nat) : ∀ e ∈ onCpu a i, e.bytes = 0 := by
      intro e member
      exact zero e (places.1 ▸ (on_cpu_sublist a i).subset member)
    obtain ⟨sum, max⟩ := bandwidth_zero (nothing 0)
    have single := collected_single header inside places.2 some (fun i _ => nothing i)
      (by rw [sum, max]; decide)
    rwa [sum, max] at single
  · unfold latestTotal
    split
    · rfl
    · apply sum_zero
      intro e member
      exact zero e (List.mem_of_mem_filter member)

theorem free_of_last_only (inside : slot < num) (ascending : Ascending events)
    (admissible : ∀ e ∈ events, e.Admissible) (only : LastOnly events) :
    PlacementFree num slot header cpus events := by
  obtain ⟨front, last, rfl, rolls, quiet⟩ := only
  have lastOk := admissible last (by simp)
  apply free_of_values (x := last.bytes) (y := 0)
  · intro a places
    obtain ⟨places, valid⟩ := places
    obtain ⟨before, final, rfl, fronts, ends⟩ := List.map_eq_append_iff.mp places
    obtain ⟨p, rest, rfl, same, nil⟩ := List.map_eq_cons_iff.mp ends
    obtain rfl := List.map_eq_nil_iff.mp nil
    have earlier (i : Nat) : (onCpu before i).Sublist front := fronts ▸ on_cpu_sublist before i
    have here : onCpu (before ++ [p]) p.1 = onCpu before p.1 ++ [last] := by
      rw [on_cpu_append, on_cpu_cons, if_pos rfl, same]
      rfl
    have others : ∀ i, i ≠ p.1 → ∀ e ∈ onCpu (before ++ [p]) i, e.bytes = 0 := by
      intro i other e member
      rw [on_cpu_append, on_cpu_cons, if_neg (Ne.symm other)] at member
      simp only [onCpu, List.filter_nil, List.map_nil, List.append_nil] at member
      exact (quiet e ((earlier i).subset member)).1
    have part : (onCpu before p.1 ++ [last]).Sublist (front ++ [last]) :=
      (earlier p.1).append (List.Sublist.refl _)
    obtain ⟨sum, max⟩ := bandwidth_last (fun x member => (quiet x ((earlier p.1).subset member)).1)
      (fun x member => (quiet x ((earlier p.1).subset member)).2) (ascending.sublist part)
      (fun x member => admissible x (part.subset member)) (Or.inl rolls)
    have single := collected_single header inside valid (valid p (by simp)) others
      (by rw [here, sum, max]; exact ⟨lastOk.2.1, Int.le_refl 0⟩)
    rwa [here, sum, max] at single
  · rw [latest_snoc, filter_earlier fun x member => (quiet x member).2]
    exact Int.zero_add _

theorem sum_split {before after : List Event} {e : Event} (zero : ∀ x ∈ before ++ after, x.bytes = 0) :
    sumBytes (before ++ e :: after) = e.bytes := by
  rw [sum_append]
  have first : sumBytes before = 0 := sum_zero fun x member => zero x (by simp [member])
  have second : sumBytes after = 0 := sum_zero fun x member => zero x (by simp [member])
  simp only [sumBytes, List.map_cons, List.sum_cons] at *
  omega

theorem free_of_at_init (inside : slot < num) (admissible : ∀ e ∈ events, e.Admissible)
    (init : AtInit events) : PlacementFree num slot header cpus events := by
  obtain ⟨seconds, before, e, after, rfl, zero⟩ := init
  have bytes := admissible e (by simp)
  have whole : sumBytes (before ++ e :: after) = e.bytes := sum_split zero
  apply free_of_values (x := e.bytes) (y := e.bytes)
  · intro a places
    obtain ⟨places, valid⟩ := places
    obtain ⟨front, back, rfl, fronts, backs⟩ := List.map_eq_append_iff.mp places
    obtain ⟨p, rest, rfl, same, rests⟩ := List.map_eq_cons_iff.mp backs
    have fromFront (i : Nat) : (onCpu front i).Sublist before := fronts ▸ on_cpu_sublist front i
    have fromRest (i : Nat) : (onCpu rest i).Sublist after := rests ▸ on_cpu_sublist rest i
    have quiet (i : Nat) : ∀ x ∈ onCpu front i ++ onCpu rest i, x.bytes = 0 := by
      intro x member
      exact zero x (((fromFront i).append (fromRest i)).subset member)
    have here : onCpu (front ++ p :: rest) p.1 = onCpu front p.1 ++ e :: onCpu rest p.1 := by
      rw [on_cpu_append, on_cpu_cons, if_pos rfl, same]
      rfl
    have others : ∀ i, i ≠ p.1 → ∀ x ∈ onCpu (front ++ p :: rest) i, x.bytes = 0 := by
      intro i other x member
      rw [on_cpu_append, on_cpu_cons, if_neg (Ne.symm other)] at member
      exact quiet i x member
    have part : (onCpu front p.1 ++ e :: onCpu rest p.1).Sublist (before ++ e :: after) :=
      (fromFront p.1).append ((fromRest p.1).cons_cons e)
    have total : sumBytes (onCpu front p.1 ++ e :: onCpu rest p.1) = e.bytes := sum_split (quiet p.1)
    obtain ⟨_, sum, max⟩ := bandwidth_init (fun x member => seconds x (part.subset member))
      (fun x member => (admissible x (part.subset member)).1)
      (by rw [total]; exact bytes.2.1.2)
    rw [total] at sum max
    have single := collected_single header inside valid (valid p (by simp)) others
      (by rw [here, sum, max]; exact ⟨bytes.2.1, bytes.1⟩)
    rwa [here, sum, max] at single
  · rw [← whole, latestTotal]
    split
    · rename_i empty
      simp at empty
    · rename_i last ends
      rw [List.filter_eq_self.mpr]
      intro x member
      rw [seconds x member, seconds last (List.mem_of_getLast? ends)]
      exact decide_eq_true rfl

end

theorem sum_filter {es : List Event} {keep : Event → Bool} (zero : ∀ e ∈ es, keep e = false → e.bytes = 0) :
    sumBytes (es.filter keep) = sumBytes es := by
  induction es with
  | nil => rfl
  | cons e es ih =>
    have rest := ih fun x member => zero x (by simp [member])
    cases kept : keep e with
    | false =>
      rw [List.filter_cons_of_neg (by simp [kept]), rest]
      simp [sumBytes, zero e (by simp) kept]
    | true =>
      rw [List.filter_cons_of_pos kept]
      simp only [sumBytes, List.map_cons, List.sum_cons] at rest ⊢
      rw [rest]

theorem zero_of_sum_zero {es : List Event} (nonneg : ∀ e ∈ es, 0 ≤ e.bytes) (zero : sumBytes es = 0) :
    ∀ e ∈ es, e.bytes = 0 := by
  intro e member
  obtain ⟨xs, ys, rfl⟩ := List.append_of_mem member
  have first : 0 ≤ sumBytes xs := sum_nonneg fun x among => nonneg x (by simp [among])
  have second : 0 ≤ sumBytes ys := sum_nonneg fun x among => nonneg x (by simp [among])
  have here := nonneg e member
  rw [sum_append] at zero
  simp only [sumBytes, List.map_cons, List.sum_cons] at *
  omega

def put (cpu : Nat) (es : List Event) : List Placed := es.map fun e => (cpu, e)

theorem put_events (cpu : Nat) (es : List Event) : (put cpu es).map Prod.snd = es := by
  simp [put]

theorem on_cpu_put (cpu i : Nat) (es : List Event) :
    onCpu (put cpu es) i = if cpu = i then es else [] := by
  split
  · rename_i same
    subst same
    rw [on_cpu_all (by simp [put]), put_events]
  · rename_i other
    apply on_cpu_none
    simp [put, other]

theorem put_cpu {cpu : Nat} {es : List Event} {p : Placed} (member : p ∈ put cpu es) : p.1 = cpu := by
  simp only [put, List.mem_map] at member
  obtain ⟨e, _, rfl⟩ := member
  rfl

theorem free_latest_fits {num slot cpus : Nat} {header : Nat → Header} {events : List Event}
    (inside : slot < num) (machine : 0 < cpus) (free : PlacementFree num slot header cpus events) :
    InS64 (latestTotal events) := by
  have valid : ∀ p ∈ put 0 events, p.1 < cpus := fun p member => by rw [put_cpu member]; exact machine
  rw [← free.2 (put 0 events) ⟨put_events 0 events, valid⟩, collected_total header inside valid]
  exact (total_collected _ _).sum

section
variable {num slot cpus : Nat} {header : Nat → Header} {events : List Event}
  (inside : slot < num) (two : 2 ≤ cpus) (free : PlacementFree num slot header cpus events)
include inside two free

theorem free_two (placed : List Placed) (places : placed.map Prod.snd = events)
    (low : ∀ p ∈ placed, p.1 < 2) :
    s64 ((bandwidthOf (onCpu placed 0)).lcSum + (bandwidthOf (onCpu placed 1)).lcSum) = latestTotal events ∧
      max (max 0 (bandwidthOf (onCpu placed 0)).lcMax) (bandwidthOf (onCpu placed 1)).lcMax =
        max 0 (bandwidthOf events).lcMax := by
  have values {some : List Placed} (low : ∀ p ∈ some, p.1 < 2) :=
    @total_two (fun i => bandwidthOf (onCpu some i)) (fun i high => by
      rw [on_cpu_none fun p member => Nat.ne_of_lt (Nat.lt_of_lt_of_le (low p member) high)]
      rfl) _ two
  have fits {some : List Placed} (low : ∀ p ∈ some, p.1 < 2) : ∀ p ∈ some, p.1 < cpus :=
    fun p member => Nat.lt_of_lt_of_le (low p member) two
  have single : ∀ p ∈ put 0 events, p.1 < 2 := fun p member => by rw [put_cpu member]; decide
  have here : Places cpus events placed := ⟨places, fits low⟩
  have there : Places cpus events (put 0 events) := ⟨put_events 0 events, fits single⟩
  have sum := free.2 placed here
  have max := (free.1 placed (put 0 events) here there).2
  rw [collected_total header inside here.2] at sum max
  rw [collected_total header inside there.2] at max
  rw [(values low).1] at sum
  rw [(values low).2, (values single).2] at max
  refine ⟨sum, max.trans ?_⟩
  simp only [on_cpu_put, ↓reduceIte, Nat.zero_ne_one]
  exact Int.max_eq_left (Int.le_max_left 0 _)

theorem free_one_apart {xs ys : List Event} {e : Event} (parts : events = xs ++ e :: ys) :
    s64 ((bandwidthOf (xs ++ ys)).lcSum + (bandwidthOf [e]).lcSum) = latestTotal events ∧
      max (max 0 (bandwidthOf (xs ++ ys)).lcMax) (bandwidthOf [e]).lcMax =
        max 0 (bandwidthOf events).lcMax := by
  have values := free_two inside two free (put 0 xs ++ (1, e) :: put 0 ys)
    (by simp [put_events, parts]) (by
      intro p member
      simp only [List.mem_append, List.mem_cons] at member
      rcases member with first | rfl | last
      · rw [put_cpu first]; decide
      · exact Nat.one_lt_two
      · rw [put_cpu last]; decide)
  simpa [on_cpu_append, on_cpu_cons, on_cpu_put] using values

theorem free_pair_apart {xs ys zs : List Event} {f e : Event}
    (parts : events = xs ++ f :: (ys ++ e :: zs)) :
    max (max 0 (bandwidthOf [f, e]).lcMax) (bandwidthOf (xs ++ (ys ++ zs))).lcMax =
      max 0 (bandwidthOf events).lcMax := by
  have values := free_two inside two free
    (put 1 xs ++ (0, f) :: (put 1 ys ++ (0, e) :: put 1 zs))
    (by simp [put_events, parts]) (by
      intro p member
      simp only [List.mem_append, List.mem_cons] at member
      rcases member with first | rfl | second | rfl | third
      · rw [put_cpu first]; decide
      · exact Nat.zero_lt_two
      · rw [put_cpu second]; decide
      · exact Nat.zero_lt_two
      · rw [put_cpu third]; decide)
  have max := values.2
  simpa [on_cpu_append, on_cpu_cons, on_cpu_put] using max

variable (ascending : Ascending events) (admissible : ∀ e ∈ events, e.Admissible)
include ascending admissible

theorem free_bytes_latest {last : Event} (ends : events.getLast? = some last) :
    ∀ e ∈ events, e.bytes ≠ 0 → e.sec = last.sec := by
  intro e member bytes
  by_contra other
  obtain ⟨xs, ys, parts⟩ := List.append_of_mem member
  have some : ys ≠ [] := by
    rintro rfl
    simp only [parts, List.getLast?_append, List.getLast?_singleton, Option.some_or,
      Option.some.injEq] at ends
    exact other (congrArg Event.sec ends)
  have tail : (xs ++ ys).getLast? = Option.some last := by
    rw [← ends, parts, List.getLast?_append_of_ne_nil _ some,
      List.getLast?_append_of_ne_nil _ (List.cons_ne_nil e ys), List.getLast?_cons_of_ne_nil some]
  have part : (xs ++ ys).Sublist events := parts ▸ (List.Sublist.refl xs).append (List.sublist_cons_self e ys)
  have rest := (bandwidth_sum (ascending.sublist part) fun x among => admissible x (part.subset among)).1
  have same : latestTotal (xs ++ ys) = latestTotal events := by
    simp only [latestTotal, tail, ends]
    rw [parts, List.filter_append, List.filter_append, List.filter_cons_of_neg (by simpa using other)]
  have alone := @bandwidth_sum [e] (List.pairwise_singleton _ _)
    (fun x among => by rw [List.mem_singleton.mp among]; exact admissible e member)
  have own : latestTotal [e] = e.bytes := by simp [latestTotal, sumBytes]
  have apart := (free_one_apart inside two free parts).1
  have range := (admissible e member).2.1
  have fits := free_latest_fits inside (by omega) free
  rw [rest, same, alone.1, own, s64_of_in fits, s64_of_in range] at apart
  simp only [s64, InS64] at apart range fits
  omega

theorem free_sum_latest : sumBytes events = latestTotal events := by
  cases ends : events.getLast? with
  | none => simp [List.getLast?_eq_none_iff.mp ends, latestTotal, sumBytes]
  | some last =>
    simp only [latestTotal, ends]
    refine (sum_filter ?_).symm
    intro e member other
    by_contra bytes
    exact absurd (free_bytes_latest inside two free ascending admissible ends e member bytes)
      (by simpa using other)

theorem free_not_raised {xs ys zs : List Event} {f e : Event}
    (parts : events = xs ++ f :: (ys ++ e :: zs)) (below : f.sec < e.sec)
    (zero : ∀ x ∈ (xs ++ f :: ys) ++ zs, x.bytes = 0) : (bandwidthOf events).lcMax ≤ 0 := by
  have apart := free_pair_apart inside two free parts
  have part : [f, e].Sublist events := by
    have tail : [e].Sublist (ys ++ e :: zs) :=
      ((List.nil_sublist zs).cons_cons e).trans (List.sublist_append_right ys _)
    rw [parts]
    exact (tail.cons_cons f).trans (List.sublist_append_right xs _)
  have pair := (@bandwidth_last [f] e (by simpa using zero f (by simp)) (by simpa using below)
    (ascending.sublist part) (fun x among => admissible x (part.subset among)) (Or.inr (by simp))).2
  have others := (@bandwidth_zero (xs ++ (ys ++ zs)) (fun x among => zero x (by
    simp only [List.mem_append, List.mem_cons] at among ⊢
    tauto))).2
  rw [List.singleton_append] at pair
  rw [pair, others] at apart
  omega

theorem free_holder {front : List Event} {last previous : Event} (parts : events = front ++ [last])
    (ends : front.getLast? = some previous) (same : last.sec = previous.sec)
    {xs ys : List Event} {e : Event} (split : events = xs ++ e :: ys) (positive : 0 < e.bytes) :
    (∀ x ∈ xs ++ ys, x.bytes = 0) ∧ (bandwidthOf [e]).lcMax = e.bytes ∧
      e.bytes ≤ (bandwidthOf events).lcMax := by
  have sum := free_sum_latest inside two free ascending admissible
  have fits := free_latest_fits inside (by omega) free
  have nonneg : ∀ x ∈ events, 0 ≤ x.bytes := fun x among => (admissible x among).1
  have within := bandwidth_within nonneg (by rw [sum]; exact fits.2)
  have own := (bandwidth_sum ascending admissible).1
  rw [s64_of_in fits] at own
  have again : (bandwidthOf events).lcSum ≤ (bandwidthOf events).lcMax := by
    rw [parts] at ascending admissible ⊢
    exact bandwidth_again ends same ascending admissible
  have part : (xs ++ ys).Sublist events := split ▸ (List.Sublist.refl xs).append (List.sublist_cons_self e ys)
  have whole : sumBytes events = sumBytes (xs ++ ys) + e.bytes := by
    rw [split]
    simp only [sumBytes, List.map_append, List.map_cons, List.sum_append, List.sum_cons]
    omega
  have left := sum_nonneg fun x among => nonneg x (part.subset among)
  have rest := bandwidth_within (fun x among => nonneg x (part.subset among)) (by have := fits.2; omega)
  have alone := @bandwidth_within [e]
    (fun x among => by rw [List.mem_singleton.mp among]; omega) (by rw [sum_single]; have := fits.2; omega)
  have apart := (free_one_apart inside two free split).2
  simp only [Within, sum_single] at within rest alone
  have all : sumBytes (xs ++ ys) = 0 := by omega
  exact ⟨zero_of_sum_zero (fun x among => nonneg x (part.subset among)) all, by omega, by omega⟩

/-- That event is in the second that a fresh counter holds, and so are all others. -/
theorem free_crowded {front : List Event} {last previous : Event} (parts : events = front ++ [last])
    (ends : front.getLast? = some previous) (same : last.sec = previous.sec)
    {e : Event} (member : e ∈ events) (positive : 0 < e.bytes) : AtInit events := by
  obtain ⟨xs, ys, split⟩ := List.append_of_mem member
  obtain ⟨quiet, alone, shown⟩ := free_holder inside two free ascending admissible parts ends
      same split positive
  have second : e.sec = lcMinInit := by
    by_contra other
    have rolled := (@bandwidth_last [] e (by simp) (by simp) (List.pairwise_singleton _ _)
      (by simpa using admissible e member) (Or.inl other)).2
    rw [List.nil_append] at rolled
    omega
  refine ⟨?_, xs, e, ys, split, quiet⟩
  intro f among
  by_contra other
  have range := (admissible f among).2.2
  have below : f.sec < e.sec := by
    rw [second] at *
    simp only [lcMinInit, InS64] at *
    omega
  have earlier : f ∈ xs := by
    rw [split] at among ascending
    rcases List.mem_append.mp among with before | later
    · exact before
    · rcases List.mem_cons.mp later with rfl | after
      · omega
      · have order := (List.pairwise_cons.mp (List.pairwise_append.mp ascending).2.1).1 f after
        omega
  obtain ⟨us, vs, rfl⟩ := List.append_of_mem earlier
  have low := free_not_raised inside two free ascending admissible (f := f) (e := e)
    (by rw [split, List.append_assoc, List.cons_append]) below quiet
  omega

theorem free_alone {front : List Event} {last : Event} (parts : events = front ++ [last])
    (alone : ∀ previous, front.getLast? = some previous → last.sec ≠ previous.sec)
    {e : Event} (member : e ∈ events) (bytes : e.bytes ≠ 0) : LastOnly events ∨ AtInit events := by
  have ends : events.getLast? = some last := by simp [parts]
  have latest := free_bytes_latest inside two free ascending admissible ends
  have earlier : ∀ x ∈ front, x.sec < last.sec := by
    intro x among
    rw [parts] at ascending
    have order := List.pairwise_append.mp ascending
    have known := List.getLast?_eq_getLast_of_ne_nil (List.ne_nil_of_mem among)
    generalize front.getLast _ = previous at known
    have bound := le_last order.1 known x among
    have step := order.2.2 previous (List.mem_of_getLast? known) last (by simp)
    have other := alone previous known
    omega
  have quiet : ∀ x ∈ front, x.bytes = 0 := by
    intro x among
    by_contra some
    have same := latest x (by simp [parts, among]) some
    have before := earlier x among
    omega
  by_cases init : last.sec = lcMinInit
  · by_cases some : front = []
    · subst some
      right
      refine ⟨?_, [], last, [], parts, by simp⟩
      intro x among
      rw [parts, List.nil_append, List.mem_singleton] at among
      rw [among, init]
    · -- Alone on a fresh counter the last event would raise the maximum; after others it does not.
      exfalso
      have lastOk := admissible last (by simp [parts])
      have apart := (free_one_apart inside two free parts).2
      have fresh := (@bandwidth_init [last] (by simpa using init) (by simpa using lastOk.1)
        (by simpa [sumBytes] using lastOk.2.1.2)).2.2
      have rolled := (bandwidth_last quiet earlier (parts ▸ ascending) (parts ▸ admissible) (Or.inr some)).2
      have none := (bandwidth_zero quiet).2
      rw [List.append_nil, none, fresh, sum_single, parts, rolled] at apart
      have zero : last.bytes = 0 := by have := lastOk.1; omega
      rw [parts, List.mem_append, List.mem_singleton] at member
      rcases member with before | rfl
      · exact bytes (quiet e before)
      · exact bytes zero
  · exact Or.inl ⟨front, last, parts, init, fun x among => ⟨quiet x among, earlier x among⟩⟩

end

/-- The collected bandwidth of a sequence of events does not depend on the CPUs exactly if
    there is one CPU only and no overflow, or there are no bytes, or all bytes are in one
    event that no other event can be confused with. -/
theorem placement_free_iff (num slot cpus : Nat) (header : Nat → Header) (events : List Event)
    (inside : slot < num) (machine : 0 < cpus) (ascending : Ascending events)
    (admissible : ∀ e ∈ events, e.Admissible) :
    PlacementFree num slot header cpus events ↔
      (cpus = 1 ∧ latestTotal events < 9223372036854775808) ∨ (∀ e ∈ events, e.bytes = 0) ∨
        LastOnly events ∨ AtInit events := by
  constructor
  · intro free
    have fits := free_latest_fits inside machine free
    by_cases one : cpus = 1
    · exact Or.inl ⟨one, fits.2⟩
    have two : 2 ≤ cpus := by omega
    right
    by_cases zero : ∀ e ∈ events, e.bytes = 0
    · exact Or.inl zero
    right
    simp only [not_forall] at zero
    obtain ⟨e, member, bytes⟩ := zero
    obtain ⟨front, last, parts⟩ := (List.eq_nil_or_concat' events).resolve_left (List.ne_nil_of_mem member)
    by_cases crowded : ∃ previous, front.getLast? = some previous ∧ last.sec = previous.sec
    · obtain ⟨previous, ends, same⟩ := crowded
      have positive : 0 < e.bytes := by have := (admissible e member).1; omega
      exact Or.inr (free_crowded inside two free ascending admissible parts ends same member positive)
    · exact free_alone inside two free ascending admissible parts
        (fun previous ends same => crowded ⟨previous, ends, same⟩) member bytes
  · rintro (⟨rfl, fits⟩ | zero | only | init)
    · have nonneg : 0 ≤ latestTotal events := by
        unfold latestTotal
        split
        · exact Int.le_refl 0
        · exact sum_nonneg fun e member => (admissible e (List.mem_of_mem_filter member)).1
      exact free_of_one_cpu inside ascending admissible ⟨by omega, fits⟩
    · exact free_of_zero inside machine zero
    · exact free_of_last_only inside ascending admissible only
    · exact free_of_at_init inside admissible init

def plainHeader : Nat → Header := fun _ => ⟨some "ost_bandwidth_read", "bytes/usec", true, true⟩

theorem placement_free_one_transfer :
    PlacementFree 2 1 plainHeader 2 [⟨1, 0⟩, ⟨1, 0⟩, ⟨3, 4096⟩] ∧
      (collected 2 1 plainHeader [(0, ⟨1, 0⟩), (1, ⟨1, 0⟩), (1, ⟨3, 4096⟩)]).lcSum = 4096 := by
  constructor
  · refine (placement_free_iff 2 1 2 plainHeader _ (by decide) (by decide) (by decide) ?_).mpr
      (Or.inr (Or.inr (Or.inl ⟨[⟨1, 0⟩, ⟨1, 0⟩], ⟨3, 4096⟩, rfl, by decide, by decide⟩)))
    decide
  · decide +kernel

/-- Ten bytes in one second on the first CPU, five in the next on the second. -/
theorem placement_adds_two_seconds :
    Places 2 [⟨1, 10⟩, ⟨2, 5⟩] [(0, ⟨1, 10⟩), (1, ⟨2, 5⟩)] ∧
      (collected 2 1 plainHeader [(0, ⟨1, 10⟩), (1, ⟨2, 5⟩)]).lcSum = 15 ∧
      latestTotal [⟨1, 10⟩, ⟨2, 5⟩] = 5 ∧ ¬ PlacementFree 2 1 plainHeader 2 [⟨1, 10⟩, ⟨2, 5⟩] := by
  have places : Places 2 [⟨1, 10⟩, ⟨2, 5⟩] [(0, ⟨1, 10⟩), (1, ⟨2, 5⟩)] := ⟨rfl, by decide⟩
  have sum : (collected 2 1 plainHeader [(0, ⟨1, 10⟩), (1, ⟨2, 5⟩)]).lcSum = 15 := by decide +kernel
  refine ⟨places, sum, by decide, ?_⟩
  intro free
  have latest := free.2 _ places
  rw [sum] at latest
  exact absurd latest (by decide)

end StatsPlacement
