import Mathlib.Algebra.Order.BigOperators.Group.Finset
import Mathlib.Data.Finset.Fold
import LustreTools.Lib.Runs
import LustreTools.Stats.Placement

/-!
The peak and the sum of squares that a bandwidth counter of one CPU keeps. A second is put
on the books by the event that opens the next one; an event that skips a second closes the
current one without doing so.
-/
namespace StatsPeaks
open Runs Words StatsCounters StatsPlacement

def seconds (es : List Event) : Finset Int := (es.map Event.sec).toFinset

def secTotal (es : List Event) (sec : Int) : Int := sumBytes (es.filter fun e => e.sec = sec)

def peak (secs : Finset Int) (es : List Event) : Int := secs.fold max 0 (secTotal es)

def squares (secs : Finset Int) (es : List Event) : Int := secs.sum fun sec => secTotal es sec ^ 2

inductive Reached : Stats → Prop
  | registered (num : Nat) (header : Nat → Header) : Reached (lprocfsAllocStats num header)
  | updated {stats : Stats} (u : Update) : Reached stats → Reached (stats.update u)
  | cleared {stats : Stats} : Reached stats → Reached (lprocfsClearStats stats)

def Started (stats : Stats) : Prop :=
  (∃ num header, stats = lprocfsAllocStats num header) ∨
    ∃ before, Reached before ∧ stats = lprocfsClearStats before

def after (stats : Stats) (cpu slot : Nat) (es : List Event) : Counter :=
  (record stats slot (es.map fun e => (cpu, e))).counter cpu slot

def Opens (front : List Event) (e : Event) : Prop := ∀ x ∈ front, x.sec < e.sec

/-- Right after each event that opens a second, all earlier seconds are on the books. -/
def PeaksKept (stats : Stats) (cpu slot : Nat) (es : List Event) : Prop :=
  ∀ front e rest, es = front ++ e :: rest → Opens front e →
    (after stats cpu slot (front ++ [e])).lcMax = peak (seconds front) front ∧
      (after stats cpu slot (front ++ [e])).lcSumsquare = squares (seconds front) front

/-- The event does not close a second with bytes by skipping the one after it. The first
    event carries no bytes in the second that marks a new counter. -/
def Closes (front : List Event) (e : Event) : Prop :=
  match front.getLast? with
  | none => e.sec = lcMinInit → e.bytes = 0
  | some last => last.sec + 1 < e.sec → secTotal front last.sec = 0

def NoneLost (es : List Event) : Prop := ∀ front e rest, es = front ++ e :: rest → Closes front e

def Fits (es : List Event) : Prop :=
  (∀ sec, secTotal es sec < 9223372036854775808) ∧ squares (seconds es) es < 9223372036854775808

theorem reached_bounded {stats : Stats} (reached : Reached stats) : stats.Bounded := by
  induction reached with
  | registered num header => exact fun _ _ => rfl
  | updated u _ ih => exact update_bounded u ih
  | cleared _ ih => exact clear_bounded ih

theorem started_fresh {stats : Stats} (started : Started stats) {slot : Nat} (inside : slot < stats.lsNum)
    (cpu : Nat) : stats.counter cpu slot = Counter.fresh := by
  rcases started with ⟨num, header, same⟩ | ⟨before, reached, same⟩
  · rw [same]
    rfl
  · subst same
    exact clear_counter (reached_bounded reached) inside cpu

theorem after_eq {stats : Stats} (started : Started stats) {slot : Nat} (inside : slot < stats.lsNum)
    (cpu : Nat) (es : List Event) : after stats cpu slot es = bandwidthOf es := by
  rw [after, record, counter_run _ _ inside, started_fresh started inside, bandwidthOf]
  simp only [List.map_map, List.filter_map, List.foldl_map]
  have hits : (fun u : Update => u.Hits cpu slot) ∘
      ((fun p : Placed => (⟨p.1, slot, .bandwidth p.2.sec p.2.bytes⟩ : Update)) ∘
        fun e : Event => (cpu, e)) = fun _ => true := by
    funext e
    simp [Update.Hits]
  rw [hits, List.filter_true]
  rfl

theorem seconds_snoc (front : List Event) (e : Event) :
    seconds (front ++ [e]) = insert e.sec (seconds front) := by
  ext sec
  simp [seconds]

theorem total_snoc_same (front : List Event) (e : Event) :
    secTotal (front ++ [e]) e.sec = secTotal front e.sec + e.bytes := by
  simp [secTotal, List.filter_append, sumBytes]

theorem total_snoc_other (front : List Event) {e : Event} {sec : Int} (other : sec ≠ e.sec) :
    secTotal (front ++ [e]) sec = secTotal front sec := by
  simp [secTotal, List.filter_append, Ne.symm other]

theorem total_nonneg {es : List Event} (nonneg : ∀ e ∈ es, 0 ≤ e.bytes) (sec : Int) : 0 ≤ secTotal es sec :=
  sum_nonneg fun e member => nonneg e (List.mem_filter.mp member).1

theorem total_absent {es : List Event} {sec : Int} (absent : sec ∉ seconds es) : secTotal es sec = 0 := by
  have none : es.filter (fun e => e.sec = sec) = [] := by
    rw [List.filter_eq_nil_iff]
    intro e member
    simp only [decide_eq_true_eq]
    intro same
    exact absent (by simp only [seconds, List.mem_toFinset, List.mem_map]; exact ⟨e, member, same⟩)
  rw [secTotal, none]
  rfl

theorem peak_nonneg (secs : Finset Int) (es : List Event) : 0 ≤ peak secs es := by
  induction secs using Finset.induction with
  | empty => exact Int.le_refl 0
  | insert sec secs new ih =>
    rw [peak, Finset.fold_insert new]
    exact Int.le_trans ih (Int.le_max_right _ _)

theorem peak_split {secs : Finset Int} {sec : Int} (member : sec ∈ secs) (es : List Event) :
    peak secs es = max (secTotal es sec) (peak (secs.erase sec) es) := by
  have new : sec ∉ secs.erase sec := by simp
  have whole : peak (insert sec (secs.erase sec)) es = max (secTotal es sec) (peak (secs.erase sec) es) :=
    Finset.fold_insert new
  rwa [Finset.insert_erase member] at whole

theorem squares_split {secs : Finset Int} {sec : Int} (member : sec ∈ secs) (es : List Event) :
    squares secs es = secTotal es sec ^ 2 + squares (secs.erase sec) es :=
  (Finset.add_sum_erase secs _ member).symm

theorem closed_snoc (front : List Event) (e : Event) :
    peak ((seconds (front ++ [e])).erase e.sec) (front ++ [e]) = peak ((seconds front).erase e.sec) front ∧
      squares ((seconds (front ++ [e])).erase e.sec) (front ++ [e]) =
        squares ((seconds front).erase e.sec) front := by
  have others : (seconds (front ++ [e])).erase e.sec = (seconds front).erase e.sec := by
    rw [seconds_snoc, Finset.erase_insert_eq_erase]
  have totals (sec : Int) (member : sec ∈ (seconds front).erase e.sec) :
      secTotal (front ++ [e]) sec = secTotal front sec :=
    total_snoc_other front (Finset.mem_erase.mp member).1
  rw [others]
  constructor
  · exact Finset.fold_congr totals
  · apply Finset.sum_congr rfl
    intro sec member
    rw [totals sec member]

theorem squares_nonneg (secs : Finset Int) (es : List Event) : 0 ≤ squares secs es :=
  Finset.sum_nonneg fun _ _ => sq_nonneg _

theorem total_snoc_le (front : List Event) {e : Event} (bytes : 0 ≤ e.bytes) (sec : Int) :
    secTotal front sec ≤ secTotal (front ++ [e]) sec := by
  by_cases same : sec = e.sec
  · rw [same, total_snoc_same]
    omega
  · rw [total_snoc_other front same]

theorem squares_snoc_le {front : List Event} {e : Event} (nonneg : ∀ x ∈ front ++ [e], 0 ≤ x.bytes) :
    squares (seconds front) front ≤ squares (seconds (front ++ [e])) (front ++ [e]) := by
  have member : e.sec ∈ seconds (front ++ [e]) := by simp [seconds_snoc]
  rw [squares_split member, (closed_snoc front e).2]
  by_cases old : e.sec ∈ seconds front
  · rw [squares_split old]
    have earlier : ∀ x ∈ front, 0 ≤ x.bytes := fun x member => nonneg x (by simp [member])
    have least := total_nonneg earlier e.sec
    have more := total_snoc_le front (nonneg e (by simp)) e.sec
    have square : secTotal front e.sec ^ 2 ≤ secTotal (front ++ [e]) e.sec ^ 2 :=
      pow_le_pow_left₀ least more 2
    omega
  · rw [Finset.erase_eq_of_notMem old]
    have square := sq_nonneg (secTotal (front ++ [e]) e.sec)
    omega

theorem fits_snoc {front : List Event} {e : Event} (nonneg : ∀ x ∈ front ++ [e], 0 ≤ x.bytes)
    (fits : Fits (front ++ [e])) : Fits front := by
  constructor
  · intro sec
    have more := total_snoc_le front (nonneg e (by simp)) sec
    have bound := fits.1 sec
    omega
  · exact Int.lt_of_le_of_lt (squares_snoc_le nonneg) fits.2

theorem fits_append {front rest : List Event} (nonneg : ∀ x ∈ front ++ rest, 0 ≤ x.bytes)
    (fits : Fits (front ++ rest)) : Fits front := by
  induction rest using List.reverseRecOn with
  | nil => simpa using fits
  | append_singleton rest e ih =>
    rw [← List.append_assoc] at nonneg fits
    exact ih (fun x member => nonneg x (List.mem_append_left _ member)) (fits_snoc nonneg fits)

theorem opens_new {front : List Event} {e : Event} (opens : Opens front e) : e.sec ∉ seconds front := by
  intro member
  simp only [seconds, List.mem_toFinset, List.mem_map] at member
  obtain ⟨x, inside, same⟩ := member
  have before := opens x inside
  omega

theorem opens_of_ne {front : List Event} {e last : Event} (ascending : Ascending (front ++ [e]))
    (ends : front.getLast? = some last) (other : e.sec ≠ last.sec) : Opens front e := by
  obtain ⟨earlier, _, order⟩ := List.pairwise_append.mp ascending
  have later := order last (List.mem_of_getLast? ends) e (by simp)
  intro x member
  have bound := le_last earlier ends x member
  omega

theorem last_mem {front : List Event} {last : Event} (ends : front.getLast? = some last) :
    last.sec ∈ seconds front := by
  simp only [seconds, List.mem_toFinset, List.mem_map]
  exact ⟨last, List.mem_of_getLast? ends, rfl⟩

theorem calc_same_squares {c : Counter} {sec : Int} (same : sec = c.lcMin) (bytes : Int) :
    (c.calcBandwidth sec bytes).lcSumsquare = c.lcSumsquare := by
  simp [Counter.calcBandwidth, same]

theorem calc_next {c : Counter} {sec : Int} (other : sec ≠ c.lcMin) (next : sec = s64 (c.lcMin + 1))
    (bytes : Int) :
    (c.calcBandwidth sec bytes).lcMax = max c.lcMax c.lcSum ∧
      (c.calcBandwidth sec bytes).lcSumsquare = s64 (c.lcSumsquare + s64 (c.lcSum * c.lcSum)) := by
  simp only [Counter.calcBandwidth, other, ↓reduceIte, if_pos next]
  constructor
  · split <;> omega
  · trivial

theorem calc_skip {c : Counter} {sec : Int} (other : sec ≠ c.lcMin) (skips : s64 (c.lcMin + 1) < sec)
    (bytes : Int) :
    (c.calcBandwidth sec bytes).lcMax = c.lcMax ∧
      (c.calcBandwidth sec bytes).lcSumsquare = c.lcSumsquare := by
  have later : sec ≠ s64 (c.lcMin + 1) := by omega
  simp [Counter.calcBandwidth, other, later, skips]

/-- What the counter of a CPU holds as long as nothing was lost. The peak may or may not
    cover the current second, which a second event in it puts on the books early. -/
def Books (front : List Event) : Prop := ∀ last, front.getLast? = some last →
  (bandwidthOf front).lcSumsquare = squares ((seconds front).erase last.sec) front ∧
    peak ((seconds front).erase last.sec) front ≤ (bandwidthOf front).lcMax ∧
    (bandwidthOf front).lcMax ≤ peak (seconds front) front

def Recorded (front : List Event) (e : Event) : Prop := Opens front e →
  (bandwidthOf (front ++ [e])).lcMax = peak (seconds front) front ∧
    (bandwidthOf (front ++ [e])).lcSumsquare = squares (seconds front) front

structure Proper (front : List Event) (e : Event) : Prop where
  ascending : Ascending (front ++ [e])
  admissible : ∀ x ∈ front ++ [e], x.Admissible
  fits : Fits (front ++ [e])

theorem books_of_recorded {front : List Event} {e : Event} (opens : Opens front e)
    (recorded : Recorded front e) : Books (front ++ [e]) := by
  intro last ends
  rw [List.getLast?_append_of_ne_nil _ (by simp), List.getLast?_singleton, Option.some.injEq] at ends
  subst ends
  have fresh := Finset.erase_eq_of_notMem (opens_new opens)
  obtain ⟨peaks, sums⟩ := closed_snoc front e
  rw [fresh] at peaks sums
  obtain ⟨most, total⟩ := recorded opens
  have member : e.sec ∈ seconds (front ++ [e]) := by simp [seconds_snoc]
  rw [peak_split member, peaks, sums, most, total]
  exact ⟨rfl, Int.le_refl _, Int.le_max_right _ _⟩

theorem current {front : List Event} {e last : Event} (proper : Proper front e)
    (ends : front.getLast? = some last) :
    (bandwidthOf front).lcMin = last.sec ∧ (bandwidthOf front).lcSum = secTotal front last.sec ∧
      secTotal front last.sec < 9223372036854775808 := by
  have admissible : ∀ x ∈ front, x.Admissible := fun x member => proper.admissible x (by simp [member])
  obtain ⟨sum, min⟩ := bandwidth_sum (List.pairwise_append.mp proper.ascending).1 admissible
  have latest : latestTotal front = secTotal front last.sec := by simp only [latestTotal, ends, secTotal]
  have least := total_nonneg (fun x member => (admissible x member).1) last.sec
  have bound := (fits_snoc (fun x member => (proper.admissible x member).1) proper.fits).1 last.sec
  rw [latest, s64_of_in (by simp only [InS64]; omega)] at sum
  exact ⟨min last ends, sum, bound⟩

theorem same_second_books {front : List Event} {e last : Event} (proper : Proper front e)
    (books : Books front) (ends : front.getLast? = some last) (same : e.sec = last.sec) :
    Books (front ++ [e]) := by
  obtain ⟨min, sum, _⟩ := current proper ends
  obtain ⟨squared, low, high⟩ := books last ends
  have total := total_snoc_same front e
  have bytes := (proper.admissible e (by simp)).1
  have admissible : ∀ x ∈ front, x.Admissible := fun x member => proper.admissible x (by simp [member])
  have least := total_nonneg (fun x member => (admissible x member).1) last.sec
  have bound := proper.fits.1 e.sec
  obtain ⟨_, _, most⟩ := calc_same (same.trans min.symm) e.bytes
  have kept := calc_same_squares (same.trans min.symm) e.bytes
  rw [sum, ← same, ← total, s64_of_in (by simp only [InS64]; rw [same] at total bound ⊢; omega)] at most
  intro final ends'
  rw [List.getLast?_append_of_ne_nil _ (by simp), List.getLast?_singleton, Option.some.injEq] at ends'
  subst ends'
  obtain ⟨peaks, sums⟩ := closed_snoc front e
  have member : e.sec ∈ seconds (front ++ [e]) := by simp [seconds_snoc]
  have old := peak_split (last_mem ends) front
  rw [← same] at squared low old
  rw [peak_split member, peaks, sums, bandwidth_snoc, kept, most, squared]
  refine ⟨rfl, by omega, by omega⟩

theorem opened_recorded_iff {front : List Event} {e last : Event} (proper : Proper front e)
    (books : Books front) (ends : front.getLast? = some last) (opens : Opens front e) :
    Recorded front e ↔ (last.sec + 1 < e.sec → secTotal front last.sec = 0) := by
  obtain ⟨min, sum, small⟩ := current proper ends
  obtain ⟨squared, low, high⟩ := books last ends
  have member := last_mem ends
  have order := opens last (List.mem_of_getLast? ends)
  have admissible : ∀ x ∈ front, x.Admissible := fun x member => proper.admissible x (by simp [member])
  have least := total_nonneg (fun x member => (admissible x member).1) last.sec
  have range := (admissible last (List.mem_of_getLast? ends)).2.2
  have range' := (proper.admissible e (by simp)).2.2
  have other : e.sec ≠ (bandwidthOf front).lcMin := by omega
  have next : s64 ((bandwidthOf front).lcMin + 1) = last.sec + 1 := by
    rw [min]
    apply s64_of_in
    simp only [InS64] at *
    omega
  have whole := squares_split member front
  have largest := peak_split member front
  have nonneg := peak_nonneg ((seconds front).erase last.sec) front
  simp only [Recorded, opens, forall_const, bandwidth_snoc]
  by_cases skips : last.sec + 1 < e.sec
  · obtain ⟨most, kept⟩ := calc_skip other (by omega) e.bytes
    rw [most, kept, squared, whole]
    simp only [skips, forall_const]
    constructor
    · intro law
      have zero : secTotal front last.sec ^ 2 = 0 := by omega
      exact pow_eq_zero_iff (by decide) |>.mp zero
    · intro zero
      rw [zero] at largest ⊢
      constructor
      · omega
      · omega
  · obtain ⟨most, added⟩ := calc_next other (by omega) e.bytes
    refine iff_of_true ?_ (fun later => absurd later skips)
    have bound := (fits_snoc (fun x member => (proper.admissible x member).1) proper.fits).2
    have rest := squares_nonneg ((seconds front).erase last.sec) front
    have square := sq_nonneg (secTotal front last.sec)
    have fits : s64 (secTotal front last.sec ^ 2) = secTotal front last.sec ^ 2 :=
      s64_of_in (by simp only [InS64]; omega)
    rw [most, added, sum, squared, ← pow_two, fits, s64_of_in (by simp only [InS64]; omega)]
    constructor
    · omega
    · omega

theorem first_recorded_iff {e : Event} (admissible : e.Admissible) :
    Recorded [] e ↔ (e.sec = lcMinInit → e.bytes = 0) := by
  have opens : Opens [] e := by simp [Opens]
  obtain ⟨nonneg, range, second⟩ := admissible
  simp only [Recorded, opens, forall_const, bandwidth_snoc]
  have start : bandwidthOf [] = Counter.fresh := rfl
  have none : peak (seconds []) [] = 0 ∧ squares (seconds []) [] = 0 := by decide
  rw [start, none.1, none.2]
  by_cases init : e.sec = lcMinInit
  · obtain ⟨_, _, most⟩ := calc_same (c := Counter.fresh) init e.bytes
    have kept := calc_same_squares (c := Counter.fresh) init e.bytes
    rw [most, kept]
    simp only [Counter.fresh, Int.zero_add, s64_of_in range, init, forall_const, and_true]
    omega
  · refine iff_of_true ?_ (fun same => absurd same init)
    by_cases next : e.sec = s64 (lcMinInit + 1)
    · exact calc_next (c := Counter.fresh) init next e.bytes
    · apply calc_skip (c := Counter.fresh) init
      simp only [Counter.fresh, lcMinInit, s64, InS64] at *
      omega

/-- What one event needs, exactly, and what it keeps. -/
theorem recorded_iff_closes {front : List Event} {e : Event} (books : Books front)
    (proper : Proper front e) : Recorded front e ↔ Closes front e := by
  unfold Closes
  cases ends : front.getLast? with
  | none =>
    rw [List.getLast?_eq_none_iff.mp ends]
    exact first_recorded_iff (proper.admissible e (by simp))
  | some last =>
    by_cases same : e.sec = last.sec
    · apply iff_of_true
      · intro opens
        have before := opens last (List.mem_of_getLast? ends)
        omega
      · intro skips
        omega
    · exact opened_recorded_iff proper books ends (opens_of_ne proper.ascending ends same)

theorem recorded_books {front : List Event} {e : Event} (books : Books front) (proper : Proper front e)
    (recorded : Recorded front e) : Books (front ++ [e]) := by
  cases ends : front.getLast? with
  | none =>
    rw [List.getLast?_eq_none_iff.mp ends] at recorded ⊢
    exact books_of_recorded (by simp [Opens]) recorded
  | some last =>
    by_cases same : e.sec = last.sec
    · exact same_second_books proper books ends same
    · exact books_of_recorded (opens_of_ne proper.ascending ends same) recorded

theorem none_lost_iff_along {es : List Event} :
    NoneLost es ↔ Along (fun front e => front ++ [e]) Closes [] es := by
  simp only [along_prefixes, List.nil_append, NoneLost]

/-- For events of one CPU in the order of their seconds, the peak and the sum of squares cover
    every earlier second at each opening of a new one, exactly when no second that has bytes is
    closed by an event more than one second later. -/
theorem peaks_kept_iff_none_lost (stats : Stats) (started : Started stats) (cpu slot : Nat)
    (inside : slot < stats.lsNum) (es : List Event) (ascending : Ascending es)
    (admissible : ∀ e ∈ es, e.Admissible) (fits : Fits es) :
    PeaksKept stats cpu slot es ↔ NoneLost es := by
  have proper : ∀ front e rest, es = front ++ e :: rest → Proper front e := by
    intro front e rest split
    rw [List.append_cons] at split
    have nonneg : ∀ x ∈ front ++ [e] ++ rest, 0 ≤ x.bytes := fun x member =>
      (admissible x (by rw [split]; exact member)).1
    constructor
    · rw [split] at ascending
      exact (List.pairwise_append.mp ascending).1
    · intro x member
      exact admissible x (by rw [split]; exact List.mem_append_left _ member)
    · rw [split] at fits
      exact fits_append nonneg fits
  have kept : PeaksKept stats cpu slot es ↔
      Along (fun front e => front ++ [e]) Recorded [] es := by
    simp only [along_prefixes, List.nil_append, PeaksKept, Recorded, after_eq started inside cpu]
  rw [kept, none_lost_iff_along]
  apply along_congr (fun front e books proper recorded => recorded_books books proper recorded)
    (fun front e books proper => recorded_iff_closes books proper)
  · intro last ends
    cases ends
  · simpa only [along_prefixes, List.nil_append] using proper

theorem peaks_kept_three_seconds :
    let es : List Event := [⟨7, 10⟩, ⟨8, 5⟩, ⟨8, 20⟩, ⟨9, 1⟩]
    let counter := after (lprocfsAllocStats 1 fun _ => ⟨none, "", true, true⟩) 0 0 es
    counter.lcMax = 25 ∧ counter.lcSumsquare = 725 := by
  intro es counter
  have kept := (peaks_kept_iff_none_lost (lprocfsAllocStats 1 fun _ => ⟨none, "", true, true⟩)
    (Or.inl ⟨_, _, rfl⟩) 0 0 (by decide) es (by decide) (by decide) ?_).mpr ?_
  · have last := kept (es.take 3) ⟨9, 1⟩ [] rfl (by unfold Opens; decide)
    have largest : peak (seconds (es.take 3)) (es.take 3) = 25 := by decide
    have total : squares (seconds (es.take 3)) (es.take 3) = 725 := by decide
    rw [largest, total] at last
    exact last
  · constructor
    · intro sec
      by_cases known : sec ∈ seconds es
      · revert sec
        decide
      · rw [total_absent known]
        decide
    · decide
  · have none : Along (fun front e => front ++ [e]) Closes [] es :=
      ⟨fun init => absurd init (by decide), fun skips => absurd skips (by decide),
        fun skips => absurd skips (by decide), fun skips => absurd skips (by decide), trivial⟩
    exact none_lost_iff_along.mpr none

/-- A second with bytes, closed by an event two seconds later, is missing in both. -/
theorem skipped_second_lost :
    let es : List Event := [⟨7, 10⟩, ⟨9, 1⟩]
    let counter := after (lprocfsAllocStats 1 fun _ => ⟨none, "", true, true⟩) 0 0 es
    Opens [⟨7, 10⟩] ⟨9, 1⟩ ∧
      (counter.lcMax = 0 ∧ peak (seconds [⟨7, 10⟩]) [⟨7, 10⟩] = 10) ∧
      (counter.lcSumsquare = 0 ∧ squares (seconds [⟨7, 10⟩]) [⟨7, 10⟩] = 100) := by
  unfold Opens
  decide

end StatsPeaks
