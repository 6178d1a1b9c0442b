import Mathlib.Order.Bounds.Basic
import LustreTools.Qos.Table

/-!
The round-trip times of `qos_adjust`: `smallest_rtt` is their minimum since the rules were
last written, and 0 while there is none. A write whose text does not reach the parser
leaves it alone. The ratio divides by it.
-/
namespace QosRtt
open Runs Words QosRules QosAdjust QosTable

section
variable (timevalSub : Timeval → Timeval → Int)

def rtt (c : Reply) : Int := timevalSub c.now c.newSentTime

def divisor (c : Reply) (q : QosData) : Int :=
  if 0 = q.smallestRtt ∨ rtt timevalSub c < q.smallestRtt then rtt timevalSub c else q.smallestRtt

/-- The machine with the round-trip times seen since the last write. -/
structure Meter where
  machine : Machine
  seen : List Int

def record (seen : List Int) : Call → List Int
  | .write o _ => if o.kernbuf && o.copied then [] else seen
  | .read _ => seen
  | .reply c => seen ++ [rtt timevalSub c]

def meter (s : Meter) (call : Call) : Meter :=
  ⟨step timevalSub s.machine call, record timevalSub s.seen call⟩

def start (clMaxRpcsInFlight : Int) : Meter := ⟨⟨initQos clMaxRpcsInFlight, false⟩, []⟩

def DivisorNonzero (s : Meter) : Call → Prop
  | .reply c => s.machine.oops = false → divisor timevalSub c s.machine.qos ≠ 0
  | _ => True

def Measured (s : Meter) (call : Call) : Prop :=
  match call with
  | .reply c =>
    let after := meter timevalSub s call
    after.machine.oops = false →
      IsLeast { r | r ∈ after.seen } after.machine.qos.smallestRtt ∧
      after.machine.qos.rttRatio100 = (100 * rtt timevalSub c).tdiv after.machine.qos.smallestRtt ∧
      100 ≤ after.machine.qos.rttRatio100
  | _ => True

/-- A round trip of no time comes after one of negative time. -/
def ZeroAfterNegative (s : Meter) : Call → Prop
  | .reply c => s.machine.oops = false → rtt timevalSub c = 0 → ∃ r ∈ s.seen, r < 0
  | _ => True

def AllPositive (calls : List Call) : Prop := ∀ c, .reply c ∈ calls → 0 < rtt timevalSub c

def RatioFits (s : Meter) : Call → Prop
  | .reply c => s.machine.oops = false →
      InS32 ((100 * rtt timevalSub c).tdiv (divisor timevalSub c s.machine.qos))
  | _ => True

def ProductFits (s : Meter) (call : Call) : Prop :=
  match call with
  | .reply c => (meter timevalSub s call).machine.oops = false → InS64 (100 * rtt timevalSub c)
  | _ => True

instance (s : Meter) : ∀ call, Decidable (ZeroAfterNegative timevalSub s call)
  | .write _ _ => isTrue trivial
  | .read _ => isTrue trivial
  | .reply _ => inferInstanceAs (Decidable (_ → _ → _))

instance (s : Meter) : ∀ call, Decidable (RatioFits timevalSub s call)
  | .write _ _ => isTrue trivial
  | .read _ => isTrue trivial
  | .reply _ => inferInstanceAs (Decidable (_ → InS32 _))

instance (s : Meter) : ∀ call, Decidable (ProductFits timevalSub s call)
  | .write _ _ => isTrue trivial
  | .read _ => isTrue trivial
  | .reply _ => inferInstanceAs (Decidable (_ → InS64 _))

end

/-- 0 stands for no time seen; a minimum that is 0 is divided by and ends the run. -/
def Tracks (seen : List Int) (smallest : Int) : Prop :=
  (seen = [] ∧ smallest = 0) ∨ (smallest ≠ 0 ∧ IsLeast { r | r ∈ seen } smallest)

def Inv (s : Meter) : Prop := s.machine.oops = false → Tracks s.seen s.machine.qos.smallestRtt

theorem tracks_nonzero_iff {seen : List Int} {smallest : Int} (tracks : Tracks seen smallest) (x : Int) :
    (if 0 = smallest ∨ x < smallest then x else smallest) ≠ 0 ↔ (x = 0 → ∃ r ∈ seen, r < 0) := by
  rcases tracks with ⟨rfl, rfl⟩ | ⟨nonzero, least⟩
  · simp
  · have negative : (∃ r ∈ seen, r < 0) ↔ smallest < 0 := by
      constructor
      · intro ⟨r, member, below⟩
        have bound := least.2 member
        omega
      · intro below
        exact ⟨smallest, least.1, below⟩
    rw [negative]
    split <;> omega

theorem tracks_append {seen : List Int} {smallest x : Int} (tracks : Tracks seen smallest)
    (nonzero : (if 0 = smallest ∨ x < smallest then x else smallest) ≠ 0) :
    Tracks (seen ++ [x]) (if 0 = smallest ∨ x < smallest then x else smallest) := by
  refine Or.inr ⟨nonzero, ?_⟩
  rcases tracks with ⟨rfl, rfl⟩ | ⟨known, member, bound⟩
  · simp [IsLeast, lowerBounds]
  · constructor
    · split
      · simp
      · simp only [Set.mem_ofPred_eq, List.mem_append]
        exact Or.inl member
    · intro r among
      simp only [Set.mem_ofPred_eq, List.mem_append, List.mem_singleton] at among
      rcases among with old | rfl
      · have below := bound old
        split <;> omega
      · split <;> omega

variable {timevalSub : Timeval → Timeval → Int}

theorem divide_ok {low a b x : Int} (done : divide low a b = .ok x) : b ≠ 0 ∧ x = a.tdiv b := by
  unfold divide at done
  split at done
  · cases done
  · rename_i nonzero
    exact ⟨fun zero => nonzero (Or.inl zero), (Except.ok.inj done).symm⟩

theorem measure_rtt {c : Reply} {q q' : QosData} {ack sent ratio : Int}
    (measured : measure timevalSub c q = .ok (q', ack, sent, ratio)) :
    divisor timevalSub c q ≠ 0 ∧ q'.smallestRtt = divisor timevalSub c q ∧
      q'.rttRatio100 = s32 ((s64 (rtt timevalSub c * 100)).tdiv (divisor timevalSub c q)) := by
  obtain ⟨ackEwma, sentEwma, read, write, smallest, quotient, kept, divided, frame⟩ := measure_cases measured
  obtain ⟨nonzero, value⟩ := divide_ok divided
  have same : smallest = divisor timevalSub c q := kept
  rw [frame, value, ← same]
  exact ⟨nonzero, rfl, rfl⟩

theorem qos_adjust_rtt {c : Reply} {q q' : QosData} {mrif : Int}
    (adjusted : qosAdjust timevalSub c q = .ok (q', mrif)) :
    divisor timevalSub c q ≠ 0 ∧ q'.smallestRtt = divisor timevalSub c q ∧
      q'.rttRatio100 = s32 ((s64 (rtt timevalSub c * 100)).tdiv (divisor timevalSub c q)) := by
  obtain ⟨⟨measured, ack, sent, ratio⟩, measure, applied⟩ := bind_ok adjusted
  obtain ⟨rules, tau, time, window, frame⟩ := apply_rules_frame applied
  have fields := measure_rtt measure
  rw [frame]
  exact fields

theorem reply_step {s : Machine} {c : Reply} (running : s.oops = false) :
    (step timevalSub s (.reply c)).oops = true ∨
      ∃ q mrif, qosAdjust timevalSub c s.qos = .ok (q, mrif) ∧
        step timevalSub s (.reply c) = ⟨q, false⟩ := by
  simp only [step, perform, running, Bool.false_eq_true, ↓reduceIte]
  cases adjusted : qosAdjust timevalSub c s.qos with
  | error fault => exact Or.inl rfl
  | ok pair => exact Or.inr ⟨pair.1, pair.2, rfl, rfl⟩

theorem before_running {s : Meter} {call : Call} (running : (meter timevalSub s call).machine.oops = false) :
    s.machine.oops = false := by
  by_contra crashed
  rw [meter, oops_stays call (by simpa using crashed)] at running
  cases running

theorem meter_inv (s : Meter) (call : Call) (inv : Inv s) : Inv (meter timevalSub s call) := by
  intro running
  have before : s.machine.oops = false := before_running running
  have tracks := inv before
  cases call with
  | write o buffer =>
    simp only [meter, record, step, perform, before, Bool.false_eq_true, ↓reduceIte,
      oscQosRulesSeqWrite]
    cases o.kernbuf with
    | false => exact tracks
    | true =>
      cases o.copied with
      | false => exact tracks
      | true => exact Or.inl ⟨rfl, rfl⟩
  | read alloc =>
    simp only [meter, record, step, perform, before, Bool.false_eq_true, ↓reduceIte,
      oscQosRulesSeqShow, QosData.shown]
    split <;> exact tracks
  | reply c =>
    rcases @reply_step timevalSub _ c before with crashed | ⟨q, mrif, adjusted, next⟩
    · rw [meter, crashed] at running
      cases running
    · obtain ⟨nonzero, smallest, _⟩ := qos_adjust_rtt adjusted
      simp only [meter, record, next, smallest]
      exact tracks_append tracks nonzero

theorem ratio_exact_iff {x d : Int} (positive : 1 ≤ d) (order : d ≤ x) (long : InS64 x)
    (fits : InS32 ((100 * x).tdiv d)) :
    s32 ((s64 (x * 100)).tdiv d) = (100 * x).tdiv d ↔ InS64 (100 * x) := by
  constructor
  · intro same
    by_contra wide
    simp only [InS64] at wide long
    have quotient : (100 * x).tdiv d = 100 * x / d := Int.tdiv_eq_ediv_of_nonneg (by omega)
    rw [quotient] at same fits
    have large : 100 ≤ 100 * x / d := (Int.le_ediv_iff_mul_le (by omega)).mpr (by omega)
    have above : 100 * x < (100 * x / d + 1) * d := Int.lt_ediv_add_one_mul_self _ (by omega)
    -- The quotient fits an int, so the divisor is beyond one.
    have wide_divisor : 4294967296 < d := by
      have bound : (100 * x / d + 1) * d ≤ 2147483648 * d :=
        Int.mul_le_mul_of_nonneg_right (by simp only [InS32] at fits; omega) (by omega)
      omega
    obtain ⟨y, wrapped⟩ : ∃ y, s64 (x * 100) = y := ⟨_, rfl⟩
    have gap : y + 18446744073709551616 ≤ 100 * x ∧ -9223372036854775808 ≤ y := by
      simp only [s64] at wrapped; omega
    rw [wrapped] at same
    rcases Int.lt_or_le y 0 with negative | nonneg
    · have upper : y.tdiv d ≤ 0 := by
        have mono := Int.tdiv_le_tdiv (c := d) (by omega) (Int.le_of_lt negative)
        rwa [Int.zero_tdiv] at mono
      have lower : -2147483648 ≤ y.tdiv d := Int.le_tdiv_of_mul_le (by omega) (by omega)
      rw [s32_of_in (by simp only [InS32]; omega)] at same
      omega
    · have floor : y.tdiv d = y / d := Int.tdiv_eq_ediv_of_nonneg nonneg
      have lower : y / d ≤ 100 * x / d := Int.ediv_le_ediv (by omega) (by omega)
      have least : 0 ≤ y / d := Int.ediv_nonneg nonneg (by omega)
      rw [floor, s32_of_in (by simp only [InS32] at fits ⊢; omega)] at same
      have below : y / d * d ≤ y := Int.ediv_mul_le y (by omega)
      rw [same] at below
      rw [Int.add_mul] at above
      omega
  · intro narrow
    rw [Int.mul_comm x 100, s64_of_in narrow, s32_of_in fits]

theorem divisor_nonzero_iff {s : Meter} (inv : Inv s) (call : Call) :
    DivisorNonzero timevalSub s call ↔ ZeroAfterNegative timevalSub s call := by
  cases call with
  | write o buffer => exact Iff.rfl
  | read alloc => exact Iff.rfl
  | reply c =>
    constructor
    · intro nonzero running
      exact (tracks_nonzero_iff (inv running) _).mp (nonzero running)
    · intro after running
      exact (tracks_nonzero_iff (inv running) _).mpr (after running)

theorem measured_iff {s : Meter} (inv : Inv s) (positive : ∀ r ∈ s.seen, 0 < r) {call : Call}
    (now : ∀ c, call = .reply c → 0 < rtt timevalSub c ∧ InS64 (rtt timevalSub c))
    (fits : RatioFits timevalSub s call) :
    Measured timevalSub s call ↔ ProductFits timevalSub s call := by
  cases call with
  | write o buffer => exact Iff.rfl
  | read alloc => exact Iff.rfl
  | reply c =>
    simp only [Measured, ProductFits]
    apply forall_congr'
    intro running
    have before : s.machine.oops = false := before_running running
    obtain ⟨above, long⟩ := now c rfl
    rcases @reply_step timevalSub _ c before with crashed | ⟨q, mrif, adjusted, next⟩
    · rw [meter, crashed] at running
      cases running
    obtain ⟨nonzero, smallest, ratio⟩ := qos_adjust_rtt adjusted
    have tracked : Tracks (s.seen ++ [rtt timevalSub c]) (divisor timevalSub c s.machine.qos) :=
      tracks_append (inv before) nonzero
    have least := (tracked.resolve_left fun empty => by simp at empty).2
    have order : divisor timevalSub c s.machine.qos ≤ rtt timevalSub c := least.2 (by simp)
    have lower : 1 ≤ divisor timevalSub c s.machine.qos := by
      have member := least.1
      simp only [Set.mem_ofPred_eq, List.mem_append, List.mem_singleton] at member
      rcases member with old | same
      · exact positive _ old
      · omega
    have exact_ratio := ratio_exact_iff lower order long (fits before)
    simp only [meter, record, next, smallest, ratio]
    rw [← exact_ratio]
    constructor
    · intro measured
      exact measured.2.1
    · intro same
      refine ⟨least, same, ?_⟩
      rw [same, Int.tdiv_eq_ediv_of_nonneg (by omega)]
      exact (Int.le_ediv_iff_mul_le (by omega)).mpr (by omega)

theorem start_inv (clMaxRpcsInFlight : Int) : Inv (start clMaxRpcsInFlight) :=
  fun _ => Or.inl ⟨rfl, rfl⟩

theorem divisors_nonzero_iff (clMaxRpcsInFlight : Int) (calls : List Call) :
    Along (meter timevalSub) (DivisorNonzero timevalSub) (start clMaxRpcsInFlight) calls ↔
      Along (meter timevalSub) (ZeroAfterNegative timevalSub) (start clMaxRpcsInFlight) calls :=
  along_congr (fun s call inv _ _ => meter_inv s call inv)
    (fun _ call inv _ => divisor_nonzero_iff inv call) (start_inv clMaxRpcsInFlight)
    (along_true _ _ calls)

theorem record_positive {seen : List Int} {call : Call} (positive : ∀ r ∈ seen, 0 < r)
    (now : ∀ c, call = .reply c → 0 < rtt timevalSub c) : ∀ r ∈ record timevalSub seen call, 0 < r := by
  cases call with
  | write o buffer =>
    simp only [record]
    split
    · simp
    · exact positive
  | read alloc => exact positive
  | reply c =>
    intro r member
    simp only [record, List.mem_append, List.mem_singleton] at member
    rcases member with old | rfl
    · exact positive r old
    · exact now c rfl

theorem all_measured_iff {clMaxRpcsInFlight : Int} {calls : List Call}
    (long : ∀ c, .reply c ∈ calls → InS64 (rtt timevalSub c)) (positive : AllPositive timevalSub calls)
    (ratios : Along (meter timevalSub) (RatioFits timevalSub) (start clMaxRpcsInFlight) calls) :
    Along (meter timevalSub) (Measured timevalSub) (start clMaxRpcsInFlight) calls ↔
      Along (meter timevalSub) (ProductFits timevalSub) (start clMaxRpcsInFlight) calls := by
  have times : Along (meter timevalSub)
      (fun _ call => ∀ c, call = .reply c → 0 < rtt timevalSub c ∧ InS64 (rtt timevalSub c))
      (start clMaxRpcsInFlight) calls := by
    apply along_of_forall
    intro call member c same
    subst same
    exact ⟨positive c member, long c member⟩
  refine @along_congr _ _ _ _ _ _ (fun s => Inv s ∧ ∀ r ∈ s.seen, 0 < r) ?_ ?_ _ _ ?_
    (along_and.mpr ⟨times, ratios⟩)
  · intro s call good side _
    exact ⟨meter_inv s call good.1, record_positive good.2 fun c same => (side.1 c same).1⟩
  · intro s call good side
    exact measured_iff good.1 good.2 side.1 side.2
  · exact ⟨start_inv clMaxRpcsInFlight, by simp [start]⟩

/-- No call divides by zero, and runs of positive times are measured right, exactly if each
    round trip of no time follows one of negative time and no product overflows. -/
theorem rtt_safe_iff (timevalSub : Timeval → Timeval → Int) (clMaxRpcsInFlight : Int)
    (calls : List Call) (long : ∀ c, .reply c ∈ calls → InS64 (rtt timevalSub c))
    (ratios : Along (meter timevalSub) (RatioFits timevalSub) (start clMaxRpcsInFlight) calls) :
    (Along (meter timevalSub) (DivisorNonzero timevalSub) (start clMaxRpcsInFlight) calls ∧
      (AllPositive timevalSub calls →
        Along (meter timevalSub) (Measured timevalSub) (start clMaxRpcsInFlight) calls)) ↔
      (Along (meter timevalSub) (ZeroAfterNegative timevalSub) (start clMaxRpcsInFlight) calls ∧
        (AllPositive timevalSub calls →
          Along (meter timevalSub) (ProductFits timevalSub) (start clMaxRpcsInFlight) calls)) := by
  rw [divisors_nonzero_iff]
  apply and_congr_right
  intro _
  apply forall_congr'
  intro positive
  exact all_measured_iff long positive ratios

def replyAt (sent now : Timeval) : Reply := ⟨now, sent, 1, 4096, now, now, true⟩

theorem rtt_safe_three_replies :
    let calls : List Call := [.reply (replyAt ⟨5, 0⟩ ⟨5, 250⟩), .reply (replyAt ⟨5, 10⟩ ⟨5, 700⟩),
      .write ⟨true, true, true⟩ (oneRule ['1', '0']), .reply (replyAt ⟨6, 0⟩ ⟨6, 40⟩)]
    (run (meter usecSub) (start 8) (calls.take 2)).machine.qos.rttRatio100 = 276 ∧
      Along (meter usecSub) (DivisorNonzero usecSub) (start 8) calls ∧
        (AllPositive usecSub calls → Along (meter usecSub) (Measured usecSub) (start 8) calls) := by
  intro calls
  have ratios : Along (meter usecSub) (RatioFits usecSub) (start 8) calls := by decide +kernel
  have zeros : Along (meter usecSub) (ZeroAfterNegative usecSub) (start 8) calls := by decide +kernel
  have products : Along (meter usecSub) (ProductFits usecSub) (start 8) calls := by decide +kernel
  refine ⟨by decide +kernel, (rtt_safe_iff usecSub 8 calls ?_ ratios).mpr ⟨zeros, fun _ => products⟩⟩
  intro c member
  simp only [calls, List.mem_cons, Call.reply.injEq, reduceCtorEq, List.not_mem_nil, or_false,
    false_or] at member
  rcases member with rfl | rfl | rfl <;> decide

/-- The first reply arrives within the microsecond in which its request was sent. -/
theorem zero_rtt_divides_by_zero :
    qosAdjust usecSub (replyAt ⟨5, 0⟩ ⟨5, 0⟩) (initQos 8) = .error .divide ∧
      ¬ Along (meter usecSub) (DivisorNonzero usecSub) (start 8) [.reply (replyAt ⟨5, 0⟩ ⟨5, 0⟩)] := by
  constructor
  · decide +kernel
  · intro along
    have nonzero := along.1 rfl
    exact nonzero (by decide +kernel)

end QosRtt
