import LustreTools.Lib.Runs
import LustreTools.Lib.Text

/-!
Server bandwidth throttling (lfz.c). One counter holds the byte budget of the
current wall-clock second; every call charges its bytes to it. Calls are serialised
by `tbf_counter.lock`, so a run is a list of calls with their clock readings.
-/
namespace ServerThrottle
open Runs Words Text

structure TbfCounter where
  totalTbfRate : Int
  residTbf : Int
  lastTime : Timeval
  deriving DecidableEq, Repr

/-- The buffer of the configuration file when it could be opened; the default of
    `1 << 30` bytes per second otherwise. -/
def totalTbfRateInit (config : Option (List Char)) (now : Timeval) : Int × TbfCounter :=
  match config with
  | none => (-1, ⟨1073741824, 1073741824, now⟩)
  | some buf => (0, ⟨u64 (simpleStrtoll buf), u64 (simpleStrtoll buf), now⟩)

def throttleBandwidth (bytes : Int) (now : Timeval) (c : TbfCounter) : TbfCounter × Int :=
  if bytes = 0 then (c, 0)
  else if now.tvSec < c.lastTime.tvSec then (c, 0)
  else
    let c := if now.tvSec > c.lastTime.tvSec then
        { c with lastTime := now, residTbf := c.totalTbfRate }
      else c
    -- `resid_tbf` is a `__u64`: the `int` operand converts and the difference is unsigned.
    if u64 (c.residTbf - u64 bytes) < 0 then (c, 1000000 - now.tvUsec.tmod 1000000)
    else ({ c with residTbf := u64 (c.residTbf - u64 bytes) }, 0)

structure Call where
  bytes : Int
  now : Timeval
  deriving DecidableEq, Repr

def step (c : TbfCounter) (call : Call) : TbfCounter := (throttleBandwidth call.bytes call.now c).1

def releaseSec (c : TbfCounter) (call : Call) : Int :=
  (call.now.usec + (throttleBandwidth call.bytes call.now c).2) / 1000000

def released (c : TbfCounter) (call : Call) : List (Int × Int) :=
  [(releaseSec c call, call.bytes)]

def bytesIn (sec : Int) : List (Int × Int) → Int
  | [] => 0
  | (t, b) :: rest => (if t = sec then b else 0) + bytesIn sec rest

def ResidInRange (rate : Int) (c : TbfCounter) : Prop := 0 ≤ c.residTbf ∧ c.residTbf ≤ rate

instance (rate : Int) (c : TbfCounter) : Decidable (ResidInRange rate c) :=
  inferInstanceAs (Decidable (_ ∧ _))

/-- No second releases more than the rate, and the residue never leaves its range. -/
def BandwidthCapped (rate : Int) (c : TbfCounter) (calls : List Call) : Prop :=
  (∀ sec, bytesIn sec (trace step released c calls) ≤ rate) ∧
    Always step (ResidInRange rate) c calls

def ValidCalls (rate : Int) : Timeval → List Call → Prop
  | _, [] => True
  | last, call :: rest => 0 ≤ call.bytes ∧ call.bytes ≤ rate ∧ InS32 call.bytes ∧
      call.now.Normal ∧ last.usec ≤ call.now.usec ∧ ValidCalls rate call.now rest

def budget (c : TbfCounter) (now : Timeval) : Int :=
  if now.tvSec > c.lastTime.tvSec then c.totalTbfRate else c.residTbf

/-- The over-budget branch, which the unsigned test never takes, is not needed. -/
def FitsBudget (c : TbfCounter) (call : Call) : Prop := call.bytes ≤ budget c call.now

instance (c : TbfCounter) (call : Call) : Decidable (FitsBudget c call) :=
  inferInstanceAs (Decidable (_ ≤ _))

theorem throttle_never_delays (bytes : Int) (now : Timeval) (c : TbfCounter) :
    (throttleBandwidth bytes now c).2 = 0 := by
  have unsigned (x : Int) : ¬ u64 x < 0 := by simp only [u64]; omega
  unfold throttleBandwidth
  split
  · rfl
  · split
    · rfl
    · simp [unsigned]

theorem release_at_reading (c : TbfCounter) (call : Call) (normal : call.now.Normal) :
    releaseSec c call = call.now.tvSec := by
  rw [releaseSec, throttle_never_delays, Int.add_zero, sec_of_usec _ normal]

def offered (sec : Int) (calls : List Call) : Int :=
  bytesIn sec (calls.map fun call => (call.now.tvSec, call.bytes))

theorem released_eq_offered (rate : Int) (sec : Int) (calls : List Call) :
    ∀ (c : TbfCounter) (last : Timeval), ValidCalls rate last calls →
      bytesIn sec (trace step released c calls) = offered sec calls := by
  induction calls with
  | nil => intro c last valid; rfl
  | cons call rest ih =>
    intro c last valid
    obtain ⟨_, _, _, normal, _, tail⟩ := valid
    simp only [trace, released, List.cons_append, List.nil_append, bytesIn, offered,
      List.map_cons, release_at_reading c call normal]
    rw [ih (step c call) call.now tail, offered]

theorem offered_nonneg (rate : Int) (sec : Int) (calls : List Call) :
    ∀ last, ValidCalls rate last calls → 0 ≤ offered sec calls := by
  induction calls with
  | nil => intro last valid; exact Int.le_refl 0
  | cons call rest ih =>
    intro last valid
    have tail := ih call.now valid.2.2.2.2.2
    have bytes := valid.1
    simp only [offered, List.map_cons, bytesIn] at tail ⊢
    split <;> omega

theorem offered_past (rate : Int) (sec : Int) (calls : List Call) :
    ∀ last : Timeval, last.Normal → sec < last.tvSec → ValidCalls rate last calls →
      offered sec calls = 0 := by
  induction calls with
  | nil => intro last normal past valid; rfl
  | cons call rest ih =>
    intro last normal past valid
    obtain ⟨_, _, _, callNormal, order, tail⟩ := valid
    have later := sec_le_of_usec_le normal callNormal order
    have zero := ih call.now callNormal (by omega) tail
    simp only [offered, List.map_cons, bytesIn] at zero ⊢
    rw [if_neg (by omega), zero]
    rfl

theorem step_of_fits {c : TbfCounter} {call : Call} {rate : Int}
    (word : InU64 rate) (total : c.totalTbfRate = rate) (resid : ResidInRange rate c)
    (bytes : 0 ≤ call.bytes) (nonzero : call.bytes ≠ 0)
    (clock : c.lastTime.tvSec ≤ call.now.tvSec) (fits : FitsBudget c call) :
    step c call = ⟨rate, budget c call.now - call.bytes,
      if call.now.tvSec > c.lastTime.tvSec then call.now else c.lastTime⟩ := by
  have range : InU64 (budget c call.now - call.bytes) ∧ InU64 call.bytes := by
    simp only [InU64, FitsBudget, budget, ResidInRange] at *
    split at fits <;> split <;> omega
  have charge : u64 (budget c call.now - u64 call.bytes) = budget c call.now - call.bytes := by
    rw [u64_of_in range.2, u64_of_in range.1]
  have unsigned (x : Int) : ¬ u64 x < 0 := by simp only [u64]; omega
  simp only [step, throttleBandwidth, nonzero, ↓reduceIte, Int.not_lt.mpr clock, unsigned]
  simp only [budget] at charge ⊢
  split <;> simp_all

def spent (rate : Int) (c : TbfCounter) (sec : Int) : Int :=
  if sec = c.lastTime.tvSec then rate - c.residTbf else 0

theorem spent_offered_step {rate : Int} {c : TbfCounter} {call : Call} {rest : List Call}
    (word : InU64 rate) (total : c.totalTbfRate = rate) (resid : ResidInRange rate c)
    (normal : c.lastTime.Normal) (valid : ValidCalls rate c.lastTime (call :: rest))
    (fits : FitsBudget c call) :
    (∀ sec, spent rate c sec + offered sec (call :: rest) ≤ rate) ↔
      ∀ sec, spent rate (step c call) sec + offered sec rest ≤ rate := by
  obtain ⟨bytes, _, _, callNormal, order, tail⟩ := valid
  have clock := sec_le_of_usec_le normal callNormal order
  have unfold_offered (sec : Int) : offered sec (call :: rest) =
      (if call.now.tvSec = sec then call.bytes else 0) + offered sec rest := rfl
  by_cases zero : call.bytes = 0
  · have same : step c call = c := by simp [step, throttleBandwidth, zero]
    simp [same, unfold_offered, zero]
  · have charged := step_of_fits word total resid bytes zero clock fits
    apply forall_congr'
    intro sec
    rw [unfold_offered]
    by_cases refill : call.now.tvSec > c.lastTime.tvSec
    · -- The second just left is closed: its charge is at most the rate and nothing is added.
      simp only [budget, if_pos refill, total] at charged
      rw [charged]
      by_cases left : sec = c.lastTime.tvSec
      · have past := offered_past rate sec rest call.now callNormal (by omega) tail
        simp only [spent, if_pos left, ResidInRange, InU64] at *
        rw [if_neg (by omega), if_neg (by omega)]
        omega
      · simp only [spent, if_neg left]
        split <;> split <;> omega
    · simp only [budget, if_neg refill] at charged
      rw [charged]
      simp only [spent]
      split <;> split <;> omega

theorem over_budget_exceeds {rate : Int} {c : TbfCounter} {call : Call} {rest : List Call}
    (total : c.totalTbfRate = rate) (normal : c.lastTime.Normal)
    (valid : ValidCalls rate c.lastTime (call :: rest)) (exceeded : ¬ FitsBudget c call) :
    rate < spent rate c call.now.tvSec + offered call.now.tvSec (call :: rest) := by
  obtain ⟨bytes, bound, _, callNormal, order, tail⟩ := valid
  have clock := sec_le_of_usec_le normal callNormal order
  have more := offered_nonneg rate call.now.tvSec rest call.now tail
  have unfold_offered : offered call.now.tvSec (call :: rest) =
      call.bytes + offered call.now.tvSec rest := by simp [offered, bytesIn]
  simp only [FitsBudget, budget, spent] at *
  split at exceeded
  · omega
  · rw [unfold_offered, if_pos (by omega)]
    omega

theorem resid_step {rate : Int} {c : TbfCounter} {call : Call}
    (word : InU64 rate) (total : c.totalTbfRate = rate) (resid : ResidInRange rate c)
    (normal : c.lastTime.Normal) (bytes : 0 ≤ call.bytes) (callNormal : call.now.Normal)
    (order : c.lastTime.usec ≤ call.now.usec) (fits : FitsBudget c call) :
    (step c call).totalTbfRate = rate ∧ ResidInRange rate (step c call) ∧
      (step c call).lastTime.Normal ∧ (step c call).lastTime.usec ≤ call.now.usec := by
  have clock := sec_le_of_usec_le normal callNormal order
  by_cases zero : call.bytes = 0
  · have same : step c call = c := by simp [step, throttleBandwidth, zero]
    rw [same]
    exact ⟨total, resid, normal, order⟩
  · rw [step_of_fits word total resid bytes zero clock fits]
    refine ⟨rfl, ?_, ?_, ?_⟩
    · simp only [ResidInRange, FitsBudget, budget] at *
      split at fits <;> simp_all
      omega
    · dsimp only; split <;> assumption
    · dsimp only; split
      · exact Int.le_refl _
      · exact order

theorem ValidCalls.earlier {rate : Int} {a b : Timeval} (order : a.usec ≤ b.usec)
    {calls : List Call} (valid : ValidCalls rate b calls) : ValidCalls rate a calls := by
  cases calls with
  | nil => trivial
  | cons call rest =>
    obtain ⟨h1, h2, h3, h4, h5, tail⟩ := valid
    exact ⟨h1, h2, h3, h4, by omega, tail⟩

theorem capped_from_iff {rate : Int} (word : InU64 rate) (calls : List Call) :
    ∀ c : TbfCounter, c.totalTbfRate = rate → ResidInRange rate c → c.lastTime.Normal →
      ValidCalls rate c.lastTime calls →
      (((∀ sec, spent rate c sec + offered sec calls ≤ rate) ∧
        Always step (ResidInRange rate) c calls) ↔ Along step FitsBudget c calls) := by
  induction calls with
  | nil =>
    intro c total resid normal valid
    refine iff_of_true ⟨?_, resid⟩ trivial
    intro sec
    simp only [spent, offered, bytesIn, List.map_nil, ResidInRange, InU64] at *
    split <;> omega
  | cons call rest ih =>
    intro c total resid normal valid
    have whole := valid
    obtain ⟨bytes, _, _, callNormal, order, tail⟩ := valid
    by_cases fits : FitsBudget c call
    · obtain ⟨total', resid', normal', order'⟩ :=
        resid_step word total resid normal bytes callNormal order fits
      have next := ih (step c call) total' resid' normal' (tail.earlier order')
      rw [spent_offered_step word total resid normal whole fits]
      simp only [Always, Along, resid, fits, true_and]
      exact next
    · have exceeds := over_budget_exceeds total normal whole fits
      constructor
      · rintro ⟨capped, _⟩
        have := capped call.now.tvSec
        omega
      · intro along
        exact absurd along.1 fits

def counterStart (rate : Int) (now : Timeval) : TbfCounter := ⟨rate, rate, now⟩

theorem total_tbf_rate_init_start (config : Option (List Char)) (now : Timeval) :
    ∃ rate, InU64 rate ∧ (totalTbfRateInit config now).2 = counterStart rate now := by
  cases config with
  | none => exact ⟨1073741824, by decide, rfl⟩
  | some buf => exact ⟨u64 (simpleStrtoll buf), u64_in _, rfl⟩

/-- The cap holds of a run exactly when no call ever asks for more than the bytes left
    of its second: the counter polices nothing beyond that. -/
theorem bandwidth_capped_iff_calls_fit (rate : Int) (word : InU64 rate) (start : Timeval)
    (normal : start.Normal) (calls : List Call) (valid : ValidCalls rate start calls) :
    BandwidthCapped rate (counterStart rate start) calls ↔
      Along step FitsBudget (counterStart rate start) calls := by
  have bounds : ResidInRange rate (counterStart rate start) := ⟨word.1, Int.le_refl _⟩
  have unspent (sec : Int) : spent rate (counterStart rate start) sec = 0 := by
    simp [spent, counterStart]
  rw [← capped_from_iff word calls (counterStart rate start) rfl bounds normal valid]
  simp only [BandwidthCapped, released_eq_offered rate _ calls _ start valid, unspent, Int.zero_add]

theorem bandwidth_capped_two_calls :
    BandwidthCapped 10 (counterStart 10 ⟨100, 0⟩) [⟨4, ⟨100, 5⟩⟩, ⟨6, ⟨100, 7⟩⟩] :=
  (bandwidth_capped_iff_calls_fit 10 (by decide) ⟨100, 0⟩ (by decide) _
    (by simp only [ValidCalls]; decide)).mpr (by decide)

/-- Two one-byte calls in one second under a rate of one byte: both are released at
    once and the residue wraps below zero. -/
theorem bandwidth_cap_exceeded :
    ValidCalls 1 ⟨100, 0⟩ [⟨1, ⟨100, 5⟩⟩, ⟨1, ⟨100, 7⟩⟩] ∧
      ¬ BandwidthCapped 1 (counterStart 1 ⟨100, 0⟩) [⟨1, ⟨100, 5⟩⟩, ⟨1, ⟨100, 7⟩⟩] := by
  refine ⟨by simp only [ValidCalls]; decide, ?_⟩
  rintro ⟨capped, _⟩
  have second := capped 100
  revert second
  decide

end ServerThrottle
