import Mathlib.Algebra.Order.Group.Unbundled.Int
import LustreTools.Qos.Table

/-!
The pacing of RPCs by `qos_throttle` (metric.h). The calls are listed in the order in which
they take `qos->lock`; each sleeps after it released the lock. What is recorded as
`last_rpc_time` is the time of the call, not the time at which its RPC goes out.
-/
namespace QosPacing
open Runs Words

structure Throttle where
  minUsecBetweenRpcs : Int
  lastRpcTime : Timeval
  deriving DecidableEq, Repr

structure Call where
  now : Timeval
  early : Bool
  deriving DecidableEq, Repr

/-- What `udelay`, `usleep_range` and `msleep` make of the microseconds asked for. -/
def sleepUsec (needSleepUsec : Int) (early : Bool) : Int :=
  if 0 = needSleepUsec then 0
  else if needSleepUsec < 1000 then needSleepUsec
  else if needSleepUsec < 20000 then if early then needSleepUsec - 1 else needSleepUsec
  else needSleepUsec.tdiv 1000 * 1000

section
variable (timevalSub : Timeval → Timeval → Int)

def needSleepUsec (q : Throttle) (now : Timeval) : Int :=
  let elapsed := timevalSub now q.lastRpcTime
  let usecSinceLastRpc := if elapsed < 0 then 0 else elapsed
  if usecSinceLastRpc < q.minUsecBetweenRpcs then q.minUsecBetweenRpcs - usecSinceLastRpc else 0

def qosThrottle (q : Throttle) (c : Call) : Throttle × Int :=
  if 0 = q.minUsecBetweenRpcs then (q, 0)
  else ({ q with lastRpcTime := c.now }, sleepUsec (needSleepUsec timevalSub q c.now) c.early)

structure Release where
  time : Int
  need : Int
  deriving DecidableEq, Repr

structure Pacer where
  qos : Throttle
  previous : Option Release
  deriving DecidableEq, Repr

def releaseTime (s : Pacer) (c : Call) : Int := c.now.usec + (qosThrottle timevalSub s.qos c).2

def step (s : Pacer) (c : Call) : Pacer :=
  ⟨(qosThrottle timevalSub s.qos c).1,
    some ⟨releaseTime timevalSub s c, needSleepUsec timevalSub s.qos c.now⟩⟩

def releases (s : Pacer) (calls : List Call) : List Int :=
  trace (step timevalSub) (fun s c => [releaseTime timevalSub s c]) s calls

def Apart (tau a b : Int) : Prop := tau ≤ |a - b|

/-- The call comes a whole pause after the previous release, or the previous call was not
    delayed and this one sleeps as long as it asks for. -/
def ClearOf (q : Throttle) (c : Call) : Option Release → Prop
  | none => True
  | some r => r.time + q.minUsecBetweenRpcs ≤ c.now.usec ∨
      (r.need = 0 ∧ sleepUsec (needSleepUsec timevalSub q c.now) c.early =
        needSleepUsec timevalSub q c.now)

def Clear (s : Pacer) (c : Call) : Prop := ClearOf timevalSub s.qos c s.previous

instance (tau a b : Int) : Decidable (Apart tau a b) := inferInstanceAs (Decidable (_ ≤ _))

instance (q : Throttle) (c : Call) : ∀ previous, Decidable (ClearOf timevalSub q c previous)
  | none => isTrue trivial
  | some _ => inferInstanceAs (Decidable (_ ∨ _))

instance (s : Pacer) (c : Call) : Decidable (Clear timevalSub s c) :=
  inferInstanceAs (Decidable (ClearOf _ _ _ _))

end

theorem sleep_bounds {need : Int} (nonneg : 0 ≤ need) (early : Bool) :
    0 ≤ sleepUsec need early ∧ sleepUsec need early ≤ need ∧ (sleepUsec need early = 0 → need = 0) := by
  unfold sleepUsec
  split
  · omega
  · split
    · omega
    · split
      · split <;> omega
      · rw [Int.tdiv_eq_ediv_of_nonneg nonneg]
        omega

/-- What is known of the previous call: its reading was recorded, and it slept at most what
    it asked for. -/
structure Previous (s : Pacer) (r : Release) : Prop where
  positive : 0 < s.qos.minUsecBetweenRpcs
  need : 0 ≤ r.need ∧ r.need ≤ s.qos.minUsecBetweenRpcs
  slept : s.qos.lastRpcTime.usec ≤ r.time ∧ r.time ≤ s.qos.lastRpcTime.usec + r.need
  delayed : r.time = s.qos.lastRpcTime.usec → r.need = 0

variable {timevalSub : Timeval → Timeval → Int}

theorem need_range (q : Throttle) (now : Timeval) (positive : 0 < q.minUsecBetweenRpcs) :
    0 ≤ needSleepUsec timevalSub q now ∧ needSleepUsec timevalSub q now ≤ q.minUsecBetweenRpcs := by
  simp only [needSleepUsec]
  generalize timevalSub now q.lastRpcTime = elapsed
  split
  · omega
  · split <;> omega

theorem step_previous {s : Pacer} {c : Call} (positive : 0 < s.qos.minUsecBetweenRpcs) :
    Previous (step timevalSub s c)
      ⟨releaseTime timevalSub s c, needSleepUsec timevalSub s.qos c.now⟩ := by
  have nonzero : ¬ 0 = s.qos.minUsecBetweenRpcs := by omega
  have need := @need_range timevalSub s.qos c.now positive
  have bounds := sleep_bounds need.1 c.early
  simp only [step, releaseTime, qosThrottle, nonzero, ↓reduceIte]
  constructor
  · exact positive
  · exact need
  · simp only; omega
  · simp only; omega

theorem need_of_order {q : Throttle} {now : Timeval} (usecs : ∀ a b, timevalSub a b = a.usec - b.usec)
    (order : q.lastRpcTime.usec ≤ now.usec) :
    needSleepUsec timevalSub q now =
      max 0 (q.minUsecBetweenRpcs - (now.usec - q.lastRpcTime.usec)) := by
  simp only [needSleepUsec, usecs]
  have forward : ¬ now.usec - q.lastRpcTime.usec < 0 := by omega
  simp only [forward, ↓reduceIte]
  split <;> omega

section
variable {s : Pacer} {c : Call} {r : Release} (usecs : ∀ a b, timevalSub a b = a.usec - b.usec)
  (known : Previous s r) (previous : s.previous = some r)
  (order : s.qos.lastRpcTime.usec ≤ c.now.usec)
include usecs known previous order

theorem clear_after (clear : Clear timevalSub s c) :
    r.time + s.qos.minUsecBetweenRpcs ≤ releaseTime timevalSub s c := by
  obtain ⟨positive, need, slept, delayed⟩ := known
  have asked := need_of_order usecs order
  have bounds := sleep_bounds (@need_range timevalSub s.qos c.now positive).1 c.early
  have nonzero : ¬ 0 = s.qos.minUsecBetweenRpcs := by omega
  simp only [Clear, ClearOf, previous] at clear
  simp only [releaseTime, qosThrottle, nonzero, ↓reduceIte]
  rcases clear with late | ⟨undelayed, whole⟩ <;> omega

theorem apart_iff_clear : Apart s.qos.minUsecBetweenRpcs r.time (releaseTime timevalSub s c) ↔
    Clear timevalSub s c := by
  constructor
  · intro apart
    obtain ⟨positive, need, slept, delayed⟩ := known
    have asked := need_of_order usecs order
    have bounds := sleep_bounds (@need_range timevalSub s.qos c.now positive).1 c.early
    have nonzero : ¬ 0 = s.qos.minUsecBetweenRpcs := by omega
    simp only [Apart, releaseTime, qosThrottle, nonzero, ↓reduceIte, le_abs] at apart
    simp only [Clear, ClearOf, previous]
    omega
  · intro clear
    have after := clear_after usecs known previous order clear
    rw [Apart, le_abs]
    omega

end

@[simp] theorem releases_cons (s : Pacer) (c : Call) (calls : List Call) :
    releases timevalSub s (c :: calls) =
      releaseTime timevalSub s c :: releases timevalSub (step timevalSub s c) calls := rfl

theorem step_pause (s : Pacer) (c : Call) :
    (step timevalSub s c).qos.minUsecBetweenRpcs = s.qos.minUsecBetweenRpcs := by
  simp only [step, qosThrottle]
  split <;> rfl

theorem step_last {s : Pacer} (c : Call) (positive : 0 < s.qos.minUsecBetweenRpcs) :
    (step timevalSub s c).qos.lastRpcTime = c.now := by
  have nonzero : ¬ 0 = s.qos.minUsecBetweenRpcs := by omega
  simp [step, qosThrottle, nonzero]

def Ordered (s : Pacer) (calls : List Call) : Prop :=
  (s.qos.lastRpcTime.usec :: calls.map (·.now.usec)).Pairwise (· ≤ ·)

theorem ordered_step {s : Pacer} {c : Call} {calls : List Call} (positive : 0 < s.qos.minUsecBetweenRpcs)
    (sorted : ((c :: calls).map (·.now.usec)).Pairwise (· ≤ ·)) :
    Ordered (step timevalSub s c) calls := by
  rw [Ordered, step_last c positive]
  exact sorted

theorem releases_after (usecs : ∀ a b, timevalSub a b = a.usec - b.usec) {s : Pacer} {r : Release}
    {calls : List Call} (known : Previous s r) (previous : s.previous = some r)
    (ordered : Ordered s calls) (clear : Along (step timevalSub) (Clear timevalSub) s calls) :
    ∀ x ∈ releases timevalSub s calls, r.time + s.qos.minUsecBetweenRpcs ≤ x := by
  induction calls generalizing s r with
  | nil => intro x member; cases member
  | cons c calls ih =>
    obtain ⟨below, sorted⟩ := List.pairwise_cons.mp ordered
    have first := clear_after usecs known previous (below c.now.usec (by simp)) clear.1
    intro x member
    rw [releases_cons, List.mem_cons] at member
    rcases member with rfl | later
    · exact first
    · have next := ih (step_previous known.positive) rfl (ordered_step known.positive sorted) clear.2 x later
      have positive := known.positive
      simp only [step_pause] at next
      omega

theorem releases_apart_from (usecs : ∀ a b, timevalSub a b = a.usec - b.usec) {s : Pacer} {r : Release}
    {calls : List Call} (known : Previous s r) (previous : s.previous = some r)
    (ordered : Ordered s calls) :
    (r.time :: releases timevalSub s calls).Pairwise (Apart s.qos.minUsecBetweenRpcs) ↔
      Along (step timevalSub) (Clear timevalSub) s calls := by
  induction calls generalizing s r with
  | nil => simp [releases, trace, Along]
  | cons c calls ih =>
    obtain ⟨below, sorted⟩ := List.pairwise_cons.mp ordered
    have here := apart_iff_clear usecs known previous (below c.now.usec (by simp))
    have recorded := @step_previous timevalSub _ c known.positive
    have next := ih recorded rfl (ordered_step known.positive sorted)
    rw [step_pause] at next
    rw [releases_cons, List.pairwise_cons, next]
    constructor
    · intro both
      exact ⟨here.mp (both.1 _ (by simp)), both.2⟩
    · intro clear
      refine ⟨?_, clear.2⟩
      intro x member
      have after := releases_after usecs known previous ordered clear x (by rw [releases_cons]; exact member)
      rw [Apart, le_abs]
      omega

/-- The releases of any two calls are a pause apart exactly if every call is clear of the
    one before it. -/
theorem releases_apart_iff_clear (timevalSub : Timeval → Timeval → Int)
    (usecs : ∀ a b, timevalSub a b = a.usec - b.usec) (q : Throttle)
    (positive : 0 < q.minUsecBetweenRpcs) (calls : List Call)
    (sorted : (calls.map (·.now.usec)).Pairwise (· ≤ ·)) :
    (releases timevalSub ⟨q, none⟩ calls).Pairwise (Apart q.minUsecBetweenRpcs) ↔
      Along (step timevalSub) (Clear timevalSub) ⟨q, none⟩ calls := by
  cases calls with
  | nil => simp [releases, trace, Along]
  | cons c calls =>
    have recorded : Previous (step timevalSub ⟨q, none⟩ c) _ := step_previous positive
    have rest := releases_apart_from usecs recorded rfl (ordered_step positive sorted)
    rw [step_pause] at rest
    rw [releases_cons, rest]
    exact (and_iff_right trivial).symm

theorem releases_apart_three_calls :
    let calls : List Call := [⟨⟨1, 0⟩, false⟩, ⟨⟨1, 300⟩, false⟩, ⟨⟨1, 2000⟩, false⟩]
    releases QosTable.usecSub ⟨⟨900, ⟨0, 0⟩⟩, none⟩ calls = [1000000, 1000900, 1002000] ∧
      (releases QosTable.usecSub ⟨⟨900, ⟨0, 0⟩⟩, none⟩ calls).Pairwise (Apart 900) := by
  intro calls
  constructor
  · decide
  · exact (releases_apart_iff_clear QosTable.usecSub
      (by intro a b; simp only [QosTable.usecSub, Timeval.usec]; omega)
      ⟨900, ⟨0, 0⟩⟩ (by decide) calls (by decide)).mpr (by decide)

/-- Three calls at one time: the second and the third are released together. -/
theorem releases_of_burst_coincide :
    let calls : List Call := [⟨⟨1, 0⟩, false⟩, ⟨⟨1, 0⟩, false⟩, ⟨⟨1, 0⟩, false⟩]
    releases QosTable.usecSub ⟨⟨5, ⟨0, 0⟩⟩, none⟩ calls = [1000000, 1000005, 1000005] ∧
      ¬ (releases QosTable.usecSub ⟨⟨5, ⟨0, 0⟩⟩, none⟩ calls).Pairwise (Apart 5) := by
  decide

end QosPacing
