import Mathlib.Logic.Function.Basic
import LustreTools.Qos.Table

/-!
The two records of the RPC window: `cl_max_rpcs_in_flight`, which the client obeys, and
`max_rpc_in_flight100`, from which `qos_adjust` steers. A write of the procfs file and a
reply each store one record, release its lock and store the other, in opposite orders.
-/
namespace QosWindow
open Runs Words QosRules QosAdjust
open QosTable (initQos usecSub oneRule oneReply)

/-- What a thread has still to store: a writer `val * 100` in `max_rpc_in_flight100`, a
    reply `new_mrif` in `cl_max_rpcs_in_flight`. -/
inductive Thread where
  | idle
  | writing (val : Int)
  | adjusting (newMrif : Int)
  deriving DecidableEq, Repr

/-- `clBy` and `qosBy` are the threads that stored the two records last. -/
structure Window where
  clMaxRpcsInFlight : Int
  qos : QosData
  threads : Nat → Thread
  clBy : Option Nat
  qosBy : Option Nat
  oops : Bool

inductive Action where
  | write (val : Int)
  | reply (c : Reply)
  | second
  deriving DecidableEq, Repr

structure Event where
  thread : Nat
  action : Action
  deriving DecidableEq, Repr

def oscMaxRifMax : Int := 256

def Window.set (s : Window) (i : Nat) (thread : Thread) : Window :=
  { s with threads := Function.update s.threads i thread }

def Window.storeCl (s : Window) (i : Nat) (val : Int) : Window :=
  { s with clMaxRpcsInFlight := val, clBy := some i }

def Window.storeQos (s : Window) (i : Nat) (q : QosData) : Window := { s with qos := q, qosBy := some i }

def Window.write (s : Window) (i : Nat) (val : Int) : Window :=
  if val < 1 ∨ val > oscMaxRifMax then s else (s.storeCl i val).set i (.writing val)

section
variable (timevalSub : Timeval → Timeval → Int)

/-- The critical section of `qos_adjust`. A call that leaves the window alone ends here. -/
def Window.reply (s : Window) (i : Nat) (c : Reply) : Window :=
  match qosAdjust timevalSub c s.qos with
  | .error _ => { s with oops := true }
  | .ok (q, newMrif) =>
    if newMrif = -1 then { s with qos := q } else (s.storeQos i q).set i (.adjusting newMrif)

def Window.second (s : Window) (i : Nat) : Window :=
  match s.threads i with
  | .idle => s
  | .writing val => (s.storeQos i { s.qos with maxRpcInFlight100 := s32 (val * 100) }).set i .idle
  | .adjusting newMrif => (s.storeCl i newMrif).set i .idle

def step (s : Window) (e : Event) : Window :=
  if s.oops then s
  else match e.action with
  | .write val => if s.threads e.thread = .idle then s.write e.thread val else s
  | .reply c => if s.threads e.thread = .idle then s.reply timevalSub e.thread c else s
  | .second => s.second e.thread

end

def Window.Agree (s : Window) : Prop :=
  s.clMaxRpcsInFlight = max 1 (s.qos.maxRpcInFlight100.tdiv 100)

def Window.Quiet (s : Window) : Prop := ∀ i, s.threads i = .idle

def Window.Settled (s : Window) : Prop := s.Quiet → s.Agree

def Thread.Last (clBy qosBy : Option Nat) (i : Nat) : Thread → Prop
  | .idle => True
  | .writing _ => clBy = some i
  | .adjusting _ => qosBy = some i

def Window.Owns (s : Window) (i : Nat) : Prop := (s.threads i).Last s.clBy s.qosBy i

instance (s : Window) : Decidable s.Agree := inferInstanceAs (Decidable (_ = _))

instance (clBy qosBy : Option Nat) (i : Nat) : ∀ thread : Thread, Decidable (thread.Last clBy qosBy i)
  | .idle => isTrue trivial
  | .writing _ => inferInstanceAs (Decidable (clBy = some i))
  | .adjusting _ => inferInstanceAs (Decidable (qosBy = some i))

instance (s : Window) (i : Nat) : Decidable (s.Owns i) := inferInstanceAs (Decidable (Thread.Last _ _ _ _))

/-- Who makes a second store while nobody else is half done still owns its first store. -/
def LastOwns (s : Window) (e : Event) : Prop :=
  e.action = .second → (∀ j, j ≠ e.thread → s.threads j = .idle) → s.Owns e.thread

/-- What a thread that is half done knows while nobody stored after it. -/
structure Known (s : Window) : Prop where
  range : ∀ i val, s.threads i = .writing val → 1 ≤ val ∧ val ≤ oscMaxRifMax
  writer : ∀ i val, s.threads i = .writing val → s.clBy = some i → s.clMaxRpcsInFlight = val
  adjuster : ∀ i newMrif, s.threads i = .adjusting newMrif → s.qosBy = some i →
    newMrif = max 1 (s.qos.maxRpcInFlight100.tdiv 100)

@[simp] theorem set_self (s : Window) (i : Nat) (thread : Thread) :
    (s.set i thread).threads i = thread := by
  simp [Window.set]

theorem set_other (s : Window) {i j : Nat} (thread : Thread) (other : j ≠ i) :
    (s.set i thread).threads j = s.threads j := by
  simp [Window.set, Function.update_of_ne other]

variable {timevalSub : Timeval → Timeval → Int}

theorem measure_mrif {c : Reply} {q q' : QosData} {ack sent ratio : Int}
    (measured : measure timevalSub c q = .ok (q', ack, sent, ratio)) :
    q'.maxRpcInFlight100 = q.maxRpcInFlight100 := by
  obtain ⟨ackEwma, sentEwma, read, write, smallest, quotient, _, _, frame⟩ := measure_cases measured
  rw [frame]

theorem update_mrif_agrees (q : QosData) (r : Rule) (now : Timeval) :
    (updateMrif q r now).2 = max 1 ((updateMrif q r now).1.maxRpcInFlight100.tdiv 100) := by
  simp only [updateMrif]
  split <;> omega

theorem apply_rules_window {c : Reply} {q q' : QosData} {ack sent ratio newMrif : Int}
    (applied : applyRules timevalSub c q ack sent ratio = .ok (q', newMrif)) :
    (newMrif = -1 ∧ q'.maxRpcInFlight100 = q.maxRpcInFlight100) ∨
      newMrif = max 1 (q'.maxRpcInFlight100.tdiv 100) := by
  rcases apply_rules_cases applied with ⟨rfl, none, _⟩ | ⟨table, i, r, used, _, result⟩
  · exact Or.inl ⟨none, rfl⟩
  · rcases result with ⟨_, rfl, none⟩ | ⟨_, moved⟩
    · exact Or.inl ⟨none, rfl⟩
    · have agrees := update_mrif_agrees (counted q table i used) used c.now
      rw [← moved] at agrees
      exact Or.inr agrees

theorem qos_adjust_window {c : Reply} {q q' : QosData} {newMrif : Int}
    (adjusted : qosAdjust timevalSub c q = .ok (q', newMrif)) :
    (newMrif = -1 ∧ q'.maxRpcInFlight100 = q.maxRpcInFlight100) ∨
      newMrif = max 1 (q'.maxRpcInFlight100.tdiv 100) := by
  obtain ⟨⟨measured, ack, sent, ratio⟩, measure, applied⟩ := bind_ok adjusted
  have window := apply_rules_window applied
  rw [measure_mrif measure] at window
  exact window

theorem busy_of_set {s : Window} {i : Nat} {thread : Thread} (busy : thread ≠ .idle) :
    ¬ (s.set i thread).Quiet := by
  intro quiet
  have idle := quiet i
  rw [set_self] at idle
  exact busy idle

theorem others_idle {s : Window} {i : Nat} {thread : Thread} (quiet : (s.set i thread).Quiet) :
    ∀ j, j ≠ i → s.threads j = .idle := by
  intro j other
  rw [← set_other s thread other]
  exact quiet j

theorem store_cl_known {s : Window} (known : Known s) (i : Nat) (val : Int) (thread : Thread)
    (writes : ∀ v, thread = .writing v → v = val ∧ 1 ≤ v ∧ v ≤ oscMaxRifMax)
    (notAdjusting : ∀ n, thread ≠ .adjusting n) : Known ((s.storeCl i val).set i thread) := by
  constructor
  · intro j v half
    by_cases here : j = i
    · subst here
      rw [set_self] at half
      exact (writes v half).2
    · rw [set_other _ _ here] at half
      exact known.range j v half
  · intro j v half last
    have here : i = j := Option.some.inj last
    subst here
    rw [set_self] at half
    exact (writes v half).1.symm
  · intro j n half last
    by_cases here : j = i
    · subst here
      rw [set_self] at half
      exact absurd half (notAdjusting n)
    · rw [set_other _ _ here] at half
      exact known.adjuster j n half last

theorem store_qos_known {s : Window} (known : Known s) (i : Nat) (q : QosData) (thread : Thread)
    (adjusts : ∀ n, thread = .adjusting n → n = max 1 (q.maxRpcInFlight100.tdiv 100))
    (notWriting : ∀ v, thread ≠ .writing v) : Known ((s.storeQos i q).set i thread) := by
  constructor
  · intro j v half
    by_cases here : j = i
    · subst here
      rw [set_self] at half
      exact absurd half (notWriting v)
    · rw [set_other _ _ here] at half
      exact known.range j v half
  · intro j v half last
    by_cases here : j = i
    · subst here
      rw [set_self] at half
      exact absurd half (notWriting v)
    · rw [set_other _ _ here] at half
      exact known.writer j v half last
  · intro j n half last
    have here : i = j := Option.some.inj last
    subst here
    rw [set_self] at half
    exact adjusts n half

theorem keep_known {s : Window} (known : Known s) {q : QosData}
    (same : q.maxRpcInFlight100 = s.qos.maxRpcInFlight100) : Known { s with qos := q } := by
  constructor
  · exact known.range
  · exact known.writer
  · intro i n half last
    rw [known.adjuster i n half last]
    exact congrArg (fun x => max 1 (Int.tdiv x 100)) same.symm

structure Inv (s : Window) : Prop where
  known : Known s
  settled : s.Settled

theorem write_inv {s : Window} (inv : Inv s) (i : Nat) (val : Int) : Inv (s.write i val) := by
  unfold Window.write
  split
  · exact inv
  · rename_i range
    constructor
    · apply store_cl_known inv.known
      · intro v same
        cases same
        exact ⟨rfl, by omega⟩
      · intro n same
        cases same
    · intro quiet
      exact absurd quiet (busy_of_set (by simp))

theorem reply_inv {s : Window} (inv : Inv s) (i : Nat) (c : Reply) : Inv (s.reply timevalSub i c) := by
  unfold Window.reply
  split
  · exact ⟨⟨inv.known.range, inv.known.writer, inv.known.adjuster⟩, inv.settled⟩
  · rename_i q newMrif adjusted
    have window := qos_adjust_window adjusted
    split
    · have same : q.maxRpcInFlight100 = s.qos.maxRpcInFlight100 := by
        rcases window with kept | moved
        · exact kept.2
        · omega
      constructor
      · exact keep_known inv.known same
      · intro quiet
        have agree := inv.settled quiet
        simp only [Window.Agree, same] at agree ⊢
        exact agree
    · rename_i changed
      have moved := window.resolve_left fun kept => changed kept.1
      constructor
      · apply store_qos_known inv.known
        · intro n same
          cases same
          exact moved
        · intro v same
          cases same
      · intro quiet
        exact absurd quiet (busy_of_set (by simp))

theorem second_inv {s : Window} (inv : Inv s) (i : Nat) (owns : LastOwns s ⟨i, .second⟩) :
    Inv (s.second i) := by
  unfold Window.second
  split
  · exact inv
  · rename_i val half
    have range := inv.known.range i val half
    simp only [oscMaxRifMax] at range
    constructor
    · apply store_qos_known inv.known <;> intro _ same <;> cases same
    · intro quiet
      have last := owns rfl (others_idle (s := s.storeQos i _) quiet)
      simp only [Window.Owns, half, Thread.Last] at last
      have own := inv.known.writer i val half last
      have exact_product : s32 (val * 100) = val * 100 := by simp only [s32]; omega
      have quotient : (val * 100).tdiv 100 = val := Int.mul_tdiv_cancel val (by decide)
      simp only [Window.Agree, Window.set, Window.storeQos, own, exact_product, quotient]
      omega
  · rename_i newMrif half
    constructor
    · apply store_cl_known inv.known <;> intro _ same <;> cases same
    · intro quiet
      have last := owns rfl (others_idle (s := s.storeCl i _) quiet)
      simp only [Window.Owns, half, Thread.Last] at last
      exact inv.known.adjuster i newMrif half last

theorem step_keeps {good : Window → Prop} {s : Window} {e : Event} (start : good s)
    (write : ∀ i val, good (s.write i val)) (reply : ∀ i c, good (s.reply timevalSub i c))
    (second : e.action = .second → good (s.second e.thread)) : good (step timevalSub s e) := by
  obtain ⟨i, action⟩ := e
  unfold step
  split
  · exact start
  · cases action with
    | write val =>
      dsimp only
      split
      · exact write i val
      · exact start
    | reply c =>
      dsimp only
      split
      · exact reply i c
      · exact start
    | second => exact second rfl

theorem step_inv (s : Window) (e : Event) (inv : Inv s) (owns : LastOwns s e) :
    Inv (step timevalSub s e) := by
  apply step_keeps inv (write_inv inv) (reply_inv inv)
  intro second
  apply second_inv inv
  intro _
  exact owns second

theorem start_inv {s : Window} (quiet : s.Quiet) (agree : s.Agree) : Inv s := by
  constructor
  · constructor <;> intro i x half <;> rw [quiet i] at half <;> cases half
  · intro _
    exact agree

/-- The records agree whenever no operation is half done, in every run in which the last
    operation to finish still owns its first store. -/
theorem window_records_agree (timevalSub : Timeval → Timeval → Int) (s : Window) (es : List Event)
    (quiet : s.Quiet) (agree : s.Agree) (owns : Along (step timevalSub) LastOwns s es) :
    Always (step timevalSub) Window.Settled s es := by
  have always := always_of_along step_inv (start_inv quiet agree) owns
  exact always_mono (fun _ inv => inv.settled) always

/-- A form of the condition that can be evaluated: only threads below `n` are at work. -/
def OwnsBelow (n : Nat) (s : Window) (e : Event) : Prop :=
  e.action = .second → (∃ j < n, j ≠ e.thread ∧ s.threads j ≠ .idle) ∨ s.Owns e.thread

instance (n : Nat) (s : Window) (e : Event) : Decidable (OwnsBelow n s e) :=
  inferInstanceAs (Decidable (_ → _ ∨ _))

theorem last_owns_of_below {n : Nat} (s : Window) (e : Event) (below : OwnsBelow n s e) :
    LastOwns s e := by
  intro second others
  rcases below second with ⟨j, _, other, busy⟩ | owns
  · exact absurd (others j other) busy
  · exact owns

theorem step_other {s : Window} {e : Event} {i : Nat} (other : i ≠ e.thread) :
    (step timevalSub s e).threads i = s.threads i := by
  obtain ⟨j, action⟩ := e
  unfold step
  split
  · rfl
  · cases action with
    | write val =>
      dsimp only [Window.write]
      split
      · split
        · rfl
        · exact set_other _ _ other
      · rfl
    | reply c =>
      dsimp only [Window.reply]
      split
      · split
        · rfl
        · split
          · rfl
          · exact set_other _ _ other
      · rfl
    | second =>
      dsimp only [Window.second]
      split
      · rfl
      · exact set_other _ _ other
      · exact set_other _ _ other

theorem run_other {s : Window} {es : List Event} {i : Nat} (other : ∀ e ∈ es, i ≠ e.thread) :
    (run (step timevalSub) s es).threads i = s.threads i := by
  induction es generalizing s with
  | nil => rfl
  | cons e es ih =>
    rw [run_cons, ih fun x member => other x (by simp [member])]
    exact step_other (other e (by simp))

def opened : Window :=
  { clMaxRpcsInFlight := 8, qos := (parseQosRules true (oneRule ['1', '0']) (initQos 8)).qos,
    threads := fun _ => .idle, clBy := none, qosBy := none, oops := false }

theorem window_agrees_two_writers :
    let es : List Event := [⟨0, .write 16⟩, ⟨1, .write 4⟩, ⟨0, .second⟩, ⟨1, .second⟩,
      ⟨2, .reply oneReply⟩, ⟨2, .second⟩]
    (run (step usecSub) opened es).qos.maxRpcInFlight100 = 405 ∧
      Always (step usecSub) Window.Settled opened es := by
  intro es
  have owns : Along (step usecSub) (OwnsBelow 3) opened es := by decide +kernel
  constructor
  · decide +kernel
  · exact window_records_agree usecSub opened es (fun _ => rfl) (by decide +kernel)
      (along_mono last_owns_of_below owns)

/-- A reply that runs between the two stores of a writer: the client obeys 8, the
    controller steers from 16. -/
theorem window_split_by_reply :
    opened.Quiet ∧ opened.Agree ∧
      ¬ Always (step usecSub) Window.Settled opened
        [⟨0, .write 16⟩, ⟨1, .reply oneReply⟩, ⟨1, .second⟩, ⟨0, .second⟩] := by
  refine ⟨fun _ => rfl, by decide +kernel, ?_⟩
  intro always
  have agree := always_run always ?_
  · exact absurd agree (by decide +kernel)
  · intro i
    by_cases atWork : i < 2
    · revert i
      decide +kernel
    · rw [run_other (by simp; omega)]
      rfl

end QosWindow
