import LustreTools.Qos.Table

/-!
Reading the `qos_rules` file. The read sets `rule_no` to zero to keep its own loop from
running when there is nothing to show, and so takes the rules out of use where a table is
installed with a gap of zero.
-/
namespace QosReads
open Runs Words QosRules QosAdjust QosTable

def isRead : Call → Bool
  | .read _ => true
  | _ => false

/-- What a call decides: the result of a write with its releases, and what the controller
    computes, with the window, the pause and the statistics. -/
inductive Decision where
  | written (rc : Int) (freed : List Free)
  | adjusted (result : Except Fault (QosData × Int))

section
variable (timevalSub : Timeval → Timeval → Int)

def decisions (s : Machine) (call : Call) : List Decision :=
  if s.oops then []
  else match call with
  | .write o buffer =>
    let written := oscQosRulesSeqWrite o buffer s.qos
    [.written written.rc written.freed]
  | .read _ => []
  | .reply c => [.adjusted (qosAdjust timevalSub c s.qos)]

def ReadKeeps (s : Machine) (call : Call) : Prop :=
  ∀ alloc, call = .read alloc → s.oops = false → (oscQosRulesSeqShow alloc s.qos).1 = s.qos

/-- Every read leaves the state as it is; and up to any point that is reached without a fault,
    the run without its reads decides the same and ends in the same state. -/
def ReadsHarmless (s : Machine) (calls : List Call) : Prop :=
  Along (step timevalSub) ReadKeeps s calls ∧
    ∀ front rest, calls = front ++ rest → (run (step timevalSub) s front).oops = false →
      run (step timevalSub) s (front.filter fun call => !isRead call) = run (step timevalSub) s front ∧
      trace (step timevalSub) (decisions timevalSub) s (front.filter fun call => !isRead call) =
        trace (step timevalSub) (decisions timevalSub) s front

end

def ReadSafe (s : Machine) (call : Call) : Prop :=
  ∀ alloc, call = .read alloc → s.oops = false →
    s.qos.ruleNo = 0 ∨ s.qos.rules ≠ none ∧ s.qos.minGapBetweenUpdatingMrif ≠ 0

variable {timevalSub : Timeval → Timeval → Int}

theorem shown_eq_iff (q : QosData) :
    q.shown = q ↔ q.ruleNo = 0 ∨ q.rules ≠ none ∧ q.minGapBetweenUpdatingMrif ≠ 0 := by
  unfold QosData.shown
  by_cases unset : q.Unset
  · rw [if_pos unset]
    constructor
    · intro same
      exact Or.inl (congrArg QosData.ruleNo same).symm
    · intro safe
      have zero : q.ruleNo = 0 := by
        unfold QosData.Unset at unset
        tauto
      cases q
      subst zero
      rfl
  · rw [if_neg unset]
    unfold QosData.Unset at unset
    tauto

theorem read_keeps_iff (s : Machine) (call : Call) : ReadKeeps s call ↔ ReadSafe s call := by
  cases call with
  | write o buffer => simp [ReadKeeps, ReadSafe]
  | reply c => simp [ReadKeeps, ReadSafe]
  | read alloc =>
    have state (a : Bool) : (oscQosRulesSeqShow a s.qos).1 = s.qos.shown := rfl
    simp only [ReadKeeps, ReadSafe, state, shown_eq_iff]

theorem run_no_oops {calls : List Call} {s : Machine}
    (running : (run (step timevalSub) s calls).oops = false) :
    Along (step timevalSub) (fun s call => (step timevalSub s call).oops = false) s calls := by
  have back (s : Machine) (calls : List Call) (oops : s.oops = true) :
      (run (step timevalSub) s calls).oops = true := by
    induction calls generalizing s with
    | nil => exact oops
    | cons call calls ih => exact ih _ (oops_stays call oops)
  induction calls generalizing s with
  | nil => trivial
  | cons call calls ih =>
    constructor
    · by_contra failed
      rw [run_cons, back _ _ (by simpa using failed)] at running
      cases running
    · exact ih running

theorem read_idle {s : Machine} {call : Call} (keeps : ReadKeeps s call)
    (running : (step timevalSub s call).oops = false) (read : (!isRead call) = false) :
    step timevalSub s call = s ∧ decisions timevalSub s call = [] := by
  obtain ⟨q, oops⟩ := s
  cases call with
  | write o buffer => cases read
  | reply c => cases read
  | read alloc =>
    cases oops with
    | true => exact ⟨rfl, rfl⟩
    | false =>
      have same := keeps alloc rfl rfl
      simp only [step, Bool.false_eq_true, ↓reduceIte] at running ⊢
      constructor
      · rw [running]
        simp only [perform, same]
      · rfl

/-- In every run from any state, the reads are harmless exactly when each of them finds no
    rules, or a table and a gap that is not zero. -/
theorem reads_harmless_iff (timevalSub : Timeval → Timeval → Int) (q : QosData) (calls : List Call) :
    ReadsHarmless timevalSub ⟨q, false⟩ calls ↔ Along (step timevalSub) ReadSafe ⟨q, false⟩ calls := by
  have exactly : Along (step timevalSub) ReadKeeps ⟨q, false⟩ calls ↔
      Along (step timevalSub) ReadSafe ⟨q, false⟩ calls := by
    have same : ReadKeeps = ReadSafe := by
      funext s call
      exact propext (read_keeps_iff s call)
    rw [same]
  constructor
  · intro harmless
    exact exactly.mp harmless.1
  · intro safe
    have keeps := exactly.mpr safe
    constructor
    · exact keeps
    · intro front rest split running
      rw [split] at keeps
      have both := along_and.mpr ⟨along_take keeps, run_no_oops running⟩
      apply run_filter
      refine along_mono ?_ both
      intro s call here read
      exact read_idle here.1 here.2 read

def fastRule : List Char := oneRule ['2', '0', '0', '0', '0', '0', '0']

/-- After a rate of two million, a read takes the rule out of use: the reply that would have
    set the window to 8 RPCs and the pause to 7 does neither. -/
theorem read_disables_rule :
    let rules : Call := .write ⟨true, true, true⟩ fastRule
    let unread := (run (step usecSub) ⟨initQos 8, false⟩ [rules]).qos
    let read := (run (step usecSub) ⟨initQos 8, false⟩ [rules, .read true]).qos
    (unread.ruleNo = 1 ∧ read.ruleNo = 0) ∧
      (qosAdjust usecSub oneReply unread).toOption.map (fun r => (r.2, r.1.minUsecBetweenRpcs)) =
        some (8, 7) ∧
      (qosAdjust usecSub oneReply read).toOption.map (fun r => (r.2, r.1.minUsecBetweenRpcs)) =
        some (-1, 0) := by
  decide +kernel

end QosReads
