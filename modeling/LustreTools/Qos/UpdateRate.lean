import LustreTools.Lib.Spacing
import LustreTools.Qos.Reads

/-!
How often the window is updated. The rate of the header is stored as the number of
microseconds between two updates; each update records the reading at which it was made, and
nothing else moves that record.
-/
namespace QosUpdateRate
open Runs Words Spacing QosRules QosAdjust QosTable QosReads

/-- The state right after a write that installed a table with rate `k`. -/
def Installed (k : Int) (q : QosData) : Prop :=
  ∃ o buffer before n p, o.kernbuf = true ∧ o.copied = true ∧ ¬ ZeroText (cString buffer) ∧
    Text.sscanf headerFormat (cString buffer) = ([n, k], some p) ∧ n ≠ 0 ∧
    (parseQosRules o.table (cString buffer) before).rc = 0 ∧
    q = (oscQosRulesSeqWrite o buffer before).qos

def isWrite : Call → Bool
  | .write _ _ => true
  | _ => false

/-- The readings, in microseconds, at which a call updates the window; -1 is no update. -/
def updates (timevalSub : Timeval → Timeval → Int) (s : Machine) (call : Call) : List Int :=
  if s.oops then []
  else match call with
  | .reply c =>
    match qosAdjust timevalSub c s.qos with
    | .ok (_, newMrif) => if newMrif = -1 then [] else [c.now.usec]
    | .error _ => []
  | _ => []

/-- A table is installed with this gap, and reads show it. -/
structure Gapped (gap : Int) (q : QosData) : Prop where
  gap : q.minGapBetweenUpdatingMrif = gap
  count : q.ruleNo ≠ 0
  table : q.rules ≠ none

theorem installed_gapped {k : Int} {q : QosData} (installed : Installed k q) (nonzero : k ≠ 0) :
    Gapped ((1000000 : Int).tdiv k) q := by
  obtain ⟨o, buffer, before, n, p, kernbuf, copied, long, scanned, some, accepted, same⟩ := installed
  have loaded : parseQosRules o.table (cString buffer) before = loadRules o.table n k p before := by
    simp only [parseQosRules, long, ↓reduceIte, scanned, some, nonzero, or_self]
  rw [same]
  simp only [oscQosRulesSeqWrite, kernbuf, copied, Bool.not_true, Bool.false_eq_true, ↓reduceIte]
  rw [loaded] at accepted ⊢
  obtain ⟨opened, rfl, exits⟩ := load_cases o.table n k p before
  rcases exits with ⟨_, memory⟩ | ⟨rules, _, table⟩ | ⟨_, line⟩
  · rw [memory] at accepted
    exact absurd accepted (show enomem ≠ 0 by decide)
  · rw [table]
    exact ⟨rfl, some, by simp⟩
  · rw [line] at accepted
    exact absurd accepted (show einval ≠ 0 by decide)

variable {timevalSub : Timeval → Timeval → Int}

theorem adjust_records {c : Reply} {q q' : QosData} {newMrif : Int}
    (adjusted : qosAdjust timevalSub c q = .ok (q', newMrif)) :
    (newMrif = -1 ∧ q'.lastMrifUpdateTime = q.lastMrifUpdateTime) ∨
      newMrif ≠ -1 ∧ q'.lastMrifUpdateTime = c.now ∧ UpdateDue timevalSub c q := by
  obtain ⟨⟨measured, ack, sent, ratio⟩, measure, applied⟩ := bind_ok adjusted
  obtain ⟨ackEwma, sentEwma, read, write, smallest, quotient, _, _, frame⟩ := measure_cases measure
  have time : measured.lastMrifUpdateTime = q.lastMrifUpdateTime := by rw [frame]
  have gap : measured.minGapBetweenUpdatingMrif = q.minGapBetweenUpdatingMrif := by rw [frame]
  rcases apply_rules_cases applied with ⟨kept, none, _⟩ | ⟨table, i, r, used, _, result⟩
  · rw [kept]
    exact Or.inl ⟨none, time⟩
  · rcases result with ⟨_, kept, none⟩ | ⟨due, moved⟩
    · rw [kept]
      exact Or.inl ⟨none, time⟩
    · obtain ⟨state, value⟩ := Prod.mk.inj moved
      refine Or.inr ⟨?_, by rw [state], ?_⟩
      · have positive : 1 ≤ newMrif := by
          rw [value]
          split <;> omega
        omega
      · rw [UpdateDue, time, gap] at due
        exact due

theorem same_table_gapped {gap : Int} {q q' : QosData} (same : SameTable q q') (gapped : Gapped gap q) :
    Gapped gap q' := by
  refine ⟨same.minGap.trans gapped.gap, by rw [same.ruleNo]; exact gapped.count, fun none => ?_⟩
  have bytes := same.bytes
  rw [none, Option.map_none] at bytes
  exact gapped.table (Option.map_eq_none_iff.mp bytes.symm)

theorem gapped_shown {gap : Int} {q : QosData} (gapped : Gapped gap q) (nonzero : gap ≠ 0) : q.shown = q :=
  (shown_eq_iff q).mpr (Or.inr ⟨gapped.table, by rw [gapped.gap]; exact nonzero⟩)

theorem updates_spaced {gap : Int} (positive : 0 < gap)
    (usecs : ∀ a b, timevalSub a b = a.usec - b.usec) {calls : List Call} {s : Machine}
    (gapped : Gapped gap s.qos) (noWrite : ∀ call ∈ calls, isWrite call = false) :
    Spaced gap (s.qos.lastMrifUpdateTime.usec ::
      trace (step timevalSub) (updates timevalSub) s calls) := by
  induction calls generalizing s with
  | nil => simp [trace, Spaced]
  | cons call calls ih =>
    obtain ⟨q, oops⟩ := s
    have others : ∀ other ∈ calls, isWrite other = false := fun other member =>
      noWrite other (by simp [member])
    cases oops with
    | true => exact ih (s := ⟨q, true⟩) gapped others
    | false =>
      simp only [trace, updates, step, Bool.false_eq_true, ↓reduceIte]
      cases call with
      | write o buffer => cases noWrite (.write o buffer) (by simp)
      | read alloc =>
        have shown : (oscQosRulesSeqShow alloc q).1 = q := gapped_shown gapped (by omega)
        have rest := ih (s := ⟨(oscQosRulesSeqShow alloc q).1,
          (perform timevalSub q (.read alloc)).2.isSome⟩) (by rw [shown]; exact gapped) others
        rw [shown] at rest
        simpa only [perform, shown, List.nil_append] using rest
      | reply c =>
        cases adjusted : qosAdjust timevalSub c q with
        | error fault =>
          simp only [perform, adjusted, List.nil_append]
          exact ih (s := ⟨q, true⟩) gapped others
        | ok result =>
          obtain ⟨q', newMrif⟩ := result
          have rest := ih (s := ⟨q', false⟩) (same_table_gapped (qos_adjust_table adjusted) gapped) others
          simp only [perform, adjusted, Option.isSome_none]
          rcases adjust_records adjusted with ⟨none, same⟩ | ⟨moved, now, due⟩
          · rw [if_pos none]
            rw [same] at rest
            exact rest
          · rw [if_neg moved]
            rw [now] at rest
            obtain ⟨_, late⟩ := due
            rw [usecs, gapped.gap] at late
            exact spaced_cons (by omega) (by omega) rest

/-- Under a table installed with a rate from 1 to 1000000, the updates of the window in any run
    of replies and reads are strictly increasing and keep the gap of the rate, so that any
    interval holds at most one more of them than gaps fit in it. -/
theorem window_updates_spaced (timevalSub : Timeval → Timeval → Int)
    (usecs : ∀ a b, timevalSub a b = a.usec - b.usec) (k : Int) (least : 1 ≤ k) (most : k ≤ 1000000)
    (q : QosData) (installed : Installed k q) (calls : List Call)
    (noWrite : ∀ call ∈ calls, isWrite call = false) :
    (trace (step timevalSub) (updates timevalSub) ⟨q, false⟩ calls).Pairwise
        (fun a b => a < b ∧ a + 1000000 / k ≤ b) ∧
      ∀ start span, 0 ≤ span →
        ((trace (step timevalSub) (updates timevalSub) ⟨q, false⟩ calls).countP
          (fun x => decide (start ≤ x) && decide (x ≤ start + span)) : Int) ≤
            1 + span / (1000000 / k) := by
  have gapped := installed_gapped installed (by omega)
  rw [Int.tdiv_eq_ediv_of_nonneg (by decide)] at gapped
  have positive : 1 ≤ 1000000 / k := (Int.le_ediv_iff_mul_le (by omega)).mpr (by omega)
  have recorded := @updates_spaced timevalSub _ positive usecs calls ⟨q, false⟩ gapped noWrite
  have spaced := (List.pairwise_cons.mp recorded).2
  constructor
  · apply spaced.imp
    intro a b apart
    omega
  · intro start span nonneg
    exact count_between positive spaced nonneg

def everyUsec : List Char := oneRule ['1', '0', '0', '0', '0', '0', '0']

theorem window_updates_two_replies :
    let q := (oscQosRulesSeqWrite ⟨true, true, true⟩ everyUsec (initQos 8)).qos
    let calls : List Call := [.reply oneReply, .read true, .reply { oneReply with now := ⟨5, 200⟩ }]
    trace (step usecSub) (updates usecSub) ⟨q, false⟩ calls = [5000100, 5000200] ∧
      ([5000100, 5000200] : List Int).Pairwise (fun a b => a < b ∧ a + 1000000 / 1000000 ≤ b) := by
  intro q calls
  have usecs (a b : Timeval) : usecSub a b = a.usec - b.usec := by
    simp only [usecSub, Timeval.usec]
    omega
  have made : trace (step usecSub) (updates usecSub) ⟨q, false⟩ calls = [5000100, 5000200] := by
    decide +kernel
  have installed : Installed 1000000 q :=
    ⟨⟨true, true, true⟩, everyUsec, initQos 8, 1, everyUsec.drop 10, rfl, rfl, by decide +kernel,
      by decide +kernel, by decide, by decide +kernel, rfl⟩
  have spaced := (window_updates_spaced usecSub usecs 1000000 (by decide) (by decide) q installed calls
    (by decide)).1
  rw [made] at spaced
  exact ⟨made, spaced⟩

end QosUpdateRate
