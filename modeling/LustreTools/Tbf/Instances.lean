import LustreTools.Tbf.Policy

/-!
The TBF instances of several services. All of them compare their heap nodes through one
static operations table, and `start sscdt` installs there the comparator of the type that
was started last.
-/
namespace TbfInstances
open Runs Words Text TbfPolicy

inductive TbfType where
  | nid
  | jobid
  deriving DecidableEq, Repr

def TbfType.comparator : TbfType → Comparator
  | .nid => .sscdtReqCompareNid
  | .jobid => .sscdtReqCompareJobid

structure Outcomes where
  head : Bool
  heap : Bool
  hash : Bool
  ruleRc : Int
  deriving DecidableEq, Repr

/-- The two startup functions differ in the comparator they publish. They publish it also
    when the default rule fails to start. -/
def startup (comparator : Comparator) (o : Outcomes) (g : Globals) : Globals × Int :=
  if !o.hash then (g, enomem) else ({ g with sscdtReqCompare := some comparator }, o.ruleRc)

def nrsTbfJobidStartup : Outcomes → Globals → Globals × Int := startup .sscdtReqCompareJobid

def nrsTbfNidStartup : Outcomes → Globals → Globals × Int := startup .sscdtReqCompareNid

def TbfType.oStartup : TbfType → Outcomes → Globals → Globals × Int
  | .nid => nrsTbfNidStartup
  | .jobid => nrsTbfJobidStartup

def nrsTbfTypeMaxLen : Nat := 20

def thType (arg : List Char) : Option TbfType :=
  if strcmp arg ['n', 'i', 'd'] = 0 then some .nid
  else if strcmp arg ['j', 'o', 'b', 'i', 'd'] = 0 then some .jobid
  else none

def nrsTbfStart (arg : Option (List Char)) (o : Outcomes) (g : Globals) :
    Globals × Except Int TbfType :=
  match arg with
  | none => (g, .error einval)
  | some arg =>
    if arg.length > nrsTbfTypeMaxLen then (g, .error einval)
    else match thType arg with
    | none => (g, .error enotsupp)
    | some type =>
      if !o.head then (g, .error enomem)
      else if !o.heap then (g, .error enomem)
      else
        let started := type.oStartup o g
        if started.2 ≠ 0 then (started.1, .error started.2) else (started.1, .ok type)

/-- `heads` are the started instances; `sscdt` records whether the last SSCDT command to
    an instance since it started switched SSCDT on. -/
structure Host where
  globals : Globals
  heads : Nat → Option TbfType
  sscdt : Nat → Bool

inductive Event where
  | start (i : Nat) (arg : Option (List Char)) (o : Outcomes)
  | stop (i : Nat)
  | command (i : Nat) (cmd : SscdtCmd)

def switched (sscdt : Nat → Bool) (i : Nat) : SscdtKind → Nat → Bool
  | .start => Function.update sscdt i true
  | .stop => Function.update sscdt i false
  | .change => sscdt

/-- The NRS core starts stopped instances and directs commands at started ones only. -/
def step (s : Host) : Event → Host
  | .start i arg o =>
    if s.heads i = none then
      match nrsTbfStart arg o s.globals with
      | (g, .ok type) =>
        ⟨g, Function.update s.heads i (some type), Function.update s.sscdt i false⟩
      | (g, .error _) => { s with globals := g }
    else s
  | .stop i => { s with heads := Function.update s.heads i none }
  | .command i cmd =>
    if s.heads i = none then s
    else { s with globals := nrsTbfCommand s.globals cmd, sscdt := switched s.sscdt i cmd.tcCmd }

def loaded (interval : Int) : Host :=
  ⟨⟨some .tbfCliCompare, none, interval⟩, fun _ => none, fun _ => false⟩

def ownComparator (type : TbfType) (sscdt : Bool) : Comparator :=
  if sscdt then type.comparator else .tbfCliCompare

def OwnOrder (s : Host) : Prop := ∀ i type, s.heads i = some type →
  s.globals.hopCompare = some (ownComparator type (s.sscdt i))

def Starts (arg : Option (List Char)) (o : Outcomes) : Prop :=
  (arg = some ['n', 'i', 'd'] ∨ arg = some ['j', 'o', 'b', 'i', 'd']) ∧
    o.head = true ∧ o.heap = true ∧ o.hash = true ∧ o.ruleRc = 0

/-- Instances start under the deadline comparator only; SSCDT is started where the last
    startup was of the same type and every other instance has that type and SSCDT on, and
    stopped when no other instance has it on. -/
def OwnSafe (s : Host) : Event → Prop
  | .start i arg o => s.heads i = none → Starts arg o → s.globals.hopCompare = some .tbfCliCompare
  | .stop _ => True
  | .command i cmd => ∀ type, s.heads i = some type → match cmd.tcCmd with
    | .start => s.globals.sscdtReqCompare = some type.comparator ∧
        ∀ j other, j ≠ i → s.heads j = some other → other = type ∧ s.sscdt j = true
    | .stop => ∀ j other, j ≠ i → s.heads j = some other → s.sscdt j = false
    | .change => True

theorem th_type_eq_some {arg : List Char} {type : TbfType} (found : thType arg = some type) :
    arg = ['n', 'i', 'd'] ∨ arg = ['j', 'o', 'b', 'i', 'd'] := by
  unfold thType at found
  split at found
  · rename_i same
    exact Or.inl ((strcmp_eq_zero _ _).mp same)
  · split at found
    · rename_i same
      exact Or.inr ((strcmp_eq_zero _ _).mp same)
    · cases found

theorem startup_hop_compare (type : TbfType) (o : Outcomes) (g : Globals) :
    (type.oStartup o g).1.hopCompare = g.hopCompare := by
  cases type <;> simp only [TbfType.oStartup, nrsTbfNidStartup, nrsTbfJobidStartup, startup] <;>
    split <;> rfl

theorem startup_rc (type : TbfType) (o : Outcomes) (g : Globals) :
    (type.oStartup o g).2 = if o.hash then o.ruleRc else enomem := by
  cases type <;> cases h : o.hash <;>
    simp [TbfType.oStartup, nrsTbfNidStartup, nrsTbfJobidStartup, startup, h]

theorem start_hop_compare (arg : Option (List Char)) (o : Outcomes) (g : Globals) :
    (nrsTbfStart arg o g).1.hopCompare = g.hopCompare := by
  unfold nrsTbfStart
  split
  · rfl
  · split
    · rfl
    · split
      · rfl
      · split
        · rfl
        · split
          · rfl
          · dsimp only
            split <;> exact startup_hop_compare _ o g

theorem start_ok_iff (arg : Option (List Char)) (o : Outcomes) (g : Globals) :
    (∃ type, (nrsTbfStart arg o g).2 = .ok type) ↔ Starts arg o := by
  unfold nrsTbfStart Starts
  split
  · simp
  · rename_i arg
    split
    · rename_i long
      have bounded : ∀ text : List Char, arg = text → ¬ text.length > nrsTbfTypeMaxLen → False := by
        rintro text rfl short
        exact short long
      simp only [reduceCtorEq, exists_false, Option.some.injEq, false_iff, not_and]
      rintro (same | same)
      · exact (bounded _ same (by decide)).elim
      · exact (bounded _ same (by decide)).elim
    · split
      · rename_i unknown
        simp only [reduceCtorEq, exists_false, Option.some.injEq, false_iff, not_and]
        rintro (rfl | rfl) <;> exact absurd unknown (by decide)
      · rename_i type found
        have known := th_type_eq_some found
        have rc := startup_rc type o g
        simp only [Option.some.injEq, known, true_and]
        cases head : o.head <;> cases heap : o.heap <;> cases hash : o.hash <;>
          simp_all [enomem]
        split <;> simp_all

theorem own_comparator_injective {type other : TbfType} {on : Bool}
    (same : ownComparator other on = type.comparator) : other = type ∧ on = true := by
  cases type <;> cases other <;> cases on <;> simp_all [ownComparator, TbfType.comparator]

theorem own_comparator_tbf {type : TbfType} {on : Bool} :
    ownComparator type on = .tbfCliCompare ↔ on = false := by
  cases type <;> cases on <;> simp [ownComparator, TbfType.comparator]

theorem start_own_order (s : Host) (i : Nat) (arg : Option (List Char)) (o : Outcomes)
    (own : OwnOrder s) :
    OwnOrder (step s (.start i arg o)) ↔ OwnSafe s (.start i arg o) := by
  have hop := start_hop_compare arg o s.globals
  have ok := start_ok_iff arg o s.globals
  by_cases stopped : s.heads i = none
  · simp only [step, stopped, ↓reduceIte, OwnSafe, forall_const]
    rcases outcome : nrsTbfStart arg o s.globals with ⟨g, rc | type⟩
    · have fails : ¬ Starts arg o := by simp [← ok, outcome]
      rw [outcome] at hop
      simp only [fails, false_implies, iff_true]
      intro j type started
      exact hop.trans (own j type started)
    · have starts : Starts arg o := ok.mp ⟨type, by rw [outcome]⟩
      rw [outcome] at hop
      simp only [starts, forall_const]
      constructor
      · intro after
        have here := after i type (by simp)
        rw [← hop]
        simpa [ownComparator] using here
      · intro deadline j other started
        by_cases same : j = i
        · subst same
          simpa [ownComparator] using hop.trans deadline
        · simp only [Function.update_of_ne same] at started ⊢
          exact hop.trans (own j other started)
  · simp [step, stopped, OwnSafe, own]

theorem sscdt_start_own_order (s : Host) {i : Nat} {type : TbfType} {cmd : SscdtCmd}
    (started : s.heads i = some type) (kind : cmd.tcCmd = .start) :
    OwnOrder (step s (.command i cmd)) ↔ OwnSafe s (.command i cmd) := by
  have pointer : (nrsTbfCommand s.globals cmd).hopCompare = s.globals.sscdtReqCompare := by
    simp only [nrsTbfCommand, kind, nrsTbfSscdtStart]
    split
    · rfl
    · rename_i same
      simpa using same
  simp only [step, started, reduceCtorEq, ↓reduceIte, OwnSafe, kind, OwnOrder, switched, pointer,
    Option.some.injEq]
  constructor
  · intro after found same
    subst same
    have here : s.globals.sscdtReqCompare = some type.comparator := by
      simpa [ownComparator] using after i type started
    refine ⟨here, fun j other different running => ?_⟩
    have there := after j other running
    rw [here, Function.update_of_ne different, Option.some.injEq] at there
    exact own_comparator_injective there.symm
  · intro safe j other running
    obtain ⟨here, others⟩ := safe type rfl
    rw [here]
    by_cases same : j = i
    · subst same
      rw [started, Option.some.injEq] at running
      simp [ownComparator, running]
    · obtain ⟨rfl, on⟩ := others j other same running
      simp [Function.update_of_ne same, ownComparator, on]

theorem sscdt_stop_own_order (s : Host) {i : Nat} {type : TbfType} {cmd : SscdtCmd}
    (started : s.heads i = some type) (kind : cmd.tcCmd = .stop) :
    OwnOrder (step s (.command i cmd)) ↔ OwnSafe s (.command i cmd) := by
  have pointer : (nrsTbfCommand s.globals cmd).hopCompare = some .tbfCliCompare := by
    simp only [nrsTbfCommand, kind, nrsTbfSscdtStop]
    split
    · rfl
    · rename_i same
      simpa using same
  simp only [step, started, reduceCtorEq, ↓reduceIte, OwnSafe, kind, OwnOrder, switched, pointer,
    Option.some.injEq]
  constructor
  · intro after found _ j other different running
    have there := after j other running
    rw [Function.update_of_ne different] at there
    exact own_comparator_tbf.mp there.symm
  · intro safe j other running
    by_cases same : j = i
    · subst same
      simp [ownComparator]
    · rw [Function.update_of_ne same]
      exact (own_comparator_tbf.mpr (safe type rfl j other same running)).symm

theorem step_own_order (s : Host) (e : Event) (own : OwnOrder s) :
    OwnOrder (step s e) ↔ OwnSafe s e := by
  cases e with
  | start i arg o => exact start_own_order s i arg o own
  | stop i =>
    refine iff_of_true ?_ trivial
    intro j type running
    by_cases same : j = i
    · subst same
      simp [step] at running
    · simp only [step, Function.update_of_ne same] at running ⊢
      exact own j type running
  | command i cmd =>
    cases started : s.heads i with
    | none => simp [step, OwnSafe, started, own]
    | some type =>
      cases kind : cmd.tcCmd with
      | start => exact sscdt_start_own_order s started kind
      | stop => exact sscdt_stop_own_order s started kind
      | change =>
        refine iff_of_true ?_ (by simp [OwnSafe, kind])
        intro j other running
        simp only [step, started, reduceCtorEq, ↓reduceIte, kind, switched] at running ⊢
        simpa [nrsTbfCommand, kind, nrsTbfTwIntervalChange] using own j other running

/-- Every instance is ordered by its own mode and type in all states of a run exactly when
    the shared table never has to serve two of them differently. -/
theorem tbf_own_order_iff_safe (interval : Int) (es : List Event) :
    Always step OwnOrder (loaded interval) es ↔ Along step OwnSafe (loaded interval) es := by
  apply always_iff_along step_own_order
  intro i type started
  cases started

/-- A nid instance switched to SSCDT after a jobid instance was started elsewhere. -/
theorem tbf_nid_ordered_by_jobid :
    ¬ Always step OwnOrder (loaded 1000)
      [.start 0 (some ['n', 'i', 'd']) ⟨true, true, true, 0⟩,
        .start 1 (some ['j', 'o', 'b', 'i', 'd']) ⟨true, true, true, 0⟩,
        .command 0 ⟨.start, 1000⟩] := by
  intro always
  have own := always_run always 0 .nid (by decide)
  revert own
  decide

end TbfInstances
