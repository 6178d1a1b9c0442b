import LustreTools.SscdtPolicy

/-!
The window width of the SSCDT policy as a register: `nrs_sscdt_ctl` writes a 64-bit value
into the 32-bit global without looking at it, and the comparator divides by the global. A
comparison with width zero has no answer.
-/
namespace SscdtRegister
open Runs Words BinHeap SscdtPolicy

/-- The comparator with its division: there is no answer for width zero. -/
def sscdtReqDivide (interval : Int) (a b : Request) : Option Bool :=
  if interval = 0 then none else some (sscdtReqCompare interval a b)

/-- The heap operation of an event, nothing if its comparator divides by zero. A failed
    insertion is refused for lack of memory, before any comparison. -/
def heapCall (checked : CheckedOps Request) (p : Policy) : Event → Option (List Request)
  | .reqAdd r insertRc =>
    if insertRc = 0 then checked.insert (sscdtReqDivide p.interval) p.stBinheap r else some p.stBinheap
  | .reqDel r => checked.remove (sscdtReqDivide p.interval) p.stBinheap r
  | .reqGet peek =>
    match p.stBinheap with
    | [] => some []
    | r :: rest =>
      if peek then some (r :: rest) else checked.remove (sscdtReqDivide p.interval) (r :: rest) r
  | .ctl _ _ => some p.stBinheap

def written : Event → Option Int
  | .ctl .wrInterval arg => some arg
  | _ => none

section
variable (ops : HeapOps Request) (checked : CheckedOps Request)

/-- A read returns what the last successful write before it wrote. -/
def ReadsBack (p : Policy) (es : List Event) : Prop :=
  ∀ before v between arg rest,
    es = before ++ .ctl .wrInterval v :: (between ++ .ctl .rdInterval arg :: rest) →
    (nrsSscdtCtl .wrInterval v (run (step ops) p before)).2.1 = 0 → (∀ e ∈ between, written e = none) →
      (nrsSscdtCtl .rdInterval arg (run (step ops) p (before ++ .ctl .wrInterval v :: between))).2 =
        (0, some v)

structure Register (p : Policy) (es : List Event) : Prop where
  divides : Along (step ops) (fun p e => heapCall checked p e ≠ none) p es
  readsBack : ReadsBack ops p es

end

def InRange (v : Int) : Prop := 1 ≤ v ∧ v < 4294967296

variable {ops : HeapOps Request} {checked : CheckedOps Request}

theorem step_interval (p : Policy) (e : Event) :
    (step ops p e).interval = ((written e).map u32).getD p.interval := by
  cases e with
  | reqAdd r insertRc => rfl
  | reqDel r => rfl
  | reqGet peek =>
    simp only [step, nrsSscdtReqGet]
    split
    · rfl
    · split <;> rfl
  | ctl opc arg => cases opc <;> rfl

theorem run_interval {es : List Event} {p : Policy} (quiet : ∀ e ∈ es, written e = none) :
    (run (step ops) p es).interval = p.interval := by
  induction es generalizing p with
  | nil => rfl
  | cons e es ih =>
    have first : (step ops p e).interval = p.interval := by
      rw [step_interval, quiet e (by simp)]
      rfl
    rw [run_cons, ih (fun x member => quiet x (by simp [member])), first]

theorem last_write {before between : List Event} {v : Int} (p : Policy)
    (quiet : ∀ e ∈ between, written e = none) :
    (run (step ops) p (before ++ .ctl .wrInterval v :: between)).interval = u32 v := by
  rw [run_append, run_cons, run_interval quiet, step_interval]
  rfl

theorem heap_call_answers (checks : Checks checked ops) {p : Policy} (nonzero : p.interval ≠ 0) (e : Event) :
    heapCall checked p e ≠ none := by
  have answers : sscdtReqDivide p.interval = fun a b => some (sscdtReqCompare p.interval a b) := by
    funext a b
    exact if_neg nonzero
  unfold heapCall
  split
  · split
    · rw [answers, checks.insert_total]
      simp
    · simp
  · rw [answers, checks.remove_total]
    simp
  · split
    · simp
    · split
      · simp
      · rw [answers, checks.remove_total]
        simp
  · simp

theorem register_of_range (checks : Checks checked ops) {es : List Event} {p : Policy}
    (start : InRange p.interval) (values : ∀ e ∈ es, ∀ v, written e = some v → InRange v) :
    Register ops checked p es := by
  have exactly (v : Int) (range : InRange v) : u32 v = v :=
    u32_of_in (by simp only [InU32, InRange] at *; omega)
  constructor
  · have keeps (p : Policy) (e : Event) (range : InRange p.interval)
        (value : ∀ v, written e = some v → InRange v) : InRange (step ops p e).interval := by
      rw [step_interval]
      cases wrote : written e with
      | none => exact range
      | some v =>
        rw [Option.map_some, Option.getD_some, exactly v (value v wrote)]
        exact value v wrote
    have always := always_of_along keeps start (along_of_forall values)
    apply along_of_always _ always
    intro p e range
    exact heap_call_answers checks (by simp only [InRange] at range; omega) e
  · intro before v between arg rest split _ quiet
    have range := values (.ctl .wrInterval v) (by simp [split]) v rfl
    simp only [nrsSscdtCtl, last_write p quiet, exactly v range]

theorem zero_write_divides (checks : Checks checked ops) (keeps : KeepsNodes ops) (p : Policy) {v : Int}
    (zero : u32 v = 0) : ¬ Register ops checked p [.reqAdd early 0, .ctl .wrInterval v, .reqAdd late 0] := by
  intro register
  obtain ⟨_, _, last, _⟩ := register.divides
  have queued := keeps.insert_perm (sscdtReqCompare p.interval) p.stBinheap early
  apply last
  have unanswered : sscdtReqDivide 0 = fun _ _ => none := rfl
  simp only [heapCall, step, nrsSscdtCtl, nrsSscdtReqAdd, ↓reduceIte, zero, unanswered]
  apply checks.insert_asks
  intro empty
  rw [empty] at queued
  cases queued.symm.eq_nil

theorem narrowed_write_read (p : Policy) {v : Int} (narrowed : u32 v ≠ v) :
    ¬ Register ops checked p [.ctl .wrInterval v, .ctl .rdInterval 0] := by
  intro register
  have read := register.readsBack [] v [] 0 [] rfl rfl (by simp)
  have last := @last_write ops [] [] v p (by simp)
  simp only [nrsSscdtCtl, last, Prod.mk.injEq, Option.some.injEq] at read
  exact narrowed read.2

/-- For a set of 64-bit values, every run that writes only these keeps the contract exactly
    when all of them lie in 1 to 2^32 - 1. -/
theorem interval_register_iff (ops : HeapOps Request) (checked : CheckedOps Request)
    (checks : Checks checked ops) (keeps : KeepsNodes ops) (p : Policy) (start : InRange p.interval)
    (allowed : Int → Prop) (words : ∀ v, allowed v → InU64 v) :
    (∀ es : List Event, (∀ e ∈ es, ∀ v, written e = some v → allowed v) → Register ops checked p es) ↔
      ∀ v, allowed v → InRange v := by
  constructor
  · intro every v value
    have word := words v value
    by_contra outside
    by_cases zero : u32 v = 0
    · apply zero_write_divides checks keeps p zero
      apply every
      simp [written, value]
    · have narrowed : u32 v ≠ v := by
        simp only [u32, InU64, InRange] at *
        omega
      apply narrowed_write_read p narrowed
      apply every
      simp [written, value]
  · intro range es values
    exact register_of_range checks start fun e member v wrote => range v (values e member v wrote)

theorem interval_register_five_hundred :
    Register sortedOps sortedChecked (nrsSscdtStart 1000)
      [.reqAdd late 0, .ctl .wrInterval 500, .reqAdd early 0, .ctl .rdInterval 0] := by
  have every := (interval_register_iff sortedOps sortedChecked sorted_checks
    sorted_ops_keep_order.toKeepsNodes (nrsSscdtStart 1000) (by unfold InRange; decide) (· = 500)
    (by simp only [forall_eq]; decide)).mpr (by simp only [forall_eq, InRange]; decide)
  apply every
  simp [written]

/-- After a write of 0 the second request divides by zero, and 2^32 + 500 reads back as 500. -/
theorem interval_register_breaks :
    Checks (sortedChecked : CheckedOps Request) sortedOps ∧
      ¬ Register sortedOps sortedChecked (nrsSscdtStart 1000)
        [.reqAdd early 0, .ctl .wrInterval 0, .reqAdd late 0] ∧
      ¬ Register sortedOps sortedChecked (nrsSscdtStart 1000)
        [.ctl .wrInterval 4294967796, .ctl .rdInterval 0] := by
  refine ⟨sorted_checks, ?_, ?_⟩
  · exact zero_write_divides sorted_checks sorted_ops_keep_order.toKeepsNodes _ (by decide)
  · exact narrowed_write_read _ (by decide)

end SscdtRegister
