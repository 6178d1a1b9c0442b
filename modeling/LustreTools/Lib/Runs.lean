import Mathlib.Data.List.Basic

/-!
Runs of a deterministic machine: a step function folded over a list of events.
`Along` says what holds at every step taken, `Always` what holds in every state
visited. The induction over a run is done here once; a safety proof supplies the
step lemma only.
-/
namespace Runs
variable {S E O : Type}

def run (step : S → E → S) (s : S) (es : List E) : S := es.foldl step s

def Along (step : S → E → S) (ok : S → E → Prop) : S → List E → Prop
  | _, [] => True
  | s, e :: es => ok s e ∧ Along step ok (step s e) es

def Always (step : S → E → S) (good : S → Prop) : S → List E → Prop
  | s, [] => good s
  | s, e :: es => good s ∧ Always step good (step s e) es

def trace (step : S → E → S) (out : S → E → List O) : S → List E → List O
  | _, [] => []
  | s, e :: es => out s e ++ trace step out (step s e) es

instance decidableAlong (step : S → E → S) (ok : S → E → Prop) [∀ s e, Decidable (ok s e)] :
    ∀ s es, Decidable (Along step ok s es)
  | _, [] => isTrue trivial
  | s, e :: es => match inferInstanceAs (Decidable (ok s e)), decidableAlong step ok (step s e) es with
    | isTrue first, isTrue rest => isTrue ⟨first, rest⟩
    | isFalse not, _ => isFalse fun along => not along.1
    | _, isFalse not => isFalse fun along => not along.2

instance decidableAlways (step : S → E → S) (good : S → Prop) [∀ s, Decidable (good s)] :
    ∀ s es, Decidable (Always step good s es)
  | s, [] => inferInstanceAs (Decidable (good s))
  | s, e :: es => match inferInstanceAs (Decidable (good s)), decidableAlways step good (step s e) es with
    | isTrue first, isTrue rest => isTrue ⟨first, rest⟩
    | isFalse not, _ => isFalse fun always => not always.1
    | _, isFalse not => isFalse fun always => not always.2

@[simp] theorem run_nil (step : S → E → S) (s : S) : run step s [] = s := rfl

@[simp] theorem run_cons (step : S → E → S) (s : S) (e : E) (es : List E) :
    run step s (e :: es) = run step (step s e) es := rfl

theorem run_append (step : S → E → S) (s : S) (as bs : List E) :
    run step s (as ++ bs) = run step (run step s as) bs := List.foldl_append

theorem always_start {step : S → E → S} {good : S → Prop} {s : S} {es : List E}
    (always : Always step good s es) : good s := by
  cases es with
  | nil => exact always
  | cons e es => exact always.1

theorem always_run {step : S → E → S} {good : S → Prop} {es : List E} {s : S}
    (always : Always step good s es) : good (run step s es) := by
  induction es generalizing s with
  | nil => exact always
  | cons e es ih => exact ih always.2

/-- The invariant rule, relative to a condition on the steps taken. -/
theorem always_of_along {step : S → E → S} {ok : S → E → Prop} {good : S → Prop}
    (keeps : ∀ s e, good s → ok s e → good (step s e)) {es : List E} {s : S}
    (start : good s) (along : Along step ok s es) : Always step good s es := by
  induction es generalizing s with
  | nil => exact start
  | cons e es ih => exact ⟨start, ih (keeps s e start along.1) along.2⟩

theorem along_of_check {step : S → E → S} {ok check : S → E → Prop} {good : S → Prop}
    (keeps : ∀ s e, good s → ok s e → good (step s e))
    (sound : ∀ s e, good s → check s e → ok s e) {es : List E} {s : S}
    (start : good s) (along : Along step check s es) : Along step ok s es := by
  induction es generalizing s with
  | nil => trivial
  | cons e es ih =>
    have first := sound s e start along.1
    exact ⟨first, ih (keeps s e start first) along.2⟩

theorem always_iff_along {step : S → E → S} {ok : S → E → Prop} {good : S → Prop}
    (exact_step : ∀ s e, good s → (good (step s e) ↔ ok s e)) {es : List E} {s : S}
    (start : good s) : Always step good s es ↔ Along step ok s es := by
  induction es generalizing s with
  | nil => simp [Always, Along, start]
  | cons e es ih =>
    constructor
    · intro always
      have next := always_start always.2
      exact ⟨(exact_step s e start).mp next, (ih next).mp always.2⟩
    · intro along
      have next := (exact_step s e start).mpr along.1
      exact ⟨start, (ih next).mpr along.2⟩

theorem always_iff_along_within {step : S → E → S} {ok : S → E → Prop} {inv good side : S → Prop}
    (keeps : ∀ s e, inv s → inv (step s e))
    (exact_step : ∀ s e, inv s → good s → side (step s e) → (good (step s e) ↔ ok s e)) {es : List E} {s : S}
    (kept : inv s) (start : good s) (sides : Always step side s es) :
    Always step good s es ↔ Along step ok s es := by
  induction es generalizing s with
  | nil => simp [Always, Along, start]
  | cons e es ih =>
    have decided := exact_step s e kept start (always_start sides.2)
    constructor
    · intro always
      have next := always_start always.2
      exact ⟨decided.mp next, (ih (keeps s e kept) next sides.2).mp always.2⟩
    · intro along
      have next := decided.mpr along.1
      exact ⟨start, (ih (keeps s e kept) next sides.2).mpr along.2⟩

theorem along_of_always {step : S → E → S} {good : S → Prop} {ok : S → E → Prop}
    (gives : ∀ s e, good s → ok s e) {es : List E} {s : S}
    (always : Always step good s es) : Along step ok s es := by
  induction es generalizing s with
  | nil => trivial
  | cons e es ih => exact ⟨gives s e always.1, ih always.2⟩

theorem along_congr {step : S → E → S} {side ok other : S → E → Prop} {good : S → Prop}
    (keeps : ∀ s e, good s → side s e → ok s e → good (step s e))
    (same : ∀ s e, good s → side s e → (ok s e ↔ other s e)) {es : List E} {s : S}
    (start : good s) (along : Along step side s es) :
    Along step ok s es ↔ Along step other s es := by
  induction es generalizing s with
  | nil => exact Iff.rfl
  | cons e es ih =>
    have first := same s e start along.1
    constructor
    · intro both
      exact ⟨first.mp both.1, (ih (keeps s e start along.1 both.1) along.2).mp both.2⟩
    · intro both
      have met := first.mpr both.1
      exact ⟨met, (ih (keeps s e start along.1 met) along.2).mpr both.2⟩

theorem along_and {step : S → E → S} {ok also : S → E → Prop} {es : List E} {s : S} :
    Along step (fun s e => ok s e ∧ also s e) s es ↔
      Along step ok s es ∧ Along step also s es := by
  induction es generalizing s with
  | nil => simp [Along]
  | cons e es ih =>
    simp only [Along, ih]
    tauto

theorem always_and {step : S → E → S} {good also : S → Prop} {es : List E} {s : S} :
    Always step (fun s => good s ∧ also s) s es ↔ Always step good s es ∧ Always step also s es := by
  induction es generalizing s with
  | nil => exact Iff.rfl
  | cons e es ih =>
    simp only [Always, ih]
    tauto

theorem along_mono {step : S → E → S} {ok weaker : S → E → Prop}
    (weaken : ∀ s e, ok s e → weaker s e) {es : List E} {s : S}
    (along : Along step ok s es) : Along step weaker s es := by
  induction es generalizing s with
  | nil => trivial
  | cons e es ih => exact ⟨weaken s e along.1, ih along.2⟩

theorem always_mono {step : S → E → S} {good weaker : S → Prop}
    (weaken : ∀ s, good s → weaker s) {es : List E} {s : S}
    (always : Always step good s es) : Always step weaker s es := by
  induction es generalizing s with
  | nil => exact weaken s always
  | cons e es ih => exact ⟨weaken s always.1, ih always.2⟩

theorem along_of_forall {step : S → E → S} {ok : E → Prop} {es : List E} {s : S}
    (all : ∀ e ∈ es, ok e) : Along step (fun _ e => ok e) s es := by
  induction es generalizing s with
  | nil => trivial
  | cons e es ih =>
    exact ⟨all e (by simp), ih (by intro x member; exact all x (by simp [member]))⟩

theorem along_true (step : S → E → S) (s : S) (es : List E) : Along step (fun _ _ => True) s es :=
  along_of_forall fun _ _ => trivial

/-- The ledger rule: if each step balances what it takes in against what it gives out
    and the change of its stock, so does the whole run. -/
theorem ledger {step : S → E → S} {out : S → E → List O} {ok : S → E → Prop}
    (stock : S → Nat) (gain loss : O → Bool)
    (balanced : ∀ s e, ok s e →
      stock s + (out s e).countP gain = (out s e).countP loss + stock (step s e))
    {es : List E} {s : S} (along : Along step ok s es) :
    stock s + (trace step out s es).countP gain =
      (trace step out s es).countP loss + stock (run step s es) := by
  induction es generalizing s with
  | nil => simp [trace]
  | cons e es ih =>
    have first := balanced s e along.1
    have rest := ih along.2
    simp only [trace, List.countP_append, run_cons]
    omega

theorem along_append {step : S → E → S} {ok : S → E → Prop} {as bs : List E} {s : S} :
    Along step ok s (as ++ bs) ↔ Along step ok s as ∧ Along step ok (run step s as) bs := by
  induction as generalizing s with
  | nil => simp [Along]
  | cons a as ih => simp [Along, ih, and_assoc]

theorem along_prefixes {ok : List E → E → Prop} {es : List E} {before : List E} :
    Along (fun before e => before ++ [e]) ok before es ↔
      ∀ front e rest, es = front ++ e :: rest → ok (before ++ front) e := by
  induction es generalizing before with
  | nil => simp [Along]
  | cons e es ih =>
    simp only [Along, ih]
    constructor
    · intro both front x rest split
      cases front with
      | nil =>
        simp only [List.nil_append, List.cons.injEq] at split
        rw [List.append_nil, ← split.1]
        exact both.1
      | cons y front =>
        simp only [List.cons_append, List.cons.injEq] at split
        rw [← split.1, List.append_cons]
        exact both.2 front x rest split.2
    · intro all
      constructor
      · simpa using all [] e es rfl
      · intro front x rest split
        have later := all (e :: front) x rest (by rw [split]; rfl)
        rwa [List.append_cons] at later

theorem along_take {step : S → E → S} {ok : S → E → Prop} {front rest : List E} {s : S}
    (along : Along step ok s (front ++ rest)) : Along step ok s front := (along_append.mp along).1

theorem run_filter {step : S → E → S} {out : S → E → List O} {keep : E → Bool} {es : List E} {s : S}
    (idle : Along step (fun s e => keep e = false → step s e = s ∧ out s e = []) s es) :
    run step s (es.filter keep) = run step s es ∧
      trace step out s (es.filter keep) = trace step out s es := by
  induction es generalizing s with
  | nil => exact ⟨rfl, rfl⟩
  | cons e es ih =>
    obtain ⟨same, silent⟩ := ih idle.2
    cases kept : keep e with
    | true =>
      simp only [List.filter_cons, kept, ↓reduceIte, run_cons, trace, same, silent, and_self]
    | false =>
      obtain ⟨stays, none⟩ := idle.1 kept
      rw [stays] at same silent
      simp only [List.filter_cons, kept, Bool.false_eq_true, ↓reduceIte, run_cons, trace, stays, none,
        List.nil_append, same, silent, and_self]

/-- A loop whose body goes on with a state (left) or leaves with one (right), and may fail:
    it ends after this many rounds. -/
inductive Ends (body : S → Option (S ⊕ S)) : Nat → S → S → Prop
  | leave {s s' : S} (left : body s = some (.inr s')) : Ends body 1 s s'
  | again {n : Nat} {s s' last : S} (on : body s = some (.inl s')) (rest : Ends body n s' last) :
    Ends body (n + 1) s last

theorem ends_unique {body : S → Option (S ⊕ S)} {n m : Nat} {s last last' : S} (ends : Ends body n s last)
    (ends' : Ends body m s last') : n = m ∧ last = last' := by
  induction ends generalizing m last' with
  | leave left =>
    cases ends' with
    | leave left' =>
      rw [left] at left'
      cases left'
      exact ⟨rfl, rfl⟩
    | again on _ =>
      rw [left] at on
      cases on
  | again on _ ih =>
    cases ends' with
    | leave left =>
      rw [on] at left
      cases left
    | again on' rest' =>
      rw [on] at on'
      cases on'
      obtain ⟨rounds, same⟩ := ih rest'
      exact ⟨by rw [rounds], same⟩

end Runs
