import Mathlib.Data.List.Basic
import Mathlib.Data.Int.Init

/-!
Times that keep a distance: each lies at least `gap` after the one before it, so that an
interval holds no more of them than fit in it.
-/
namespace Spacing

def Spaced (gap : Int) (times : List Int) : Prop := times.Pairwise fun a b => a + gap ≤ b

variable {gap : Int} {times : List Int}

theorem spaced_cons {a b : Int} (nonneg : 0 ≤ gap) (first : a + gap ≤ b) (spaced : Spaced gap (b :: times)) :
    Spaced gap (a :: b :: times) := by
  apply List.Pairwise.cons _ spaced
  intro c member
  rcases List.mem_cons.mp member with rfl | later
  · exact first
  · have next := (List.pairwise_cons.mp spaced).1 c later
    omega

theorem count_until {start stop : Int} (nonneg : 0 ≤ gap) (spaced : Spaced gap times)
    (after : ∀ x ∈ times, start ≤ x) (order : start ≤ stop + gap) :
    (times.countP (fun x => decide (x ≤ stop)) : Int) * gap ≤ stop + gap - start := by
  induction times generalizing start with
  | nil =>
    simp only [List.countP_nil, Int.natCast_zero, Int.zero_mul]
    omega
  | cons x times ih =>
    obtain ⟨first, rest⟩ := List.pairwise_cons.mp spaced
    have here := after x (by simp)
    rw [List.countP_cons]
    by_cases inside : x ≤ stop
    · have later := ih rest first (by omega)
      simp only [inside, decide_true, ↓reduceIte, Int.natCast_add, Int.natCast_one, Int.add_mul, Int.one_mul]
      omega
    · have none : times.countP (fun x => decide (x ≤ stop)) = 0 := by
        rw [List.countP_eq_zero]
        intro y member
        have next := first y member
        simp only [decide_eq_true_eq]
        omega
      simp only [none, inside, decide_false, Bool.false_eq_true, ↓reduceIte, Nat.add_zero, Int.natCast_zero,
        Int.zero_mul]
      omega

theorem count_between {start span : Int} (positive : 0 < gap) (spaced : Spaced gap times)
    (nonneg : 0 ≤ span) :
    (times.countP (fun x => decide (start ≤ x) && decide (x ≤ start + span)) : Int) ≤ 1 + span / gap := by
  have late : (times.filter fun x => decide (start ≤ x)).countP (fun x => decide (x ≤ start + span)) =
      times.countP (fun x => decide (start ≤ x) && decide (x ≤ start + span)) := by
    rw [List.countP_filter]
    apply List.countP_congr
    intro x _
    simp [and_comm]
  have after : ∀ x ∈ times.filter fun x => decide (start ≤ x), start ≤ x := by
    intro x member
    simpa using (List.mem_filter.mp member).2
  have taken := @count_until gap _ start (start + span) (Int.le_of_lt positive) (spaced.filter _) after
    (by omega)
  rw [late] at taken
  have fits := (Int.le_ediv_iff_mul_le positive).mpr taken
  have one : (start + span + gap - start) / gap = 1 + span / gap := by
    rw [show start + span + gap - start = span + gap by omega,
      Int.add_ediv_of_dvd_right (Int.dvd_refl gap), Int.ediv_self (by omega), Int.add_comm]
  rw [← one]
  exact fits

end Spacing
