import Mathlib.Data.List.Basic

/-!
A token bucket: it holds at most `depth` tokens, gains `rate` of them in `scale` units
of time, rounded down at each grant, and gives one away at each grant. `Grants` leaves
open how many tokens a grant forgets, so it also covers a bucket whose arithmetic wraps.
-/
namespace TokenBucket

/-- Grants at the given times by a bucket that held `tokens` at time `check`. -/
inductive Grants (scale rate depth : Nat) : Nat → Nat → List Nat → Prop where
  | nil (tokens check : Nat) : Grants scale rate depth tokens check []
  | cons {tokens check now available : Nat} {times : List Nat} (later : check ≤ now)
      (positive : 0 < available) (refilled : available ≤ tokens + rate * (now - check) / scale)
      (capped : available ≤ depth) (rest : Grants scale rate depth (available - 1) now times) :
      Grants scale rate depth tokens check (now :: times)

variable {scale rate depth tokens check : Nat} {times : List Nat}

theorem grants_after (grants : Grants scale rate depth tokens check times) :
    ∀ now ∈ times, check ≤ now := by
  induction grants with
  | nil => simp
  | cons later positive refilled capped rest ih =>
    intro now member
    rcases List.mem_cons.mp member with rfl | further
    · exact later
    · exact Nat.le_trans later (ih now further)

theorem none_until (grants : Grants scale rate depth tokens check times) {t : Nat}
    (early : t < check) (p : Nat → Bool) : times.countP (fun now => p now && decide (now ≤ t)) = 0 := by
  rw [List.countP_eq_zero]
  intro now member
  have after := grants_after grants now member
  simp only [Bool.and_eq_true, decide_eq_true_eq, not_and]
  omega

theorem refill_split (rate scale : Nat) {a b c : Nat} (ab : a ≤ b) (bc : b ≤ c) :
    rate * (b - a) / scale + rate * (c - b) / scale ≤ rate * (c - a) / scale := by
  have whole : rate * (c - a) = rate * (b - a) + rate * (c - b) := by
    rw [← Nat.mul_add]
    congr 1
    omega
  rw [whole]
  exact Nat.div_add_div_le_add_div

theorem grants_until (grants : Grants scale rate depth tokens check times) (t : Nat) (p : Nat → Bool) :
    times.countP (fun now => p now && decide (now ≤ t)) ≤ tokens + rate * (t - check) / scale := by
  induction grants with
  | nil => simp
  | @cons tokens check now available times later positive refilled capped rest ih =>
    rw [List.countP_cons]
    by_cases inside : now ≤ t
    · have split := refill_split rate scale later inside
      have one : (if (p now && decide (now ≤ t)) = true then 1 else 0) ≤ 1 := by split <;> omega
      omega
    · have empty := none_until rest (Nat.lt_of_not_le inside) p
      simp [empty, inside]

theorem grants_between (grants : Grants scale rate depth tokens check times) (s t : Nat) :
    times.countP (fun now => decide (s ≤ now) && decide (now ≤ t)) ≤ depth + rate * (t - s) / scale := by
  induction grants with
  | nil => simp
  | @cons tokens check now available times later positive refilled capped rest ih =>
    rw [List.countP_cons]
    by_cases start : s ≤ now
    · by_cases inside : now ≤ t
      · have after := grants_until rest t (fun now => decide (s ≤ now))
        have shorter : rate * (t - now) / scale ≤ rate * (t - s) / scale :=
          Nat.div_le_div_right (Nat.mul_le_mul_left _ (by omega))
        have one : (if (decide (s ≤ now) && decide (now ≤ t)) = true then 1 else 0) ≤ 1 := by
          split <;> omega
        omega
      · simpa [inside] using ih
    · simpa [start] using ih

end TokenBucket
