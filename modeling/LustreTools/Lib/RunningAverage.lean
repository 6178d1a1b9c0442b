import Mathlib.Data.List.Basic
import Mathlib.Data.Int.Init

/-!
An average of integers that is kept one sample at a time: the `n`-th sample moves it by an
`n`-th of the distance, rounded towards zero. It never leaves the range of the samples.
-/
namespace RunningAverage

def nextAverage (average sample count : Int) : Int := average + (sample - average).tdiv count

def Between (average : Int) (samples : List Int) : Prop :=
  (∃ x ∈ samples, x ≤ average) ∧ ∃ y ∈ samples, average ≤ y

/-- What the average is after these samples; it starts at zero. -/
def Averages (average : Int) (samples : List Int) : Prop :=
  (samples = [] → average = 0) ∧ (samples ≠ [] → Between average samples)

variable {average sample count : Int} {samples : List Int}

theorem tdiv_toward {d n : Int} (positive : 0 < n) :
    (0 ≤ d → 0 ≤ d.tdiv n ∧ d.tdiv n ≤ d) ∧ (d ≤ 0 → d ≤ d.tdiv n ∧ d.tdiv n ≤ 0) := by
  have up {e : Int} (nonneg : 0 ≤ e) : 0 ≤ e.tdiv n ∧ e.tdiv n ≤ e := by
    rw [Int.tdiv_eq_ediv_of_nonneg nonneg]
    exact ⟨Int.ediv_nonneg nonneg (by omega), Int.ediv_le_self n nonneg⟩
  constructor
  · exact up
  · intro nonpos
    have mirrored := up (e := -d) (by omega)
    rw [Int.neg_tdiv] at mirrored
    omega

theorem next_toward (positive : 0 < count) :
    (average ≤ sample → average ≤ nextAverage average sample count ∧
      nextAverage average sample count ≤ sample) ∧
    (sample ≤ average → sample ≤ nextAverage average sample count ∧
      nextAverage average sample count ≤ average) := by
  obtain ⟨up, down⟩ := @tdiv_toward (sample - average) count positive
  unfold nextAverage
  constructor
  · intro above
    have moved := up (by omega)
    omega
  · intro below
    have moved := down (by omega)
    omega

theorem next_inside {high : Int} (positive : 0 < count) (old : 0 ≤ average ∧ average < high)
    (new : 0 ≤ sample ∧ sample < high) :
    0 ≤ nextAverage average sample count ∧ nextAverage average sample count < high := by
  obtain ⟨up, down⟩ := @next_toward average sample count positive
  by_cases above : average ≤ sample
  · have moved := up above
    omega
  · have moved := down (by omega)
    omega

theorem next_averages (averages : Averages average samples) (counted : count = samples.length + 1) :
    Averages (nextAverage average sample count) (samples ++ [sample]) := by
  constructor
  · intro empty
    simp at empty
  · intro _
    by_cases first : samples = []
    · have one : count = 1 := by simp [counted, first]
      have same : nextAverage average sample count = sample := by
        rw [nextAverage, averages.1 first, one, Int.tdiv_one]
        omega
      rw [same, first]
      exact ⟨⟨sample, by simp, Int.le_refl _⟩, ⟨sample, by simp, Int.le_refl _⟩⟩
    · obtain ⟨⟨x, memberX, low⟩, ⟨y, memberY, high⟩⟩ := averages.2 first
      obtain ⟨up, down⟩ := @next_toward average sample count (by omega)
      by_cases above : average ≤ sample
      · have moved := up above
        exact ⟨⟨x, by simp [memberX], by omega⟩, ⟨sample, by simp, moved.2⟩⟩
      · have moved := down (by omega)
        exact ⟨⟨sample, by simp, moved.1⟩, ⟨y, by simp [memberY], by omega⟩⟩

theorem between_inside {low high : Int} (between : Between average samples)
    (inside : ∀ x ∈ samples, low ≤ x ∧ x < high) : low ≤ average ∧ average < high := by
  obtain ⟨⟨x, memberX, above⟩, ⟨y, memberY, below⟩⟩ := between
  have first := inside x memberX
  have second := inside y memberY
  omega

theorem averages_inside {high : Int} (averages : Averages average samples) (positive : 0 < high)
    (inside : ∀ x ∈ samples, 0 ≤ x ∧ x < high) : 0 ≤ average ∧ average < high := by
  by_cases empty : samples = []
  · rw [averages.1 empty]
    omega
  · exact between_inside (averages.2 empty) inside

end RunningAverage
