import Mathlib.Data.Int.Init
import Mathlib.Tactic.Linarith

/-!
Fixed-width integer conversions, truncating division, error numbers and wall-clock
readings, as a C program computes them. Values are unbounded integers; each conversion reduces to
its width.
-/
namespace Words

def u32 (x : Int) : Int := x % 4294967296
def u64 (x : Int) : Int := x % 18446744073709551616
def s32 (x : Int) : Int := (x + 2147483648) % 4294967296 - 2147483648
def s64 (x : Int) : Int := (x + 9223372036854775808) % 18446744073709551616 - 9223372036854775808

def nat64 (n : Nat) : Nat := n % 18446744073709551616

def InU32 (x : Int) : Prop := 0 ≤ x ∧ x < 4294967296
def InU64 (x : Int) : Prop := 0 ≤ x ∧ x < 18446744073709551616
def InS32 (x : Int) : Prop := -2147483648 ≤ x ∧ x < 2147483648
def InS64 (x : Int) : Prop := -9223372036854775808 ≤ x ∧ x < 9223372036854775808

def eperm : Int := -1
def enoent : Int := -2
def eagain : Int := -11
def enomem : Int := -12
def efault : Int := -14
def ebusy : Int := -16
def eexist : Int := -17
def enodev : Int := -19
def einval : Int := -22
def erange : Int := -34
def enotsupp : Int := -524

instance (x : Int) : Decidable (InU32 x) := inferInstanceAs (Decidable (_ ∧ _))
instance (x : Int) : Decidable (InU64 x) := inferInstanceAs (Decidable (_ ∧ _))
instance (x : Int) : Decidable (InS32 x) := inferInstanceAs (Decidable (_ ∧ _))
instance (x : Int) : Decidable (InS64 x) := inferInstanceAs (Decidable (_ ∧ _))

theorem u32_in (x : Int) : InU32 (u32 x) := by simp only [InU32, u32]; omega
theorem u64_in (x : Int) : InU64 (u64 x) := by simp only [InU64, u64]; omega
theorem s32_in (x : Int) : InS32 (s32 x) := by simp only [InS32, s32]; omega

theorem s64_in (x : Int) : InS64 (s64 x) := by simp only [InS64, s64]; omega

theorem u32_of_in {x : Int} (range : InU32 x) : u32 x = x := by
  simp only [InU32, u32] at *; omega

theorem u64_of_in {x : Int} (range : InU64 x) : u64 x = x := by
  simp only [InU64, u64] at *; omega

theorem s32_of_in {x : Int} (range : InS32 x) : s32 x = x := by
  simp only [InS32, s32] at *; omega

theorem s64_of_in {x : Int} (range : InS64 x) : s64 x = x := by
  simp only [InS64, s64] at *; omega

theorem s64_add_left (a b : Int) : s64 (s64 a + b) = s64 (a + b) := by
  simp only [s64]; omega

theorem nat64_le (n : Nat) : nat64 n ≤ n := Nat.mod_le _ _

theorem s32_u32 {x : Int} (range : InS32 x) : s32 (u32 x) = x := by
  simp only [InS32, s32, u32] at *; omega

theorem reciprocal_stable (m k : Nat) (positive : 0 < k) (bound : k ≤ m) :
    m / (m / (m / k)) = m / k := by
  have first : 0 < m / k := Nat.div_pos bound positive
  have grows : k ≤ m / (m / k) :=
    (Nat.le_div_iff_mul_le first).mpr (by rw [Nat.mul_comm]; exact Nat.div_mul_le_self m k)
  apply Nat.le_antisymm
  · exact Nat.div_le_div_left grows positive
  · exact (Nat.le_div_iff_mul_le (by omega)).mpr
      (by rw [Nat.mul_comm]; exact Nat.div_mul_le_self m (m / k))

theorem tdiv_reciprocal_stable (m : Nat) (k : Int) (nonzero : k ≠ 0) (bound : k.natAbs ≤ m) :
    (m : Int).tdiv ((m : Int).tdiv ((m : Int).tdiv k)) = (m : Int).tdiv k := by
  have stable := reciprocal_stable m k.natAbs (by omega) bound
  rcases Int.natAbs_eq k with pos | neg
  · rw [pos]
    simp only [← Int.ofNat_tdiv]
    exact congrArg Int.ofNat stable
  · rw [neg]
    simp only [Int.tdiv_neg, ← Int.ofNat_tdiv, neg_inj]
    exact congrArg Int.ofNat stable

theorem tdiv_reciprocal_nonzero (m : Nat) (k : Int) (nonzero : k ≠ 0) (bound : k.natAbs ≤ m) :
    (m : Int).tdiv k ≠ 0 := by
  have first : 0 < m / k.natAbs := Nat.div_pos bound (by omega)
  rcases Int.natAbs_eq k with pos | neg
  · rw [pos, ← Int.ofNat_tdiv]; omega
  · rw [neg, Int.tdiv_neg, ← Int.ofNat_tdiv]; omega

theorem tdiv_reciprocal_bound (m : Nat) (k : Int) : ((m : Int).tdiv k).natAbs ≤ m := by
  rw [Int.natAbs_tdiv]
  exact Nat.div_le_self _ _

structure Timeval where
  tvSec : Int
  tvUsec : Int
  deriving DecidableEq, Repr

def Timeval.Normal (t : Timeval) : Prop := 0 ≤ t.tvUsec ∧ t.tvUsec < 1000000

def Timeval.usec (t : Timeval) : Int := t.tvSec * 1000000 + t.tvUsec

instance (t : Timeval) : Decidable t.Normal := inferInstanceAs (Decidable (_ ∧ _))

theorem sec_of_usec (t : Timeval) (normal : t.Normal) : t.usec / 1000000 = t.tvSec := by
  simp only [Timeval.Normal, Timeval.usec] at *; omega

theorem sec_le_of_usec_le {a b : Timeval} (na : a.Normal) (nb : b.Normal)
    (order : a.usec ≤ b.usec) : a.tvSec ≤ b.tvSec := by
  simp only [Timeval.Normal, Timeval.usec] at *; omega

end Words
