import LustreTools.Lib.BinaryHeap
import LustreTools.Lib.Words
import Mathlib.Data.Prod.Lex

/-!
The time-window comparison that the SSCDT policy and the TBF policy share: requests
are put in windows of `interval` milliseconds by the second they were sent, and
ordered by peer inside a window. The comparators read `rq_sent` in seconds.
-/
namespace TimeWindow
open Words BinHeap

structure Stamp where
  rqSent : Int
  nid : Nat
  pid : Nat
  deriving DecidableEq, Repr

/-- `(req->rq_sent) * 1000 / interval` as computed: a signed product and quotient,
    stored in a `__u64`. -/
def timeWindow (interval sent : Int) : Int := u64 ((s64 (sent * 1000)).tdiv interval)

def windowCompare (interval sent1 sent2 : Int) (within : Bool) : Bool :=
  if timeWindow interval sent1 ≠ timeWindow interval sent2 then decide (sent1 < sent2) else within

def stampCompare (interval : Int) (a b : Stamp) : Bool :=
  windowCompare interval a.rqSent b.rqSent
    (if a.nid = b.nid then decide (a.pid < b.pid) else decide (a.nid < b.nid))

def window (interval sent : Int) : Int := (sent * 1000).tdiv interval

def SentInRange (sent : Int) : Prop := InS64 (sent * 1000)

def stampKey (interval : Int) (a : Stamp) : ℤ ×ₗ (ℕ ×ₗ ℕ) :=
  toLex (window interval a.rqSent, toLex (a.nid, a.pid))

theorem u64_injective {x y : Int} (rx : InS64 x) (ry : InS64 y) (same : u64 x = u64 y) : x = y := by
  simp only [InS64, u64] at *; omega

theorem window_in_range {interval sent : Int} (range : SentInRange sent) :
    InS64 (window interval sent) := by
  have bound : (window interval sent).natAbs ≤ (sent * 1000).natAbs := by
    rw [window, Int.natAbs_tdiv]
    exact Nat.div_le_self _ _
  simp only [SentInRange, InS64] at *
  omega

theorem time_window_eq_iff (interval : Int) {a b : Int} (ra : SentInRange a) (rb : SentInRange b) :
    timeWindow interval a = timeWindow interval b ↔
      window interval.natAbs a = window interval.natAbs b := by
  have computed (s : Int) (range : SentInRange s) :
      timeWindow interval s = u64 (window interval s) := by
    rw [timeWindow, s64_of_in range, window]
  have same : timeWindow interval a = timeWindow interval b ↔
      window interval a = window interval b := by
    rw [computed a ra, computed b rb]
    exact ⟨u64_injective (window_in_range ra) (window_in_range rb), fun h => by rw [h]⟩
  rw [same]
  rcases Int.natAbs_eq interval with pos | neg
  · rw [← pos]
  · have flip (s : Int) : window interval s = -window interval.natAbs s := by
      rw [window, window, ← Int.tdiv_neg, ← neg]
    rw [flip a, flip b, Int.neg_inj]

theorem window_mono (n : Nat) {a b : Int} (le : a ≤ b) : window n a ≤ window n b := by
  cases n with
  | zero => simp [window]
  | succ n => exact Int.tdiv_le_tdiv (by omega) (by omega)

theorem sent_lt_iff_window_lt {n : Nat} {a b : Int} (different : window n a ≠ window n b) :
    a < b ↔ window n a < window n b := by
  constructor
  · intro lt
    have le := window_mono n (Int.le_of_lt lt)
    omega
  · intro lt
    by_contra ge
    have le := window_mono n (Int.not_lt.mp ge)
    omega

theorem stamp_compare_iff (interval : Int) {a b : Stamp}
    (ra : SentInRange a.rqSent) (rb : SentInRange b.rqSent) :
    stampCompare interval a b = true ↔ stampKey interval.natAbs a < stampKey interval.natAbs b := by
  have windows := time_window_eq_iff interval ra rb
  simp only [stampCompare, windowCompare, stampKey, Prod.Lex.toLex_lt_toLex]
  generalize interval.natAbs = n at *
  by_cases same : window n a.rqSent = window n b.rqSent
  · rw [if_neg (not_not.mpr (windows.mpr same))]
    by_cases peer : a.nid = b.nid
    · simp [peer, same]
    · simp [peer, same]
  · rw [if_pos (fun h => same (windows.mp h))]
    have order := sent_lt_iff_window_lt same
    simp [same, order]

theorem not_after_stamp_iff (interval : Int) {a b : Stamp}
    (ra : SentInRange a.rqSent) (rb : SentInRange b.rqSent) :
    NotAfter (stampCompare interval) a b ↔
      stampKey interval.natAbs a ≤ stampKey interval.natAbs b := by
  have ab := stamp_compare_iff interval ra rb
  have ba := stamp_compare_iff interval rb ra
  rw [NotAfter, ab, ← Bool.not_eq_true, ba, not_lt]
  exact ⟨fun h => h.elim le_of_lt id, Or.inr⟩

end TimeWindow
