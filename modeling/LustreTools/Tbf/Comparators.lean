import LustreTools.SscdtPolicy
import LustreTools.Tbf.Policy

/-!
The three time-window comparators as orders. The one of the SSCDT policy and the one of
the TBF policy that compares peers are the lexicographic order of window, nid and pid.
The one that compares job ids returns the value of `strcmp` where a truth value is
expected, and is an order only among clients that it need not tell apart by it.
-/
namespace TbfComparators
open Words Text BinHeap TimeWindow SscdtPolicy TbfPolicy

/-- Sent at a time that is not negative and whose milliseconds do not overflow. -/
def Sent (a : Stamp) : Prop := 0 ≤ a.rqSent ∧ a.rqSent * 1000 < 9223372036854775808

instance (a : Stamp) : Decidable (Sent a) := inferInstanceAs (Decidable (_ ∧ _))

def windowKey (interval : Int) (a : Stamp) : ℤ ×ₗ (ℕ ×ₗ ℕ) :=
  toLex (a.rqSent * 1000 / interval, toLex (a.nid, a.pid))

theorem sent_in_range {a : Stamp} (sent : Sent a) : SentInRange a.rqSent := by
  simp only [Sent, SentInRange, InS64] at *
  omega

theorem window_eq {interval : Int} {a : Stamp} (sent : Sent a) :
    window interval a.rqSent = a.rqSent * 1000 / interval := by
  rw [window, Int.tdiv_eq_ediv_of_nonneg]
  have early := sent.1
  omega

theorem stamp_compare_lexicographic {interval : Int} (positive : 0 < interval) {a b : Stamp}
    (sa : Sent a) (sb : Sent b) :
    stampCompare interval a b = true ↔ windowKey interval a < windowKey interval b := by
  have width : (interval.natAbs : Int) = interval := by omega
  rw [stamp_compare_iff interval (sent_in_range sa) (sent_in_range sb), width]
  simp only [stampKey, windowKey, window_eq sa, window_eq sb]

/-- Both comparators are the lexicographic order of window, nid and pid, hence strict weak
    orders, and they agree wherever they read the same stamps. -/
theorem window_comparators_lexicographic (interval : Int) (nonzero : interval ≠ 0) :
    (InU32 interval →
      (∀ a b : SscdtPolicy.Request, Sent a.stamp → Sent b.stamp →
        (sscdtReqCompare interval a b = true ↔
          windowKey interval a.stamp < windowKey interval b.stamp)) ∧
      StrictWeakOn (sscdtReqCompare interval) (fun a => Sent a.stamp)) ∧
    (0 < interval → InS32 interval →
      (∀ a b : Client, Sent a.stamp → Sent b.stamp →
        (sscdtReqCompareNid interval a b = true ↔
          windowKey interval a.stamp < windowKey interval b.stamp)) ∧
      StrictWeakOn (sscdtReqCompareNid interval) (fun a => Sent a.stamp) ∧
      ∀ (a b : Client) (r s : SscdtPolicy.Request), Sent a.stamp → Sent b.stamp →
        r.stamp = a.stamp → s.stamp = b.stamp →
          sscdtReqCompare interval r s = sscdtReqCompareNid interval a b) := by
  constructor
  · intro range
    have positive : 0 < interval := by
      simp only [InU32] at range
      omega
    have by_key (a b : SscdtPolicy.Request) (sa : Sent a.stamp) (sb : Sent b.stamp) :=
      stamp_compare_lexicographic positive sa sb
    exact ⟨by_key, strict_of_key (fun a : SscdtPolicy.Request => windowKey interval a.stamp) by_key⟩
  · intro positive _
    have by_key (a b : Client) (sa : Sent a.stamp) (sb : Sent b.stamp) :=
      stamp_compare_lexicographic positive sa sb
    constructor
    · exact by_key
    constructor
    · exact strict_of_key (fun a : Client => windowKey interval a.stamp) by_key
    · intro a b r s _ _ first second
      rw [sscdtReqCompare, sscdtReqCompareNid, first, second]

theorem window_comparators_two_requests :
    sscdtReqCompare 1000 ⟨0, ⟨1, 5, 0⟩⟩ ⟨1, ⟨2, 3, 0⟩⟩ = true ∧
      sscdtReqCompareNid 1000 ⟨⟨1, 5, 0⟩, [], 0, 0, 0, 0, 0, [], false⟩
        ⟨⟨2, 3, 0⟩, [], 0, 0, 0, 0, 0, [], false⟩ = true ∧
      StrictWeakOn (sscdtReqCompare 1000) (fun a => Sent a.stamp) ∧
      StrictWeakOn (sscdtReqCompareNid 1000) (fun a => Sent a.stamp) := by
  have both := window_comparators_lexicographic 1000 (by decide)
  have own := both.1 (by decide)
  have peer := both.2 (by decide) (by decide)
  have before : windowKey 1000 ⟨1, 5, 0⟩ < windowKey 1000 ⟨2, 3, 0⟩ := by
    rw [windowKey, windowKey, Prod.Lex.toLex_lt_toLex]
    exact Or.inl (by decide)
  constructor
  · exact (own.1 _ _ (by decide) (by decide)).mpr before
  constructor
  · exact (peer.1 _ _ (by decide) (by decide)).mpr before
  · exact ⟨own.2, peer.2.1⟩

def JobBefore (interval : Int) (a b : Client) : Prop :=
  a.stamp.rqSent * 1000 / interval < b.stamp.rqSent * 1000 / interval ∨
    a.stamp.rqSent * 1000 / interval = b.stamp.rqSent * 1000 / interval ∧
      (a.stamp.nid < b.stamp.nid ∨ a.stamp.nid = b.stamp.nid ∧ strcmp a.tcJobid b.tcJobid < 0)

/-- Clients that the comparator cannot tell apart by window or nid have one job id. -/
def OneJob (interval : Int) (among : Client → Prop) : Prop :=
  ∀ a b, among a → among b →
    a.stamp.rqSent * 1000 / interval = b.stamp.rqSent * 1000 / interval →
      a.stamp.nid = b.stamp.nid → a.tcJobid = b.tcJobid

theorem strcmp_self (text : List Char) : strcmp text text = 0 := (strcmp_eq_zero text text).mpr rfl

theorem jobid_compare_iff {interval : Int} (positive : 0 < interval) {a b : Client}
    (sa : Sent a.stamp) (sb : Sent b.stamp) :
    sscdtReqCompareJobid interval a b = true ↔
      a.stamp.rqSent * 1000 / interval < b.stamp.rqSent * 1000 / interval ∨
        a.stamp.rqSent * 1000 / interval = b.stamp.rqSent * 1000 / interval ∧
          (a.stamp.nid < b.stamp.nid ∨ a.stamp.nid = b.stamp.nid ∧ a.tcJobid ≠ b.tcJobid) := by
  have width : (interval.natAbs : Int) = interval := by omega
  have windows := time_window_eq_iff interval (sent_in_range sa) (sent_in_range sb)
  have order (different : window interval.natAbs a.stamp.rqSent ≠ window interval.natAbs b.stamp.rqSent) :=
    sent_lt_iff_window_lt different
  simp only [width, window_eq sa, window_eq sb] at windows order
  simp only [sscdtReqCompareJobid, windowCompare]
  by_cases same : a.stamp.rqSent * 1000 / interval = b.stamp.rqSent * 1000 / interval
  · rw [if_neg (not_not.mpr (windows.mpr same))]
    by_cases peer : a.stamp.nid = b.stamp.nid
    · simp [same, peer, strcmp_eq_zero]
    · simp [same, peer]
  · rw [if_pos (fun equal => same (windows.mp equal))]
    simp [same, order same]

theorem jobid_by_window_and_nid {interval : Int} (positive : 0 < interval) {among : Client → Prop}
    (sent : ∀ a, among a → Sent a.stamp) (one : OneJob interval among) (a b : Client)
    (ma : among a) (mb : among b) :
    sscdtReqCompareJobid interval a b = true ↔
      toLex (a.stamp.rqSent * 1000 / interval, a.stamp.nid) <
        toLex (b.stamp.rqSent * 1000 / interval, b.stamp.nid) := by
  rw [jobid_compare_iff positive (sent a ma) (sent b mb), Prod.Lex.toLex_lt_toLex]
  have job := one a b ma mb
  tauto

theorem job_before_iff {interval : Int} {among : Client → Prop} (one : OneJob interval among)
    {a b : Client} (ma : among a) (mb : among b) :
    JobBefore interval a b ↔
      toLex (a.stamp.rqSent * 1000 / interval, a.stamp.nid) <
        toLex (b.stamp.rqSent * 1000 / interval, b.stamp.nid) := by
  rw [JobBefore, Prod.Lex.toLex_lt_toLex]
  have never (window : a.stamp.rqSent * 1000 / interval = b.stamp.rqSent * 1000 / interval)
      (nid : a.stamp.nid = b.stamp.nid) : ¬ strcmp a.tcJobid b.tcJobid < 0 := by
    rw [one a b ma mb window nid, strcmp_self]
    exact Int.lt_irrefl 0
  tauto

/-- On any set of clients the job-id comparator is the strict lexicographic order by window,
    nid and job id exactly when no two of them differ in the job id alone. -/
theorem jobid_comparator_ordered_iff (interval : Int) (positive : 0 < interval)
    (among : Client → Prop) (sent : ∀ a, among a → Sent a.stamp) :
    (StrictWeakOn (sscdtReqCompareJobid interval) among ∧
      ∀ a b, among a → among b →
        (sscdtReqCompareJobid interval a b = true ↔ JobBefore interval a b)) ↔
      OneJob interval among := by
  constructor
  · intro ordered a b ma mb window nid
    by_contra different
    -- Both directions hold, since `strcmp` of two different texts is never zero.
    have forward := (jobid_compare_iff positive (sent a ma) (sent b mb)).mpr
      (Or.inr ⟨window, Or.inr ⟨nid, different⟩⟩)
    have backward := (jobid_compare_iff positive (sent b mb) (sent a ma)).mpr
      (Or.inr ⟨window.symm, Or.inr ⟨nid.symm, fun same => different same.symm⟩⟩)
    have one_way := ordered.1.asymmetric a b ma mb forward
    rw [backward] at one_way
    cases one_way
  · intro one
    constructor
    · exact strict_of_key (fun a : Client => toLex (a.stamp.rqSent * 1000 / interval, a.stamp.nid))
        (jobid_by_window_and_nid positive sent one)
    · intro a b ma mb
      rw [jobid_by_window_and_nid positive sent one a b ma mb, job_before_iff one ma mb]

def jobClient (stamp : Stamp) (job : List Char) : Client :=
  ⟨stamp, job, 0, 0, 0, 0, 0, [], false⟩

theorem jobid_comparator_two_nids :
    let clients : Client → Prop := fun c =>
      c = jobClient ⟨1, 5, 0⟩ ['c', 'p', '.', '0'] ∨ c = jobClient ⟨1, 7, 0⟩ ['d', 'd', '.', '0']
    StrictWeakOn (sscdtReqCompareJobid 1000) clients := by
  intro clients
  have sent (a : Client) (member : clients a) : Sent a.stamp := by
    rcases member with first | second
    · rw [first]; decide
    · rw [second]; decide
  apply ((jobid_comparator_ordered_iff 1000 (by decide) clients sent).mpr ?_).1
  intro a b ma mb _ nid
  rcases ma with rfl | rfl <;> rcases mb with rfl | rfl
  · rfl
  · cases nid
  · cases nid
  · rfl

/-- Two clients of one window and one nid with different jobs each go before the other. -/
theorem jobid_comparator_both_ways :
    Sent (jobClient ⟨1, 5, 0⟩ ['c', 'p', '.', '0']).stamp ∧
      sscdtReqCompareJobid 1000 (jobClient ⟨1, 5, 0⟩ ['c', 'p', '.', '0'])
        (jobClient ⟨1, 5, 0⟩ ['d', 'd', '.', '0']) = true ∧
      sscdtReqCompareJobid 1000 (jobClient ⟨1, 5, 0⟩ ['d', 'd', '.', '0'])
        (jobClient ⟨1, 5, 0⟩ ['c', 'p', '.', '0']) = true := by
  decide

end TbfComparators
