import Mathlib.Data.List.Induction
import LustreTools.Lib.Runs
import LustreTools.Qos.Table

/-!
The bandwidth meter of a client OSC: `calc_bandwidth` (metric.h), called for each bulk
reply by `qos_adjust` and with no bytes by `lprocfs_import_seq_show`, which then reports
the bytes of the last second. The meter of each direction starts zeroed.
-/
namespace QosBandwidth
open Words Runs QosRules QosAdjust QosTable

structure Call where
  op : Int
  bytesTransferred : Int
  now : Timeval
  deriving DecidableEq, Repr

def Call.perform (q : QosData) (c : Call) : QosData := calcBandwidth q c.op c.bytesTransferred c.now

def idle : Bandwidth := ⟨0, 0, 0⟩

def Idle (q : QosData) : Prop := q.read = idle ∧ q.write = idle

def meter (q : QosData) (op : Int) : Bandwidth := if op = 0 then q.read else q.write

def refreshCalls (first second : Timeval) : List Call := [⟨0, 0, first⟩, ⟨1, 0, second⟩]

def refresh (q : QosData) (first second : Timeval) : Int × Int :=
  let q := run Call.perform q (refreshCalls first second)
  (q.read.bwLastSec, q.write.bwLastSec)

/-- The second and the bytes of a call. -/
structure Event where
  sec : Int
  bytes : Int
  deriving DecidableEq, Repr

def eventsOf (op : Int) (calls : List Call) : List Event :=
  (calls.filter fun c => c.op = op).map fun c => ⟨c.now.tvSec, c.bytesTransferred⟩

def bytesIn (sec : Int) (es : List Event) : Int := ((es.filter fun e => e.sec = sec).map Event.bytes).sum

/-- The events whose second is a `valid` one and not below that of any earlier event. -/
def acceptedAfter (valid : Int → Bool) (earlier : List Event) : List Event → List Event
  | [] => []
  | e :: es =>
    (if valid e.sec ∧ ∀ d ∈ earlier, d.sec ≤ e.sec then [e] else []) ++
      acceptedAfter valid (earlier ++ [e]) es

def accepted (valid : Int → Bool) (es : List Event) : List Event := acceptedAfter valid [] es

def Largest (latest : Int) (es : List Event) : Prop :=
  (∃ e ∈ es, e.sec = latest) ∧ ∀ e ∈ es, e.sec ≤ latest

instance (latest : Int) (es : List Event) : Decidable (Largest latest es) :=
    inferInstanceAs (Decidable (_ ∧ _))

/-- The meter after the events: the accepted bytes of the latest second and of the one
    before it. -/
def Metered (valid : Int → Bool) (b : Bandwidth) (es : List Event) : Prop :=
  ∀ latest, Largest latest es →
    b.sumBytesThisSec = bytesIn latest (accepted valid es) ∧
      b.bwLastSec = bytesIn (latest - 1) (accepted valid es)

/-- The second run is the first with calls of no bytes inserted. -/
inductive Inserted : List Call → List Call → Prop
  | nil : Inserted [] []
  | keep (c : Call) {fewer more : List Call} : Inserted fewer more → Inserted (c :: fewer) (c :: more)
  | insert {c : Call} {fewer more : List Call} :
      c.bytesTransferred = 0 → Inserted fewer more → Inserted fewer (c :: more)

def NonDecreasing (calls : List Call) : Prop := calls.Pairwise fun a b => a.now.tvSec ≤ b.now.tvSec

/-- The second after a reading must not overflow a `long`. -/
def Call.Readable (c : Call) : Prop := c.now.tvSec < 9223372036854775807

instance (c : Call) : Decidable c.Readable := inferInstanceAs (Decidable (_ < _))

instance (calls : List Call) : Decidable (NonDecreasing calls) :=
    inferInstanceAs (Decidable (List.Pairwise _ _))

def sinceEpoch (sec : Int) : Bool := 0 ≤ sec

theorem accepted_after_snoc (valid : Int → Bool) (earlier es : List Event) (e : Event) :
    acceptedAfter valid earlier (es ++ [e]) =
      acceptedAfter valid earlier es ++
        if valid e.sec ∧ ∀ d ∈ earlier ++ es, d.sec ≤ e.sec then [e] else [] := by
  induction es generalizing earlier with
  | nil => simp [acceptedAfter]
  | cons d es ih =>
    rw [List.cons_append, acceptedAfter, acceptedAfter, ih, List.append_assoc, List.append_assoc]
    rfl

theorem accepted_snoc (valid : Int → Bool) (es : List Event) (e : Event) :
    accepted valid (es ++ [e]) =
      accepted valid es ++ if valid e.sec ∧ ∀ d ∈ es, d.sec ≤ e.sec then [e] else [] :=
  accepted_after_snoc valid [] es e

theorem accepted_mem {valid : Int → Bool} {es : List Event} :
    ∀ e ∈ accepted valid es, e ∈ es ∧ valid e.sec = true := by
  induction es using List.reverseRecOn with
  | nil => intro e member; cases member
  | append_singleton es d ih =>
    intro e member
    rw [accepted_snoc, List.mem_append] at member
    rcases member with before | last
    · obtain ⟨among, fine⟩ := ih e before
      exact ⟨List.mem_append_left _ among, fine⟩
    · split at last
      · rename_i fine
        rw [List.mem_singleton] at last
        subst last
        exact ⟨by simp, fine.1⟩
      · cases last

theorem bytes_append (sec : Int) (xs ys : List Event) :
    bytesIn sec (xs ++ ys) = bytesIn sec xs + bytesIn sec ys := by
  simp [bytesIn]

theorem bytes_cons (sec : Int) (e : Event) (es : List Event) :
    bytesIn sec (e :: es) = (if e.sec = sec then e.bytes else 0) + bytesIn sec es := by
  simp only [bytesIn, List.filter_cons, decide_eq_true_eq]
  split <;> simp

theorem bytes_single (sec : Int) (e : Event) : bytesIn sec [e] = if e.sec = sec then e.bytes else 0 := by
  rw [bytes_cons]
  exact Int.add_zero _

theorem bytes_none {sec : Int} {es : List Event} (none : ∀ e ∈ es, e.sec ≠ sec) : bytesIn sec es = 0 := by
  have empty : es.filter (fun e => e.sec = sec) = [] := by
    rw [List.filter_eq_nil_iff]
    intro e member
    simpa using none e member
  rw [bytesIn, empty]
  rfl

theorem bytes_nonneg {es : List Event} (nonneg : ∀ e ∈ es, 0 ≤ e.bytes) (sec : Int) : 0 ≤ bytesIn sec es := by
  induction es with
  | nil => exact Int.le_refl 0
  | cons e es ih =>
    have first := nonneg e (by simp)
    have rest := ih fun x member => nonneg x (by simp [member])
    rw [bytes_cons]
    split <;> omega

/-- The meter in terms of the events so far; `last_req_sec` is 0 until a later second is read. -/
structure Tracks (b : Bandwidth) (es : List Event) : Prop where
  range : 0 ≤ b.lastReqSec ∧ b.lastReqSec < 9223372036854775807
  upper : ∀ e ∈ es, e.sec ≤ b.lastReqSec
  reached : b.lastReqSec = 0 ∨ ∃ e ∈ es, e.sec = b.lastReqSec
  sum : b.sumBytesThisSec = u64 (bytesIn b.lastReqSec (accepted sinceEpoch es))
  last : b.bwLastSec = u64 (bytesIn (b.lastReqSec - 1) (accepted sinceEpoch es))

theorem idle_tracks : Tracks idle [] := by
  constructor
  · decide
  · intro e member
    cases member
  · exact Or.inl rfl
  · rfl
  · rfl

theorem u64_add_left (a b : Int) : u64 (u64 a + b) = u64 (a + b) := by
  simp only [u64]; omega

theorem later_none {b : Bandwidth} {es : List Event} (tracks : Tracks b es) {sec : Int}
    (later : b.lastReqSec < sec) : bytesIn sec (accepted sinceEpoch es) = 0 := by
  apply bytes_none
  intro e member
  have before := tracks.upper e (accepted_mem e member).1
  omega

theorem accepted_later {b : Bandwidth} {es : List Event} (tracks : Tracks b es) {e : Event}
    (later : b.lastReqSec ≤ e.sec) : accepted sinceEpoch (es ++ [e]) = accepted sinceEpoch es ++ [e] := by
  have start := tracks.range.1
  have fine : sinceEpoch e.sec = true ∧ ∀ d ∈ es, d.sec ≤ e.sec := by
    constructor
    · simp only [sinceEpoch, decide_eq_true_eq]
      omega
    · intro d member
      exact Int.le_trans (tracks.upper d member) later
  rw [accepted_snoc, if_pos fine]

theorem accepted_earlier {b : Bandwidth} {es : List Event} (tracks : Tracks b es) {e : Event}
    (earlier : e.sec < b.lastReqSec) : accepted sinceEpoch (es ++ [e]) = accepted sinceEpoch es := by
  have refused : ¬ (sinceEpoch e.sec = true ∧ ∀ d ∈ es, d.sec ≤ e.sec) := by
    intro fine
    rcases tracks.reached with zero | ⟨d, member, same⟩
    · have since := fine.1
      simp only [sinceEpoch, decide_eq_true_eq] at since
      omega
    · have before := fine.2 d member
      omega
  rw [accepted_snoc, if_neg refused, List.append_nil]

theorem tracks_later {b : Bandwidth} {es : List Event} (tracks : Tracks b es) {e : Event}
    (later : b.lastReqSec ≤ e.sec) (readable : e.sec < 9223372036854775807) {sum last : Int}
    (counts : sum = u64 (bytesIn e.sec (accepted sinceEpoch es) + e.bytes))
    (keeps : last = u64 (bytesIn (e.sec - 1) (accepted sinceEpoch es))) :
    Tracks ⟨e.sec, last, sum⟩ (es ++ [e]) := by
  have start := tracks.range.1
  constructor
  · exact ⟨Int.le_trans start later, readable⟩
  · intro d member
    rcases List.mem_append.mp member with before | final
    · exact Int.le_trans (tracks.upper d before) later
    · rw [List.mem_singleton.mp final]
  · exact Or.inr ⟨e, by simp, rfl⟩
  · rw [accepted_later tracks later, bytes_append, bytes_single, if_pos rfl, counts]
  · have other : ¬ e.sec = e.sec - 1 := by omega
    rw [accepted_later tracks later, bytes_append, bytes_single, if_neg other, Int.add_zero, keeps]

theorem tracks_step {b : Bandwidth} {es : List Event} (tracks : Tracks b es) {e : Event}
    (readable : e.sec < 9223372036854775807) : Tracks (Bandwidth.count b e.sec e.bytes) (es ++ [e]) := by
  obtain ⟨start, bound⟩ := tracks.range
  have next : s64 (b.lastReqSec + 1) = b.lastReqSec + 1 := s64_of_in (by constructor <;> omega)
  unfold Bandwidth.count
  rw [next]
  split
  · rename_i same
    rw [← same]
    apply tracks_later tracks (by omega) readable
    · rw [tracks.sum, u64_add_left, same]
    · rw [tracks.last, same]
  · split
    · rename_i other following
      apply tracks_later tracks (by omega) readable
      · rw [later_none tracks (by omega), Int.zero_add]
      · rw [tracks.sum, following, Int.add_sub_cancel]
    · split
      · rename_i skipped
        apply tracks_later tracks (by omega) readable
        · rw [later_none tracks (by omega), Int.zero_add]
        · rw [later_none tracks (by omega)]
          rfl
      · -- The clock went back: the call is ignored, and its event is not accepted.
        have earlier : e.sec < b.lastReqSec := by omega
        constructor
        · exact tracks.range
        · intro d member
          rcases List.mem_append.mp member with before | final
          · exact tracks.upper d before
          · rw [List.mem_singleton.mp final]
            exact Int.le_of_lt earlier
        · rcases tracks.reached with zero | ⟨d, member, same⟩
          · exact Or.inl zero
          · exact Or.inr ⟨d, List.mem_append_left _ member, same⟩
        · rw [accepted_earlier tracks earlier]
          exact tracks.sum
        · rw [accepted_earlier tracks earlier]
          exact tracks.last

theorem tracks_run {es : List Event} (readable : ∀ e ∈ es, e.sec < 9223372036854775807) :
    Tracks (es.foldl (fun b e => Bandwidth.count b e.sec e.bytes) idle) es := by
  induction es using List.reverseRecOn with
  | nil => exact idle_tracks
  | append_singleton es e ih =>
    have before := ih fun d member => readable d (List.mem_append_left _ member)
    rw [List.foldl_append, List.foldl_cons, List.foldl_nil]
    exact tracks_step before (readable e (by simp))

theorem tracks_largest {b : Bandwidth} {es : List Event} (tracks : Tracks b es) {latest : Int}
    (largest : Largest latest es) :
    b.sumBytesThisSec = u64 (bytesIn latest (accepted sinceEpoch es)) ∧
      b.bwLastSec = u64 (bytesIn (latest - 1) (accepted sinceEpoch es)) := by
  obtain ⟨⟨final, member, same⟩, upper⟩ := largest
  have below := tracks.upper final member
  rw [tracks.sum, tracks.last]
  by_cases since : 0 ≤ latest
  · have now : b.lastReqSec = latest := by
      rcases tracks.reached with zero | ⟨e, among, reached⟩
      · omega
      · have most := upper e among
        omega
    rw [now]
    exact ⟨rfl, rfl⟩
  · -- Only seconds before the epoch so far: nothing is accepted.
    have nothing : accepted sinceEpoch es = [] := by
      rw [List.eq_nil_iff_forall_not_mem]
      intro e among
      obtain ⟨read, valid⟩ := accepted_mem e among
      have most := upper e read
      simp only [sinceEpoch, decide_eq_true_eq] at valid
      omega
    rw [nothing]
    exact ⟨rfl, rfl⟩

theorem tracks_metered {b : Bandwidth} {es : List Event} (tracks : Tracks b es)
    (nonneg : ∀ e ∈ es, 0 ≤ e.bytes)
    (fits : ∀ sec, bytesIn sec (accepted sinceEpoch es) < 18446744073709551616) :
    Metered sinceEpoch b es := by
  have exactly : ∀ sec, u64 (bytesIn sec (accepted sinceEpoch es)) =
      bytesIn sec (accepted sinceEpoch es) := by
    intro sec
    have bytes : ∀ e ∈ accepted sinceEpoch es, 0 ≤ e.bytes :=
      fun e member => nonneg e (accepted_mem e member).1
    exact u64_of_in ⟨bytes_nonneg bytes sec, fits sec⟩
  intro latest largest
  obtain ⟨sum, last⟩ := tracks_largest tracks largest
  rw [sum, last, exactly, exactly]
  exact ⟨rfl, rfl⟩

def Sorted (es : List Event) : Prop := es.Pairwise fun a b => a.sec ≤ b.sec

theorem accepted_sorted {valid : Int → Bool} {es : List Event} (sorted : Sorted es) :
    accepted valid es = es.filter fun e => valid e.sec := by
  induction es using List.reverseRecOn with
  | nil => rfl
  | append_singleton es e ih =>
    obtain ⟨front, _, before⟩ := List.pairwise_append.mp sorted
    have ascending : ∀ d ∈ es, d.sec ≤ e.sec := fun d member => before d member e (by simp)
    rw [accepted_snoc, ih front, List.filter_append, List.filter_cons, List.filter_nil]
    by_cases fine : valid e.sec = true
    · rw [if_pos fine, if_pos ⟨fine, ascending⟩]
    · rw [if_neg fine, if_neg fun both => fine both.1]

theorem bytes_filter (valid : Int → Bool) (sec : Int) (es : List Event) :
    bytesIn sec (es.filter fun e => valid e.sec) = if valid sec then bytesIn sec es else 0 := by
  induction es with
  | nil => simp [bytesIn]
  | cons e es ih =>
    rw [List.filter_cons, bytes_cons]
    by_cases fine : valid e.sec = true
    · rw [if_pos fine, bytes_cons, ih]
      by_cases here : e.sec = sec
      · subst here
        rw [if_pos fine, if_pos fine]
      · rw [if_neg here, Int.zero_add, Int.zero_add]
    · rw [if_neg fine, ih]
      by_cases here : e.sec = sec
      · subst here
        rw [if_neg fine, if_neg fine]
      · rw [if_neg here, Int.zero_add]

theorem tracks_refreshed {b : Bandwidth} {es : List Event} {sec : Int} (tracks : Tracks b (es ++ [⟨sec, 0⟩]))
    (sorted : Sorted (es ++ [⟨sec, 0⟩])) :
    b.bwLastSec = u64 (if sinceEpoch (sec - 1) then bytesIn (sec - 1) es else 0) := by
  obtain ⟨_, _, before⟩ := List.pairwise_append.mp sorted
  have largest : Largest sec (es ++ [⟨sec, 0⟩]) := by
    constructor
    · exact ⟨⟨sec, 0⟩, by simp, rfl⟩
    · intro e member
      rcases List.mem_append.mp member with front | final
      · exact before e front ⟨sec, 0⟩ (by simp)
      · rw [List.mem_singleton.mp final]
  have other : ¬ sec = sec - 1 := by omega
  rw [(tracks_largest tracks largest).2, accepted_sorted sorted, bytes_filter, bytes_append, bytes_single,
    if_neg other, Int.add_zero]

theorem perform_meter {op : Int} (known : op = 0 ∨ op = 1) (q : QosData) (c : Call) :
    meter (c.perform q) op =
      if c.op = op then Bandwidth.count (meter q op) c.now.tvSec c.bytesTransferred else meter q op := by
  simp only [Call.perform, calcBandwidth]
  rcases known with rfl | rfl
  · by_cases read : c.op = 0
    · simp [read, meter]
    · by_cases write : c.op = 1 <;> simp [write, read, meter]
  · by_cases read : c.op = 0
    · simp [read, meter]
    · by_cases write : c.op = 1 <;> simp [write, read, meter]

theorem run_meter {op : Int} (known : op = 0 ∨ op = 1) (q : QosData) (calls : List Call) :
    meter (run Call.perform q calls) op =
      (eventsOf op calls).foldl (fun b e => Bandwidth.count b e.sec e.bytes) (meter q op) := by
  induction calls generalizing q with
  | nil => rfl
  | cons c calls ih =>
    rw [run_cons, ih, perform_meter known]
    simp only [eventsOf, List.filter_cons, decide_eq_true_eq]
    split
    · rw [List.map_cons, List.foldl_cons]
    · rfl

theorem events_mem {op : Int} {calls : List Call} {e : Event} (member : e ∈ eventsOf op calls) :
    ∃ c ∈ calls, c.op = op ∧ e = ⟨c.now.tvSec, c.bytesTransferred⟩ := by
  simp only [eventsOf, List.mem_map, List.mem_filter, decide_eq_true_eq] at member
  obtain ⟨c, ⟨among, mine⟩, rfl⟩ := member
  exact ⟨c, among, mine, rfl⟩

theorem run_tracks {op : Int} (known : op = 0 ∨ op = 1) {q : QosData} (fresh : Idle q) {calls : List Call}
    (readable : ∀ c ∈ calls, c.Readable) : Tracks (meter (run Call.perform q calls) op)
    (eventsOf op calls) := by
  have start : meter q op = idle := by
    unfold meter
    split
    · exact fresh.1
    · exact fresh.2
  rw [run_meter known, start]
  apply tracks_run
  intro e member
  obtain ⟨c, among, _, rfl⟩ := events_mem member
  exact readable c among

theorem inserted_bytes {fewer more : List Call} (inserted : Inserted fewer more) (op sec : Int) :
    bytesIn sec (eventsOf op fewer) = bytesIn sec (eventsOf op more) := by
  have cons (c : Call) (calls : List Call) : bytesIn sec (eventsOf op (c :: calls)) =
      (if c.op = op ∧ c.now.tvSec = sec then c.bytesTransferred else 0) +
        bytesIn sec (eventsOf op calls) := by
    simp only [eventsOf, List.filter_cons, decide_eq_true_eq]
    by_cases mine : c.op = op
    · rw [if_pos mine, List.map_cons, bytes_cons]
      simp only [mine, true_and]
    · simp only [mine, false_and, if_false, Int.zero_add]
  induction inserted with
  | nil => rfl
  | keep c _ ih => rw [cons, cons, ih]
  | insert zero _ ih => rw [cons, zero, ite_self, Int.zero_add, ih]

theorem events_append (op : Int) (xs ys : List Call) :
    eventsOf op (xs ++ ys) = eventsOf op xs ++ eventsOf op ys := by
  simp [eventsOf]

theorem events_sorted {calls : List Call} (sorted : NonDecreasing calls) (op : Int) :
    Sorted (eventsOf op calls) := by
  unfold Sorted eventsOf
  rw [List.pairwise_map]
  exact List.Pairwise.filter _ sorted

theorem refresh_reports {q : QosData} (fresh : Idle q) {calls : List Call} {first second : Timeval}
    (readable : ∀ c ∈ calls ++ refreshCalls first second, c.Readable)
    (sorted : NonDecreasing (calls ++ refreshCalls first second)) :
    refresh (run Call.perform q calls) first second =
      (u64 (if sinceEpoch (first.tvSec - 1) then bytesIn (first.tvSec - 1) (eventsOf 0 calls) else 0),
        u64 (if sinceEpoch (second.tvSec - 1) then bytesIn (second.tvSec - 1)
          (eventsOf 1 calls) else 0)) := by
  have whole : refresh (run Call.perform q calls) first second =
      ((meter (run Call.perform q (calls ++ refreshCalls first second)) 0).bwLastSec,
        (meter (run Call.perform q (calls ++ refreshCalls first second)) 1).bwLastSec) := by
    rw [run_append]
    rfl
  have reads := run_tracks (Or.inl rfl) fresh readable
  have writes := run_tracks (Or.inr rfl) fresh readable
  have readsSorted := events_sorted sorted 0
  have writesSorted := events_sorted sorted 1
  rw [events_append] at reads writes readsSorted writesSorted
  rw [whole, tracks_refreshed reads readsSorted, tracks_refreshed writes writesSorted]

theorem inserted_sublist {fewer more : List Call} (inserted : Inserted fewer more) : fewer.Sublist more := by
  induction inserted with
  | nil => exact List.Sublist.slnil
  | keep c _ ih => exact List.Sublist.cons_cons c ih
  | insert _ _ ih => exact List.Sublist.cons _ ih

theorem refresh_inserted {q : QosData} (fresh : Idle q) {fewer more : List Call} {first second : Timeval}
    (inserted : Inserted fewer more) (readable : ∀ c ∈ more ++ refreshCalls first second, c.Readable)
    (sorted : NonDecreasing (more ++ refreshCalls first second)) :
    refresh (run Call.perform q fewer) first second = refresh (run Call.perform q more) first second := by
  have sublist : (fewer ++ refreshCalls first second).Sublist (more ++ refreshCalls first second) :=
    List.Sublist.append_right (inserted_sublist inserted) _
  rw [refresh_reports fresh readable sorted,
    refresh_reports fresh (fun c member => readable c (sublist.subset member)) (sorted.sublist sublist),
    inserted_bytes inserted, inserted_bytes inserted]

/-- After every run the meter of a direction has the accepted bytes of its latest second
    and of the second before, and refreshes are not seen by later ones. -/
theorem bandwidth_metered {q : QosData} (fresh : Idle q) :
    (∀ calls : List Call, (∀ c ∈ calls, 0 ≤ c.bytesTransferred ∧ c.Readable) →
      ∀ op : Int, (op = 0 ∨ op = 1) →
        (∀ sec, bytesIn sec (accepted sinceEpoch (eventsOf op calls)) < 18446744073709551616) →
        Metered sinceEpoch (meter (run Call.perform q calls) op) (eventsOf op calls)) ∧
      ∀ (fewer more : List Call) (first second : Timeval), Inserted fewer more →
        (∀ c ∈ more ++ refreshCalls first second, c.Readable) →
        NonDecreasing (more ++ refreshCalls first second) →
        refresh (run Call.perform q fewer) first second = refresh (run Call.perform q more) first second := by
  constructor
  · intro calls good op known fits
    apply tracks_metered (run_tracks known fresh fun c member => (good c member).2) _ fits
    intro e member
    obtain ⟨c, among, _, rfl⟩ := events_mem member
    exact (good c among).1
  · intro fewer more first second inserted readable sorted
    exact refresh_inserted fresh inserted readable sorted

theorem bandwidth_metered_two_reads :
    Metered sinceEpoch (meter (run Call.perform (initQos 8) [⟨0, 5, ⟨3, 0⟩⟩, ⟨0, 7, ⟨4, 0⟩⟩]) 0)
      [⟨3, 5⟩, ⟨4, 7⟩] ∧
      refresh (run Call.perform (initQos 8) [⟨0, 5, ⟨3, 0⟩⟩]) ⟨4, 0⟩ ⟨4, 1⟩ =
        refresh (run Call.perform (initQos 8) [⟨0, 5, ⟨3, 0⟩⟩, ⟨0, 0, ⟨3, 9⟩⟩]) ⟨4, 0⟩ ⟨4, 1⟩ := by
  have metered := bandwidth_metered (q := initQos 8) ⟨rfl, rfl⟩
  constructor
  · apply metered.1 _ (by decide) 0 (Or.inl rfl)
    intro sec
    have events : accepted sinceEpoch (eventsOf 0 [⟨0, 5, ⟨3, 0⟩⟩, ⟨0, 7, ⟨4, 0⟩⟩]) =
        [⟨3, 5⟩, ⟨4, 7⟩] := by decide
    rw [events, bytes_cons, bytes_single]
    dsimp only
    split <;> split <;> omega
  · exact metered.2 _ _ _ _ (.keep _ (.insert rfl .nil)) (by decide) (by decide)

/-- Five bytes read in a second before the epoch are not counted, and after the last second
    of a `long` an earlier one is. -/
theorem reading_outside_not_metered :
    ¬ Metered (fun _ => true) (meter (run Call.perform (initQos 8) [⟨0, 5, ⟨-1, 0⟩⟩]) 0)
        (eventsOf 0 [⟨0, 5, ⟨-1, 0⟩⟩]) ∧
      ¬ Metered (fun _ => true)
        (meter (run Call.perform (initQos 8) [⟨0, 5, ⟨9223372036854775807, 0⟩⟩, ⟨0, 7, ⟨3, 0⟩⟩]) 0)
        (eventsOf 0 [⟨0, 5, ⟨9223372036854775807, 0⟩⟩, ⟨0, 7, ⟨3, 0⟩⟩]) := by
  constructor
  · intro metered
    exact absurd (metered (-1) (by decide +kernel)).1 (by decide +kernel)
  · intro metered
    exact absurd (metered 9223372036854775807 (by decide +kernel)).1 (by decide +kernel)

end QosBandwidth
