import LustreTools.Lib.RunningAverage
import LustreTools.Qos.Ewma

/-!
The statistics that `qos_adjust` keeps for each rule: how often it was applied, and the
averages of the three values that were seen then. A run starts when a table is installed.
-/
namespace QosRuleStats
open Runs Words RunningAverage QosRules QosAdjust QosTable QosEwma

structure Sample where
  ack : Int
  sent : Int
  ratio : Int
  deriving DecidableEq, Repr

def Contains (r : Rule) (x : Sample) : Prop :=
  (r.ackEwmaLower ≤ x.ack ∧ x.ack < r.ackEwmaUpper) ∧
    (r.sendEwmaLower ≤ x.sent ∧ x.sent < r.sendEwmaUpper) ∧
    (r.rttRatio100Lower ≤ x.ratio ∧ x.ratio < r.rttRatio100Upper)

instance (r : Rule) (x : Sample) : Decidable (Contains r x) :=
  inferInstanceAs (Decidable ((_ ∧ _) ∧ (_ ∧ _) ∧ (_ ∧ _)))

section
variable (timevalSub : Timeval → Timeval → Int)

def chosen (s : Machine) (call : Call) : List (Nat × Sample) :=
  if s.oops then []
  else match call with
  | .reply c =>
    match measure timevalSub c s.qos with
    | .error _ => []
    | .ok (_, ack, sent, ratio) =>
      if c.hasImport then
        ((s.qos.entries.findIdx? fun r => Contains r ⟨ack, sent, ratio⟩).map
          fun i => (i, (⟨ack, sent, ratio⟩ : Sample))).toList
      else []
  | _ => []

/-- What one call does to the rules: nothing, or one rule is updated, which contains the values
    and comes before every other that does. A call whose measurement faults does nothing. -/
structure CallOk (s : Machine) (call : Call) : Prop where
  idle : chosen timevalSub s call = [] →
    (step timevalSub s call).qos.entries = s.qos.entries ∧
      (step timevalSub s call).qos.minUsecBetweenRpcs = s.qos.minUsecBetweenRpcs
  one : ∀ i x, (i, x) ∈ chosen timevalSub s call →
    chosen timevalSub s call = [(i, x)] ∧
      ∃ r used, s.qos.entries[i]? = some r ∧ Contains r x ∧
        (∀ j < i, ∀ other, s.qos.entries[j]? = some other → ¬ Contains other x) ∧
        (step timevalSub s call).qos.entries = s.qos.entries.set i used ∧ used.config = r.config ∧
        (step timevalSub s call).qos.minUsecBetweenRpcs = r.tau

def RatioInRange (s : Machine) (call : Call) : Prop :=
  ∀ c measured ack sent ratio, call = .reply c → s.oops = false →
    measure timevalSub c s.qos = .ok (measured, ack, sent, ratio) → 0 ≤ ratio ∧ ratio < 2147483648

/-- The state right after a write that the parser accepted, on a device that was initialised
    and then used in any way. -/
def Loaded (q : QosData) : Prop :=
  ∃ cl before o buffer, o.kernbuf = true ∧ o.copied = true ∧
    (run (step timevalSub) ⟨initQos cl, false⟩ before).oops = false ∧
    (parseQosRules o.table (cString buffer) (run (step timevalSub) ⟨initQos cl, false⟩ before).qos).rc = 0 ∧
    q = (oscQosRulesSeqWrite o buffer (run (step timevalSub) ⟨initQos cl, false⟩ before).qos).qos

end

def samplesOf (i : Nat) (seen : List (Nat × Sample)) : List Sample :=
  (seen.filter fun p => p.1 = i).map Prod.snd

structure Measured (x : Sample) : Prop where
  ack : 0 ≤ x.ack ∧ x.ack < 2305843009213693952
  sent : 0 ≤ x.sent ∧ x.sent < 2305843009213693952
  ratio : 0 ≤ x.ratio ∧ x.ratio < 2147483648

/-- The statistics of a rule are those of its samples. -/
structure RuleTracks (r : Rule) (xs : List Sample) : Prop where
  count : r.usedTimes = xs.length
  values : ∀ x ∈ xs, Measured x
  contains : ∀ x ∈ xs, Contains r x
  ack : Averages r.ackEwmaAvg (xs.map Sample.ack)
  sent : Averages r.sendEwmaAvg (xs.map Sample.sent)
  ratio : Averages r.rttRatio100Avg (xs.map Sample.ratio)

/-- The rule after one more sample, in exact arithmetic. -/
def usedOnce (r : Rule) (x : Sample) : Rule :=
  { r with
    usedTimes := r.usedTimes + 1
    ackEwmaAvg := nextAverage r.ackEwmaAvg x.ack (r.usedTimes + 1)
    sendEwmaAvg := nextAverage r.sendEwmaAvg x.sent (r.usedTimes + 1)
    rttRatio100Avg := nextAverage r.rttRatio100Avg x.ratio (r.usedTimes + 1) }

theorem applies_iff {r : Rule} {x : Sample} (range : 0 ≤ x.ratio ∧ x.ratio < 2147483648) :
    Rule.applies r x.ack x.sent x.ratio = decide (Contains r x) := by
  have same : u32 x.ratio = x.ratio := u32_of_in (by simp only [InU32]; omega)
  rw [Bool.eq_iff_iff]
  simp [Rule.applies, same, Contains, and_assoc]

theorem divide_exact {low a b : Int} (positive : 0 < b) : divide low a b = .ok (a.tdiv b) := by
  rw [divide, if_neg (by omega)]

theorem map_inside {xs : List Sample} {field : Sample → Int} {low high : Int}
    (inside : ∀ x ∈ xs, low ≤ field x ∧ field x < high) : ∀ v ∈ xs.map field, low ≤ v ∧ v < high := by
  intro v member
  obtain ⟨x, here, rfl⟩ := List.mem_map.mp member
  exact inside x here

theorem use_exact {r : Rule} {xs : List Sample} {x : Sample} (tracks : RuleTracks r xs)
    (values : Measured x) (few : xs.length < 2147483647) :
    Rule.use r x.ack x.sent x.ratio = .ok (usedOnce r x) := by
  have count := tracks.count
  have ackRange := averages_inside tracks.ack (by decide) (map_inside fun x m => (tracks.values x m).ack)
  have sentRange := averages_inside tracks.sent (by decide) (map_inside fun x m => (tracks.values x m).sent)
  have ratioRange := averages_inside tracks.ratio (by decide)
    (map_inside fun x m => (tracks.values x m).ratio)
  obtain ⟨ack, sent, ratio⟩ := values
  have used : s32 (r.usedTimes + 1) = r.usedTimes + 1 := s32_of_in (by simp only [InS32]; omega)
  have positive : 0 < r.usedTimes + 1 := by omega
  have ackDistance : s64 (s64 x.ack - s64 r.ackEwmaAvg) = x.ack - r.ackEwmaAvg := by
    rw [s64_of_in (x := x.ack) (by simp only [InS64]; omega),
      s64_of_in (x := r.ackEwmaAvg) (by simp only [InS64]; omega), s64_of_in (by simp only [InS64]; omega)]
  have sentDistance : s64 (s64 x.sent - s64 r.sendEwmaAvg) = x.sent - r.sendEwmaAvg := by
    rw [s64_of_in (x := x.sent) (by simp only [InS64]; omega),
      s64_of_in (x := r.sendEwmaAvg) (by simp only [InS64]; omega), s64_of_in (by simp only [InS64]; omega)]
  have ratioDistance : s32 (x.ratio - s32 r.rttRatio100Avg) = x.ratio - r.rttRatio100Avg := by
    rw [s32_of_in (x := r.rttRatio100Avg) (by simp only [InS32]; omega),
      s32_of_in (by simp only [InS32]; omega)]
  have ackNext := next_inside positive ackRange ack
  have sentNext := next_inside positive sentRange sent
  have ratioNext := next_inside positive ratioRange ratio
  simp only [Rule.use, used, ackDistance, sentDistance, ratioDistance, divide_exact positive,
    bind, Except.bind]
  rw [← nextAverage, ← nextAverage, ← nextAverage, u64_of_in (by simp only [InU64]; omega),
    u64_of_in (by simp only [InU64]; omega), u32_of_in (by simp only [InU32]; omega)]
  rfl

theorem used_tracks {r : Rule} {xs : List Sample} {x : Sample} (tracks : RuleTracks r xs)
    (values : Measured x) (contains : Contains r x) : RuleTracks (usedOnce r x) (xs ++ [x]) := by
  have count := tracks.count
  have next (field : Sample → Int) {average : Int} (averages : Averages average (xs.map field)) :
      Averages (nextAverage average (field x) (r.usedTimes + 1)) ((xs ++ [x]).map field) := by
    rw [List.map_append, List.map_singleton]
    exact next_averages averages (by rw [count, List.length_map])
  constructor
  · simp only [usedOnce, count, List.length_append, List.length_singleton, Int.natCast_add, Int.natCast_one]
  · intro y member
    rcases List.mem_append.mp member with old | new
    · exact tracks.values y old
    · rw [List.mem_singleton.mp new]
      exact values
  · intro y member
    rcases List.mem_append.mp member with old | new
    · exact tracks.contains y old
    · rw [List.mem_singleton.mp new]
      exact contains
  · exact next Sample.ack tracks.ack
  · exact next Sample.sent tracks.sent
  · exact next Sample.ratio tracks.ratio

theorem search_rest {entries : List Rule} {p : Rule → Bool} {left i : Nat} (all : i + left = entries.length) :
    searchRules entries p left i =
      .ok (((entries.drop i).findIdx? p).bind fun j => entries[i + j]?.map fun r => (i + j, r)) := by
  induction left generalizing i with
  | zero =>
    have done : entries.drop i = [] := List.drop_eq_nil_iff.mpr (by omega)
    simp [searchRules, done]
  | succ left ih =>
    have inside : i < entries.length := by omega
    unfold searchRules
    rw [List.getElem?_eq_getElem inside, List.drop_eq_getElem_cons inside, List.findIdx?_cons]
    dsimp only
    split
    · simp [inside]
    · rw [ih (by omega)]
      simp only [Except.ok.injEq]
      cases (entries.drop (i + 1)).findIdx? p with
      | none => rfl
      | some j =>
        have index : i + 1 + j = i + (j + 1) := by omega
        simp [index]

theorem search_table (entries : List Rule) (p : Rule → Bool) :
    searchRules entries p entries.length 0 =
      .ok ((entries.findIdx? p).bind fun j => entries[j]?.map fun r => (j, r)) := by
  rw [search_rest (Nat.zero_add _)]
  simp only [List.drop_zero, Nat.zero_add]

structure Scaled (te : TimeEwma) : Prop where
  scale : te.alphaInv = 8
  range : InU64 te.ea

variable {timevalSub : Timeval → Timeval → Int}

theorem add_scaled {te te' : TimeEwma} {t : Timeval} (scaled : Scaled te)
    (added : timeEwmaAddExtlock timevalSub te t = .ok te') : Scaled te' := by
  by_cases first : te.lastTime.tvSec = 0
  · rw [add_first first] at added
    rw [← Except.ok.inj added]
    exact ⟨scaled.scale, scaled.range⟩
  · obtain ⟨diff, abs⟩ : ∃ diff, (if timevalSub t te.lastTime < 0 then s64 (-timevalSub t te.lastTime)
        else timevalSub t te.lastTime) = diff := ⟨_, rfl⟩
    rw [add_later scaled.scale first abs] at added
    rw [← Except.ok.inj added]
    refine ⟨scaled.scale, ?_⟩
    dsimp only
    split
    · decide
    · exact u64_in _

theorem scaled_value {te : TimeEwma} {usec : Int} (scaled : Scaled te) (read : qosGetEwmaUsec te = .ok usec) :
    0 ≤ usec ∧ usec < 2305843009213693952 := by
  have range := scaled.range
  rw [(ewma_eq te scaled.scale).1] at read
  rw [← Except.ok.inj read]
  simp only [InU64] at range
  omega

theorem measure_parts {c : Reply} {q q' : QosData} {ack sent ratio : Int}
    (measured : measure timevalSub c q = .ok (q', ack, sent, ratio)) :
    (timeEwmaAddExtlock timevalSub q.ackEwma c.newAckTime = .ok q'.ackEwma ∧
      qosGetEwmaUsec q'.ackEwma = .ok ack) ∧
    (timeEwmaAddExtlock timevalSub q.sentEwma c.newSentTime = .ok q'.sentEwma ∧
      qosGetEwmaUsec q'.sentEwma = .ok sent) ∧
    q'.entries = q.entries ∧ q'.ruleNo = q.ruleNo ∧ q'.minUsecBetweenRpcs = q.minUsecBetweenRpcs := by
  obtain ⟨ackEwma, ackAdded, measured⟩ := bind_ok measured
  obtain ⟨ackRead, ackValue, measured⟩ := bind_ok measured
  obtain ⟨sentEwma, sentAdded, measured⟩ := bind_ok measured
  obtain ⟨sentRead, sentValue, measured⟩ := bind_ok measured
  obtain ⟨quotient, _, measured⟩ := bind_ok measured
  obtain ⟨read, write, frame⟩ := calc_bandwidth_frame _ c.op c.bytesTransferred c.bandwidthNow
  simp only [Except.ok.injEq, Prod.mk.injEq] at measured
  obtain ⟨state, rfl, rfl, _⟩ := measured
  rw [frame] at state
  rw [← state]
  exact ⟨⟨ackAdded, ackValue⟩, ⟨sentAdded, sentValue⟩, rfl, rfl, rfl⟩

structure Tracks (q : QosData) (seen : List (Nat × Sample)) : Prop where
  ackEwma : Scaled q.ackEwma
  sentEwma : Scaled q.sentEwma
  count : q.ruleNo.toNat = q.entries.length
  rules : ∀ i r, q.entries[i]? = some r → RuleTracks r (samplesOf i seen)

theorem samples_length (i : Nat) (seen : List (Nat × Sample)) : (samplesOf i seen).length ≤ seen.length := by
  rw [samplesOf, List.length_map]
  exact List.length_filter_le _ _

theorem samples_snoc (i j : Nat) (seen : List (Nat × Sample)) (x : Sample) :
    samplesOf i (seen ++ [(j, x)]) = if j = i then samplesOf i seen ++ [x] else samplesOf i seen := by
  by_cases here : j = i
  · simp [samplesOf, List.filter_append, here]
  · simp [samplesOf, List.filter_append, here]

theorem apply_none {c : Reply} {q : QosData} {x : Sample} (count : q.ruleNo.toNat = q.entries.length)
    (range : 0 ≤ x.ratio ∧ x.ratio < 2147483648)
    (none : c.hasImport = true → q.entries.findIdx? (fun r => Contains r x) = none) :
    applyRules timevalSub c q x.ack x.sent x.ratio = .ok (q, -1) := by
  unfold applyRules
  cases rules : q.rules with
  | none => rfl
  | some table =>
    have entries : q.entries = table.entries := by rw [QosData.entries, rules]
    cases imported : c.hasImport with
    | false => rfl
    | true =>
      have absent := none imported
      rw [entries] at absent count
      simp only [Bool.not_true, Bool.false_eq_true, ↓reduceIte, count, applies_iff range, search_table,
        absent]
      rfl

theorem apply_first {c : Reply} {q : QosData} {x : Sample} {seen : List (Nat × Sample)} {i : Nat}
    (tracks : Tracks q seen) (values : Measured x) (few : seen.length < 2147483647)
    (imported : c.hasImport = true) (first : q.entries.findIdx? (fun r => Contains r x) = some i) :
    ∃ r q' newMrif, q.entries[i]? = some r ∧ Contains r x ∧
      applyRules timevalSub c q x.ack x.sent x.ratio = .ok (q', newMrif) ∧
      q'.entries = q.entries.set i (usedOnce r x) ∧ q'.minUsecBetweenRpcs = r.tau ∧
      q'.ackEwma = q.ackEwma ∧ q'.sentEwma = q.sentEwma ∧ q'.ruleNo = q.ruleNo := by
  obtain ⟨inside, contains, _⟩ := List.findIdx?_eq_some_iff_getElem.mp first
  have here := List.getElem?_eq_getElem inside
  generalize q.entries[i] = r at contains here
  have contains : Contains r x := by simpa using contains
  cases rules : q.rules with
  | none =>
    rw [QosData.entries, rules] at here
    cases here
  | some table =>
    have entries : q.entries = table.entries := by rw [QosData.entries, rules]
    have count := tracks.count
    rw [entries] at count first here
    have use : Rule.use r x.ack x.sent x.ratio = .ok (usedOnce r x) := by
      apply use_exact (tracks.rules i r (by rw [entries]; exact here)) values
      have bound := samples_length i seen
      omega
    have selected : Selected c q x.ack x.sent x.ratio table i r (usedOnce r x) := by
      refine ⟨rules, imported, ?_, use⟩
      simp only [count, applies_iff values.ratio, search_table, first, Option.bind_some, here,
        Option.map_some]
    rw [entries]
    refine ⟨r, ?_⟩
    by_cases due : UpdateDue timevalSub c q
    · exact ⟨_, _, here, contains, apply_rules_due selected due, rfl, rfl, rfl, rfl, rfl⟩
    · exact ⟨_, _, here, contains, apply_rules_early selected due, rfl, rfl, rfl, rfl, rfl⟩

theorem measured_tracks {c : Reply} {q measured : QosData} {ack sent ratio : Int}
    {seen : List (Nat × Sample)} (tracks : Tracks q seen)
    (done : measure timevalSub c q = .ok (measured, ack, sent, ratio))
    (range : 0 ≤ ratio ∧ ratio < 2147483648) :
    Tracks measured seen ∧ Measured ⟨ack, sent, ratio⟩ := by
  obtain ⟨⟨ackAdded, ackRead⟩, ⟨sentAdded, sentRead⟩, entries, ruleNo, _⟩ := measure_parts done
  have ackScaled := add_scaled tracks.ackEwma ackAdded
  have sentScaled := add_scaled tracks.sentEwma sentAdded
  constructor
  · refine ⟨ackScaled, sentScaled, ?_, ?_⟩
    · rw [ruleNo, entries]
      exact tracks.count
    · rw [entries]
      exact tracks.rules
  · exact ⟨scaled_value ackScaled ackRead, scaled_value sentScaled sentRead, range⟩

theorem set_tracks {q q' : QosData} {seen : List (Nat × Sample)} {i : Nat} {r : Rule} {x : Sample}
    (tracks : Tracks q seen) (values : Measured x) (here : q.entries[i]? = some r)
    (contains : Contains r x) (entries : q'.entries = q.entries.set i (usedOnce r x))
    (ackEwma : q'.ackEwma = q.ackEwma) (sentEwma : q'.sentEwma = q.sentEwma)
    (ruleNo : q'.ruleNo = q.ruleNo) : Tracks q' (seen ++ [(i, x)]) := by
  constructor
  · rw [ackEwma]
    exact tracks.ackEwma
  · rw [sentEwma]
    exact tracks.sentEwma
  · rw [ruleNo, entries, List.length_set]
    exact tracks.count
  · intro j rule found
    rw [entries, List.getElem?_set] at found
    rw [samples_snoc]
    by_cases same : i = j
    · subst same
      have inside := (List.getElem?_eq_some_iff.mp here).1
      simp only [↓reduceIte, inside, Option.some.injEq] at found ⊢
      rw [← found]
      exact used_tracks (tracks.rules i r here) values contains
    · simp only [same, ↓reduceIte] at found ⊢
      exact tracks.rules j rule found

theorem idle_call {q q' : QosData} {c : Reply} {seen : List (Nat × Sample)}
    (none : chosen timevalSub ⟨q, false⟩ (.reply c) = [])
    (state : (step timevalSub ⟨q, false⟩ (.reply c)).qos = q') (entries : q'.entries = q.entries)
    (pause : q'.minUsecBetweenRpcs = q.minUsecBetweenRpcs) (tracks : Tracks q' seen) :
    CallOk timevalSub ⟨q, false⟩ (.reply c) ∧
      Tracks (step timevalSub ⟨q, false⟩ (.reply c)).qos
        (seen ++ chosen timevalSub ⟨q, false⟩ (.reply c)) := by
  rw [state, none, List.append_nil]
  refine ⟨⟨fun _ => ?_, fun i x member => ?_⟩, tracks⟩
  · rw [state]
    exact ⟨entries, pause⟩
  · rw [none] at member
    cases member

theorem applied_call {q : QosData} {c : Reply} {i : Nat} {x : Sample} {r : Rule}
    (picked : chosen timevalSub ⟨q, false⟩ (.reply c) = [(i, x)])
    (first : q.entries.findIdx? (fun r => Contains r x) = some i) (here : q.entries[i]? = some r)
    (contains : Contains r x)
    (set : (step timevalSub ⟨q, false⟩ (.reply c)).qos.entries = q.entries.set i (usedOnce r x))
    (tau : (step timevalSub ⟨q, false⟩ (.reply c)).qos.minUsecBetweenRpcs = r.tau) :
    CallOk timevalSub ⟨q, false⟩ (.reply c) := by
  constructor
  · rw [picked]
    intro empty
    cases empty
  · intro j y member
    rw [picked, List.mem_singleton] at member
    cases member
    refine ⟨picked, r, usedOnce r x, here, contains, ?_, set, rfl, tau⟩
    intro k before other found
    obtain ⟨_, _, earlier⟩ := List.findIdx?_eq_some_iff_getElem.mp first
    obtain ⟨inside, value⟩ := List.getElem?_eq_some_iff.mp found
    have misses := earlier k before
    rw [value] at misses
    simpa using misses

theorem reply_tracks {q : QosData} {c : Reply} {seen : List (Nat × Sample)} (tracks : Tracks q seen)
    (few : seen.length < 2147483647) (range : RatioInRange timevalSub ⟨q, false⟩ (.reply c)) :
    CallOk timevalSub ⟨q, false⟩ (.reply c) ∧
      Tracks (step timevalSub ⟨q, false⟩ (.reply c)).qos
        (seen ++ chosen timevalSub ⟨q, false⟩ (.reply c)) := by
  cases done : measure timevalSub c q with
  | error fault =>
    have adjusted : qosAdjust timevalSub c q = .error fault := by
      simp only [qosAdjust, done, bind, Except.bind]
    exact idle_call (by simp [chosen, done]) (by simp [step, perform, adjusted]) rfl rfl tracks
  | ok result =>
    obtain ⟨measured, ack, sent, ratio⟩ := result
    obtain ⟨_, _, entries, _, pause⟩ := measure_parts done
    obtain ⟨tracked, values⟩ := measured_tracks tracks done (range c measured ack sent ratio rfl rfl done)
    have applies : qosAdjust timevalSub c q = applyRules timevalSub c measured ack sent ratio := by
      simp only [qosAdjust, done, bind, Except.bind]
    have idle (none : c.hasImport = true → measured.entries.findIdx?
        (fun r => Contains r ⟨ack, sent, ratio⟩) = none) :
        (step timevalSub ⟨q, false⟩ (.reply c)).qos = measured := by
      have unchanged := @apply_none timevalSub c measured _ tracked.count values.ratio none
      simp [step, perform, applies, unchanged]
    cases imported : c.hasImport with
    | false =>
      exact idle_call (by simp [chosen, done, imported]) (idle (by simp [imported])) entries pause tracked
    | true =>
      cases first : q.entries.findIdx? (fun r => Contains r ⟨ack, sent, ratio⟩) with
      | none =>
        exact idle_call (by simp [chosen, done, imported, first]) (idle (by simp [entries, first])) entries
          pause tracked
      | some i =>
        have picked : chosen timevalSub ⟨q, false⟩ (.reply c) = [(i, ⟨ack, sent, ratio⟩)] := by
          simp [chosen, done, imported, first]
        obtain ⟨r, q', newMrif, here, contains, applied, set, tau, ackEwma, sentEwma, ruleNo⟩ :=
          @apply_first timevalSub c measured _ seen i tracked values few imported
            (by rw [entries]; exact first)
        have state : (step timevalSub ⟨q, false⟩ (.reply c)).qos = q' := by
          simp [step, perform, applies, applied]
        have after := set_tracks tracked values here contains set ackEwma sentEwma ruleNo
        rw [entries] at here set
        have used := applied_call picked first here contains (by rw [state]; exact set)
            (by rw [state]; exact tau)
        rw [picked, state]
        exact ⟨used, after⟩

theorem chosen_length (s : Machine) (call : Call) : (chosen timevalSub s call).length ≤ 1 := by
  unfold chosen
  split
  · simp
  · split
    · split
      · simp
      · split
        · exact Option.length_toList_le
        · simp
    · simp

theorem run_tracks {cs : List Reply} {s : Machine} {seen : List (Nat × Sample)} (tracks : Tracks s.qos seen)
    (few : seen.length + cs.length < 2147483648)
    (ratios : Along (step timevalSub) (RatioInRange timevalSub) s (cs.map .reply)) :
    Along (step timevalSub) (CallOk timevalSub) s (cs.map .reply) ∧
      Tracks (run (step timevalSub) s (cs.map .reply)).qos
        (seen ++ trace (step timevalSub) (chosen timevalSub) s (cs.map .reply)) := by
  induction cs generalizing s seen with
  | nil => simpa [Along, trace] using tracks
  | cons c cs ih =>
    simp only [List.map_cons, Along, run_cons, trace, List.length_cons] at few ratios ⊢
    have one := @chosen_length timevalSub s (.reply c)
    have call : CallOk timevalSub s (.reply c) ∧
        Tracks (step timevalSub s (.reply c)).qos (seen ++ chosen timevalSub s (.reply c)) := by
      obtain ⟨q, oops⟩ := s
      cases oops with
      | false => exact reply_tracks tracks (by omega) ratios.1
      | true =>
        have none : chosen timevalSub ⟨q, true⟩ (.reply c) = [] := rfl
        rw [none, List.append_nil]
        refine ⟨⟨fun _ => ⟨rfl, rfl⟩, fun i x member => ?_⟩, tracks⟩
        rw [none] at member
        cases member
    obtain ⟨rest, after⟩ := ih call.2 (by rw [List.length_append]; omega) ratios.2
    rw [List.append_assoc] at after
    exact ⟨⟨call.1, rest⟩, after⟩

def Initialised (q : QosData) : Prop := Scaled q.ackEwma ∧ Scaled q.sentEwma

theorem parse_ewmas (alloc : Bool) (buf : List Char) (q : QosData) :
    (parseQosRules alloc buf q).qos.ackEwma = q.ackEwma ∧
      (parseQosRules alloc buf q).qos.sentEwma = q.sentEwma := by
  rcases parse_cases alloc buf q with ⟨_, cleared⟩ | ⟨_, rejected⟩ | ⟨n, k, p, _, loads⟩
  · rw [cleared]
    exact ⟨rfl, rfl⟩
  · rw [rejected]
    exact ⟨rfl, rfl⟩
  · obtain ⟨opened, rfl, exits⟩ := load_cases alloc n k p q
    rw [loads]
    rcases exits with ⟨_, memory⟩ | ⟨rules, _, table⟩ | ⟨_, line⟩
    · rw [memory]
      exact ⟨rfl, rfl⟩
    · rw [table]
      exact ⟨rfl, rfl⟩
    · rw [line]
      exact ⟨rfl, rfl⟩

theorem write_initialised (o : WriteOutcomes) (buffer : List Char) {q : QosData}
    (initialised : Initialised q) :
    Initialised (oscQosRulesSeqWrite o buffer q).qos := by
  obtain ⟨ack, sent⟩ := parse_ewmas o.table (cString buffer) q
  unfold oscQosRulesSeqWrite
  split
  · exact initialised
  · split
    · exact initialised
    · simp only [Initialised, TimeEwma.reset, ack, sent]
      exact ⟨⟨initialised.1.scale, show InU64 0 by decide⟩, ⟨initialised.2.scale, show InU64 0 by decide⟩⟩

theorem step_initialised (s : Machine) (call : Call) (initialised : Initialised s.qos) :
    Initialised (step timevalSub s call).qos := by
  unfold step
  split
  · exact initialised
  · cases call with
    | write o buffer => exact write_initialised o buffer initialised
    | read alloc =>
      simp only [perform, oscQosRulesSeqShow, QosData.shown]
      split <;> exact initialised
    | reply c =>
      simp only [perform]
      split
      · rename_i q' newMrif adjusted
        obtain ⟨⟨measured, ack, sent, ratio⟩, done, applied⟩ := bind_ok adjusted
        obtain ⟨⟨ackAdded, _⟩, ⟨sentAdded, _⟩, _⟩ := measure_parts done
        obtain ⟨rules, tau, time, window, frame⟩ := apply_rules_frame applied
        rw [frame]
        exact ⟨add_scaled initialised.1 ackAdded, add_scaled initialised.2 sentAdded⟩
      · exact initialised

theorem parse_lines_fresh {n : Nat} {p : List Char} {rules : List Rule}
    (parsed : parseRuleLines n p = some rules) : ∀ r ∈ rules, RuleTracks r [] := by
  refine parse_lines_forall ?_ parsed
  intro text r fields
  unfold Rule.ofFields at fields
  split at fields
  · rw [← Option.some.inj fields]
    exact ⟨rfl, by simp, by simp, ⟨fun _ => rfl, by simp⟩, ⟨fun _ => rfl, by simp⟩, ⟨fun _ => rfl, by simp⟩⟩
  · cases fields

theorem accepted_fresh {alloc : Bool} {buf : List Char} {q : QosData}
    (accepted : (parseQosRules alloc buf q).rc = 0) :
    (parseQosRules alloc buf q).qos.ruleNo.toNat = (parseQosRules alloc buf q).qos.entries.length ∧
      ∀ r ∈ (parseQosRules alloc buf q).qos.entries, RuleTracks r [] := by
  rcases parse_cases alloc buf q with ⟨_, cleared⟩ | ⟨_, rejected⟩ | ⟨n, k, p, _, loads⟩
  · rw [cleared]
    exact ⟨rfl, fun r member => by cases member⟩
  · rw [rejected] at accepted
    exact absurd accepted (show einval ≠ 0 by decide)
  · obtain ⟨opened, rfl, exits⟩ := load_cases alloc n k p q
    rw [loads] at accepted ⊢
    rcases exits with ⟨_, memory⟩ | ⟨rules, ⟨_, parsed⟩, table⟩ | ⟨_, line⟩
    · rw [memory] at accepted
      exact absurd accepted (show enomem ≠ 0 by decide)
    · rw [table]
      exact ⟨(parse_lines_length parsed).symm, parse_lines_fresh parsed⟩
    · rw [line] at accepted
      exact absurd accepted (show einval ≠ 0 by decide)

theorem loaded_tracks {q : QosData} (loaded : Loaded timevalSub q) : Tracks q [] := by
  obtain ⟨cl, before, o, buffer, kernbuf, copied, _, accepted, same⟩ := loaded
  have start : Initialised (Machine.mk (initQos cl) false).qos :=
    ⟨⟨rfl, show InU64 0 by decide⟩, ⟨rfl, show InU64 0 by decide⟩⟩
  have always := always_of_along (fun s call initialised _ => @step_initialised timevalSub s call initialised)
    start (along_true (step timevalSub) _ before)
  have reached : Initialised (run (step timevalSub) ⟨initQos cl, false⟩ before).qos := always_run always
  have initialised := write_initialised o buffer reached
  obtain ⟨count, fresh⟩ := accepted_fresh accepted
  rw [← same] at initialised
  refine ⟨initialised.1, initialised.2, ?_, ?_⟩
  · rw [same]
    simpa [oscQosRulesSeqWrite, kernbuf, copied, QosData.entries] using count
  · intro i r found
    rw [same] at found
    apply fresh r
    have member := List.mem_of_getElem? found
    simpa [oscQosRulesSeqWrite, kernbuf, copied, QosData.entries] using member

theorem tracked_averages {r : Rule} {xs : List Sample} (tracks : RuleTracks r xs) (used : 1 ≤ r.usedTimes) :
    Between r.ackEwmaAvg (xs.map Sample.ack) ∧ Between r.sendEwmaAvg (xs.map Sample.sent) ∧
      Between r.rttRatio100Avg (xs.map Sample.ratio) ∧
      Contains r ⟨r.ackEwmaAvg, r.sendEwmaAvg, r.rttRatio100Avg⟩ := by
  have some (field : Sample → Int) : xs.map field ≠ [] := by
    intro empty
    have none : xs.length = 0 := by rw [List.map_eq_nil_iff.mp empty]; rfl
    have count := tracks.count
    omega
  have ack := tracks.ack.2 (some _)
  have sent := tracks.sent.2 (some _)
  have ratio := tracks.ratio.2 (some _)
  refine ⟨ack, sent, ratio, ?_, ?_, ?_⟩
  · exact between_inside ack (map_inside fun x member => (tracks.contains x member).1)
  · exact between_inside sent (map_inside fun x member => (tracks.contains x member).2.1)
  · exact between_inside ratio (map_inside fun x member => (tracks.contains x member).2.2)

/-- In every run of fewer than 2^31 calls after a table was installed, each call updates at most
    the first rule that contains its values, `used_times` counts the calls that chose the rule,
    and the averages of a used rule lie between its samples. -/
theorem rule_statistics (timevalSub : Timeval → Timeval → Int) (q : QosData) (loaded : Loaded timevalSub q)
    (cs : List Reply) (few : cs.length < 2147483648)
    (ratios : Along (step timevalSub) (RatioInRange timevalSub) ⟨q, false⟩ (cs.map .reply)) :
    Along (step timevalSub) (CallOk timevalSub) ⟨q, false⟩ (cs.map .reply) ∧
      ∀ i r, (run (step timevalSub) ⟨q, false⟩ (cs.map .reply)).qos.entries[i]? = some r →
        let seen := samplesOf i (trace (step timevalSub) (chosen timevalSub) ⟨q, false⟩ (cs.map .reply))
        r.usedTimes = (seen.length : Int) ∧
          (1 ≤ r.usedTimes →
            Between r.ackEwmaAvg (seen.map Sample.ack) ∧ Between r.sendEwmaAvg (seen.map Sample.sent) ∧
              Between r.rttRatio100Avg (seen.map Sample.ratio) ∧
              Contains r ⟨r.ackEwmaAvg, r.sendEwmaAvg, r.rttRatio100Avg⟩) := by
  obtain ⟨calls, tracks⟩ := @run_tracks timevalSub cs ⟨q, false⟩ [] (loaded_tracks loaded)
      (by simpa using few)
    ratios
  constructor
  · exact calls
  · intro i r found
    have own := tracks.rules i r found
    exact ⟨own.count, tracked_averages own⟩

def loadedOnce : QosData := (oscQosRulesSeqWrite ⟨true, true, true⟩ (oneRule ['1', '0']) (initQos 8)).qos

theorem rule_statistics_two_replies :
    let cs : List Reply := [oneReply, { oneReply with now := ⟨5, 201⟩ }]
    let after := (run (step usecSub) ⟨loadedOnce, false⟩ (cs.map .reply)).qos
    (after.entries.map fun r => (r.usedTimes, r.rttRatio100Avg)) = [(2, 150)] ∧
      Along (step usecSub) (CallOk usecSub) ⟨loadedOnce, false⟩ (cs.map .reply) := by
  intro cs after
  have loaded : Loaded usecSub loadedOnce :=
    ⟨8, [], ⟨true, true, true⟩, oneRule ['1', '0'], rfl, rfl, rfl, by decide +kernel, rfl⟩
  have ranged (s : Machine) (c : Reply) (v : Int) (inside : 0 ≤ v ∧ v < 2147483648)
      (value : (measure usecSub c s.qos).toOption.map (fun m => m.2.2.2) = some v) :
      RatioInRange usecSub s (.reply c) := by
    intro c' measured ack sent ratio same _ done
    cases same
    rw [done] at value
    simp only [Except.toOption, Option.map_some, Option.some.injEq] at value
    omega
  have ratios : Along (step usecSub) (RatioInRange usecSub) ⟨loadedOnce, false⟩ (cs.map .reply) :=
    ⟨ranged _ _ 100 (by decide) (by decide +kernel), ranged _ _ 201 (by decide) (by decide +kernel), trivial⟩
  constructor
  · decide +kernel
  · exact (rule_statistics usecSub loadedOnce loaded cs (by decide) ratios).1

end QosRuleStats
