import LustreTools.Qos.Rules

/-!
The controller `qos_adjust` (osc_request.c), which runs after each bulk reply: it updates
the moving averages and the bandwidth counters, and applies the first rule that matches.
`cfs_timeval_sub` of libcfs is a parameter. A division by zero is a fault.
-/
namespace QosAdjust
open Words QosRules

def divide (low a b : Int) : Except Fault Int :=
  if b = 0 ∨ a = low ∧ b = -1 then .error .divide else .ok (a.tdiv b)

def s32Min : Int := -2147483648
def s64Min : Int := -9223372036854775808

/-- The times of a reply, the transfer, and the two clock readings of a call. `hasImport`
    is whether the client has an import. -/
structure Reply where
  newAckTime : Timeval
  newSentTime : Timeval
  op : Int
  bytesTransferred : Int
  now : Timeval
  bandwidthNow : Timeval
  hasImport : Bool
  deriving DecidableEq, Repr

def qosGetEwmaUsec (te : TimeEwma) : Except Fault Int :=
  if te.alphaInv = 0 then .error .divide else .ok (te.ea / te.alphaInv)

def Bandwidth.count (b : Bandwidth) (sec bytes : Int) : Bandwidth :=
  if sec = b.lastReqSec then { b with sumBytesThisSec := u64 (b.sumBytesThisSec + bytes) }
  else if sec = s64 (b.lastReqSec + 1) then ⟨sec, b.sumBytesThisSec, u64 bytes⟩
  else if sec > s64 (b.lastReqSec + 1) then ⟨sec, 0, u64 bytes⟩
  else b

def calcBandwidth (q : QosData) (op bytes : Int) (now : Timeval) : QosData :=
  if op = 0 then { q with read := Bandwidth.count q.read now.tvSec bytes }
  else if op = 1 then { q with write := Bandwidth.count q.write now.tvSec bytes }
  else q

/-- The ratio is an `int`, compared with `unsigned int` bounds. -/
def Rule.applies (r : Rule) (ack sent ratio : Int) : Bool :=
  ack ≥ r.ackEwmaLower && ack < r.ackEwmaUpper && sent ≥ r.sendEwmaLower && sent < r.sendEwmaUpper &&
    u32 ratio ≥ r.rttRatio100Lower && u32 ratio < r.rttRatio100Upper

def searchRules (entries : List Rule) (applies : Rule → Bool) :
    Nat → Nat → Except Fault (Option (Nat × Rule))
  | 0, _ => .ok none
  | left + 1, i =>
    match entries[i]? with
    | none => .error .outOfBounds
    | some r => if applies r then .ok (some (i, r)) else searchRules entries applies left (i + 1)

def Rule.use (r : Rule) (ack sent ratio : Int) : Except Fault Rule := do
  let used := s32 (r.usedTimes + 1)
  let ackStep ← divide s64Min (s64 (s64 ack - s64 r.ackEwmaAvg)) used
  let sendStep ← divide s64Min (s64 (s64 sent - s64 r.sendEwmaAvg)) used
  let ratioStep ← divide s32Min (s32 (ratio - s32 r.rttRatio100Avg)) used
  .ok { r with
    usedTimes := used
    ackEwmaAvg := u64 (r.ackEwmaAvg + ackStep)
    sendEwmaAvg := u64 (r.sendEwmaAvg + sendStep)
    rttRatio100Avg := u32 (r.rttRatio100Avg + ratioStep) }

def mrifUpperLimit : Int := 30

def updateMrif (q : QosData) (r : Rule) (now : Timeval) : QosData × Int :=
  let scaled := if r.m100 ≥ 0 then (s32 (q.maxRpcInFlight100 * r.m100)).tdiv 100
    else q.maxRpcInFlight100
  let moved := s32 (scaled + r.b100)
  let raised := if moved < 0 then 0 else moved
  let bounded := if raised > mrifUpperLimit * 100 then mrifUpperLimit * 100 else raised
  let newMrif := bounded.tdiv 100
  ({ q with lastMrifUpdateTime := now, maxRpcInFlight100 := bounded },
    if newMrif < 1 then 1 else newMrif)

section
variable (timevalSub : Timeval → Timeval → Int)

def timeEwmaAddExtlock (te : TimeEwma) (newTime : Timeval) : Except Fault TimeEwma :=
  if te.lastTime.tvSec ≠ 0 then
    let signed := timevalSub newTime te.lastTime
    let timediff := if signed < 0 then s64 (-signed) else signed
    if timediff > 10 * 60 * 1000000 then .ok { te with ea := 0, lastTime := newTime }
    else if u32 te.alphaInv = 0 then .error .divide
    else .ok { te with
      ea := u64 (te.ea / u32 te.alphaInv * (te.alphaInv - 1) + timediff)
      lastTime := newTime }
  else .ok { te with lastTime := newTime }

def measure (c : Reply) (q : QosData) : Except Fault (QosData × Int × Int × Int) := do
  let ackEwma ← timeEwmaAddExtlock timevalSub q.ackEwma c.newAckTime
  let ack ← qosGetEwmaUsec ackEwma
  let sentEwma ← timeEwmaAddExtlock timevalSub q.sentEwma c.newSentTime
  let sent ← qosGetEwmaUsec sentEwma
  let rtt := timevalSub c.now c.newSentTime
  let smallestRtt := if 0 = q.smallestRtt ∨ rtt < q.smallestRtt then rtt else q.smallestRtt
  let quotient ← divide s64Min (s64 (rtt * 100)) smallestRtt
  let ratio := s32 quotient
  .ok (calcBandwidth { q with
    ackEwma := ackEwma
    sentEwma := sentEwma
    smallestRtt := smallestRtt
    rttRatio100 := ratio } c.op c.bytesTransferred c.bandwidthNow, ack, sent, ratio)

/-- Apply the first matching rule. -1 stands for no change of the RPCs in flight. -/
def applyRules (c : Reply) (q : QosData) (ack sent ratio : Int) : Except Fault (QosData × Int) :=
  match q.rules with
  | none => .ok (q, -1)
  | some table =>
    if !c.hasImport then .ok (q, -1)
    else do
      let found ← searchRules table.entries (Rule.applies · ack sent ratio) q.ruleNo.toNat 0
      match found with
      | none => .ok (q, -1)
      | some (i, r) =>
        let used ← Rule.use r ack sent ratio
        let counted := { q with
          rules := some { table with entries := table.entries.set i used }
          minUsecBetweenRpcs := used.tau }
        let since := timevalSub c.now q.lastMrifUpdateTime
        if since > 0 ∧ since ≥ q.minGapBetweenUpdatingMrif then .ok (updateMrif counted used c.now)
        else .ok (counted, -1)

def qosAdjust (c : Reply) (q : QosData) : Except Fault (QosData × Int) := do
  let (measured, ack, sent, ratio) ← measure timevalSub c q
  applyRules timevalSub c measured ack sent ratio

end

/-- The same table up to the statistics of its rules, and the same rate. -/
structure SameTable (q q' : QosData) : Prop where
  ruleNo : q'.ruleNo = q.ruleNo
  minGap : q'.minGapBetweenUpdatingMrif = q.minGapBetweenUpdatingMrif
  bytes : q'.rules.map Table.bytes = q.rules.map Table.bytes
  config : q'.rules.map (·.entries.map Rule.config) = q.rules.map (·.entries.map Rule.config)

theorem SameTable.refl (q : QosData) : SameTable q q := ⟨rfl, rfl, rfl, rfl⟩

theorem SameTable.trans {a b c : QosData} (ab : SameTable a b) (bc : SameTable b c) : SameTable a c :=
  ⟨bc.ruleNo.trans ab.ruleNo, bc.minGap.trans ab.minGap, bc.bytes.trans ab.bytes,
    bc.config.trans ab.config⟩

theorem bind_ok {α β : Type} {x : Except Fault α} {f : α → Except Fault β} {b : β}
    (ok : x >>= f = .ok b) : ∃ a, x = .ok a ∧ f a = .ok b := by
  cases x with
  | error fault => cases ok
  | ok a => exact ⟨a, rfl, ok⟩

theorem search_found {entries : List Rule} {applies : Rule → Bool} {left i j : Nat} {r : Rule}
    (found : searchRules entries applies left i = .ok (some (j, r))) : entries[j]? = some r := by
  induction left generalizing i with
  | zero => cases found
  | succ left ih =>
    unfold searchRules at found
    split at found
    · cases found
    · rename_i rule here
      split at found
      · simp only [Except.ok.injEq, Option.some.injEq, Prod.mk.injEq] at found
        rw [← found.1, ← found.2]
        exact here
      · exact ih found

theorem search_inside {entries : List Rule} {applies : Rule → Bool} {left i : Nat}
    (inside : i + left ≤ entries.length) :
    searchRules entries applies left i ≠ .error .outOfBounds := by
  induction left generalizing i with
  | zero => simp [searchRules]
  | succ left ih =>
    unfold searchRules
    split
    · rename_i missing
      rw [List.getElem?_eq_none_iff] at missing
      omega
    · split
      · simp
      · exact ih (by omega)

theorem use_config {r r' : Rule} {ack sent ratio : Int} (used : Rule.use r ack sent ratio = .ok r') :
    r'.config = r.config := by
  obtain ⟨_, _, used⟩ := bind_ok used
  obtain ⟨_, _, used⟩ := bind_ok used
  obtain ⟨_, _, used⟩ := bind_ok used
  rw [← Except.ok.inj used]
  rfl

theorem set_config {entries : List Rule} {i : Nat} {r used : Rule} (here : entries[i]? = some r)
    (same : used.config = r.config) :
    (entries.set i used).map Rule.config = entries.map Rule.config := by
  rw [List.map_set, same]
  obtain ⟨inside, rfl⟩ := List.getElem?_eq_some_iff.mp here
  apply List.ext_getElem (by simp)
  intro k _ _
  by_cases at_k : i = k
  · subst at_k; simp
  · simp [List.getElem_set_ne at_k]

variable {timevalSub : Timeval → Timeval → Int}

theorem calc_bandwidth_frame (q : QosData) (op bytes : Int) (now : Timeval) :
    ∃ read write, calcBandwidth q op bytes now = { q with read := read, write := write } := by
  unfold calcBandwidth
  split
  · exact ⟨_, q.write, rfl⟩
  · split
    · exact ⟨q.read, _, rfl⟩
    · exact ⟨q.read, q.write, rfl⟩

theorem measure_cases {c : Reply} {q q' : QosData} {ack sent ratio : Int}
    (measured : measure timevalSub c q = .ok (q', ack, sent, ratio)) :
    ∃ ackEwma sentEwma read write smallest quotient,
      smallest = (if 0 = q.smallestRtt ∨ timevalSub c.now c.newSentTime < q.smallestRtt then
        timevalSub c.now c.newSentTime else q.smallestRtt) ∧
      divide s64Min (s64 (timevalSub c.now c.newSentTime * 100)) smallest = .ok quotient ∧
      q' = { q with
        ackEwma := ackEwma
        sentEwma := sentEwma
        smallestRtt := smallest
        rttRatio100 := s32 quotient
        read := read
        write := write } := by
  obtain ⟨ackEwma, _, measured⟩ := bind_ok measured
  obtain ⟨_, _, measured⟩ := bind_ok measured
  obtain ⟨sentEwma, _, measured⟩ := bind_ok measured
  obtain ⟨_, _, measured⟩ := bind_ok measured
  obtain ⟨quotient, divided, measured⟩ := bind_ok measured
  obtain ⟨read, write, frame⟩ := calc_bandwidth_frame _ c.op c.bytesTransferred c.bandwidthNow
  refine ⟨ackEwma, sentEwma, read, write, _, quotient, rfl, divided, ?_⟩
  rw [← (Prod.mk.inj (Except.ok.inj measured)).1]
  exact frame

theorem measure_table {c : Reply} {q q' : QosData} {ack sent ratio : Int}
    (measured : measure timevalSub c q = .ok (q', ack, sent, ratio)) : SameTable q q' := by
  obtain ⟨ackEwma, sentEwma, read, write, smallest, quotient, _, _, frame⟩ := measure_cases measured
  rw [frame]
  exact ⟨rfl, rfl, rfl, rfl⟩

theorem update_mrif_table (q : QosData) (r : Rule) (now : Timeval) :
    SameTable q (updateMrif q r now).1 := ⟨rfl, rfl, rfl, rfl⟩

def counted (q : QosData) (table : Table) (i : Nat) (used : Rule) : QosData :=
  { q with
    rules := some { table with entries := table.entries.set i used }
    minUsecBetweenRpcs := used.tau }

structure Selected (c : Reply) (q : QosData) (ack sent ratio : Int) (table : Table) (i : Nat)
    (r used : Rule) : Prop where
  rules : q.rules = some table
  imported : c.hasImport = true
  found : searchRules table.entries (Rule.applies · ack sent ratio) q.ruleNo.toNat 0 = .ok (some (i, r))
  use : Rule.use r ack sent ratio = .ok used

theorem Selected.here {c : Reply} {q : QosData} {ack sent ratio : Int} {table : Table} {i : Nat}
    {r used : Rule} (selected : Selected c q ack sent ratio table i r used) :
    table.entries[i]? = some r := search_found selected.found

def UpdateDue (timevalSub : Timeval → Timeval → Int) (c : Reply) (q : QosData) : Prop :=
  timevalSub c.now q.lastMrifUpdateTime > 0 ∧
    timevalSub c.now q.lastMrifUpdateTime ≥ q.minGapBetweenUpdatingMrif

theorem apply_rules_cases {c : Reply} {q q' : QosData} {ack sent ratio mrif : Int}
    (applied : applyRules timevalSub c q ack sent ratio = .ok (q', mrif)) :
    (q' = q ∧ mrif = -1 ∧ ∀ table i r used, ¬ Selected c q ack sent ratio table i r used) ∨
      ∃ table i r used, Selected c q ack sent ratio table i r used ∧
        ((¬ UpdateDue timevalSub c q ∧ q' = counted q table i used ∧ mrif = -1) ∨
          UpdateDue timevalSub c q ∧ (q', mrif) = updateMrif (counted q table i used) used c.now) := by
  unfold applyRules at applied
  split at applied
  · rename_i none
    cases applied
    refine Or.inl ⟨rfl, rfl, fun table i r used selected => ?_⟩
    cases none.symm.trans selected.rules
  · rename_i table rules
    split at applied
    · rename_i missing
      cases applied
      refine Or.inl ⟨rfl, rfl, fun table i r used selected => ?_⟩
      rw [selected.imported] at missing
      cases missing
    · rename_i imported
      obtain ⟨found, search, applied⟩ := bind_ok applied
      cases found with
      | none =>
        cases applied
        refine Or.inl ⟨rfl, rfl, fun other i r used selected => ?_⟩
        cases rules.symm.trans selected.rules
        cases search.symm.trans selected.found
      | some pair =>
        obtain ⟨i, r⟩ := pair
        obtain ⟨used, use, applied⟩ := bind_ok applied
        refine Or.inr ⟨table, i, r, used, ⟨rules, by simpa using imported, search, use⟩, ?_⟩
        dsimp only at applied
        split at applied
        · rename_i due
          exact Or.inr ⟨due, (Except.ok.inj applied).symm⟩
        · rename_i early
          cases applied
          exact Or.inl ⟨early, rfl, rfl⟩

theorem apply_rules_due {c : Reply} {q : QosData} {ack sent ratio : Int} {table : Table} {i : Nat}
    {r used : Rule} (selected : Selected c q ack sent ratio table i r used)
    (due : UpdateDue timevalSub c q) :
    applyRules timevalSub c q ack sent ratio = .ok (updateMrif (counted q table i used) used c.now) := by
  simp only [applyRules, selected.rules, selected.imported, Bool.not_true, Bool.false_eq_true, ↓reduceIte,
    selected.found, selected.use, bind, Except.bind]
  exact if_pos due

theorem apply_rules_early {c : Reply} {q : QosData} {ack sent ratio : Int} {table : Table} {i : Nat}
    {r used : Rule} (selected : Selected c q ack sent ratio table i r used)
    (early : ¬ UpdateDue timevalSub c q) :
    applyRules timevalSub c q ack sent ratio = .ok (counted q table i used, -1) := by
  simp only [applyRules, selected.rules, selected.imported, Bool.not_true, Bool.false_eq_true, ↓reduceIte,
    selected.found, selected.use, bind, Except.bind]
  exact if_neg early

theorem counted_table {q : QosData} {table : Table} {i : Nat} {r used : Rule} {ack sent ratio : Int}
    (rules : q.rules = some table) (here : table.entries[i]? = some r)
    (use : Rule.use r ack sent ratio = .ok used) : SameTable q (counted q table i used) := by
  have config := set_config here (use_config use)
  exact ⟨rfl, rfl, by simp [counted, rules], by simp [counted, rules, config]⟩

theorem apply_rules_table {c : Reply} {q q' : QosData} {ack sent ratio mrif : Int}
    (applied : applyRules timevalSub c q ack sent ratio = .ok (q', mrif)) : SameTable q q' := by
  rcases apply_rules_cases applied with ⟨rfl, _⟩ | ⟨table, i, r, used, selected, result⟩
  · exact .refl q'
  · have same := counted_table selected.rules selected.here selected.use
    rcases result with ⟨_, rfl, _⟩ | ⟨_, moved⟩
    · exact same
    · rw [show q' = (updateMrif _ used c.now).1 from congrArg Prod.fst moved]
      exact same.trans (update_mrif_table _ _ _)

theorem apply_rules_frame {c : Reply} {q q' : QosData} {ack sent ratio mrif : Int}
    (applied : applyRules timevalSub c q ack sent ratio = .ok (q', mrif)) :
    ∃ rules tau time window, q' = { q with
      rules := rules, minUsecBetweenRpcs := tau, lastMrifUpdateTime := time
      maxRpcInFlight100 := window } := by
  rcases apply_rules_cases applied with ⟨rfl, _⟩ | ⟨table, i, r, used, _, result⟩
  · exact ⟨q'.rules, q'.minUsecBetweenRpcs, q'.lastMrifUpdateTime, q'.maxRpcInFlight100, rfl⟩
  · rcases result with ⟨_, rfl, _⟩ | ⟨_, moved⟩
    · exact ⟨_, _, q.lastMrifUpdateTime, q.maxRpcInFlight100, rfl⟩
    · rw [show q' = (updateMrif _ used c.now).1 from congrArg Prod.fst moved]
      exact ⟨_, _, _, _, rfl⟩

theorem qos_adjust_table {c : Reply} {q q' : QosData} {mrif : Int}
    (adjusted : qosAdjust timevalSub c q = .ok (q', mrif)) : SameTable q q' := by
  obtain ⟨⟨measured, ack, sent, ratio⟩, measure, applied⟩ := bind_ok adjusted
  exact (measure_table measure).trans (apply_rules_table applied)

end QosAdjust
