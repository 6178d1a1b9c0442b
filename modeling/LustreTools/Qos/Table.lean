import LustreTools.Lib.Runs
import LustreTools.Qos.Adjust

/-!
The pair `rules` and `rule_no` over every sequence of writes, reads and replies. The two
fields agree as long as no table is asked for that cannot be had and the rules are not
read while the rate rounds to a gap of zero.
-/
namespace QosTable
open Runs Words Text QosRules QosAdjust

inductive Call where
  | write (o : WriteOutcomes) (buffer : List Char)
  | read (alloc : Bool)
  | reply (c : Reply)

/-- `oops` is set by the first fault and ends the run. -/
structure Machine where
  qos : QosData
  oops : Bool

section
variable (timevalSub : Timeval → Timeval → Int)

def perform (q : QosData) : Call → QosData × Option Fault
  | .write o buffer => ((oscQosRulesSeqWrite o buffer q).qos, none)
  | .read alloc =>
    let shown := oscQosRulesSeqShow alloc q
    (shown.1, match shown.2 with
      | .ok _ => none
      | .error fault => some fault)
  | .reply c =>
    match qosAdjust timevalSub c q with
    | .ok (adjusted, _) => (adjusted, none)
    | .error fault => (q, some fault)

def freedBy (q : QosData) : Call → List Free
  | .write o buffer => (oscQosRulesSeqWrite o buffer q).freed
  | _ => []

def step (s : Machine) (call : Call) : Machine :=
  if s.oops then s
  else
    let done := perform timevalSub s.qos call
    ⟨done.1, done.2.isSome⟩

def Contained (s : Machine) (call : Call) : Prop :=
  (∀ f ∈ freedBy s.qos call, f.claimed = f.allocated) ∧
    (perform timevalSub s.qos call).2 ≠ some .outOfBounds

end

/-- The table was allocated with exactly `rule_no` entries. -/
structure Holds (q : QosData) (table : Table) : Prop where
  rules : q.rules = some table
  positive : 0 < q.ruleNo
  range : InS32 q.ruleNo
  bytes : table.bytes = q.ruleNo * ruleSize
  entries : table.entries.length = q.ruleNo.toNat

def TableOk (q : QosData) : Prop := q.rules = none ∧ q.ruleNo = 0 ∨ ∃ table, Holds q table

/-- A text that asks for a table asks for a positive number of rules and gets the memory,
    and no rules are read while the gap is zero. -/
def CallSafe (s : Machine) : Call → Prop
  | .write o buffer => s.oops = false → o.kernbuf = true → o.copied = true →
      ¬ ZeroText (cString buffer) →
      ∀ newRuleNo rulesPerSec p, sscanf headerFormat (cString buffer) = ([newRuleNo, rulesPerSec], some p) →
        newRuleNo ≠ 0 → rulesPerSec ≠ 0 → 0 < newRuleNo ∧ o.table = true
  | .read _ => s.oops = false → s.qos.rules ≠ none → s.qos.minGapBetweenUpdatingMrif ≠ 0
  | .reply _ => True

theorem parse_lines_succ {n : Nat} {p : List Char} {rules : List Rule}
    (parsed : parseRuleLines (n + 1) p = some rules) :
    ∃ r rest others, Rule.ofFields (sscanf ruleFormat p).1 = some r ∧
      parseRuleLines n (nextLine rest) = some others ∧ rules = r :: others := by
  unfold parseRuleLines at parsed
  dsimp only at parsed
  split at parsed
  · rename_i r rest fields _
    obtain ⟨others, tail, same⟩ := Option.map_eq_some_iff.mp parsed
    exact ⟨r, rest, others, fields, tail, same.symm⟩
  · cases parsed

theorem parse_lines_length {n : Nat} {p : List Char} {rules : List Rule}
    (parsed : parseRuleLines n p = some rules) : rules.length = n := by
  induction n generalizing p rules with
  | zero =>
    cases parsed
    rfl
  | succ n ih =>
    obtain ⟨r, rest, others, _, tail, rfl⟩ := parse_lines_succ parsed
    rw [List.length_cons, ih tail]

theorem parse_lines_forall {good : Rule → Prop}
    (line : ∀ p r, Rule.ofFields (sscanf ruleFormat p).1 = some r → good r) {n : Nat} {p : List Char}
    {rules : List Rule} (parsed : parseRuleLines n p = some rules) : ∀ r ∈ rules, good r := by
  induction n generalizing p rules with
  | zero =>
    cases parsed
    intro r none
    cases none
  | succ n ih =>
    obtain ⟨r, rest, others, fields, tail, rfl⟩ := parse_lines_succ parsed
    intro x member
    rcases List.mem_cons.mp member with rfl | later
    · exact line p x fields
    · exact ih tail x later

theorem header_range {buf p : List Char} {n k : Int}
    (scanned : sscanf headerFormat buf = ([n, k], some p)) : InS32 n ∧ InS32 k := by
  unfold headerFormat at scanned
  simp only [sscanf] at scanned
  split at scanned
  · simp at scanned
  · split at scanned
    · simp at scanned
    · split at scanned
      · split at scanned
        · simp at scanned
        · simp only [Prod.mk.injEq, List.cons.injEq] at scanned
          obtain ⟨⟨rfl, rfl, _⟩, _⟩ := scanned
          exact ⟨s32_in _, s32_in _⟩
      · simp at scanned

theorem bytes_exact {n : Int} (positive : 0 < n) (range : InS32 n) : u64 (n * ruleSize) = n * ruleSize := by
  apply u64_of_in
  simp only [InS32, InU64, ruleSize] at *
  omega

theorem clear_ok (q : QosData) : TableOk q.clear := Or.inl ⟨rfl, rfl⟩

theorem table_ok_congr {q q' : QosData} (ruleNo : q'.ruleNo = q.ruleNo) (rules : q'.rules = q.rules) :
    TableOk q' ↔ TableOk q := by
  have holds (table : Table) : Holds q' table ↔ Holds q table := by
    constructor
    · rintro ⟨a, b, c, d, e⟩
      rw [ruleNo] at b c d e
      rw [rules] at a
      exact ⟨a, b, c, d, e⟩
    · rintro ⟨a, b, c, d, e⟩
      rw [← ruleNo] at b c d e
      rw [← rules] at a
      exact ⟨a, b, c, d, e⟩
  simp only [TableOk, rules, ruleNo, holds]

theorem load_table_ok (alloc : Bool) {n k : Int} (p : List Char) (q : QosData) (nonzero : n ≠ 0)
    (range : InS32 n) : TableOk (loadRules alloc n k p q).qos ↔ 0 < n ∧ alloc = true := by
  obtain ⟨opened, rfl, exits⟩ := load_cases alloc n k p q
  rcases exits with ⟨failed, memory⟩ | ⟨rules, ⟨allocated, parsed⟩, loaded⟩ | ⟨⟨allocated, bad⟩, line⟩
  · rw [memory]
    apply iff_of_false
    · rintro (⟨_, zero⟩ | ⟨table, holds⟩)
      · exact nonzero zero
      · cases holds.rules
    · simp [failed]
  · rw [loaded]
    simp only [allocated, and_true]
    constructor
    · rintro (⟨none, _⟩ | ⟨table, holds⟩)
      · cases none
      · exact holds.positive
    · intro positive
      exact Or.inr ⟨_, rfl, positive, range, bytes_exact positive range, parse_lines_length parsed⟩
  · rw [line]
    apply iff_of_true (clear_ok _)
    -- A negative count reads no line, so it cannot meet a bad one.
    have positive : 0 < n := by
      by_contra negative
      have none : n.toNat = 0 := by omega
      rw [none] at bad
      cases bad
    exact ⟨positive, allocated⟩

theorem parse_table_ok (alloc : Bool) (buf : List Char) {q : QosData} (ok : TableOk q) :
    TableOk (parseQosRules alloc buf q).qos ↔ (¬ ZeroText buf →
      ∀ n k p, sscanf headerFormat buf = ([n, k], some p) → n ≠ 0 → k ≠ 0 → 0 < n ∧ alloc = true) := by
  rcases parse_cases alloc buf q with ⟨none, cleared⟩ | ⟨⟨_, unread⟩, rejected⟩ |
    ⟨n, k, p, ⟨long, scanned, first, second⟩, loads⟩
  · rw [cleared]
    apply iff_of_true (clear_ok q)
    intro long n k p scanned first second
    rcases none with zero | ⟨n', k', p', scanned', none⟩
    · exact absurd zero long
    · obtain ⟨rfl, rfl, _⟩ := header_unique scanned scanned'
      exact (none.elim first second).elim
  · rw [rejected]
    apply iff_of_true ok
    intro _ n k p scanned
    exact absurd scanned (unread n k p)
  · rw [loads, load_table_ok alloc p q first (header_range scanned).1]
    constructor
    · intro safe _ _ _ _ scanned' _ _
      obtain ⟨rfl, _⟩ := header_unique scanned scanned'
      exact safe
    · intro safe
      exact safe long n k p scanned first second

theorem write_table_ok (o : WriteOutcomes) (buffer : List Char) {q : QosData} (ok : TableOk q) :
    TableOk (oscQosRulesSeqWrite o buffer q).qos ↔ CallSafe ⟨q, false⟩ (.write o buffer) := by
  unfold oscQosRulesSeqWrite
  simp only [CallSafe, forall_const]
  split
  · rename_i failed
    exact iff_of_true ok fun kernbuf => by simp [kernbuf] at failed
  · rename_i kernbuf
    split
    · rename_i failed
      exact iff_of_true ok fun _ copied => by simp [copied] at failed
    · rename_i copied
      have parsed := parse_table_ok o.table (cString buffer) ok
      simp only [Bool.not_eq_true', Bool.not_eq_false] at kernbuf copied
      simp only [kernbuf, copied, forall_const]
      rw [← parsed]
      exact table_ok_congr rfl rfl

theorem show_table_ok (alloc : Bool) {q : QosData} (ok : TableOk q) :
    TableOk (oscQosRulesSeqShow alloc q).1 ↔ CallSafe ⟨q, false⟩ (.read alloc) := by
  simp only [oscQosRulesSeqShow, QosData.shown, CallSafe, forall_const]
  rcases ok with ⟨none, zero⟩ | ⟨table, holds⟩
  · refine iff_of_true ?_ (fun some => absurd none some)
    split
    · exact Or.inl ⟨none, rfl⟩
    · exact Or.inl ⟨none, zero⟩
  · have positive := holds.positive
    have unset : q.Unset ↔ q.minGapBetweenUpdatingMrif = 0 := by
      simp [QosData.Unset, holds.rules]
      omega
    simp only [unset, holds.rules, ne_eq, reduceCtorEq, not_false_eq_true, forall_const]
    split
    · rename_i gap
      refine iff_of_false ?_ (not_not.mpr gap)
      rintro (⟨none, _⟩ | ⟨_, after⟩)
      · cases none
      · exact absurd after.positive (Int.lt_irrefl 0)
    · rename_i gap
      exact iff_of_true (Or.inr ⟨table, holds⟩) gap

theorem same_table_ok {q q' : QosData} (same : SameTable q q') (ok : TableOk q) : TableOk q' := by
  rcases ok with ⟨none, zero⟩ | ⟨table, holds⟩
  · refine Or.inl ⟨?_, by rw [same.ruleNo, zero]⟩
    have bytes := same.bytes
    rw [none] at bytes
    exact Option.map_eq_none_iff.mp bytes
  · have bytes := same.bytes
    have config := same.config
    rw [holds.rules] at bytes config
    obtain ⟨table', rules, size⟩ := Option.map_eq_some_iff.mp bytes
    rw [rules, Option.map_some, Option.map_some, Option.some.injEq] at config
    have count := congrArg List.length config
    rw [List.length_map, List.length_map, holds.entries] at count
    refine Or.inr ⟨table', rules, ?_, ?_, ?_, ?_⟩
    · rw [same.ruleNo]; exact holds.positive
    · rw [same.ruleNo]; exact holds.range
    · rw [same.ruleNo, size]; exact holds.bytes
    · rw [same.ruleNo]; exact count

variable {timevalSub : Timeval → Timeval → Int}

theorem oops_stays {s : Machine} (call : Call) (oops : s.oops = true) :
    (step timevalSub s call).oops = true := by
  simp [step, oops]

theorem step_table_ok (s : Machine) (call : Call) (ok : TableOk s.qos) :
    TableOk (step timevalSub s call).qos ↔ CallSafe s call := by
  obtain ⟨q, oops⟩ := s
  cases oops with
  | true =>
    apply iff_of_true ok
    cases call with
    | write o buffer => exact fun running => by cases running
    | read alloc => exact fun running => by cases running
    | reply c => trivial
  | false =>
    cases call with
    | write o buffer => exact write_table_ok o buffer ok
    | read alloc => exact show_table_ok alloc ok
    | reply c =>
      refine iff_of_true ?_ trivial
      simp only [step, perform, Bool.false_eq_true, ↓reduceIte]
      split
      · rename_i adjusted mrif done
        exact same_table_ok (qos_adjust_table done) ok
      · exact ok

theorem print_inside {entries : List Rule} {left i : Nat} (inside : i + left ≤ entries.length)
    (needed : Int) (text : List Char) :
    printRules entries left i needed text ≠ .error .outOfBounds := by
  induction left generalizing i needed text with
  | zero => simp [printRules]
  | succ left ih =>
    unfold printRules
    split
    · rename_i missing
      rw [List.getElem?_eq_none_iff] at missing
      omega
    · unfold addLength
      split
      · rename_i fault added
        split at added
        · simp [← Except.error.inj added]
        · cases added
      · exact ih (by omega) _ _

theorem table_ok_inside {q : QosData} (ok : TableOk q) : q.ruleNo.toNat ≤ q.entries.length := by
  rcases ok with ⟨_, zero⟩ | ⟨table, holds⟩
  · simp [zero]
  · simp [QosData.entries, holds.rules, holds.entries]

theorem show_inside (alloc : Bool) {q : QosData} (ok : TableOk q) :
    (oscQosRulesSeqShow alloc q).2 ≠ .error .outOfBounds := by
  have inside : 0 + q.shown.ruleNo.toNat ≤ q.shown.entries.length := by
    unfold QosData.shown
    split
    · simp
    · have table := table_ok_inside ok
      omega
  rw [seq_show_eq]
  unfold showPass
  have printed := print_inside inside q.shown.headerText.length q.shown.headerText
  cases result : printRules q.shown.entries q.shown.ruleNo.toNat 0 q.shown.headerText.length
      q.shown.headerText with
  | error fault => simpa [result] using printed
  | ok pair =>
    obtain ⟨needed, text⟩ := pair
    dsimp only
    split
    · rename_i fault passed
      split at passed
      · simp [← Except.error.inj passed]
      · cases passed
    · split <;> simp

theorem bind_fault {α β : Type} {x : Except Fault α} {f : α → Except Fault β} {fault : Fault}
    (failed : x >>= f = .error fault) : x = .error fault ∨ ∃ a, x = .ok a ∧ f a = .error fault := by
  cases x with
  | error other => cases failed; exact Or.inl rfl
  | ok a => exact Or.inr ⟨a, rfl, failed⟩

theorem divide_fault {low a b : Int} {fault : Fault} (failed : divide low a b = .error fault) :
    fault = .divide := by
  unfold divide at failed
  split at failed
  · exact (Except.error.inj failed).symm
  · cases failed

theorem use_fault {r : Rule} {ack sent ratio : Int} {fault : Fault}
    (failed : Rule.use r ack sent ratio = .error fault) : fault = .divide := by
  rcases bind_fault failed with first | ⟨_, _, failed⟩
  · exact divide_fault first
  rcases bind_fault failed with second | ⟨_, _, failed⟩
  · exact divide_fault second
  rcases bind_fault failed with third | ⟨_, _, failed⟩
  · exact divide_fault third
  · cases failed

theorem ewma_fault {te : TimeEwma} {time : Timeval} {fault : Fault}
    (failed : timeEwmaAddExtlock timevalSub te time = .error fault) : fault = .divide := by
  unfold timeEwmaAddExtlock at failed
  dsimp only at failed
  generalize (if timevalSub time te.lastTime < 0 then s64 (-timevalSub time te.lastTime)
    else timevalSub time te.lastTime) = timediff at failed
  split at failed
  · split at failed
    · cases failed
    · split at failed
      · exact (Except.error.inj failed).symm
      · cases failed
  · cases failed

theorem get_ewma_fault {te : TimeEwma} {fault : Fault} (failed : qosGetEwmaUsec te = .error fault) :
    fault = .divide := by
  unfold qosGetEwmaUsec at failed
  split at failed
  · exact (Except.error.inj failed).symm
  · cases failed

theorem measure_fault {c : Reply} {q : QosData} {fault : Fault}
    (failed : measure timevalSub c q = .error fault) : fault = .divide := by
  rcases bind_fault failed with first | ⟨_, _, failed⟩
  · exact ewma_fault first
  rcases bind_fault failed with second | ⟨_, _, failed⟩
  · exact get_ewma_fault second
  rcases bind_fault failed with third | ⟨_, _, failed⟩
  · exact ewma_fault third
  rcases bind_fault failed with fourth | ⟨_, _, failed⟩
  · exact get_ewma_fault fourth
  rcases bind_fault failed with fifth | ⟨_, _, failed⟩
  · exact divide_fault fifth
  · cases failed

theorem adjust_inside (timevalSub : Timeval → Timeval → Int) (c : Reply) {q : QosData} (ok : TableOk q) :
    qosAdjust timevalSub c q ≠ .error .outOfBounds := by
  intro failed
  rcases bind_fault failed with first | ⟨⟨measured, ack, sent, ratio⟩, done, failed⟩
  · cases measure_fault first
  have inside := table_ok_inside (same_table_ok (measure_table done) ok)
  dsimp only [applyRules] at failed
  split at failed
  · cases failed
  · rename_i table rules
    simp only [QosData.entries, rules] at inside
    split at failed
    · cases failed
    · rcases bind_fault failed with search | ⟨found, _, failed⟩
      · exact search_inside (by omega) search
      · cases found with
        | none => cases failed
        | some pair =>
          obtain ⟨i, r⟩ := pair
          rcases bind_fault failed with use | ⟨used, _, failed⟩
          · cases use_fault use
          · split at failed <;> cases failed

theorem freed_exact {q : QosData} (ok : TableOk q) : ∀ f ∈ q.freed, f.claimed = f.allocated := by
  rcases ok with ⟨none, _⟩ | ⟨table, holds⟩
  · simp [QosData.freed, none]
  · simp only [QosData.freed, holds.rules, List.mem_singleton]
    rintro f rfl
    rw [bytes_exact holds.positive holds.range, holds.bytes]

theorem write_freed_exact (o : WriteOutcomes) (buffer : List Char) {q : QosData} (ok : TableOk q) :
    ∀ f ∈ (oscQosRulesSeqWrite o buffer q).freed, f.claimed = f.allocated := by
  have old := freed_exact ok
  unfold oscQosRulesSeqWrite
  split
  · simp
  · split
    · simp
    · rcases parse_cases o.table (cString buffer) q with ⟨_, cleared⟩ | ⟨_, rejected⟩ | ⟨n, k, p, _, loads⟩
      · simpa only [cleared] using old
      · simp [rejected]
      · obtain ⟨opened, _, exits⟩ := load_cases o.table n k p q
        rcases exits with ⟨_, memory⟩ | ⟨rules, _, table⟩ | ⟨_, line⟩
        · simpa only [loads, memory] using old
        · simpa only [loads, table] using old
        · simp only [loads, line]
          intro f member
          rcases List.mem_append.mp member with before | new
          · exact old f before
          · simp only [List.mem_singleton] at new
            rw [new]

theorem table_ok_contained (s : Machine) (call : Call) (ok : TableOk s.qos) :
    Contained timevalSub s call := by
  cases call with
  | write o buffer => exact ⟨write_freed_exact o buffer ok, by simp [perform]⟩
  | read alloc =>
    refine ⟨by simp [freedBy], ?_⟩
    have inside := show_inside alloc ok
    simp only [perform]
    split
    · simp
    · rename_i fault failed
      rw [failed] at inside
      simpa using inside
  | reply c =>
    refine ⟨by simp [freedBy], ?_⟩
    have inside := adjust_inside timevalSub c ok
    simp only [perform]
    split
    · simp
    · rename_i fault failed
      rw [failed] at inside
      simpa using inside

/-- From a client without rules, in every run of writes, reads and replies, the table has
    exactly `rule_no` entries after each call exactly when every call is safe; then every
    release names the allocated size and every loop over the rules stays in the table. -/
theorem qos_table_ok_iff_calls_safe (timevalSub : Timeval → Timeval → Int) (q : QosData)
    (empty : q.rules = none) (zero : q.ruleNo = 0) (calls : List Call) :
    (Always (step timevalSub) (fun s => TableOk s.qos) ⟨q, false⟩ calls ↔
      Along (step timevalSub) CallSafe ⟨q, false⟩ calls) ∧
    (Along (step timevalSub) CallSafe ⟨q, false⟩ calls →
      Along (step timevalSub) (Contained timevalSub) ⟨q, false⟩ calls) := by
  have start : TableOk (Machine.mk q false).qos := Or.inl ⟨empty, zero⟩
  have exactly : Always (step timevalSub) (fun s => TableOk s.qos) ⟨q, false⟩ calls ↔
      Along (step timevalSub) CallSafe ⟨q, false⟩ calls := always_iff_along step_table_ok start
  refine ⟨exactly, fun safe => ?_⟩
  exact along_of_always table_ok_contained (exactly.mpr safe)

def initQos (clMaxRpcsInFlight : Int) : QosData :=
  { ackEwma := ⟨8, 0, ⟨0, 0⟩⟩, sentEwma := ⟨8, 0, ⟨0, 0⟩⟩, rttRatio100 := 0, smallestRtt := 0,
    maxRpcInFlight100 := s32 (clMaxRpcsInFlight * 100), lastMrifUpdateTime := ⟨0, 0⟩,
    minGapBetweenUpdatingMrif := 0, ruleNo := 0, read := ⟨0, 0, 0⟩, write := ⟨0, 0, 0⟩,
    minUsecBetweenRpcs := 0, rules := none }

def usecSub (a b : Timeval) : Int := (a.tvSec - b.tvSec) * 1000000 + (a.tvUsec - b.tvUsec)

def oneRule (rate : List Char) : List Char :=
  ['1', ','] ++ rate ++ ['\n', '0', ',', '9', ',', '0', ',', '9', ',', '0', ',', '9', '0', '0', ',',
    '1', '0', '0', ',', '5', ',', '7', '\n']

def oneReply : Reply := ⟨⟨5, 0⟩, ⟨5, 0⟩, 0, 4096, ⟨5, 100⟩, ⟨5, 100⟩, true⟩

theorem qos_table_ok_write_use_read :
    let calls : List Call := [.write ⟨true, true, true⟩ (oneRule ['1', '0']), .reply oneReply,
      .read true, .write ⟨true, true, true⟩ ['0']]
    (run (step usecSub) ⟨initQos 8, false⟩ (calls.take 3)).qos.ruleNo = 1 ∧
      Always (step usecSub) (fun s => TableOk s.qos) ⟨initQos 8, false⟩ calls := by
  intro calls
  refine ⟨by decide +kernel, ?_⟩
  refine (qos_table_ok_iff_calls_safe usecSub (initQos 8) rfl rfl calls).1.mpr ?_
  refine ⟨?_, trivial, fun _ _ => ?_, fun _ _ _ nonzero => absurd ?_ nonzero, trivial⟩
  · intro _ _ _ _ n k p scanned _ _
    have header : (sscanf headerFormat (cString (oneRule ['1', '0']))).1 = [1, 10] := by decide +kernel
    rw [scanned] at header
    simp only [List.cons.injEq] at header
    exact ⟨by omega, rfl⟩
  · show (run (step usecSub) ⟨initQos 8, false⟩ (calls.take 2)).qos.minGapBetweenUpdatingMrif ≠ 0
    decide +kernel
  · decide

/-- Without memory for the table `rule_no` is set and `rules` is not; and after a rate of
    two million a read clears `rule_no` under the table. -/
theorem qos_rule_count_without_table :
    ¬ Always (step usecSub) (fun s => TableOk s.qos) ⟨initQos 8, false⟩
        [.write ⟨true, true, false⟩ (oneRule ['1', '0'])] ∧
      ¬ Always (step usecSub) (fun s => TableOk s.qos) ⟨initQos 8, false⟩
        [.write ⟨true, true, true⟩ (oneRule ['2', '0', '0', '0', '0', '0', '0']), .read true] := by
  constructor
  · intro always
    rcases always_run always with ⟨_, zero⟩ | ⟨table, holds⟩
    · revert zero
      decide +kernel
    · have none : (run (step usecSub) ⟨initQos 8, false⟩
          [.write ⟨true, true, false⟩ (oneRule ['1', '0'])]).qos.rules = none := by decide +kernel
      rw [holds.rules] at none
      cases none
  · intro always
    rcases always_run always with ⟨none, _⟩ | ⟨table, holds⟩
    · revert none
      decide +kernel
    · have zero : (run (step usecSub) ⟨initQos 8, false⟩
          [.write ⟨true, true, true⟩ (oneRule ['2', '0', '0', '0', '0', '0', '0']),
            .read true]).qos.ruleNo = 0 := by
        decide +kernel
      have positive := holds.positive
      rw [zero] at positive
      exact absurd positive (Int.lt_irrefl 0)

end QosTable
