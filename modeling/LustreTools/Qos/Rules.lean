import LustreTools.Lib.Text

/-!
The QoS rules of a client OSC (qos_rules.c, lproc_osc.c): the table, its parser, and the
functions behind reading and writing the `qos_rules` file of procfs. Sizes are computed
in `size_t`; whether an allocation succeeds is a parameter.
-/
namespace QosRules
open Words Text

structure Rule where
  ackEwmaLower : Int
  ackEwmaUpper : Int
  sendEwmaLower : Int
  sendEwmaUpper : Int
  rttRatio100Lower : Int
  rttRatio100Upper : Int
  m100 : Int
  b100 : Int
  tau : Int
  usedTimes : Int
  ackEwmaAvg : Int
  sendEwmaAvg : Int
  rttRatio100Avg : Int
  deriving DecidableEq, Repr

def ruleSize : Int := 80

/-- An allocated rule table: the size that was asked for, and the rules in it. -/
structure Table where
  bytes : Int
  entries : List Rule
  deriving DecidableEq, Repr

structure TimeEwma where
  alphaInv : Int
  ea : Int
  lastTime : Timeval
  deriving DecidableEq, Repr

structure Bandwidth where
  lastReqSec : Int
  bwLastSec : Int
  sumBytesThisSec : Int
  deriving DecidableEq, Repr

structure QosData where
  ackEwma : TimeEwma
  sentEwma : TimeEwma
  rttRatio100 : Int
  smallestRtt : Int
  maxRpcInFlight100 : Int
  lastMrifUpdateTime : Timeval
  minGapBetweenUpdatingMrif : Int
  ruleNo : Int
  read : Bandwidth
  write : Bandwidth
  minUsecBetweenRpcs : Int
  rules : Option Table
  deriving DecidableEq, Repr

/-- A call of `LIBCFS_FREE` on the rules: the size it names and the size allocated. -/
structure Free where
  claimed : Int
  allocated : Int
  deriving DecidableEq, Repr

def QosData.freed (q : QosData) : List Free :=
  match q.rules with
  | none => []
  | some table => [⟨u64 (q.ruleNo * ruleSize), table.bytes⟩]

def QosData.clear (q : QosData) : QosData := { q with ruleNo := 0, rules := none }

def headerFormat : List Directive := [.conv .d, .lit ',', .conv .d, .space, .count]

def ruleConvs : List Conv := [.llu, .llu, .llu, .llu, .u, .u, .d, .d, .u]

def ruleFormat : List Directive := commaFormat ruleConvs ++ [.count]

def Rule.ofFields : List Int → Option Rule
  | [al, au, sl, su, rl, ru, m, b, tau] => some ⟨al, au, sl, su, rl, ru, m, b, tau, 0, 0, 0, 0⟩
  | _ => none

def nextLine : List Char → List Char
  | [] => []
  | c :: p => if c = '\n' then p else nextLine p

def parseRuleLines : Nat → List Char → Option (List Rule)
  | 0, _ => some []
  | n + 1, p =>
    let scanned := sscanf ruleFormat p
    match Rule.ofFields scanned.1, scanned.2 with
    | some r, some p => (parseRuleLines n (nextLine p)).map (r :: ·)
    | _, _ => none

structure ParseResult where
  qos : QosData
  rc : Int
  freed : List Free

/-- The texts "0" and "0\n", and whatever else is as short and starts with a zero. -/
def ZeroText (buf : List Char) : Prop := buf.length ≤ 2 ∧ buf.head? = some '0'

instance (buf : List Char) : Decidable (ZeroText buf) := inferInstanceAs (Decidable (_ ∧ _))

def loadRules (alloc : Bool) (newRuleNo rulesPerSec : Int) (p : List Char) (q : QosData) : ParseResult :=
  let opened := { q with
    ruleNo := newRuleNo
    minGapBetweenUpdatingMrif := (1000000 : Int).tdiv rulesPerSec }
  let bytes := u64 (newRuleNo * ruleSize)
  if !alloc then ⟨{ opened with rules := none }, enomem, q.freed⟩
  else match parseRuleLines newRuleNo.toNat p with
  | some rules => ⟨{ opened with rules := some ⟨bytes, rules⟩ }, 0, q.freed⟩
  | none => ⟨opened.clear, einval, q.freed ++ [⟨u64 (opened.ruleNo * ruleSize), bytes⟩]⟩

def parseQosRules (alloc : Bool) (buf : List Char) (q : QosData) : ParseResult :=
  if ZeroText buf then ⟨q.clear, 0, q.freed⟩
  else match sscanf headerFormat buf with
  | ([newRuleNo, rulesPerSec], some p) =>
    if newRuleNo = 0 ∨ rulesPerSec = 0 then ⟨q.clear, 0, q.freed⟩
    else loadRules alloc newRuleNo rulesPerSec p q
  | _ => ⟨q, einval, []⟩

structure WriteOutcomes where
  kernbuf : Bool
  copied : Bool
  table : Bool
  deriving DecidableEq, Repr

def cString (buffer : List Char) : List Char := buffer.takeWhile (· ≠ '\x00')

def TimeEwma.reset (te : TimeEwma) : TimeEwma := { te with ea := 0, lastTime := ⟨0, 0⟩ }

def oscQosRulesSeqWrite (o : WriteOutcomes) (buffer : List Char) (q : QosData) : ParseResult :=
  if !o.kernbuf then ⟨q, enomem, []⟩
  else if !o.copied then ⟨q, efault, []⟩
  else
    let parsed := parseQosRules o.table (cString buffer) q
    { parsed with
      qos := { parsed.qos with
        ackEwma := parsed.qos.ackEwma.reset
        sentEwma := parsed.qos.sentEwma.reset
        rttRatio100 := 0
        smallestRtt := 0 }
      rc := if parsed.rc = 0 then s32 buffer.length else parsed.rc }

inductive Fault where
  | nullWrite
  | overflow
  | outOfBounds
  | divide
  | unfinished
  deriving DecidableEq, Repr

def Rule.config (r : Rule) : List Int :=
  [r.ackEwmaLower, r.ackEwmaUpper, r.sendEwmaLower, r.sendEwmaUpper, r.rttRatio100Lower,
    r.rttRatio100Upper, r.m100, r.b100, r.tau]

def Rule.stats (r : Rule) : List Int :=
  [r.usedTimes, r.ackEwmaAvg, r.sendEwmaAvg, r.rttRatio100Avg]

def Rule.line (r : Rule) : List Char := csv (r.config ++ r.stats) ++ ['\n']

def QosData.Unset (q : QosData) : Prop :=
  q.ruleNo = 0 ∨ q.rules = none ∨ q.minGapBetweenUpdatingMrif = 0

instance (q : QosData) : Decidable q.Unset := inferInstanceAs (Decidable (_ ∨ _ ∨ _))

/-- Reading the file sets the rule count to zero in that state. -/
def QosData.shown (q : QosData) : QosData := if q.Unset then { q with ruleNo := 0 } else q

def QosData.headerText (q : QosData) : List Char :=
  if q.Unset then ['0', '\n']
  else csv [q.ruleNo, (1000000 : Int).tdiv q.minGapBetweenUpdatingMrif] ++ ['\n']

def intMax : Int := 2147483647

/-- `bytes_needed += snprintf(..)`. The sum is an `int`: one that wraps is a negative offset
    into the buffer, and the text is lost. -/
def addLength (needed : Int) (text : List Char) : Except Fault Int :=
  if needed + text.length > intMax then .error .overflow else .ok (needed + text.length)

def printRules (entries : List Rule) : Nat → Nat → Int → List Char → Except Fault (Int × List Char)
  | 0, _, needed, text => .ok (needed, text)
  | left + 1, i, needed, text =>
    match entries[i]? with
    | none => .error .outOfBounds
    | some r =>
      match addLength needed r.line with
      | .error fault => .error fault
      | .ok needed => printRules entries left (i + 1) needed (text ++ r.line)

def QosData.entries (q : QosData) : List Rule :=
  match q.rules with
  | none => []
  | some table => table.entries

def showPass (q : QosData) : Except Fault (Int × List Char) :=
  match printRules q.entries q.ruleNo.toNat 0 q.headerText.length q.headerText with
  | .error fault => .error fault
  | .ok (needed, text) =>
    if needed + 1 > intMax then .error .overflow else .ok (needed + 1, text)

/-- The passes of the print loop, at most as many as the first argument. A pass that finds
    the buffer too small allocates one of the size it needs; the buffer holds as much of
    the text as fits. -/
def showLoop (alloc : Bool) (q : QosData) : Nat → Int → Bool → Except Fault (List Char)
  | 0, _, _ => .error .unfinished
  | passes + 1, size, kernbuf =>
    if 0 < size ∧ !kernbuf then .error .nullWrite
    else match showPass q with
    | .error fault => .error fault
    | .ok (needed, text) =>
      if needed > size then showLoop alloc q passes needed alloc
      else .ok (text.take (size - 1).toNat)

def oscQosRulesSeqShow (alloc : Bool) (q : QosData) : QosData × Except Fault (List Char) :=
  (q.shown, showLoop alloc q.shown 2 0 false)

theorem parse_cases (alloc : Bool) (buf : List Char) (q : QosData) :
    ((ZeroText buf ∨ ∃ n k p, sscanf headerFormat buf = ([n, k], some p) ∧ (n = 0 ∨ k = 0)) ∧
        parseQosRules alloc buf q = ⟨q.clear, 0, q.freed⟩) ∨
      ((¬ ZeroText buf ∧ ∀ n k p, sscanf headerFormat buf ≠ ([n, k], some p)) ∧
        parseQosRules alloc buf q = ⟨q, einval, []⟩) ∨
      ∃ n k p, (¬ ZeroText buf ∧ sscanf headerFormat buf = ([n, k], some p) ∧ n ≠ 0 ∧ k ≠ 0) ∧
        parseQosRules alloc buf q = loadRules alloc n k p q := by
  unfold parseQosRules
  split
  · rename_i zero
    exact Or.inl ⟨Or.inl zero, rfl⟩
  · rename_i long
    split
    · rename_i n k p scanned
      split
      · rename_i none
        exact Or.inl ⟨Or.inr ⟨n, k, p, scanned, none⟩, rfl⟩
      · rename_i some
        obtain ⟨first, second⟩ := not_or.mp some
        exact Or.inr (Or.inr ⟨n, k, p, ⟨long, scanned, first, second⟩, rfl⟩)
    · rename_i unread
      exact Or.inr (Or.inl ⟨⟨long, unread⟩, rfl⟩)

theorem header_unique {buf p p' : List Char} {n k n' k' : Int}
    (scanned : sscanf headerFormat buf = ([n, k], some p))
    (again : sscanf headerFormat buf = ([n', k'], some p')) : n = n' ∧ k = k' ∧ p = p' := by
  rw [scanned] at again
  simpa only [Prod.mk.injEq, List.cons.injEq, and_true, Option.some.injEq, and_assoc] using again

theorem load_cases (alloc : Bool) (n k : Int) (p : List Char) (q : QosData) :
    ∃ opened : QosData,
      opened = { q with ruleNo := n, minGapBetweenUpdatingMrif := (1000000 : Int).tdiv k } ∧
        ((alloc = false ∧ loadRules alloc n k p q = ⟨{ opened with rules := none }, enomem, q.freed⟩) ∨
          (∃ rules, (alloc = true ∧ parseRuleLines n.toNat p = some rules) ∧
            loadRules alloc n k p q = ⟨{ opened with rules := some ⟨u64 (n * ruleSize), rules⟩ }, 0,
              q.freed⟩) ∨
          (alloc = true ∧ parseRuleLines n.toNat p = none) ∧
            loadRules alloc n k p q =
              ⟨opened.clear, einval, q.freed ++ [⟨u64 (n * ruleSize), u64 (n * ruleSize)⟩]⟩) := by
  refine ⟨_, rfl, ?_⟩
  unfold loadRules
  cases alloc with
  | false => exact Or.inl ⟨rfl, rfl⟩
  | true =>
    cases parsed : parseRuleLines n.toNat p with
    | none => exact Or.inr (Or.inr ⟨⟨rfl, rfl⟩, rfl⟩)
    | some rules => exact Or.inr (Or.inl ⟨rules, ⟨rfl, rfl⟩, rfl⟩)

theorem print_rules_length {entries : List Rule} {left i : Nat} {needed needed' : Int}
    {text text' : List Char} (start : needed = text.length)
    (printed : printRules entries left i needed text = .ok (needed', text')) :
    needed' = text'.length := by
  induction left generalizing i needed text with
  | zero =>
    simp only [printRules, Except.ok.injEq, Prod.mk.injEq] at printed
    rw [← printed.1, ← printed.2, start]
  | succ left ih =>
    unfold printRules at printed
    split at printed
    · cases printed
    · rename_i r here
      unfold addLength at printed
      split at printed
      · cases printed
      · rename_i more added
        split at added
        · cases added
        · refine ih ?_ printed
          rw [← Except.ok.inj added, start]
          simp

theorem show_pass_size {q : QosData} {needed : Int} {text : List Char}
    (passed : showPass q = .ok (needed, text)) : needed = text.length + 1 := by
  unfold showPass at passed
  split at passed
  · cases passed
  · rename_i size body printed
    have length := print_rules_length rfl printed
    split at passed
    · cases passed
    · simp only [Except.ok.injEq, Prod.mk.injEq] at passed
      rw [← passed.1, ← passed.2, length]

theorem seq_show_eq (alloc : Bool) (q : QosData) :
    (oscQosRulesSeqShow alloc q).2 = match showPass q.shown with
      | .error fault => .error fault
      | .ok (_, text) => if alloc then .ok text else .error .nullWrite := by
  simp only [oscQosRulesSeqShow, showLoop, lt_self_iff_false, false_and, ↓reduceIte]
  cases passed : showPass q.shown with
  | error fault => rfl
  | ok result =>
    obtain ⟨needed, text⟩ := result
    have size := show_pass_size passed
    have positive : needed > 0 := by omega
    have whole : (needed - 1).toNat = text.length := by omega
    cases alloc <;> simp [positive, whole]

end QosRules
