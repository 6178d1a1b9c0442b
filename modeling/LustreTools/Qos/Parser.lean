import LustreTools.Qos.RoundTrip

/-!
What the parser of the `qos_rules` file makes of a well-formed text: a header of two
numbers, and a line for each rule with nine fields and whatever may follow them. And what
it leaves behind when it fails.
-/
namespace QosParser
open Words Text QosRules QosTable QosRoundTrip

structure Header where
  ruleNo : Int
  rulesPerSec : Int
  fields : List (List Char)
  spelled : List.Forall₂ Numeral fields [ruleNo, rulesPerSec]
  positive : 1 ≤ ruleNo
  nonzero : rulesPerSec ≠ 0
  fits : InS32 ruleNo ∧ InS32 rulesPerSec

/-- A line of the text: the fields of a rule in some decimal spelling, and characters that
    the parser skips. -/
structure RuleLine where
  rule : Rule
  fields : List (List Char)
  more : List Char
  spelled : List.Forall₂ Numeral fields rule.config
  fits : ConfigFits rule
  stops : NoDigit more
  oneLine : '\n' ∉ more
  noNull : '\x00' ∉ more

def RuleLine.text (l : RuleLine) : List Char := joined l.fields ++ l.more

def following (lines : List RuleLine) (final : List Char) : List Char :=
  lines.flatMap (fun l => '\n' :: l.text) ++ final

def rulesText (header : Header) (lines : List RuleLine) (final : List Char) : List Char :=
  joined header.fields ++ following lines final

def rulesOf (lines : List RuleLine) : List Rule := lines.map fun l => Rule.fresh l.rule

def AtLineEnd (rest : List Char) : Prop := rest = [] ∨ ∃ others, rest = '\n' :: others

theorem following_cons (l : RuleLine) (lines : List RuleLine) (final : List Char) :
    following (l :: lines) final = '\n' :: (joined l.fields ++ (l.more ++ following lines final)) := by
  simp [following, RuleLine.text]

theorem following_at_end (lines : List RuleLine) {final : List Char} (ends : AtLineEnd final) :
    AtLineEnd (following lines final) := by
  cases lines with
  | nil => exact ends
  | cons l lines => exact Or.inr ⟨_, following_cons l lines final⟩

theorem no_digit_at_end {rest : List Char} (ends : AtLineEnd rest) : NoDigit rest := by
  rcases ends with rfl | ⟨others, rfl⟩
  · trivial
  · simp only [NoDigit]
    decide

theorem stops_at_end {more rest : List Char} (stops : NoDigit more) (ends : AtLineEnd rest) :
    NoDigit (more ++ rest) := by
  cases more with
  | nil => exact no_digit_at_end ends
  | cons c more => exact stops

theorem nextLine_none {more : List Char} (one : '\n' ∉ more) : nextLine more = [] := by
  induction more with
  | nil => rfl
  | cons c more ih =>
    simp only [List.mem_cons, not_or] at one
    rw [nextLine, if_neg fun same => one.1 same.symm]
    exact ih one.2

theorem nextLine_at_end {more rest : List Char} (one : '\n' ∉ more) (ends : AtLineEnd rest) :
    nextLine (more ++ rest) = rest.tail := by
  rcases ends with rfl | ⟨others, rfl⟩
  · rw [List.append_nil]
    exact nextLine_none one
  · exact nextLine_append more others one

theorem parse_lines (lines : List RuleLine) {final : List Char} (ends : AtLineEnd final) (n : Nat) :
    parseRuleLines (lines.length + n) (following lines final).tail =
      (parseRuleLines n final.tail).map (rulesOf lines ++ ·) := by
  induction lines with
  | nil => simp [following, rulesOf]
  | cons l lines ih =>
    have rest := following_at_end lines ends
    have count : (l :: lines).length + n = lines.length + n + 1 := by
      rw [List.length_cons]
      omega
    rw [count, following_cons, List.tail_cons, parse_fields l.fits l.spelled (stops_at_end l.stops rest),
      nextLine_at_end l.oneLine rest, ih, Option.map_map]
    rfl

theorem skipSpaces_joined {fields : List (List Char)} {v : Int} {vs : List Int}
    (spelled : List.Forall₂ Numeral fields (v :: vs)) (rest : List Char) :
    skipSpaces (joined fields ++ rest) = joined fields ++ rest := by
  cases spelled with
  | cons numeral others =>
    cases others with
    | nil => exact skipSpaces_numeral numeral rest
    | cons numeral' others =>
      rw [joined_cons, List.append_assoc]
      exact skipSpaces_numeral numeral _

theorem skip_following (lines : List RuleLine) {final : List Char} (ends : AtLineEnd final)
    (some : lines ≠ [] ∨ final.tail = []) : skipSpaces (following lines final) =
    (following lines final).tail := by
  have newline : isSpace '\n' = true := by decide
  cases lines with
  | nil =>
    have last : final.tail = [] := some.resolve_left fun none => none rfl
    rcases ends with rfl | ⟨others, rfl⟩
    · rfl
    · rw [List.tail_cons] at last
      subst last
      rfl
  | cons l lines =>
    have start := skipSpaces_joined l.spelled (l.more ++ following lines final)
    rw [following_cons, List.tail_cons]
    simp only [skipSpaces, List.dropWhile_cons, newline, ↓reduceIte] at start ⊢
    exact start

theorem header_long (header : Header) (rest : List Char) : ¬ ZeroText (joined header.fields ++ rest) := by
  obtain ⟨_, _, fields, spelled, _, _, _⟩ := header
  intro zero
  have short := zero.1
  cases spelled with
  | cons numeral others =>
    cases others with
    | cons numeral' others =>
      obtain ⟨c, cs, rfl, _⟩ := numeral_start numeral
      obtain ⟨d, ds, rfl, _⟩ := numeral_start numeral'
      simp only [joined_cons, List.length_append, List.length_cons] at short
      cases others with
      | nil =>
        simp only [joined, List.length_cons] at short
        omega

theorem rules_text_loaded (header : Header) {lines : List RuleLine} {final : List Char}
    (ends : AtLineEnd final)
    (some : lines ≠ [] ∨ final.tail = []) (q : QosData) :
    parseQosRules true (rulesText header lines final) q =
      loadRules true header.ruleNo header.rulesPerSec (following lines final).tail q := by
  have positive := header.positive
  have asks : ¬ (header.ruleNo = 0 ∨ header.rulesPerSec = 0) := by
    intro none
    rcases none with zero | zero
    · omega
    · exact header.nonzero zero
  have stop : NoDigit (following lines final) := no_digit_at_end (following_at_end lines ends)
  rw [parseQosRules, rulesText, if_neg (header_long header _),
    scan_header_fields header.spelled header.fits stop, skip_following lines ends some]
  simp only [asks, ↓reduceIte]

/-- A text with a line for each rule gives the rules in their order; one that ends before
    the last of them is refused. -/
theorem rules_text_parsed (header : Header) (lines : List RuleLine) (q : QosData) :
    ((lines.length : Int) = header.ruleNo →
      ∀ final, AtLineEnd final → '\x00' ∉ final →
        (parseQosRules true (rulesText header lines final) q).rc = 0 ∧
        (parseQosRules true (rulesText header lines final) q).qos.ruleNo = header.ruleNo ∧
        (parseQosRules true (rulesText header lines final) q).qos.minGapBetweenUpdatingMrif =
          (1000000 : Int).tdiv header.rulesPerSec ∧
        (parseQosRules true (rulesText header lines final) q).qos.rules =
          some ⟨u64 (header.ruleNo * ruleSize), rulesOf lines⟩) ∧
      ((lines.length : Int) < header.ruleNo →
        ∀ final, (final = [] ∨ final = ['\n']) →
          (parseQosRules true (rulesText header lines final) q).rc = einval ∧
          (parseQosRules true (rulesText header lines final) q).qos.rules = none ∧
          (parseQosRules true (rulesText header lines final) q).qos.ruleNo = 0) := by
  have positive := header.positive
  constructor
  · intro all final ends _
    have some : lines ≠ [] := by
      intro none
      rw [none, List.length_nil] at all
      omega
    have count : header.ruleNo.toNat = lines.length + 0 := by omega
    rw [rules_text_loaded header ends (Or.inl some), loadRules, count, parse_lines lines ends 0]
    simp [parseRuleLines]
  · intro fewer final ends
    have atEnd : AtLineEnd final := by
      rcases ends with rfl | rfl
      · exact Or.inl rfl
      · exact Or.inr ⟨[], rfl⟩
    have last : final.tail = [] := by
      rcases ends with rfl | rfl <;> rfl
    obtain ⟨missing, count⟩ : ∃ missing, header.ruleNo.toNat = lines.length + (missing + 1) :=
      ⟨header.ruleNo.toNat - lines.length - 1, by omega⟩
    have empty : parseRuleLines (missing + 1) [] = none := rfl
    rw [rules_text_loaded header atEnd (Or.inr last), loadRules, count, parse_lines lines atEnd, last, empty]
    exact ⟨rfl, rfl, rfl⟩

def oneHeader : Header where
  ruleNo := 1
  rulesPerSec := -20
  fields := [['0', '1'], ['-', '2', '0']]
  spelled := .cons (.plain (by decide)) (.cons (.minus (by decide)) .nil)
  positive := by decide
  nonzero := by decide
  fits := by decide

def oneLine : RuleLine where
  rule := ⟨0, 100, 7, 8, 0, 300, -1, 25, 9, 4, 4, 4, 4⟩
  fields := [['0'], ['+', '1', '0', '0'], ['7'], ['0', '0', '8'], ['0'], ['3', '0', '0'], ['-', '1'],
    ['2', '5'], ['9']]
  more := [',', '5', ' ', 'x']
  spelled := .cons (.plain (by decide)) (.cons (.plus (by decide)) (.cons (.plain (by decide))
    (.cons (.plain (by decide)) (.cons (.plain (by decide)) (.cons (.plain (by decide))
    (.cons (.minus (by decide)) (.cons (.plain (by decide)) (.cons (.plain (by decide)) .nil))))))))
  fits := .cons (by decide) (.cons (by decide) (.cons (by decide) (.cons (by decide) (.cons (by decide)
    (.cons (by decide) (.cons (by decide) (.cons (by decide) (.cons (by decide) .nil))))))))
  stops := rfl
  oneLine := by decide
  noNull := by decide

def holding : QosData :=
  { initQos 8 with ruleNo := 1, rules := some ⟨80, [⟨1, 2, 3, 4, 5, 6, 7, 8, 9, 0, 0, 0, 0⟩]⟩ }

theorem rules_text_parsed_one_rule :
    (parseQosRules true (rulesText oneHeader [oneLine] []) holding).qos.rules =
        some ⟨80, [⟨0, 100, 7, 8, 0, 300, -1, 25, 9, 0, 0, 0, 0⟩]⟩ ∧
      (parseQosRules true (rulesText oneHeader [] ['\n']) holding).rc = einval := by
  constructor
  · exact ((rules_text_parsed oneHeader [oneLine] holding).1 rfl [] (Or.inl rfl) (by decide)).2.2.2
  · exact ((rules_text_parsed oneHeader [] holding).2 (by decide) ['\n'] (Or.inr rfl)).1

def Unreadable (buf : List Char) : Prop :=
  ¬ ZeroText buf ∧ ∀ n k p, sscanf headerFormat buf ≠ ([n, k], some p)

def Asks (buf : List Char) (n : Int) : Prop :=
  ¬ ZeroText buf ∧ ∃ k p, sscanf headerFormat buf = ([n, k], some p) ∧ n ≠ 0 ∧ k ≠ 0

/-- The contract on errors: no rules are left, and the previous table was released once, next
    to which only a table that this call allocated may have been released. -/
structure Cleared (q : QosData) (buf : List Char) (result : ParseResult) : Prop where
  rules : result.qos.rules = none
  ruleNo : result.qos.ruleNo = 0
  freed : result.freed = q.freed ∨
    ∃ n, Asks buf n ∧ result.freed = q.freed ++ [⟨u64 (n * ruleSize), u64 (n * ruleSize)⟩]

theorem load_cleared_iff {alloc : Bool} {n k : Int} {buf p : List Char} (q : QosData) (asks : Asks buf n)
    (nonzero : n ≠ 0) : ((loadRules alloc n k p q).rc ≠ 0 →
      Cleared q buf (loadRules alloc n k p q)) ↔ alloc = true := by
  obtain ⟨opened, rfl, exits⟩ := load_cases alloc n k p q
  rcases exits with ⟨failed, memory⟩ | ⟨rules, ⟨allocated, _⟩, table⟩ | ⟨⟨allocated, _⟩, line⟩
  · rw [memory, failed]
    apply iff_of_false _ (by decide)
    intro cleared
    exact nonzero (cleared (show enomem ≠ 0 by decide)).ruleNo
  · rw [table]
    exact iff_of_true (fun failed => absurd rfl failed) allocated
  · rw [line]
    exact iff_of_true (fun _ => ⟨rfl, rfl, Or.inr ⟨n, asks, rfl⟩⟩) allocated

/-- An error leaves no rules exactly when the header can be read or there were none before,
    and the table that a header asks for can be allocated. -/
theorem parse_errors_cleared_iff (alloc : Bool) (buf : List Char) (q : QosData) (ok : TableOk q) :
    ((parseQosRules alloc buf q).rc ≠ 0 → Cleared q buf (parseQosRules alloc buf q)) ↔
      (Unreadable buf → q.rules = none) ∧ ∀ n, Asks buf n → alloc = true := by
  rcases parse_cases alloc buf q with ⟨none, cleared⟩ | ⟨bad, rejected⟩ |
    ⟨n, k, p, ⟨long, scanned, first, second⟩, loads⟩
  · rw [cleared]
    apply iff_of_true
    · exact fun failed => absurd rfl failed
    · rcases none with zero | ⟨n, k, p, scanned, none⟩
      · exact ⟨fun unread => absurd zero unread.1, fun n asks => absurd zero asks.1⟩
      · constructor
        · exact fun unread => absurd scanned (unread.2 n k p)
        · intro m asks
          obtain ⟨_, k', p', scanned', first, second⟩ := asks
          obtain ⟨rfl, rfl, _⟩ := header_unique scanned scanned'
          exact (none.elim first second).elim
  · rw [rejected]
    constructor
    · intro cleared
      constructor
      · intro _
        exact (cleared (show einval ≠ 0 by decide)).rules
      · intro n asks
        obtain ⟨_, k, p, scanned, _⟩ := asks
        exact absurd scanned (bad.2 n k p)
    · intro condition _
      have none := condition.1 bad
      have empty : q.freed = [] := by rw [QosData.freed, none]
      rcases ok with ⟨_, zero⟩ | ⟨table, holds⟩
      · exact ⟨none, zero, Or.inl empty.symm⟩
      · rw [holds.rules] at none
        cases none
  · have read : ¬ Unreadable buf := fun unread => unread.2 n k p scanned
    have asks : Asks buf n := ⟨long, k, p, scanned, first, second⟩
    rw [loads, load_cleared_iff q asks first]
    constructor
    · intro allocated
      exact ⟨fun unread => absurd unread read, fun _ _ => allocated⟩
    · intro condition
      exact condition.2 n asks

def wrongData : List Char := ['w', 'r', 'o', 'n', 'g', ' ', 'd', 'a', 't', 'a']

theorem holding_ok : TableOk holding := Or.inr ⟨_, rfl, by decide, by decide, rfl, rfl⟩

theorem parse_errors_cleared_bad_line :
    let text : List Char := ['2', ',', '1', '\n', '0', ',', '1', ',', '9', ',', '9', ',', '0', ',', '9', ',',
      '1', ',', '2', ',', '7', '\n', '1', '0', ',']
    (parseQosRules true text holding).rc = einval ∧
      Cleared holding text (parseQosRules true text holding) := by
  intro text
  have failed : (parseQosRules true text holding).rc = einval := by decide +kernel
  have header : sscanf headerFormat text = ([2, 1], some (text.drop 4)) := by decide +kernel
  constructor
  · exact failed
  · apply (parse_errors_cleared_iff true text holding holding_ok).mpr
    · constructor
      · intro unread
        exact absurd header (unread.2 2 1 (text.drop 4))
      · exact fun _ _ => rfl
    · rw [failed]
      decide

/-- An unreadable header keeps the old table, and a table that cannot be allocated leaves its
    number of rules. -/
theorem parse_errors_keep_rules :
    ((parseQosRules true wrongData holding).rc = einval ∧
      (parseQosRules true wrongData holding).qos.rules = holding.rules ∧ holding.rules ≠ none) ∧
    ((parseQosRules false (oneRule ['1', '0']) holding).rc = enomem ∧
      (parseQosRules false (oneRule ['1', '0']) holding).qos.ruleNo = 1) := by
  decide +kernel

end QosParser
