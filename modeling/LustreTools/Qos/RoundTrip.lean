import LustreTools.Qos.Table

/-!
The text that reading the `qos_rules` file prints, given back to the parser. The printer
writes thirteen fields a rule and the parser reads nine; the rate is kept as a truncated
reciprocal, which one more round of division does not change.
-/
namespace QosRoundTrip
open Words Text QosRules QosAdjust QosTable

def ruleText (q : QosData) : List Char := q.headerText ++ q.entries.flatMap Rule.line

def Fits (q : QosData) : Prop := ((ruleText q).length : Int) + 1 ≤ intMax

instance (q : QosData) : Decidable (Fits q) := inferInstanceAs (Decidable (_ ≤ _))

def Rule.fresh (r : Rule) : Rule :=
  { r with usedTimes := 0, ackEwmaAvg := 0, sendEwmaAvg := 0, rttRatio100Avg := 0 }

def ConfigFits (r : Rule) : Prop := List.Forall₂ Conv.Fits ruleConvs r.config

/-- What parsing establishes and the controller keeps. -/
structure Loaded (q : QosData) : Prop where
  table : ∃ table, Holds q table
  config : ∀ r ∈ q.entries, ConfigFits r
  rate : ∃ k : Int, k ≠ 0 ∧ k.natAbs ≤ 1000000 ∧
    q.minGapBetweenUpdatingMrif = (1000000 : Int).tdiv k

/-- The printed text is accepted and gives the same rules without statistics, whatever
    state it is parsed into. -/
def RoundTrips (q receiver : QosData) : Prop :=
  ∃ text, (oscQosRulesSeqShow true q).2 = .ok text ∧
    (parseQosRules true text receiver).rc = 0 ∧
    (parseQosRules true text receiver).qos.ruleNo = q.ruleNo ∧
    (parseQosRules true text receiver).qos.minGapBetweenUpdatingMrif = q.minGapBetweenUpdatingMrif ∧
    (parseQosRules true text receiver).qos.entries.map Rule.config = q.entries.map Rule.config ∧
    ∀ r ∈ (parseQosRules true text receiver).qos.entries, r.stats = [0, 0, 0, 0]

theorem ofFields_config {fields : List Int} {r : Rule} (read : Rule.ofFields fields = some r) :
    r.config = fields ∧ r.stats = [0, 0, 0, 0] := by
  unfold Rule.ofFields at read
  split at read
  · cases read
    exact ⟨rfl, rfl⟩
  · cases read

theorem ofFields_of_config (r : Rule) : Rule.ofFields r.config = some (Rule.fresh r) := rfl

theorem nextLine_append (line rest : List Char) (one : '\n' ∉ line) :
    nextLine (line ++ '\n' :: rest) = rest := by
  induction line with
  | nil => simp [nextLine]
  | cons c line ih =>
    simp only [List.mem_cons, not_or] at one
    have other : c ≠ '\n' := fun same => one.1 same.symm
    simp [nextLine, other, ih one.2]

theorem parse_fields {r : Rule} (fits : ConfigFits r) {fields : List (List Char)}
    (spelled : List.Forall₂ Numeral fields r.config) {rest : List Char} (stop : NoDigit rest) (n : Nat) :
    parseRuleLines (n + 1) (joined fields ++ rest) = (parseRuleLines n (nextLine rest)).map
      (Rule.fresh r :: ·) := by
  have scanned : sscanf ruleFormat (joined fields ++ rest) = (r.config, some rest) := by
    rw [ruleFormat, sscanf_joined [.count] fits spelled (by decide) stop]
    simp [sscanf]
  simp only [parseRuleLines, scanned, ofFields_of_config]

theorem parse_line (r : Rule) (fits : ConfigFits r) (more rest : List Char)
    (stop : NoDigit (more ++ '\n' :: rest)) (one : '\n' ∉ more) (n : Nat) :
    parseRuleLines (n + 1) (csv r.config ++ (more ++ '\n' :: rest)) =
      (parseRuleLines n rest).map (Rule.fresh r :: ·) := by
  rw [csv_eq_joined, parse_fields fits (decimals_spelled r.config) stop, nextLine_append more rest one]

theorem line_eq (r : Rule) (rest : List Char) :
    r.line ++ rest = csv r.config ++ ((',' :: csv r.stats) ++ '\n' :: rest) := by
  have split : csv (r.config ++ r.stats) = csv r.config ++ ',' :: csv r.stats := csv_append _ _ _ _
  simp [Rule.line, split]

theorem parse_printed_rules (entries : List Rule) (fits : ∀ r ∈ entries, ConfigFits r) :
    parseRuleLines entries.length (entries.flatMap Rule.line) = some (entries.map Rule.fresh) := by
  induction entries with
  | nil => rfl
  | cons r entries ih =>
    have tail := ih fun x member => fits x (by simp [member])
    have stop : NoDigit ((',' :: csv r.stats) ++ '\n' :: entries.flatMap Rule.line) := by
      simp only [List.cons_append, NoDigit]
      decide
    have one : '\n' ∉ ',' :: csv r.stats := by
      simp only [List.mem_cons, not_or]
      exact ⟨by decide, not_in_csv (by decide) _⟩
    rw [List.flatMap_cons, line_eq, List.length_cons, parse_line r (fits r (by simp)) _ _ stop one, tail]
    rfl

theorem parse_lines_fit {n : Nat} {p : List Char} {rules : List Rule}
    (parsed : parseRuleLines n p = some rules) : ∀ r ∈ rules, ConfigFits r := by
  refine parse_lines_forall ?_ parsed
  intro text r read
  have config := (ofFields_config read).1
  have all : List.Forall₂ Conv.Fits (convs ruleFormat) (sscanf ruleFormat text).1 :=
    sscanf_all_fit (by rw [← config]; rfl)
  rw [← config] at all
  exact all

theorem rest_lines {entries : List Rule} {left i : Nat} {r : Rule} (here : entries[i]? = some r) :
    ((entries.drop i).take (left + 1)).flatMap Rule.line =
      r.line ++ ((entries.drop (i + 1)).take left).flatMap Rule.line := by
  obtain ⟨inside, value⟩ := List.getElem?_eq_some_iff.mp here
  rw [List.drop_eq_getElem_cons inside, List.take_succ_cons, List.flatMap_cons, value]

theorem print_rules_eq (entries : List Rule) {left i : Nat} (rest : i + left ≤ entries.length)
    {needed : Int} (counted : needed ≤ intMax) (text : List Char) :
    printRules entries left i needed text =
      if needed + (((entries.drop i).take left).flatMap Rule.line).length > intMax then .error .overflow
      else .ok (needed + (((entries.drop i).take left).flatMap Rule.line).length,
        text ++ ((entries.drop i).take left).flatMap Rule.line) := by
  induction left generalizing i needed text with
  | zero =>
    have fits : ¬ needed > intMax := by omega
    simp [printRules, fits]
  | succ left ih =>
    have here := List.getElem?_eq_getElem (show i < entries.length by omega)
    generalize entries[i] = r at here
    rw [rest_lines here]
    simp only [printRules, here, addLength, List.length_append]
    by_cases exceeded : needed + (r.line.length : Int) > intMax
    · have total : needed + ((r.line.length +
          (((entries.drop (i + 1)).take left).flatMap Rule.line).length : Nat) : Int) > intMax := by omega
      rw [if_pos exceeded, if_pos total]
    · rw [if_neg exceeded]
      simp only
      rw [ih (by omega) (by omega)]
      push_cast
      rw [Int.add_assoc, List.append_assoc]

theorem Loaded.set {q : QosData} (loaded : Loaded q) : ¬ q.Unset := by
  obtain ⟨table, holds⟩ := loaded.table
  obtain ⟨k, nonzero, bound, gap⟩ := loaded.rate
  have positive := holds.positive
  have gap_nonzero := tdiv_reciprocal_nonzero 1000000 k nonzero bound
  rintro (zero | none | zero)
  · omega
  · rw [holds.rules] at none
    cases none
  · rw [gap] at zero
    exact gap_nonzero zero

theorem Loaded.length {q : QosData} (loaded : Loaded q) : q.entries.length = q.ruleNo.toNat := by
  obtain ⟨table, holds⟩ := loaded.table
  simp [QosData.entries, holds.rules, holds.entries]

theorem header_counted {q : QosData} (loaded : Loaded q) :
    2 < q.headerText.length ∧ (q.headerText.length : Int) ≤ intMax := by
  obtain ⟨table, holds⟩ := loaded.table
  have range := holds.range
  have count : q.ruleNo.natAbs < 10 ^ 10 := by simp only [InS32] at range; omega
  have rate : ((1000000 : Int).tdiv q.minGapBetweenUpdatingMrif).natAbs ≤ 1000000 :=
    tdiv_reciprocal_bound 1000000 _
  have first := decimal_length_pos q.ruleNo
  have second := decimal_length_le count (by decide)
  have third := decimal_length_le (Nat.lt_of_le_of_lt rate (by decide : 1000000 < 10 ^ 7)) (by decide)
  simp only [QosData.headerText, loaded.set, ↓reduceIte, csv, List.length_append, List.length_cons,
    List.length_nil, intMax]
  omega

theorem show_loaded {q : QosData} (loaded : Loaded q) :
    (oscQosRulesSeqShow true q).2 = if Fits q then .ok (ruleText q) else .error .overflow := by
  have shown : q.shown = q := by simp [QosData.shown, loaded.set]
  have counted : 0 + q.ruleNo.toNat ≤ q.entries.length := by
    rw [loaded.length, Nat.zero_add]
  have printed := print_rules_eq q.entries counted (header_counted loaded).2 q.headerText
  rw [List.drop_zero, ← loaded.length, List.take_length, loaded.length] at printed
  rw [seq_show_eq, shown]
  unfold showPass
  rw [printed]
  have fits : Fits q ↔
      (q.headerText.length : Int) + (q.entries.flatMap Rule.line).length + 1 ≤ intMax := by
    simp only [Fits, ruleText, List.length_append, Nat.cast_add]
  by_cases exceeded : (q.headerText.length : Int) + (q.entries.flatMap Rule.line).length > intMax
  · rw [if_pos exceeded, if_neg (fun counted => absurd (fits.mp counted) (by omega))]
  · rw [if_neg exceeded]
    dsimp only
    by_cases last : (q.headerText.length : Int) + (q.entries.flatMap Rule.line).length + 1 > intMax
    · rw [if_pos last, if_neg (fun counted => absurd (fits.mp counted) (by omega))]
    · rw [if_neg last, if_pos (fits.mpr (by omega))]
      simp [ruleText]

theorem skip_line (r : Rule) (rest : List Char) : skipSpaces (r.line ++ rest) = r.line ++ rest := by
  have start := skipSpaces_decimal r.ackEwmaLower
    (',' :: csv (r.config.tail ++ r.stats) ++ ['\n'] ++ rest)
  simpa [Rule.line, Rule.config, csv] using start

theorem scan_header_fields {fields : List (List Char)} {n k : Int}
    (spelled : List.Forall₂ Numeral fields [n, k]) (fits : InS32 n ∧ InS32 k) {rest : List Char}
    (stop : NoDigit rest) :
    sscanf headerFormat (joined fields ++ rest) = ([n, k], some (skipSpaces rest)) := by
  have convs : List.Forall₂ Conv.Fits [.d, .d] [n, k] := .cons fits.1 (.cons fits.2 .nil)
  have format : headerFormat = commaFormat [.d, .d] ++ [.space, .count] := rfl
  rw [format, sscanf_joined _ convs spelled (by decide) stop]
  simp [sscanf]

theorem scan_header_line {n k : Int} (fits : InS32 n ∧ InS32 k) {body : List Char}
    (start : skipSpaces body = body) :
    sscanf headerFormat (csv [n, k] ++ '\n' :: body) = ([n, k], some body) := by
  have stop : NoDigit ('\n' :: body) := by
    simp only [NoDigit]
    decide
  have newline : skipSpaces ('\n' :: body) = skipSpaces body := rfl
  rw [csv_eq_joined, scan_header_fields (decimals_spelled _) fits stop, newline, start]

theorem scan_header {q : QosData} (loaded : Loaded q) :
    sscanf headerFormat (ruleText q) =
      ([q.ruleNo, (1000000 : Int).tdiv q.minGapBetweenUpdatingMrif],
        some (q.entries.flatMap Rule.line)) := by
  obtain ⟨table, holds⟩ := loaded.table
  have rate : ((1000000 : Int).tdiv q.minGapBetweenUpdatingMrif).natAbs ≤ 1000000 :=
    tdiv_reciprocal_bound 1000000 _
  have fits : InS32 q.ruleNo ∧ InS32 ((1000000 : Int).tdiv q.minGapBetweenUpdatingMrif) := by
    refine ⟨holds.range, ?_⟩
    simp only [InS32]
    omega
  have body : skipSpaces (q.entries.flatMap Rule.line) = q.entries.flatMap Rule.line := by
    cases q.entries with
    | nil => rfl
    | cons r rules => exact skip_line r _
  have text : ruleText q = csv [q.ruleNo, (1000000 : Int).tdiv q.minGapBetweenUpdatingMrif] ++
      '\n' :: q.entries.flatMap Rule.line := by
    simp [ruleText, QosData.headerText, loaded.set]
  rw [text]
  exact scan_header_line fits body

theorem parse_printed {q : QosData} (loaded : Loaded q) (receiver : QosData) :
    parseQosRules true (ruleText q) receiver = ⟨{ receiver with
      ruleNo := q.ruleNo
      minGapBetweenUpdatingMrif := q.minGapBetweenUpdatingMrif
      rules := some ⟨u64 (q.ruleNo * ruleSize), q.entries.map Rule.fresh⟩ }, 0, receiver.freed⟩ := by
  obtain ⟨table, holds⟩ := loaded.table
  obtain ⟨k, nonzero, bound, gap⟩ := loaded.rate
  have positive := holds.positive
  have stable : (1000000 : Int).tdiv ((1000000 : Int).tdiv ((1000000 : Int).tdiv k)) =
      (1000000 : Int).tdiv k := tdiv_reciprocal_stable 1000000 k nonzero bound
  have rate_nonzero : (1000000 : Int).tdiv ((1000000 : Int).tdiv k) ≠ 0 :=
    tdiv_reciprocal_nonzero 1000000 _ (tdiv_reciprocal_nonzero 1000000 k nonzero bound)
      (tdiv_reciprocal_bound 1000000 k)
  rw [← gap] at stable rate_nonzero
  have long : ¬ ZeroText (ruleText q) := by
    rintro ⟨short, _⟩
    have header := (header_counted loaded).1
    simp only [ruleText, List.length_append] at short
    omega
  have asks : ¬ (q.ruleNo = 0 ∨ (1000000 : Int).tdiv q.minGapBetweenUpdatingMrif = 0) := by
    rintro (zero | zero)
    · omega
    · exact rate_nonzero zero
  have rules := parse_printed_rules q.entries loaded.config
  rw [loaded.length] at rules
  simp only [parseQosRules, long, ↓reduceIte, scan_header loaded, asks, loadRules, Bool.not_true,
    Bool.false_eq_true, rules]
  rw [stable]

theorem loaded_round_trips_iff {q : QosData} (loaded : Loaded q) (receiver : QosData) :
    RoundTrips q receiver ↔ Fits q := by
  have shown := show_loaded loaded
  constructor
  · rintro ⟨text, printed, _⟩
    by_contra exceeded
    rw [shown, if_neg exceeded] at printed
    cases printed
  · intro fits
    rw [if_pos fits] at shown
    refine ⟨ruleText q, shown, ?_⟩
    rw [parse_printed loaded receiver]
    refine ⟨rfl, rfl, rfl, ?_, ?_⟩
    · simp only [QosData.entries, List.map_map]
      rfl
    · intro r member
      obtain ⟨x, _, rfl⟩ := List.mem_map.mp member
      rfl

theorem same_table_config {q q' : QosData} (same : SameTable q q') :
    q'.entries.map Rule.config = q.entries.map Rule.config := by
  have config := same.config
  unfold QosData.entries
  cases old : q.rules <;> cases new : q'.rules <;> simp_all

theorem same_table_loaded {q q' : QosData} (same : SameTable q q') (loaded : Loaded q) : Loaded q' := by
  obtain ⟨table, holds⟩ := loaded.table
  refine ⟨?_, ?_, ?_⟩
  · rcases same_table_ok same (Or.inr ⟨table, holds⟩) with ⟨_, zero⟩ | kept
    · have positive := holds.positive
      rw [same.ruleNo] at zero
      omega
    · exact kept
  · intro r member
    have config : r.config ∈ q.entries.map Rule.config := by
      rw [← same_table_config same]
      exact List.mem_map_of_mem member
    obtain ⟨old, before, equal⟩ := List.mem_map.mp config
    have fits := loaded.config old before
    rw [ConfigFits, equal] at fits
    exact fits
  · rw [same.minGap]
    exact loaded.rate

theorem parse_loaded {alloc : Bool} {buf p : List Char} {before : QosData} {n k : Int}
    (parsed : (parseQosRules alloc buf before).rc = 0)
    (positive : 0 < (parseQosRules alloc buf before).qos.ruleNo)
    (header : sscanf headerFormat buf = ([n, k], some p)) (nonzero : k ≠ 0)
    (bound : k.natAbs ≤ 1000000) : Loaded (parseQosRules alloc buf before).qos := by
  have range := (header_range header).1
  rcases parse_cases alloc buf before with ⟨_, cleared⟩ | ⟨_, rejected⟩ |
    ⟨n', k', p', ⟨_, scanned, _, _⟩, loads⟩
  · rw [cleared] at positive
    exact absurd positive (Int.lt_irrefl 0)
  · rw [rejected] at parsed
    exact absurd parsed (show einval ≠ 0 by decide)
  · obtain ⟨rfl, rfl, rfl⟩ := header_unique header scanned
    obtain ⟨opened, rfl, exits⟩ := load_cases alloc n k p before
    rw [loads] at parsed positive ⊢
    rcases exits with ⟨_, memory⟩ | ⟨rules, ⟨_, lines⟩, table⟩ | ⟨_, line⟩
    · rw [memory] at parsed
      exact absurd parsed (show enomem ≠ 0 by decide)
    · rw [table] at positive ⊢
      exact ⟨⟨_, rfl, positive, range, bytes_exact positive range, parse_lines_length lines⟩,
        parse_lines_fit lines, ⟨k, nonzero, bound, rfl⟩⟩
    · rw [line] at parsed
      exact absurd parsed (show einval ≠ 0 by decide)

def adjustAll (timevalSub : Timeval → Timeval → Int) : List Reply → QosData → Except Fault QosData
  | [], q => .ok q
  | c :: replies, q =>
    match qosAdjust timevalSub c q with
    | .ok (adjusted, _) => adjustAll timevalSub replies adjusted
    | .error fault => .error fault

theorem adjust_all_loaded {timevalSub : Timeval → Timeval → Int} {replies : List Reply} {q q' : QosData}
    (adjusted : adjustAll timevalSub replies q = .ok q') (loaded : Loaded q) : Loaded q' := by
  induction replies generalizing q with
  | nil => exact Except.ok.inj adjusted ▸ loaded
  | cons c replies ih =>
    unfold adjustAll at adjusted
    split at adjusted
    · rename_i next mrif done
      exact ih adjusted (same_table_loaded (qos_adjust_table done) loaded)
    · cases adjusted

/-- A state reached by a successful parse with a positive count and a rate of absolute
    value from one to a million, and any number of replies, survives being printed and
    parsed exactly when its text can be counted in an `int`. -/
theorem qos_text_round_trips_iff_fits (timevalSub : Timeval → Timeval → Int) (alloc : Bool)
    (buf p : List Char) (before q receiver : QosData) (n k : Int) (replies : List Reply)
    (parsed : (parseQosRules alloc buf before).rc = 0)
    (positive : 0 < (parseQosRules alloc buf before).qos.ruleNo)
    (header : sscanf headerFormat buf = ([n, k], some p)) (low : 1 ≤ k.natAbs)
    (high : k.natAbs ≤ 1000000)
    (adjusted : adjustAll timevalSub replies (parseQosRules alloc buf before).qos = .ok q) :
    RoundTrips q receiver ↔ Fits q := by
  have nonzero : k ≠ 0 := by omega
  exact loaded_round_trips_iff
    (adjust_all_loaded adjusted (parse_loaded parsed positive header nonzero high)) receiver

/-- The state after one reply used the rule of `oneRule`, loaded with the rate -7. -/
def afterOneReply : QosData :=
  { ackEwma := ⟨8, 0, ⟨5, 0⟩⟩, sentEwma := ⟨8, 0, ⟨5, 0⟩⟩, rttRatio100 := 100, smallestRtt := 100,
    maxRpcInFlight100 := 805, lastMrifUpdateTime := ⟨5, 100⟩, minGapBetweenUpdatingMrif := -142857,
    ruleNo := 1, read := ⟨5, 0, 4096⟩, write := ⟨0, 0, 0⟩, minUsecBetweenRpcs := 7,
    rules := some ⟨80, [⟨0, 9, 0, 9, 0, 900, 100, 5, 7, 1, 0, 0, 100⟩]⟩ }

theorem qos_text_round_trips_used_rule :
    adjustAll usecSub [oneReply] (parseQosRules true (oneRule ['-', '7']) (initQos 8)).qos =
        .ok afterOneReply ∧ RoundTrips afterOneReply (initQos 4) := by
  have adjusted : adjustAll usecSub [oneReply]
      (parseQosRules true (oneRule ['-', '7']) (initQos 8)).qos = .ok afterOneReply := by decide +kernel
  have header : sscanf headerFormat (oneRule ['-', '7']) =
      ([1, -7], some ((oneRule ['-', '7']).drop 5)) := by decide +kernel
  refine ⟨adjusted, ?_⟩
  exact (qos_text_round_trips_iff_fits usecSub true _ _ (initQos 8) afterOneReply (initQos 4)
    1 (-7) [oneReply]
    (by decide +kernel) (by decide +kernel) header (by decide) (by decide) adjusted).mpr (by decide +kernel)

def zeroRule : Rule := ⟨0, 0, 0, 0, 0, 0, 0, 0, 0, 0, 0, 0, 0⟩

def zeroRules (n : Nat) : List Char :=
  csv [(n : Int), 1] ++ '\n' :: (List.replicate n (csv zeroRule.config ++ ['\n'])).flatten

theorem zero_rule_fits : ConfigFits zeroRule := by
  unfold ConfigFits
  decide

theorem parse_zero_rules (n : Nat) :
    parseRuleLines n (List.replicate n (csv zeroRule.config ++ ['\n'])).flatten =
      some (List.replicate n zeroRule) := by
  induction n with
  | zero => rfl
  | succ n ih =>
    have line := parse_line zeroRule zero_rule_fits []
      (List.replicate n (csv zeroRule.config ++ ['\n'])).flatten
        (by simp only [List.nil_append, NoDigit]; decide)
      (by simp) n
    have fresh : Rule.fresh zeroRule = zeroRule := rfl
    rw [ih, fresh] at line
    simpa [List.replicate_succ] using line

theorem scan_zero_rules {n : Nat} (range : InS32 n) :
    sscanf headerFormat (zeroRules n) =
      ([(n : Int), 1], some (List.replicate n (csv zeroRule.config ++ ['\n'])).flatten) := by
  have body : skipSpaces (List.replicate n (csv zeroRule.config ++ ['\n'])).flatten =
      (List.replicate n (csv zeroRule.config ++ ['\n'])).flatten := by
    cases n with
    | zero => rfl
    | succ m =>
      have start := skipSpaces_decimal 0
        (',' :: csv zeroRule.config.tail ++ ['\n'] ++
          (List.replicate m (csv zeroRule.config ++ ['\n'])).flatten)
      simpa [Rule.config, zeroRule, csv, List.replicate_succ] using start
  exact scan_header_line ⟨range, by decide⟩ body

theorem zero_rules_loaded {n : Nat} (positive : 0 < n) (range : InS32 n) (before : QosData) :
    parseQosRules true (zeroRules n) before = ⟨{ before with
      ruleNo := n
      minGapBetweenUpdatingMrif := 1000000
      rules := some ⟨u64 (n * ruleSize), List.replicate n zeroRule⟩ }, 0, before.freed⟩ := by
  have long : ¬ ZeroText (zeroRules n) := by
    rintro ⟨short, _⟩
    have first := decimal_length_pos n
    have second := decimal_length_pos 1
    simp only [zeroRules, csv, List.length_append, List.length_cons] at short
    omega
  have asks : ¬ ((n : Int) = 0 ∨ (1 : Int) = 0) := by omega
  simp only [parseQosRules, long, ↓reduceIte, scan_zero_rules range, asks, loadRules,
    Bool.not_true, Bool.false_eq_true, Int.toNat_natCast, parse_zero_rules, Int.tdiv_one]

theorem zero_rules_not_fit {n : Nat} (many : 2147483647 < 26 * n) {q : QosData}
    (entries : q.entries = List.replicate n zeroRule) : ¬ Fits q := by
  have line : zeroRule.line.length = 26 := by decide +kernel
  have total : (q.entries.flatMap Rule.line).length = n * 26 := by
    simp [entries, List.length_flatMap, line]
  simp only [Fits, ruleText, List.length_append, total, intMax]
  omega

/-- Ninety million rules of zeros, in a file of 1.6 gigabytes, are accepted, and reading
    them back prints nothing. -/
theorem qos_text_lost_ninety_million :
    (parseQosRules true (zeroRules 90000000) (initQos 8)).rc = 0 ∧
      (parseQosRules true (zeroRules 90000000) (initQos 8)).qos.ruleNo = 90000000 ∧
      (parseQosRules true (zeroRules 90000000) (initQos 8)).qos.minGapBetweenUpdatingMrif = 1000000 ∧
      ¬ RoundTrips (parseQosRules true (zeroRules 90000000) (initQos 8)).qos (initQos 8) := by
  have range : InS32 ((90000000 : Nat) : Int) := by decide
  have header := scan_zero_rules range
  have loaded := zero_rules_loaded (by decide : 0 < 90000000) range (initQos 8)
  have rc : (parseQosRules true (zeroRules 90000000) (initQos 8)).rc = 0 := by rw [loaded]
  have count : (parseQosRules true (zeroRules 90000000) (initQos 8)).qos.ruleNo = 90000000 := by
    rw [loaded]
    rfl
  refine ⟨rc, count, by rw [loaded], ?_⟩
  have parsed := parse_loaded rc (by rw [count]; decide) header (by decide) (by decide)
  rw [loaded_round_trips_iff parsed]
  have entries : (parseQosRules true (zeroRules 90000000) (initQos 8)).qos.entries =
      List.replicate 90000000 zeroRule := by
    rw [loaded]
    rfl
  exact zero_rules_not_fit (by decide) entries

end QosRoundTrip
