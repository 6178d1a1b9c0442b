import LustreTools.Lib.OutputBuffer
import LustreTools.Lib.Runs
import LustreTools.Qos.RoundTrip

/-!
The print loop of `osc_qos_rules_seq_show` with its buffer: each round prints everything
with `snprintf`, the first into no buffer to learn the size. `bytes_needed` is an `int`.
An access outside the buffer or the rule table has no result.
-/
namespace QosPrinting
open Words Text Runs OutputBuffer QosRules QosTable QosRoundTrip

/-- The loop over the rules, with the number of rules left, the next index, `bytes_needed`
    and the buffer. -/
def printInto (entries : List Rule) (kernbufSize : Int) :
    Nat → Nat → Int → Option (List Char) → Option (Int × Option (List Char))
  | 0, _, needed, kernbuf => some (needed, kernbuf)
  | left + 1, i, needed, kernbuf =>
    let freeBufSize := if needed < kernbufSize then s32 (kernbufSize - needed) else 0
    match entries[i]? with
    | none => none
    | some r =>
      match snprintf kernbuf needed freeBufSize r.line with
      | none => none
      | some (kernbuf, length) => printInto entries kernbufSize left (i + 1) (s32 (needed + length)) kernbuf

structure Round where
  qos : QosData
  kernbuf : Option (List Char)
  kernbufSize : Int

/-- One round. If the text and its null are longer than the buffer, a new one is allocated
    and the loop goes on. -/
def round (alloc : Int → Option (List Char)) (s : Round) : Option (Round ⊕ Round) :=
  match snprintf s.kernbuf 0 s.kernbufSize s.qos.headerText with
  | none => none
  | some (kernbuf, length) =>
    match printInto s.qos.shown.entries s.kernbufSize s.qos.shown.ruleNo.toNat 0 length kernbuf with
    | none => none
    | some (needed, kernbuf) =>
      if s32 (needed + 1) > s.kernbufSize then
        some (.inl ⟨s.qos.shown, alloc (s32 (needed + 1)), s32 (needed + 1)⟩)
      else some (.inr ⟨s.qos.shown, kernbuf, s.kernbufSize⟩)

def Round.printed (s : Round) : List Char :=
  match s.kernbuf with
  | none => ['(', 'n', 'u', 'l', 'l', ')']
  | some block => cString block

def completeText (q : QosData) : List Char :=
  q.headerText ++ (q.entries.take q.shown.ruleNo.toNat).flatMap Rule.line

/-- The loop ends after two rounds, without a store outside the buffer, and prints all. -/
def TwoPasses (alloc : Int → Option (List Char)) (q : QosData) : Prop :=
  ∃ last, (∀ n s, Ends (round alloc) n ⟨q, none, 0⟩ s ↔ n = 2 ∧ s = last) ∧
    last.printed = completeText q

/-- An allocation gives a block of the size asked for, with any content. -/
def Allocates (alloc : Int → Option (List Char)) : Prop :=
  ∀ n, 0 < n → ∃ block, alloc n = some block ∧ (block.length : Int) = n

def InTable (q : QosData) : Prop := q.shown.ruleNo.toNat ≤ q.entries.length

theorem shown_entries (q : QosData) : q.shown.entries = q.entries := by
  unfold QosData.shown
  split <;> rfl

theorem shown_unset {q : QosData} (unset : q.Unset) : q.shown.Unset := by
  rw [QosData.shown, if_pos unset]
  exact Or.inl rfl

theorem shown_again (q : QosData) : q.shown.shown = q.shown ∧ q.shown.headerText = q.headerText := by
  by_cases unset : q.Unset
  · have again := shown_unset unset
    constructor
    · rw [QosData.shown, if_pos again, QosData.shown, if_pos unset]
    · rw [QosData.headerText, if_pos again, QosData.headerText, if_pos unset]
  · have same : q.shown = q := if_neg unset
    rw [same]
    exact ⟨same, rfl⟩

theorem print_counts {entries : List Rule} {left i : Nat} {needed : Int} (inside : i + left ≤ entries.length)
    (nonneg : 0 ≤ needed)
    (small : needed + (((entries.drop i).take left).flatMap Rule.line).length < 2147483648) :
    printInto entries 0 left i needed none =
      some (needed + (((entries.drop i).take left).flatMap Rule.line).length, none) := by
  induction left generalizing i needed with
  | zero => simp [printInto]
  | succ left ih =>
    have here := List.getElem?_eq_getElem (show i < entries.length by omega)
    generalize entries[i] = r at here
    rw [rest_lines here, List.length_append] at small ⊢
    have sum : s32 (needed + r.line.length) = needed + r.line.length :=
      s32_of_in (by simp only [InS32]; omega)
    have none : (if needed < 0 then s32 (0 - needed) else 0) = 0 := if_neg (by omega)
    simp only [printInto, here, none, snprintf_counts, sum]
    rw [ih (by omega) (by omega) (by omega), Nat.cast_add, Int.add_assoc]

theorem print_fills {entries : List Rule} {left i : Nat} {size : Int} {front back : List Char}
    (inside : i + left ≤ entries.length) (small : size < 2147483648)
    (block : ((front ++ '\x00' :: back).length : Int) = size)
    (room : front.length + (((entries.drop i).take left).flatMap Rule.line).length < size) :
    ∃ tail, printInto entries size left i front.length (some (front ++ '\x00' :: back)) =
      some (front.length + ((((entries.drop i).take left).flatMap Rule.line).length : Int),
        some (front ++ ((entries.drop i).take left).flatMap Rule.line ++ '\x00' :: tail)) := by
  induction left generalizing i front back with
  | zero => exact ⟨back, by simp [printInto]⟩
  | succ left ih =>
    have here := List.getElem?_eq_getElem (show i < entries.length by omega)
    generalize entries[i] = r at here
    rw [rest_lines here, List.length_append] at room ⊢
    rw [List.length_append, List.length_cons] at block
    have sum : s32 ((front.length : Int) + r.line.length) = (front ++ r.line).length := by
      rw [s32_of_in (by simp only [InS32]; omega), List.length_append, Nat.cast_add]
    have free : (if (front.length : Int) < size then s32 (size - front.length) else 0) = size -
        front.length := by
      rw [if_pos (by omega), s32_of_in (by simp only [InS32]; omega)]
    have fits := @snprintf_fits front ('\x00' :: back) r.line (size - front.length) (by omega)
      (by rw [List.length_cons]; omega)
    simp only [printInto, here, free, fits, sum]
    obtain ⟨tail, filled⟩ := @ih (i + 1) (front ++ r.line)
        (('\x00' :: back).drop (r.line.length + 1)) (by omega)
      (by simp only [List.length_append, List.length_cons, List.length_drop]; omega)
      (by rw [List.length_append]; omega)
    refine ⟨tail, ?_⟩
    rw [filled]
    simp only [List.length_append, Nat.cast_add, List.append_assoc, Int.add_assoc]

theorem complete_length (q : QosData) : ((completeText q).length : Int) =
    q.headerText.length + ((q.entries.take q.shown.ruleNo.toNat).flatMap Rule.line).length := by
  rw [completeText, List.length_append, Nat.cast_add]

theorem first_round (alloc : Int → Option (List Char)) {q : QosData} (inTable : InTable q)
    (small : (completeText q).length < 2147483648) :
    round alloc ⟨q, none, 0⟩ = some (if s32 ((completeText q).length + 1) > 0 then
      .inl ⟨q.shown, alloc (s32 ((completeText q).length + 1)), s32 ((completeText q).length + 1)⟩
      else .inr ⟨q.shown, none, 0⟩) := by
  have length := complete_length q
  have counts := @print_counts q.entries q.shown.ruleNo.toNat 0 q.headerText.length
    (by rw [Nat.zero_add]; exact inTable) (by omega) (by rw [List.drop_zero]; omega)
  rw [List.drop_zero, ← length] at counts
  simp only [round, snprintf_counts, shown_entries, counts]
  split <;> rfl

theorem second_round (alloc : Int → Option (List Char)) {q : QosData} (inTable : InTable q)
    {block : List Char} {size : Int} (whole : size = (completeText q).length + 1) (small : size < 2147483648)
    (length : (block.length : Int) = size) :
    ∃ tail, round alloc ⟨q.shown, some block, size⟩ =
      some (.inr ⟨q.shown, some (completeText q ++ '\x00' :: tail), size⟩) := by
  obtain ⟨again, header⟩ := shown_again q
  have total := complete_length q
  have first := @snprintf_fits [] block q.headerText size (by omega) (by omega)
  obtain ⟨tail, fills⟩ := @print_fills q.entries q.shown.ruleNo.toNat 0 size q.headerText
    (block.drop (q.headerText.length + 1)) (by rw [Nat.zero_add]; exact inTable) small
    (by simp only [List.length_append, List.length_cons, List.length_drop]; omega)
    (by rw [List.drop_zero]; omega)
  refine ⟨tail, ?_⟩
  rw [List.drop_zero, ← total, ← completeText] at fills
  have exactly : s32 ((completeText q).length + 1) = size := by
    rw [← whole]
    exact s32_of_in (by simp only [InS32]; omega)
  simp only [List.nil_append, List.length_nil, Nat.cast_zero] at first
  simp only [round, header, first, again, shown_entries, fills, exactly, gt_iff_lt, Int.lt_irrefl, ↓reduceIte]

theorem null_not_in_line (vs : List Int) : '\x00' ∉ csv vs ++ ['\n'] := by
  rw [List.mem_append, not_or]
  exact ⟨not_in_csv (by decide) vs, by decide⟩

theorem null_not_in_text (q : QosData) : '\x00' ∉ completeText q := by
  rw [completeText, List.mem_append, not_or]
  constructor
  · unfold QosData.headerText
    split
    · decide
    · exact null_not_in_line _
  · intro member
    obtain ⟨r, _, inside⟩ := List.mem_flatMap.mp member
    exact null_not_in_line _ inside

theorem c_string_of_text {text : List Char} (noNull : '\x00' ∉ text) (tail : List Char) :
    cString (text ++ '\x00' :: tail) = text := by
  rw [cString, List.takeWhile_append_of_pos]
  · simp
  · intro c member
    simp only [decide_eq_true_eq]
    rintro rfl
    exact noNull member

theorem short_two_passes {alloc : Int → Option (List Char)} (allocates : Allocates alloc) {q : QosData}
    (inTable : InTable q) (fits : ((completeText q).length : Int) + 1 < 2147483648) : TwoPasses alloc q := by
  have exactly : s32 ((completeText q).length + 1) = (completeText q).length + 1 :=
    s32_of_in (by simp only [InS32]; omega)
  have first := first_round alloc inTable (by omega)
  rw [exactly, if_pos (by omega)] at first
  obtain ⟨block, given, length⟩ := allocates ((completeText q).length + 1) (by omega)
  rw [given] at first
  obtain ⟨tail, second⟩ := second_round alloc inTable rfl fits length
  have ends := Ends.again first (Ends.leave second)
  refine ⟨⟨q.shown, some (completeText q ++ '\x00' :: tail), (completeText q).length + 1⟩, ?_, ?_⟩
  · intro n s
    constructor
    · intro other
      exact ends_unique other ends
    · rintro ⟨rfl, rfl⟩
      exact ends
  · exact c_string_of_text (null_not_in_text q) tail

theorem longest_one_pass {alloc : Int → Option (List Char)} {q : QosData} (inTable : InTable q)
    (long : ((completeText q).length : Int) = 2147483647) : ¬ TwoPasses alloc q := by
  rintro ⟨last, only, _⟩
  have first := first_round alloc inTable (by omega)
  have wrapped : s32 ((completeText q).length + 1) = -2147483648 := by rw [long]; decide
  rw [wrapped, if_neg (by decide)] at first
  have rounds := ((only 1 _).mp (Ends.leave first)).1
  omega

theorem two_passes_iff_shown {alloc : Int → Option (List Char)} (allocates : Allocates alloc) {q : QosData}
    (inTable : InTable q) (small : (completeText q).length < 2147483648) :
    TwoPasses alloc q ↔ (oscQosRulesSeqShow true q).2 = .ok (completeText q) := by
  obtain ⟨_, header⟩ := shown_again q
  have length := complete_length q
  have printed := @print_rules_eq q.entries q.shown.ruleNo.toNat 0 (by rw [Nat.zero_add]; exact inTable)
    q.headerText.length (by simp only [intMax]; omega) q.headerText
  rw [List.drop_zero, ← length, ← completeText, if_neg (by simp only [intMax]; omega)] at printed
  rw [seq_show_eq, showPass, header, shown_entries, printed]
  dsimp only
  by_cases long : ((completeText q).length : Int) = 2147483647
  · rw [if_pos (by simp only [intMax]; omega)]
    exact iff_of_false (longest_one_pass inTable long) (by simp)
  · rw [if_neg (by simp only [intMax]; omega)]
    exact iff_of_true (short_two_passes allocates inTable (by omega)) rfl

/-- Every text below 2^31 characters is printed whole in two passes, exactly if its null can
    be counted too. -/
theorem two_pass_printing_iff (alloc : Int → Option (List Char)) (allocates : Allocates alloc) (q : QosData)
    (inTable : InTable q) (small : (completeText q).length < 2147483648) :
    TwoPasses alloc q ↔ (completeText q).length ≠ 2147483647 := by
  constructor
  · intro passes long
    exact longest_one_pass inTable (by omega) passes
  · intro short
    exact short_two_passes allocates inTable (by omega)

def zeroed (n : Int) : Option (List Char) := some (List.replicate n.toNat '\x00')

theorem zeroed_allocates : Allocates zeroed := by
  intro n positive
  refine ⟨_, rfl, ?_⟩
  rw [List.length_replicate]
  omega

theorem two_pass_printing_used_rule :
    (completeText afterOneReply).length = 37 ∧ TwoPasses zeroed afterOneReply := by
  have length : (completeText afterOneReply).length = 37 := by decide +kernel
  refine ⟨length, ?_⟩
  exact (two_pass_printing_iff zeroed zeroed_allocates afterOneReply
    (by unfold InTable; decide) (by omega)).mpr
    (by omega)

/-- Rules of zeros, with one number of seven digits in the last of them. -/
def brimmingRules (n : Nat) : List Rule := List.replicate n zeroRule ++
    [{ zeroRule with ackEwmaLower := 1000000 }]

def brimming : QosData :=
  { initQos 8 with
    minGapBetweenUpdatingMrif := 1
    ruleNo := 82595524
    rules := some ⟨6607641920, brimmingRules 82595523⟩ }

theorem brimming_rules_length (n : Nat) : (brimmingRules n).length = n + 1 ∧
    ((brimmingRules n).flatMap Rule.line).length = 26 * n + 32 := by
  have line : zeroRule.line.length = 26 := by decide +kernel
  have last : (Rule.line { zeroRule with ackEwmaLower := 1000000 }).length = 32 := by decide +kernel
  simp only [brimmingRules, List.length_append, List.length_replicate, List.length_singleton,
    List.flatMap_append,
    List.length_flatMap, List.map_replicate, line, List.sum_replicate_nat, List.flatMap_singleton, last]
  exact ⟨trivial, by rw [Nat.mul_comm]⟩

theorem brimming_set : ¬ brimming.Unset := by simp [QosData.Unset, brimming]

theorem brimming_shown : brimming.shown.ruleNo.toNat = (brimmingRules 82595523).length := by
  rw [QosData.shown, if_neg brimming_set, (brimming_rules_length 82595523).1]
  rfl

theorem brimming_length : (completeText brimming).length = 2147483647 := by
  have entries : brimming.entries = brimmingRules 82595523 := rfl
  have header : brimming.headerText.length = 17 := by
    rw [QosData.headerText, if_neg brimming_set]
    decide +kernel
  have lines := (brimming_rules_length 82595523).2
  rw [completeText, List.length_append, entries, brimming_shown, List.take_length, header, lines]

/-- The null of a text of 2^31 - 1 characters cannot be counted: nothing is printed. -/
theorem two_pass_printing_brimming :
    Allocates zeroed ∧ InTable brimming ∧ (completeText brimming).length < 2147483648 ∧
      ¬ TwoPasses zeroed brimming := by
  have inTable : InTable brimming := le_of_eq brimming_shown
  have length := brimming_length
  exact ⟨zeroed_allocates, inTable, by omega, longest_one_pass inTable (by omega)⟩

end QosPrinting
