import LustreTools.Lib.Words
import Mathlib.Data.List.Forall2

/-!
Decimal text as C's formatted input and output treat it. `sscanf` is that of the C
standard: it interprets a format given as directives, an unsigned directive takes a
sign as a signed one does, it stops at the first directive that does not match, and
the number of values it returns is the function's result. Where the standard leaves
the result open, for a value outside its destination's range, the value is reduced
modulo the width, as the kernel's `vsscanf` does.
-/
namespace Text
open Words

def isSpace (c : Char) : Bool := c == ' ' || ('\t' ≤ c && c ≤ '\r')

def skipSpaces (s : List Char) : List Char := s.dropWhile isSpace

def scanNat (s : List Char) : Option (Nat × List Char) :=
  match s.takeWhile Char.isDigit with
  | [] => none
  | ds => some (Nat.ofDigitChars 10 ds 0, s.dropWhile Char.isDigit)

def scanInt : List Char → Option (Int × List Char)
  | '-' :: s => (scanNat s).map fun r => (-(r.1 : Int), r.2)
  | '+' :: s => (scanNat s).map fun r => ((r.1 : Int), r.2)
  | s => (scanNat s).map fun r => ((r.1 : Int), r.2)

inductive Conv where
  | d
  | u
  | llu
  deriving DecidableEq, Repr

def Conv.store : Conv → Int → Int
  | .d => s32
  | .u => u32
  | .llu => u64

def Conv.Fits : Conv → Int → Prop
  | .d => InS32
  | .u => InU32
  | .llu => InU64

instance (k : Conv) (v : Int) : Decidable (k.Fits v) :=
  match k with
  | .d => inferInstanceAs (Decidable (InS32 v))
  | .u => inferInstanceAs (Decidable (InU32 v))
  | .llu => inferInstanceAs (Decidable (InU64 v))

inductive Directive where
  | conv (kind : Conv)
  | lit (c : Char)
  | space
  | count
  deriving DecidableEq, Repr

/-- The assigned values, and the input left where `%n` was reached. -/
def sscanf : List Directive → List Char → List Int × Option (List Char)
  | [], _ => ([], none)
  | .conv kind :: fmt, s =>
    match scanInt (skipSpaces s) with
    | none => ([], none)
    | some (v, rest) => let r := sscanf fmt rest; (kind.store v :: r.1, r.2)
  | .lit c :: fmt, s =>
    match s with
    | [] => ([], none)
    | x :: rest => if x = c then sscanf fmt rest else ([], none)
  | .space :: fmt, s => sscanf fmt (skipSpaces s)
  | .count :: fmt, s => let r := sscanf fmt s; (r.1, r.2.or (some s))

/-- The kernel's base-10 conversion of a digit run; no digits give 0. -/
def simpleStrtoull (s : List Char) : Int :=
  u64 (Nat.ofDigitChars 10 (s.takeWhile Char.isDigit) 0)

def simpleStrtoll : List Char → Int
  | '-' :: s => s64 (-(simpleStrtoull s))
  | s => s64 (simpleStrtoull s)

def strcmp : List Char → List Char → Int
  | [], [] => 0
  | [], _ :: _ => -1
  | _ :: _, [] => 1
  | a :: as, b :: bs => if a = b then strcmp as bs else if a < b then -1 else 1

def decimal (v : Int) : List Char :=
  if v < 0 then '-' :: Nat.toDigits 10 v.natAbs else Nat.toDigits 10 v.natAbs

def csv : List Int → List Char
  | [] => []
  | [v] => decimal v
  | v :: vs => decimal v ++ ',' :: csv vs

def commaFormat : List Conv → List Directive
  | [] => []
  | [k] => [.conv k]
  | k :: ks => .conv k :: .lit ',' :: commaFormat ks

def joined : List (List Char) → List Char
  | [] => []
  | [t] => t
  | t :: ts => t ++ ',' :: joined ts

def Digits (ds : List Char) : Prop := ds ≠ [] ∧ ds.all Char.isDigit = true

instance (ds : List Char) : Decidable (Digits ds) := inferInstanceAs (Decidable (_ ∧ _))

/-- The decimal spellings of a number, leading zeros and signs included. -/
inductive Numeral : List Char → Int → Prop
  | plain {ds : List Char} (digits : Digits ds) : Numeral ds (Nat.ofDigitChars 10 ds 0)
  | plus {ds : List Char} (digits : Digits ds) : Numeral ('+' :: ds) (Nat.ofDigitChars 10 ds 0)
  | minus {ds : List Char} (digits : Digits ds) : Numeral ('-' :: ds) (-(Nat.ofDigitChars 10 ds 0 : Nat))

def NoDigit : List Char → Prop
  | [] => True
  | c :: _ => c.isDigit = false

theorem strcmp_eq_zero (a b : List Char) : strcmp a b = 0 ↔ a = b := by
  induction a generalizing b with
  | nil => cases b <;> simp [strcmp]
  | cons x a ih =>
    cases b with
    | nil => simp [strcmp]
    | cons y b =>
      simp only [strcmp, List.cons.injEq]
      split
      · rename_i same; simp [same, ih]
      · rename_i different; split <;> simp [different]

theorem store_fits (k : Conv) (v : Int) : k.Fits (k.store v) := by
  cases k with
  | d => exact s32_in v
  | u => exact u32_in v
  | llu => exact u64_in v

theorem store_of_fits {k : Conv} {v : Int} (fits : k.Fits v) : k.store v = v := by
  cases k with
  | d => exact s32_of_in fits
  | u => exact u32_of_in fits
  | llu => exact u64_of_in fits

theorem digit_of_toDigits {c : Char} {n : Nat} (member : c ∈ Nat.toDigits 10 n) :
    c.isDigit = true :=
  Nat.isDigit_of_mem_toDigits (by decide) (by decide) member

theorem takeWhile_digits (ds rest : List Char) (digits : ∀ c ∈ ds, c.isDigit = true)
    (stop : NoDigit rest) : (ds ++ rest).takeWhile Char.isDigit = ds := by
  induction ds with
  | nil => cases rest <;> simp_all [NoDigit]
  | cons d ds ih =>
    have head := digits d (by simp)
    simp [head, ih (by intro c h; exact digits c (by simp [h]))]

theorem dropWhile_digits (ds rest : List Char) (digits : ∀ c ∈ ds, c.isDigit = true)
    (stop : NoDigit rest) : (ds ++ rest).dropWhile Char.isDigit = rest := by
  induction ds with
  | nil => cases rest <;> simp_all [NoDigit]
  | cons d ds ih =>
    have head := digits d (by simp)
    simp [head, ih (by intro c h; exact digits c (by simp [h]))]

theorem scanNat_digits {ds rest : List Char} (digits : Digits ds) (stop : NoDigit rest) :
    scanNat (ds ++ rest) = some (Nat.ofDigitChars 10 ds 0, rest) := by
  have all := List.all_eq_true.mp digits.2
  have take := takeWhile_digits ds rest all stop
  have drop := dropWhile_digits ds rest all stop
  unfold scanNat
  rw [take, drop]
  split
  · exact absurd rfl digits.1
  · rfl

theorem digit_not_sign {c : Char} (digit : c.isDigit = true) : c ≠ '-' ∧ c ≠ '+' := by
  constructor <;> (rintro rfl; exact absurd digit (by decide))

theorem digit_not_space {c : Char} (digit : c.isDigit = true) : isSpace c = false := by
  simp only [Char.isDigit, ge_iff_le, Bool.and_eq_true, decide_eq_true_eq] at digit
  simp only [isSpace, Bool.or_eq_false_iff, beq_eq_false_iff_ne, Bool.and_eq_false_iff,
    decide_eq_false_iff_not, Char.le_def]
  refine ⟨?_, Or.inr ?_⟩
  · rintro rfl; exact absurd digit.1 (by decide)
  · intro low
    exact absurd (UInt32.le_trans digit.1 low) (by decide)

theorem digits_cons {ds : List Char} (digits : Digits ds) : ∃ c cs, ds = c :: cs ∧ c.isDigit = true := by
  cases ds with
  | nil => exact absurd rfl digits.1
  | cons c cs => exact ⟨c, cs, rfl, List.all_eq_true.mp digits.2 c (by simp)⟩

theorem scanInt_numeral {text rest : List Char} {v : Int} (numeral : Numeral text v) (stop : NoDigit rest) :
    scanInt (text ++ rest) = some (v, rest) := by
  cases numeral with
  | plain digits =>
    have scan := scanNat_digits digits stop
    obtain ⟨c, cs, rfl, digit⟩ := digits_cons digits
    obtain ⟨minus, plus⟩ := digit_not_sign digit
    rw [List.cons_append] at scan ⊢
    unfold scanInt
    split
    · rename_i same
      exact absurd (List.cons.inj same).1 minus
    · rename_i same
      exact absurd (List.cons.inj same).1 plus
    · rw [scan]
      rfl
  | plus digits =>
    rw [List.cons_append, scanInt, scanNat_digits digits stop]
    rfl
  | minus digits =>
    rw [List.cons_append, scanInt, scanNat_digits digits stop]
    rfl

theorem numeral_start {text : List Char} {v : Int} (numeral : Numeral text v) :
    ∃ c cs, text = c :: cs ∧ isSpace c = false := by
  cases numeral with
  | plain digits =>
    obtain ⟨c, cs, rfl, digit⟩ := digits_cons digits
    exact ⟨c, cs, rfl, digit_not_space digit⟩
  | plus digits => exact ⟨'+', _, rfl, by decide⟩
  | minus digits => exact ⟨'-', _, rfl, by decide⟩

theorem skipSpaces_numeral {text : List Char} {v : Int} (numeral : Numeral text v) (rest : List Char) :
    skipSpaces (text ++ rest) = text ++ rest := by
  obtain ⟨c, cs, rfl, start⟩ := numeral_start numeral
  simp [skipSpaces, start]

theorem decimal_numeral (v : Int) : Numeral (decimal v) v := by
  have digits : Digits (Nat.toDigits 10 v.natAbs) :=
    ⟨Nat.toDigits_ne_nil, List.all_eq_true.mpr fun c member => digit_of_toDigits member⟩
  have value : Nat.ofDigitChars 10 (Nat.toDigits 10 v.natAbs) 0 = v.natAbs :=
    Nat.ofDigitChars_toDigits (by decide) (by decide)
  unfold decimal
  split
  · have numeral := Numeral.minus digits
    rwa [value, Int.ofNat_natAbs_of_nonpos (by omega), Int.neg_neg] at numeral
  · have numeral := Numeral.plain digits
    rwa [value, Int.natAbs_of_nonneg (by omega)] at numeral

theorem skipSpaces_decimal (v : Int) (rest : List Char) :
    skipSpaces (decimal v ++ rest) = decimal v ++ rest := skipSpaces_numeral (decimal_numeral v) rest

theorem sscanf_conv_numeral (k : Conv) (fmt : List Directive) {text rest : List Char} {v : Int}
    (numeral : Numeral text v) (fits : k.Fits v) (stop : NoDigit rest) :
    sscanf (.conv k :: fmt) (text ++ rest) = (v :: (sscanf fmt rest).1, (sscanf fmt rest).2) := by
  simp only [sscanf, skipSpaces_numeral numeral, scanInt_numeral numeral stop, store_of_fits fits]

theorem joined_cons (t u : List Char) (ts : List (List Char)) :
    joined (t :: u :: ts) = t ++ ',' :: joined (u :: ts) := rfl

theorem csv_cons (v w : Int) (vs : List Int) : csv (v :: w :: vs) = decimal v ++ ',' :: csv (w :: vs) :=
  rfl

theorem csv_append (v w : Int) (vs ws : List Int) :
    csv (v :: vs ++ w :: ws) = csv (v :: vs) ++ ',' :: csv (w :: ws) := by
  induction vs generalizing v with
  | nil => rfl
  | cons x xs ih =>
    simp only [List.cons_append] at ih ⊢
    rw [csv_cons, csv_cons, ih]
    simp

theorem sscanf_joined {ks : List Conv} {ts : List (List Char)} {vs : List Int} (fmt : List Directive)
    {rest : List Char} (fits : List.Forall₂ Conv.Fits ks vs) (spelled : List.Forall₂ Numeral ts vs)
    (some : ks ≠ []) (stop : NoDigit rest) :
    sscanf (commaFormat ks ++ fmt) (joined ts ++ rest) =
      (vs ++ (sscanf fmt rest).1, (sscanf fmt rest).2) := by
  induction fits generalizing ts with
  | nil => exact absurd rfl some
  | @cons k v ks vs fit tail ih =>
    cases spelled with
    | @cons t _ ts _ numeral others =>
      cases tail with
      | nil =>
        cases others with
        | nil => exact sscanf_conv_numeral k fmt numeral fit stop
      | @cons k' v' ks vs fit' tail =>
        cases others with
        | @cons t' _ ts _ numeral' others =>
          have comma : NoDigit (',' :: (joined (t' :: ts) ++ rest)) := by
            simp only [NoDigit]
            decide
          have next := ih (.cons numeral' others) (by simp)
          rw [joined_cons]
          simp only [commaFormat, List.cons_append, List.append_assoc] at next ⊢
          rw [sscanf_conv_numeral k _ numeral fit comma]
          simp only [sscanf, ↓reduceIte, next]

theorem csv_eq_joined (vs : List Int) : csv vs = joined (vs.map decimal) := by
  induction vs with
  | nil => rfl
  | cons v vs ih =>
    cases vs with
    | nil => rfl
    | cons w vs =>
      rw [csv_cons, ih]
      rfl

theorem decimals_spelled (vs : List Int) : List.Forall₂ Numeral (vs.map decimal) vs := by
  rw [List.forall₂_map_left_iff, List.forall₂_same]
  exact fun v _ => decimal_numeral v

def convs : List Directive → List Conv
  | [] => []
  | .conv k :: fmt => k :: convs fmt
  | _ :: fmt => convs fmt

theorem sscanf_fits (fmt : List Directive) (s : List Char) :
    ∃ read, read <+: convs fmt ∧ List.Forall₂ Conv.Fits read (sscanf fmt s).1 := by
  induction fmt generalizing s with
  | nil => exact ⟨[], List.nil_prefix, .nil⟩
  | cons d fmt ih =>
    cases d with
    | conv k =>
      simp only [sscanf, convs]
      split
      · exact ⟨[], List.nil_prefix, .nil⟩
      · rename_i v rest scanned
        obtain ⟨read, first, fits⟩ := ih rest
        exact ⟨k :: read, (List.prefix_cons_inj k).mpr first, .cons (store_fits k v) fits⟩
    | lit c =>
      simp only [sscanf, convs]
      split
      · exact ⟨[], List.nil_prefix, .nil⟩
      · split
        · exact ih _
        · exact ⟨[], List.nil_prefix, .nil⟩
    | space => exact ih _
    | count => exact ih s

theorem sscanf_all_fit {fmt : List Directive} {s : List Char}
    (all : (sscanf fmt s).1.length = (convs fmt).length) :
    List.Forall₂ Conv.Fits (convs fmt) (sscanf fmt s).1 := by
  obtain ⟨read, first, fits⟩ := sscanf_fits fmt s
  have whole : read = convs fmt := first.eq_of_length (fits.length_eq.trans all)
  exact whole ▸ fits

theorem decimal_chars {v : Int} {c : Char} (member : c ∈ decimal v) : c = '-' ∨ c.isDigit = true := by
  unfold decimal at member
  split at member
  · rcases List.mem_cons.mp member with rfl | digit
    · exact Or.inl rfl
    · exact Or.inr (digit_of_toDigits digit)
  · exact Or.inr (digit_of_toDigits member)

theorem csv_chars {vs : List Int} {c : Char} (member : c ∈ csv vs) :
    c = ',' ∨ c = '-' ∨ c.isDigit = true := by
  induction vs with
  | nil => cases member
  | cons v vs ih =>
    cases vs with
    | nil => exact Or.inr (decimal_chars member)
    | cons w vs =>
      rw [csv_cons, List.mem_append, List.mem_cons] at member
      rcases member with first | comma | rest
      · exact Or.inr (decimal_chars first)
      · exact Or.inl comma
      · exact ih rest

theorem not_in_csv {c : Char} (other : ¬ (c = ',' ∨ c = '-' ∨ c.isDigit = true)) (vs : List Int) :
    c ∉ csv vs :=
  fun member => other (csv_chars member)

theorem decimal_length_pos (v : Int) : 0 < (decimal v).length := by
  unfold decimal
  split
  · simp
  · exact Nat.length_toDigits_pos

theorem decimal_length_le {v : Int} {k : Nat} (small : v.natAbs < 10 ^ k) (positive : 0 < k) :
    (decimal v).length ≤ k + 1 := by
  have digits := (Nat.length_toDigits_le_iff (b := 10) (by decide) positive).mpr small
  unfold decimal
  split
  · simpa using digits
  · omega

end Text
