import LustreTools.Qos.Table

/-!
Writing the pause between two RPCs (lproc_osc.c, lprocfs_status.c). The number is read by
`lprocfs_write_helper` into a local variable that was not set before; what the variable
holds then is an argument here. The handler does not look at what the helper returns.
-/
namespace QosGapFile
open Words Text QosRules QosTable

def signed (mult : Int) : List Char → Int × List Char
  | '-' :: pbuf => (s32 (-mult), pbuf)
  | pbuf => (mult, pbuf)

def scaled (pbuf : List Char) (mult : Int) : Int := s32 (s32 (simpleStrtoull pbuf) * mult)

/-- What is added for the text behind the number: the digits of a fraction, at most five. -/
def fraction (rest : List Char) (mult : Int) : Int :=
  match rest with
  | '.' :: pbuf =>
    let digits := (pbuf.take 5).takeWhile Char.isDigit
    if digits.isEmpty then 0 else (scaled (pbuf.take 5) mult).tdiv (10 ^ digits.length)
  | _ => 0

/-- The return code and `*val` after the call, for `count` bytes of the user and whether
    they can be copied. The first two errors come before `*val` is written. -/
def lprocfsWriteFracHelper (copied : Bool) (buffer : List Char) (val mult : Int) : Int × Int :=
  if buffer.length > 19 then (einval, val)
  else if !copied then (efault, val)
  else
    let (mult, pbuf) := signed mult (cString buffer)
    let val := scaled pbuf mult
    if (pbuf.takeWhile Char.isDigit).isEmpty then (einval, val)
    else (0, s32 (val + fraction (pbuf.dropWhile Char.isDigit) mult))

def lprocfsWriteHelper (copied : Bool) (buffer : List Char) (val : Int) : Int × Int :=
  lprocfsWriteFracHelper copied buffer val 1

def oscMinBrwRpcGapSeqWrite (copied : Bool) (buffer : List Char) (val : Int) (q : QosData) : QosData × Int :=
  let val := (lprocfsWriteHelper copied buffer val).2
  if val < 0 then (q, erange)
  else ({ q with minUsecBetweenRpcs := u32 val }, s64 buffer.length)

/-- The write stores the parsed number or fails and stores nothing; an error of the helper is
    passed on; and nothing depends on what the variable held before. -/
structure AtomicWrite (copied : Bool) (buffer : List Char) (q : QosData) : Prop where
  outcome : ∀ val, InS32 val →
    (∃ n, 0 ≤ n ∧ lprocfsWriteHelper copied buffer val = (0, n) ∧
      oscMinBrwRpcGapSeqWrite copied buffer val q =
        ({ q with minUsecBetweenRpcs := n }, (buffer.length : Int))) ∨
    ((oscMinBrwRpcGapSeqWrite copied buffer val q).2 < 0 ∧
      (oscMinBrwRpcGapSeqWrite copied buffer val q).1 = q)
  error : ∀ val, InS32 val → (lprocfsWriteHelper copied buffer val).1 ≠ 0 →
    (oscMinBrwRpcGapSeqWrite copied buffer val q).2 = (lprocfsWriteHelper copied buffer val).1
  same : ∀ val other, InS32 val → InS32 other →
    oscMinBrwRpcGapSeqWrite copied buffer val q = oscMinBrwRpcGapSeqWrite copied buffer other q

/-- A number stands first, behind at most one minus sign. -/
def NumberFirst : List Char → Prop
  | '-' :: c :: _ => c.isDigit = true
  | c :: _ => c.isDigit = true
  | [] => False

structure Readable (copied : Bool) (buffer : List Char) : Prop where
  short : buffer.length ≤ 19
  copied : copied = true
  number : NumberFirst buffer

theorem c_string_digit_iff (text : List Char) :
    ((cString text).takeWhile Char.isDigit).isEmpty = false ↔ ∃ c rest, text = c :: rest ∧
      c.isDigit = true := by
  cases text with
  | nil => simp [cString]
  | cons c rest =>
    by_cases null : c = '\x00'
    · subst null
      simp only [cString, ne_eq, not_true_eq_false, decide_false, Bool.false_eq_true, not_false_eq_true,
        List.takeWhile_cons_of_neg, List.takeWhile_nil, List.isEmpty_nil, Bool.true_eq_false, List.cons.injEq,
        false_iff]
      rintro ⟨d, tail, ⟨rfl, _⟩, digit⟩
      exact absurd digit (by decide)
    · cases digit : c.isDigit <;> simp [cString, null, digit]

theorem signed_plain (mult : Int) {text : List Char} (plain : text.head? ≠ some '-') :
    signed mult text = (mult, text) := by
  unfold signed
  split
  · exact absurd rfl plain
  · rfl

theorem number_first_iff (mult : Int) (buffer : List Char) :
    ((signed mult (cString buffer)).2.takeWhile Char.isDigit).isEmpty = false ↔ NumberFirst buffer := by
  cases buffer with
  | nil => simp [cString, signed, NumberFirst]
  | cons c rest =>
    by_cases minus : c = '-'
    · subst minus
      have text : (signed mult (cString ('-' :: rest))).2 = cString rest := rfl
      rw [text, c_string_digit_iff]
      cases rest with
      | nil => simp [NumberFirst]
      | cons d tail => simp [NumberFirst]
    · have text : (signed mult (cString (c :: rest))).2 = cString (c :: rest) := by
        rw [signed_plain]
        unfold cString
        rw [List.takeWhile_cons]
        split
        · simp [minus]
        · simp
      rw [text, c_string_digit_iff]
      simp [NumberFirst, minus]

theorem scaled_none {pbuf : List Char} (none : (pbuf.takeWhile Char.isDigit).isEmpty = true) (mult : Int) :
    scaled pbuf mult = 0 := by
  rw [scaled, simpleStrtoull, List.isEmpty_iff.mp none]
  simp [u64, s32]

theorem helper_parses {copied : Bool} {buffer : List Char} (readable : Readable copied buffer) :
    ∃ n, InS32 n ∧ ∀ val, lprocfsWriteHelper copied buffer val = (0, n) := by
  obtain ⟨short, fetched, number⟩ := readable
  have digits := (number_first_iff 1 buffer).mpr number
  generalize parsed : signed 1 (cString buffer) = parts at digits
  refine ⟨s32 (scaled parts.2 parts.1 + fraction (parts.2.dropWhile Char.isDigit) parts.1), s32_in _, ?_⟩
  intro val
  rw [lprocfsWriteHelper, lprocfsWriteFracHelper, if_neg (by omega), if_neg (by simp [fetched])]
  simp only [parsed, digits, Bool.false_eq_true, ↓reduceIte]

theorem helper_fails {copied : Bool} {buffer : List Char} (unreadable : ¬ Readable copied buffer) :
    (∀ val, ∃ rc < 0, lprocfsWriteHelper copied buffer val = (rc, val)) ∨
      buffer.length ≤ 19 ∧ ∀ val, lprocfsWriteHelper copied buffer val = (einval, 0) := by
  have negative : einval < 0 ∧ efault < 0 := by decide
  by_cases long : buffer.length > 19
  · refine Or.inl fun val => ⟨einval, negative.1, ?_⟩
    rw [lprocfsWriteHelper, lprocfsWriteFracHelper, if_pos long]
  · cases copied with
    | false =>
      refine Or.inl fun val => ⟨efault, negative.2, ?_⟩
      rw [lprocfsWriteHelper, lprocfsWriteFracHelper, if_neg long]
      rfl
    | true =>
      have none : ((signed 1 (cString buffer)).2.takeWhile Char.isDigit).isEmpty = true := by
        rw [← Bool.not_eq_false, number_first_iff]
        exact fun number => unreadable ⟨by omega, rfl, number⟩
      refine Or.inr ⟨by omega, fun val => ?_⟩
      rw [lprocfsWriteHelper, lprocfsWriteFracHelper, if_neg long]
      simp only [Bool.not_true, Bool.false_eq_true, ↓reduceIte, none, scaled_none none]

theorem write_stores {copied : Bool} {buffer : List Char} {val rc n : Int} (q : QosData)
    (left : lprocfsWriteHelper copied buffer val = (rc, n)) (nonneg : 0 ≤ n) :
    oscMinBrwRpcGapSeqWrite copied buffer val q =
      ({ q with minUsecBetweenRpcs := u32 n }, s64 buffer.length) := by
  simp only [oscMinBrwRpcGapSeqWrite, left]
  rw [if_neg (by omega)]

theorem count_exact {buffer : List Char} (short : buffer.length ≤ 19) :
    s64 (buffer.length : Int) = buffer.length := s64_of_in (by simp only [InS64]; omega)

theorem readable_atomic {copied : Bool} {buffer : List Char} (q : QosData)
    (readable : Readable copied buffer) :
    AtomicWrite copied buffer q := by
  obtain ⟨n, range, parses⟩ := helper_parses readable
  simp only [InS32] at range
  constructor
  · intro val _
    by_cases negative : n < 0
    · have failed : oscMinBrwRpcGapSeqWrite copied buffer val q = (q, erange) := by
        simp only [oscMinBrwRpcGapSeqWrite, parses, negative, ↓reduceIte]
      rw [failed]
      exact Or.inr ⟨show erange < 0 by decide, rfl⟩
    · refine Or.inl ⟨n, by omega, parses val, ?_⟩
      have stored : u32 n = n := u32_of_in (by simp only [InU32]; omega)
      rw [write_stores q (parses val) (by omega), stored, count_exact readable.short]
  · intro val _ failed
    rw [parses] at failed
    exact absurd rfl failed
  · intro val other _ _
    simp only [oscMinBrwRpcGapSeqWrite, parses]

/-- The write is atomic exactly when at most 19 bytes can be fetched and begin with a number. -/
theorem gap_write_atomic_iff (copied : Bool) (buffer : List Char) (q : QosData) :
    AtomicWrite copied buffer q ↔ buffer.length ≤ 19 ∧ copied = true ∧ NumberFirst buffer := by
  constructor
  · intro atomic
    by_contra unmet
    have unreadable : ¬ Readable copied buffer := fun readable =>
      unmet ⟨readable.short, readable.copied, readable.number⟩
    rcases helper_fails unreadable with kept | ⟨short, zero⟩
    · -- Two old values that are not negative are stored as they are.
      obtain ⟨_, _, first⟩ := kept 0
      obtain ⟨_, _, second⟩ := kept 1
      have same := atomic.same 0 1 (by decide) (by decide)
      rw [write_stores q first (by decide), write_stores q second (by decide)] at same
      have gaps := congrArg (fun result => result.1.minUsecBetweenRpcs) same
      exact absurd gaps (show u32 0 ≠ u32 1 by decide)
    · have passed := atomic.error 0 (by decide) (by rw [zero]; decide)
      rw [write_stores q (zero 0) (Int.le_refl 0), zero, count_exact short] at passed
      simp only [einval] at passed
      omega
  · rintro ⟨short, fetched, number⟩
    exact readable_atomic q ⟨short, fetched, number⟩

def pausing : QosData := { initQos 8 with minUsecBetweenRpcs := 250 }

/-- A word is taken for 0 and accepted; of a text that cannot be copied the old content of
    the variable is stored. -/
theorem gap_write_ignores_errors :
    ¬ AtomicWrite true ['o', 'f', 'f'] pausing ∧
      oscMinBrwRpcGapSeqWrite true ['o', 'f', 'f'] 7 pausing = ({ pausing with minUsecBetweenRpcs := 0 }, 3) ∧
      oscMinBrwRpcGapSeqWrite false ['5'] 7 pausing = ({ pausing with minUsecBetweenRpcs := 7 }, 1) := by
  refine ⟨fun atomic => ?_, by decide, by decide⟩
  have passed := atomic.error 7 (by decide) (by decide)
  exact absurd passed (by decide)

end QosGapFile
