import LustreTools.Lib.Runs
import LustreTools.Qos.Table

/-!
The moving average of the time between two replies (`time_ewma_add_extlock`). It is kept
scaled by `alpha_inv` and divided before it is multiplied back. The differences of the
timestamps are those of `cfs_timeval_sub`, in microseconds wherever these fit a long.
-/
namespace QosEwma
open Runs Words QosRules QosAdjust

def initTimeEwma : TimeEwma := ⟨8, 0, ⟨0, 0⟩⟩

def longGap : Int := 600000000

/-- The difference whose absolute value is no long. -/
def longest : Int := -9223372036854775808

def ewma (te : TimeEwma) : Int :=
  match qosGetEwmaUsec te with
  | .ok usec => usec
  | .error _ => 0

def steps : List Timeval → List Int
  | a :: b :: ts => (b.usec - a.usec) :: steps (b :: ts)
  | _ => []

def gaps (ts : List Timeval) : List Int := (steps ts).map fun d => (d.natAbs : Int)

structure Stamps (ts : List Timeval) : Prop where
  nonzero : ∀ t ∈ ts, t.tvSec ≠ 0
  fit : ∀ d ∈ steps ts, InS64 d

section
variable (timevalSub : Timeval → Timeval → Int)

def feed (te : TimeEwma) (t : Timeval) : TimeEwma :=
  match timeEwmaAddExtlock timevalSub te t with
  | .ok fed => fed
  | .error _ => te

def gap (te : TimeEwma) (t : Timeval) : Int := (t.usec - te.lastTime.usec).natAbs

/-- What a timestamp does to the average. Nothing is said of the first one but that it
    stays in bounds. -/
structure StepSound (te : TimeEwma) (t : Timeval) : Prop where
  returns : timeEwmaAddExtlock timevalSub te t = .ok (feed timevalSub te t) ∧
    qosGetEwmaUsec (feed timevalSub te t) = .ok (ewma (feed timevalSub te t))
  bounded : 0 ≤ (feed timevalSub te t).ea ∧ (feed timevalSub te t).ea ≤ 8 * longGap
  exact_sum : te.lastTime.tvSec ≠ 0 → gap te t ≤ longGap →
    (feed timevalSub te t).ea = te.ea / 8 * 7 + gap te t
  between : te.lastTime.tvSec ≠ 0 → gap te t ≤ longGap →
    min (ewma te) (gap te t) ≤ ewma (feed timevalSub te t) ∧
      ewma (feed timevalSub te t) ≤ max (ewma te) (gap te t)
  reset : te.lastTime.tvSec ≠ 0 → longGap < gap te t → ewma (feed timevalSub te t) = 0

end

structure Good (te : TimeEwma) : Prop where
  scale : te.alphaInv = 8
  least : 0 ≤ te.ea
  most : te.ea ≤ 8 * longGap

variable {timevalSub : Timeval → Timeval → Int}

theorem ewma_eq (te : TimeEwma) (scale : te.alphaInv = 8) :
    qosGetEwmaUsec te = .ok (te.ea / 8) ∧ ewma te = te.ea / 8 := by
  have read : qosGetEwmaUsec te = .ok (te.ea / 8) := by
    rw [qosGetEwmaUsec, scale]
    rfl
  exact ⟨read, by rw [ewma, read]⟩

theorem add_first {te : TimeEwma} {t : Timeval} (first : te.lastTime.tvSec = 0) :
    timeEwmaAddExtlock timevalSub te t = .ok { te with lastTime := t } := by
  simp [timeEwmaAddExtlock, first]

theorem add_later {te : TimeEwma} {t : Timeval} (scale : te.alphaInv = 8)
    (later : te.lastTime.tvSec ≠ 0) {diff : Int}
    (abs : (if timevalSub t te.lastTime < 0 then s64 (-timevalSub t te.lastTime)
      else timevalSub t te.lastTime) = diff) :
    timeEwmaAddExtlock timevalSub te t =
      .ok { te with
        ea := if diff > longGap then 0 else u64 (te.ea / 8 * 7 + diff)
        lastTime := t } := by
  simp only [timeEwmaAddExtlock, ne_eq, later, not_false_eq_true, ↓reduceIte, abs, longGap, scale]
  split <;> simp_all [u32]

theorem magnitude {d : Int} (range : InS64 d) (short : d ≠ longest) :
    (if d < 0 then s64 (-d) else d) = d.natAbs := by
  simp only [InS64, longest] at range short
  split
  · rw [s64_of_in (by simp only [InS64]; omega)]
    omega
  · omega

theorem add_near {te : TimeEwma} {t : Timeval} (good : Good te) (later : te.lastTime.tvSec ≠ 0)
    (near : gap te t ≤ longGap) (usecs : timevalSub t te.lastTime = t.usec - te.lastTime.usec) :
    timeEwmaAddExtlock timevalSub te t =
      .ok { te with ea := te.ea / 8 * 7 + gap te t, lastTime := t } := by
  have least := good.least
  have most := good.most
  have bound : (t.usec - te.lastTime.usec).natAbs ≤ 600000000 := by
    simp only [gap, longGap] at near
    omega
  have abs := magnitude (d := t.usec - te.lastTime.usec)
    (by simp only [InS64]; omega) (by simp only [longest]; omega)
  rw [← usecs] at abs
  rw [add_later good.scale later abs, if_neg (by simp only [longGap]; omega), usecs, ← gap,
    u64_of_in (by simp only [InU64, longGap, gap] at *; omega)]

theorem add_far {te : TimeEwma} {t : Timeval} (scale : te.alphaInv = 8) (later : te.lastTime.tvSec ≠ 0)
    (far : longGap < gap te t) (usecs : timevalSub t te.lastTime = t.usec - te.lastTime.usec)
    (range : InS64 (t.usec - te.lastTime.usec)) (short : t.usec - te.lastTime.usec ≠ longest) :
    timeEwmaAddExtlock timevalSub te t = .ok { te with ea := 0, lastTime := t } := by
  have abs := magnitude range short
  rw [← usecs] at abs
  rw [add_later scale later abs, if_pos (by rw [usecs]; exact far)]

theorem add_longest {te : TimeEwma} {t : Timeval} (good : Good te) (later : te.lastTime.tvSec ≠ 0)
    (back : timevalSub t te.lastTime = longest) :
    timeEwmaAddExtlock timevalSub te t =
      .ok { te with ea := te.ea / 8 * 7 + 9223372036854775808, lastTime := t } := by
  have least := good.least
  have most := good.most
  have abs : (if timevalSub t te.lastTime < 0 then s64 (-timevalSub t te.lastTime)
      else timevalSub t te.lastTime) = longest := by
    rw [back]
    decide
  have wrapped : u64 (te.ea / 8 * 7 + longest) = te.ea / 8 * 7 + 9223372036854775808 := by
    simp only [u64, longest, longGap] at most ⊢
    omega
  rw [add_later good.scale later abs, if_neg (by decide), wrapped]

theorem feed_eq {te fed : TimeEwma} {t : Timeval} (added : timeEwmaAddExtlock timevalSub te t = .ok fed) :
    feed timevalSub te t = fed := by
  rw [feed, added]

theorem returns_of {te fed : TimeEwma} {t : Timeval}
    (added : timeEwmaAddExtlock timevalSub te t = .ok fed) (scale : fed.alphaInv = 8) :
    timeEwmaAddExtlock timevalSub te t = .ok (feed timevalSub te t) ∧
      qosGetEwmaUsec (feed timevalSub te t) = .ok (ewma (feed timevalSub te t)) := by
  obtain ⟨read, value⟩ := ewma_eq fed scale
  rw [feed_eq added, value]
  exact ⟨added, read⟩

theorem first_sound {te : TimeEwma} (t : Timeval) (good : Good te) (first : te.lastTime.tvSec = 0) :
    StepSound timevalSub te t := by
  have added := @add_first timevalSub te t first
  constructor
  · exact returns_of added good.scale
  · rw [feed_eq added]
    exact ⟨good.least, good.most⟩
  · exact fun later => absurd first later
  · exact fun later => absurd first later
  · exact fun later => absurd first later

theorem near_sound {te : TimeEwma} {t : Timeval} (good : Good te) (later : te.lastTime.tvSec ≠ 0)
    (near : gap te t ≤ longGap) (usecs : timevalSub t te.lastTime = t.usec - te.lastTime.usec) :
    StepSound timevalSub te t := by
  have added := add_near good later near usecs
  have least := good.least
  have most := good.most
  have nonneg : 0 ≤ gap te t := by simp only [gap]; omega
  have value : ewma { te with ea := te.ea / 8 * 7 + gap te t, lastTime := t } =
      (te.ea / 8 * 7 + gap te t) / 8 := (ewma_eq { te with ea := _, lastTime := t } good.scale).2
  simp only [longGap] at most near
  constructor
  · exact returns_of added good.scale
  · rw [feed_eq added]
    simp only [longGap]
    constructor <;> omega
  · intro _ _
    rw [feed_eq added]
  · intro _ _
    rw [feed_eq added, value, (ewma_eq te good.scale).2]
    constructor <;> omega
  · intro _ far
    simp only [longGap] at far
    omega

theorem far_sound {te : TimeEwma} {t : Timeval} (good : Good te) (later : te.lastTime.tvSec ≠ 0)
    (far : longGap < gap te t) (usecs : timevalSub t te.lastTime = t.usec - te.lastTime.usec)
    (range : InS64 (t.usec - te.lastTime.usec)) (short : t.usec - te.lastTime.usec ≠ longest) :
    StepSound timevalSub te t := by
  have added := add_far good.scale later far usecs range short
  constructor
  · exact returns_of added good.scale
  · rw [feed_eq added]
    exact ⟨Int.le_refl 0, show (0 : Int) ≤ 8 * longGap by decide⟩
  · exact fun _ near => absurd near (Int.not_le.mpr far)
  · exact fun _ near => absurd near (Int.not_le.mpr far)
  · intro _ _
    rw [feed_eq added, (ewma_eq { te with ea := 0, lastTime := t } good.scale).2]
    rfl

/-- What `cfs_timeval_sub` is relied on for. -/
def Usecs (timevalSub : Timeval → Timeval → Int) : Prop :=
  ∀ a b : Timeval, InS64 (a.usec - b.usec) → timevalSub a b = a.usec - b.usec

theorem step_sound_iff (usecs : Usecs timevalSub) {te : TimeEwma} {t : Timeval} (good : Good te)
    (range : te.lastTime.tvSec ≠ 0 → InS64 (t.usec - te.lastTime.usec)) :
    StepSound timevalSub te t ↔
      (te.lastTime.tvSec ≠ 0 → t.usec - te.lastTime.usec ≠ longest) := by
  by_cases first : te.lastTime.tvSec = 0
  · exact iff_of_true (first_sound t good first) fun later => absurd first later
  · have difference := usecs t te.lastTime (range first)
    constructor
    · intro sound _ back
      have added := add_longest good first (difference.trans back)
      have bounded := sound.bounded.2
      have least := good.least
      rw [feed_eq added] at bounded
      simp only [longGap] at bounded
      omega
    · intro short
      by_cases near : gap te t ≤ longGap
      · exact near_sound good first near difference
      · exact far_sound good first (by omega) difference (range first) (short first)

theorem feed_last (te : TimeEwma) (t : Timeval) (scale : te.alphaInv = 8) :
    (feed timevalSub te t).lastTime = t ∧ (feed timevalSub te t).alphaInv = 8 := by
  by_cases first : te.lastTime.tvSec = 0
  · rw [feed_eq (add_first first)]
    exact ⟨rfl, scale⟩
  · rw [feed_eq (add_later scale first rfl)]
    exact ⟨rfl, scale⟩

theorem sound_good {te : TimeEwma} {t : Timeval} (good : Good te) (sound : StepSound timevalSub te t) :
    Good (feed timevalSub te t) :=
  ⟨(feed_last te t good.scale).2, sound.bounded.1, sound.bounded.2⟩

theorem along_steps {P : Int → Prop} {ts : List Timeval} {te : TimeEwma} (scale : te.alphaInv = 8)
    (later : te.lastTime.tvSec ≠ 0) (nonzero : ∀ t ∈ ts, t.tvSec ≠ 0) :
    Along (feed timevalSub) (fun te t => te.lastTime.tvSec ≠ 0 → P (t.usec - te.lastTime.usec)) te ts ↔
      ∀ d ∈ steps (te.lastTime :: ts), P d := by
  induction ts generalizing te with
  | nil => simp [Along, steps]
  | cons t ts ih =>
    obtain ⟨last, scale'⟩ := @feed_last timevalSub te t scale
    have now : t.tvSec ≠ 0 := nonzero t (by simp)
    have rest := ih scale' (by rw [last]; exact now) fun x member => nonzero x (by simp [member])
    simp only [Along, steps, List.forall_mem_cons, rest, last, ne_eq, later, not_false_eq_true, forall_const]

theorem along_steps_init {P : Int → Prop} {ts : List Timeval} (nonzero : ∀ t ∈ ts, t.tvSec ≠ 0) :
    Along (feed timevalSub) (fun te t => te.lastTime.tvSec ≠ 0 → P (t.usec - te.lastTime.usec))
      initTimeEwma ts ↔ ∀ d ∈ steps ts, P d := by
  cases ts with
  | nil => simp [Along, steps]
  | cons t ts =>
    obtain ⟨last, scale⟩ := @feed_last timevalSub initTimeEwma t rfl
    have now : t.tvSec ≠ 0 := nonzero t (by simp)
    have rest := @along_steps timevalSub P ts _ scale (by rw [last]; exact now)
      fun x member => nonzero x (by simp [member])
    rw [last] at rest
    rw [← rest]
    exact and_iff_right fun later => absurd rfl later

theorem init_good : Good initTimeEwma := ⟨rfl, by decide, by decide⟩

theorem sound_iff_no_longest (usecs : Usecs timevalSub) {ts : List Timeval} (stamps : Stamps ts) :
    Along (feed timevalSub) (StepSound timevalSub) initTimeEwma ts ↔ longest ∉ steps ts := by
  have ranges := (@along_steps_init timevalSub InS64 ts stamps.nonzero).mpr stamps.fit
  have exactly := along_congr (fun _ _ good _ sound => sound_good good sound)
    (fun _ _ good range => step_sound_iff usecs good range) init_good ranges
  rw [exactly, along_steps_init (P := fun d => d ≠ longest) stamps.nonzero]
  constructor
  · intro short member
    exact short longest member rfl
  · intro absent d member back
    exact absent (back ▸ member)

theorem feed_near {te : TimeEwma} {t : Timeval} (usecs : Usecs timevalSub) (good : Good te)
    (later : te.lastTime.tvSec ≠ 0) (near : ((t.usec - te.lastTime.usec).natAbs : Int) ≤ longGap) :
    Good (feed timevalSub te t) ∧
      (feed timevalSub te t).ea = te.ea / 8 * 7 + (t.usec - te.lastTime.usec).natAbs := by
  have range : InS64 (t.usec - te.lastTime.usec) := by
    simp only [InS64, longGap] at near ⊢
    omega
  have sound := near_sound good later near (usecs t te.lastTime range)
  exact ⟨sound_good good sound, sound.exact_sum later near⟩

theorem run_mono (usecs : Usecs timevalSub) {ts us : List Timeval} {te ue : TimeEwma} (good : Good te)
    (good' : Good ue) (later : te.lastTime.tvSec ≠ 0) (later' : ue.lastTime.tvSec ≠ 0)
    (order : te.ea ≤ ue.ea) (nonzero : ∀ t ∈ ts, t.tvSec ≠ 0) (nonzero' : ∀ u ∈ us, u.tvSec ≠ 0)
    (smaller : List.Forall₂ (· ≤ ·) (gaps (te.lastTime :: ts)) (gaps (ue.lastTime :: us)))
    (near : ∀ g ∈ gaps (ue.lastTime :: us), g ≤ longGap) :
    (run (feed timevalSub) te ts).ea ≤ (run (feed timevalSub) ue us).ea := by
  induction ts generalizing us te ue with
  | nil =>
    cases us with
    | nil => exact order
    | cons u us => cases smaller
  | cons t ts ih =>
    cases us with
    | nil => cases smaller
    | cons u us =>
      simp only [gaps, steps, List.map_cons, List.forall₂_cons, List.forall_mem_cons] at smaller near
      have short : ((t.usec - te.lastTime.usec).natAbs : Int) ≤ longGap := Int.le_trans smaller.1 near.1
      obtain ⟨next, sum⟩ := feed_near usecs good later short
      obtain ⟨next', sum'⟩ := feed_near usecs good' later' near.1
      have last := (@feed_last timevalSub te t good.scale).1
      have last' := (@feed_last timevalSub ue u good'.scale).1
      apply ih next next' (by rw [last]; exact nonzero t (by simp))
        (by rw [last']; exact nonzero' u (by simp)) _
        (fun x member => nonzero x (by simp [member])) (fun x member => nonzero' x (by simp [member]))
      · rw [last, last']
        exact smaller.2
      · rw [last']
        exact near.2
      · rw [sum, sum']
        have least := smaller.1
        omega

theorem init_mono (usecs : Usecs timevalSub) {ts us : List Timeval} (nonzero : ∀ t ∈ ts, t.tvSec ≠ 0)
    (nonzero' : ∀ u ∈ us, u.tvSec ≠ 0) (length : ts.length = us.length)
    (smaller : List.Forall₂ (· ≤ ·) (gaps ts) (gaps us)) (near : ∀ g ∈ gaps us, g ≤ longGap) :
    (run (feed timevalSub) initTimeEwma ts).ea ≤ (run (feed timevalSub) initTimeEwma us).ea := by
  cases ts with
  | nil =>
    cases us with
    | nil => exact Int.le_refl _
    | cons u us => cases length
  | cons t ts =>
    cases us with
    | nil => cases length
    | cons u us =>
      have first (x : Timeval) : feed timevalSub initTimeEwma x = { initTimeEwma with lastTime := x } :=
        feed_eq (add_first rfl)
      simp only [run_cons, first]
      exact run_mono usecs ⟨rfl, init_good.least, init_good.most⟩ ⟨rfl, init_good.least, init_good.most⟩
        (nonzero t (by simp)) (nonzero' u (by simp)) (Int.le_refl _)
        (fun x member => nonzero x (by simp [member])) (fun x member => nonzero' x (by simp [member]))
        smaller near

theorem run_scale (ts : List Timeval) {te : TimeEwma} (scale : te.alphaInv = 8) :
    (run (feed timevalSub) te ts).alphaInv = 8 := by
  induction ts generalizing te with
  | nil => exact scale
  | cons t ts ih => exact ih (feed_last te t scale).2

/-- The average is bounded, lies between its old value and the new gap, and is reset by a long
    gap, at every timestamp of a sequence exactly when no step goes back by 2^63 microseconds;
    and it is monotone in the gaps. -/
theorem ewma_sound_iff (timevalSub : Timeval → Timeval → Int) (usecs : Usecs timevalSub) :
    (∀ ts, Stamps ts →
      (Along (feed timevalSub) (StepSound timevalSub) initTimeEwma ts ↔ longest ∉ steps ts)) ∧
    (∀ ts us, Stamps ts → Stamps us → ts.length = us.length →
      List.Forall₂ (· ≤ ·) (gaps ts) (gaps us) → (∀ g ∈ gaps us, g ≤ longGap) →
        ewma (run (feed timevalSub) initTimeEwma ts) ≤ ewma (run (feed timevalSub) initTimeEwma us)) := by
  constructor
  · intro ts stamps
    exact sound_iff_no_longest usecs stamps
  · intro ts us stamps stamps' length smaller near
    have order := init_mono usecs stamps.nonzero stamps'.nonzero length smaller near
    rw [(ewma_eq _ (run_scale ts rfl)).2, (ewma_eq _ (run_scale us rfl)).2]
    exact Int.ediv_le_ediv (by decide) order

theorem ewma_sound_three_stamps :
    let ts : List Timeval := [⟨5, 0⟩, ⟨5, 800⟩, ⟨4, 999900⟩]
    Along (feed QosTable.usecSub) (StepSound QosTable.usecSub) initTimeEwma ts ∧
      ewma (run (feed QosTable.usecSub) initTimeEwma ts) = 200 := by
  intro ts
  have usecs : Usecs QosTable.usecSub := by
    intro a b _
    simp only [QosTable.usecSub, Timeval.usec]
    omega
  have sound := (ewma_sound_iff QosTable.usecSub usecs).1 ts ⟨by decide, by decide⟩
  constructor
  · exact sound.mpr (by decide)
  · decide

/-- One step back by 2^63 microseconds makes the scaled average 2^63. -/
theorem ewma_longest_step_unbounded :
    let ts : List Timeval := [⟨9223372036855, 775808⟩, ⟨1, 0⟩]
    ((∀ t ∈ ts, t.tvSec ≠ 0) ∧ ∀ d ∈ steps ts, InS64 d) ∧
      (run (feed QosTable.usecSub) initTimeEwma ts).ea = 9223372036854775808 ∧
      8 * longGap < 9223372036854775808 := by
  decide

end QosEwma
