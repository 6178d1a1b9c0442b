import LustreTools.Qos.Window

/-!
The arithmetic of the window control: what a rule that fires makes of the window. The product
and the sum are computed in `int` before they are limited, so that large coefficients wrap.
-/
namespace QosControl
open Runs Words QosRules QosAdjust QosWindow
open QosTable (initQos usecSub oneRule oneReply)

def clampMrif (x : Int) : Int := min (max x 0) 3000

def exactMrif (w m b : Int) : Int := (if m ≥ 0 then (w * m).tdiv 100 else w) + b

/-- A call applies rule `r` while an update of the window is due. -/
def Fires (timevalSub : Timeval → Timeval → Int) (c : Reply) (q : QosData) (r : Rule) : Prop :=
  ∃ measured ack sent ratio table i used,
    measure timevalSub c q = .ok (measured, ack, sent, ratio) ∧
      Selected c measured ack sent ratio table i r used ∧ UpdateDue timevalSub c measured

def ExactUpdate (timevalSub : Timeval → Timeval → Int) (c : Reply) (q : QosData) (r : Rule) : Prop :=
  ∃ q' newMrif, qosAdjust timevalSub c q = .ok (q', newMrif) ∧
    q'.maxRpcInFlight100 = clampMrif (exactMrif q.maxRpcInFlight100 r.m100 r.b100) ∧
    newMrif = max 1 (q'.maxRpcInFlight100 / 100)

/-- Neither the product nor the sum leaves the range of an `int`. -/
def NothingWraps (w m b : Int) : Prop :=
  (m ≥ 0 → w * m < 2147483648) ∧ exactMrif w m b < 2147483648

/-- The product wraps, but what the sum is then lies beyond the same limit as the exact value,
    possibly by wrapping once more. -/
def SameSide (w m b : Int) : Prop :=
  m ≥ 0 ∧ 2147483648 ≤ w * m ∧
    (exactMrif w m b ≤ 0 ∧ -2147483648 ≤ (s32 (w * m)).tdiv 100 + b ∨
      3000 ≤ exactMrif w m b ∧
        (3000 ≤ (s32 (w * m)).tdiv 100 + b ∧ (s32 (w * m)).tdiv 100 + b < 2147483648 ∨
          (s32 (w * m)).tdiv 100 + b < -2147483648))

theorem tdiv_hundred (s : Int) : s.tdiv 100 = if 0 ≤ s then s / 100 else -(-s / 100) := by
  split
  · rename_i nonneg
    exact Int.tdiv_eq_ediv_of_nonneg nonneg
  · rename_i negative
    rw [← Int.tdiv_eq_ediv_of_nonneg (by omega), Int.neg_tdiv, Int.neg_neg]

theorem clamp_cases (x : Int) :
    (x ≤ 0 ∧ clampMrif x = 0) ∨ (3000 ≤ x ∧ clampMrif x = 3000) ∨ (0 < x ∧ x < 3000 ∧ clampMrif x = x) := by
  simp only [clampMrif]
  omega

theorem s32_cases {x : Int} (low : -4294967296 ≤ x) (high : x < 4294967296) :
    (x < -2147483648 ∧ s32 x = x + 4294967296) ∨ (-2147483648 ≤ x ∧ x < 2147483648 ∧ s32 x = x) ∨
      2147483648 ≤ x ∧ s32 x = x - 4294967296 := by
  simp only [s32]
  omega

/-- A sum that wraps turns from large to negative, and the window from full to empty. -/
theorem sum_clamp_iff {x : Int} (low : -2147483648 ≤ x) (high : x < 4294967296) :
    clampMrif (s32 x) = clampMrif x ↔ x < 2147483648 := by
  rcases s32_cases (by omega) high with ⟨below, _⟩ | ⟨_, inside, same⟩ | ⟨above, wrapped⟩
  · omega
  · rw [same]
    exact iff_of_true rfl inside
  · rw [wrapped]
    simp only [clampMrif]
    omega

theorem wrapped_clamp_iff {product b value sum : Int} (least : 2147483648 ≤ product)
    (most : product ≤ 54975581363200) (range : InS32 b) (exactly : value = product / 100 + b)
    (computed : sum = (s32 product).tdiv 100 + b) :
    clampMrif (s32 sum) = clampMrif value ↔
      value ≤ 0 ∧ -2147483648 ≤ sum ∨
        3000 ≤ value ∧ (3000 ≤ sum ∧ sum < 2147483648 ∨ sum < -2147483648) := by
  have small : -2147483648 ≤ s32 product ∧ s32 product < 2147483648 := s32_in product
  have apart : s32 product ≤ product - 4294967296 := by
    simp only [s32]
    omega
  have near : product < 216895848448 → product - 219043332096 ≤ s32 product := by
    simp only [s32]
    omega
  have quotient := tdiv_hundred (s32 product)
  generalize s32 product = wrapped at *
  simp only [InS32] at range
  have below : sum + 42949671 ≤ value := by
    rw [computed, exactly, quotient]
    split <;> omega
  -- A value inside the limits comes from a product below 2^38, so the sum cannot be off by 2^32.
  have close : value < 3000 → value < sum + 2300000000 := by
    intro inside
    have distance := near (by omega)
    rw [computed, exactly, quotient]
    split <;> omega
  have bounds : -2200000000 < sum ∧ sum < 2200000000 := by
    rw [computed, quotient]
    split <;> omega
  clear quotient exactly computed near apart
  rcases s32_cases (x := sum) (by omega) (by omega) with ⟨_, kept⟩ | ⟨_, _, kept⟩ | ⟨_, kept⟩ <;>
    rcases clamp_cases value with ⟨_, limit⟩ | ⟨_, limit⟩ | ⟨_, _, limit⟩ <;>
    rcases clamp_cases (s32 sum) with ⟨_, stored⟩ | ⟨_, stored⟩ | ⟨_, _, stored⟩ <;>
    rw [limit, stored] <;> omega

theorem product_bounds {w m : Int} (least : 0 ≤ w) (most : w ≤ 25600) (range : InS32 m) (enabled : m ≥ 0) :
    0 ≤ w * m ∧ w * m ≤ 54975581363200 := by
  constructor
  · exact Int.mul_nonneg least enabled
  · have bound : w * m ≤ 25600 * 2147483647 :=
      Int.mul_le_mul most (by simp only [InS32] at range; omega) enabled (by decide)
    omega

theorem clamp_exact_iff {w m b : Int} (least : 0 ≤ w) (most : w ≤ 25600) (rangeM : InS32 m)
    (rangeB : InS32 b) :
    clampMrif (s32 ((if m ≥ 0 then (s32 (w * m)).tdiv 100 else w) + b)) = clampMrif (exactMrif w m b) ↔
      NothingWraps w m b ∨ SameSide w m b := by
  have limits : -2147483648 ≤ b ∧ b < 2147483648 := rangeB
  unfold NothingWraps SameSide exactMrif
  by_cases enabled : m ≥ 0
  · obtain ⟨nonneg, bound⟩ := product_bounds least most rangeM enabled
    simp only [enabled, ↓reduceIte, forall_const, true_and]
    generalize w * m = product at *
    rw [Int.tdiv_eq_ediv_of_nonneg nonneg]
    by_cases fits : product < 2147483648
    · have same : s32 product = product := s32_of_in (by simp only [InS32]; omega)
      rw [same, Int.tdiv_eq_ediv_of_nonneg nonneg, sum_clamp_iff (by omega) (by omega)]
      omega
    · rw [wrapped_clamp_iff (by omega) bound rangeB rfl rfl]
      have overflow : 2147483648 ≤ product := by omega
      simp only [fits, false_and, overflow, true_and, false_or]
  · simp only [enabled, ↓reduceIte, false_implies, true_and, false_and, or_false]
    exact sum_clamp_iff (by omega) (by omega)

theorem update_mrif_clamps (q : QosData) (r : Rule) (now : Timeval) :
    (updateMrif q r now).1.maxRpcInFlight100 =
      clampMrif (s32 ((if r.m100 ≥ 0 then (s32 (q.maxRpcInFlight100 * r.m100)).tdiv 100
        else q.maxRpcInFlight100) + r.b100)) := by
  simp only [updateMrif, clampMrif, mrifUpperLimit]
  generalize s32 ((if r.m100 ≥ 0 then (s32 (q.maxRpcInFlight100 * r.m100)).tdiv 100
    else q.maxRpcInFlight100) + r.b100) = moved
  split <;> split <;> omega

variable {timevalSub : Timeval → Timeval → Int}

theorem fires_adjusts {c : Reply} {q : QosData} {r : Rule} (fires : Fires timevalSub c q r) :
    ∃ q' used, qosAdjust timevalSub c q = .ok (updateMrif q' used c.now) ∧
      q'.maxRpcInFlight100 = q.maxRpcInFlight100 ∧ used.m100 = r.m100 ∧ used.b100 = r.b100 := by
  obtain ⟨measured, ack, sent, ratio, table, i, used, measure, selected, due⟩ := fires
  have same := measure_mrif measure
  refine ⟨counted measured table i used, used, ?_, same, ?_⟩
  · simp only [qosAdjust, measure, bind, Except.bind]
    exact apply_rules_due selected due
  · have config := use_config selected.use
    simp only [Rule.config, List.cons.injEq] at config
    exact ⟨config.2.2.2.2.2.2.1, config.2.2.2.2.2.2.2.1⟩

theorem exact_update_iff {c : Reply} {q : QosData} {r : Rule} (least : 0 ≤ q.maxRpcInFlight100)
    (most : q.maxRpcInFlight100 ≤ 25600) (rangeM : InS32 r.m100) (rangeB : InS32 r.b100)
    (fires : Fires timevalSub c q r) :
    ExactUpdate timevalSub c q r ↔
      NothingWraps q.maxRpcInFlight100 r.m100 r.b100 ∨ SameSide q.maxRpcInFlight100 r.m100 r.b100 := by
  obtain ⟨q', used, adjusts, window, m, b⟩ := fires_adjusts fires
  have stored := update_mrif_clamps q' used c.now
  have agrees := update_mrif_agrees q' used c.now
  rw [window, m, b] at stored
  rw [← clamp_exact_iff least most rangeM rangeB, ← stored]
  constructor
  · intro law
    obtain ⟨q'', newMrif, result, value, _⟩ := law
    rw [adjusts] at result
    rw [Except.ok.inj result]
    exact value
  · intro value
    refine ⟨(updateMrif q' used c.now).1, (updateMrif q' used c.now).2, adjusts, value, ?_⟩
    rw [agrees, Int.tdiv_eq_ediv_of_nonneg]
    rw [stored]
    simp only [clampMrif]
    omega

def Bounded : Thread → Prop
  | .idle => True
  | .writing val => 1 ≤ val ∧ val ≤ 256
  | .adjusting newMrif => 1 ≤ newMrif ∧ newMrif ≤ 256

structure InRange (s : Window) : Prop where
  window : 0 ≤ s.qos.maxRpcInFlight100 ∧ s.qos.maxRpcInFlight100 ≤ 25600
  client : s.clBy ≠ none → 1 ≤ s.clMaxRpcsInFlight ∧ s.clMaxRpcsInFlight ≤ 256
  threads : ∀ i, Bounded (s.threads i)

theorem set_bounded {s : Window} {i : Nat} {thread : Thread} (threads : ∀ j, Bounded (s.threads j))
    (bounded : Bounded thread) : ∀ j, Bounded ((s.set i thread).threads j) := by
  intro j
  by_cases here : j = i
  · subst here
    rw [set_self]
    exact bounded
  · rw [set_other s thread here]
    exact threads j

theorem write_in_range {s : Window} (range : InRange s) (i : Nat) (val : Int) : InRange (s.write i val) := by
  unfold Window.write
  split
  · exact range
  · rename_i inside
    simp only [oscMaxRifMax] at inside
    have value : 1 ≤ val ∧ val ≤ 256 := by omega
    exact ⟨range.window, fun _ => value, set_bounded (s := s.storeCl i val) range.threads value⟩

theorem adjust_in_range {c : Reply} {q q' : QosData} {newMrif : Int}
    (adjusted : qosAdjust timevalSub c q = .ok (q', newMrif)) :
    (newMrif = -1 ∧ q'.maxRpcInFlight100 = q.maxRpcInFlight100) ∨
      (1 ≤ newMrif ∧ newMrif ≤ 256) ∧ 0 ≤ q'.maxRpcInFlight100 ∧ q'.maxRpcInFlight100 ≤ 25600 := by
  obtain ⟨⟨measured, ack, sent, ratio⟩, measure, applied⟩ := bind_ok adjusted
  have same := measure_mrif measure
  rcases apply_rules_cases applied with ⟨kept, none, _⟩ | ⟨table, i, r, used, _, result⟩
  · rw [kept]
    exact Or.inl ⟨none, same⟩
  · rcases result with ⟨_, kept, none⟩ | ⟨_, moved⟩
    · rw [kept]
      exact Or.inl ⟨none, same⟩
    · have stored := update_mrif_clamps (counted measured table i used) used c.now
      have agrees := update_mrif_agrees (counted measured table i used) used c.now
      rw [← moved] at stored agrees
      dsimp only at stored agrees
      have limits : 0 ≤ q'.maxRpcInFlight100 ∧ q'.maxRpcInFlight100 ≤ 3000 := by
        rw [stored]
        simp only [clampMrif]
        omega
      rw [Int.tdiv_eq_ediv_of_nonneg limits.1] at agrees
      exact Or.inr ⟨by omega, by omega⟩

theorem reply_in_range {s : Window} (range : InRange s) (i : Nat) (c : Reply) :
    InRange (s.reply timevalSub i c) := by
  unfold Window.reply
  split
  · exact ⟨range.window, range.client, range.threads⟩
  · rename_i q newMrif adjusted
    have window := adjust_in_range adjusted
    split
    · rename_i unchanged
      rcases window with ⟨_, same⟩ | ⟨moved, _⟩
      · exact ⟨by simpa only [same] using range.window, range.client, range.threads⟩
      · omega
    · rename_i changed
      obtain ⟨value, limits⟩ := window.resolve_left fun kept => changed kept.1
      exact ⟨limits, range.client, set_bounded (s := s.storeQos i q) range.threads value⟩

theorem second_in_range {s : Window} (range : InRange s) (i : Nat) : InRange (s.second i) := by
  have own := range.threads i
  unfold Window.second
  split
  · exact range
  · rename_i val half
    rw [half] at own
    have product : s32 (val * 100) = val * 100 := s32_of_in (by simp only [InS32, Bounded] at *; omega)
    refine ⟨?_, range.client, set_bounded (s := s.storeQos i _) range.threads trivial⟩
    simp only [Window.set, Window.storeQos, product, Bounded] at own ⊢
    omega
  · rename_i newMrif half
    rw [half] at own
    exact ⟨range.window, fun _ => own, set_bounded (s := s.storeCl i _) range.threads trivial⟩

theorem step_in_range (s : Window) (e : Event) (range : InRange s) : InRange (step timevalSub s e) :=
  step_keeps range (write_in_range range) (reply_in_range range) fun _ => second_in_range range e.thread

/-- A rule that fires gives the exact window within its limits exactly when its coefficients
    wrap nothing, or wrap to the same side. The ranges hold in every run. -/
theorem window_exact_iff (timevalSub : Timeval → Timeval → Int) :
    (∀ c q r, 0 ≤ q.maxRpcInFlight100 → q.maxRpcInFlight100 ≤ 25600 → InS32 r.m100 → InS32 r.b100 →
      Fires timevalSub c q r →
        (ExactUpdate timevalSub c q r ↔
          NothingWraps q.maxRpcInFlight100 r.m100 r.b100 ∨
            SameSide q.maxRpcInFlight100 r.m100 r.b100)) ∧
    (∀ (s : Window) (es : List Event), s.Quiet → s.clBy = none → 0 ≤ s.qos.maxRpcInFlight100 →
      s.qos.maxRpcInFlight100 ≤ 25600 →
        Always (step timevalSub) (fun s =>
          (0 ≤ s.qos.maxRpcInFlight100 ∧ s.qos.maxRpcInFlight100 ≤ 25600) ∧
            (s.clBy ≠ none → 1 ≤ s.clMaxRpcsInFlight ∧ s.clMaxRpcsInFlight ≤ 256)) s es) := by
  constructor
  · intro c q r least most rangeM rangeB fires
    exact exact_update_iff least most rangeM rangeB fires
  · intro s es quiet unset least most
    have start : InRange s := by
      refine ⟨⟨least, most⟩, fun set => absurd unset set, fun i => ?_⟩
      rw [quiet i]
      trivial
    have always := always_of_along (fun s e range _ => step_in_range s e range) start
      (along_true (step timevalSub) s es)
    exact always_mono (fun _ range => ⟨range.window, range.client⟩) always

def ruled (w m : Int) : QosData :=
  { initQos 0 with
    maxRpcInFlight100 := w
    minGapBetweenUpdatingMrif := 100000
    ruleNo := 1
    rules := some ⟨80, [⟨0, 9, 0, 9, 0, 900, m, 5, 7, 0, 0, 0, 0⟩]⟩ }

def measuredOnce (w m : Int) : QosData :=
  { ruled w m with
    ackEwma := ⟨8, 0, ⟨5, 0⟩⟩, sentEwma := ⟨8, 0, ⟨5, 0⟩⟩, smallestRtt := 100, rttRatio100 := 100
    read := ⟨5, 0, 4096⟩ }

theorem window_exact_eight_rpcs : ExactUpdate usecSub oneReply (ruled 800 150)
    ⟨0, 9, 0, 9, 0, 900, 150, 5, 7, 0, 0, 0, 0⟩ := by
  have fires : Fires usecSub oneReply (ruled 800 150) ⟨0, 9, 0, 9, 0, 900, 150, 5, 7, 0, 0, 0, 0⟩ := by
    refine ⟨measuredOnce 800 150, 0, 0, 100, ⟨80, [⟨0, 9, 0, 9, 0, 900, 150, 5, 7, 0, 0, 0, 0⟩]⟩, 0,
      ⟨0, 9, 0, 9, 0, 900, 150, 5, 7, 1, 0, 0, 100⟩, ?_, ⟨rfl, rfl, ?_, ?_⟩, ?_⟩
    · rfl
    · rfl
    · rfl
    · exact ⟨by decide, by decide⟩
  apply ((window_exact_iff usecSub).1 oneReply _ _ (by decide) (by decide) (by decide) (by decide) fires).mpr
  exact Or.inl ⟨fun _ => by decide, by decide⟩

/-- A factor of 1000 on the largest window empties it instead of filling it. -/
theorem window_wraps_to_empty :
    (qosAdjust usecSub oneReply (ruled 25600 100000)).toOption.map
        (fun result => (result.1.maxRpcInFlight100, result.2)) = some (0, 1) ∧
      clampMrif (exactMrif 25600 100000 5) = 3000 := by
  decide +kernel

end QosControl
