import LustreTools.Client.RequestSlots

/-!
The tags of the modify RPCs (genops.c). The server keeps one reply for each tag, so two RPCs in
flight must never share one. A close may go one above the limit, and the limit itself may be
lowered while RPCs are in flight; the assertions on the bitmap have to survive both. The modify
limit is meant to stay below the other one, which it does as long as one setter runs at a time.
-/
namespace RequestSlots
open Runs Words

/-- The part of a client that the modify RPCs are about. -/
structure Mods where
  max : Nat
  inFlight : Nat
  closes : Nat
  bitmap : Nat → Bool
  rpcs : List ModRpc
  lbug : Bool

def Client.mods (c : Client) : Mods :=
  ⟨c.clMaxModRpcsInFlight, c.clModRpcsInFlight, c.clCloseRpcsInFlight, c.clModTagBitmap, c.modRpcs, c.lbug⟩

def Mods.free (m : Mods) : Nat := findFirstZeroBit m.bitmap (m.max + 1)

/-- A slot below the limit, or the one close above it. -/
def Mods.Avail (m : Mods) (closeReq : Bool) : Prop := m.inFlight < m.max ∨ closeReq = true ∧ m.closes = 0

def Mods.Usable (m : Mods) : Prop := m.free < obdMaxRifMax ∧ m.bitmap m.free = false

inductive Turns (m : Mods) : Mods → Prop
  | limit (max : Nat) : Turns m { m with max := max }
  | take (closeReq : Bool) (avail : m.Avail closeReq) (usable : m.Usable) :
    Turns m
      { m with
        inFlight := m.inFlight + 1
        closes := m.closes + closeReq.toNat
        bitmap := Function.update m.bitmap m.free true
        rpcs := ⟨m.free + 1, closeReq⟩ :: m.rpcs }
  | out (closeReq : Bool) (avail : m.Avail closeReq) (lost : ¬ m.Usable) : Turns m { m with lbug := true }
  | give (rpc : ModRpc) (held : rpc ∈ m.rpcs) :
    Turns m
      { m with
        inFlight := m.inFlight - 1
        closes := m.closes - rpc.close.toNat
        bitmap := Function.update m.bitmap (rpc.tag - 1) false
        rpcs := m.rpcs.erase rpc }
  | stray (rpc : ModRpc) (held : rpc ∈ m.rpcs)
      (lost : ¬ (rpc.tag - 1 < obdMaxRifMax ∧ m.bitmap (rpc.tag - 1) = true)) :
        Turns m { m with lbug := true }

theorem get_mod_turns (c : Client) (closeReq : Bool) : Turns c.mods (obdGetModRpcSlot c closeReq).mods := by
  unfold obdGetModRpcSlot
  split
  · rename_i avail
    have room : c.mods.Avail closeReq := by
      simpa [obdModRpcSlotAvail, Mods.Avail, Client.mods] using avail
    dsimp only
    split
    · rename_i usable
      exact Turns.take closeReq room usable
    · rename_i lost
      exact Turns.out closeReq room lost
  · exact Turns.limit c.clMaxModRpcsInFlight

theorem put_mod_turns {c : Client} {rpc : ModRpc} (held : rpc ∈ c.modRpcs) :
    Turns c.mods (obdPutModRpcSlot c rpc).mods := by
  unfold obdPutModRpcSlot
  split
  · exact Turns.give rpc held
  · rename_i lost
    exact Turns.stray rpc held lost

theorem wake_some_mods (n : Nat) (c : Client) : (wakeSome n c).mods = c.mods := by
  induction n generalizing c with
  | zero => rfl
  | succ n ih =>
    rw [wakeSome]
    split
    · rfl
    · rw [ih, wakeFirst]
      split <;> rfl

theorem store_max_mods (c : Client) (max : Nat) : (storeMax c max).mods = c.mods := wake_some_mods _ _

theorem enlist_mods (c : Client) (tested : Except Int Setter) : (c.enlist tested).mods = c.mods := by
  cases tested <;> rfl

theorem proceed_turns (c : Client) (setter : Setter) : Turns c.mods (c.proceed setter).mods := by
  have same : Turns c.mods c.mods := Turns.limit c.clMaxModRpcsInFlight
  cases setter with
  | lowering max =>
    rw [Client.proceed, enlist_mods]
    exact same
  | storeMod max next => cases next <;> exact Turns.limit max
  | storeMax max =>
    rw [Client.proceed, store_max_mods]
    exact same

theorem step_turns (c : Client) (e : Event) : Turns c.mods (step c e).mods := by
  have same : Turns c.mods c.mods := Turns.limit c.clMaxModRpcsInFlight
  unfold step
  split
  · exact same
  · cases e with
    | get i =>
      dsimp only
      split
      · exact same
      · unfold obdGetRequestSlot
        split <;> exact same
    | wake i =>
      dsimp only
      split <;> exact same
    | interrupt i =>
      dsimp only
      split
      · unfold interrupted
        split <;> exact same
      · exact same
    | put i =>
      dsimp only
      split
      · unfold obdPutRequestSlot wakeFirst
        dsimp only
        split
        · split <;> exact same
        · exact same
      · exact same
    | setMax max =>
      dsimp only
      rw [enlist_mods]
      exact same
    | getMod closeReq => exact get_mod_turns c closeReq
    | putMod rpc =>
      dsimp only
      split
      · rename_i held
        exact put_mod_turns held
      · exact same
    | setMaxMod max =>
      dsimp only
      rw [enlist_mods]
      exact same
    | setter i =>
      dsimp only
      split
      · exact same
      · exact proceed_turns { c with setters := c.setters.eraseIdx i } _

/-- A bit is set for each RPC in flight and for no other, and the counters count them. -/
structure Tagged (m : Mods) : Prop where
  bits : ∀ i, m.bitmap i = true ↔ ∃ rpc ∈ m.rpcs, rpc.tag = i + 1
  distinct : (m.rpcs.map ModRpc.tag).Nodup
  range : ∀ rpc ∈ m.rpcs, 1 ≤ rpc.tag ∧ rpc.tag ≤ obdMaxRifMax
  counted : m.inFlight = m.rpcs.length
  closes : m.closes = m.rpcs.countP ModRpc.close

theorem idle_tagged {c : Client} (idle : Idle c) : Tagged c.mods where
  bits := by simp [Client.mods, idle.bitmap, idle.rpcs]
  distinct := by simp [Client.mods, idle.rpcs]
  range := by simp [Client.mods, idle.rpcs]
  counted := by simp [Client.mods, idle.mods, idle.rpcs]
  closes := by simp [Client.mods, idle.closes, idle.rpcs]

theorem tag_injective {m : Mods} (tagged : Tagged m) {a b : ModRpc} (first : a ∈ m.rpcs) (second : b ∈ m.rpcs)
    (same : a.tag = b.tag) : a = b := List.inj_on_of_nodup_map tagged.distinct first second same

theorem take_tagged {m : Mods} (tagged : Tagged m) (closeReq : Bool) (usable : m.Usable) :
    Tagged
      { m with
        inFlight := m.inFlight + 1
        closes := m.closes + closeReq.toNat
        bitmap := Function.update m.bitmap m.free true
        rpcs := ⟨m.free + 1, closeReq⟩ :: m.rpcs } := by
  obtain ⟨low, clear⟩ := usable
  have fresh : m.free + 1 ∉ m.rpcs.map ModRpc.tag := by
    intro used
    obtain ⟨rpc, held, same⟩ := List.mem_map.mp used
    rw [(tagged.bits m.free).mpr ⟨rpc, held, same⟩] at clear
    cases clear
  constructor
  case bits =>
    intro i
    dsimp only
    simp only [List.exists_mem_cons_iff]
    by_cases taken : i = m.free
    · rw [taken, Function.update_self]
      exact iff_of_true rfl (Or.inl rfl)
    · rw [Function.update_of_ne taken, tagged.bits i]
      constructor
      · exact Or.inr
      · rintro (new | held)
        · exact absurd (Nat.succ.inj new).symm taken
        · exact held
  case distinct => exact List.nodup_cons.mpr ⟨fresh, tagged.distinct⟩
  case range =>
    intro rpc member
    rcases List.mem_cons.mp member with rfl | held
    · exact ⟨Nat.succ_pos _, low⟩
    · exact tagged.range rpc held
  case counted => exact congrArg (· + 1) tagged.counted
  case closes =>
    simp only [List.countP_cons, tagged.closes]
    cases closeReq <;> rfl

theorem give_tagged {m : Mods} (tagged : Tagged m) {rpc : ModRpc} (held : rpc ∈ m.rpcs) :
    Tagged
      { m with
        inFlight := m.inFlight - 1
        closes := m.closes - rpc.close.toNat
        bitmap := Function.update m.bitmap (rpc.tag - 1) false
        rpcs := m.rpcs.erase rpc } := by
  have single : m.rpcs.Nodup := tagged.distinct.of_map _
  have positive := (tagged.range rpc held).1
  constructor
  case bits =>
    intro i
    dsimp only
    by_cases given : i = rpc.tag - 1
    · rw [given, Function.update_self]
      refine iff_of_false Bool.false_ne_true ?_
      rintro ⟨other, still, same⟩
      obtain ⟨differs, before⟩ := single.mem_erase_iff.mp still
      exact differs (tag_injective tagged before held (by omega))
    · rw [Function.update_of_ne given, tagged.bits i]
      constructor
      · rintro ⟨other, before, tag⟩
        refine ⟨other, single.mem_erase_iff.mpr ⟨?_, before⟩, tag⟩
        rintro rfl
        omega
      · rintro ⟨other, still, tag⟩
        exact ⟨other, List.mem_of_mem_erase still, tag⟩
  case distinct => exact tagged.distinct.sublist (List.erase_sublist.map _)
  case range => exact fun other still => tagged.range other (List.mem_of_mem_erase still)
  case counted =>
    simp only [List.length_erase_of_mem held, tagged.counted]
  case closes =>
    have split := (List.perm_cons_erase held).countP_eq ModRpc.close
    rw [List.countP_cons] at split
    simp only [tagged.closes, split]
    cases rpc.close <;> rfl

theorem turns_tagged {m m' : Mods} (turns : Turns m m') (tagged : Tagged m) : Tagged m' := by
  cases turns with
  | limit max => exact ⟨tagged.bits, tagged.distinct, tagged.range, tagged.counted, tagged.closes⟩
  | take closeReq avail usable => exact take_tagged tagged closeReq usable
  | out closeReq avail lost =>
    exact ⟨tagged.bits, tagged.distinct, tagged.range, tagged.counted, tagged.closes⟩
  | give rpc held => exact give_tagged tagged held
  | stray rpc held lost => exact ⟨tagged.bits, tagged.distinct, tagged.range, tagged.counted, tagged.closes⟩

/-- In every interleaving the tags in flight are distinct and lie in the server's range, the
    bitmap holds them and no others, and both counters are exact. -/
theorem tags_distinct (c : Client) (idle : Idle c) (es : List Event) :
    Always step (fun c => Tagged c.mods) c es := by
  have keeps (c : Client) (e : Event) (tagged : Tagged c.mods) (_ : True) : Tagged (step c e).mods :=
    turns_tagged (step_turns c e) tagged
  exact always_of_along keeps (idle_tagged idle) (along_true step c es)

theorem tags_distinct_close : Idle (fresh 4) ∧
    Always step (fun c => Tagged c.mods) (fresh 4)
      [.setMaxMod 2, .setter 0, .getMod false, .getMod true, .getMod false, .getMod true, .putMod ⟨1, false⟩,
        .getMod false] :=
  ⟨fresh_idle 4, tags_distinct (fresh 4) (fresh_idle 4) _⟩

structure Fits (c : Client) : Prop where
  mdc : c.mdc = true
  low : 1 ≤ c.clMaxModRpcsInFlight
  below : c.clMaxModRpcsInFlight < c.clMaxRpcsInFlight
  high : c.clMaxRpcsInFlight ≤ obdMaxRifMax
  server : c.clMaxModRpcsInFlight ≤ c.maxmodrpcs

structure Ranged (c : Client) : Prop where
  mdc : c.mdc = true
  low : 1 ≤ c.clMaxModRpcsInFlight
  server : c.clMaxModRpcsInFlight ≤ c.maxmodrpcs
  tags : c.clMaxModRpcsInFlight < obdMaxRifMax
  two : 2 ≤ c.clMaxRpcsInFlight
  high : c.clMaxRpcsInFlight ≤ obdMaxRifMax

def Wanted (max : Nat) : Prop := 2 ≤ max ∧ max ≤ obdMaxRifMax

/-- What a setter has tested and does not look at again. -/
def Setter.Ok (c : Client) : Setter → Prop
  | .lowering max => Wanted max
  | .storeMod max next =>
    1 ≤ max ∧ max ≤ c.maxmodrpcs ∧ max < obdMaxRifMax ∧ ∀ limit, next = some limit → Wanted limit
  | .storeMax max => Wanted max

def Within (c : Client) : Prop := Ranged c ∧ ∀ setter ∈ c.setters, setter.Ok c

/-- What a setter that is alone can rely on. -/
def Setter.Fits (c : Client) : Setter → Prop
  | .lowering max => Wanted max ∧ max ≤ c.clMaxModRpcsInFlight
  | .storeMod max next =>
    1 ≤ max ∧ max ≤ c.maxmodrpcs ∧ max < c.clMaxRpcsInFlight ∧
      ∀ limit, next = some limit → Wanted limit ∧ max < limit
  | .storeMax max => Wanted max ∧ c.clMaxModRpcsInFlight < max

def Single (c : Client) : Prop := Fits c ∧ (c.setters = [] ∨ ∃ setter, c.setters = [setter] ∧ setter.Fits c)

structure Limits where
  mdc : Bool
  max : Nat
  maxMod : Nat
  server : Nat
  setters : List Setter

def Client.limits (c : Client) : Limits :=
  ⟨c.mdc, c.clMaxRpcsInFlight, c.clMaxModRpcsInFlight, c.maxmodrpcs, c.setters⟩

theorem within_of_limits {c c' : Client} (same : c'.limits = c.limits) (within : Within c) : Within c' := by
  simp only [Client.limits, Limits.mk.injEq] at same
  obtain ⟨mdc, max, maxMod, server, setters⟩ := same
  obtain ⟨ranged, each⟩ := within
  refine ⟨⟨mdc ▸ ranged.mdc, maxMod ▸ ranged.low, ?_, maxMod ▸ ranged.tags, max ▸ ranged.two,
    max ▸ ranged.high⟩, ?_⟩
  · rw [maxMod, server]
    exact ranged.server
  · rw [setters]
    intro setter member
    have ok := each setter member
    cases setter with
    | storeMod limit next => simpa only [Setter.Ok, server] using ok
    | _ => exact ok

theorem single_of_limits {c c' : Client} (same : c'.limits = c.limits) (single : Single c) : Single c' := by
  simp only [Client.limits, Limits.mk.injEq] at same
  obtain ⟨mdc, max, maxMod, server, setters⟩ := same
  obtain ⟨fits, alone⟩ := single
  refine ⟨⟨mdc ▸ fits.mdc, maxMod ▸ fits.low, ?_, max ▸ fits.high, ?_⟩, ?_⟩
  · rw [maxMod, max]
    exact fits.below
  · rw [maxMod, server]
    exact fits.server
  · rw [setters]
    refine alone.imp id ?_
    rintro ⟨setter, only, ok⟩
    refine ⟨setter, only, ?_⟩
    cases setter <;> simpa only [Setter.Fits, server, max, maxMod] using ok

theorem wake_some_limits (n : Nat) (c : Client) : (wakeSome n c).limits = c.limits := by
  induction n generalizing c with
  | zero => rfl
  | succ n ih =>
    rw [wakeSome]
    split
    · rfl
    · rw [ih, wakeFirst]
      split <;> rfl

theorem store_max_limits (c : Client) (max : Nat) :
    (storeMax c max).limits = { c with clMaxRpcsInFlight := max }.limits := wake_some_limits _ _

theorem set_max_mod_cases (c : Client) (max : Nat) (next : Option Nat) :
    obdSetMaxModRpcsInFlight c max next = .error erange ∨
      (1 ≤ max ∧ max < c.clMaxRpcsInFlight ∧ max ≤ c.maxmodrpcs ∧
        obdSetMaxModRpcsInFlight c max next = .ok (.storeMod max next)) := by
  unfold obdSetMaxModRpcsInFlight
  split_ifs with range above beyond
  · exact Or.inl rfl
  · exact Or.inl rfl
  · exact Or.inl rfl
  · exact Or.inr ⟨by omega, by omega, by omega, rfl⟩

theorem set_max_mod_accepts {c : Client} (max : Nat) (next : Option Nat) (low : 1 ≤ max)
    (high : max ≤ obdMaxRifMax) (below : max < c.clMaxRpcsInFlight) (server : max ≤ c.maxmodrpcs) :
    obdSetMaxModRpcsInFlight c max next = .ok (.storeMod max next) := by
  unfold obdSetMaxModRpcsInFlight
  rw [if_neg (by omega), if_neg (by omega), if_neg (by omega)]

theorem set_max_accepts {c : Client} (mdc : c.mdc = true) {max : Nat} (wanted : Wanted max) :
    obdSetMaxRpcsInFlight c max =
      .ok (if max ≤ c.clMaxModRpcsInFlight then .lowering max else .storeMax max) := by
  obtain ⟨low, high⟩ := wanted
  unfold obdSetMaxRpcsInFlight
  rw [if_neg (by omega), if_pos mdc, if_neg (by omega)]
  split <;> rfl

theorem set_max_refuses {c : Client} (mdc : c.mdc = true) {max : Nat} (bad : ¬ Wanted max) :
    obdSetMaxRpcsInFlight c max = .error erange := by
  unfold Wanted at bad
  unfold obdSetMaxRpcsInFlight
  rw [if_pos mdc]
  split_ifs with range small
  · rfl
  · rfl
  · omega
  · omega

theorem enlist_within {c : Client} (within : Within c) {tested : Except Int Setter}
    (ok : ∀ setter, tested = .ok setter → setter.Ok c) : Within (c.enlist tested) := by
  obtain ⟨ranged, each⟩ := within
  cases tested with
  | error rc => exact ⟨ranged, each⟩
  | ok setter =>
    refine ⟨⟨ranged.mdc, ranged.low, ranged.server, ranged.tags, ranged.two, ranged.high⟩, ?_⟩
    intro other member
    rcases List.mem_cons.mp member with rfl | before
    · have new := ok _ rfl
      cases other <;> exact new
    · have old := each other before
      cases other <;> exact old

theorem set_max_mod_within {c : Client} (within : Within c) (max : Nat) (next : Option Nat)
    (wanted : ∀ limit, next = some limit → Wanted limit) :
    Within (c.enlist (obdSetMaxModRpcsInFlight c max next)) := by
  apply enlist_within within
  intro setter accepted
  rcases set_max_mod_cases c max next with refused | ⟨low, below, server, passed⟩
  · rw [refused] at accepted
    cases accepted
  · rw [passed] at accepted
    cases accepted
    have high := within.1.high
    exact ⟨low, server, by omega, wanted⟩

theorem set_max_within {c : Client} (within : Within c) (max : Nat) :
    Within (c.enlist (obdSetMaxRpcsInFlight c max)) := by
  apply enlist_within within
  intro setter accepted
  by_cases wanted : Wanted max
  · rw [set_max_accepts within.1.mdc wanted] at accepted
    split at accepted <;> cases accepted <;> exact wanted
  · rw [set_max_refuses within.1.mdc wanted] at accepted
    cases accepted

theorem proceed_within {c : Client} (within : Within c) {setter : Setter} (ok : setter.Ok c) :
    Within (c.proceed setter) := by
  obtain ⟨ranged, each⟩ := within
  have kept {d : Client} (server : d.maxmodrpcs = c.maxmodrpcs) {other : Setter}
      (ok : other.Ok c) : other.Ok d := by
    cases other with
    | storeMod max next => simpa only [Setter.Ok, server] using ok
    | _ => exact ok
  cases setter with
  | lowering max =>
    apply set_max_mod_within ⟨ranged, each⟩
    rintro limit ⟨⟩
    exact ok
  | storeMod max next =>
    obtain ⟨low, server, tags, later⟩ := ok
    have stored : Ranged { c with clMaxModRpcsInFlight := max } :=
      ⟨ranged.mdc, low, server, tags, ranged.two, ranged.high⟩
    cases next with
    | none => exact ⟨stored, fun other member => kept rfl (each other member)⟩
    | some limit =>
      refine ⟨⟨stored.mdc, stored.low, stored.server, stored.tags, stored.two, stored.high⟩, ?_⟩
      intro other member
      rcases List.mem_cons.mp member with rfl | before
      · exact later limit rfl
      · exact kept rfl (each other before)
  | storeMax max =>
    apply within_of_limits (store_max_limits c max)
    exact ⟨⟨ranged.mdc, ranged.low, ranged.server, ranged.tags, ok.1, ok.2⟩,
      fun other member => kept rfl (each other member)⟩

theorem step_limits {c : Client} {e : Event}
    (other : ∀ n, e ≠ .setMax n ∧ e ≠ .setMaxMod n ∧ e ≠ .setter n) : (step c e).limits = c.limits := by
  unfold step
  split
  · rfl
  · cases e with
    | get i =>
      dsimp only
      split
      · rfl
      · unfold obdGetRequestSlot
        split <;> rfl
    | wake i =>
      dsimp only
      split <;> rfl
    | interrupt i =>
      dsimp only
      split
      · unfold interrupted
        split <;> rfl
      · rfl
    | put i =>
      dsimp only
      split
      · unfold obdPutRequestSlot wakeFirst
        dsimp only
        split
        · split <;> rfl
        · rfl
      · rfl
    | setMax max => exact absurd rfl (other max).1
    | getMod closeReq =>
      unfold obdGetModRpcSlot
      dsimp only
      split
      · split <;> rfl
      · rfl
    | putMod rpc =>
      dsimp only
      split
      · unfold obdPutModRpcSlot
        split <;> rfl
      · rfl
    | setMaxMod max => exact absurd rfl (other max).2.1
    | setter i => exact absurd rfl (other i).2.2

theorem not_setter {e : Event} (limit : ¬ ∃ n, e = .setMax n ∨ e = .setMaxMod n ∨ e = .setter n) (n : Nat) :
    e ≠ .setMax n ∧ e ≠ .setMaxMod n ∧ e ≠ .setter n :=
  ⟨fun is => limit ⟨n, Or.inl is⟩, fun is => limit ⟨n, Or.inr (Or.inl is)⟩,
    fun is => limit ⟨n, Or.inr (Or.inr is)⟩⟩

theorem step_within (c : Client) (e : Event) (within : Within c) : Within (step c e) := by
  by_cases limit : ∃ n, e = .setMax n ∨ e = .setMaxMod n ∨ e = .setter n
  · unfold step
    split
    · exact within
    · obtain ⟨n, rfl | rfl | rfl⟩ := limit
      · exact set_max_within within n
      · exact set_max_mod_within within n none (by rintro limit ⟨⟩)
      · dsimp only
        split
        · exact within
        · rename_i setter there
          have ok := within.2 setter (List.mem_of_getElem? there)
          have rest : Within { c with setters := c.setters.eraseIdx n } := by
            refine ⟨⟨within.1.mdc, within.1.low, within.1.server, within.1.tags, within.1.two,
              within.1.high⟩, ?_⟩
            intro other member
            have old := within.2 other (List.mem_of_mem_eraseIdx member)
            cases other <;> exact old
          apply proceed_within rest
          cases setter <;> exact ok
  · exact within_of_limits (step_limits (not_setter limit)) within

theorem fits_ranged {c : Client} (fits : Fits c) : Ranged c := by
  have low := fits.low
  have below := fits.below
  have high := fits.high
  exact ⟨fits.mdc, low, fits.server, by omega, by omega, high⟩

theorem run_within {c : Client} (idle : Idle c) (fits : Fits c) (es : List Event) :
    Always step Within c es := by
  have start : Within c := ⟨fits_ranged fits, by simp [idle.setters]⟩
  exact always_of_along (fun c e within (_ : True) => step_within c e within) start (along_true step c es)

/-- A setter reaches its tests only while no other one is under way. -/
def Alone (c : Client) : Event → Prop
  | .setMax _ => c.setters = []
  | .setMaxMod _ => c.setters = []
  | _ => True

instance (c : Client) : ∀ e, Decidable (Alone c e)
  | .setMax _ | .setMaxMod _ => inferInstanceAs (Decidable (_ = _))
  | .get _ | .wake _ | .interrupt _ | .put _ | .getMod _ | .putMod _ | .setter _ => isTrue trivial

theorem enlist_single {c : Client} (fits : Fits c) (free : c.setters = []) {tested : Except Int Setter}
    (ok : ∀ setter, tested = .ok setter → setter.Fits c) : Single (c.enlist tested) := by
  cases tested with
  | error rc => exact ⟨fits, Or.inl free⟩
  | ok setter =>
    refine ⟨⟨fits.mdc, fits.low, fits.below, fits.high, fits.server⟩,
      Or.inr ⟨setter, congrArg (setter :: ·) free, ?_⟩⟩
    have new := ok setter rfl
    cases setter <;> exact new

theorem proceed_single {c : Client} (fits : Fits c) (free : c.setters = []) {setter : Setter}
    (ok : setter.Fits c) :
    Single (c.proceed setter) := by
  have below := fits.below
  have server := fits.server
  cases setter with
  | lowering max =>
    obtain ⟨⟨low, high⟩, covered⟩ := ok
    have accepted := set_max_mod_accepts (c := c) (max - 1) (some max) (by omega) (by omega)
        (by omega) (by omega)
    rw [Client.proceed, accepted]
    apply enlist_single fits free
    rintro setter ⟨⟩
    refine ⟨by omega, by omega, by omega, ?_⟩
    rintro limit ⟨⟩
    exact ⟨⟨low, high⟩, by omega⟩
  | storeMod max next =>
    obtain ⟨low, within, under, later⟩ := ok
    have stored : Fits { c with clMaxModRpcsInFlight := max } := ⟨fits.mdc, low, under, fits.high, within⟩
    cases next with
    | none => exact ⟨stored, Or.inl free⟩
    | some limit =>
      have ready : ∀ setter, (Except.ok (.storeMax limit) : Except Int Setter) = .ok setter →
          setter.Fits { c with clMaxModRpcsInFlight := max } := by
        rintro setter ⟨⟩
        exact later limit rfl
      exact enlist_single stored free ready
  | storeMax max =>
    obtain ⟨⟨low, high⟩, above⟩ := ok
    apply single_of_limits (store_max_limits c max)
    exact ⟨⟨fits.mdc, fits.low, above, high, server⟩, Or.inl free⟩

theorem step_single (c : Client) (e : Event) (single : Single c) (alone : Alone c e) : Single (step c e) := by
  by_cases limit : ∃ n, e = .setMax n ∨ e = .setMaxMod n ∨ e = .setter n
  · unfold step
    split
    · exact single
    · obtain ⟨fits, setters⟩ := single
      obtain ⟨n, rfl | rfl | rfl⟩ := limit
      · apply enlist_single fits alone
        intro setter accepted
        by_cases wanted : Wanted n
        · rw [set_max_accepts fits.mdc wanted] at accepted
          split at accepted
          · rename_i covered
            cases accepted
            exact ⟨wanted, covered⟩
          · rename_i above
            cases accepted
            exact ⟨wanted, Nat.lt_of_not_le above⟩
        · rw [set_max_refuses fits.mdc wanted] at accepted
          cases accepted
      · apply enlist_single fits alone
        intro setter accepted
        rcases set_max_mod_cases c n none with refused | ⟨low, below, server, passed⟩
        · rw [refused] at accepted
          cases accepted
        · rw [passed] at accepted
          cases accepted
          exact ⟨low, server, below, by rintro limit ⟨⟩⟩
      · dsimp only
        split
        · exact ⟨fits, setters⟩
        · rename_i setter there
          rcases setters with none | ⟨only, list, ok⟩
          · rw [none] at there
            cases there
          · rw [list] at there
            have rest : c.setters.eraseIdx n = [] := by
              cases n with
              | zero => rw [list]; rfl
              | succ n => cases there
            have same : only = setter := by
              cases n with
              | zero => exact Option.some.inj there
              | succ n => cases there
            subst same
            have left : Fits { c with setters := c.setters.eraseIdx n } :=
              ⟨fits.mdc, fits.low, fits.below, fits.high, fits.server⟩
            apply proceed_single left rest
            cases only <;> exact ok
  · exact single_of_limits (step_limits (not_setter limit)) single

def call (max : Nat) : List Event := [.setMax max, .setter 0, .setter 0, .setter 0]

theorem setter_none {c : Client} (free : c.setters = []) (i : Nat) : step c (.setter i) = c := by
  unfold step
  split
  · rfl
  · simp [free]

theorem setter_first {c : Client} (running : c.lbug = false) (setter : Setter) (rest : List Setter) :
    step { c with setters := setter :: rest } (.setter 0) = Client.proceed
      { c with setters := rest } setter := by
  simp [step, running]

theorem call_refused {c : Client} (fits : Fits c) (free : c.setters = []) {max : Nat} (bad : ¬ Wanted max) :
    run step c (call max) = c := by
  have refused : step c (.setMax max) = c := by
    unfold step
    split
    · rfl
    · dsimp only
      rw [set_max_refuses fits.mdc bad]
      rfl
  simp only [call, run_cons, run_nil, refused, setter_none free]

theorem call_takes {c : Client} (fits : Fits c) (free : c.setters = []) (running : c.lbug = false) {max : Nat}
    (wanted : Wanted max) : (run step c (call max)).clMaxRpcsInFlight = max := by
  have below := fits.below
  have server := fits.server
  have stored (c : Client) : (storeMax c max).clMaxRpcsInFlight = max :=
    congrArg Limits.max (store_max_limits c max)
  have done (c : Client) (free : c.setters = []) (i : Nat) :
      step (storeMax c max) (.setter i) = storeMax c max :=
    setter_none ((congrArg Limits.setters (store_max_limits c max)).trans free) i
  have tested : step c (.setMax max) =
      { c with setters := [if max ≤ c.clMaxModRpcsInFlight then .lowering max else .storeMax max] } := by
    simp [step, running, set_max_accepts fits.mdc wanted, Client.enlist, free]
  obtain ⟨low, high⟩ := wanted
  rw [call, run_cons, run_cons, run_cons, run_cons, run_nil, tested]
  by_cases covered : max ≤ c.clMaxModRpcsInFlight
  · have accepted := set_max_mod_accepts (c := { c with setters := [] }) (max - 1) (some max)
      (by omega) (by omega)
      (show max - 1 < c.clMaxRpcsInFlight by omega) (show max - 1 ≤ c.maxmodrpcs by omega)
    have lowered : step { c with setters := [.lowering max] } (.setter 0) =
        { c with setters := [.storeMod (max - 1) (some max)] } := by
      rw [setter_first running, Client.proceed, accepted]
      rfl
    have made : step { c with setters := [.storeMod (max - 1) (some max)] } (.setter 0) =
        { c with clMaxModRpcsInFlight := max - 1, setters := [.storeMax max] } :=
      setter_first running _ _
    have last : step { c with clMaxModRpcsInFlight := max - 1, setters := [.storeMax max] } (.setter 0) =
        storeMax { c with clMaxModRpcsInFlight := max - 1, setters := [] } max :=
      setter_first (c := { c with clMaxModRpcsInFlight := max - 1 }) running _ _
    rw [if_pos covered, lowered, made, last, stored]
  · have only : step { c with setters := [.storeMax max] } (.setter 0) =
      storeMax { c with setters := [] } max :=
      setter_first running _ _
    rw [if_neg covered, only, done _ rfl, done _ rfl, stored]

/-- In every run of an MDC the limits stay in their ranges. As long as one setter runs at a time
    the modify limit also stays below the other one, and then a new limit is taken exactly if it
    is in its range. -/
theorem limits_fit (c : Client) (idle : Idle c) (fits : Fits c) (es : List Event) :
    Always step Ranged c es ∧
      (Along step Alone c es →
        Always step
          (fun c => Fits c ∧ (c.setters = [] → c.lbug = false →
            ∀ max, (run step c (call max)).clMaxRpcsInFlight = max ↔ Wanted max)) c es) := by
  refine ⟨always_mono (fun _ within => within.1) (run_within idle fits es), fun alone => ?_⟩
  have start : Single c := ⟨fits, Or.inl idle.setters⟩
  apply always_mono _ (always_of_along step_single start alone)
  rintro c ⟨fits, -⟩
  refine ⟨fits, fun free running max => ⟨fun taken => ?_, call_takes fits free running⟩⟩
  by_contra bad
  rw [call_refused fits free bad] at taken
  have ranged := fits_ranged fits
  exact bad ⟨taken ▸ ranged.two, taken ▸ ranged.high⟩

theorem fresh_fits {max : Nat} (low : 2 ≤ max) (high : max ≤ obdMaxRifMax) : Fits (fresh max) :=
  ⟨rfl, Nat.le_refl 1, low, high, show 1 ≤ 7 by decide⟩

def oneByOne : List Event :=
  [.setMaxMod 6, .setter 0] ++ call 3 ++ [.setMaxMod 5, .setMax 600, .setMaxMod 1, .setter 0] ++ call 2

theorem limits_fit_one_by_one : Idle (fresh 8) ∧ Fits (fresh 8) ∧ Along step Alone (fresh 8) oneByOne ∧
    Always step
      (fun c => Fits c ∧ (c.setters = [] → c.lbug = false →
        ∀ max, (run step c (call max)).clMaxRpcsInFlight = max ↔ Wanted max)) (fresh 8) oneByOne := by
  have fits : Fits (fresh 8) := fresh_fits (by decide) (by decide)
  have alone : Along step Alone (fresh 8) oneByOne := by decide
  exact ⟨fresh_idle 8, fits, alone, (limits_fit (fresh 8) (fresh_idle 8) fits oneByOne).2 alone⟩

/-- A limit of three is set while a modify limit of seven has passed its tests and is not stored
    yet; a limit of five is refused then. -/
example :
    let c := run step (fresh 8) ([.setMaxMod 7, .setMax 3, .setter 0, .setter 0] ++ call 5)
    c.clMaxRpcsInFlight = 3 ∧ c.clMaxModRpcsInFlight = 7 ∧ c.setters = [] := by
  decide

/-- A modify limit that is lowered leaves room for what is in flight and one more. -/
def KeepsTags (c : Client) (e : Event) : Prop :=
  (step c e).clMaxModRpcsInFlight < c.clMaxModRpcsInFlight →
    c.clModRpcsInFlight ≤ (step c e).clMaxModRpcsInFlight + 1 + c.clCloseRpcsInFlight

instance (c : Client) (e : Event) : Decidable (KeepsTags c e) := inferInstanceAs (Decidable (_ → _))

theorem find_first_zero_bit_clear {bitmap : Nat → Bool} {size i : Nat} (low : i < size)
    (clear : bitmap i = false) :
    findFirstZeroBit bitmap size < size ∧ bitmap (findFirstZeroBit bitmap size) = false := by
  unfold findFirstZeroBit
  have found : ((List.range size).find? fun i => !bitmap i).isSome = true :=
    List.find?_isSome.mpr ⟨i, List.mem_range.mpr low, by rw [clear]; rfl⟩
  obtain ⟨first, is⟩ := Option.isSome_iff_exists.mp found
  rw [is, Option.getD_some]
  have clear := List.find?_some is
  exact ⟨List.mem_range.mp (List.mem_of_find?_eq_some is), by simpa using clear⟩

theorem find_first_zero_bit_full {bitmap : Nat → Bool} {size : Nat} (full : ∀ i < size, bitmap i = true) :
    findFirstZeroBit bitmap size = size := by
  unfold findFirstZeroBit
  have none : (List.range size).find? (fun i => !bitmap i) = none := by
    apply List.find?_eq_none.mpr
    intro i low
    rw [full i (List.mem_range.mp low)]
    decide
  rw [none, Option.getD_none]

theorem full_le {m : Mods} (tagged : Tagged m) {n : Nat} (full : ∀ i < n, m.bitmap i = true) :
    n ≤ m.inFlight := by
  have fewer : (List.range' 1 n).Subperm (m.rpcs.map ModRpc.tag) := by
    apply List.subperm_of_subset List.nodup_range'
    intro tag member
    obtain ⟨low, high⟩ := List.mem_range'_1.mp member
    obtain ⟨rpc, held, is⟩ := (tagged.bits (tag - 1)).mp (full (tag - 1) (by omega))
    exact List.mem_map.mpr ⟨rpc, held, by omega⟩
  have count := fewer.length_le
  rw [List.length_range', List.length_map] at count
  rw [tagged.counted]
  exact count

structure Room (m : Mods) : Prop where
  limit : m.inFlight ≤ m.max + 1 + m.closes
  tags : m.inFlight < obdMaxRifMax + m.closes

theorem avail_usable {m : Mods} (tagged : Tagged m) (room : Room m) (low : m.max < obdMaxRifMax)
    {closeReq : Bool}
    (avail : m.Avail closeReq) : m.Usable := by
  by_cases some : ∃ i < m.max + 1, m.bitmap i = false
  · obtain ⟨i, below, clear⟩ := some
    have found := find_first_zero_bit_clear below clear
    exact ⟨Nat.lt_of_lt_of_le found.1 low, found.2⟩
  · have full : ∀ i < m.max + 1, m.bitmap i = true := by
      intro i below
      by_contra clear
      exact some ⟨i, below, Bool.eq_false_iff.mpr clear⟩
    -- All bits up to the limit are in use, so this is the close above it and takes the next bit.
    have many := full_le tagged full
    have limit := room.limit
    have tags := room.tags
    have closes : m.closes = 0 := avail.elim (by omega) And.right
    have free : m.free = m.max + 1 := find_first_zero_bit_full full
    rw [Mods.Usable, free]
    refine ⟨by omega, ?_⟩
    by_contra set
    have more : m.max + 2 ≤ m.inFlight := by
      apply full_le tagged
      intro i below
      rcases Nat.lt_succ_iff_lt_or_eq.mp below with lower | rfl
      · exact full i lower
      · exact Bool.not_eq_false _ ▸ set
    omega

theorem held_bit {m : Mods} (tagged : Tagged m) {rpc : ModRpc} (held : rpc ∈ m.rpcs) :
    rpc.tag - 1 < obdMaxRifMax ∧ m.bitmap (rpc.tag - 1) = true := by
  obtain ⟨low, high⟩ := tagged.range rpc held
  exact ⟨by omega, (tagged.bits (rpc.tag - 1)).mpr ⟨rpc, held, by omega⟩⟩

theorem give_closes {m : Mods} (tagged : Tagged m) {rpc : ModRpc} (held : rpc ∈ m.rpcs) :
    1 ≤ m.inFlight ∧ rpc.close.toNat ≤ m.closes := by
  rw [tagged.counted, tagged.closes]
  refine ⟨List.length_pos_of_mem held, ?_⟩
  cases close : rpc.close with
  | false => exact Nat.zero_le _
  | true => exact List.countP_pos_iff.mpr ⟨rpc, held, close⟩

theorem turns_room {m m' : Mods} (turns : Turns m m') (tagged : Tagged m) (room : Room m)
    (low : m.max < obdMaxRifMax) (running : m.lbug = false)
    (kept : m'.max < m.max → m.inFlight ≤ m'.max + 1 + m.closes) : Room m' ∧ m'.lbug = false := by
  have limit := room.limit
  have tags := room.tags
  cases turns with
  | limit max =>
    refine ⟨⟨?_, tags⟩, running⟩
    dsimp only at kept ⊢
    by_cases lowered : max < m.max
    · exact kept lowered
    · omega
  | take closeReq avail usable =>
    refine ⟨⟨?_, ?_⟩, running⟩
    · rcases avail with below | ⟨rfl, none⟩
      · dsimp only
        omega
      · simp only [Bool.toNat_true]
        omega
    · rcases avail with below | ⟨rfl, none⟩
      · dsimp only
        omega
      · simp only [Bool.toNat_true]
        omega
  | out closeReq avail lost => exact absurd (avail_usable tagged room low avail) lost
  | give rpc held =>
    obtain ⟨some, closes⟩ := give_closes tagged held
    have most := Bool.toNat_le rpc.close
    exact ⟨⟨by dsimp only; omega, by dsimp only; omega⟩, running⟩
  | stray rpc held lost => exact absurd (held_bit tagged held) lost

/-- No assertion on the bitmap fails, in any run in which no modify limit is lowered further
    below what is in flight than the one close that may go above it. -/
theorem tags_suffice (c : Client) (idle : Idle c) (fits : Fits c) (es : List Event)
    (kept : Along step KeepsTags c es) : Always step (fun c => c.lbug = false) c es := by
  have start : (Within c ∧ Tagged c.mods) ∧ Room c.mods ∧ c.mods.lbug = false := by
    refine ⟨⟨⟨fits_ranged fits, by simp [idle.setters]⟩, idle_tagged idle⟩, ⟨?_, ?_⟩, idle.running⟩
    · simp [Client.mods, idle.mods]
    · simp [Client.mods, idle.mods, idle.closes, obdMaxRifMax]
  have keeps (c : Client) (e : Event) (good : (Within c ∧ Tagged c.mods) ∧ Room c.mods ∧ c.mods.lbug = false)
      (kept : KeepsTags c e) :
      (Within (step c e) ∧ Tagged (step c e).mods) ∧ Room (step c e).mods ∧ (step c e).mods.lbug = false := by
    obtain ⟨⟨within, tagged⟩, room, running⟩ := good
    have turns := step_turns c e
    have low : c.mods.max < obdMaxRifMax := within.1.tags
    exact ⟨⟨step_within c e within, turns_tagged turns tagged⟩, turns_room turns tagged room low running kept⟩
  exact always_mono (fun _ good => good.2.2) (always_of_along keeps start kept)

theorem tags_suffice_lowered : Always step (fun c => c.lbug = false) (fresh 4)
    [.setMaxMod 2, .setter 0, .getMod false, .getMod false, .getMod true, .setMaxMod 1, .setter 0,
      .putMod ⟨3, true⟩,
      .getMod true] :=
  tags_suffice (fresh 4) (fresh_idle 4) (fresh_fits (by decide) (by decide)) _ (by decide)

/-- With three of them the second bit above the limit is taken too. -/
example : (run step (fresh 5)
    [.setMaxMod 3, .setter 0, .getMod false, .getMod false, .getMod false, .setMaxMod 1, .setter 0,
      .getMod true]).lbug =
      true := by decide

end RequestSlots
