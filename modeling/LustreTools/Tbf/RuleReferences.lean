import LustreTools.Lib.Runs
import LustreTools.Tbf.RuleTable

/-!
Who keeps a rule and a client of the TBF policy alive. The counter of a rule is the number of its
holders: the rule list, the clients on its own list, and the calls that found it. The counter of a
client is the number of calls that hold it. Each operation moves a reference from one holder to
another, and the assertions at the end of an object's life follow from the counts.
-/
namespace TbfRules
open Runs Words TbfPolicy

section Holders
variable {ι κ : Type}

/-- The references on rules that a call has to drop or to hand over. -/
def Call.held : Call ι κ → List Nat
  | .matched _ _ r | .same _ r | .built r | .changing r _ | .stopping r => [r]
  | .unlinked r => [r, r]
  | .dropping _ rs _ => rs
  | _ => []

/-- The hashed clients that a call holds. -/
def Call.guests : Call ι κ → List Nat
  | .found c | .matched true c _ | .linked true c | .same c _ | .serving c | .lost _ c => [c]
  | _ => []

/-- The clients that only this call knows. -/
def Call.owned : Call ι κ → List Nat
  | .matched false c _ | .linked false c | .made c | .lost c _ => [c]
  | _ => []

/-- The clients it took off the hash and has to free. -/
def Call.dead : Call ι κ → List Nat
  | .zombies cs => cs
  | _ => []

/-- The new clients that have no rule yet. -/
def Call.bare : Call ι κ → List Nat
  | .matched false c _ => [c]
  | _ => []

def Head.ruleOf (h : Head ι κ) (c : Nat) : Option Nat := (h.clients c).bind (·.tcRule)

def Head.nameOf (h : Head ι κ) (r : Nat) : Option (List Char) := (h.rules r).map (·.trName)

def Head.refOf (h : Head ι κ) (c : Nat) : Option Int := (h.clients c).map (·.tcRef)

/-- Every rule is counted, with `held` for the references of the calls. -/
structure RuleInv (h : Head ι κ) (held : List Nat) : Prop where
  counted : ∀ r rule, h.rules r = some rule →
    rule.trRef = h.thList.count r + rule.trCliList.length + held.count r ∧ 0 < rule.trRef
  gone : ∀ r, h.rules r = none → r ∉ h.thList ∧ r ∉ held ∧ ∀ c, h.ruleOf c ≠ some r
  users : ∀ r rule, h.rules r = some rule →
    rule.trCliList.Nodup ∧ ∀ c, c ∈ rule.trCliList ↔ h.ruleOf c = some r
  once : h.thList.Nodup
  unborn : ∀ r, h.nextRule ≤ r → h.rules r = none

/-- Every client is counted and has one place: in the hash, with the call that made it, or with the
    call that will free it. -/
structure ClientInv (ops : Ops ι κ) (h : Head ι κ) (guests owned dead : List Nat) : Prop where
  counted : ∀ c ref, h.refOf c = some ref →
    ref = guests.count c + owned.count c + if ops.itemref = true ∧ c ∈ h.thCliHash then 1 else 0
  placed : ∀ c, h.thCliHash.count c + owned.count c + dead.count c = if (h.refOf c).isSome then 1 else 0
  hashed : ∀ c ∈ guests, c ∈ h.thCliHash
  keys : ∀ c ∈ h.thCliHash, ∀ d ∈ h.thCliHash, h.keyOf c = h.keyOf d → c = d
  idle : ∀ b c, c ∈ h.ntbLru b ↔
    ops.itemref = false ∧ c ∈ h.thCliHash ∧ inBucket ops h b c = true ∧ h.refOf c = some 0
  once : ∀ b, (h.ntbLru b).Nodup
  unborn : ∀ c, h.nextClient ≤ c → h.refOf c = none

def Room (ops : Ops ι κ) (h : Head ι κ) : Prop :=
  ∀ b, (h.ntbLru b).length ≤ highWater ops.tbfJobidCacheSize

/-- What the assertions along the rule list need. -/
structure ListInv (h : Head ι κ) : Prop where
  quiet : ∀ r ∈ h.thList, ∀ rule, h.rules r = some rule → rule.trStopping = false
  names : ∀ r ∈ h.thList, ∀ q ∈ h.thList, h.nameOf r = h.nameOf q → r = q
  default : h.thRule ∈ h.thList
  defaultName : h.nameOf h.thRule = some defaultRule

end Holders

section Rules
variable {ι κ : Type} {h h' : Head ι κ} {held : List Nat}

theorem RuleInv.perm (inv : RuleInv h held) {other : List Nat} (same : held.Perm other) :
    RuleInv h other where
  counted r rule known := by
    rw [← same.count_eq]
    exact inv.counted r rule known
  gone r freed := by
    obtain ⟨listed, holder, user⟩ := inv.gone r freed
    exact ⟨listed, fun there => holder (same.mem_iff.mpr there), user⟩
  users := inv.users
  once := inv.once
  unborn := inv.unborn

theorem RuleInv.congr (inv : RuleInv h held) (rules : h'.rules = h.rules) (list : h'.thList = h.thList)
    (next : h'.nextRule = h.nextRule) (ruleOf : ∀ c, h'.ruleOf c = h.ruleOf c) : RuleInv h' held where
  counted := by
    rw [rules, list]
    exact inv.counted
  gone := by
    simp only [rules, list, ruleOf]
    exact inv.gone
  users := by
    simp only [rules, ruleOf]
    exact inv.users
  once := by
    rw [list]
    exact inv.once
  unborn := by
    rw [rules, next]
    exact inv.unborn

theorem RuleInv.listed (inv : RuleInv h held) {r : Nat} (listed : r ∈ h.thList) :
    ∃ rule, h.rules r = some rule := by
  cases known : h.rules r with
  | none => exact absurd listed (inv.gone r known).1
  | some rule => exact ⟨rule, rfl⟩

theorem RuleInv.holder (inv : RuleInv h held) {r : Nat} (holder : r ∈ held) :
    ∃ rule, h.rules r = some rule := by
  cases known : h.rules r with
  | none => exact absurd holder (inv.gone r known).2.1
  | some rule => exact ⟨rule, rfl⟩

theorem RuleInv.user (inv : RuleInv h held) {c r : Nat} (user : h.ruleOf c = some r) :
    ∃ rule, h.rules r = some rule := by
  cases known : h.rules r with
  | none => exact absurd user ((inv.gone r known).2.2 c)
  | some rule => exact ⟨rule, rfl⟩

theorem RuleInv.replace (inv : RuleInv h held) {r : Nat} {rule : Rule ι} {now : List Nat}
    (rules : h'.rules = Function.update h.rules r (some rule))
    (lists : ∀ q, q ≠ r → h'.thList.count q = h.thList.count q)
    (holders : ∀ q, q ≠ r → now.count q = held.count q)
    (others : ∀ q c, q ≠ r → (h'.ruleOf c = some q ↔ h.ruleOf c = some q))
    (counted : rule.trRef = h'.thList.count r + rule.trCliList.length + now.count r ∧ 0 < rule.trRef)
    (users : rule.trCliList.Nodup ∧ ∀ c, c ∈ rule.trCliList ↔ h'.ruleOf c = some r)
    (once : h'.thList.Nodup) (next : r < h'.nextRule) (least : h.nextRule ≤ h'.nextRule) :
    RuleInv h' now where
  counted q other known := by
    rw [rules] at known
    by_cases here : q = r
    · subst here
      rw [Function.update_self, Option.some.injEq] at known
      subst known
      exact counted
    · rw [Function.update_of_ne here] at known
      rw [lists q here, holders q here]
      exact inv.counted q other known
  gone q freed := by
    rw [rules] at freed
    by_cases here : q = r
    · subst here
      rw [Function.update_self] at freed
      exact absurd freed (Option.some_ne_none _)
    · rw [Function.update_of_ne here] at freed
      obtain ⟨listed, holder, user⟩ := inv.gone q freed
      refine ⟨?_, ?_, ?_⟩
      · rwa [← List.count_eq_zero, lists q here, List.count_eq_zero]
      · rwa [← List.count_eq_zero, holders q here, List.count_eq_zero]
      · intro c
        rw [Ne, others q c here]
        exact user c
  users q other known := by
    rw [rules] at known
    by_cases here : q = r
    · subst here
      rw [Function.update_self, Option.some.injEq] at known
      subst known
      exact users
    · rw [Function.update_of_ne here] at known
      obtain ⟨nodup, members⟩ := inv.users q other known
      refine ⟨nodup, fun c => ?_⟩
      rw [members, others q c here]
  once := once
  unborn q later := by
    rw [rules, Function.update_of_ne (by omega)]
    exact inv.unborn q (by omega)

theorem RuleInv.lt_next (inv : RuleInv h held) {r : Nat} {rule : Rule ι} (known : h.rules r = some rule) :
    r < h.nextRule := by
  by_contra beyond
  have freed := inv.unborn r (by omega)
  rw [known] at freed
  exact Option.some_ne_none _ freed

@[simp] theorem ruleOf_setRule (h : Head ι κ) (r : Nat) (rule : Option (Rule ι)) (c : Nat) :
    (h.setRule r rule).ruleOf c = h.ruleOf c := rfl

theorem count_cons_ne {q r : Nat} (rs : List Nat) (apart : q ≠ r) : (r :: rs).count q = rs.count q := by
  rw [List.count_cons, if_neg (by simpa using Ne.symm apart), Nat.add_zero]

theorem RuleInv.get (inv : RuleInv h held) {r : Nat} {rule : Rule ι} (known : h.rules r = some rule) :
    RuleInv (h.setRule r (some { rule with trRef := rule.trRef + 1 })) (r :: held) := by
  obtain ⟨counted, positive⟩ := inv.counted r rule known
  apply inv.replace
  case rules => exact rfl
  case lists => exact fun _ _ => rfl
  case holders => exact fun q apart => count_cons_ne held apart
  case others => exact fun _ _ _ => Iff.rfl
  case counted =>
    rw [List.count_cons_self]
    constructor
    · rw [counted]
      push_cast
      exact (add_assoc _ _ _)
    · exact Int.add_pos_of_pos_of_nonneg positive (by decide)
  case users => exact inv.users r rule known
  case once => exact inv.once
  case next => exact inv.lt_next known
  case least => exact le_refl h.nextRule

theorem RuleInv.edit (inv : RuleInv h held) {r : Nat} {rule other : Rule ι} (known : h.rules r = some rule)
    (ref : other.trRef = rule.trRef) (list : other.trCliList = rule.trCliList) :
    RuleInv (h.setRule r (some other)) held := by
  apply inv.replace
  case rules => exact rfl
  case lists => exact fun _ _ => rfl
  case holders => exact fun _ _ => rfl
  case others => exact fun _ _ _ => Iff.rfl
  case counted =>
    rw [ref, list]
    exact inv.counted r rule known
  case users =>
    rw [list]
    exact inv.users r rule known
  case once => exact inv.once
  case next => exact inv.lt_next known
  case least => exact le_refl h.nextRule

theorem RuleInv.last {r : Nat} (inv : RuleInv h (r :: held)) {rule : Rule ι} (known : h.rules r = some rule)
    (one : rule.trRef = 1) : rule.trCliList = [] ∧ r ∉ h.thList ∧ r ∉ held := by
  have counted := (inv.counted r rule known).1
  rw [one, List.count_cons_self] at counted
  refine ⟨List.length_eq_zero_iff.mp (by omega), ?_, ?_⟩
  · exact List.count_eq_zero.mp (by omega)
  · exact List.count_eq_zero.mp (by omega)

theorem RuleInv.free {r : Nat} (inv : RuleInv h (r :: held)) {rule : Rule ι} (known : h.rules r = some rule)
    (one : rule.trRef = 1) : RuleInv (h.setRule r none) held := by
  obtain ⟨unused, unlisted, unheld⟩ := inv.last known one
  have live {q : Nat} {other : Rule ι} (there : (h.setRule r none).rules q = some other) :
      q ≠ r ∧ h.rules q = some other := by
    by_cases here : q = r
    · subst here
      simp [Head.setRule] at there
    · exact ⟨here, by simpa [Head.setRule, here] using there⟩
  constructor
  case counted =>
    intro q other there
    obtain ⟨apart, there⟩ := live there
    rw [← count_cons_ne held apart]
    exact inv.counted q other there
  case gone =>
    intro q freed
    by_cases here : q = r
    · subst here
      refine ⟨unlisted, unheld, fun c user => ?_⟩
      have member := ((inv.users q rule known).2 c).mpr user
      rw [unused] at member
      exact List.not_mem_nil member
    · obtain ⟨listed, holder, user⟩ := inv.gone q (by simpa [Head.setRule, here] using freed)
      exact ⟨listed, fun there => holder (List.mem_cons_of_mem r there), user⟩
  case users =>
    intro q other there
    exact inv.users q other (live there).2
  case once => exact inv.once
  case unborn =>
    intro q later
    have apart : q ≠ r := by
      intro here
      have next := inv.lt_next known
      have least : h.nextRule ≤ q := later
      omega
    simpa [Head.setRule, apart] using inv.unborn q later

theorem RuleInv.drop {r : Nat} (inv : RuleInv h (r :: held)) {rule : Rule ι} (known : h.rules r = some rule)
    (more : rule.trRef ≠ 1) : RuleInv (h.setRule r (some { rule with trRef := rule.trRef - 1 })) held := by
  obtain ⟨counted, positive⟩ := inv.counted r rule known
  apply inv.replace
  case rules => exact rfl
  case lists => exact fun _ _ => rfl
  case holders => exact fun q apart => (count_cons_ne held apart).symm
  case others => exact fun _ _ _ => Iff.rfl
  case counted =>
    rw [List.count_cons_self] at counted
    simp only [Head.setRule]
    omega
  case users => exact inv.users r rule known
  case once => exact inv.once
  case next => exact inv.lt_next known
  case least => exact le_refl h.nextRule

def Rule.less (rule : Rule ι) : Option (Rule ι) :=
  if rule.trRef = 1 then none else some { rule with trRef := rule.trRef - 1 }

/-- The caller of `nrs_tbf_rule_put` has a reference, so the assertions on a rule that goes hold. -/
theorem rule_put {r : Nat} (inv : RuleInv h (r :: held)) :
    ∃ rule, h.rules r = some rule ∧ nrsTbfRulePut r h = h.setRule r rule.less ∧
      RuleInv (nrsTbfRulePut r h) held := by
  obtain ⟨rule, known⟩ := inv.holder List.mem_cons_self
  have put : nrsTbfRulePut r h = h.setRule r rule.less := by
    rw [nrsTbfRulePut, known]
    dsimp only
    by_cases one : rule.trRef = 1
    · rw [if_pos (by omega), nrsTbfRuleFini, if_pos, Rule.less, if_pos one]
      exact ⟨(inv.last known one).1, (inv.last known one).2.1⟩
    · rw [if_neg (by omega), Rule.less, if_neg one]
  refine ⟨rule, known, put, ?_⟩
  rw [put, Rule.less]
  split
  · rename_i one
    exact inv.free known one
  · rename_i more
    exact inv.drop known more

theorem rule_get (inv : RuleInv h held) {r : Nat} {rule : Rule ι} (known : h.rules r = some rule) :
    nrsTbfRuleGet r h = h.setRule r (some { rule with trRef := rule.trRef + 1 }) ∧
      RuleInv (nrsTbfRuleGet r h) (r :: held) := by
  have get : nrsTbfRuleGet r h = h.setRule r (some { rule with trRef := rule.trRef + 1 }) := by
    rw [nrsTbfRuleGet, known]
  refine ⟨get, ?_⟩
  rw [get]
  exact inv.get known

theorem RuleInv.list {r : Nat} (inv : RuleInv h (r :: held)) (unlisted : r ∉ h.thList) :
    RuleInv { h with thList := r :: h.thList } held := by
  obtain ⟨rule, known⟩ := inv.holder List.mem_cons_self
  obtain ⟨counted, positive⟩ := inv.counted r rule known
  have same : h.rules = Function.update h.rules r (some rule) := by rw [← known, Function.update_eq_self]
  apply inv.replace
  case rules => exact same
  case lists => exact fun q apart => count_cons_ne h.thList apart
  case holders => exact fun q apart => (count_cons_ne held apart).symm
  case others => exact fun _ _ _ => Iff.rfl
  case counted =>
    rw [List.count_cons_self] at counted ⊢
    omega
  case users => exact inv.users r rule known
  case once => exact List.nodup_cons.mpr ⟨unlisted, inv.once⟩
  case next => exact inv.lt_next known
  case least => exact le_refl h.nextRule

theorem RuleInv.unlist {r : Nat} (inv : RuleInv h held) (listed : r ∈ h.thList) :
    RuleInv { h with thList := h.thList.erase r } (r :: held) := by
  obtain ⟨rule, known⟩ := inv.listed listed
  obtain ⟨counted, positive⟩ := inv.counted r rule known
  have same : h.rules = Function.update h.rules r (some rule) := by rw [← known, Function.update_eq_self]
  apply inv.replace
  case rules => exact same
  case lists => exact fun q apart => List.count_erase_of_ne apart
  case holders => exact fun q apart => count_cons_ne held apart
  case others => exact fun _ _ _ => Iff.rfl
  case counted =>
    have listedOnce : h.thList.count r = 1 := List.count_eq_one_of_mem inv.once listed
    rw [List.count_cons_self, List.count_erase_self]
    omega
  case users => exact inv.users r rule known
  case once => exact inv.once.erase r
  case next => exact inv.lt_next known
  case least => exact le_refl h.nextRule

theorem RuleInv.add (inv : RuleInv h held) {rule : Rule ι} (ref : rule.trRef = 1)
    (list : rule.trCliList = []) :
    RuleInv (h.addRule rule) (h.nextRule :: held) := by
  obtain ⟨unlisted, unheld, unused⟩ := inv.gone h.nextRule (inv.unborn h.nextRule (le_refl _))
  apply inv.replace
  case rules => exact rfl
  case lists => exact fun _ _ => rfl
  case holders => exact fun q apart => count_cons_ne held apart
  case others => exact fun _ _ _ => Iff.rfl
  case counted =>
    have none : (h.addRule rule).thList.count h.nextRule = 0 := List.count_eq_zero.mpr unlisted
    rw [List.count_cons_self, List.count_eq_zero.mpr unheld, none, ref, list]
    decide
  case users =>
    rw [list]
    refine ⟨List.nodup_nil, fun c => ?_⟩
    simp only [List.not_mem_nil, false_iff]
    exact unused c
  case once => exact inv.once
  case next => exact Nat.lt_succ_self h.nextRule
  case least => exact Nat.le_succ h.nextRule

theorem ruleOf_setClient (h : Head ι κ) (c d : Nat) (cli : Option (Client κ)) :
    (h.setClient c cli).ruleOf d = if d = c then cli.bind (·.tcRule) else h.ruleOf d := by
  unfold Head.ruleOf Head.setClient
  by_cases here : d = c
  · subst here
    simp
  · simp [here]

theorem RuleInv.unlink (inv : RuleInv h held) {c r : Nat} {cli : Client κ} (there : h.clients c = some cli)
    (user : cli.tcRule = some r) :
    ∃ rule, h.rules r = some rule ∧
      unlinkClient c r cli h =
        (h.setRule r (some { rule with trCliList := rule.trCliList.erase c })).setClient c
          (some { cli with tcRule := none }) ∧
      RuleInv (unlinkClient c r cli h) (r :: held) := by
  have uses : h.ruleOf c = some r := by rw [Head.ruleOf, there, Option.bind_some, user]
  obtain ⟨rule, known⟩ := inv.user uses
  obtain ⟨counted, positive⟩ := inv.counted r rule known
  obtain ⟨nodup, members⟩ := inv.users r rule known
  have member : c ∈ rule.trCliList := (members c).mpr uses
  have unlinked : unlinkClient c r cli h =
      (h.setRule r (some { rule with trCliList := rule.trCliList.erase c })).setClient c
        (some { cli with tcRule := none }) := by
    rw [unlinkClient, known]
    dsimp only
    rw [if_pos member]
  refine ⟨rule, known, unlinked, ?_⟩
  rw [unlinked]
  apply inv.replace
  case rules => exact rfl
  case lists => exact fun _ _ => rfl
  case holders => exact fun q apart => count_cons_ne held apart
  case others =>
    intro q d apart
    rw [ruleOf_setClient]
    by_cases here : d = c
    · subst here
      simp [uses, Ne.symm apart]
    · rw [if_neg here, ruleOf_setRule]
  case counted =>
    have shorter := List.length_erase_of_mem member
    have some := List.length_pos_of_mem member
    simp only [Head.setClient, Head.setRule, List.count_cons_self]
    omega
  case users =>
    refine ⟨nodup.erase c, fun d => ?_⟩
    rw [nodup.mem_erase_iff, members, ruleOf_setClient, ruleOf_setRule]
    by_cases here : d = c
    · simp [here]
    · simp [here]
  case once => exact inv.once
  case next => exact inv.lt_next known
  case least => exact le_refl h.nextRule

theorem RuleInv.link {c r : Nat} (inv : RuleInv h (r :: held)) {cli : Client κ}
    (there : h.clients c = some cli) (free : cli.tcRule = none) :
    ∃ rule, h.rules r = some rule ∧
      linkClient c r h =
        (h.setRule r (some { rule with trCliList := rule.trCliList ++ [c] })).setClient c
          (some { cli with tcRule := some r }) ∧
      RuleInv (linkClient c r h) held := by
  have unruled : h.ruleOf c = none := by rw [Head.ruleOf, there, Option.bind_some, free]
  obtain ⟨rule, known⟩ := inv.holder List.mem_cons_self
  obtain ⟨counted, positive⟩ := inv.counted r rule known
  obtain ⟨nodup, members⟩ := inv.users r rule known
  have linked : linkClient c r h =
      (h.setRule r (some { rule with trCliList := rule.trCliList ++ [c] })).setClient c
        (some { cli with tcRule := some r }) := by
    rw [linkClient, there, known]
    dsimp only
    rw [if_pos free]
  refine ⟨rule, known, linked, ?_⟩
  rw [linked]
  apply inv.replace
  case rules => exact rfl
  case lists => exact fun _ _ => rfl
  case holders => exact fun q apart => (count_cons_ne held apart).symm
  case others =>
    intro q d apart
    rw [ruleOf_setClient]
    by_cases here : d = c
    · subst here
      simp [unruled, Ne.symm apart]
    · rw [if_neg here, ruleOf_setRule]
  case counted =>
    rw [List.count_cons_self] at counted
    simp only [Head.setClient, Head.setRule, List.length_append, List.length_singleton]
    omega
  case users =>
    have newcomer : c ∉ rule.trCliList := by
      rw [members, unruled]
      exact Option.some_ne_none r ∘ Eq.symm
    refine ⟨List.Nodup.append nodup (List.nodup_singleton c) (by simpa using newcomer), fun d => ?_⟩
    rw [List.mem_append, members, ruleOf_setClient, ruleOf_setRule]
    by_cases here : d = c
    · simp [here]
    · simp [here]
  case once => exact inv.once
  case next => exact inv.lt_next known
  case least => exact le_refl h.nextRule

end Rules

end TbfRules
