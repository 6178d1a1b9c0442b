import LustreTools.Tbf.ClientReferences

/-!
The invariant of the TBF head while calls are under way: what each of them holds, what it relies on,
and which changes of the head leave the other calls alone.
-/
namespace TbfRules
open Words TbfPolicy

section Calls
variable {ι κ : Type}

def heldBy (calls : List (Call ι κ)) : List Nat := calls.flatMap Call.held
def guestsOf (calls : List (Call ι κ)) : List Nat := calls.flatMap Call.guests
def ownedBy (calls : List (Call ι κ)) : List Nat := calls.flatMap Call.owned
def deadOf (calls : List (Call ι κ)) : List Nat := calls.flatMap Call.dead
def bareOf (calls : List (Call ι κ)) : List Nat := calls.flatMap Call.bare

/-- What a call relies on besides its references. -/
def CallOk (h : Head ι κ) (held : List Nat) : Call ι κ → Prop
  | .matched true c r => h.ruleOf c ≠ some r
  | .stopping r => r ∈ h.thList ∧ r ≠ h.thRule
  | .unlinked r => r ∉ h.thList
  | .built r => r ∉ h.thList ∧ held.count r = 1 ∧ ∀ rule, h.rules r = some rule → rule.trStopping = false
  | _ => True

structure Inv (ops : Ops ι κ) (h : Head ι κ) (calls : List (Call ι κ)) : Prop where
  rules : RuleInv h (heldBy calls)
  clients : ClientInv ops h (guestsOf calls) (ownedBy calls) (deadOf calls)
  room : Room ops h
  list : ListInv h
  bare : ∀ c, (h.refOf c).isSome = true → (h.ruleOf c = none ↔ c ∈ bareOf calls)
  each : ∀ call ∈ calls, CallOk h (heldBy calls) call
  scp : calls.countP Call.holdsScpReqLock ≤ 1
  nrs : calls.countP Call.holdsNrsLock ≤ 1
  running : h.lbug = false

variable {ops : Ops ι κ} {h h' : Head ι κ} {calls prior next rest : List (Call ι κ)}

theorem call_ok_count {held held' : List Nat} {call : Call ι κ} (same : ∀ r, held'.count r = held.count r)
    (ok : CallOk h held call) : CallOk h held' call := by
  cases call with
  | built r => exact ⟨ok.1, (same r).trans ok.2.1, ok.2.2⟩
  | matched known c r => cases known <;> exact ok
  | _ => exact ok

theorem Inv.perm (inv : Inv ops h calls) (same : calls.Perm rest) : Inv ops h rest where
  rules := inv.rules.perm (same.flatMap_right _)
  clients := inv.clients.perm (same.flatMap_right _) (same.flatMap_right _) (same.flatMap_right _)
  room := inv.room
  list := inv.list
  bare c live := by
    rw [inv.bare c live]
    exact (same.flatMap_right _).mem_iff
  each call there := by
    apply call_ok_count _ (inv.each call (same.mem_iff.mpr there))
    exact fun r => (same.flatMap_right _).symm.count_eq r
  scp := by
    rw [← same.countP_eq]
    exact inv.scp
  nrs := by
    rw [← same.countP_eq]
    exact inv.nrs
  running := inv.running

theorem held_mem {call : Call ι κ} (there : call ∈ calls) {r : Nat} (holder : r ∈ call.held) :
    r ∈ heldBy calls := List.mem_flatMap.mpr ⟨call, there, holder⟩

theorem guest_mem {call : Call ι κ} (there : call ∈ calls) {c : Nat} (guest : c ∈ call.guests) :
    c ∈ guestsOf calls := List.mem_flatMap.mpr ⟨call, there, guest⟩

theorem Inv.guest_apart (inv : Inv ops h calls) {c : Nat} (guest : c ∈ guestsOf calls) :
    c ∉ ownedBy calls ∧ c ∉ deadOf calls := by
  have hashed := inv.clients.hashed c guest
  obtain ⟨cli, there⟩ := inv.clients.live_hashed hashed
  have place := inv.clients.one_place there
  have count := List.count_pos_iff.mpr hashed
  exact ⟨List.count_eq_zero.mp (by omega), List.count_eq_zero.mp (by omega)⟩

/-- What a step that leaves the rule list alone may change: the rules of the clients in `touched`
    and the stopping flags of the rules in `flagged`. -/
structure Calm (h h' : Head ι κ) (touched flagged : List Nat) : Prop where
  list : h'.thList = h.thList
  default : h'.thRule = h.thRule
  running : h'.lbug = h.lbug
  names : ∀ r ∈ h.thList, h'.nameOf r = h.nameOf r
  flags : ∀ r rule', h'.rules r = some rule' → rule'.trStopping = true →
    r ∈ flagged ∨ ∃ rule, h.rules r = some rule ∧ rule.trStopping = true
  users : ∀ c, c ∉ touched → h'.ruleOf c = h.ruleOf c

theorem Calm.list_inv {touched flagged : List Nat} (calm : Calm h h' touched flagged) (inv : ListInv h)
    (apart : ∀ r ∈ flagged, r ∉ h.thList) : ListInv h' where
  quiet r listed rule known := by
    rw [calm.list] at listed
    by_contra on
    rcases calm.flags r rule known (by simpa using on) with flagged | ⟨before, there, stopping⟩
    · exact apart r flagged listed
    · rw [inv.quiet r listed before there] at stopping
      exact Bool.noConfusion stopping
  names r listed q other same := by
    rw [calm.list] at listed other
    rw [calm.names r listed, calm.names q other] at same
    exact inv.names r listed q other same
  default := by
    rw [calm.default, calm.list]
    exact inv.default
  defaultName := by
    rw [calm.default, calm.names _ inv.default]
    exact inv.defaultName

theorem Calm.others {touched flagged : List Nat} (calm : Calm h h' touched flagged)
    (inv : Inv ops h (prior ++ rest))
    (touches : ∀ c ∈ touched, c ∈ ownedBy prior ∨ c ∈ deadOf prior ∨
      0 < prior.countP Call.holdsScpReqLock)
    (flags : ∀ r ∈ flagged, r ∈ heldBy prior)
    (taken : ∀ r ∈ heldBy next, r ∈ heldBy prior ∨ r ∈ h.thList ∨ h.rules r = none) :
    ∀ call ∈ rest, CallOk h' (heldBy (next ++ rest)) call := by
  intro call there
  have ok := inv.each call (List.mem_append_right prior there)
  have total (r : Nat) : (heldBy (prior ++ rest)).count r = (heldBy prior).count r +
      (heldBy rest).count r := by
    rw [heldBy, List.flatMap_append, List.count_append]
    rfl
  cases call with
  | matched known c r =>
    cases known with
    | false => trivial
    | true =>
      have guest := guest_mem (List.mem_append_right prior there) (List.mem_singleton.mpr rfl : c ∈ [c])
      have untouched : c ∉ touched := by
        intro here
        obtain ⟨unowned, alive⟩ := inv.guest_apart guest
        rw [ownedBy, List.flatMap_append, List.mem_append, not_or] at unowned
        rw [deadOf, List.flatMap_append, List.mem_append, not_or] at alive
        rcases touches c here with own | die | lock
        · exact unowned.1 own
        · exact alive.1 die
        · have locks := inv.scp
          have second : 0 < rest.countP Call.holdsScpReqLock := List.countP_pos_iff.mpr ⟨_, there, rfl⟩
          rw [List.countP_append] at locks
          omega
      show h'.ruleOf c ≠ some r
      rw [calm.users c untouched]
      exact ok
  | stopping r =>
    refine ⟨?_, ?_⟩
    · rw [calm.list]
      exact ok.1
    · rw [calm.default]
      exact ok.2
  | unlinked r =>
    show r ∉ h'.thList
    rw [calm.list]
    exact ok
  | built r =>
    obtain ⟨unlisted, single, quiet⟩ := ok
    have mine : 0 < (heldBy rest).count r :=
      List.count_pos_iff.mpr (held_mem there (List.mem_singleton.mpr rfl))
    have sum := total r
    have elsewhere : r ∉ heldBy prior := List.count_eq_zero.mp (by omega)
    refine ⟨?_, ?_, ?_⟩
    · rw [calm.list]
      exact unlisted
    · have untaken : r ∉ heldBy next := by
        intro other
        rcases taken r other with held | listed | freed
        · exact elsewhere held
        · exact unlisted listed
        · exact (inv.rules.gone r freed).2.1 (List.count_pos_iff.mp (by omega))
      rw [heldBy, List.flatMap_append, List.count_append]
      have none : (heldBy next).count r = 0 := List.count_eq_zero.mpr untaken
      change (heldBy next).count r + (heldBy rest).count r = 1
      omega
    · intro rule known
      by_contra on
      rcases calm.flags r rule known (by simpa using on) with flagged | ⟨before, here, stopping⟩
      · exact elsewhere (flags r flagged)
      · rw [quiet before here] at stopping
        exact Bool.noConfusion stopping
  | _ => trivial

theorem Calm.trans {h'' : Head ι κ} {touched flagged touched' flagged' : List Nat}
    (first : Calm h h' touched flagged) (second : Calm h' h'' touched' flagged') :
    Calm h h'' (touched ++ touched') (flagged ++ flagged') where
  list := second.list.trans first.list
  default := second.default.trans first.default
  running := second.running.trans first.running
  names r listed := by
    rw [second.names r (by rwa [first.list]), first.names r listed]
  flags r rule known on := by
    rcases second.flags r rule known on with flagged | ⟨before, there, stopping⟩
    · exact Or.inl (List.mem_append_right _ flagged)
    · rcases first.flags r before there stopping with flagged | earlier
      · exact Or.inl (List.mem_append_left _ flagged)
      · exact Or.inr earlier
  users c untouched := by
    rw [List.mem_append, not_or] at untouched
    rw [second.users c untouched.2, first.users c untouched.1]

theorem calm_clients (rules : h'.rules = h.rules) (list : h'.thList = h.thList)
    (default : h'.thRule = h.thRule) (running : h'.lbug = h.lbug) {touched : List Nat}
    (users : ∀ c, c ∉ touched → h'.ruleOf c = h.ruleOf c) : Calm h h' touched [] where
  list := list
  default := default
  running := running
  names r _ := by rw [Head.nameOf, rules, Head.nameOf]
  flags r rule known on := Or.inr ⟨rule, by rw [← rules, known], on⟩
  users := users

theorem calm_client (h : Head ι κ) (c : Nat) (cli : Option (Client κ)) :
    Calm h (h.setClient c cli) [c] [] := by
  apply calm_clients
  case rules | list | default | running => rfl
  case users =>
    intro d apart
    rw [ruleOf_setClient, if_neg (by simpa using apart)]

theorem calm_rule {r : Nat} {rule : Rule ι} {now : Option (Rule ι)} (known : h.rules r = some rule)
    (same : ∀ other, now = some other → other.trName = rule.trName ∧ other.trStopping = rule.trStopping)
    (freed : now = none → r ∉ h.thList) : Calm h (h.setRule r now) [] [] where
  list := rfl
  default := rfl
  running := rfl
  names q listed := by
    by_cases here : q = r
    · subst here
      cases now with
      | none => exact absurd listed (freed rfl)
      | some other => simp [Head.nameOf, Head.setRule, known, (same other rfl).1]
    · simp [Head.nameOf, Head.setRule, here]
  flags q other there on := by
    by_cases here : q = r
    · subst here
      have now : now = some other := by simpa [Head.setRule] using there
      exact Or.inr ⟨rule, known, (same other now).2.symm.trans on⟩
    · exact Or.inr ⟨other, by simpa [Head.setRule, here] using there, on⟩
  users _ _ := rfl

theorem calm_put {r : Nat} {held : List Nat} (inv : RuleInv h (r :: held)) :
    Calm h (nrsTbfRulePut r h) [] [] := by
  obtain ⟨rule, known, put, -⟩ := rule_put inv
  rw [put]
  apply calm_rule known
  · intro other now
    rw [Rule.less] at now
    split at now
    · exact absurd now.symm (Option.some_ne_none other)
    · rw [Option.some.injEq] at now
      subst now
      exact ⟨rfl, rfl⟩
  · intro freed
    rw [Rule.less] at freed
    split at freed
    · rename_i one
      exact (inv.last known one).2.1
    · exact absurd freed (Option.some_ne_none _)

theorem calm_get {r : Nat} {rule : Rule ι} {held : List Nat} (inv : RuleInv h held)
    (known : h.rules r = some rule) : Calm h (nrsTbfRuleGet r h) [] [] := by
  rw [(rule_get inv known).1]
  apply calm_rule known
  · rintro other ⟨rfl⟩
    exact ⟨rfl, rfl⟩
  · exact fun freed => absurd freed (Option.some_ne_none _)

/-- A step of `prior` that leaves the rule list alone keeps the invariant, when it keeps the
    counts and what is left of it relies on facts. -/
theorem Inv.calm (inv : Inv ops h (prior ++ rest)) {touched flagged : List Nat}
    (calm : Calm h h' touched flagged)
    (touches : ∀ c ∈ touched, c ∈ ownedBy prior ∨ c ∈ deadOf prior ∨
      0 < prior.countP Call.holdsScpReqLock)
    (flags : ∀ r ∈ flagged, r ∈ heldBy prior ∧ r ∉ h.thList)
    (taken : ∀ r ∈ heldBy next, r ∈ heldBy prior ∨ r ∈ h.thList ∨ h.rules r = none)
    (rules : RuleInv h' (heldBy (next ++ rest)))
    (clients : ClientInv ops h' (guestsOf (next ++ rest)) (ownedBy (next ++ rest)) (deadOf (next ++ rest)))
    (room : Room ops h')
    (bare : ∀ c, (h'.refOf c).isSome = true → (h'.ruleOf c = none ↔ c ∈ bareOf (next ++ rest)))
    (mine : ∀ call ∈ next, CallOk h' (heldBy (next ++ rest)) call)
    (scp : next.countP Call.holdsScpReqLock + rest.countP Call.holdsScpReqLock ≤ 1)
    (nrs : next.countP Call.holdsNrsLock + rest.countP Call.holdsNrsLock ≤ 1) :
    Inv ops h' (next ++ rest) where
  rules := rules
  clients := clients
  room := room
  list := calm.list_inv inv.list fun r flagged => (flags r flagged).2
  bare := bare
  each call there := by
    rcases List.mem_append.mp there with new | old
    · exact mine call new
    · exact calm.others inv touches (fun r flagged => (flags r flagged).1) taken call old
  scp := by rwa [List.countP_append]
  nrs := by rwa [List.countP_append]
  running := calm.running.trans inv.running

theorem Inv.same_bare (inv : Inv ops h (prior ++ rest)) (refs : ∀ c, (h'.refOf c).isSome = (h.refOf c).isSome)
    (users : ∀ c, h'.ruleOf c = h.ruleOf c) (before : bareOf prior = []) (after : bareOf next = []) :
    ∀ c, (h'.refOf c).isSome = true → (h'.ruleOf c = none ↔ c ∈ bareOf (next ++ rest)) := by
  intro c live
  have known := inv.bare c (by rw [← refs, live])
  rw [users, known, bareOf, bareOf, List.flatMap_append, List.flatMap_append]
  change c ∈ bareOf prior ++ bareOf rest ↔ c ∈ bareOf next ++ bareOf rest
  rw [before, after]

theorem Inv.locks (inv : Inv ops h (prior ++ rest)) :
    prior.countP Call.holdsScpReqLock + rest.countP Call.holdsScpReqLock ≤ 1 ∧
      prior.countP Call.holdsNrsLock + rest.countP Call.holdsNrsLock ≤ 1 := by
  have scp := inv.scp
  have nrs := inv.nrs
  rw [List.countP_append] at scp nrs
  exact ⟨scp, nrs⟩

end Calls

section Parts
variable {ι κ : Type} {ops : Ops ι κ} {h h' : Head ι κ} {held : List Nat}

/-- The walk along the list never trips over a stopping or a freed rule, and ends at the first rule
    that is asked for. -/
theorem scan_spec (asked : Rule ι → Bool) {list : List Nat}
    (live : ∀ r ∈ list, ∃ rule, h.rules r = some rule ∧ rule.trStopping = false) :
    ∃ found, scan h asked list = some found ∧
      (∀ r, found = some r → r ∈ list ∧ ∃ rule, h.rules r = some rule ∧ asked rule = true) ∧
      (found = none → ∀ r ∈ list, ∀ rule, h.rules r = some rule → asked rule = false) := by
  induction list with
  | nil => exact ⟨none, rfl, by simp, by simp⟩
  | cons q list ih =>
    obtain ⟨rule, known, quiet⟩ := live q List.mem_cons_self
    obtain ⟨found, scanned, hit, miss⟩ := ih fun r there => live r (List.mem_cons_of_mem q there)
    rw [scan, known]
    simp only [quiet, Bool.false_eq_true, ↓reduceIte]
    by_cases wanted : asked rule = true
    · refine ⟨some q, by rw [if_pos wanted], ?_, ?_⟩
      · rintro r ⟨rfl⟩
        exact ⟨List.mem_cons_self, rule, known, wanted⟩
      · exact fun none => absurd none (Option.some_ne_none q)
    · refine ⟨found, by rw [if_neg wanted, scanned], ?_, ?_⟩
      · intro r is
        exact ⟨List.mem_cons_of_mem q (hit r is).1, (hit r is).2⟩
      · intro none r there other known'
        rcases List.mem_cons.mp there with rfl | there
        · rw [known, Option.some.injEq] at known'
          subst known'
          simpa using wanted
        · exact miss none r there other known'

theorem listed_live (inv : RuleInv h held) (list : ListInv h) :
    ∀ r ∈ h.thList, ∃ rule, h.rules r = some rule ∧ rule.trStopping = false := by
  intro r listed
  obtain ⟨rule, known⟩ := inv.listed listed
  exact ⟨rule, known, list.quiet r listed rule known⟩

theorem match_listed (ops : Ops ι κ) (inv : RuleInv h held) (list : ListInv h) (key : κ) :
    ∃ r, nrsTbfRuleMatch ops h key = some r ∧ r ∈ h.thList := by
  obtain ⟨found, scanned, hit, -⟩ :=
    scan_spec (fun rule => ops.oRuleMatch rule.trIds key) (listed_live inv list)
  refine ⟨found.getD h.thRule, by rw [nrsTbfRuleMatch, scanned, Option.map_some], ?_⟩
  cases found with
  | none => exact list.default
  | some r => exact (hit r rfl).1

theorem find_spec (inv : RuleInv h held) (list : ListInv h) (name : List Char) :
    ∃ found, nrsTbfRuleFindNolock h name = some found ∧
      (∀ r, found = some r → r ∈ h.thList ∧ h.nameOf r = some name) ∧
      (found = none → ∀ r ∈ h.thList, h.nameOf r ≠ some name) := by
  obtain ⟨found, scanned, hit, miss⟩ :=
    scan_spec (fun rule => decide (rule.trName = name)) (listed_live inv list)
  refine ⟨found, scanned, ?_, ?_⟩
  · intro r is
    obtain ⟨listed, rule, known, same⟩ := hit r is
    refine ⟨listed, ?_⟩
    rw [Head.nameOf, known, Option.map_some]
    simpa using same
  · intro none r listed same
    obtain ⟨rule, known⟩ := inv.listed listed
    rw [Head.nameOf, known, Option.map_some, Option.some.injEq] at same
    have apart := miss none r listed rule known
    simp [same] at apart

theorem cli_rule_put (inv : RuleInv h held) {c r : Nat} {cli : Client κ} (there : h.clients c = some cli)
    (user : cli.tcRule = some r) :
    (∃ rules, nrsTbfCliRulePut c h =
      { h with rules := rules, clients := Function.update h.clients c (some { cli with tcRule := none }) }) ∧
    RuleInv (nrsTbfCliRulePut c h) held ∧ Calm h (nrsTbfCliRulePut c h) [c] [] := by
  obtain ⟨rule, known, unlinked, middle⟩ := inv.unlink there user
  have put : nrsTbfCliRulePut c h = nrsTbfRulePut r (unlinkClient c r cli h) := by
    rw [nrsTbfCliRulePut, there]
    dsimp only
    rw [user]
  obtain ⟨rule', -, last, after⟩ := rule_put middle
  refine ⟨?_, ?_, ?_⟩
  · refine ⟨(nrsTbfCliRulePut c h).rules, ?_⟩
    rw [put, last, unlinked]
    rfl
  · rw [put]
    exact after
  · rw [put]
    have first : Calm h (unlinkClient c r cli h) [c] [] := by
      rw [unlinked]
      have one : Calm h (h.setRule r (some { rule with trCliList := rule.trCliList.erase c })) [] [] := by
        apply calm_rule known
        · rintro other ⟨rfl⟩
          exact ⟨rfl, rfl⟩
        · exact fun freed => absurd freed (Option.some_ne_none _)
      exact one.trans (calm_client _ c _)
    exact first.trans (calm_put middle)

theorem cli_link {c r : Nat} (inv : RuleInv h (r :: held)) {cli : Client κ} (there : h.clients c = some cli)
    (free : cli.tcRule = none) :
    (∃ rules, linkClient c r h =
      { h with rules := rules, clients := Function.update h.clients c (some {
        cli with tcRule := some r }) }) ∧
    RuleInv (linkClient c r h) held ∧ Calm h (linkClient c r h) [c] [] := by
  obtain ⟨rule, known, linked, after⟩ := inv.link there free
  refine ⟨?_, after, ?_⟩
  · refine ⟨(linkClient c r h).rules, ?_⟩
    rw [linked]
    rfl
  · rw [linked]
    have one : Calm h (h.setRule r (some { rule with trCliList := rule.trCliList ++ [c] })) [] [] := by
      apply calm_rule known
      · rintro other ⟨rfl⟩
        exact ⟨rfl, rfl⟩
      · exact fun freed => absurd freed (Option.some_ne_none _)
    exact one.trans (calm_client _ c _)

theorem cli_reset {c r : Nat} (inv : RuleInv h (r :: held)) {cli : Client κ} (there : h.clients c = some cli)
    (other : cli.tcRule ≠ some r) :
    (∃ rules, nrsTbfCliReset c r h =
      { h with rules := rules, clients := Function.update h.clients c (some {
        cli with tcRule := some r }) }) ∧
    RuleInv (nrsTbfCliReset c r h) held ∧
    ∃ touched, (∀ d ∈ touched, d = c) ∧ Calm h (nrsTbfCliReset c r h) touched [] := by
  rw [nrsTbfCliReset, there]
  dsimp only
  cases user : cli.tcRule with
  | none =>
    obtain ⟨form, after, calm⟩ := cli_link inv there user
    exact ⟨form, after, [c], fun d here => List.mem_singleton.mp here, calm⟩
  | some old =>
    have apart : r ≠ old := by
      rintro rfl
      exact other user
    dsimp only
    rw [if_neg apart]
    obtain ⟨⟨rules, form⟩, middle, calm⟩ := cli_rule_put inv there user
    have between : (nrsTbfCliRulePut c h).clients c = some { cli with tcRule := none } := by
      rw [form]
      exact Function.update_self _ _ _
    obtain ⟨⟨rules', form'⟩, after, calm'⟩ := cli_link middle between rfl
    refine ⟨⟨rules', ?_⟩, after, [c] ++ [c], ?_, calm.trans calm'⟩
    · rw [form', form]
      simp only [Function.update_idem]
    · intro d here
      simpa using here

theorem cli_fini (inv : RuleInv h held) {c r : Nat} {cli : Client κ} (there : h.clients c = some cli)
    (user : cli.tcRule = some r) (zero : cli.tcRef = 0) :
    (∃ rules, nrsTbfCliFini c h = { h with rules := rules, clients := Function.update h.clients c none }) ∧
    RuleInv (nrsTbfCliFini c h) held ∧
    ∃ touched, (∀ d ∈ touched, d = c) ∧ Calm h (nrsTbfCliFini c h) touched [] := by
  obtain ⟨⟨rules, form⟩, after, calm⟩ := cli_rule_put inv there user
  have fini : nrsTbfCliFini c h = (nrsTbfCliRulePut c h).setClient c none := by
    rw [nrsTbfCliFini, there]
    dsimp only
    rw [if_pos zero]
  have between : (nrsTbfCliRulePut c h).ruleOf c = none := by
    rw [form]
    simp [Head.ruleOf]
  rw [fini]
  refine ⟨⟨rules, ?_⟩, ?_, [c] ++ [c], ?_, calm.trans (calm_client _ c none)⟩
  · rw [form]
    simp [Head.setClient]
  · refine after.congr rfl rfl rfl ?_
    intro d
    rw [ruleOf_setClient]
    split
    · rename_i here
      rw [here, between]
      rfl
    · rfl
  · intro d here
    simpa using here

theorem ClientInv.edit {guests owned dead : List Nat} (inv : ClientInv ops h guests owned dead) {c : Nat}
    {cli other : Client κ} (there : h.clients c = some cli) (key : other.tcKey = cli.tcKey)
    (ref : other.tcRef = cli.tcRef) (client : h'.clients = Function.update h.clients c (some other))
    (hash : h'.thCliHash = h.thCliHash) (lru : h'.ntbLru = h.ntbLru) (next : h'.nextClient = h.nextClient) :
    ClientInv ops h' guests owned dead := by
  apply inv.congr _ _ hash lru next
  · intro d
    rw [Head.keyOf, client]
    by_cases here : d = c
    · subst here
      simp [Head.keyOf, there, key]
    · simp [Head.keyOf, here]
  · intro d
    rw [Head.refOf, client]
    by_cases here : d = c
    · subst here
      simp [Head.refOf, there, ref]
    · simp [Head.refOf, here]

end Parts

end TbfRules
