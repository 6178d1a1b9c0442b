import LustreTools.Tbf.RuleCalls

/-!
The parts of the calls, one lemma for each: what the call does next keeps the counters, the places of
the clients and the rule list as the invariant wants them.
-/
namespace TbfRules
open Words TbfPolicy

section Steps
variable {ι κ : Type} {ops : Ops ι κ} {h h' : Head ι κ} {prior next rest : List (Call ι κ)}

theorem bags_append (f : Call ι κ → List Nat) {a b : List (Call ι κ)} (same : a.flatMap f = b.flatMap f)
    (rest : List (Call ι κ)) : (a ++ rest).flatMap f = (b ++ rest).flatMap f := by
  rw [List.flatMap_append, List.flatMap_append, same]

theorem Inv.shift (inv : Inv ops h (prior ++ rest)) (held : heldBy next = heldBy prior)
    (guests : guestsOf next = guestsOf prior) (owned : ownedBy next = ownedBy prior)
    (dead : deadOf next = deadOf prior) (bare : bareOf next = bareOf prior)
    (mine : ∀ call ∈ next, CallOk h (heldBy (next ++ rest)) call)
    (scp : next.countP Call.holdsScpReqLock + rest.countP Call.holdsScpReqLock ≤ 1)
    (nrs : next.countP Call.holdsNrsLock + rest.countP Call.holdsNrsLock ≤ 1) :
    Inv ops h (next ++ rest) := by
  have calm : Calm h h [] [] := calm_clients rfl rfl rfl rfl fun _ _ => rfl
  apply inv.calm calm
  case touches => simp
  case flags => simp
  case taken =>
    rw [held]
    exact fun r there => Or.inl there
  case rules =>
    rw [show heldBy (next ++ rest) = heldBy (prior ++ rest) from bags_append _ held rest]
    exact inv.rules
  case clients =>
    rw [show guestsOf (next ++ rest) = guestsOf (prior ++ rest) from bags_append _ guests rest,
      show ownedBy (next ++ rest) = ownedBy (prior ++ rest) from bags_append _ owned rest,
      show deadOf (next ++ rest) = deadOf (prior ++ rest) from bags_append _ dead rest]
    exact inv.clients
  case room => exact inv.room
  case bare =>
    rw [show bareOf (next ++ rest) = bareOf (prior ++ rest) from bags_append _ bare rest]
    exact inv.bare
  case mine => exact mine
  case scp => exact scp
  case nrs => exact nrs

theorem Inv.rules_only (inv : Inv ops h (prior ++ rest)) (calm : Calm h h' [] [])
    (rules : RuleInv h' (heldBy (next ++ rest))) (clients : h'.clients = h.clients)
    (hash : h'.thCliHash = h.thCliHash) (lru : h'.ntbLru = h.ntbLru) (fresh : h'.nextClient = h.nextClient)
    (taken : ∀ r ∈ heldBy next, r ∈ heldBy prior ∨ r ∈ h.thList ∨ h.rules r = none)
    (guests : guestsOf next = guestsOf prior) (owned : ownedBy next = ownedBy prior)
    (dead : deadOf next = deadOf prior) (before : bareOf prior = []) (after : bareOf next = [])
    (mine : ∀ call ∈ next, CallOk h' (heldBy (next ++ rest)) call)
    (scp : next.countP Call.holdsScpReqLock + rest.countP Call.holdsScpReqLock ≤ 1)
    (nrs : next.countP Call.holdsNrsLock + rest.countP Call.holdsNrsLock ≤ 1) :
    Inv ops h' (next ++ rest) := by
  have refs (c : Nat) : h'.refOf c = h.refOf c := by rw [Head.refOf, clients, Head.refOf]
  apply inv.calm calm
  case touches => simp
  case flags => simp
  case taken => exact taken
  case rules => exact rules
  case clients =>
    rw [show guestsOf (next ++ rest) = guestsOf (prior ++ rest) from bags_append _ guests rest,
      show ownedBy (next ++ rest) = ownedBy (prior ++ rest) from bags_append _ owned rest,
      show deadOf (next ++ rest) = deadOf (prior ++ rest) from bags_append _ dead rest]
    apply inv.clients.congr _ refs hash lru fresh
    exact fun c => by rw [Head.keyOf, clients, Head.keyOf]
  case room =>
    intro b
    rw [lru]
    exact inv.room b
  case bare =>
    apply inv.same_bare (fun c => by rw [refs]) _ before after
    exact fun c => by rw [Head.ruleOf, clients, Head.ruleOf]
  case mine => exact mine
  case scp => exact scp
  case nrs => exact nrs

theorem Inv.put {r : Nat} {call : Call ι κ} (inv : Inv ops h (prior ++ rest))
    (held : heldBy (prior ++ rest) = r :: heldBy ([call] ++ rest))
    (less : ∀ q ∈ call.held, q ∈ heldBy prior)
    (guests : guestsOf [call] = guestsOf prior) (owned : ownedBy [call] = ownedBy prior)
    (dead : deadOf [call] = deadOf prior) (before : bareOf prior = []) (after : bareOf [call] = [])
    (mine : ∀ h' : Head ι κ, CallOk h' (heldBy ([call] ++ rest)) call)
    (scp : [call].countP Call.holdsScpReqLock + rest.countP Call.holdsScpReqLock ≤ 1)
    (nrs : [call].countP Call.holdsNrsLock + rest.countP Call.holdsNrsLock ≤ 1) :
    Inv ops (nrsTbfRulePut r h) ([call] ++ rest) := by
  have rules := inv.rules
  rw [held] at rules
  obtain ⟨rule, known, put, kept⟩ := rule_put rules
  apply inv.rules_only (calm_put rules) kept
  case clients | hash | lru | fresh =>
    rw [put]
    rfl
  case taken =>
    intro q there
    exact Or.inl (less q (by simpa [heldBy] using there))
  case guests => exact guests
  case owned => exact owned
  case dead => exact dead
  case before => exact before
  case after => exact after
  case mine =>
    intro other there
    rw [List.mem_singleton.mp there]
    exact mine _
  case scp => exact scp
  case nrs => exact nrs

theorem keeps_dropping {nrsLock : Bool} {r : Nat} {rs : List Nat} {rc : Int}
    (inv : Inv ops h ([.dropping nrsLock (r :: rs) rc] ++ rest)) :
    Inv ops (nrsTbfRulePut r h) ([.dropping nrsLock rs rc] ++ rest) := by
  have locks := inv.locks
  apply inv.put
  case held => rfl
  case less =>
    intro q there
    exact List.mem_append_left _ (List.mem_cons_of_mem r there)
  case guests | owned | dead | before | after => rfl
  case mine => exact fun _ => trivial
  case scp => exact locks.1
  case nrs => cases nrsLock <;> exact locks.2

theorem keeps_same {c r : Nat} (inv : Inv ops h ([.same c r] ++ rest)) :
    Inv ops (nrsTbfRulePut r h) ([.serving c] ++ rest) := by
  have locks := inv.locks
  apply inv.put
  case held | guests | owned | dead | before | after => rfl
  case less => exact fun q there => absurd there List.not_mem_nil
  case mine => exact fun _ => trivial
  case scp => exact le_trans (Nat.add_le_add_right (Nat.zero_le 1) _) locks.1
  case nrs => exact locks.2

theorem Inv.get {r : Nat} {call : Call ι κ} (inv : Inv ops h (prior ++ rest)) (listed : r ∈ h.thList)
    (held : heldBy ([call] ++ rest) = r :: heldBy (prior ++ rest))
    (more : ∀ q ∈ call.held, q = r ∨ q ∈ heldBy prior)
    (guests : guestsOf [call] = guestsOf prior) (owned : ownedBy [call] = ownedBy prior)
    (dead : deadOf [call] = deadOf prior) (before : bareOf prior = []) (after : bareOf [call] = [])
    (mine : CallOk (nrsTbfRuleGet r h) (heldBy ([call] ++ rest)) call)
    (scp : [call].countP Call.holdsScpReqLock + rest.countP Call.holdsScpReqLock ≤ 1)
    (nrs : [call].countP Call.holdsNrsLock + rest.countP Call.holdsNrsLock ≤ 1) :
    Inv ops (nrsTbfRuleGet r h) ([call] ++ rest) := by
  obtain ⟨rule, known⟩ := inv.rules.listed listed
  obtain ⟨get, kept⟩ := rule_get inv.rules known
  apply inv.rules_only (calm_get inv.rules known)
  case rules =>
    rw [held]
    exact kept
  case clients | hash | lru | fresh =>
    rw [get]
    rfl
  case taken =>
    intro q there
    rcases more q (by simpa [heldBy] using there) with here | before
    · exact Or.inr (Or.inl (here ▸ listed))
    · exact Or.inl before
  case guests => exact guests
  case owned => exact owned
  case dead => exact dead
  case before => exact before
  case after => exact after
  case mine =>
    intro other there
    rw [List.mem_singleton.mp there]
    exact mine
  case scp => exact scp
  case nrs => exact nrs

theorem ruleOf_get (r : Nat) (h : Head ι κ) (c : Nat) : (nrsTbfRuleGet r h).ruleOf c = h.ruleOf c := by
  unfold nrsTbfRuleGet
  split <;> rfl

theorem Inv.ruled (inv : Inv ops h prior) {c : Nat} {cli : Client κ} (there : h.clients c = some cli)
    (clad : c ∉ bareOf prior) : ∃ r rule, cli.tcRule = some r ∧ h.rules r = some rule := by
  have bare := inv.bare c (by rw [Head.refOf, there]; rfl)
  have user : h.ruleOf c = cli.tcRule := by rw [Head.ruleOf, there, Option.bind_some]
  cases uses : cli.tcRule with
  | none => exact absurd (bare.mp (user.trans uses)) clad
  | some r =>
    obtain ⟨rule, known⟩ := inv.rules.user (user.trans uses)
    exact ⟨r, rule, rfl, known⟩

theorem bare_owned {calls : List (Call ι κ)} {c : Nat} (bare : c ∈ bareOf calls) : c ∈ ownedBy calls := by
  obtain ⟨call, there, mine⟩ := List.mem_flatMap.mp bare
  refine List.mem_flatMap.mpr ⟨call, there, ?_⟩
  cases call with
  | matched known d r => cases known <;> exact mine
  | _ => exact absurd mine List.not_mem_nil

theorem Inv.guest (inv : Inv ops h prior) {c : Nat} (guest : c ∈ guestsOf prior) :
    ∃ cli r rule, h.clients c = some cli ∧ cli.tcRule = some r ∧ h.rules r = some rule := by
  obtain ⟨cli, there⟩ := inv.clients.live_hashed (inv.clients.hashed c guest)
  obtain ⟨r, rule, user, known⟩ := inv.ruled there fun bare => (inv.guest_apart guest).1 (bare_owned bare)
  exact ⟨cli, r, rule, there, user, known⟩

theorem keeps_rematched {c r q : Nat} {cli : Client κ} (inv : Inv ops h ([.found c] ++ rest))
    (unlocked : rest.countP Call.holdsScpReqLock = 0) (there : h.clients c = some cli)
    (user : cli.tcRule = some r)
    (listed : q ∈ h.thList) :
    Inv ops (nrsTbfRuleGet q h) ([if q = r then .same c q else .matched true c q] ++ rest) := by
  have locks := inv.locks
  by_cases here : q = r
  · rw [if_pos here]
    apply inv.get listed
    case held | guests | owned | dead | before | after => rfl
    case more => exact fun p there => Or.inl (List.mem_singleton.mp there)
    case mine => trivial
    case scp => exact le_of_eq (congrArg (1 + ·) unlocked)
    case nrs => exact locks.2
  · rw [if_neg here]
    apply inv.get listed
    case held | guests | owned | dead | before | after => rfl
    case more => exact fun p there => Or.inl (List.mem_singleton.mp there)
    case mine =>
      show (nrsTbfRuleGet q h).ruleOf c ≠ some q
      rw [ruleOf_get, Head.ruleOf, there, Option.bind_some, user]
      exact fun same => here (Option.some.inj same).symm
    case scp => exact le_of_eq (congrArg (1 + ·) unlocked)
    case nrs => exact locks.2

theorem keeps_found {c : Nat} (inv : Inv ops h ([.found c] ++ rest))
    (unlocked : rest.countP Call.holdsScpReqLock = 0) :
    Inv ops (checkRule ops c h).1 ((checkRule ops c h).2 ++ rest) := by
  have locks := inv.locks
  obtain ⟨cli, r, rule, there, user, known⟩ := inv.guest (List.mem_cons_self : c ∈ c :: guestsOf rest)
  unfold checkRule
  rw [there]
  dsimp only
  rw [user]
  dsimp only
  rw [known]
  dsimp only
  split
  · obtain ⟨q, matched, listed⟩ := match_listed ops inv.rules inv.list cli.tcKey
    rw [matched]
    exact keeps_rematched inv unlocked there user listed
  · split
    · apply inv.shift
      case held | guests | owned | dead | bare => rfl
      case mine => simp [CallOk]
      case scp => exact le_of_eq (congrArg (1 + ·) unlocked)
      case nrs => exact locks.2
    · apply inv.shift
      case held | guests | owned | dead | bare => rfl
      case mine => simp [CallOk]
      case scp => exact locks.1
      case nrs => exact locks.2

theorem Inv.owned_once (inv : Inv ops h prior) {c : Nat} (owned : c ∈ ownedBy prior) :
    (∃ cli, h.clients c = some cli) ∧ (ownedBy prior).count c = 1 ∧ c ∉ h.thCliHash ∧ c ∉ deadOf prior := by
  have count := List.count_pos_iff.mpr owned
  obtain ⟨cli, there⟩ := inv.clients.live (c := c) (by omega)
  have place := inv.clients.one_place there
  refine ⟨⟨cli, there⟩, by omega, ?_, ?_⟩
  · exact List.count_eq_zero.mp (by omega)
  · exact List.count_eq_zero.mp (by omega)

theorem Inv.matched_client {known : Bool} {c r : Nat} (inv : Inv ops h ([.matched known c r] ++ rest)) :
    ∃ cli, h.clients c = some cli ∧ cli.tcRule ≠ some r ∧ c ∉ bareOf rest := by
  have live : ∃ cli, h.clients c = some cli := by
    cases known with
    | true =>
      obtain ⟨cli, -, -, there, -⟩ := inv.guest (List.mem_cons_self : c ∈ c :: guestsOf rest)
      exact ⟨cli, there⟩
    | false => exact (inv.owned_once (List.mem_cons_self : c ∈ c :: ownedBy rest)).1
  obtain ⟨cli, there⟩ := live
  have user : h.ruleOf c = cli.tcRule := by rw [Head.ruleOf, there, Option.bind_some]
  have alive : (h.refOf c).isSome = true := by rw [Head.refOf, there]; rfl
  refine ⟨cli, there, ?_, ?_⟩
  · rw [← user]
    cases known with
    | true => exact inv.each _ List.mem_cons_self
    | false =>
      rw [(inv.bare c alive).mpr (List.mem_cons_self : c ∈ c :: bareOf rest)]
      exact fun none => Option.some_ne_none r none.symm
  · intro bare
    have other := bare_owned bare
    cases known with
    | true => exact (inv.guest_apart (List.mem_cons_self : c ∈ c :: guestsOf rest)).1 other
    | false =>
      have once := (inv.owned_once (List.mem_cons_self : c ∈ c :: ownedBy rest)).2.1
      change (c :: ownedBy rest).count c = 1 at once
      have second := List.count_pos_iff.mpr other
      rw [List.count_cons_self] at once
      omega

theorem keeps_matched {known : Bool} {c r : Nat} (inv : Inv ops h ([.matched known c r] ++ rest)) :
    Inv ops (nrsTbfCliReset c r h) ([.linked known c] ++ rest) := by
  have locks := inv.locks
  obtain ⟨cli, there, apart, clad⟩ := inv.matched_client
  obtain ⟨⟨rules, form⟩, kept, touched, only, calm⟩ := cli_reset inv.rules there apart
  apply inv.calm calm
  case touches =>
    intro d here
    rw [only d here]
    cases known with
    | true => exact Or.inr (Or.inr Nat.one_pos)
    | false => exact Or.inl List.mem_cons_self
  case flags => simp
  case taken => exact fun q there => absurd there List.not_mem_nil
  case rules => exact kept
  case clients =>
    have after : ClientInv ops (nrsTbfCliReset c r h) (guestsOf ([.matched known c r] ++ rest))
        (ownedBy ([.matched known c r] ++ rest)) (deadOf ([.matched known c r] ++ rest)) := by
      apply inv.clients.edit there
      case client =>
        rw [form]
      case key | ref => rfl
      case hash | lru | next => rw [form]
    cases known <;> exact after
  case room =>
    rw [form]
    exact inv.room
  case bare =>
    intro d living
    have same : bareOf ([.linked known c] ++ rest) = bareOf rest := rfl
    rw [same]
    by_cases here : d = c
    · subst here
      refine iff_of_false ?_ clad
      rw [form]
      simp [Head.ruleOf]
    · have before := inv.bare d (by
        rw [form] at living
        simpa [Head.refOf, here] using living)
      rw [calm.users d fun touch => here (only d touch), before]
      cases known with
      | true => exact Iff.rfl
      | false => exact List.mem_cons.trans (or_iff_right here)
  case mine => simp [CallOk]
  case scp => cases known <;> exact locks.1
  case nrs => exact locks.2

theorem Inv.linked_client {known : Bool} {c : Nat} (inv : Inv ops h ([.linked known c] ++ rest)) :
    ∃ cli r rule, h.clients c = some cli ∧ cli.tcRule = some r ∧ h.rules r = some rule := by
  cases known with
  | true => exact inv.guest (List.mem_cons_self : c ∈ c :: guestsOf rest)
  | false =>
    obtain ⟨⟨cli, there⟩, once, -, -⟩ := inv.owned_once (List.mem_cons_self : c ∈ c :: ownedBy rest)
    obtain ⟨r, rule, user, found⟩ := inv.ruled there fun bare => by
      have second := List.count_pos_iff.mpr (bare_owned (show c ∈ bareOf rest from bare))
      change (c :: ownedBy rest).count c = 1 at once
      rw [List.count_cons_self] at once
      omega
    exact ⟨cli, r, rule, there, user, found⟩

theorem reset_value_eq {c r : Nat} {cli : Client κ} {rule : Rule ι} (there : h.clients c = some cli)
    (user : cli.tcRule = some r) (found : h.rules r = some rule) :
    nrsTbfCliResetValue c h = h.setClient c (some (resetValue cli rule h.thRuleSequence)) := by
  rw [nrsTbfCliResetValue, there]
  dsimp only
  rw [user]
  dsimp only
  rw [found]

theorem keeps_linked {known : Bool} {c : Nat} (inv : Inv ops h ([.linked known c] ++ rest)) :
    Inv ops (nrsTbfCliResetValue c h) ([if known then .serving c else .made c] ++ rest) := by
  have locks := inv.locks
  obtain ⟨cli, r, rule, there, user, found⟩ := inv.linked_client
  rw [reset_value_eq there user found]
  have users (d : Nat) :
      (h.setClient c (some (resetValue cli rule h.thRuleSequence))).ruleOf d = h.ruleOf d := by
    rw [ruleOf_setClient]
    split
    · rename_i here
      rw [here, Head.ruleOf, there]
      rfl
    · rfl
  have refs (d : Nat) :
      (h.setClient c (some (resetValue cli rule h.thRuleSequence))).refOf d = h.refOf d := by
    rw [refOf_setClient]
    split
    · rename_i here
      rw [here, Head.refOf, there]
      rfl
    · rfl
  have calm : Calm h (h.setClient c (some (resetValue cli rule h.thRuleSequence))) [] [] := by
    apply calm_clients
    case rules | list | default | running => rfl
    case users => exact fun d _ => users d
  apply inv.calm calm
  case touches => simp
  case flags => simp
  case taken => cases known <;> exact fun q there => absurd there List.not_mem_nil
  case rules =>
    have after : RuleInv (h.setClient c (some (resetValue cli rule h.thRuleSequence)))
        (heldBy ([.linked known c] ++ rest)) := by
      apply inv.rules.congr
      case rules | list | next => rfl
      case ruleOf => exact users
    cases known <;> exact after
  case clients =>
    have after : ClientInv ops (h.setClient c (some (resetValue cli rule h.thRuleSequence)))
        (guestsOf ([.linked known c] ++ rest)) (ownedBy ([.linked known c] ++ rest))
        (deadOf ([.linked known c] ++ rest)) := by
      apply inv.clients.edit there
      case client => exact rfl
      case key | ref | hash | lru | next => rfl
    cases known <;> exact after
  case room => exact inv.room
  case bare =>
    apply inv.same_bare (fun d => by rw [refs]) users
    · rfl
    · cases known <;> rfl
  case mine => cases known <;> simp [CallOk]
  case scp =>
    cases known with
    | true => exact le_trans (Nat.add_le_add_right (Nat.zero_le 1) _) locks.1
    | false => exact locks.1
  case nrs => cases known <;> exact locks.2

theorem keeps_absent {key : κ} {r : Nat} (inv : Inv ops h ([.absent key] ++ rest)) (listed : r ∈ h.thList) :
    Inv ops (nrsTbfRuleGet r (h.addClient key)) ([.matched false h.nextClient r] ++ rest) := by
  have locks := inv.locks
  have unborn : h.clients h.nextClient = none := by
    have freed := inv.clients.unborn h.nextClient (le_refl _)
    rwa [Head.refOf, Option.map_eq_none_iff] at freed
  have users (d : Nat) : (h.addClient key).ruleOf d = h.ruleOf d := by
    show (h.setClient h.nextClient (some (newClient key))).ruleOf d = h.ruleOf d
    rw [ruleOf_setClient]
    split
    · rename_i here
      rw [here, Head.ruleOf, unborn]
      rfl
    · rfl
  have added : RuleInv (h.addClient key) (heldBy ([.absent key] ++ rest)) := by
    apply inv.rules.congr
    case rules | list | next => rfl
    case ruleOf => exact users
  obtain ⟨rule, known⟩ := added.listed listed
  obtain ⟨get, kept⟩ := rule_get added known
  have calm : Calm h (h.addClient key) [] [] := by
    apply calm_clients
    case rules | list | default | running => rfl
    case users => exact fun d _ => users d
  apply inv.calm (calm.trans (calm_get added known))
  case touches => simp
  case flags => simp
  case taken =>
    intro q there
    rw [List.mem_singleton.mp (show q ∈ [r] from there)]
    exact Or.inr (Or.inl listed)
  case rules => exact kept
  case clients =>
    apply (inv.clients.add key).congr
    case keys | refs =>
      intro d
      rw [get]
      rfl
    case hash | lru | next =>
      rw [get]
      rfl
  case room =>
    rw [get]
    exact inv.room
  case bare =>
    intro d living
    rw [ruleOf_get, users]
    change _ ↔ d ∈ h.nextClient :: bareOf rest
    by_cases here : d = h.nextClient
    · subst here
      rw [Head.ruleOf, unborn]
      simp
    · rw [get] at living
      have before := inv.bare d (by
        change ((h.setClient h.nextClient (some (newClient key))).refOf d).isSome = true at living
        rwa [refOf_setClient, if_neg here] at living)
      rw [before, List.mem_cons, or_iff_right here]
      exact Iff.rfl
  case mine => simp [CallOk]
  case scp => exact locks.1
  case nrs => exact locks.2

theorem keyOf_peek [DecidableEq κ] {key : κ} {c : Nat} (found : h.cliPeek key = some c) :
    c ∈ h.thCliHash ∧ h.keyOf c = some key := by
  rw [Head.cliPeek] at found
  exact ⟨List.mem_of_find?_eq_some found, by simpa using List.find?_some found⟩

theorem ruleOf_taken {c : Nat} {cli : Client κ} (there : h.clients c = some cli) (d : Nat) :
    (taken ops h c cli).ruleOf d = h.ruleOf d := by
  show (h.setClient c (some { cli with tcRef := cli.tcRef + 1 })).ruleOf d = _
  rw [ruleOf_setClient]
  split
  · rename_i here
    rw [here, Head.ruleOf, there]
    rfl
  · rfl

theorem refOf_taken {c : Nat} {cli : Client κ} (there : h.clients c = some cli) (d : Nat) :
    ((taken ops h c cli).refOf d).isSome = (h.refOf d).isSome := by
  show ((h.setClient c (some { cli with tcRef := cli.tcRef + 1 })).refOf d).isSome = _
  rw [refOf_setClient]
  split
  · rename_i here
    rw [here, Head.refOf, there]
    rfl
  · rfl

theorem Inv.take {c : Nat} {call : Call ι κ} (inv : Inv ops h (prior ++ rest)) (hashed : c ∈ h.thCliHash)
    (held : heldBy [call] = heldBy prior) (guests : guestsOf ([call] ++ rest) = c :: guestsOf (prior ++ rest))
    (owned : ownedBy [call] = ownedBy prior) (dead : deadOf [call] = deadOf prior)
    (before : bareOf prior = []) (after : bareOf [call] = [])
    (mine : ∀ h' : Head ι κ, CallOk h' (heldBy ([call] ++ rest)) call)
    (scp : [call].countP Call.holdsScpReqLock + rest.countP Call.holdsScpReqLock ≤ 1)
    (nrs : [call].countP Call.holdsNrsLock + rest.countP Call.holdsNrsLock ≤ 1) :
    Inv ops (takeClient ops c h) ([call] ++ rest) := by
  obtain ⟨cli, there⟩ := inv.clients.live_hashed hashed
  rw [take_eq there]
  have calm : Calm h (taken ops h c cli) [] [] := by
    apply calm_clients
    case rules | list | default | running => rfl
    case users => exact fun d _ => ruleOf_taken there d
  apply inv.calm calm
  case touches => simp
  case flags => simp
  case taken =>
    rw [held]
    exact fun r there => Or.inl there
  case rules =>
    rw [show heldBy ([call] ++ rest) = heldBy (prior ++ rest) from bags_append _ held rest]
    apply inv.rules.congr
    case rules | list | next => rfl
    case ruleOf => exact ruleOf_taken there
  case clients =>
    rw [guests, show ownedBy ([call] ++ rest) = ownedBy (prior ++ rest) from bags_append _ owned rest,
      show deadOf ([call] ++ rest) = deadOf (prior ++ rest) from bags_append _ dead rest]
    exact inv.clients.take there hashed
  case room => exact inv.room.take c cli
  case bare => exact inv.same_bare (refOf_taken there) (ruleOf_taken there) before after
  case mine =>
    intro other here
    rw [List.mem_singleton.mp here]
    exact mine _
  case scp => exact scp
  case nrs => exact nrs

theorem keeps_made [DecidableEq κ] {c : Nat} (inv : Inv ops h ([.made c] ++ rest)) :
    Inv ops (findAdd ops c h).1 ((findAdd ops c h).2 ++ rest) := by
  have locks := inv.locks
  obtain ⟨⟨cli, there⟩, once, unhashed, -⟩ := inv.owned_once (List.mem_cons_self : c ∈ c :: ownedBy rest)
  unfold findAdd
  rw [there]
  dsimp only
  cases peek : h.cliPeek cli.tcKey with
  | some d =>
    apply inv.take (keyOf_peek peek).1
    case held | guests | owned | dead | before | after => rfl
    case mine => exact fun _ => trivial
    case scp => exact locks.1
    case nrs => exact locks.2
  | none =>
    have single : ∀ d ∈ h.thCliHash, h.keyOf d ≠ some cli.tcKey := by
      intro d hashed same
      rw [Head.cliPeek, List.find?_eq_none] at peek
      exact peek d hashed (by simpa using same)
    let after : Head ι κ :=
      { h.setClient c (some { cli with tcRef := cli.tcRef + if ops.itemref then 1 else 0 }) with
        thCliHash := c :: h.thCliHash }
    have add : addRef c (if ops.itemref then 1 else 0) { h with thCliHash := c :: h.thCliHash } = after :=
      add_ref (h := { h with thCliHash := c :: h.thCliHash }) there _
    have users (d : Nat) : after.ruleOf d = h.ruleOf d := by
      show (h.setClient c _).ruleOf d = _
      rw [ruleOf_setClient]
      split
      · rename_i here
        rw [here, Head.ruleOf, there]
        rfl
      · rfl
    have refs (d : Nat) : (after.refOf d).isSome = (h.refOf d).isSome := by
      show ((h.setClient c _).refOf d).isSome = _
      rw [refOf_setClient]
      split
      · rename_i here
        rw [here, Head.refOf, there]
        rfl
      · rfl
    dsimp only
    rw [add]
    have calm : Calm h after [] [] := by
      apply calm_clients
      case rules | list | default | running => rfl
      case users => exact fun d _ => users d
    apply inv.calm calm
    case touches => simp
    case flags => simp
    case taken => exact fun q there => absurd there List.not_mem_nil
    case rules =>
      apply inv.rules.congr
      case rules | list | next => rfl
      case ruleOf => exact users
    case clients =>
      apply ClientInv.hash (show ClientInv ops h (guestsOf rest) (c :: ownedBy rest) (deadOf rest)
        from inv.clients)
        there single
      case client | hash | lru | next => rfl
    case room => exact inv.room
    case bare => exact inv.same_bare refs users rfl rfl
    case mine => simp [CallOk]
    case scp => exact locks.1
    case nrs => exact locks.2

theorem Inv.let_go {c : Nat} {cli : Client κ} {call : Call ι κ} (inv : Inv ops h (prior ++ rest))
    (there : h.clients c = some cli) (unhashed : c ∉ h.thCliHash)
    (mine : c ∈ ownedBy prior ∨ c ∈ deadOf prior) (clad : c ∉ bareOf (prior ++ rest))
    (held : heldBy [call] = heldBy prior) (guests : guestsOf [call] = guestsOf prior)
    (own : ∀ e, e ≠ c → (ownedBy ([call] ++ rest)).count e = (ownedBy (prior ++ rest)).count e)
    (die : ∀ e, e ≠ c → (deadOf ([call] ++ rest)).count e = (deadOf (prior ++ rest)).count e)
    (nowhere : (ownedBy ([call] ++ rest)).count c + (deadOf ([call] ++ rest)).count c = 0)
    (bare : bareOf [call] = bareOf prior) (ok : ∀ h' : Head ι κ, CallOk h' (heldBy ([call] ++ rest)) call)
    (scp : [call].countP Call.holdsScpReqLock + rest.countP Call.holdsScpReqLock ≤ 1)
    (nrs : [call].countP Call.holdsNrsLock + rest.countP Call.holdsNrsLock ≤ 1) :
    Inv ops (nrsTbfCliFini c (h.setClient c (some { cli with tcRef := 0 }))) ([call] ++ rest) := by
  obtain ⟨r, rule, user, -⟩ := inv.ruled there clad
  let base := h.setClient c (some { cli with tcRef := 0 })
  have users (d : Nat) : base.ruleOf d = h.ruleOf d := by
    rw [ruleOf_setClient]
    split
    · rename_i here
      rw [here, Head.ruleOf, there]
      rfl
    · rfl
  have rules : RuleInv base (heldBy (prior ++ rest)) := by
    apply inv.rules.congr
    case rules | list | next => rfl
    case ruleOf => exact users
  have calm : Calm h base [] [] := by
    apply calm_clients
    case rules | list | default | running => rfl
    case users => exact fun d _ => users d
  have based : base.clients c = some { cli with tcRef := 0 } := Function.update_self _ _ _
  obtain ⟨⟨rules', form⟩, kept, touched, only, calm'⟩ := cli_fini rules based user rfl
  have freed : (nrsTbfCliFini c base).clients = (h.setClient c none).clients := by
    rw [form]
    exact Function.update_idem _ _ _
  apply inv.calm (calm.trans calm')
  case touches =>
    intro d touch
    rw [only d touch]
    rcases mine with owned | dead
    · exact Or.inl owned
    · exact Or.inr (Or.inl dead)
  case flags => simp
  case taken =>
    rw [held]
    exact fun q there => Or.inl there
  case rules =>
    rw [show heldBy ([call] ++ rest) = heldBy (prior ++ rest) from bags_append _ held rest]
    exact kept
  case clients =>
    rw [show guestsOf ([call] ++ rest) = guestsOf (prior ++ rest) from bags_append _ guests rest]
    apply (inv.clients.free there unhashed own die nowhere).congr
    case keys =>
      intro d
      rw [Head.keyOf, freed, Head.keyOf]
    case refs =>
      intro d
      rw [Head.refOf, freed, Head.refOf]
    case hash | lru | next =>
      rw [form]
      rfl
  case room =>
    rw [form]
    exact inv.room
  case bare =>
    intro d living
    rw [show bareOf ([call] ++ rest) = bareOf (prior ++ rest) from bags_append _ bare rest]
    rw [Head.refOf, freed] at living
    change ((h.setClient c none).refOf d).isSome = true at living
    rw [refOf_setClient] at living
    by_cases here : d = c
    · rw [if_pos here] at living
      exact Bool.noConfusion living
    · rw [if_neg here] at living
      rw [← inv.bare d living, Head.ruleOf, freed]
      change (h.setClient c none).ruleOf d = none ↔ _
      rw [ruleOf_setClient, if_neg here]
  case mine =>
    intro other here
    rw [List.mem_singleton.mp here]
    exact ok _
  case scp => exact scp
  case nrs => exact nrs

theorem keeps_lost {c d : Nat} (inv : Inv ops h ([.lost c d] ++ rest)) :
    Inv ops (nrsTbfCliFini c (addRef c (-1) h)) ([.serving d] ++ rest) := by
  have locks := inv.locks
  obtain ⟨⟨cli, there⟩, once, unhashed, alive⟩ := inv.owned_once (List.mem_cons_self : c ∈ c :: ownedBy rest)
  have single : c ∉ ownedBy rest := by
    change (c :: ownedBy rest).count c = 1 at once
    rw [List.count_cons_self] at once
    exact List.count_eq_zero.mp (by omega)
  have one : cli.tcRef = 1 := by
    have counted := inv.clients.ref_eq there
    have unguest : (guestsOf ([.lost c d] ++ rest)).count c = 0 :=
      List.count_eq_zero.mpr fun guest => unhashed (inv.clients.hashed c guest)
    rw [if_neg fun both => unhashed both.2, once, unguest] at counted
    simpa using counted
  have dropped : addRef c (-1) h = h.setClient c (some { cli with tcRef := 0 }) := by
    rw [add_ref there, one]
    rfl
  rw [dropped]
  apply inv.let_go there unhashed
  case mine => exact Or.inl List.mem_cons_self
  case clad => exact fun bare => single (bare_owned (show c ∈ bareOf rest from bare))
  case held | guests | bare => rfl
  case own => exact fun e apart => (count_cons_ne (ownedBy rest) apart).symm
  case die => exact fun _ _ => rfl
  case nowhere =>
    exact Nat.add_eq_zero_iff.mpr ⟨List.count_eq_zero.mpr single, List.count_eq_zero.mpr alive⟩
  case ok => exact fun _ => trivial
  case scp => exact locks.1
  case nrs => exact locks.2

theorem keeps_zombies {c : Nat} {cs : List Nat} (inv : Inv ops h ([.zombies (c :: cs)] ++ rest)) :
    Inv ops (nrsTbfCliFini c h) ([.zombies cs] ++ rest) := by
  have locks := inv.locks
  obtain ⟨cli, there⟩ := inv.clients.live (c := c) (by
    have : 0 < (deadOf ([.zombies (c :: cs)] ++ rest)).count c := List.count_pos_iff.mpr List.mem_cons_self
    omega)
  have place := inv.clients.one_place there
  have split : (deadOf ([.zombies (c :: cs)] ++ rest)).count c =
      (deadOf ([.zombies cs] ++ rest)).count c + 1 :=
    List.count_cons_self
  have unhashed : c ∉ h.thCliHash := List.count_eq_zero.mp (by omega)
  have unowned : (ownedBy ([.zombies (c :: cs)] ++ rest)).count c = 0 := by omega
  have zero : cli.tcRef = 0 := by
    have counted := inv.clients.ref_eq there
    have unguest : (guestsOf ([.zombies (c :: cs)] ++ rest)).count c = 0 :=
      List.count_eq_zero.mpr fun guest => unhashed (inv.clients.hashed c guest)
    rw [if_neg fun both => unhashed both.2, unowned, unguest] at counted
    simpa using counted
  have same : h.setClient c (some { cli with tcRef := 0 }) = h := by
    have kept : ({ cli with tcRef := 0 } : Client κ) = cli := by rw [← zero]
    rw [kept, Head.setClient, ← there, Function.update_eq_self]
  have gone : Inv ops (nrsTbfCliFini c (h.setClient c (some { cli with tcRef := 0 })))
      ([.zombies cs] ++ rest) := by
    apply inv.let_go there unhashed
    case mine => exact Or.inr List.mem_cons_self
    case clad => exact fun bare => List.count_eq_zero.mp unowned (bare_owned bare)
    case held | guests | bare => rfl
    case own => exact fun _ _ => rfl
    case die => exact fun e apart => (count_cons_ne _ apart).symm
    case nowhere =>
      have : (ownedBy ([.zombies cs] ++ rest)).count c = 0 := unowned
      omega
    case ok => exact fun _ => trivial
    case scp => exact locks.1
    case nrs => exact locks.2
  rwa [same] at gone

theorem keeps_serving {c : Nat} (inv : Inv ops h ([.serving c] ++ rest)) :
    Inv ops (cliPut ops c h).1 ([.zombies (cliPut ops c h).2] ++ rest) := by
  have locks := inv.locks
  obtain ⟨cli, there, hash, lrus, zs, put, clients, room⟩ :=
    put_keeps (show ClientInv ops h (c :: guestsOf rest) (ownedBy rest) (deadOf rest)
      from inv.clients) inv.room
  rw [put] at clients room ⊢
  dsimp only at clients room ⊢
  have users (d : Nat) :
      (h.setClient c (some { cli with tcRef := cli.tcRef - 1 })).ruleOf d = h.ruleOf d := by
    rw [ruleOf_setClient]
    split
    · rename_i here
      rw [here, Head.ruleOf, there]
      rfl
    · rfl
  have refs (d : Nat) :
      ((h.setClient c (some { cli with tcRef := cli.tcRef - 1 })).refOf d).isSome = (h.refOf d).isSome := by
    rw [refOf_setClient]
    split
    · rename_i here
      rw [here, Head.refOf, there]
      rfl
    · rfl
  have calm : Calm h
      { h.setClient c
        (some { cli with tcRef := cli.tcRef - 1 }) with thCliHash := hash, ntbLru := lrus } [] [] := by
    apply calm_clients
    case rules | list | default | running => rfl
    case users => exact fun d _ => users d
  apply inv.calm calm
  case touches => simp
  case flags => simp
  case taken => exact fun q there => absurd there List.not_mem_nil
  case rules =>
    apply inv.rules.congr
    case rules | list | next => rfl
    case ruleOf => exact users
  case clients => exact clients
  case room => exact room
  case bare => exact inv.same_bare refs users rfl rfl
  case mine => simp [CallOk]
  case scp => exact locks.1
  case nrs => exact locks.2

theorem keeps_starting {name : List Char} {ids : ι} {rate : Nat}
    (inv : Inv ops h ([.starting name ids rate] ++ rest)) :
    Inv ops (h.addRule (newRule ops name ids rate)) ([.built h.nextRule] ++ rest) := by
  have locks := inv.locks
  have unborn := inv.rules.unborn h.nextRule (le_refl _)
  obtain ⟨unlisted, unheld, -⟩ := inv.rules.gone h.nextRule unborn
  have calm : Calm h (h.addRule (newRule ops name ids rate)) [] [] := by
    constructor
    case list | default | running => rfl
    case names =>
      intro r listed
      have apart : r ≠ h.nextRule := fun here => unlisted (here ▸ listed)
      simp [Head.nameOf, Head.addRule, Head.setRule, apart]
    case flags =>
      intro r rule known on
      by_cases here : r = h.nextRule
      · subst here
        have new : newRule ops name ids rate = rule := by
          simpa [Head.addRule, Head.setRule] using known
        rw [← new] at on
        exact Bool.noConfusion on
      · exact Or.inr ⟨rule, by simpa [Head.addRule, Head.setRule, here] using known, on⟩
    case users => exact fun _ _ => rfl
  apply inv.rules_only calm
  case rules => exact inv.rules.add rfl rfl
  case clients | hash | lru | fresh | guests | owned | dead | before | after => rfl
  case taken =>
    intro q there
    rw [List.mem_singleton.mp (show q ∈ [h.nextRule] from there)]
    exact Or.inr (Or.inr unborn)
  case mine =>
    intro call there
    rw [List.mem_singleton.mp there]
    refine ⟨unlisted, ?_, ?_⟩
    · change (h.nextRule :: heldBy rest).count h.nextRule = 1
      rw [List.count_cons_self, Nat.add_eq_right]
      exact List.count_eq_zero.mpr unheld
    · intro rule known
      have new : newRule ops name ids rate = rule := by
        simpa [Head.addRule, Head.setRule] using known
      rw [← new]
      rfl
  case scp => exact locks.1
  case nrs => exact locks.2

theorem keeps_listing {r : Nat} (inv : Inv ops h ([.built r] ++ rest))
    (single : ∀ q ∈ h.thList, h.nameOf q ≠ h.nameOf r) :
    Inv ops { h with thList := r :: h.thList } ([.listed] ++ rest) := by
  have locks := inv.locks
  obtain ⟨unlisted, once, quiet⟩ := inv.each (.built r) List.mem_cons_self
  have elsewhere : r ∉ heldBy rest := by
    change (r :: heldBy rest).count r = 1 at once
    rw [List.count_cons_self] at once
    exact List.count_eq_zero.mp (by omega)
  constructor
  case rules => exact RuleInv.list (show RuleInv h (r :: heldBy rest) from inv.rules) unlisted
  case clients => exact inv.clients.congr (fun _ => rfl) (fun _ => rfl) rfl rfl rfl
  case room => exact inv.room
  case list =>
    constructor
    case quiet =>
      intro q listed rule known
      rcases List.mem_cons.mp listed with rfl | listed
      · exact quiet rule known
      · exact inv.list.quiet q listed rule known
    case names =>
      intro p first q second same
      rcases List.mem_cons.mp first with rfl | older
      · rcases List.mem_cons.mp second with rfl | other
        · rfl
        · exact absurd same.symm (single q other)
      · rcases List.mem_cons.mp second with rfl | other
        · exact absurd same (single p older)
        · exact inv.list.names p older q other same
    case default => exact List.mem_cons_of_mem r inv.list.default
    case defaultName => exact inv.list.defaultName
  case bare => exact inv.bare
  case each =>
    intro call there
    rcases List.mem_cons.mp there with rfl | there
    · trivial
    have ok := inv.each call (List.mem_cons_of_mem _ there)
    cases call with
    | matched known c q =>
      cases known with
      | true => exact ok
      | false => trivial
    | stopping q => exact ⟨List.mem_cons_of_mem r ok.1, ok.2⟩
    | unlinked q =>
      have apart : q ≠ r := by
        rintro rfl
        exact elsewhere (held_mem there List.mem_cons_self)
      exact fun listed => (List.mem_cons.mp listed).elim apart ok
    | built q =>
      have apart : q ≠ r := by
        rintro rfl
        exact elsewhere (held_mem there (List.mem_singleton.mpr rfl))
      refine ⟨fun listed => (List.mem_cons.mp listed).elim apart ok.1, ?_, ok.2.2⟩
      have before : (r :: heldBy rest).count q = 1 := ok.2.1
      rwa [count_cons_ne _ apart] at before
    | _ => trivial
  case scp =>
    rw [List.countP_append]
    exact locks.1
  case nrs =>
    rw [List.countP_append]
    exact locks.2
  case running => exact inv.running

theorem keeps_clashing {r other : Nat} (inv : Inv ops h ([.built r] ++ rest)) (listed : other ∈ h.thList) :
    Inv ops (nrsTbfRuleGet other h) ([.dropping false [other, r] eexist] ++ rest) := by
  have locks := inv.locks
  apply inv.get listed
  case held | guests | owned | dead | before | after => rfl
  case more =>
    intro q there
    rcases List.mem_cons.mp there with here | there
    · exact Or.inl here
    · exact Or.inr there
  case mine => trivial
  case scp => exact locks.1
  case nrs => exact locks.2

theorem keeps_built {r : Nat} (inv : Inv ops h ([.built r] ++ rest)) :
    Inv ops (listRule r h).1 ((listRule r h).2 ++ rest) := by
  obtain ⟨rule, known⟩ := inv.rules.holder (List.mem_cons_self : r ∈ r :: heldBy rest)
  obtain ⟨found, scanned, hit, miss⟩ := find_spec inv.rules inv.list rule.trName
  unfold listRule
  rw [known]
  dsimp only
  rw [scanned]
  cases found with
  | none =>
    apply keeps_listing inv
    intro q listed same
    apply miss rfl q listed
    rw [same, Head.nameOf, known, Option.map_some]
  | some other => exact keeps_clashing inv (hit other rfl).1

theorem keeps_listed (inv : Inv ops h ([.listed] ++ rest)) (sequence : Int) :
    Inv ops { h with thRuleSequence := sequence } ([.returned 0] ++ rest) := by
  have locks := inv.locks
  have calm : Calm h { h with thRuleSequence := sequence } [] [] := by
    apply calm_clients
    case rules | list | default | running => rfl
    case users => exact fun _ _ => rfl
  apply inv.rules_only calm
  case rules =>
    apply inv.rules.congr
    case rules | list | next => rfl
    case ruleOf => exact fun _ => rfl
  case clients | hash | lru | fresh | guests | owned | dead | before | after => rfl
  case taken => exact fun q there => absurd there List.not_mem_nil
  case mine => simp [CallOk]
  case scp => exact locks.1
  case nrs => exact locks.2

theorem keeps_changing {r rate : Nat} (inv : Inv ops h ([.changing r rate] ++ rest)) :
    Inv ops (changeRate r rate h) ([.dropping true [r] 0] ++ rest) := by
  have locks := inv.locks
  obtain ⟨rule, known⟩ := inv.rules.holder (List.mem_cons_self : r ∈ r :: heldBy rest)
  rw [changeRate, known]
  dsimp only
  have calm : Calm h (h.setRule r (some
      { rule with
        values := ruleValues rule.values.trDepth rate
        trGeneration := rule.trGeneration + 1 })) [] [] := by
    apply calm_rule known
    · rintro other ⟨rfl⟩
      exact ⟨rfl, rfl⟩
    · exact fun freed => absurd freed (Option.some_ne_none _)
  apply inv.rules_only calm
  case rules => exact inv.rules.edit known rfl rfl
  case clients | hash | lru | fresh | guests | owned | dead | before | after => rfl
  case taken => exact fun q there => Or.inl there
  case mine => simp [CallOk]
  case scp => exact locks.1
  case nrs => exact locks.2

theorem keeps_stopping {r : Nat} (inv : Inv ops h ([.stopping r] ++ rest)) :
    Inv ops { h with thList := h.thList.erase r } ([.unlinked r] ++ rest) := by
  have locks := inv.locks
  obtain ⟨listed, apart⟩ := inv.each (.stopping r) List.mem_cons_self
  have gone : r ∉ h.thList.erase r := inv.rules.once.not_mem_erase
  have alone {call : Call ι κ} (there : call ∈ rest) (lock : call.holdsNrsLock = true) : False := by
    have second : 0 < rest.countP Call.holdsNrsLock := List.countP_pos_iff.mpr ⟨call, there, lock⟩
    have sum : 1 + rest.countP Call.holdsNrsLock ≤ 1 := locks.2
    omega
  constructor
  case rules => exact RuleInv.unlist (show RuleInv h (r :: heldBy rest) from inv.rules) listed
  case clients => exact inv.clients.congr (fun _ => rfl) (fun _ => rfl) rfl rfl rfl
  case room => exact inv.room
  case list =>
    constructor
    case quiet => exact fun q there => inv.list.quiet q (List.mem_of_mem_erase there)
    case names =>
      exact fun p first q second =>
        inv.list.names p (List.mem_of_mem_erase first) q (List.mem_of_mem_erase second)
    case default => exact (List.mem_erase_of_ne (Ne.symm apart)).mpr inv.list.default
    case defaultName => exact inv.list.defaultName
  case bare => exact inv.bare
  case each =>
    intro call there
    rcases List.mem_cons.mp there with rfl | there
    · exact gone
    have ok := inv.each call (List.mem_cons_of_mem _ there)
    cases call with
    | matched known c q =>
      cases known with
      | true => exact ok
      | false => trivial
    | stopping q => exact (alone there rfl).elim
    | unlinked q => exact (alone there rfl).elim
    | built q =>
      have other : q ≠ r := by
        rintro rfl
        exact ok.1 listed
      refine ⟨fun left => ok.1 (List.mem_of_mem_erase left), ?_, ok.2.2⟩
      have before : (r :: heldBy rest).count q = 1 := ok.2.1
      rw [count_cons_ne _ other] at before
      change (r :: r :: heldBy rest).count q = 1
      rw [count_cons_ne _ other, count_cons_ne _ other, before]
    | _ => trivial
  case scp =>
    rw [List.countP_append]
    exact locks.1
  case nrs =>
    rw [List.countP_append]
    exact locks.2
  case running => exact inv.running

theorem keeps_unlinked {r : Nat} (inv : Inv ops h ([.unlinked r] ++ rest)) :
    Inv ops (flagStopping r h) ([.dropping true [r, r] 0] ++ rest) := by
  have locks := inv.locks
  have unlisted : r ∉ h.thList := inv.each (.unlinked r) List.mem_cons_self
  obtain ⟨rule, known⟩ := inv.rules.holder (List.mem_cons_self : r ∈ r :: r :: heldBy rest)
  rw [flagStopping, known]
  dsimp only
  have calm : Calm h (h.setRule r (some { rule with trStopping := true })) [] [r] := by
    constructor
    case list | default | running => rfl
    case names =>
      intro q listed
      have apart : q ≠ r := fun here => unlisted (here ▸ listed)
      simp [Head.nameOf, Head.setRule, apart]
    case flags =>
      intro q other there on
      by_cases here : q = r
      · exact Or.inl (List.mem_singleton.mpr here)
      · exact Or.inr ⟨other, by simpa [Head.setRule, here] using there, on⟩
    case users => exact fun _ _ => rfl
  apply inv.calm calm
  case touches => simp
  case flags =>
    intro q there
    rw [List.mem_singleton.mp there]
    exact ⟨List.mem_cons_self, unlisted⟩
  case taken => exact fun q there => Or.inl there
  case rules => exact inv.rules.edit known rfl rfl
  case clients => exact inv.clients.congr (fun _ => rfl) (fun _ => rfl) rfl rfl rfl
  case room => exact inv.room
  case bare => exact inv.same_bare (fun _ => rfl) (fun _ => rfl) rfl rfl
  case mine => simp [CallOk]
  case scp => exact locks.1
  case nrs => exact locks.2

end Steps

end TbfRules
