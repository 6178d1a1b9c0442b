import LustreTools.Tbf.RuleLifetime

/-!
Which rule a TBF client uses. A request does not look for the newest rule again when the client has
seen the current rule sequence. This test is sound as long as the sequence does not move while a
client is between its match and its reset. But a client that fails the test and is matched to the
rule it has keeps its old sequence and its old values, and then no change of the rate reaches it.
-/
namespace TbfRules
open Runs Words TbfPolicy

section Frames
variable {ι κ : Type} {h h' : Head ι κ}

def face (cli : Client κ) : Client κ := { cli with tcRef := 0 }

def Head.idsOf (h : Head ι κ) (r : Nat) : Option ι := (h.rules r).map (·.trIds)

/-- The rules keep their ids and names and the clients outside `touched` their faces, or they are
    freed. -/
structure Quiet (h h' : Head ι κ) (touched : List Nat) : Prop where
  list : h'.thList = h.thList
  default : h'.thRule = h.thRule
  sequence : h'.thRuleSequence = h.thRuleSequence
  ids : ∀ q ∈ h.thList, h'.rules q = none ∨ h'.idsOf q = h.idsOf q
  born : h.nextRule ≤ h'.nextRule
  names : ∀ q < h.nextRule, h'.rules q = none ∨ h'.nameOf q = h.nameOf q
  faces : ∀ d, d ∉ touched → h'.clients d = none ∨ (h'.clients d).map face = (h.clients d).map face

theorem Quiet.refl (h : Head ι κ) : Quiet h h [] where
  list := rfl
  default := rfl
  sequence := rfl
  ids _ _ := Or.inr rfl
  born := le_refl _
  names _ _ := Or.inr rfl
  faces _ _ := Or.inr rfl

theorem Quiet.more {touched : List Nat} (quiet : Quiet h h' []) : Quiet h h' touched where
  list := quiet.list
  default := quiet.default
  sequence := quiet.sequence
  ids := quiet.ids
  born := quiet.born
  names := quiet.names
  faces d _ := quiet.faces d List.not_mem_nil

theorem Quiet.trans {h'' : Head ι κ} {touched : List Nat} (first : Quiet h h' touched)
    (second : Quiet h' h'' touched) : Quiet h h'' touched where
  list := second.list.trans first.list
  default := second.default.trans first.default
  sequence := second.sequence.trans first.sequence
  ids q listed := by
    rcases second.ids q (by rwa [first.list]) with freed | same
    · exact Or.inl freed
    · rcases first.ids q listed with freed | before
      · left
        rw [Head.idsOf, Head.idsOf, freed] at same
        simpa using same
      · exact Or.inr (same.trans before)
  born := le_trans first.born second.born
  names q small := by
    rcases second.names q (lt_of_lt_of_le small first.born) with freed | same
    · exact Or.inl freed
    · rcases first.names q small with freed | before
      · left
        rw [Head.nameOf, Head.nameOf, freed] at same
        simpa using same
      · exact Or.inr (same.trans before)
  faces d apart := by
    rcases second.faces d apart with freed | same
    · exact Or.inl freed
    · rcases first.faces d apart with freed | before
      · left
        rw [freed] at same
        simpa using same
      · exact Or.inr (same.trans before)

theorem quiet_bug (h : Head ι κ) : Quiet h h.bug [] where
  list := rfl
  default := rfl
  sequence := rfl
  ids _ _ := Or.inr rfl
  born := le_refl _
  names _ _ := Or.inr rfl
  faces _ _ := Or.inr rfl

theorem quiet_rule {r : Nat} {rule : Rule ι} {now : Option (Rule ι)} (known : h.rules r = some rule)
    (same : ∀ other, now = some other → other.trIds = rule.trIds ∧ other.trName = rule.trName) :
    Quiet h (h.setRule r now) [] where
  list := rfl
  default := rfl
  sequence := rfl
  ids q _ := by
    by_cases here : q = r
    · subst here
      cases now with
      | none =>
        left
        simp [Head.setRule]
      | some other =>
        right
        simp [Head.idsOf, Head.setRule, known, (same other rfl).1]
    · right
      simp [Head.idsOf, Head.setRule, here]
  born := le_refl _
  names q _ := by
    by_cases here : q = r
    · subst here
      cases now with
      | none =>
        left
        simp [Head.setRule]
      | some other =>
        right
        simp [Head.nameOf, Head.setRule, known, (same other rfl).2]
    · right
      simp [Head.nameOf, Head.setRule, here]
  faces _ _ := Or.inr rfl

theorem quiet_client (h : Head ι κ) (c : Nat) (cli : Option (Client κ)) :
    Quiet h (h.setClient c cli) [c] where
  list := rfl
  default := rfl
  sequence := rfl
  ids _ _ := Or.inr rfl
  born := le_refl _
  names _ _ := Or.inr rfl
  faces d apart := by
    right
    simp [Head.setClient, show d ≠ c by simpa using apart]

theorem quiet_counter {c : Nat} {cli : Client κ} (there : h.clients c = some cli) (ref : Int) :
    Quiet h (h.setClient c (some { cli with tcRef := ref })) [] where
  list := rfl
  default := rfl
  sequence := rfl
  ids _ _ := Or.inr rfl
  born := le_refl _
  names _ _ := Or.inr rfl
  faces d _ := by
    right
    by_cases here : d = c
    · subst here
      simp [Head.setClient, there, face]
    · simp [Head.setClient, here]

theorem quiet_put (r : Nat) (h : Head ι κ) : Quiet h (nrsTbfRulePut r h) [] := by
  unfold nrsTbfRulePut
  split
  · exact quiet_bug h
  · rename_i rule known
    split
    · unfold nrsTbfRuleFini
      split
      · exact quiet_rule known fun other none => absurd none.symm (Option.some_ne_none other)
      · exact quiet_bug h
    · apply quiet_rule known
      rintro other ⟨rfl⟩
      exact ⟨rfl, rfl⟩

theorem quiet_get (r : Nat) (h : Head ι κ) : Quiet h (nrsTbfRuleGet r h) [] := by
  unfold nrsTbfRuleGet
  split
  · exact quiet_bug h
  · rename_i rule known
    apply quiet_rule known
    rintro other ⟨rfl⟩
    exact ⟨rfl, rfl⟩

theorem quiet_unlink (c r : Nat) (cli : Client κ) (h : Head ι κ) : Quiet h (unlinkClient c r cli h) [c] := by
  unfold unlinkClient
  split
  · exact (quiet_bug h).more
  · rename_i rule known
    split
    · refine (Quiet.more (quiet_rule known ?_)).trans (quiet_client _ c _)
      rintro other ⟨rfl⟩
      exact ⟨rfl, rfl⟩
    · exact (quiet_bug h).more

theorem quiet_cli_rule_put (c : Nat) (h : Head ι κ) : Quiet h (nrsTbfCliRulePut c h) [c] := by
  unfold nrsTbfCliRulePut
  split
  · exact (quiet_bug h).more
  · rename_i cli there
    split
    · exact (quiet_bug h).more
    · rename_i r user
      exact (quiet_unlink c r cli h).trans (quiet_put r _).more

theorem quiet_link (c r : Nat) (h : Head ι κ) : Quiet h (linkClient c r h) [c] := by
  unfold linkClient
  split
  · rename_i cli rule there known
    split
    · refine (Quiet.more (quiet_rule known ?_)).trans (quiet_client _ c _)
      rintro other ⟨rfl⟩
      exact ⟨rfl, rfl⟩
    · exact (quiet_bug h).more
  · exact (quiet_bug h).more

theorem quiet_reset (c r : Nat) (h : Head ι κ) : Quiet h (nrsTbfCliReset c r h) [c] := by
  unfold nrsTbfCliReset
  split
  · exact (quiet_bug h).more
  · split
    · exact quiet_link c r h
    · split
      · exact (quiet_bug h).more
      · exact (quiet_cli_rule_put c h).trans (quiet_link c r _)

theorem quiet_reset_value (c : Nat) (h : Head ι κ) : Quiet h (nrsTbfCliResetValue c h) [c] := by
  unfold nrsTbfCliResetValue
  split
  · exact (quiet_bug h).more
  · split
    · exact (quiet_bug h).more
    · split
      · exact (quiet_bug h).more
      · exact quiet_client h c _

theorem quiet_fini (c : Nat) (h : Head ι κ) : Quiet h (nrsTbfCliFini c h) [c] := by
  unfold nrsTbfCliFini
  split
  · exact (quiet_bug h).more
  · split
    · exact (quiet_cli_rule_put c h).trans (quiet_client _ c none)
    · exact (quiet_bug h).more

theorem quiet_add_ref (c : Nat) (d : Int) (h : Head ι κ) : Quiet h (addRef c d h) [] := by
  unfold addRef
  split
  · exact quiet_bug h
  · rename_i cli there
    exact quiet_counter there _

theorem quiet_places (h : Head ι κ) (hash : List Nat) (lrus : Nat → List Nat) :
    Quiet h { h with thCliHash := hash, ntbLru := lrus } [] where
  list := rfl
  default := rfl
  sequence := rfl
  ids _ _ := Or.inr rfl
  born := le_refl _
  names _ _ := Or.inr rfl
  faces _ _ := Or.inr rfl

theorem quiet_take (ops : Ops ι κ) (c : Nat) (h : Head ι κ) : Quiet h (takeClient ops c h) [] := by
  unfold takeClient
  split
  · exact quiet_bug h
  · exact (quiet_places h h.thCliHash _).trans (quiet_add_ref c 1 _)

theorem quiet_purge (ops : Ops ι κ) (b : Nat) (lru : List Nat) (h : Head ι κ) (zs : List Nat) :
    Quiet h (purge ops b lru h zs).1 [] := by
  induction lru generalizing h zs with
  | nil => exact Quiet.refl h
  | cons c rest ih =>
    rw [purge]
    split
    · split
      · exact quiet_bug h
      · split
        · exact (quiet_places h _ _).trans (ih _ _)
        · exact quiet_bug h
    · exact Quiet.refl h

theorem quiet_cli_put (ops : Ops ι κ) (c : Nat) (h : Head ι κ) : Quiet h (cliPut ops c h).1 [] := by
  unfold cliPut
  split
  · exact quiet_add_ref c (-1) h
  · unfold nrsTbfJobidCliPut
    split
    · exact quiet_bug h
    · dsimp only
      split
      · exact quiet_add_ref c (-1) h
      · split
        · exact (quiet_add_ref c (-1) h).trans (quiet_bug _)
        · exact ((quiet_add_ref c (-1) h).trans (quiet_places _ (addRef c (-1) h).thCliHash _)).trans
            (quiet_purge ops _ _ _ [])

theorem quiet_change (r rate : Nat) (h : Head ι κ) : Quiet h (changeRate r rate h) [] := by
  unfold changeRate
  split
  · exact quiet_bug h
  · rename_i rule known
    apply quiet_rule known
    rintro other ⟨rfl⟩
    exact ⟨rfl, rfl⟩

theorem quiet_flag (r : Nat) (h : Head ι κ) : Quiet h (flagStopping r h) [] := by
  unfold flagStopping
  split
  · exact quiet_bug h
  · rename_i rule known
    apply quiet_rule known
    rintro other ⟨rfl⟩
    exact ⟨rfl, rfl⟩

theorem quiet_add_rule (rule : Rule ι) (unlisted : h.nextRule ∉ h.thList) : Quiet h (h.addRule rule) [] where
  list := rfl
  default := rfl
  sequence := rfl
  ids q listed := by
    right
    have apart : q ≠ h.nextRule := fun here => unlisted (here ▸ listed)
    simp [Head.idsOf, Head.addRule, Head.setRule, apart]
  born := Nat.le_succ _
  names q small := by
    right
    have apart : q ≠ h.nextRule := Nat.ne_of_lt small
    simp [Head.nameOf, Head.addRule, Head.setRule, apart]
  faces _ _ := Or.inr rfl

theorem quiet_add_client (h : Head ι κ) (key : κ) : Quiet h (h.addClient key) [h.nextClient] := by
  have set := quiet_client h h.nextClient (some (newClient key))
  exact ⟨set.list, set.default, set.sequence, set.ids, set.born, set.names, set.faces⟩

end Frames

section Newest
variable {ι κ : Type} {ops : Ops ι κ} {h h' : Head ι κ} {held : List Nat}

def newest (ops : Ops ι κ) (h : Head ι κ) (key : κ) : Nat :=
  (h.thList.find? fun r => (h.idsOf r).any fun ids => ops.oRuleMatch ids key).getD h.thRule

theorem scan_find {p : Rule ι → Bool} {list : List Nat}
    (live : ∀ r ∈ list, ∃ rule, h.rules r = some rule ∧ rule.trStopping = false) :
    scan h p list = some (list.find? fun r => (h.rules r).any p) := by
  induction list with
  | nil => rfl
  | cons r list ih =>
    obtain ⟨rule, known, quiet⟩ := live r List.mem_cons_self
    have rest := ih fun q there => live q (List.mem_cons_of_mem r there)
    rw [scan, known]
    simp only [quiet, Bool.false_eq_true, ↓reduceIte]
    by_cases wanted : p rule = true
    · rw [if_pos wanted, List.find?_cons_of_pos]
      simpa [known] using wanted
    · rw [if_neg wanted, rest, List.find?_cons_of_neg]
      simpa [known] using wanted

theorem match_newest (inv : RuleInv h held) (list : ListInv h) (key : κ) :
    nrsTbfRuleMatch ops h key = some (newest ops h key) := by
  rw [nrsTbfRuleMatch, scan_find (listed_live inv list), Option.map_some, newest]
  congr 3
  funext r
  rw [Head.idsOf]
  cases h.rules r <;> rfl

theorem find_congr {p p' : Nat → Bool} {list : List Nat} (same : ∀ r ∈ list, p r = p' r) :
    list.find? p = list.find? p' := by
  induction list with
  | nil => rfl
  | cons a list ih =>
    rw [List.find?_cons, List.find?_cons, same a List.mem_cons_self,
      ih fun r there => same r (List.mem_cons_of_mem a there)]

theorem newest_congr (list : h'.thList = h.thList) (default : h'.thRule = h.thRule)
    (ids : ∀ r ∈ h.thList, h'.idsOf r = h.idsOf r) (key : κ) : newest ops h' key = newest ops h key := by
  rw [newest, newest, list, default]
  congr 1
  apply find_congr
  intro r listed
  rw [ids r listed]

theorem Quiet.newest {touched : List Nat} (quiet : Quiet h h' touched) (inv : RuleInv h' held) (key : κ) :
    newest ops h' key = TbfRules.newest ops h key := by
  apply newest_congr quiet.list quiet.default
  intro r listed
  rcases quiet.ids r listed with freed | same
  · exact absurd (by rwa [quiet.list]) (inv.gone r freed).1
  · exact same

theorem newest_erase {key : κ} {r q : Nat} (apart : r ≠ q) (first : newest ops h key = r) :
    newest ops { h with thList := h.thList.erase q } key = r := by
  have kept (p : Nat → Bool) : ∀ list : List Nat, (list.find? p).getD h.thRule = r →
      ((list.erase q).find? p).getD h.thRule = r := by
    intro list
    induction list with
    | nil => exact id
    | cons a list ih =>
      intro found
      by_cases here : a = q
      · subst here
        rw [List.erase_cons_head]
        by_cases wanted : p a = true
        · rw [List.find?_cons_of_pos wanted] at found
          exact absurd found.symm apart
        · rwa [List.find?_cons_of_neg wanted] at found
      · rw [List.erase_cons_tail (by simpa using here)]
        by_cases wanted : p a = true
        · rw [List.find?_cons_of_pos wanted] at found ⊢
          exact found
        · rw [List.find?_cons_of_neg wanted] at found ⊢
          exact ih found
  exact kept _ h.thList first

end Newest

section Windows
variable {ι κ : Type} {ops : Ops ι κ} {h : Head ι κ} {rest : List (Call ι κ)}

/-- The client that a call is about to give a rule or its values. -/
def Call.window : Call ι κ → List Nat
  | .matched _ c _ | .linked _ c => [c]
  | _ => []

def Call.touched (h : Head ι κ) : Call ι κ → List Nat
  | .matched _ c _ | .linked _ c | .lost c _ | .zombies (c :: _) => [c]
  | .absent _ => [h.nextClient]
  | _ => []

theorem window_place {call : Call ι κ} {c : Nat} (there : c ∈ call.window) :
    (c ∈ call.guests ∧ call.holdsScpReqLock = true) ∨ c ∈ call.owned := by
  cases call with
  | matched known d r =>
    cases known with
    | true => exact Or.inl ⟨there, rfl⟩
    | false => exact Or.inr there
  | linked known d =>
    cases known with
    | true => exact Or.inl ⟨there, rfl⟩
    | false => exact Or.inr there
  | _ => exact absurd there List.not_mem_nil

theorem touched_place {call : Call ι κ} {c : Nat} (there : c ∈ call.touched h) :
    (c ∈ call.guests ∧ call.holdsScpReqLock = true) ∨ c ∈ call.owned ∨ c ∈ call.dead ∨ c = h.nextClient := by
  cases call with
  | matched known d r =>
    rcases window_place (show c ∈ Call.window (.matched known d r : Call ι κ) from there) with guest | own
    · exact Or.inl guest
    · exact Or.inr (Or.inl own)
  | linked known d =>
    rcases window_place (show c ∈ Call.window (.linked known d : Call ι κ) from there) with guest | own
    · exact Or.inl guest
    · exact Or.inr (Or.inl own)
  | lost d e => exact Or.inr (Or.inl there)
  | zombies cs =>
    cases cs with
    | nil => exact absurd there List.not_mem_nil
    | cons d cs =>
      rw [List.mem_singleton.mp (show c ∈ [d] from there)]
      exact Or.inr (Or.inr (Or.inl List.mem_cons_self))
  | absent key => exact Or.inr (Or.inr (Or.inr (List.mem_singleton.mp there)))
  | _ => exact absurd there List.not_mem_nil

theorem Inv.window_apart {call other : Call ι κ} (inv : Inv ops h ([call] ++ rest)) (there : other ∈ rest)
    {c : Nat} (window : c ∈ other.window) : c ∉ call.touched h := by
  intro touched
  have behind := List.mem_append_right [call] there
  have live : ∃ cli, h.clients c = some cli := by
    rcases window_place window with ⟨guest, -⟩ | own
    · exact inv.clients.live_hashed (inv.clients.hashed c (guest_mem behind guest))
    · exact (inv.owned_once (List.mem_flatMap.mpr ⟨other, behind, own⟩)).1
  obtain ⟨cli, known⟩ := live
  have place := inv.clients.one_place known
  have born := inv.clients.lt_next known
  have counts (f : Call ι κ → List Nat) :
      (([call] ++ rest).flatMap f).count c = (f call).count c + (rest.flatMap f).count c := by
    rw [List.flatMap_append, List.count_append, List.flatMap_singleton]
  rw [ownedBy, deadOf, counts, counts] at place
  have second (f : Call ι κ → List Nat) (mine : c ∈ f other) : 0 < (rest.flatMap f).count c :=
    List.count_pos_iff.mpr (List.mem_flatMap.mpr ⟨other, there, mine⟩)
  rcases window_place window with ⟨guest, lock⟩ | own
  · have hashed := List.count_pos_iff.mpr (inv.clients.hashed c (guest_mem behind guest))
    rcases touched_place touched with ⟨-, lock'⟩ | own | die | fresh
    · have locks := inv.locks.1
      have one : 0 < rest.countP Call.holdsScpReqLock := List.countP_pos_iff.mpr ⟨other, there, lock⟩
      rw [List.countP_singleton, if_pos lock'] at locks
      omega
    · have := List.count_pos_iff.mpr own
      omega
    · have := List.count_pos_iff.mpr die
      omega
    · omega
  · have mine := second Call.owned own
    rcases touched_place touched with ⟨guest, -⟩ | own' | die | fresh
    · have hashed := List.count_pos_iff.mpr (inv.clients.hashed c
        (guest_mem (List.mem_append_left rest List.mem_cons_self) guest))
      omega
    · have := List.count_pos_iff.mpr own'
      omega
    · have := List.count_pos_iff.mpr die
      omega
    · omega

end Windows

section Freshness
variable {ι κ : Type} {ops : Ops ι κ} {h h' : Head ι κ} {next rest : List (Call ι κ)}

/-- Who has the rule `r`, and `r` is on the list, has the newest rule that matches. -/
def Newest (ops : Ops ι κ) (h : Head ι κ) (cli : Client κ) (r : Nat) : Prop :=
  r ∈ h.thList → newest ops h cli.tcKey = r

/-- What the calls and the clients know of the rule list, when no rule was listed since the last
    step of the sequence. -/
structure Settled (ops : Ops ι κ) (h : Head ι κ) (calls : List (Call ι κ)) : Prop where
  matched : ∀ known c r cli, .matched known c r ∈ calls → h.clients c = some cli → Newest ops h cli r
  linked : ∀ known c r cli, .linked known c ∈ calls → h.clients c = some cli → cli.tcRule = some r →
    Newest ops h cli r
  current : ∀ c r cli, h.clients c = some cli → cli.tcRule = some r →
    cli.tcRuleSequence = h.thRuleSequence → Newest ops h cli r

structure Fresh (ops : Ops ι κ) (h : Head ι κ) (calls : List (Call ι κ)) : Prop where
  counted : 0 ≤ h.thRuleSequence
  past : ∀ c cli, h.clients c = some cli → cli.tcRuleSequence ≤ h.thRuleSequence
  settled : .listed ∉ calls → Settled ops h calls

theorem Fresh.perm {calls : List (Call ι κ)} (fresh : Fresh ops h calls) (same : calls.Perm rest) :
    Fresh ops h rest where
  counted := fresh.counted
  past := fresh.past
  settled none := by
    have before := fresh.settled fun there => none (same.mem_iff.mp there)
    exact ⟨fun known c r cli there => before.matched known c r cli (same.mem_iff.mpr there),
      fun known c r cli there => before.linked known c r cli (same.mem_iff.mpr there), before.current⟩

theorem Quiet.before {touched : List Nat} (quiet : Quiet h h' touched) {c : Nat} {cli : Client κ}
    (apart : c ∉ touched) (there : h'.clients c = some cli) :
    ∃ old, h.clients c = some old ∧ old.tcKey = cli.tcKey ∧ old.tcRule = cli.tcRule ∧
      old.tcRuleSequence = cli.tcRuleSequence ∧ old.values = cli.values := by
  rcases quiet.faces c apart with freed | same
  · rw [there] at freed
    exact absurd freed (Option.some_ne_none cli)
  · rw [there, Option.map_some] at same
    obtain ⟨old, known, is⟩ := Option.map_eq_some_iff.mp same.symm
    rw [face, face, Client.mk.injEq] at is
    obtain ⟨key, -, rule, values, sequence, -⟩ := is
    exact ⟨old, known, key, rule, sequence, values⟩

theorem Fresh.quiet {call : Call ι κ} (fresh : Fresh ops h ([call] ++ rest))
    (inv : Inv ops h ([call] ++ rest))
    (inv' : Inv ops h' (next ++ rest)) (quiet : Quiet h h' (call.touched h)) (other : call ≠ .listed)
    (past : ∀ c ∈ call.touched h, ∀ cli, h'.clients c = some cli → cli.tcRuleSequence ≤ h.thRuleSequence)
    (matched : Settled ops h ([call] ++ rest) →
      ∀ known c r cli, .matched known c r ∈ next → h'.clients c = some cli → Newest ops h cli r)
    (linked : Settled ops h ([call] ++ rest) →
      ∀ known c r cli, .linked known c ∈ next → h'.clients c = some cli → cli.tcRule = some r →
        Newest ops h cli r)
    (current : Settled ops h ([call] ++ rest) →
      ∀ c r cli, c ∈ call.touched h → h'.clients c = some cli → cli.tcRule = some r →
        cli.tcRuleSequence = h.thRuleSequence → Newest ops h cli r) :
    Fresh ops h' (next ++ rest) := by
  have same (cli : Client κ) (r : Nat) : Newest ops h' cli r ↔ Newest ops h cli r := by
    rw [Newest, Newest, quiet.newest inv'.rules, quiet.list]
  constructor
  case counted =>
    rw [quiet.sequence]
    exact fresh.counted
  case past =>
    intro c cli there
    rw [quiet.sequence]
    by_cases touched : c ∈ call.touched h
    · exact past c touched cli there
    · obtain ⟨old, known, -, -, sequence, -⟩ := quiet.before touched there
      rw [← sequence]
      exact fresh.past c old known
  case settled =>
    intro none
    have before : Settled ops h ([call] ++ rest) := by
      apply fresh.settled
      intro there
      rcases List.mem_append.mp there with here | there
      · exact other (List.mem_singleton.mp here).symm
      · exact none (List.mem_append_right next there)
    constructor
    case matched =>
      intro known c r cli there live
      rw [same]
      rcases List.mem_append.mp there with mine | old
      · exact matched before known c r cli mine live
      · have apart := inv.window_apart old (List.mem_singleton.mpr rfl : c ∈ [c])
        obtain ⟨was, wasThere, key, -⟩ := quiet.before apart live
        have kept := before.matched known c r was (List.mem_append_right [call] old) wasThere
        rw [Newest, key] at kept
        exact kept
    case linked =>
      intro known c r cli there live uses
      rw [same]
      rcases List.mem_append.mp there with mine | old
      · exact linked before known c r cli mine live uses
      · have apart := inv.window_apart old (List.mem_singleton.mpr rfl : c ∈ [c])
        obtain ⟨was, wasThere, key, rule, -⟩ := quiet.before apart live
        have kept := before.linked known c r was (List.mem_append_right [call] old) wasThere (rule.trans uses)
        rw [Newest, key] at kept
        exact kept
    case current =>
      intro c r cli live uses seen
      rw [same]
      rw [quiet.sequence] at seen
      by_cases touched : c ∈ call.touched h
      · exact current before c r cli touched live uses seen
      · obtain ⟨was, wasThere, key, rule, sequence, -⟩ := quiet.before touched live
        have kept := before.current c r was wasThere (rule.trans uses) (sequence.trans seen)
        rw [Newest, key] at kept
        exact kept

theorem Fresh.plain {call : Call ι κ} (fresh : Fresh ops h ([call] ++ rest))
    (inv : Inv ops h ([call] ++ rest))
    (inv' : Inv ops h' (next ++ rest)) (quiet : Quiet h h' []) (other : call ≠ .listed)
    (none : call.touched h = []) (closed : ∀ n ∈ next, n.window = []) : Fresh ops h' (next ++ rest) := by
  apply fresh.quiet inv inv' quiet.more other
  case past =>
    rw [none]
    exact fun c there => absurd there List.not_mem_nil
  case matched =>
    intro _ known c r cli there
    exact absurd (closed _ there) (List.cons_ne_nil c [])
  case linked =>
    intro _ known c r cli there
    exact absurd (closed _ there) (List.cons_ne_nil c [])
  case current =>
    rw [none]
    exact fun _ c r cli there => absurd there List.not_mem_nil

theorem fini_gone {c : Nat} (running : (nrsTbfCliFini c h).lbug = false) :
    (nrsTbfCliFini c h).clients c = none := by
  unfold nrsTbfCliFini at running ⊢
  split
  · rename_i freed
    rw [freed] at running
    exact absurd running (by simp [Head.bug])
  · rename_i cli there
    rw [there] at running
    dsimp only at running
    split
    · exact Function.update_self _ _ _
    · rename_i busy
      rw [if_neg busy] at running
      exact absurd running (by simp [Head.bug])

theorem Fresh.freed {call : Call ι κ} {c : Nat} (fresh : Fresh ops h ([call] ++ rest))
    (inv : Inv ops h ([call] ++ rest)) (inv' : Inv ops h' (next ++ rest)) (quiet : Quiet h h' [c])
    (other : call ≠ .listed) (only : call.touched h = [c]) (gone : h'.clients c = none)
    (closed : ∀ n ∈ next, n.window = []) : Fresh ops h' (next ++ rest) := by
  have dead {d : Nat} {cli : Client κ} (there : d ∈ call.touched h)
      (live : h'.clients d = some cli) : False := by
    rw [only, List.mem_singleton] at there
    rw [there, gone] at live
    exact Option.some_ne_none cli live.symm
  rw [← only] at quiet
  apply fresh.quiet inv inv' quiet other
  case past => exact fun d there cli live => (dead there live).elim
  case matched =>
    intro _ known d r cli there
    exact absurd (closed _ there) (List.cons_ne_nil d [])
  case linked =>
    intro _ known d r cli there
    exact absurd (closed _ there) (List.cons_ne_nil d [])
  case current => exact fun _ d r cli there live => (dead there live).elim

theorem clients_get (r : Nat) (h : Head ι κ) : (nrsTbfRuleGet r h).clients = h.clients := by
  unfold nrsTbfRuleGet
  split <;> rfl

theorem fresh_absent {key : κ} {r : Nat} (fresh : Fresh ops h ([.absent key] ++ rest))
    (inv : Inv ops h ([.absent key] ++ rest)) (matched : nrsTbfRuleMatch ops h key = some r)
    (inv' : Inv ops (nrsTbfRuleGet r (h.addClient key)) ([.matched false h.nextClient r] ++ rest)) :
    Fresh ops (nrsTbfRuleGet r (h.addClient key)) ([.matched false h.nextClient r] ++ rest) := by
  have new {cli : Client κ}
      (live : (nrsTbfRuleGet r (h.addClient key)).clients h.nextClient = some cli) : cli = newClient key := by
    have born : (h.addClient key).clients h.nextClient = some (newClient key) := Function.update_self _ _ _
    rw [clients_get, born] at live
    exact (Option.some.inj live).symm
  have touched {c : Nat} (there : c ∈ Call.touched h (.absent key : Call ι κ)) : c = h.nextClient :=
    List.mem_singleton.mp there
  apply fresh.quiet inv inv' ((quiet_add_client h key).trans (quiet_get r _).more) (by simp)
  case past =>
    intro c there cli live
    rw [touched there] at live
    rw [new live]
    exact fresh.counted
  case matched =>
    intro _ known c q cli there live listed
    obtain ⟨-, rfl, rfl⟩ := Call.matched.inj (List.mem_singleton.mp there)
    rw [new live]
    rw [match_newest inv.rules inv.list] at matched
    exact Option.some.inj matched
  case linked =>
    intro _ known c q cli there
    exact absurd (List.mem_singleton.mp there) (by simp)
  case current =>
    intro _ c q cli there live uses
    rw [touched there] at live
    rw [new live] at uses
    exact absurd uses.symm (Option.some_ne_none q)

theorem fresh_found {c : Nat} (fresh : Fresh ops h ([.found c] ++ rest))
    (inv : Inv ops h ([.found c] ++ rest))
    (inv' : Inv ops (checkRule ops c h).1 ((checkRule ops c h).2 ++ rest)) :
    Fresh ops (checkRule ops c h).1 ((checkRule ops c h).2 ++ rest) := by
  obtain ⟨cli, r, rule, there, user, known⟩ := inv.guest (List.mem_cons_self : c ∈ c :: guestsOf rest)
  unfold checkRule at inv' ⊢
  rw [there] at inv' ⊢
  dsimp only at inv' ⊢
  rw [user] at inv' ⊢
  dsimp only at inv' ⊢
  rw [known] at inv' ⊢
  dsimp only at inv' ⊢
  split at inv'
  · rename_i again
    rw [if_pos again]
    rw [match_newest inv.rules inv.list] at inv' ⊢
    dsimp only at inv' ⊢
    by_cases here : newest ops h cli.tcKey = r
    · rw [if_pos here] at inv' ⊢
      exact fresh.plain inv inv' (quiet_get _ h) (by simp) rfl (by simp [Call.window])
    · rw [if_neg here] at inv' ⊢
      apply fresh.quiet inv inv' (quiet_get _ h) (by simp)
      case past => exact fun d there => absurd there List.not_mem_nil
      case matched =>
        intro _ k d q now mine live listed
        obtain ⟨-, rfl, rfl⟩ := Call.matched.inj (List.mem_singleton.mp mine)
        rw [clients_get, there, Option.some.injEq] at live
        rw [live]
      case linked =>
        intro _ k d q now mine
        exact absurd (List.mem_singleton.mp mine) (by simp)
      case current => exact fun _ d q now there => absurd there List.not_mem_nil
  · rename_i seen
    rw [if_neg seen]
    rw [not_or, ne_eq, not_not] at seen
    split at inv'
    · rename_i generation
      rw [if_pos generation]
      apply fresh.quiet inv inv' (Quiet.refl h) (by simp)
      case past => exact fun d there => absurd there List.not_mem_nil
      case matched =>
        intro _ k d q now mine
        exact absurd (List.mem_singleton.mp mine) (by simp)
      case linked =>
        intro before k d q now mine live uses
        obtain ⟨-, rfl⟩ := Call.linked.inj (List.mem_singleton.mp mine)
        rw [there, Option.some.injEq] at live
        subst live
        exact before.current d q cli there uses seen.1
      case current => exact fun _ d q now there => absurd there List.not_mem_nil
    · rename_i generation
      rw [if_neg generation]
      exact fresh.plain inv inv' (Quiet.refl h) (by simp) rfl (by simp [Call.window])

theorem fresh_matched {known : Bool} {c r : Nat} (fresh : Fresh ops h ([.matched known c r] ++ rest))
    (inv : Inv ops h ([.matched known c r] ++ rest))
    (inv' : Inv ops (nrsTbfCliReset c r h) ([.linked known c] ++ rest)) :
    Fresh ops (nrsTbfCliReset c r h) ([.linked known c] ++ rest) := by
  obtain ⟨cli, there, apart, -⟩ := inv.matched_client
  obtain ⟨⟨rules, form⟩, -⟩ := cli_reset inv.rules there apart
  have new {now : Client κ} (live : (nrsTbfCliReset c r h).clients c = some now) :
      now = { cli with tcRule := some r } := by
    rw [form] at live
    exact (Option.some.inj ((Function.update_self c _ h.clients).symm.trans live)).symm
  apply fresh.quiet inv inv' (quiet_reset c r h) (by simp)
  case past =>
    intro d touched now live
    rw [List.mem_singleton.mp (show d ∈ [c] from touched)] at live
    rw [new live]
    exact fresh.past c cli there
  case matched =>
    intro _ k d q now mine
    exact absurd (List.mem_singleton.mp mine) (by simp)
  case linked =>
    intro before k d q now mine live uses
    obtain ⟨-, rfl⟩ := Call.linked.inj (List.mem_singleton.mp mine)
    rw [new live] at uses ⊢
    obtain rfl := Option.some.inj uses
    exact before.matched known d r cli (List.mem_append_left rest List.mem_cons_self) there
  case current =>
    intro before d q now touched live uses _
    obtain rfl := List.mem_singleton.mp (show d ∈ [c] from touched)
    rw [new live] at uses ⊢
    obtain rfl := Option.some.inj uses
    exact before.matched known d r cli (List.mem_append_left rest List.mem_cons_self) there

theorem fresh_linked {known : Bool} {c : Nat} (fresh : Fresh ops h ([.linked known c] ++ rest))
    (inv : Inv ops h ([.linked known c] ++ rest))
    (inv' : Inv ops (nrsTbfCliResetValue c h) ([if known then .serving c else .made c] ++ rest)) :
    Fresh ops (nrsTbfCliResetValue c h) ([if known then .serving c else .made c] ++ rest) := by
  obtain ⟨cli, r, rule, there, user, found⟩ := inv.linked_client
  have new {now : Client κ} (live : (nrsTbfCliResetValue c h).clients c = some now) :
      now = resetValue cli rule h.thRuleSequence := by
    rw [reset_value_eq there user found] at live
    exact (Option.some.inj ((Function.update_self c _ h.clients).symm.trans live)).symm
  apply fresh.quiet inv inv' (quiet_reset_value c h) (by simp)
  case past =>
    intro d touched now live
    rw [List.mem_singleton.mp (show d ∈ [c] from touched)] at live
    rw [new live]
    exact le_refl _
  case matched =>
    intro _ k d q now mine
    cases known <;> exact absurd (List.mem_singleton.mp mine) (by simp)
  case linked =>
    intro _ k d q now mine
    cases known <;> exact absurd (List.mem_singleton.mp mine) (by simp)
  case current =>
    intro before d q now touched live uses _
    obtain rfl := List.mem_singleton.mp (show d ∈ [c] from touched)
    rw [new live] at uses ⊢
    exact before.linked known d q cli (List.mem_append_left rest List.mem_cons_self) there uses

theorem fresh_built {r : Nat} (fresh : Fresh ops h ([.built r] ++ rest))
    (inv : Inv ops h ([.built r] ++ rest))
    (inv' : Inv ops (listRule r h).1 ((listRule r h).2 ++ rest)) :
    Fresh ops (listRule r h).1 ((listRule r h).2 ++ rest) := by
  obtain ⟨rule, known⟩ := inv.rules.holder (List.mem_cons_self : r ∈ r :: heldBy rest)
  obtain ⟨found, scanned, -⟩ := find_spec inv.rules inv.list rule.trName
  unfold listRule at inv' ⊢
  rw [known] at inv' ⊢
  dsimp only at inv' ⊢
  rw [scanned] at inv' ⊢
  cases found with
  | some other => exact fresh.plain inv inv' (quiet_get other h) (by simp) rfl (by simp [Call.window])
  | none =>
    constructor
    case counted => exact fresh.counted
    case past => exact fresh.past
    case settled => exact fun none => absurd List.mem_cons_self none

theorem Fresh.erase {r : Nat} (fresh : Fresh ops h ([.stopping r] ++ rest))
    (inv : Inv ops h ([.stopping r] ++ rest)) :
    Fresh ops { h with thList := h.thList.erase r } ([.unlinked r] ++ rest) := by
  have kept {cli : Client κ} {q : Nat} (before : Newest ops h cli q) :
      Newest ops { h with thList := h.thList.erase r } cli q := by
    intro listed
    have apart : q ≠ r := by
      rintro rfl
      exact inv.rules.once.not_mem_erase listed
    exact newest_erase apart (before (List.mem_of_mem_erase listed))
  have old {call : Call ι κ} (window : call.window ≠ []) (there : call ∈ [.unlinked r] ++ rest) :
      call ∈ [.stopping r] ++ rest := by
    rcases List.mem_cons.mp there with rfl | there
    · exact absurd rfl window
    · exact List.mem_cons_of_mem _ there
  constructor
  case counted => exact fresh.counted
  case past => exact fresh.past
  case settled =>
    intro none
    have before : Settled ops h ([.stopping r] ++ rest) := by
      apply fresh.settled
      intro there
      rcases List.mem_cons.mp there with here | there
      · exact absurd here (by simp)
      · exact none (List.mem_cons_of_mem _ there)
    constructor
    case matched =>
      intro known c q cli there live
      exact kept (before.matched known c q cli (old (List.cons_ne_nil c []) there) live)
    case linked =>
      intro known c q cli there live uses
      exact kept (before.linked known c q cli (old (List.cons_ne_nil c []) there) live uses)
    case current =>
      intro c q cli live uses seen
      exact kept (before.current c q cli live uses seen)

theorem Fresh.advance (fresh : Fresh ops h ([.listed] ++ rest)) (closed : ∀ call ∈ rest, call.window = [])
    (small : h.thRuleSequence + 1 < 4294967296) :
    Fresh ops { h with thRuleSequence := u32 (h.thRuleSequence + 1) } ([.returned 0] ++ rest) := by
  have grown : u32 (h.thRuleSequence + 1) = h.thRuleSequence + 1 := by
    have := fresh.counted
    apply u32_of_in
    constructor <;> omega
  have none {call : Call ι κ} {c : Nat} (window : call.window = [c]) (there : call ∈ [.returned 0] ++ rest) :
      False := by
    rcases List.mem_cons.mp there with rfl | there
    · exact List.cons_ne_nil c [] window.symm
    · rw [closed call there] at window
      exact List.cons_ne_nil c [] window.symm
  rw [grown]
  constructor
  case counted =>
    have := fresh.counted
    show 0 ≤ h.thRuleSequence + 1
    omega
  case past =>
    intro c cli live
    have := fresh.past c cli live
    show cli.tcRuleSequence ≤ h.thRuleSequence + 1
    omega
  case settled =>
    intro _
    constructor
    case matched => exact fun known c q cli there => (none rfl there).elim
    case linked => exact fun known c q cli there => (none rfl there).elim
    case current =>
      intro c q cli live uses seen
      have past := fresh.past c cli live
      have now : cli.tcRuleSequence = h.thRuleSequence + 1 := seen
      omega

end Freshness

section Tests
variable {ι κ : Type} [DecidableEq κ] {ops : Ops ι κ} {h h' : Head ι κ} {next rest : List (Call ι κ)}

/-- What the sequence test needs of a run: the sequence does not wrap, and does not move while a
    client is between its match and its reset. -/
def Undisturbed (s : System ι κ) : Event ι κ → Prop
  | .proceed i _ => s.calls[i]? = some .listed →
    (∀ call ∈ s.calls, call.window = []) ∧ s.head.thRuleSequence + 1 < 4294967296
  | _ => True

instance [DecidableEq ι] (s : System ι κ) : ∀ e, Decidable (Undisturbed s e)
  | .proceed i _ => inferInstanceAs (Decidable (s.calls[i]? = some .listed → _))
  | .resGet _ | .startRule _ _ _ _ | .changeRule _ _ | .stopRule _ => isTrue trivial

theorem fresh_progress {ok : Bool} {call : Call ι κ} (fresh : Fresh ops h ([call] ++ rest))
    (inv : Inv ops h ([call] ++ rest))
    (went : progress ops ok (rest.any Call.holdsScpReqLock) h call = some (h', next))
    (undisturbed : call = .listed → (∀ other ∈ rest, other.window = []) ∧ h.thRuleSequence + 1 < 4294967296) :
    Fresh ops h' (next ++ rest) := by
  have inv' := keeps_progress inv went
  unfold progress at went
  split at went
  case h_1 key =>
    split at went
    · obtain ⟨rfl, rfl⟩ := Prod.mk.inj (Option.some.inj went)
      apply fresh.quiet inv inv' (Quiet.refl h).more (by simp)
      case past =>
        intro c _ cli live
        exact fresh.past c cli live
      case matched => exact fun _ known c r cli there => absurd (List.mem_singleton.mp there) (by simp)
      case linked => exact fun _ known c r cli there => absurd (List.mem_singleton.mp there) (by simp)
      case current => exact fun before c r cli _ => before.current c r cli
    · obtain ⟨r, matched, -⟩ := match_listed ops inv.rules inv.list key
      dsimp only at went
      rw [matched] at went
      obtain ⟨rfl, rfl⟩ := Prod.mk.inj (Option.some.inj went)
      exact fresh_absent fresh inv matched inv'
  case h_2 c =>
    split at went
    · exact absurd went.symm (Option.some_ne_none _)
    · obtain ⟨rfl, rfl⟩ := Prod.mk.inj (Option.some.inj went)
      exact fresh_found fresh inv inv'
  case h_3 known c r =>
    obtain ⟨rfl, rfl⟩ := Prod.mk.inj (Option.some.inj went)
    exact fresh_matched fresh inv inv'
  case h_4 known c =>
    obtain ⟨rfl, rfl⟩ := Prod.mk.inj (Option.some.inj went)
    exact fresh_linked fresh inv inv'
  case h_5 c r =>
    obtain ⟨rfl, rfl⟩ := Prod.mk.inj (Option.some.inj went)
    exact fresh.plain inv inv' (quiet_put r h) (by simp) rfl (by simp [Call.window])
  case h_6 c =>
    obtain ⟨rfl, rfl⟩ := Prod.mk.inj (Option.some.inj went)
    have quiet : Quiet h (findAdd ops c h).1 [] ∧ ∀ n ∈ (findAdd ops c h).2, n.window = [] := by
      unfold findAdd
      split
      · exact ⟨quiet_bug h, by simp⟩
      · split
        · exact ⟨quiet_take ops _ h, by simp [Call.window]⟩
        · exact ⟨(quiet_places h _ h.ntbLru).trans (quiet_add_ref c _ _), by simp [Call.window]⟩
    exact fresh.plain inv inv' quiet.1 (by simp) rfl quiet.2
  case h_7 c d =>
    obtain ⟨rfl, rfl⟩ := Prod.mk.inj (Option.some.inj went)
    exact fresh.freed inv inv' ((quiet_add_ref c (-1) h).more.trans (quiet_fini c _)) (by simp) rfl
      (fini_gone inv'.running) (by simp [Call.window])
  case h_8 c =>
    obtain ⟨rfl, rfl⟩ := Prod.mk.inj (Option.some.inj went)
    exact fresh.plain inv inv' (quiet_cli_put ops c h) (by simp) rfl (by simp [Call.window])
  case h_9 =>
    obtain ⟨rfl, rfl⟩ := Prod.mk.inj (Option.some.inj went)
    exact fresh.plain inv inv' (Quiet.refl h) (by simp) rfl (by simp)
  case h_10 c cs =>
    obtain ⟨rfl, rfl⟩ := Prod.mk.inj (Option.some.inj went)
    exact fresh.freed inv inv' (quiet_fini c h) (by simp) rfl (fini_gone inv'.running) (by simp [Call.window])
  case h_11 name ids rate =>
    split at went
    · obtain ⟨rfl, rfl⟩ := Prod.mk.inj (Option.some.inj went)
      exact fresh.plain inv inv' (Quiet.refl h) (by simp) rfl (by simp [Call.window])
    · obtain ⟨rfl, rfl⟩ := Prod.mk.inj (Option.some.inj went)
      have unlisted := (inv.rules.gone h.nextRule (inv.rules.unborn h.nextRule (le_refl _))).1
      exact fresh.plain inv inv' (quiet_add_rule _ unlisted) (by simp) rfl (by simp [Call.window])
  case h_12 r =>
    obtain ⟨rfl, rfl⟩ := Prod.mk.inj (Option.some.inj went)
    exact fresh_built fresh inv inv'
  case h_13 =>
    obtain ⟨rfl, rfl⟩ := Prod.mk.inj (Option.some.inj went)
    exact fresh.advance (undisturbed rfl).1 (undisturbed rfl).2
  case h_14 r rate =>
    obtain ⟨rfl, rfl⟩ := Prod.mk.inj (Option.some.inj went)
    exact fresh.plain inv inv' (quiet_change r rate h) (by simp) rfl (by simp [Call.window])
  case h_15 r =>
    obtain ⟨rfl, rfl⟩ := Prod.mk.inj (Option.some.inj went)
    exact fresh.erase inv
  case h_16 r =>
    obtain ⟨rfl, rfl⟩ := Prod.mk.inj (Option.some.inj went)
    exact fresh.plain inv inv' (quiet_flag r h) (by simp) rfl (by simp [Call.window])
  case h_17 nrsLock rc =>
    obtain ⟨rfl, rfl⟩ := Prod.mk.inj (Option.some.inj went)
    exact fresh.plain inv inv' (Quiet.refl h) (by simp) rfl (by simp [Call.window])
  case h_18 nrsLock r rs rc =>
    obtain ⟨rfl, rfl⟩ := Prod.mk.inj (Option.some.inj went)
    exact fresh.plain inv inv' (quiet_put r h) (by simp) rfl (by simp [Call.window])
  case h_19 rc =>
    obtain ⟨rfl, rfl⟩ := Prod.mk.inj (Option.some.inj went)
    exact fresh.plain inv inv' (Quiet.refl h) (by simp) rfl (by simp)

theorem quiet_enter (ops : Ops ι κ) (nrsLock : Bool) (h : Head ι κ) (e : Event ι κ) :
    Quiet h (enter ops nrsLock h e).1 [] ∧ ∀ n ∈ (enter ops nrsLock h e).2, n.window = [] := by
  have looked (name : List Char) (found : Nat → Call ι κ) (missing : Call ι κ)
      (closed : ∀ r, (found r).window = []) (none : missing.window = []) :
      Quiet h (lookup h name found missing).1 [] ∧ ∀ n ∈ (lookup h name found missing).2, n.window = [] := by
    unfold lookup
    split
    · exact ⟨quiet_bug h, by simp⟩
    · exact ⟨Quiet.refl h, by simpa using none⟩
    · exact ⟨quiet_get _ h, by simpa using closed _⟩
  cases e with
  | resGet key =>
    rw [enter]
    split
    · exact ⟨quiet_take ops _ h, by simp [Call.window]⟩
    · exact ⟨Quiet.refl h, by simp [Call.window]⟩
  | startRule validType name ids rate =>
    rw [enter]
    split
    · exact ⟨Quiet.refl h, by simp⟩
    · split
      · exact ⟨Quiet.refl h, by simp [Call.window]⟩
      · exact looked _ _ _ (fun _ => rfl) rfl
  | changeRule name rate =>
    rw [enter]
    split
    · exact ⟨Quiet.refl h, by simp⟩
    · exact looked _ _ _ (fun _ => rfl) rfl
  | stopRule name =>
    rw [enter]
    split
    · exact ⟨Quiet.refl h, by simp⟩
    · split
      · exact ⟨Quiet.refl h, by simp [Call.window]⟩
      · exact looked _ _ _ (fun _ => rfl) rfl
  | proceed i ok => exact ⟨Quiet.refl h, by simp [enter]⟩

theorem fresh_step {s : System ι κ} {e : Event ι κ} (fresh : Fresh ops s.head s.calls)
    (inv : Inv ops s.head s.calls) (undisturbed : Undisturbed s e) :
    Fresh ops (step ops s e).head (step ops s e).calls := by
  rw [step, inv.running]
  simp only [Bool.false_eq_true, ↓reduceIte]
  have entered : Fresh ops (enter ops (s.calls.any Call.holdsNrsLock) s.head e).1
      ((enter ops (s.calls.any Call.holdsNrsLock) s.head e).2 ++ s.calls) := by
    have idle : Inv ops s.head ([.returned 0] ++ s.calls) := by
      apply Inv.shift (show Inv ops s.head ([] ++ s.calls) from inv)
      case held | guests | owned | dead | bare => rfl
      case mine => simp [CallOk]
      case scp => simpa [List.countP_cons, Call.holdsScpReqLock] using inv.scp
      case nrs => simpa [List.countP_cons, Call.holdsNrsLock] using inv.nrs
    have waiting : Fresh ops s.head ([.returned 0] ++ s.calls) := by
      constructor
      case counted => exact fresh.counted
      case past => exact fresh.past
      case settled =>
        intro none
        have before := fresh.settled fun there => none (List.mem_cons_of_mem _ there)
        constructor
        case matched =>
          intro known c r cli there
          exact before.matched known c r cli ((List.mem_cons.mp there).resolve_left (by simp))
        case linked =>
          intro known c r cli there
          exact before.linked known c r cli ((List.mem_cons.mp there).resolve_left (by simp))
        case current => exact before.current
    obtain ⟨quiet, closed⟩ := quiet_enter ops (s.calls.any Call.holdsNrsLock) s.head e
    exact waiting.plain idle (keeps_enter inv e) quiet (by simp) rfl closed
  cases e with
  | proceed i ok =>
    rw [act]
    split
    · exact fresh
    · rename_i call there
      obtain ⟨inside, is⟩ := List.getElem?_eq_some_iff.mp there
      have split : (call :: s.calls.eraseIdx i).Perm s.calls := by
        rw [← is]
        exact List.getElem_cons_eraseIdx_perm inside
      dsimp only
      split
      · exact fresh
      · rename_i head next went
        apply fresh_progress (fresh.perm split.symm) (inv.perm split.symm) went
        rintro rfl
        obtain ⟨closed, small⟩ := undisturbed there
        exact ⟨fun other near => closed other (List.mem_of_mem_eraseIdx near), small⟩
  | resGet key => exact entered
  | startRule validType name ids rate => exact entered
  | changeRule name rate => exact entered
  | stopRule name => exact entered

/-- The test on the sequence spares no client a look that it needs: a client that has seen the
    current sequence, when no rule is on its way onto the list, uses the newest listed rule that
    matches it, or a rule that was taken off the list. -/
theorem sequence_test_sound (ops : Ops ι κ) (ids : ι) (tbfRate : Nat) (es : List (Event ι κ))
    (undisturbed : Along (step ops) Undisturbed (started ops ids tbfRate) es) :
    Always (step ops)
      (fun s => .listed ∉ s.calls → ∀ c cli r, s.head.clients c = some cli → cli.tcRule = some r →
        cli.tcRuleSequence = s.head.thRuleSequence → r ∈ s.head.thList →
        nrsTbfRuleMatch ops s.head cli.tcKey = some r)
      (started ops ids tbfRate) es := by
  have start : Fresh ops (started ops ids tbfRate).head (started ops ids tbfRate).calls := by
    constructor
    case counted => exact Int.one_nonneg
    case past => exact fun c cli there => absurd there.symm (Option.some_ne_none cli)
    case settled =>
      intro _
      constructor
      case matched => exact fun known c r cli there => absurd there List.not_mem_nil
      case linked => exact fun known c r cli there => absurd there List.not_mem_nil
      case current => exact fun c r cli there => absurd there.symm (Option.some_ne_none cli)
  have always : Always (step ops) (fun s => Inv ops s.head s.calls ∧ Fresh ops s.head s.calls)
      (started ops ids tbfRate) es :=
    always_of_along (fun s e both calm => ⟨keeps_step both.1 e, fresh_step both.2 both.1 calm⟩)
      ⟨started_inv ops ids tbfRate, start⟩ undisturbed
  refine always_mono ?_ always
  intro s both none c cli r there uses seen listed
  rw [match_newest both.1.rules both.1.list, (both.2.settled none).current c r cli there uses seen listed]

end Tests

def startThenServe : List (Event (List (List Char)) (List Char)) :=
  [.startRule true ['a'] [['x']] 5] ++ List.replicate 4 (.proceed 0 true) ++
    [.resGet ['x']] ++ List.replicate 4 (.proceed 0 true)

theorem sequence_test_sound_served :
    Along (step smallJobidOps) Undisturbed (started smallJobidOps [] 10000) startThenServe ∧
      nrsTbfRuleMatch smallJobidOps
        (run (step smallJobidOps) (started smallJobidOps [] 10000) startThenServe).head ['x'] = some 1 := by
  have undisturbed : Along (step smallJobidOps) Undisturbed (started smallJobidOps [] 10000)
      startThenServe := by
    decide +kernel
  have client : (run (step smallJobidOps) (started smallJobidOps [] 10000) startThenServe).head.clients 0 =
      some ⟨['x'], 1, some 1, ruleValues 3 5, 2, 0⟩ := by decide +kernel
  exact ⟨undisturbed, always_run (sequence_test_sound smallJobidOps [] 10000 startThenServe undisturbed)
    (by decide +kernel) 0 _ 1 client rfl (by decide +kernel) (by decide +kernel)⟩

/-- The rule is listed, and the sequence moves, while the client is on its way from the default rule
    it was matched to: the client has seen the sequence and not the rule. -/
example :
    let s := run (step smallJobidOps) (started smallJobidOps [] 10000)
      ([.resGet ['x'], .proceed 0 true, .startRule true ['a'] [['x']] 5] ++
        List.replicate 7 (.proceed 0 true))
    (s.head.clients 0).map (fun cli => (cli.tcRule, cli.tcRuleSequence)) = some
    (some 0, s.head.thRuleSequence) ∧
      nrsTbfRuleMatch smallJobidOps s.head ['x'] = some 1 := by
  decide +kernel

end TbfRules
