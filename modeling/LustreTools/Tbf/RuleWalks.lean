import LustreTools.Tbf.RuleRates

/-!
The walks along `th_list`, rule by rule. A walk is done under `th_rule_lock`, but `nrs_tbf_rule_stop`
unlinks its rule, flags it and drops its references under `nrs_lock` only, so this may happen in the
middle of a walk. A walk that stands at the rule loses its way: the rule points to itself now, and the
walk meets the flag, or a freed rule. As long as no rule is unlinked under a walk, no assertion of the
rule and client code fails, no freed rule is touched, every counter is the number of the holders, and
stopping the policy frees everything. Whatever is not a walk goes on as in the module on the calls.
-/
namespace TbfRules
open Runs Words TbfPolicy

inductive Quest (ι κ : Type) where
  | absent (key : κ)
  | found (c : Nat)
  | built (r : Nat)
  | starting (name : List Char) (ids : ι) (rate : Nat)
  | changing (name : List Char) (rate : Nat)
  | stopping (name : List Char)
  deriving DecidableEq, Repr

inductive Place where
  | on (r : Nat)
  | hit (r : Nat)
  | ended
  deriving DecidableEq, Repr

structure Walk (ι κ : Type) where
  quest : Quest ι κ
  place : Place
  deriving DecidableEq, Repr

/-- The walk, if there is one, holds `th_rule_lock`; its call is not among the others. -/
structure WalkSystem (ι κ : Type) where
  head : Head ι κ
  calls : List (Call ι κ)
  walk : Option (Walk ι κ)

inductive Turn (ι κ : Type) where
  | act (e : Event ι κ)
  | advance
  deriving DecidableEq, Repr

section Walks
variable {ι κ : Type}

def Quest.holdsScpReqLock : Quest ι κ → Bool
  | .found _ => true
  | _ => false

def Quest.holdsNrsLock : Quest ι κ → Bool
  | .changing _ _ | .stopping _ => true
  | _ => false

/-- The call that the walk is a part of, with what it holds. -/
def Quest.pending : Quest ι κ → List (Call ι κ)
  | .absent key => [.absent key]
  | .found c => [.found c]
  | .built r => [.built r]
  | .starting _ _ _ | .changing _ _ | .stopping _ => []

def WalkSystem.pending (s : WalkSystem ι κ) : List (Call ι κ) := (s.walk.map (·.quest.pending)).getD []

def Quest.asks (ops : Ops ι κ) (h : Head ι κ) (rule : Rule ι) : Quest ι κ → Bool
  | .absent key => ops.oRuleMatch rule.trIds key
  | .found c => (h.keyOf c).any (ops.oRuleMatch rule.trIds)
  | .built r => h.nameOf r = some rule.trName
  | .starting name _ _ | .changing name _ | .stopping name => rule.trName = name

def Place.rule : Place → Option Nat
  | .on r | .hit r => some r
  | .ended => none

def firstPlace : List Nat → Place
  | [] => .ended
  | r :: _ => .on r

/-- The step of `list_for_each_entry`; after `list_del_init` a rule is its own neighbour. -/
def follow (r : Nat) : List Nat → Place
  | [] => .on r
  | q :: rest => if q = r then firstPlace rest else follow r rest

/-- One round of the loop of `nrs_tbf_rule_match` or `nrs_tbf_rule_find_nolock`; `none` is a failed
    assertion or the use of a freed rule. -/
def walkOn (ops : Ops ι κ) (h : Head ι κ) (quest : Quest ι κ) (r : Nat) : Option Place :=
  match h.rules r with
  | none => none
  | some rule =>
    if rule.trStopping then none
    else if quest.asks ops h rule then some (.hit r)
    else some (follow r h.thList)

def took (h : Head ι κ) (found : Option Nat) (call : Nat → Call ι κ) (missing : Call ι κ) :
    Head ι κ × List (Call ι κ) :=
  match found with
  | none => (h, [missing])
  | some r => (nrsTbfRuleGet r h, [call r])

def finish (h : Head ι κ) (found : Option Nat) : Quest ι κ → Head ι κ × List (Call ι κ)
  | .absent key =>
    let r := found.getD h.thRule
    (nrsTbfRuleGet r (h.addClient key), [.matched false h.nextClient r])
  | .found c =>
    let r := found.getD h.thRule
    match h.clients c with
    | none => (h.bug, [])
    | some cli => (nrsTbfRuleGet r h, [if cli.tcRule = some r then .same c r else .matched true c r])
  | .built r => match found with
    | none => ({ h with thList := r :: h.thList }, [.listed])
    | some other => (nrsTbfRuleGet other h, [.dropping false [other, r] eexist])
  | .starting name ids rate => took h found (fun r => .dropping false [r] eexist) (.starting name ids rate)
  | .changing _ rate => took h found (fun r => .changing r rate) (.returned enoent)
  | .stopping _ => took h found .stopping (.returned 0)

def outdated (h : Head ι κ) (c : Nat) : Bool :=
  (h.clients c).any fun cli => cli.tcRule.any fun r => (h.rules r).any fun rule =>
    cli.tcRuleSequence ≠ h.thRuleSequence ∨ rule.trStopping

def Call.quest (h : Head ι κ) (ok scpReqLock : Bool) : Call ι κ → Option (Quest ι κ)
  | .absent key => if ok then some (.absent key) else none
  | .found c => if !scpReqLock && outdated h c then some (.found c) else none
  | .built r => some (.built r)
  | _ => none

def WalkSystem.bug (s : WalkSystem ι κ) : WalkSystem ι κ := { s with head := s.head.bug }

def WalkSystem.begin (s : WalkSystem ι κ) (quest : Quest ι κ) (rest : List (Call ι κ)) : WalkSystem ι κ :=
  if s.walk.isSome then s else { s with calls := rest, walk := some ⟨quest, firstPlace s.head.thList⟩ }

def advance (ops : Ops ι κ) (s : WalkSystem ι κ) (w : Walk ι κ) : WalkSystem ι κ :=
  let ending (found : Option Nat) : WalkSystem ι κ :=
    let (head, next) := finish s.head found w.quest
    ⟨head, next ++ s.calls, none⟩
  match w.place with
  | .on r => match walkOn ops s.head w.quest r with
    | none => s.bug
    | some place => { s with walk := some { w with place := place } }
  | .hit r => ending (some r)
  | .ended => ending none

def walkAct [DecidableEq κ] (ops : Ops ι κ) (s : WalkSystem ι κ) : Event ι κ → WalkSystem ι κ
  | .resGet key =>
    let (head, next) := enter ops false s.head (.resGet key)
    { s with head := head, calls := next ++ s.calls }
  | .startRule validType name ids rate =>
    if !validType then { s with calls := .returned einval :: s.calls }
    else s.begin (.starting name ids rate) s.calls
  | .changeRule name rate =>
    if s.calls.any Call.holdsNrsLock || s.walk.any (·.quest.holdsNrsLock) then s
    else s.begin (.changing name rate) s.calls
  | .stopRule name =>
    if s.calls.any Call.holdsNrsLock || s.walk.any (·.quest.holdsNrsLock) then s
    else if name = defaultRule then { s with calls := .returned eperm :: s.calls }
    else s.begin (.stopping name) s.calls
  | .proceed i ok => match s.calls[i]? with
    | none => s
    | some call =>
      let rest := s.calls.eraseIdx i
      let scpReqLock := rest.any Call.holdsScpReqLock || s.walk.any (·.quest.holdsScpReqLock)
      match call.quest s.head ok scpReqLock with
      | some quest => s.begin quest rest
      | none => match progress ops ok scpReqLock s.head call with
        | none => s
        | some (head, next) => { s with head := head, calls := next ++ rest }

def walkStep [DecidableEq κ] (ops : Ops ι κ) (s : WalkSystem ι κ) : Turn ι κ → WalkSystem ι κ
  | .act e => if s.head.lbug then s else walkAct ops s e
  | .advance => if s.head.lbug then s else (s.walk.map (advance ops s)).getD s

def walkStart (ops : Ops ι κ) (ids : ι) (tbfRate : Nat) : WalkSystem ι κ :=
  ⟨(started ops ids tbfRate).head, [], none⟩

/-- No rule is unlinked while a walk has it in its hand. -/
def Clear (s : WalkSystem ι κ) : Turn ι κ → Prop
  | .act (.proceed i _) => ∀ r ∈ s.walk.bind (·.place.rule), s.calls[i]? ≠ some (.stopping r)
  | _ => True

instance [DecidableEq ι] [DecidableEq κ] (s : WalkSystem ι κ) : ∀ t, Decidable (Clear s t)
  | .act (.proceed i _) =>
    inferInstanceAs (Decidable (∀ r ∈ s.walk.bind (·.place.rule), s.calls[i]? ≠ some (.stopping r)))
  | .act (.resGet _) | .act (.startRule _ _ _ _) | .act (.changeRule _ _) | .act (.stopRule _) | .advance =>
    isTrue trivial

end Walks

section Places
variable {ι κ : Type} {ops : Ops ι κ} {h h' : Head ι κ} {quest : Quest ι κ} {rest calls : List (Call ι κ)}

def Quest.Missed (h : Head ι κ) (list : List Nat) : Quest ι κ → Prop
  | .built b => ∀ q ∈ list, h.nameOf q ≠ h.nameOf b
  | _ => True

def Quest.Wanted (h : Head ι κ) (r : Nat) : Quest ι κ → Prop
  | .stopping name => h.nameOf r = some name
  | _ => True

def Place.Sound (h : Head ι κ) (quest : Quest ι κ) : Place → Prop
  | .on r => ∃ pre post, h.thList = pre ++ r :: post ∧ quest.Missed h pre
  | .hit r => r ∈ h.thList ∧ quest.Wanted h r
  | .ended => quest.Missed h h.thList

theorem first_place_sound {pre post : List Nat} (list : h.thList = pre ++ post)
    (missed : quest.Missed h pre) :
    (firstPlace post).Sound h quest := by
  cases post with
  | nil =>
    show quest.Missed h h.thList
    rw [list, List.append_nil]
    exact missed
  | cons r post => exact ⟨pre, post, list, missed⟩

theorem missed_nil (h : Head ι κ) (quest : Quest ι κ) : quest.Missed h [] := by
  cases quest with
  | built b => exact fun q there => absurd there List.not_mem_nil
  | _ => trivial

theorem follow_append {r : Nat} {pre post : List Nat} (apart : r ∉ pre) :
    follow r (pre ++ r :: post) = firstPlace post := by
  induction pre with
  | nil => exact if_pos rfl
  | cons q pre ih =>
    rw [List.mem_cons, not_or] at apart
    rw [List.cons_append, follow, if_neg (Ne.symm apart.1), ih apart.2]

theorem walk_on_sound {r : Nat} {held : List Nat} (inv : RuleInv h held) (list : ListInv h)
    (sound : (Place.on r).Sound h quest) :
    ∃ place, walkOn ops h quest r = some place ∧ place.Sound h quest := by
  obtain ⟨pre, post, is, missed⟩ := sound
  have listed : r ∈ h.thList := by
    rw [is]
    exact List.mem_append_right pre List.mem_cons_self
  obtain ⟨rule, known⟩ := inv.listed listed
  have named : h.nameOf r = some rule.trName := by rw [Head.nameOf, known, Option.map_some]
  rw [walkOn, known]
  simp only [list.quiet r listed rule known, Bool.false_eq_true, ↓reduceIte]
  split
  · rename_i asked
    refine ⟨_, rfl, listed, ?_⟩
    cases quest with
    | stopping name =>
      rw [Quest.asks, decide_eq_true_eq] at asked
      rw [Quest.Wanted, named, asked]
    | _ => trivial
  · rename_i passed
    have once := inv.once
    rw [is] at once
    have apart : r ∉ pre := fun there => List.disjoint_of_nodup_append once there List.mem_cons_self
    refine ⟨_, rfl, ?_⟩
    rw [is, follow_append apart]
    have split : h.thList = (pre ++ [r]) ++ post := by
      rw [is, List.append_assoc, List.singleton_append]
    apply first_place_sound split
    cases quest with
    | built b =>
      intro q there
      rcases List.mem_append.mp there with earlier | here
      · exact missed q earlier
      · rw [List.mem_singleton.mp here, named]
        rw [Quest.asks, decide_eq_true_eq] at passed
        exact fun same => passed same.symm
    | _ => trivial

/-- The walk keeps its place while the others go on, as long as they do not unlink its rule. -/
theorem Place.Sound.keep {place : Place} (sound : place.Sound h quest)
    (list : h'.thList = h.thList ∨ ∃ q, place.rule ≠ some q ∧ h'.thList = h.thList.erase q)
    (listed : ∀ q ∈ h'.thList, h'.nameOf q = h.nameOf q)
    (held : ∀ q ∈ heldBy quest.pending, h'.nameOf q = h.nameOf q) : place.Sound h' quest := by
  have missed {now old : List Nat} (fewer : now ⊆ old) (inside : now ⊆ h'.thList)
      (before : quest.Missed h old) :
      quest.Missed h' now := by
    cases quest with
    | built b =>
      intro q there
      rw [listed q (inside there), held b List.mem_cons_self]
      exact before q (fewer there)
    | _ => trivial
  have wanted {r : Nat} (there : r ∈ h'.thList) (before : quest.Wanted h r) : quest.Wanted h' r := by
    cases quest with
    | stopping name => exact (listed r there).trans before
    | _ => trivial
  cases place with
  | on r =>
    obtain ⟨pre, post, is, before⟩ := sound
    rcases list with same | ⟨q, apart, erased⟩
    · rw [is] at same
      refine ⟨pre, post, same, missed (List.Subset.refl _) ?_ before⟩
      rw [same]
      exact List.subset_append_left _ _
    · have other : r ≠ q := fun here => apart (congrArg some here)
      by_cases earlier : q ∈ pre
      · rw [is, List.erase_append_left _ earlier] at erased
        refine ⟨pre.erase q, post, erased, missed List.erase_subset ?_ before⟩
        rw [erased]
        exact List.subset_append_left _ _
      · rw [is, List.erase_append_right _ earlier, List.erase_cons_tail (by simpa using other)] at erased
        refine ⟨pre, post.erase q, erased, missed (List.Subset.refl _) ?_ before⟩
        rw [erased]
        exact List.subset_append_left _ _
  | hit r =>
    have there : r ∈ h'.thList := by
      rcases list with same | ⟨q, apart, erased⟩
      · rw [same]
        exact sound.1
      · rw [erased]
        exact (List.mem_erase_of_ne fun here => apart (congrArg some here)).mpr sound.1
    exact ⟨there, wanted there sound.2⟩
  | ended =>
    apply missed _ (List.Subset.refl _) sound
    rcases list with same | ⟨q, -, erased⟩
    · rw [same]
      exact List.Subset.refl _
    · rw [erased]
      exact List.erase_subset

theorem keeps_finish {found : Option Nat} (inv : Inv ops h (quest.pending ++ calls))
    (scp : quest.holdsScpReqLock = true → calls.countP Call.holdsScpReqLock = 0)
    (nrs : quest.holdsNrsLock = true → calls.countP Call.holdsNrsLock = 0)
    (other : ∀ name, quest = .stopping name → name ≠ defaultRule)
    (hit : ∀ r, found = some r → r ∈ h.thList ∧ quest.Wanted h r)
    (missed : found = none → quest.Missed h h.thList) :
    Inv ops (finish h found quest).1 ((finish h found quest).2 ++ calls) := by
  have listed : found.getD h.thRule ∈ h.thList := by
    cases found with
    | none => exact inv.list.default
    | some r => exact (hit r rfl).1
  cases quest with
  | absent key => exact keeps_absent inv listed
  | found c =>
    obtain ⟨cli, r, rule, there, user, -⟩ := inv.guest (List.mem_cons_self : c ∈ c :: guestsOf calls)
    have kept := keeps_rematched inv (scp rfl) there user listed
    rw [finish, there]
    dsimp only
    rw [user]
    simpa only [Option.some.injEq, eq_comm] using kept
  | built r =>
    cases found with
    | none => exact keeps_listing inv (missed rfl)
    | some clash => exact keeps_clashing inv listed
  | starting name ids rate =>
    cases found with
    | none => exact Inv.begin inv rfl rfl rfl rfl rfl rfl rfl trivial
    | some r =>
      exact Inv.begin_with inv listed rfl rfl rfl rfl rfl rfl (fun lock => Bool.noConfusion lock) trivial
  | changing name rate =>
    cases found with
    | none => exact Inv.begin inv rfl rfl rfl rfl rfl rfl rfl trivial
    | some r => exact Inv.begin_with inv listed rfl rfl rfl rfl rfl rfl (fun _ => nrs rfl) trivial
  | stopping name =>
    cases found with
    | none => exact Inv.begin inv rfl rfl rfl rfl rfl rfl rfl trivial
    | some r =>
      exact Inv.begin_with inv listed rfl rfl rfl rfl rfl rfl (fun _ => nrs rfl)
        (inv.stoppable listed (hit r rfl).2 (other name rfl))

end Places

section Rounds
variable {ι κ : Type} {ops : Ops ι κ} {h h' : Head ι κ} {call : Call ι κ}
  {calls next rest : List (Call ι κ)} {s : WalkSystem ι κ} {w : Walk ι κ}

/-- The calls keep their invariant, the locks of the walk are its own, and the walk is on the list. -/
structure WalkInv (ops : Ops ι κ) (s : WalkSystem ι κ) : Prop where
  core : Inv ops s.head (s.pending ++ s.calls)
  scp : ∀ w, s.walk = some w → w.quest.holdsScpReqLock = true → s.calls.countP Call.holdsScpReqLock = 0
  nrs : ∀ w, s.walk = some w → w.quest.holdsNrsLock = true → s.calls.countP Call.holdsNrsLock = 0
  sound : ∀ w, s.walk = some w → w.place.Sound s.head w.quest
  other : ∀ w name, s.walk = some w → w.quest = .stopping name → name ≠ defaultRule

theorem pending_some (walk : s.walk = some w) : s.pending = w.quest.pending :=
  by rw [WalkSystem.pending, walk]; rfl

theorem pending_scp (s : WalkSystem ι κ) : s.pending.any Call.holdsScpReqLock = false := by
  rw [WalkSystem.pending]
  cases s.walk with
  | none => rfl
  | some w => cases w with | mk quest place => cases quest <;> rfl

theorem unbuilt_of_quest {ok lock : Bool} (walks : call.quest h ok lock = none) (r : Nat) :
    call ≠ .built r := by
  rintro rfl
  exact Option.some_ne_none _ walks

theorem quest_pending {ok lock : Bool} {quest : Quest ι κ} (walks : call.quest h ok lock = some quest) :
    quest.pending = [call] ∧ (quest.holdsScpReqLock = true → lock = false) ∧ quest.holdsNrsLock = false ∧
      ∀ name, quest ≠ .stopping name := by
  cases call with
  | absent key =>
    rw [Call.quest] at walks
    split at walks
    · rw [← Option.some.inj walks]
      exact ⟨rfl, fun lock => Bool.noConfusion lock, rfl, by simp⟩
    · exact absurd walks.symm (Option.some_ne_none quest)
  | found c =>
    rw [Call.quest] at walks
    split at walks
    · rename_i again
      rw [← Option.some.inj walks]
      exact ⟨rfl, fun _ => by simpa using (Bool.and_eq_true_iff.mp again).1, rfl, by simp⟩
    · exact absurd walks.symm (Option.some_ne_none quest)
  | built r =>
    rw [← Option.some.inj walks]
    exact ⟨rfl, fun lock => Bool.noConfusion lock, rfl, by simp⟩
  | _ => exact absurd walks.symm (Option.some_ne_none quest)

theorem WalkInv.keep (inv : WalkInv ops s) (after : Inv ops h' (s.pending ++ calls))
    (scp : s.calls.countP Call.holdsScpReqLock = 0 → s.walk.any (·.quest.holdsScpReqLock) = true →
      calls.countP Call.holdsScpReqLock = 0)
    (nrs : s.calls.countP Call.holdsNrsLock = 0 → calls.countP Call.holdsNrsLock = 0)
    (list : ∀ w, s.walk = some w →
      h'.thList = s.head.thList ∨ ∃ q, w.place.rule ≠ some q ∧ h'.thList = s.head.thList.erase q)
    (names : ∀ q, (∃ rule, s.head.rules q = some rule) → (∃ rule, h'.rules q = some rule) →
      h'.nameOf q = s.head.nameOf q) : WalkInv ops { s with head := h', calls := calls } := by
  have before := inv.core
  constructor
  case core => exact after
  case scp =>
    intro w walk lock
    apply scp (inv.scp w walk lock)
    rw [walk]
    exact lock
  case nrs =>
    intro w walk lock
    exact nrs (inv.nrs w walk lock)
  case sound =>
    intro w walk
    apply (inv.sound w walk).keep (list w walk)
    case listed =>
      intro q listed
      refine names q (before.rules.listed ?_) (after.rules.listed listed)
      rcases list w walk with kept | ⟨r, -, erased⟩
      · rwa [← kept]
      · rw [erased] at listed
        exact List.mem_of_mem_erase listed
    case held =>
      intro q held
      rw [← pending_some walk] at held
      have holder (others : List (Call ι κ)) : q ∈ heldBy (s.pending ++ others) := by
        rw [heldBy, List.flatMap_append]
        exact List.mem_append_left _ held
      exact names q (before.rules.holder (holder s.calls)) (after.rules.holder (holder calls))
  case other => exact inv.other

theorem keeps_beginning {quest : Quest ι κ} (inv : WalkInv ops s)
    (core : s.walk = none → Inv ops s.head (quest.pending ++ rest))
    (scp : quest.holdsScpReqLock = true → rest.countP Call.holdsScpReqLock = 0)
    (nrs : quest.holdsNrsLock = true → rest.countP Call.holdsNrsLock = 0)
    (other : ∀ name, quest = .stopping name → name ≠ defaultRule) : WalkInv ops (s.begin quest rest) := by
  rw [WalkSystem.begin]
  cases free : s.walk with
  | some w => exact inv
  | none =>
    constructor
    case core => exact core free
    case scp =>
      rintro w ⟨rfl⟩
      exact scp
    case nrs =>
      rintro w ⟨rfl⟩
      exact nrs
    case sound =>
      rintro w ⟨rfl⟩
      exact first_place_sound (List.nil_append _).symm (missed_nil _ _)
    case other =>
      rintro w name ⟨rfl⟩
      exact other name

theorem keeps_advance (inv : WalkInv ops s) (walk : s.walk = some w) : WalkInv ops (advance ops s w) := by
  have core := inv.core
  have sound := inv.sound w walk
  rw [pending_some walk] at core
  have ending (found : Option Nat) (hit : ∀ r, found = some r → r ∈ s.head.thList ∧ w.quest.Wanted s.head r)
      (missed : found = none → w.quest.Missed s.head s.head.thList) :
      WalkInv ops ⟨(finish s.head found w.quest).1, (finish s.head found w.quest).2 ++ s.calls, none⟩ := by
    constructor
    case core =>
      exact keeps_finish core (inv.scp w walk) (inv.nrs w walk) (fun name => inv.other w name walk) hit missed
    case scp | nrs | sound => exact fun w none => absurd none.symm (Option.some_ne_none w)
    case other => exact fun w name none => absurd none.symm (Option.some_ne_none w)
  rw [advance]
  cases place : w.place with
  | on r =>
    rw [place] at sound
    obtain ⟨next, went, kept⟩ := walk_on_sound core.rules core.list sound
    dsimp only
    rw [went]
    constructor
    case core => exact core
    case scp =>
      rintro v ⟨rfl⟩
      exact inv.scp w walk
    case nrs =>
      rintro v ⟨rfl⟩
      exact inv.nrs w walk
    case sound =>
      rintro v ⟨rfl⟩
      exact kept
    case other =>
      rintro v name ⟨rfl⟩
      exact inv.other w name walk
  | hit r =>
    rw [place] at sound
    apply ending (some r)
    · rintro q ⟨rfl⟩
      exact sound
    · exact fun none => absurd none (Option.some_ne_none r)
  | ended =>
    rw [place] at sound
    apply ending none
    · exact fun r none => absurd none.symm (Option.some_ne_none r)
    · exact fun _ => sound

theorem keeps_coming (inv : WalkInv ops s) (after : Inv ops h' (next ++ (s.pending ++ s.calls)))
    (quiet : Quiet s.head h' []) (scp : next.countP Call.holdsScpReqLock = 0)
    (nrs : next.countP Call.holdsNrsLock = 0) :
    WalkInv ops { s with head := h', calls := next ++ s.calls } := by
  apply inv.keep
  case after => exact after.perm (List.perm_append_comm_assoc _ _ _)
  case scp =>
    intro none _
    rw [List.countP_append, scp, none]
  case nrs =>
    intro none
    rw [List.countP_append, nrs, none]
  case list => exact fun _ _ => Or.inl quiet.list
  case names =>
    rintro q ⟨rule, known⟩ ⟨rule', known'⟩
    apply (quiet.names q (inv.core.rules.lt_next known)).resolve_left
    rw [known']
    exact Option.some_ne_none rule'

theorem keeps_returned (inv : WalkInv ops s) (rc : Int) :
    WalkInv ops { s with calls := .returned rc :: s.calls } := by
  have after : Inv ops s.head ([.returned rc] ++ (s.pending ++ s.calls)) :=
    inv.core.begin rfl rfl rfl rfl rfl rfl rfl trivial
  exact keeps_coming inv after (Quiet.refl s.head) rfl rfl

theorem taken_perm {calls : List (Call ι κ)} {i : Nat} (there : calls[i]? = some call) :
    (call :: calls.eraseIdx i).Perm calls := by
  obtain ⟨inside, is⟩ := List.getElem?_eq_some_iff.mp there
  rw [← is]
  exact List.getElem_cons_eraseIdx_perm inside

theorem WalkInv.bare (inv : WalkInv ops s) (free : s.walk = none) : Inv ops s.head s.calls := by
  have core := inv.core
  rwa [WalkSystem.pending, free] at core

theorem keeps_leaving {i : Nat} {ok : Bool} {quest : Quest ι κ} (inv : WalkInv ops s)
    (there : s.calls[i]? = some call)
    (walks : call.quest s.head ok
      ((s.calls.eraseIdx i).any Call.holdsScpReqLock || s.walk.any (·.quest.holdsScpReqLock)) =
        some quest) :
    WalkInv ops (s.begin quest (s.calls.eraseIdx i)) := by
  obtain ⟨pending, lock, unlocked, apart⟩ := quest_pending walks
  apply keeps_beginning inv
  case core =>
    intro free
    rw [pending]
    exact (inv.bare free).perm (taken_perm there).symm
  case scp =>
    intro holds
    rw [List.countP_eq_zero]
    simpa using (Bool.or_eq_false_iff.mp (lock holds)).1
  case nrs => exact fun holds => absurd (holds.symm.trans unlocked) (by simp)
  case other => exact fun name is => absurd is (apart name)

end Rounds

section Runs
variable {ι κ : Type} [DecidableEq κ] {ops : Ops ι κ} {h h' : Head ι κ} {call : Call ι κ}
  {next rest : List (Call ι κ)} {s : WalkSystem ι κ}

theorem progress_locks {ok lock : Bool} (went : progress ops ok lock h call = some (h', next)) :
    (lock = true → call.holdsScpReqLock = false → next.countP Call.holdsScpReqLock = 0) ∧
      (call.holdsNrsLock = false → next.countP Call.holdsNrsLock = 0) := by
  cases call with
  | found c =>
    rw [progress] at went
    split at went
    · exact absurd went.symm (Option.some_ne_none _)
    · rename_i unlocked
      refine ⟨fun lock => absurd lock unlocked, fun _ => ?_⟩
      rw [← show (checkRule ops c h).2 = next from congrArg Prod.snd (Option.some.inj went)]
      unfold checkRule
      repeat' split
      all_goals simp [Call.holdsNrsLock]
  | made c =>
    rw [← show (findAdd ops c h).2 = next from congrArg Prod.snd (Option.some.inj went)]
    unfold findAdd
    repeat' split
    all_goals simp [Call.holdsNrsLock, Call.holdsScpReqLock]
  | built r =>
    rw [← show (listRule r h).2 = next from congrArg Prod.snd (Option.some.inj went)]
    unfold listRule
    repeat' split
    all_goals simp [Call.holdsNrsLock, Call.holdsScpReqLock]
  | absent key =>
    rw [progress] at went
    split at went
    · rw [← (Prod.mk.inj (Option.some.inj went)).2]
      exact ⟨fun _ _ => rfl, fun _ => rfl⟩
    · dsimp only at went
      split at went
      all_goals
        rw [← (Prod.mk.inj (Option.some.inj went)).2]
        exact ⟨fun _ _ => rfl, fun _ => rfl⟩
  | starting name ids rate =>
    rw [progress] at went
    split at went
    all_goals
      rw [← (Prod.mk.inj (Option.some.inj went)).2]
      exact ⟨fun _ _ => rfl, fun _ => rfl⟩
  | matched known c r | linked known c =>
    rw [← (Prod.mk.inj (Option.some.inj went)).2]
    cases known with
    | true => exact ⟨fun _ lock => Bool.noConfusion lock, fun _ => rfl⟩
    | false => exact ⟨fun _ _ => rfl, fun _ => rfl⟩
  | zombies cs =>
    cases cs <;>
    · rw [← (Prod.mk.inj (Option.some.inj went)).2]
      exact ⟨fun _ _ => rfl, fun _ => rfl⟩
  | dropping nrsLock rs rc =>
    cases nrsLock with
    | true =>
      cases rs <;>
      · rw [← (Prod.mk.inj (Option.some.inj went)).2]
        exact ⟨fun _ _ => rfl, fun lock => Bool.noConfusion lock⟩
    | false =>
      cases rs <;>
      · rw [← (Prod.mk.inj (Option.some.inj went)).2]
        exact ⟨fun _ _ => rfl, fun _ => rfl⟩
  | changing r rate | stopping r | unlinked r =>
    rw [← (Prod.mk.inj (Option.some.inj went)).2]
    exact ⟨fun _ _ => rfl, fun lock => Bool.noConfusion lock⟩
  | _ =>
    rw [← (Prod.mk.inj (Option.some.inj went)).2]
    exact ⟨fun _ _ => rfl, fun _ => rfl⟩

theorem progress_unlocked {ok here there : Bool}
    (went : progress ops ok (here || there) h call = some (h', next)) :
    progress ops ok here h call = some (h', next) := by
  cases call with
  | found c =>
    cases here with
    | true => exact went
    | false =>
      cases there with
      | true => exact absurd went.symm (Option.some_ne_none _)
      | false => exact went
  | zombies cs => cases cs <;> exact went
  | dropping nrsLock rs rc => cases rs <;> exact went
  | _ => exact went

theorem progress_list {ok lock : Bool} (inv : Inv ops h ([call] ++ rest))
    (went : progress ops ok lock h call = some (h', next)) (unbuilt : ∀ r, call ≠ .built r) :
    h'.thList = h.thList ∨ ∃ r, call = .stopping r ∧ h'.thList = h.thList.erase r := by
  rcases progress_effect inv went with quiet | ⟨-, is⟩ | ⟨list, is, ⟨r, built⟩ | ⟨r, stopping, erased⟩⟩
  · exact Or.inl quiet.list
  · rw [is]
    exact Or.inl rfl
  · exact absurd built (unbuilt r)
  · right
    rw [is, erased]
    exact ⟨r, stopping, rfl⟩

theorem progress_names {ok lock : Bool} (inv : Inv ops h ([call] ++ rest))
    (went : progress ops ok lock h call = some (h', next)) {q : Nat} (before : ∃ rule, h.rules q = some rule)
    (after : ∃ rule, h'.rules q = some rule) : h'.nameOf q = h.nameOf q := by
  obtain ⟨rule, known⟩ := before
  obtain ⟨rule', known'⟩ := after
  rcases progress_effect inv went with quiet | ⟨-, is⟩ | ⟨list, is, -⟩
  · apply (quiet.names q (inv.rules.lt_next known)).resolve_left
    rw [known']
    exact Option.some_ne_none rule'
  · rw [is]
    rfl
  · rw [is]
    rfl

theorem keeps_going {i : Nat} {ok : Bool} (inv : WalkInv ops s) (there : s.calls[i]? = some call)
    (clear : Clear s (.act (.proceed i ok)))
    (unbuilt : ∀ r, call ≠ .built r)
    (went : progress ops ok
      ((s.calls.eraseIdx i).any Call.holdsScpReqLock || s.walk.any (·.quest.holdsScpReqLock)) s.head call =
        some (h', next)) :
    WalkInv ops { s with head := h', calls := next ++ s.calls.eraseIdx i } := by
  have split := taken_perm there
  have before : Inv ops s.head ([call] ++ (s.pending ++ s.calls.eraseIdx i)) := by
    apply inv.core.perm
    exact (split.symm.append_left _).trans List.perm_middle
  have locked : (s.pending ++ s.calls.eraseIdx i).any Call.holdsScpReqLock =
      (s.calls.eraseIdx i).any Call.holdsScpReqLock := by rw [List.any_append, pending_scp, Bool.false_or]
  have after : Inv ops h' (next ++ (s.pending ++ s.calls.eraseIdx i)) := by
    apply keeps_progress before
    rw [locked]
    exact progress_unlocked went
  have locks := progress_locks went
  have count (p : Call ι κ → Bool) (none : s.calls.countP p = 0) :
      p call = false ∧ (s.calls.eraseIdx i).countP p = 0 := by
    rw [← split.countP_eq, List.countP_eq_zero] at none
    exact ⟨by simpa using none call List.mem_cons_self,
      List.countP_eq_zero.mpr fun other near => none other (List.mem_cons_of_mem _ near)⟩
  apply inv.keep
  case after => exact after.perm (List.perm_append_comm_assoc _ _ _)
  case scp =>
    intro none lock
    obtain ⟨mine, others⟩ := count _ none
    rw [List.countP_append, others]
    apply locks.1 _ mine
    rw [lock, Bool.or_true]
  case nrs =>
    intro none
    obtain ⟨mine, others⟩ := count _ none
    rw [List.countP_append, others, locks.2 mine]
  case list =>
    intro w walk
    rcases progress_list before went unbuilt with same | ⟨r, stopping, erased⟩
    · exact Or.inl same
    · refine Or.inr ⟨r, ?_, erased⟩
      intro stands
      apply clear r _ (stopping ▸ there)
      rw [walk]
      exact stands
  case names => exact fun q => progress_names before went

theorem keeps_walk_act (inv : WalkInv ops s) (e : Event ι κ) (clear : Clear s (.act e)) :
    WalkInv ops (walkAct ops s e) := by
  have free (unlocked : ¬ (s.calls.any Call.holdsNrsLock || s.walk.any (·.quest.holdsNrsLock)) = true) :
      s.calls.countP Call.holdsNrsLock = 0 := by
    rw [Bool.or_eq_true, not_or] at unlocked
    rw [List.countP_eq_zero]
    simpa using unlocked.1
  cases e with
  | resGet key =>
    obtain ⟨quiet, -⟩ := quiet_enter ops false s.head (.resGet key)
    have unlocked : (enter ops false s.head (.resGet key)).2.countP Call.holdsScpReqLock = 0 ∧
        (enter ops false s.head (.resGet key)).2.countP Call.holdsNrsLock = 0 := by
      rw [enter]
      split <;> exact ⟨rfl, rfl⟩
    exact keeps_coming inv (keeps_enter inv.core (.resGet key)) quiet unlocked.1 unlocked.2
  | startRule validType name ids rate =>
    rw [walkAct]
    split
    · exact keeps_returned inv einval
    · apply keeps_beginning inv
      case core => exact inv.bare
      case scp | nrs => exact fun lock => Bool.noConfusion lock
      case other => simp
  | changeRule name rate =>
    rw [walkAct]
    split
    · exact inv
    · rename_i unlocked
      apply keeps_beginning inv
      case core => exact inv.bare
      case scp => exact fun lock => Bool.noConfusion lock
      case nrs => exact fun _ => free unlocked
      case other => simp
  | stopRule name =>
    rw [walkAct]
    split
    · exact inv
    · rename_i unlocked
      split
      · exact keeps_returned inv eperm
      · rename_i apart
        apply keeps_beginning inv
        case core => exact inv.bare
        case scp => exact fun lock => Bool.noConfusion lock
        case nrs => exact fun _ => free unlocked
        case other =>
          rintro _ ⟨rfl⟩
          exact apart
  | proceed i ok =>
    rw [walkAct]
    split
    · exact inv
    · rename_i call there
      dsimp only
      split
      · rename_i quest walks
        exact keeps_leaving inv there walks
      · rename_i walks
        split
        · exact inv
        · rename_i head next went
          exact keeps_going inv there clear (unbuilt_of_quest walks) went

theorem keeps_walk_step (inv : WalkInv ops s) (t : Turn ι κ) (clear : Clear s t) :
    WalkInv ops (walkStep ops s t) := by
  cases t with
  | act e =>
    rw [walkStep, inv.core.running]
    exact keeps_walk_act inv e clear
  | advance =>
    rw [walkStep, inv.core.running]
    cases walk : s.walk with
    | none => exact inv
    | some w => exact keeps_advance inv walk

theorem always_walk_inv (ops : Ops ι κ) (ids : ι) (tbfRate : Nat) (ts : List (Turn ι κ))
    (clear : Along (walkStep ops) Clear (walkStart ops ids tbfRate) ts) :
    Always (walkStep ops) (WalkInv ops) (walkStart ops ids tbfRate) ts := by
  apply always_of_along (fun _ t inv clear => keeps_walk_step inv t clear) _ clear
  constructor
  case core => exact started_inv ops ids tbfRate
  case scp | nrs | sound => exact fun w none => absurd none.symm (Option.some_ne_none w)
  case other => exact fun w name none => absurd none.symm (Option.some_ne_none w)

/-- No assertion fails and no freed rule is used; a rule is there as long as the list, a client or a
    call holds it, and its counter says how many do. -/
theorem rules_counted (ops : Ops ι κ) (ids : ι) (tbfRate : Nat) (ts : List (Turn ι κ))
    (clear : Along (walkStep ops) Clear (walkStart ops ids tbfRate) ts) :
    Always (walkStep ops)
      (fun s => s.head.lbug = false ∧
        (∀ r rule, s.head.rules r = some rule →
          rule.trRef =
            s.head.thList.count r + rule.trCliList.length + (heldBy (s.pending ++ s.calls)).count r ∧
          (∀ c, c ∈ rule.trCliList ↔ s.head.ruleOf c = some r)) ∧
        ∀ r, (s.head.rules r).isSome = true ↔
          r ∈ s.head.thList ∨ r ∈ heldBy (s.pending ++ s.calls) ∨ ∃ c, s.head.ruleOf c = some r)
      (walkStart ops ids tbfRate) ts := by
  refine always_mono ?_ (always_walk_inv ops ids tbfRate ts clear)
  intro s walkInv
  have inv := walkInv.core
  refine ⟨inv.running, ?_, ?_⟩
  · intro r rule known
    exact ⟨(inv.rules.counted r rule known).1, (inv.rules.users r rule known).2⟩
  · intro r
    constructor
    · intro live
      obtain ⟨rule, known⟩ := Option.isSome_iff_exists.mp live
      obtain ⟨counted, positive⟩ := inv.rules.counted r rule known
      by_contra unheld
      rw [not_or, not_or, not_exists] at unheld
      have unused : rule.trCliList = [] := by
        rw [List.eq_nil_iff_forall_not_mem]
        exact fun c member => unheld.2.2 c (((inv.rules.users r rule known).2 c).mp member)
      rw [List.count_eq_zero.mpr unheld.1, List.count_eq_zero.mpr unheld.2.1, unused] at counted
      rw [counted] at positive
      exact absurd positive (by decide)
    · rintro (listed | held | ⟨c, user⟩)
      · obtain ⟨rule, known⟩ := inv.rules.listed listed
        rw [known]
        rfl
      · obtain ⟨rule, known⟩ := inv.rules.holder held
        rw [known]
        rfl
      · obtain ⟨rule, known⟩ := inv.rules.user user
        rw [known]
        rfl

end Runs

def walkedThrough : List (Turn (List (List Char)) (List Char)) :=
  .act (.proceed 0 true) :: List.replicate 4 .advance

/-- Two requests make a client for one job at a time and one of them loses; the rule is stopped while
    a client uses it and a third request is on its walk, past the rule. -/
def crowdedWalks : List (Turn (List (List Char)) (List Char)) :=
  .act (.startRule true ['a'] [['x']] 5) :: (List.replicate 5 walkedThrough).flatten ++
    [.act (.resGet ['x']), .act (.resGet ['x']), .act (.proceed 0 true), .advance, .advance,
      .act (.proceed 1 true), .advance, .advance] ++
    List.replicate 3 (.act (.proceed 0 true)) ++ [.act (.proceed 1 true)] ++
    List.replicate 3 (.act (.proceed 0 true)) ++
    [.act (.stopRule ['a']), .advance, .advance, .act (.resGet ['y']), .act (.proceed 0 true), .advance] ++
    (List.replicate 20 walkedThrough).flatten

theorem rules_counted_crowded :
    Along (walkStep smallJobidOps) Clear (walkStart smallJobidOps [] 10000) crowdedWalks ∧
      (run (walkStep smallJobidOps) (walkStart smallJobidOps [] 10000) crowdedWalks).head.lbug = false := by
  have clear : Along (walkStep smallJobidOps) Clear (walkStart smallJobidOps [] 10000) crowdedWalks := by
    decide +kernel
  exact ⟨clear, (always_run (rules_counted smallJobidOps [] 10000 crowdedWalks clear)).1⟩

/-- The rule is unlinked while the walk of a request stands at it. -/
example :
    (run (walkStep smallJobidOps) (walkStart smallJobidOps [] 10000)
      (.act (.startRule true ['a'] [['x']] 5) :: (List.replicate 5 walkedThrough).flatten ++
        [.act (.stopRule ['a']), .advance, .advance, .act (.resGet ['y']), .act (.proceed 0 true),
          .act (.proceed 0 true), .advance, .act (.proceed 0 true), .advance])).head.lbug = true := by
  decide +kernel

end TbfRules
