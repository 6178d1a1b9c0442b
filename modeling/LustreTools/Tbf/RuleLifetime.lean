import Mathlib.Algebra.Order.BigOperators.Group.List
import Mathlib.Data.List.Perm.Basic
import LustreTools.Tbf.RuleSteps

/-!
The life of the rules and the clients over whole runs in which a walk along the rule list is one step.
However the calls interleave, the counters are right and every client has one place; and stopping the
policy when no call is under way frees everything.
-/
namespace TbfRules
open Runs Words TbfPolicy

section Start
variable {ι κ : Type} {ops : Ops ι κ} {h : Head ι κ} {rest : List (Call ι κ)}

theorem Inv.begin {call : Call ι κ} (inv : Inv ops h rest) (held : call.held = []) (guests : call.guests = [])
    (owned : call.owned = []) (dead : call.dead = []) (bare : call.bare = [])
    (scp : call.holdsScpReqLock = false) (nrs : call.holdsNrsLock = false)
    (ok : CallOk h (heldBy ([call] ++ rest)) call) : Inv ops h ([call] ++ rest) := by
  apply Inv.shift (show Inv ops h ([] ++ rest) from inv)
  case held => simp [heldBy, held]
  case guests => simp [guestsOf, guests]
  case owned => simp [ownedBy, owned]
  case dead => simp [deadOf, dead]
  case bare => simp [bareOf, bare]
  case mine =>
    intro other there
    rw [List.mem_singleton.mp there]
    exact ok
  case scp => simpa [List.countP_cons, scp] using inv.scp
  case nrs => simpa [List.countP_cons, nrs] using inv.nrs

theorem Inv.begin_with {call : Call ι κ} {r : Nat} (inv : Inv ops h rest) (listed : r ∈ h.thList)
    (held : call.held = [r]) (guests : call.guests = []) (owned : call.owned = []) (dead : call.dead = [])
    (bare : call.bare = []) (scp : call.holdsScpReqLock = false)
    (nrs : call.holdsNrsLock = true → rest.countP Call.holdsNrsLock = 0)
    (ok : CallOk (nrsTbfRuleGet r h) (heldBy ([call] ++ rest)) call) :
    Inv ops (nrsTbfRuleGet r h) ([call] ++ rest) := by
  apply Inv.get (show Inv ops h ([] ++ rest) from inv) listed
  case held => simp [heldBy, held]
  case more =>
    intro q there
    rw [held] at there
    exact Or.inl (List.mem_singleton.mp there)
  case guests => simp [guestsOf, guests]
  case owned => simp [ownedBy, owned]
  case dead => simp [deadOf, dead]
  case before => rfl
  case after => simp [bareOf, bare]
  case mine => exact ok
  case scp => simpa [List.countP_cons, scp] using inv.scp
  case nrs =>
    cases lock : call.holdsNrsLock with
    | true =>
      rw [nrs lock]
      exact List.countP_le_length
    | false => simpa [List.countP_cons, lock] using inv.nrs

theorem Inv.stoppable {r : Nat} {name : List Char} (inv : Inv ops h rest) (listed : r ∈ h.thList)
    (named : h.nameOf r = some name) (other : name ≠ defaultRule) :
    r ∈ (nrsTbfRuleGet r h).thList ∧ r ≠ (nrsTbfRuleGet r h).thRule := by
  obtain ⟨rule, known⟩ := inv.rules.listed listed
  rw [(rule_get inv.rules known).1]
  refine ⟨listed, ?_⟩
  intro here
  rw [show r = h.thRule from here] at named
  exact other (Option.some.inj (named.symm.trans inv.list.defaultName))

theorem keeps_lookup {name : List Char} {found : Nat → Call ι κ} {missing : Call ι κ} (inv : Inv ops h rest)
    (held : ∀ r, (found r).held = [r]) (guests : ∀ r, (found r).guests = [])
    (owned : ∀ r, (found r).owned = [])
    (dead : ∀ r, (found r).dead = []) (bare : ∀ r, (found r).bare = [])
    (scp : ∀ r, (found r).holdsScpReqLock = false) (unlocked : rest.countP Call.holdsNrsLock = 0)
    (ok : ∀ r, r ∈ h.thList → h.nameOf r = some name →
      CallOk (nrsTbfRuleGet r h) (heldBy ([found r] ++ rest)) (found r))
    (other : Inv ops h ([missing] ++ rest)) :
    Inv ops (lookup h name found missing).1 ((lookup h name found missing).2 ++ rest) := by
  obtain ⟨search, scanned, hit, -⟩ := find_spec inv.rules inv.list name
  unfold lookup
  rw [scanned]
  cases search with
  | none => exact other
  | some r =>
    obtain ⟨listed, named⟩ := hit r rfl
    exact inv.begin_with listed (held r) (guests r) (owned r) (dead r) (bare r) (scp r) (fun _ => unlocked)
      (ok r listed named)

theorem started_inv (ops : Ops ι κ) (ids : ι) (tbfRate : Nat) :
    Inv ops (started ops ids tbfRate).head (started ops ids tbfRate).calls := by
  have known {r : Nat} {rule : Rule ι} (there : (started ops ids tbfRate).head.rules r = some rule) :
      r = 0 ∧ rule = newRule ops defaultRule ids tbfRate := by
    by_cases here : r = 0
    · subst here
      exact ⟨rfl, by simpa [started] using there.symm⟩
    · simp [started, here] at there
  constructor
  case rules =>
    constructor
    case counted =>
      intro r rule there
      obtain ⟨rfl, rfl⟩ := known there
      exact ⟨rfl, Int.one_pos⟩
    case gone =>
      intro r freed
      have apart : r ≠ 0 := by
        rintro rfl
        simp [started] at freed
      exact ⟨by simpa [started] using apart, List.not_mem_nil, fun c => by simp [Head.ruleOf, started]⟩
    case users =>
      intro r rule there
      obtain ⟨rfl, rfl⟩ := known there
      exact ⟨List.nodup_nil, fun c => by simp [Head.ruleOf, started, newRule]⟩
    case once => exact List.nodup_singleton 0
    case unborn =>
      intro r later
      have apart : r ≠ 0 := Nat.one_le_iff_ne_zero.mp later
      simp [started, apart]
  case clients =>
    constructor
    case counted => simp [Head.refOf, started]
    case placed => simp [Head.refOf, started, ownedBy, deadOf]
    case hashed => simp [started, guestsOf]
    case keys => simp [started]
    case idle => simp [started]
    case once => simp [started]
    case unborn => simp [Head.refOf, started]
  case room => exact fun b => Nat.zero_le _
  case list =>
    constructor
    case quiet =>
      intro r listed rule there
      obtain ⟨-, rfl⟩ := known there
      rfl
    case names =>
      intro r one q other same
      rw [List.mem_singleton.mp one, List.mem_singleton.mp other]
    case default => exact List.mem_singleton.mpr rfl
    case defaultName => simp [Head.nameOf, started, newRule]
  case bare => simp [Head.refOf, started]
  case each => simp [started]
  case scp | nrs => exact Nat.zero_le 1
  case running => rfl

theorem bucket_share (size : Nat) : bucketCount size * highWater size ≤ size := by
  rw [bucketCount, highWater, Nat.mul_comm]
  exact Nat.div_mul_le_self size _

theorem Inv.idle_listed (inv : Inv ops h rest) (jobid : ops.itemref = false) {c : Nat}
    (hashed : c ∈ h.thCliHash)
    (idle : c ∉ guestsOf rest) : ∃ b < bucketCount ops.tbfJobidCacheSize, c ∈ h.ntbLru b := by
  obtain ⟨cli, there⟩ := inv.clients.live_hashed hashed
  have place := inv.clients.one_place there
  have inside := List.count_pos_iff.mpr hashed
  have zero : cli.tcRef = 0 := by
    have counted := inv.clients.ref_eq there
    have unowned : (ownedBy rest).count c = 0 := by omega
    rw [jobid, unowned, List.count_eq_zero.mpr idle] at counted
    simpa using counted
  refine ⟨ops.bucket cli.tcKey, ops.bucket_lt cli.tcKey, ?_⟩
  rw [inv.clients.idle, in_bucket_eq there, Head.refOf, there, Option.map_some, zero]
  exact ⟨jobid, hashed, rfl, rfl⟩

/-- The head while the policy is stopped: only the hash holds clients. -/
structure Draining (ops : Ops ι κ) (h : Head ι κ) : Prop where
  rules : RuleInv h []
  once : h.thCliHash.Nodup
  hashed : ∀ c, (h.clients c).isSome = true ↔ c ∈ h.thCliHash
  clients : ∀ c cli, h.clients c = some cli →
    cli.tcRef = (if ops.itemref then 1 else 0) ∧ cli.tcRule ≠ none
  running : h.lbug = false

theorem Inv.draining (inv : Inv ops h []) : Draining ops h where
  rules := inv.rules
  once := by
    rw [List.nodup_iff_count_le_one]
    intro c
    have place := inv.clients.placed c
    split at place <;> omega
  hashed c := by
    have place : h.thCliHash.count c + 0 + 0 = if (h.refOf c).isSome then 1 else 0 := inv.clients.placed c
    rw [← List.count_pos_iff]
    have same : (h.refOf c).isSome = (h.clients c).isSome := by rw [Head.refOf, Option.isSome_map]
    rw [same] at place
    constructor
    · intro live
      rw [if_pos live] at place
      omega
    · intro counted
      by_contra dead
      rw [if_neg dead] at place
      omega
  clients c cli there := by
    have counted := inv.clients.ref_eq there
    have place := inv.clients.one_place there
    have hashed : c ∈ h.thCliHash := by
      rw [← List.count_pos_iff]
      change h.thCliHash.count c + 0 + 0 = 1 at place
      omega
    obtain ⟨r, rule, user, -⟩ := inv.ruled there List.not_mem_nil
    refine ⟨?_, ?_⟩
    · simpa [hashed, guestsOf, ownedBy] using counted
    · rw [user]
      exact Option.some_ne_none r
  running := inv.running

theorem Draining.exit {c : Nat} {cs : List Nat} (drain : Draining ops h) (hash : h.thCliHash = c :: cs) :
    Draining ops (hashExit ops h c) ∧ (hashExit ops h c).thCliHash = cs := by
  have inside : c ∈ h.thCliHash := by
    rw [hash]
    exact List.mem_cons_self
  obtain ⟨cli, there⟩ := Option.isSome_iff_exists.mp ((drain.hashed c).mpr inside)
  obtain ⟨ref, ruled⟩ := drain.clients c cli there
  obtain ⟨r, user⟩ := Option.ne_none_iff_exists'.mp ruled
  have once := drain.once
  rw [hash, List.nodup_cons] at once
  let base : Head ι κ := { h with thCliHash := h.thCliHash.erase c }
  have dropped : addRef c (if ops.itemref then -1 else 0) base =
      base.setClient c (some { cli with tcRef := 0 }) := by
    rw [add_ref (h := base) there, ref]
    cases ops.itemref <;> rfl
  have exit : hashExit ops h c = nrsTbfCliFini c (base.setClient c (some { cli with tcRef := 0 })) := by
    rw [← dropped]
    rfl
  have rules : RuleInv (base.setClient c (some { cli with tcRef := 0 })) [] := by
    apply drain.rules.congr
    case rules | list | next => rfl
    case ruleOf =>
      intro d
      rw [ruleOf_setClient]
      split
      · rename_i here
        rw [here, Head.ruleOf, there]
        rfl
      · rfl
  have based : (base.setClient c (some { cli with tcRef := 0 })).clients c = some { cli with tcRef := 0 } :=
    Function.update_self _ _ _
  obtain ⟨⟨rules', form⟩, kept, touched, only, calm⟩ := cli_fini rules based user rfl
  have left : (hashExit ops h c).thCliHash = cs := by
    rw [exit, form]
    show h.thCliHash.erase c = cs
    rw [hash, List.erase_cons_head]
  have clients : (hashExit ops h c).clients = Function.update h.clients c none := by
    rw [exit, form]
    exact Function.update_idem _ _ _
  refine ⟨?_, left⟩
  constructor
  case rules =>
    rw [exit]
    exact kept
  case once =>
    rw [left]
    exact once.2
  case hashed =>
    intro d
    rw [left, clients]
    by_cases here : d = c
    · subst here
      simp [once.1]
    · rw [Function.update_of_ne here, drain.hashed, hash, List.mem_cons, or_iff_right here]
  case clients =>
    intro d other known
    rw [clients] at known
    by_cases here : d = c
    · subst here
      simp at known
    · rw [Function.update_of_ne here] at known
      exact drain.clients d other known
  case running =>
    rw [exit, calm.running]
    exact drain.running

theorem Draining.hash_exit (drain : Draining ops h) {cs : List Nat} (hash : h.thCliHash = cs) :
    Draining ops (cs.foldl (hashExit ops) h) ∧ (cs.foldl (hashExit ops) h).thCliHash = [] := by
  induction cs generalizing h with
  | nil => exact ⟨drain, hash⟩
  | cons c cs ih =>
    obtain ⟨next, left⟩ := drain.exit hash
    exact ih next left

theorem Draining.unlist (drain : Draining ops h) (hash : h.thCliHash = []) {list : List Nat}
    (rules : h.thList = list) :
    (list.foldl unlistRule h).lbug = false ∧ (∀ r, (list.foldl unlistRule h).rules r = none) ∧
      ∀ c, (list.foldl unlistRule h).clients c = none := by
  have empty (c : Nat) : h.clients c = none := by
    have unhashed : ¬ (h.clients c).isSome = true := by
      rw [drain.hashed, hash]
      exact List.not_mem_nil
    simpa using unhashed
  induction list generalizing h with
  | nil =>
    refine ⟨drain.running, fun r => ?_, empty⟩
    cases known : h.rules r with
    | none => exact known
    | some rule =>
      obtain ⟨counted, positive⟩ := drain.rules.counted r rule known
      have unused : rule.trCliList = [] := by
        rw [List.eq_nil_iff_forall_not_mem]
        intro c member
        have user := ((drain.rules.users r rule known).2 c).mp member
        rw [Head.ruleOf, empty c] at user
        exact absurd user.symm (Option.some_ne_none r)
      rw [rules, unused] at counted
      rw [counted] at positive
      exact absurd positive (by simp)
  | cons r list ih =>
    have listed : r ∈ h.thList := by
      rw [rules]
      exact List.mem_cons_self
    have middle := drain.rules.unlist listed
    obtain ⟨rule, known, put, kept⟩ := rule_put middle
    have form : unlistRule h r = ({ h with thList := h.thList.erase r }).setRule r rule.less := put
    have left : (unlistRule h r).thList = list := by
      rw [form]
      show h.thList.erase r = list
      rw [rules, List.erase_cons_head]
    have clients : (unlistRule h r).clients = h.clients := by
      rw [form]
      rfl
    have hash' : (unlistRule h r).thCliHash = h.thCliHash := by
      rw [form]
      rfl
    apply ih
    case drain =>
      constructor
      case rules => exact kept
      case once =>
        rw [hash']
        exact drain.once
      case hashed =>
        rw [hash', clients]
        exact drain.hashed
      case clients =>
        rw [clients]
        exact drain.clients
      case running =>
        rw [form]
        exact drain.running
    case hash => rw [hash', hash]
    case rules => exact left
    case empty =>
      rw [clients]
      exact empty
theorem Inv.stop (inv : Inv ops h []) :
    (nrsTbfStop ops h).lbug = false ∧ (∀ r, (nrsTbfStop ops h).rules r = none) ∧
      ∀ c, (nrsTbfStop ops h).clients c = none := by
  obtain ⟨drain, hash⟩ := inv.draining.hash_exit rfl
  exact drain.unlist hash rfl

end Start

section Runs
variable {ι κ : Type} [DecidableEq κ] {ops : Ops ι κ} {h h' : Head ι κ} {rest : List (Call ι κ)}

theorem keeps_progress {ok : Bool} {call : Call ι κ} {next : List (Call ι κ)}
    (inv : Inv ops h ([call] ++ rest))
    (went : progress ops ok (rest.any Call.holdsScpReqLock) h call = some (h', next)) :
    Inv ops h' (next ++ rest) := by
  have locks := inv.locks
  unfold progress at went
  split at went
  case h_1 key =>
    split at went
    · obtain ⟨rfl, rfl⟩ := Prod.mk.inj (Option.some.inj went)
      exact inv.shift rfl rfl rfl rfl rfl (by simp [CallOk]) locks.1 locks.2
    · obtain ⟨r, matched, listed⟩ := match_listed ops inv.rules inv.list key
      dsimp only at went
      rw [matched] at went
      obtain ⟨rfl, rfl⟩ := Prod.mk.inj (Option.some.inj went)
      exact keeps_absent inv listed
  case h_2 c =>
    split at went
    · exact absurd went.symm (Option.some_ne_none _)
    · rename_i unlocked
      obtain ⟨rfl, rfl⟩ := Prod.mk.inj (Option.some.inj went)
      apply keeps_found inv
      rw [List.countP_eq_zero]
      simpa using unlocked
  case h_3 known c r =>
    obtain ⟨rfl, rfl⟩ := Prod.mk.inj (Option.some.inj went)
    exact keeps_matched inv
  case h_4 known c =>
    obtain ⟨rfl, rfl⟩ := Prod.mk.inj (Option.some.inj went)
    exact keeps_linked inv
  case h_5 c r =>
    obtain ⟨rfl, rfl⟩ := Prod.mk.inj (Option.some.inj went)
    exact keeps_same inv
  case h_6 c =>
    obtain ⟨rfl, rfl⟩ := Prod.mk.inj (Option.some.inj went)
    exact keeps_made inv
  case h_7 c d =>
    obtain ⟨rfl, rfl⟩ := Prod.mk.inj (Option.some.inj went)
    exact keeps_lost inv
  case h_8 c =>
    obtain ⟨rfl, rfl⟩ := Prod.mk.inj (Option.some.inj went)
    exact keeps_serving inv
  case h_9 =>
    obtain ⟨rfl, rfl⟩ := Prod.mk.inj (Option.some.inj went)
    exact inv.shift rfl rfl rfl rfl rfl (by simp) locks.1 locks.2
  case h_10 c cs =>
    obtain ⟨rfl, rfl⟩ := Prod.mk.inj (Option.some.inj went)
    exact keeps_zombies inv
  case h_11 name ids rate =>
    split at went
    · obtain ⟨rfl, rfl⟩ := Prod.mk.inj (Option.some.inj went)
      exact inv.shift rfl rfl rfl rfl rfl (by simp [CallOk]) locks.1 locks.2
    · obtain ⟨rfl, rfl⟩ := Prod.mk.inj (Option.some.inj went)
      exact keeps_starting inv
  case h_12 r =>
    obtain ⟨rfl, rfl⟩ := Prod.mk.inj (Option.some.inj went)
    exact keeps_built inv
  case h_13 =>
    obtain ⟨rfl, rfl⟩ := Prod.mk.inj (Option.some.inj went)
    exact keeps_listed inv _
  case h_14 r rate =>
    obtain ⟨rfl, rfl⟩ := Prod.mk.inj (Option.some.inj went)
    exact keeps_changing inv
  case h_15 r =>
    obtain ⟨rfl, rfl⟩ := Prod.mk.inj (Option.some.inj went)
    exact keeps_stopping inv
  case h_16 r =>
    obtain ⟨rfl, rfl⟩ := Prod.mk.inj (Option.some.inj went)
    exact keeps_unlinked inv
  case h_17 nrsLock rc =>
    obtain ⟨rfl, rfl⟩ := Prod.mk.inj (Option.some.inj went)
    apply inv.shift
    case held | guests | owned | dead | bare => rfl
    case mine => simp [CallOk]
    case scp => exact locks.1
    case nrs => exact le_trans (Nat.add_le_add_right (Nat.zero_le _) _) locks.2
  case h_18 nrsLock r rs rc =>
    obtain ⟨rfl, rfl⟩ := Prod.mk.inj (Option.some.inj went)
    exact keeps_dropping inv
  case h_19 rc =>
    obtain ⟨rfl, rfl⟩ := Prod.mk.inj (Option.some.inj went)
    exact inv.shift rfl rfl rfl rfl rfl (by simp) locks.1 locks.2

theorem keeps_enter (inv : Inv ops h rest) (e : Event ι κ) :
    Inv ops (enter ops (rest.any Call.holdsNrsLock) h e).1
      ((enter ops (rest.any Call.holdsNrsLock) h e).2 ++ rest) := by
  have free (unlocked : ¬ rest.any Call.holdsNrsLock = true) : rest.countP Call.holdsNrsLock = 0 := by
    rw [List.countP_eq_zero]
    simpa using unlocked
  cases e with
  | resGet key =>
    rw [enter]
    cases peek : h.cliPeek key with
    | some c =>
      dsimp only
      apply Inv.take (show Inv ops h ([] ++ rest) from inv) (keyOf_peek peek).1
      case held | guests | owned | dead | before | after => rfl
      case mine => exact fun _ => trivial
      case scp => simpa [List.countP_cons, Call.holdsScpReqLock] using inv.scp
      case nrs => simpa [List.countP_cons, Call.holdsNrsLock] using inv.nrs
    | none => exact inv.begin rfl rfl rfl rfl rfl rfl rfl trivial
  | startRule validType name ids rate =>
    rw [enter]
    split
    · exact inv
    · rename_i unlocked
      split
      · exact inv.begin rfl rfl rfl rfl rfl rfl rfl trivial
      · apply keeps_lookup inv
        case held | guests | owned | dead | bare | scp => exact fun _ => rfl
        case unlocked => exact free unlocked
        case ok => exact fun _ _ _ => trivial
        case other => exact inv.begin rfl rfl rfl rfl rfl rfl rfl trivial
  | changeRule name rate =>
    rw [enter]
    split
    · exact inv
    · rename_i unlocked
      apply keeps_lookup inv
      case held | guests | owned | dead | bare | scp => exact fun _ => rfl
      case unlocked => exact free unlocked
      case ok => exact fun _ _ _ => trivial
      case other => exact inv.begin rfl rfl rfl rfl rfl rfl rfl trivial
  | stopRule name =>
    rw [enter]
    split
    · exact inv
    · rename_i unlocked
      split
      · exact inv.begin rfl rfl rfl rfl rfl rfl rfl trivial
      · rename_i other
        apply keeps_lookup inv
        case held | guests | owned | dead | bare | scp => exact fun _ => rfl
        case unlocked => exact free unlocked
        case ok => exact fun r listed named => inv.stoppable listed named other
        case other => exact inv.begin rfl rfl rfl rfl rfl rfl rfl trivial
  | proceed i ok => exact inv

theorem keeps_step {s : System ι κ} (inv : Inv ops s.head s.calls) (e : Event ι κ) :
    Inv ops (step ops s e).head (step ops s e).calls := by
  rw [step, inv.running]
  simp only [Bool.false_eq_true, ↓reduceIte]
  cases e with
  | proceed i ok =>
    rw [act]
    split
    · exact inv
    · rename_i call there
      have split : (call :: s.calls.eraseIdx i).Perm s.calls := by
        obtain ⟨inside, is⟩ := List.getElem?_eq_some_iff.mp there
        rw [← is]
        exact List.getElem_cons_eraseIdx_perm inside
      dsimp only
      split
      · exact inv
      · rename_i head next went
        exact keeps_progress (inv.perm split.symm) went
  | resGet key => exact keeps_enter inv (.resGet key)
  | startRule validType name ids rate => exact keeps_enter inv (.startRule validType name ids rate)
  | changeRule name rate => exact keeps_enter inv (.changeRule name rate)
  | stopRule name => exact keeps_enter inv (.stopRule name)

theorem always_inv (ops : Ops ι κ) (ids : ι) (tbfRate : Nat) (es : List (Event ι κ)) :
    Always (step ops) (fun s => Inv ops s.head s.calls) (started ops ids tbfRate) es :=
  always_of_along (fun _ e inv _ => keeps_step inv e) (started_inv ops ids tbfRate) (along_true _ _ es)

/-- A client has one place, its counter says how many calls hold it, no two hashed clients have one
    key, and the hash never keeps more idle clients than the cache size. -/
theorem clients_counted (ops : Ops ι κ) (jobid : ops.itemref = false) (ids : ι) (tbfRate : Nat)
    (es : List (Event ι κ)) :
    Always (step ops)
      (fun s =>
        (∀ c cli, s.head.clients c = some cli →
          cli.tcRef = (guestsOf s.calls).count c + (ownedBy s.calls).count c ∧
          s.head.thCliHash.count c + (ownedBy s.calls).count c + (deadOf s.calls).count c = 1) ∧
        (∀ c ∈ s.head.thCliHash, ∀ d ∈ s.head.thCliHash, s.head.keyOf c = s.head.keyOf d → c = d) ∧
        (s.head.thCliHash.filter (· ∉ guestsOf s.calls)).length ≤ ops.tbfJobidCacheSize)
      (started ops ids tbfRate) es := by
  refine always_mono ?_ (always_inv ops ids tbfRate es)
  intro s inv
  refine ⟨?_, inv.clients.keys, ?_⟩
  · intro c cli there
    refine ⟨?_, inv.clients.one_place there⟩
    have counted := inv.clients.ref_eq there
    rw [jobid] at counted
    simpa using counted
  · let buckets := List.range (bucketCount ops.tbfJobidCacheSize)
    have once : s.head.thCliHash.Nodup := by
      rw [List.nodup_iff_count_le_one]
      intro c
      have place := inv.clients.placed c
      split at place <;> omega
    have inside : s.head.thCliHash.filter (· ∉ guestsOf s.calls) ⊆ buckets.flatMap s.head.ntbLru := by
      intro c there
      obtain ⟨hashed, idle⟩ := List.mem_filter.mp there
      obtain ⟨b, small, listed⟩ := inv.idle_listed jobid hashed (by simpa using idle)
      exact List.mem_flatMap.mpr ⟨b, List.mem_range.mpr small, listed⟩
    calc (s.head.thCliHash.filter (· ∉ guestsOf s.calls)).length
        ≤ (buckets.flatMap s.head.ntbLru).length := (List.subperm_of_subset (once.filter _) inside).length_le
      _ ≤ buckets.length * highWater ops.tbfJobidCacheSize := by
        rw [List.length_flatMap]
        have most := List.sum_le_card_nsmul (buckets.map fun b => (s.head.ntbLru b).length)
          (highWater ops.tbfJobidCacheSize) (by
            intro n there
            obtain ⟨b, -, rfl⟩ := List.mem_map.mp there
            exact inv.room b)
        simpa using most
      _ = bucketCount ops.tbfJobidCacheSize * highWater ops.tbfJobidCacheSize := by rw [List.length_range]
      _ ≤ ops.tbfJobidCacheSize := bucket_share _

end Runs

def smallJobidOps : Ops (List (List Char)) (List Char) :=
  nrsTbfJobidOps 1 3 (fun _ => 0) fun _ => Nat.two_pow_pos _

/-- Two requests make a client for one job at a time and one of them loses; the rule is stopped while
    a client uses it, and the client of a second job is purged as soon as it is idle. -/
def crowdedRun : List (Event (List (List Char)) (List Char)) :=
  [.startRule true ['a'] [['x']] 5] ++ List.replicate 4 (.proceed 0 true) ++
    [.resGet ['x'], .resGet ['x'], .proceed 0 true, .proceed 1 true] ++
    List.replicate 3 (.proceed 0 true) ++ [.proceed 1 true, .proceed 0 true, .proceed 0 true] ++
    [.stopRule ['a'], .resGet ['y']] ++ List.replicate 24 (.proceed 0 true)

theorem clients_counted_crowded :
    smallJobidOps.itemref = false ∧
      ((run (step smallJobidOps) (started smallJobidOps [] 10000) crowdedRun).head.thCliHash.filter
        (· ∉ guestsOf (run (step smallJobidOps) (started smallJobidOps [] 10000)
          crowdedRun).calls)).length ≤ 1 :=
  ⟨rfl, (always_run (clients_counted smallJobidOps rfl [] 10000 crowdedRun)).2.2⟩

end TbfRules
