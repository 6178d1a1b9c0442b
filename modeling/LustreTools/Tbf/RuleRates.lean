import LustreTools.Tbf.RuleFreshness

/-!
The rate of a TBF client after its rule was changed. A client that has not seen the current sequence
and is matched to the rule it has is not reset: it keeps its sequence, so its next request finds the
same, and the generation of the rule is never looked at again. From then on no change of the rate of
that rule reaches the client.
-/
namespace TbfRules
open Runs Words TbfPolicy

variable {ι κ : Type} [DecidableEq κ] {ops : Ops ι κ} {h h' : Head ι κ} {next rest : List (Call ι κ)}

theorem progress_effect {ok lock : Bool} {call : Call ι κ} (inv : Inv ops h ([call] ++ rest))
    (went : progress ops ok lock h call = some (h', next)) :
    Quiet h h' (call.touched h) ∨
      (call = .listed ∧ h' = { h with thRuleSequence := u32 (h.thRuleSequence + 1) }) ∨
      ∃ list, h' = { h with thList := list } ∧
        ((∃ r, call = .built r) ∨ ∃ r, call = .stopping r ∧ list = h.thList.erase r) := by
  cases call with
  | absent key =>
    left
    rw [progress] at went
    split at went
    · rw [← (Prod.mk.inj (Option.some.inj went)).1]
      exact (Quiet.refl h).more
    · dsimp only at went
      split at went
      · rw [← (Prod.mk.inj (Option.some.inj went)).1]
        exact (quiet_bug h).more
      · rw [← (Prod.mk.inj (Option.some.inj went)).1]
        exact (quiet_add_client h key).trans (quiet_get _ _).more
  | found c =>
    left
    rw [progress] at went
    split at went
    · exact absurd went.symm (Option.some_ne_none _)
    · have is : (checkRule ops c h).1 = h' := congrArg Prod.fst (Option.some.inj went)
      rw [← is]
      unfold checkRule
      repeat' split
      all_goals first | exact quiet_bug h | exact quiet_get _ h | exact Quiet.refl h
  | matched known c r =>
    left
    rw [← (Prod.mk.inj (Option.some.inj went)).1]
    exact quiet_reset c r h
  | linked known c =>
    left
    rw [← (Prod.mk.inj (Option.some.inj went)).1]
    exact quiet_reset_value c h
  | same c r =>
    left
    rw [← (Prod.mk.inj (Option.some.inj went)).1]
    exact quiet_put r h
  | made c =>
    left
    have is : (findAdd ops c h).1 = h' := congrArg Prod.fst (Option.some.inj went)
    rw [← is]
    unfold findAdd
    split
    · exact quiet_bug h
    · split
      · exact quiet_take ops _ h
      · exact (quiet_places h _ h.ntbLru).trans (quiet_add_ref c _ _)
  | lost c d =>
    left
    rw [← (Prod.mk.inj (Option.some.inj went)).1]
    exact (quiet_add_ref c (-1) h).more.trans (quiet_fini c _)
  | serving c =>
    left
    rw [← (Prod.mk.inj (Option.some.inj went)).1]
    exact quiet_cli_put ops c h
  | zombies cs =>
    left
    cases cs with
    | nil =>
      rw [← (Prod.mk.inj (Option.some.inj went)).1]
      exact Quiet.refl h
    | cons c cs =>
      rw [← (Prod.mk.inj (Option.some.inj went)).1]
      exact quiet_fini c h
  | starting name ids rate =>
    left
    rw [progress] at went
    split at went
    · rw [← (Prod.mk.inj (Option.some.inj went)).1]
      exact Quiet.refl h
    · rw [← (Prod.mk.inj (Option.some.inj went)).1]
      exact quiet_add_rule _ (inv.rules.gone h.nextRule (inv.rules.unborn h.nextRule (le_refl _))).1
  | built r =>
    have is : (listRule r h).1 = h' := congrArg Prod.fst (Option.some.inj went)
    rw [← is]
    unfold listRule
    split
    · exact Or.inl (quiet_bug h)
    · split
      · exact Or.inl (quiet_bug h)
      · exact Or.inl (quiet_get _ h)
      · exact Or.inr (Or.inr ⟨_, rfl, Or.inl ⟨r, rfl⟩⟩)
  | listed =>
    right
    left
    exact ⟨rfl, (Prod.mk.inj (Option.some.inj went)).1.symm⟩
  | changing r rate =>
    left
    rw [← (Prod.mk.inj (Option.some.inj went)).1]
    exact quiet_change r rate h
  | stopping r =>
    right
    right
    exact ⟨_, (Prod.mk.inj (Option.some.inj went)).1.symm, Or.inr ⟨r, rfl, rfl⟩⟩
  | unlinked r =>
    left
    rw [← (Prod.mk.inj (Option.some.inj went)).1]
    exact quiet_flag r h
  | dropping nrsLock rs rc =>
    left
    cases rs with
    | nil =>
      rw [← (Prod.mk.inj (Option.some.inj went)).1]
      exact Quiet.refl h
    | cons r rs =>
      rw [← (Prod.mk.inj (Option.some.inj went)).1]
      exact quiet_put r h
  | returned rc =>
    left
    rw [← (Prod.mk.inj (Option.some.inj went)).1]
    exact Quiet.refl h

theorem progress_window {ok lock : Bool} {call : Call ι κ}
    (went : progress ops ok lock h call = some (h', next)) {n : Call ι κ} (there : n ∈ next) {c : Nat}
    (window : c ∈ n.window) :
    c ∈ call.window ∨ c = h.nextClient ∨ ∃ cli r, h.clients c = some cli ∧ cli.tcRule = some r ∧
      (nrsTbfRuleMatch ops h cli.tcKey ≠ some r ∨ cli.tcRuleSequence = h.thRuleSequence) := by
  have closed {m : Call ι κ} (is : next = [m]) (none : m.window = []) : c ∈ call.window := by
    rw [is, List.mem_singleton] at there
    rw [there, none] at window
    exact absurd window List.not_mem_nil
  have empty (is : next = []) : c ∈ call.window := by
    rw [is] at there
    exact absurd there List.not_mem_nil
  cases call with
  | absent key =>
    rw [progress] at went
    split at went
    · exact Or.inl (closed (Prod.mk.inj (Option.some.inj went)).2.symm rfl)
    · dsimp only at went
      split at went
      · exact Or.inl (empty (Prod.mk.inj (Option.some.inj went)).2.symm)
      · rw [← (Prod.mk.inj (Option.some.inj went)).2, List.mem_singleton] at there
        rw [there] at window
        exact Or.inr (Or.inl (List.mem_singleton.mp window))
  | found d =>
    rw [progress] at went
    split at went
    · exact absurd went.symm (Option.some_ne_none _)
    · have is : (checkRule ops d h).2 = next := congrArg Prod.snd (Option.some.inj went)
      unfold checkRule at is
      split at is
      · exact Or.inl (empty is.symm)
      · rename_i cli known
        split at is
        · exact Or.inl (empty is.symm)
        · rename_i r user
          split at is
          · exact Or.inl (empty is.symm)
          · rename_i rule live
            split at is
            · split at is
              · exact Or.inl (empty is.symm)
              · rename_i q matched
                by_cases here : q = r
                · rw [if_pos here] at is
                  exact Or.inl (closed is.symm rfl)
                · rw [if_neg here] at is
                  rw [← is, List.mem_singleton] at there
                  rw [there] at window
                  obtain rfl := List.mem_singleton.mp window
                  refine Or.inr (Or.inr ⟨cli, r, known, user, Or.inl ?_⟩)
                  rw [matched]
                  exact fun same => here (Option.some.inj same)
            · rename_i seen
              rw [not_or, ne_eq, not_not] at seen
              split at is
              · rw [← is, List.mem_singleton] at there
                rw [there] at window
                obtain rfl := List.mem_singleton.mp window
                exact Or.inr (Or.inr ⟨cli, r, known, user, Or.inr seen.1⟩)
              · exact Or.inl (closed is.symm rfl)
  | matched known d r =>
    rw [← (Prod.mk.inj (Option.some.inj went)).2, List.mem_singleton] at there
    rw [there] at window
    exact Or.inl window
  | linked known d =>
    cases known <;> exact Or.inl (closed (Prod.mk.inj (Option.some.inj went)).2.symm rfl)
  | made d =>
    have is : (findAdd ops d h).2 = next := congrArg Prod.snd (Option.some.inj went)
    unfold findAdd at is
    split at is
    · exact Or.inl (empty is.symm)
    · split at is
      · exact Or.inl (closed is.symm rfl)
      · exact Or.inl (closed is.symm rfl)
  | zombies cs =>
    cases cs with
    | nil => exact Or.inl (empty (Prod.mk.inj (Option.some.inj went)).2.symm)
    | cons d cs => exact Or.inl (closed (Prod.mk.inj (Option.some.inj went)).2.symm rfl)
  | starting name ids rate =>
    rw [progress] at went
    split at went
    · exact Or.inl (closed (Prod.mk.inj (Option.some.inj went)).2.symm rfl)
    · exact Or.inl (closed (Prod.mk.inj (Option.some.inj went)).2.symm rfl)
  | built r =>
    have is : (listRule r h).2 = next := congrArg Prod.snd (Option.some.inj went)
    unfold listRule at is
    split at is
    · exact Or.inl (empty is.symm)
    · split at is
      · exact Or.inl (empty is.symm)
      · exact Or.inl (closed is.symm rfl)
      · exact Or.inl (closed is.symm rfl)
  | dropping nrsLock rs rc =>
    cases rs with
    | nil => exact Or.inl (closed (Prod.mk.inj (Option.some.inj went)).2.symm rfl)
    | cons r rs => exact Or.inl (closed (Prod.mk.inj (Option.some.inj went)).2.symm rfl)
  | returned rc => exact Or.inl (empty (Prod.mk.inj (Option.some.inj went)).2.symm)
  | _ => exact Or.inl (closed (Prod.mk.inj (Option.some.inj went)).2.symm rfl)

def Unwrapped (s : System ι κ) : Event ι κ → Prop
  | .proceed i _ => s.calls[i]? = some .listed → s.head.thRuleSequence + 1 < 4294967296
  | _ => True

instance [DecidableEq ι] (s : System ι κ) : ∀ e, Decidable (Unwrapped s e)
  | .proceed i _ => inferInstanceAs (Decidable (s.calls[i]? = some .listed → _))
  | .resGet _ | .startRule _ _ _ _ | .changeRule _ _ | .stopRule _ => isTrue trivial

/-- The client `c` is as it was when it fell behind, and no call is about to reset it. -/
structure Behind (ops : Ops ι κ) (c : Nat) (cli : Client κ) (s : System ι κ) : Prop where
  inv : Inv ops s.head s.calls
  same : ∀ now, s.head.clients c = some now → face now = face cli
  stale : 0 ≤ cli.tcRuleSequence ∧ cli.tcRuleSequence < s.head.thRuleSequence
  closed : ∀ call ∈ s.calls, c ∉ call.window

omit [DecidableEq κ] in
theorem face_of_quiet {touched : List Nat} {c : Nat} {cli now : Client κ} (quiet : Quiet h h' touched)
    (apart : c ∉ touched) (before : ∀ old, h.clients c = some old → face old = face cli)
    (live : h'.clients c = some now) : face now = face cli := by
  rcases quiet.faces c apart with freed | kept
  · rw [live] at freed
    exact absurd freed (Option.some_ne_none now)
  · rw [live, Option.map_some] at kept
    obtain ⟨old, known, is⟩ := Option.map_eq_some_iff.mp kept.symm
    rw [← is]
    exact before old known

theorem face_progress {ok lock : Bool} {call : Call ι κ} {c : Nat} {cli now : Client κ}
    (inv : Inv ops h ([call] ++ rest)) (inv' : Inv ops h' (next ++ rest))
    (went : progress ops ok lock h call = some (h', next)) (there : (h.clients c).isSome = true)
    (before : ∀ old, h.clients c = some old → face old = face cli) (closed : c ∉ call.window)
    (live : h'.clients c = some now) : face now = face cli := by
  obtain ⟨old, known⟩ := Option.isSome_iff_exists.mp there
  rcases progress_effect inv went with quiet | ⟨-, is⟩ | ⟨list, is, -⟩
  · apply face_of_quiet quiet _ before live
    intro touched
    cases call with
    | matched k d r => exact closed touched
    | linked k d => exact closed touched
    | lost d e =>
      obtain rfl := List.mem_singleton.mp (show c ∈ [d] from touched)
      have is := (Prod.mk.inj (Option.some.inj went)).1
      have gone := fini_gone (show (nrsTbfCliFini c (addRef c (-1) h)).lbug = false from is ▸ inv'.running)
      rw [is, live] at gone
      exact Option.some_ne_none now gone
    | zombies cs =>
      cases cs with
      | nil => exact List.not_mem_nil touched
      | cons d cs =>
        obtain rfl := List.mem_singleton.mp (show c ∈ [d] from touched)
        have is := (Prod.mk.inj (Option.some.inj went)).1
        have gone := fini_gone (show (nrsTbfCliFini c h).lbug = false from is ▸ inv'.running)
        rw [is, live] at gone
        exact Option.some_ne_none now gone
    | absent key =>
      have fresh := inv.clients.lt_next known
      rw [List.mem_singleton.mp (show c ∈ [h.nextClient] from touched)] at fresh
      exact Nat.lt_irrefl _ fresh
    | _ => exact List.not_mem_nil touched
  · rw [is] at live
    exact before now live
  · rw [is] at live
    exact before now live

theorem sequence_progress {ok lock : Bool} {call : Call ι κ} (inv : Inv ops h ([call] ++ rest))
    (went : progress ops ok lock h call = some (h', next)) (counted : 0 ≤ h.thRuleSequence)
    (small : call = .listed → h.thRuleSequence + 1 < 4294967296) : h.thRuleSequence ≤ h'.thRuleSequence := by
  rcases progress_effect inv went with quiet | ⟨here, is⟩ | ⟨list, is, -⟩
  · exact le_of_eq quiet.sequence.symm
  · have bound := small here
    have grown : u32 (h.thRuleSequence + 1) = h.thRuleSequence + 1 := by
      apply u32_of_in
      constructor <;> omega
    rw [is]
    show h.thRuleSequence ≤ u32 (h.thRuleSequence + 1)
    omega
  · rw [is]

theorem behind_step {c r : Nat} {cli : Client κ} {s : System ι κ} {e : Event ι κ} (uses : cli.tcRule = some r)
    (behind : Behind ops c cli s) (small : Unwrapped s e)
    (newest : nrsTbfRuleMatch ops s.head cli.tcKey = some r) (live : (s.head.clients c).isSome = true) :
    Behind ops c cli (step ops s e) := by
  have inv := behind.inv
  have after := keeps_step inv e
  have entered : Behind ops c cli ⟨(enter ops (s.calls.any Call.holdsNrsLock) s.head e).1,
      (enter ops (s.calls.any Call.holdsNrsLock) s.head e).2 ++ s.calls⟩ := by
    obtain ⟨quiet, closed⟩ := quiet_enter ops (s.calls.any Call.holdsNrsLock) s.head e
    constructor
    case inv => exact keeps_enter inv e
    case same => exact fun now there => face_of_quiet quiet List.not_mem_nil behind.same there
    case stale =>
      show _ ∧ cli.tcRuleSequence < (enter ops _ s.head e).1.thRuleSequence
      rw [quiet.sequence]
      exact behind.stale
    case closed =>
      intro call there
      rcases List.mem_append.mp there with mine | old
      · rw [closed call mine]
        exact List.not_mem_nil
      · exact behind.closed call old
  rw [step, inv.running] at after ⊢
  simp only [Bool.false_eq_true, ↓reduceIte] at after ⊢
  cases e with
  | proceed i ok =>
    rw [act] at after ⊢
    split
    · exact behind
    · rename_i call there
      obtain ⟨inside, is⟩ := List.getElem?_eq_some_iff.mp there
      have present : call ∈ s.calls := List.mem_of_getElem? there
      have split : (call :: s.calls.eraseIdx i).Perm s.calls := by
        rw [← is]
        exact List.getElem_cons_eraseIdx_perm inside
      rw [there] at after
      dsimp only at after ⊢
      split
      · exact behind
      · rename_i head next went
        rw [went] at after
        dsimp only at after
        have split' := inv.perm split.symm
        constructor
        case inv => exact after
        case same =>
          intro now known
          exact face_progress split' after went live behind.same (behind.closed call present) known
        case stale =>
          refine ⟨behind.stale.1, lt_of_lt_of_le behind.stale.2 ?_⟩
          apply sequence_progress split' went
          · exact le_of_lt (lt_of_le_of_lt behind.stale.1 behind.stale.2)
          · rintro rfl
            exact small there
        case closed =>
          intro n near window
          rcases List.mem_append.mp near with mine | old
          · rcases progress_window went mine window with open' | fresh | ⟨old, q, known, user, reason⟩
            · exact behind.closed call present open'
            · obtain ⟨old, known⟩ := Option.isSome_iff_exists.mp live
              have born := inv.clients.lt_next known
              omega
            · have same := behind.same old known
              rw [face, face, Client.mk.injEq] at same
              obtain ⟨key, -, rule, -, sequence, -⟩ := same
              rcases reason with other | seen
              · rw [rule, uses] at user
                rw [key, newest] at other
                exact other user
              · have stale := behind.stale.2
                omega
          · exact behind.closed n (List.mem_of_mem_eraseIdx old) window
  | resGet key => exact entered
  | startRule validType name ids rate => exact entered
  | changeRule name rate => exact entered
  | stopRule name => exact entered

/-- Once a client is behind the sequence, it keeps its rate as long as the rule it has is the newest
    that matches it: whatever the commands make of the rate of that rule, and however many requests
    come in, the client is never reset. -/
theorem stale_client_keeps_rate (ops : Ops ι κ) (ids : ι) (tbfRate : Nat) (before es : List (Event ι κ))
    {c r : Nat} {cli : Client κ}
    (there : (run (step ops) (started ops ids tbfRate) before).head.clients c = some cli)
    (uses : cli.tcRule = some r)
    (stale : 0 ≤ cli.tcRuleSequence ∧
      cli.tcRuleSequence < (run (step ops) (started ops ids tbfRate) before).head.thRuleSequence)
    (closed : ∀ call ∈ (run (step ops) (started ops ids tbfRate) before).calls, c ∉ call.window)
    (small : Along (step ops) Unwrapped (run (step ops) (started ops ids tbfRate) before) es)
    (stays : Always (step ops)
      (fun s => nrsTbfRuleMatch ops s.head cli.tcKey = some r ∧ (s.head.clients c).isSome = true)
      (run (step ops) (started ops ids tbfRate) before) es) :
    Always (step ops) (fun s => (s.head.clients c).map (·.values) = some cli.values)
      (run (step ops) (started ops ids tbfRate) before) es := by
  have start : Behind ops c cli (run (step ops) (started ops ids tbfRate) before) := by
    constructor
    case inv => exact always_run (always_inv ops ids tbfRate before)
    case same =>
      intro now known
      rw [there, Option.some.injEq] at known
      rw [known]
    case stale => exact stale
    case closed => exact closed
  have along := along_and.mpr ⟨small, along_of_always (fun s (e : Event ι κ) now => now) stays⟩
  have behind : Always (step ops) (Behind ops c cli) (run (step ops) (started ops ids tbfRate) before) es :=
    always_of_along (fun s e now ok => behind_step uses now ok.1 ok.2.1 ok.2.2) start along
  refine always_mono ?_ (always_and.mpr ⟨behind, stays⟩)
  rintro s ⟨now, -, live⟩
  obtain ⟨last, known⟩ := Option.isSome_iff_exists.mp live
  have same := now.same last known
  rw [face, face, Client.mk.injEq] at same
  rw [known, Option.map_some, same.2.2.2.1]

def fallBehind : List (Event (List (List Char)) (List Char)) :=
  startThenServe ++ List.replicate 2 (.proceed 0 true) ++
    [.startRule true ['b'] [['y']] 6] ++ List.replicate 4 (.proceed 0 true)

def changeThenServe : List (Event (List (List Char)) (List Char)) :=
  [.changeRule ['a'] 7] ++ List.replicate 4 (.proceed 0 true) ++
    [.resGet ['x']] ++ List.replicate 2 (.proceed 0 true)

theorem stale_client_keeps_rate_five :
    ((run (step smallJobidOps) (run (step smallJobidOps) (started smallJobidOps [] 10000) fallBehind)
      changeThenServe).head.clients 0).map (·.values) = some (ruleValues 3 5) ∧
    ((run (step smallJobidOps) (run (step smallJobidOps) (started smallJobidOps [] 10000) fallBehind)
      changeThenServe).head.rules 1).map (·.values) = some (ruleValues 3 7) := by
  have client : (run (step smallJobidOps) (started smallJobidOps [] 10000) fallBehind).head.clients 0 =
      some ⟨['x'], 0, some 1, ruleValues 3 5, 2, 0⟩ := by decide +kernel
  refine ⟨?_, by decide +kernel⟩
  exact always_run (stale_client_keeps_rate smallJobidOps [] 10000 fallBehind changeThenServe client rfl
    (by decide +kernel) (by decide +kernel) (by decide +kernel) (by decide +kernel))

end TbfRules
