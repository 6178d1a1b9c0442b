import LustreTools.Lib.TokenBucket
import LustreTools.Tbf.Queues

/-!
The token buckets of the TBF clients. Every operation leaves a client's bucket as it was,
except a grant to that client and a reset of it; so the grants of one client are those of
a token bucket, whatever the order in which the heap lets the clients be served.
-/
namespace TbfTokens
open Runs Words BinHeap TokenBucket TbfPolicy TbfQueues

def bucket (cli : Client) : Client := { cli with tcList := [], tcInHeap := false }

/-- What an event that puts out `log` can do to the bucket of client `d`. -/
inductive BucketStep (s : System) (e : Event) (log : List Record) (d : Nat) (cli : Client) : Prop where
  | kept (same : bucket cli = bucket (s.clients d)) (ungranted : ∀ r now, Record.returned d r now ∉ log)
  | granted (r : Request) (now : Nat) (rest : List Request) (served : log = [.returned d r now])
      (time : (s.clients d).tcCheckTime ≤ now) (positive : 0 < (s.clients d).tokens now)
      (spent : bucket cli = bucket ((s.clients d).spend now rest))
  | reset (rule : RuleValues) (now : Nat) (event : e = .cliReset d rule now)
      (values : bucket cli = bucket ((s.clients d).reset rule now))
      (ungranted : ∀ r now, Record.returned d r now ∉ log)

variable {ops : HeapOps Nat}

theorem update_bucket (clients : Nat → Client) (c : Nat) (cli : Client)
    (same : bucket cli = bucket (clients c)) (d : Nat) :
    bucket (Function.update clients c cli d) = bucket (clients d) := by
  by_cases here : d = c
  · subst here; simpa using same
  · rw [Function.update_of_ne here]

theorem settle_bucket (ops : HeapOps Nat) (s : System) (c : Nat) (cli : Client) (d : Nat) :
    bucket ((s.settle ops c cli).clients d) = bucket (Function.update s.clients c cli d) := by
  rw [settle_clients]
  by_cases here : d = c
  · subst here
    simp only [Function.update_self]
    split <;> rfl
  · rw [Function.update_of_ne here, Function.update_of_ne here]

theorem req_add_bucket (ops : HeapOps Nat) (c nrq : Nat) (insertRc cancelRc : Int) (s : System) (d : Nat) :
    bucket ((nrsTbfReqAdd ops c nrq insertRc cancelRc s).1.clients d) = bucket (s.clients d) := by
  have queued : bucket (Function.update s.clients c
      { s.clients c with
        tcList := (s.clients c).tcList ++ [⟨nrq, s.thSequence⟩], tcInHeap := true } d) =
      bucket (s.clients d) := by
    apply update_bucket
    rfl
  unfold nrsTbfReqAdd
  dsimp only
  split
  · split
    · rfl
    · split
      · rfl
      · exact queued
  · split
    · rfl
    · exact queued

theorem req_del_bucket (ops : HeapOps Nat) (c nrq : Nat) (s : System) (d : Nat) :
    bucket ((nrsTbfReqDel ops c nrq s).clients d) = bucket (s.clients d) := by
  unfold nrsTbfReqDel
  dsimp only
  split
  · rw [settle_bucket]
    exact update_bucket s.clients c ((s.clients c).unlink nrq) rfl d
  · rfl

theorem req_peek_clients (now : Nat) (s : System) :
    (nrsTbfReqGet ops true now s).1.clients = s.clients := by
  unfold nrsTbfReqGet
  simp only [Bool.not_true, Bool.false_and, Bool.false_eq_true, ↓reduceIte]
  split
  · rfl
  · split <;> rfl

theorem req_get_bucket (now : Nat) (s : System) (running : s.lbug = false) (d : Nat) :
    BucketStep s (.reqGet false now) (record ops s (.reqGet false now)) d
      ((step ops s (.reqGet false now)).clients d) := by
  simp only [step, record, running, Bool.false_eq_true, ↓reduceIte, act]
  have outcome := req_get_outcome ops now s
  generalize nrsTbfReqGet ops false now s = result at outcome
  cases outcome with
  | idle reason => exact .kept rfl (by simp)
  | asserted root rest heap reason => exact .kept rfl (by simp)
  | armed root rest heap unthrottled broke => exact .kept rfl (by simp)
  | granted root rest r rear heap unthrottled inHeap time positive list =>
    have after := settle_bucket ops s root ((s.clients root).spend now rear) d
    by_cases here : d = root
    · subst here
      rw [Function.update_self] at after
      exact .granted r now rear rfl time positive after
    · rw [Function.update_of_ne here] at after
      exact .kept after (by simp [here])

theorem cli_reset_bucket (ops : HeapOps Nat) (c : Nat) (rule : RuleValues) (now : Nat)
    (s : System) (d : Nat) :
    bucket ((nrsTbfCliResetValue ops c rule now s).clients d) =
      bucket (Function.update s.clients c ((s.clients c).reset rule now) d) := by
  unfold nrsTbfCliResetValue
  dsimp only
  split <;> rfl

theorem step_bucket (ops : HeapOps Nat) (s : System) (e : Event) (d : Nat) :
    BucketStep s e (record ops s e) d ((step ops s e).clients d) := by
  by_cases halted : s.lbug = true
  · simp only [step, record, halted, ↓reduceIte]
    exact .kept rfl (by simp)
  have running : s.lbug = false := by simpa using halted
  cases e with
  | reqAdd c nrq insertRc cancelRc =>
    refine .kept ?_ ?_
    · simpa [step, running, act] using req_add_bucket ops c nrq insertRc cancelRc s d
    · intro r now
      simp only [record, running, Bool.false_eq_true, ↓reduceIte]
      split <;> simp
  | reqDel c nrq =>
    refine .kept ?_ ?_
    · simpa [step, running, act] using req_del_bucket ops c nrq s d
    · intro r now
      simp only [record, running, Bool.false_eq_true, ↓reduceIte]
      split <;> simp
  | reqGet peek now =>
    cases peek with
    | true => exact .kept (by simp [step, running, act, req_peek_clients]) (by simp [record])
    | false => exact req_get_bucket now s running d
  | timerExpiry => exact .kept (by simp [step, running, act, nrsTbfTimerCb]) (by simp [record])
  | cliReset c rule now =>
    have after := cli_reset_bucket ops c rule now s d
    by_cases here : d = c
    · subst here
      rw [Function.update_self] at after
      exact .reset rule now rfl (by simpa [step, running, act] using after) (by simp [record])
    · rw [Function.update_of_ne here] at after
      exact .kept (by simpa [step, running, act] using after) (by simp [record])
  | command cmd => exact .kept (by simp [step, running, act]) (by simp [record])

def grantTimes (c : Nat) (log : List Record) : List Nat :=
  log.filterMap fun
    | .returned d _ now => if d = c then some now else none
    | _ => none

theorem grant_times_append (c : Nat) (old new : List Record) :
    grantTimes c (old ++ new) = grantTimes c old ++ grantTimes c new := List.filterMap_append

theorem grant_times_eq_nil {c : Nat} {log : List Record}
    (ungranted : ∀ r now, Record.returned c r now ∉ log) : grantTimes c log = [] := by
  rw [grantTimes, List.filterMap_eq_nil_iff]
  intro entry member
  cases entry with
  | returned d r now =>
    have other : d ≠ c := by
      rintro rfl
      exact ungranted r now member
    simp [other]
  | _ => rfl

theorem tokens_refilled (cli : Client) (now : Nat) :
    cli.tokens now ≤ cli.tcNtoken + cli.tcRpcRate * (now - cli.tcCheckTime) / 1000000000 := by
  have product := nat64_le ((now - cli.tcCheckTime) * cli.tcRpcRate)
  have quotient := Nat.div_le_div_right (c := 1000000000) product
  have sum := nat64_le (nat64 ((now - cli.tcCheckTime) * cli.tcRpcRate) / 1000000000 + cli.tcNtoken)
  rw [Nat.mul_comm cli.tcRpcRate]
  unfold Client.tokens
  dsimp only
  split <;> omega

theorem tokens_capped (cli : Client) (now : Nat) : cli.tokens now ≤ cli.tcDepth := by
  unfold Client.tokens
  dsimp only
  split <;> omega

def Unreset (c : Nat) : Event → Prop
  | .cliReset d _ _ => d ≠ c
  | _ => True

/-- The bucket of client `c` holds at most its depth, under the rule values it had in `s`. -/
def WithinDepth (c : Nat) (cli : Client) (s : System) : Prop :=
  (s.clients c).tcNtoken ≤ (s.clients c).tcDepth ∧ (s.clients c).tcDepth = cli.tcDepth ∧
    (s.clients c).tcRpcRate = cli.tcRpcRate

theorem bucket_fields {a b : Client} (same : bucket a = bucket b) :
    a.tcNtoken = b.tcNtoken ∧ a.tcDepth = b.tcDepth ∧ a.tcRpcRate = b.tcRpcRate ∧
      a.tcCheckTime = b.tcCheckTime := by
  simp only [bucket, Client.mk.injEq] at same
  tauto

theorem step_within_depth (c : Nat) (cli : Client) (s : System) (e : Event)
    (within : WithinDepth c cli s) (unreset : Unreset c e) : WithinDepth c cli (step ops s e) := by
  unfold WithinDepth at within ⊢
  cases step_bucket ops s e c with
  | kept same ungranted =>
    obtain ⟨tokens, depth, rate, check⟩ := bucket_fields same
    rwa [tokens, depth, rate]
  | granted r now rest served time positive spent =>
    obtain ⟨tokens, depth, rate, check⟩ := bucket_fields spent
    rw [tokens, depth, rate]
    have capped := tokens_capped (s.clients c) now
    refine ⟨?_, within.2⟩
    simp only [Client.spend]
    omega
  | reset rule now event values ungranted =>
    subst event
    exact absurd rfl unreset

theorem run_grants (c : Nat) (es : List Event) : ∀ s : System,
    Along (step ops) (fun _ e => Unreset c e) s es →
      Grants 1000000000 (s.clients c).tcRpcRate (s.clients c).tcDepth (s.clients c).tcNtoken
        (s.clients c).tcCheckTime (grantTimes c (trace (step ops) (record ops) s es)) := by
  induction es with
  | nil => intro s unreset; exact .nil _ _
  | cons e es ih =>
    intro s unreset
    have rest := ih (step ops s e) unreset.2
    rw [trace, grant_times_append]
    cases step_bucket ops s e c with
    | kept same ungranted =>
      obtain ⟨tokens, depth, rate, check⟩ := bucket_fields same
      rw [tokens, depth, rate, check] at rest
      rwa [grant_times_eq_nil ungranted, List.nil_append]
    | granted r now list served time positive spent =>
      obtain ⟨tokens, depth, rate, check⟩ := bucket_fields spent
      rw [tokens, depth, rate, check] at rest
      have first : grantTimes c (record ops s e) = [now] := by simp [served, grantTimes]
      rw [first, List.singleton_append]
      exact .cons time positive (tokens_refilled _ _) (tokens_capped _ _) rest
    | reset rule now event values ungranted =>
      subst event
      exact absurd rfl unreset.1

/-- Whatever the heap operations, the other clients and the SSCDT commands do, a client
    whose rule values stay gets at most its depth and its rate in any interval. -/
theorem tbf_token_bound (ops : HeapOps Nat) (s : System) (c : Nat)
    (within : (s.clients c).tcNtoken ≤ (s.clients c).tcDepth) (es : List Event)
    (unreset : ∀ e ∈ es, Unreset c e) :
    Always (step ops) (WithinDepth c (s.clients c)) s es ∧
    ∀ first last,
      (grantTimes c (trace (step ops) (record ops) s es)).countP
          (fun now => decide (first ≤ now) && decide (now ≤ last)) ≤
        (s.clients c).tcDepth + (s.clients c).tcRpcRate * (last - first) / 1000000000 := by
  have along : Along (step ops) (fun _ e => Unreset c e) s es := along_of_forall unreset
  refine ⟨always_of_along (step_within_depth c _) ⟨within, rfl, rfl⟩ along, ?_⟩
  intro first last
  exact grants_between (run_grants c es s along) first last

theorem tbf_token_bound_two_modes :
    let s := startedSystem ⟨some .tbfCliCompare, some .sscdtReqCompareNid, 1000⟩ twoClients
    let es : List Event := [.reqAdd 1 10 0 0, .reqAdd 1 11 0 0, .reqAdd 1 12 0 0,
      .reqGet false 5, .command ⟨.start, 1000⟩, .reqGet false 6, .timerExpiry,
      .reqGet false 2000000, .command ⟨.stop, 1000⟩, .reqGet false 2000001]
    grantTimes 1 (trace (step sortedOps) (record sortedOps) s es) = [5, 2000000] ∧
      (grantTimes 1 (trace (step sortedOps) (record sortedOps) s es)).countP
        (fun now => decide (5 ≤ now) && decide (now ≤ 2000000)) ≤
          3 + 1000 * (2000000 - 5) / 1000000000 := by
  intro s es
  refine ⟨by decide, ?_⟩
  exact (tbf_token_bound sortedOps s 1 (by decide) es (by
    intro e member
    simp only [es, List.mem_cons, List.not_mem_nil, or_false] at member
    rcases member with rfl | rfl | rfl | rfl | rfl | rfl | rfl | rfl | rfl | rfl <;> trivial)).2 5 2000000

end TbfTokens
