import LustreTools.Tbf.Order

/-!
The throttling timer of the TBF policy. It is armed from the heap root alone, so it
covers every client of the heap only while the heap is ordered by deadline, which the
SSCDT comparators do not do.
-/
namespace TbfThrottling
open Runs Words BinHeap TbfPolicy TbfQueues TbfTokens TbfOrder

variable {ops : HeapOps Nat}

def DeadlineCovers (s : System) : Prop := s.nrsThrottling = true →
  ∀ c ∈ s.thBinheap, s.thDeadline ≤ (s.clients c).deadline

def Queueing : Event → Prop
  | .reqAdd _ _ _ cancelRc => 0 ≤ cancelRc
  | .cliReset _ _ _ => False
  | _ => True

/-- A get that finds its root without a token is made under the deadline comparator, and a
    command installs that comparator only on a heap in deadline order. -/
def DeadlineSafe (s : System) : Event → Prop
  | .reqGet false now => ∀ root rest, s.thBinheap = root :: rest → s.nrsThrottling = false →
      ¬ 0 < s64 ((s.clients root).tokens now) → s.globals.hopCompare = some .tbfCliCompare
  | .command cmd => s.globals.hopCompare ≠ some .tbfCliCompare →
      (nrsTbfCommand s.globals cmd).hopCompare = some .tbfCliCompare →
      HeapOrdered (fun a b => tbfCliCompare (s.clients a) (s.clients b)) s.thBinheap
  | _ => True

structure DeadlineInv (s : System) : Prop where
  inv : Inv s
  ordered : s.globals.hopCompare = some .tbfCliCompare → Ordered s
  covers : DeadlineCovers s

theorem compare_of_pointer {g : Globals} (clients : Nat → Client)
    (pointer : g.hopCompare = some .tbfCliCompare) :
    hopCompare g clients = fun a b => tbfCliCompare (clients a) (clients b) := by
  funext a b
  simp [hopCompare, pointer]

theorem step_globals (s : System) (e : Event) (queue : ∀ cmd, e ≠ .command cmd) :
    (step ops s e).globals = s.globals := by
  unfold step
  split
  · rfl
  · cases e with
    | reqAdd c nrq insertRc cancelRc =>
      simp only [act, nrsTbfReqAdd]
      repeat' split
      all_goals rfl
    | reqDel c nrq =>
      simp only [act, nrsTbfReqDel, System.settle]
      repeat' split
      all_goals rfl
    | reqGet peek now =>
      simp only [act, nrsTbfReqGet, System.settle]
      repeat' split
      all_goals rfl
    | timerExpiry => rfl
    | cliReset c rule now =>
      simp only [act, nrsTbfCliResetValue]
      split <;> rfl
    | command cmd => exact absurd rfl (queue cmd)

theorem step_deadline_ordered (keeps : KeepsOrder ops) {s : System} (inv : DeadlineInv s) {e : Event}
    (safe : DeadlineSafe s e) (pointer : (step ops s e).globals.hopCompare = some .tbfCliCompare) :
    Ordered (step ops s e) := by
  have consistent := inv.inv.consistent
  cases e with
  | command cmd =>
    simp only [step, consistent.running, Bool.false_eq_true, ↓reduceIte, act] at pointer ⊢
    rw [Ordered, System.compare, compare_of_pointer _ pointer]
    by_cases before : s.globals.hopCompare = some .tbfCliCompare
    · have ordered := inv.ordered before
      rwa [Ordered, System.compare, compare_of_pointer _ before] at ordered
    · exact safe before pointer
  | _ =>
    rw [step_globals s _ (by simp)] at pointer
    exact step_ordered keeps consistent (Or.inl pointer) (inv.ordered pointer) trivial

theorem bucket_deadline {a b : Client} (same : bucket a = bucket b) : a.deadline = b.deadline := by
  obtain ⟨_, _, nsecs, check⟩ := bucket_key same
  rw [Client.deadline, Client.deadline, nsecs, check]

theorem root_earliest {s : System} (pointer : s.globals.hopCompare = some .tbfCliCompare)
    (ordered : Ordered s) {root : Nat} {rest : List Nat} (heap : s.thBinheap = root :: rest) :
    ∀ c ∈ s.thBinheap, (s.clients root).deadline ≤ (s.clients c).deadline := by
  intro c member
  have trans : TransitiveOn s.compare s.thBinheap := hop_compare_transitive (Or.inl pointer) _
  rw [Ordered, heap] at ordered
  rw [heap] at trans member
  have first := root_first trans ordered c member
  rw [System.compare, compare_of_pointer _ pointer] at first
  have key := (not_after_tbf_iff (s.clients root) (s.clients c)).mp first
  rw [Prod.Lex.toLex_le_toLex] at key
  rcases key with before | ⟨same, _⟩
  · exact Nat.le_of_lt before
  · exact Nat.le_of_eq same

theorem req_add_covers (keeps : KeepsNodes ops) {s : System} (covers : DeadlineCovers s) (c nrq : Nat)
    (insertRc : Int) {cancelRc : Int} (cancelled : 0 ≤ cancelRc) :
    DeadlineCovers (nrsTbfReqAdd ops c nrq insertRc cancelRc s).1 := by
  have same (d : Nat) := bucket_deadline (req_add_bucket ops c nrq insertRc cancelRc s d)
  intro throttling d
  rw [same d]
  revert throttling
  unfold nrsTbfReqAdd
  dsimp only
  split
  · split
    · exact fun throttling => covers throttling d
    · split
      · exact fun throttling => covers throttling d
      · intro throttling member
        replace throttling : s.nrsThrottling = true := throttling
        have old := covers throttling d
        rcases List.mem_cons.mp ((keeps.insert_perm _ _ _).mem_iff.mp member) with rfl | before
        · simp only [throttling, true_and]
          split <;> omega
        · have bound := old before
          simp only [throttling, true_and]
          split <;> omega
  · split <;> exact fun throttling => covers throttling d

theorem settle_throttle (s : System) (c : Nat) (cli : Client) :
    (s.settle ops c cli).nrsThrottling = s.nrsThrottling ∧
      (s.settle ops c cli).thDeadline = s.thDeadline := by
  unfold System.settle
  split <;> exact ⟨rfl, rfl⟩

theorem req_del_covers (keeps : KeepsNodes ops) {s : System} (consistent : Consistent s)
    (covers : DeadlineCovers s) (c nrq : Nat) : DeadlineCovers (nrsTbfReqDel ops c nrq s) := by
  have same (d : Nat) := bucket_deadline (req_del_bucket ops c nrq s d)
  intro throttling d
  rw [same d]
  revert throttling
  unfold nrsTbfReqDel
  dsimp only
  split
  · rename_i linked
    have queued : (s.clients c).tcList ≠ [] := by
      intro empty; simp [empty] at linked
    have perm := settle_heap keeps s c ((s.clients c).unlink nrq) ((consistent.node c).mpr queued)
    rw [(settle_throttle s c _).1, (settle_throttle s c _).2]
    intro throttling member
    apply covers throttling d
    have remaining := perm.mem_iff.mp member
    split at remaining
    · exact List.mem_of_mem_erase remaining
    · exact remaining
  · exact fun throttling => covers throttling d

theorem req_get_covers {s : System} (inv : DeadlineInv s) {now : Nat}
    (safe : DeadlineSafe s (.reqGet false now)) :
    DeadlineCovers (nrsTbfReqGet ops false now s).1 := by
  have outcome := req_get_outcome ops now s
  generalize nrsTbfReqGet ops false now s = result at outcome
  cases outcome with
  | idle reason => exact inv.covers
  | asserted root rest heap reason => exact inv.covers
  | granted root rest r rear heap unthrottled inHeap time positive list =>
    intro throttling
    rw [(settle_throttle s root _).1, unthrottled] at throttling
    cases throttling
  | armed root rest heap unthrottled broke =>
    have pointer := safe root rest heap unthrottled broke
    intro _
    exact root_earliest pointer (inv.ordered pointer) heap

theorem step_deadline_inv (keeps : KeepsOrder ops) (s : System) (e : Event) (inv : DeadlineInv s)
    (ok : (Protocol s e ∧ Queueing e) ∧ DeadlineSafe s e) : DeadlineInv (step ops s e) := by
  obtain ⟨⟨protocol, queueing⟩, safe⟩ := ok
  refine ⟨step_inv keeps.toKeepsNodes s e inv.inv protocol, step_deadline_ordered keeps inv safe, ?_⟩
  have consistent := inv.inv.consistent
  simp only [step, consistent.running, Bool.false_eq_true, ↓reduceIte]
  cases e with
  | reqAdd c nrq insertRc cancelRc => exact req_add_covers keeps.toKeepsNodes inv.covers c nrq _ queueing
  | reqDel c nrq => exact req_del_covers keeps.toKeepsNodes consistent inv.covers c nrq
  | reqGet peek now =>
    cases peek with
    | true =>
      rcases req_peek_state ops now s with same | ⟨root, rest, heap, flag⟩
      · rw [act, same]; exact inv.covers
      · have inHeap := (consistent.flag root).mpr ((consistent.node root).mp (by simp [heap]))
        simp [inHeap] at flag
    | false => exact req_get_covers inv safe
  | timerExpiry => intro throttling; cases throttling
  | cliReset c rule now => exact queueing.elim
  | command cmd => exact inv.covers

/-- In every run of queue operations in which a client without tokens at the root is met
    only under the deadline comparator, over a heap put in deadline order, throttling never
    outlasts the earliest deadline in the heap. -/
theorem tbf_throttling_covers (keeps : KeepsOrder ops) (s : System) (started : Started s)
    (es : List Event) (protocol : Along (step ops) Protocol s es) (queueing : ∀ e ∈ es, Queueing e)
    (safe : Along (step ops) DeadlineSafe s es) : Always (step ops) DeadlineCovers s es := by
  have start : DeadlineInv s := by
    refine ⟨started_inv started, fun _ => ?_, fun throttling => ?_⟩
    · rw [Ordered, started.heap]; exact heap_ordered_nil _
    · rw [started.unthrottled] at throttling; cases throttling
  have along := along_and.mpr ⟨along_and.mpr ⟨protocol, along_of_forall queueing⟩, safe⟩
  exact always_mono (fun _ inv => inv.covers) (always_of_along (step_deadline_inv keeps) start along)

theorem deadline_safe_of_pointer (s : System) (e : Event)
    (pointer : s.globals.hopCompare = some .tbfCliCompare) : DeadlineSafe s e := by
  cases e with
  | reqGet peek now =>
    cases peek with
    | true => trivial
    | false => exact fun _ _ _ _ _ => pointer
  | command cmd => exact fun other => absurd pointer other
  | _ => trivial

theorem token_mode_safe {s : System} (pointer : s.globals.hopCompare = some .tbfCliCompare)
    {es : List Event} (queue : ∀ e ∈ es, ∀ cmd, e ≠ .command cmd) :
    Along (step ops) DeadlineSafe s es := by
  have kept (s : System) (e : Event) (before : s.globals.hopCompare = some .tbfCliCompare)
      (other : ∀ cmd, e ≠ .command cmd) : (step ops s e).globals.hopCompare = some .tbfCliCompare := by
    rw [step_globals s e other]
    exact before
  exact along_of_always deadline_safe_of_pointer (always_of_along kept pointer (along_of_forall queue))

theorem tbf_throttling_covers_two_clients :
    let s := startedSystem tokenMode crossedClients
    let es : List Event := [.reqAdd 1 10 0 0, .reqAdd 1 11 0 0, .reqAdd 1 12 0 0, .reqGet false 0,
      .reqGet false 0, .reqGet false 0, .reqAdd 1 13 0 0, .reqAdd 2 20 0 0, .reqGet false 0]
    (run (step sortedOps) s es).nrsThrottling = true ∧ (run (step sortedOps) s es).thDeadline = 1000000 ∧
      Always (step sortedOps) DeadlineCovers s es := by
  intro s es
  have keeps : KeepsOrder (sortedOps : HeapOps Nat) := sorted_ops_keep_order
  refine ⟨by decide, by decide, ?_⟩
  refine tbf_throttling_covers keeps s crossed_started es ?_ ?_ ?_
  · exact run_protocol keeps.toKeepsNodes crossed_started (by decide)
  · simp [es, Queueing]
  · exact token_mode_safe rfl (by simp [es])

/-- After `start sscdt` the root is client 2, of the smaller window. Once it has spent its
    three tokens the timer is armed for its deadline of one second, although client 1 has
    an earlier one, and a full bucket. -/
theorem tbf_sscdt_throttles_past_deadline :
    let s := startedSystem tokenMode crossedClients
    let es : List Event := [.command ⟨.start, 1000⟩, .reqAdd 2 20 0 0, .reqAdd 2 21 0 0,
      .reqAdd 2 22 0 0, .reqAdd 2 23 0 0, .reqAdd 1 10 0 0, .reqGet false 0, .reqGet false 0,
      .reqGet false 0, .reqGet false 0]
    KeepsOrder (sortedOps : HeapOps Nat) ∧ Started s ∧ Along (step sortedOps) Protocol s es ∧
      (∀ e ∈ es, Queueing e) ∧ ¬ Always (step sortedOps) DeadlineCovers s es := by
  intro s es
  have keeps : KeepsOrder (sortedOps : HeapOps Nat) := sorted_ops_keep_order
  refine ⟨keeps, crossed_started, ?_, by simp [es, Queueing], ?_⟩
  · exact run_protocol keeps.toKeepsNodes crossed_started (by decide)
  · intro always
    have covers := always_run always
    have late := covers (by decide) 1 (by decide)
    revert late
    decide

end TbfThrottling
