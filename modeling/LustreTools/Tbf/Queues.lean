import LustreTools.Tbf.Policy

/-!
The request queues of the TBF policy. `Moves` says once what a step can do to the
lists, the flags and the heap; the three records of a client being queued, the
conservation of requests and their order all follow from it, for any comparator.
-/
namespace TbfQueues
open Runs BinHeap TbfPolicy

/-- Flag, list and heap agree on which clients have requests, and no assertion failed. -/
structure Consistent (s : System) : Prop where
  flag : ∀ c, (s.clients c).tcInHeap = true ↔ (s.clients c).tcList ≠ []
  node : ∀ c, c ∈ s.thBinheap ↔ (s.clients c).tcList ≠ []
  nodup : s.thBinheap.Nodup
  running : s.lbug = false

def Clocked (s : System) : Prop := ∀ c, (s.clients c).tcCheckTime ≤ s.clock

def SameQueue (a b : Client) : Prop := a.tcList = b.tcList ∧ a.tcInHeap = b.tcInHeap

inductive Moves (s s' : System) : List Record → Prop where
  | idle (same : ∀ d, SameQueue (s'.clients d) (s.clients d))
      (heap : s'.thBinheap.Perm s.thBinheap) (sequence : s'.thSequence = s.thSequence) :
      Moves s s' []
  | enqueue (c nrq : Nat) (others : ∀ d, d ≠ c → SameQueue (s'.clients d) (s.clients d))
      (list : (s'.clients c).tcList = (s.clients c).tcList ++ [⟨nrq, s.thSequence⟩])
      (flag : (s'.clients c).tcInHeap = true)
      (heap : s'.thBinheap.Perm
        (if (s.clients c).tcList = [] then c :: s.thBinheap else s.thBinheap))
      (sequence : s'.thSequence = s.thSequence + 1) : Moves s s' [.added c nrq]
  | dequeue (c : Nat) (r : Request) (front rear : List Request) (entry : Record)
      (others : ∀ d, d ≠ c → SameQueue (s'.clients d) (s.clients d))
      (whole : (s.clients c).tcList = front ++ r :: rear)
      (list : (s'.clients c).tcList = front ++ rear)
      (flag : (s'.clients c).tcInHeap = true ↔ front ++ rear ≠ [])
      (heap : s'.thBinheap.Perm (if front ++ rear = [] then s.thBinheap.erase c else s.thBinheap))
      (sequence : s'.thSequence = s.thSequence)
      (kind : entry = .deleted c r.nrq ∨ front = [] ∧ ∃ now, entry = .returned c r now) :
      Moves s s' [entry]

theorem started_consistent {s : System} (started : Started s) : Consistent s where
  flag c := by simp [started.lists, started.flags]
  node c := by simp [started.lists, started.heap]
  nodup := by simp [started.heap]
  running := started.running

theorem consistent_of_one {s s' : System} {c : Nat} (consistent : Consistent s)
    (others : ∀ d, d ≠ c → SameQueue (s'.clients d) (s.clients d))
    (nodes : ∀ d, d ≠ c → (d ∈ s'.thBinheap ↔ d ∈ s.thBinheap))
    (flag : (s'.clients c).tcInHeap = true ↔ (s'.clients c).tcList ≠ [])
    (node : c ∈ s'.thBinheap ↔ (s'.clients c).tcList ≠ []) (nodup : s'.thBinheap.Nodup)
    (running : s'.lbug = false) : Consistent s' := by
  refine ⟨?_, ?_, nodup, running⟩
  · intro d
    by_cases same : d = c
    · rw [same]
      exact flag
    · rw [(others d same).1, (others d same).2]
      exact consistent.flag d
  · intro d
    by_cases same : d = c
    · rw [same]
      exact node
    · rw [(others d same).1, nodes d same]
      exact consistent.node d

theorem moves_consistent {s s' : System} {log : List Record} (consistent : Consistent s)
    (moves : Moves s s' log) (running : s'.lbug = false) : Consistent s' := by
  cases moves with
  | idle same heap sequence =>
    refine ⟨?_, ?_, heap.nodup_iff.mpr consistent.nodup, running⟩
    · intro d
      rw [(same d).1, (same d).2]
      exact consistent.flag d
    · intro d
      rw [(same d).1, heap.mem_iff]
      exact consistent.node d
  | enqueue c nrq others list flag heap sequence =>
    have node := consistent.node c
    apply consistent_of_one consistent others _ (by simp [flag, list]) _ _ running
    · intro d other
      rw [heap.mem_iff]
      split <;> simp [other]
    · rw [heap.mem_iff]
      split <;> simp_all
    · rw [heap.nodup_iff]
      split
      · rename_i empty
        exact List.nodup_cons.mpr ⟨fun member => node.mp member empty, consistent.nodup⟩
      · exact consistent.nodup
  | dequeue c r front rear entry others whole list flag heap sequence kind =>
    have node := consistent.node c
    rw [← list] at flag
    apply consistent_of_one consistent others _ flag _ _ running
    · intro d other
      rw [heap.mem_iff]
      split
      · simp [consistent.nodup.mem_erase_iff, other]
      · rfl
    · rw [list, heap.mem_iff]
      split
      · rename_i empty
        simp [empty, consistent.nodup.mem_erase_iff]
      · rename_i more
        simp [node, whole, more]
    · rw [heap.nodup_iff]
      split
      · exact consistent.nodup.erase c
      · exact consistent.nodup

variable {ops : HeapOps Nat}

theorem settle_clients (s : System) (c : Nat) (cli : Client) :
    (s.settle ops c cli).clients = Function.update s.clients c
      (if cli.tcList = [] then { cli with tcInHeap := false } else cli) := by
  unfold System.settle
  split <;> simp_all [System.setClient]

theorem settle_heap (keeps : KeepsNodes ops) (s : System) (c : Nat) (cli : Client)
    (member : c ∈ s.thBinheap) :
    (s.settle ops c cli).thBinheap.Perm
      (if cli.tcList = [] then s.thBinheap.erase c else s.thBinheap) := by
  unfold System.settle
  split
  · exact keeps.remove_perm _ _ c member
  · exact keeps.relocate_perm _ _ c member

theorem settle_rest (s : System) (c : Nat) (cli : Client) :
    (s.settle ops c cli).thSequence = s.thSequence ∧ (s.settle ops c cli).lbug = s.lbug ∧
      (s.settle ops c cli).clock = s.clock := by
  unfold System.settle
  split <;> exact ⟨rfl, rfl, rfl⟩

theorem settle_moves (keeps : KeepsNodes ops) {s s' : System} (consistent : Consistent s) {c : Nat}
    (cli : Client) {r : Request} (front : List Request) {rear : List Request} {entry : Record}
    (whole : (s.clients c).tcList = front ++ r :: rear) (list : cli.tcList = front ++ rear)
    (flag : cli.tcInHeap = (s.clients c).tcInHeap)
    (kind : entry = .deleted c r.nrq ∨ front = [] ∧ ∃ now, entry = .returned c r now)
    (clients : s'.clients = (s.settle ops c cli).clients)
    (heap : s'.thBinheap = (s.settle ops c cli).thBinheap)
    (sequence : s'.thSequence = (s.settle ops c cli).thSequence) : Moves s s' [entry] := by
  have queued : (s.clients c).tcList ≠ [] := by simp [whole]
  have perm := settle_heap keeps s c cli ((consistent.node c).mpr queued)
  have inHeap := (consistent.flag c).mpr queued
  refine Moves.dequeue c r front rear entry ?_ whole ?_ ?_ ?_ ?_ kind
  · intro d different
    rw [clients, settle_clients, Function.update_of_ne different]
    exact ⟨rfl, rfl⟩
  · rw [clients, settle_clients, Function.update_self]
    split <;> simp_all
  · rw [clients, settle_clients, Function.update_self, ← list]
    split <;> simp_all
  · rw [heap, ← list]
    exact perm
  · rw [sequence]
    exact (settle_rest s c cli).1

/-- The outcome of a step in a consistent state: it moves requests and fails no assertion. -/
structure Sound (s s' : System) (log : List Record) : Prop where
  moves : Moves s s' log
  running : s'.lbug = false
  clocked : Clocked s'

theorem sound_unchanged {s : System} (consistent : Consistent s) (clocked : Clocked s)
    {now : Nat} (later : s.clock ≤ now) : Sound s { s with clock := now } [] :=
  ⟨.idle (fun _ => ⟨rfl, rfl⟩) (List.Perm.refl _) rfl, consistent.running,
    fun c => (clocked c).trans later⟩

theorem clocked_update {s : System} (clocked : Clocked s) (c : Nat) (cli : Client) {now : Nat}
    (later : s.clock ≤ now) (check : cli.tcCheckTime ≤ now) (d : Nat) :
    (Function.update s.clients c cli d).tcCheckTime ≤ now := by
  by_cases same : d = c
  · subst same; simpa using check
  · rw [Function.update_of_ne same]
    exact (clocked d).trans later

theorem req_get_sound (keeps : KeepsNodes ops) {s : System} (consistent : Consistent s)
    (clocked : Clocked s) {now : Nat} (later : s.clock ≤ now) :
    Sound s (step ops s (.reqGet false now)) (record ops s (.reqGet false now)) := by
  simp only [step, record, consistent.running, Bool.false_eq_true, ↓reduceIte, act]
  have outcome := req_get_outcome ops now s
  generalize nrsTbfReqGet ops false now s = result at outcome
  cases outcome with
  | idle reason => exact sound_unchanged consistent clocked later
  | asserted root rest heap reason =>
    have queued := (consistent.node root).mp (by simp [heap])
    have inHeap := (consistent.flag root).mpr queued
    have check := (clocked root).trans later
    rcases reason with flag | early | empty
    · simp [inHeap] at flag
    · omega
    · exact absurd empty queued
  | granted root rest r rear heap unthrottled inHeap time positive list =>
    refine ⟨?_, ?_, ?_⟩
    · exact settle_moves keeps consistent ((s.clients root).spend now rear) [] list rfl rfl
        (Or.inr ⟨rfl, now, rfl⟩) rfl rfl rfl
    · exact (settle_rest s root _).2.1.trans consistent.running
    · intro d
      show ((s.settle ops root _).clients d).tcCheckTime ≤ now
      rw [settle_clients]
      refine clocked_update clocked _ _ later ?_ d
      split <;> exact Nat.le_refl _
  | armed root rest heap unthrottled broke =>
    exact ⟨.idle (fun _ => ⟨rfl, rfl⟩) (List.Perm.refl _) rfl, consistent.running,
      fun c => (clocked c).trans later⟩

theorem req_peek_sound {s : System} (consistent : Consistent s)
    (clocked : Clocked s) {now : Nat} (later : s.clock ≤ now) :
    Sound s (step ops s (.reqGet true now)) (record ops s (.reqGet true now)) := by
  simp only [step, record, consistent.running, Bool.false_eq_true, ↓reduceIte, act]
  rcases req_peek_state ops now s with same | ⟨root, rest, heap, flag⟩
  · rw [same]
    exact sound_unchanged consistent clocked later
  · have inHeap := (consistent.flag root).mpr ((consistent.node root).mp (by simp [heap]))
    simp [inHeap] at flag

theorem req_add_sound (keeps : KeepsNodes ops) {s : System} (consistent : Consistent s)
    (clocked : Clocked s) (c nrq : Nat) (insertRc cancelRc : Int) :
    Sound s (step ops s (.reqAdd c nrq insertRc cancelRc))
      (record ops s (.reqAdd c nrq insertRc cancelRc)) := by
  have flag := consistent.flag c
  have perm := keeps.insert_perm s.compare s.thBinheap c
  simp only [step, record, consistent.running, Bool.false_eq_true, ↓reduceIte, act, nrsTbfReqAdd]
  by_cases empty : (s.clients c).tcList = []
  · have out : (s.clients c).tcInHeap = false := by
      simpa [empty] using flag
    by_cases failed : insertRc = 0
    · simp only [empty, out, failed, ↓reduceIte, Bool.false_eq_true, ne_eq, not_true_eq_false,
        List.nil_append]
      refine ⟨.enqueue c nrq ?_ ?_ ?_ ?_ rfl, consistent.running, ?_⟩
      · intro d different
        simp [System.setClient, Function.update_of_ne different, SameQueue]
      · simp [System.setClient, empty]
      · simp [System.setClient]
      · simpa [empty] using perm
      · exact clocked_update clocked _ _ (Nat.le_refl _) (clocked c)
    · simp only [empty, out, failed, ↓reduceIte, Bool.false_eq_true, ne_eq, not_false_eq_true,
        Option.some.injEq]
      exact ⟨.idle (fun _ => ⟨rfl, rfl⟩) (List.Perm.refl _) rfl, consistent.running, clocked⟩
  · have inHeap := flag.mpr empty
    simp only [empty, inHeap, ↓reduceIte, Bool.not_true, Bool.false_eq_true]
    refine ⟨.enqueue c nrq ?_ ?_ ?_ ?_ rfl, consistent.running, ?_⟩
    · intro d different
      simp [System.setClient, Function.update_of_ne different, SameQueue]
    · simp [System.setClient]
    · simp [System.setClient]
    · simp [empty, System.setClient]
    · exact clocked_update clocked _ _ (Nat.le_refl _) (clocked c)

theorem req_del_sound (keeps : KeepsNodes ops) {s : System} (consistent : Consistent s)
    (clocked : Clocked s) (c nrq : Nat) (queued : ∃ r ∈ (s.clients c).tcList, r.nrq = nrq) :
    Sound s (step ops s (.reqDel c nrq)) (record ops s (.reqDel c nrq)) := by
  have linked : (s.clients c).tcList.any (·.nrq == nrq) = true := by
    simpa using queued
  simp only [step, record, consistent.running, Bool.false_eq_true, ↓reduceIte, act, nrsTbfReqDel,
    linked]
  obtain ⟨r, member, same⟩ := queued
  obtain ⟨found, front, rear, _, hit, whole, erased⟩ :=
    List.exists_of_eraseP member (p := (·.nrq == nrq)) (by simp [same])
  have found_nrq : found.nrq = nrq := by simpa using hit
  subst found_nrq
  refine ⟨?_, ?_, ?_⟩
  · exact settle_moves keeps consistent ((s.clients c).unlink found.nrq) front whole erased rfl
      (Or.inl rfl) rfl rfl rfl
  · exact (settle_rest s c _).2.1.trans consistent.running
  · intro d
    rw [settle_clients, (settle_rest s c _).2.2]
    refine clocked_update clocked _ _ (Nat.le_refl _) ?_ d
    split <;> exact clocked c

theorem cli_reset_sound (keeps : KeepsNodes ops) {s : System} (consistent : Consistent s)
    (clocked : Clocked s) (c : Nat) (rule : RuleValues) {now : Nat} (later : s.clock ≤ now) :
    Sound s (step ops s (.cliReset c rule now)) (record ops s (.cliReset c rule now)) := by
  have same (d : Nat) : SameQueue
      (Function.update s.clients c ((s.clients c).reset rule now) d) (s.clients d) := by
    by_cases eq : d = c
    · subst eq; simp [SameQueue, Client.reset]
    · simp [Function.update_of_ne eq, SameQueue]
  have checks := clocked_update clocked c ((s.clients c).reset rule now) later (Nat.le_refl _)
  simp only [step, record, consistent.running, Bool.false_eq_true, ↓reduceIte, act,
    nrsTbfCliResetValue]
  split
  · rename_i inHeap
    have member := (consistent.node c).mpr ((consistent.flag c).mp inHeap)
    exact ⟨.idle same (keeps.relocate_perm _ _ c member) rfl, consistent.running, checks⟩
  · exact ⟨.idle same (List.Perm.refl _) rfl, consistent.running, checks⟩

theorem step_sound (keeps : KeepsNodes ops) {s : System} (consistent : Consistent s)
    (clocked : Clocked s) {e : Event} (protocol : Protocol s e) :
    Sound s (step ops s e) (record ops s e) := by
  cases e with
  | reqAdd c nrq insertRc cancelRc => exact req_add_sound keeps consistent clocked c nrq _ _
  | reqDel c nrq => exact req_del_sound keeps consistent clocked c nrq protocol
  | reqGet peek now =>
    cases peek with
    | true => exact req_peek_sound consistent clocked protocol
    | false => exact req_get_sound keeps consistent clocked protocol
  | cliReset c rule now => exact cli_reset_sound keeps consistent clocked c rule protocol
  | timerExpiry =>
    simp only [step, record, consistent.running, Bool.false_eq_true, ↓reduceIte, act]
    exact ⟨.idle (fun _ => ⟨rfl, rfl⟩) (List.Perm.refl _) rfl, consistent.running, clocked⟩
  | command cmd =>
    simp only [step, record, consistent.running, Bool.false_eq_true, ↓reduceIte, act]
    exact ⟨.idle (fun _ => ⟨rfl, rfl⟩) (List.Perm.refl _) rfl, rfl, clocked⟩

structure Inv (s : System) : Prop where
  consistent : Consistent s
  clocked : Clocked s

theorem started_inv {s : System} (started : Started s) : Inv s :=
  ⟨started_consistent started, started.checks⟩

theorem step_inv (keeps : KeepsNodes ops) (s : System) (e : Event) (inv : Inv s)
    (protocol : Protocol s e) : Inv (step ops s e) := by
  have sound := step_sound keeps inv.consistent inv.clocked protocol
  exact ⟨moves_consistent inv.consistent sound.moves sound.running, sound.clocked⟩

structure QueuedOnce (s : System) : Prop where
  within : ∀ c, ((s.clients c).tcList.map (·.nrq)).Nodup
  across : ∀ c d, ∀ a ∈ (s.clients c).tcList, ∀ b ∈ (s.clients d).tcList, a.nrq = b.nrq → c = d

theorem moves_lists {s s' : System} {log : List Record} (moves : Moves s s' log) (d : Nat)
    {r : Request} (member : r ∈ (s'.clients d).tcList) :
    r ∈ (s.clients d).tcList ∨ Record.added d r.nrq ∈ log := by
  cases moves with
  | idle same heap sequence => exact Or.inl ((same d).1 ▸ member)
  | enqueue c nrq others list flag heap sequence =>
    by_cases same : d = c
    · subst same
      rw [list, List.mem_append, List.mem_singleton] at member
      rcases member with old | new
      · exact Or.inl old
      · exact Or.inr (by simp [new])
    · exact Or.inl ((others d same).1 ▸ member)
  | dequeue c r' front rear entry others whole list flag heap sequence kind =>
    by_cases same : d = c
    · subst same
      rw [list] at member
      rw [whole]
      exact Or.inl (by simp only [List.mem_append, List.mem_cons] at member ⊢; tauto)
    · exact Or.inl ((others d same).1 ▸ member)

theorem moves_queued_once {s s' : System} {log : List Record} (once : QueuedOnce s)
    (moves : Moves s s' log) (fresh : ∀ c nrq, Record.added c nrq ∈ log → ¬ s.queued nrq) :
    QueuedOnce s' := by
  constructor
  · intro d
    cases moves with
    | idle same heap sequence => rw [(same d).1]; exact once.within d
    | enqueue c nrq others list flag heap sequence =>
      by_cases same : d = c
      · subst same
        rw [list, List.map_append, List.nodup_append]
        refine ⟨once.within d, by simp, ?_⟩
        intro a old b new
        obtain ⟨r, member, rfl⟩ := List.mem_map.mp old
        simp only [List.map_cons, List.map_nil, List.mem_singleton] at new
        subst new
        intro eq
        exact fresh d _ (by simp) ⟨d, r, member, eq⟩
      · rw [(others d same).1]; exact once.within d
    | dequeue c r front rear entry others whole list flag heap sequence kind =>
      by_cases same : d = c
      · subst same
        have nodup := once.within d
        rw [whole, List.map_append, List.map_cons] at nodup
        rw [list, List.map_append]
        exact nodup.sublist ((List.Sublist.refl _).append (List.sublist_cons_self _ _))
      · rw [(others d same).1]; exact once.within d
  · intro c d a ma b mb eq
    rcases moves_lists moves c ma with oldA | newA
    · rcases moves_lists moves d mb with oldB | newB
      · exact once.across c d a oldA b oldB eq
      · exact absurd ⟨c, a, oldA, eq⟩ (fresh d b.nrq newB)
    · rcases moves_lists moves d mb with oldB | newB
      · exact absurd ⟨d, b, oldB, eq.symm⟩ (fresh c a.nrq newA)
      · have single : ∀ x ∈ log, ∀ y ∈ log, x = y := by cases moves <;> simp
        exact (Record.added.inj (single _ newA _ newB)).1

theorem record_added {s : System} {e : Event} {c nrq : Nat}
    (member : Record.added c nrq ∈ record ops s e) :
    ∃ insertRc cancelRc, e = .reqAdd c nrq insertRc cancelRc := by
  unfold record at member
  split at member
  · simp at member
  · split at member
    · split at member
      · simp only [List.mem_singleton, Record.added.injEq] at member
        exact ⟨_, _, by rw [member.1, member.2]⟩
      · simp at member
    · split at member <;> simp at member
    · simp at member
    · simp at member

theorem step_queued_once (keeps : KeepsNodes ops) (s : System) (e : Event) (inv : Inv s)
    (once : QueuedOnce s) (protocol : Protocol s e) : QueuedOnce (step ops s e) := by
  refine moves_queued_once once (step_sound keeps inv.consistent inv.clocked protocol).moves ?_
  intro c nrq member
  obtain ⟨insertRc, cancelRc, rfl⟩ := record_added member
  exact protocol

def leaves (c nrq : Nat) : Record → Bool
  | .added _ _ => false
  | .deleted d n => d == c && n == nrq
  | .returned d r _ => d == c && r.nrq == nrq

theorem step_balanced (keeps : KeepsNodes ops) (c nrq : Nat) (s : System) (e : Event)
    (ok : Inv s ∧ Protocol s e) :
    (s.clients c).tcList.countP (·.nrq == nrq) + (record ops s e).countP (· == .added c nrq) =
      (record ops s e).countP (leaves c nrq) +
        ((step ops s e).clients c).tcList.countP (·.nrq == nrq) := by
  have moves := (step_sound keeps ok.1.consistent ok.1.clocked ok.2).moves
  generalize record ops s e = log at *
  cases moves with
  | idle same heap sequence => simp [(same c).1]
  | enqueue d n others list flag heap sequence =>
    by_cases client : c = d
    · subst client
      by_cases request : n = nrq <;> simp [list, leaves, request]
    · have different : ¬ d = c := fun h => client h.symm
      simp [(others c client).1, leaves, different]
  | dequeue d r front rear entry others whole list flag heap sequence kind =>
    have gone : leaves c nrq entry = (d == c && r.nrq == nrq) ∧ (entry == .added c nrq) = false := by
      rcases kind with rfl | ⟨_, now, rfl⟩ <;> simp [leaves]
    by_cases client : c = d
    · subst client
      by_cases request : r.nrq = nrq
      · simp [gone, whole, list, request]; omega
      · simp [gone, whole, list, request]
    · have different : ¬ d = c := fun h => client h.symm
      simp [(others c client).1, gone, different]

/-- Each client's list is in the order of its sequence numbers, all below the next one. -/
def Sequenced (s : System) : Prop := ∀ c,
  (s.clients c).tcList.Pairwise (fun a b => a.trSequence < b.trSequence) ∧
    ∀ r ∈ (s.clients c).tcList, r.trSequence < s.thSequence

theorem moves_sequenced {s s' : System} {log : List Record} (sequenced : Sequenced s)
    (moves : Moves s s' log) : Sequenced s' := by
  intro d
  have old := sequenced d
  cases moves with
  | idle same heap sequence => rw [(same d).1, sequence]; exact old
  | enqueue c nrq others list flag heap sequence =>
    rw [sequence]
    by_cases same : d = c
    · subst same
      rw [list]
      refine ⟨List.pairwise_append.mpr ⟨old.1, by simp, ?_⟩, ?_⟩
      · intro a ma b mb
        simp only [List.mem_singleton] at mb
        subst mb
        exact old.2 a ma
      · intro r member
        rcases List.mem_append.mp member with before | new
        · exact Nat.lt_succ_of_lt (old.2 r before)
        · simp only [List.mem_singleton] at new
          subst new
          exact Nat.lt_succ_self _
    · rw [(others d same).1]
      exact ⟨old.1, fun r member => Nat.lt_succ_of_lt (old.2 r member)⟩
  | dequeue c r front rear entry others whole list flag heap sequence kind =>
    rw [sequence]
    by_cases same : d = c
    · subst same
      have sub : (front ++ rear).Sublist (front ++ r :: rear) :=
        (List.Sublist.refl _).append (List.sublist_cons_self _ _)
      rw [whole] at old
      rw [list]
      exact ⟨old.1.sublist sub, fun x member => old.2 x (sub.subset member)⟩
    · rw [(others d same).1]; exact old

def returnedSequences (c : Nat) (log : List Record) : List Nat :=
  log.filterMap fun
    | .returned d r _ => if d = c then some r.trSequence else none
    | _ => none

theorem returned_sequences_append (c : Nat) (old new : List Record) :
    returnedSequences c (old ++ new) = returnedSequences c old ++ returnedSequences c new :=
  List.filterMap_append

def Pending (c : Nat) (s : System) (x : Nat) : Prop :=
  x ∈ (s.clients c).tcList.map (·.trSequence) ∨ s.thSequence ≤ x

theorem moves_pending {s s' : System} {log : List Record} (moves : Moves s s' log) {c x : Nat}
    (pending : Pending c s' x) : Pending c s x := by
  cases moves with
  | idle same heap sequence =>
    rw [Pending, (same c).1, sequence] at pending
    exact pending
  | enqueue d nrq others list flag heap sequence =>
    rcases pending with queued | new
    · by_cases client : c = d
      · subst client
        rw [list, List.map_append, List.mem_append] at queued
        rcases queued with old | added
        · exact Or.inl old
        · exact Or.inr (by simp at added; omega)
      · rw [(others c client).1] at queued
        exact Or.inl queued
    · exact Or.inr (by omega)
  | dequeue d r front rear entry others whole list flag heap sequence kind =>
    rcases pending with queued | new
    · left
      by_cases client : c = d
      · subst client
        rw [list] at queued
        rw [whole]
        simp only [List.map_append, List.map_cons, List.mem_append, List.mem_cons] at queued ⊢
        tauto
      · rwa [(others c client).1] at queued
    · exact Or.inr (by omega)

theorem moves_returned {s s' : System} {log : List Record} (sequenced : Sequenced s)
    (moves : Moves s s' log) (c : Nat) : returnedSequences c log = [] ∨
      ∃ x, returnedSequences c log = [x] ∧ Pending c s x ∧ ∀ y, Pending c s' y → x < y := by
  cases moves with
  | idle same heap sequence => exact Or.inl rfl
  | enqueue d nrq others list flag heap sequence => exact Or.inl rfl
  | dequeue d r front rear entry others whole list flag heap sequence kind =>
    rcases kind with rfl | ⟨rfl, now, rfl⟩
    · exact Or.inl rfl
    · by_cases client : d = c
      · subst client
        -- The head of the list is below everything behind it and below the next number.
        have head := sequenced d
        rw [whole, List.nil_append, List.pairwise_cons] at head
        refine Or.inr ⟨r.trSequence, by simp [returnedSequences], Or.inl (by simp [whole]), ?_⟩
        rintro y (queued | new)
        · rw [list, List.nil_append] at queued
          obtain ⟨q, member, rfl⟩ := List.mem_map.mp queued
          exact head.1.1 q member
        · have below := head.2 r (by simp)
          omega
      · exact Or.inl (by simp [returnedSequences, client])

theorem returned_in_sequence (keeps : KeepsNodes ops) (c : Nat) (es : List Event) :
    ∀ s, Inv s → Sequenced s → Along (step ops) Protocol s es →
      (returnedSequences c (trace (step ops) (record ops) s es)).Pairwise (· < ·) ∧
      ∀ x ∈ returnedSequences c (trace (step ops) (record ops) s es), Pending c s x := by
  induction es with
  | nil => intro s inv sequenced protocol; simp [trace, returnedSequences]
  | cons e es ih =>
    intro s inv sequenced protocol
    have moves := (step_sound keeps inv.consistent inv.clocked protocol.1).moves
    obtain ⟨sorted, later⟩ := ih (step ops s e) (step_inv keeps s e inv protocol.1)
      (moves_sequenced sequenced moves) protocol.2
    rw [trace, returned_sequences_append]
    rcases moves_returned sequenced moves c with none | ⟨x, one, pending, first⟩
    · rw [none, List.nil_append]
      exact ⟨sorted, fun y member => moves_pending moves (later y member)⟩
    · rw [one, List.singleton_append]
      refine ⟨List.pairwise_cons.mpr ⟨fun y member => first y (later y member), sorted⟩, ?_⟩
      intro y member
      rcases List.mem_cons.mp member with rfl | more
      · exact pending
      · exact moves_pending moves (later y more)

def FlagsAgree (s : System) : Prop :=
  s.lbug = false ∧ ∀ c, ((s.clients c).tcInHeap = true ↔ (s.clients c).tcList ≠ []) ∧
    ((s.clients c).tcInHeap = true ↔ c ∈ s.thBinheap)

def returnedBy (c nrq : Nat) : Record → Bool
  | .returned d r _ => d == c && r.nrq == nrq
  | _ => false

/-- Every successful addition of a request is matched by one deletion, one return, or
    the one place where the request is queued. -/
def Conserved (s : System) (log : List Record) : Prop :=
  QueuedOnce s ∧ ∀ c nrq, log.count (.added c nrq) =
    log.count (.deleted c nrq) + log.countP (returnedBy c nrq) +
      (s.clients c).tcList.countP (·.nrq == nrq)

def FailedAddInert (ops : HeapOps Nat) (s : System) (e : Event) : Prop :=
  ∀ c nrq insertRc cancelRc rc, e = .reqAdd c nrq insertRc cancelRc →
    (nrsTbfReqAdd ops c nrq insertRc cancelRc s).2 = some rc → rc ≠ 0 → step ops s e = s

theorem failed_add_inert (s : System) (e : Event) : FailedAddInert ops s e := by
  rintro c nrq insertRc cancelRc rc rfl failed nonzero
  unfold step act
  split
  · rfl
  · unfold nrsTbfReqAdd at failed ⊢
    dsimp only at failed ⊢
    split
    · rename_i empty
      rw [if_pos empty] at failed
      split
      · rename_i inHeap; simp [inHeap] at failed
      · rename_i out
        split
        · rfl
        · rename_i inserted
          simp only [out, inserted, Bool.false_eq_true, ↓reduceIte, Option.some.injEq] at failed
          exact absurd failed.symm nonzero
    · rename_i more
      rw [if_neg more] at failed
      split at failed
      · simp at failed
      · simp only [Option.some.injEq] at failed
        exact absurd failed.symm nonzero

theorem leaves_count (c nrq : Nat) (log : List Record) :
    log.countP (leaves c nrq) = log.count (.deleted c nrq) + log.countP (returnedBy c nrq) := by
  induction log with
  | nil => rfl
  | cons x log ih =>
    rw [List.countP_cons, List.countP_cons, List.count_cons, ih]
    cases x with
    | added d n => simp [leaves, returnedBy]
    | deleted d n => simp [leaves, returnedBy]; omega
    | returned d r now => simp [leaves, returnedBy]; omega

theorem consistent_flags_agree {s : System} (consistent : Consistent s) : FlagsAgree s :=
  ⟨consistent.running, fun c =>
    ⟨consistent.flag c, (consistent.flag c).trans (consistent.node c).symm⟩⟩

theorem run_inv (keeps : KeepsNodes ops) {s : System} (inv : Inv s) {es : List Event}
    (protocol : Along (step ops) Protocol s es) : Always (step ops) Inv s es :=
  always_of_along (step_inv keeps) inv protocol

theorem run_conserved (keeps : KeepsNodes ops) {s : System} (started : Started s)
    {es : List Event} (protocol : Along (step ops) Protocol s es) :
    Conserved (run (step ops) s es) (trace (step ops) (record ops) s es) := by
  have always := run_inv keeps (started_inv started) protocol
  have invs : Along (step ops) (fun s _ => Inv s) s es := along_of_always (fun _ _ inv => inv) always
  constructor
  · have start : Inv s ∧ QueuedOnce s :=
      ⟨started_inv started, ⟨by simp [started.lists], by simp [started.lists]⟩⟩
    have keep (s : System) (e : Event) (ok : Inv s ∧ QueuedOnce s) (protocol : Protocol s e) :
        Inv (step ops s e) ∧ QueuedOnce (step ops s e) :=
      ⟨step_inv keeps s e ok.1 protocol, step_queued_once keeps s e ok.1 ok.2 protocol⟩
    exact (always_run (always_of_along keep start protocol)).2
  · intro c nrq
    have balance := ledger (fun s => (s.clients c).tcList.countP (·.nrq == nrq))
      (· == Record.added c nrq) (leaves c nrq) (step_balanced keeps c nrq)
      (along_and.mpr ⟨invs, protocol⟩)
    rw [leaves_count] at balance
    simpa [started.lists, List.count] using balance

/-- Whatever comparator is installed and whenever it changes, no request is lost or
    duplicated, no assertion fails, and each client's requests come out in order. -/
theorem tbf_requests_conserved (keeps : KeepsNodes ops) (s : System) (started : Started s)
    (es : List Event) (protocol : Along (step ops) Protocol s es) :
    Always (step ops) FlagsAgree s es ∧
    Conserved (run (step ops) s es) (trace (step ops) (record ops) s es) ∧
    Along (step ops) (FailedAddInert ops) s es ∧
    ∀ c, (returnedSequences c (trace (step ops) (record ops) s es)).Pairwise (· < ·) := by
  have always := run_inv keeps (started_inv started) protocol
  have invs : Along (step ops) (fun s e => Inv s ∧ Protocol s e) s es :=
    along_and.mpr ⟨along_of_always (fun _ _ inv => inv) always, protocol⟩
  refine ⟨?_, run_conserved keeps started protocol, ?_, ?_⟩
  · exact always_mono (fun _ inv => consistent_flags_agree inv.consistent) always
  · exact along_mono (fun s e _ => failed_add_inert s e) invs
  · intro c
    have sequenced : Sequenced s := fun c => by simp [started.lists]
    exact (returned_in_sequence keeps c es s (started_inv started) sequenced protocol).1

def ProtocolCheck (s : System) : Event → Prop
  | .reqAdd _ nrq _ _ => ∀ c ∈ s.thBinheap, ∀ r ∈ (s.clients c).tcList, r.nrq ≠ nrq
  | .reqDel c nrq => ∃ r ∈ (s.clients c).tcList, r.nrq = nrq
  | .reqGet _ now => s.clock ≤ now
  | .cliReset _ _ now => s.clock ≤ now
  | .timerExpiry => True
  | .command cmd => cmd.Valid

instance (s : System) (e : Event) : Decidable (ProtocolCheck s e) :=
  match e with
  | .reqAdd _ nrq _ _ =>
    inferInstanceAs (Decidable (∀ c ∈ s.thBinheap, ∀ r ∈ (s.clients c).tcList, r.nrq ≠ nrq))
  | .reqDel c nrq => inferInstanceAs (Decidable (∃ r ∈ (s.clients c).tcList, r.nrq = nrq))
  | .reqGet _ now => inferInstanceAs (Decidable (s.clock ≤ now))
  | .cliReset _ _ now => inferInstanceAs (Decidable (s.clock ≤ now))
  | .timerExpiry => isTrue trivial
  | .command cmd => inferInstanceAs (Decidable cmd.Valid)

theorem protocol_of_check (s : System) (e : Event) (inv : Inv s) (checked : ProtocolCheck s e) :
    Protocol s e := by
  cases e with
  | reqAdd c nrq insertRc cancelRc =>
    rintro ⟨d, r, member, number⟩
    have queued : d ∈ s.thBinheap :=
      (inv.consistent.node d).mpr (List.ne_nil_of_mem member)
    exact checked d queued r member number
  | _ => exact checked

theorem run_protocol (keeps : KeepsNodes ops) {s : System} (started : Started s) {es : List Event}
    (checked : Along (step ops) ProtocolCheck s es) : Along (step ops) Protocol s es :=
  along_of_check (step_inv keeps) protocol_of_check (started_inv started) checked

def twoClients (c : Nat) : Client :=
  { stamp := ⟨c, c, 0⟩, tcJobid := [], tcRpcRate := 1000, tcNsecs := 1000000, tcNtoken := 1,
    tcDepth := 3, tcCheckTime := 0, tcList := [], tcInHeap := false }

theorem tbf_requests_conserved_two_clients :
    let s := startedSystem ⟨some .tbfCliCompare, some .sscdtReqCompareNid, 1000⟩ twoClients
    let es : List Event := [.reqAdd 1 10 0 0, .reqAdd 2 20 (-12) 0, .reqAdd 1 11 0 0,
      .command ⟨.start, 1000⟩, .reqGet false 5, .reqDel 1 11]
    Along (step sortedOps) Protocol s es ∧
      Conserved (run (step sortedOps) s es) (trace (step sortedOps) (record sortedOps) s es) := by
  intro s es
  have keeps : KeepsNodes (sortedOps : HeapOps Nat) := sorted_ops_keep_order.toKeepsNodes
  have started : Started s :=
    ⟨rfl, fun _ => rfl, fun _ => rfl, fun _ => Nat.le_refl _, rfl, rfl⟩
  have protocol : Along (step sortedOps) Protocol s es := run_protocol keeps started (by decide)
  exact ⟨protocol, (tbf_requests_conserved keeps s started es protocol).2.1⟩

end TbfQueues
