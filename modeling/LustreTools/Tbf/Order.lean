import LustreTools.Tbf.Tokens

/-!
The order in which the TBF policy serves its clients. It rests on the heap order under
the comparator in force: every queue operation keeps it, and only the SSCDT commands,
which exchange the comparator or its window width under a filled heap, can lose it.
-/
namespace TbfOrder
open Runs Words Text BinHeap TimeWindow TbfPolicy TbfQueues TbfTokens

theorem not_after_tbf_iff (a b : Client) :
    NotAfter tbfCliCompare a b ↔ toLex (a.deadline, a.tcCheckTime) ≤ toLex (b.deadline, b.tcCheckTime) := by
  rw [Prod.Lex.toLex_le_toLex, NotAfter]
  unfold tbfCliCompare
  split <;> split <;> simp_all <;> omega

theorem not_after_jobid_iff (interval : Int) {a b : Client}
    (ra : SentInRange a.stamp.rqSent) (rb : SentInRange b.stamp.rqSent) :
    NotAfter (sscdtReqCompareJobid interval) a b ↔
      toLex (window interval.natAbs a.stamp.rqSent, a.stamp.nid) ≤
        toLex (window interval.natAbs b.stamp.rqSent, b.stamp.nid) := by
  have ab := time_window_eq_iff interval ra rb
  have ba := time_window_eq_iff interval rb ra
  simp only [NotAfter, sscdtReqCompareJobid, windowCompare, Prod.Lex.toLex_le_toLex]
  generalize interval.natAbs = n at *
  by_cases same : window n a.stamp.rqSent = window n b.stamp.rqSent
  · rw [if_neg (not_not.mpr (ab.mpr same)), if_neg (not_not.mpr (ba.mpr same.symm))]
    by_cases peer : a.stamp.nid = b.stamp.nid
    · by_cases job : a.tcJobid = b.tcJobid <;> simp [peer, same, strcmp_eq_zero, job]
    · have other : ¬ b.stamp.nid = a.stamp.nid := fun h => peer h.symm
      simp [peer, other, same]
      omega
  · have order := sent_lt_iff_window_lt same
    have back := sent_lt_iff_window_lt (fun h => same h.symm)
    rw [if_pos (fun h => same (ab.mp h)), if_pos (fun h => same (ba.mp h).symm)]
    simp only [decide_eq_true_eq, decide_eq_false_iff_not, order, back, same, false_and, or_false]
    omega

def Ranged (clients : Nat → Client) : Prop := ∀ c, SentInRange (clients c).stamp.rqSent

/-- Deadlines can always be compared, windows while no `rq_sent * 1000` overflows. -/
def Comparable (g : Globals) (clients : Nat → Client) : Prop :=
  g.hopCompare = some .tbfCliCompare ∨ Ranged clients

theorem update_comparable {g : Globals} {clients : Nat → Client} {c : Nat} {cli : Client}
    (comparable : Comparable g clients) (stamp : cli.stamp = (clients c).stamp) :
    Comparable g (Function.update clients c cli) := by
  refine comparable.imp id fun ranged d => ?_
  by_cases same : d = c
  · subst same
    simpa [stamp] using ranged d
  · simpa [Function.update_of_ne same] using ranged d

theorem hop_compare_transitive {g : Globals} {clients : Nat → Client}
    (comparable : Comparable g clients) (nodes : List Nat) :
    TransitiveOn (hopCompare g clients) nodes := by
  have ranged (other : g.hopCompare ≠ some .tbfCliCompare) : Ranged clients :=
    comparable.resolve_left other
  cases pointer : g.hopCompare with
  | none =>
    refine transitive_of_key (fun _ => (0 : Nat)) (fun a _ b _ => ?_)
    simp [NotAfter, hopCompare, pointer]
  | some comparator =>
    cases comparator with
    | tbfCliCompare =>
      refine transitive_of_key
        (fun c => toLex ((clients c).deadline, (clients c).tcCheckTime)) (fun a _ b _ => ?_)
      rw [← not_after_tbf_iff]
      simp [NotAfter, hopCompare, pointer]
    | sscdtReqCompareNid =>
      have ranged := ranged (by simp [pointer])
      refine transitive_of_key
        (fun c => stampKey g.tbfTwInterval.natAbs (clients c).stamp) (fun a _ b _ => ?_)
      rw [← not_after_stamp_iff g.tbfTwInterval (ranged a) (ranged b)]
      simp [NotAfter, hopCompare, pointer, sscdtReqCompareNid]
    | sscdtReqCompareJobid =>
      have ranged := ranged (by simp [pointer])
      refine transitive_of_key
        (fun c => toLex (window g.tbfTwInterval.natAbs (clients c).stamp.rqSent, (clients c).stamp.nid))
        (fun a _ b _ => ?_)
      rw [← not_after_jobid_iff g.tbfTwInterval (ranged a) (ranged b)]
      simp [NotAfter, hopCompare, pointer]

def SameKey (a b : Client) : Prop :=
  a.stamp = b.stamp ∧ a.tcJobid = b.tcJobid ∧ a.tcNsecs = b.tcNsecs ∧ a.tcCheckTime = b.tcCheckTime

theorem hop_compare_congr (g : Globals) {clients clients' : Nat → Client} {a b : Nat}
    (ka : SameKey (clients a) (clients' a)) (kb : SameKey (clients b) (clients' b)) :
    hopCompare g clients a b = hopCompare g clients' a b := by
  obtain ⟨a1, a2, a3, a4⟩ := ka
  obtain ⟨b1, b2, b3, b4⟩ := kb
  unfold hopCompare
  split
  · rw [tbfCliCompare, tbfCliCompare, Client.deadline, Client.deadline, a3, a4, b3, b4]
    rfl
  · simp only [sscdtReqCompareNid, a1, b1]
  · simp only [sscdtReqCompareJobid, a1, a2, b1, b2]
  · rfl

def Ordered (s : System) : Prop := HeapOrdered s.compare s.thBinheap

variable {ops : HeapOps Nat}

theorem bucket_key {a b : Client} (same : bucket a = bucket b) : SameKey a b := by
  simp only [bucket, Client.mk.injEq] at same
  exact ⟨same.1, same.2.1, same.2.2.2.1, same.2.2.2.2.2.2.1⟩

theorem update_compare (g : Globals) (clients : Nat → Client) {c : Nat} (cli : Client) (a b : Nat)
    (ha : a ≠ c) (hb : b ≠ c) :
    hopCompare g clients a b = hopCompare g (Function.update clients c cli) a b := by
  apply hop_compare_congr
  · simp [Function.update_of_ne ha, SameKey]
  · simp [Function.update_of_ne hb, SameKey]

theorem settle_ordered (keeps : KeepsOrder ops) {s : System} (consistent : Consistent s)
    (comparable : Comparable s.globals s.clients) (ordered : Ordered s) {c : Nat} {cli : Client}
    (member : c ∈ s.thBinheap) (stamp : cli.stamp = (s.clients c).stamp) :
    Ordered (s.settle ops c cli) := by
  have before := hop_compare_transitive comparable s.thBinheap
  have after := hop_compare_transitive (update_comparable comparable stamp) s.thBinheap
  have agree := update_compare s.globals s.clients (c := c) cli
  unfold System.settle
  split
  · have removed := keeps.remove_ordered _ _ _ c before after consistent.nodup member agree ordered
    apply removed.congr
    intro a _ b _
    have key (d : Nat) : SameKey (Function.update s.clients c cli d)
        (Function.update s.clients c { cli with tcInHeap := false } d) := by
      by_cases same : d = c
      · subst same; simp [SameKey]
      · simp [Function.update_of_ne same, SameKey]
    exact hop_compare_congr s.globals (key a) (key b)
  · exact keeps.relocate_ordered _ _ _ c before after consistent.nodup member agree ordered

theorem req_get_ordered (keeps : KeepsOrder ops) {s : System} (consistent : Consistent s)
    (comparable : Comparable s.globals s.clients) (ordered : Ordered s) (peek : Bool) (now : Nat) :
    Ordered (nrsTbfReqGet ops peek now s).1 := by
  cases peek with
  | true =>
    rcases req_peek_state ops now s with same | ⟨root, rest, heap, flag⟩
    · rw [same]; exact ordered
    · have inHeap := (consistent.flag root).mpr ((consistent.node root).mp (by simp [heap]))
      simp [inHeap] at flag
  | false =>
    have outcome := req_get_outcome ops now s
    generalize nrsTbfReqGet ops false now s = result at outcome
    cases outcome with
    | idle reason => exact ordered
    | asserted root rest heap reason => exact ordered
    | granted root rest r rear heap unthrottled inHeap time positive list =>
      exact settle_ordered keeps consistent comparable ordered (by simp [heap]) rfl
    | armed root rest heap unthrottled broke => exact ordered

theorem ordered_of_buckets {s s' : System} (globals : s'.globals = s.globals)
    (same : ∀ d, bucket (s.clients d) = bucket (s'.clients d))
    (ordered : HeapOrdered s.compare s'.thBinheap) : Ordered s' := by
  apply HeapOrdered.congr ordered
  intro a _ b _
  rw [System.compare, System.compare, globals]
  exact hop_compare_congr s.globals (bucket_key (same a)) (bucket_key (same b))

theorem req_add_ordered (keeps : KeepsOrder ops) {s : System} (consistent : Consistent s)
    (comparable : Comparable s.globals s.clients) (ordered : Ordered s) (c nrq : Nat)
    (insertRc cancelRc : Int) : Ordered (nrsTbfReqAdd ops c nrq insertRc cancelRc s).1 := by
  have inserted (empty : (s.clients c).tcList = []) :
      HeapOrdered s.compare (ops.insert s.compare s.thBinheap c) := by
    have out : c ∉ s.thBinheap := fun member => (consistent.node c).mp member empty
    exact keeps.insert_ordered _ _ c (hop_compare_transitive comparable _)
      (List.nodup_cons.mpr ⟨out, consistent.nodup⟩) ordered
  refine ordered_of_buckets (s := s) ?_ (fun d => (req_add_bucket ops c nrq insertRc cancelRc s d).symm) ?_
  · unfold nrsTbfReqAdd
    dsimp only
    repeat' split
    all_goals rfl
  · unfold nrsTbfReqAdd
    dsimp only
    split
    · split
      · exact ordered
      · split
        · exact ordered
        · exact inserted ‹_›
    · split <;> exact ordered

theorem cli_reset_ordered (keeps : KeepsOrder ops) {s : System} (consistent : Consistent s)
    (comparable : Comparable s.globals s.clients) (ordered : Ordered s) (c : Nat)
    (rule : RuleValues) (now : Nat) : Ordered (nrsTbfCliResetValue ops c rule now s) := by
  have after : Comparable s.globals (Function.update s.clients c ((s.clients c).reset rule now)) :=
    update_comparable comparable rfl
  have agree := update_compare s.globals s.clients (c := c) ((s.clients c).reset rule now)
  unfold nrsTbfCliResetValue
  dsimp only
  split
  · rename_i inHeap
    have member := (consistent.node c).mpr ((consistent.flag c).mp inHeap)
    exact keeps.relocate_ordered _ _ _ c (hop_compare_transitive comparable _)
      (hop_compare_transitive after _) consistent.nodup member agree ordered
  · rename_i outside
    have absent : c ∉ s.thBinheap := fun member =>
      outside ((consistent.flag c).mpr ((consistent.node c).mp member))
    apply HeapOrdered.congr ordered
    intro a ma b mb
    exact agree a b (fun h => absent (h ▸ ma)) (fun h => absent (h ▸ mb))

/-- The SSCDT commands are applied only when the heap is in order under the comparator
    and window width they install. -/
def OrderSafe (s : System) : Event → Prop
  | .command cmd => HeapOrdered (hopCompare (nrsTbfCommand s.globals cmd) s.clients) s.thBinheap
  | _ => True

theorem step_ordered (keeps : KeepsOrder ops) {s : System} (consistent : Consistent s)
    (comparable : Comparable s.globals s.clients) (ordered : Ordered s) {e : Event} (safe : OrderSafe s e) :
    Ordered (step ops s e) := by
  simp only [step, consistent.running, Bool.false_eq_true, ↓reduceIte]
  cases e with
  | reqAdd c nrq insertRc cancelRc => exact req_add_ordered keeps consistent comparable ordered c nrq _ _
  | reqDel c nrq =>
    simp only [act, nrsTbfReqDel]
    split
    · rename_i linked
      have queued : (s.clients c).tcList ≠ [] := by
        intro empty; simp [empty] at linked
      exact settle_ordered keeps consistent comparable ordered ((consistent.node c).mpr queued) rfl
    · exact ordered
  | reqGet peek now => exact req_get_ordered keeps consistent comparable ordered peek now
  | timerExpiry => exact ordered
  | cliReset c rule now => exact cli_reset_ordered keeps consistent comparable ordered c rule now
  | command cmd => exact safe

theorem step_stamp (s : System) (e : Event) (d : Nat) :
    ((step ops s e).clients d).stamp = (s.clients d).stamp := by
  cases step_bucket ops s e d with
  | kept same ungranted => exact (bucket_key same).1
  | granted r now rest served time positive spent => exact (bucket_key spent).1
  | reset rule now event values ungranted => exact (bucket_key values).1

theorem step_ranged {s : System} (ranged : Ranged s.clients) (e : Event) :
    Ranged (step ops s e).clients := by
  intro d
  rw [step_stamp]
  exact ranged d

structure OrderInv (s : System) : Prop where
  inv : Inv s
  ranged : Ranged s.clients
  ordered : Ordered s

theorem started_order_inv {s : System} (started : Started s) (ranged : Ranged s.clients) :
    OrderInv s :=
  ⟨started_inv started, ranged, by rw [Ordered, started.heap]; exact heap_ordered_nil _⟩

theorem step_order_inv (keeps : KeepsOrder ops) (s : System) (e : Event) (order : OrderInv s)
    (ok : Protocol s e ∧ OrderSafe s e) : OrderInv (step ops s e) :=
  ⟨step_inv keeps.toKeepsNodes s e order.inv ok.1, step_ranged order.ranged e,
    step_ordered keeps order.inv.consistent (Or.inr order.ranged) order.ordered ok.2⟩

/-- No client in the heap strictly precedes its root, under the comparator and the window
    width in force. -/
def RootMinimal (s : System) : Prop := ∀ root rest, s.thBinheap = root :: rest →
  ∀ c ∈ s.thBinheap, ¬ (s.compare c root = true ∧ s.compare root c = false)

def ServesMinimal (ops : HeapOps Nat) (s : System) (e : Event) : Prop :=
  ∀ peek now root r, e = .reqGet peek now → (nrsTbfReqGet ops peek now s).2 = some (root, r) →
    ∀ c ∈ s.thBinheap, ¬ (s.compare c root = true ∧ s.compare root c = false)

theorem order_inv_root_minimal {s : System} (order : OrderInv s) : RootMinimal s := by
  intro root rest heap c member
  have trans : TransitiveOn s.compare s.thBinheap :=
    hop_compare_transitive (Or.inr order.ranged) s.thBinheap
  have ordered := order.ordered
  rw [Ordered, heap] at ordered
  rw [heap] at trans member
  have first := root_first trans ordered c member
  rintro ⟨before, after⟩
  rcases first with yes | no
  · rw [yes] at after; cases after
  · rw [no] at before; cases before

theorem served_is_root {s : System} {peek : Bool} {now root : Nat} {r : Request}
    (served : (nrsTbfReqGet ops peek now s).2 = some (root, r)) :
    ∃ rest, s.thBinheap = root :: rest := by
  cases peek with
  | true =>
    simp only [nrsTbfReqGet, Bool.not_true, Bool.false_and, Bool.false_eq_true, ↓reduceIte] at served
    split at served
    · cases served
    · rename_i top rest heap
      split at served
      · cases served
      · obtain ⟨x, _, same⟩ := Option.map_eq_some_iff.mp served
        exact ⟨rest, by rw [heap, (Prod.mk.inj same).1]⟩
  | false =>
    have outcome := req_get_outcome ops now s
    generalize nrsTbfReqGet ops false now s = result at outcome served
    cases outcome with
    | granted top rest x rear heap unthrottled inHeap time positive list =>
      simp only [Option.some.injEq, Prod.mk.injEq] at served
      exact ⟨rest, by rw [heap, served.1]⟩
    | _ => simp at served

theorem root_minimal_serves (ops : HeapOps Nat) {s : System} (e : Event) (minimal : RootMinimal s) :
    ServesMinimal ops s e := by
  rintro peek now root r rfl served
  obtain ⟨rest, heap⟩ := served_is_root served
  exact minimal root rest heap

theorem run_order_inv (keeps : KeepsOrder ops) {s : System} (started : Started s)
    (ranged : Ranged s.clients) {es : List Event} (protocol : Along (step ops) Protocol s es)
    (safe : Along (step ops) OrderSafe s es) : Always (step ops) OrderInv s es :=
  always_of_along (step_order_inv keeps) (started_order_inv started ranged)
    (along_and.mpr ⟨protocol, safe⟩)

/-- In every run whose SSCDT commands find the heap in order under what they install, the
    root of the heap is minimal in every state, and so is every client served. -/
theorem tbf_root_minimal (keeps : KeepsOrder ops) (s : System) (started : Started s)
    (ranged : Ranged s.clients) (es : List Event) (protocol : Along (step ops) Protocol s es)
    (safe : Along (step ops) OrderSafe s es) :
    Always (step ops) RootMinimal s es ∧ Along (step ops) (ServesMinimal ops) s es := by
  have always := always_mono (fun _ => order_inv_root_minimal)
    (run_order_inv keeps started ranged protocol safe)
  refine ⟨always, along_of_always ?_ always⟩
  intro s e minimal
  exact root_minimal_serves ops e minimal

def freshClient (nsecs : Nat) (stamp : Stamp) : Client :=
  { stamp := stamp, tcJobid := [], tcRpcRate := 1000000000 / nsecs, tcNsecs := nsecs, tcNtoken := 3,
    tcDepth := 3, tcCheckTime := 0, tcList := [], tcInHeap := false }

def crossedClients : Nat → Client
  | 1 => freshClient 1000000 ⟨5, 1, 0⟩
  | _ => freshClient 1000000000 ⟨1, 2, 0⟩

def tokenMode : Globals := ⟨some .tbfCliCompare, some .sscdtReqCompareNid, 1000⟩

theorem crossed_started : Started (startedSystem tokenMode crossedClients) where
  heap := rfl
  lists c := by simp only [startedSystem, crossedClients]; split <;> rfl
  flags c := by simp only [startedSystem, crossedClients]; split <;> rfl
  checks c := by simp only [startedSystem, crossedClients]; split <;> exact Nat.le_refl _
  running := rfl
  unthrottled := rfl

theorem crossed_ranged : Ranged (startedSystem tokenMode crossedClients).clients := by
  intro c
  simp only [startedSystem, crossedClients]
  split <;> simp only [freshClient, SentInRange] <;> decide

theorem tbf_root_minimal_empty_start :
    let s := startedSystem tokenMode crossedClients
    let es : List Event := [.command ⟨.start, 1000⟩, .reqAdd 1 10 0 0,
      .reqAdd 2 20 0 0, .reqGet false 1000000000]
    (nrsTbfReqGet sortedOps false 1000000000 (run (step sortedOps) s (es.take 3))).2 =
        some (2, ⟨20, 1⟩) ∧
      Along (step sortedOps) (ServesMinimal sortedOps) s es := by
  intro s es
  have keeps : KeepsOrder (sortedOps : HeapOps Nat) := sorted_ops_keep_order
  refine ⟨by decide, ?_⟩
  refine (tbf_root_minimal keeps s crossed_started crossed_ranged es ?_ ?_).2
  · exact run_protocol keeps.toKeepsNodes crossed_started (by decide)
  · exact ⟨heap_ordered_nil _, trivial, trivial, trivial, trivial⟩

/-- SSCDT started while the clients are queued by deadline: the next request served is of
    client 1, although client 2 has the smaller window. -/
theorem tbf_start_sscdt_serves_late_window :
    let s := startedSystem tokenMode crossedClients
    let es : List Event := [.reqAdd 1 10 0 0, .reqAdd 2 20 0 0,
      .command ⟨.start, 1000⟩, .reqGet false 1000000]
    KeepsOrder (sortedOps : HeapOps Nat) ∧ Started s ∧ Ranged s.clients ∧
      Along (step sortedOps) Protocol s es ∧
      ¬ Along (step sortedOps) (ServesMinimal sortedOps) s es := by
  intro s es
  have keeps : KeepsOrder (sortedOps : HeapOps Nat) := sorted_ops_keep_order
  refine ⟨keeps, crossed_started, crossed_ranged, ?_, ?_⟩
  · exact run_protocol keeps.toKeepsNodes crossed_started (by decide)
  · rintro ⟨_, _, _, serves, _⟩
    exact serves false 1000000 1 ⟨10, 0⟩ rfl (by decide) 2 (by decide) (by decide)

end TbfOrder
