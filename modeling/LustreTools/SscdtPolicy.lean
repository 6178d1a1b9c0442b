import LustreTools.Lib.Runs
import LustreTools.TimeWindow

/-!
The stand-alone SSCDT policy (nrs_sscdt.c): a binary heap of requests ordered by
time window and peer, and a global window width that `nrs_sscdt_ctl` reads and
writes. The heap operations are those of libcfs and stay a parameter.
-/
namespace SscdtPolicy
open Runs Words BinHeap TimeWindow

structure Request where
  node : Nat
  stamp : Stamp
  deriving DecidableEq, Repr

def sscdtReqCompare (interval : Int) (a b : Request) : Bool := stampCompare interval a.stamp b.stamp

/-- `interval` is the `__u32` module global; the rest is `struct nrs_sscdt_head`,
    with the sequence number that each node was given. -/
structure Policy where
  interval : Int
  stBinheap : List Request
  stSequence : Int
  reqSequence : Nat → Int

inductive CtlOpcode where
  | rdInterval
  | wrInterval
  | other
  deriving DecidableEq, Repr

def nrsSscdtStart (interval : Int) : Policy := ⟨interval, [], 1, fun _ => 0⟩

def nrsSscdtCtl (opc : CtlOpcode) (arg : Int) (p : Policy) : Policy × Int × Option Int :=
  match opc with
  | .rdInterval => (p, 0, some p.interval)
  | .wrInterval => ({ p with interval := u32 arg }, 0, none)
  | .other => (p, -22, none)

variable (ops : HeapOps Request)

def nrsSscdtReqGet (peek : Bool) (p : Policy) : Policy × Option Request :=
  match p.stBinheap with
  | [] => (p, none)
  | r :: _ =>
    if peek then (p, some r)
    else ({ p with stBinheap := ops.remove (sscdtReqCompare p.interval) p.stBinheap r }, some r)

/-- `insertRc` is what `cfs_binheap_insert` returns; the sequence number is taken
    whether or not the insertion succeeded. -/
def nrsSscdtReqAdd (r : Request) (insertRc : Int) (p : Policy) : Policy × Int :=
  let heap := if insertRc = 0 then ops.insert (sscdtReqCompare p.interval) p.stBinheap r
    else p.stBinheap
  ({ p with
      stBinheap := heap
      stSequence := u64 (p.stSequence + 1)
      reqSequence := Function.update p.reqSequence r.node p.stSequence }, insertRc)

def nrsSscdtReqDel (r : Request) (p : Policy) : Policy :=
  { p with stBinheap := ops.remove (sscdtReqCompare p.interval) p.stBinheap r }

inductive Event where
  | reqAdd (r : Request) (insertRc : Int)
  | reqDel (r : Request)
  | reqGet (peek : Bool)
  | ctl (opc : CtlOpcode) (arg : Int)
  deriving DecidableEq, Repr

def step (p : Policy) : Event → Policy
  | .reqAdd r insertRc => (nrsSscdtReqAdd ops r insertRc p).1
  | .reqDel r => nrsSscdtReqDel ops r p
  | .reqGet peek => (nrsSscdtReqGet ops peek p).1
  | .ctl opc arg => (nrsSscdtCtl opc arg p).1

inductive Record where
  | added (r : Request)
  | deleted (r : Request)
  | returned (r : Request)
  deriving DecidableEq, Repr

def record (p : Policy) : Event → List Record
  | .reqAdd r insertRc => if (nrsSscdtReqAdd ops r insertRc p).2 = 0 then [.added r] else []
  | .reqDel r => [.deleted r]
  | .reqGet false => (nrsSscdtReqGet ops false p).2.toList.map .returned
  | .reqGet true => []
  | .ctl _ _ => []

/-- What the NRS core promises: a request is queued at most once and dequeued only
    while it is queued. -/
def Protocol (p : Policy) : Event → Prop
  | .reqAdd r _ => r ∉ p.stBinheap
  | .reqDel r => r ∈ p.stBinheap
  | _ => True

/-- A new interval is written only when the queued requests stand in heap order under
    it already; no `rq_sent * 1000` overflows. -/
def OrderSafe (p : Policy) : Event → Prop
  | .reqAdd r _ => SentInRange r.stamp.rqSent
  | .ctl .wrInterval arg =>
    u32 arg ≠ 0 ∧ HeapOrdered (sscdtReqCompare (u32 arg)) p.stBinheap
  | _ => True

def priority (interval : Int) (r : Request) : ℤ ×ₗ (ℕ ×ₗ ℕ) := stampKey interval r.stamp

def Outstanding (log : List Record) (r : Request) : Prop :=
  log.count (.added r) = log.count (.deleted r) + log.count (.returned r) + 1

/-- Every request that a non-peek get returns is outstanding and no queued request has a
    smaller priority; no request is returned more often than it was added. -/
def ServesInOrder (p : Policy) (es : List Event) : Prop :=
  (∀ before rest, es = before ++ .reqGet false :: rest →
    ∀ r, (nrsSscdtReqGet ops false (run (step ops) p before)).2 = some r →
      Outstanding (trace (step ops) (record ops) p before) r ∧
      ∀ q ∈ (run (step ops) p before).stBinheap,
        ¬ priority (run (step ops) p before).interval q <
          priority (run (step ops) p before).interval r) ∧
  ∀ r, (trace (step ops) (record ops) p es).count (.returned r) ≤
    (trace (step ops) (record ops) p es).count (.added r)

structure Ordered (p : Policy) : Prop where
  nonneg : 0 ≤ p.interval
  nodup : p.stBinheap.Nodup
  range : ∀ r ∈ p.stBinheap, SentInRange r.stamp.rqSent
  heap : HeapOrdered (sscdtReqCompare p.interval) p.stBinheap

theorem compare_transitive (interval : Int) {nodes : List Request}
    (range : ∀ r ∈ nodes, SentInRange r.stamp.rqSent) :
    TransitiveOn (sscdtReqCompare interval) nodes :=
  transitive_of_key (fun r => stampKey interval.natAbs r.stamp)
    (fun a ma b mb => not_after_stamp_iff interval (range a ma) (range b mb))

variable {ops}

theorem heap_remove_ordered (keeps : KeepsOrder ops) {p : Policy} (ordered : Ordered p)
    {r : Request} (member : r ∈ p.stBinheap) :
    Ordered { p with stBinheap := ops.remove (sscdtReqCompare p.interval) p.stBinheap r } := by
  have perm := keeps.remove_perm (sscdtReqCompare p.interval) p.stBinheap r member
  have trans := compare_transitive p.interval ordered.range
  exact ⟨ordered.nonneg, perm.nodup_iff.mpr (ordered.nodup.erase r),
    fun q mq => ordered.range q (List.mem_of_mem_erase (perm.mem_iff.mp mq)),
    keeps.remove_ordered _ _ _ r trans trans ordered.nodup member (fun _ _ _ _ => rfl)
      ordered.heap⟩

theorem req_add_ordered (keeps : KeepsOrder ops) {p : Policy} (ordered : Ordered p)
    {r : Request} {insertRc : Int} (fresh : r ∉ p.stBinheap)
    (range : SentInRange r.stamp.rqSent) : Ordered (nrsSscdtReqAdd ops r insertRc p).1 := by
  by_cases success : insertRc = 0
  · have perm := keeps.insert_perm (sscdtReqCompare p.interval) p.stBinheap r
    have nodup : (r :: p.stBinheap).Nodup := List.nodup_cons.mpr ⟨fresh, ordered.nodup⟩
    have ranges : ∀ q ∈ r :: p.stBinheap, SentInRange q.stamp.rqSent := by
      intro q member
      rcases List.mem_cons.mp member with rfl | queued
      · exact range
      · exact ordered.range q queued
    have heap := keeps.insert_ordered _ _ r (compare_transitive p.interval ranges) nodup ordered.heap
    refine ⟨ordered.nonneg, ?_, ?_, ?_⟩
    · simpa [nrsSscdtReqAdd, success] using perm.nodup_iff.mpr nodup
    · intro q member
      simp only [nrsSscdtReqAdd, success, ↓reduceIte] at member
      exact ranges q (perm.mem_iff.mp member)
    · simpa [nrsSscdtReqAdd, success] using heap
  · have same : (nrsSscdtReqAdd ops r insertRc p).1.stBinheap = p.stBinheap := by
      simp [nrsSscdtReqAdd, success]
    exact ⟨ordered.nonneg, by rw [same]; exact ordered.nodup, by rw [same]; exact ordered.range,
      by rw [same]; exact ordered.heap⟩

theorem step_ordered (keeps : KeepsOrder ops) {p : Policy} {e : Event} (ordered : Ordered p)
    (protocol : Protocol p e) (safe : OrderSafe p e) : Ordered (step ops p e) := by
  cases e with
  | reqAdd r insertRc => exact req_add_ordered keeps ordered protocol safe
  | reqDel r => exact heap_remove_ordered keeps ordered protocol
  | reqGet peek =>
    simp only [step, nrsSscdtReqGet]
    split
    · exact ordered
    · rename_i r rest heap
      split
      · exact ordered
      · exact heap_remove_ordered keeps ordered (by simp [heap])
  | ctl opc arg =>
    cases opc with
    | rdInterval => exact ordered
    | other => exact ordered
    | wrInterval => exact ⟨(u32_in arg).1, ordered.nodup, ordered.range, safe.2⟩

theorem root_priority {p : Policy} (ordered : Ordered p) {r : Request}
    (served : (nrsSscdtReqGet ops false p).2 = some r) :
    ∀ q ∈ p.stBinheap, ¬ priority p.interval q < priority p.interval r := by
  unfold nrsSscdtReqGet at served
  split at served
  · cases served
  · rename_i root rest heap
    simp only [Bool.false_eq_true, ↓reduceIte, Option.some.injEq] at served
    subst served
    have trans := compare_transitive p.interval ordered.range
    have order := ordered.heap
    have range := ordered.range
    rw [heap] at trans order range ⊢
    intro q member
    have first := root_first trans order q member
    have key := (not_after_stamp_iff p.interval (range root (by simp)) (range q member)).mp first
    rw [Int.natAbs_of_nonneg ordered.nonneg] at key
    exact not_lt.mpr key

theorem served_is_queued {p : Policy} {r : Request}
    (served : (nrsSscdtReqGet ops false p).2 = some r) : r ∈ p.stBinheap := by
  unfold nrsSscdtReqGet at served
  split at served
  · cases served
  · rename_i root rest heap
    simp only [Bool.false_eq_true, ↓reduceIte, Option.some.injEq] at served
    simp [served, heap]

theorem remove_count (keeps : KeepsNodes ops) (cmp : Request → Request → Bool)
    {h : List Request} {x : Request} (member : x ∈ h) (r : Request) :
    h.count r = (if x = r then 1 else 0) + (ops.remove cmp h x).count r := by
  rw [(keeps.remove_perm cmp h x member).count_eq, List.count_erase]
  have positive := List.count_pos_iff.mpr member
  by_cases same : x = r
  · subst same; simp; omega
  · simp [same]

theorem step_balanced (keeps : KeepsNodes ops) (r : Request) (p : Policy) (e : Event)
    (protocol : Protocol p e) :
    p.stBinheap.count r + (record ops p e).countP (· == .added r) =
      (record ops p e).countP (fun x => x == .deleted r || x == .returned r) +
        (step ops p e).stBinheap.count r := by
  cases e with
  | reqAdd q insertRc =>
    by_cases success : insertRc = 0
    · simp only [record, step, nrsSscdtReqAdd, success, ↓reduceIte]
      rw [(keeps.insert_perm _ _ q).count_eq, List.count_cons]
      by_cases same : q = r <;> simp [same]
    · simp [record, step, nrsSscdtReqAdd, success]
  | reqDel q =>
    have count := remove_count keeps (sscdtReqCompare p.interval) protocol r
    simp only [record, step, nrsSscdtReqDel]
    rw [count]
    by_cases same : q = r <;> simp [same]
  | reqGet peek =>
    cases peek with
    | true => cases heap : p.stBinheap <;> simp [record, step, nrsSscdtReqGet, heap]
    | false =>
      cases heap : p.stBinheap with
      | nil => simp [record, step, nrsSscdtReqGet, heap]
      | cons q rest =>
        have member : q ∈ p.stBinheap := by simp [heap]
        have count := remove_count keeps (sscdtReqCompare p.interval) member r
        rw [heap] at count
        simp only [record, step, nrsSscdtReqGet, heap, Bool.false_eq_true, ↓reduceIte]
        rw [count]
        by_cases same : q = r <;> simp [same]
  | ctl opc arg => cases opc <;> simp [record, step, nrsSscdtCtl]

theorem countP_two (r : Request) (log : List Record) :
    log.countP (fun x => x == .deleted r || x == .returned r) =
      log.count (.deleted r) + log.count (.returned r) := by
  induction log with
  | nil => rfl
  | cons x log ih =>
    rw [List.countP_cons, List.count_cons, List.count_cons, ih]
    by_cases del : x = .deleted r
    · subst del; simp; omega
    · by_cases ret : x = .returned r
      · subst ret; simp; omega
      · simp [del, ret]

theorem run_conserves (keeps : KeepsNodes ops) {interval : Int} {es : List Event}
    (protocol : Along (step ops) Protocol (nrsSscdtStart interval) es) (r : Request) :
    (trace (step ops) (record ops) (nrsSscdtStart interval) es).count (.added r) =
      (trace (step ops) (record ops) (nrsSscdtStart interval) es).count (.deleted r) +
      (trace (step ops) (record ops) (nrsSscdtStart interval) es).count (.returned r) +
      (run (step ops) (nrsSscdtStart interval) es).stBinheap.count r := by
  have balance := ledger (fun p => p.stBinheap.count r) (· == Record.added r)
    (fun x => x == Record.deleted r || x == Record.returned r) (step_balanced keeps r) protocol
  rw [countP_two] at balance
  simpa [nrsSscdtStart, List.count] using balance

theorem run_ordered (keeps : KeepsOrder ops) {interval : Int} (nonneg : 0 ≤ interval)
    {es : List Event} (protocol : Along (step ops) Protocol (nrsSscdtStart interval) es)
    (safe : Along (step ops) OrderSafe (nrsSscdtStart interval) es) :
    Ordered (run (step ops) (nrsSscdtStart interval) es) := by
  have start : Ordered (nrsSscdtStart interval) :=
    ⟨nonneg, List.nodup_nil, by simp [nrsSscdtStart], heap_ordered_nil _⟩
  have keep (p : Policy) (e : Event) (ordered : Ordered p) (ok : Protocol p e ∧ OrderSafe p e) :
      Ordered (step ops p e) := step_ordered keeps ordered ok.1 ok.2
  exact always_run (always_of_along keep start (along_and.mpr ⟨protocol, safe⟩))

/-- In every run whose interval writes find the queue in order under the new interval,
    requests are served in order, each at most once. -/
theorem sscdt_serves_in_order (keeps : KeepsOrder ops) (interval : Int)
    (positive : 0 < interval) (es : List Event)
    (protocol : Along (step ops) Protocol (nrsSscdtStart interval) es)
    (safe : Along (step ops) OrderSafe (nrsSscdtStart interval) es) :
    ServesInOrder ops (nrsSscdtStart interval) es := by
  constructor
  · rintro before rest rfl r served
    have protocolBefore := (along_append.mp protocol).1
    have ordered := run_ordered keeps (Int.le_of_lt positive) protocolBefore (along_append.mp safe).1
    refine ⟨?_, root_priority ordered served⟩
    have queued := served_is_queued served
    have once := List.count_eq_one_of_mem ordered.nodup queued
    rw [Outstanding, run_conserves keeps.toKeepsNodes protocolBefore r, once]
  · intro r
    rw [run_conserves keeps.toKeepsNodes protocol r]
    omega

def early : Request := ⟨1, ⟨1, 5, 0⟩⟩
def late : Request := ⟨2, ⟨2, 3, 0⟩⟩

theorem sscdt_serves_two_requests :
    ServesInOrder sortedOps (nrsSscdtStart 1000)
      [.reqAdd late 0, .ctl .wrInterval 500, .reqAdd early 0, .reqGet false, .reqGet false] := by
  have single : HeapOrdered (sscdtReqCompare (u32 500))
      (step sortedOps (nrsSscdtStart 1000) (.reqAdd late 0)).stBinheap :=
    heap_ordered_singleton _ late
  exact sscdt_serves_in_order sorted_ops_keep_order 1000 (by decide) _
    (by simp only [Along, Protocol]; decide)
    ⟨by simp only [OrderSafe, SentInRange]; decide, ⟨by decide, single⟩,
      by simp only [OrderSafe, SentInRange]; decide, trivial, trivial, trivial⟩

/-- Widening the windows while both requests are queued leaves them in the old order:
    the request of the greater nid is served first. -/
theorem sscdt_interval_write_breaks_order :
    KeepsOrder (sortedOps : HeapOps Request) ∧
    Along (step sortedOps) Protocol (nrsSscdtStart 1000)
      [.reqAdd early 0, .reqAdd late 0, .ctl .wrInterval 10000, .reqGet false] ∧
    ¬ ServesInOrder sortedOps (nrsSscdtStart 1000)
      [.reqAdd early 0, .reqAdd late 0, .ctl .wrInterval 10000, .reqGet false] := by
  refine ⟨sorted_ops_keep_order, by simp only [Along, Protocol]; decide, ?_⟩
  rintro ⟨serves, _⟩
  have first := serves [.reqAdd early 0, .reqAdd late 0, .ctl .wrInterval 10000] [] rfl early
    (by decide)
  have inverted : priority 10000 late < priority 10000 early := by
    simp only [priority, stampKey, Prod.Lex.toLex_lt_toLex]
    decide
  exact first.2 late (by decide) inverted

end SscdtPolicy
