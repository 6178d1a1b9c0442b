import LustreTools.Lib.Runs
import LustreTools.Lib.Text
import LustreTools.TimeWindow

/-!
The TBF policy (nrs_tbf.c) of one service partition: clients with token buckets and
request lists, a binary heap of the clients that have requests, the throttling timer,
and the global comparator and window width that the SSCDT commands change.
A failed `LASSERT` sets `lbug`, after which nothing happens any more.
-/
namespace TbfPolicy
open Runs Words Text BinHeap TimeWindow

inductive Comparator where
  | tbfCliCompare
  | sscdtReqCompareNid
  | sscdtReqCompareJobid
  deriving DecidableEq, Repr

/-- `nrs_tbf_heap_ops.hop_compare`, the pointer `sscdt_req_compare` and
    `tbf_tw_interval`; `none` is the null pointer. -/
structure Globals where
  hopCompare : Option Comparator
  sscdtReqCompare : Option Comparator
  tbfTwInterval : Int
  deriving DecidableEq, Repr

structure Request where
  nrq : Nat
  trSequence : Nat
  deriving DecidableEq, Repr

/-- `stamp` is what the SSCDT comparators read through `tc_node`. -/
structure Client where
  stamp : Stamp
  tcJobid : List Char
  tcRpcRate : Nat
  tcNsecs : Nat
  tcNtoken : Nat
  tcDepth : Nat
  tcCheckTime : Nat
  tcList : List Request
  tcInHeap : Bool
  deriving DecidableEq, Repr

structure System where
  globals : Globals
  clients : Nat → Client
  thBinheap : List Nat
  thSequence : Nat
  thDeadline : Nat
  nrsThrottling : Bool
  clock : Nat
  lbug : Bool

def Client.deadline (c : Client) : Nat := nat64 (c.tcCheckTime + c.tcNsecs)

def tbfCliCompare (a b : Client) : Bool :=
  if a.deadline < b.deadline then true
  else if a.deadline > b.deadline then false
  else if a.tcCheckTime < b.tcCheckTime then true
  else if a.tcCheckTime > b.tcCheckTime then false
  else true

def sscdtReqCompareNid (interval : Int) (a b : Client) : Bool := stampCompare interval a.stamp b.stamp

/-- Inside one window and one nid the value of `strcmp` is returned as it is, and the
    heap takes any non-zero value for true. -/
def sscdtReqCompareJobid (interval : Int) (a b : Client) : Bool :=
  windowCompare interval a.stamp.rqSent b.stamp.rqSent
    (if a.stamp.nid = b.stamp.nid then decide (strcmp a.tcJobid b.tcJobid ≠ 0)
      else decide (a.stamp.nid < b.stamp.nid))

def hopCompare (g : Globals) (clients : Nat → Client) (a b : Nat) : Bool :=
  match g.hopCompare with
  | some .tbfCliCompare => tbfCliCompare (clients a) (clients b)
  | some .sscdtReqCompareNid => sscdtReqCompareNid g.tbfTwInterval (clients a) (clients b)
  | some .sscdtReqCompareJobid => sscdtReqCompareJobid g.tbfTwInterval (clients a) (clients b)
  | none => false

def System.compare (s : System) : Nat → Nat → Bool := hopCompare s.globals s.clients

def System.setClient (s : System) (c : Nat) (cli : Client) : System :=
  { s with clients := Function.update s.clients c cli }

inductive SscdtKind where
  | start
  | stop
  | change
  deriving DecidableEq, Repr

structure SscdtCmd where
  tcCmd : SscdtKind
  tcTwInterval : Int
  deriving DecidableEq, Repr

def SscdtCmd.Valid (cmd : SscdtCmd) : Prop := 0 < cmd.tcTwInterval ∧ InU32 cmd.tcTwInterval

instance (cmd : SscdtCmd) : Decidable cmd.Valid := inferInstanceAs (Decidable (_ ∧ _))

def nrsTbfSscdtStart (g : Globals) (cmd : SscdtCmd) : Globals :=
  { g with
    hopCompare := if g.hopCompare ≠ g.sscdtReqCompare then g.sscdtReqCompare else g.hopCompare
    tbfTwInterval := s32 cmd.tcTwInterval }

def nrsTbfSscdtStop (g : Globals) (cmd : SscdtCmd) : Globals :=
  { g with
    hopCompare := if g.hopCompare ≠ some .tbfCliCompare then some .tbfCliCompare else g.hopCompare
    tbfTwInterval := s32 cmd.tcTwInterval }

def nrsTbfTwIntervalChange (g : Globals) (cmd : SscdtCmd) : Globals :=
  { g with tbfTwInterval := s32 cmd.tcTwInterval }

def nrsTbfCommand (g : Globals) (cmd : SscdtCmd) : Globals :=
  match cmd.tcCmd with
  | .start => nrsTbfSscdtStart g cmd
  | .stop => nrsTbfSscdtStop g cmd
  | .change => nrsTbfTwIntervalChange g cmd

structure RuleValues where
  trRpcRate : Nat
  trNsecs : Nat
  trDepth : Nat
  deriving DecidableEq, Repr

def Client.reset (cli : Client) (rule : RuleValues) (now : Nat) : Client :=
  { cli with
    tcRpcRate := rule.trRpcRate
    tcNsecs := rule.trNsecs
    tcDepth := rule.trDepth
    tcNtoken := rule.trDepth
    tcCheckTime := now }

def Client.tokens (cli : Client) (now : Nat) : Nat :=
  let ntoken := nat64 (nat64 ((now - cli.tcCheckTime) * cli.tcRpcRate) / 1000000000 + cli.tcNtoken)
  if ntoken > cli.tcDepth then cli.tcDepth else ntoken

def Client.spend (cli : Client) (now : Nat) (rest : List Request) : Client :=
  { cli with
    tcNtoken := cli.tokens now - 1
    tcCheckTime := now
    tcList := rest }

def Client.unlink (cli : Client) (nrq : Nat) : Client :=
  { cli with tcList := cli.tcList.eraseP (·.nrq == nrq) }

variable (ops : HeapOps Nat)

/-- Store client `c` after one of its requests left the list: the node leaves the heap
    with the last request and is relocated otherwise. -/
def System.settle (s : System) (c : Nat) (cli : Client) : System :=
  let s' := s.setClient c cli
  if cli.tcList = [] then
    { s' with
      thBinheap := ops.remove s'.compare s.thBinheap c
      clients := Function.update s.clients c { cli with tcInHeap := false } }
  else { s' with thBinheap := ops.relocate s'.compare s.thBinheap c }

def nrsTbfCliResetValue (c : Nat) (rule : RuleValues) (now : Nat) (s : System) : System :=
  let s' := s.setClient c ((s.clients c).reset rule now)
  if (s.clients c).tcInHeap then { s' with thBinheap := ops.relocate s'.compare s.thBinheap c }
  else s'

/-- The client served and its request. -/
def nrsTbfReqGet (peek : Bool) (now : Nat) (s : System) : System × Option (Nat × Request) :=
  if !peek && s.nrsThrottling then (s, none)
  else match s.thBinheap with
  | [] => (s, none)
  | root :: _ =>
    let cli := s.clients root
    if !cli.tcInHeap then ({ s with lbug := true }, none)
    else if peek then (s, cli.tcList.head?.map fun r => (root, r))
    else if now < cli.tcCheckTime then ({ s with lbug := true }, none)
    else if 0 < s64 (cli.tokens now) then
      match cli.tcList with
      -- `list_entry` of an empty list is no request.
      | [] => ({ s with lbug := true }, none)
      | r :: rest => (s.settle ops root (cli.spend now rest), some (root, r))
    else ({ s with nrsThrottling := true, thDeadline := cli.deadline }, none)

/-- `insertRc` and `cancelRc` are what `cfs_binheap_insert` and `hrtimer_try_to_cancel`
    return; a failed assertion returns nothing. -/
def nrsTbfReqAdd (c nrq : Nat) (insertRc cancelRc : Int) (s : System) : System × Option Int :=
  let cli := s.clients c
  let queued : Client := { cli with tcList := cli.tcList ++ [⟨nrq, s.thSequence⟩], tcInHeap := true }
  if cli.tcList = [] then
    if cli.tcInHeap then ({ s with lbug := true }, none)
    else if insertRc ≠ 0 then (s, some insertRc)
    else
      let s' := s.setClient c queued
      ({ s' with
          thBinheap := ops.insert s.compare s.thBinheap c
          thSequence := s.thSequence + 1
          thDeadline := if s.nrsThrottling ∧ s.thDeadline > cli.deadline ∧ cancelRc ≥ 0
            then cli.deadline else s.thDeadline }, some 0)
  else if !cli.tcInHeap then ({ s with lbug := true }, none)
  else ({ s.setClient c queued with thSequence := s.thSequence + 1 }, some 0)

def nrsTbfReqDel (c nrq : Nat) (s : System) : System :=
  let cli := s.clients c
  if cli.tcList.any (·.nrq == nrq) then
    s.settle ops c (cli.unlink nrq)
  else { s with lbug := true }

def nrsTbfTimerCb (s : System) : System := { s with nrsThrottling := false }

inductive Event where
  | reqAdd (c nrq : Nat) (insertRc cancelRc : Int)
  | reqDel (c nrq : Nat)
  | reqGet (peek : Bool) (now : Nat)
  | timerExpiry
  | cliReset (c : Nat) (rule : RuleValues) (now : Nat)
  | command (cmd : SscdtCmd)
  deriving DecidableEq

def act (s : System) : Event → System
  | .reqAdd c nrq insertRc cancelRc => (nrsTbfReqAdd ops c nrq insertRc cancelRc s).1
  | .reqDel c nrq => nrsTbfReqDel ops c nrq s
  | .reqGet peek now => { (nrsTbfReqGet ops peek now s).1 with clock := now }
  | .timerExpiry => nrsTbfTimerCb s
  | .cliReset c rule now => { nrsTbfCliResetValue ops c rule now s with clock := now }
  | .command cmd => { s with globals := nrsTbfCommand s.globals cmd }

def step (s : System) (e : Event) : System := if s.lbug then s else act ops s e

inductive Record where
  | added (c nrq : Nat)
  | deleted (c nrq : Nat)
  | returned (c : Nat) (r : Request) (now : Nat)
  deriving DecidableEq, Repr

def record (s : System) (e : Event) : List Record :=
  if s.lbug then []
  else match e with
  | .reqAdd c nrq insertRc cancelRc =>
    if (nrsTbfReqAdd ops c nrq insertRc cancelRc s).2 = some 0 then [.added c nrq] else []
  | .reqDel c nrq => if (s.clients c).tcList.any (·.nrq == nrq) then [.deleted c nrq] else []
  | .reqGet false now =>
    (nrsTbfReqGet ops false now s).2.toList.map fun served => .returned served.1 served.2 now
  | _ => []

def startedSystem (g : Globals) (clients : Nat → Client) : System :=
  { globals := g, clients := clients, thBinheap := [], thSequence := 0, thDeadline := 0,
    nrsThrottling := false, clock := 0, lbug := false }

structure Started (s : System) : Prop where
  heap : s.thBinheap = []
  lists : ∀ c, (s.clients c).tcList = []
  flags : ∀ c, (s.clients c).tcInHeap = false
  checks : ∀ c, (s.clients c).tcCheckTime ≤ s.clock
  running : s.lbug = false
  unthrottled : s.nrsThrottling = false

def System.queued (s : System) (nrq : Nat) : Prop := ∃ c, ∃ r ∈ (s.clients c).tcList, r.nrq = nrq

/-- What the NRS core, the kernel and the command parser promise: a request is enqueued
    while it is not queued and dequeued while it is, the clock does not go back, and no
    command has a width of zero. -/
def Protocol (s : System) : Event → Prop
  | .reqAdd _ nrq _ _ => ¬ s.queued nrq
  | .reqDel c nrq => ∃ r ∈ (s.clients c).tcList, r.nrq = nrq
  | .reqGet _ now => s.clock ≤ now
  | .cliReset _ _ now => s.clock ≤ now
  | .timerExpiry => True
  | .command cmd => cmd.Valid

inductive GetOutcome (ops : HeapOps Nat) (now : Nat) (s : System) :
    System × Option (Nat × Request) → Prop where
  | idle (reason : s.nrsThrottling = true ∨ s.thBinheap = []) : GetOutcome ops now s (s, none)
  | asserted (root : Nat) (rest : List Nat) (heap : s.thBinheap = root :: rest)
      (reason : (s.clients root).tcInHeap = false ∨ now < (s.clients root).tcCheckTime ∨
        (s.clients root).tcList = []) : GetOutcome ops now s ({ s with lbug := true }, none)
  | granted (root : Nat) (rest : List Nat) (r : Request) (rear : List Request)
      (heap : s.thBinheap = root :: rest) (unthrottled : s.nrsThrottling = false)
      (inHeap : (s.clients root).tcInHeap = true)
      (time : (s.clients root).tcCheckTime ≤ now) (positive : 0 < (s.clients root).tokens now)
      (list : (s.clients root).tcList = r :: rear) :
      GetOutcome ops now s
        (s.settle ops root ((s.clients root).spend now rear), some (root, r))
  | armed (root : Nat) (rest : List Nat) (heap : s.thBinheap = root :: rest)
      (unthrottled : s.nrsThrottling = false)
      (broke : ¬ 0 < Words.s64 ((s.clients root).tokens now)) :
      GetOutcome ops now s
        ({ s with nrsThrottling := true, thDeadline := (s.clients root).deadline }, none)

theorem req_get_outcome (now : Nat) (s : System) :
    GetOutcome ops now s (nrsTbfReqGet ops false now s) := by
  unfold nrsTbfReqGet
  simp only [Bool.not_false, Bool.true_and, Bool.false_eq_true, ↓reduceIte]
  split
  · rename_i throttling
    exact .idle (Or.inl throttling)
  · rename_i throttling
    split
    · rename_i heap
      exact .idle (Or.inr heap)
    · rename_i root rest heap
      split
      · rename_i flag
        exact .asserted root rest heap (Or.inl (by simpa using flag))
      · rename_i flag
        split
        · rename_i early
          exact .asserted root rest heap (Or.inr (Or.inl early))
        · rename_i time
          split
          · rename_i positive
            split
            · rename_i empty
              exact .asserted root rest heap (Or.inr (Or.inr empty))
            · rename_i r rear list
              have tokens : 0 < (s.clients root).tokens now := by
                simp only [s64] at positive; omega
              exact .granted root rest r rear heap (by simpa using throttling) (by simpa using flag)
                (by omega) tokens list
          · rename_i broke
            exact .armed root rest heap (by simpa using throttling) broke

theorem req_peek_state (now : Nat) (s : System) :
    (nrsTbfReqGet ops true now s).1 = s ∨
      ∃ root rest, s.thBinheap = root :: rest ∧ (s.clients root).tcInHeap = false := by
  unfold nrsTbfReqGet
  simp only [Bool.not_true, Bool.false_and, Bool.false_eq_true, ↓reduceIte]
  split
  · exact Or.inl rfl
  · rename_i root rest heap
    split
    · rename_i flag
      exact Or.inr ⟨root, rest, heap, by simpa using flag⟩
    · exact Or.inl rfl

end TbfPolicy
