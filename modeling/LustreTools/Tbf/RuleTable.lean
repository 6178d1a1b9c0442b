import LustreTools.Tbf.Policy

/-!
The rules and the clients of a TBF head (nrs_tbf.c), and the calls that share them. A rule is
kept alive by the rule list, by the clients that use it and by the calls that found it; a client by
the requests that hold it and, when its keys are job ids, by the LRU list of its bucket. A call is
cut where it takes or drops a lock or changes a counter, so that others come in between. A walk along
`th_list` is one step here, although `nrs_tbf_rule_stop` does not take the lock of the list; the module
on the walks cuts it rule by rule. A failed `LASSERT`, and any use of a freed object, sets `lbug`, after
which nothing happens any more.
-/
namespace TbfRules
open Words TbfPolicy

/-- `none` stands for a freed or never allocated object. `trIds` is the list of the ids. -/
structure Rule (ι : Type) where
  trName : List Char
  trIds : ι
  values : RuleValues
  trGeneration : Nat
  trRef : Int
  trCliList : List Nat
  trStopping : Bool
  deriving DecidableEq, Repr

structure Client (κ : Type) where
  tcKey : κ
  tcRef : Int
  tcRule : Option Nat
  values : RuleValues
  tcRuleSequence : Int
  tcRuleGeneration : Nat
  deriving DecidableEq, Repr

structure Head (ι κ : Type) where
  rules : Nat → Option (Rule ι)
  clients : Nat → Option (Client κ)
  nextRule : Nat
  nextClient : Nat
  thList : List Nat
  thRule : Nat
  thRuleSequence : Int
  thCliHash : List Nat
  ntbLru : Nat → List Nat
  lbug : Bool

def nrsTbfJobidBktBits : Nat := 10

def hashOrderFrom (size : Nat) : Nat → Nat → Nat
  | 0, bits => bits
  | fuel + 1, bits => if 2 ^ bits < size then hashOrderFrom size fuel (bits + 1) else bits

def nrsTbfJobidHashOrder (size : Nat) : Nat := hashOrderFrom size 31 1

def hashBits (size : Nat) : Nat := max (nrsTbfJobidHashOrder size) nrsTbfJobidBktBits

def bucketCount (size : Nat) : Nat := 2 ^ (hashBits size - nrsTbfJobidBktBits)

def highWater (size : Nat) : Nat := size / 2 ^ (hashBits size - nrsTbfJobidBktBits)

/-- What the two types of TBF do differently: how a rule matches a client, and whether the hash
    takes a reference of its own on a client (nid) or idle clients go to an LRU list (jobid). -/
structure Ops (ι κ : Type) where
  oRuleMatch : ι → κ → Bool
  itemref : Bool
  tbfJobidCacheSize : Nat
  bucket : κ → Nat
  bucket_lt : ∀ key, bucket key < bucketCount tbfJobidCacheSize
  tbfDepth : Nat

def nrsTbfJobidListMatch (jobids : List (List Char)) (id : List Char) : Bool := jobids.any (· = id)

def nrsTbfJobidOps (size depth : Nat) (bucket : List Char → Nat) (lt : ∀ key, bucket key < bucketCount size) :
    Ops (List (List Char)) (List Char) where
  oRuleMatch := nrsTbfJobidListMatch
  itemref := false
  tbfJobidCacheSize := size
  bucket := bucket
  bucket_lt := lt
  tbfDepth := depth

/-- A call, by what it does next. `known` is whether the client was found in the hash: then the
    call is inside `scp_req_lock`, and else the client is still its own. -/
inductive Call (ι κ : Type) where
  | absent (key : κ)
  | found (c : Nat)
  | matched (known : Bool) (c r : Nat)
  | linked (known : Bool) (c : Nat)
  | same (c r : Nat)
  | made (c : Nat)
  | lost (c d : Nat)
  | serving (c : Nat)
  | zombies (cs : List Nat)
  | starting (name : List Char) (ids : ι) (rate : Nat)
  | built (r : Nat)
  | listed
  | changing (r rate : Nat)
  | stopping (r : Nat)
  | unlinked (r : Nat)
  | dropping (nrsLock : Bool) (rs : List Nat) (rc : Int)
  | returned (rc : Int)
  deriving DecidableEq, Repr

def Call.holdsScpReqLock {ι κ : Type} : Call ι κ → Bool
  | .matched true _ _ | .linked true _ | .same _ _ => true
  | _ => false

def Call.holdsNrsLock {ι κ : Type} : Call ι κ → Bool
  | .changing _ _ | .stopping _ | .unlinked _ | .dropping true _ _ => true
  | _ => false

variable {ι κ : Type}

def Head.bug (h : Head ι κ) : Head ι κ := { h with lbug := true }

def Head.setRule (h : Head ι κ) (r : Nat) (rule : Option (Rule ι)) : Head ι κ :=
  { h with rules := Function.update h.rules r rule }

def Head.setClient (h : Head ι κ) (c : Nat) (cli : Option (Client κ)) : Head ι κ :=
  { h with clients := Function.update h.clients c cli }

def nrsTbfRuleFini (r : Nat) (rule : Rule ι) (h : Head ι κ) : Head ι κ :=
  if rule.trCliList = [] ∧ r ∉ h.thList then h.setRule r none else h.bug

def nrsTbfRulePut (r : Nat) (h : Head ι κ) : Head ι κ :=
  match h.rules r with
  | none => h.bug
  | some rule =>
    if rule.trRef - 1 = 0 then nrsTbfRuleFini r rule h
    else h.setRule r (some { rule with trRef := rule.trRef - 1 })

def nrsTbfRuleGet (r : Nat) (h : Head ι κ) : Head ι κ :=
  match h.rules r with
  | none => h.bug
  | some rule => h.setRule r (some { rule with trRef := rule.trRef + 1 })

def unlinkClient (c r : Nat) (cli : Client κ) (h : Head ι κ) : Head ι κ :=
  match h.rules r with
  | none => h.bug
  | some rule =>
    if c ∈ rule.trCliList then
      (h.setRule r (some { rule with trCliList := rule.trCliList.erase c })).setClient c
        (some { cli with tcRule := none })
    else h.bug

def nrsTbfCliRulePut (c : Nat) (h : Head ι κ) : Head ι κ :=
  match h.clients c with
  | none => h.bug
  | some cli => match cli.tcRule with
    | none => h.bug
    | some r => nrsTbfRulePut r (unlinkClient c r cli h)

/-- The walk along `th_list` up to the first rule that is asked for; `none` is a failed
    assertion. -/
def scan (h : Head ι κ) (asked : Rule ι → Bool) : List Nat → Option (Option Nat)
  | [] => some none
  | r :: rest => match h.rules r with
    | none => none
    | some rule =>
      if rule.trStopping then none
      else if asked rule then some (some r)
      else scan h asked rest

def nrsTbfRuleFindNolock (h : Head ι κ) (name : List Char) : Option (Option Nat) :=
  scan h (fun rule => rule.trName = name) h.thList

def nrsTbfRuleMatch (ops : Ops ι κ) (h : Head ι κ) (key : κ) : Option Nat :=
  (scan h (fun rule => ops.oRuleMatch rule.trIds key) h.thList).map fun newest => newest.getD h.thRule

/-- The part of `nrs_tbf_cli_reset` inside `tc_rule_lock`. -/
def linkClient (c r : Nat) (h : Head ι κ) : Head ι κ :=
  match h.clients c, h.rules r with
  | some cli, some rule =>
    if cli.tcRule = none then
      (h.setRule r (some { rule with trCliList := rule.trCliList ++ [c] })).setClient c
        (some { cli with tcRule := some r })
    else h.bug
  | _, _ => h.bug

def nrsTbfCliReset (c r : Nat) (h : Head ι κ) : Head ι κ :=
  match h.clients c with
  | none => h.bug
  | some cli => match cli.tcRule with
    | none => linkClient c r h
    | some old => if r = old then h.bug else linkClient c r (nrsTbfCliRulePut c h)

def resetValue (cli : Client κ) (rule : Rule ι) (sequence : Int) : Client κ :=
  { cli with
    values := rule.values
    tcRuleSequence := sequence
    tcRuleGeneration := rule.trGeneration }

/-- The bucket of `cli` itself is in the module on the policy: here are the rule's values. -/
def nrsTbfCliResetValue (c : Nat) (h : Head ι κ) : Head ι κ :=
  match h.clients c with
  | none => h.bug
  | some cli => match cli.tcRule with
    | none => h.bug
    | some r => match h.rules r with
      | none => h.bug
      | some rule => h.setClient c (some (resetValue cli rule h.thRuleSequence))

def nrsTbfCliFini (c : Nat) (h : Head ι κ) : Head ι κ :=
  match h.clients c with
  | none => h.bug
  | some cli =>
    if cli.tcRef = 0 then (nrsTbfCliRulePut c h).setClient c none else h.bug

def Head.keyOf (h : Head ι κ) (c : Nat) : Option κ := (h.clients c).map (·.tcKey)

def Head.cliPeek [DecidableEq κ] (h : Head ι κ) (key : κ) : Option Nat :=
  h.thCliHash.find? fun c => h.keyOf c = some key

def addRef (c : Nat) (d : Int) (h : Head ι κ) : Head ι κ :=
  match h.clients c with
  | none => h.bug
  | some cli => h.setClient c (some { cli with tcRef := cli.tcRef + d })

/-- `nrs_tbf_jobid_hash_lookup` after the peek; in a hash of nids no client is ever on an LRU list. -/
def takeClient (ops : Ops ι κ) (c : Nat) (h : Head ι κ) : Head ι κ :=
  match h.clients c with
  | none => h.bug
  | some cli =>
    let b := ops.bucket cli.tcKey
    addRef c 1 { h with ntbLru := Function.update h.ntbLru b ((h.ntbLru b).erase c) }

def inBucket (ops : Ops ι κ) (h : Head ι κ) (b c : Nat) : Bool :=
  (h.keyOf c).any fun key => ops.bucket key = b

/-- The purge of the LRU list of bucket `b`, with the zombies in front. -/
def purge (ops : Ops ι κ) (b : Nat) : List Nat → Head ι κ → List Nat → Head ι κ × List Nat
  | [], h, zs => (h, zs)
  | c :: rest, h, zs =>
    if highWater ops.tbfJobidCacheSize < h.thCliHash.countP (inBucket ops h b) then
      match h.clients c with
      | none => (h.bug, zs)
      | some cli =>
        if cli.tcRef = 0 then
          purge ops b rest
            { h with
              thCliHash := h.thCliHash.erase c
              ntbLru := Function.update h.ntbLru b rest } (c :: zs)
        else (h.bug, zs)
    else (h, zs)

/-- `nrs_tbf_jobid_cli_put` up to the end of the bucket lock, with the zombies it has to free. -/
def nrsTbfJobidCliPut (ops : Ops ι κ) (c : Nat) (h : Head ι κ) : Head ι κ × List Nat :=
  match h.clients c with
  | none => (h.bug, [])
  | some cli =>
    let b := ops.bucket cli.tcKey
    let dropped := addRef c (-1) h
    if cli.tcRef - 1 ≠ 0 then (dropped, [])
    else if c ∈ h.ntbLru b then (dropped.bug, [])
    else
      let lru := h.ntbLru b ++ [c]
      purge ops b lru { dropped with ntbLru := Function.update h.ntbLru b lru } []

def cliPut (ops : Ops ι κ) (c : Nat) (h : Head ι κ) : Head ι κ × List Nat :=
  if ops.itemref then (addRef c (-1) h, []) else nrsTbfJobidCliPut ops c h

def ruleValues (depth rate : Nat) : RuleValues := ⟨rate, 1000000000 / rate, depth⟩

def newRule (ops : Ops ι κ) (name : List Char) (ids : ι) (rate : Nat) : Rule ι where
  trName := name
  trIds := ids
  values := ruleValues ops.tbfDepth rate
  trGeneration := 0
  trRef := 1
  trCliList := []
  trStopping := false

def newClient (key : κ) : Client κ where
  tcKey := key
  tcRef := 1
  tcRule := none
  values := ⟨0, 0, 0⟩
  tcRuleSequence := 0
  tcRuleGeneration := 0

def Head.addClient (h : Head ι κ) (key : κ) : Head ι κ :=
  { h.setClient h.nextClient (some (newClient key)) with nextClient := h.nextClient + 1 }

def Head.addRule (h : Head ι κ) (rule : Rule ι) : Head ι κ :=
  { h.setRule h.nextRule (some rule) with nextRule := h.nextRule + 1 }

/-- The test of `nrs_tbf_res_get` on a client it found, inside `scp_req_lock`. -/
def checkRule (ops : Ops ι κ) (c : Nat) (h : Head ι κ) : Head ι κ × List (Call ι κ) :=
  match h.clients c with
  | none => (h.bug, [])
  | some cli => match cli.tcRule with
    | none => (h.bug, [])
    | some r => match h.rules r with
      | none => (h.bug, [])
      | some rule =>
        if cli.tcRuleSequence ≠ h.thRuleSequence ∨ rule.trStopping then
          match nrsTbfRuleMatch ops h cli.tcKey with
          | none => (h.bug, [])
          | some r' => (nrsTbfRuleGet r' h, [if r' = r then .same c r' else .matched true c r'])
        else if cli.tcRuleGeneration ≠ rule.trGeneration then (h, [.linked true c])
        else (h, [.serving c])

def findAdd [DecidableEq κ] (ops : Ops ι κ) (c : Nat) (h : Head ι κ) : Head ι κ × List (Call ι κ) :=
  match h.clients c with
  | none => (h.bug, [])
  | some cli => match h.cliPeek cli.tcKey with
    | some d => (takeClient ops d h, [.lost c d])
    | none =>
      (addRef c (if ops.itemref then 1 else 0) { h with thCliHash := c :: h.thCliHash }, [.serving c])

/-- The locked part of `nrs_tbf_rule_start`. -/
def listRule (r : Nat) (h : Head ι κ) : Head ι κ × List (Call ι κ) :=
  match h.rules r with
  | none => (h.bug, [])
  | some rule => match nrsTbfRuleFindNolock h rule.trName with
    | none => (h.bug, [])
    | some (some other) => (nrsTbfRuleGet other h, [.dropping false [other, r] eexist])
    | some none => ({ h with thList := r :: h.thList }, [.listed])

def changeRate (r rate : Nat) (h : Head ι κ) : Head ι κ :=
  match h.rules r with
  | none => h.bug
  | some rule =>
    h.setRule r
      (some
        { rule with
          values := ruleValues rule.values.trDepth rate
          trGeneration := rule.trGeneration + 1 })

def flagStopping (r : Nat) (h : Head ι κ) : Head ι κ :=
  match h.rules r with
  | none => h.bug
  | some rule => h.setRule r (some { rule with trStopping := true })

/-- The next part of a call, with what is left of it. `ok` is whether the allocation in it
    succeeds and `scpReqLock` whether another call holds that lock; `none` is waiting for it. -/
def progress [DecidableEq κ] (ops : Ops ι κ) (ok scpReqLock : Bool) (h : Head ι κ) :
    Call ι κ → Option (Head ι κ × List (Call ι κ))
  | .absent key =>
    if !ok then some (h, [.returned enomem])
    else
      let c := h.nextClient
      match nrsTbfRuleMatch ops h key with
      | none => some (h.bug, [])
      | some r => some (nrsTbfRuleGet r (h.addClient key), [.matched false c r])
  | .found c => if scpReqLock then none else some (checkRule ops c h)
  | .matched known c r => some (nrsTbfCliReset c r h, [.linked known c])
  | .linked known c => some (nrsTbfCliResetValue c h, [if known then .serving c else .made c])
  | .same c r => some (nrsTbfRulePut r h, [.serving c])
  | .made c => some (findAdd ops c h)
  | .lost c d => some (nrsTbfCliFini c (addRef c (-1) h), [.serving d])
  | .serving c =>
    let (after, dead) := cliPut ops c h
    some (after, [.zombies dead])
  | .zombies [] => some (h, [])
  | .zombies (c :: cs) => some (nrsTbfCliFini c h, [.zombies cs])
  | .starting name ids rate =>
    if !ok then some (h, [.returned enomem])
    else some (h.addRule (newRule ops name ids rate), [.built h.nextRule])
  | .built r => some (listRule r h)
  | .listed => some ({ h with thRuleSequence := u32 (h.thRuleSequence + 1) }, [.returned 0])
  | .changing r rate => some (changeRate r rate h, [.dropping true [r] 0])
  | .stopping r => some ({ h with thList := h.thList.erase r }, [.unlinked r])
  | .unlinked r => some (flagStopping r h, [.dropping true [r, r] 0])
  | .dropping _ [] rc => some (h, [.returned rc])
  | .dropping nrsLock (r :: rs) rc => some (nrsTbfRulePut r h, [.dropping nrsLock rs rc])
  | .returned _ => some (h, [])

structure System (ι κ : Type) where
  head : Head ι κ
  calls : List (Call ι κ)

def defaultRule : List Char := ['d', 'e', 'f', 'a', 'u', 'l', 't']

inductive Event (ι κ : Type) where
  | resGet (key : κ)
  | startRule (validType : Bool) (name : List Char) (ids : ι) (rate : Nat)
  | changeRule (name : List Char) (rate : Nat)
  | stopRule (name : List Char)
  | proceed (i : Nat) (ok : Bool)
  deriving DecidableEq, Repr

/-- A lookup by name that takes a reference, followed by `found`. -/
def lookup (h : Head ι κ) (name : List Char) (found : Nat → Call ι κ) (missing : Call ι κ) :
    Head ι κ × List (Call ι κ) :=
  match nrsTbfRuleFindNolock h name with
  | none => (h.bug, [])
  | some none => (h, [missing])
  | some (some r) => (nrsTbfRuleGet r h, [found r])

/-- The first part of a call. A rule command waits for `nrs_lock`, and `start` gives it up at once.
    `nrs_tbf_command` takes the stop of a missing rule as a success, and refuses to start a rule of
    another type (`validType`). -/
def enter [DecidableEq κ] (ops : Ops ι κ) (nrsLock : Bool) (h : Head ι κ) :
    Event ι κ → Head ι κ × List (Call ι κ)
  | .resGet key => match h.cliPeek key with
    | some c => (takeClient ops c h, [.found c])
    | none => (h, [.absent key])
  | .startRule validType name ids rate =>
    if nrsLock then (h, [])
    else if !validType then (h, [.returned einval])
    else lookup h name (fun r => .dropping false [r] eexist) (.starting name ids rate)
  | .changeRule name rate =>
    if nrsLock then (h, []) else lookup h name (fun r => .changing r rate) (.returned enoent)
  | .stopRule name =>
    if nrsLock then (h, [])
    else if name = defaultRule then (h, [.returned eperm])
    else lookup h name .stopping (.returned 0)
  | .proceed _ _ => (h, [])

def act [DecidableEq κ] (ops : Ops ι κ) (s : System ι κ) : Event ι κ → System ι κ
  | .proceed i ok => match s.calls[i]? with
    | none => s
    | some call =>
      let rest := s.calls.eraseIdx i
      match progress ops ok (rest.any Call.holdsScpReqLock) s.head call with
      | none => s
      | some (head, next) => ⟨head, next ++ rest⟩
  | e =>
    let (head, next) := enter ops (s.calls.any Call.holdsNrsLock) s.head e
    ⟨head, next ++ s.calls⟩

def step [DecidableEq κ] (ops : Ops ι κ) (s : System ι κ) (e : Event ι κ) : System ι κ :=
  if s.head.lbug then s else act ops s e

/-- The hash at the end lets every client go, with its own reference if it had one. -/
def hashExit (ops : Ops ι κ) (h : Head ι κ) (c : Nat) : Head ι κ :=
  nrsTbfCliFini c
    (addRef c (if ops.itemref then -1 else 0) { h with thCliHash := h.thCliHash.erase c })

def unlistRule (h : Head ι κ) (r : Nat) : Head ι κ :=
  nrsTbfRulePut r { h with thList := h.thList.erase r }

def nrsTbfStop (ops : Ops ι κ) (h : Head ι κ) : Head ι κ :=
  let drained := h.thCliHash.foldl (hashExit ops) h
  drained.thList.foldl unlistRule drained

/-- After the startup function of the type has started the default rule, which matches by being
    the default. -/
def started (ops : Ops ι κ) (ids : ι) (tbfRate : Nat) : System ι κ where
  head :=
    { rules := Function.update (fun _ => none) 0 (some (newRule ops defaultRule ids tbfRate))
      clients := fun _ => none
      nextRule := 1
      nextClient := 0
      thList := [0]
      thRule := 0
      thRuleSequence := 1
      thCliHash := []
      ntbLru := fun _ => []
      lbug := false }
  calls := []

end TbfRules
