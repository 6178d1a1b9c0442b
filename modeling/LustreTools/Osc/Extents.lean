import LustreTools.Lib.Runs
import LustreTools.Lib.SearchTree
import LustreTools.Lib.Words

/-!
The cache of dirty pages of one object (osc_cache.c). Pages are kept in extents, and the extents
in a tree. A writer finds or makes the extent of its page, fills it and releases it; extents are
merged, sent, truncated and dropped meanwhile. Every critical section under the object's lock is
one step, so a run is any interleaving of the threads that use the object. A failed assertion
sets `lbug` and nothing happens after it.
-/
namespace Extents
open Runs Words SearchTree

inductive Mode where
  | pr
  | pw
  | group
  deriving DecidableEq, Repr

structure Lock where
  id : Nat
  mode : Mode
  start : Nat
  stop : Nat
  deriving DecidableEq, Repr

inductive State where
  | inv
  | active
  | cache
  | locking
  | lockDone
  | rpc
  | trunc
  deriving DecidableEq, Repr

def State.busy : State → Bool
  | .inv => false
  | .active => false
  | .cache => false
  | _ => true

/-- The list that an extent is on by its `oe_link`. -/
inductive Place where
  | nowhere
  | hp
  | urgent
  | rpc
  | discard
  | truncating
  deriving DecidableEq, Repr

structure Extent where
  oeId : Nat
  oeRefc : Nat
  oeState : State
  oeLink : Place
  oeStart : Nat
  oeEnd : Nat
  oeMaxEnd : Nat
  oeGrants : Nat
  oeNrPages : Nat
  oePages : List Nat
  oeMppr : Nat
  oeDlmlock : Lock
  oeUsers : Nat
  oeSync : Bool
  oeUrgent : Bool
  oeHp : Bool
  oeFsyncWait : Bool
  oeTruncPending : Bool
  deriving DecidableEq, Repr

structure Client where
  ppcBits : Nat
  clExtentTax : Nat
  extentDebug : Bool

def pageCacheShift : Nat := 12

def Client.ppc (cli : Client) : Nat := 2 ^ cli.ppcBits

def Client.chunksize (cli : Client) : Nat := 2 ^ (cli.ppcBits + pageCacheShift)

structure Holder where
  thread : Nat
  ext : Nat
  index : Option Nat
  deriving DecidableEq, Repr

/-- The object, with the threads that use it and three counts that the code does not keep: the
    grants that went into extents, those that left with an extent or a truncate, and how often a
    gap was filled. -/
structure Object where
  tree : BinaryTree Extent
  nextId : Nat
  ooNrWrites : Int
  holders : List Holder
  taken : Int
  spent : Int
  gaps : Nat
  lbug : Bool

def Object.extents (o : Object) : List Extent := inorder o.tree

def Object.lookup (o : Object) (id : Nat) : Option Extent := o.extents.find? fun e => e.oeId = id

def Object.set (o : Object) (ext : Extent) : Object :=
  { o with tree := o.tree.map fun e => if e.oeId = ext.oeId then ext else e }

def Object.fail (o : Object) : Object := { o with lbug := true }

def oscUpdatePending (o : Object) (delta : Int) : Object := { o with ooNrWrites := o.ooNrWrites + delta }

def checkState (ext : Extent) : Nat :=
  match ext.oeState with
  | .inv => if 0 < ext.oeNrPages ∨ ext.oePages ≠ [] then 35 else 0
  | .active =>
    if ext.oeUsers = 0 then 40
    else if ext.oeHp = true then 50
    else if ext.oeFsyncWait = true ∧ ext.oeUrgent = false then 55
    else 0
  | .cache =>
    if ext.oeGrants = 0 then 60
    else if ext.oeFsyncWait = true ∧ ext.oeUrgent = false ∧ ext.oeHp = false then 65
    else if 0 < ext.oeUsers then 70
    else 0
  | _ => if 0 < ext.oeUsers then 70 else 0

def sanityCheck (cli : Client) (ext : Extent) : Nat :=
  if ext.oeRefc = 0 then 20
  else if ext.oeRefc < ext.oeUsers then 30
  else if checkState ext ≠ 0 then checkState ext
  else if ext.oeState = .inv then 0
  else if ext.oeMaxEnd < ext.oeEnd ∨ ext.oeEnd < ext.oeStart then 80
  else if ext.oeSync = true ∧ 0 < ext.oeGrants then 90
  else if ¬ (ext.oeDlmlock.start ≤ ext.oeStart ∧ ext.oeMaxEnd ≤ ext.oeDlmlock.stop) then 100
  else if ext.oeDlmlock.mode = .pr then 102
  else if ext.oeMppr < ext.oeNrPages then 105
  else if ext.oeState.busy = true then 0
  else if cli.extentDebug = false then 0
  else if ext.oePages.any (fun index => decide (ext.oeEnd < index ∨ index < ext.oeStart)) = true then 110
  else if ext.oePages.length ≠ ext.oeNrPages then 120
  else 0

def oscExtentSearch (o : Object) (index : Nat) : Option Extent :=
  search (fun e => decide (index < e.oeStart)) (fun e => decide (e.oeEnd < index)) o.tree none

def Object.onward (o : Object) (ext : Extent) : List Extent := o.extents.dropWhile fun e => e.oeId ≠ ext.oeId

def nextExtent (o : Object) (ext : Extent) : Option Extent := (o.onward ext).tail.head?

def prevExtent (o : Object) (ext : Extent) : Option Extent :=
  (o.extents.takeWhile fun e => e.oeId ≠ ext.oeId).getLast?

/-- Where the loops over a range of pages begin. -/
def rangeStart (o : Object) (index : Nat) : List Extent :=
  match oscExtentSearch o index with
  | none => o.extents
  | some ext => if ext.oeEnd < index then (o.onward ext).tail else o.onward ext

def held (ext : Extent) : Extent :=
  { ext with oeState := .active, oeUsers := ext.oeUsers + 1, oeRefc := ext.oeRefc + 1, oeLink := .nowhere }

def oscExtentHold (o : Object) (ext : Extent) : Object :=
  match ext.oeState with
  | .cache => oscUpdatePending (o.set (held ext)) (-(ext.oeNrPages : Int))
  | .active => o.set (held ext)
  | _ => o.fail

/-- Leaving the tree takes one reference, and the caller then puts its own: if that was the last
    one, nobody may use the extent. -/
def Removable (ext : Extent) : Prop := 1 < ext.oeRefc ∧ (ext.oeRefc = 2 → ext.oeUsers = 0)

instance (ext : Extent) : Decidable (Removable ext) := inferInstanceAs (Decidable (_ ∧ _))

def joined (cur victim : Extent) : Extent :=
  { cur with
    oeStart := min cur.oeStart victim.oeStart
    oeEnd := max cur.oeEnd victim.oeEnd
    oeGrants := cur.oeGrants + victim.oeGrants
    oeNrPages := cur.oeNrPages + victim.oeNrPages
    oeUrgent := cur.oeUrgent || victim.oeUrgent
    oePages := victim.oePages ++ cur.oePages }

inductive Merge where
  | refused (rc : Int)
  | merged (cur victim : Extent)
  | lbug

def oscExtentMerge (cli : Client) (cur : Extent) (victim : Option Extent) : Merge :=
  if cur.oeState ≠ .cache then .lbug
  else match victim with
  | none => .refused einval
  | some victim =>
    if victim.oeState ≠ .cache ∨ victim.oeFsyncWait = true then .refused ebusy
    else if cur.oeMaxEnd ≠ victim.oeMaxEnd then .refused erange
    else if cur.oeDlmlock ≠ victim.oeDlmlock then .lbug
    else if cur.oeStart / cli.ppc ≠ victim.oeEnd / cli.ppc + 1 ∧
        cur.oeEnd / cli.ppc + 1 ≠ victim.oeStart / cli.ppc then .refused erange
    else if ¬ Removable { victim with oeRefc := victim.oeRefc + 1 } then .lbug
    else .merged (joined cur victim) victim

def mergeInto (rb : Shaping Extent) (cli : Client) (o : Object) (cur : Extent) (victim : Option Extent) :
    Object × Extent × Bool :=
  match oscExtentMerge cli cur victim with
  | .refused _ => (o, cur, false)
  | .lbug => (o.fail, cur, false)
  | .merged cur victim =>
    ({ o with tree := rb.erase (fun e => decide (e.oeId = victim.oeId)) o.tree }.set cur, cur, true)

def mergeBoth (rb : Shaping Extent) (cli : Client) (o : Object) (ext : Extent) : Object × Extent :=
  let (o, ext, _) := mergeInto rb cli o ext (prevExtent o ext)
  let (o, ext, _) := mergeInto rb cli o ext (nextExtent o ext)
  (o, ext)

def unheld (ext : Extent) : Extent := { ext with oeUsers := ext.oeUsers - 1, oeRefc := ext.oeRefc - 1 }

def cached (ext : Extent) : Extent := { unheld ext with oeState := .cache }

def yielded (ext : Extent) : Extent := { unheld ext with oeState := .trunc, oeTruncPending := false }

def listed (ext : Extent) : Extent := if ext.oeUrgent = true then { ext with oeLink := .urgent } else ext

def oscExtentRelease (rb : Shaping Extent) (cli : Client) (o : Object) (ext : Extent) : Object :=
  -- a last reference put would find the extent in the tree
  if ext.oeUsers = 0 ∨ sanityCheck cli ext ≠ 0 ∨ ext.oeGrants = 0 ∨ ext.oeRefc ≤ 1 then o.fail
  else if 1 < ext.oeUsers then o.set (unheld ext)
  else if ext.oeState ≠ .active then o.fail
  else if ext.oeTruncPending = true then o.set (yielded ext)
  else
    let (o, ext) := mergeBoth rb cli (oscUpdatePending (o.set (cached ext)) ext.oeNrPages) (cached ext)
    o.set (listed ext)

def overlapped (ex1 ex2 : Extent) : Bool := !(decide (ex1.oeEnd < ex2.oeStart) || decide
    (ex2.oeEnd < ex1.oeStart))

/-- The extent of one chunk that `osc_extent_find` starts from, cut to the lock and the RPC. -/
def newExtent (cli : Client) (id : Nat) (olck : Lock) (index maxPages : Nat) : Extent :=
  let maxEnd := min (index - index % maxPages + maxPages - 1) olck.stop
  { oeId := id
    oeRefc := 1
    oeState := .inv
    oeLink := .nowhere
    oeStart := max (index / cli.ppc * cli.ppc) olck.start
    oeEnd := min ((index / cli.ppc + 1) * cli.ppc - 1) maxEnd
    oeMaxEnd := maxEnd
    oeGrants := 0
    oeNrPages := 0
    oePages := []
    oeMppr := maxPages
    oeDlmlock := olck
    oeUsers := 0
    oeSync := false
    oeUrgent := false
    oeHp := false
    oeFsyncWait := false
    oeTruncPending := false }

def scanned (o : Object) (index : Nat) : List Extent :=
  match oscExtentSearch o index with
  | none => o.extents
  | some ext => o.onward ext

inductive Match where
  | none
  | conflict (ext : Extent)
  | hold (ext : Extent)
  | front (ext : Extent)
  | rear (ext : Extent)
  | lbug
  deriving DecidableEq, Repr

def scan (cli : Client) (cur : Extent) (chunk : Nat) : List Extent → Match
  | [] => .none
  | ext :: rest =>
    if sanityCheck cli ext ≠ 0 then .lbug
    else if ext.oeEnd / cli.ppc + 1 < chunk then .none
    else if cur.oeDlmlock ≠ ext.oeDlmlock then
      if overlapped ext cur = true then .lbug else scan cli cur chunk rest
    else if chunk + 1 < ext.oeStart / cli.ppc then scan cli cur chunk rest
    else if overlapped ext cur = true then
      if ¬ (ext.oeStart ≤ cur.oeStart ∧ cur.oeEnd ≤ ext.oeEnd) then .lbug
      else if ext.oeState.busy = true ∨ ext.oeFsyncWait = true then .conflict ext
      else .hold ext
    else if ext.oeState ≠ .cache ∨ ext.oeFsyncWait = true then scan cli cur chunk rest
    else if ext.oeMaxEnd ≠ cur.oeMaxEnd then scan cli cur chunk rest
    else if chunk + 1 = ext.oeStart / cli.ppc then
      if ext.oeStart % cli.ppc ≠ 0 then .lbug else .front ext
    else if chunk = ext.oeEnd / cli.ppc + 1 then .rear ext
    else scan cli cur chunk rest

def oscExtentInsert (rb : Shaping Extent) (o : Object) (ext : Extent) : Object :=
  match insert (fun e => decide (ext.oeEnd < e.oeStart))
    (fun e => decide (e.oeEnd < ext.oeStart)) ext o.tree with
  | none => o.fail
  | some tree => { o with tree := rb.balance tree }

inductive Found where
  | extent (id : Nat) (grants : Nat)
  | conflict (id : Nat)
  | lbug
  deriving DecidableEq, Repr

def grown (cli : Client) (ext : Extent) (start stop : Nat) : Extent :=
  { ext with oeStart := start, oeEnd := stop, oeGrants := ext.oeGrants + cli.chunksize }

def Object.grow (o : Object) (cli : Client) (ext : Extent) : Object :=
  { o.set ext with taken := o.taken + cli.chunksize }

/-- A new extent on its way into the tree. Its user and the tree take a reference each, and the
    first one is put. -/
def created (cli : Client) (cur : Extent) : Extent :=
  { cur with
    oeState := .active
    oeUsers := 1
    oeRefc := cur.oeRefc + 1
    oeGrants := cli.chunksize + cli.clExtentTax }

def oscExtentIsOverlapped (cli : Client) (o : Object) (ext : Extent) : Bool :=
  cli.extentDebug && o.extents.any fun tmp =>
    decide (tmp.oeId ≠ ext.oeId ∧ ext.oeStart ≤ tmp.oeEnd ∧ tmp.oeStart ≤ ext.oeEnd)

/-- The end of a rear merge: the next extent may have come close enough. The tax that was paid
    for it goes back to the caller. -/
def fillGap (rb : Shaping Extent) (cli : Client) (o : Object) (ext : Extent) (grants : Nat) :
    Object × Found :=
  match mergeInto rb cli o ext (nextExtent o ext) with
  | (o, ext, true) =>
    (oscExtentHold { o with taken := o.taken - cli.clExtentTax, gaps := o.gaps + 1 } ext,
      .extent ext.oeId (grants + cli.clExtentTax))
  | (o, ext, false) => (oscExtentHold o ext, .extent ext.oeId grants)

/-- `grants` is what the caller reserved; what is left of it is handed back. On a conflict the
    caller waits for that extent and starts again. -/
def oscExtentFind (rb : Shaping Extent) (cli : Client) (o : Object) (olck : Lock)
    (index maxPages grants : Nat) :
    Object × Found :=
  let cur := newExtent cli o.nextId olck index maxPages
  if olck.mode = .pr ∨ maxPages % cli.ppc ≠ 0 ∨ grants < cli.chunksize + cli.clExtentTax ∨
      maxPages ≤ cur.oeMaxEnd - cur.oeStart then
    (o.fail, .lbug)
  else match scan cli cur (index / cli.ppc) (scanned o cur.oeStart) with
  | .lbug => (o.fail, .lbug)
  | .conflict ext => (o, .conflict ext.oeId)
  | .hold ext => (oscExtentHold o ext, .extent ext.oeId grants)
  | .front ext =>
    let ext := grown cli ext cur.oeStart ext.oeEnd
    (oscExtentHold (o.grow cli ext) ext, .extent ext.oeId (grants - cli.chunksize))
  | .rear ext =>
    let ext := grown cli ext ext.oeStart cur.oeEnd
    fillGap rb cli (o.grow cli ext) ext (grants - cli.chunksize)
  | .none =>
    if oscExtentIsOverlapped cli o cur = true then (o.fail, .lbug)
    else
      let ext := created cli cur
      (oscExtentInsert rb { o with nextId := o.nextId + 1, taken := o.taken + ext.oeGrants } ext,
        .extent ext.oeId (grants - ext.oeGrants))

def oscExtentExpand (cli : Client) (o : Object) (ext : Extent) (index : Nat) : Object × Int :=
  if ¬ (index ≤ ext.oeMaxEnd ∧ ext.oeStart ≤ index) ∨ sanityCheck cli ext ≠ 0 then (o.fail, 0)
  else if ext.oeEnd / cli.ppc + 1 < index / cli.ppc then (o, erange)
  else if index / cli.ppc ≤ ext.oeEnd / cli.ppc then (o, 0)
  else
    let endIndex := min ext.oeMaxEnd ((index / cli.ppc + 1) * cli.ppc - 1)
    if (nextExtent o ext).any (fun next => decide (next.oeStart ≤ endIndex)) = true then (o, eagain)
    else
      let ext := grown cli ext ext.oeStart endIndex
      if oscExtentIsOverlapped cli (o.grow cli ext) ext = true then (o.fail, 0) else (o.grow cli ext, 0)

def withPage (ext : Extent) (index : Nat) : Extent :=
  { ext with oeNrPages := ext.oeNrPages + 1, oePages := ext.oePages ++ [index] }

/-- The last part of `osc_queue_async_io`. -/
def addPage (o : Object) (ext : Extent) (index : Nat) : Object :=
  if ¬ (index ≤ ext.oeEnd ∧ ext.oeStart ≤ index) then o.fail else o.set (withPage ext index)

/-- The first part of `osc_extent_wait` for `OES_INV`. A cached extent is held, and released by the
    same thread later. -/
def kick (cli : Client) (o : Object) (ext : Extent) : Object :=
  if sanityCheck cli ext ≠ 0 then o.fail
  else if ext.oeUrgent = false ∧ ext.oeHp = false then
    match ext.oeState with
    | .active => o.set { ext with oeUrgent := true }
    | .cache => oscExtentHold o { ext with oeUrgent := true }
    | _ => o
  else o

/-- The body of the loop in `osc_cache_writeback_range`. -/
def writeback (start stop : Nat) (hp discard : Bool) (o : Object) (ext : Extent) : Object :=
  match ext.oeState with
  | .cache =>
    if discard = true then
      if ¬ (start ≤ ext.oeStart ∧ ext.oeMaxEnd ≤ stop) then o.fail
      else
        oscUpdatePending (o.set { ext with oeFsyncWait := true, oeState := .locking, oeLink := .discard })
          (-(ext.oeNrPages : Int))
    else if hp = true then
      if ext.oeHp = true then o.fail else o.set { ext with oeFsyncWait := true, oeHp := true, oeLink := .hp }
    else if ext.oeUrgent = true then o.set { ext with oeFsyncWait := true }
    else o.set { ext with oeFsyncWait := true, oeUrgent := true, oeLink := .urgent }
  | .active =>
    if hp = true ∨ discard = true then o.fail
    else o.set { ext with oeFsyncWait := true, oeUrgent := true }
  | _ => o.set { ext with oeFsyncWait := true }

def oscCacheWritebackRange (o : Object) (start stop : Nat) (hp discard : Bool) : Object :=
  ((rangeStart o start).takeWhile fun e => decide (e.oeStart ≤ stop)).foldl
    (writeback start stop hp discard) o

/-- What `osc_send_write_rpc` does to an extent that it picked. What is on `oo_hp_exts` or
    `oo_urgent_exts` is picked whatever its state. -/
def lockForRpc (o : Object) (ext : Extent) : Object :=
  if ext.oeState ≠ .cache then
    if ext.oeLink = .hp ∨ ext.oeLink = .urgent ∧ ext.oeState ≠ .lockDone then o.fail else o
  else oscUpdatePending (o.set { ext with oeState := .locking, oeLink := .rpc }) (-(ext.oeNrPages : Int))

def oscExtentMakeReady (cli : Client) (o : Object) (ext : Extent) : Object :=
  if ext.oeState ≠ .locking then o
  else if sanityCheck cli ext ≠ 0 ∨ ext.oePages.length ≠ ext.oeNrPages ∨ ext.oePages = [] then o.fail
  else
    o.set
      { ext with
        oeState := .rpc
        oeRefc := ext.oeRefc + 1
        oeLink := if ext.oeLink = .discard then .nowhere else ext.oeLink }

def oscExtentFinish (rb : Shaping Extent) (o : Object) (ext : Extent) : Object :=
  if ext.oeState ≠ .rpc then o
  else if ext.oePages.length ≠ ext.oeNrPages ∨ ¬ Removable ext then o.fail
  else
    { o with
      tree := rb.erase (fun e => decide (e.oeId = ext.oeId)) o.tree
      spent := o.spent + ext.oeGrants }

/-- The loop of `osc_cache_truncate_start`, up to a busy extent that it has to wait for. -/
def truncateMark (o : Object) : List Extent → Object
  | [] => o
  | ext :: rest =>
    if ext.oeState = .trunc then o.fail
    else if ext.oeState.busy = true ∨ ext.oeUrgent = true then o
    else match ext.oeState with
    | .active =>
      if ext.oeTruncPending = true ∨ ext.oeLink ≠ .nowhere then o.fail
      else
        truncateMark (o.set
          { ext with oeTruncPending := true, oeRefc := ext.oeRefc + 1, oeLink := .truncating }) rest
    | .cache =>
      if ext.oeLink ≠ .nowhere then o.fail
      else
        truncateMark
          (oscUpdatePending
            (o.set { ext with oeState := .trunc, oeRefc := ext.oeRefc + 1, oeLink := .truncating })
            (-(ext.oeNrPages : Int)))
          rest
    | _ => o.fail

def keptPages (ext : Extent) (truncIndex : Nat) (part : Bool) : List Nat :=
  ext.oePages.filter fun index => decide (index < truncIndex) || (decide (index = truncIndex) && part)

def shortened (ext : Extent) (pages : List Nat) (nrPages oeEnd grants : Nat) : Extent :=
  { ext with oeNrPages := nrPages, oePages := pages, oeEnd := oeEnd, oeGrants := grants, oeLink := .nowhere }

def oscExtentTruncate (rb : Shaping Extent) (cli : Client) (o : Object) (ext : Extent) (truncIndex : Nat)
    (part : Bool) : Object :=
  let kept := keptPages ext truncIndex part
  let nrPages := ext.oeNrPages - (ext.oePages.length - kept.length)
  let truncChunk := truncIndex / cli.ppc
  let pagesInChunk := kept.countP fun index => decide (index / cli.ppc = truncChunk)
  if ext.oeState ≠ .trunc then o
  else if sanityCheck cli ext ≠ 0 ∨ ext.oeUrgent = true then o.fail
  else if truncIndex + part.toNat ≤ ext.oeStart ∧ nrPages ≠ 0 then o.fail
  else if nrPages = 0 then
    if pagesInChunk ≠ 0 ∨ kept ≠ [] ∨ ¬ Removable ext then o.fail
    else
      { o with
        tree := rb.erase (fun e => decide (e.oeId = ext.oeId)) o.tree
        spent := o.spent + ext.oeGrants }
  else if pagesInChunk = 0 ∧ truncChunk = 0 then o.fail
  else
    -- with no page left in the last chunk its grants are freed as well
    let lastChunk := if pagesInChunk = 0 then truncChunk - 1 else truncChunk
    let grants := (ext.oeEnd / cli.ppc - lastChunk) * cli.chunksize
    let oeEnd := min ((lastChunk + 1) * cli.ppc - 1) ext.oeMaxEnd
    if oeEnd < ext.oeStart ∨ ext.oeGrants ≤ grants then o.fail
    else
      { o.set (shortened ext kept nrPages oeEnd (ext.oeGrants - grants)) with spent := o.spent + grants }

def oscCacheTruncateEnd (o : Object) (ext : Extent) : Object :=
  if ext.oeState ≠ .trunc ∨ ext.oeLink = .truncating then o
  else if ext.oeNrPages = 0 ∨ ext.oeUrgent = true ∨ ext.oeRefc ≤ 1 then o.fail
  else
    oscUpdatePending
      (o.set
        { ext with
          oeState := .cache
          oeUrgent := ext.oeFsyncWait
          oeLink := if ext.oeFsyncWait = true then .urgent else ext.oeLink
          oeRefc := ext.oeRefc - 1 })
      ext.oeNrPages

inductive Event where
  | find (t : Nat) (olck : Lock) (index maxPages grants : Nat)
  | expand (t index : Nat)
  | page (t : Nat)
  | release (t : Nat)
  | kick (t id : Nat)
  | writeback (start stop : Nat) (hp discard : Bool)
  | send (id : Nat)
  | ready (id : Nat)
  | finish (id : Nat)
  | truncateStart (index : Nat)
  | truncate (id truncIndex : Nat) (part : Bool)
  | truncateEnd (id : Nat)
  deriving DecidableEq, Repr

def Object.at (o : Object) (id : Nat) (f : Extent → Object) : Object :=
  match o.lookup id with
  | none => o
  | some ext => f ext

def Object.holder (o : Object) (t : Nat) : Option Holder := o.holders.find? fun h => h.thread = t

def Object.drop (o : Object) (t : Nat) : Object :=
  { o with holders := o.holders.filter fun h => h.thread ≠ t }

def Object.give (o : Object) (t id : Nat) (index : Option Nat) : Object :=
  { o.drop t with holders := ⟨t, id, index⟩ :: (o.drop t).holders }

/-- The part of `osc_queue_async_io` for a page in reach of the extent that the thread holds. -/
def expandFor (cli : Client) (o : Object) (h : Holder) (ext : Extent) (index : Nat) : Object :=
  if ¬ (ext.oeStart ≤ index ∧ index ≤ ext.oeMaxEnd) then o
  else if index ≤ ext.oeEnd then o.give h.thread h.ext (some index)
  else
    let (o, rc) := oscExtentExpand cli o ext index
    if rc < 0 then o else o.give h.thread h.ext (some index)

/-- Between finding an extent and releasing it a thread adds pages, one for each time it found or
    expanded the extent. A page that is queued already is not queued again. -/
def step (rb : Shaping Extent) (cli : Client) (o : Object) (e : Event) : Object :=
  if o.lbug = true then o
  else match e with
  | .find t olck index maxPages grants =>
    if (o.holder t).isSome = true then o
    else match oscExtentFind rb cli o olck index maxPages grants with
    | (o, .extent id _) => o.give t id (some index)
    | (o, _) => o
  | .expand t index => match o.holder t with
    | some ⟨t, id, none⟩ => o.at id fun ext => expandFor cli o ⟨t, id, none⟩ ext index
    | _ => o
  | .page t => match o.holder t with
    | some ⟨t, id, some index⟩ => o.at id fun ext =>
      if index ∈ ext.oePages then o.give t id none else (addPage o ext index).give t id none
    | _ => o
  | .release t => match o.holder t with
    | some ⟨t, id, none⟩ => o.at id fun ext => (oscExtentRelease rb cli o ext).drop t
    | _ => o
  | .kick t id =>
    if (o.holder t).isSome = true then o
    else o.at id fun ext =>
      if ext.oeState = .cache ∧ ext.oeUrgent = false ∧ ext.oeHp = false then (kick cli o ext).give t id none
      else kick cli o ext
  | .writeback start stop hp discard => oscCacheWritebackRange o start stop hp discard
  | .send id => o.at id fun ext => lockForRpc o ext
  | .ready id => o.at id fun ext => oscExtentMakeReady cli o ext
  | .finish id => o.at id fun ext => oscExtentFinish rb o ext
  | .truncateStart index => truncateMark o (rangeStart o index)
  | .truncate id truncIndex part => o.at id fun ext =>
    if ext.oeEnd < truncIndex then o else oscExtentTruncate rb cli o ext truncIndex part
  | .truncateEnd id => o.at id fun ext => oscCacheTruncateEnd o ext

end Extents
