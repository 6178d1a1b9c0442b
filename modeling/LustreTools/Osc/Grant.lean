import LustreTools.Lib.Runs
import LustreTools.Lib.Words
import Mathlib.Algebra.BigOperators.Group.List.Basic

/-!
Grants and dirty pages of one client (osc_cache.c, osc_request.c). A page may be dirtied only with
a reservation on the grants that the server gave out. A writer that finds no room sleeps on
`cl_cache_waiters`, and whoever frees room hands it out on its behalf. Every critical section under
`cl_loi_list_lock` is one step, so a run is any interleaving of the writers, the RPCs that
complete, the threads that give grants back and the connection.
-/
namespace Grant
open Runs Words

def edquot : Int := -122

def pageCacheSize : Int := 4096

def oscMaxDirtyMbMax : Int := 2048

structure Config where
  clChunkbits : Nat
  clExtentTax : Nat
  obdMaxDirtyPages : Int
  totalramPages : Nat

def Config.chunk (k : Config) : Int := 2 ^ k.clChunkbits

def Config.need (k : Config) : Int := k.chunk + k.clExtentTax

/-- A thread between two of its critical sections. -/
inductive Call where
  -- off the list, with `ocw_grant` and `ocw_rc`
  | woken (bytes rc : Int)
  -- its page is dirty and `grants` are reserved for it
  | entered (grants : Int)
  -- the same, and the page is to go to the active extent, which ended before it
  | expanding (grants : Int)
  -- `osc_exit_cache` is done, the reservation still stands
  | exited (grants : Int)
  -- the page has an extent that left `unused` of the reservation
  | settled (grants unused : Int)
  | paid
  -- `osc_shrink_grant_to_target`: before `osc_announce_cached`, after it, and the RPC on its way
  | shrinking (target : Int)
  | announced (target : Int)
  | returning (grant : Int)
  deriving DecidableEq, Repr

/-- `client_obd` and the system-wide count of dirty pages, with the calls under way. The rest the
    code does not keep: the pages and the grants in extents, the dirty pages of other clients, and
    what this client should hold by what the server gave and took. -/
structure Client where
  clAvailGrant : Int
  clReservedGrant : Int
  clLostGrant : Int
  clDirtyPages : Int
  clDirtyMaxPages : Int
  clMaxPagesPerRpc : Nat
  clMaxRpcsInFlight : Nat
  clWInFlight : Int
  obdDirtyPages : Int
  clCacheWaiters : List Int
  calls : List Call
  pages : Int
  extGrants : Int
  others : Int
  given : Int
  deriving DecidableEq, Repr

def Client.push (c : Client) (call : Call) : Client := { c with calls := call :: c.calls }

def cliBrwSize (c : Client) : Int := c.clMaxPagesPerRpc * pageCacheSize

def oscConsumeWriteGrant (c : Client) : Client :=
  { c with obdDirtyPages := c.obdDirtyPages + 1, clDirtyPages := u64 (c.clDirtyPages + 1) }

def oscReleaseWriteGrant (c : Client) : Client :=
  { c with obdDirtyPages := c.obdDirtyPages - 1, clDirtyPages := u64 (c.clDirtyPages - 1) }

def oscReserveGrant (c : Client) (bytes : Int) : Client × Bool :=
  if bytes ≤ c.clAvailGrant then
    ({ c with clAvailGrant := c.clAvailGrant - bytes, clReservedGrant := c.clReservedGrant + bytes }, true)
  else (c, false)

def unreserveGrant (c : Client) (reserved unused : Int) : Client :=
  let c := { c with clReservedGrant := c.clReservedGrant - reserved }
  if reserved < unused then
    { c with
      clAvailGrant := u64 (c.clAvailGrant + reserved)
      clLostGrant := u64 (c.clLostGrant + (unused - reserved)) }
  else { c with clAvailGrant := u64 (c.clAvailGrant + unused) }

def oscEnterCacheTry (k : Config) (c : Client) (bytes : Int) : Client × Bool :=
  match oscReserveGrant c bytes with
  | (c, false) => (c, false)
  | (c, true) =>
    if c.clDirtyPages < c.clDirtyMaxPages ∧ 1 + c.obdDirtyPages ≤ k.obdMaxDirtyPages then
      (oscConsumeWriteGrant c, true)
    else (unreserveGrant c bytes bytes, false)

/-- One turn of the loop of `osc_wake_cache_waiters`. -/
def wake (k : Config) (c : Client) (bytes : Int) : Client :=
  if c.clDirtyMaxPages ≤ c.clDirtyPages ∨ k.obdMaxDirtyPages < 1 + c.obdDirtyPages then
    c.push (.woken bytes edquot)
  else match oscEnterCacheTry k c bytes with
  | (c, true) => c.push (.woken bytes 0)
  | (c, false) => c.push (.woken bytes edquot)

def oscWakeCacheWaiters (k : Config) (c : Client) : Client :=
  c.clCacheWaiters.foldl (wake k) { c with clCacheWaiters := [] }

def oscUnreserveGrant (k : Config) (c : Client) (reserved unused : Int) : Client :=
  if 0 < unused then oscWakeCacheWaiters k (unreserveGrant c reserved unused)
  else unreserveGrant c reserved unused

/-- What `osc_free_grant` does before it wakes: a client that is out of grant borrows from what
    it lost. -/
def freeGrant (k : Config) (c : Client) (nrPages lostGrant : Int) : Client :=
  let c := { c with
    obdDirtyPages := c.obdDirtyPages - nrPages
    clDirtyPages := u64 (c.clDirtyPages - nrPages)
    clLostGrant := u64 (c.clLostGrant + lostGrant) }
  if c.clAvailGrant < k.need ∧ k.need ≤ c.clLostGrant then
    { c with clLostGrant := c.clLostGrant - k.need, clAvailGrant := u64 (c.clAvailGrant + k.need) }
  else c

def oscFreeGrant (k : Config) (c : Client) (nrPages lostGrant : Int) : Client :=
  oscWakeCacheWaiters k (freeGrant k c nrPages lostGrant)

/-- The head of the loop of `osc_enter_cache`: sleep if there is anything to wait for, else fall
    back to synchronous I/O. -/
def enterCacheLoop (c : Client) (bytes : Int) : Client :=
  if 0 < c.clDirtyPages ∨ 0 < c.clWInFlight then
    { c with clCacheWaiters := c.clCacheWaiters ++ [bytes] } else c

def enterCacheAgain (k : Config) (c : Client) (bytes : Int) : Client :=
  match oscEnterCacheTry k c bytes with
  | (c, true) => c.push (.entered bytes)
  | (c, false) => enterCacheLoop c bytes

def oscEnterCache (k : Config) (c : Client) (bytes : Int) (forceSync : Bool) : Client :=
  if c.clDirtyMaxPages = 0 ∨ forceSync = true then c else enterCacheAgain k c bytes

structure Obdo where
  oDirty : Int
  oUndirty : Int
  oGrant : Int
  oDropped : Int
  deriving DecidableEq, Repr

def oscAnnounceCached (k : Config) (c : Client) : Client × Obdo :=
  let undirty :=
    if c.clDirtyMaxPages < c.clDirtyPages then 0
    else if k.obdMaxDirtyPages + 1 < c.obdDirtyPages then 0
    else if 0x7fffffff < u64 (c.clDirtyMaxPages - c.clDirtyPages) then 0
    else u32 (max (c.clDirtyMaxPages * pageCacheSize) (cliBrwSize c * (c.clMaxRpcsInFlight + 1)))
  ({ c with clLostGrant := 0, given := c.given - c.clLostGrant },
    ⟨u64 (c.clDirtyPages * pageCacheSize), undirty, u64 (c.clAvailGrant + c.clReservedGrant),
      u32 c.clLostGrant⟩)

def oscUpdateGrant (c : Client) (grant : Int) :
    Client := { c with clAvailGrant := u64 (c.clAvailGrant + grant) }

def oscShrinkGrantLocal (c : Client) : Client :=
  { c with clAvailGrant := c.clAvailGrant - c.clAvailGrant / 4, given := c.given - c.clAvailGrant / 4 }

/-- The first section of `osc_shrink_grant_to_target`. -/
def oscShrinkGrantToTarget (c : Client) (target : Int) : Client :=
  if c.clAvailGrant ≤ max target (cliBrwSize c) then c else c.push (.shrinking (max target (cliBrwSize c)))

/-- The last one. What is there is not looked at again. -/
def shrinkGrant (c : Client) (target : Int) : Client :=
  { c with clAvailGrant := target }.push (.returning (u64 (c.clAvailGrant - target)))

/-- `osc_init_grant`. An unsigned count is never below 0, so the test for that is not here. -/
def oscInitGrant (c : Client) (evicted : Bool) (ocdGrant : Int) : Client :=
  let avail := if evicted = true then ocdGrant else u64 (ocdGrant - c.clDirtyPages * pageCacheSize)
  { c with
    clAvailGrant := avail
    given := c.given - c.clAvailGrant + (if evicted = true then
      ocdGrant else ocdGrant - c.clDirtyPages * pageCacheSize) }

def oscMaxDirtyDefault : Int := 8 * 4 * 256

def clientAdjustMaxDirty (k : Config) (c : Client) : Client :=
  let dirtyMax :=
    if c.clDirtyMaxPages ≤ 0 then oscMaxDirtyDefault
    else max c.clDirtyMaxPages (u32 (c.clMaxRpcsInFlight * c.clMaxPagesPerRpc))
  { c with clDirtyMaxPages := min dirtyMax (k.totalramPages / 8 : Nat) }

def oscMaxDirtyMbSeqWrite (k : Config) (c : Client) (pagesNumber : Int) : Client :=
  if pagesNumber ≤ 0 ∨ oscMaxDirtyMbMax * 256 ≤ pagesNumber ∨ (k.totalramPages / 4 : Nat) < pagesNumber then c
  else oscWakeCacheWaiters k { c with clDirtyMaxPages := pagesNumber }

/-- What a thread meets in its next section. `held`, `grown` and `created` are the ways in which
    `osc_extent_find` and `osc_extent_expand` find room for a page; `moved` is an active extent
    that somebody else has expanded since `osc_queue_async_io` looked at its end. -/
inductive Answer where
  | go
  | interrupted
  | failed
  | held
  | grown (gap : Bool)
  | created
  | moved
  | reply (grant : Nat)
  deriving DecidableEq, Repr

/-- The extents take in `taken`. The tax of an extent that was merged away comes back on top of
    the rest, and its extent keeps it as well. -/
def settle (c : Client) (grants taken saved : Int) : Client :=
  { c with extGrants := c.extGrants + taken }.push (.settled grants (grants - taken + saved))

/-- The next section of a call that has been taken off the list of calls. -/
def proceed (k : Config) (c : Client) : Call → Answer → Client
  -- `ocw_rc` is not looked at when the wait was cut short
  | .woken _ _, .interrupted => c
  | .woken bytes rc, _ => if rc ≠ edquot then c.push (.entered bytes) else enterCacheAgain k c bytes
  | .entered grants, .failed => (oscReleaseWriteGrant c).push (.exited grants)
  | .entered grants, .held => settle c grants 0 0
  | .entered grants, .grown gap => settle c grants k.chunk (if gap = true then k.clExtentTax else 0)
  | .entered grants, .created => settle c grants k.need 0
  | .expanding grants, .failed => c.push (.entered grants)
  | .expanding grants, .held => settle c grants 0 0
  | .expanding grants, .grown _ => settle c grants k.chunk 0
  -- the end is looked at again and is not before the page any more; the reservation stays as it is
  | .expanding _, .moved => c.push .paid
  | .exited grants, _ => oscUnreserveGrant k c grants grants
  | .settled grants unused, _ => (oscUnreserveGrant k c grants unused).push .paid
  | .paid, _ => { c with pages := c.pages + 1 }
  | .shrinking _, .failed => c
  | .shrinking target, _ => (oscAnnounceCached k c).1.push (.announced target)
  | .announced target, _ => shrinkGrant c target
  | .returning grant, .failed => oscUpdateGrant c grant
  | .returning grant, .reply more => oscUpdateGrant { c with given := c.given - grant + more } more
  | call, _ => c.push call

inductive Event where
  -- `osc_queue_async_io` with an active extent; `beyond` its end a chunk is needed
  | tryEnter (beyond : Bool)
  | enter (forceSync : Bool)
  -- a signal or a timeout for a waiter that is still on the list
  | interrupt (i : Nat)
  | proceed (i : Nat) (answer : Answer)
  -- an extent is finished or truncated
  | free (nrPages grants lost : Nat)
  | send
  | writeDone
  | readDone
  | update (grant : Nat)
  | announce
  | shrinkLocal
  | shrink (target : Nat)
  | otherClients (delta : Int)
  | setDirtyMax (pagesNumber : Int)
  -- a new limit on the RPCs in flight or on their size, by hand or by the QoS rules
  | setRpcs (maxRpcsInFlight maxPagesPerRpc : Nat)
  | discon
  | connect (evicted : Bool) (ocdGrant : Nat)
  | reconnect
  deriving DecidableEq, Repr

def step (k : Config) (c : Client) : Event → Client
  | .tryEnter beyond => match oscEnterCacheTry k c (if beyond = true then k.need else 0) with
    | (c, true) => c.push (if beyond = true then .expanding k.need else .paid)
    | (c, false) => c
  | .enter forceSync => oscEnterCache k c k.need forceSync
  | .interrupt i => { c with clCacheWaiters := c.clCacheWaiters.eraseIdx i }
  | .proceed i answer => match c.calls[i]? with
    | none => c
    | some call => proceed k { c with calls := c.calls.eraseIdx i } call answer
  | .free nrPages grants lost =>
    if nrPages ≤ c.pages ∧ grants ≤ c.extGrants ∧ lost ≤ grants then
      oscFreeGrant k
        { c with
          pages := c.pages - nrPages
          extGrants := c.extGrants - grants
          given := c.given - (grants - lost) } nrPages lost
    else c
  | .send => { c with clWInFlight := c.clWInFlight + 1 }
  | .writeDone =>
    if 0 < c.clWInFlight then oscWakeCacheWaiters k { c with clWInFlight := c.clWInFlight - 1 } else c
  | .readDone => oscWakeCacheWaiters k c
  | .update grant => oscUpdateGrant { c with given := c.given + grant } grant
  | .announce => (oscAnnounceCached k c).1
  | .shrinkLocal => oscShrinkGrantLocal c
  | .shrink target => oscShrinkGrantToTarget c target
  | .otherClients delta => { c with obdDirtyPages := c.obdDirtyPages + delta, others := c.others + delta }
  | .setDirtyMax pagesNumber => oscMaxDirtyMbSeqWrite k c pagesNumber
  | .setRpcs maxRpcsInFlight maxPagesPerRpc =>
    clientAdjustMaxDirty k { c with clMaxRpcsInFlight := maxRpcsInFlight, clMaxPagesPerRpc := maxPagesPerRpc }
  | .discon =>
    { c with clAvailGrant := 0, clLostGrant := 0, given := c.given - c.clAvailGrant - c.clLostGrant }
  | .connect evicted ocdGrant => oscInitGrant c evicted (u32 ocdGrant)
  | .reconnect => { c with clLostGrant := 0, given := c.given - c.clLostGrant }

def started (dirtyMax : Int) (maxRpcsInFlight maxPagesPerRpc : Nat) : Client where
  clAvailGrant := 0
  clReservedGrant := 0
  clLostGrant := 0
  clDirtyPages := 0
  clDirtyMaxPages := dirtyMax
  clMaxPagesPerRpc := maxPagesPerRpc
  clMaxRpcsInFlight := maxRpcsInFlight
  clWInFlight := 0
  obdDirtyPages := 0
  clCacheWaiters := []
  calls := []
  pages := 0
  extGrants := 0
  others := 0
  given := 0

end Grant
