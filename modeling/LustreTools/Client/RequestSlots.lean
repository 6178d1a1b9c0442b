import Mathlib.Data.List.Basic
import Mathlib.Data.List.Nodup
import Mathlib.Data.List.Perm.Subperm
import LustreTools.Lib.Runs
import LustreTools.Lib.Words

/-!
The flow control of a client (genops.c). An RPC needs a slot; a thread that finds none queues
up and is handed one later, when another thread gives its slot back or the limit is raised.
Every critical section under `cl_loi_list_lock` is one step, so a run is any interleaving of
any number of threads. The limits on modify RPCs belong to the same client; the setters test
both limits without a lock, and store them under two different ones.
-/
namespace RequestSlots
open Runs Words

structure ModRpc where
  tag : Nat
  close : Bool
  deriving DecidableEq, Repr

/-- A call of one of the setters between two of its sections. -/
inductive Setter where
  -- `obd_set_max_rpcs_in_flight` has found the modify limit in its way
  | lowering (max : Nat)
  -- a modify limit that passed its tests; `next` is the limit that it makes room for
  | storeMod (max : Nat) (next : Option Nat)
  | storeMax (max : Nat)
  deriving DecidableEq, Repr

/-- `waiting` are the threads inside `l_wait_event`; those among them that are still linked
    stand in `clLoiReadList`. `holders` are the threads that returned with a slot, `modRpcs`
    the modify RPCs that were given a tag, `setters` the calls that change a limit. -/
structure Client where
  mdc : Bool
  maxmodrpcs : Nat
  clMaxRpcsInFlight : Nat
  clRInFlight : Nat
  clLoiReadList : List Nat
  waiting : List Nat
  holders : List Nat
  clMaxModRpcsInFlight : Nat
  clModRpcsInFlight : Nat
  clCloseRpcsInFlight : Nat
  clModTagBitmap : Nat → Bool
  modRpcs : List ModRpc
  setters : List Setter
  lbug : Bool

def obdMaxRifMax : Nat := 512

/-- The first part of `obd_get_request_slot`. -/
def obdGetRequestSlot (c : Client) (i : Nat) : Client :=
  if c.clRInFlight < c.clMaxRpcsInFlight then
    { c with clRInFlight := c.clRInFlight + 1, holders := i :: c.holders }
  else { c with clLoiReadList := c.clLoiReadList ++ [i], waiting := i :: c.waiting }

def interrupted (c : Client) (i : Nat) : Client :=
  if i ∈ c.clLoiReadList then
    { c with clLoiReadList := c.clLoiReadList.erase i, waiting := c.waiting.erase i }
  else { c with clRInFlight := c.clRInFlight - 1, waiting := c.waiting.erase i }

def wakeFirst (c : Client) : Client :=
  match c.clLoiReadList with
  | [] => c
  | _ :: rest => { c with clLoiReadList := rest, clRInFlight := c.clRInFlight + 1 }

def obdPutRequestSlot (c : Client) : Client :=
  let c := { c with clRInFlight := c.clRInFlight - 1 }
  if c.clLoiReadList ≠ [] ∧ c.clRInFlight < c.clMaxRpcsInFlight then wakeFirst c else c

/-- The loop of `obd_set_max_rpcs_in_flight`. -/
def wakeSome : Nat → Client → Client
  | 0, c => c
  | n + 1, c => if c.clLoiReadList = [] then c else wakeSome n (wakeFirst c)

/-- The tests of `obd_set_max_mod_rpcs_in_flight`. -/
def obdSetMaxModRpcsInFlight (c : Client) (max : Nat) (next : Option Nat) : Except Int Setter :=
  if max > obdMaxRifMax ∨ max < 1 then .error erange
  else if max ≥ c.clMaxRpcsInFlight then .error erange
  else if max > c.maxmodrpcs then .error erange
  else .ok (.storeMod max next)

/-- The tests of `obd_set_max_rpcs_in_flight`, up to the inner call. -/
def obdSetMaxRpcsInFlight (c : Client) (max : Nat) : Except Int Setter :=
  if max > obdMaxRifMax ∨ max < 1 then .error erange
  else if c.mdc = true then
    if max < 2 then .error erange
    else if max ≤ c.clMaxModRpcsInFlight then .ok (.lowering max)
    else .ok (.storeMax max)
  else .ok (.storeMax max)

def storeMax (c : Client) (max : Nat) : Client :=
  wakeSome (max - c.clMaxRpcsInFlight) { c with clMaxRpcsInFlight := max }

def Client.enlist (c : Client) : Except Int Setter → Client
  | .error _ => c
  | .ok setter => { c with setters := setter :: c.setters }

/-- The next section of a setter that has been taken off the list of setters. -/
def Client.proceed (c : Client) : Setter → Client
  | .lowering max => c.enlist (obdSetMaxModRpcsInFlight c (max - 1) (some max))
  | .storeMod max none => { c with clMaxModRpcsInFlight := max }
  | .storeMod max (some next) =>
    { c with clMaxModRpcsInFlight := max, setters := .storeMax next :: c.setters }
  | .storeMax max => storeMax c max

def obdModRpcSlotAvail (c : Client) (closeReq : Bool) : Bool :=
  decide (c.clModRpcsInFlight < c.clMaxModRpcsInFlight) || (closeReq && decide (c.clCloseRpcsInFlight = 0))

def findFirstZeroBit (bitmap : Nat → Bool) (size : Nat) : Nat :=
  ((List.range size).find? fun i => !bitmap i).getD size

/-- A turn of the loop in `obd_get_mod_rpc_slot`: a thread that finds no slot goes back to
    sleep. Read-only intents return before it. -/
def obdGetModRpcSlot (c : Client) (closeReq : Bool) : Client :=
  if obdModRpcSlotAvail c closeReq then
    let i := findFirstZeroBit c.clModTagBitmap (c.clMaxModRpcsInFlight + 1)
    if i < obdMaxRifMax ∧ c.clModTagBitmap i = false then
      { c with
        clModRpcsInFlight := c.clModRpcsInFlight + 1
        clCloseRpcsInFlight := c.clCloseRpcsInFlight + closeReq.toNat
        clModTagBitmap := Function.update c.clModTagBitmap i true
        modRpcs := ⟨i + 1, closeReq⟩ :: c.modRpcs }
    else { c with lbug := true }
  else c

def obdPutModRpcSlot (c : Client) (rpc : ModRpc) : Client :=
  if rpc.tag - 1 < obdMaxRifMax ∧ c.clModTagBitmap (rpc.tag - 1) = true then
    { c with
      clModRpcsInFlight := c.clModRpcsInFlight - 1
      clCloseRpcsInFlight := c.clCloseRpcsInFlight - rpc.close.toNat
      clModTagBitmap := Function.update c.clModTagBitmap (rpc.tag - 1) false
      modRpcs := c.modRpcs.erase rpc }
  else { c with lbug := true }

inductive Event where
  | get (i : Nat)
  | wake (i : Nat)
  | interrupt (i : Nat)
  | put (i : Nat)
  | setMax (max : Nat)
  | getMod (closeReq : Bool)
  | putMod (rpc : ModRpc)
  | setMaxMod (max : Nat)
  | setter (i : Nat)
  deriving DecidableEq, Repr

/-- A waiting thread does nothing else, a thread wakes up when it was unlinked, and only what
    was taken is given back. -/
def step (c : Client) (e : Event) : Client :=
  if c.lbug = true then c
  else match e with
  | .get i => if i ∈ c.waiting then c else obdGetRequestSlot c i
  | .wake i =>
    if i ∈ c.waiting ∧ i ∉ c.clLoiReadList then
      { c with waiting := c.waiting.erase i, holders := i :: c.holders }
    else c
  | .interrupt i => if i ∈ c.waiting then interrupted c i else c
  | .put i => if i ∈ c.holders then obdPutRequestSlot { c with holders := c.holders.erase i } else c
  | .setMax max => c.enlist (obdSetMaxRpcsInFlight c max)
  | .getMod closeReq => obdGetModRpcSlot c closeReq
  | .putMod rpc => if rpc ∈ c.modRpcs then obdPutModRpcSlot c rpc else c
  | .setMaxMod max => c.enlist (obdSetMaxModRpcsInFlight c max none)
  | .setter i => match c.setters[i]? with
    | none => c
    | some setter => Client.proceed { c with setters := c.setters.eraseIdx i } setter

structure Idle (c : Client) : Prop where
  slots : c.clRInFlight = 0
  list : c.clLoiReadList = []
  waiting : c.waiting = []
  holders : c.holders = []
  mods : c.clModRpcsInFlight = 0
  closes : c.clCloseRpcsInFlight = 0
  bitmap : ∀ i, c.clModTagBitmap i = false
  rpcs : c.modRpcs = []
  setters : c.setters = []
  running : c.lbug = false

structure Slots where
  max : Nat
  inFlight : Nat
  list : List Nat
  waiting : List Nat
  holders : List Nat

def Client.slots (c : Client) : Slots :=
  ⟨c.clMaxRpcsInFlight, c.clRInFlight, c.clLoiReadList, c.waiting, c.holders⟩

def Client.storing (c : Client) : Event → Option Nat
  | .setter i => match c.setters[i]? with
    | some (.storeMax max) => if c.lbug = true then none else some max
    | _ => none
  | _ => none

inductive Moves (s : Slots) : Option Nat → Event → Slots → Prop
  | same (e : Event) : Moves s none e s
  | take (i : Nat) (room : s.inFlight < s.max) :
    Moves s none (.get i) { s with inFlight := s.inFlight + 1, holders := i :: s.holders }
  | queue (i : Nat) (full : s.max ≤ s.inFlight) (fresh : i ∉ s.waiting) :
    Moves s none (.get i) { s with list := s.list ++ [i], waiting := i :: s.waiting }
  | wake (i : Nat) (inside : i ∈ s.waiting) (unlinked : i ∉ s.list) :
    Moves s none (.wake i) { s with waiting := s.waiting.erase i, holders := i :: s.holders }
  | giveUp (i : Nat) (inside : i ∈ s.waiting) (linked : i ∈ s.list) :
    Moves s none (.interrupt i) { s with list := s.list.erase i, waiting := s.waiting.erase i }
  | drop (i : Nat) (inside : i ∈ s.waiting) (unlinked : i ∉ s.list) :
    Moves s none (.interrupt i) { s with inFlight := s.inFlight - 1, waiting := s.waiting.erase i }
  | put (i : Nat) (held : i ∈ s.holders) (done : s.list = [] ∨ s.max ≤ s.inFlight - 1) :
    Moves s none (.put i) { s with inFlight := s.inFlight - 1, holders := s.holders.erase i }
  | hand (i j : Nat) (rest : List Nat) (held : i ∈ s.holders) (first : s.list = j :: rest)
      (room : s.inFlight - 1 < s.max) :
    Moves s none (.put i)
      { s with inFlight := s.inFlight - 1 + 1, list := rest, holders := s.holders.erase i }
  | limit (i max : Nat) (woken rest : List Nat) (split : s.list = woken ++ rest)
      (few : woken.length ≤ max - s.max) (all : rest = [] ∨ woken.length = max - s.max) :
    Moves s (some max) (.setter i) { s with max := max, inFlight := s.inFlight + woken.length, list := rest }

theorem wake_some_slots (n : Nat) (c : Client) : ∃ woken rest, c.clLoiReadList = woken ++ rest ∧
    woken.length ≤ n ∧ (rest = [] ∨ woken.length = n) ∧
    (wakeSome n c).slots = { c.slots with inFlight := c.clRInFlight + woken.length, list := rest } := by
  induction n generalizing c with
  | zero => exact ⟨[], c.clLoiReadList, rfl, Nat.le_refl 0, Or.inr rfl, rfl⟩
  | succ n ih =>
    cases list : c.clLoiReadList with
    | nil =>
      refine ⟨[], [], rfl, Nat.zero_le _, Or.inl rfl, ?_⟩
      rw [wakeSome, if_pos list]
      simp [Client.slots, list]
    | cons j others =>
      obtain ⟨woken, rest, split, few, all, slots⟩ := ih (wakeFirst c)
      have first : wakeFirst c = { c with clLoiReadList := others, clRInFlight := c.clRInFlight + 1 } := by
        rw [wakeFirst, list]
      rw [first] at split slots
      refine ⟨j :: woken, rest, congrArg (j :: ·) split, Nat.succ_le_succ few, ?_, ?_⟩
      · exact all.imp_right (congrArg (· + 1))
      · rw [wakeSome, if_neg (by rw [list]; exact List.cons_ne_nil _ _), first, slots]
        simp only [Client.slots, List.length_cons, Slots.mk.injEq, true_and, and_true]
        omega

theorem store_max_moves (c : Client) (i max : Nat) :
    Moves c.slots (some max) (.setter i) (storeMax c max).slots := by
  obtain ⟨woken, rest, split, few, all, slots⟩ :=
    wake_some_slots (max - c.clMaxRpcsInFlight) { c with clMaxRpcsInFlight := max }
  rw [storeMax, slots]
  exact Moves.limit i max woken rest split few all

theorem enlist_slots (c : Client) (tested : Except Int Setter) : (c.enlist tested).slots = c.slots := by
  cases tested <;> rfl

theorem get_mod_slots (c : Client) (closeReq : Bool) : (obdGetModRpcSlot c closeReq).slots = c.slots := by
  unfold obdGetModRpcSlot
  split
  · dsimp only
    split <;> rfl
  · rfl

theorem put_mod_slots (c : Client) (rpc : ModRpc) : (obdPutModRpcSlot c rpc).slots = c.slots := by
  unfold obdPutModRpcSlot
  split <;> rfl

theorem put_moves {c : Client} {i : Nat} (held : i ∈ c.holders) :
    Moves c.slots none (.put i) (obdPutRequestSlot { c with holders := c.holders.erase i }).slots := by
  unfold obdPutRequestSlot
  dsimp only
  split
  · rename_i both
    obtain ⟨some, room⟩ := both
    obtain ⟨j, rest, list⟩ := List.exists_cons_of_ne_nil some
    rw [wakeFirst]
    simp only [list]
    exact Moves.hand i j rest held list room
  · rename_i neither
    apply Moves.put i held
    rw [not_and_or, not_not, Nat.not_lt] at neither
    exact neither

theorem storing_stopped {c : Client} (stopped : c.lbug = true) (e : Event) : c.storing e = none := by
  unfold Client.storing
  split
  · split
    · rw [if_pos stopped]
    · rfl
  · rfl

theorem setter_moves {c : Client} {i : Nat} {setter : Setter} (running : c.lbug ≠ true)
    (there : c.setters[i]? = some setter) :
    Moves c.slots (c.storing (.setter i)) (.setter i)
      (Client.proceed { c with setters := c.setters.eraseIdx i } setter).slots := by
  simp only [Client.storing, there]
  cases setter with
  | lowering max =>
    rw [Client.proceed, enlist_slots]
    exact Moves.same _
  | storeMod max next => cases next <;> exact Moves.same _
  | storeMax max =>
    dsimp only
    rw [if_neg running]
    exact store_max_moves { c with setters := c.setters.eraseIdx i } i max

theorem step_moves (c : Client) (e : Event) : Moves c.slots (c.storing e) e (step c e).slots := by
  unfold step
  split
  · rename_i stopped
    rw [storing_stopped stopped]
    exact Moves.same e
  · rename_i running
    cases e with
    | get i =>
      dsimp only
      split
      · exact Moves.same _
      · rename_i fresh
        unfold obdGetRequestSlot
        split
        · rename_i room
          exact Moves.take i room
        · rename_i full
          exact Moves.queue i (Nat.not_lt.mp full) fresh
    | wake i =>
      dsimp only
      split
      · rename_i ready
        exact Moves.wake i ready.1 ready.2
      · exact Moves.same _
    | interrupt i =>
      dsimp only
      split
      · rename_i inside
        unfold interrupted
        split
        · rename_i linked
          exact Moves.giveUp i inside linked
        · rename_i unlinked
          exact Moves.drop i inside unlinked
      · exact Moves.same _
    | put i =>
      dsimp only
      split
      · rename_i held
        exact put_moves held
      · exact Moves.same _
    | setMax max =>
      dsimp only
      rw [enlist_slots]
      exact Moves.same _
    | getMod closeReq =>
      dsimp only
      rw [get_mod_slots]
      exact Moves.same _
    | putMod rpc =>
      dsimp only
      split
      · rw [put_mod_slots]
        exact Moves.same _
      · exact Moves.same _
    | setMaxMod max =>
      dsimp only
      rw [enlist_slots]
      exact Moves.same _
    | setter i =>
      dsimp only
      split
      · rename_i gone
        simp only [Client.storing, gone]
        exact Moves.same _
      · rename_i there
        exact setter_moves running there

/-- Every slot in flight belongs to a thread: one that returned with it, or one that was
    unlinked and has not run since. -/
structure Counted (s : Slots) : Prop where
  total : s.inFlight + s.list.length = s.waiting.length + s.holders.length
  linked : ∀ i ∈ s.list, i ∈ s.waiting
  once : s.list.Nodup
  single : s.waiting.Nodup

theorem idle_counted {c : Client} (idle : Idle c) : Counted c.slots where
  total := by simp [Client.slots, idle.slots, idle.list, idle.waiting, idle.holders]
  linked := by simp [Client.slots, idle.list]
  once := by simp [Client.slots, idle.list]
  single := by simp [Client.slots, idle.waiting]

theorem counted_pos {s : Slots} (counted : Counted s) {i : Nat}
    (here : i ∈ s.holders ∨ i ∈ s.waiting ∧ i ∉ s.list) : 0 < s.inFlight := by
  have total := counted.total
  have fewer := (List.subperm_of_subset counted.once counted.linked).length_le
  rcases here with held | ⟨inside, unlinked⟩
  · have some := List.length_pos_of_mem held
    omega
  · have fresh : (i :: s.list).Nodup := List.nodup_cons.mpr ⟨unlinked, counted.once⟩
    have both : i :: s.list ⊆ s.waiting := List.cons_subset.mpr ⟨inside, counted.linked⟩
    have more := (List.subperm_of_subset fresh both).length_le
    simp only [List.length_cons] at more
    omega

theorem linked_erase {s : Slots} (counted : Counted s) {i : Nat} (unlinked : i ∉ s.list) :
    ∀ j ∈ s.list, j ∈ s.waiting.erase i := by
  intro j linked
  have other : j ≠ i := by
    rintro rfl
    exact unlinked linked
  exact (List.mem_erase_of_ne other).mpr (counted.linked j linked)

theorem moves_counted {s s' : Slots} {stored : Option Nat} {e : Event} (moves : Moves s stored e s')
    (counted : Counted s) : Counted s' := by
  have total := counted.total
  cases moves with
  | same => exact counted
  | take i room =>
    exact ⟨by simp only [List.length_cons]; omega, counted.linked, counted.once, counted.single⟩
  | queue i full fresh =>
    have unlinked : i ∉ s.list := fun linked => fresh (counted.linked i linked)
    refine ⟨?_, ?_, ?_, List.nodup_cons.mpr ⟨fresh, counted.single⟩⟩
    · simp only [List.length_append, List.length_cons, List.length_nil]
      omega
    · intro j linked
      rcases List.mem_append.mp linked with before | new
      · exact List.mem_cons_of_mem _ (counted.linked j before)
      · rw [List.mem_singleton.mp new]
        exact List.mem_cons_self
    · exact List.nodup_append.mpr ⟨counted.once, List.nodup_singleton i, by
        rintro j before k new rfl
        exact unlinked (List.mem_singleton.mp new ▸ before)⟩
  | wake i inside unlinked =>
    have some := List.length_pos_of_mem inside
    refine ⟨?_, ?_, counted.once, counted.single.erase i⟩
    · simp only [List.length_erase_of_mem inside, List.length_cons]
      omega
    · exact linked_erase counted unlinked
  | giveUp i inside linked =>
    have some := List.length_pos_of_mem inside
    have first := List.length_pos_of_mem linked
    refine ⟨?_, ?_, counted.once.erase i, counted.single.erase i⟩
    · simp only [List.length_erase_of_mem inside, List.length_erase_of_mem linked]
      omega
    · intro j still
      obtain ⟨other, before⟩ := counted.once.mem_erase_iff.mp still
      exact (List.mem_erase_of_ne other).mpr (counted.linked j before)
  | drop i inside unlinked =>
    have positive := counted_pos counted (Or.inr ⟨inside, unlinked⟩)
    have some := List.length_pos_of_mem inside
    refine ⟨?_, ?_, counted.once, counted.single.erase i⟩
    · simp only [List.length_erase_of_mem inside]
      omega
    · exact linked_erase counted unlinked
  | put i held done =>
    have positive := counted_pos counted (Or.inl held)
    have some := List.length_pos_of_mem held
    refine ⟨?_, counted.linked, counted.once, counted.single⟩
    simp only [List.length_erase_of_mem held]
    omega
  | hand i j rest held first room =>
    have positive := counted_pos counted (Or.inl held)
    have some := List.length_pos_of_mem held
    have linked := counted.linked
    have once := counted.once
    rw [first] at total linked once
    refine ⟨?_, fun k later => linked k (List.mem_cons_of_mem j later),
      (List.nodup_cons.mp once).2, counted.single⟩
    simp only [List.length_erase_of_mem held, List.length_cons] at total ⊢
    omega
  | limit i max woken rest split few all =>
    have linked := counted.linked
    have once := counted.once
    rw [split] at total linked once
    refine ⟨?_, fun k later => linked k (List.mem_append_right _ later), once.of_append_right, counted.single⟩
    simp only [List.length_append] at total ⊢
    omega

structure Accounted (c : Client) : Prop where
  inFlight : c.clRInFlight = c.holders.length + (c.waiting.filter (· ∉ c.clLoiReadList)).length
  linked : ∀ i ∈ c.clLoiReadList, i ∈ c.waiting
  once : c.clLoiReadList.Nodup

theorem counted_accounted {c : Client} (counted : Counted c.slots) : Accounted c := by
  have total := counted.total
  have part : (c.waiting.filter (· ∈ c.clLoiReadList)).Perm c.clLoiReadList := by
    apply (List.perm_ext_iff_of_nodup (counted.single.filter _) counted.once).mpr
    intro i
    simp only [List.mem_filter, decide_eq_true_eq]
    exact ⟨fun both => both.2, fun linked => ⟨counted.linked i linked, linked⟩⟩
  have whole := List.length_eq_length_filter_add (l := c.waiting) (fun i => decide (i ∈ c.clLoiReadList))
  have same : (fun i => !decide (i ∈ c.clLoiReadList)) = fun i => decide (i ∉ c.clLoiReadList) := by
    funext i
    simp
  rw [part.length_eq, same] at whole
  refine ⟨?_, counted.linked, counted.once⟩
  simp only [Client.slots] at total
  omega

theorem run_counted {c : Client} (idle : Idle c) (es : List Event) :
    Always step (fun c => Counted c.slots) c es := by
  have keeps (c : Client) (e : Event) (counted : Counted c.slots) (_ : True) : Counted (step c e).slots :=
    moves_counted (step_moves c e) counted
  exact always_of_along keeps (idle_counted idle) (along_true step c es)

/-- In every interleaving no slot is lost and none is given out twice. -/
theorem slots_accounted (c : Client) (idle : Idle c) (es : List Event) : Always step Accounted c es :=
  always_mono (fun _ counted => counted_accounted counted) (run_counted idle es)

def fresh (max : Nat) : Client where
  mdc := true
  maxmodrpcs := 7
  clMaxRpcsInFlight := max
  clRInFlight := 0
  clLoiReadList := []
  waiting := []
  holders := []
  clMaxModRpcsInFlight := 1
  clModRpcsInFlight := 0
  clCloseRpcsInFlight := 0
  clModTagBitmap := fun _ => false
  modRpcs := []
  setters := []
  lbug := false

theorem fresh_idle (max : Nat) : Idle (fresh max) :=
  ⟨rfl, rfl, rfl, rfl, rfl, rfl, fun _ => rfl, rfl, rfl, rfl⟩

theorem slots_accounted_queue : Idle (fresh 2) ∧
    Always step Accounted (fresh 2)
      [.get 1, .get 2, .get 3, .get 4, .put 1, .interrupt 3, .wake 3, .setMax 3, .setter 0, .wake 4] :=
  ⟨fresh_idle 2, slots_accounted (fresh 2) (fresh_idle 2) _⟩

def KeepsLimit (c : Client) (e : Event) : Prop := ∀ max, c.storing e = some max → c.clRInFlight ≤ max

theorem step_within_iff (c : Client) (e : Event) (within : c.clRInFlight ≤ c.clMaxRpcsInFlight) :
    (step c e).clRInFlight ≤ (step c e).clMaxRpcsInFlight ↔ KeepsLimit c e := by
  have moves := step_moves c e
  have inFlight : (step c e).clRInFlight = (step c e).slots.inFlight := rfl
  have limit : (step c e).clMaxRpcsInFlight = (step c e).slots.max := rfl
  unfold KeepsLimit
  rw [inFlight, limit]
  generalize (step c e).slots = s' at moves
  generalize c.storing e = stored at moves
  cases moves with
  | same => exact iff_of_true within (by rintro max ⟨⟩)
  | take i room => exact iff_of_true room (by rintro max ⟨⟩)
  | queue i full fresh => exact iff_of_true within (by rintro max ⟨⟩)
  | wake i inside unlinked => exact iff_of_true within (by rintro max ⟨⟩)
  | giveUp i inside linked => exact iff_of_true within (by rintro max ⟨⟩)
  | drop i inside unlinked => exact iff_of_true (Nat.le_trans (Nat.sub_le _ 1) within) (by rintro max ⟨⟩)
  | put i held done => exact iff_of_true (Nat.le_trans (Nat.sub_le _ 1) within) (by rintro max ⟨⟩)
  | hand i j rest held first room => exact iff_of_true room (by rintro max ⟨⟩)
  | limit i max woken rest split few all =>
    simp only [Client.slots] at few ⊢
    constructor
    · rintro after _ ⟨⟩
      omega
    · intro kept
      have fits := kept max rfl
      omega

/-- What is in flight stays within the limit exactly as long as no limit is set below it. -/
theorem in_flight_within_limit_iff (c : Client) (idle : Idle c) (es : List Event) :
    Always step (fun c => c.clRInFlight ≤ c.clMaxRpcsInFlight) c es ↔ Along step KeepsLimit c es := by
  have start : c.clRInFlight ≤ c.clMaxRpcsInFlight := by
    rw [idle.slots]
    exact Nat.zero_le _
  exact always_iff_along step_within_iff start

theorem within_limit_lowered : Idle (fresh 4) ∧
    ¬ Always step (fun c => c.clRInFlight ≤ c.clMaxRpcsInFlight) (fresh 4)
      [.get 1, .get 2, .get 3, .setMax 2, .setter 0] := by
  refine ⟨fresh_idle 4, fun always => ?_⟩
  have along := (in_flight_within_limit_iff (fresh 4) (fresh_idle 4) _).mp always
  have kept := along.2.2.2.2.1 2 rfl
  exact absurd kept (by decide)

/-- Nobody waits while a slot is free. -/
def NoneIdle (c : Client) : Prop := c.clLoiReadList ≠ [] → c.clMaxRpcsInFlight ≤ c.clRInFlight

/-- A thread that is interrupted after it was handed a slot leaves nobody behind who could
    have used it. -/
def KeepsHandover (c : Client) (e : Event) : Prop :=
  ∀ i, e = .interrupt i → c.lbug = false → i ∈ c.waiting → i ∉ c.clLoiReadList →
    c.clLoiReadList = [] ∨ c.clMaxRpcsInFlight < c.clRInFlight

theorem step_stopped {c : Client} {e : Event} (stopped : c.lbug = true) : step c e = c := by
  unfold step
  exact if_pos stopped

theorem step_drop {c : Client} {i : Nat} (running : c.lbug = false) (inside : i ∈ c.waiting)
    (unlinked : i ∉ c.clLoiReadList) :
    step c (.interrupt i) = { c with clRInFlight := c.clRInFlight - 1, waiting := c.waiting.erase i } := by
  simp [step, running, inside, interrupted, unlinked]

theorem step_none_idle_iff (c : Client) (e : Event) (both : NoneIdle c ∧ Counted c.slots) :
    NoneIdle (step c e) ∧ Counted (step c e).slots ↔ KeepsHandover c e := by
  obtain ⟨none, counted⟩ := both
  have moves := step_moves c e
  have after := moves_counted moves counted
  constructor
  · rintro ⟨kept, _⟩ i rfl running inside unlinked
    have positive := counted_pos counted (Or.inr ⟨inside, unlinked⟩)
    rw [step_drop running inside unlinked] at kept
    simp only [NoneIdle, Client.slots] at kept positive
    by_cases empty : c.clLoiReadList = []
    · exact Or.inl empty
    · have full := kept empty
      omega
  · intro kept
    refine ⟨?_, after⟩
    by_cases stopped : c.lbug = true
    · rw [step_stopped stopped]
      exact none
    · have list : (step c e).clLoiReadList = (step c e).slots.list := rfl
      have inFlight : (step c e).clRInFlight = (step c e).slots.inFlight := rfl
      have limit : (step c e).clMaxRpcsInFlight = (step c e).slots.max := rfl
      unfold NoneIdle at none ⊢
      rw [list, inFlight, limit]
      generalize (step c e).slots = s' at moves
      generalize c.storing e = stored at moves
      cases moves with
      | same => exact none
      | take i room =>
        intro some
        exact Nat.le_succ_of_le (none some)
      | queue i full fresh => exact fun _ => full
      | wake i inside unlinked => exact none
      | giveUp i inside linked => exact fun _ => none (List.ne_nil_of_mem linked)
      | drop i inside unlinked =>
        intro some
        have full := (kept i rfl (Bool.eq_false_iff.mpr stopped) inside unlinked).resolve_left some
        exact Nat.le_sub_one_of_lt full
      | put i held done => exact fun some => done.resolve_left some
      | hand i j rest held first room =>
        intro _
        have full := none (by rw [show c.clLoiReadList = j :: rest from first]; exact List.cons_ne_nil j rest)
        simp only [Client.slots]
        omega
      | limit i max woken rest split few all =>
        intro some
        have woke := all.resolve_left some
        have full := none (by
          rw [show c.clLoiReadList = woken ++ rest from split]
          exact List.append_ne_nil_of_right_ne_nil _ some)
        simp only [Client.slots] at few woke ⊢
        omega

/-- Nobody is left waiting while a slot is free, exactly as long as no thread gives up a slot
    that it was handed while others wait for one. -/
theorem none_idle_iff (c : Client) (idle : Idle c) (es : List Event) :
    Always step NoneIdle c es ↔ Along step KeepsHandover c es := by
  have start : NoneIdle c ∧ Counted c.slots := ⟨fun some => absurd idle.list some, idle_counted idle⟩
  have exact_run : Always step (fun c => NoneIdle c ∧ Counted c.slots) c es ↔ Along step KeepsHandover c es :=
    always_iff_along step_none_idle_iff start
  constructor
  · intro always
    apply exact_run.mp
    exact always_and.mpr ⟨always, run_counted idle es⟩
  · intro along
    exact always_mono (fun _ both => both.1) (exact_run.mpr along)

theorem none_idle_interrupted : Idle (fresh 2) ∧
    ¬ Always step NoneIdle (fresh 2) [.get 0, .get 1, .get 2, .get 3, .put 1, .interrupt 2] := by
  refine ⟨fresh_idle 2, fun always => ?_⟩
  have along := (none_idle_iff (fresh 2) (fresh_idle 2) _).mp always
  have kept := along.2.2.2.2.2.1 2 rfl rfl (by decide) (by decide)
  exact absurd kept (by decide)

end RequestSlots
