import Mathlib.Tactic.Ring
import LustreTools.Tbf.RuleReferences

/-!
The clients of the TBF head: their counters, their places and the LRU lists of the buckets. Taking a
client, putting it back and the purge keep the counts, and no bucket keeps more idle clients than its
share of the cache.
-/
namespace TbfRules
open Words TbfPolicy

section Clients
variable {ι κ : Type} {ops : Ops ι κ} {h h' : Head ι κ} {guests owned dead : List Nat}

theorem ClientInv.perm (inv : ClientInv ops h guests owned dead) {guests' owned' dead' : List Nat}
    (guest : guests.Perm guests') (own : owned.Perm owned') (die : dead.Perm dead') :
    ClientInv ops h guests' owned' dead' where
  counted c ref known := by
    rw [← guest.count_eq, ← own.count_eq]
    exact inv.counted c ref known
  placed c := by
    rw [← own.count_eq, ← die.count_eq]
    exact inv.placed c
  hashed c there := inv.hashed c (guest.mem_iff.mpr there)
  keys := inv.keys
  idle := inv.idle
  once := inv.once
  unborn := inv.unborn

theorem ClientInv.congr (inv : ClientInv ops h guests owned dead) (keys : ∀ c, h'.keyOf c = h.keyOf c)
    (refs : ∀ c, h'.refOf c = h.refOf c) (hash : h'.thCliHash = h.thCliHash) (lru : h'.ntbLru = h.ntbLru)
    (next : h'.nextClient = h.nextClient) : ClientInv ops h' guests owned dead where
  counted c ref known := by
    rw [hash]
    exact inv.counted c ref (by rw [← refs, known])
  placed c := by
    rw [hash, refs]
    exact inv.placed c
  hashed := by
    rw [hash]
    exact inv.hashed
  keys := by
    simp only [hash, keys]
    exact inv.keys
  idle b c := by
    rw [lru, hash, refs, inBucket, keys]
    exact inv.idle b c
  once := by
    rw [lru]
    exact inv.once
  unborn := by
    simp only [next, refs]
    exact inv.unborn

theorem refOf_setClient (h : Head ι κ) (c d : Nat) (cli : Option (Client κ)) :
    (h.setClient c cli).refOf d = if d = c then cli.map (·.tcRef) else h.refOf d := by
  unfold Head.refOf Head.setClient
  by_cases here : d = c
  · subst here
    simp
  · simp [here]

theorem keyOf_setClient (h : Head ι κ) (c d : Nat) (cli : Option (Client κ)) :
    (h.setClient c cli).keyOf d = if d = c then cli.map (·.tcKey) else h.keyOf d := by
  unfold Head.keyOf Head.setClient
  by_cases here : d = c
  · subst here
    simp
  · simp [here]

theorem ClientInv.lt_next (inv : ClientInv ops h guests owned dead) {c : Nat} {cli : Client κ}
    (there : h.clients c = some cli) : c < h.nextClient := by
  by_contra beyond
  have freed := inv.unborn c (by omega)
  rw [Head.refOf, there] at freed
  exact Option.some_ne_none _ freed

theorem ClientInv.live (inv : ClientInv ops h guests owned dead) {c : Nat}
    (there : 0 < h.thCliHash.count c + owned.count c + dead.count c) : ∃ cli, h.clients c = some cli := by
  have placed := inv.placed c
  cases known : h.clients c with
  | none =>
    rw [Head.refOf, known] at placed
    simp at placed
    omega
  | some cli => exact ⟨cli, rfl⟩

theorem ClientInv.live_hashed (inv : ClientInv ops h guests owned dead) {c : Nat} (there : c ∈ h.thCliHash) :
    ∃ cli, h.clients c = some cli := inv.live (by have := List.count_pos_iff.mpr there; omega)

theorem ClientInv.ref_eq (inv : ClientInv ops h guests owned dead) {c : Nat} {cli : Client κ}
    (there : h.clients c = some cli) :
    cli.tcRef = guests.count c + owned.count c + if ops.itemref = true ∧ c ∈ h.thCliHash then 1 else 0 :=
  inv.counted c cli.tcRef (by rw [Head.refOf, there, Option.map_some])

theorem ClientInv.one_place (inv : ClientInv ops h guests owned dead) {c : Nat} {cli : Client κ}
    (there : h.clients c = some cli) : h.thCliHash.count c + owned.count c + dead.count c = 1 := by
  have placed := inv.placed c
  rw [Head.refOf, there, Option.map_some] at placed
  simpa using placed

theorem ClientInv.recount (inv : ClientInv ops h guests owned dead) {c : Nat} {cli : Client κ} {ref : Int}
    {guests' : List Nat} (there : h.clients c = some cli)
    (client : h'.clients = Function.update h.clients c (some { cli with tcRef := ref }))
    (hash : h'.thCliHash = h.thCliHash) (next : h'.nextClient = h.nextClient)
    (others : ∀ e, e ≠ c → guests'.count e = guests.count e)
    (counted : (guests'.count c : Int) + cli.tcRef = guests.count c + ref)
    (hashed : c ∈ guests' → c ∈ h.thCliHash)
    (idle : ∀ b, c ∈ h'.ntbLru b ↔
      ops.itemref = false ∧ c ∈ h.thCliHash ∧ inBucket ops h b c = true ∧ ref = 0)
    (rest : ∀ b e, e ≠ c → (e ∈ h'.ntbLru b ↔ e ∈ h.ntbLru b)) (once : ∀ b, (h'.ntbLru b).Nodup) :
    ClientInv ops h' guests' owned dead := by
  have refs (e : Nat) : h'.refOf e = if e = c then some ref else h.refOf e := by
    rw [Head.refOf, client]
    by_cases here : e = c
    · subst here
      simp
    · simp [here, Head.refOf]
  have keys (e : Nat) : h'.keyOf e = h.keyOf e := by
    rw [Head.keyOf, client]
    by_cases here : e = c
    · subst here
      simp [Head.keyOf, there]
    · simp [here, Head.keyOf]
  have known : h.refOf c = some cli.tcRef := by rw [Head.refOf, there, Option.map_some]
  constructor
  case counted =>
    intro e value now
    rw [refs] at now
    rw [hash]
    by_cases here : e = c
    · subst here
      rw [if_pos rfl, Option.some.injEq] at now
      have before := inv.ref_eq there
      omega
    · rw [if_neg here] at now
      rw [others e here]
      exact inv.counted e value now
  case placed =>
    intro e
    have before := inv.placed e
    rw [hash, refs]
    by_cases here : e = c
    · subst here
      rw [known] at before
      rw [if_pos rfl]
      exact before
    · rw [if_neg here]
      exact before
  case hashed =>
    intro e guest
    rw [hash]
    by_cases here : e = c
    · subst here
      exact hashed guest
    · apply inv.hashed
      rw [← List.count_pos_iff] at guest ⊢
      rwa [← others e here]
  case keys =>
    simp only [hash, keys]
    exact inv.keys
  case idle =>
    intro b e
    rw [hash, inBucket, keys, refs]
    by_cases here : e = c
    · subst here
      rw [if_pos rfl, idle, Option.some.injEq]
      exact Iff.rfl
    · rw [if_neg here, rest b e here]
      exact inv.idle b e
  case once => exact once
  case unborn =>
    intro e later
    rw [next] at later
    have apart : e ≠ c := by
      have := inv.lt_next there
      omega
    rw [refs, if_neg apart]
    exact inv.unborn e later

theorem in_bucket_eq {c b : Nat} {cli : Client κ} (there : h.clients c = some cli) :
    inBucket ops h b c = true ↔ ops.bucket cli.tcKey = b := by
  rw [inBucket, Head.keyOf, there]
  simp

theorem add_ref {c : Nat} {cli : Client κ} (there : h.clients c = some cli) (d : Int) :
    addRef c d h = h.setClient c (some { cli with tcRef := cli.tcRef + d }) := by
  rw [addRef, there]

theorem count_self_ne {e c : Nat} (cs : List Nat) (apart : e ≠ c) : cs.count e = (c :: cs).count e :=
  (count_cons_ne cs apart).symm

def taken (ops : Ops ι κ) (h : Head ι κ) (c : Nat) (cli : Client κ) : Head ι κ :=
  { h.setClient c (some { cli with tcRef := cli.tcRef + 1 }) with
    ntbLru := Function.update h.ntbLru (ops.bucket cli.tcKey) ((h.ntbLru (ops.bucket cli.tcKey)).erase c) }

theorem take_eq {c : Nat} {cli : Client κ} (there : h.clients c = some cli) :
    takeClient ops c h = taken ops h c cli := by
  rw [takeClient, there]
  dsimp only
  rw [addRef]
  dsimp only
  rw [there]
  rfl

theorem ClientInv.take (inv : ClientInv ops h guests owned dead) {c : Nat} {cli : Client κ}
    (there : h.clients c = some cli) (hashed : c ∈ h.thCliHash) :
    ClientInv ops (taken ops h c cli) (c :: guests) owned dead := by
  have nonneg : 0 ≤ cli.tcRef := by
    have := inv.ref_eq there
    split at this <;> omega
  apply inv.recount there
  case client => exact rfl
  case hash => exact rfl
  case next => exact rfl
  case others => exact fun e apart => count_cons_ne guests apart
  case counted =>
    rw [List.count_cons_self]
    push_cast
    ring
  case hashed => exact fun _ => hashed
  case idle =>
    intro b
    have busy : ¬ cli.tcRef + 1 = 0 := by omega
    simp only [busy, and_false, iff_false]
    by_cases here : b = ops.bucket cli.tcKey
    · subst here
      simp only [taken, Function.update_self]
      exact (inv.once _).not_mem_erase
    · simp only [taken, Function.update_of_ne here]
      rw [inv.idle, in_bucket_eq there]
      exact fun all => here all.2.2.1.symm
  case rest =>
    intro b e apart
    by_cases here : b = ops.bucket cli.tcKey
    · subst here
      simp only [taken, Function.update_self]
      exact List.mem_erase_of_ne apart
    · simp only [taken, Function.update_of_ne here]
  case once =>
    intro b
    by_cases here : b = ops.bucket cli.tcKey
    · subst here
      simp only [taken, Function.update_self]
      exact (inv.once _).erase c
    · simp only [taken, Function.update_of_ne here]
      exact inv.once b

theorem Room.take (room : Room ops h) (c : Nat) (cli : Client κ) : Room ops (taken ops h c cli) := by
  intro b
  have before := room b
  by_cases here : b = ops.bucket cli.tcKey
  · subst here
    simp only [taken, Function.update_self]
    exact le_trans List.length_erase_le before
  · simpa only [taken, Function.update_of_ne here] using before

theorem ClientInv.release {c : Nat} (inv : ClientInv ops h (c :: guests) owned dead) {cli : Client κ}
    (there : h.clients c = some cli) (busy : ops.itemref = true ∨ cli.tcRef - 1 ≠ 0) :
    ClientInv ops (h.setClient c (some { cli with tcRef := cli.tcRef - 1 })) guests owned dead := by
  have hashed : c ∈ h.thCliHash := inv.hashed c List.mem_cons_self
  have awake (b : Nat) : c ∉ h.ntbLru b := by
    rw [inv.idle]
    rintro ⟨jobid, -, -, zero⟩
    have counted := inv.counted c 0 zero
    rw [List.count_cons_self] at counted
    split at counted <;> omega
  apply inv.recount there
  case client => exact rfl
  case hash => exact rfl
  case next => exact rfl
  case others => exact fun e apart => count_self_ne guests apart
  case counted =>
    rw [List.count_cons_self]
    push_cast
    ring
  case hashed => exact fun _ => hashed
  case idle =>
    intro b
    refine iff_of_false (awake b) ?_
    rintro ⟨jobid, -, -, zero⟩
    rcases busy with nid | more
    · rw [nid] at jobid
      exact Bool.noConfusion jobid
    · exact more zero
  case rest => exact fun _ _ _ => Iff.rfl
  case once => exact inv.once

theorem ClientInv.rest {c : Nat} (inv : ClientInv ops h (c :: guests) owned dead) {cli : Client κ}
    (there : h.clients c = some cli) (jobid : ops.itemref = false) (last : cli.tcRef - 1 = 0) :
    c ∉ h.ntbLru (ops.bucket cli.tcKey) ∧
    ClientInv ops
      { h.setClient c (some { cli with tcRef := cli.tcRef - 1 }) with
        ntbLru := Function.update h.ntbLru (ops.bucket cli.tcKey)
          (h.ntbLru (ops.bucket cli.tcKey) ++ [c]) } guests owned dead := by
  have hashed : c ∈ h.thCliHash := inv.hashed c List.mem_cons_self
  have known : h.refOf c = some cli.tcRef := by rw [Head.refOf, there, Option.map_some]
  have awake (b : Nat) : c ∉ h.ntbLru b := by
    rw [inv.idle, known, Option.some.injEq]
    omega
  refine ⟨awake _, ?_⟩
  apply inv.recount there
  case client => exact rfl
  case hash => exact rfl
  case next => exact rfl
  case others => exact fun e apart => count_self_ne guests apart
  case counted =>
    rw [List.count_cons_self]
    push_cast
    ring
  case hashed => exact fun _ => hashed
  case idle =>
    intro b
    rw [in_bucket_eq there]
    by_cases here : b = ops.bucket cli.tcKey
    · subst here
      simp only [Function.update_self, List.mem_append, List.mem_singleton, or_true, true_iff]
      exact ⟨jobid, hashed, trivial, last⟩
    · simp only [Function.update_of_ne here]
      exact iff_of_false (awake b) fun all => here all.2.2.1.symm
  case rest =>
    intro b e apart
    by_cases here : b = ops.bucket cli.tcKey
    · subst here
      simp [apart]
    · simp only [Function.update_of_ne here]
  case once =>
    intro b
    by_cases here : b = ops.bucket cli.tcKey
    · subst here
      simp only [Function.update_self]
      exact (inv.once _).append (List.nodup_singleton c) (by simpa using awake _)
    · simp only [Function.update_of_ne here]
      exact inv.once b

theorem ClientInv.add (inv : ClientInv ops h guests owned dead) (key : κ) :
    ClientInv ops (h.addClient key) guests (h.nextClient :: owned) dead := by
  have freed : h.refOf h.nextClient = none := inv.unborn h.nextClient (le_refl _)
  have nowhere : h.thCliHash.count h.nextClient + owned.count h.nextClient + dead.count h.nextClient = 0 := by
    have := inv.placed h.nextClient
    rwa [freed] at this
  have unhashed : h.nextClient ∉ h.thCliHash := List.count_eq_zero.mp (by omega)
  have unguest : guests.count h.nextClient = 0 :=
    List.count_eq_zero.mpr fun guest => unhashed (inv.hashed _ guest)
  have refs (e : Nat) : (h.addClient key).refOf e = if e = h.nextClient then some 1 else h.refOf e :=
    refOf_setClient h h.nextClient e (some (newClient key))
  have keys (e : Nat) (apart : e ≠ h.nextClient) : (h.addClient key).keyOf e = h.keyOf e := by
    have changed := keyOf_setClient h h.nextClient e (some (newClient key))
    rwa [if_neg apart] at changed
  have inside {e : Nat} (there : e ∈ h.thCliHash) : e ≠ h.nextClient := fun here => unhashed (here ▸ there)
  constructor
  case counted =>
    intro e ref known
    rw [refs] at known
    by_cases here : e = h.nextClient
    · subst here
      rw [if_pos rfl, Option.some.injEq] at known
      have outside : ¬ (ops.itemref = true ∧ h.nextClient ∈ (h.addClient key).thCliHash) :=
        fun both => unhashed both.2
      rw [List.count_cons_self, if_neg outside, unguest]
      omega
    · rw [if_neg here] at known
      rw [count_cons_ne owned here]
      exact inv.counted e ref known
  case placed =>
    intro e
    have before := inv.placed e
    rw [refs]
    by_cases here : e = h.nextClient
    · subst here
      rw [if_pos rfl, List.count_cons_self]
      show h.thCliHash.count h.nextClient + _ + _ = 1
      omega
    · rw [if_neg here, count_cons_ne owned here]
      exact before
  case hashed => exact inv.hashed
  case keys =>
    intro e there d other
    rw [keys e (inside there), keys d (inside other)]
    exact inv.keys e there d other
  case idle =>
    intro b e
    rw [inBucket, refs]
    by_cases here : e = h.nextClient
    · subst here
      have absent : h.nextClient ∉ h.ntbLru b := fun there => unhashed ((inv.idle b _).mp there).2.1
      exact iff_of_false absent fun all => unhashed all.2.1
    · rw [if_neg here, keys e here]
      exact inv.idle b e
  case once => exact inv.once
  case unborn =>
    intro e later
    have least : h.nextClient + 1 ≤ e := later
    rw [refs, if_neg (by omega)]
    exact inv.unborn e (by omega)

theorem ClientInv.hash {c : Nat} (inv : ClientInv ops h guests (c :: owned) dead) {cli : Client κ}
    (there : h.clients c = some cli) (single : ∀ d ∈ h.thCliHash, h.keyOf d ≠ some cli.tcKey)
    (client : h'.clients = Function.update h.clients c
      (some { cli with tcRef := cli.tcRef + if ops.itemref then 1 else 0 }))
    (hash : h'.thCliHash = c :: h.thCliHash) (lru : h'.ntbLru = h.ntbLru)
    (next : h'.nextClient = h.nextClient) : ClientInv ops h' (c :: guests) owned dead := by
  have place := inv.one_place there
  rw [List.count_cons_self] at place
  have unhashed : c ∉ h.thCliHash := List.count_eq_zero.mp (by omega)
  have unowned : owned.count c = 0 := by omega
  have unguest : guests.count c = 0 := List.count_eq_zero.mpr fun guest => unhashed (inv.hashed c guest)
  have counted := inv.ref_eq there
  rw [if_neg fun both => unhashed both.2, List.count_cons_self, unguest, unowned] at counted
  have refs (e : Nat) : h'.refOf e =
      if e = c then some (cli.tcRef + if ops.itemref then 1 else 0) else h.refOf e := by
    rw [Head.refOf, client]
    by_cases here : e = c
    · subst here
      simp
    · simp [here, Head.refOf]
  have key : h.keyOf c = some cli.tcKey := by rw [Head.keyOf, there, Option.map_some]
  have keys (e : Nat) : h'.keyOf e = h.keyOf e := by
    rw [Head.keyOf, client]
    by_cases here : e = c
    · subst here
      simp [key]
    · simp [here, Head.keyOf]
  constructor
  case counted =>
    intro e ref known
    rw [refs] at known
    rw [hash]
    by_cases here : e = c
    · subst here
      rw [if_pos rfl, Option.some.injEq] at known
      simp only [List.count_cons_self, List.mem_cons_self, and_true]
      omega
    · rw [if_neg here] at known
      have before := inv.counted e ref known
      rw [count_cons_ne owned here] at before
      simpa [count_cons_ne guests here, here] using before
  case placed =>
    intro e
    have before := inv.placed e
    rw [hash, refs]
    by_cases here : e = c
    · subst here
      rw [if_pos rfl, List.count_cons_self]
      simp only [Option.isSome_some, if_true]
      omega
    · rw [if_neg here, count_cons_ne _ here]
      rwa [count_cons_ne owned here] at before
  case hashed =>
    intro e guest
    rw [hash]
    rcases List.mem_cons.mp guest with here | guest
    · exact List.mem_cons.mpr (Or.inl here)
    · exact List.mem_cons_of_mem c (inv.hashed e guest)
  case keys =>
    intro e one d other same
    rw [keys, keys] at same
    rw [hash, List.mem_cons] at one other
    rcases one with rfl | one
    · rcases other with rfl | other
      · rfl
      · exact absurd (same.symm.trans key) (single d other)
    · rcases other with rfl | other
      · exact absurd (same.trans key) (single e one)
      · exact inv.keys e one d other same
  case idle =>
    intro b e
    rw [lru, hash, inBucket, keys, refs]
    by_cases here : e = c
    · subst here
      have absent : e ∉ h.ntbLru b := fun there => unhashed ((inv.idle b e).mp there).2.1
      refine iff_of_false absent ?_
      rintro ⟨jobid, -, -, zero⟩
      rw [if_pos rfl, Option.some.injEq, jobid] at zero
      simp only [Bool.false_eq_true, if_false] at zero
      omega
    · rw [if_neg here, inv.idle b e]
      simp only [List.mem_cons, here, false_or]
      exact Iff.rfl
  case once =>
    rw [lru]
    exact inv.once
  case unborn =>
    intro e later
    rw [next] at later
    have apart : e ≠ c := by
      have := inv.lt_next there
      omega
    rw [refs, if_neg apart]
    exact inv.unborn e later

theorem ClientInv.free {c : Nat} {owned' dead' : List Nat} (inv : ClientInv ops h guests owned dead)
    {cli : Client κ} (there : h.clients c = some cli) (unhashed : c ∉ h.thCliHash)
    (own : ∀ e, e ≠ c → owned'.count e = owned.count e) (die : ∀ e, e ≠ c → dead'.count e = dead.count e)
    (nowhere : owned'.count c + dead'.count c = 0) :
    ClientInv ops (h.setClient c none) guests owned' dead' := by
  have refs (e : Nat) := refOf_setClient h c e none
  have keys (e : Nat) (apart : e ≠ c) : (h.setClient c none).keyOf e = h.keyOf e := by
    rw [keyOf_setClient, if_neg apart]
  have inside {e : Nat} (other : e ∈ h.thCliHash) : e ≠ c := fun here => unhashed (here ▸ other)
  constructor
  case counted =>
    intro e ref known
    rw [refs] at known
    by_cases here : e = c
    · rw [if_pos here] at known
      exact absurd known.symm (Option.some_ne_none ref)
    · rw [if_neg here] at known
      rw [own e here]
      exact inv.counted e ref known
  case placed =>
    intro e
    have before := inv.placed e
    rw [refs]
    by_cases here : e = c
    · subst here
      have zero : h.thCliHash.count e = 0 := List.count_eq_zero.mpr unhashed
      rw [if_pos rfl]
      show h.thCliHash.count e + _ + _ = 0
      omega
    · rw [if_neg here, own e here, die e here]
      exact before
  case hashed => exact inv.hashed
  case keys =>
    intro e one d other
    rw [keys e (inside one), keys d (inside other)]
    exact inv.keys e one d other
  case idle =>
    intro b e
    rw [inBucket, refs]
    by_cases here : e = c
    · subst here
      have absent : e ∉ h.ntbLru b := fun there => unhashed ((inv.idle b e).mp there).2.1
      exact iff_of_false absent fun all => unhashed all.2.1
    · rw [if_neg here, keys e here]
      exact inv.idle b e
  case once => exact inv.once
  case unborn =>
    intro e later
    rw [refs]
    split
    · rfl
    · exact inv.unborn e later

theorem ClientInv.evict {b c : Nat} {rest : List Nat} (inv : ClientInv ops h guests owned dead)
    (lru : h.ntbLru b = c :: rest) :
    ClientInv ops
      { h with
        thCliHash := h.thCliHash.erase c
        ntbLru := Function.update h.ntbLru b rest } guests owned (c :: dead) := by
  obtain ⟨jobid, hashed, inside, zero⟩ := (inv.idle b c).mp (by rw [lru]; exact List.mem_cons_self)
  have counted := inv.counted c 0 zero
  rw [jobid] at counted
  simp only [Bool.false_eq_true, false_and, if_false] at counted
  have place := inv.placed c
  rw [zero] at place
  simp only [Option.isSome_some, if_true] at place
  have hashCount := List.count_pos_iff.mpr hashed
  have others {e : Nat} (apart : e ≠ c) : e ∈ h.thCliHash.erase c ↔ e ∈ h.thCliHash :=
    List.mem_erase_of_ne apart
  have outside : c ∉ h.thCliHash.erase c := by
    rw [← List.count_eq_zero, List.count_erase_self]
    omega
  constructor
  case counted =>
    intro e ref known
    have before := inv.counted e ref known
    rw [jobid] at before ⊢
    simpa using before
  case placed =>
    intro e
    have before := inv.placed e
    show (h.thCliHash.erase c).count e + _ + _ = if (h.refOf e).isSome then 1 else 0
    by_cases here : e = c
    · subst here
      rw [zero, List.count_erase_self, List.count_cons_self]
      simp only [Option.isSome_some, if_true]
      omega
    · rw [List.count_erase_of_ne here, count_cons_ne dead here]
      exact before
  case hashed =>
    intro e guest
    have apart : e ≠ c := by
      rintro rfl
      have := List.count_pos_iff.mpr guest
      omega
    exact (others apart).mpr (inv.hashed e guest)
  case keys =>
    intro e one d other same
    exact inv.keys e (List.mem_of_mem_erase one) d (List.mem_of_mem_erase other) same
  case idle =>
    intro b' e
    show e ∈ Function.update h.ntbLru b rest b' ↔ _ ∧ e ∈ h.thCliHash.erase c ∧ _ ∧ _
    have before := inv.idle b' e
    have nodup := inv.once b
    rw [lru, List.nodup_cons] at nodup
    by_cases here : e = c
    · subst here
      refine iff_of_false ?_ fun all => outside all.2.1
      by_cases bucket : b' = b
      · subst bucket
        rw [Function.update_self]
        exact nodup.1
      · rw [Function.update_of_ne bucket, before]
        rintro ⟨-, -, elsewhere, -⟩
        obtain ⟨cli, there⟩ := inv.live_hashed hashed
        rw [in_bucket_eq there] at inside elsewhere
        exact bucket (elsewhere.symm.trans inside)
    · rw [others here]
      by_cases bucket : b' = b
      · subst bucket
        rw [Function.update_self]
        rw [lru, List.mem_cons] at before
        exact ⟨fun there => before.mp (Or.inr there), fun all => (before.mpr all).resolve_left here⟩
      · rw [Function.update_of_ne bucket]
        exact before
  case once =>
    intro b'
    by_cases bucket : b' = b
    · subst bucket
      have nodup := inv.once b'
      rw [lru, List.nodup_cons] at nodup
      simpa using nodup.2
    · simpa [bucket] using inv.once b'
  case unborn => exact inv.unborn

theorem ClientInv.lru_le (inv : ClientInv ops h guests owned dead) (b : Nat) :
    (h.ntbLru b).length ≤ h.thCliHash.countP (inBucket ops h b) := by
  rw [List.countP_eq_length_filter]
  apply (List.subperm_of_subset (inv.once b) _).length_le
  intro c there
  obtain ⟨-, hashed, inside, -⟩ := (inv.idle b c).mp there
  exact List.mem_filter.mpr ⟨hashed, inside⟩

theorem purge_keeps {b : Nat} {lru : List Nat} (zs : List Nat) (list : h.ntbLru b = lru)
    (inv : ClientInv ops h guests owned (zs ++ dead))
    (room : ∀ b', b' ≠ b → (h.ntbLru b').length ≤ highWater ops.tbfJobidCacheSize) :
    ∃ hash lrus zs', purge ops b lru h zs = ({ h with thCliHash := hash, ntbLru := lrus }, zs') ∧
      ClientInv ops { h with thCliHash := hash, ntbLru := lrus } guests owned (zs' ++ dead) ∧
      Room ops { h with thCliHash := hash, ntbLru := lrus } := by
  induction lru generalizing h zs with
  | nil =>
    refine ⟨h.thCliHash, h.ntbLru, zs, rfl, inv, fun b' => ?_⟩
    by_cases here : b' = b
    · show (h.ntbLru b').length ≤ _
      rw [here, list]
      exact Nat.zero_le _
    · exact room b' here
  | cons c rest ih =>
    rw [purge]
    split
    · obtain ⟨-, hashed, -, zero⟩ := (inv.idle b c).mp (by rw [list]; exact List.mem_cons_self)
      obtain ⟨cli, there⟩ := inv.live_hashed hashed
      have idle : cli.tcRef = 0 := by
        rwa [Head.refOf, there, Option.map_some, Option.some.injEq] at zero
      rw [there]
      dsimp only
      rw [if_pos idle]
      have evicted := inv.evict list
      apply ih
      case inv => exact evicted
      case list => exact Function.update_self b rest h.ntbLru
      case room =>
        intro b' apart
        simpa [apart] using room b' apart
    · rename_i small
      refine ⟨h.thCliHash, h.ntbLru, zs, rfl, inv, fun b' => ?_⟩
      by_cases here : b' = b
      · subst here
        exact le_trans (inv.lru_le b') (by omega)
      · exact room b' here

theorem put_keeps {c : Nat} (inv : ClientInv ops h (c :: guests) owned dead) (room : Room ops h) :
    ∃ cli, h.clients c = some cli ∧ ∃ hash lrus zs,
      cliPut ops c h =
        ({ h.setClient c (some { cli with tcRef := cli.tcRef - 1 }) with
           thCliHash := hash, ntbLru := lrus }, zs) ∧
      ClientInv ops (cliPut ops c h).1 guests owned (zs ++ dead) ∧ Room ops (cliPut ops c h).1 := by
  obtain ⟨cli, there⟩ := inv.live_hashed (inv.hashed c List.mem_cons_self)
  refine ⟨cli, there, ?_⟩
  have dropped : addRef c (-1) h = h.setClient c (some { cli with tcRef := cli.tcRef - 1 }) :=
    add_ref there (-1)
  unfold cliPut
  split
  · rename_i nid
    rw [dropped]
    exact ⟨h.thCliHash, h.ntbLru, [], rfl, inv.release there (Or.inl nid), room⟩
  · rename_i jobid
    rw [nrsTbfJobidCliPut, there, dropped]
    dsimp only
    split
    · rename_i busy
      exact ⟨h.thCliHash, h.ntbLru, [], rfl, inv.release there (Or.inr busy), room⟩
    · rename_i last
      obtain ⟨awake, rested⟩ := inv.rest there (by simpa using jobid) (by simpa using last)
      rw [if_neg awake]
      obtain ⟨hash, lrus, zs, purged, kept, roomy⟩ :=
        purge_keeps [] (Function.update_self _ _ h.ntbLru) rested (fun b' apart => by
          simpa [apart] using room b')
      refine ⟨hash, lrus, zs, purged, ?_⟩
      rw [purged]
      exact ⟨kept, roomy⟩

end Clients

end TbfRules
