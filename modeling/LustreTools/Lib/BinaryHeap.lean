import Mathlib.Data.List.Sort
import Mathlib.Order.Defs.LinearOrder

/-!
A binary heap stored in an array, with a comparator supplied by the caller at each
operation. The operations are a parameter: `KeepsNodes` and `KeepsOrder` state what
a caller may rely on. A comparator answers true when its first argument may stand
above its second, so it may be strict or not; `NotAfter` is the order it induces.
-/
namespace BinHeap
variable {α κ : Type}

def NotAfter (cmp : α → α → Bool) (a b : α) : Prop := cmp a b = true ∨ cmp b a = false

instance (cmp : α → α → Bool) : DecidableRel (NotAfter cmp) :=
  fun _ _ => inferInstanceAs (Decidable (_ ∨ _))

/-- A heap compares only the nodes it holds, so this is all it needs of a comparator. -/
def TransitiveOn (cmp : α → α → Bool) (nodes : List α) : Prop :=
  ∀ a ∈ nodes, ∀ b ∈ nodes, ∀ c ∈ nodes, NotAfter cmp a b → NotAfter cmp b c → NotAfter cmp a c

def HeapOrdered (cmp : α → α → Bool) (h : List α) : Prop :=
  ∀ i a b, 0 < i → h[(i - 1) / 2]? = some a → h[i]? = some b → NotAfter cmp a b

theorem not_after_total (cmp : α → α → Bool) (a b : α) : NotAfter cmp a b ∨ NotAfter cmp b a := by
  unfold NotAfter
  cases cmp a b <;> cases cmp b a <;> simp

theorem not_after_refl (cmp : α → α → Bool) (a : α) : NotAfter cmp a a := by
  rcases not_after_total cmp a a with h | h <;> exact h

theorem transitive_of_key [Preorder κ] {cmp : α → α → Bool} {nodes : List α} (key : α → κ)
    (by_key : ∀ a ∈ nodes, ∀ b ∈ nodes, NotAfter cmp a b ↔ key a ≤ key b) :
    TransitiveOn cmp nodes := by
  intro a ma b mb c mc ab bc
  rw [by_key _ ma _ mb] at ab
  rw [by_key _ mb _ mc] at bc
  rw [by_key _ ma _ mc]
  exact le_trans ab bc

structure StrictWeakOn (cmp : α → α → Bool) (among : α → Prop) : Prop where
  irreflexive : ∀ a, among a → cmp a a = false
  asymmetric : ∀ a b, among a → among b → cmp a b = true → cmp b a = false
  transitive : ∀ a b c, among a → among b → among c →
    cmp a b = true → cmp b c = true → cmp a c = true
  incomparable : ∀ a b c, among a → among b → among c →
    cmp a b = false ∧ cmp b a = false → cmp b c = false ∧ cmp c b = false →
      cmp a c = false ∧ cmp c a = false

theorem strict_of_key [LinearOrder κ] {cmp : α → α → Bool} {among : α → Prop} (key : α → κ)
    (by_key : ∀ a b, among a → among b → (cmp a b = true ↔ key a < key b)) :
    StrictWeakOn cmp among := by
  have by_key_not (a b : α) (ma : among a) (mb : among b) : cmp a b = false ↔ key b ≤ key a := by
    rw [← Bool.not_eq_true, by_key a b ma mb, not_lt]
  constructor
  · intro a ma
    rw [by_key_not a a ma ma]
  · intro a b ma mb ab
    rw [by_key_not b a mb ma]
    exact le_of_lt ((by_key a b ma mb).mp ab)
  · intro a b c ma mb mc ab bc
    rw [by_key a b ma mb] at ab
    rw [by_key b c mb mc] at bc
    rw [by_key a c ma mc]
    exact lt_trans ab bc
  · intro a b c ma mb mc ab bc
    rw [by_key_not a b ma mb, by_key_not b a mb ma] at ab
    rw [by_key_not b c mb mc, by_key_not c b mc mb] at bc
    rw [by_key_not a c ma mc, by_key_not c a mc ma]
    exact ⟨le_trans bc.1 ab.1, le_trans ab.2 bc.2⟩

theorem TransitiveOn.subset {cmp : α → α → Bool} {nodes more : List α}
    (trans : TransitiveOn cmp more) (sub : nodes ⊆ more) : TransitiveOn cmp nodes :=
  fun a ma b mb c mc => trans a (sub ma) b (sub mb) c (sub mc)

theorem root_first {cmp : α → α → Bool} {r : α} {h : List α}
    (trans : TransitiveOn cmp (r :: h)) (ordered : HeapOrdered cmp (r :: h)) :
    ∀ x ∈ r :: h, NotAfter cmp r x := by
  have at_index (i : Nat) : ∀ x, (r :: h)[i]? = some x → NotAfter cmp r x := by
    induction i using Nat.strongRecOn with
    | ind i ih =>
      intro x found
      by_cases root : i = 0
      · subst root
        simp only [List.getElem?_cons_zero, Option.some.injEq] at found
        exact found ▸ not_after_refl cmp r
      · have inside : i < (r :: h).length := (List.getElem?_eq_some_iff.mp found).1
        have parent := List.getElem?_eq_getElem (show (i - 1) / 2 < (r :: h).length by omega)
        have above := ih ((i - 1) / 2) (by omega) _ parent
        exact trans _ (by simp) _ (List.mem_of_getElem? parent) _ (List.mem_of_getElem? found)
          above (ordered i _ x (by omega) parent found)
  intro x member
  obtain ⟨i, found⟩ := List.mem_iff_getElem?.mp member
  exact at_index i x found

theorem heap_ordered_nil (cmp : α → α → Bool) : HeapOrdered cmp [] := by
  intro i a b positive parent
  simp at parent

theorem heap_ordered_singleton (cmp : α → α → Bool) (x : α) : HeapOrdered cmp [x] := by
  intro i a b positive parent child
  have inside := (List.getElem?_eq_some_iff.mp child).1
  simp only [List.length_singleton] at inside
  omega

theorem HeapOrdered.congr {cmp cmp' : α → α → Bool} {h : List α} (ordered : HeapOrdered cmp h)
    (agree : ∀ a ∈ h, ∀ b ∈ h, cmp a b = cmp' a b) : HeapOrdered cmp' h := by
  intro i a b positive parent child
  have ma := List.mem_of_getElem? parent
  have mb := List.mem_of_getElem? child
  have order := ordered i a b positive parent child
  simpa only [NotAfter, agree a ma b mb, agree b mb a ma] using order

theorem heap_ordered_of_pairwise {cmp : α → α → Bool} {h : List α}
    (sorted : h.Pairwise (NotAfter cmp)) : HeapOrdered cmp h := by
  intro i a b positive parent child
  obtain ⟨hp, rfl⟩ := List.getElem?_eq_some_iff.mp parent
  obtain ⟨hc, rfl⟩ := List.getElem?_eq_some_iff.mp child
  exact List.pairwise_iff_getElem.mp sorted _ _ hp hc (by omega)

theorem ordered_insert_pairwise {cmp : α → α → Bool} {x : α} {l : List α}
    (trans : TransitiveOn cmp (x :: l)) (sorted : l.Pairwise (NotAfter cmp)) :
    (l.orderedInsert (NotAfter cmp) x).Pairwise (NotAfter cmp) := by
  induction l with
  | nil => simp
  | cons b l ih =>
    have tail := List.pairwise_cons.mp sorted
    by_cases first : NotAfter cmp x b
    · rw [List.orderedInsert_cons_of_le _ _ first, List.pairwise_cons]
      refine ⟨?_, sorted⟩
      intro c member
      rcases List.mem_cons.mp member with rfl | later
      · exact first
      · exact trans x (by simp) b (by simp) c (by simp [later]) first (tail.1 c later)
    · have after : NotAfter cmp b x := (not_after_total cmp x b).resolve_left first
      rw [List.orderedInsert_of_not_le _ _ first, List.pairwise_cons]
      refine ⟨?_, ih (trans.subset (by intro y hy; simp at hy ⊢; tauto)) tail.2⟩
      intro c member
      rcases (List.mem_orderedInsert _).mp member with rfl | later
      · exact after
      · exact tail.1 c later

theorem insertion_sort_ordered {cmp : α → α → Bool} {h : List α} (trans : TransitiveOn cmp h) :
    HeapOrdered cmp (h.insertionSort (NotAfter cmp)) := by
  apply heap_ordered_of_pairwise
  induction h with
  | nil => simp
  | cons x h ih =>
    rw [List.insertionSort_cons]
    refine ordered_insert_pairwise (trans.subset ?_) (ih (trans.subset (by simp)))
    intro y member
    simpa using member

structure HeapOps (α : Type) where
  insert : (α → α → Bool) → List α → α → List α
  remove : (α → α → Bool) → List α → α → List α
  relocate : (α → α → Bool) → List α → α → List α

structure CheckedOps (α : Type) where
  insert : (α → α → Option Bool) → List α → α → Option (List α)
  remove : (α → α → Option Bool) → List α → α → Option (List α)

def Answered (cmp : α → α → Option Bool) (nodes : List α) : Prop :=
  nodes.Pairwise fun a b => (cmp a b).isSome = true ∧ (cmp b a).isSome = true

instance (cmp : α → α → Option Bool) (nodes : List α) : Decidable (Answered cmp nodes) :=
  inferInstanceAs (Decidable (nodes.Pairwise _))

theorem answered_total (cmp : α → α → Bool) (nodes : List α) : Answered (fun a b => some (cmp a b)) nodes :=
  List.pairwise_of_forall fun _ _ => ⟨rfl, rfl⟩

variable [DecidableEq α]

/-- The operations move nodes but neither lose nor invent any. -/
structure KeepsNodes (ops : HeapOps α) : Prop where
  insert_perm : ∀ cmp h x, (ops.insert cmp h x).Perm (x :: h)
  remove_perm : ∀ cmp h x, x ∈ h → (ops.remove cmp h x).Perm (h.erase x)
  relocate_perm : ∀ cmp h x, x ∈ h → (ops.relocate cmp h x).Perm h

/-- The operations keep the heap order when it held before. A node may be removed or
    relocated after its key changed: the order then held with the comparator `before`
    the change, which differs from the current one at that node only. -/
structure KeepsOrder (ops : HeapOps α) : Prop extends KeepsNodes ops where
  insert_ordered : ∀ cmp h x, TransitiveOn cmp (x :: h) → (x :: h).Nodup → HeapOrdered cmp h →
    HeapOrdered cmp (ops.insert cmp h x)
  remove_ordered : ∀ before cmp h x, TransitiveOn before h → TransitiveOn cmp h → h.Nodup →
    x ∈ h → (∀ a b, a ≠ x → b ≠ x → before a b = cmp a b) → HeapOrdered before h →
    HeapOrdered cmp (ops.remove cmp h x)
  relocate_ordered : ∀ before cmp h x, TransitiveOn before h → TransitiveOn cmp h → h.Nodup →
    x ∈ h → (∀ a b, a ≠ x → b ≠ x → before a b = cmp a b) → HeapOrdered before h →
    HeapOrdered cmp (ops.relocate cmp h x)

def sortedOps : HeapOps α where
  insert cmp h x := (h ++ [x]).insertionSort (NotAfter cmp)
  remove cmp h x := (h.erase x).insertionSort (NotAfter cmp)
  relocate cmp h _ := h.insertionSort (NotAfter cmp)

theorem sorted_ops_keep_order : KeepsOrder (sortedOps : HeapOps α) where
  insert_perm _ h x := (List.perm_insertionSort _ _).trans (List.perm_append_singleton x h)
  remove_perm _ _ _ _ := List.perm_insertionSort _ _
  relocate_perm _ _ _ _ := List.perm_insertionSort _ _
  insert_ordered _ h x trans _ _ :=
    insertion_sort_ordered (trans.subset (List.perm_append_singleton x h).subset)
  remove_ordered _ _ _ _ _ trans _ _ _ _ :=
    insertion_sort_ordered (trans.subset List.erase_subset)
  relocate_ordered _ _ _ _ _ trans _ _ _ _ := insertion_sort_ordered trans

/-- With a comparator that always answers they are the plain operations; a node that is
    inserted next to others is compared. -/
structure Checks (checked : CheckedOps α) (ops : HeapOps α) : Prop where
  insert_total : ∀ cmp h x, checked.insert (fun a b => some (cmp a b)) h x = some (ops.insert cmp h x)
  remove_total : ∀ cmp h x, checked.remove (fun a b => some (cmp a b)) h x = some (ops.remove cmp h x)
  insert_asks : ∀ h x, h ≠ [] → checked.insert (fun _ _ => none) h x = none

def sortedChecked : CheckedOps α where
  insert cmp h x := if Answered cmp (x :: h) then
    some (sortedOps.insert (fun a b => (cmp a b).getD false) h x) else none
  remove cmp h x := if Answered cmp h then
    some (sortedOps.remove (fun a b => (cmp a b).getD false) h x) else none

theorem sorted_checks : Checks (sortedChecked : CheckedOps α) sortedOps where
  insert_total cmp h x := by simp [sortedChecked, answered_total]
  remove_total cmp h x := by simp [sortedChecked, answered_total]
  insert_asks h x nonempty := by
    cases h with
    | nil => exact absurd rfl nonempty
    | cons y h =>
      have refused : ¬ Answered (fun _ _ => none) (x :: y :: h) := by
        intro answered
        cases ((List.pairwise_cons.mp answered).1 y (by simp)).1
      simp [sortedChecked, refused]

end BinHeap
