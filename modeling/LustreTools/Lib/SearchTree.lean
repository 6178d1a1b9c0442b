import Mathlib.Data.List.Basic
import Mathlib.Data.Tree.Basic

/-!
Binary search trees that are walked by two tests: whether to go left at a node and whether to
go right. On a tree whose nodes are in order both walks have a meaning on the sequence of the
nodes alone, whatever the shape of the tree.
-/
namespace SearchTree
variable {α : Type}

def inorder : BinaryTree α → List α
  | .nil => []
  | .node a l r => inorder l ++ a :: inorder r

/-- The node where the walk stops, or else the last one it left to the right. -/
def search (left right : α → Bool) : BinaryTree α → Option α → Option α
  | .nil, last => last
  | .node a l r, last =>
    if left a then search left right l last
    else if right a then search left right r (some a)
    else some a

/-- A new node where the walk ends, and nothing if it is stopped at a node. -/
def insert (left right : α → Bool) (x : α) : BinaryTree α → Option (BinaryTree α)
  | .nil => some (.node x .nil .nil)
  | .node a l r =>
    if left a then (insert left right x l).map fun l => .node a l r
    else if right a then (insert left right x r).map fun r => .node a l r
    else none

/-- What keeps a tree in shape: it may turn the tree about as it likes, but not its sequence. -/
structure Shaping (α : Type) where
  balance : BinaryTree α → BinaryTree α
  erase : (α → Bool) → BinaryTree α → BinaryTree α
  balance_keeps : ∀ t, inorder (balance t) = inorder t
  erase_drops : ∀ gone t, inorder (erase gone t) = (inorder t).filter fun a => !gone a

/-- The nodes to the left of a node that is not too far right are too far left. -/
def Directed (left right : α → Bool) (as : List α) : Prop :=
  as.Pairwise fun a b => (left a = true → left b = true) ∧ (left b = false → right a = true)

theorem inorder_map {β : Type} (f : α → β) (t : BinaryTree α) : inorder (t.map f) = (inorder t).map f := by
  induction t with
  | nil => rfl
  | node a l r left_ih right_ih =>
    simp only [BinaryTree.map, inorder, left_ih, right_ih, List.map_append, List.map_cons]

theorem filter_right {left right : α → Bool} {a : α} {bs : List α}
    (directed : Directed left right (a :: bs)) (goes : left a = true) :
    bs.filter (fun b => !left b) = [] := by
  apply List.filter_eq_nil_iff.mpr
  intro b member
  rw [((List.pairwise_cons.mp directed).1 b member).1 goes]
  decide

theorem filter_left {left right : α → Bool} {a : α} {as bs : List α}
    (directed : Directed left right (as ++ a :: bs)) (stays : left a = false) : as.filter left = [] := by
  apply List.filter_eq_nil_iff.mpr
  intro b member goes
  have order := (List.pairwise_append.mp directed).2.2 b member a List.mem_cons_self
  rw [order.1 goes] at stays
  cases stays

theorem filter_sides {left right : α → Bool} {as : List α} (directed : Directed left right as) :
    as.filter (fun a => !left a) ++ as.filter left = as := by
  induction as with
  | nil => rfl
  | cons a as ih =>
    have rest := ih (List.pairwise_cons.mp directed).2
    cases goes : left a with
    | true =>
      have none := filter_right directed goes
      rw [none, List.nil_append] at rest
      simp [goes, none, rest]
    | false => simp [goes, rest]

theorem search_inorder {left right : α → Bool} {t : BinaryTree α} (directed : Directed left right (inorder t))
    (last : Option α) :
    search left right t last = (((inorder t).filter fun a => !left a).getLast?).or last := by
  induction t generalizing last with
  | nil => rfl
  | node a l r left_ih right_ih =>
    obtain ⟨before, here, _⟩ := List.pairwise_append.mp directed
    have after := (List.pairwise_cons.mp here).2
    rw [search, inorder, List.filter_append]
    cases goes : left a with
    | true =>
      rw [if_pos rfl, left_ih before, List.filter_cons, goes, filter_right here goes]
      simp
    | false =>
      rw [if_neg Bool.false_ne_true, List.filter_cons, goes]
      cases passes : right a with
      | true =>
        rw [if_pos rfl, right_ih after]
        cases rest : ((inorder r).filter fun a => !left a).getLast? with
        | none => simp [List.getLast?_append, List.getLast?_cons, rest]
        | some b => simp [List.getLast?_append, List.getLast?_cons, rest]
      | false =>
        have none : (inorder r).filter (fun b => !left b) = [] := by
          apply List.filter_eq_nil_iff.mpr
          intro b member stays
          have order := ((List.pairwise_cons.mp here).1 b member).2 (by simpa using stays)
          rw [order] at passes
          cases passes
        rw [if_neg Bool.false_ne_true, none]
        simp

/-- With every node on one side or the other the new one goes in between. -/
theorem insert_inorder {left right : α → Bool} (x : α) {t : BinaryTree α}
    (directed : Directed left right (inorder t)) (apart : ∀ a ∈ inorder t, left a = true ∨ right a = true) :
    ∃ t', insert left right x t = some t' ∧
      inorder t' = ((inorder t).filter fun a => !left a) ++ x :: (inorder t).filter left := by
  induction t with
  | nil => exact ⟨.node x .nil .nil, rfl, rfl⟩
  | node a l r left_ih right_ih =>
    obtain ⟨before, here, _⟩ := List.pairwise_append.mp directed
    have after := (List.pairwise_cons.mp here).2
    simp only [inorder, List.mem_append, List.mem_cons] at apart
    rw [insert]
    cases goes : left a with
    | true =>
      obtain ⟨l', put, order⟩ := left_ih before fun b member => apart b (Or.inl member)
      have rest := filter_right here goes
      have all : (inorder r).filter left = inorder r := by
        apply List.filter_eq_self.mpr
        intro b member
        exact ((List.pairwise_cons.mp here).1 b member).1 goes
      refine ⟨.node a l' r, by rw [if_pos rfl, put]; rfl, ?_⟩
      simp [inorder, order, goes, rest, all]
    | false =>
      obtain ⟨r', put, order⟩ := right_ih after fun b member => apart b (Or.inr (Or.inr member))
      have passes : right a = true := (apart a (Or.inr (Or.inl rfl))).resolve_left
          (by rw [goes]; exact Bool.false_ne_true)
      have none := filter_left directed goes
      have all : (inorder l).filter (fun b => !left b) = inorder l := by
        apply List.filter_eq_self.mpr
        intro b member
        have stays := List.filter_eq_nil_iff.mp none b member
        simpa using stays
      refine ⟨.node a l r', by rw [if_neg Bool.false_ne_true, if_pos passes, put]; rfl, ?_⟩
      simp [inorder, order, goes, none, all]

def spine : List α → BinaryTree α
  | [] => .nil
  | a :: as => .node a .nil (spine as)

theorem inorder_spine (as : List α) : inorder (spine as) = as := by
  induction as with
  | nil => rfl
  | cons a as ih => rw [spine, inorder, ih]; rfl

def plain (α : Type) : Shaping α where
  balance := id
  erase gone t := spine ((inorder t).filter fun a => !gone a)
  balance_keeps _ := rfl
  erase_drops _ _ := inorder_spine _

end SearchTree
