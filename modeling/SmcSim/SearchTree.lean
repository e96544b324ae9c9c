import Mathlib.Data.List.Basic
import Mathlib.Tactic.Tauto

/-!
# The search tree of the offloaded tree search

The tree of `offload_tree/main.cc`. `check_tree` compares every node with its parent only.
-/

namespace SmcSim.SearchTree
open List

/-- What a node pointer stands for; `null` is the pointer `NULL`. -/
inductive NodeTree
  | null
  | node (key : ℕ) (left right : NodeTree)

namespace NodeTree

def keys : NodeTree → List ℕ
  | null => []
  | node key left right => left.keys ++ key :: right.keys

/-- A binary search tree with distinct keys. -/
def Ordered : NodeTree → Prop
  | null => True
  | node key left right =>
      (∀ k ∈ left.keys, k < key) ∧ (∀ k ∈ right.keys, key < k) ∧ left.Ordered ∧ right.Ordered

/-- The keys below the root. -/
def keysBelow : NodeTree → List ℕ
  | null => []
  | node _ left right => left.keys ++ right.keys

/-- The property of the root, if there is one. -/
def Root (p : ℕ → Prop) : NodeTree → Prop
  | null => True
  | node key _ _ => p key

/-- Every node is on the right side of its parent. -/
def OrderedByParent : NodeTree → Prop
  | null => True
  | node key left right =>
      left.Root (· < key) ∧ right.Root (key < ·) ∧ left.OrderedByParent ∧ right.OrderedByParent

/-- The nodes are on the right side of every node that is at least two levels above them. -/
def OrderedBelow : NodeTree → Prop
  | null => True
  | node key left right =>
      (∀ k ∈ left.keysBelow, k < key) ∧ (∀ k ∈ right.keysBelow, key < k) ∧
        left.OrderedBelow ∧ right.OrderedBelow

theorem ordered_iff_pairwise (t : NodeTree) : t.Ordered ↔ t.keys.Pairwise (· < ·) := by
  induction t with
  | null => simp [Ordered, keys]
  | node key left right ihl ihr =>
    rw [Ordered, keys, ihl, ihr, pairwise_append, pairwise_cons]
    constructor
    · rintro ⟨hleft, hright, hl, hr⟩
      refine ⟨hl, ⟨hright, hr⟩, fun a ha b hb => ?_⟩
      obtain rfl | hb := mem_cons.mp hb
      · exact hleft a ha
      · exact Nat.lt_trans (hleft a ha) (hright b hb)
    · rintro ⟨hl, ⟨hright, hr⟩, hcross⟩
      exact ⟨fun k hk => hcross k hk key mem_cons_self, hright, hl, hr⟩

end NodeTree

open NodeTree

def checkTree : NodeTree → Bool
  | null => false
  | node key left right =>
    let flag := match left with
      | null => true
      | node leftKey _ _ => if leftKey ≥ key then false else checkTree left
    match right with
    | null => flag
    | node rightKey _ _ =>
      let flag := if rightKey ≤ key then false else flag
      if flag then checkTree right else flag

private theorem checkTree_node (key : ℕ) (left right : NodeTree) :
    checkTree (node key left right) = true ↔
      (left.Root (· < key) ∧ (left ≠ null → checkTree left = true)) ∧
        right.Root (key < ·) ∧ (right ≠ null → checkTree right = true) := by
  cases left <;> cases right <;> simp [checkTree, NodeTree.Root]
  grind

theorem orderedByParent_iff_checkTree (t : NodeTree) :
    t.OrderedByParent ↔ (t ≠ null → checkTree t = true) := by
  induction t with
  | null => exact ⟨fun _ hne => absurd rfl hne, fun _ => trivial⟩
  | node key left right ihl ihr =>
    rw [forall_prop_of_true NodeTree.noConfusion, checkTree_node, OrderedByParent, ihl, ihr]
    tauto

/-- The keys of a tree are those of its root and those below. -/
theorem forall_keys_iff (p : ℕ → Prop) (t : NodeTree) :
    (∀ k ∈ t.keys, p k) ↔ t.Root p ∧ ∀ k ∈ t.keysBelow, p k := by
  cases t with
  | null => simp [NodeTree.keys, keysBelow, NodeTree.Root]
  | node key left right =>
    simp only [NodeTree.keys, keysBelow, NodeTree.Root, mem_append, mem_cons]
    grind

theorem ordered_iff (t : NodeTree) : t.Ordered ↔ t.OrderedByParent ∧ t.OrderedBelow := by
  induction t with
  | null => exact (and_self_iff (a := True)).symm
  | node key left right ihl ihr =>
    rw [Ordered, OrderedByParent, OrderedBelow, forall_keys_iff, forall_keys_iff, ihl, ihr]
    tauto

/-- `check_tree` decides whether a tree is a search tree exactly on those with a node on the wrong
side of its parent and on those whose nodes agree with all nodes above their parents. -/
theorem checkTree_iff_ordered_iff (t : NodeTree) (hne : t ≠ null) :
    (checkTree t = true ↔ t.Ordered ∧ t.keys.Nodup) ↔ ¬ t.OrderedByParent ∨ t.OrderedBelow := by
  have hnodup : t.Ordered ∧ t.keys.Nodup ↔ t.Ordered :=
    and_iff_left_of_imp (fun h => ((ordered_iff_pairwise t).mp h).imp Nat.ne_of_lt)
  rw [hnodup, ordered_iff, orderedByParent_iff_checkTree, forall_prop_of_true hne]
  tauto

def threeNodes : NodeTree := node 1 (node 0 null null) (node 2 null null)

theorem checkTree_iff_ordered_threeNodes :
    threeNodes ≠ null ∧
      (checkTree threeNodes = true ↔ threeNodes.Ordered ∧ threeNodes.keys.Nodup) :=
  ⟨nofun, (checkTree_iff_ordered_iff threeNodes nofun).mpr
    (.inr (by simp [threeNodes, OrderedBelow, keysBelow, NodeTree.keys]))⟩

/-- The right child of the left child is larger than the root. -/
theorem checkTree_not_ordered :
    checkTree (node 5 (node 3 null (node 7 null null)) null) = true ∧
      ¬ (node 5 (node 3 null (node 7 null null)) null).Ordered := by
  refine ⟨by decide, fun h => ?_⟩
  exact absurd (h.1 7 (by simp [NodeTree.keys])) (by decide)

end SmcSim.SearchTree
