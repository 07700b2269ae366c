set_option autoImplicit false

namespace Regroup

inductive Tree (ν α : Type) where
  | leaf (item : α)
  | node (label : ν) (left right : Tree ν α)
deriving DecidableEq, Repr

variable {ν α : Type}

def Tree.leaves : Tree ν α → List α
  | .leaf item => [item]
  | .node _ left right => left.leaves ++ right.leaves

def Tree.labels : Tree ν α → List ν
  | .leaf _ => []
  | .node label left right => label :: (left.labels ++ right.labels)

def Tree.leafCount : Tree ν α → Nat
  | .leaf _ => 1
  | .node _ left right => left.leafCount + right.leafCount

def Tree.nodeCount : Tree ν α → Nat
  | .leaf _ => 0
  | .node _ left right => left.nodeCount + right.nodeCount + 1

theorem tree_leaves_length (t : Tree ν α) : t.leaves.length = t.leafCount := by
  induction t with
  | leaf item => rfl
  | node label left right leftLength rightLength =>
      simp [Tree.leaves, Tree.leafCount, leftLength, rightLength]

theorem tree_labels_length (t : Tree ν α) : t.labels.length = t.nodeCount := by
  induction t with
  | leaf item => rfl
  | node label left right leftLength rightLength =>
      simp [Tree.labels, Tree.nodeCount, leftLength, rightLength]

theorem tree_leaf_count (t : Tree ν α) : t.leafCount = t.nodeCount + 1 := by
  induction t with
  | leaf item => rfl
  | node label left right leftCount rightCount =>
      simp only [Tree.leafCount, Tree.nodeCount, leftCount, rightCount]
      omega

theorem tree_leaf_count_pos (t : Tree ν α) : 0 < t.leafCount := by
  rw [tree_leaf_count]
  exact Nat.succ_pos _

end Regroup
