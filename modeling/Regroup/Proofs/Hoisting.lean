import Mathlib
import Regroup.Proofs.LeafOrder

set_option autoImplicit false

namespace Regroup

section Counts

variable {ν α : Type} (p : α → Bool)

-- The operations on nothing but leaves that pass `p`.
def Tree.pureCount : Tree ν α → Nat
  | .leaf _ => 0
  | .node _ left right =>
      left.pureCount + right.pureCount + if left.leaves.all p && right.leaves.all p then 1 else 0

-- The operations with a leaf below them that passes `p`.
def Tree.touchedCount : Tree ν α → Nat
  | .leaf _ => 0
  | .node _ left right =>
      left.touchedCount + right.touchedCount + if left.leaves.any p || right.leaves.any p then 1 else 0

theorem tree_leaves_pos (t : Tree ν α) : 0 < t.leaves.length := by
  rw [tree_leaves_length]
  exact tree_leaf_count_pos t

theorem touched_or_pure (t : Tree ν α) : t.touchedCount p + t.pureCount (fun s => !p s) = t.nodeCount := by
  induction t with
  | leaf s => rfl
  | node label left right inLeft inRight =>
      have either : (left.leaves.all (fun s => !p s) && right.leaves.all (fun s => !p s)) =
          !(left.leaves.any p || right.leaves.any p) := by
        simp [List.not_any_eq_all_not]
      rw [Tree.touchedCount, Tree.pureCount, Tree.nodeCount, either]
      cases left.leaves.any p || right.leaves.any p <;> simp <;> omega

theorem pure_count_le (t : Tree ν α) : t.pureCount p ≤ t.leaves.countP p - 1 := by
  induction t with
  | leaf s => exact Nat.zero_le _
  | node label left right inLeft inRight =>
      rw [Tree.pureCount, Tree.leaves, List.countP_append]
      by_cases both : (left.leaves.all p && right.leaves.all p) = true
      · obtain ⟨allLeft, allRight⟩ := Bool.and_eq_true_iff.mp both
        have countLeft := List.countP_eq_length.mpr (List.all_eq_true.mp allLeft)
        have countRight := List.countP_eq_length.mpr (List.all_eq_true.mp allRight)
        have someLeft := tree_leaves_pos left
        have someRight := tree_leaves_pos right
        rw [if_pos both]
        omega
      · rw [if_neg both]
        omega

def Tree.Packed (t : Tree ν α) : Prop := t.pureCount p = t.leaves.countP p - 1

theorem packed_mirrored (label : ν) (left right : Tree ν α) (packed : (Tree.node label left right).Packed p) :
    (Tree.node label right left).Packed p := by
  rw [Tree.Packed, Tree.pureCount, Tree.leaves, List.countP_append] at packed ⊢
  rw [Bool.and_comm]
  omega

theorem packed_then (label : ν) (acc operand : Tree ν α) (s : α) (packed : acc.Packed p) (also : operand.Packed p)
    (single : ∀ u ∈ operand.leaves, u = s) (before : ∀ u ∈ acc.leaves, p s = true → p u = true) :
    (Tree.node label acc operand).Packed p := by
  have someAcc := tree_leaves_pos acc
  have someOperand := tree_leaves_pos operand
  rw [Tree.Packed] at packed also ⊢
  rw [Tree.pureCount, Tree.leaves, List.countP_append]
  by_cases passes : p s = true
  · have allAcc : ∀ u ∈ acc.leaves, p u = true := fun u member => before u member passes
    have allOperand : ∀ u ∈ operand.leaves, p u = true := fun u member => single u member ▸ passes
    rw [if_pos (by rw [List.all_eq_true.mpr allAcc, List.all_eq_true.mpr allOperand, Bool.and_self])]
    have countAcc := List.countP_eq_length.mpr allAcc
    have countOperand := List.countP_eq_length.mpr allOperand
    omega
  · have noOperand : ∀ u ∈ operand.leaves, ¬ p u = true := fun u member => single u member ▸ passes
    have countOperand := List.countP_eq_zero.mpr noOperand
    have mixed : ¬ (acc.leaves.all p && operand.leaves.all p) = true := by
      intro both
      have every := List.countP_eq_length.mpr (List.all_eq_true.mp (Bool.and_eq_true_iff.mp both).2)
      omega
    rw [if_neg mixed]
    omega

theorem packed_leaf (s : α) : (Tree.leaf s : Tree ν α).Packed p := by
  cases passes : p s <;> simp [Tree.Packed, Tree.pureCount, Tree.leaves, passes]

theorem packed_double (label : ν) (s : α) : (Tree.node label (.leaf s) (.leaf s)).Packed p := by
  refine packed_then p label _ _ s (packed_leaf p s) (packed_leaf p s) ?_ ?_ <;> simp [Tree.leaves]

end Counts

def Upfront (p : Scalar → Bool) (leaves : List Scalar) : Prop := leaves.Pairwise fun a b => p b = true → p a = true

theorem upfront_before (p : Scalar → Bool) (front : List Scalar) (s : Scalar) (back : List Scalar)
    (upfront : Upfront p (front ++ s :: back)) : ∀ u ∈ front, p s = true → p u = true := fun u member =>
  (List.pairwise_append.mp upfront).2.2 u member s (by simp)

theorem extend_packed (p : Scalar → Bool) (pinned index : Nat) (acc : Shape) (leaves : List Scalar) (g : Grouping)
    (packed : acc.Packed p) (upfront : Upfront p (acc.leaves ++ leaves))
    (made : Grouping.extend pinned index acc leaves = some g) : g.tree.Packed p := by
  -- each turn of the grouping adds an operand of one leaf, once or twice, behind a packed tree
  fun_induction Grouping.extend pinned index acc leaves with
  | case1 => cases made
  | case2 index acc s =>
      cases made
      refine packed_mirrored p () _ _ (packed_then p () acc (.leaf s) s packed (packed_leaf p s) ?_ ?_)
      · simp [Tree.leaves]
      · exact upfront_before p _ s _ upfront
  | case3 index acc s t fused =>
      obtain ⟨_, rfl⟩ := fused
      cases made
      refine packed_mirrored p () _ _ (packed_then p () acc _ s packed (packed_double p () s) ?_ ?_)
      · simp [Tree.leaves]
      · exact upfront_before p _ s _ upfront
  | case4 index acc s t apart =>
      cases made
      have first : (Tree.node () acc (.leaf s)).Packed p :=
        packed_then p () acc (.leaf s) s packed (packed_leaf p s) (by simp [Tree.leaves]) (upfront_before p _ s _ upfront)
      refine packed_mirrored p () _ _ (packed_then p () _ (.leaf t) t first (packed_leaf p t) ?_ ?_)
      · simp [Tree.leaves]
      · exact upfront_before p _ t [] (by simpa [Tree.leaves] using upfront)
  | case5 index acc s t u rest fused ih =>
      obtain ⟨_, rfl⟩ := fused
      refine ih (packed_then p () acc _ s packed (packed_double p () s) ?_ (upfront_before p _ s _ upfront)) ?_ made
      · simp [Tree.leaves]
      · simpa [Tree.leaves] using upfront
  | case6 index acc s t u rest apart ih =>
      refine ih (packed_then p () acc (.leaf s) s packed (packed_leaf p s) ?_ (upfront_before p _ s _ upfront)) ?_ made
      · simp [Tree.leaves]
      · simpa [Tree.leaves] using upfront

theorem grouping_packed (p : Scalar → Bool) (pinned : Nat) (leaves : List Scalar) (g : Grouping)
    (upfront : Upfront p leaves) (made : Grouping.ofLeaves? pinned leaves = some g) : g.tree.Packed p := by
  cases leaves with
  | nil => cases made
  | cons s rest => exact extend_packed p pinned 1 (.leaf s) rest g (packed_leaf p s) upfront made

theorem perm_node_count (t u : Shape) (perm : t.leaves.Perm u.leaves) : t.nodeCount = u.nodeCount := by
  have same := perm.length_eq
  rw [tree_leaves_length, tree_leaves_length, tree_leaf_count, tree_leaf_count] at same
  omega

section Best

variable (p : Scalar → Bool) (pinned : Nat) (leaves : List Scalar) (g : Grouping)
  (made : Grouping.ofLeaves? pinned leaves = some g) (t : Shape) (perm : t.leaves.Perm leaves)
include made perm

theorem grouping_pure_most (upfront : Upfront p leaves) : t.pureCount p ≤ g.tree.pureCount p := by
  have packed := grouping_packed p pinned leaves g upfront made
  have counts := (grouping_tree_leaves pinned leaves g made).countP_eq p
  rw [packed, counts, ← perm.countP_eq]
  exact pure_count_le p t

theorem grouping_touched_least (upfront : Upfront (fun s => !p s) leaves) : g.tree.touchedCount p ≤ t.touchedCount p := by
  have most := grouping_pure_most (fun s => !p s) pinned leaves g made t perm upfront
  have size := perm_node_count t g.tree (perm.trans (grouping_tree_leaves pinned leaves g made).symm)
  have here := touched_or_pure p g.tree
  have there := touched_or_pure p t
  omega

end Best

section Ranks

variable (facts : Facts)

theorem rank_in_order (a b : Scalar) (inOrder : facts.InOrder a b) : facts.rank a ≤ facts.rank b := by
  simp only [Facts.InOrder, Facts.sortKey, lex_cons, Bool.or_eq_true, Bool.and_eq_true, decide_eq_true_eq] at inOrder
  omega

theorem rank_le (s : Scalar) : facts.rank s ≤ 2 := by
  rw [Facts.rank]
  cases facts.ranks.getD s.value .divergent <;> decide

variable (leaves : List Scalar) (sorted : leaves.Pairwise facts.InOrder)
include sorted

theorem constants_upfront : Upfront (fun s => facts.rank s = 0) leaves := by
  refine sorted.imp fun {a b} inOrder passes => ?_
  have le := rank_in_order facts a b inOrder
  simp only [decide_eq_true_eq] at passes ⊢
  omega

theorem convergent_upfront : Upfront (fun s => !decide (facts.rank s = 2)) leaves := by
  refine sorted.imp fun {a b} inOrder passes => ?_
  have le := rank_in_order facts a b inOrder
  have bound := rank_le facts b
  simp only [Bool.not_eq_true', decide_eq_false_iff_not] at passes ⊢
  omega

end Ranks

theorem rank_order_cheapest (c : Chain) (facts : Facts) (table : Option PairTable) (arrangement : Arrangement)
    (arranged : c.arrange? facts table = some arrangement) (unpinned : arrangement.pinnedCount = 0) (long : 2 ≤ c.length) :
    ∃ g, Grouping.ofLeaves? arrangement.pinnedCount arrangement.leaves = some g ∧ g.tree.leaves.Perm c.leaves ∧
      (∀ t : Shape, t.leaves.Perm c.leaves →
        g.tree.touchedCount (facts.rank · = 2) ≤ t.touchedCount (facts.rank · = 2) ∧
          t.pureCount (facts.rank · = 0) ≤ g.tree.pureCount (facts.rank · = 0)) ∧
      ∀ (kept : Nat) (other : Grouping), Grouping.ofLeaves? kept arrangement.leaves = some other →
        other.tree.touchedCount (facts.rank · = 2) = g.tree.touchedCount (facts.rank · = 2) ∧
          other.tree.pureCount (facts.rank · = 0) = g.tree.pureCount (facts.rank · = 0) := by
  obtain ⟨perm, ⟨_, _, _, sorted⟩ | ⟨two, _⟩⟩ := arrange_arranged c facts table arrangement arranged
  · have best (pinned : Nat) (g : Grouping) (made : Grouping.ofLeaves? pinned arrangement.leaves = some g) (t : Shape)
        (alike : t.leaves.Perm arrangement.leaves) :
        g.tree.touchedCount (facts.rank · = 2) ≤ t.touchedCount (facts.rank · = 2) ∧
          t.pureCount (facts.rank · = 0) ≤ g.tree.pureCount (facts.rank · = 0) :=
      ⟨grouping_touched_least _ pinned _ g made t alike (convergent_upfront facts _ sorted),
        grouping_pure_most _ pinned _ g made t alike (constants_upfront facts _ sorted)⟩
    have enough : 2 ≤ arrangement.leaves.length := by
      rw [perm.length_eq]
      exact long
    obtain ⟨g, made⟩ := grouping_exists arrangement.pinnedCount arrangement.leaves enough
    have whole := grouping_tree_leaves _ _ g made
    refine ⟨g, made, whole.trans perm, fun t alike => best _ g made t (alike.trans perm.symm), fun kept other also => ?_⟩
    obtain ⟨least, most⟩ := best _ g made other.tree (grouping_tree_leaves kept _ other also)
    obtain ⟨leastToo, mostToo⟩ := best kept other also g.tree whole
    exact ⟨Nat.le_antisymm leastToo least, Nat.le_antisymm most mostToo⟩
  · omega

def doubledSum : Func where
  name := "doubled"
  blocks :=
    [⟨0, [.const 0 [.int 1], .input 1 0 1 false, .input 2 1 1 true, .arith (Arith.plain 3 .iadd (.of 2) (.of 1)),
        .arith (Arith.plain 4 .iadd (.of 3) (.of 0)), .arith (Arith.plain 5 .iadd (.of 4) (.of 2)),
        .arith (Arith.plain 6 .iadd (.of 5) (.of 1)), .arith (Arith.plain 7 .iadd (.of 6) (.of 0))], .ret (some (.of 7))⟩]
  next := 8
  divergence := some #[false, false, true, true, true, true, true, true]

def doubledChain : Chain where
  root := ⟨0, 7⟩
  op := .iadd
  leaves := [.of 2, .of 1, .of 0, .of 2, .of 1, .of 0]
  exact := false
  fastMath := 0
  policy := ⟨false, true⟩

def doubledTree : Shape :=
  .node () (.node () (.leaf (.of 2)) (.leaf (.of 2)))
    (.node () (.node () (.leaf (.of 0)) (.leaf (.of 0))) (.node () (.leaf (.of 1)) (.leaf (.of 1))))

theorem doubled_chain_cheapest :
    doubledChain.arrange? doubledSum.facts none = some ⟨[.of 0, .of 0, .of 1, .of 1, .of 2, .of 2], none⟩ ∧
    ∃ g, Grouping.ofLeaves? 0 [.of 0, .of 0, .of 1, .of 1, .of 2, .of 2] = some g ∧ g.tree = doubledTree ∧
      ∀ t : Shape, t.leaves.Perm doubledChain.leaves →
        2 ≤ t.touchedCount (doubledSum.facts.rank · = 2) ∧ t.pureCount (doubledSum.facts.rank · = 0) ≤ 1 := by
  have arranged : doubledChain.arrange? doubledSum.facts none =
      some ⟨[.of 0, .of 0, .of 1, .of 1, .of 2, .of 2], none⟩ := by decide +kernel
  have touched : doubledTree.touchedCount (doubledSum.facts.rank · = 2) = 2 := by decide +kernel
  have constants : doubledTree.pureCount (doubledSum.facts.rank · = 0) = 1 := by decide +kernel
  obtain ⟨g, made, _, best, _⟩ := rank_order_cheapest doubledChain doubledSum.facts none _ arranged rfl (by decide)
  have shape : g.tree = doubledTree := by
    cases made
    rfl
  rw [shape, touched, constants] at best
  exact ⟨arranged, g, made, shape, best⟩

end Regroup
