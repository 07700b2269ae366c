import Mathlib
import Regroup.Chain.Grouping

set_option autoImplicit false

namespace Regroup

def Grouping.leaves (g : Grouping) : List Scalar := g.rest.leaves ++ g.last.leaves

theorem extend_leaves (pinned index : Nat) (acc : Shape) (leaves : List Scalar) (g : Grouping)
    (made : Grouping.extend pinned index acc leaves = some g) : g.leaves = acc.leaves ++ leaves := by
  fun_induction Grouping.extend pinned index acc leaves with
  | case1 => cases made
  | case2 => cases made; rfl
  | case3 index acc s t fused => cases made; simp [Grouping.leaves, Tree.leaves]
  | case4 index acc s t apart => cases made; simp [Grouping.leaves, Tree.leaves]
  | case5 index acc s t u rest fused ih => simpa [Tree.leaves] using ih made
  | case6 index acc s t u rest apart ih => simpa [Tree.leaves] using ih made

theorem grouping_leaves (pinned : Nat) (leaves : List Scalar) (g : Grouping)
    (made : Grouping.ofLeaves? pinned leaves = some g) : g.leaves = leaves := by
  cases leaves with
  | nil => cases made
  | cons s rest => simpa [Tree.leaves] using extend_leaves pinned 1 (.leaf s) rest g made

theorem extend_exists (pinned index : Nat) (acc : Shape) (leaves : List Scalar) (some_leaf : leaves ≠ []) :
    ∃ g, Grouping.extend pinned index acc leaves = some g := by
  fun_induction Grouping.extend pinned index acc leaves with
  | case1 => exact absurd rfl some_leaf
  | case2 => exact ⟨_, rfl⟩
  | case3 => exact ⟨_, rfl⟩
  | case4 => exact ⟨_, rfl⟩
  | case5 index acc s t u rest fused ih => exact ih (by simp)
  | case6 index acc s t u rest apart ih => exact ih (by simp)

theorem grouping_exists (pinned : Nat) (leaves : List Scalar) (enough : 2 ≤ leaves.length) :
    ∃ g, Grouping.ofLeaves? pinned leaves = some g := by
  cases leaves with
  | nil => simp at enough
  | cons s rest => exact extend_exists pinned 1 (.leaf s) rest (by rintro rfl; simp at enough)

theorem grouping_node_count (g : Grouping) : g.nodeCount + 2 = g.leaves.length := by
  simp only [Grouping.nodeCount, Grouping.leaves, List.length_append, tree_leaves_length, tree_leaf_count]
  omega

theorem grouping_none_iff (pinned : Nat) (leaves : List Scalar) :
    Grouping.ofLeaves? pinned leaves = none ↔ leaves.length < 2 := by
  constructor
  · intro nothing
    by_contra enough
    obtain ⟨g, made⟩ := grouping_exists pinned leaves (Nat.le_of_not_lt enough)
    rw [nothing] at made
    cases made
  · intro few
    cases found : Grouping.ofLeaves? pinned leaves with
    | none => rfl
    | some g =>
        have counted := grouping_node_count g
        rw [grouping_leaves pinned leaves g found] at counted
        omega

inductive Part where
  | leaf (item : Scalar)
  | node (number : Nat)
deriving DecidableEq, Repr

def Part.leaf? : Part → Option Scalar
  | .leaf item => some item
  | .node _ => none

def Part.scalar (base : Nat) : Part → Scalar
  | .leaf item => item
  | .node number => .of (base + number)

def Part.Before (leaves : List Scalar) (bound : Nat) : Part → Prop
  | .leaf item => item ∈ leaves
  | .node number => number < bound

structure Combination where
  lhs : Part
  rhs : Part
deriving DecidableEq, Repr

def Combination.parts (n : Combination) : List Part := [n.lhs, n.rhs]

structure Plan where
  nodes : List Combination
  root : Combination
deriving DecidableEq, Repr

def Plan.parts (p : Plan) : List Part := p.nodes.flatMap Combination.parts ++ p.root.parts

def Plan.code (p : Plan) (c : Chain) (base : Nat) : List Inst :=
  p.nodes.mapIdx fun k n => c.step (base + k) (n.lhs.scalar base) (n.rhs.scalar base)

structure Plan.Linear (p : Plan) (leaves : List Scalar) : Prop where
  size : p.nodes.length = leaves.length - 2
  nodes : ∀ (k : Nat) (n : Combination), p.nodes[k]? = some n → ∀ part ∈ n.parts, part.Before leaves k
  root : ∀ part ∈ p.root.parts, part.Before leaves p.nodes.length
  once : ∀ k < p.nodes.length, ((p.nodes.drop (k + 1)).flatMap Combination.parts ++ p.root.parts).count (.node k) = 1
  leaves : (p.parts.filterMap Part.leaf?).Perm leaves

def Backward (first : Nat) (nodes : List Combination) : Prop :=
  ∀ k n, nodes[k]? = some n → ∀ j, .node j ∈ n.parts → j < first + k

theorem backward_append (first : Nat) (xs ys : List Combination) (lower : Backward first xs)
    (upper : Backward (first + xs.length) ys) : Backward first (xs ++ ys) := by
  intro k n found j member
  by_cases inside : k < xs.length
  · rw [List.getElem?_append_left inside] at found
    exact lower k n found j member
  · rw [List.getElem?_append_right (Nat.le_of_not_lt inside)] at found
    have earlier := upper (k - xs.length) n found j member
    omega

theorem linear_of_parts (p : Plan) (leaves : List Scalar) (size : p.nodes.length = leaves.length - 2)
    (backward : Backward 0 p.nodes)
    (parts : p.parts.Perm (leaves.map Part.leaf ++ (List.range p.nodes.length).map Part.node)) : p.Linear leaves := by
  have listed (part : Part) (member : part ∈ p.parts) : part.Before leaves p.nodes.length := by
    have known := parts.mem_iff.mp member
    simp only [List.mem_append, List.mem_map, List.mem_range] at known
    obtain ⟨s, leaf, rfl⟩ | ⟨k, less, rfl⟩ := known
    · exact leaf
    · exact less
  have total (k : Nat) (less : k < p.nodes.length) : p.parts.count (.node k) = 1 := by
    have injective : Function.Injective Part.node := fun _ _ => Part.node.inj
    rw [parts.count_eq, List.count_append, List.count_map_of_injective _ _ injective,
      List.count_eq_one_of_mem List.nodup_range (List.mem_range.mpr less), List.count_eq_zero.mpr (by simp)]
  refine ⟨size, ?_, fun part member => listed part (List.mem_append_right _ member), ?_, ?_⟩
  · intro k n found part member
    have inside := listed part (List.mem_append_left _ (List.mem_flatMap.mpr ⟨n, List.mem_of_getElem? found, member⟩))
    cases part with
    | leaf s => exact inside
    | node j =>
        have earlier := backward k n found j member
        rwa [Nat.zero_add] at earlier
  · intro k less
    -- Up to the operation itself nothing can read it.
    have unread : ((p.nodes.take (k + 1)).flatMap Combination.parts).count (.node k) = 0 := by
      rw [List.count_eq_zero, List.mem_flatMap]
      rintro ⟨n, early, member⟩
      obtain ⟨i, found⟩ := List.mem_iff_getElem?.mp early
      have bound := (List.getElem?_eq_some_iff.mp found).1
      rw [List.length_take] at bound
      rw [List.getElem?_take_of_lt (by omega)] at found
      have earlier := backward i n found k member
      omega
    have count := total k less
    rw [Plan.parts, ← List.take_append_drop (k + 1) p.nodes, List.flatMap_append, List.append_assoc, List.count_append,
      unread, Nat.zero_add] at count
    exact count
  · have kept := parts.filterMap Part.leaf?
    simp only [List.filterMap_append, List.filterMap_map] at kept
    have numbers : List.filterMap (Part.leaf? ∘ Part.node) (List.range p.nodes.length) = [] := by
      simp [Part.leaf?]
    have same : List.filterMap (Part.leaf? ∘ Part.leaf) leaves = leaves := List.filterMap_some
    rwa [numbers, same, List.append_nil] at kept

-- The operations of a shape, numbered from `first` on with operands before the operation, and where its result is.

def Shape.part (first : Nat) : Shape → Part
  | .leaf s => .leaf s
  | .node _ left right => .node (first + left.nodeCount + right.nodeCount)

def Shape.nodes (first : Nat) : Shape → List Combination
  | .leaf _ => []
  | .node _ left right =>
      let middle := first + left.nodeCount
      Shape.nodes first left ++ Shape.nodes middle right ++ [⟨Shape.part first left, Shape.part middle right⟩]

theorem shape_nodes_length (first : Nat) (t : Shape) : (Shape.nodes first t).length = t.nodeCount := by
  induction t generalizing first with
  | leaf s => rfl
  | node label left right leftLength rightLength =>
      simp [Shape.nodes, Tree.nodeCount, leftLength, rightLength, Nat.add_assoc]

theorem shape_part_lt (first : Nat) (t : Shape) (j : Nat) (numbered : Shape.part first t = .node j) :
    j < first + t.nodeCount := by
  cases t with
  | leaf s => cases numbered
  | node label left right =>
      cases numbered
      rw [Tree.nodeCount]
      omega

theorem shape_backward (first : Nat) (t : Shape) : Backward first (Shape.nodes first t) := by
  induction t generalizing first with
  | leaf s =>
      intro k n found
      simp [Shape.nodes] at found
  | node label left right lower upper =>
      have operands : Backward first (Shape.nodes first left ++ Shape.nodes (first + left.nodeCount) right) :=
        backward_append first _ _ (lower first) (by rw [shape_nodes_length]; exact upper _)
      apply backward_append first _ _ operands
      intro k n found j member
      rw [List.length_append, shape_nodes_length, shape_nodes_length]
      obtain ⟨_, rfl⟩ := List.mem_singleton.mp (List.mem_of_getElem? found)
      simp only [Combination.parts, List.mem_cons, List.not_mem_nil, or_false] at member
      cases member with
      | inl isLeft =>
          have less := shape_part_lt first left j isLeft.symm
          omega
      | inr isRight =>
          have less := shape_part_lt (first + left.nodeCount) right j isRight.symm
          omega

theorem shape_parts_perm (first : Nat) (t : Shape) :
    ((Shape.nodes first t).flatMap Combination.parts ++ [Shape.part first t]).Perm
      (t.leaves.map Part.leaf ++ (List.range' first t.nodeCount).map Part.node) := by
  induction t generalizing first with
  | leaf s => exact List.Perm.refl _
  | node label left right lower upper =>
      have inLeft := List.perm_iff_count.mp (lower first)
      have inRight := List.perm_iff_count.mp (upper (first + left.nodeCount))
      have numbers : List.range' first (left.nodeCount + right.nodeCount + 1) = List.range' first left.nodeCount ++
          List.range' (first + left.nodeCount) right.nodeCount ++ [first + left.nodeCount + right.nodeCount] := by
        rw [List.range'_append_1, List.range'_1_concat, Nat.add_assoc]
      rw [List.perm_iff_count]
      intro part
      have countL := inLeft part
      have countR := inRight part
      simp only [Shape.nodes, Shape.part, Tree.leaves, Tree.nodeCount, numbers, List.flatMap_append, List.map_append,
        List.count_append, List.flatMap_cons, List.flatMap_nil, Combination.parts, List.map_cons, List.map_nil,
        List.append_nil, List.count_cons, List.count_nil] at countL countR ⊢
      omega

def Grouping.plan (g : Grouping) : Plan where
  nodes := Shape.nodes 0 g.rest ++ Shape.nodes g.rest.nodeCount g.last
  root := ⟨Shape.part g.rest.nodeCount g.last, Shape.part 0 g.rest⟩

section Plan

variable (g : Grouping)

theorem plan_length : g.plan.nodes.length = g.nodeCount := by
  simp [Grouping.plan, Grouping.nodeCount, shape_nodes_length]

theorem plan_backward : Backward 0 g.plan.nodes := by
  apply backward_append 0 _ _ (shape_backward 0 g.rest)
  rw [shape_nodes_length, Nat.zero_add]
  exact shape_backward g.rest.nodeCount g.last

theorem plan_parts_perm :
    g.plan.parts.Perm (g.leaves.map Part.leaf ++ (List.range g.nodeCount).map Part.node) := by
  have inRest := List.perm_iff_count.mp (shape_parts_perm 0 g.rest)
  have inLast := List.perm_iff_count.mp (shape_parts_perm g.rest.nodeCount g.last)
  have numbers : List.range (g.rest.nodeCount + g.last.nodeCount) =
      List.range' 0 g.rest.nodeCount ++ List.range' g.rest.nodeCount g.last.nodeCount := by
    rw [List.range_eq_range', ← List.range'_append_1, Nat.zero_add]
  rw [List.perm_iff_count]
  intro part
  have countR := inRest part
  have countL := inLast part
  simp only [Plan.parts, Grouping.plan, Grouping.leaves, Grouping.nodeCount, numbers, List.flatMap_append, List.map_append,
    List.count_append, Combination.parts, List.count_cons, List.count_nil] at countR countL ⊢
  omega

theorem plan_linear : g.plan.Linear g.leaves := by
  have counted := grouping_node_count g
  apply linear_of_parts g.plan g.leaves
  · rw [plan_length]
    omega
  · exact plan_backward g
  · rw [plan_length]
    exact plan_parts_perm g

end Plan

theorem shape_result_part (base first : Nat) (t : Shape) :
    Shape.result (base + first) t = (Shape.part first t).scalar base := by
  cases t with
  | leaf s => rfl
  | node label left right => simp only [Shape.result, Shape.part, Part.scalar, Nat.add_assoc]

theorem shape_code_nodes (c : Chain) (base first : Nat) (t : Shape) :
    Shape.code c (base + first) t = (Shape.nodes first t).mapIdx fun k n =>
      c.step (base + first + k) (n.lhs.scalar base) (n.rhs.scalar base) := by
  induction t generalizing first with
  | leaf s => rfl
  | node label left right lower upper =>
      have later := upper (first + left.nodeCount)
      have top := shape_result_part base (first + left.nodeCount) right
      rw [← Nat.add_assoc] at later top
      simp only [Shape.code, Shape.nodes, List.mapIdx_append, List.mapIdx_cons, List.mapIdx_nil, List.length_append,
        shape_nodes_length, lower first, later, top, shape_result_part base first left, Nat.zero_add]
      simp only [Nat.add_assoc, Nat.add_comm, Nat.add_left_comm]

theorem grouping_lhs_plan (g : Grouping) (base : Nat) : g.lhs base = g.plan.root.lhs.scalar base :=
  shape_result_part base g.rest.nodeCount g.last

theorem grouping_rhs_plan (g : Grouping) (base : Nat) : g.rhs base = g.plan.root.rhs.scalar base :=
  shape_result_part base 0 g.rest

theorem grouping_code_plan (g : Grouping) (c : Chain) (base : Nat) : g.code c base = g.plan.code c base := by
  have first := shape_code_nodes c base 0 g.rest
  have second := shape_code_nodes c base g.rest.nodeCount g.last
  have numbered (k : Nat) : base + g.rest.nodeCount + k = base + (k + g.rest.nodeCount) := by omega
  rw [Nat.add_zero] at first
  rw [Grouping.code, first, second, Plan.code, Grouping.plan, List.mapIdx_append, shape_nodes_length]
  simp only [numbered]

-- A plan in the making. The leaves from `index` on are still to come, and `acc` is what the others come to.
structure Scan where
  index : Nat
  nodes : List Combination
  acc : Part
  last : Option Part
deriving DecidableEq, Repr

def Scan.emit (s : Scan) (n : Combination) : Scan := { s with nodes := s.nodes ++ [n] }

def Scan.newest (s : Scan) : Part := .node (s.nodes.length - 1)

def Scan.operand (pinned : Nat) (leaves : List Scalar) (s : Scan) (leaf : Scalar) : Scan × Part :=
  if pinned ≤ s.index ∧ leaves[s.index + 1]? = some leaf then
    let doubled := s.emit ⟨.leaf leaf, .leaf leaf⟩
    ({ doubled with index := s.index + 1 }, doubled.newest)
  else (s, .leaf leaf)

def Scan.accept (leaves : List Scalar) (s : Scan) (part : Part) : Scan :=
  if s.index + 1 < leaves.length then
    let combined := s.emit ⟨s.acc, part⟩
    { combined with index := s.index + 1, acc := combined.newest }
  else { s with index := s.index + 1, last := some part }

def Scan.step (pinned : Nat) (leaves : List Scalar) (s : Scan) (leaf : Scalar) : Scan :=
  (s.operand pinned leaves leaf).1.accept leaves (s.operand pinned leaves leaf).2

theorem scan_advances (pinned : Nat) (leaves : List Scalar) (s : Scan) (leaf : Scalar) :
    s.index < (s.step pinned leaves leaf).index := by
  have later (t : Scan) (part : Part) : (t.accept leaves part).index = t.index + 1 := by
    rw [Scan.accept]
    split <;> rfl
  rw [Scan.step, later, Scan.operand]
  split
  · exact Nat.lt_succ_of_lt (Nat.lt_add_one _)
  · exact Nat.lt_add_one _

def Scan.run (pinned : Nat) (leaves : List Scalar) (s : Scan) : Scan :=
  if more : s.index < leaves.length then (s.step pinned leaves leaves[s.index]).run pinned leaves else s
termination_by leaves.length - s.index
decreasing_by exact Nat.sub_lt_sub_left more (scan_advances pinned leaves s _)

def Scan.plan? (s : Scan) : Option Plan := s.last.map fun last => ⟨s.nodes, ⟨last, s.acc⟩⟩

def Plan.ofLeaves? (pinned : Nat) : List Scalar → Option Plan
  | [] => none
  | s :: rest => (Scan.run pinned (s :: rest) ⟨1, [], .leaf s, none⟩).plan?

-- Where the scan stands with a shape accumulated, and with a grouping whose last operand it holds.

def Shape.scan (acc : Shape) (index : Nat) : Scan := ⟨index, Shape.nodes 0 acc, Shape.part 0 acc, none⟩

def Grouping.scan (g : Grouping) (index : Nat) (last : Option Part) : Scan := ⟨index, g.plan.nodes, g.plan.root.rhs, last⟩

section Loop

variable (pinned : Nat) (leaves : List Scalar)

theorem scan_accepted (g : Grouping) (index : Nat) :
    (g.scan index none).accept leaves g.plan.root.lhs =
      if leaves.drop (index + 1) = [] then g.scan (index + 1) (some g.plan.root.lhs)
      else Shape.scan (.node () g.rest g.last) (index + 1) := by
  by_cases done : leaves.length ≤ index + 1
  · rw [if_pos (List.drop_eq_nil_of_le done), Scan.accept, Grouping.scan, if_neg (Nat.not_lt.mpr done)]
    rfl
  · rw [if_neg (mt List.drop_eq_nil_iff.mp done), Scan.accept, Grouping.scan, if_pos (Nat.lt_of_not_le done)]
    simp [Scan.emit, Scan.newest, Shape.scan, Grouping.plan, Shape.nodes, Shape.part, shape_nodes_length]

theorem scan_over (s : Scan) (done : leaves.drop s.index = []) : s.run pinned leaves = s := by
  rw [Scan.run, dif_neg (Nat.not_lt.mpr (List.drop_eq_nil_iff.mp done))]

-- One turn of the loop, the operand that it takes being the last of a grouping.
theorem scan_turn (g : Grouping) (place index : Nat) (leaf : Scalar) (here : leaves[place]? = some leaf)
    (taken : (Shape.scan g.rest place).operand pinned leaves leaf = (g.scan index none, g.plan.root.lhs)) :
    ((Shape.scan g.rest place).run pinned leaves).plan? =
      if leaves.drop (index + 1) = [] then some g.plan
      else ((Shape.scan (.node () g.rest g.last) (index + 1)).run pinned leaves).plan? := by
  obtain ⟨inside, rfl⟩ := List.getElem?_eq_some_iff.mp here
  have turned : (Shape.scan g.rest place).run pinned leaves =
      ((g.scan index none).accept leaves g.plan.root.lhs).run pinned leaves := by
    rw [Scan.run, dif_pos (show (Shape.scan g.rest place).index < leaves.length from inside), Scan.step]
    exact congrArg (fun t : Scan × Part => (t.1.accept leaves t.2).run pinned leaves) taken
  rw [turned, scan_accepted]
  split
  · next done =>
      rw [scan_over pinned leaves _ done]
      rfl
  · rfl

variable (acc : Shape) (index : Nat) (rest : List Scalar) (left : leaves.drop index = rest)
include left

theorem left_at (k : Nat) : leaves[index + k]? = rest[k]? := by rw [← left, List.getElem?_drop]

theorem left_after (k : Nat) : leaves.drop (index + k) = rest.drop k := by rw [← left, List.drop_drop]

theorem scan_single (s : Scalar) (here : rest[0]? = some s) (apart : ¬ (pinned ≤ index ∧ rest[1]? = some s)) :
    ((Shape.scan acc index).run pinned leaves).plan? =
      if rest.drop 1 = [] then some (Grouping.plan ⟨.leaf s, acc⟩)
      else ((Shape.scan (.node () acc (.leaf s)) (index + 1)).run pinned leaves).plan? := by
  rw [← left_at leaves index rest left] at here apart
  rw [← left_after leaves index rest left]
  refine scan_turn pinned leaves ⟨.leaf s, acc⟩ index index s here ?_
  simp [Scan.operand, Shape.scan, if_neg apart, Grouping.scan, Grouping.plan, Shape.nodes, Shape.part]

theorem scan_doubled (s : Scalar) (here : rest[0]? = some s) (alike : pinned ≤ index ∧ rest[1]? = some s) :
    ((Shape.scan acc index).run pinned leaves).plan? =
      if rest.drop 2 = [] then some (Grouping.plan ⟨.node () (.leaf s) (.leaf s), acc⟩)
      else ((Shape.scan (.node () acc (.node () (.leaf s) (.leaf s))) (index + 2)).run pinned leaves).plan? := by
  rw [← left_at leaves index rest left] at here alike
  rw [← left_after leaves index rest left]
  refine scan_turn pinned leaves ⟨.node () (.leaf s) (.leaf s), acc⟩ index (index + 1) s here ?_
  simp [Scan.operand, Shape.scan, if_pos alike, Scan.emit, Scan.newest, Grouping.scan, Grouping.plan, Shape.nodes,
    Shape.part, shape_nodes_length, Tree.nodeCount]

theorem scan_run :
    ((Shape.scan acc index).run pinned leaves).plan? = (Grouping.extend pinned index acc rest).map Grouping.plan := by
  -- two different leaves at the end are one step of the recursion and two turns of the loop
  fun_induction Grouping.extend pinned index acc rest with
  | case1 index acc =>
      rw [scan_over pinned leaves _ left]
      rfl
  | case2 index acc s => exact scan_single pinned leaves acc index [s] left s rfl (by simp)
  | case3 index acc s t fused =>
      obtain ⟨free, rfl⟩ := fused
      exact scan_doubled pinned leaves acc index [s, s] left s rfl ⟨free, rfl⟩
  | case4 index acc s t apart =>
      rw [scan_single pinned leaves acc index [s, t] left s rfl (by simpa [eq_comm] using apart)]
      exact scan_single pinned leaves _ (index + 1) [t] (left_after leaves index _ left 1) t rfl (by simp)
  | case5 index acc s t u rest fused ih =>
      obtain ⟨free, rfl⟩ := fused
      rw [scan_doubled pinned leaves acc index _ left s rfl ⟨free, rfl⟩]
      exact ih (left_after leaves index _ left 2)
  | case6 index acc s t u rest apart ih =>
      rw [scan_single pinned leaves acc index _ left s rfl (by simpa [eq_comm] using apart)]
      exact ih (left_after leaves index _ left 1)

end Loop

theorem plan_scanned (pinned : Nat) (leaves : List Scalar) :
    Plan.ofLeaves? pinned leaves = (Grouping.ofLeaves? pinned leaves).map Grouping.plan := by
  cases leaves with
  | nil => rfl
  | cons s rest => exact scan_run pinned (s :: rest) (.leaf s) 1 rest rfl

section Pinned

variable (first : Combination)

theorem nodes_head (number : Nat) (left right : Shape) (there : (Shape.nodes number left).head? = some first) :
    (Shape.nodes number (.node () left right)).head? = some first := by
  simp [Shape.nodes, there]

theorem extend_head (pinned index : Nat) (acc : Shape) (leaves : List Scalar) (g : Grouping)
    (there : (Shape.nodes 0 acc).head? = some first) (made : Grouping.extend pinned index acc leaves = some g) :
    (Shape.nodes 0 g.rest).head? = some first := by
  fun_induction Grouping.extend pinned index acc leaves with
  | case1 => cases made
  | case2 =>
      cases made
      exact there
  | case3 =>
      cases made
      exact there
  | case4 =>
      cases made
      exact nodes_head first 0 _ _ there
  | case5 index acc s t u rest fused ih => exact ih (nodes_head first 0 acc _ there) made
  | case6 index acc s t u rest apart ih => exact ih (nodes_head first 0 acc _ there) made

end Pinned

theorem pinned_head (s t u : Scalar) (rest : List Scalar) (g : Grouping)
    (made : Grouping.ofLeaves? 2 (s :: t :: u :: rest) = some g) :
    g.plan.nodes[0]? = some ⟨.leaf s, .leaf t⟩ := by
  have pair : (Shape.nodes 0 (.node () (.leaf s) (.leaf t))).head? = some ⟨.leaf s, .leaf t⟩ := rfl
  have inRest : (Shape.nodes 0 g.rest).head? = some ⟨.leaf s, .leaf t⟩ := by
    cases rest with
    | nil =>
        cases made
        exact pair
    | cons v rest => exact extend_head _ 2 2 _ _ g pair made
  rw [← List.head?_eq_getElem?, Grouping.plan]
  simp [inRest]

theorem grouping_plan_linear (pinned : Nat) (leaves : List Scalar) :
    Plan.ofLeaves? pinned leaves = (Grouping.ofLeaves? pinned leaves).map Grouping.plan ∧
    (Grouping.ofLeaves? pinned leaves = none ↔ leaves.length < 2) ∧
    ∀ g, Grouping.ofLeaves? pinned leaves = some g →
      g.plan.Linear leaves ∧
      (pinned = 2 → ∀ s t u rest, leaves = s :: t :: u :: rest → g.plan.nodes[0]? = some ⟨.leaf s, .leaf t⟩) ∧
      ∀ c base, g.code c base = g.plan.code c base ∧ g.lhs base = g.plan.root.lhs.scalar base ∧
        g.rhs base = g.plan.root.rhs.scalar base := by
  refine ⟨plan_scanned pinned leaves, grouping_none_iff pinned leaves, ?_⟩
  intro g made
  refine ⟨?_, ?_, fun c base => ⟨grouping_code_plan g c base, grouping_lhs_plan g base, grouping_rhs_plan g base⟩⟩
  · have linear := plan_linear g
    rwa [grouping_leaves pinned leaves g made] at linear
  · rintro rfl s t u rest rfl
    exact pinned_head s t u rest g made

-- A run of equal leaves that starts in the pinned pair, and another one at the end.
def pinnedRun : List Scalar := [.of 1, .of 2, .of 2, .of 2, .of 3, .of 4, .of 4]

def pinnedRunGrouping : Grouping where
  last := .node () (.leaf (.of 4)) (.leaf (.of 4))
  rest := .node () (.node () (.node () (.leaf (.of 1)) (.leaf (.of 2))) (.node () (.leaf (.of 2)) (.leaf (.of 2))))
    (.leaf (.of 3))

theorem pinned_run_linear : Grouping.ofLeaves? 2 pinnedRun = some pinnedRunGrouping ∧
    Plan.ofLeaves? 2 pinnedRun = some pinnedRunGrouping.plan ∧ pinnedRunGrouping.plan.Linear pinnedRun ∧
    pinnedRunGrouping.plan.nodes[0]? = some ⟨.leaf (.of 1), .leaf (.of 2)⟩ ∧
    pinnedRunGrouping.plan.root = ⟨.node 4, .node 3⟩ := by
  have made : Grouping.ofLeaves? 2 pinnedRun = some pinnedRunGrouping := by decide
  obtain ⟨scanned, _, planned⟩ := grouping_plan_linear 2 pinnedRun
  obtain ⟨linear, pinned, _⟩ := planned pinnedRunGrouping made
  rw [made] at scanned
  exact ⟨made, scanned, linear, pinned rfl _ _ _ _ rfl, rfl⟩

end Regroup
