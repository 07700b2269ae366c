import Mathlib
import Regroup.Chain.Attempt
import Regroup.Proofs.Growth
import Regroup.Proofs.Pinning
import Regroup.Proofs.Plans

set_option autoImplicit false

namespace Regroup

def Grouping.tree (g : Grouping) : Shape := .node () g.last g.rest

theorem grouping_tree_leaves (pinned : Nat) (leaves : List Scalar) (g : Grouping)
    (made : Grouping.ofLeaves? pinned leaves = some g) : g.tree.leaves.Perm leaves := by
  rw [← grouping_leaves pinned leaves g made, Grouping.tree, Tree.leaves, Grouping.leaves]
  exact List.perm_append_comm

theorem step_dest (c : Chain) (dest : Value) (lhs rhs : Scalar) : (c.step dest lhs rhs).dest? = some dest := rfl

theorem step_reads (c : Chain) (dest : Value) (lhs rhs : Scalar) : (c.step dest lhs rhs).reads = [lhs, rhs] := rfl

-- A leaf, or the result of one of the first `bound` operations.
def Drawn (leaves : List Scalar) (base bound : Nat) (s : Scalar) : Prop :=
  s ∈ leaves ∨ ∃ m < bound, s = .of (base + m)

theorem before_drawn (leaves : List Scalar) (base bound : Nat) (part : Part) (before : part.Before leaves bound) :
    Drawn leaves base bound (part.scalar base) := by
  cases part with
  | leaf s => exact Or.inl before
  | node k => exact Or.inr ⟨k, before, rfl⟩

section Code

variable (g : Grouping) (c : Chain) (base : Nat)

theorem grouping_code_length : (g.code c base).length = g.nodeCount := by
  rw [grouping_code_plan, Plan.code, List.length_mapIdx, plan_length]

theorem grouping_code_at (k : Nat) (i : Inst) (stored : (g.code c base)[k]? = some i) :
    ∃ lhs rhs, i = c.step (base + k) lhs rhs ∧ Drawn g.leaves base k lhs ∧ Drawn g.leaves base k rhs := by
  rw [grouping_code_plan, Plan.code, List.getElem?_mapIdx] at stored
  obtain ⟨n, found, rfl⟩ := Option.map_eq_some_iff.mp stored
  have drawn (part : Part) (member : part ∈ n.parts) : Drawn g.leaves base k (part.scalar base) :=
    before_drawn g.leaves base k part ((plan_linear g).nodes k n found part member)
  exact ⟨_, _, rfl, drawn n.lhs List.mem_cons_self, drawn n.rhs (List.mem_cons_of_mem _ List.mem_cons_self)⟩

theorem root_part_drawn (part : Part) (member : part ∈ g.plan.root.parts) :
    Drawn g.leaves base g.nodeCount (part.scalar base) := by
  have before := (plan_linear g).root part member
  rw [plan_length] at before
  exact before_drawn g.leaves base g.nodeCount part before

theorem grouping_lhs_drawn : Drawn g.leaves base g.nodeCount (g.lhs base) := by
  rw [grouping_lhs_plan]
  exact root_part_drawn g base _ List.mem_cons_self

theorem grouping_rhs_drawn : Drawn g.leaves base g.nodeCount (g.rhs base) := by
  rw [grouping_rhs_plan]
  exact root_part_drawn g base _ (List.mem_cons_of_mem _ List.mem_cons_self)

theorem plan_code_reads (p : Plan) :
    (p.code c base).flatMap Inst.reads = p.nodes.flatMap fun n => n.parts.map (Part.scalar base) := by
  have each : (p.code c base).map Inst.reads = p.nodes.map fun n => n.parts.map (Part.scalar base) := by
    apply List.ext_getElem?
    intro k
    rw [Plan.code, List.getElem?_map, List.getElem?_mapIdx, List.getElem?_map, Option.map_map]
    rfl
  rw [List.flatMap_def, each, ← List.flatMap_def]

theorem grouping_reads_perm :
    ((g.code c base).flatMap Inst.reads ++ [g.lhs base, g.rhs base]).Perm
      (g.leaves ++ (List.range' base g.nodeCount).map Scalar.of) := by
  have reads : (g.code c base).flatMap Inst.reads ++ [g.lhs base, g.rhs base] = g.plan.parts.map (Part.scalar base) := by
    rw [grouping_code_plan, grouping_lhs_plan, grouping_rhs_plan, Plan.parts, List.map_append, List.map_flatMap,
      plan_code_reads]
    rfl
  have results : (g.leaves.map Part.leaf ++ (List.range g.nodeCount).map Part.node).map (Part.scalar base) =
      g.leaves ++ (List.range' base g.nodeCount).map Scalar.of := by
    rw [List.range'_eq_map_range, List.map_append, List.map_map, List.map_map, List.map_map]
    exact congrArg (· ++ _) (List.map_id g.leaves)
  rw [reads, ← results]
  exact (plan_parts_perm g).map _

theorem grouping_leaf_read :
    ∀ leaf ∈ g.leaves, leaf = g.lhs base ∨ leaf = g.rhs base ∨ ∃ i ∈ g.code c base, leaf ∈ i.reads := by
  intro leaf member
  have read := (grouping_reads_perm g c base).mem_iff.mpr (List.mem_append_left _ member)
  simp only [List.mem_append, List.mem_flatMap, List.mem_cons, List.not_mem_nil, or_false] at read
  obtain inCode | atLeft | atRight := read
  · exact Or.inr (Or.inr inCode)
  · exact Or.inl atLeft
  · exact Or.inr (Or.inl atRight)

end Code

end Regroup
