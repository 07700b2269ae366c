import Mathlib
import Regroup.Chain.Growth
import Regroup.Proofs.Weaving

set_option autoImplicit false

namespace Regroup

theorem arith_of_inst (i : Inst) (a : Arith) : i.arith? = some a ↔ i = .arith a := by
  cases i <;> simp [Inst.arith?]

theorem func_arith_iff (f : Func) (site : Site) (a : Arith) :
    f.arith? site = some a ↔ f.inst? site = some (.arith a) := by
  simp [Func.arith?, Option.bind_eq_some_iff, arith_of_inst]

theorem facts_reads (f : Func) (v : Value) :
    f.facts.reads[v]? = if v < f.next then some (f.readCount v) else none := by
  by_cases small : v < f.next <;> simp [Func.facts, Func.readCounts, small]

theorem facts_site (f : Func) (v : Value) : f.facts.site? v = f.site? v := by
  by_cases small : v < f.next
  · simp [Facts.site?, Func.facts, Func.sites, small]
  · simp [Facts.site?, Func.facts, Func.sites, Func.site?, Func.definition?, small]

theorem facts_rank (f : Func) (s : Scalar) :
    f.facts.rank s = if s.value < f.next then (f.rankOf s.value).level else 2 := by
  by_cases small : s.value < f.next <;> simp [Facts.rank, Func.facts, small, Rank.level]

theorem absorbable_iff (f : Func) (op : Op) (s : Scalar) (site : Site) (a : Arith) :
    f.facts.absorbable? f op s = some (site, a) ↔ s = .of a.dest ∧ f.readCount a.dest = 1 ∧
      f.definition? a.dest = some (site, .arith a) ∧ a.op = op ∧ a.regroupable = true := by
  have sited (v : Value) : f.site? v = some site ↔ ∃ i, f.definition? v = some (site, i) := by
    simp [Func.site?, Option.map_eq_some_iff]
  constructor
  · intro found
    by_cases single : s.comp = 0 ∧ f.facts.reads[s.value]? = some 1
    · rw [Facts.absorbable?, if_pos single, facts_site, Option.bind_eq_some_iff] at found
      obtain ⟨place, located, found⟩ := found
      rw [Option.bind_eq_some_iff] at found
      obtain ⟨b, stored, found⟩ := found
      by_cases fits : b.op = op ∧ b.regroupable = true
      · rw [if_pos fits] at found
        cases found
        obtain ⟨i, definition⟩ := (sited s.value).mp located
        obtain ⟨small, defined⟩ := definition_defines f s.value site i definition
        rw [func_arith_iff, defined.1, Option.some.injEq] at stored
        subst stored
        have dest : a.dest = s.value := Option.some.inj defined.2
        have once : f.readCount s.value = 1 := by simpa [facts_reads, small] using single.2
        refine ⟨?_, dest ▸ once, dest ▸ definition, fits⟩
        rw [dest, Scalar.of, ← single.1]
      · rw [if_neg fits] at found
        cases found
    · rw [Facts.absorbable?, if_neg single] at found
      cases found
  · rintro ⟨rfl, once, definition, sameOp, regroupable⟩
    obtain ⟨small, defined⟩ := definition_defines f a.dest site _ definition
    have located := (sited a.dest).mpr ⟨_, definition⟩
    have stored := (func_arith_iff f site a).mpr defined.1
    simp [Facts.absorbable?, Scalar.of, facts_reads, small, once, facts_site, located, stored, sameOp, regroupable]

theorem absorbable_stored (f : Func) (wf : f.WellFormed) (site : Site) (a : Arith) (stored : f.inst? site = some (.arith a))
    (once : f.readCount a.dest = 1) (regroupable : a.regroupable = true) :
    f.facts.absorbable? f a.op (.of a.dest) = some (site, a) := by
  have known := defines_bounded f wf a.dest site _ ⟨stored, rfl⟩
  have definition := (definition_iff f wf.unique a.dest site _).mpr ⟨known, stored, rfl⟩
  exact (absorbable_iff f a.op _ site a).mpr ⟨rfl, once, definition, rfl, regroupable⟩

-- A tree below `s` whose nodes are regroupable operations `op`, each of them read once.
inductive Func.Grown (f : Func) (op : Op) : Tree Arith Scalar → Scalar → Prop where
  | leaf (s : Scalar) : f.Grown op (.leaf s) s
  | node (a : Arith) (left right : Tree Arith Scalar) (site : Site)
      (definition : f.definition? a.dest = some (site, .arith a)) (sameOp : a.op = op)
      (regroupable : a.regroupable = true) (once : f.readCount a.dest = 1)
      (lower : f.Grown op left a.lhs) (upper : f.Grown op right a.rhs) :
      f.Grown op (.node a left right) (.of a.dest)

theorem operand_tree_grown (f : Func) (op : Op) (room : Nat) (s : Scalar) :
    f.Grown op (f.facts.operandTree f op room s) s := by
  fun_induction Facts.operandTree f.facts f op room s with
  | case1 room s absent => exact .leaf s
  | case2 room s site a found roomy left lower upper =>
      obtain ⟨rfl, once, definition, sameOp, regroupable⟩ := (absorbable_iff f op s site a).mp found
      exact .node a left _ site definition sameOp regroupable once lower upper
  | case3 room s site a found cramped => exact .leaf s

theorem grown_node_regroupable (f : Func) (op : Op) (t : Tree Arith Scalar) (s : Scalar) (grown : f.Grown op t s) :
    ∀ a ∈ t.labels, a.op = op ∧ a.regroupable = true ∧ f.readCount a.dest = 1 ∧
      ∃ site, f.definition? a.dest = some (site, .arith a) := by
  induction grown with
  | leaf s => simp [Tree.labels]
  | node a left right site definition sameOp regroupable once _ _ lower upper =>
      intro b member
      simp only [Tree.labels, List.mem_cons, List.mem_append] at member
      rcases member with rfl | inLeft | inRight
      · exact ⟨sameOp, regroupable, once, site, definition⟩
      · exact lower b inLeft
      · exact upper b inRight

theorem grown_leaf_source (f : Func) (op : Op) (t : Tree Arith Scalar) (s : Scalar) (grown : f.Grown op t s) :
    ∀ leaf ∈ t.leaves, leaf = s ∨ ∃ a ∈ t.labels, leaf = a.lhs ∨ leaf = a.rhs := by
  induction grown with
  | leaf s => simp [Tree.leaves]
  | node a left right site _ _ _ _ _ _ lower upper =>
      intro leaf member
      refine Or.inr ?_
      rcases List.mem_append.mp member with inLeft | inRight
      · rcases lower leaf inLeft with top | ⟨b, label, operand⟩
        · exact ⟨a, by simp [Tree.labels], Or.inl top⟩
        · exact ⟨b, by simp [Tree.labels, label], operand⟩
      · rcases upper leaf inRight with top | ⟨b, label, operand⟩
        · exact ⟨a, by simp [Tree.labels], Or.inr top⟩
        · exact ⟨b, by simp [Tree.labels, label], operand⟩

theorem arith_reads (a : Arith) : a.lhs ∈ (Inst.arith a).reads ∧ a.rhs ∈ (Inst.arith a).reads := by
  simp [Inst.reads]

theorem ready_trans (f : Func) (wf : f.WellFormed) (v w : Value) (site place : Site) (i : Inst)
    (path : f.Reaches none place.block) (defined : f.Defines w site i) (ready : f.Ready w place)
    (operand : f.Ready v site) : f.Ready v place := by
  obtain ⟨there, j, again, before⟩ := ready
  obtain ⟨rfl, rfl⟩ := defines_unique f wf.unique w _ _ _ _ defined again
  obtain ⟨origin, k, source, first⟩ := operand
  exact ⟨origin, k, source, precedes_trans f origin site place path first before⟩

theorem grown_leaves_ready (f : Func) (wf : f.WellFormed) (op : Op) (t : Tree Arith Scalar) (s : Scalar) (place : Site)
    (path : f.Reaches none place.block) (grown : f.Grown op t s) (ready : f.Ready s.value place) :
    ∀ leaf ∈ t.leaves, f.Ready leaf.value place := by
  induction grown with
  | leaf s => simpa [Tree.leaves] using ready
  | node a left right site definition _ _ _ _ _ lower upper =>
      have defined := (definition_defines f a.dest site _ definition).2
      have operands := arith_reads a
      have leftReady := ready_trans f wf a.lhs.value a.dest site place _ path defined ready
        (read_ready f wf site _ a.lhs defined.1 operands.1 rfl)
      have rightReady := ready_trans f wf a.rhs.value a.dest site place _ path defined ready
        (read_ready f wf site _ a.rhs defined.1 operands.2 rfl)
      intro leaf member
      rcases List.mem_append.mp member with inLeft | inRight
      · exact lower leftReady leaf inLeft
      · exact upper rightReady leaf inRight

def Func.RootGrown (f : Func) (a : Arith) (t : Tree Arith Scalar) : Prop :=
  ∃ left right, t = .node a left right ∧ f.Grown a.op left a.lhs ∧ f.Grown a.op right a.rhs

theorem root_tree_grown (f : Func) (a : Arith) : f.RootGrown a (f.facts.rootTree f a) :=
  ⟨_, _, rfl, operand_tree_grown f a.op _ a.lhs, operand_tree_grown f a.op _ a.rhs⟩

theorem root_leaves_ready (f : Func) (wf : f.WellFormed) (a : Arith) (t : Tree Arith Scalar) (site : Site)
    (path : f.Reaches none site.block) (stored : f.inst? site = some (.arith a)) (grown : f.RootGrown a t) :
    ∀ leaf ∈ t.leaves, f.Ready leaf.value site := by
  obtain ⟨left, right, rfl, lower, upper⟩ := grown
  have operands := arith_reads a
  have leftReady := read_ready f wf site _ a.lhs stored operands.1 rfl
  have rightReady := read_ready f wf site _ a.rhs stored operands.2 rfl
  intro leaf member
  rcases List.mem_append.mp member with inLeft | inRight
  · exact grown_leaves_ready f wf a.op left a.lhs site path lower leftReady leaf inLeft
  · exact grown_leaves_ready f wf a.op right a.rhs site path upper rightReady leaf inRight

theorem root_leaf_source (f : Func) (a : Arith) (t : Tree Arith Scalar) (site : Site)
    (stored : f.inst? site = some (.arith a)) (grown : f.RootGrown a t) :
    ∀ leaf ∈ t.leaves, ∃ place b, f.inst? place = some (.arith b) ∧ leaf ∈ (Inst.arith b).reads := by
  obtain ⟨left, right, rfl, lower, upper⟩ := grown
  have labelled (top : Scalar) (part : Tree Arith Scalar) (partGrown : f.Grown a.op part top)
      (operand : top ∈ (Inst.arith a).reads) (leaf : Scalar) (member : leaf ∈ part.leaves) :
      ∃ place b, f.inst? place = some (.arith b) ∧ leaf ∈ (Inst.arith b).reads := by
    rcases grown_leaf_source f a.op part top partGrown leaf member with same | ⟨b, label, read⟩
    · exact ⟨site, a, stored, same ▸ operand⟩
    · obtain ⟨_, _, _, place, definition⟩ := grown_node_regroupable f a.op part top partGrown b label
      exact ⟨place, b, (definition_defines f b.dest place _ definition).2.1, by simpa [Inst.reads] using read⟩
  intro leaf member
  rcases List.mem_append.mp member with inLeft | inRight
  · exact labelled a.lhs left lower (arith_reads a).1 leaf inLeft
  · exact labelled a.rhs right upper (arith_reads a).2 leaf inRight

theorem root_leaf_old (f : Func) (wf : f.WellFormed) (site : Site) (a : Arith) (stored : f.inst? site = some (.arith a))
    (s : Scalar) (leaf : s ∈ (f.facts.rootTree f a).leaves) : s.value < f.next := by
  obtain ⟨place, b, there, read⟩ := root_leaf_source f a _ site stored (root_tree_grown f a) s leaf
  exact wf.bounded _ (read_known f wf place _ s there read)

section Barred

variable (facts : Facts) (f : Func)

theorem roomy_leaves_barred (op : Op) (room : Nat) (s : Scalar)
    (roomy : (facts.operandTree f op room s).leafCount < room) :
    ∀ leaf ∈ (facts.operandTree f op room s).leaves, facts.absorbable? f op leaf = none := by
  fun_induction Facts.operandTree facts f op room s with
  | case1 room s absent =>
      intro leaf member
      rw [List.mem_singleton.mp member]
      exact absent
  | case2 room s site a found enough left lower upper =>
      intro leaf member
      have someRight := tree_leaf_count_pos (facts.operandTree f op (room - left.leafCount) a.rhs)
      simp only [Tree.leafCount] at roomy
      rcases List.mem_append.mp member with inLeft | inRight
      · exact lower (show left.leafCount < room - 1 by omega) leaf inLeft
      · exact upper (by omega) leaf inRight
  | case3 room s site a found cramped =>
      simp only [Tree.leafCount] at roomy
      omega

theorem short_leaves_barred (a : Arith) (short : (facts.rootTree f a).leafCount < chainCapacity) :
    ∀ leaf ∈ (facts.rootTree f a).leaves, facts.absorbable? f a.op leaf = none := by
  intro leaf member
  have someRight := tree_leaf_count_pos (facts.operandTree f a.op
    (chainCapacity - (facts.operandTree f a.op (chainCapacity - 1) a.lhs).leafCount) a.rhs)
  simp only [Facts.rootTree, Tree.leafCount] at short
  rcases List.mem_append.mp member with inLeft | inRight
  · exact roomy_leaves_barred facts f a.op _ a.lhs (by omega) leaf inLeft
  · exact roomy_leaves_barred facts f a.op _ a.rhs (by omega) leaf inRight

end Barred

end Regroup
