import Mathlib
import Regroup.Proofs.Discovery

set_option autoImplicit false

namespace Regroup

section Map

variable {ν μ ξ α β γ : Type}

def Tree.map (onLabel : ν → μ) (onLeaf : α → β) : Tree ν α → Tree μ β
  | .leaf item => .leaf (onLeaf item)
  | .node label left right => .node (onLabel label) (left.map onLabel onLeaf) (right.map onLabel onLeaf)

variable (onLabel : ν → μ) (onLeaf : α → β) (t : Tree ν α)

theorem map_leaves : (t.map onLabel onLeaf).leaves = t.leaves.map onLeaf := by
  induction t with
  | leaf item => rfl
  | node label left right lower upper => simp [Tree.map, Tree.leaves, lower, upper]

theorem map_labels : (t.map onLabel onLeaf).labels = t.labels.map onLabel := by
  induction t with
  | leaf item => rfl
  | node label left right lower upper => simp [Tree.map, Tree.labels, lower, upper]

theorem map_leaf_count : (t.map onLabel onLeaf).leafCount = t.leafCount := by
  rw [← tree_leaves_length, map_leaves, List.length_map, tree_leaves_length]

theorem map_map_tree (relabel : μ → ξ) (change : β → γ) :
    (t.map onLabel onLeaf).map relabel change = t.map (relabel ∘ onLabel) (change ∘ onLeaf) := by
  induction t with
  | leaf item => rfl
  | node label left right lower upper => simp [Tree.map, lower, upper]

end Map

def Arith.renamed (ρ : Value → Value) (a : Arith) : Arith :=
  { a with dest := ρ a.dest, lhs := a.lhs.renamed ρ, rhs := a.rhs.renamed ρ }

def Tree.renamed (ρ : Value → Value) (t : Tree Arith Scalar) : Tree Arith Scalar :=
  t.map (Arith.renamed ρ) (Scalar.renamed ρ)

def Chain.renamed (ρ : Value → Value) (c : Chain) : Chain := { c with leaves := c.leaves.map (Scalar.renamed ρ) }

def Found.renamed (ρ : Value → Value) (x : Found) : Found := ⟨ρ x.dest, x.tree.renamed ρ, x.chain.renamed ρ⟩

theorem renamed_interior (ρ : Value → Value) (t : Tree Arith Scalar) : interior (t.renamed ρ) = (interior t).map ρ := by
  rw [interior, interior, Tree.renamed, map_labels, ← List.map_tail, List.map_map, List.map_map]
  rfl

theorem renamed_of_tree (ρ : Value → Value) (site : Site) (op : Op) (t : Tree Arith Scalar) :
    Chain.ofTree site op (t.renamed ρ) = (Chain.ofTree site op t).renamed ρ := by
  simp only [Chain.ofTree, Chain.renamed, Tree.renamed, map_leaves, map_labels, List.any_map, List.foldl_map]
  rfl

section Renaming

variable (f g : Func) (ρ : Value → Value) (link : Renaming f g ρ)
include link

theorem renaming_sited : g.sited = f.sited.map fun e => (e.1, e.2.renamed ρ) := by
  simp only [Func.sited, link.blocks, List.zipIdx_map, List.flatMap_map, List.map_flatMap, Block.sited, List.map_map]
  refine List.flatMap_congr fun entry _ => ?_
  simp only [Prod.map, Block.renamed, List.zipIdx_map, List.map_map]
  rfl

theorem renaming_ariths : g.ariths = f.ariths.map fun e => (e.1, e.2.renamed ρ) := by
  rw [Func.ariths, Func.ariths, renaming_sited f g ρ link, List.filterMap_map, List.map_filterMap]
  refine List.filterMap_congr fun e _ => ?_
  obtain ⟨site, i⟩ := e
  cases i <;> rfl

theorem renaming_arith (site : Site) : g.arith? site = (f.arith? site).map (Arith.renamed ρ) := by
  rw [Func.arith?, Func.arith?, renaming_inst f g ρ link]
  cases f.inst? site with
  | none => rfl
  | some i => cases i <;> rfl

variable (wf : f.WellFormed)
include wf

theorem renaming_site (v : Value) (known : v ∈ f.defs) : g.site? (ρ v) = f.site? v := by
  have fine := renaming_well_formed f g ρ link wf
  obtain ⟨site, i, defined⟩ := (mem_defs f v).mp known
  have before := (definition_iff f wf.unique v site i).mpr ⟨wf.bounded v known, defined⟩
  have after := (definition_iff g fine.unique (ρ v) site _).mpr
    ⟨link.bounded v known, renaming_defines f g ρ link v site i defined⟩
  rw [Func.site?, Func.site?, before, after]
  rfl

theorem renaming_absorbable (op : Op) (s : Scalar) (known : s.value ∈ f.defs) :
    g.facts.absorbable? g op (s.renamed ρ) = (f.facts.absorbable? f op s).map fun x => (x.1, x.2.renamed ρ) := by
  have count := renaming_read_count f g ρ link wf s.value known
  rw [Facts.absorbable?, Facts.absorbable?, facts_reads, facts_reads, facts_site, facts_site, Scalar.renamed,
    if_pos (link.bounded s.value known), if_pos (wf.bounded s.value known), count, renaming_site f g ρ link wf s.value known]
  split
  · cases f.site? s.value with
    | none => rfl
    | some site =>
        simp only [Option.bind_some, renaming_arith f g ρ link]
        cases f.arith? site with
        | none => rfl
        | some a =>
            simp only [Option.map_some, Option.bind_some]
            change (if a.op = op ∧ a.regroupable = true then _ else _) = _
            split <;> rfl
  · rfl

theorem renaming_operand_tree (op : Op) (room : Nat) (s : Scalar) (known : s.value ∈ f.defs) :
    g.facts.operandTree g op room (s.renamed ρ) = (f.facts.operandTree f op room s).renamed ρ := by
  fun_induction Facts.operandTree f.facts f op room s with
  | case1 room s absent =>
      rw [Facts.operandTree, renaming_absorbable f g ρ link wf op s known, absent]
      rfl
  | case2 room s site a found roomy left lower upper =>
      obtain ⟨_, _, definition, _⟩ := (absorbable_iff f op s site a).mp found
      have stored := (definition_defines f a.dest site _ definition).2.1
      have leftSame := lower (read_known f wf site _ a.lhs stored (arith_reads a).1)
      have rightSame := upper (read_known f wf site _ a.rhs stored (arith_reads a).2)
      rw [Facts.operandTree, renaming_absorbable f g ρ link wf op s known, found]
      simp only [Option.map_some, roomy, ↓reduceDIte, Arith.renamed, leftSame]
      rw [Tree.renamed, map_leaf_count, rightSame]
      rfl
  | case3 room s site a found cramped =>
      rw [Facts.operandTree, renaming_absorbable f g ρ link wf op s known, found]
      simp only [Option.map_some, cramped, ↓reduceDIte]
      rfl

theorem renaming_root_tree (site : Site) (a : Arith) (stored : f.inst? site = some (.arith a)) :
    g.facts.rootTree g (a.renamed ρ) = (f.facts.rootTree f a).renamed ρ := by
  have left := read_known f wf site _ a.lhs stored (arith_reads a).1
  have right := read_known f wf site _ a.rhs stored (arith_reads a).2
  have leftSame := renaming_operand_tree f g ρ link wf a.op (chainCapacity - 1) a.lhs left
  have rightSame (room : Nat) := renaming_operand_tree f g ρ link wf a.op room a.rhs right
  simp only [Facts.rootTree, Arith.renamed, leftSame, rightSame, Tree.renamed, map_leaf_count]
  rfl

theorem renaming_found_at (site : Site) (a : Arith) (stored : f.inst? site = some (.arith a)) :
    g.foundAt site (a.renamed ρ) = (f.foundAt site a).renamed ρ := by
  rw [Func.foundAt, renaming_root_tree f g ρ link wf site a stored, renamed_of_tree]
  rfl

theorem renaming_live (v : Value) (known : v ∈ f.defs) : g.facts.live.has (ρ v) = f.facts.live.has v := by
  rw [Bool.eq_iff_iff]
  exact (live_iff g (ρ v)).trans ((renaming_needed f g ρ link wf v known).trans (live_iff f v).symm)

theorem renaming_find_from (absorbed : List Value) (entries : List (Site × Arith)) (old : ∀ v ∈ absorbed, v ∈ f.defs)
    (stored : ∀ e ∈ entries, f.inst? e.1 = some (.arith e.2)) :
    g.facts.findFrom g (absorbed.map ρ) (entries.map fun e => (e.1, e.2.renamed ρ)) =
      (f.facts.findFrom f absorbed entries).map (Found.renamed ρ) := by
  induction entries generalizing absorbed with
  | nil => rfl
  | cons entry rest ih =>
      obtain ⟨site, a⟩ := entry
      have here := stored (site, a) List.mem_cons_self
      have later := fun e member => stored e (List.mem_cons_of_mem (site, a) member)
      have known : a.dest ∈ f.defs := (mem_defs f _).mpr ⟨site, _, here, rfl⟩
      have taken : (a.renamed ρ).dest ∈ absorbed.map ρ ↔ a.dest ∈ absorbed := by
        refine ⟨fun listed => ?_, fun listed => List.mem_map_of_mem listed⟩
        obtain ⟨v, inAbsorbed, same⟩ := List.mem_map.mp listed
        exact link.injective v (old v inAbsorbed) a.dest known same ▸ inAbsorbed
      have live : g.facts.live.has (a.renamed ρ).dest = f.facts.live.has a.dest := renaming_live f g ρ link wf a.dest known
      have alike : ((a.renamed ρ).dest ∉ absorbed.map ρ ∧ g.facts.live.has (a.renamed ρ).dest = true ∧
          (a.renamed ρ).regroupable = true) ↔
          (a.dest ∉ absorbed ∧ f.facts.live.has a.dest = true ∧ a.regroupable = true) := by
        rw [taken, live]
        rfl
      rw [List.map_cons]
      by_cases roots : a.dest ∉ absorbed ∧ f.facts.live.has a.dest = true ∧ a.regroupable = true
      · have inner : ∀ v ∈ interior (f.facts.rootTree f a) ++ absorbed, v ∈ f.defs := by
          intro v member
          rcases List.mem_append.mp member with below | before
          · obtain ⟨b, label, rfl⟩ := List.mem_map.mp below
            obtain ⟨place, there⟩ := root_labels_stored f site a here _ (root_tree_grown f a) b (List.mem_of_mem_tail label)
            exact (mem_defs f _).mpr ⟨place, _, there, rfl⟩
          · exact old v before
        have next := ih _ inner later
        rw [List.map_append, ← renamed_interior, ← renaming_root_tree f g ρ link wf site a here] at next
        have root := renaming_found_at f g ρ link wf site a here
        rw [Facts.findFrom, if_pos (alike.mpr roots), Facts.findFrom, if_pos roots, List.map_cons]
        exact congrArg₂ List.cons root next
      · rw [Facts.findFrom, if_neg fun both => roots (alike.mp both), Facts.findFrom, if_neg roots]
        exact ih absorbed old later

theorem renaming_find_all : g.facts.findAll g = (f.facts.findAll f).map (Found.renamed ρ) := by
  have stored : ∀ e ∈ f.ariths.reverse, f.inst? e.1 = some (.arith e.2) := fun e member =>
    (mem_ariths f e.1 e.2).mp (List.mem_reverse.mp member)
  have found := renaming_find_from f g ρ link wf [] f.ariths.reverse (by simp) stored
  rw [Facts.findAll, Facts.findAll, renaming_ariths f g ρ link, ← List.map_reverse]
  exact found

end Renaming

end Regroup
