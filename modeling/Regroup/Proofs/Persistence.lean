import Mathlib
import Regroup.Proofs.Rediscovery
import Regroup.Proofs.UniformityKept

set_option autoImplicit false

namespace Regroup

section Expanded

variable (h g : Func) (rebuilt : List Rebuilt) (built : h.ExpandedAs g rebuilt)
include built

theorem built_defines (v : Value) (site : Site) (i : Inst) (defined : h.Defines v site i) :
    ∃ place j, g.Defines v place j ∧ place.block = site.block ∧ j.isConst = i.isConst := by
  cases found : rebuiltAt rebuilt site with
  | none =>
      obtain ⟨place, block, there⟩ := built_kept h g rebuilt built site i defined.1 found
      exact ⟨place, i, ⟨there, defined.2⟩, block, rfl⟩
  | some r =>
      obtain ⟨member, rfl, rfl⟩ := rebuilt_at_root h rebuilt g.next built.expansion site i r defined.1 found
      obtain ⟨place, block, there⟩ := built_new h g rebuilt built r member _ (Or.inr rfl)
      exact ⟨place, _, ⟨there, defined.2⟩, block, rfl⟩

theorem built_defines_back (v : Value) (place : Site) (j : Inst) (defined : g.Defines v place j) (old : v < h.next) :
    v ∈ h.defs := by
  rw [mem_defs]
  rcases built_cases h g rebuilt built place j defined.1 with ⟨site, _, there, _⟩ | ⟨r, member, _, code | root⟩
  · exact ⟨site, j, there, defined.2⟩
  · obtain ⟨k, _, lhs, rhs, rfl⟩ := rebuilt_code_step r j code
    cases defined.2
    exact absurd old (expansion_new_large h rebuilt g.next built.expansion r member k)
  · subst root
    exact ⟨r.site, .arith r.old, built.expansion.stored r member, defined.2⟩

end Expanded

section Built

variable (h g : Func) (rebuilt : List Rebuilt) (built : h.RebuiltAs g rebuilt)
include built

theorem built_defs_sublist : h.defs.Sublist g.defs := by
  have insts : g.insts = h.sited.flatMap fun e => expanded rebuilt e.1 e.2 := by
    rw [← recast_insts, Func.insts, Func.insts, built.blocks]
  have defs : g.defs = h.sited.flatMap fun e => (expanded rebuilt e.1 e.2).filterMap Inst.dest? := by
    rw [Func.defs, insts, List.filterMap_flatMap]
  rw [defs, ← sited_defs, List.filterMap_eq_flatMap_toList]
  refine List.Sublist.flatMap_right h.sited fun e member => ?_
  obtain ⟨site, i⟩ := e
  obtain ⟨off, j, inside, _, dest, _⟩ :=
    expanded_last h rebuilt g.next built.expansion site i ((mem_sited h site i).mp member)
  have single : [j].Sublist (expanded rebuilt site i) := List.singleton_sublist.mpr (List.mem_of_getElem? inside)
  simpa [List.filterMap_eq_flatMap_toList, dest] using single.filterMap Inst.dest?

end Built

theorem prepared_may_diverge (f : Func) (options : Options) (wf : f.WellFormed) (plain : f.divergence = none) (v : Value)
    (known : v < (f.prepared options).next) :
    (f.prepared options).mayDiverge v = true ↔ (options.uniformity = true → (f.prepared options).Varies v) := by
  have bare : f.renumbered.divergence = none := by rw [Func.renumbered, plain, Option.map_none]
  by_cases uniformity : options.uniformity = true
  · have same : (f.prepared options).divergent = f.renumbered.divergent := rfl
    have flags : (f.prepared options).mayDiverge v = (f.prepared options).divergent.diverges v := by
      rw [same, Marks.diverges]
      simp [Func.mayDiverge, Func.prepared, uniformity, bare]
    rw [flags, diverges_has _ _ (by rw [divergent_size]; exact known),
      divergent_iff _ (prepared_well_formed f options wf)]
    simp [uniformity]
  · simp [Func.mayDiverge, Func.prepared, uniformity, bare]

theorem prepared_keeps_flags (f : Func) (options : Options) (wf : f.WellFormed) (flags : Array Bool)
    (flagged : f.divergence = some flags) (v : Value) (known : v ∈ f.defs) :
    (f.prepared options).mayDiverge (f.rename v) = f.mayDiverge v := by
  have kept : (f.prepared options).divergence = f.renumbered.divergence := by
    simp [Func.prepared, Func.renumbered, flagged]
  rw [← renumbered_keeps_flags f wf.unique v known, Func.mayDiverge, Func.mayDiverge, kept]

theorem prepared_defs (f : Func) (options : Options) (unique : f.defs.Nodup) :
    (f.prepared options).defs = List.range (f.prepared options).next := renumbered_defs f unique

-- Values of one function as they stand in another: in the same order, of the same rank, defined in the same block.
structure Func.Carried (h g : Func) (ρ : Value → Value) : Prop where
  ascending : ∀ v w, v < w → w < h.next → ρ v < ρ w
  ranks : ∀ s : Scalar, s.value < h.next → g.facts.rank (s.renamed ρ) = h.facts.rank s
  blocks : ∀ v < h.next, (g.facts.site? (ρ v)).map Site.block = (h.facts.site? v).map Site.block

theorem rename_ascending (h g : Func) (unique : g.defs.Nodup) (dense : h.defs = List.range h.next)
    (kept : h.defs.Sublist g.defs) (v w : Value) (less : v < w) (known : w < h.next) : g.rename v < g.rename w := by
  obtain ⟨place, stored⟩ := List.sublist_iff_exists_orderEmbedding_getElem?_eq.mp kept
  have renamed (u : Value) (small : u < h.next) : g.rename u = place u := by
    refine rename_at g unique u (place u) ?_
    rw [← stored u, dense, List.getElem?_range small]
  rw [renamed v (Nat.lt_trans less known), renamed w known]
  exact place.strictMono less

theorem prepared_carried (f : Func) (options : Options) (g : Func) (rebuilt : List Rebuilt) (wf : f.WellFormed)
    (plain : f.divergence = none) (built : (f.prepared options).RebuiltAs g rebuilt)
    (flags : g.divergence = none ∨ g.divergence = (f.prepared options).divergence) :
    (f.prepared options).Carried (g.prepared options) g.rename := by
  have link := prepared_renaming g options built.fine.unique
  have fine := prepared_well_formed g options built.fine
  -- where an old value is defined, before and after
  have defined (v : Value) (old : v < (f.prepared options).next) : ∃ site i place j,
      (f.prepared options).definition? v = some (site, i) ∧
      (g.prepared options).definition? (g.rename v) = some (place, j) ∧ v ∈ g.defs ∧ place.block = site.block ∧
      j.isConst = i.isConst := by
    have listed : v ∈ (f.prepared options).defs := by
      rw [prepared_defs f options wf.unique]
      exact List.mem_range.mpr old
    obtain ⟨site, i, source⟩ := (mem_defs _ v).mp listed
    obtain ⟨place, j, there, block, const⟩ := built_defines _ g rebuilt built v site i source
    have known := (mem_defs g v).mpr ⟨place, j, there⟩
    refine ⟨site, i, place, j.renamed g.rename, (definition_iff _ built.wf.unique v site i).mpr ⟨old, source⟩,
      (definition_iff _ fine.unique _ place _).mpr ⟨link.bounded v known, ?_⟩, known, block, ?_⟩
    · exact renaming_defines g _ g.rename link v place j there
    · rw [← const]
      cases j <;> rfl
  refine ⟨?_, fun s old => ?_, fun v old => ?_⟩
  · exact rename_ascending _ g built.fine.unique (prepared_defs f options wf.unique) (built_defs_sublist _ g rebuilt built)
  · obtain ⟨site, i, place, j, before, after, known, _, const⟩ := defined s.value old
    have inside := link.bounded s.value known
    have diverges : (g.prepared options).mayDiverge (g.rename s.value) = (f.prepared options).mayDiverge s.value := by
      cases own : g.divergence with
      | none =>
          rw [Bool.eq_iff_iff, prepared_may_diverge g options built.fine own _ inside,
            prepared_may_diverge f options wf plain _ old, renaming_varies g _ g.rename link built.fine s.value known,
            built_varies_iff _ g rebuilt built s.value old]
      | some marks =>
          have same : g.divergence = (f.prepared options).divergence := flags.resolve_left (by simp [own])
          rw [prepared_keeps_flags g options built.fine marks own _ known, Func.mayDiverge, Func.mayDiverge, same]
    rw [facts_rank, facts_rank, if_pos old, if_pos (show (s.renamed g.rename).value < _ from inside)]
    simp only [Func.rankOf, Scalar.renamed, before, after, Option.any_some, const, diverges]
  · obtain ⟨site, i, place, j, before, after, _, block, _⟩ := defined v old
    rw [facts_site, facts_site, Func.site?, Func.site?, before, after]
    simp [block]

end Regroup
