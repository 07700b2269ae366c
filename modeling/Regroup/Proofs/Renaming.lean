import Mathlib
import Regroup.Func.Renumber
import Regroup.Proofs.WellFormedness

set_option autoImplicit false

namespace Regroup

def Scalar.renamed (ρ : Value → Value) (s : Scalar) : Scalar := ⟨ρ s.value, s.comp⟩

def Inst.renamed (ρ : Value → Value) (i : Inst) : Inst := (i.mapReads (Scalar.renamed ρ)).mapDest ρ

def Block.renamed (ρ : Value → Value) (b : Block) : Block :=
  { b with insts := b.insts.map (Inst.renamed ρ), term := b.term.mapReads (Scalar.renamed ρ) }

theorem renamed_dest (ρ : Value → Value) (i : Inst) : (i.renamed ρ).dest? = i.dest?.map ρ := by
  cases i <;> rfl

theorem renamed_reads (ρ : Value → Value) (i : Inst) : (i.renamed ρ).reads = i.reads.map (Scalar.renamed ρ) := by
  cases i <;> simp [Inst.renamed, Inst.mapReads, Inst.mapDest, Inst.reads]

theorem renamed_width (ρ : Value → Value) (i : Inst) : (i.renamed ρ).width = i.width := by
  cases i <;> rfl

theorem renamed_is_phi (ρ : Value → Value) (i : Inst) : (i.renamed ρ).isPhi = i.isPhi := by
  cases i <;> rfl

theorem renamed_arith (ρ : Value → Value) (i : Inst) (b : Arith) (same : i.renamed ρ = .arith b) :
    ∃ a, i = .arith a ∧ b = { a with dest := ρ a.dest, lhs := a.lhs.renamed ρ, rhs := a.rhs.renamed ρ } := by
  cases i with
  | arith a => exact ⟨a, rfl, (Inst.arith.inj same).symm⟩
  | input dest slot width divergent => cases same
  | const dest lanes => cases same
  | phi dest incoming => cases same
  | output slot src => cases same

theorem renamed_term_reads (ρ : Value → Value) (t : Terminator) :
    (t.mapReads (Scalar.renamed ρ)).reads = t.reads.map (Scalar.renamed ρ) := by
  cases t with
  | ret src => cases src <;> rfl
  | jump target => rfl
  | branch cond onTrue onFalse => rfl

theorem renamed_successors (ρ : Value → Value) (t : Terminator) :
    (t.mapReads (Scalar.renamed ρ)).successors = t.successors := by
  cases t <;> rfl

theorem renamed_id (i : Inst) : i.renamed id = i := by
  cases i <;> simp [Inst.renamed, Inst.mapReads, Inst.mapDest, Scalar.renamed]

theorem renamed_term_id (t : Terminator) : t.mapReads (Scalar.renamed id) = t := by
  have same : Scalar.renamed id = id := rfl
  cases t <;> simp [Terminator.mapReads, same]

-- One function is another with its values renamed, different values to different ones.
structure Renaming (f g : Func) (ρ : Value → Value) : Prop where
  blocks : g.blocks = f.blocks.map (Block.renamed ρ)
  injective : ∀ v ∈ f.defs, ∀ w ∈ f.defs, ρ v = ρ w → v = w
  bounded : ∀ v ∈ f.defs, ρ v < g.next

section Renaming

variable (f g : Func) (ρ : Value → Value) (link : Renaming f g ρ)
include link

theorem renaming_outline : g.outline = f.outline := by
  simp only [Func.outline, link.blocks, List.map_map]
  refine List.map_congr_left fun b _ => ?_
  simp [Block.renamed, renamed_successors]

theorem renaming_inst (site : Site) : g.inst? site = (f.inst? site).map (Inst.renamed ρ) := by
  simp only [Func.inst?, link.blocks, List.getElem?_map]
  cases f.blocks[site.block]? <;> simp [Block.renamed]

theorem renaming_defs : g.defs = f.defs.map ρ := by
  simp only [Func.defs, Func.insts, link.blocks, List.flatMap_map, Block.renamed]
  rw [← List.map_flatMap, List.filterMap_map, List.map_filterMap]
  congr 1
  funext i
  exact renamed_dest ρ i

theorem renaming_defines (v : Value) (site : Site) (i : Inst) (defined : f.Defines v site i) :
    g.Defines (ρ v) site (i.renamed ρ) :=
  ⟨by rw [renaming_inst f g ρ link, defined.1]; rfl, by rw [renamed_dest, defined.2]; rfl⟩

theorem renaming_defines_back (v : Value) (site : Site) (j : Inst) (known : v ∈ f.defs)
    (defined : g.Defines (ρ v) site j) : ∃ i, f.Defines v site i ∧ j = i.renamed ρ := by
  obtain ⟨stored, dest⟩ := defined
  rw [renaming_inst f g ρ link, Option.map_eq_some_iff] at stored
  obtain ⟨i, found, rfl⟩ := stored
  rw [renamed_dest, Option.map_eq_some_iff] at dest
  obtain ⟨w, defines, same⟩ := dest
  have listed : w ∈ f.defs := (mem_defs f w).mpr ⟨site, i, found, defines⟩
  exact ⟨i, ⟨found, link.injective w listed v known same ▸ defines⟩, rfl⟩

theorem renaming_ready (v : Value) (place : Site) (ready : f.Ready v place) : g.Ready (ρ v) place := by
  obtain ⟨site, i, defined, before⟩ := ready
  refine ⟨site, i.renamed ρ, renaming_defines f g ρ link v site i defined, ?_⟩
  rwa [outline_precedes f g (renaming_outline f g ρ link)]

theorem renaming_operand (o : Operand) (member : o ∈ g.operands) :
    ∃ source ∈ f.operands, o.read = source.read.renamed ρ ∧ o.place = source.place ∧ o.ordered = source.ordered := by
  rcases (mem_operands g o).mp member with ⟨site, j, stored, s, read, rfl⟩ | ⟨index, c, stored, s, read, rfl⟩
  · rw [renaming_inst f g ρ link, Option.map_eq_some_iff] at stored
    obtain ⟨i, found, rfl⟩ := stored
    rw [renamed_reads, List.mem_map] at read
    obtain ⟨t, listed, rfl⟩ := read
    refine ⟨⟨t, site, i.dest?, !i.isPhi⟩, (mem_operands f _).mpr (Or.inl ⟨site, i, found, t, listed, rfl⟩), rfl, rfl, ?_⟩
    rw [renamed_is_phi]
  · rw [link.blocks, List.getElem?_map, Option.map_eq_some_iff] at stored
    obtain ⟨b, found, rfl⟩ := stored
    rw [Block.renamed, renamed_term_reads, List.mem_map] at read
    obtain ⟨t, listed, rfl⟩ := read
    refine ⟨⟨t, ⟨index, b.insts.length⟩, none, true⟩,
      (mem_operands f _).mpr (Or.inr ⟨index, b, found, t, listed, rfl⟩), rfl, ?_, rfl⟩
    simp [Block.renamed]

theorem renaming_well_formed (wf : f.WellFormed) : g.WellFormed where
  unique := by
    rw [renaming_defs f g ρ link]
    exact List.Nodup.map_on link.injective wf.unique
  bounded := by
    rw [renaming_defs f g ρ link]
    intro w member
    obtain ⟨v, listed, rfl⟩ := List.mem_map.mp member
    exact link.bounded v listed
  targets := outline_targets f g (renaming_outline f g ρ link) wf.targets
  widths := by
    intro o member
    obtain ⟨source, listed, read, _, _⟩ := renaming_operand f g ρ link o member
    obtain ⟨site, i, defined, wide⟩ := wf.widths source listed
    rw [read]
    exact ⟨site, i.renamed ρ, renaming_defines f g ρ link _ site i defined, by rw [renamed_width]; exact wide⟩
  ordered := by
    intro o member ordered
    obtain ⟨source, listed, read, place, same⟩ := renaming_operand f g ρ link o member
    rw [read, place]
    exact renaming_ready f g ρ link _ _ (wf.ordered source listed (same ▸ ordered))

end Renaming

theorem new_id_entry (f : Func) (v : Value) (found : Value × Nat)
    (hit : f.defs.zipIdx.reverse.find? (fun (d, _) => d = v) = some found) :
    f.defs[found.2]? = some found.1 ∧ found.1 = v := by
  have member := List.mem_of_find?_eq_some hit
  rw [List.mem_reverse, List.mem_zipIdx_iff_getElem?] at member
  exact ⟨member, by simpa using List.find?_some hit⟩

theorem new_id_iff (f : Func) (unique : f.defs.Nodup) (v id : Value) :
    f.newId? v = some id ↔ f.defs[id]? = some v := by
  constructor
  · intro found
    obtain ⟨hit, located, same⟩ := Option.map_eq_some_iff.mp found
    obtain ⟨stored, value⟩ := new_id_entry f v hit located
    rw [← same, stored, value]
  · intro stored
    cases located : f.defs.zipIdx.reverse.find? fun (d, _) => d = v with
    | none =>
        have missing := List.find?_eq_none.mp located (v, id)
          (by rw [List.mem_reverse, List.mem_zipIdx_iff_getElem?]; exact stored)
        simp at missing
    | some hit =>
        obtain ⟨again, value⟩ := new_id_entry f v hit located
        have same : hit.2 = id := by
          obtain ⟨inside, first⟩ := List.getElem?_eq_some_iff.mp (value ▸ again)
          obtain ⟨within, second⟩ := List.getElem?_eq_some_iff.mp stored
          exact unique.getElem_inj_iff.mp (first.trans second.symm)
        rw [Func.newId?, located, Option.map_some, same]

theorem rename_at (f : Func) (unique : f.defs.Nodup) (v id : Value) (stored : f.defs[id]? = some v) :
    f.rename v = id := by
  rw [Func.rename, (new_id_iff f unique v id).mpr stored, Option.getD_some]

theorem rename_stored (f : Func) (unique : f.defs.Nodup) (v : Value) (known : v ∈ f.defs) :
    f.defs[f.rename v]? = some v := by
  obtain ⟨id, inside, stored⟩ := List.mem_iff_getElem.mp known
  have there := List.getElem?_eq_some_iff.mpr ⟨inside, stored⟩
  rw [rename_at f unique v id there, there]

theorem renumbered_renaming (f : Func) (unique : f.defs.Nodup) : Renaming f f.renumbered f.rename where
  blocks := rfl
  injective := by
    intro v knownV w knownW same
    have stored := rename_stored f unique v knownV
    rw [same, rename_stored f unique w knownW] at stored
    exact (Option.some.inj stored).symm
  bounded := fun v known => (List.getElem?_eq_some_iff.mp (rename_stored f unique v known)).1

theorem renumbered_defs (f : Func) (unique : f.defs.Nodup) : f.renumbered.defs = List.range f.defs.length := by
  rw [renaming_defs f f.renumbered f.rename (renumbered_renaming f unique)]
  apply List.ext_getElem?
  intro id
  rw [List.getElem?_map]
  cases stored : f.defs[id]? with
  | none => simpa using stored
  | some v =>
      have inside := (List.getElem?_eq_some_iff.mp stored).1
      simp [rename_at f unique v id stored, inside]

theorem check_ids_ok (f : Func) : f.checkIds = .ok () ↔ ∀ v ∈ f.defs, v < f.next := by
  by_cases bounded : f.defs.all (· < f.next) = true
  · simp only [Func.checkIds, if_pos bounded, true_iff]
    simpa using bounded
  · simp only [Func.checkIds, if_neg bounded, reduceCtorEq, false_iff]
    simpa using bounded

theorem renumber_ok (f : Func) (bounded : ∀ v ∈ f.defs, v < f.next) : f.renumber = .ok f.renumbered := by
  rw [Func.renumber, (check_ids_ok f).mpr bounded]
  rfl

theorem renumbered_keeps_flags (f : Func) (unique : f.defs.Nodup) (v : Value) (known : v ∈ f.defs) :
    f.renumbered.mayDiverge (f.rename v) = f.mayDiverge v := by
  have stored := rename_stored f unique v known
  have numbered := (new_id_iff f unique v (f.rename v)).mpr stored
  cases flagged : f.divergence with
  | none => simp [Func.mayDiverge, Func.renumbered, flagged]
  | some flags => simp [Func.mayDiverge, Func.renumbered, flagged, Func.renamedFlags, List.getElem?_zipIdx, stored, numbered]

end Regroup
