import Mathlib
import Regroup.Proofs.Surveying

set_option autoImplicit false

namespace Regroup

theorem flat_map_get_iff {α β : Type} (items : List α) (expand : α → List β) (p : Nat) (y : β) :
    (items.flatMap expand)[p]? = some y ↔ ∃ k x off, items[k]? = some x ∧ (expand x)[off]? = some y ∧
      p = ((items.take k).flatMap expand).length + off := by
  induction items generalizing p with
  | nil => simp
  | cons head rest ih =>
      rw [List.flatMap_cons]
      constructor
      · intro found
        by_cases here : p < (expand head).length
        · rw [List.getElem?_append_left here] at found
          exact ⟨0, head, p, rfl, found, by simp⟩
        · rw [List.getElem?_append_right (Nat.le_of_not_lt here)] at found
          obtain ⟨k, x, off, stored, inside, place⟩ := (ih _).mp found
          refine ⟨k + 1, x, off, stored, inside, ?_⟩
          simp only [List.take_succ_cons, List.flatMap_cons, List.length_append]
          omega
      · intro found
        obtain ⟨k, x, off, stored, inside, place⟩ := found
        cases k with
        | zero =>
            cases stored
            have bound := (List.getElem?_eq_some_iff.mp inside).1
            have same : p = off := by simpa using place
            rw [same, List.getElem?_append_left bound]
            exact inside
        | succ k =>
            simp only [List.take_succ_cons, List.flatMap_cons, List.length_append] at place
            rw [List.getElem?_append_right (by omega)]
            exact (ih _).mpr ⟨k, x, off, stored, inside, by omega⟩

theorem flat_map_starts {α β : Type} (items : List α) (expand : α → List β) (k later : Nat) (x : α)
    (stored : items[k]? = some x) (less : k < later) :
    ((items.take k).flatMap expand).length + (expand x).length ≤ ((items.take later).flatMap expand).length := by
  obtain ⟨inside, here⟩ := List.getElem?_eq_some_iff.mp stored
  have next : items.take (k + 1) = items.take k ++ [x] := by rw [List.take_add_one, stored]; rfl
  have sub : ((items.take (k + 1)).flatMap expand).Sublist ((items.take later).flatMap expand) :=
    (List.take_sublist_take_left less).flatMap expand
  simpa [next] using sub.length_le

-- Where the expansion of the instruction at a position begins.
def Func.start (f : Func) (expand : Site → Inst → List Inst) (site : Site) : Nat :=
  match f.blocks[site.block]? with
  | some b => ((b.insts.zipIdx.take site.inst).flatMap fun (i, place) => expand ⟨site.block, place⟩ i).length
  | none => 0

def Func.spot (f : Func) (expand : Site → Inst → List Inst) (site : Site) (off : Nat) : Site :=
  ⟨site.block, f.start expand site + off⟩

section Positions

variable (f : Func) (expand : Site → Inst → List Inst)

theorem recast_inst_iff (place : Site) (j : Inst) : (f.recast expand).inst? place = some j ↔
    ∃ site i off, f.inst? site = some i ∧ (expand site i)[off]? = some j ∧ place = f.spot expand site off := by
  obtain ⟨block, p⟩ := place
  simp only [Func.inst?, recast_block, Option.bind_map]
  cases stored : f.blocks[block]? with
  | none =>
      simp only [Option.bind_none, reduceCtorEq, false_iff]
      intro found
      obtain ⟨site, i, off, there, _, same⟩ := found
      rw [← show block = site.block from congrArg Site.block same, stored] at there
      cases there
  | some b =>
      simp only [Option.bind_some, Function.comp, flat_map_get_iff]
      constructor
      · intro found
        obtain ⟨k, ⟨i, place⟩, off, listed, inside, spot⟩ := found
        obtain ⟨here, index⟩ : b.insts[k]? = some i ∧ k = place := by
          simpa [List.getElem?_zipIdx, Option.map_eq_some_iff] using listed
        subst index
        refine ⟨⟨block, k⟩, i, off, by simpa [stored] using here, inside, ?_⟩
        simp only [Func.spot, Func.start, stored, spot]
      · intro found
        obtain ⟨⟨index, k⟩, i, off, there, inside, same⟩ := found
        obtain rfl : block = index := congrArg Site.block same
        simp only [stored, Option.bind_some] at there
        refine ⟨k, (i, k), off, by simp [List.getElem?_zipIdx, there], inside, ?_⟩
        simpa [Func.spot, Func.start, stored] using congrArg Site.inst same

theorem recast_end (index : Nat) (b : Block) (stored : f.blocks[index]? = some b) :
    ∃ c, (f.recast expand).blocks[index]? = some c ∧ c.label = b.label ∧ c.term = b.term ∧
      (⟨index, c.insts.length⟩ : Site) = f.spot expand ⟨index, b.insts.length⟩ 0 := by
  have there := recast_block f expand index
  rw [stored, Option.map_some] at there
  refine ⟨_, there, rfl, rfl, ?_⟩
  have all : b.insts.zipIdx.take b.insts.length = b.insts.zipIdx := List.take_of_length_le (by simp)
  simp only [Func.spot, Func.start, stored, all, Nat.add_zero]

theorem recast_outline : (f.recast expand).outline = f.outline := by
  simp only [Func.outline, Func.recast, List.map_map]
  conv_rhs => rw [← List.zipIdx_map_fst 0 f.blocks, List.map_map]
  rfl

theorem start_lt (site place : Site) (i : Inst) (stored : f.inst? site = some i) (sameBlock : site.block = place.block)
    (before : site.inst < place.inst) :
    f.start expand site + (expand site i).length ≤ f.start expand place := by
  obtain ⟨b, inBlock, here⟩ := Option.bind_eq_some_iff.mp stored
  have listed : b.insts.zipIdx[site.inst]? = some (i, site.inst) := by simp [List.getElem?_zipIdx, here]
  have bound := flat_map_starts b.insts.zipIdx (fun (i, place) => expand ⟨site.block, place⟩ i) site.inst place.inst _
    listed before
  simpa [Func.start, inBlock, ← sameBlock] using bound

theorem spot_precedes (site place : Site) (off other : Nat) (i : Inst) (stored : f.inst? site = some i)
    (inside : off < (expand site i).length)
    (within : ∀ k, f.inst? place = some k → other < (expand place k).length) :
    (f.recast expand).precedes (f.spot expand site off) (f.spot expand place other) =
      if site = place then decide (off < other) else f.precedes site place := by
  rw [outline_precedes f (f.recast expand) (recast_outline f expand)]
  by_cases same : site = place
  · subst same
    simp [Func.precedes, Func.spot]
  · rw [if_neg same]
    by_cases sameBlock : site.block = place.block
    · rw [Bool.eq_iff_iff]
      simp only [Func.precedes, Func.spot, sameBlock, if_true, decide_eq_true_eq]
      have different : site.inst ≠ place.inst := by
        intro equal
        cases site
        cases place
        simp_all
      rcases Nat.lt_or_gt_of_ne different with before | after
      · have bound := start_lt f expand site place i stored sameBlock before
        omega
      · -- a position before an instruction of its block holds an instruction itself
        obtain ⟨b, inBlock, here⟩ := Option.bind_eq_some_iff.mp stored
        have long := (List.getElem?_eq_some_iff.mp here).1
        have exists_ : f.inst? place = some (b.insts.get ⟨place.inst, by omega⟩) := by
          simp [Func.inst?, ← sameBlock, inBlock, List.getElem?_eq_getElem (show place.inst < b.insts.length by omega)]
        have bound := start_lt f expand place site _ exists_ sameBlock.symm after
        have small := within _ exists_
        omega
    · simp [Func.precedes, Func.spot, sameBlock]

theorem recast_defines_iff (v : Value) (place : Site) (j : Inst) : (f.recast expand).Defines v place j ↔
    ∃ site i off, f.inst? site = some i ∧ (expand site i)[off]? = some j ∧ j.dest? = some v ∧
      place = f.spot expand site off := by
  rw [Func.Defines, recast_inst_iff]
  constructor
  · intro both
    obtain ⟨⟨site, i, off, stored, inside, same⟩, dest⟩ := both
    exact ⟨site, i, off, stored, inside, dest, same⟩
  · intro found
    obtain ⟨site, i, off, stored, inside, dest, same⟩ := found
    exact ⟨⟨site, i, off, stored, inside, same⟩, dest⟩

theorem recast_ready_iff (v : Value) (place : Site) (other : Nat)
    (within : ∀ k, f.inst? place = some k → other < (expand place k).length) :
    (f.recast expand).Ready v (f.spot expand place other) ↔
      ∃ site i off j, f.inst? site = some i ∧ (expand site i)[off]? = some j ∧ j.dest? = some v ∧
        if site = place then off < other else f.precedes site place = true := by
  simp only [Func.Ready, recast_defines_iff]
  constructor
  · intro ready
    obtain ⟨_, j, ⟨site, i, off, stored, inside, dest, rfl⟩, before⟩ := ready
    have bound := (List.getElem?_eq_some_iff.mp inside).1
    rw [spot_precedes f expand site place off other i stored bound within] at before
    refine ⟨site, i, off, j, stored, inside, dest, ?_⟩
    by_cases same : site = place <;> simpa [same] using before
  · intro ready
    obtain ⟨site, i, off, j, stored, inside, dest, before⟩ := ready
    have bound := (List.getElem?_eq_some_iff.mp inside).1
    refine ⟨_, j, ⟨site, i, off, stored, inside, dest, rfl⟩, ?_⟩
    rw [spot_precedes f expand site place off other i stored bound within]
    by_cases same : site = place <;> simpa [same] using before

end Positions

theorem defs_nodup (f : Func)
    (once : ∀ v a b i j, f.Defines v a i → f.Defines v b j → a = b) : f.defs.Nodup := by
  rw [← sited_defs, List.Nodup, List.pairwise_filterMap]
  refine (sited_earlier f).imp_of_mem fun {x y} inX inY earlier v atX w atY same => ?_
  subst same
  have equal := once v x.1 y.1 x.2 y.2 ⟨(mem_sited f _ _).mp inX, atX⟩ ⟨(mem_sited f _ _).mp inY, atY⟩
  exact earlier_irrefl y.1 (equal ▸ earlier)

end Regroup
