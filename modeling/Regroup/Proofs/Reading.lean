import Mathlib
import Regroup.Proofs.Recasting
import Regroup.Proofs.Renaming

set_option autoImplicit false

namespace Regroup

def Inst.readCount (i : Inst) (v : Value) : Nat := i.reads.countP (·.value = v)

def Func.endCount (f : Func) (v : Value) : Nat := (f.blocks.flatMap (·.term.reads)).countP (·.value = v)

theorem reads_perm (f : Func) : f.reads.Perm (f.insts.flatMap Inst.reads ++ f.blocks.flatMap (·.term.reads)) := by
  rw [Func.insts, List.flatMap_assoc]
  exact (List.flatMap_append_perm f.blocks _ _).symm

theorem inst_read_counts (insts : List Inst) (v : Value) :
    (insts.flatMap Inst.reads).countP (·.value = v) = (insts.map (·.readCount v)).sum := List.countP_flatMap

theorem read_count_sum (f : Func) (v : Value) :
    f.readCount v = (f.sited.map (·.2.readCount v)).sum + f.endCount v := by
  rw [Func.readCount, (reads_perm f).countP_eq, List.countP_append, inst_read_counts, ← sited_insts, List.map_map]
  rfl

theorem inst_read_count_pos (i : Inst) (s : Scalar) (read : s ∈ i.reads) : 0 < i.readCount s.value :=
  List.countP_pos_iff.mpr ⟨s, read, by simp⟩

theorem sum_one_le {α : Type} (items : List α) (weight : α → Nat) (x : α) (member : x ∈ items) :
    weight x ≤ (items.map weight).sum :=
  List.single_le_sum (fun _ _ => Nat.zero_le _) _ (List.mem_map_of_mem member)

theorem sum_two_le {α : Type} [DecidableEq α] (items : List α) (weight : α → Nat) (x y : α) (inX : x ∈ items)
    (inY : y ∈ items) (different : y ≠ x) : weight x + weight y ≤ (items.map weight).sum := by
  rw [← List.sum_map_erase weight inX]
  exact Nat.add_le_add_left (sum_one_le _ weight y ((List.mem_erase_of_ne different).mpr inY)) _

theorem read_count_pos (f : Func) (site : Site) (i : Inst) (s : Scalar) (stored : f.inst? site = some i)
    (read : s ∈ i.reads) : 0 < f.readCount s.value := by
  have one := sum_one_le f.sited (·.2.readCount s.value) (site, i) ((mem_sited f site i).mpr stored)
  have first := inst_read_count_pos i s read
  have total := read_count_sum f s.value
  dsimp only at one
  omega

section Once

variable (f : Func) (v : Value) (once : f.readCount v = 1)
include once

theorem sole_reader (site place : Site) (i j : Inst) (s t : Scalar) (stored : f.inst? site = some i)
    (found : f.inst? place = some j) (readI : s ∈ i.reads) (readJ : t ∈ j.reads) (valueS : s.value = v)
    (valueT : t.value = v) : place = site ∧ j = i := by
  by_contra different
  have two := sum_two_le f.sited (·.2.readCount v) (site, i) (place, j) ((mem_sited f site i).mpr stored)
    ((mem_sited f place j).mpr found) fun same => different (Prod.mk.inj same)
  have total := read_count_sum f v
  have first := valueS ▸ inst_read_count_pos i s readI
  have second := valueT ▸ inst_read_count_pos j t readJ
  dsimp only at two
  omega

theorem sole_reader_once (site : Site) (i : Inst) (stored : f.inst? site = some i) : i.readCount v ≤ 1 := by
  have one := sum_one_le f.sited (·.2.readCount v) (site, i) ((mem_sited f site i).mpr stored)
  have total := read_count_sum f v
  dsimp only at one
  omega

theorem sole_reader_no_end (site : Site) (i : Inst) (s : Scalar) (stored : f.inst? site = some i) (read : s ∈ i.reads)
    (value : s.value = v) (index : Nat) (b : Block) (inBlock : f.blocks[index]? = some b) (t : Scalar)
    (ends : t ∈ b.term.reads) : t.value ≠ v := by
  intro same
  have one := sum_one_le f.sited (·.2.readCount v) (site, i) ((mem_sited f site i).mpr stored)
  have total := read_count_sum f v
  have first := value ▸ inst_read_count_pos i s read
  have last : 0 < f.endCount v :=
    List.countP_pos_iff.mpr ⟨t, List.mem_flatMap.mpr ⟨b, List.mem_of_getElem? inBlock, ends⟩, by simp [same]⟩
  dsimp only at one
  omega

theorem sole_operand (site : Site) (a : Arith) (stored : f.inst? site = some (.arith a)) (left : a.lhs.value = v) :
    a.rhs.value ≠ v := by
  intro right
  have count := sole_reader_once f v once site _ stored
  simp [Inst.readCount, Inst.reads, left, right] at count

end Once

theorem recast_insts (f : Func) (expand : Site → Inst → List Inst) :
    (f.recast expand).insts = f.sited.flatMap fun e => expand e.1 e.2 := by
  simp only [Func.insts, Func.recast, Func.sited, Block.sited, List.flatMap_map, List.flatMap_assoc]

theorem recast_read_count (f : Func) (expand : Site → Inst → List Inst) (v : Value) :
    (f.recast expand).readCount v =
      (f.sited.map fun e => ((expand e.1 e.2).map (·.readCount v)).sum).sum + f.endCount v := by
  have ends : (f.recast expand).endCount v = f.endCount v := by
    simp only [Func.endCount, Func.recast, List.flatMap_map]
    congr 1
    conv_rhs => rw [← List.zipIdx_map_fst 0 f.blocks, List.flatMap_map]
  rw [Func.readCount, (reads_perm _).countP_eq, List.countP_append, recast_insts, List.flatMap_assoc, List.countP_flatMap]
  change _ + (f.recast expand).endCount v = _
  rw [ends]
  simp only [Function.comp_def, inst_read_counts]

theorem renaming_read_count (f g : Func) (ρ : Value → Value) (link : Renaming f g ρ) (wf : f.WellFormed) (v : Value)
    (known : v ∈ f.defs) : g.readCount (ρ v) = f.readCount v := by
  have reads : g.reads = f.reads.map (Scalar.renamed ρ) := by
    simp only [Func.reads, link.blocks, List.flatMap_map, List.map_flatMap]
    refine List.flatMap_congr fun b _ => ?_
    simp only [Block.reads, Block.renamed, renamed_term_reads, List.map_append, List.flatMap_map, List.map_flatMap,
      renamed_reads]
  rw [Func.readCount, reads, List.countP_map, Func.readCount]
  refine List.countP_congr fun s member => ?_
  have inDefs : s.value ∈ f.defs := by
    rw [(reads_perm f).mem_iff, List.mem_append, List.mem_flatMap, List.mem_flatMap] at member
    rcases member with ⟨i, inInsts, read⟩ | ⟨b, inBlocks, read⟩
    · obtain ⟨site, stored⟩ := (mem_insts f i).mp inInsts
      exact read_known f wf site i s stored read
    · exact term_known f wf b inBlocks s read
  have same : ρ s.value = ρ v ↔ s.value = v := ⟨link.injective s.value inDefs v known, congrArg ρ⟩
  change decide (ρ s.value = ρ v) = true ↔ _
  rw [decide_eq_true_iff, decide_eq_true_iff]
  exact same

end Regroup
