import Mathlib
import Regroup.Func.Uniformity
import Regroup.Proofs.Renaming
import Regroup.Proofs.Saturation

set_option autoImplicit false

namespace Regroup

def Inst.declaredDivergent : Inst → Bool
  | .input _ _ _ divergent => divergent
  | .const .. => false
  | .arith _ => false
  | .phi .. => false
  | .output .. => false

def Terminator.condition? : Terminator → Option Scalar
  | .ret _ => none
  | .jump _ => none
  | .branch cond _ _ => some cond

inductive Func.Varies (f : Func) : Value → Prop where
  | input (site : Site) (i : Inst) (dest : Value) (stored : f.inst? site = some i) (defines : i.dest? = some dest)
      (declared : i.declaredDivergent = true) : f.Varies dest
  | operand (site : Site) (i : Inst) (dest : Value) (s : Scalar) (stored : f.inst? site = some i)
      (defines : i.dest? = some dest) (read : s ∈ i.reads) (cause : f.Varies s.value) : f.Varies dest
  | joined (site : Site) (i : Inst) (dest : Value) (index : Nat) (b : Block) (cond : Scalar)
      (stored : f.inst? site = some i) (defines : i.dest? = some dest) (phi : i.isPhi = true)
      (many : 1 < (f.preds site.block).length) (inBlock : f.blocks[index]? = some b)
      (branch : b.term.condition? = some cond) (cause : f.Varies cond.value) : f.Varies dest

def Func.spreadAt (f : Func) (control : Bool) (marks : Marks) (entry : Site × Inst) : Marks :=
  match entry.2.dest? with
  | some dest =>
      if entry.2.diverges marks (control && 1 < (f.preds entry.1.block).length) then marks.add dest else marks
  | none => marks

theorem spread_divergence_eq (f : Func) (marks : Marks) :
    f.spreadDivergence marks = f.sited.foldl (f.spreadAt (f.divergentControl marks)) marks := by
  simp only [Func.spreadDivergence, Func.sited, List.foldl_flatMap, Block.sited, List.foldl_map, spreadThrough]
  congr 1
  funext now entry
  conv_lhs => rw [← List.zipIdx_map_fst 0 entry.1.insts, List.foldl_map]
  rfl

theorem spread_at_inflates (f : Func) (control : Bool) (entry : Site × Inst) :
    Inflates fun marks => f.spreadAt control marks entry := by
  unfold Func.spreadAt
  cases entry.2.dest? with
  | none => exact inflates_id
  | some dest => exact inflates_add_if (fun marks => entry.2.diverges marks _) dest

theorem spread_divergence_inflates (f : Func) : Inflates f.spreadDivergence := by
  have rule (control : Bool) := inflates_foldl (f.spreadAt control) (spread_at_inflates f control) f.sited
  refine ⟨fun marks => ?_, fun marks v marked => ?_⟩
  · rw [spread_divergence_eq]
    exact (rule _).size marks
  · rw [spread_divergence_eq]
    exact (rule _).keeps marks v marked

theorem divergent_size (f : Func) : f.divergent.size = f.next := by
  rw [Func.divergent, closure_size _ _ (spread_divergence_inflates f), none_size]

theorem diverges_has (marks : Marks) (v : Value) (inside : v < marks.size) : marks.diverges v = marks.has v := by
  simp [Marks.diverges, Marks.has, inside]

theorem inst_diverges_iff (marks : Marks) (joined : Bool) (i : Inst) (dest : Value) (defines : i.dest? = some dest)
    (known : ∀ s ∈ i.reads, s.value < marks.size) : i.diverges marks joined = true ↔
      i.declaredDivergent = true ∨ (∃ s ∈ i.reads, marks.has s.value = true) ∨ (i.isPhi = true ∧ joined = true) := by
  cases i with
  | input d slot width divergent => simp [Inst.diverges, Inst.declaredDivergent, Inst.reads, Inst.isPhi]
  | const d lanes => simp [Inst.diverges, Inst.declaredDivergent, Inst.reads, Inst.isPhi]
  | arith a =>
      rw [Inst.diverges, diverges_has marks _ (known a.lhs (by simp [Inst.reads])),
        diverges_has marks _ (known a.rhs (by simp [Inst.reads]))]
      simp [Inst.declaredDivergent, Inst.reads, Inst.isPhi]
  | phi d incoming =>
      have same : (incoming.any fun x => marks.diverges x.1.value) = incoming.any fun x => marks.has x.1.value := by
        rw [Bool.eq_iff_iff]
        simp only [List.any_eq_true]
        refine exists_congr fun x => and_congr_right fun member => ?_
        rw [diverges_has marks _ (known x.1 (List.mem_map_of_mem member))]
      change (joined || incoming.any fun x => marks.diverges x.1.value) = true ↔ _
      rw [same]
      simp [Inst.declaredDivergent, Inst.reads, Inst.isPhi, or_comm]
  | output slot src => cases defines

section WellFormed

variable (f : Func) (wf : f.WellFormed)
include wf

theorem divergent_control_iff (marks : Marks) (size : marks.size = f.next) : f.divergentControl marks = true ↔
    ∃ (index : Nat) (b : Block) (cond : Scalar), f.blocks[index]? = some b ∧ b.term.condition? = some cond ∧
      marks.has cond.value = true := by
  have known (b : Block) (member : b ∈ f.blocks) (s : Scalar) (read : s ∈ b.term.reads) : s.value < marks.size := by
    rw [size]
    exact wf.bounded _ (term_known f wf b member s read)
  rw [Func.divergentControl, List.any_eq_true]
  constructor
  · intro found
    obtain ⟨b, member, diverges⟩ := found
    obtain ⟨index, stored⟩ := List.mem_iff_getElem?.mp member
    cases term : b.term with
    | ret src => simp [term] at diverges
    | jump target => simp [term] at diverges
    | branch cond onTrue onFalse =>
        simp only [term] at diverges
        rw [diverges_has marks _ (known b member cond (by simp [term, Terminator.reads]))] at diverges
        exact ⟨index, b, cond, stored, by rw [term]; rfl, diverges⟩
  · intro found
    obtain ⟨index, b, cond, stored, branch, marked⟩ := found
    have member := List.mem_of_getElem? stored
    refine ⟨b, member, ?_⟩
    cases term : b.term with
    | ret src => simp [term, Terminator.condition?] at branch
    | jump target => simp [term, Terminator.condition?] at branch
    | branch c onTrue onFalse =>
        obtain rfl : c = cond := by simpa [term, Terminator.condition?] using branch
        simp only
        rw [diverges_has marks _ (known b member c (by simp [term, Terminator.reads])), marked]

theorem inst_reads_bounded (site : Site) (i : Inst) (stored : f.inst? site = some i) : ∀ s ∈ i.reads, s.value < f.next := by
  intro s read
  obtain ⟨place, j, defined, _⟩ := read_defined f wf site i s stored read
  exact defines_bounded f wf _ place j defined

theorem divergent_sound (v : Value) (marked : f.divergent.has v = true) : f.Varies v := by
  refine closure_within _ _ (spread_divergence_inflates f) f.Varies (fun marks sized sound => ?_) (fun i start => ?_) v
    marked
  · rw [none_size] at sized
    rw [spread_divergence_eq]
    -- control is judged by the marks at the start of the sweep, operands by those of the moment
    refine foldl_within _ (spread_at_inflates f _) _ f.next _ (fun entry member now size held v grown => ?_) marks sized
      sound
    obtain ⟨site, i⟩ := entry
    have stored := (mem_sited f site i).mp member
    cases defines : i.dest? with
    | none =>
        simp only [Func.spreadAt, defines] at grown
        exact held v grown
    | some dest =>
        simp only [Func.spreadAt, defines] at grown
        by_cases diverges : i.diverges now (f.divergentControl marks && 1 < (f.preds site.block).length) = true
        · rw [if_pos diverges, has_add] at grown
          rcases Bool.or_eq_true_iff.mp grown with old | fresh
          · exact held v old
          · simp only [Bool.and_eq_true, decide_eq_true_eq] at fresh
            rw [fresh.1]
            rcases (inst_diverges_iff now _ i dest defines (size ▸ inst_reads_bounded f wf site i stored)).mp diverges with
              declared | ⟨s, read, cause⟩ | ⟨phi, both⟩
            · exact .input site i dest stored defines declared
            · exact .operand site i dest s stored defines read (held s.value cause)
            · rw [Bool.and_eq_true, decide_eq_true_eq] at both
              obtain ⟨index, b, cond, inBlock, branch, cause⟩ := (divergent_control_iff f wf marks sized).mp both.1
              exact .joined site i dest index b cond stored defines phi both.2 inBlock branch (sound _ cause)
        · rw [if_neg diverges] at grown
          exact held v grown
  · simp [has_none] at start

theorem divergent_complete (v : Value) (varies : f.Varies v) : f.divergent.has v = true := by
  have closed : ∀ entry ∈ f.sited, f.spreadAt (f.divergentControl f.divergent) f.divergent entry = f.divergent := by
    have fixed := closure_fixed (Marks.none f.next) _ (spread_divergence_inflates f)
    rw [spread_divergence_eq] at fixed
    exact foldl_fixed _ (spread_at_inflates f _) _ _ fixed
  have size := divergent_size f
  have marked (site : Site) (i : Inst) (dest : Value) (stored : f.inst? site = some i) (defines : i.dest? = some dest)
      (cause : i.declaredDivergent = true ∨ (∃ s ∈ i.reads, f.divergent.has s.value = true) ∨ (i.isPhi = true ∧
        (f.divergentControl f.divergent && decide (1 < (f.preds site.block).length)) = true)) :
      f.divergent.has dest = true := by
    have diverges := (inst_diverges_iff _ _ i dest defines (size ▸ inst_reads_bounded f wf site i stored)).mpr cause
    have same := closed (site, i) ((mem_sited f site i).mpr stored)
    simp only [Func.spreadAt, defines, if_pos diverges] at same
    rw [← same, has_add]
    simp [size, defines_bounded f wf dest site i ⟨stored, defines⟩]
  induction varies with
  | input site i dest stored defines declared => exact marked site i dest stored defines (Or.inl declared)
  | operand site i dest s stored defines read _ ih => exact marked site i dest stored defines (Or.inr (Or.inl ⟨s, read, ih⟩))
  | joined site i dest index b cond stored defines phi many inBlock branch _ ih =>
      have control := (divergent_control_iff f wf f.divergent size).mpr ⟨index, b, cond, inBlock, branch, ih⟩
      exact marked site i dest stored defines (Or.inr (Or.inr ⟨phi, by simp [control, many]⟩))

theorem divergent_iff (v : Value) : f.divergent.has v = true ↔ f.Varies v :=
  ⟨divergent_sound f wf v, divergent_complete f wf v⟩

end WellFormed

theorem renamed_declared (ρ : Value → Value) (i : Inst) : (i.renamed ρ).declaredDivergent = i.declaredDivergent := by
  cases i <;> rfl

theorem renamed_condition (ρ : Value → Value) (t : Terminator) :
    (t.mapReads (Scalar.renamed ρ)).condition? = t.condition?.map (Scalar.renamed ρ) := by
  cases t <;> rfl

theorem condition_read (t : Terminator) (cond : Scalar) (branch : t.condition? = some cond) : cond ∈ t.reads := by
  cases t with
  | ret src => cases branch
  | jump target => cases branch
  | branch c onTrue onFalse =>
      cases branch
      simp [Terminator.reads]

section Renaming

variable (f g : Func) (ρ : Value → Value) (link : Renaming f g ρ)
include link

theorem renaming_varies_onward (v : Value) (varies : f.Varies v) : g.Varies (ρ v) := by
  induction varies with
  | input site i d stored defines declared =>
      obtain ⟨there, dest⟩ := renaming_defines f g ρ link d site i ⟨stored, defines⟩
      exact .input site _ (ρ d) there dest (by rw [renamed_declared]; exact declared)
  | operand site i d s stored defines read _ ih =>
      obtain ⟨there, dest⟩ := renaming_defines f g ρ link d site i ⟨stored, defines⟩
      refine .operand site _ (ρ d) (s.renamed ρ) there dest ?_ ih
      rw [renamed_reads]
      exact List.mem_map_of_mem read
  | joined site i d index b cond stored defines phi many inBlock branch _ ih =>
      obtain ⟨there, dest⟩ := renaming_defines f g ρ link d site i ⟨stored, defines⟩
      have block : g.blocks[index]? = some (b.renamed ρ) := by
        rw [link.blocks, List.getElem?_map, inBlock]
        rfl
      have condition : (b.renamed ρ).term.condition? = some (cond.renamed ρ) := by
        rw [Block.renamed, renamed_condition, branch]
        rfl
      exact .joined site _ (ρ d) index _ (cond.renamed ρ) there dest (by rw [renamed_is_phi]; exact phi)
        (outline_preds f g (renaming_outline f g ρ link) ▸ many) block condition ih

variable (wf : f.WellFormed)
include wf

-- A cause in the renamed function is the new name of a value that some instruction of the other one reads.
theorem renaming_varies_back (w : Value) (varies : g.Varies w) (v : Value) (known : v ∈ f.defs) (same : ρ v = w) :
    f.Varies v := by
  induction varies generalizing v with
  | input site j dest stored defines declared =>
      obtain ⟨i, defined, rfl⟩ := renaming_defines_back f g ρ link v site j known ⟨stored, same ▸ defines⟩
      exact .input site i v defined.1 defined.2 (renamed_declared ρ i ▸ declared)
  | operand site j dest s stored defines read _ ih =>
      obtain ⟨i, defined, rfl⟩ := renaming_defines_back f g ρ link v site j known ⟨stored, same ▸ defines⟩
      rw [renamed_reads, List.mem_map] at read
      obtain ⟨t, listed, rfl⟩ := read
      exact .operand site i v t defined.1 defined.2 listed (ih t.value (read_known f wf site i t defined.1 listed) rfl)
  | joined site j dest index c cond stored defines phi many inBlock branch _ ih =>
      obtain ⟨i, defined, rfl⟩ := renaming_defines_back f g ρ link v site j known ⟨stored, same ▸ defines⟩
      rw [link.blocks, List.getElem?_map, Option.map_eq_some_iff] at inBlock
      obtain ⟨b, block, rfl⟩ := inBlock
      rw [Block.renamed, renamed_condition, Option.map_eq_some_iff] at branch
      obtain ⟨t, condition, rfl⟩ := branch
      have inTerm := term_known f wf b (List.mem_of_getElem? block) t (condition_read _ t condition)
      exact .joined site i v index b t defined.1 defined.2 (renamed_is_phi ρ i ▸ phi)
        (outline_preds f g (renaming_outline f g ρ link) ▸ many) block condition (ih t.value inTerm rfl)

theorem renaming_varies (v : Value) (known : v ∈ f.defs) : g.Varies (ρ v) ↔ f.Varies v :=
  ⟨fun varies => renaming_varies_back f g ρ link wf (ρ v) varies v known rfl, renaming_varies_onward f g ρ link v⟩

end Renaming

end Regroup
