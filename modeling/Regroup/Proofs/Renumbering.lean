import Mathlib
import Regroup.Proofs.Frame
import Regroup.Proofs.Running

set_option autoImplicit false

namespace Regroup

section Dense

variable (f : Func) (dense : f.defs = List.range f.next)
include dense

theorem dense_rename : f.rename = id := by
  have unique : f.defs.Nodup := dense ▸ List.nodup_range
  funext v
  by_cases small : v < f.next
  · apply rename_at f unique v v
    rw [dense, List.getElem?_range small]
  · cases found : f.newId? v with
    | none => rw [Func.rename, found, Option.getD_none, id]
    | some id =>
        have stored := (new_id_iff f unique v id).mp found
        have listed := List.mem_of_getElem? stored
        rw [dense, List.mem_range] at listed
        exact absurd listed small

theorem dense_flags (flags : Array Bool) (sized : flags.size = f.next) : f.renamedFlags flags = flags := by
  have unique : f.defs.Nodup := dense ▸ List.nodup_range
  apply Array.ext_getElem?
  intro v
  by_cases small : v < f.next
  · have stored : f.defs[v]? = some v := by rw [dense, List.getElem?_range small]
    have numbered := (new_id_iff f unique v v).mpr stored
    simp [Func.renamedFlags, List.getElem?_zipIdx, stored, numbered, sized, small]
  · have beyond : f.defs.length ≤ v := by
      rw [dense, List.length_range]
      exact Nat.le_of_not_lt small
    simp [Func.renamedFlags, sized, small, beyond]

theorem dense_renumbered (sized : ∀ flags, f.divergence = some flags → flags.size = f.next) : f.renumbered = f := by
  have renamed (b : Block) : Block.renamed f.rename b = b := by
    rw [dense_rename f dense, Block.renamed, renamed_term_id, List.map_id'' renamed_id]
  have blocks : f.renumbered.blocks = f.blocks := List.map_id'' renamed f.blocks
  have next : f.renumbered.next = f.next := by rw [Func.renumbered, dense, List.length_range]
  have divergence : f.renumbered.divergence = f.divergence := by
    cases flagged : f.divergence with
    | none => simp [Func.renumbered, flagged]
    | some flags => simp [Func.renumbered, flagged, dense_flags f dense flags (sized flags flagged)]
  have parts : f.renumbered = ⟨f.name, f.renumbered.blocks, f.renumbered.next, f.renumbered.divergence⟩ := rfl
  rw [parts, blocks, next, divergence]

end Dense

theorem renumbered_flags_sized (f : Func) (flags : Array Bool) (flagged : f.renumbered.divergence = some flags) :
    flags.size = f.renumbered.next := by
  obtain ⟨old, _, same⟩ := Option.map_eq_some_iff.mp flagged
  rw [← same]
  simp [Func.renamedFlags, Func.renumbered]

theorem renumber_keeps_meaning (f : Func) (accepted : f.check = .ok ()) :
    ∃ g, f.renumber = .ok g ∧ Renaming f g f.rename ∧ g.check = .ok () ∧ g.defs = f.defs.map f.rename ∧
      g.defs = List.range g.next ∧ (∀ inputs, g.run inputs = (f.run inputs).mapError (Stop.renamed f.rename)) ∧
      (∀ v ∈ f.defs, g.mayDiverge (f.rename v) = f.mayDiverge v) ∧ g.renumber = .ok g := by
  have wf := (check_ok_iff f).mp accepted
  have link := renumbered_renaming f wf.unique
  have fine := renaming_well_formed f _ f.rename link wf
  have dense : f.renumbered.defs = List.range f.renumbered.next := renumbered_defs f wf.unique
  have again : f.renumbered.renumber = .ok f.renumbered := by
    rw [renumber_ok _ fine.bounded, dense_renumbered _ dense (renumbered_flags_sized f)]
  exact ⟨f.renumbered, renumber_ok f wf.bounded, link, (check_ok_iff _).mpr fine, renaming_defs f _ f.rename link, dense,
    fun inputs => renamed_run f _ f.rename link inputs wf, renumbered_keeps_flags f wf.unique, again⟩

-- A loop with numbers in no order, some of them unused, and flags for the first of them only.
def sparseLoop : Func where
  name := "sparse"
  blocks :=
    [⟨0, [.input 7 0 2 false, .const 2 [.int 3], .arith (Arith.plain 5 .iadd ⟨7, 1⟩ (.of 2))], .jump 1⟩,
     ⟨1, [.phi 0 [(.of 5, 0), (.of 4, 1)], .arith (Arith.plain 4 .iadd (.of 0) (.of 2)), .output 0 (.of 4)],
      .branch (.of 4) 1 2⟩,
     ⟨2, [], .ret (some (.of 0))⟩]
  next := 9
  divergence := some #[true, true, false]

def laneInputs (lanes : List Const) : Inputs
  | 0 => some lanes
  | _ => none

theorem sparse_loop_renumbered : sparseLoop.check = .ok () ∧ ∃ g, sparseLoop.renumber = .ok g ∧
    g.defs = [0, 1, 2, 3, 4] ∧ g.run (laneInputs [.int 1, .int (-6)]) = .ok ⟨[(0, .int 0)], some (.int (-3))⟩ ∧
    g.run (laneInputs [.int 1]) = .error (.error (.unavailable ⟨0, 1⟩)) ∧ g.mayDiverge 0 = true ∧
    g.mayDiverge 1 = false ∧ g.renumber = .ok g := by
  have accepted : sparseLoop.check = .ok () := by decide +kernel
  obtain ⟨g, done, _, _, defs, _, runs, flags, again⟩ := renumber_keeps_meaning sparseLoop accepted
  have full : sparseLoop.run (laneInputs [.int 1, .int (-6)]) = .ok ⟨[(0, .int 0)], some (.int (-3))⟩ := by
    decide +kernel
  have short : sparseLoop.run (laneInputs [.int 1]) = .error (.error (.unavailable ⟨7, 1⟩)) := by decide +kernel
  have seventh : sparseLoop.rename 7 = 0 := by decide +kernel
  have second : sparseLoop.rename 2 = 1 := by decide +kernel
  have numbered : sparseLoop.defs.map sparseLoop.rename = [0, 1, 2, 3, 4] := by decide +kernel
  have beyond := flags 7 (by decide +kernel)
  have within := flags 2 (by decide +kernel)
  rw [seventh] at beyond
  rw [second] at within
  refine ⟨accepted, g, done, defs.trans numbered, ?_, ?_, beyond, within, again⟩
  · rw [runs, full]
    rfl
  · rw [runs, short, Except.mapError, Stop.renamed, Scalar.renamed, seventh]

def Func.Ascending (f : Func) : Prop :=
  ∀ e ∈ f.sited, e.2.isPhi = false → ∀ v ∈ e.2.dest?, ∀ s ∈ e.2.reads, s.value < v

instance (f : Func) : Decidable f.Ascending :=
  inferInstanceAs (Decidable (∀ e ∈ f.sited, e.2.isPhi = false → ∀ v ∈ e.2.dest?, ∀ s ∈ e.2.reads, s.value < v))

def Func.DefinesFirst (f : Func) : Prop :=
  ∀ e ∈ f.sited, e.2.isPhi = false → ∀ v ∈ e.2.dest?, ∀ s ∈ e.2.reads, ∀ d ∈ f.sited,
    d.2.dest? = some s.value → d.1.block ≤ e.1.block

def Func.ListsDominatorsFirst (f : Func) : Prop :=
  ∀ a < f.blocks.length, ∀ b < f.blocks.length, a ≠ b → f.dominates a b = true → a < b

instance (f : Func) : Decidable f.ListsDominatorsFirst :=
  inferInstanceAs (Decidable (∀ a < f.blocks.length, ∀ b < f.blocks.length, a ≠ b → f.dominates a b = true → a < b))

def Func.sitedDefs (f : Func) : List (Site × Value) := f.sited.filterMap fun e => e.2.dest?.map fun v => (e.1, v)

theorem sited_defs_values (f : Func) : f.sitedDefs.map Prod.snd = f.defs := by
  rw [Func.sitedDefs, List.map_filterMap, ← sited_defs]
  congr 1
  funext e
  cases e.2.dest? <;> rfl

theorem sited_defs_earlier (f : Func) : f.sitedDefs.Pairwise fun x y => x.1.Earlier y.1 := by
  rw [Func.sitedDefs, List.pairwise_filterMap]
  apply (sited_earlier f).imp
  intro d e earlier x atD y atE
  obtain ⟨v, _, rfl⟩ := Option.map_eq_some_iff.mp atD
  obtain ⟨w, _, rfl⟩ := Option.map_eq_some_iff.mp atE
  exact earlier

section Order

variable (f : Func) (unique : f.defs.Nodup)
include unique

theorem sited_def_at (v : Value) (site : Site) (i : Inst) (defined : f.Defines v site i) :
    f.sitedDefs[f.rename v]? = some (site, v) := by
  have stored := rename_stored f unique v ((mem_defs f v).mpr ⟨site, i, defined⟩)
  rw [← sited_defs_values, List.getElem?_map, Option.map_eq_some_iff] at stored
  obtain ⟨⟨place, w⟩, there, same⟩ := stored
  obtain ⟨⟨spot, j⟩, member, made⟩ := List.mem_filterMap.mp (List.mem_of_getElem? there)
  obtain ⟨u, dest, equal⟩ := Option.map_eq_some_iff.mp made
  cases equal
  cases same
  obtain ⟨rfl, _⟩ := defines_unique f unique _ _ _ _ _ ⟨(mem_sited f _ _).mp member, dest⟩ defined
  exact there

theorem rename_lt_iff (v w : Value) (a b : Site) (i j : Inst) (one : f.Defines v a i) (two : f.Defines w b j) :
    f.rename v < f.rename w ↔ a.Earlier b := by
  have ordered (x y : Value) (c d : Site) (k l : Inst) (first : f.Defines x c k) (second : f.Defines y d l)
      (less : f.rename x < f.rename y) : c.Earlier d := by
    obtain ⟨inX, atX⟩ := List.getElem?_eq_some_iff.mp (sited_def_at f unique x c k first)
    obtain ⟨inY, atY⟩ := List.getElem?_eq_some_iff.mp (sited_def_at f unique y d l second)
    have earlier := List.pairwise_iff_getElem.mp (sited_defs_earlier f) _ _ inX inY less
    rwa [atX, atY] at earlier
  constructor
  · exact ordered v w a b i j one two
  · intro earlier
    by_contra notLess
    rcases Nat.lt_or_eq_of_le (Nat.le_of_not_lt notLess) with less | same
    · exact earlier_irrefl a (earlier_trans a b a earlier (ordered w v b a j i two one less))
    · have atV := sited_def_at f unique v a i one
      rw [← same, sited_def_at f unique w b j two] at atV
      cases atV
      exact earlier_irrefl a earlier

end Order

section Operands

variable (f : Func) (wf : f.WellFormed)
include wf

-- What is checked to come first stands earlier in the text just if its block does not stand later.
theorem operand_earlier_iff (site place : Site) (i j : Inst) (s : Scalar) (stored : f.inst? site = some i)
    (noPhi : i.isPhi = false) (read : s ∈ i.reads) (defined : f.Defines s.value place j) :
    place.Earlier site ↔ place.block ≤ site.block := by
  obtain ⟨there, k, again, before⟩ := read_ready f wf site i s stored read noPhi
  obtain ⟨rfl, _⟩ := defines_unique f wf.unique _ _ _ _ _ defined again
  by_cases same : place.block = site.block
  · simpa [Site.Earlier, Func.precedes, same] using before
  · simp only [Site.Earlier]
    omega

theorem renumbered_ascends_iff : f.renumbered.Ascending ↔ f.DefinesFirst := by
  have link := renumbered_renaming f wf.unique
  constructor
  · intro ascending e member noPhi v dest s read d source defines
    have stored := (mem_sited f e.1 e.2).mp member
    have defined : f.Defines s.value d.1 d.2 := ⟨(mem_sited f d.1 d.2).mp source, defines⟩
    have renamed : (e.1, e.2.renamed f.rename) ∈ f.renumbered.sited := by
      rw [mem_sited, renaming_inst f _ f.rename link, stored]
      rfl
    have less := ascending _ renamed (by rw [renamed_is_phi]; exact noPhi) (f.rename v)
      (by rw [renamed_dest, Option.mem_def, dest]; rfl) (s.renamed f.rename)
      (by rw [renamed_reads]; exact List.mem_map_of_mem read)
    rw [← operand_earlier_iff f wf e.1 d.1 e.2 d.2 s stored noPhi read defined]
    exact (rename_lt_iff f wf.unique s.value v d.1 e.1 d.2 e.2 defined ⟨stored, dest⟩).mp less
  · intro first e member noPhi w dest t read
    have stored := (mem_sited f.renumbered e.1 e.2).mp member
    rw [renaming_inst f _ f.rename link, Option.map_eq_some_iff] at stored
    obtain ⟨i, there, same⟩ := stored
    rw [← same, renamed_is_phi] at noPhi
    rw [← same, renamed_dest, Option.mem_def, Option.map_eq_some_iff] at dest
    rw [← same, renamed_reads, List.mem_map] at read
    obtain ⟨v, defines, rfl⟩ := dest
    obtain ⟨s, listed, rfl⟩ := read
    obtain ⟨place, j, defined, _⟩ := read_defined f wf e.1 i s there listed
    have low := first (e.1, i) ((mem_sited f _ _).mpr there) noPhi v defines s listed (place, j)
      ((mem_sited f _ _).mpr defined.1) defined.2
    have earlier := (operand_earlier_iff f wf e.1 place i j s there noPhi listed defined).mpr low
    exact (rename_lt_iff f wf.unique s.value v place e.1 j i defined ⟨there, defines⟩).mpr earlier

theorem dominators_first_defines_first (listed : f.ListsDominatorsFirst) : f.DefinesFirst := by
  have inside (site : Site) (i : Inst) (stored : f.inst? site = some i) : site.block < f.blocks.length := by
    obtain ⟨b, inBlock, _⟩ := Option.bind_eq_some_iff.mp stored
    exact (List.getElem?_eq_some_iff.mp inBlock).1
  intro e member noPhi v dest s read d source defines
  have stored := (mem_sited f e.1 e.2).mp member
  have there := (mem_sited f d.1 d.2).mp source
  obtain ⟨place, j, defined, before⟩ := read_ready f wf e.1 e.2 s stored read noPhi
  obtain ⟨same, _⟩ := defines_unique f wf.unique s.value place d.1 j d.2 defined ⟨there, defines⟩
  rw [same] at before
  by_cases together : d.1.block = e.1.block
  · exact Nat.le_of_eq together
  · rw [Func.precedes, if_neg together] at before
    exact Nat.le_of_lt (listed _ (inside d.1 d.2 there) _ (inside e.1 e.2 stored) together before)

end Operands

theorem renumber_ascends_iff (f : Func) (accepted : f.check = .ok ()) :
    ∃ g, f.renumber = .ok g ∧ (g.Ascending ↔ f.DefinesFirst) ∧ (f.ListsDominatorsFirst → g.Ascending) := by
  have wf := (check_ok_iff f).mp accepted
  have condition := renumbered_ascends_iff f wf
  exact ⟨f.renumbered, renumber_ok f wf.bounded, condition, fun listed =>
    condition.mpr (dominators_first_defines_first f wf listed)⟩

theorem sparse_loop_ascends : sparseLoop.check = .ok () ∧ ¬ sparseLoop.Ascending ∧ sparseLoop.ListsDominatorsFirst ∧
    ∃ g, sparseLoop.renumber = .ok g ∧ g.Ascending := by
  have accepted : sparseLoop.check = .ok () := by decide +kernel
  have listed : sparseLoop.ListsDominatorsFirst := by decide +kernel
  obtain ⟨g, done, _, ascends⟩ := renumber_ascends_iff sparseLoop accepted
  exact ⟨accepted, by decide +kernel, listed, g, done, ascends listed⟩

-- The block that defines the operand dominates the block of the sum, but stands behind it.
def lateInput : Func where
  name := "late"
  blocks :=
    [⟨0, [], .jump 2⟩,
     ⟨1, [.arith (Arith.plain 1 .iadd (.of 0) (.of 0))], .ret (some (.of 1))⟩,
     ⟨2, [.input 0 0 1 false], .jump 1⟩]
  next := 2
  divergence := none

theorem late_input_descends : lateInput.check = .ok () ∧ lateInput.renumber = .ok lateInput.renumbered ∧
    ¬ lateInput.renumbered.Ascending := by decide +kernel

end Regroup
