import Mathlib
import Regroup.Proofs.Dominance

set_option autoImplicit false

namespace Regroup

theorem mem_sited (f : Func) (site : Site) (i : Inst) : (site, i) ∈ f.sited ↔ f.inst? site = some i := by
  obtain ⟨block, place⟩ := site
  simp only [Func.sited, Block.sited, List.mem_flatMap, List.mem_map, Prod.exists, List.mem_zipIdx_iff_getElem?,
    Prod.mk.injEq, Site.mk.injEq, Func.inst?, Option.bind_eq_some_iff]
  constructor
  · rintro ⟨b, index, stored, j, at_, found, ⟨rfl, rfl⟩, rfl⟩
    exact ⟨b, stored, found⟩
  · rintro ⟨b, stored, found⟩
    exact ⟨b, block, stored, i, place, found, ⟨rfl, rfl⟩, rfl⟩

theorem sited_insts (f : Func) : f.sited.map Prod.snd = f.insts := by
  have blockInsts (b : Block) (index : Nat) : (b.sited index).map Prod.snd = b.insts := by
    rw [Block.sited, List.map_map]
    exact List.zipIdx_map_fst 0 b.insts
  have blocks : f.blocks.zipIdx.map Prod.fst = f.blocks := List.zipIdx_map_fst 0 f.blocks
  simp only [Func.sited, Func.insts, List.map_flatMap, blockInsts]
  conv_rhs => rw [← blocks, List.flatMap_map]

theorem mem_insts (f : Func) (i : Inst) : i ∈ f.insts ↔ ∃ site, f.inst? site = some i := by
  simp only [← sited_insts, List.mem_map, Prod.exists, exists_eq_right, mem_sited]

theorem sited_defs (f : Func) : f.sited.filterMap (·.2.dest?) = f.defs := by
  rw [Func.defs, ← sited_insts, List.filterMap_map]
  rfl

def Func.Defines (f : Func) (v : Value) (site : Site) (i : Inst) : Prop :=
  f.inst? site = some i ∧ i.dest? = some v

def Func.Ready (f : Func) (v : Value) (place : Site) : Prop :=
  ∃ site i, f.Defines v site i ∧ f.precedes site place = true

theorem mem_defs (f : Func) (v : Value) : v ∈ f.defs ↔ ∃ site i, f.Defines v site i := by
  simp only [← sited_defs, List.mem_filterMap, Prod.exists, mem_sited, Func.Defines]

theorem defines_unique (f : Func) (unique : f.defs.Nodup) (v : Value) (a b : Site) (i j : Inst)
    (one : f.Defines v a i) (two : f.Defines v b j) : a = b ∧ i = j := by
  rw [← sited_defs, List.Nodup, List.pairwise_filterMap] at unique
  have symmetric : Std.Symm fun x y : Site × Inst =>
      ∀ d, x.2.dest? = some d → ∀ e, y.2.dest? = some e → d ≠ e :=
    ⟨fun x y apart d atY e atX same => apart e atX d atY same.symm⟩
  by_contra different
  exact unique.forall ((mem_sited f a i).mpr one.1) ((mem_sited f b j).mpr two.1) (by simpa using different)
    v one.2 v two.2 rfl

theorem definition_defines (f : Func) (v : Value) (site : Site) (i : Inst) (found : f.definition? v = some (site, i)) :
    v < f.next ∧ f.Defines v site i := by
  by_cases small : v < f.next
  · rw [Func.definition?, if_pos small] at found
    have member := List.mem_of_find?_eq_some found
    rw [List.mem_reverse, mem_sited] at member
    exact ⟨small, member, by simpa using List.find?_some found⟩
  · simp [Func.definition?, small] at found

theorem definition_iff (f : Func) (unique : f.defs.Nodup) (v : Value) (site : Site) (i : Inst) :
    f.definition? v = some (site, i) ↔ v < f.next ∧ f.Defines v site i := by
  refine ⟨definition_defines f v site i, ?_⟩
  rintro ⟨small, defined⟩
  cases found : f.definition? v with
  | none =>
      rw [Func.definition?, if_pos small] at found
      have missing := List.find?_eq_none.mp found (site, i) (by rw [List.mem_reverse, mem_sited]; exact defined.1)
      simp [defined.2] at missing
  | some other =>
      obtain ⟨place, j⟩ := other
      have same := defines_unique f unique v place site j i (definition_defines f v place j found).2 defined
      rw [same.1, same.2]

theorem check_defs_ok (next : Nat) (seen vs : List Value) :
    checkDefs next seen vs = .ok () ↔ vs.Nodup ∧ ∀ v ∈ vs, v < next ∧ v ∉ seen := by
  induction vs generalizing seen with
  | nil => simp [checkDefs]
  | cons v rest ih =>
      by_cases large : next ≤ v
      · simp only [checkDefs, if_pos large, reduceCtorEq, false_iff]
        rintro ⟨_, each⟩
        exact absurd (each v List.mem_cons_self).1 (Nat.not_lt.mpr large)
      · by_cases repeated : v ∈ seen
        · simp [checkDefs, large, repeated]
        · rw [checkDefs, if_neg large, if_neg repeated, ih, List.nodup_cons, List.forall_mem_cons]
          simp only [List.mem_cons, not_or]
          constructor
          · rintro ⟨nodup, each⟩
            exact ⟨⟨fun again => (each v again).2.1 rfl, nodup⟩, ⟨Nat.lt_of_not_le large, repeated⟩,
              fun w member => ⟨(each w member).1, (each w member).2.2⟩⟩
          · rintro ⟨⟨fresh, nodup⟩, _, each⟩
            exact ⟨nodup, fun w member => ⟨(each w member).1, fun same => fresh (same ▸ member), (each w member).2⟩⟩

theorem for_each_ok {α ε : Type} (items : List α) (test : α → Except ε Unit) :
    items.forM test = .ok () ↔ ∀ x ∈ items, test x = .ok () := by
  induction items with
  | nil => simp [pure, Except.pure]
  | cons x rest ih =>
      rw [List.forall_mem_cons, ← ih]
      change (test x >>= fun _ => rest.forM test) = .ok () ↔ _
      cases result : test x with
      | error e => simp [bind, Except.bind]
      | ok done => simp [bind, Except.bind]

theorem mem_operands (f : Func) (o : Operand) : o ∈ f.operands ↔
    (∃ site i, f.inst? site = some i ∧ ∃ s ∈ i.reads, o = ⟨s, site, i.dest?, !i.isPhi⟩) ∨
    ∃ index b, f.blocks[index]? = some b ∧ ∃ s ∈ b.term.reads, o = ⟨s, ⟨index, b.insts.length⟩, none, true⟩ := by
  simp only [Func.operands, Block.operands, List.mem_flatMap, List.mem_append, List.mem_map, Prod.exists,
    List.mem_zipIdx_iff_getElem?]
  constructor
  · rintro ⟨b, index, stored, ⟨site, i, member, s, read, same⟩ | ⟨s, read, same⟩⟩
    · refine Or.inl ⟨site, i, ?_, s, read, same.symm⟩
      rw [← mem_sited, Func.sited, List.mem_flatMap]
      exact ⟨(b, index), by rw [List.mem_zipIdx_iff_getElem?]; exact stored, member⟩
    · exact Or.inr ⟨index, b, stored, s, read, same.symm⟩
  · rintro (⟨site, i, stored, s, read, same⟩ | ⟨index, b, stored, s, read, same⟩)
    · rw [← mem_sited, Func.sited, List.mem_flatMap] at stored
      obtain ⟨⟨b, index⟩, member, inBlock⟩ := stored
      rw [List.mem_zipIdx_iff_getElem?] at member
      exact ⟨b, index, member, Or.inl ⟨site, i, inBlock, s, read, same.symm⟩⟩
    · exact ⟨b, index, stored, Or.inr ⟨s, read, same.symm⟩⟩

structure Func.WellFormed (f : Func) : Prop where
  unique : f.defs.Nodup
  bounded : ∀ v ∈ f.defs, v < f.next
  targets : ∀ b ∈ f.blocks, ∀ label ∈ b.term.successors, ∃ index, f.locate? label = some index
  widths : ∀ o ∈ f.operands, ∃ site i, f.Defines o.read.value site i ∧ o.read.comp < i.width
  ordered : ∀ o ∈ f.operands, o.ordered = true → f.Ready o.read.value o.place

theorem check_operand_ok (f : Func) (unique : f.defs.Nodup) (bounded : ∀ v ∈ f.defs, v < f.next) (o : Operand) :
    f.checkOperand o = .ok () ↔ (∃ site i, f.Defines o.read.value site i ∧ o.read.comp < i.width) ∧
      (o.ordered = true → f.Ready o.read.value o.place) := by
  cases found : f.definition? o.read.value with
  | none =>
      simp only [Func.checkOperand, found, reduceCtorEq, false_iff, not_and, forall_exists_index]
      intro site i present
      have small := bounded _ ((mem_defs f _).mpr ⟨site, i, present.1⟩)
      rw [(definition_iff f unique _ site i).mpr ⟨small, present.1⟩] at found
      cases found
  | some definition =>
      obtain ⟨site, i⟩ := definition
      have defined := ((definition_iff f unique _ site i).mp found).2
      have only (P : Site → Inst → Prop) : (∃ place j, f.Defines o.read.value place j ∧ P place j) ↔ P site i := by
        constructor
        · rintro ⟨place, j, there, holds⟩
          obtain ⟨rfl, rfl⟩ := defines_unique f unique _ _ _ _ _ defined there
          exact holds
        · exact fun holds => ⟨site, i, defined, holds⟩
      rw [Func.Ready, only fun _ j => o.read.comp < j.width, only fun place _ => f.precedes place o.place = true]
      by_cases narrow : i.width ≤ o.read.comp
      · simp [Func.checkOperand, found, narrow]
      · by_cases late : (o.ordered && !f.precedes site o.place) = true
        · simp only [Func.checkOperand, found, if_neg narrow, if_pos late, reduceCtorEq, false_iff, not_and]
          simp only [Bool.and_eq_true, Bool.not_eq_true'] at late
          intro _ fine
          simp [fine late.1] at late
        · simp only [Func.checkOperand, found, if_neg narrow, if_neg late, true_iff]
          refine ⟨UInt8.not_le.mp narrow, fun ordered => ?_⟩
          simpa [ordered] using late

theorem check_ok_iff (f : Func) : f.check = .ok () ↔ f.WellFormed := by
  have parts : f.check = .ok () ↔ checkDefs f.next [] f.defs = .ok () ∧
      (f.blocks.flatMap (·.term.successors)).forM f.checkTarget = .ok () ∧
      f.operands.forM f.checkOperand = .ok () := by
    simp only [Func.check, bind, Except.bind]
    cases checkDefs f.next [] f.defs with
    | error e => simp
    | ok done =>
        cases (f.blocks.flatMap (·.term.successors)).forM f.checkTarget with
        | error e => simp
        | ok done => simp
  have target (label : Label) : f.checkTarget label = .ok () ↔ ∃ index, f.locate? label = some index := by
    cases found : f.locate? label <;> simp [Func.checkTarget, found]
  rw [parts, check_defs_ok, for_each_ok, for_each_ok]
  simp only [target, List.mem_flatMap, forall_exists_index, and_imp, List.not_mem_nil, not_false_eq_true, and_true]
  constructor
  · rintro ⟨⟨unique, bounded⟩, targets, operands⟩
    have each := fun o member => (check_operand_ok f unique bounded o).mp (operands o member)
    exact ⟨unique, bounded, fun b member label listed => targets label b member listed,
      fun o member => (each o member).1, fun o member => (each o member).2⟩
  · intro wf
    exact ⟨⟨wf.unique, wf.bounded⟩, fun label b member listed => wf.targets b member label listed,
      fun o member => (check_operand_ok f wf.unique wf.bounded o).mpr ⟨wf.widths o member, wf.ordered o member⟩⟩

section Consequences

variable (f : Func) (wf : f.WellFormed)
include wf

theorem read_defined (site : Site) (i : Inst) (s : Scalar) (stored : f.inst? site = some i) (read : s ∈ i.reads) :
    ∃ place j, f.Defines s.value place j ∧ s.comp < j.width :=
  wf.widths ⟨s, site, i.dest?, !i.isPhi⟩ ((mem_operands f _).mpr (Or.inl ⟨site, i, stored, s, read, rfl⟩))

theorem read_ready (site : Site) (i : Inst) (s : Scalar) (stored : f.inst? site = some i) (read : s ∈ i.reads)
    (noPhi : i.isPhi = false) : f.Ready s.value site :=
  wf.ordered ⟨s, site, i.dest?, !i.isPhi⟩ ((mem_operands f _).mpr (Or.inl ⟨site, i, stored, s, read, rfl⟩))
    (by simp [noPhi])

theorem terminator_read_defined (index : Nat) (b : Block) (s : Scalar) (stored : f.blocks[index]? = some b)
    (read : s ∈ b.term.reads) : ∃ place j, f.Defines s.value place j ∧ s.comp < j.width :=
  wf.widths ⟨s, ⟨index, b.insts.length⟩, none, true⟩
    ((mem_operands f _).mpr (Or.inr ⟨index, b, stored, s, read, rfl⟩))

theorem defines_bounded (v : Value) (site : Site) (i : Inst) (defined : f.Defines v site i) : v < f.next :=
  wf.bounded v ((mem_defs f v).mpr ⟨site, i, defined⟩)

theorem read_known (site : Site) (i : Inst) (s : Scalar) (stored : f.inst? site = some i) (read : s ∈ i.reads) :
    s.value ∈ f.defs := by
  obtain ⟨place, j, defined, _⟩ := read_defined f wf site i s stored read
  exact (mem_defs f s.value).mpr ⟨place, j, defined⟩

theorem inst_known (b : Block) (member : b ∈ f.blocks) (i : Inst) (listed : i ∈ b.insts) :
    (∀ s ∈ i.reads, s.value ∈ f.defs) ∧ ∀ v, i.dest? = some v → v ∈ f.defs := by
  obtain ⟨index, stored⟩ := List.mem_iff_getElem?.mp member
  obtain ⟨place, found⟩ := List.mem_iff_getElem?.mp listed
  have here : f.inst? ⟨index, place⟩ = some i := by simp [Func.inst?, stored, found]
  exact ⟨fun s read => read_known f wf _ i s here read, fun v dest => (mem_defs f v).mpr ⟨_, i, here, dest⟩⟩

theorem term_known (b : Block) (member : b ∈ f.blocks) : ∀ s ∈ b.term.reads, s.value ∈ f.defs := by
  intro s read
  obtain ⟨index, stored⟩ := List.mem_iff_getElem?.mp member
  obtain ⟨site, j, defined, _⟩ := terminator_read_defined f wf index b s stored read
  exact (mem_defs f s.value).mpr ⟨site, j, defined⟩

end Consequences

end Regroup
