import Mathlib
import Regroup.Proofs.Frame
import Regroup.Proofs.Partition

set_option autoImplicit false

namespace Regroup

-- A function and what it becomes when some of its roots are expanded, each with the restrictions of its tree.
structure Func.ExpandedAs (h g : Func) (rebuilt : List Rebuilt) : Prop where
  wf : h.WellFormed
  fine : g.WellFormed
  expansion : Expansion h rebuilt g.next
  blocks : g.blocks = (h.recast (expanded rebuilt)).blocks
  exact : ∀ r ∈ rebuilt, r.chain.exact = (h.facts.rootTree h r.old).labels.any Arith.exact
  fastMath : ∀ r ∈ rebuilt,
    r.chain.fastMath = (h.facts.rootTree h r.old).labels.foldl (fun bits a => bits ||| a.fastMath) 0

structure Func.RebuiltAs (h g : Func) (rebuilt : List Rebuilt) : Prop extends h.ExpandedAs g rebuilt where
  orderly : h.Orderly
  found : ∀ r ∈ rebuilt, h.foundAt r.site r.old ∈ h.facts.findAll h

instance (h g : Func) (rebuilt : List Rebuilt) : Coe (h.RebuiltAs g rebuilt) (h.ExpandedAs g rebuilt) :=
  ⟨Func.RebuiltAs.toExpandedAs⟩

section Reported

variable (h : Func) (table : Option PairTable) (report : Report) (rebuilt : List Rebuilt) (wf : h.WellFormed)
  (fine : report.func.WellFormed) (regroups : h.Regroups table report rebuilt)
include regroups

theorem regroups_found (r : Rebuilt) (member : r ∈ rebuilt) : h.foundAt r.site r.old ∈ h.facts.findAll h ∧
    r.chain.exact = (h.foundAt r.site r.old).chain.exact ∧ r.chain.fastMath = (h.foundAt r.site r.old).chain.fastMath := by
  obtain ⟨c, queued, fits⟩ := regroups.fits r member
  obtain ⟨site, a, stored, _, _, _, found, same⟩ := queue_mem h table c queued
  have here : r.site = site := by
    rw [fits_site r h _ _ c fits, same]
    rfl
  have root := (regroups_expansion h table report rebuilt regroups).stored r member
  rw [here, stored] at root
  cases root
  obtain ⟨arrangement, _, chain, _⟩ := fits.arranged
  rw [here]
  exact ⟨found, by rw [chain, same]; rfl, by rw [chain, same]; rfl⟩

include wf fine

theorem regroups_expanded_as : h.ExpandedAs report.func rebuilt where
  wf := wf
  fine := fine
  expansion := regroups_expansion h table report rebuilt regroups
  blocks := by
    rw [regroups.func]
    rfl
  exact r member := (regroups_found h table report rebuilt regroups r member).2.1
  fastMath r member := (regroups_found h table report rebuilt regroups r member).2.2

end Reported

theorem regroups_rebuilt_as (h : Func) (table : Option PairTable) (report : Report) (rebuilt : List Rebuilt)
    (wf : h.WellFormed) (orderly : h.Orderly) (fine : report.func.WellFormed) (regroups : h.Regroups table report rebuilt) :
    h.RebuiltAs report.func rebuilt :=
  ⟨regroups_expanded_as h table report rebuilt wf fine regroups, orderly,
    fun r member => (regroups_found h table report rebuilt regroups r member).1⟩

-- The value is computed below the root of a rebuilt chain.
def Func.Orphan (h : Func) (rebuilt : List Rebuilt) (v : Value) : Prop :=
  ∃ r ∈ rebuilt, ∃ b ∈ (h.facts.rootTree h r.old).labels.tail, b.dest = v

section Insts

variable (h g : Func) (rebuilt : List Rebuilt) (built : h.ExpandedAs g rebuilt)
include built

theorem built_inst_iff (place : Site) (j : Inst) : g.inst? place = some j ↔ ∃ site i off, h.inst? site = some i ∧
    (expanded rebuilt site i)[off]? = some j ∧ place = h.spot (expanded rebuilt) site off := by
  rw [← recast_inst_iff, Func.inst?, Func.inst?, built.blocks]

theorem built_cases (place : Site) (j : Inst) (stored : g.inst? place = some j) :
    (∃ site, site.block = place.block ∧ h.inst? site = some j ∧ rebuiltAt rebuilt site = none) ∨
    ∃ r ∈ rebuilt, r.site.block = place.block ∧ (j ∈ r.code ∨ j = .arith r.arith) := by
  obtain ⟨site, i, off, there, inside, rfl⟩ := (built_inst_iff h g rebuilt built place j).mp stored
  rcases expanded_cases h rebuilt g.next built.expansion site i j off there inside with
    ⟨rfl, _, kept⟩ | ⟨r, member, here, _, _, ⟨_, code⟩ | ⟨_, root⟩⟩
  · exact Or.inl ⟨site, rfl, there, kept⟩
  · exact Or.inr ⟨r, member, by rw [here]; rfl, Or.inl (List.mem_of_getElem? code)⟩
  · exact Or.inr ⟨r, member, by rw [here]; rfl, Or.inr root⟩

theorem built_kept (site : Site) (i : Inst) (stored : h.inst? site = some i) (kept : rebuiltAt rebuilt site = none) :
    ∃ place, place.block = site.block ∧ g.inst? place = some i :=
  ⟨h.spot (expanded rebuilt) site 0, rfl,
    (built_inst_iff h g rebuilt built _ i).mpr ⟨site, i, 0, stored, by simp [expanded, kept], rfl⟩⟩

theorem built_new (r : Rebuilt) (member : r ∈ rebuilt) (j : Inst) (made : j ∈ r.code ∨ j = .arith r.arith) :
    ∃ place, place.block = r.site.block ∧ g.inst? place = some j := by
  have listed : j ∈ expanded rebuilt r.site (.arith r.old) := by
    rw [expanded_root h rebuilt g.next built.expansion r member, List.mem_append, List.mem_singleton]
    exact made
  obtain ⟨off, inside⟩ := List.mem_iff_getElem?.mp listed
  exact ⟨h.spot (expanded rebuilt) r.site off, rfl,
    (built_inst_iff h g rebuilt built _ j).mpr ⟨r.site, _, off, built.expansion.stored r member, inside, rfl⟩⟩

theorem built_end (index : Nat) (c : Block) (stored : g.blocks[index]? = some c) :
    ∃ b, h.blocks[index]? = some b ∧ c.term = b.term := by
  rw [built.blocks, recast_block, Option.map_eq_some_iff] at stored
  obtain ⟨b, there, rfl⟩ := stored
  exact ⟨b, there, rfl⟩

theorem built_end_kept (index : Nat) (b : Block) (stored : h.blocks[index]? = some b) :
    ∃ c, g.blocks[index]? = some c ∧ c.term = b.term := by
  rw [built.blocks, recast_block, stored]
  exact ⟨_, rfl, rfl⟩

theorem made_reads (r : Rebuilt) (member : r ∈ rebuilt) (j : Inst) (made : j ∈ r.code ∨ j = .arith r.arith) (s : Scalar)
    (read : s ∈ j.reads) : s ∈ (h.facts.rootTree h r.old).leaves ∨ ∃ m < r.grouping.nodeCount, s = .of (r.base + m) := by
  obtain ⟨_, leaves, perm⟩ := built.expansion.chain r member
  have drawn (bound : Nat) (within : bound ≤ r.grouping.nodeCount) (source : Drawn r.grouping.leaves r.base bound s) :
      s ∈ (h.facts.rootTree h r.old).leaves ∨ ∃ m < r.grouping.nodeCount, s = .of (r.base + m) := by
    rcases source with leaf | ⟨m, less, same⟩
    · exact Or.inl (perm.mem_iff.mp (leaves ▸ leaf))
    · exact Or.inr ⟨m, Nat.lt_of_lt_of_le less within, same⟩
  rcases made with code | rfl
  · obtain ⟨k, stored⟩ := List.mem_iff_getElem?.mp code
    have inside := (List.getElem?_eq_some_iff.mp stored).1
    rw [Rebuilt.code, grouping_code_length] at inside
    obtain ⟨lhs, rhs, rfl, left, right⟩ := grouping_code_at r.grouping r.chain r.base k j stored
    rcases List.mem_pair.mp read with rfl | rfl
    · exact drawn k (Nat.le_of_lt inside) left
    · exact drawn k (Nat.le_of_lt inside) right
  · rcases List.mem_pair.mp read with rfl | rfl
    · exact drawn _ (Nat.le_refl _) (grouping_lhs_drawn r.grouping r.base)
    · exact drawn _ (Nat.le_refl _) (grouping_rhs_drawn r.grouping r.base)

theorem code_dest_new (r : Rebuilt) (member : r ∈ rebuilt) (a : Arith) (code : Inst.arith a ∈ r.code) :
    ¬ a.dest < h.next := by
  obtain ⟨k, _, lhs, rhs, same⟩ := rebuilt_code_step r _ code
  cases same
  exact expansion_new_large h rebuilt g.next built.expansion r member k

theorem orphan_old (v : Value) (orphan : h.Orphan rebuilt v) : v < h.next := by
  obtain ⟨r, member, b, inner, rfl⟩ := orphan
  obtain ⟨place, there⟩ := root_labels_stored h r.site r.old (built.expansion.stored r member) _
    (root_tree_grown h r.old) b (List.mem_of_mem_tail inner)
  exact defines_bounded h built.wf b.dest place _ ⟨there, rfl⟩

end Insts

theorem inner_kept (h g : Func) (rebuilt : List Rebuilt) (built : h.RebuiltAs g rebuilt) (site : Site) (a : Arith)
    (stored : h.inst? site = some (.arith a)) (found : h.foundAt site a ∈ h.facts.findAll h) (b : Arith)
    (inner : b ∈ (h.facts.rootTree h a).labels.tail) (place : Site) (there : h.inst? place = some (.arith b)) :
    rebuiltAt rebuilt place = none := by
  rw [rebuilt_at_none]
  intro listed
  obtain ⟨r, member, rfl⟩ := List.mem_map.mp listed
  have root := built.expansion.stored r member
  rw [there] at root
  cases root
  exact found_root_not_inner h built.wf.unique built.orderly site r.site a r.old stored there found
    (built.found r member) inner

section Counts

variable (h g : Func) (rebuilt : List Rebuilt) (built : h.ExpandedAs g rebuilt)
include built

theorem built_read_count (v : Value) : g.readCount v =
    (h.sited.map fun e => ((expanded rebuilt e.1 e.2).map (·.readCount v)).sum).sum + h.endCount v := by
  rw [← recast_read_count, Func.readCount, Func.readCount, Func.reads, Func.reads, built.blocks]

omit built in
theorem kept_read_count (site : Site) (i : Inst) (v : Value) (kept : rebuiltAt rebuilt site = none) :
    ((expanded rebuilt site i).map (·.readCount v)).sum = i.readCount v := by
  simp [expanded, kept]

theorem rebuilt_read_count (r : Rebuilt) (member : r ∈ rebuilt) (v : Value) :
    ((expanded rebuilt r.site (.arith r.old)).map (·.readCount v)).sum =
      (h.facts.rootTree h r.old).leaves.countP (·.value = v) + (List.range' r.base r.grouping.nodeCount).count v := by
  obtain ⟨_, leaves, perm⟩ := built.expansion.chain r member
  have reads := (grouping_reads_perm r.grouping r.chain r.base).countP_eq (·.value = v)
  rw [expanded_root h rebuilt g.next built.expansion r member, ← inst_read_counts, List.flatMap_append,
    List.flatMap_singleton]
  change (_ ++ [r.grouping.lhs r.base, r.grouping.rhs r.base]).countP (·.value = v) = _
  rw [Rebuilt.code, reads, List.countP_append, leaves, perm.countP_eq, List.countP_map]
  rfl

omit built in
theorem root_reads_leaves (a : Arith) (v : Value) (outside : ∀ b ∈ (h.facts.rootTree h a).labels.tail, b.dest ≠ v) :
    (Inst.arith a).readCount v ≤ (h.facts.rootTree h a).leaves.countP (·.value = v) := by
  obtain ⟨left, right, whole, lower, upper⟩ := root_tree_grown h a
  rw [whole] at outside ⊢
  have side (part : Tree Arith Scalar) (top : Scalar) (grown : h.Grown a.op part top)
      (inside : ∀ b ∈ part.labels, b ∈ left.labels ++ right.labels) :
      (if top.value = v then 1 else 0) ≤ part.leaves.countP (·.value = v) := by
    by_cases same : top.value = v
    · rcases grown_top h a.op part top grown with leaf | ⟨b, label, equal⟩
      · simp [leaf, Tree.leaves, same]
      · exact absurd (by rw [← same, equal]; rfl) (outside b (inside b label))
    · simp [same]
  have first := side left a.lhs lower fun b label => List.mem_append_left _ label
  have second := side right a.rhs upper fun b label => List.mem_append_right _ label
  simp only [Inst.readCount, Inst.reads, Tree.leaves, List.countP_append, List.countP_cons, List.countP_nil,
    decide_eq_true_eq]
  omega

theorem built_reads_more (v : Value) (kept : ¬ h.Orphan rebuilt v) : h.readCount v ≤ g.readCount v := by
  rw [built_read_count h g rebuilt built, read_count_sum]
  refine Nat.add_le_add_right (List.sum_le_sum fun e member => ?_) _
  obtain ⟨site, i⟩ := e
  have stored := (mem_sited h site i).mp member
  cases found : rebuiltAt rebuilt site with
  | none => exact Nat.le_of_eq (kept_read_count rebuilt site i v found).symm
  | some r =>
      obtain ⟨inList, rfl, rfl⟩ := rebuilt_at_root h rebuilt g.next built.expansion site i r stored found
      rw [rebuilt_read_count h g rebuilt built r inList]
      refine Nat.le_trans (root_reads_leaves h r.old v fun b inner same => ?_) (Nat.le_add_right _ _)
      exact kept ⟨r, inList, b, inner, same⟩

end Counts

end Regroup
