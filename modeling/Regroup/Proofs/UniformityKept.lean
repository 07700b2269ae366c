import Mathlib
import Regroup.Proofs.Regrowth
import Regroup.Proofs.Uniformity

set_option autoImplicit false

namespace Regroup

theorem arith_varies (f : Func) (site : Site) (a : Arith) (stored : f.inst? site = some (.arith a))
    (either : f.Varies a.lhs.value ∨ f.Varies a.rhs.value) : f.Varies a.dest := by
  cases either with
  | inl left => exact .operand site _ a.dest a.lhs stored rfl (arith_reads a).1 left
  | inr right => exact .operand site _ a.dest a.rhs stored rfl (arith_reads a).2 right

section Grown

variable (f : Func) (t : Tree Arith Scalar) (leaf : Scalar) (member : leaf ∈ t.leaves) (varies : f.Varies leaf.value)
include member varies

theorem grown_varies (op : Op) (s : Scalar) (grown : f.Grown op t s) : f.Varies s.value := by
  induction grown with
  | leaf s =>
      rw [List.mem_singleton.mp member] at varies
      exact varies
  | node a left right site definition _ _ _ _ _ lower upper =>
      apply arith_varies f site a (definition_defines f a.dest site _ definition).2.1
      exact (List.mem_append.mp member).imp lower upper

theorem root_varies (site : Site) (a : Arith) (stored : f.inst? site = some (.arith a)) (grown : f.RootGrown a t) :
    f.Varies a.dest := by
  obtain ⟨left, right, rfl, lower, upper⟩ := grown
  apply arith_varies f site a stored
  apply (List.mem_append.mp member).imp
  · intro inLeft
    exact grown_varies f left leaf inLeft varies a.op a.lhs lower
  · intro inRight
    exact grown_varies f right leaf inRight varies a.op a.rhs upper

end Grown

theorem grown_cases (f : Func) (unique : f.defs.Nodup) (op : Op) (t : Tree Arith Scalar) (s : Scalar) (site : Site) (i : Inst)
    (grown : f.Grown op t s) (defined : f.Defines s.value site i) :
    t = .leaf s ∨ ∃ a left right, t = .node a left right ∧ i = .arith a ∧ f.Grown op left a.lhs ∧ f.Grown op right a.rhs := by
  cases grown with
  | leaf => exact Or.inl rfl
  | node a left right place definition _ _ _ lower upper =>
      have there := (definition_defines f a.dest place _ definition).2
      obtain ⟨_, same⟩ := defines_unique f unique a.dest place site _ _ there defined
      exact Or.inr ⟨a, left, right, rfl, same.symm, lower, upper⟩

def Func.LeafVaries (h g : Func) (s : Scalar) : Prop :=
  ∀ op t, h.Grown op t s → ∃ leaf ∈ t.leaves, g.Varies leaf.value

section LeafVaries

variable (h g : Func)

theorem leaf_varies_self (s : Scalar) (below : h.LeafVaries g s) : g.Varies s.value := by
  obtain ⟨leaf, only, varies⟩ := below .iadd (.leaf s) (.leaf s)
  rw [List.mem_singleton.mp only] at varies
  exact varies

theorem node_leaf_varies (op : Op) (a : Arith) (left right : Tree Arith Scalar) (lower : h.Grown op left a.lhs)
    (upper : h.Grown op right a.rhs) (cause : Scalar) (read : cause ∈ (Inst.arith a).reads) (below : h.LeafVaries g cause) :
    ∃ leaf ∈ (Tree.node a left right).leaves, g.Varies leaf.value := by
  rcases List.mem_pair.mp read with rfl | rfl
  · obtain ⟨leaf, inLeft, varies⟩ := below op left lower
    exact ⟨leaf, List.mem_append_left _ inLeft, varies⟩
  · obtain ⟨leaf, inRight, varies⟩ := below op right upper
    exact ⟨leaf, List.mem_append_right _ inRight, varies⟩

theorem defined_leaf_varies (unique : h.defs.Nodup) (s : Scalar) (site : Site) (i : Inst) (defined : h.Defines s.value site i)
    (now : g.Varies s.value) (caused : ∀ a, i = .arith a → ∃ cause ∈ (Inst.arith a).reads, h.LeafVaries g cause) :
    h.LeafVaries g s := by
  intro op t grown
  rcases grown_cases h unique op t s site i grown defined with rfl | ⟨a, left, right, rfl, arith, lower, upper⟩
  · exact ⟨s, List.mem_singleton_self s, now⟩
  · obtain ⟨cause, read, below⟩ := caused a arith
    exact node_leaf_varies h g op a left right lower upper cause read below

end LeafVaries

theorem shape_result_varies (g : Func) (c : Chain) (next : Nat) (t : Shape)
    (stored : ∀ i ∈ Shape.code c next t, ∃ place, g.inst? place = some i) (leaf : Scalar) (member : leaf ∈ t.leaves)
    (varies : g.Varies leaf.value) : g.Varies (Shape.result next t).value := by
  induction t generalizing next with
  | leaf s =>
      rw [List.mem_singleton.mp member] at varies
      exact varies
  | node label left right lower upper =>
      simp only [Shape.code, List.mem_append, List.mem_singleton] at stored
      obtain ⟨place, there⟩ := stored _ (Or.inr rfl)
      apply arith_varies g place _ there
      apply (List.mem_append.mp member).imp
      · exact lower next fun i code => stored i (Or.inl (Or.inl code))
      · exact upper (next + left.nodeCount) fun i code => stored i (Or.inl (Or.inr code))

theorem made_arith (r : Rebuilt) (j : Inst) (made : j ∈ r.code ∨ j = .arith r.arith) : ∃ c, j = .arith c := by
  cases made with
  | inl code =>
      obtain ⟨_, _, _, _, same⟩ := rebuilt_code_step r j code
      exact ⟨_, same⟩
  | inr root => exact ⟨_, root⟩

section Built

variable (h g : Func) (rebuilt : List Rebuilt) (built : h.ExpandedAs g rebuilt)
include built

theorem built_preds : g.preds = h.preds := by
  apply outline_preds
  rw [← recast_outline h (expanded rebuilt), Func.outline, Func.outline, built.blocks]

theorem varies_before (v : Value) (varies : g.Varies v) : (v < h.next → h.Varies v) ∧
    ∀ r ∈ rebuilt, ∀ m < r.grouping.nodeCount, r.base + m = v →
      ∃ leaf ∈ (h.facts.rootTree h r.old).leaves, h.Varies leaf.value := by
  have large (r : Rebuilt) (member : r ∈ rebuilt) (m : Nat) :=
    expansion_new_large h rebuilt g.next built.expansion r member m
  -- an instruction that stays defines no new value
  have kept (site : Site) (i : Inst) (dest : Value) (there : h.inst? site = some i) (defines : i.dest? = some dest)
      (caused : h.Varies dest) : (dest < h.next → h.Varies dest) ∧ ∀ r ∈ rebuilt, ∀ m < r.grouping.nodeCount,
        r.base + m = dest → ∃ leaf ∈ (h.facts.rootTree h r.old).leaves, h.Varies leaf.value := by
    have old := defines_bounded h built.wf dest site i ⟨there, defines⟩
    exact ⟨fun _ => caused, fun r member m _ same => absurd (same ▸ old) (large r member m)⟩
  induction varies with
  | input place j dest stored defines declared =>
      rcases built_cases h g rebuilt built place j stored with ⟨site, _, there, _⟩ | ⟨r, _, _, made⟩
      · exact kept site j dest there defines (.input site j dest there defines declared)
      · obtain ⟨c, rfl⟩ := made_arith r j made
        cases declared
  | operand place j dest s stored defines read _ ih =>
      rcases built_cases h g rebuilt built place j stored with ⟨site, _, there, _⟩ | ⟨r, member, _, made⟩
      · have cause := ih.1 (built.wf.bounded _ (read_known h built.wf site j s there read))
        exact kept site j dest there defines (.operand site j dest s there defines read cause)
      · have root := built.expansion.stored r member
        have leaf : ∃ leaf ∈ (h.facts.rootTree h r.old).leaves, h.Varies leaf.value := by
          rcases made_reads h g rebuilt built r member j made s read with leaf | ⟨m, less, rfl⟩
          · exact ⟨s, leaf, ih.1 (root_leaf_old h built.wf r.site r.old root s leaf)⟩
          · exact ih.2 r member m less rfl
        rcases made with code | rfl
        · obtain ⟨k, inside, lhs, rhs, rfl⟩ := rebuilt_code_step r j code
          cases defines
          refine ⟨fun old => absurd old (large r member k), fun q inQ m less same => ?_⟩
          rw [consecutive_apart _ _ rebuilt built.expansion.numbered q r m k inQ member less inside same]
          exact leaf
        · cases defines
          obtain ⟨leaf, inTree, varies⟩ := leaf
          exact kept r.site _ r.old.dest root rfl
            (root_varies h _ leaf inTree varies r.site r.old root (root_tree_grown h r.old))
  | joined place j dest index c cond stored defines phi many inBlock branch _ ih =>
      rcases built_cases h g rebuilt built place j stored with ⟨site, block, there, _⟩ | ⟨r, _, _, made⟩
      · obtain ⟨b, inOld, term⟩ := built_end h g rebuilt built index c inBlock
        have known := term_known h built.wf b (List.mem_of_getElem? inOld) cond (condition_read _ cond (term ▸ branch))
        rw [built_preds h g rebuilt built, ← block] at many
        exact kept site j dest there defines (.joined site j dest index b cond there defines phi many inOld (term ▸ branch)
          (ih.1 (built.wf.bounded _ known)))
      · obtain ⟨_, rfl⟩ := made_arith r j made
        cases phi

theorem rebuilt_root_varies (r : Rebuilt) (member : r ∈ rebuilt) (leaf : Scalar)
    (inTree : leaf ∈ (h.facts.rootTree h r.old).leaves) (varies : g.Varies leaf.value) : g.Varies r.old.dest := by
  obtain ⟨_, leaves, perm⟩ := built.expansion.chain r member
  obtain ⟨place, _, there⟩ := built_new h g rebuilt built r member _ (Or.inr rfl)
  have code (i : Inst) (listed : i ∈ r.code) : ∃ place, g.inst? place = some i :=
    (built_new h g rebuilt built r member i (Or.inl listed)).imp fun _ both => both.2
  have inGrouping : leaf ∈ r.grouping.leaves := by
    rw [leaves]
    exact perm.mem_iff.mpr inTree
  apply arith_varies g place _ there
  apply ((List.mem_append.mp inGrouping).imp _ _).symm
  · intro inRest
    exact shape_result_varies g r.chain r.base _ (fun i listed => code i (List.mem_append_left _ listed))
      leaf inRest varies
  · intro inLast
    exact shape_result_varies g r.chain _ _ (fun i listed => code i (List.mem_append_right _ listed))
      leaf inLast varies

-- The induction is on the cause. It goes through every tree of a scalar at once, since a rebuilt root has lost the operands
-- that its cause came through, and these may be roots of other chains.
theorem varies_after (v : Value) (varies : h.Varies v) : ∀ s, s.value = v → h.LeafVaries g s := by
  have kept (site : Site) (i : Inst) (stored : h.inst? site = some i) (other : ∀ a, i ≠ .arith a) :
      ∃ place, place.block = site.block ∧ g.inst? place = some i := by
    apply built_kept h g rebuilt built site i stored
    cases found : rebuiltAt rebuilt site with
    | none => rfl
    | some r => exact absurd (rebuilt_at_root h rebuilt g.next built.expansion site i r stored found).2.2 (other r.old)
  intro s same
  induction varies generalizing s with
  | input site i dest stored defines declared =>
      have other (a : Arith) : i ≠ .arith a := by
        rintro rfl
        cases declared
      obtain ⟨place, _, there⟩ := kept site i stored other
      exact defined_leaf_varies h g built.wf.unique s site i (same ▸ ⟨stored, defines⟩)
        (same ▸ .input place i dest there defines declared) fun a arith => absurd arith (other a)
  | operand site i dest cause stored defines read _ ih =>
      have below := ih cause rfl
      have now : g.Varies dest := by
        cases found : rebuiltAt rebuilt site with
        | none =>
            obtain ⟨place, _, there⟩ := built_kept h g rebuilt built site i stored found
            exact .operand place i dest cause there defines read (leaf_varies_self h g cause below)
        | some r =>
            obtain ⟨member, rfl, rfl⟩ := rebuilt_at_root h rebuilt g.next built.expansion site i r stored found
            cases defines
            obtain ⟨left, right, whole, lower, upper⟩ := root_tree_grown h r.old
            obtain ⟨leaf, inTree, varies⟩ := node_leaf_varies h g r.old.op r.old left right lower upper cause read below
            exact rebuilt_root_varies h g rebuilt built r member leaf (whole ▸ inTree) varies
      exact defined_leaf_varies h g built.wf.unique s site i (same ▸ ⟨stored, defines⟩) (same ▸ now) fun a arith =>
        ⟨cause, arith ▸ read, below⟩
  | joined site i dest index b cond stored defines phi many inBlock branch _ ih =>
      have other (a : Arith) : i ≠ .arith a := by
        rintro rfl
        cases phi
      obtain ⟨place, block, there⟩ := kept site i stored other
      obtain ⟨c, inNew, term⟩ := built_end_kept h g rebuilt built index b inBlock
      rw [← built_preds h g rebuilt built, ← block] at many
      have now : g.Varies dest := .joined place i dest index c cond there defines phi many inNew (term ▸ branch)
        (leaf_varies_self h g cond (ih cond rfl))
      exact defined_leaf_varies h g built.wf.unique s site i (same ▸ ⟨stored, defines⟩) (same ▸ now) fun a arith =>
        absurd arith (other a)

theorem built_varies_iff (v : Value) (old : v < h.next) : g.Varies v ↔ h.Varies v :=
  ⟨fun varies => (varies_before h g rebuilt built v varies).1 old,
    fun varies => leaf_varies_self h g (.of v) (varies_after h g rebuilt built v varies (.of v) rfl)⟩

theorem new_value_made (place : Site) (j : Inst) (v : Value) (stored : g.inst? place = some j) (defines : j.dest? = some v)
    (new : h.next ≤ v) : ∃ r ∈ rebuilt, ∃ k < r.grouping.nodeCount, r.base + k = v ∧ j ∈ r.code := by
  have notOld (site : Site) (i : Inst) (there : h.inst? site = some i) (dest : i.dest? = some v) : False :=
    Nat.not_lt.mpr new (defines_bounded h built.wf v site i ⟨there, dest⟩)
  rcases built_cases h g rebuilt built place j stored with ⟨site, _, there, _⟩ | ⟨r, member, _, code | rfl⟩
  · exact (notOld site j there defines).elim
  · obtain ⟨k, inside, lhs, rhs, rfl⟩ := rebuilt_code_step r j code
    exact ⟨r, member, k, inside, Option.some.inj defines, code⟩
  · exact (notOld r.site _ (built.expansion.stored r member) defines).elim

end Built

-- The scalar is a leaf below the value: an old one that is reached from it through new operations only.
inductive Func.LeafBelow (g : Func) (old : Nat) : Value → Scalar → Prop where
  | operand (site : Site) (i : Inst) (v : Value) (s : Scalar) (stored : g.inst? site = some i) (defines : i.dest? = some v)
      (new : old ≤ v) (read : s ∈ i.reads) (leaf : s.value < old) : g.LeafBelow old v s
  | through (site : Site) (i : Inst) (v : Value) (s leaf : Scalar) (stored : g.inst? site = some i)
      (defines : i.dest? = some v) (new : old ≤ v) (read : s ∈ i.reads) (inner : old ≤ s.value)
      (below : g.LeafBelow old s.value leaf) : g.LeafBelow old v leaf

theorem leaf_below_varies (g : Func) (old : Nat) (v : Value) (leaf : Scalar) (below : g.LeafBelow old v leaf)
    (varies : g.Varies leaf.value) : g.Varies v := by
  induction below with
  | operand site i v s stored defines _ read _ => exact .operand site i v s stored defines read varies
  | through site i v s leaf stored defines _ read _ _ ih => exact .operand site i v s stored defines read (ih varies)

section Below

variable (h g : Func) (rebuilt : List Rebuilt) (built : h.ExpandedAs g rebuilt)
include built

theorem new_varies_leaf (v : Value) (varies : g.Varies v) (new : h.next ≤ v) :
    ∃ leaf, g.LeafBelow h.next v leaf ∧ g.Varies leaf.value := by
  have made (place : Site) (j : Inst) (v : Value) (stored : g.inst? place = some j) (defines : j.dest? = some v)
      (new : h.next ≤ v) : ∃ a, j = .arith a := by
    obtain ⟨r, _, _, _, _, code⟩ := new_value_made h g rebuilt built place j v stored defines new
    exact made_arith r j (Or.inl code)
  induction varies with
  | input site i dest stored defines declared =>
      obtain ⟨a, rfl⟩ := made site i dest stored defines new
      cases declared
  | operand site i dest s stored defines read cause ih =>
      by_cases old : s.value < h.next
      · exact ⟨s, .operand site i dest s stored defines new read old, cause⟩
      · obtain ⟨leaf, below, varies⟩ := ih (Nat.le_of_not_lt old)
        exact ⟨leaf, .through site i dest s leaf stored defines new read (Nat.le_of_not_lt old) below, varies⟩
  | joined site i dest index b cond stored defines phi many inBlock branch _ ih =>
      obtain ⟨a, rfl⟩ := made site i dest stored defines new
      cases phi

theorem new_varies_iff (v : Value) (new : h.next ≤ v) :
    g.Varies v ↔ ∃ leaf, g.LeafBelow h.next v leaf ∧ g.Varies leaf.value :=
  ⟨fun varies => new_varies_leaf h g rebuilt built v varies new,
    fun ⟨leaf, below, varies⟩ => leaf_below_varies g h.next v leaf below varies⟩

theorem leaf_below_chain (r : Rebuilt) (member : r ∈ rebuilt) (k : Nat) (inside : k < r.grouping.nodeCount) (v : Value)
    (leaf : Scalar) (below : g.LeafBelow h.next v leaf) (number : r.base + k = v) : leaf ∈ r.chain.leaves := by
  obtain ⟨_, _, perm⟩ := built.expansion.chain r member
  -- what the operation reads is a leaf of the chain or was made for it too
  have source (site : Site) (i : Inst) (v : Value) (s : Scalar) (k : Nat) (inside : k < r.grouping.nodeCount)
      (number : r.base + k = v) (stored : g.inst? site = some i) (defines : i.dest? = some v) (new : h.next ≤ v)
      (read : s ∈ i.reads) : s ∈ r.chain.leaves ∨ ∃ m < r.grouping.nodeCount, s = .of (r.base + m) := by
    obtain ⟨q, inQ, m, less, same, code⟩ := new_value_made h g rebuilt built site i v stored defines new
    obtain rfl := consecutive_apart _ _ rebuilt built.expansion.numbered q r m k inQ member less inside
      (same.trans number.symm)
    exact (made_reads h g rebuilt built q inQ i (Or.inl code) s read).imp perm.mem_iff.mpr id
  induction below generalizing k with
  | operand site i v s stored defines new read old =>
      rcases source site i v s k inside number stored defines new read with inChain | ⟨m, _, rfl⟩
      · exact inChain
      · exact absurd old (expansion_new_large h rebuilt g.next built.expansion r member m)
  | through site i v s leaf stored defines new read inner _ ih =>
      rcases source site i v s k inside number stored defines new read with inChain | ⟨m, less, rfl⟩
      · have old := root_leaf_old h built.wf r.site r.old (built.expansion.stored r member) s (perm.mem_iff.mp inChain)
        exact absurd old (Nat.not_lt.mpr inner)
      · exact ih m less rfl

end Below

theorem mark_at (marks : Marks) (v : Value) (inside : v < marks.size) : marks[v]? = some (marks.has v) := by
  simp [Marks.has, inside]

theorem marked_iff (marks : Marks) (v : Value) : marks[v]? = some true ↔ marks.has v = true := by
  by_cases inside : v < marks.size
  · rw [mark_at marks v inside, Option.some.injEq]
  · simp [Marks.has, inside]

theorem regroup_keeps_uniformity (f : Func) (options : Options) (bench : Workbench) (report : Report)
    (accepted : f.check = .ok ()) (done : f.regroup options bench = .ok report) :
    ∃ h before after, f.renumber = .ok h ∧ h.computeDivergence = .ok before ∧
      report.func.computeDivergence = .ok after ∧
      (∀ v < h.next, ∃ flag, before[v]? = some flag ∧ after[v]? = some flag) ∧
      ∀ site i v, report.func.inst? site = some i → i.dest? = some v → h.next ≤ v →
        (∃ attempt ∈ report.attempts, ∃ code, attempt.verdict = .rebuilt code ∧ i ∈ code ∧
          ∀ s, report.func.LeafBelow h.next v s → s ∈ attempt.chain.leaves) ∧
        (after[v]? = some true ↔ ∃ s, report.func.LeafBelow h.next v s ∧ after[s.value]? = some true) := by
  have wf := (check_ok_iff f).mp accepted
  have readied := prepared_well_formed f options wf
  have fine := regroup_well_formed f options bench accepted report done
  obtain ⟨rebuilt, regroups⟩ := regroup_ok f options bench accepted report done
  have built := regroups_expanded_as _ _ report rebuilt readied fine regroups
  have grows := (consecutive_bounds _ _ rebuilt built.expansion.numbered).1
  refine ⟨f.renumbered, f.renumbered.divergent, report.func.divergent, renumber_ok f wf.bounded,
    compute_divergence_ok _ (renumbered_bounded f wf.unique), compute_divergence_ok _ fine.bounded, ?_, ?_⟩
  · intro v old
    have same : report.func.divergent.has v = (f.prepared options).divergent.has v := by
      rw [Bool.eq_iff_iff, divergent_iff _ fine, divergent_iff _ readied]
      exact built_varies_iff _ _ rebuilt built v old
    have inside : v < report.func.divergent.size := by
      rw [divergent_size]
      exact Nat.lt_of_lt_of_le old grows
    refine ⟨f.renumbered.divergent.has v, mark_at _ v (by rw [divergent_size]; exact old), ?_⟩
    rw [mark_at _ v inside, same]
    rfl
  · intro site i v stored defines new
    obtain ⟨r, member, k, inside, number, code⟩ := new_value_made _ _ rebuilt built site i v stored defines new
    obtain ⟨attempt, listed, _, chain, verdict⟩ := rebuilt_attempt_code _ _ report rebuilt regroups r member
    constructor
    · refine ⟨attempt, listed, r.code, verdict, code, fun s below => ?_⟩
      rw [chain]
      exact leaf_below_chain _ _ rebuilt built r member k inside v s below number
    · simp only [marked_iff, divergent_iff _ fine]
      exact new_varies_iff _ _ rebuilt built v new

theorem loop_sum_uniformity : ∃ report h before after, loopSum.regroup ⟨true, true⟩ .empty = .ok report ∧
    report.changed = true ∧ loopSum.renumber = .ok h ∧ h.computeDivergence = .ok before ∧
    report.func.computeDivergence = .ok after ∧
    (∀ v < 7, ∃ flag, before[v]? = some flag ∧ after[v]? = some flag) ∧
    after = #[false, true, false, true, true, true, true, false, true] := by
  have facts : (loopSum.regroup ⟨true, true⟩ .empty).toOption.map (fun report =>
      (report.changed, report.func.computeDivergence.toOption)) =
        some (true, some #[false, true, false, true, true, true, true, false, true]) := by
    decide +kernel
  have next : loopSum.renumber.toOption.map Func.next = some 7 := by decide +kernel
  cases done : loopSum.regroup ⟨true, true⟩ .empty with
  | error trap =>
      rw [done] at facts
      cases facts
  | ok report =>
      rw [done] at facts
      obtain ⟨changed, flags⟩ := Prod.mk.inj (Option.some.inj facts)
      obtain ⟨h, before, after, renumbered, first, second, same, _⟩ :=
        regroup_keeps_uniformity loopSum ⟨true, true⟩ .empty report (by decide +kernel) done
      rw [renumbered] at next
      rw [Option.some.inj next] at same
      rw [second] at flags
      exact ⟨report, h, before, after, rfl, changed, renumbered, first, second, same, Option.some.inj flags⟩

end Regroup
