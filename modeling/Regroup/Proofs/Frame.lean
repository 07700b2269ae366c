import Mathlib
import Regroup.Proofs.Expansion

set_option autoImplicit false

namespace Regroup

-- Instructions with some regroupable operations restated, each behind new operations of its kind whose numbers
-- lie from `low` on and below `high`.
inductive Reframing (low high : Nat) : List Inst → List Inst → Prop where
  | nil : Reframing low high [] []
  | keep (i : Inst) (source result : List Inst) (later : Reframing low high source result) :
      Reframing low high (i :: source) (i :: result)
  | rebuild (a b : Arith) (fresh : List Arith) (source result : List Inst) (regroupable : a.regroupable = true)
      (root : b.dest = a.dest ∧ b.op = a.op ∧ b.width = a.width)
      (scalar : ∀ c ∈ fresh, c.op = a.op ∧ c.width = 1) (distinct : (fresh.map Arith.dest).Nodup)
      (new : ∀ c ∈ fresh, low ≤ c.dest ∧ c.dest < high) (later : Reframing low high source result) :
      Reframing low high (.arith a :: source) (fresh.map Inst.arith ++ .arith b :: result)

structure Func.Reframed (f g : Func) : Prop where
  name : g.name = f.name
  blocks : List.Forall₂ (fun b c => c.label = b.label ∧ c.term = b.term ∧ Reframing f.next g.next b.insts c.insts)
    f.blocks g.blocks

theorem rebuilt_code_ariths (r : Rebuilt) : ∃ fresh : List Arith, r.code = fresh.map Inst.arith ∧
    fresh.map Arith.dest = List.range' r.base r.grouping.nodeCount ∧ ∀ a ∈ fresh, a.op = r.chain.op ∧ a.width = 1 := by
  have steps (k : Nat) (i : Inst) (stored : r.code[k]? = some i) :
      ∃ a : Arith, i = .arith a ∧ a.dest = r.base + k ∧ a.op = r.chain.op ∧ a.width = 1 := by
    obtain ⟨lhs, rhs, same, _, _⟩ := grouping_code_at r.grouping r.chain r.base k i stored
    exact ⟨_, same, rfl, rfl, rfl⟩
  have listed : r.code = (r.code.filterMap Inst.arith?).map Inst.arith := by
    rw [List.map_filterMap]
    refine ((List.filterMap_congr fun i member => ?_).trans List.filterMap_some).symm
    obtain ⟨k, stored⟩ := List.mem_iff_getElem?.mp member
    obtain ⟨a, rfl, _⟩ := steps k i stored
    rfl
  have at_ (k : Nat) (a : Arith) (stored : (r.code.filterMap Inst.arith?)[k]? = some a) :
      a.dest = r.base + k ∧ a.op = r.chain.op ∧ a.width = 1 := by
    have inCode : r.code[k]? = some (.arith a) := by
      rw [listed, List.getElem?_map, stored]
      rfl
    obtain ⟨b, same, facts⟩ := steps k _ inCode
    cases same
    exact facts
  have length : (r.code.filterMap Inst.arith?).length = r.grouping.nodeCount := by
    rw [← grouping_code_length r.grouping r.chain r.base]
    conv_rhs => rw [← Rebuilt.code, listed, List.length_map]
  refine ⟨r.code.filterMap Inst.arith?, listed, ?_, fun a member => ?_⟩
  · apply List.ext_getElem?
    intro k
    rw [List.getElem?_map]
    cases stored : (r.code.filterMap Inst.arith?)[k]? with
    | none =>
        have beyond := List.getElem?_eq_none_iff.mp stored
        rw [length] at beyond
        simp [beyond]
    | some a =>
        have inside := (List.getElem?_eq_some_iff.mp stored).1
        rw [length] at inside
        simp [(at_ k a stored).1, inside]
  · obtain ⟨k, stored⟩ := List.mem_iff_getElem?.mp member
    exact (at_ k a stored).2

theorem expanded_reframed (h : Func) (rebuilt : List Rebuilt) (stop : Nat) (expansion : Expansion h rebuilt stop)
    (site : Site) (i : Inst) (source result : List Inst) (stored : h.inst? site = some i)
    (later : Reframing h.next stop source result) :
    Reframing h.next stop (i :: source) (expanded rebuilt site i ++ result) := by
  cases found : rebuiltAt rebuilt site with
  | none => simpa [expanded, found] using Reframing.keep i source result later
  | some r =>
      obtain ⟨member, rfl⟩ := rebuilt_at_mem rebuilt site r found
      have root := expansion.stored r member
      rw [stored] at root
      cases root
      obtain ⟨fresh, code, dests, scalar⟩ := rebuilt_code_ariths r
      have bounds := (consecutive_bounds _ _ rebuilt expansion.numbered).2 r member
      rw [expanded_root h rebuilt stop expansion r member, code, List.append_assoc]
      refine Reframing.rebuild r.old r.arith fresh source result (expansion.regroupable r member) ⟨rfl, rfl, rfl⟩ ?_ ?_ ?_
        later
      · exact fun c inFresh => ⟨(scalar c inFresh).1.trans (expansion.chain r member).1, (scalar c inFresh).2⟩
      · rw [dests]
        exact List.nodup_range'
      · intro c inFresh
        have inRange : c.dest ∈ List.range' r.base r.grouping.nodeCount := dests ▸ List.mem_map_of_mem inFresh
        rw [List.mem_range'_1] at inRange
        exact ⟨Nat.le_trans bounds.1 inRange.1, Nat.lt_of_lt_of_le inRange.2 bounds.2⟩

theorem insts_reframed (h : Func) (rebuilt : List Rebuilt) (stop : Nat) (expansion : Expansion h rebuilt stop)
    (index : Nat) (insts : List Inst) (start : Nat)
    (stored : ∀ k i, insts[k]? = some i → h.inst? ⟨index, start + k⟩ = some i) :
    Reframing h.next stop insts
      ((insts.zipIdx start).flatMap fun (i, place) => expanded rebuilt ⟨index, place⟩ i) := by
  induction insts generalizing start with
  | nil => exact .nil
  | cons i rest ih =>
      rw [List.zipIdx_cons, List.flatMap_cons]
      refine expanded_reframed h rebuilt stop expansion _ i rest _ (stored 0 i rfl) (ih (start + 1) fun k j found => ?_)
      rw [Nat.add_assoc, Nat.add_comm 1 k]
      exact stored (k + 1) j found

theorem blocks_reframed (h : Func) (rebuilt : List Rebuilt) (stop : Nat) (expansion : Expansion h rebuilt stop)
    (blocks : List Block) (start : Nat) (stored : ∀ k b, blocks[k]? = some b → h.blocks[start + k]? = some b) :
    List.Forall₂ (fun b c => c.label = b.label ∧ c.term = b.term ∧ Reframing h.next stop b.insts c.insts) blocks
      ((blocks.zipIdx start).map fun (b, index) =>
        { b with insts := b.insts.zipIdx.flatMap fun (i, place) => expanded rebuilt ⟨index, place⟩ i }) := by
  induction blocks generalizing start with
  | nil => exact .nil
  | cons b rest ih =>
      have here : h.blocks[start]? = some b := stored 0 b rfl
      rw [List.zipIdx_cons, List.map_cons]
      refine .cons ⟨rfl, rfl, insts_reframed h rebuilt stop expansion start b.insts 0 fun k i found => ?_⟩
        (ih (start + 1) fun k c found => ?_)
      · simp [Func.inst?, here, found]
      · rw [Nat.add_assoc, Nat.add_comm 1 k]
        exact stored (k + 1) c found

theorem recast_reframed (h : Func) (rebuilt : List Rebuilt) (stop : Nat) (divergence : Option (Array Bool))
    (expansion : Expansion h rebuilt stop) :
    h.Reframed { h.recast (expanded rebuilt) with next := stop, divergence } := by
  refine ⟨rfl, blocks_reframed h rebuilt stop expansion h.blocks 0 fun k b found => ?_⟩
  rw [Nat.zero_add]
  exact found

section Accepted

variable (f : Func) (options : Options) (bench : Workbench) (accepted : f.check = .ok ())
include accepted

theorem regroup_cases :
    (f.regroup options bench = .error .idsExhausted ∧ idLimit ≤ (chainCapacity - 1) * f.defs.length) ∨
    ∃ report rebuilt, f.regroupChains options bench = .ok report ∧
      (f.prepared options).Regroups options.table report rebuilt ∧
      f.regroup options bench = match report.func.check with
        | .ok () => .ok report
        | .error defect => .error (.broken report.func defect) := by
  rcases regroup_chains_cases f options bench ((check_ok_iff f).mp accepted) with
    ⟨exhausted, large⟩ | ⟨report, rebuilt, done, regroups⟩
  · refine Or.inl ⟨?_, large⟩
    simp only [Func.regroup, Func.demand, accepted, exhausted, bind, Except.bind]
  · refine Or.inr ⟨report, rebuilt, done, regroups, ?_⟩
    simp only [Func.regroup, Func.demand, accepted, done, bind, Except.bind, pure, Except.pure]
    cases report.func.check <;> rfl

theorem regroup_returned (report : Report) (done : f.regroup options bench = .ok report) :
    (∃ rebuilt, (f.prepared options).Regroups options.table report rebuilt) ∧ report.func.check = .ok () := by
  rcases regroup_cases f options bench accepted with ⟨exhausted, _⟩ | ⟨made, rebuilt, _, regroups, result⟩
  · rw [exhausted] at done
    cases done
  · rw [result] at done
    cases checked : made.func.check with
    | error defect =>
        rw [checked] at done
        cases done
    | ok passed =>
        rw [checked] at done
        cases done
        exact ⟨⟨rebuilt, regroups⟩, checked⟩

theorem regroup_ok (report : Report) (done : f.regroup options bench = .ok report) :
    ∃ rebuilt, (f.prepared options).Regroups options.table report rebuilt :=
  (regroup_returned f options bench accepted report done).1

theorem regroup_well_formed (report : Report) (done : f.regroup options bench = .ok report) : report.func.WellFormed :=
  (check_ok_iff report.func).mp (regroup_returned f options bench accepted report done).2

end Accepted

theorem regroups_well_formed_iff (h : Func) (table : Option PairTable) (report : Report) (rebuilt : List Rebuilt)
    (wf : h.WellFormed) (regroups : h.Regroups table report rebuilt) :
    report.func.WellFormed ↔ ∀ r ∈ rebuilt, ∀ s ∈ r.chain.leaves, h.Ready s.value r.site := by
  have expansion := regroups_expansion h table report rebuilt regroups
  rw [regroups.func]
  exact ⟨expansion_leaves_ready h rebuilt _ wf expansion _, expansion_well_formed h rebuilt _ wf expansion _⟩

theorem regroups_reframed (h : Func) (table : Option PairTable) (report : Report) (rebuilt : List Rebuilt)
    (regroups : h.Regroups table report rebuilt) : h.Reframed report.func := by
  rw [regroups.func]
  exact recast_reframed h rebuilt _ _ (regroups_expansion h table report rebuilt regroups)

theorem rebuilt_leaves_ready (h : Func) (table : Option PairTable) (report : Report) (rebuilt : List Rebuilt)
    (wf : h.WellFormed) (regroups : h.Regroups table report rebuilt) (r : Rebuilt) (member : r ∈ rebuilt)
    (path : h.Reaches none r.site.block) : ∀ s ∈ r.chain.leaves, h.Ready s.value r.site := by
  have expansion := regroups_expansion h table report rebuilt regroups
  intro s leaf
  exact root_leaves_ready h wf r.old _ r.site path (expansion.stored r member) (root_tree_grown h r.old) s
    ((expansion.chain r member).2.2.mem_iff.mp leaf)

theorem prepared_reaches_root (f : Func) (options : Options) (report : Report) (rebuilt : List Rebuilt)
    (wf : f.WellFormed) (regroups : (f.prepared options).Regroups options.table report rebuilt) (r : Rebuilt)
    (member : r ∈ rebuilt) : r.site.block < f.blocks.length ∧
      ((f.prepared options).Reaches none r.site.block ↔ f.Reaches none r.site.block) := by
  have outline := renaming_outline f _ _ (prepared_renaming f options wf.unique)
  have root := (regroups_expansion _ _ report rebuilt regroups).stored r member
  obtain ⟨b, inBlock, _⟩ := Option.bind_eq_some_iff.mp root
  refine ⟨?_, outline_reaches f _ outline _ _⟩
  rw [← outline_length f _ outline]
  exact (List.getElem?_eq_some_iff.mp inBlock).1

theorem regroup_reframes_well_formed (f : Func) (options : Options) (bench : Workbench) (accepted : f.check = .ok ())
    (reached : ∀ index < f.blocks.length, f.Reaches none index) :
    (f.regroup options bench = .error .idsExhausted ∧ idLimit ≤ (chainCapacity - 1) * f.defs.length) ∨
    ∃ report, f.regroup options bench = .ok report ∧ report.func.check = .ok () ∧
      f.renumbered.Reframed report.func := by
  have wf := (check_ok_iff f).mp accepted
  have fine := prepared_well_formed f options wf
  rcases regroup_cases f options bench accepted with exhausted | ⟨report, rebuilt, _, regroups, done⟩
  · exact Or.inl exhausted
  · have ready : ∀ r ∈ rebuilt, ∀ s ∈ r.chain.leaves, (f.prepared options).Ready s.value r.site := by
      intro r member
      obtain ⟨inside, path⟩ := prepared_reaches_root f options report rebuilt wf regroups r member
      exact rebuilt_leaves_ready _ _ report rebuilt fine regroups r member (path.mpr (reached _ inside))
    have good := (check_ok_iff report.func).mpr ((regroups_well_formed_iff _ _ report rebuilt fine regroups).mpr ready)
    have reframed := regroups_reframed _ _ report rebuilt regroups
    refine Or.inr ⟨report, ?_, good, reframed.name, reframed.blocks⟩
    rw [done, good]

theorem to_option_ok {α ε : Type} (result : Except ε α) (x : α) (given : result.toOption = some x) : result = .ok x := by
  cases result with
  | ok y => exact congrArg Except.ok (Option.some.inj given)
  | error e => cases given

def loopSum : Func where
  name := "loop"
  blocks :=
    [⟨0, [.input 0 0 1 false, .input 1 1 1 true, .const 2 [.int 3], .arith (Arith.plain 3 .iadd (.of 1) (.of 2))],
      .jump 1⟩,
     ⟨1, [.phi 4 [(.of 0, 0), (.of 6, 1)], .arith (Arith.plain 5 .iadd (.of 4) (.of 3)),
        .arith (Arith.plain 6 .iadd (.of 5) (.of 0))], .branch (.of 6) 1 2⟩,
     ⟨2, [.output 0 (.of 6)], .ret (some (.of 4))⟩]
  next := 7
  divergence := none

theorem loop_sum_reframed : ∃ report, loopSum.regroup ⟨true, true⟩ .empty = .ok report ∧ report.changed = true ∧
    report.func.check = .ok () ∧ loopSum.renumbered.Reframed report.func := by
  have accepted : loopSum.check = .ok () := by decide +kernel
  have reached : ∀ index < loopSum.blocks.length, loopSum.Reaches none index := by
    have listed : ∀ index < loopSum.blocks.length, index ∈ loopSum.walk := by decide +kernel
    exact fun index inside => (mem_walk_iff loopSum index).mp (listed index inside)
  rcases regroup_reframes_well_formed loopSum ⟨true, true⟩ .empty accepted reached with ⟨_, large⟩ | ⟨report, done, rest⟩
  · exact absurd large (by decide +kernel)
  · have changed : (loopSum.regroup ⟨true, true⟩ .empty).toOption.map Report.changed = some true := by decide +kernel
    rw [done] at changed
    exact ⟨report, done, Option.some.inj changed, rest⟩

def Report.LeavesReady (report : Report) (f : Func) : Prop :=
  ∀ attempt ∈ report.attempts, attempt.changed = true → ∀ s ∈ attempt.chain.leaves,
    f.Ready s.value attempt.chain.root

section Attempts

variable (h : Func) (table : Option PairTable) (report : Report) (rebuilt : List Rebuilt)
  (regroups : h.Regroups table report rebuilt)
include regroups

theorem changed_attempt_code (attempt : Attempt) (listed : attempt ∈ report.attempts) (changed : attempt.changed = true) :
    ∃ r ∈ rebuilt, attempt.chain = r.chain ∧ attempt.verdict = .rebuilt r.code := by
  have entry : (attempt.chain, attempt.verdict) ∈ rebuilt.map fun r => (r.chain, Verdict.rebuilt r.code) :=
    regroups.attempts ▸ List.mem_map_of_mem (f := fun a => (a.chain, a.verdict)) (List.mem_filter.mpr ⟨listed, changed⟩)
  obtain ⟨r, member, same⟩ := List.mem_map.mp entry
  obtain ⟨chain, verdict⟩ := Prod.mk.inj same
  exact ⟨r, member, chain.symm, verdict.symm⟩

theorem rebuilt_attempt_code (r : Rebuilt) (member : r ∈ rebuilt) : ∃ attempt ∈ report.attempts,
    attempt.changed = true ∧ attempt.chain = r.chain ∧ attempt.verdict = .rebuilt r.code := by
  have entry : (r.chain, Verdict.rebuilt r.code) ∈
      (report.attempts.filter Attempt.changed).map fun a => (a.chain, a.verdict) :=
    regroups.attempts ▸ List.mem_map_of_mem (f := fun r => (r.chain, Verdict.rebuilt r.code)) member
  obtain ⟨attempt, kept, same⟩ := List.mem_map.mp entry
  obtain ⟨chain, verdict⟩ := Prod.mk.inj same
  exact ⟨attempt, (List.mem_filter.mp kept).1, (List.mem_filter.mp kept).2, chain, verdict⟩

theorem changed_attempt_rebuilt (c : Chain) :
    (∃ attempt ∈ report.attempts, attempt.changed = true ∧ attempt.chain = c) ↔ ∃ r ∈ rebuilt, r.chain = c := by
  constructor
  · intro found
    obtain ⟨attempt, listed, changed, rfl⟩ := found
    obtain ⟨r, member, chain, _⟩ := changed_attempt_code h table report rebuilt regroups attempt listed changed
    exact ⟨r, member, chain.symm⟩
  · intro found
    obtain ⟨r, member, rfl⟩ := found
    obtain ⟨attempt, listed, changed, chain, _⟩ := rebuilt_attempt_code h table report rebuilt regroups r member
    exact ⟨attempt, listed, changed, chain⟩

end Attempts

theorem leaves_ready_iff (h : Func) (table : Option PairTable) (report : Report) (rebuilt : List Rebuilt)
    (regroups : h.Regroups table report rebuilt) :
    report.LeavesReady h ↔ ∀ r ∈ rebuilt, ∀ s ∈ r.chain.leaves, h.Ready s.value r.site := by
  constructor
  · intro ready r member
    obtain ⟨attempt, listed, changed, same⟩ :=
      (changed_attempt_rebuilt h table report rebuilt regroups r.chain).mpr ⟨r, member, rfl⟩
    have here := ready attempt listed changed
    rw [same] at here
    exact here
  · intro ready attempt listed changed
    obtain ⟨r, member, same⟩ :=
      (changed_attempt_rebuilt h table report rebuilt regroups attempt.chain).mp ⟨attempt, listed, changed, rfl⟩
    rw [← same]
    exact ready r member

theorem regroup_returns_unless_leaf_late (f : Func) (options : Options) (bench : Workbench)
    (accepted : f.check = .ok ()) :
    (f.regroup options bench = .error .idsExhausted ∧ idLimit ≤ (chainCapacity - 1) * f.defs.length) ∨
    ∃ report, f.regroupChains options bench = .ok report ∧
      ((report.LeavesReady f.renumbered ∧ f.regroup options bench = .ok report ∧ report.func.check = .ok ()) ∨
       ((∃ attempt ∈ report.attempts, attempt.changed = true ∧ ¬ f.Reaches none attempt.chain.root.block ∧
          ∃ s ∈ attempt.chain.leaves, ¬ f.renumbered.Ready s.value attempt.chain.root) ∧
        ∃ defect, f.regroup options bench = .error (.broken report.func defect))) := by
  have wf := (check_ok_iff f).mp accepted
  have fine := prepared_well_formed f options wf
  rcases regroup_cases f options bench accepted with exhausted | ⟨report, rebuilt, chains, regroups, done⟩
  · exact Or.inl exhausted
  · refine Or.inr ⟨report, chains, ?_⟩
    have sound := (check_ok_iff report.func).trans ((regroups_well_formed_iff _ _ report rebuilt fine regroups).trans
      (leaves_ready_iff _ _ report rebuilt regroups).symm)
    by_cases ready : report.LeavesReady (f.prepared options)
    · have good := sound.mpr ready
      exact Or.inl ⟨ready, by rw [done, good], good⟩
    · refine Or.inr ⟨?_, ?_⟩
      · rw [leaves_ready_iff _ _ report rebuilt regroups] at ready
        push Not at ready
        obtain ⟨r, member, s, leaf, late⟩ := ready
        obtain ⟨attempt, listed, changed, same⟩ :=
          (changed_attempt_rebuilt _ _ report rebuilt regroups r.chain).mpr ⟨r, member, rfl⟩
        have path := (prepared_reaches_root f options report rebuilt wf regroups r member).2
        refine ⟨attempt, listed, changed, ?_⟩
        rw [same]
        exact ⟨fun reached => late (rebuilt_leaves_ready _ _ report rebuilt fine regroups r member (path.mpr reached) s leaf),
          s, leaf, late⟩
      · cases result : report.func.check with
        | ok done => exact absurd (sound.mp result) ready
        | error defect =>
            rw [result] at done
            exact ⟨defect, done⟩

theorem loop_sum_returns : loopSum.check = .ok () ∧ ∃ report, loopSum.regroup ⟨true, true⟩ .empty = .ok report ∧
    report.LeavesReady loopSum.renumbered := by
  have accepted : loopSum.check = .ok () := by decide +kernel
  refine ⟨accepted, ?_⟩
  rcases regroup_returns_unless_leaf_late loopSum ⟨true, true⟩ .empty accepted with
    ⟨_, large⟩ | ⟨report, _, ⟨ready, done, _⟩ | ⟨_, defect, broken⟩⟩
  · exact absurd large (by decide +kernel)
  · exact ⟨report, done, ready⟩
  · have returns : (loopSum.regroup ⟨true, true⟩ .empty).isOk = true := by decide +kernel
    rw [broken] at returns
    cases returns

-- Two blocks that nothing reaches. The first adds a term that the second computes from a value of the first.
def crossedBlocks : Func where
  name := "crossed"
  blocks :=
    [⟨0, [], .ret none⟩,
     ⟨1, [.const 2 [.int 4], .arith (Arith.plain 0 .iadd (.of 1) (.of 2)), .input 3 0 1 true], .ret (some (.of 0))⟩,
     ⟨2, [.input 4 1 1 false, .arith (Arith.plain 1 .iadd (.of 3) (.of 4))], .jump 1⟩]
  next := 5
  divergence := none

def crossedBlocksRegrouped : Func where
  name := "crossed"
  blocks :=
    [⟨0, [], .ret none⟩,
     ⟨1, [.const 0 [.int 4], .arith (Arith.plain 5 .iadd (.of 3) (.of 2)),
        .arith (Arith.plain 1 .iadd (.of 0) (.of 5)), .input 2 0 1 true], .ret (some (.of 1))⟩,
     ⟨2, [.input 3 1 1 false, .arith (Arith.plain 4 .iadd (.of 2) (.of 3))], .jump 1⟩]
  next := 6
  divergence := none

theorem crossed_blocks_break : crossedBlocks.check = .ok () ∧ crossedBlocks.regroup ⟨true, true⟩ .empty =
    .error (.broken crossedBlocksRegrouped (.useBeforeDef (some 5) 2)) := by
  decide +kernel

end Regroup
