import Mathlib
import Regroup.Proofs.Evaluation
import Regroup.Proofs.Frame

/- Regrouping keeps the meaning of a function whose regroupable operations are on integers. The function and its
   regrouped form run in step, block by block: at a rebuilt root the new operations compute what the old tree holds.
   They cost steps, so that the regrouped form may be the only one to run out of them. -/

set_option autoImplicit false

namespace Regroup

-- The second machine has the old values of the first and may have taken more steps.
structure Abreast (next stop : Nat) (m n : Machine) : Prop where
  mirrors : Mirrors id (· < next) m n
  size : n.values.size = stop
  steps : m.steps ≤ n.steps

section Steps

variable (inputs : Inputs) (next stop : Nat) (m n : Machine) (abreast : Abreast next stop m n)
include abreast

theorem tick_abreast : Alike .slow (fun m' n' => Abreast next stop m' n' ∧ m'.values = m.values ∧ n'.values = n.values)
    m.tick n.tick := by
  by_cases more : n.steps < stepLimit
  · have tickM : m.tick = .ok { m with steps := m.steps + 1 } := if_pos (Nat.lt_of_le_of_lt abreast.steps more)
    have tickN : n.tick = .ok { n with steps := n.steps + 1 } := if_pos more
    rw [tickM, tickN]
    exact ⟨⟨⟨abreast.mirrors.values, abreast.mirrors.outputs⟩, abreast.size, Nat.succ_le_succ abreast.steps⟩, rfl, rfl⟩
  · have tickN : n.tick = .error (.error .stepLimit) := if_neg more
    rw [tickN]
    exact alike_late _ _

omit abreast in
theorem exec_all_single (i : Inst) : Machine.execAll inputs [i] m = m.tick >>= fun m => m.exec inputs i := by
  rw [Machine.execAll]
  congr 1
  funext ticked
  exact bind_pure _

omit abreast in
theorem keeps_abreast (late : Machine) (base : Nat) (abreast : Abreast next stop m n) (kept : n.Keeps base late)
    (less : next ≤ base) : Abreast next stop m late where
  mirrors := by
    refine ⟨fun v small => ?_, kept.outputs.trans abreast.mirrors.outputs⟩
    obtain ⟨inM, inN, same⟩ := abreast.mirrors.values v small
    exact ⟨inM, kept.size ▸ inN, (kept.values v (Nat.lt_of_lt_of_le small less)).trans same⟩
  size := kept.size.trans abreast.size
  steps := Nat.le_trans abreast.steps kept.steps

theorem write_abreast (v : Value) (lanes : List Const) (small : v < next) :
    Alike .slow (Abreast next stop) (m.write v lanes) (n.write v lanes) := by
  obtain ⟨m', n', left, right, mirrors, stepsM, stepsN⟩ :=
    mirrors_write id _ m n abreast.mirrors (fun _ _ _ _ same => same) v lanes small
  have size : n'.values.size = n.values.size := write_size n n' _ lanes right
  rw [left, show n.write v lanes = .ok n' from right]
  exact ⟨mirrors, size.trans abreast.size, by rw [stepsM, stepsN]; exact abreast.steps⟩

theorem kept_abreast (i : Inst) (reads : ∀ s ∈ i.reads, s.value < next) (dest : ∀ v, i.dest? = some v → v < next) :
    Alike .slow (Abreast next stop) (Machine.execAll inputs [i] m) (Machine.execAll inputs [i] n) := by
  rw [exec_all_single, exec_all_single]
  refine alike_bind _ _ _ _ _ _ _ (tick_abreast next stop m n abreast) fun m' n' ticked => ?_
  have ran := mirrors_exec id _ m' n' ticked.1.mirrors (fun _ _ _ _ same => same) inputs i reads dest
  rw [renamed_id] at ran
  refine alike_results _ _ _ _ _ (alike_slow id _ _ _ ran) fun a b _ right both => ?_
  have size := (exec_writes inputs n' i b right).1
  exact ⟨both.1, size.trans ticked.1.size, by rw [both.2.1, both.2.2]; exact ticked.1.steps⟩

end Steps

theorem lost_fails (inputs : Inputs) (m : Machine) (a : Arith) (scalar : a.width = 1)
    (lost : a.op.combine (m.get? a.lhs) (m.get? a.rhs) = none) :
    ∃ stop, Machine.execAll inputs [.arith a] m = .error stop := by
  rw [exec_all_single]
  by_cases more : m.steps < stepLimit
  · have tick : m.tick = .ok { m with steps := m.steps + 1 } := if_pos more
    have ran := exec_scalar inputs { m with steps := m.steps + 1 } a scalar
    rw [show Machine.get? { m with steps := m.steps + 1 } = m.get? from rfl, lost] at ran
    rw [tick]
    exact ran
  · have tick : m.tick = .error (.error .stepLimit) := if_neg more
    rw [tick]
    exact ⟨_, rfl⟩

theorem scalars_abreast (inputs : Inputs) (next stop : Nat) (m n : Machine) (abreast : Abreast next stop m n) (a b : Arith)
    (scalar : a.width = 1) (widths : b.width = a.width) (dests : b.dest = a.dest) (small : a.dest < next)
    (same : b.op.combine (n.get? b.lhs) (n.get? b.rhs) = a.op.combine (m.get? a.lhs) (m.get? a.rhs)) :
    Alike .slow (Abreast next stop) (Machine.execAll inputs [.arith a] m) (Machine.execAll inputs [.arith b] n) := by
  rw [exec_all_single, exec_all_single]
  refine alike_bind _ _ _ _ _ _ _ (tick_abreast next stop m n abreast) fun m' n' ticked => ?_
  obtain ⟨still, valuesM, valuesN⟩ := ticked
  have getM (s : Scalar) : m'.get? s = m.get? s := by rw [Machine.get?, Machine.get?, valuesM]
  have getN (s : Scalar) : n'.get? s = n.get? s := by rw [Machine.get?, Machine.get?, valuesN]
  have ranM := exec_scalar inputs m' a scalar
  have ranN := exec_scalar inputs n' b (widths.trans scalar)
  rw [getM, getM] at ranM
  rw [getN, getN, same] at ranN
  cases combined : a.op.combine (m.get? a.lhs) (m.get? a.rhs) with
  | none =>
      rw [combined] at ranM ranN
      obtain ⟨stopM, failedM⟩ := ranM
      obtain ⟨stopN, failedN⟩ := ranN
      rw [failedM, failedN]
      trivial
  | some c =>
      rw [combined] at ranM ranN
      rw [ranM, ranN, dests]
      exact write_abreast next stop m' n' still a.dest [c] small

section Lockstep

variable (h : Func) (rebuilt : List Rebuilt) (stop : Nat) (wf : h.WellFormed) (expansion : Expansion h rebuilt stop)
  (integers : ∀ r ∈ rebuilt, r.old.op.integer = true) (inputs : Inputs)
include wf expansion integers

omit integers in
theorem rebuilt_leaf_old (r : Rebuilt) (member : r ∈ rebuilt) (s : Scalar) (leaf : s ∈ r.grouping.leaves) :
    s.value < h.next := by
  rw [(expansion.chain r member).2.1] at leaf
  obtain ⟨site, i, defined, _⟩ := rebuilt_leaf_defined h rebuilt stop wf expansion r member s leaf
  exact defines_bounded h wf s.value site i defined

theorem rebuilt_value (r : Rebuilt) (member : r ∈ rebuilt) (m n : Machine) (path : h.Reaches none r.site.block)
    (sync : m.InSync h r.site) (same : ∀ v, v < h.next → n.values[v]? = m.values[v]?) :
    r.old.op.combine (r.grouping.last.fold r.old.op.combine n.get?) (r.grouping.rest.fold r.old.op.combine n.get?) =
      r.old.op.combine (m.get? r.old.lhs) (m.get? r.old.rhs) := by
  have regroupable := expansion.regroupable r member
  simp only [Arith.regroupable, Bool.and_eq_true] at regroupable
  obtain ⟨value, regular⟩ := integer_op_regular r.old.op (integers r member) regroupable.1.2
  obtain ⟨_, leaves, perm⟩ := expansion.chain r member
  have old : ∀ s ∈ (Tree.node () r.grouping.last r.grouping.rest).leaves, s.value < h.next := by
    intro s leaf
    exact rebuilt_leaf_old h rebuilt stop wf expansion r member s (List.perm_append_comm.mem_iff.mp leaf)
  have shuffled : (h.facts.rootTree h r.old).leaves.Perm (Tree.node () r.grouping.last r.grouping.rest).leaves :=
    perm.symm.trans ((List.Perm.of_eq leaves.symm).trans List.perm_append_comm)
  calc r.old.op.combine (r.grouping.last.fold _ n.get?) (r.grouping.rest.fold _ n.get?)
      = (Tree.node () r.grouping.last r.grouping.rest).fold r.old.op.combine m.get? :=
        fold_of_values r.old.op m n (.node () r.grouping.last r.grouping.rest) h.next old same
    _ = (h.facts.rootTree h r.old).fold r.old.op.combine m.get? :=
        (tree_fold_perm _ (combine_comm r.old.op value regular (integers r member))
          (combine_assoc r.old.op value regular (integers r member)) _ _ _ shuffled).symm
    _ = r.old.op.combine (m.get? r.old.lhs) (m.get? r.old.rhs) :=
        (root_value h wf m r.site r.old _ path (expansion.stored r member) sync (root_tree_grown h r.old)).symm

theorem rebuilt_abreast (r : Rebuilt) (member : r ∈ rebuilt) (m n : Machine) (path : h.Reaches none r.site.block)
    (sync : m.InSync h r.site) (abreast : Abreast h.next stop m n) :
    Alike .slow (Abreast h.next stop) (Machine.execAll inputs [.arith r.old] m)
      (Machine.execAll inputs (r.code ++ [.arith r.arith]) n) := by
  have sameOp := (expansion.chain r member).1
  obtain ⟨base, room⟩ := (consecutive_bounds _ _ rebuilt expansion.numbered).2 r member
  have same : ∀ v, v < h.next → n.values[v]? = m.values[v]? := fun v small => (abreast.mirrors.values v small).2.2
  have value := rebuilt_value h rebuilt stop wf expansion integers r member m n path sync same
  have old : ∀ s ∈ r.grouping.leaves, s.value < r.base := fun s leaf =>
    Nat.lt_of_lt_of_le (rebuilt_leaf_old h rebuilt stop wf expansion r member s leaf) base
  have code := grouping_yields inputs r.chain r.grouping r.base n old (by rw [abreast.size]; exact room)
  rw [sameOp] at code
  have small : r.old.dest < h.next := defines_bounded h wf _ r.site _ ⟨expansion.stored r member, rfl⟩
  have scalar : r.old.width = 1 := by
    have regroupable := expansion.regroupable r member
    simp only [Arith.regroupable, Bool.and_eq_true, decide_eq_true_eq] at regroupable
    exact regroupable.1.1
  rw [exec_all_append]
  cases ran : Machine.execAll inputs r.code n with
  | error failure =>
      rw [Rebuilt.code] at ran
      rw [ran] at code
      rcases code with late | none
      · rw [late]
        exact alike_late _ _
      · -- the new tree has no value, so neither has the old root
        obtain ⟨reason, failed⟩ := lost_fails inputs m r.old scalar (value ▸ combine_missing r.old.op _ _ none.symm)
        rw [failed]
        trivial
  | ok late =>
      rw [Rebuilt.code] at ran
      rw [ran] at code
      refine scalars_abreast inputs h.next stop m late (keeps_abreast h.next stop m n late r.base abreast code.2 base)
        r.old r.arith scalar rfl rfl small ?_
      rw [← value, ← code.1.1, ← code.1.2]
      rfl

omit expansion integers in
theorem inst_old (site : Site) (i : Inst) (stored : h.inst? site = some i) :
    (∀ s ∈ i.reads, s.value < h.next) ∧ ∀ v, i.dest? = some v → v < h.next := by
  constructor
  · intro s read
    obtain ⟨place, j, defined, _⟩ := read_defined h wf site i s stored read
    exact defines_bounded h wf s.value place j defined
  · intro v dest
    exact defines_bounded h wf v site i ⟨stored, dest⟩

theorem expanded_abreast (index k : Nat) (i : Inst) (m n : Machine) (path : h.Reaches none index)
    (stored : h.inst? ⟨index, k⟩ = some i) (sync : m.InSync h ⟨index, k⟩) (abreast : Abreast h.next stop m n) :
    Alike .slow (fun m' n' => Abreast h.next stop m' n' ∧ m'.InSync h ⟨index, k + 1⟩) (Machine.execAll inputs [i] m)
      (Machine.execAll inputs (expanded rebuilt ⟨index, k⟩ i) n) := by
  have synced (m' : Machine) (done : Machine.execAll inputs [i] m = .ok m') : m'.InSync h ⟨index, k + 1⟩ := by
    rw [exec_all_single] at done
    obtain ⟨ticked, tick, ran⟩ := bind_ok _ _ _ done
    refine sync_exec h wf inputs ticked m' index k i path stored ?_ ran
    by_cases more : m.steps < stepLimit
    · rw [Machine.tick, if_pos more] at tick
      cases tick
      exact sync
    · rw [Machine.tick, if_neg more] at tick
      cases tick
  have beside : Alike .slow (Abreast h.next stop) (Machine.execAll inputs [i] m)
      (Machine.execAll inputs (expanded rebuilt ⟨index, k⟩ i) n) := by
    cases found : rebuiltAt rebuilt ⟨index, k⟩ with
    | none =>
        have alone : expanded rebuilt ⟨index, k⟩ i = [i] := by simp [expanded, found]
        obtain ⟨reads, dest⟩ := inst_old h wf _ i stored
        rw [alone]
        exact kept_abreast inputs h.next stop m n abreast i reads dest
    | some r =>
        obtain ⟨member, here⟩ := rebuilt_at_mem rebuilt _ r found
        have root := expansion.stored r member
        rw [here, stored] at root
        cases root
        rw [← here, expanded_root h rebuilt stop expansion r member]
        rw [← here] at sync
        exact rebuilt_abreast h rebuilt stop wf expansion integers inputs r member m n (here ▸ path) sync abreast
  exact alike_results _ _ _ _ _ beside fun m' n' done _ both => ⟨both, synced m' done⟩

theorem insts_abreast (index : Nat) (insts : List Inst) (start : Nat) (m n : Machine) (path : h.Reaches none index)
    (stored : ∀ k i, insts[k]? = some i → h.inst? ⟨index, start + k⟩ = some i) (sync : m.InSync h ⟨index, start⟩)
    (abreast : Abreast h.next stop m n) :
    Alike .slow (fun m' n' => Abreast h.next stop m' n' ∧ m'.InSync h ⟨index, start + insts.length⟩)
      (Machine.execAll inputs insts m)
      (Machine.execAll inputs ((insts.zipIdx start).flatMap fun (i, place) => expanded rebuilt ⟨index, place⟩ i) n) := by
  induction insts generalizing start m n with
  | nil => exact ⟨abreast, sync⟩
  | cons i rest ih =>
      have first := expanded_abreast h rebuilt stop wf expansion integers inputs index start i m n path (stored 0 i rfl)
        sync abreast
      rw [List.zipIdx_cons, List.flatMap_cons, exec_all_append, ← List.singleton_append, exec_all_append]
      refine alike_bind _ _ _ _ _ _ _ first fun m' n' after => ?_
      have later := ih (start + 1) m' n' (fun k j found => ?_) after.2 after.1
      · rw [List.length_append, List.length_singleton, ← Nat.add_assoc]
        exact later
      · rw [Nat.add_assoc, Nat.add_comm 1 k]
        exact stored (k + 1) j found

omit wf expansion integers in
theorem read_phis_expanded (m : Machine) (here : Label) (pred : Option Label) (index : Nat) (insts : List Inst)
    (start : Nat) (stored : ∀ k i, insts[k]? = some i → h.inst? ⟨index, start + k⟩ = some i)
    (expansion : Expansion h rebuilt stop) :
    m.readPhis here pred ((insts.zipIdx start).flatMap fun (i, place) => expanded rebuilt ⟨index, place⟩ i) =
      m.readPhis here pred insts := by
  have skip (fresh : List Arith) (rest : List Inst) :
      m.readPhis here pred (fresh.map Inst.arith ++ rest) = m.readPhis here pred rest := by
    induction fresh with
    | nil => rfl
    | cons a more ih => exact ih
  induction insts generalizing start with
  | nil => rfl
  | cons i rest ih =>
      have later := ih (start + 1) fun k j found => by
        rw [Nat.add_assoc, Nat.add_comm 1 k]
        exact stored (k + 1) j found
      rw [List.zipIdx_cons, List.flatMap_cons]
      cases found : rebuiltAt rebuilt ⟨index, start⟩ with
      | none =>
          have alone : expanded rebuilt ⟨index, start⟩ i = [i] := by simp [expanded, found]
          simp only [alone, List.singleton_append]
          cases i <;> simp only [Machine.readPhis, later]
      | some r =>
          obtain ⟨member, site⟩ := rebuilt_at_mem rebuilt _ r found
          have root := expansion.stored r member
          rw [site, show h.inst? ⟨index, start⟩ = some i from stored 0 i rfl] at root
          cases root
          obtain ⟨fresh, code, _⟩ := rebuilt_code_ariths r
          simp only [← site, expanded_root h rebuilt stop expansion r member, code, List.append_assoc, skip]
          exact later

omit expansion integers in
theorem phis_abreast (index : Nat) (b : Block) (pred : Option Label) (m n : Machine) (path : h.Reaches none index)
    (stored : h.blocks[index]? = some b) (sync : m.InSync h ⟨index, 0⟩) (abreast : Abreast h.next stop m n) :
    Alike .slow (fun m' n' => Abreast h.next stop m' n' ∧ m'.InSync h ⟨index, 0⟩)
      (m.readPhis b.label pred b.insts >>= fun ps => Machine.writePhis ps m)
      (n.readPhis b.label pred b.insts >>= fun ps => Machine.writePhis ps n) := by
  have fine : ∀ i ∈ b.insts, (∀ s ∈ i.reads, s.value < h.next) ∧ ∀ v, i.dest? = some v → v < h.next := by
    intro i member
    obtain ⟨k, found⟩ := List.mem_iff_getElem?.mp member
    exact inst_old h wf ⟨index, k⟩ i (by simp [Func.inst?, stored, found])
  have read := mirrors_read_phis id _ m n abreast.mirrors b.label pred b.insts fine
  rw [show b.insts.map (Inst.renamed id) = b.insts from List.map_id'' renamed_id b.insts] at read
  have both := alike_results _ _ (fun ps qs => m.readPhis b.label pred b.insts = .ok ps ∧ qs = ps ∧
    ∀ p ∈ ps, p.1 < h.next) _ _ (alike_slow id _ _ _ read) fun ps qs done _ same => ⟨done, by simpa using same.1, same.2⟩
  refine alike_bind _ _ _ _ _ _ _ both fun ps qs known => ?_
  obtain ⟨done, rfl, small⟩ := known
  have written := mirrors_write_phis id _ (fun _ _ _ _ same => same) qs small m n abreast.mirrors
  rw [show qs.map (fun p => (id p.1, p.2)) = qs from List.map_id qs] at written
  refine alike_results _ _ _ _ _ (alike_slow id _ _ _ written) fun m' n' left right after => ?_
  refine ⟨⟨after.1, ?_, ?_⟩, sync_phis h wf m m' index b pred qs path stored done left sync⟩
  · rw [write_phis_size qs n n' right]
    exact abreast.size
  · rw [after.2.1, after.2.2]
    exact abreast.steps

omit wf expansion integers in
theorem block_run_steps (b : Block) (pred : Option Label) (m : Machine) :
    b.run inputs pred m = (m.readPhis b.label pred b.insts >>= fun ps => Machine.writePhis ps m) >>= fun m =>
      Machine.execAll inputs b.insts m >>= fun m => m.follow b.term >>= fun next => .ok (m, next) := by
  rw [Block.run, bind_assoc]
  rfl

theorem block_abreast (index : Nat) (b : Block) (pred : Option Label) (m n : Machine) (path : h.Reaches none index)
    (stored : h.blocks[index]? = some b) (sync : m.InSync h ⟨index, 0⟩) (abreast : Abreast h.next stop m n) :
    Alike .slow (fun x y => Abreast h.next stop x.1 y.1 ∧ y.2 = x.2 ∧ x.1.InSync h ⟨index, b.insts.length⟩ ∧
        x.1.follow b.term = .ok x.2)
      (b.run inputs pred m)
      (Block.run { b with insts := b.insts.zipIdx.flatMap fun (i, place) => expanded rebuilt ⟨index, place⟩ i }
        inputs pred n) := by
  have listed (k : Nat) (i : Inst) (found : b.insts[k]? = some i) : h.inst? ⟨index, 0 + k⟩ = some i := by
    rw [Nat.zero_add]
    simp [Func.inst?, stored, found]
  have termFine : ∀ s ∈ b.term.reads, s.value < h.next := by
    intro s read
    obtain ⟨site, j, defined, _⟩ := terminator_read_defined h wf index b s stored read
    exact defines_bounded h wf s.value site j defined
  rw [block_run_steps, block_run_steps, read_phis_expanded h rebuilt stop n b.label pred index b.insts 0 listed expansion]
  refine alike_bind _ _ _ _ _ _ _ (phis_abreast h stop wf index b pred m n path stored sync abreast) fun m' n' entered => ?_
  refine alike_bind _ _ _ _ _ _ _ (insts_abreast h rebuilt stop wf expansion integers inputs index b.insts 0 m' n' path
    listed entered.2 entered.1) fun last other ran => ?_
  have followed := mirrors_follow id _ last other ran.1.mirrors b.term termFine
  rw [renamed_term_id] at followed
  have taken := alike_results _ _ (fun next same => same = next ∧ last.follow b.term = .ok next) _ _
    (alike_slow id _ _ _ followed) fun next same done _ equal => ⟨Eq.symm equal, done⟩
  refine alike_bind _ _ _ _ _ _ _ taken fun next same both => ?_
  rw [Nat.zero_add] at ran
  exact ⟨ran.1, both.1, ran.2, both.2⟩

end Lockstep

theorem follow_successor (m : Machine) (term : Terminator) (label : Label) (done : m.follow term = .ok (.enter label)) :
    label ∈ term.successors := by
  cases term with
  | ret src =>
      cases src with
      | none => cases done
      | some s =>
          obtain ⟨c, _, left⟩ := bind_ok _ _ _ done
          cases left
  | jump target =>
      cases done
      simp [Terminator.successors]
  | branch cond onTrue onFalse =>
      obtain ⟨c, _, chosen⟩ := bind_ok _ _ _ done
      have same : (if c.isZero then onFalse else onTrue) = label := Next.enter.inj (Except.ok.inj chosen)
      rw [← same, Terminator.successors]
      split <;> split <;> simp_all

section Labels

variable (h : Func) (labels : (h.blocks.map Block.label).Nodup)
include labels

theorem label_index (i j : Nat) (b c : Block) (first : h.blocks[i]? = some b) (second : h.blocks[j]? = some c)
    (same : b.label = c.label) : i = j := by
  have inside : i < (h.blocks.map Block.label).length := by
    rw [List.length_map]
    exact (List.getElem?_eq_some_iff.mp first).1
  refine (List.getElem?_inj inside labels).mp ?_
  rw [List.getElem?_map, List.getElem?_map, first, second, Option.map_some, Option.map_some, same]

theorem edge_target_index (index : Nat) (b : Block) (stored : h.blocks[index]? = some b) :
    h.edgeTarget? b.label = some index := by
  cases found : h.edgeTarget? b.label with
  | none =>
      simp only [Func.edgeTarget?, Option.map_eq_none_iff, List.find?_eq_none] at found
      have listed : (b, index) ∈ h.blocks.zipIdx.reverse := by
        rw [List.mem_reverse, List.mem_zipIdx_iff_getElem?]
        exact stored
      exact absurd (by simp) (found _ listed)
  | some target =>
      obtain ⟨c, there, label⟩ := edge_target_bounded h b.label target found
      rw [label_index h labels target index c b there stored label]

end Labels

-- Control may enter a block with the label: the block is reached, and what stands before it has been computed.
def Func.Arrives (h : Func) (m : Machine) (label : Label) : Prop :=
  ∀ index b, h.blocks[index]? = some b → b.label = label → h.Reaches none index ∧ m.InSync h ⟨index, 0⟩

theorem arrives_next (h : Func) (labels : (h.blocks.map Block.label).Nodup) (m : Machine) (index : Nat) (b : Block)
    (target : Label) (path : h.Reaches none index) (stored : h.blocks[index]? = some b)
    (sync : m.InSync h ⟨index, b.insts.length⟩) (taken : m.follow b.term = .ok (.enter target)) :
    h.Arrives m target := by
  intro there c found label
  have edge : (index, there) ∈ h.edges := by
    rw [mem_edges]
    exact ⟨b, stored, target, follow_successor m b.term target taken, label ▸ edge_target_index h labels there c found⟩
  exact ⟨.cross index there path edge (by simp), sync_cross h m index there b path stored edge sync⟩

section Runs

variable (h g : Func) (rebuilt : List Rebuilt) (wf : h.WellFormed) (expansion : Expansion h rebuilt g.next)
  (integers : ∀ r ∈ rebuilt, r.old.op.integer = true) (labels : (h.blocks.map Block.label).Nodup)
  (blocks : g.blocks = (h.recast (expanded rebuilt)).blocks) (inputs : Inputs)
include wf expansion integers labels blocks

theorem enter_abreast (here : Label) (pred : Option Label) (m n : Machine) (arrives : h.Arrives m here)
    (abreast : Abreast h.next g.next m n) :
    Alike .slow (fun x y => Abreast h.next g.next x.1 y.1 ∧ y.2 = x.2 ∧
        ∀ target, x.2 = .enter target → h.Arrives x.1 target)
      (h.enter inputs here pred m) (g.enter inputs here pred n) := by
  have source : h.blocks.find? (·.label = here) =
      (h.blocks.zipIdx.find? (·.1.label = here)).map Prod.fst := by
    conv_lhs => rw [← List.zipIdx_map_fst 0 h.blocks, List.find?_map]
    rfl
  have result : g.blocks.find? (·.label = here) = (h.blocks.zipIdx.find? (·.1.label = here)).map fun entry =>
      { entry.1 with insts := entry.1.insts.zipIdx.flatMap fun (i, place) => expanded rebuilt ⟨entry.2, place⟩ i } := by
    rw [blocks, Func.recast, List.find?_map]
    rfl
  rw [Func.enter, Func.enter, source, result]
  cases found : h.blocks.zipIdx.find? (·.1.label = here) with
  | none => trivial
  | some entry =>
      obtain ⟨b, index⟩ := entry
      have stored : h.blocks[index]? = some b := by
        simpa [List.mem_zipIdx_iff_getElem?] using List.mem_of_find?_eq_some found
      obtain ⟨path, sync⟩ := arrives index b stored (by simpa using List.find?_some found)
      refine alike_results _ _ _ _ _ (block_abreast h rebuilt g.next wf expansion integers inputs index b pred m n path stored
        sync abreast) fun x y _ _ after => ⟨after.1, after.2.1, fun target next => ?_⟩
      exact arrives_next h labels x.1 index b target path stored after.2.2.1 (next ▸ after.2.2.2)

theorem run_from_abreast (entries : Nat) (here : Label) (pred : Option Label) (m n : Machine)
    (arrives : h.Arrives m here) (abreast : Abreast h.next g.next m n) :
    Alike .slow (fun x y => y.1.outputs = x.1.outputs ∧ y.2 = x.2)
      (h.runFrom inputs entries here pred m) (g.runFrom inputs entries here pred n) := by
  induction entries generalizing here pred m n with
  | zero => trivial
  | succ entries ih =>
      rw [run_from_succ, run_from_succ]
      refine alike_bind _ _ _ _ _ _ _
        (enter_abreast h g rebuilt wf expansion integers labels blocks inputs here pred m n arrives abreast) ?_
      intro x y after
      obtain ⟨m', next⟩ := x
      obtain ⟨n', same⟩ := y
      obtain ⟨still, rfl, onward⟩ := after
      cases same with
      | enter target => exact ih target (some here) m' n' (onward target rfl) still
      | leave returned => exact ⟨still.mirrors.outputs, rfl⟩

theorem expanded_run : Alike .slow Eq (h.run inputs) (g.run inputs) := by
  have start : Abreast h.next g.next (Machine.init h) (Machine.init g) := by
    refine ⟨⟨fun v small => ?_, rfl⟩, by simp [Machine.init], Nat.le_refl _⟩
    have large : v < g.next := Nat.lt_of_lt_of_le small (consecutive_bounds _ _ rebuilt expansion.numbered).1
    refine ⟨by simpa [Machine.init] using small, by simpa [Machine.init] using large, ?_⟩
    simp [Machine.init, small, large]
  refine alike_run _ h g inputs ?_
  cases source : h.blocks with
  | nil =>
      have none : g.blocks = [] := by simp [blocks, Func.recast, source]
      rw [Func.runToEnd, Func.runToEnd, source, none]
      exact ⟨rfl, rfl⟩
  | cons entry rest =>
      have length : g.blocks.length = h.blocks.length := by simp [blocks, Func.recast]
      have bound : g.entryBound = h.entryBound := by rw [Func.entryBound, Func.entryBound, length]
      have first : h.blocks[0]? = some entry := by rw [source]; rfl
      have some : 0 < h.blocks.length := (List.getElem?_eq_some_iff.mp first).1
      have arrives : h.Arrives (Machine.init h) entry.label := by
        intro index b stored label
        obtain rfl := label_index h labels index 0 b entry stored first label
        refine ⟨.entry some (by simp), fun site a _ _ before => ?_⟩
        rw [precedes_entry h site some] at before
        cases before
      cases made : g.blocks with
      | nil => simp [made, source] at length
      | cons top others =>
          have there := recast_block h (expanded rebuilt) 0
          rw [← blocks, made, first] at there
          have label : top.label = entry.label := by
            rw [Option.some.inj there]
          rw [Func.runToEnd, Func.runToEnd, source, made]
          simp only [bound, label]
          exact run_from_abreast h g rebuilt wf expansion integers labels blocks inputs _ _ none _ _ arrives start

end Runs

theorem regroup_preserves_runs (f : Func) (options : Options) (bench : Workbench) (report : Report)
    (accepted : f.check = .ok ()) (labels : (f.blocks.map Block.label).Nodup)
    (integers : ∀ a, Inst.arith a ∈ f.insts → a.regroupable = true → a.op.integer = true)
    (done : f.regroup options bench = .ok report) (inputs : Inputs) (o : Observation) :
    (f.run inputs = .ok o → report.func.run inputs = .ok o ∨ report.func.run inputs = .error (.error .stepLimit)) ∧
    (report.func.run inputs = .ok o → f.run inputs = .ok o) := by
  have wf := (check_ok_iff f).mp accepted
  have link := prepared_renaming f options wf.unique
  obtain ⟨rebuilt, regroups⟩ := regroup_ok f options bench accepted report done
  have expansion := regroups_expansion _ _ report rebuilt regroups
  have integer : ∀ r ∈ rebuilt, r.old.op.integer = true := by
    intro r member
    have stored := expansion.stored r member
    rw [renaming_inst f _ _ link] at stored
    obtain ⟨i, there, same⟩ := Option.map_eq_some_iff.mp stored
    obtain ⟨a, rfl, equal⟩ := renamed_arith f.rename i r.old same
    have regroupable := expansion.regroupable r member
    rw [equal] at regroupable ⊢
    exact integers a ((mem_insts f _).mpr ⟨_, there⟩) regroupable
  have sameLabels : ((f.prepared options).blocks.map Block.label).Nodup := by
    rw [link.blocks, List.map_map]
    exact labels
  have blocks : report.func.blocks = ((f.prepared options).recast (expanded rebuilt)).blocks := by
    rw [regroups.func]
    rfl
  -- renumbering costs no steps, so only the expansion can make a run fall short
  have renamed := renamed_run f _ _ link inputs wf
  have alike := expanded_run (f.prepared options) report.func rebuilt (prepared_well_formed f options wf) expansion integer
    sameLabels blocks inputs
  constructor
  · intro ran
    rw [renamed, ran] at alike
    cases result : report.func.run inputs with
    | error stop =>
        rw [result] at alike
        exact Or.inr (congrArg Except.error alike)
    | ok other =>
        rw [result] at alike
        exact Or.inl (congrArg Except.ok (Eq.symm alike))
  · intro ran
    rw [renamed, ran] at alike
    cases result : f.run inputs with
    | error stop =>
        rw [result] at alike
        exact alike.elim
    | ok other =>
        rw [result] at alike
        exact congrArg Except.ok alike

def loopInputs : Inputs
  | 0 => some [.int 2]
  | 1 => some [.int (-6)]
  | _ => none

theorem loop_sum_runs_alike : ∃ report, loopSum.regroup ⟨true, true⟩ .empty = .ok report ∧ report.changed = true ∧
    report.func.run loopInputs = .ok ⟨[(0, .int 0)], some (.int 1)⟩ ∧
    loopSum.run loopInputs = .ok ⟨[(0, .int 0)], some (.int 1)⟩ := by
  have facts : (loopSum.regroup ⟨true, true⟩ .empty).toOption.map (fun report =>
      (report.changed, report.func.run loopInputs)) = some (true, .ok ⟨[(0, .int 0)], some (.int 1)⟩) := by
    decide +kernel
  cases done : loopSum.regroup ⟨true, true⟩ .empty with
  | error trap =>
      rw [done] at facts
      cases facts
  | ok report =>
      rw [done] at facts
      obtain ⟨changed, ran⟩ := Prod.mk.inj (Option.some.inj facts)
      have integers : ∀ a, Inst.arith a ∈ loopSum.insts → a.regroupable = true → a.op.integer = true := by
        have all : ∀ i ∈ loopSum.insts, ∀ a ∈ i.arith?, a.op.integer = true := by decide +kernel
        exact fun a member _ => all _ member a rfl
      have alike := regroup_preserves_runs loopSum ⟨true, true⟩ .empty report (by decide +kernel) (by decide) integers done
        loopInputs ⟨[(0, .int 0)], some (.int 1)⟩
      exact ⟨report, rfl, changed, ran, alike.2 ran⟩

end Regroup
