import Mathlib
import Regroup.Proofs.Associativity
import Regroup.Proofs.Growth
import Regroup.Proofs.Running

set_option autoImplicit false

namespace Regroup

def Machine.Holds (m : Machine) (a : Arith) : Prop :=
  m.get? (.of a.dest) = a.op.combine (m.get? a.lhs) (m.get? a.rhs)

def Machine.InSync (m : Machine) (h : Func) (place : Site) : Prop :=
  ∀ site a, h.inst? site = some (.arith a) → a.width = 1 → h.precedes site place = true → m.Holds a

theorem bind_ok {α β : Type} (x : Except Stop α) (next : α → Except Stop β) (result : β)
    (done : x >>= next = .ok result) : ∃ a, x = .ok a ∧ next a = .ok result := by
  cases x with
  | error stop => cases done
  | ok a => exact ⟨a, rfl, done⟩

theorem get_of_values (m n : Machine) (s : Scalar) (same : n.values[s.value]? = m.values[s.value]?) :
    n.get? s = m.get? s := by
  rw [Machine.get?, Machine.get?, same]

theorem holds_of_values (m n : Machine) (a : Arith) (dest : n.values[a.dest]? = m.values[a.dest]?)
    (lhs : n.values[a.lhs.value]? = m.values[a.lhs.value]?) (rhs : n.values[a.rhs.value]? = m.values[a.rhs.value]?)
    (holds : m.Holds a) : n.Holds a := by
  rw [Machine.Holds, get_of_values m n (.of a.dest) dest, get_of_values m n a.lhs lhs, get_of_values m n a.rhs rhs]
  exact holds

theorem write_ok (m n : Machine) (v : Value) (lanes : List Const) (done : m.write v lanes = .ok n) :
    v < m.values.size ∧ n = { m with values := m.values.setIfInBounds v (some lanes) } := by
  by_cases inside : v < m.values.size
  · rw [Machine.write, if_pos inside] at done
    exact ⟨inside, (Except.ok.inj done).symm⟩
  · rw [Machine.write, if_neg inside] at done
    cases done

theorem write_other (m n : Machine) (v w : Value) (lanes : List Const) (done : m.write v lanes = .ok n)
    (different : w ≠ v) : n.values[w]? = m.values[w]? := by
  rw [(write_ok m n v lanes done).2]
  simp [Ne.symm different]

theorem write_size (m n : Machine) (v : Value) (lanes : List Const) (done : m.write v lanes = .ok n) :
    n.values.size = m.values.size := by
  rw [(write_ok m n v lanes done).2]
  simp

theorem write_get (m n : Machine) (v : Value) (c : Const) (done : m.write v [c] = .ok n) :
    n.get? (.of v) = some c := by
  obtain ⟨inside, rfl⟩ := write_ok m n v [c] done
  simp [Machine.get?, Scalar.of, inside]

theorem read_stored (m : Machine) (s : Scalar) (c : Const) (done : m.read s = .ok c) :
    ∃ lanes, m.values[s.value]? = some (some lanes) ∧ lanes[s.comp.toNat]? = some c := by
  cases got : m.get? s with
  | none =>
      rw [Machine.read, got] at done
      cases done
  | some d =>
      rw [Machine.read, got] at done
      cases done
      obtain ⟨lanes, stored, lane⟩ := Option.bind_eq_some_iff.mp got
      refine ⟨lanes, ?_, lane⟩
      cases entry : m.values[s.value]? with
      | none => simp [entry] at stored
      | some known =>
          rw [entry] at stored
          exact congrArg some stored

theorem read_first_lane (m : Machine) (s : Scalar) : m.readLane s 0 = m.read s := by
  have same : s.lane? 0 = some s := by simp [Scalar.lane?, s.comp.toNat_lt]
  rw [Machine.readLane, same]

section Exec

variable (inputs : Inputs) (m : Machine)

theorem exec_scalar (a : Arith) (scalar : a.width = 1) :
    match a.op.combine (m.get? a.lhs) (m.get? a.rhs) with
    | some c => m.exec inputs (.arith a) = m.write a.dest [c]
    | none => ∃ stop, m.exec inputs (.arith a) = .error stop := by
  have once : m.exec inputs (.arith a) = m.arithLane a 0 >>= fun c => m.write a.dest [c] := by
    simp only [Machine.exec, scalar, show List.range (UInt8.toNat 1) = [0] from rfl, List.mapM_cons, List.mapM_nil]
    cases m.arithLane a 0 <;> rfl
  rw [once, Machine.arithLane, read_first_lane, read_first_lane, Machine.read, Machine.read]
  cases m.get? a.lhs with
  | none => exact ⟨_, rfl⟩
  | some x =>
      cases m.get? a.rhs with
      | none => exact ⟨_, rfl⟩
      | some y =>
          simp only [Op.combine, Option.bind_some]
          cases result : a.op.apply x y with
          | none => exact ⟨.error (.typeMismatch a.op x y), by simp [Op.lane, result, bind, Except.bind]⟩
          | some c => simp [Op.lane, result, bind, Except.bind]

theorem exec_writes (i : Inst) (n : Machine) (done : m.exec inputs i = .ok n) :
    n.values.size = m.values.size ∧ ∀ w, i.dest? ≠ some w → n.values[w]? = m.values[w]? := by
  have wrote (dest : Value) (lanes : List Const) (same : i.dest? = some dest) (written : m.write dest lanes = .ok n) :
      n.values.size = m.values.size ∧ ∀ w, i.dest? ≠ some w → n.values[w]? = m.values[w]? := by
    refine ⟨write_size m n dest lanes written, fun w different => ?_⟩
    exact write_other m n dest w lanes written fun equal => different (by rw [same, equal])
  cases i with
  | input dest slot width divergent =>
      rw [Machine.exec] at done
      cases found : inputs slot with
      | none =>
          rw [found] at done
          cases done
      | some lanes =>
          rw [found] at done
          exact wrote dest lanes rfl done
  | const dest lanes => exact wrote dest lanes rfl done
  | arith a =>
      obtain ⟨lanes, _, written⟩ := bind_ok _ _ _ done
      exact wrote a.dest lanes rfl written
  | phi dest incoming =>
      cases done
      exact ⟨rfl, fun _ _ => rfl⟩
  | output slot src =>
      obtain ⟨c, _, put⟩ := bind_ok _ _ _ done
      cases put
      exact ⟨rfl, fun _ _ => rfl⟩

end Exec

theorem write_phis_other (ps : List (Value × Const)) (m n : Machine) (w : Value)
    (done : Machine.writePhis ps m = .ok n) (absent : ∀ p ∈ ps, w ≠ p.1) : n.values[w]? = m.values[w]? := by
  induction ps generalizing m with
  | nil =>
      cases done
      rfl
  | cons p rest ih =>
      obtain ⟨middle, written, later⟩ := bind_ok _ _ _ done
      rw [ih middle later fun q member => absent q (List.mem_cons_of_mem p member)]
      exact write_other m middle p.1 w [p.2] written (absent p List.mem_cons_self)

theorem write_phis_size (ps : List (Value × Const)) (m n : Machine) (done : Machine.writePhis ps m = .ok n) :
    n.values.size = m.values.size := by
  induction ps generalizing m with
  | nil =>
      cases done
      rfl
  | cons p rest ih =>
      obtain ⟨middle, written, later⟩ := bind_ok _ _ _ done
      rw [ih middle later, write_size m middle p.1 [p.2] written]

theorem read_phis_dests (m : Machine) (here : Label) (pred : Option Label) (insts : List Inst)
    (ps : List (Value × Const)) (done : m.readPhis here pred insts = .ok ps) :
    ∀ p ∈ ps, ∃ i ∈ insts, i.dest? = some p.1 := by
  induction insts generalizing ps with
  | nil =>
      cases done
      simp
  | cons i rest ih =>
      have skip (later : m.readPhis here pred rest = .ok ps) : ∀ p ∈ ps, ∃ j ∈ i :: rest, j.dest? = some p.1 := by
        intro p member
        obtain ⟨j, listed, dest⟩ := ih ps later p member
        exact ⟨j, List.mem_cons_of_mem i listed, dest⟩
      cases i with
      | input dest slot width divergent => exact skip done
      | const dest lanes => exact skip done
      | arith a => exact skip done
      | output slot src => exact skip done
      | phi dest incoming =>
          obtain ⟨c, _, more⟩ := bind_ok _ _ _ done
          obtain ⟨qs, later, made⟩ := bind_ok _ _ _ more
          cases made
          intro p member
          rcases List.mem_cons.mp member with same | listed
          · exact ⟨_, List.mem_cons_self, by rw [same]; rfl⟩
          · obtain ⟨j, inRest, defines⟩ := ih qs later p listed
            exact ⟨j, List.mem_cons_of_mem _ inRest, defines⟩

section Sync

variable (h : Func) (wf : h.WellFormed)
include wf

theorem ready_elsewhere (v w : Value) (place : Site) (i : Inst) (defined : h.Defines v place i)
    (ready : h.Ready w place) : w ≠ v := by
  intro same
  subst same
  obtain ⟨site, j, again, before⟩ := ready
  rw [(defines_unique h wf.unique w place site i j defined again).1, precedes_irrefl] at before
  cases before

theorem operation_ready (site place : Site) (a : Arith) (path : h.Reaches none place.block)
    (stored : h.inst? site = some (.arith a)) (before : h.precedes site place = true) :
    h.Ready a.dest place ∧ h.Ready a.lhs.value place ∧ h.Ready a.rhs.value place := by
  have defined : h.Defines a.dest site (.arith a) := ⟨stored, rfl⟩
  have ready : h.Ready a.dest place := ⟨site, _, defined, before⟩
  exact ⟨ready,
    ready_trans h wf _ _ site place _ path defined ready (read_ready h wf site _ a.lhs stored (arith_reads a).1 rfl),
    ready_trans h wf _ _ site place _ path defined ready (read_ready h wf site _ a.rhs stored (arith_reads a).2 rfl)⟩

theorem sync_exec (inputs : Inputs) (m n : Machine) (index k : Nat) (i : Inst) (path : h.Reaches none index)
    (stored : h.inst? ⟨index, k⟩ = some i) (sync : m.InSync h ⟨index, k⟩) (done : m.exec inputs i = .ok n) :
    n.InSync h ⟨index, k + 1⟩ := by
  have kept (w : Value) (ready : h.Ready w ⟨index, k⟩) : n.values[w]? = m.values[w]? := by
    refine (exec_writes inputs m i n done).2 w fun dest => ?_
    exact ready_elsewhere h wf w w ⟨index, k⟩ i ⟨stored, dest⟩ ready rfl
  intro site a there scalar before
  by_cases here : site = ⟨index, k⟩
  · -- the operation that has just run: its operands were ready, so they are not what it wrote
    subst here
    rw [stored] at there
    cases there
    have left := kept a.lhs.value (read_ready h wf _ _ a.lhs stored (arith_reads a).1 rfl)
    have right := kept a.rhs.value (read_ready h wf _ _ a.rhs stored (arith_reads a).2 rfl)
    have ran := exec_scalar inputs m a scalar
    rw [Machine.Holds, get_of_values m n a.lhs left, get_of_values m n a.rhs right]
    cases combined : a.op.combine (m.get? a.lhs) (m.get? a.rhs) with
    | none =>
        rw [combined] at ran
        obtain ⟨stop, failed⟩ := ran
        rw [failed] at done
        cases done
    | some c =>
        rw [combined] at ran
        exact write_get m n a.dest c (ran.symm.trans done)
  · have earlier : h.precedes site ⟨index, k⟩ = true := by
      unfold Func.precedes at before ⊢
      by_cases sameBlock : site.block = index
      · have different : site.inst ≠ k := fun same => here (by cases site; simp_all)
        simp only [sameBlock, if_true, decide_eq_true_eq] at before ⊢
        omega
      · simpa [sameBlock] using before
    obtain ⟨dest, lhs, rhs⟩ := operation_ready h wf site ⟨index, k⟩ a path there earlier
    exact holds_of_values m n a (kept _ dest) (kept _ lhs) (kept _ rhs) (sync site a there scalar earlier)

theorem sync_phis (m n : Machine) (index : Nat) (b : Block) (pred : Option Label) (ps : List (Value × Const))
    (path : h.Reaches none index) (stored : h.blocks[index]? = some b) (read : m.readPhis b.label pred b.insts = .ok ps)
    (done : Machine.writePhis ps m = .ok n) (sync : m.InSync h ⟨index, 0⟩) : n.InSync h ⟨index, 0⟩ := by
  have kept (w : Value) (ready : h.Ready w ⟨index, 0⟩) : n.values[w]? = m.values[w]? := by
    refine write_phis_other ps m n w done fun p member same => ?_
    obtain ⟨i, listed, dest⟩ := read_phis_dests m b.label pred b.insts ps read p member
    obtain ⟨place, found⟩ := List.mem_iff_getElem?.mp listed
    obtain ⟨site, j, defined, before⟩ := ready
    have phi : h.Defines w ⟨index, place⟩ i := ⟨by simp [Func.inst?, stored, found], same ▸ dest⟩
    rw [(defines_unique h wf.unique w _ _ _ _ defined phi).1] at before
    simp [Func.precedes] at before
  intro site a there scalar before
  obtain ⟨dest, lhs, rhs⟩ := operation_ready h wf site ⟨index, 0⟩ a path there before
  exact holds_of_values m n a (kept _ dest) (kept _ lhs) (kept _ rhs) (sync site a there scalar before)

omit wf in
theorem sync_cross (m : Machine) (source target : Nat) (b : Block) (path : h.Reaches none source)
    (stored : h.blocks[source]? = some b) (edge : (source, target) ∈ h.edges)
    (sync : m.InSync h ⟨source, b.insts.length⟩) : m.InSync h ⟨target, 0⟩ := by
  intro site a there scalar before
  refine sync site a there scalar (precedes_enter h site source target b path edge (fun same => ?_) before)
  obtain ⟨c, inBlock, found⟩ := Option.bind_eq_some_iff.mp there
  rw [same, stored] at inBlock
  cases inBlock
  exact (List.getElem?_eq_some_iff.mp found).1

-- Below a scalar that is ready at the place, a chain's tree holds the scalar's value.
theorem grown_value (m : Machine) (place : Site) (path : h.Reaches none place.block) (sync : m.InSync h place) (op : Op)
    (t : Tree Arith Scalar) (s : Scalar) (grown : h.Grown op t s) (ready : h.Ready s.value place) :
    m.get? s = t.fold op.combine m.get? := by
  induction grown with
  | leaf s => rfl
  | node a left right site definition sameOp regroupable once _ _ lower upper =>
      have defined := (definition_defines h a.dest site _ definition).2
      obtain ⟨there, j, again, before⟩ := ready
      obtain ⟨rfl, rfl⟩ := defines_unique h wf.unique _ _ _ _ _ defined again
      obtain ⟨_, lhs, rhs⟩ := operation_ready h wf site place a path defined.1 before
      have scalar : a.width = 1 := by
        simp only [Arith.regroupable, Bool.and_eq_true, decide_eq_true_eq] at regroupable
        exact regroupable.1.1
      rw [sync site a defined.1 scalar before, Tree.fold, ← lower lhs, ← upper rhs, sameOp]

theorem root_value (m : Machine) (site : Site) (a : Arith) (t : Tree Arith Scalar) (path : h.Reaches none site.block)
    (stored : h.inst? site = some (.arith a)) (sync : m.InSync h site) (grown : h.RootGrown a t) :
    a.op.combine (m.get? a.lhs) (m.get? a.rhs) = t.fold a.op.combine m.get? := by
  obtain ⟨left, right, rfl, lower, upper⟩ := grown
  have leftReady := read_ready h wf site _ a.lhs stored (arith_reads a).1 rfl
  have rightReady := read_ready h wf site _ a.rhs stored (arith_reads a).2 rfl
  rw [Tree.fold, ← grown_value h wf m site path sync a.op left a.lhs lower leftReady,
    ← grown_value h wf m site path sync a.op right a.rhs upper rightReady]

end Sync

end Regroup
