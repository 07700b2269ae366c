import Mathlib
import Regroup.Proofs.Grouping
import Regroup.Proofs.Synchrony

set_option autoImplicit false

namespace Regroup

theorem exec_all_append (inputs : Inputs) (first second : List Inst) (m : Machine) :
    Machine.execAll inputs (first ++ second) m = Machine.execAll inputs first m >>= Machine.execAll inputs second := by
  induction first generalizing m with
  | nil => rfl
  | cons i rest ih =>
      rw [List.cons_append, Machine.execAll, Machine.execAll, bind_assoc]
      congr 1
      funext ticked
      rw [bind_assoc]
      congr 1
      funext ran
      exact ih ran

structure Machine.Keeps (n : Machine) (next : Nat) (after : Machine) : Prop where
  values : ∀ v, v < next → after.values[v]? = n.values[v]?
  size : after.values.size = n.values.size
  outputs : after.outputs = n.outputs
  steps : n.steps ≤ after.steps

theorem keeps_refl (n : Machine) (next : Nat) : n.Keeps next n := ⟨fun _ _ => rfl, rfl, rfl, Nat.le_refl _⟩

theorem keeps_trans (n middle after : Machine) (next wider : Nat) (first : n.Keeps next middle)
    (second : middle.Keeps wider after) (less : next ≤ wider) : n.Keeps next after where
  values v small := (second.values v (Nat.lt_of_lt_of_le small less)).trans (first.values v small)
  size := second.size.trans first.size
  outputs := second.outputs.trans first.outputs
  steps := Nat.le_trans first.steps second.steps

-- What running added code comes to: the machine is `ready` and has kept its old values. It fails only where the value is
-- `lost`, or for lack of steps.
def Machine.Yields (n : Machine) (next : Nat) (ready : Machine → Prop) (lost : Prop) : Except Stop Machine → Prop
  | .ok after => ready after ∧ n.Keeps next after
  | .error stop => stop = .error .stepLimit ∨ lost

theorem yields_after (n middle : Machine) (next wider : Nat) (ready : Machine → Prop) (lost : Prop)
    (x : Except Stop Machine) (first : n.Keeps next middle) (less : next ≤ wider)
    (later : middle.Yields wider ready lost x) : n.Yields next ready lost x := by
  cases x with
  | error stop => exact later
  | ok after => exact ⟨later.1, keeps_trans n middle after next wider first later.2 less⟩

theorem yields_bind (n : Machine) (next : Nat) (part ready : Machine → Prop) (missing lost : Prop)
    (x : Except Stop Machine) (more : Machine → Except Stop Machine) (first : n.Yields next part missing x)
    (fails : missing → lost)
    (later : ∀ middle, part middle → n.Keeps next middle → n.Yields next ready lost (more middle)) :
    n.Yields next ready lost (x >>= more) := by
  cases x with
  | error stop => exact first.imp id fails
  | ok middle => exact later middle first.1 first.2

theorem write_keeps (m n : Machine) (v : Value) (lanes : List Const) (done : m.write v lanes = .ok n) :
    m.Keeps v n where
  values w less := write_other m n v w lanes done (Nat.ne_of_lt less)
  size := write_size m n v lanes done
  outputs := by rw [(write_ok m n v lanes done).2]
  steps := by rw [(write_ok m n v lanes done).2]

theorem tick_keeps (n : Machine) (next : Nat) : n.Keeps next { n with steps := n.steps + 1 } :=
  ⟨fun _ _ => rfl, rfl, rfl, Nat.le_succ _⟩

theorem step_yields (inputs : Inputs) (n : Machine) (a : Arith) (scalar : a.width = 1)
    (inside : a.dest < n.values.size) :
    n.Yields a.dest (fun after => after.get? (.of a.dest) = a.op.combine (n.get? a.lhs) (n.get? a.rhs))
      (a.op.combine (n.get? a.lhs) (n.get? a.rhs) = none) (Machine.execAll inputs [.arith a] n) := by
  by_cases more : n.steps < stepLimit
  · have tick : n.tick = .ok { n with steps := n.steps + 1 } := if_pos more
    have ran := exec_scalar inputs { n with steps := n.steps + 1 } a scalar
    rw [show Machine.get? { n with steps := n.steps + 1 } = n.get? from rfl] at ran
    rw [Machine.execAll, tick]
    change n.Yields _ _ _ (Machine.exec inputs { n with steps := n.steps + 1 } (.arith a) >>= Machine.execAll inputs [])
    cases combined : a.op.combine (n.get? a.lhs) (n.get? a.rhs) with
    | none =>
        rw [combined] at ran
        obtain ⟨stop, failed⟩ := ran
        rw [failed]
        exact Or.inr rfl
    | some c =>
        rw [combined] at ran
        have written : Machine.write { n with steps := n.steps + 1 } a.dest [c] = .ok _ := if_pos inside
        rw [ran, written]
        exact ⟨write_get _ _ _ _ written,
          keeps_trans n _ _ _ _ (tick_keeps n _) (write_keeps _ _ _ _ written) (Nat.le_refl _)⟩
  · have tick : n.tick = .error (.error .stepLimit) := if_neg more
    rw [Machine.execAll, tick]
    exact Or.inl rfl

theorem fold_of_values (op : Op) (m n : Machine) (t : Shape) (next : Nat) (old : ∀ s ∈ t.leaves, s.value < next)
    (same : ∀ v, v < next → n.values[v]? = m.values[v]?) :
    t.fold op.combine n.get? = t.fold op.combine m.get? := by
  induction t with
  | leaf s => exact get_of_values m n s (same _ (old s (by simp [Tree.leaves])))
  | node label left right leftSame rightSame =>
      rw [Tree.fold, Tree.fold, leftSame fun s member => old s (List.mem_append_left _ member),
        rightSame fun s member => old s (List.mem_append_right _ member)]

theorem combine_missing (op : Op) (x y : Option Const) (missing : x = none ∨ y = none) : op.combine x y = none := by
  rcases missing with rfl | rfl
  · rfl
  · cases x <;> rfl

theorem shape_result_old (next : Nat) (t : Shape) (old : ∀ s ∈ t.leaves, s.value < next) :
    (Shape.result next t).value < next + t.nodeCount := by
  cases t with
  | leaf s => exact Nat.lt_of_lt_of_le (old s List.mem_cons_self) (Nat.le_add_right _ _)
  | node label left right =>
      change next + left.nodeCount + right.nodeCount < next + (left.nodeCount + right.nodeCount + 1)
      omega

def ShapeYields (inputs : Inputs) (op : Op) (t : Shape) (next : Nat) (codeT : List Inst) : Prop :=
  ∀ n : Machine, (∀ s ∈ t.leaves, s.value < next) → next + t.nodeCount ≤ n.values.size →
    n.Yields next (fun after => after.get? (Shape.result next t) = t.fold op.combine n.get?)
      (t.fold op.combine n.get? = none) (Machine.execAll inputs codeT n)

-- Two shapes coded one after the other: the later code does not touch what the earlier one has left.
theorem pair_yields (inputs : Inputs) (op : Op) (left right : Shape) (next : Nat) (codeL codeR : List Inst)
    (runL : ShapeYields inputs op left next codeL)
    (runR : ShapeYields inputs op right (next + left.nodeCount) codeR) (n : Machine)
    (old : ∀ s ∈ left.leaves ++ right.leaves, s.value < next)
    (room : next + left.nodeCount + right.nodeCount ≤ n.values.size) :
    n.Yields next
      (fun after => after.get? (Shape.result next left) = left.fold op.combine n.get? ∧
        after.get? (Shape.result (next + left.nodeCount) right) = right.fold op.combine n.get?)
      (left.fold op.combine n.get? = none ∨ right.fold op.combine n.get? = none)
      (Machine.execAll inputs (codeL ++ codeR) n) := by
  have oldL : ∀ s ∈ left.leaves, s.value < next := fun s member => old s (List.mem_append_left _ member)
  have oldR : ∀ s ∈ right.leaves, s.value < next := fun s member => old s (List.mem_append_right _ member)
  have wider : next ≤ next + left.nodeCount := Nat.le_add_right _ _
  have first := runL n oldL (Nat.le_trans (Nat.le_add_right _ _) room)
  rw [exec_all_append]
  refine yields_bind n next _ _ _ _ _ _ first Or.inl fun middle leftValue kept => ?_
  have second := runR middle (fun s member => Nat.lt_of_lt_of_le (oldR s member) wider) (by rw [kept.size]; exact room)
  rw [fold_of_values op n middle right next oldR kept.values] at second
  refine yields_after n middle next _ _ _ _ kept wider ?_
  cases ran : Machine.execAll inputs codeR middle with
  | error stop =>
      rw [ran] at second
      exact second.imp id Or.inr
  | ok late =>
      rw [ran] at second
      have stays := get_of_values middle late _ (second.2.values _ (shape_result_old next left oldL))
      exact ⟨⟨stays.trans leftValue, second.1⟩, second.2⟩

theorem shape_yields (inputs : Inputs) (c : Chain) (t : Shape) :
    ∀ next, ShapeYields inputs c.op t next (Shape.code c next t) := by
  induction t with
  | leaf s =>
      intro next n _ _
      exact ⟨rfl, keeps_refl n next⟩
  | node label left right leftRuns rightRuns =>
      intro next n old room
      rw [Tree.nodeCount] at room
      have both := pair_yields inputs c.op left right next _ _ (leftRuns next) (rightRuns _) n old (by omega)
      rw [Shape.code, exec_all_append]
      refine yields_bind n next _ _ _ _ _ _ both (combine_missing c.op _ _) fun late values kept => ?_
      have inside : next + left.nodeCount + right.nodeCount < late.values.size := by
        rw [kept.size]
        omega
      have top := step_yields inputs late { Arith.plain (next + left.nodeCount + right.nodeCount) c.op
        (Shape.result next left) (Shape.result (next + left.nodeCount) right) with
        exact := c.exact, fastMath := c.fastMath } rfl inside
      simp only [Arith.plain, values.1, values.2] at top
      exact yields_after n late next _ _ _ _ kept (by omega) top

theorem grouping_yields (inputs : Inputs) (c : Chain) (g : Grouping) (next : Nat) (n : Machine)
    (old : ∀ s ∈ g.leaves, s.value < next) (room : next + g.nodeCount ≤ n.values.size) :
    n.Yields next
      (fun after => after.get? (g.rhs next) = g.rest.fold c.op.combine n.get? ∧
        after.get? (g.lhs next) = g.last.fold c.op.combine n.get?)
      (g.rest.fold c.op.combine n.get? = none ∨ g.last.fold c.op.combine n.get? = none)
      (Machine.execAll inputs (g.code c next) n) := by
  have inside : next + g.rest.nodeCount + g.last.nodeCount ≤ n.values.size := by
    rw [Grouping.nodeCount] at room
    omega
  exact pair_yields inputs c.op g.rest g.last next _ _ (shape_yields inputs c g.rest next)
    (shape_yields inputs c g.last _) n old inside

end Regroup
