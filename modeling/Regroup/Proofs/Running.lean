import Mathlib
import Regroup.Func.Exec
import Regroup.Proofs.Renaming

set_option autoImplicit false

namespace Regroup

def Stop.renamed (ρ : Value → Value) : Stop → Stop
  | .error (.unavailable s) => .error (.unavailable (s.renamed ρ))
  | .error e => .error e
  | .trap t => .trap t
  | .endless => .endless

-- Which failures of a second computation may stand beside a failure of the first, and which beside a success.
structure Tolerance where
  reason : Stop → Stop → Prop
  late : Stop → Prop
  weaker : ∀ stop other, late other → reason stop other

def Tolerance.exact (ρ : Value → Value) : Tolerance where
  reason stop other := other = stop.renamed ρ
  late _ := False
  weaker _ _ impossible := impossible.elim

def Tolerance.slow : Tolerance where
  reason _ _ := True
  late stop := stop = .error .stepLimit
  weaker _ _ _ := trivial

def Alike {α β : Type} (t : Tolerance) (related : α → β → Prop) : Except Stop α → Except Stop β → Prop
  | .ok a, .ok b => related a b
  | .error stop, .error other => t.reason stop other
  | .ok _, .error other => t.late other
  | .error _, .ok _ => False

section Alike

variable {α β γ δ : Type} (t : Tolerance)

theorem alike_bind (related : α → β → Prop) (after : γ → δ → Prop) (x : Except Stop α) (y : Except Stop β)
    (first : α → Except Stop γ) (second : β → Except Stop δ) (start : Alike t related x y)
    (next : ∀ a b, related a b → Alike t after (first a) (second b)) : Alike t after (x >>= first) (y >>= second) := by
  cases x with
  | error stop =>
      cases y with
      | error other => exact start
      | ok b => exact False.elim start
  | ok a =>
      cases y with
      | error other =>
          change Alike t after (first a) (.error other)
          cases first a with
          | error stop => exact t.weaker stop other start
          | ok c => exact start
      | ok b => exact next a b start

theorem alike_results (related wider : α → β → Prop) (x : Except Stop α) (y : Except Stop β)
    (alike : Alike t related x y) (each : ∀ a b, x = .ok a → y = .ok b → related a b → wider a b) : Alike t wider x y := by
  cases x with
  | error stop => cases y <;> exact alike
  | ok a =>
      cases y with
      | error other => exact alike
      | ok b => exact each a b rfl rfl alike

theorem alike_slow (ρ : Value → Value) (related : α → β → Prop) (x : Except Stop α) (y : Except Stop β)
    (alike : Alike (.exact ρ) related x y) : Alike .slow related x y := by
  cases x with
  | error stop =>
      cases y with
      | error other => trivial
      | ok b => exact alike
  | ok a =>
      cases y with
      | error other => exact False.elim alike
      | ok b => exact alike

theorem alike_late (related : α → β → Prop) (x : Except Stop α) :
    Alike .slow related x (.error (.error .stepLimit)) := by
  cases x with
  | error stop => trivial
  | ok a => exact rfl

theorem alike_exact_iff (ρ : Value → Value) (x y : Except Stop α) :
    Alike (.exact ρ) Eq x y ↔ y = x.mapError (Stop.renamed ρ) := by
  cases x with
  | error stop => cases y <;> simp [Alike, Tolerance.exact, Except.mapError]
  | ok a => cases y <;> simp [Alike, Tolerance.exact, Except.mapError, eq_comm]

theorem alike_map_m (items : List γ) (first second : γ → Except Stop α)
    (each : ∀ x ∈ items, Alike t Eq (first x) (second x)) : Alike t Eq (items.mapM first) (items.mapM second) := by
  induction items with
  | nil => exact rfl
  | cons x rest ih =>
      rw [List.mapM_cons, List.mapM_cons]
      refine alike_bind t Eq Eq _ _ _ _ (each x List.mem_cons_self) fun a b same => ?_
      refine alike_bind t Eq Eq _ _ _ _ (ih fun y member => each y (List.mem_cons_of_mem x member)) fun as bs equal => ?_
      rw [same, equal]
      exact rfl

end Alike

section Phis

variable (m : Machine) (here : Label) (pred : Option Label) (incoming : List (Scalar × Label))

theorem read_phi_some (entry : Scalar × Label) (found : incoming.find? (fun x => some x.2 = pred) = some entry) :
    m.readPhi here pred incoming = m.read entry.1 := by
  rw [Machine.readPhi]
  split
  · next src label hit =>
      cases hit.symm.trans found
      rfl
  · next missing => cases missing.symm.trans found

theorem read_phi_none (missing : incoming.find? (fun x => some x.2 = pred) = none) :
    m.readPhi here pred incoming = .error (.error (.missingPhiEntry here pred)) := by
  rw [Machine.readPhi]
  split
  · next src label hit => cases hit.symm.trans missing
  · rfl

end Phis

-- The second machine holds under its new name each value of the first that is of interest.
structure Mirrors (ρ : Value → Value) (known : Value → Prop) (m n : Machine) : Prop where
  values : ∀ v, known v → v < m.values.size ∧ ρ v < n.values.size ∧ n.values[ρ v]? = m.values[v]?
  outputs : n.outputs = m.outputs

section Mirrors

variable (ρ : Value → Value) (known : Value → Prop) (m n : Machine) (mirrors : Mirrors ρ known m n)
include mirrors

theorem mirrors_get (s : Scalar) (fine : known s.value) : n.get? (s.renamed ρ) = m.get? s := by
  simp only [Machine.get?, Scalar.renamed, (mirrors.values s.value fine).2.2]

theorem mirrors_read (s : Scalar) (fine : known s.value) :
    Alike (.exact ρ) Eq (m.read s) (n.read (s.renamed ρ)) := by
  simp only [Machine.read, mirrors_get ρ known m n mirrors s fine]
  cases m.get? s <;> exact rfl

theorem mirrors_read_lane (s : Scalar) (lane : Nat) (fine : known s.value) :
    Alike (.exact ρ) Eq (m.readLane s lane) (n.readLane (s.renamed ρ) lane) := by
  by_cases inside : s.comp.toNat + lane < 256
  · have here : s.lane? lane = some ⟨s.value, UInt8.ofNat (s.comp.toNat + lane)⟩ := if_pos inside
    have there : (s.renamed ρ).lane? lane = some ⟨ρ s.value, UInt8.ofNat (s.comp.toNat + lane)⟩ := if_pos inside
    rw [Machine.readLane, Machine.readLane, here, there]
    exact mirrors_read ρ known m n mirrors ⟨s.value, UInt8.ofNat (s.comp.toNat + lane)⟩ fine
  · have here : s.lane? lane = none := if_neg inside
    have there : (s.renamed ρ).lane? lane = none := if_neg inside
    rw [Machine.readLane, Machine.readLane, here, there]
    exact rfl

theorem mirrors_arith_lane (a b : Arith) (lane : Nat) (op : b.op = a.op) (lhs : b.lhs = a.lhs.renamed ρ)
    (rhs : b.rhs = a.rhs.renamed ρ) (fineL : known a.lhs.value) (fineR : known a.rhs.value) :
    Alike (.exact ρ) Eq (m.arithLane a lane) (n.arithLane b lane) := by
  rw [Machine.arithLane, Machine.arithLane, op, lhs, rhs]
  refine alike_bind _ Eq Eq _ _ _ _ (mirrors_read_lane ρ known m n mirrors a.lhs lane fineL) fun x x' sameX => ?_
  refine alike_bind _ Eq Eq _ _ _ _ (mirrors_read_lane ρ known m n mirrors a.rhs lane fineR) fun y y' sameY => ?_
  rw [← sameX, ← sameY, Op.lane]
  cases a.op.apply x y <;> exact rfl

theorem mirrors_follow (term : Terminator) (fine : ∀ s ∈ term.reads, known s.value) :
    Alike (.exact ρ) Eq (m.follow term) (n.follow (term.mapReads (Scalar.renamed ρ))) := by
  cases term with
  | ret src =>
      cases src with
      | none => exact rfl
      | some s =>
          refine alike_bind _ Eq Eq _ _ _ _ (mirrors_read ρ known m n mirrors s (fine s (by simp [Terminator.reads]))) ?_
          intro c d same
          rw [same]
          exact rfl
  | jump target => exact rfl
  | branch cond onTrue onFalse =>
      refine alike_bind _ Eq Eq _ _ _ _
        (mirrors_read ρ known m n mirrors cond (fine cond (by simp [Terminator.reads]))) ?_
      intro c d same
      rw [same]
      exact rfl

theorem mirrors_read_phis (here : Label) (pred : Option Label) (insts : List Inst)
    (fine : ∀ i ∈ insts, (∀ s ∈ i.reads, known s.value) ∧ ∀ v, i.dest? = some v → known v) :
    Alike (.exact ρ) (fun ps qs => qs = ps.map (fun p => (ρ p.1, p.2)) ∧ ∀ p ∈ ps, known p.1)
      (m.readPhis here pred insts) (n.readPhis here pred (insts.map (Inst.renamed ρ))) := by
  induction insts with
  | nil => exact ⟨rfl, by simp⟩
  | cons i rest ih =>
      have later := ih fun j member => fine j (List.mem_cons_of_mem i member)
      obtain ⟨reads, dest⟩ := fine i List.mem_cons_self
      cases i with
      | input d slot width divergent => exact later
      | const d lanes => exact later
      | arith a => exact later
      | output slot src => exact later
      | phi d incoming =>
          have first : Alike (.exact ρ) Eq (m.readPhi here pred incoming)
              (n.readPhi here pred (incoming.map fun entry => (entry.1.renamed ρ, entry.2))) := by
            have there : (incoming.map fun entry => (entry.1.renamed ρ, entry.2)).find? (fun x => some x.2 = pred) =
                (incoming.find? fun x => some x.2 = pred).map fun entry => (entry.1.renamed ρ, entry.2) := by
              rw [List.find?_map]
              rfl
            cases found : incoming.find? fun x => some x.2 = pred with
            | none =>
                rw [found] at there
                rw [read_phi_none m here pred _ found, read_phi_none n here pred _ there]
                exact rfl
            | some entry =>
                rw [found] at there
                rw [read_phi_some m here pred _ entry found, read_phi_some n here pred _ _ there]
                refine mirrors_read ρ known m n mirrors entry.1 (reads entry.1 ?_)
                exact List.mem_map_of_mem (List.mem_of_find?_eq_some found)
          refine alike_bind _ Eq _ _ _ _ _ first fun c e same => ?_
          refine alike_bind _ _ _ _ _ _ _ later fun ps qs both => ?_
          subst same
          refine ⟨?_, ?_⟩
          · rw [both.1]
            rfl
          · exact List.forall_mem_cons.mpr ⟨dest d rfl, both.2⟩

-- Writing and executing keep machines alike if different values have different names.
variable (injective : ∀ v w, known v → known w → ρ v = ρ w → v = w)
include injective

theorem mirrors_write (v : Value) (lanes : List Const) (fine : known v) :
    ∃ m' n', m.write v lanes = .ok m' ∧ n.write (ρ v) lanes = .ok n' ∧ Mirrors ρ known m' n' ∧
      m'.steps = m.steps ∧ n'.steps = n.steps := by
  obtain ⟨inM, inN, _⟩ := mirrors.values v fine
  refine ⟨_, _, if_pos inM, if_pos inN, ⟨fun w fineW => ?_, mirrors.outputs⟩, rfl, rfl⟩
  obtain ⟨smallM, smallN, same⟩ := mirrors.values w fineW
  refine ⟨by simpa using smallM, by simpa using smallN, ?_⟩
  by_cases equal : v = w
  · subst equal
    simp [inM, inN]
  · have apart : ρ v ≠ ρ w := fun clash => equal (injective v w fine fineW clash)
    simp only [Array.getElem?_setIfInBounds, if_neg equal, if_neg apart]
    exact same

theorem mirrors_exec (inputs : Inputs) (i : Inst) (reads : ∀ s ∈ i.reads, known s.value)
    (dest : ∀ v, i.dest? = some v → known v) :
    Alike (.exact ρ) (fun m' n' => Mirrors ρ known m' n' ∧ m'.steps = m.steps ∧ n'.steps = n.steps)
      (m.exec inputs i) (n.exec inputs (i.renamed ρ)) := by
  have written (v : Value) (lanes : List Const) (fine : known v) :
      Alike (.exact ρ) (fun m' n' => Mirrors ρ known m' n' ∧ m'.steps = m.steps ∧ n'.steps = n.steps)
        (m.write v lanes) (n.write (ρ v) lanes) := by
    obtain ⟨m', n', left, right, both⟩ := mirrors_write ρ known m n mirrors injective v lanes fine
    rw [left, right]
    exact both
  cases i with
  | input d slot width divergent =>
      have shown : (Inst.input d slot width divergent).renamed ρ = .input (ρ d) slot width divergent := rfl
      rw [shown, Machine.exec, Machine.exec]
      cases inputs slot with
      | none => exact rfl
      | some lanes => exact written d lanes (dest d rfl)
  | const d lanes => exact written d lanes (dest d rfl)
  | arith a =>
      refine alike_bind _ Eq _ _ _ _ _ (alike_map_m _ (List.range a.width.toNat) _ _ fun lane _ => ?_) ?_
      · exact mirrors_arith_lane ρ known m n mirrors a _ lane rfl rfl rfl (reads a.lhs (by simp [Inst.reads]))
          (reads a.rhs (by simp [Inst.reads]))
      · intro lanes other same
        rw [← same]
        exact written a.dest lanes (dest a.dest rfl)
  | phi d incoming => exact ⟨mirrors, rfl, rfl⟩
  | output slot src =>
      refine alike_bind _ Eq _ _ _ _ _ (mirrors_read ρ known m n mirrors src (reads src (by simp [Inst.reads]))) ?_
      intro c d same
      rw [← same]
      exact ⟨⟨mirrors.values, by rw [mirrors.outputs]⟩, rfl, rfl⟩

omit mirrors in
theorem mirrors_write_phis (ps : List (Value × Const)) (fine : ∀ p ∈ ps, known p.1) (m n : Machine)
    (mirrors : Mirrors ρ known m n) :
    Alike (.exact ρ) (fun m' n' => Mirrors ρ known m' n' ∧ m'.steps = m.steps ∧ n'.steps = n.steps)
      (Machine.writePhis ps m) (Machine.writePhis (ps.map fun p => (ρ p.1, p.2)) n) := by
  induction ps generalizing m n with
  | nil => exact ⟨mirrors, rfl, rfl⟩
  | cons p rest ih =>
      obtain ⟨m', n', left, right, both, stepsM, stepsN⟩ :=
        mirrors_write ρ known m n mirrors injective p.1 [p.2] (fine p List.mem_cons_self)
      rw [List.map_cons, Machine.writePhis, Machine.writePhis, left, right]
      refine alike_results _ _ _ _ _ (ih (fun q member => fine q (List.mem_cons_of_mem p member)) m' n' both) ?_
      intro a b _ _ after
      exact ⟨after.1, after.2.1.trans stepsM, after.2.2.trans stepsN⟩

end Mirrors

theorem run_from_succ (f : Func) (inputs : Inputs) (entries : Nat) (here : Label) (pred : Option Label) (m : Machine) :
    f.runFrom inputs (entries + 1) here pred m = f.enter inputs here pred m >>= fun result =>
      match result.2 with
      | .leave returned => .ok (result.1, returned)
      | .enter target => f.runFrom inputs entries target (some here) result.1 := by
  rw [Func.runFrom]
  cases f.enter inputs here pred m with
  | error stop => rfl
  | ok result =>
      obtain ⟨after, next⟩ := result
      cases next <;> rfl

theorem alike_run (t : Tolerance) (f g : Func) (inputs : Inputs)
    (ended : Alike t (fun x y => y.1.outputs = x.1.outputs ∧ y.2 = x.2) (f.runToEnd inputs) (g.runToEnd inputs)) :
    Alike t Eq (f.run inputs) (g.run inputs) := by
  refine alike_bind _ _ Eq _ _ _ _ ended fun x y same => ?_
  obtain ⟨m, returned⟩ := x
  obtain ⟨n, other⟩ := y
  obtain ⟨outputs, rfl⟩ := same
  change Alike t Eq (.ok (⟨m.outputs, other⟩ : Observation)) (.ok ⟨n.outputs, other⟩)
  rw [show n.outputs = m.outputs from outputs]
  exact rfl

section Renaming

variable (f g : Func) (ρ : Value → Value) (link : Renaming f g ρ) (inputs : Inputs)
include link

theorem renamed_exec_all (insts : List Inst)
    (fine : ∀ i ∈ insts, (∀ s ∈ i.reads, s.value ∈ f.defs) ∧ ∀ v, i.dest? = some v → v ∈ f.defs) (m n : Machine)
    (mirrors : Mirrors ρ (· ∈ f.defs) m n) (steps : n.steps = m.steps) :
    Alike (.exact ρ) (fun m' n' => Mirrors ρ (· ∈ f.defs) m' n' ∧ n'.steps = m'.steps)
      (Machine.execAll inputs insts m) (Machine.execAll inputs (insts.map (Inst.renamed ρ)) n) := by
  induction insts generalizing m n with
  | nil => exact ⟨mirrors, steps⟩
  | cons i rest ih =>
      obtain ⟨reads, dest⟩ := fine i List.mem_cons_self
      by_cases more : m.steps < stepLimit
      · have tickM : m.tick = .ok { m with steps := m.steps + 1 } := if_pos more
        have tickN : n.tick = .ok { n with steps := n.steps + 1 } := if_pos (steps ▸ more)
        rw [List.map_cons, Machine.execAll, Machine.execAll, tickM, tickN]
        change Alike _ _ (Machine.exec inputs { m with steps := m.steps + 1 } i >>= Machine.execAll inputs rest)
          (Machine.exec inputs { n with steps := n.steps + 1 } (i.renamed ρ) >>=
            Machine.execAll inputs (rest.map (Inst.renamed ρ)))
        refine alike_bind _ _ _ _ _ _ _ (mirrors_exec ρ _ { m with steps := m.steps + 1 } { n with steps := n.steps + 1 }
          ⟨mirrors.values, mirrors.outputs⟩ (fun v w inV inW => link.injective v inV w inW) inputs i reads dest) ?_
        intro m' n' after
        refine ih (fun j member => fine j (List.mem_cons_of_mem i member)) m' n' after.1 ?_
        rw [after.2.1, after.2.2, steps]
      · have tickM : m.tick = .error (.error .stepLimit) := if_neg more
        have tickN : n.tick = .error (.error .stepLimit) := if_neg (steps ▸ more)
        rw [List.map_cons, Machine.execAll, Machine.execAll, tickM, tickN]
        exact rfl

variable (wf : f.WellFormed)
include wf

theorem renamed_block_run (b : Block) (member : b ∈ f.blocks) (pred : Option Label) (m n : Machine)
    (mirrors : Mirrors ρ (· ∈ f.defs) m n) (steps : n.steps = m.steps) :
    Alike (.exact ρ) (fun x y => Mirrors ρ (· ∈ f.defs) x.1 y.1 ∧ y.1.steps = x.1.steps ∧ y.2 = x.2)
      (b.run inputs pred m) ((b.renamed ρ).run inputs pred n) := by
  have fine := inst_known f wf b member
  have injective := fun v w inV inW => link.injective v inV w inW
  refine alike_bind _ _ _ _ _ _ _ (mirrors_read_phis ρ _ m n mirrors b.label pred b.insts fine) ?_
  intro ps qs phis
  rw [phis.1]
  refine alike_bind _ _ _ _ _ _ _ (mirrors_write_phis ρ _ injective ps phis.2 m n mirrors) ?_
  intro m' n' written
  refine alike_bind _ _ _ _ _ _ _ (renamed_exec_all f g ρ link inputs b.insts fine m' n' written.1 ?_) ?_
  · rw [written.2.1, written.2.2, steps]
  intro last other ran
  refine alike_bind _ Eq _ _ _ _ _ (mirrors_follow ρ _ last other ran.1 b.term (term_known f wf b member)) ?_
  intro next same equal
  exact ⟨ran.1, ran.2, equal.symm⟩

theorem renamed_enter (here : Label) (pred : Option Label) (m n : Machine) (mirrors : Mirrors ρ (· ∈ f.defs) m n)
    (steps : n.steps = m.steps) :
    Alike (.exact ρ) (fun x y => Mirrors ρ (· ∈ f.defs) x.1 y.1 ∧ y.1.steps = x.1.steps ∧ y.2 = x.2)
      (f.enter inputs here pred m) (g.enter inputs here pred n) := by
  have blocks : g.blocks.find? (·.label = here) = (f.blocks.find? (·.label = here)).map (Block.renamed ρ) := by
    rw [link.blocks, List.find?_map]
    rfl
  rw [Func.enter, Func.enter, blocks]
  cases found : f.blocks.find? (·.label = here) with
  | none => exact rfl
  | some b =>
      exact renamed_block_run f g ρ link inputs wf b (List.mem_of_find?_eq_some found) pred m n mirrors steps

theorem renamed_run_from (entries : Nat) (here : Label) (pred : Option Label) (m n : Machine)
    (mirrors : Mirrors ρ (· ∈ f.defs) m n) (steps : n.steps = m.steps) :
    Alike (.exact ρ) (fun x y => y.1.outputs = x.1.outputs ∧ y.2 = x.2)
      (f.runFrom inputs entries here pred m) (g.runFrom inputs entries here pred n) := by
  induction entries generalizing here pred m n with
  | zero => exact rfl
  | succ entries ih =>
      rw [run_from_succ, run_from_succ]
      refine alike_bind _ _ _ _ _ _ _ (renamed_enter f g ρ link inputs wf here pred m n mirrors steps) ?_
      intro x y after
      obtain ⟨m', next⟩ := x
      obtain ⟨n', same⟩ := y
      obtain ⟨alike, equal, rfl⟩ := after
      cases same with
      | enter target => exact ih target (some here) m' n' alike equal
      | leave returned => exact ⟨alike.outputs, rfl⟩

theorem renamed_run : g.run inputs = (f.run inputs).mapError (Stop.renamed ρ) := by
  rw [← alike_exact_iff]
  have start : Mirrors ρ (· ∈ f.defs) (Machine.init f) (Machine.init g) := by
    refine ⟨fun v member => ?_, rfl⟩
    have small := wf.bounded v member
    have bound := link.bounded v member
    refine ⟨by simpa [Machine.init] using small, by simpa [Machine.init] using bound, ?_⟩
    simp [Machine.init, small, bound]
  have ended : Alike (.exact ρ) (fun x y => y.1.outputs = x.1.outputs ∧ y.2 = x.2)
      (f.runToEnd inputs) (g.runToEnd inputs) := by
    have length : g.blocks.length = f.blocks.length := by rw [link.blocks, List.length_map]
    cases blocks : f.blocks with
    | nil =>
        have none : g.blocks = [] := by rw [link.blocks, blocks]; rfl
        rw [Func.runToEnd, Func.runToEnd, blocks, none]
        exact ⟨rfl, rfl⟩
    | cons entry rest =>
        have some : g.blocks = entry.renamed ρ :: rest.map (Block.renamed ρ) := by rw [link.blocks, blocks]; rfl
        have bound : g.entryBound = f.entryBound := by rw [Func.entryBound, Func.entryBound, length]
        rw [Func.runToEnd, Func.runToEnd, blocks, some]
        simp only [bound]
        exact renamed_run_from f g ρ link inputs wf _ _ none _ _ start rfl
  exact alike_run _ f g inputs ended

end Renaming

end Regroup
