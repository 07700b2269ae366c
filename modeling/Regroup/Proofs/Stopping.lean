import Mathlib
import Regroup.Proofs.Preservation

set_option autoImplicit false

namespace Regroup

-- How a computation ends: with a result that `holds` speaks of, or for a `fair` reason.
def Ends {α : Type} (fair : Stop → Prop) (holds : α → Prop) : Except Stop α → Prop
  | .ok a => holds a
  | .error stop => fair stop

section Ends

variable {α β : Type} (fair : Stop → Prop)

theorem ends_bind (holds : α → Prop) (after : β → Prop) (x : Except Stop α) (next : α → Except Stop β)
    (start : Ends fair holds x) (step : ∀ a, holds a → Ends fair after (next a)) : Ends fair after (x >>= next) := by
  cases x with
  | error stop => exact start
  | ok a => exact step a start

theorem ends_results (holds wider : α → Prop) (x : Except Stop α) (ends : Ends fair holds x)
    (each : ∀ a, x = .ok a → holds a → wider a) : Ends fair wider x := by
  cases x with
  | error stop => exact ends
  | ok a => exact each a rfl ends

theorem ends_map_m (items : List α) (next : α → Except Stop β) (each : ∀ x ∈ items, Ends fair (fun _ => True) (next x)) :
    Ends fair (fun results => results.length = items.length) (items.mapM next) := by
  induction items with
  | nil => exact rfl
  | cons x rest ih =>
      rw [List.mapM_cons]
      refine ends_bind fair (fun _ => True) _ _ _ (each x List.mem_cons_self) fun y _ => ?_
      refine ends_bind fair _ _ _ _ (ih fun z member => each z (List.mem_cons_of_mem x member)) fun ys same => ?_
      exact congrArg (· + 1) same

end Ends

def Stop.Ordinary : Stop → Prop
  | .error (.missingInput _) => True
  | .error (.typeMismatch _ _ _) => True
  | .error (.unknownBlock _) => True
  | .error (.missingPhiEntry _ _) => True
  | .error .stepLimit => True
  | .trap .outOfRange => True
  | .error (.unavailable _) => False
  | .trap .idsExhausted => False
  | .trap .laneOverflow => False
  | .trap .emptyChain => False
  | .trap (.malformed _ _) => False
  | .trap (.broken _ _) => False
  | .endless => False

def Scalar.shortfall (s : Scalar) (lane : Nat) : Stop :=
  match s.lane? lane with
  | some t => .error (.unavailable t)
  | none => .trap .laneOverflow

def Inst.shortfalls : Inst → List Stop
  | .arith a => (List.range a.width.toNat).flatMap fun lane => [a.lhs.shortfall lane, a.rhs.shortfall lane]
  | .phi _ incoming => incoming.map fun entry => .error (.unavailable entry.1)
  | .output _ src => [.error (.unavailable src)]
  | .input .. => []
  | .const .. => []

def Block.shortfalls (b : Block) : List Stop :=
  b.insts.flatMap Inst.shortfalls ++ b.term.reads.map fun s => .error (.unavailable s)

theorem shortfall_cases (b : Block) (stop : Stop) (listed : stop ∈ b.shortfalls) :
    stop = .trap .laneOverflow ∨ ∃ s, stop = .error (.unavailable s) := by
  have named (s : Scalar) (lane : Nat) :
      s.shortfall lane = .trap .laneOverflow ∨ ∃ t, s.shortfall lane = .error (.unavailable t) := by
    rw [Scalar.shortfall]
    cases s.lane? lane with
    | none => exact Or.inl rfl
    | some t => exact Or.inr ⟨t, rfl⟩
  cases List.mem_append.mp listed with
  | inl inInsts =>
      obtain ⟨i, _, member⟩ := List.mem_flatMap.mp inInsts
      cases i with
      | input dest slot width divergent => cases member
      | const dest lanes => cases member
      | arith a =>
          obtain ⟨lane, _, either⟩ := List.mem_flatMap.mp member
          simp only [List.mem_cons, List.not_mem_nil, or_false] at either
          obtain rfl | rfl := either
          · exact named a.lhs lane
          · exact named a.rhs lane
      | phi dest incoming =>
          obtain ⟨entry, _, rfl⟩ := List.mem_map.mp member
          exact Or.inr ⟨entry.1, rfl⟩
      | output slot src => exact Or.inr ⟨src, List.mem_singleton.mp member⟩
  | inr atEnd =>
      obtain ⟨s, _, rfl⟩ := List.mem_map.mp atEnd
      exact Or.inr ⟨s, rfl⟩

section Steps

variable (fair : Stop → Prop)

theorem read_ends (m : Machine) (s : Scalar) (missing : fair (.error (.unavailable s))) :
    Ends fair (fun _ => True) (m.read s) := by
  rw [Machine.read]
  cases m.get? s with
  | none => exact missing
  | some c => trivial

theorem read_lane_ends (m : Machine) (s : Scalar) (lane : Nat) (missing : fair (s.shortfall lane)) :
    Ends fair (fun _ => True) (m.readLane s lane) := by
  rw [Scalar.shortfall] at missing
  rw [Machine.readLane]
  cases found : s.lane? lane with
  | none =>
      rw [found] at missing
      exact missing
  | some t =>
      rw [found] at missing
      exact read_ends fair m t missing

variable (ordinary : ∀ stop : Stop, stop.Ordinary → fair stop)
include ordinary

theorem arith_lane_ends (m : Machine) (a : Arith) (lane : Nat) (lhs : fair (a.lhs.shortfall lane))
    (rhs : fair (a.rhs.shortfall lane)) : Ends fair (fun _ => True) (m.arithLane a lane) := by
  refine ends_bind _ _ _ _ _ (read_lane_ends fair m a.lhs lane lhs) fun x _ => ?_
  refine ends_bind _ _ _ _ _ (read_lane_ends fair m a.rhs lane rhs) fun y _ => ?_
  rw [Op.lane]
  cases a.op.apply x y with
  | none => exact ordinary _ trivial
  | some c => trivial

theorem write_ends (m : Machine) (v : Value) (lanes : List Const) :
    Ends fair (fun n => n.steps = m.steps) (m.write v lanes) := by
  rw [Machine.write]
  by_cases inside : v < m.values.size
  · rw [if_pos inside]
    exact rfl
  · rw [if_neg inside]
    exact ordinary _ trivial

theorem exec_ends (inputs : Inputs) (m : Machine) (i : Inst) (missing : ∀ stop ∈ i.shortfalls, fair stop) :
    Ends fair (fun n => n.steps = m.steps) (m.exec inputs i) := by
  cases i with
  | input dest slot width divergent =>
      rw [Machine.exec]
      cases inputs slot with
      | none => exact ordinary _ trivial
      | some lanes => exact write_ends fair ordinary m dest lanes
  | const dest lanes => exact write_ends fair ordinary m dest lanes
  | arith a =>
      refine ends_bind _ _ _ _ _ (ends_map_m _ _ _ fun lane listed => ?_) fun lanes _ =>
        write_ends fair ordinary m a.dest lanes
      have each : ∀ stop ∈ [a.lhs.shortfall lane, a.rhs.shortfall lane], fair stop := fun stop member =>
        missing stop (List.mem_flatMap.mpr ⟨lane, listed, member⟩)
      exact arith_lane_ends fair ordinary m a lane (each _ (by simp)) (each _ (by simp))
  | phi dest incoming => exact rfl
  | output slot src => exact ends_bind _ _ _ _ _ (read_ends fair m src (missing _ (by simp [Inst.shortfalls]))) fun _ _ => rfl

-- Instructions leave the count of steps alone; it is the counting that moves it.
theorem exec_all_ends (inputs : Inputs) (insts : List Inst) (m : Machine) (within : m.steps ≤ stepLimit)
    (missing : ∀ i ∈ insts, ∀ stop ∈ i.shortfalls, fair stop) :
    Ends fair (fun n => n.steps = m.steps + insts.length ∧ n.steps ≤ stepLimit) (Machine.execAll inputs insts m) := by
  induction insts generalizing m with
  | nil => exact ⟨rfl, within⟩
  | cons i rest ih =>
      by_cases more : m.steps < stepLimit
      · have ticked : m.tick = .ok { m with steps := m.steps + 1 } := if_pos more
        rw [Machine.execAll, ticked]
        change Ends _ _ (Machine.exec inputs { m with steps := m.steps + 1 } i >>= Machine.execAll inputs rest)
        refine ends_bind _ _ _ _ _ (exec_ends fair ordinary inputs { m with steps := m.steps + 1 } i
          (missing i List.mem_cons_self)) fun n counted => ?_
        have later := ih n (by rw [counted]; exact more) fun j member => missing j (List.mem_cons_of_mem i member)
        refine ends_results _ _ _ _ later fun last _ after => ?_
        have spent : n.steps = m.steps + 1 := counted
        refine ⟨?_, after.2⟩
        rw [after.1, spent, List.length_cons]
        omega
      · have refused : m.tick = .error (.error .stepLimit) := if_neg more
        rw [Machine.execAll, refused]
        exact ordinary _ trivial

theorem read_phi_ends (m : Machine) (here : Label) (pred : Option Label) (incoming : List (Scalar × Label))
    (missing : ∀ entry ∈ incoming, fair (.error (.unavailable entry.1))) :
    Ends fair (fun _ => True) (m.readPhi here pred incoming) := by
  cases found : incoming.find? fun x => some x.2 = pred with
  | none =>
      rw [read_phi_none m here pred incoming found]
      exact ordinary _ trivial
  | some entry =>
      rw [read_phi_some m here pred incoming entry found]
      exact read_ends fair m entry.1 (missing entry (List.mem_of_find?_eq_some found))

theorem read_phis_ends (m : Machine) (here : Label) (pred : Option Label) (insts : List Inst)
    (missing : ∀ i ∈ insts, ∀ stop ∈ i.shortfalls, fair stop) :
    Ends fair (fun _ => True) (m.readPhis here pred insts) := by
  induction insts with
  | nil => trivial
  | cons i rest ih =>
      have later := ih fun j member => missing j (List.mem_cons_of_mem i member)
      cases i with
      | input dest slot width divergent => exact later
      | const dest lanes => exact later
      | arith a => exact later
      | output slot src => exact later
      | phi dest incoming =>
          have entries := missing _ List.mem_cons_self
          have first := read_phi_ends fair ordinary m here pred incoming fun entry member =>
            entries _ (List.mem_map_of_mem member)
          exact ends_bind _ _ _ _ _ first fun _ _ => ends_bind _ _ _ _ _ later fun _ _ => trivial

theorem write_phis_ends (ps : List (Value × Const)) (m : Machine) :
    Ends fair (fun n => n.steps = m.steps) (Machine.writePhis ps m) := by
  induction ps generalizing m with
  | nil => exact rfl
  | cons p rest ih =>
      refine ends_bind _ _ _ _ _ (write_ends fair ordinary m p.1 [p.2]) fun n counted => ?_
      exact ends_results _ _ _ _ (ih n) fun last _ same => same.trans counted

omit ordinary in
theorem follow_ends (m : Machine) (term : Terminator) (missing : ∀ s ∈ term.reads, fair (.error (.unavailable s))) :
    Ends fair (fun next => m.follow term = .ok next) (m.follow term) := by
  have some_end : Ends fair (fun _ => True) (m.follow term) := by
    cases term with
    | ret src =>
        cases src with
        | none => trivial
        | some s => exact ends_bind _ _ _ _ _ (read_ends fair m s (missing s (by simp [Terminator.reads]))) fun _ _ => trivial
    | jump target => trivial
    | branch cond onTrue onFalse =>
        exact ends_bind _ _ _ _ _ (read_ends fair m cond (missing cond (by simp [Terminator.reads]))) fun _ _ => trivial
  exact ends_results _ _ _ _ some_end fun next done _ => done

theorem block_ends (inputs : Inputs) (b : Block) (pred : Option Label) (m : Machine) (within : m.steps ≤ stepLimit)
    (missing : ∀ stop ∈ b.shortfalls, fair stop) :
    Ends fair (fun x => x.1.steps = m.steps + b.insts.length ∧ x.1.steps ≤ stepLimit ∧
      ∀ label, x.2 = .enter label → label ∈ b.term.successors) (b.run inputs pred m) := by
  have inInsts : ∀ i ∈ b.insts, ∀ stop ∈ i.shortfalls, fair stop := fun i member stop listed =>
    missing stop (List.mem_append_left _ (List.mem_flatMap.mpr ⟨i, member, listed⟩))
  have atEnd : ∀ s ∈ b.term.reads, fair (.error (.unavailable s)) := fun s read =>
    missing _ (List.mem_append_right _ (List.mem_map_of_mem read))
  refine ends_bind _ _ _ _ _ (read_phis_ends fair ordinary m b.label pred b.insts inInsts) fun ps _ => ?_
  refine ends_bind _ _ _ _ _ (write_phis_ends fair ordinary ps m) fun entered counted => ?_
  have ran := exec_all_ends fair ordinary inputs b.insts entered (counted ▸ within) inInsts
  refine ends_bind _ _ _ _ _ ran fun last after => ?_
  refine ends_bind _ _ _ _ _ (follow_ends fair last b.term atEnd) fun next taken => ?_
  rw [counted] at after
  exact ⟨after.1, after.2, fun label same => follow_successor last b.term label (same ▸ taken)⟩

end Steps

section Run

variable (fair : Stop → Prop)

-- What each entry into a block hands on to the next, the last entry of a run has as well.
theorem run_from_ends (f : Func) (inputs : Inputs) (enters : Label → Option Label → Machine → Prop) (endless : fair .endless)
    (step : ∀ here pred m, enters here pred m →
      Ends fair (fun x => ∀ target, x.2 = .enter target → enters target (some here) x.1) (f.enter inputs here pred m))
    (entries : Nat) (here : Label) (pred : Option Label) (m : Machine) (start : enters here pred m) :
    Ends fair (fun x => ∃ last from_ n, enters last from_ n ∧ f.enter inputs last from_ n = .ok (x.1, .leave x.2))
      (f.runFrom inputs entries here pred m) := by
  induction entries generalizing here pred m with
  | zero => exact endless
  | succ entries ih =>
      rw [run_from_succ]
      have entered := ends_results fair _ (fun x => f.enter inputs here pred m = .ok x ∧
        ∀ target, x.2 = .enter target → enters target (some here) x.1) _ (step here pred m start) fun x done onward =>
          ⟨done, onward⟩
      refine ends_bind fair _ _ _ _ entered fun x after => ?_
      obtain ⟨n, next⟩ := x
      cases next with
      | leave returned => exact ⟨here, pred, m, start, after.1⟩
      | enter target => exact ih target (some here) n (after.2 target rfl)

theorem run_ends (f : Func) (inputs : Inputs) (ordinary : ∀ stop : Stop, stop.Ordinary → fair stop)
    (endless : fair .endless) (missing : ∀ b ∈ f.blocks, ∀ stop ∈ b.shortfalls, fair stop) :
    Ends fair (fun _ => True) (f.run inputs) := by
  have step (here : Label) (pred : Option Label) (m : Machine) (within : m.steps ≤ stepLimit) :
      Ends fair (fun x => ∀ target, x.2 = .enter target → x.1.steps ≤ stepLimit) (f.enter inputs here pred m) := by
    rw [Func.enter]
    cases found : f.blocks.find? (·.label = here) with
    | none => exact ordinary _ trivial
    | some b =>
        have stored := List.mem_of_find?_eq_some found
        have ran := block_ends fair ordinary inputs b pred m within (missing b stored)
        exact ends_results _ _ _ _ ran fun x _ after _ _ => after.2.1
  have finished : Ends fair (fun _ => True) (f.runToEnd inputs) := by
    cases blocks : f.blocks with
    | nil => simp [Func.runToEnd, blocks, Ends]
    | cons entry rest =>
        rw [Func.runToEnd, blocks]
        have ran := run_from_ends fair f inputs (fun _ _ m => m.steps ≤ stepLimit) endless step f.entryBound entry.label none
          (Machine.init f) (Nat.zero_le _)
        exact ends_results _ _ _ _ ran fun _ _ _ => trivial
  exact ends_bind _ _ _ _ _ finished fun _ _ => trivial

end Run

end Regroup
