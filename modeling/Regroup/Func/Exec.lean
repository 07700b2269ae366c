import Regroup.Trap

set_option autoImplicit false

namespace Regroup

abbrev Inputs := Slot → Option (List Const)

inductive RunError where
  | missingInput (slot : Slot)
  | unavailable (read : Scalar)
  | typeMismatch (op : Op) (lhs rhs : Const)
  | unknownBlock (label : Label)
  | missingPhiEntry (block : Label) (pred : Option Label)
  | stepLimit
deriving DecidableEq, Repr

def predText : Option Label → String
  | some label => s!"Some(BlockId({label}))"
  | none => "None"

def RunError.message : RunError → String
  | .missingInput slot => s!"no value provided for input slot {slot}"
  | .unavailable s => s!"read of {s.text} before it was computed"
  | .typeMismatch op lhs rhs => s!"{op.mnemonic} cannot be applied to {lhs.text} and {rhs.text}"
  | .unknownBlock label => s!"branch to unknown {labelText label}"
  | .missingPhiEntry block pred =>
      s!"phi in {labelText block} has no entry for predecessor {predText pred}"
  | .stepLimit => "step limit exceeded"

-- Why a run has no outcome. An endless run goes round blocks without instructions for ever.
inductive Stop where
  | error (e : RunError)
  | trap (t : Trap)
  | endless
deriving DecidableEq, Repr

structure Machine where
  values : Array (Option (List Const))
  outputs : List (Slot × Const)
  steps : Nat
deriving DecidableEq, Repr

def stepLimit : Nat := 0x100000

def Machine.init (f : Func) : Machine := ⟨Array.replicate f.next none, [], 0⟩

def Machine.get? (m : Machine) (s : Scalar) : Option Const :=
  m.values[s.value]?.join.bind (·[s.comp.toNat]?)

def Machine.read (m : Machine) (s : Scalar) : Except Stop Const :=
  match m.get? s with
  | some c => .ok c
  | none => .error (.error (.unavailable s))

def Machine.write (m : Machine) (v : Value) (lanes : List Const) : Except Stop Machine :=
  if v < m.values.size then .ok { m with values := m.values.setIfInBounds v (some lanes) }
  else .error (.trap .outOfRange)

def putOutput (slot : Slot) (c : Const) : List (Slot × Const) → List (Slot × Const)
  | [] => [(slot, c)]
  | (s, d) :: rest =>
      if slot < s then (slot, c) :: (s, d) :: rest
      else if slot = s then (slot, c) :: rest
      else (s, d) :: putOutput slot c rest

def Machine.readLane (m : Machine) (s : Scalar) (lane : Nat) : Except Stop Const :=
  match s.lane? lane with
  | some s => m.read s
  | none => .error (.trap .laneOverflow)

def Op.lane (op : Op) (lhs rhs : Const) : Except Stop Const :=
  match op.apply lhs rhs with
  | some c => .ok c
  | none => .error (.error (.typeMismatch op lhs rhs))

def Machine.arithLane (m : Machine) (a : Arith) (lane : Nat) : Except Stop Const := do
  let lhs ← m.readLane a.lhs lane
  let rhs ← m.readLane a.rhs lane
  a.op.lane lhs rhs

-- One instruction. Phis have been served on entry to the block.
def Machine.exec (inputs : Inputs) (m : Machine) : Inst → Except Stop Machine
  | .input dest slot _ _ =>
      match inputs slot with
      | some lanes => m.write dest lanes
      | none => .error (.error (.missingInput slot))
  | .const dest lanes => m.write dest lanes
  | .arith a => do
      let lanes ← (List.range a.width.toNat).mapM (m.arithLane a)
      m.write a.dest lanes
  | .phi _ _ => .ok m
  | .output slot src => do
      let c ← m.read src
      return { m with outputs := putOutput slot c m.outputs }

def Machine.tick (m : Machine) : Except Stop Machine :=
  if m.steps < stepLimit then .ok { m with steps := m.steps + 1 } else .error (.error .stepLimit)

def Machine.execAll (inputs : Inputs) : List Inst → Machine → Except Stop Machine
  | [], m => .ok m
  | i :: rest, m => do
      let m ← m.tick
      let m ← m.exec inputs i
      Machine.execAll inputs rest m

def Machine.readPhi (m : Machine) (here : Label) (pred : Option Label)
    (incoming : List (Scalar × Label)) : Except Stop Const :=
  match incoming.find? fun (_, source) => some source = pred with
  | some (src, _) => m.read src
  | none => .error (.error (.missingPhiEntry here pred))

def Machine.readPhis (m : Machine) (here : Label) (pred : Option Label) :
    List Inst → Except Stop (List (Value × Const))
  | [] => .ok []
  | .phi dest incoming :: rest => do
      let c ← m.readPhi here pred incoming
      let more ← m.readPhis here pred rest
      return (dest, c) :: more
  | .input .. :: rest => m.readPhis here pred rest
  | .const .. :: rest => m.readPhis here pred rest
  | .arith _ :: rest => m.readPhis here pred rest
  | .output .. :: rest => m.readPhis here pred rest

def Machine.writePhis : List (Value × Const) → Machine → Except Stop Machine
  | [], m => .ok m
  | (dest, c) :: rest, m => do
      let m ← m.write dest [c]
      Machine.writePhis rest m

inductive Next where
  | enter (label : Label)
  | leave (returned : Option Const)
deriving DecidableEq, Repr

def Machine.follow (m : Machine) : Terminator → Except Stop Next
  | .ret none => .ok (.leave none)
  | .ret (some src) => do
      let c ← m.read src
      return .leave (some c)
  | .jump target => .ok (.enter target)
  | .branch cond onTrue onFalse => do
      let c ← m.read cond
      return .enter (if c.isZero then onFalse else onTrue)

def Block.run (b : Block) (inputs : Inputs) (pred : Option Label) (m : Machine) :
    Except Stop (Machine × Next) := do
  let incoming ← m.readPhis b.label pred b.insts
  let m ← Machine.writePhis incoming m
  let m ← Machine.execAll inputs b.insts m
  let next ← m.follow b.term
  return (m, next)

def Func.enter (f : Func) (inputs : Inputs) (here : Label) (pred : Option Label) (m : Machine) :
    Except Stop (Machine × Next) :=
  match f.blocks.find? (·.label = here) with
  | some b => b.run inputs pred m
  | none => .error (.error (.unknownBlock here))

def Func.runFrom (f : Func) (inputs : Inputs) :
    Nat → Label → Option Label → Machine → Except Stop (Machine × Option Const)
  | 0, _, _, _ => .error .endless
  | entries + 1, here, pred, m =>
      match f.enter inputs here pred m with
      | .error stop => .error stop
      | .ok (m, .leave returned) => .ok (m, returned)
      | .ok (m, .enter target) => f.runFrom inputs entries target (some here) m

-- More blocks than this are entered only by a run that goes round blocks without instructions: any
-- other run takes a step at least once in as many entries as there are blocks.
def Func.entryBound (f : Func) : Nat := (stepLimit + 2) * (f.blocks.length + 1)

def Func.runToEnd (f : Func) (inputs : Inputs) : Except Stop (Machine × Option Const) :=
  match f.blocks with
  | [] => .ok (Machine.init f, none)
  | entry :: _ => f.runFrom inputs f.entryBound entry.label none (Machine.init f)

structure Observation where
  outputs : List (Slot × Const)
  returned : Option Const
deriving DecidableEq, Repr

def Func.run (f : Func) (inputs : Inputs) : Except Stop Observation := do
  let (m, returned) ← f.runToEnd inputs
  return ⟨m.outputs, returned⟩

end Regroup
