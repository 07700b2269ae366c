import Regroup.Trap

set_option autoImplicit false

namespace Regroup

structure Draft where
  func : Func
  cursor : Nat
  nextSlot : Slot
deriving DecidableEq, Repr

def Draft.addBlock (d : Draft) : Label × Draft :=
  let label := d.func.blocks.length
  (label, { d with func := { d.func with blocks := d.func.blocks ++ [⟨label, [], .ret none⟩] } })

def Draft.empty (name : String) : Draft := (Draft.addBlock ⟨⟨name, [], 0, none⟩, 0, 0⟩).2

def Draft.select (d : Draft) (label : Label) : Draft := { d with cursor := label }

def Draft.editBlock (d : Draft) (edit : Block → Block) : Except Trap Draft :=
  if d.cursor < d.func.blocks.length then
    .ok { d with func := { d.func with blocks := d.func.blocks.modify d.cursor edit } }
  else .error .outOfRange

def Draft.append (d : Draft) (i : Inst) : Except Trap Draft :=
  d.editBlock fun b => { b with insts := b.insts ++ [i] }

def Draft.terminate (d : Draft) (t : Terminator) : Except Trap Draft :=
  d.editBlock fun b => { b with term := t }

def Draft.define (d : Draft) (make : Value → Inst) : Except Trap (Value × Draft) := do
  let (dest, func) ← d.func.fresh
  let d ← { d with func }.append (make dest)
  return (dest, d)

def Draft.input (d : Draft) (width : UInt8) (divergent : Bool) : Except Trap (Value × Draft) :=
  { d with nextSlot := d.nextSlot + 1 }.define fun dest => .input dest d.nextSlot width divergent

def Draft.const (d : Draft) (lanes : List Const) : Except Trap (Value × Draft) :=
  d.define fun dest => .const dest lanes

def Draft.arith (d : Draft) (op : Op) (lhs rhs : Scalar) (width : UInt8) (exact : Bool)
    (fastMath : FastMath) : Except Trap (Value × Draft) :=
  d.define fun dest => .arith { Arith.plain dest op lhs rhs with width, exact, fastMath }

def Draft.phi (d : Draft) (incoming : List (Scalar × Label)) : Except Trap (Value × Draft) :=
  d.define fun dest => .phi dest incoming

def Draft.foldFrom (op : Op) (d : Draft) (acc : Scalar) : List Scalar → Except Trap (Scalar × Draft)
  | [] => .ok (acc, d)
  | s :: rest => do
      let (v, d) ← d.arith op acc s 1 false 0
      d.foldFrom op (.of v) rest

def Draft.fold (d : Draft) (op : Op) : List Scalar → Except Trap (Scalar × Draft)
  | [] => .error .outOfRange
  | s :: rest => d.foldFrom op s rest

end Regroup
