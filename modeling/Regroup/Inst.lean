import Regroup.Const
import Regroup.Scalar

set_option autoImplicit false

namespace Regroup

-- Floating-point behaviours that an operation must preserve, as a bit set.
abbrev FastMath := UInt16

-- A binary operation over `width` lanes, reading lanes from each operand's component on.
structure Arith where
  dest : Value
  op : Op
  lhs : Scalar
  rhs : Scalar
  width : UInt8
  exact : Bool
  fastMath : FastMath
  noSignedWrap : Bool
  noUnsignedWrap : Bool
deriving DecidableEq, Repr

def Arith.plain (dest : Value) (op : Op) (lhs rhs : Scalar) : Arith :=
  ⟨dest, op, lhs, rhs, 1, false, 0, false, false⟩

def Arith.regroupable (a : Arith) : Bool :=
  a.width = 1 && a.op.laws.commutative && (a.op.laws.associative || (!a.exact && a.op.laws.loose))

inductive Inst where
  | input (dest : Value) (slot : Slot) (width : UInt8) (divergent : Bool)
  | const (dest : Value) (lanes : List Const)
  | arith (arith : Arith)
  | phi (dest : Value) (incoming : List (Scalar × Label))
  | output (slot : Slot) (src : Scalar)
deriving DecidableEq, Repr

def Inst.dest? : Inst → Option Value
  | .input dest .. => some dest
  | .const dest _ => some dest
  | .arith a => some a.dest
  | .phi dest _ => some dest
  | .output .. => none

-- The number of components of the result. The count of a constant's lanes is kept in a byte.
def Inst.width : Inst → UInt8
  | .input _ _ width _ => width
  | .const _ lanes => UInt8.ofNat lanes.length
  | .arith a => a.width
  | .phi .. => 1
  | .output .. => 0

def Inst.reads : Inst → List Scalar
  | .input .. => []
  | .const .. => []
  | .arith a => [a.lhs, a.rhs]
  | .phi _ incoming => incoming.map Prod.fst
  | .output _ src => [src]

def Inst.arith? : Inst → Option Arith
  | .arith a => some a
  | .input .. => none
  | .const .. => none
  | .phi .. => none
  | .output .. => none

def Inst.regroupable (i : Inst) : Bool := i.arith?.any Arith.regroupable

def Inst.isPhi : Inst → Bool
  | .phi .. => true
  | .input .. => false
  | .const .. => false
  | .arith _ => false
  | .output .. => false

def Inst.isConst : Inst → Bool
  | .const .. => true
  | .input .. => false
  | .arith _ => false
  | .phi .. => false
  | .output .. => false

def Inst.mapReads (g : Scalar → Scalar) : Inst → Inst
  | .input dest slot width divergent => .input dest slot width divergent
  | .const dest lanes => .const dest lanes
  | .arith a => .arith { a with lhs := g a.lhs, rhs := g a.rhs }
  | .phi dest incoming => .phi dest (incoming.map fun (src, pred) => (g src, pred))
  | .output slot src => .output slot (g src)

def Inst.mapDest (g : Value → Value) : Inst → Inst
  | .input dest slot width divergent => .input (g dest) slot width divergent
  | .const dest lanes => .const (g dest) lanes
  | .arith a => .arith { a with dest := g a.dest }
  | .phi dest incoming => .phi (g dest) incoming
  | .output slot src => .output slot src

structure NotArith where
  dest? : Option Value
deriving DecidableEq, Repr

def NotArith.message (e : NotArith) : String :=
  "instruction defining " ++ valueText (e.dest?.getD noUser) ++ " is not a binary ALU operation"

def Inst.withOperands (i : Inst) (lhs rhs : Scalar) : Except NotArith Inst :=
  match i.arith? with
  | some a => .ok (.arith { a with lhs, rhs })
  | none => .error ⟨i.dest?⟩

-- Sets the flags of an operation; regrouping voids any promise not to wrap.
def Inst.withFlags (i : Inst) (exact : Bool) (fastMath : FastMath) : Except NotArith Inst :=
  match i.arith? with
  | some a => .ok (.arith { a with exact, fastMath, noSignedWrap := false, noUnsignedWrap := false })
  | none => .error ⟨i.dest?⟩

inductive Terminator where
  | ret (src : Option Scalar)
  | jump (target : Label)
  | branch (cond : Scalar) (onTrue onFalse : Label)
deriving DecidableEq, Repr

def Terminator.reads : Terminator → List Scalar
  | .ret src => src.toList
  | .jump _ => []
  | .branch cond _ _ => [cond]

def Terminator.successors : Terminator → List Label
  | .ret _ => []
  | .jump target => [target]
  | .branch _ onTrue onFalse => if onTrue = onFalse then [onTrue] else [onTrue, onFalse]

def Terminator.mapReads (g : Scalar → Scalar) : Terminator → Terminator
  | .ret src => .ret (src.map g)
  | .jump target => .jump target
  | .branch cond onTrue onFalse => .branch (g cond) onTrue onFalse

def hexText (n : Nat) : String := "0x" ++ String.ofList (Nat.toDigits 16 n)

def commaList (items : List String) : String := String.intercalate ", " items

def afterKeyword (items : List String) : String :=
  if items.isEmpty then "" else " " ++ commaList items

def Arith.text (a : Arith) : String :=
  String.join
    [valueText a.dest, " = ", if a.exact then "exact " else "", a.op.mnemonic,
     if a.width = 1 then "" else toString a.width.toNat,
     if a.noSignedWrap then " nsw" else "", if a.noUnsignedWrap then " nuw" else "",
     " ", a.lhs.text, ", ", a.rhs.text,
     if a.fastMath = 0 then "" else s!" !fp({hexText a.fastMath.toNat})"]

def Inst.text : Inst → String
  | .input dest slot width divergent =>
      let kind := if divergent then "divergent" else "uniform"
      s!"{valueText dest} = input{width.toNat} {kind} slot {slot}"
  | .const dest lanes => s!"{valueText dest} = const{afterKeyword (lanes.map Const.text)}"
  | .arith a => a.text
  | .phi dest incoming =>
      let entries := incoming.map fun (src, pred) => s!"[{src.text}, {labelText pred}]"
      s!"{valueText dest} = phi{afterKeyword entries}"
  | .output slot src => s!"output {slot}, {src.text}"

def Terminator.text : Terminator → String
  | .ret (some src) => s!"return {src.text}"
  | .ret none => "return"
  | .jump target => s!"br {labelText target}"
  | .branch cond onTrue onFalse => s!"br {cond.text}, {labelText onTrue}, {labelText onFalse}"

end Regroup
