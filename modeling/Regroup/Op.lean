set_option autoImplicit false

namespace Regroup

inductive Op where
  | iadd | isub | imul | idiv | iand | ior | ixor | ishl | imin | imax | umin | umax
  | fadd | fsub | fmul | fmin | fmax
deriving DecidableEq, Repr

def Op.all : List Op :=
  [.iadd, .isub, .imul, .idiv, .iand, .ior, .ixor, .ishl, .imin, .imax, .umin, .umax,
   .fadd, .fsub, .fmul, .fmin, .fmax]

def Op.mnemonic : Op → String
  | .iadd => "iadd"
  | .isub => "isub"
  | .imul => "imul"
  | .idiv => "idiv"
  | .iand => "iand"
  | .ior => "ior"
  | .ixor => "ixor"
  | .ishl => "ishl"
  | .imin => "imin"
  | .imax => "imax"
  | .umin => "umin"
  | .umax => "umax"
  | .fadd => "fadd"
  | .fsub => "fsub"
  | .fmul => "fmul"
  | .fmin => "fmin"
  | .fmax => "fmax"

def Op.ofMnemonic? (text : String) : Option Op := Op.all.find? (·.mnemonic = text)

def Op.place (op : Op) : Nat := Op.all.idxOf op

-- What may be assumed of an operation. `loose` operations are associative up to rounding only.
structure Laws where
  commutative : Bool
  associative : Bool
  loose : Bool
deriving DecidableEq, Repr

def Op.laws : Op → Laws
  | .iadd | .imul | .iand | .ior | .ixor | .imin | .imax | .umin | .umax | .fmin | .fmax =>
      ⟨true, true, false⟩
  | .fadd | .fmul => ⟨true, false, true⟩
  | .isub | .idiv | .ishl | .fsub => ⟨false, false, false⟩

def Laws.bits (laws : Laws) : Nat :=
  laws.commutative.toNat + 2 * laws.associative.toNat + 4 * laws.loose.toNat

def Op.onInts (a b : Int64) : Op → Option Int64
  | .iadd => some (a + b)
  | .isub => some (a - b)
  | .imul => some (a * b)
  | .idiv => if b = 0 then none else some (a / b)
  | .iand => some (a &&& b)
  | .ior => some (a ||| b)
  | .ixor => some (a ^^^ b)
  | .ishl => some (a <<< b)
  | .imin => some (if a ≤ b then a else b)
  | .imax => some (if a ≤ b then b else a)
  | .umin => some (if a.toUInt64 ≤ b.toUInt64 then a else b)
  | .umax => some (if a.toUInt64 ≤ b.toUInt64 then b else a)
  | .fadd | .fsub | .fmul | .fmin | .fmax => none

def floatMin (a b : Float) : Float :=
  if a.isNaN then b else if b < a then b else a

def floatMax (a b : Float) : Float :=
  if a.isNaN then b else if a < b then b else a

def Op.onFloats (a b : Float) : Op → Option Float
  | .fadd => some (a + b)
  | .fsub => some (a - b)
  | .fmul => some (a * b)
  | .fmin => some (floatMin a b)
  | .fmax => some (floatMax a b)
  | .iadd | .isub | .imul | .idiv | .iand | .ior | .ixor | .ishl | .imin | .imax | .umin | .umax => none

end Regroup
