import Regroup.Op
import Regroup.Decimal.Layout

set_option autoImplicit false

namespace Regroup

inductive Const where
  | int (value : Int64)
  | float (bits : UInt64)
deriving DecidableEq, Repr

def Op.apply (op : Op) : Const → Const → Option Const
  | .int a, .int b => (op.onInts a b).map .int
  | .float a, .float b => (op.onFloats (.ofBits a) (.ofBits b)).map fun r => .float r.toBits
  | .int _, .float _ => none
  | .float _, .int _ => none

def Const.isZero : Const → Bool
  | .int value => value = 0
  | .float bits => bits = 0 ∨ bits = 0x8000000000000000

-- Integers come before floats; integers are ordered by value and floats by their bits.
def Const.le : Const → Const → Bool
  | .int a, .int b => a ≤ b
  | .int _, .float _ => true
  | .float _, .int _ => false
  | .float a, .float b => a ≤ b

-- The leading bit of a normal binary64 mantissa, above its 52 stored bits.
def hiddenBit : Nat := 0x10000000000000

structure FloatParts where
  negative : Bool
  exponent : Nat
  fraction : Nat
deriving DecidableEq, Repr

def FloatParts.ofBits (bits : UInt64) : FloatParts where
  negative := 0x8000000000000000 ≤ bits
  exponent := bits.toNat / hiddenBit % 2048
  fraction := bits.toNat % hiddenBit

def FloatParts.magnitude (parts : FloatParts) : Binary :=
  if parts.exponent = 0 then ⟨parts.fraction, -1074⟩
  else ⟨hiddenBit + parts.fraction, (parts.exponent : Int) - 1075⟩

def Const.floatLayout : Layout := ⟨-4, 16, "e"⟩

def floatText (bits : UInt64) : String :=
  let parts := FloatParts.ofBits bits
  let sign := if parts.negative then "-" else ""
  if parts.exponent = 2047 then
    if parts.fraction = 0 then sign ++ "inf" else "NaN"
  else if parts.magnitude.mantissa = 0 then sign ++ "0.0"
  else sign ++ Const.floatLayout.write (parts.magnitude.shortest hiddenBit (-1074))

def Const.text : Const → String
  | .int value => toString value.toInt
  | .float bits => floatText bits

end Regroup
