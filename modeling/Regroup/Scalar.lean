set_option autoImplicit false

namespace Regroup

abbrev Value := Nat

abbrev Label := Nat

abbrev Slot := Nat

-- Numbers of values and labels stay below this bound.
def idLimit : Nat := 0x100000000

-- Stands for the user of an operand where the user defines no value.
def noUser : Nat := idLimit - 1

def valueText (v : Value) : String := s!"%{v}"

def labelText (l : Label) : String := s!"block{l}"

structure Scalar where
  value : Value
  comp : UInt8
deriving DecidableEq, Repr

def Scalar.of (v : Value) : Scalar := ⟨v, 0⟩

def Scalar.lane? (s : Scalar) (lane : Nat) : Option Scalar :=
  if s.comp.toNat + lane < 256 then some ⟨s.value, UInt8.ofNat (s.comp.toNat + lane)⟩ else none

def componentText (comp : UInt8) : String :=
  match comp.toNat with
  | 0 => "x"
  | 1 => "y"
  | 2 => "z"
  | 3 => "w"
  | n => toString n

def Scalar.text (s : Scalar) : String := s!"{s.value}." ++ componentText s.comp

structure Site where
  block : Nat
  inst : Nat
deriving DecidableEq, Repr

end Regroup
