import Regroup.Decimal.Shortest

set_option autoImplicit false

namespace Regroup

structure Layout where
  -- The least place of the leading digit that is still written positionally.
  low : Int
  -- The first place of the leading digit that is written with an exponent.
  high : Int
  mark : String

def Decimal.significant (d : Decimal) : List Char × Int :=
  let digits := Nat.toDigits 10 d.coefficient
  ((digits.reverse.dropWhile (· = '0')).reverse, d.exponent + digits.length - 1)

def zeros (count : Nat) : List Char := List.replicate count '0'

def positional (digits : List Char) (place : Int) : List Char :=
  if place < 0 then '0' :: '.' :: zeros (-place - 1).toNat ++ digits
  else
    let whole := place.toNat + 1
    let fraction := digits.drop whole
    digits.take whole ++ zeros (whole - digits.length) ++ '.' :: (if fraction.isEmpty then ['0'] else fraction)

def scientific (mark : String) (digits : List Char) (place : Int) : List Char :=
  let fraction := digits.drop 1
  digits.take 1 ++ (if fraction.isEmpty then [] else '.' :: fraction) ++ mark.toList ++ (toString place).toList

def Layout.write (layout : Layout) (d : Decimal) : String :=
  let (digits, place) := d.significant
  String.ofList
    (if layout.low ≤ place ∧ place < layout.high then positional digits place
     else scientific layout.mark digits place)

end Regroup
