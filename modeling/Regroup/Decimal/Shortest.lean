set_option autoImplicit false

namespace Regroup

structure Binary where
  mantissa : Nat
  exponent : Int
deriving DecidableEq, Repr

structure Decimal where
  coefficient : Nat
  exponent : Int
deriving DecidableEq, Repr

-- A grid `k` compares `c * 10 ^ k` with `x * 2 ^ e` as the naturals `c * unit` and `x * scale`.
structure Grid where
  unit : Nat
  scale : Nat

def Grid.between (e k : Int) : Grid where
  unit := Nat.pow 10 k.toNat * Nat.pow 2 (-e).toNat
  scale := Nat.pow 2 e.toNat * Nat.pow 10 (-k).toNat

-- The window of reals that round to `b`, in quarters of its last place. Below a power of two the
-- neighbours lie twice as close, unless `b` already has the least exponent `least`.
def Binary.window (b : Binary) (hidden : Nat) (least : Int) : Nat × Nat :=
  let low := if b.mantissa = hidden ∧ least < b.exponent then 1 else 2
  (4 * b.mantissa - low, 4 * b.mantissa + 2)

def Binary.owns (b : Binary) (window : Nat × Nat) (g : Grid) (c : Nat) : Bool :=
  let low := window.1 * g.scale
  let high := window.2 * g.scale
  if b.mantissa % 2 = 0 then low ≤ c * g.unit ∧ c * g.unit ≤ high
  else low < c * g.unit ∧ c * g.unit < high

def leadingPlace (num den : Nat) : Int :=
  let guess : Int := (Nat.toDigits 10 num).length - (Nat.toDigits 10 den).length
  if den * Nat.pow 10 guess.toNat ≤ num * Nat.pow 10 (-guess).toNat then guess else guess - 1

def Binary.onGrid (b : Binary) (window : Nat × Nat) (g : Grid) : Option Nat :=
  let value := 4 * b.mantissa * g.scale
  let below := value / g.unit
  match b.owns window g below, b.owns window g (below + 1) with
  | false, false => none
  | true, false => some below
  | false, true => some (below + 1)
  | true, true =>
      if value - below * g.unit < (below + 1) * g.unit - value then some below else some (below + 1)

-- Tries the grid `k` and then finer ones, each with one digit more. Seventeen digits always suffice for 53 bits.
def Binary.search (b : Binary) (window : Nat × Nat) : Nat → Int → Decimal
  | 0, k =>
      let g := Grid.between (b.exponent - 2) k
      ⟨4 * b.mantissa * g.scale / g.unit, k⟩
  | finer + 1, k =>
      match b.onGrid window (Grid.between (b.exponent - 2) k) with
      | some c => ⟨c, k⟩
      | none => b.search window finer (k - 1)

def Binary.shortest (b : Binary) (hidden : Nat) (least : Int) : Decimal :=
  let place := leadingPlace (b.mantissa * Nat.pow 2 b.exponent.toNat) (Nat.pow 2 (-b.exponent).toNat)
  b.search (b.window hidden least) 17 place

end Regroup
