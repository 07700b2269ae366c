import Regroup.Chain.PairTable
import Regroup.Sorting

set_option autoImplicit false

namespace Regroup

structure PairChoice where
  first : Scalar × Nat
  second : Scalar × Nat
  count : Nat
  rank : Nat
  key : PairKey
deriving DecidableEq, Repr

-- More common pairs win, then those whose dearer operand is cheaper, then the lesser key.
def PairChoice.beats (a b : PairChoice) : Bool :=
  b.count < a.count ||
    (a.count = b.count && (a.rank < b.rank || (a.rank = b.rank && !lexLe b.key.order a.key.order)))

def Chain.pairChoices (c : Chain) (facts : Facts) (table : PairTable) : List PairChoice :=
  (listPairs c.leaves.zipIdx).map fun (a, b) =>
    let key := PairKey.of c.op a.1 b.1
    ⟨a, b, table.count key, max (facts.rank a.1) (facts.rank b.1), key⟩

def PairChoice.better (best : Option PairChoice) (a : PairChoice) : Option PairChoice :=
  match best with
  | none => some a
  | some b => if a.beats b then some a else some b

-- The pair most worth computing first. A pair counted once is known from this chain alone.
def Chain.bestPair? (c : Chain) (facts : Facts) (table : PairTable) : Option PairChoice :=
  ((c.pairChoices facts table).filter (2 ≤ ·.count)).foldl PairChoice.better none

def Facts.sortLeaves (facts : Facts) (leaves : List Scalar) : List Scalar :=
  sortBy (fun a b => lexLe (facts.sortKey a) (facts.sortKey b)) leaves

structure Arrangement where
  leaves : List Scalar
  pinned : Option PairChoice
deriving DecidableEq, Repr

def Arrangement.pinnedCount (a : Arrangement) : Nat := if a.pinned.isSome then 2 else 0

-- The pair changes places with the first two leaves and is put in order, then what is behind it.
def Chain.pin (c : Chain) (facts : Facts) (pair : PairChoice) : List Scalar :=
  match ((c.leaves.toArray.swapIfInBounds 0 pair.first.2).swapIfInBounds 1 pair.second.2).toList with
  | a :: b :: rest =>
      if lexLe (facts.sortKey a) (facts.sortKey b) then a :: b :: facts.sortLeaves rest
      else b :: a :: facts.sortLeaves rest
  | short => short

def Chain.arrange? (c : Chain) (facts : Facts) (table : Option PairTable) : Option Arrangement :=
  let pair := if c.policy.sharePair then table.bind (c.bestPair? facts) else none
  match pair with
  | some pair => some ⟨c.pin facts pair, some pair⟩
  | none => if c.policy.sortByRank then some ⟨facts.sortLeaves c.leaves, none⟩ else none

end Regroup
