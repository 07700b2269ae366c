import Regroup.Chain.Growth

set_option autoImplicit false

namespace Regroup

abbrev Shape := Tree Unit Scalar

-- The operands of the root: `last` on its left, the accumulated rest on its right.
structure Grouping where
  last : Shape
  rest : Shape
deriving DecidableEq, Repr

-- The first `pinned` leaves are never paired with a neighbour other than each other.
def Grouping.extend (pinned index : Nat) (acc : Shape) : List Scalar → Option Grouping
  | [] => none
  | [s] => some ⟨.leaf s, acc⟩
  | [s, t] =>
      if pinned ≤ index ∧ s = t then some ⟨.node () (.leaf s) (.leaf t), acc⟩
      else some ⟨.leaf t, .node () acc (.leaf s)⟩
  | s :: t :: u :: rest =>
      if pinned ≤ index ∧ s = t then
        Grouping.extend pinned (index + 2) (.node () acc (.node () (.leaf s) (.leaf t))) (u :: rest)
      else Grouping.extend pinned (index + 1) (.node () acc (.leaf s)) (t :: u :: rest)

def Grouping.ofLeaves? (pinned : Nat) : List Scalar → Option Grouping
  | [] => none
  | s :: rest => Grouping.extend pinned 1 (.leaf s) rest

def Grouping.nodeCount (g : Grouping) : Nat := g.rest.nodeCount + g.last.nodeCount

-- Where a shape's result is found if its nodes are numbered from `next` on, operands first.
def Shape.result (next : Nat) : Shape → Scalar
  | .leaf s => s
  | .node _ left right => .of (next + left.nodeCount + right.nodeCount)

def Chain.step (c : Chain) (dest : Value) (lhs rhs : Scalar) : Inst :=
  .arith { Arith.plain dest c.op lhs rhs with exact := c.exact, fastMath := c.fastMath }

def Shape.code (c : Chain) (next : Nat) : Shape → List Inst
  | .leaf _ => []
  | .node _ left right =>
      let middle := next + left.nodeCount
      Shape.code c next left ++ Shape.code c middle right ++
        [c.step (middle + right.nodeCount) (Shape.result next left) (Shape.result middle right)]

def Grouping.code (g : Grouping) (c : Chain) (next : Nat) : List Inst :=
  Shape.code c next g.rest ++ Shape.code c (next + g.rest.nodeCount) g.last

def Grouping.lhs (g : Grouping) (next : Nat) : Scalar := Shape.result (next + g.rest.nodeCount) g.last

def Grouping.rhs (g : Grouping) (next : Nat) : Scalar := Shape.result next g.rest

def Facts.computes (facts : Facts) (f : Func) (op : Op) : Shape → Scalar → Bool
  | .leaf leaf, s => s = leaf
  | .node _ left right, s =>
      match facts.absorbable? f op s with
      | some (_, a) => facts.computes f op left a.lhs && facts.computes f op right a.rhs
      | none => false

def Grouping.followedBy (g : Grouping) (facts : Facts) (f : Func) (op : Op) (i : Inst) : Bool :=
  i.arith?.any fun a => facts.computes f op g.last a.lhs && facts.computes f op g.rest a.rhs

end Regroup
