import Regroup.Func.Facts
import Regroup.Tree

set_option autoImplicit false

namespace Regroup

def chainCapacity : Nat := 16

structure Policy where
  sharePair : Bool
  sortByRank : Bool
deriving DecidableEq, Repr

structure Chain where
  root : Site
  op : Op
  leaves : List Scalar
  exact : Bool
  fastMath : FastMath
  policy : Policy
deriving DecidableEq, Repr

def Chain.length (c : Chain) : Nat := c.leaves.length

def Chain.text (c : Chain) : String := s!"{c.op.mnemonic} [{commaList (c.leaves.map Scalar.text)}]"

-- The tree that computes `s` from at most `room` leaves. Absorbing takes room for two.
def Facts.operandTree (facts : Facts) (f : Func) (op : Op) (room : Nat) (s : Scalar) :
    Tree Arith Scalar :=
  match facts.absorbable? f op s with
  | none => .leaf s
  | some (_, a) =>
      if _ : 2 ≤ room then
        let left := facts.operandTree f op (room - 1) a.lhs
        .node a left (facts.operandTree f op (room - left.leafCount) a.rhs)
      else .leaf s
termination_by room
decreasing_by
  · omega
  · exact Nat.sub_lt (by omega) (tree_leaf_count_pos _)

def Facts.rootTree (facts : Facts) (f : Func) (a : Arith) : Tree Arith Scalar :=
  let left := facts.operandTree f a.op (chainCapacity - 1) a.lhs
  .node a left (facts.operandTree f a.op (chainCapacity - left.leafCount) a.rhs)

def interior (t : Tree Arith Scalar) : List Value := t.labels.tail.map Arith.dest

def Chain.ofTree (root : Site) (op : Op) (t : Tree Arith Scalar) : Chain where
  root
  op
  leaves := t.leaves
  exact := t.labels.any Arith.exact
  fastMath := t.labels.foldl (fun bits a => bits ||| a.fastMath) 0
  policy := ⟨false, false⟩

def Func.treeAt (f : Func) (facts : Facts) (root : Site) : Except Trap (Option (Tree Arith Scalar)) :=
  match f.inst? root with
  | none => .error .outOfRange
  | some i => .ok (i.arith?.map (facts.rootTree f))

theorem operand_tree_fits (facts : Facts) (f : Func) (op : Op) (room : Nat) (s : Scalar)
    (some_room : 1 ≤ room) : (facts.operandTree f op room s).leafCount ≤ room := by
  fun_induction Facts.operandTree facts f op room s with
  | case1 room s absent => simpa [Tree.leafCount] using some_room
  | case2 room s site a found roomy left leftFits rightFits =>
      have leftBound : left.leafCount ≤ room - 1 := leftFits (by omega)
      have rightBound := rightFits (by omega)
      simp only [Tree.leafCount]
      omega
  | case3 room s site a found cramped => simpa [Tree.leafCount] using some_room

theorem root_tree_fits (facts : Facts) (f : Func) (a : Arith) :
    (facts.rootTree f a).leafCount ≤ chainCapacity := by
  have leftBound := operand_tree_fits facts f a.op (chainCapacity - 1) a.lhs (by decide)
  have rightBound := operand_tree_fits facts f a.op
    (chainCapacity - (facts.operandTree f a.op (chainCapacity - 1) a.lhs).leafCount) a.rhs
    (by simp only [chainCapacity] at leftBound ⊢; omega)
  simp only [Facts.rootTree, Tree.leafCount]
  simp only [chainCapacity] at leftBound rightBound ⊢
  omega

end Regroup
