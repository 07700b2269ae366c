import Regroup.Func.Flow

set_option autoImplicit false

namespace Regroup

theorem flat_map_erase_length (blocks : List Nat) (part : Nat → List Nat) (b : Nat) (member : b ∈ blocks) :
    (part b).length + ((blocks.erase b).flatMap part).length = (blocks.flatMap part).length := by
  have perm := (List.perm_cons_erase member).flatMap_right part
  rw [perm.length_eq, List.flatMap_cons, List.length_append]

-- Every block of the stack has the targets that it has yet to look at. The last block to finish comes first.
def walkFrom (edges : List (Nat × Nat)) (fresh finished : List Nat) : List (Nat × List Nat) → List Nat
  | [] => finished
  | (b, []) :: stack => walkFrom edges fresh (b :: finished) stack
  | (b, target :: rest) :: stack =>
      if target ∈ fresh then
        walkFrom edges (fresh.erase target) finished ((target, targetsOf edges target) :: (b, rest) :: stack)
      else walkFrom edges fresh finished ((b, rest) :: stack)
termination_by stack =>
  (fresh.flatMap fun b => b :: targetsOf edges b).length + (stack.flatMap fun (b, rest) => b :: rest).length
decreasing_by
  · simp
  · have fewer := flat_map_erase_length fresh (fun b => b :: targetsOf edges b) target ‹_›
    simp only [List.flatMap_cons, List.length_append, List.length_cons] at fewer ⊢
    omega
  · simp

def Func.walk (f : Func) : List Nat :=
  if f.blocks.isEmpty then []
  else walkFrom f.edges ((List.range f.blocks.length).erase 0) [] [(0, targetsOf f.edges 0)]

-- Blocks in the order of a walk, and the parent of each block that has one so far. The entry is its own parent.
structure DominatorTree where
  order : List Nat
  parents : Array (Option Nat)
deriving DecidableEq, Repr

def DominatorTree.place (t : DominatorTree) (b : Nat) : Nat := t.order.idxOf b

def DominatorTree.parent? (t : DominatorTree) (b : Nat) : Option Nat := t.parents.getD b none

def DominatorTree.setParent (t : DominatorTree) (b parent : Nat) : DominatorTree :=
  { t with parents := t.parents.setIfInBounds b (some parent) }

def DominatorTree.meet? (t : DominatorTree) (a b : Nat) : Option Nat :=
  if a = b then some a
  else if t.place b < t.place a then
    match t.parent? a with
    | some parent => if _ : t.place parent < t.place a then t.meet? parent b else none
    | none => none
  else
    match t.parent? b with
    | some parent => if _ : t.place parent < t.place b then t.meet? a parent else none
    | none => none
termination_by t.place a + t.place b

def DominatorTree.join (t : DominatorTree) (common : Option Nat) (source : Nat) : Option Nat :=
  if (t.parent? source).isNone then common
  else
    match common with
    | some current => t.meet? current source
    | none => some source

def DominatorTree.visit (edges : List (Nat × Nat)) (t : DominatorTree) (b : Nat) : DominatorTree :=
  match (sourcesOf edges b).foldl t.join none with
  | some parent => t.setParent b parent
  | none => t

def DominatorTree.sweep (edges : List (Nat × Nat)) (t : DominatorTree) : DominatorTree :=
  t.order.tail.foldl (DominatorTree.visit edges) t

-- Sweeps until nothing changes, at most `rounds` times. As many sweeps as there are blocks are enough.
def DominatorTree.settle (edges : List (Nat × Nat)) : Nat → DominatorTree → DominatorTree
  | 0, t => t
  | rounds + 1, t =>
      let swept := t.sweep edges
      if swept = t then t else DominatorTree.settle edges rounds swept

def Func.bareTree (f : Func) : DominatorTree :=
  ⟨f.walk, (Array.replicate f.blocks.length none).setIfInBounds 0 (some 0)⟩

def Func.dominatorTree (f : Func) : DominatorTree := f.bareTree.settle f.edges f.blocks.length

def DominatorTree.leadsUp (t : DominatorTree) (b a : Nat) : Bool :=
  if b = a then true
  else
    match t.parent? b with
    | some parent => if _ : t.place parent < t.place b then t.leadsUp parent a else false
    | none => false
termination_by t.place b

-- Every block dominates a block that the walk does not come to.
def DominatorTree.dominates (t : DominatorTree) (a b : Nat) : Bool := (t.parent? b).isNone || t.leadsUp b a

def Func.dominates (f : Func) (a b : Nat) : Bool := f.dominatorTree.dominates a b

end Regroup
