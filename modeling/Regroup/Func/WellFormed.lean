import Regroup.Func.Dominators
import Regroup.Trap

set_option autoImplicit false

namespace Regroup

def checkDefs (next : Nat) (seen : List Value) : List Value → Except Defect Unit
  | [] => .ok ()
  | v :: rest =>
      if next ≤ v then .error (.undefined v)
      else if v ∈ seen then .error (.duplicate v)
      else checkDefs next (v :: seen) rest

def Func.checkTarget (f : Func) (label : Label) : Except Defect Unit :=
  match f.locate? label with
  | some _ => .ok ()
  | none => .error (.unknownBlock label)

-- An operand as it stands in the program. A phi reads on the way in, so its order is not checked.
structure Operand where
  read : Scalar
  place : Site
  user : Option Value
  ordered : Bool
deriving DecidableEq, Repr

def Block.operands (b : Block) (index : Nat) : List Operand :=
  (b.sited index).flatMap (fun (place, i) => i.reads.map fun s => ⟨s, place, i.dest?, !i.isPhi⟩) ++
    b.term.reads.map fun s => ⟨s, ⟨index, b.insts.length⟩, none, true⟩

def Func.operands (f : Func) : List Operand := f.blocks.zipIdx.flatMap fun (b, index) => b.operands index

def Func.precedes (f : Func) (site place : Site) : Bool :=
  if site.block = place.block then site.inst < place.inst else f.dominates site.block place.block

def Func.checkOperand (f : Func) (o : Operand) : Except Defect Unit :=
  match f.definition? o.read.value with
  | none => .error (.undefined o.read.value)
  | some (site, i) =>
      if i.width ≤ o.read.comp then .error (.componentOutOfRange o.read i.width)
      else if o.ordered && !f.precedes site o.place then .error (.useBeforeDef o.user o.read.value)
      else .ok ()

def Func.check (f : Func) : Except Defect Unit := do
  checkDefs f.next [] f.defs
  (f.blocks.flatMap (·.term.successors)).forM f.checkTarget
  f.operands.forM f.checkOperand

end Regroup
