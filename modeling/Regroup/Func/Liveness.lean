import Regroup.Func
import Regroup.Saturate

set_option autoImplicit false

namespace Regroup

-- Outputs, phis and terminators need what they read whatever becomes of their result.
structure Use where
  operand : Value
  feeds : Option Value
deriving DecidableEq, Repr

def Inst.feeds (i : Inst) : Option Value := if i.isPhi then none else i.dest?

def Inst.uses (i : Inst) : List Use := i.reads.map fun s => ⟨s.value, i.feeds⟩

def Block.uses (b : Block) : List Use :=
  b.insts.flatMap Inst.uses ++ b.term.reads.map fun s => ⟨s.value, none⟩

def Func.uses (f : Func) : List Use := f.blocks.flatMap Block.uses

def Use.needed (u : Use) (live : Marks) : Bool :=
  match u.feeds with
  | some dest => live.has dest
  | none => true

def spreadLiveness (uses : List Use) (live : Marks) : Marks :=
  uses.foldr (fun u live => if u.needed live then live.add u.operand else live) live

def Func.live (f : Func) : Marks := (Marks.none f.next).closure (spreadLiveness f.uses)

end Regroup
