import Regroup.Func.Flow
import Regroup.Saturate
import Regroup.Trap

set_option autoImplicit false

namespace Regroup

def Marks.diverges (marks : Marks) (v : Value) : Bool := marks.getD v true

def Func.divergentControl (f : Func) (marks : Marks) : Bool :=
  f.blocks.any fun b =>
    match b.term with
    | .branch cond _ _ => marks.diverges cond.value
    | .ret _ => false
    | .jump _ => false

def Inst.diverges (marks : Marks) (joined : Bool) : Inst → Bool
  | .input _ _ _ divergent => divergent
  | .const .. => false
  | .arith a => marks.diverges a.lhs.value || marks.diverges a.rhs.value
  | .phi _ incoming => joined || incoming.any fun (src, _) => marks.diverges src.value
  | .output .. => false

def spreadThrough (joined : Bool) (insts : List Inst) (marks : Marks) : Marks :=
  insts.foldl
    (fun marks i =>
      match i.dest? with
      | some dest => if i.diverges marks joined then marks.add dest else marks
      | none => marks)
    marks

def Func.spreadDivergence (f : Func) (marks : Marks) : Marks :=
  let control := f.divergentControl marks
  f.blocks.zipIdx.foldl
    (fun marks (b, index) => spreadThrough (control && 1 < (f.preds index).length) b.insts marks) marks

def Func.divergent (f : Func) : Marks := (Marks.none f.next).closure f.spreadDivergence

def Func.computeDivergence (f : Func) : Except Trap Marks := do
  f.checkIds
  return f.divergent

def Func.withDivergence (f : Func) : Except Trap Func :=
  match f.divergence with
  | some _ => .ok f
  | none => do
      let flags ← f.computeDivergence
      return { f with divergence := some flags }

end Regroup
