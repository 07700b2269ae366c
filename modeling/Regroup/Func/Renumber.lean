import Regroup.Trap

set_option autoImplicit false

namespace Regroup

-- The new number of a value: the place of its last definition among all definitions.
def Func.newId? (f : Func) (v : Value) : Option Value :=
  (f.defs.zipIdx.reverse.find? fun (d, _) => d = v).map Prod.snd

def Func.rename (f : Func) (v : Value) : Value := (f.newId? v).getD v

def Func.renameScalar (f : Func) (s : Scalar) : Scalar := ⟨f.rename s.value, s.comp⟩

def Func.renamedFlags (f : Func) (flags : Array Bool) : Array Bool :=
  (f.defs.zipIdx.map fun (v, id) => if f.newId? v = some id then flags.getD v true else true).toArray

def Func.renumbered (f : Func) : Func where
  name := f.name
  blocks := f.blocks.map fun b =>
    { b with
      insts := b.insts.map fun i => (i.mapReads f.renameScalar).mapDest f.rename
      term := b.term.mapReads f.renameScalar }
  next := f.defs.length
  divergence := f.divergence.map f.renamedFlags

def Func.renumber (f : Func) : Except Trap Func := do
  f.checkIds
  return f.renumbered

end Regroup
