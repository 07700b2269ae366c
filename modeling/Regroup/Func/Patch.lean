import Regroup.Trap
import Regroup.Sorting
import Regroup.Lex

set_option autoImplicit false

namespace Regroup

structure Patch where
  site : Site
  insts : List Inst
deriving DecidableEq, Repr

def Patch.insertInto (p : Patch) (b : Block) : Block :=
  { b with insts := b.insts.take p.site.inst ++ p.insts ++ b.insts.drop p.site.inst }

def Func.insert (f : Func) (p : Patch) : Except Trap Func :=
  match f.blocks[p.site.block]? with
  | none => .error .outOfRange
  | some b =>
      if p.site.inst ≤ b.insts.length then
        .ok { f with blocks := f.blocks.modify p.site.block p.insertInto }
      else .error .outOfRange

def Site.key (s : Site) : List Nat := [s.block, s.inst]

-- Later positions go first, so that earlier ones keep their meaning.
def Patch.goesBefore (p q : Patch) : Bool := lexLe q.site.key p.site.key

def Func.weave (f : Func) (patches : List Patch) : Except Trap Func :=
  (sortBy Patch.goesBefore patches).foldlM Func.insert f

end Regroup
