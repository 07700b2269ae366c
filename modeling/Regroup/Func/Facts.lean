import Regroup.Func.Liveness
import Regroup.Trap

set_option autoImplicit false

namespace Regroup

-- The cost class of a value: known at compile time, the same in all invocations, or neither.
inductive Rank where
  | constant
  | uniform
  | divergent
deriving DecidableEq, Repr

def Rank.level : Rank → Nat
  | .constant => 0
  | .uniform => 1
  | .divergent => 2

def Func.rankOf (f : Func) (v : Value) : Rank :=
  if (f.definition? v).any fun (_, i) => i.isConst then .constant
  else if f.mayDiverge v then .divergent
  else .uniform

structure Facts where
  reads : Array Nat
  sites : Array (Option Site)
  live : Marks
  ranks : Array Rank
deriving DecidableEq, Repr

def Func.facts (f : Func) : Facts where
  reads := f.readCounts.toArray
  sites := f.sites.toArray
  live := f.live
  ranks := ((List.range f.next).map f.rankOf).toArray

def Facts.rank (facts : Facts) (s : Scalar) : Nat := (facts.ranks.getD s.value .divergent).level

def Facts.site? (facts : Facts) (v : Value) : Option Site := facts.sites[v]?.join

-- `s` is the whole result of a regroupable `op` that nothing else reads. The facts are those of `f`, so that every site
-- is a position of it.
def Facts.absorbable? (facts : Facts) (f : Func) (op : Op) (s : Scalar) : Option (Site × Arith) :=
  if s.comp = 0 ∧ facts.reads[s.value]? = some 1 then
    (facts.site? s.value).bind fun site =>
      (f.arith? site).bind fun a => if a.op = op ∧ a.regroupable then some (site, a) else none
  else none

def Facts.sortKey (facts : Facts) (s : Scalar) : List Nat := [facts.rank s, s.value, s.comp.toNat]

end Regroup
