import Regroup.Func

set_option autoImplicit false

namespace Regroup

-- The block that an edge to `label` leads to. Of several blocks with the label it is the last.
def Func.edgeTarget? (f : Func) (label : Label) : Option Nat :=
  (f.blocks.zipIdx.reverse.find? fun (b, _) => b.label = label).map Prod.snd

def Func.edges (f : Func) : List (Nat × Nat) :=
  f.blocks.zipIdx.flatMap fun (b, source) =>
    (b.term.successors.filterMap f.edgeTarget?).map fun target => (source, target)

def sourcesOf (edges : List (Nat × Nat)) (target : Nat) : List Nat :=
  (edges.filter fun (_, t) => t = target).map Prod.fst

def targetsOf (edges : List (Nat × Nat)) (source : Nat) : List Nat :=
  (edges.filter fun (s, _) => s = source).map Prod.snd

def Func.preds (f : Func) (target : Nat) : List Nat := sourcesOf f.edges target

end Regroup
