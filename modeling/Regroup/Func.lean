import Regroup.Inst

set_option autoImplicit false

namespace Regroup

structure Block where
  label : Label
  insts : List Inst
  term : Terminator
deriving DecidableEq, Repr

-- `divergence`, where known, flags the values that may differ between invocations.
structure Func where
  name : String
  blocks : List Block
  next : Nat
  divergence : Option (Array Bool)
deriving DecidableEq, Repr

def Func.inst? (f : Func) (site : Site) : Option Inst :=
  f.blocks[site.block]?.bind (·.insts[site.inst]?)

def Func.arith? (f : Func) (site : Site) : Option Arith := (f.inst? site).bind Inst.arith?

def Block.sited (b : Block) (index : Nat) : List (Site × Inst) :=
  b.insts.zipIdx.map fun (i, place) => (⟨index, place⟩, i)

def Func.sited (f : Func) : List (Site × Inst) :=
  f.blocks.zipIdx.flatMap fun (b, index) => b.sited index

def Func.ariths (f : Func) : List (Site × Arith) :=
  f.sited.filterMap fun (site, i) => i.arith?.map fun a => (site, a)

def Func.insts (f : Func) : List Inst := f.blocks.flatMap (·.insts)

def Func.defs (f : Func) : List Value := f.insts.filterMap Inst.dest?

-- Where a value is defined. Of several definitions the last counts.
def Func.definition? (f : Func) (v : Value) : Option (Site × Inst) :=
  if v < f.next then f.sited.reverse.find? (fun (_, i) => i.dest? = some v) else none

def Func.site? (f : Func) (v : Value) : Option Site := (f.definition? v).map Prod.fst

def Func.sites (f : Func) : List (Option Site) := (List.range f.next).map f.site?

def Block.reads (b : Block) : List Scalar := b.insts.flatMap Inst.reads ++ b.term.reads

def Func.reads (f : Func) : List Scalar := f.blocks.flatMap Block.reads

-- Counted without bound: with 32 bits there would be an overflow at `idLimit` reads of one value.
def Func.readCount (f : Func) (v : Value) : Nat := f.reads.countP (·.value = v)

def Func.readCounts (f : Func) : List Nat := (List.range f.next).map f.readCount

-- Without flags, or beyond them, a value counts as divergent.
def Func.mayDiverge (f : Func) (v : Value) : Bool :=
  match f.divergence with
  | some flags => flags.getD v true
  | none => true

def Func.locate? (f : Func) (label : Label) : Option Nat := f.blocks.findIdx? (·.label = label)

def Func.setInst (f : Func) (site : Site) (i : Inst) : Func :=
  { f with blocks := f.blocks.modify site.block fun b => { b with insts := b.insts.set site.inst i } }

def Block.lines (b : Block) : List String :=
  s!"{labelText b.label}:" :: (b.insts.map Inst.text ++ [b.term.text]).map fun line => "    " ++ line

def Func.text (f : Func) : String :=
  let lines := s!"fn {f.name} \x7b" :: f.blocks.flatMap Block.lines ++ ["\x7d"]
  String.join (lines.map fun line => line ++ "\n")

end Regroup
