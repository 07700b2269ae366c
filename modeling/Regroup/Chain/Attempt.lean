import Regroup.Chain.Arrangement
import Regroup.Chain.Grouping
import Regroup.Func.Patch
import Regroup.Log

set_option autoImplicit false

namespace Regroup

inductive Verdict where
  | leftAlone
  | inOrder
  | noOperation (e : NotArith)
  | rebuilt (insts : List Inst)
deriving DecidableEq, Repr

structure Attempt where
  chain : Chain
  pinned : Option PairChoice
  verdict : Verdict
deriving DecidableEq, Repr

def Attempt.changed (a : Attempt) : Bool :=
  match a.verdict with
  | .rebuilt _ => true
  | .leftAlone => false
  | .inOrder => false
  | .noOperation _ => false

def Attempt.patch? (a : Attempt) : Option Patch :=
  match a.verdict with
  | .rebuilt insts => if insts.isEmpty then none else some ⟨a.chain.root, insts⟩
  | .leftAlone => none
  | .inOrder => none
  | .noOperation _ => none

def Inst.overwrite (i : Inst) (lhs rhs : Scalar) (exact : Bool) (fastMath : FastMath) : Inst × Option NotArith :=
  match i.withOperands lhs rhs with
  | .error e => (i, some e)
  | .ok edited =>
      match edited.withFlags exact fastMath with
      | .error e => (edited, some e)
      | .ok done => (done, none)

-- The numbers are spent even if the root turns out to be no operation.
def Grouping.apply (g : Grouping) (f : Func) (c : Chain) (root : Inst) : Except Trap (Func × Verdict) :=
  if idLimit ≤ f.next + g.nodeCount then .error .idsExhausted
  else
    let grown := { f with next := f.next + g.nodeCount }
    let edit := root.overwrite (g.lhs f.next) (g.rhs f.next) c.exact c.fastMath
    let verdict :=
      match edit.2 with
      | some e => .noOperation e
      | none => .rebuilt (g.code c f.next)
    .ok (grown.setInst c.root edit.1, verdict)

def Grouping.carryOut (g : Grouping) (f : Func) (facts : Facts) (c : Chain) : Except Trap (Func × Verdict) :=
  match f.inst? c.root with
  | none => .error .outOfRange
  | some root => if g.followedBy facts f c.op root then .ok (f, .inOrder) else g.apply f c root

def Func.rebuild (f : Func) (facts : Facts) (table : Option PairTable) (c : Chain) :
    Except Trap (Func × Attempt) :=
  if c.length < 2 then .ok (f, ⟨c, none, .leftAlone⟩)
  else
    match c.arrange? facts table with
    | none => .ok (f, ⟨c, none, .leftAlone⟩)
    | some arrangement =>
        let c := { c with leaves := arrangement.leaves }
        match Grouping.ofLeaves? arrangement.pinnedCount arrangement.leaves with
        | none => .ok (f, ⟨c, arrangement.pinned, .leftAlone⟩)
        | some grouping => do
            let (f, verdict) ← grouping.carryOut f facts c
            return (f, ⟨c, arrangement.pinned, verdict⟩)

def Func.rebuildAll (f : Func) (facts : Facts) (table : Option PairTable) :
    List Chain → Except Trap (Func × List Attempt)
  | [] => .ok (f, [])
  | c :: rest => do
      let (f, attempt) ← f.rebuild facts table c
      let (f, attempts) ← f.rebuildAll facts table rest
      return (f, attempt :: attempts)

def Attempt.pinLog (a : Attempt) : List LogLine :=
  match a.pinned with
  | some pair =>
      let (s, t) := (pair.first.1.text, pair.second.1.text)
      [⟨.trace, s!"reassoc: pinning {s} {a.chain.op.mnemonic} {t}"⟩]
  | none => []

def Attempt.verdictLog (a : Attempt) : List LogLine :=
  match a.verdict with
  | .leftAlone => []
  | .inOrder => [⟨.trace, s!"reassoc: {a.chain.text} already in order"⟩]
  | .noOperation e => [⟨.warn, s!"reassoc: cannot rewrite root of {a.chain.text}: {e.message}"⟩]
  | .rebuilt insts =>
      [⟨.trace, s!"reassoc: rewrote {a.chain.text} with {insts.length} new instructions"⟩]

def Attempt.log (a : Attempt) : List LogLine := a.pinLog ++ a.verdictLog

end Regroup
