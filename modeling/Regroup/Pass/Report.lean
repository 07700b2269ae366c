import Regroup.Func.Renumber
import Regroup.Func.Uniformity
import Regroup.Func.WellFormed
import Regroup.Chain.Survey
import Regroup.Chain.Attempt

set_option autoImplicit false

namespace Regroup

structure Options where
  sharing : Bool
  uniformity : Bool
deriving DecidableEq, Repr

structure Workbench where
  pairs : PairTable
  queue : List Chain
  pending : List Patch
deriving DecidableEq, Repr

def Workbench.empty : Workbench := ⟨.empty, [], []⟩

def Workbench.clear (bench : Workbench) : Workbench := ⟨bench.pairs.clear, [], []⟩

structure Stats where
  chains : Nat
  queued : Nat
  rebuilt : Nat
deriving DecidableEq, Repr

structure Report where
  func : Func
  survey : Survey
  attempts : List Attempt
  bench : Workbench
deriving DecidableEq, Repr

def Report.stats (r : Report) : Stats :=
  ⟨r.survey.found.length, r.survey.queue.length, r.attempts.countP Attempt.changed⟩

def Report.changed (r : Report) : Bool := 0 < r.stats.rebuilt

def Report.log (r : Report) : List LogLine :=
  let stats := r.stats
  let counts :=
    s!"{stats.chains} chains, {stats.queued} queued, {stats.rebuilt} rewritten, {r.bench.pairs.size} pair keys"
  r.survey.log r.func.name ++ r.attempts.flatMap Attempt.log ++
    [⟨.debug, s!"reassoc: {r.func.name}: {counts}"⟩]

def Func.prepare (f : Func) (options : Options) : Except Trap Func := do
  let f ← f.renumber
  if options.uniformity then f.withDivergence else return f

-- Weaves the patches in. New values have no flags, so the flags are dropped.
def Func.settle (f : Func) (attempts : List Attempt) (pending : List Patch) :
    Except Trap (Func × List Patch) :=
  if attempts.any Attempt.changed then do
    let f ← f.weave pending
    return ({ f with divergence := none }, [])
  else .ok (f, pending)

def Func.demand (f : Func) (otherwise : Defect → Trap) : Except Trap Unit :=
  match f.check with
  | .ok () => .ok ()
  | .error defect => .error (otherwise defect)

def Func.regroupChains (f : Func) (options : Options) (bench : Workbench) : Except Trap Report := do
  let f ← f.prepare options
  let facts := f.facts
  let bench := bench.clear
  let survey ← f.survey facts (if options.sharing then some bench.pairs else none)
  let bench := { bench with
    pairs := survey.table.getD bench.pairs
    queue := bench.queue ++ survey.queue }
  let (f, attempts) ← f.rebuildAll facts survey.table bench.queue
  let (f, pending) ← f.settle attempts (bench.pending ++ attempts.filterMap Attempt.patch?)
  let bench := { bench with queue := attempts.map Attempt.chain, pending }
  return ⟨f, survey, attempts, bench⟩

def Func.regroup (f : Func) (options : Options) (bench : Workbench) : Except Trap Report := do
  f.demand (.malformed f.name)
  let report ← f.regroupChains options bench
  report.func.demand (.broken report.func)
  return report

def regroupEach (options : Options) : Workbench → List Func → Except Trap (List Report)
  | _, [] => .ok []
  | bench, f :: rest => do
      let report ← f.regroup options bench
      let reports ← regroupEach options report.bench rest
      return report :: reports

structure ProgramReport where
  funcs : List Func
  changed : Nat
  log : List LogLine
deriving DecidableEq, Repr

def regroupProgram (options : Options) (funcs : List Func) : Except Trap ProgramReport := do
  let reports ← regroupEach options .empty funcs
  return ⟨reports.map Report.func, reports.countP Report.changed, reports.flatMap Report.log⟩

end Regroup
