import Regroup.Pass.Report
import Regroup.Text.Blank

set_option autoImplicit false

namespace Regroup

structure Disabled where
  everything : Bool
  regrouping : Bool
  sharing : Bool
deriving DecidableEq, Repr

def Disabled.nothing : Disabled := ⟨false, false, false⟩

def Disabled.note (d : Disabled) (name : String) : Disabled × List LogLine :=
  if name = "all" then ({ d with everything := true }, [])
  else if name = "reassoc" then ({ d with regrouping := true }, [])
  else if name = "reassoc-cse" then ({ d with sharing := true }, [])
  else if name = "" then (d, [])
  else (d, [⟨.debug, s!"SSA_DISABLE_PASSES: unknown pass '{name}'"⟩])

def Disabled.noteAll (d : Disabled) : List String → Disabled × List LogLine
  | [] => (d, [])
  | name :: rest =>
      let (d, lines) := d.note name
      let (d, more) := d.noteAll rest
      (d, lines ++ more)

def Disabled.parse (list : String) : Disabled × List LogLine :=
  Disabled.nothing.noteAll ((list.splitOn ",").map trimBlanks)

def regroupUnless (options : Options) (disabled : Disabled) (elapsed : Option String) (funcs : List Func) :
    Except Trap ProgramReport :=
  if disabled.everything || disabled.regrouping then
    .ok ⟨funcs, 0, [⟨.debug, "reassoc: disabled"⟩]⟩
  else do
    let report ← regroupProgram { options with sharing := options.sharing && !disabled.sharing } funcs
    let timing := elapsed.toList.map fun ms =>
      ⟨.info, s!"[TIME] reassoc: {ms}ms, {report.changed} of {funcs.length} functions changed"⟩
    return { report with log := report.log ++ timing }

def regroupUnlessListed (options : Options) (list : String) (elapsed : Option String) (funcs : List Func) :
    Except Trap ProgramReport := do
  let (disabled, lines) := Disabled.parse list
  let report ← regroupUnless options disabled elapsed funcs
  return { report with log := lines ++ report.log }

end Regroup
