import Regroup.Func

set_option autoImplicit false

namespace Regroup

inductive Defect where
  | undefined (value : Value)
  | duplicate (value : Value)
  | useBeforeDef (user : Option Value) (operand : Value)
  | componentOutOfRange (read : Scalar) (width : UInt8)
  | unknownBlock (label : Label)
deriving DecidableEq, Repr

def Defect.message : Defect → String
  | .undefined v => s!"value {valueText v} is used but never defined"
  | .duplicate v => s!"value {valueText v} is defined more than once"
  | .useBeforeDef user operand =>
      s!"value {valueText operand} is used by {valueText (user.getD noUser)} before its definition"
  | .componentOutOfRange s width =>
      s!"component {s.comp.toNat} of {valueText s.value} is out of range ({width.toNat} components)"
  | .unknownBlock label => s!"branch targets unknown {labelText label}"

def Defect.record : Defect → String
  | .undefined v => s!"UndefinedValue({v})"
  | .duplicate v => s!"DuplicateDefinition({v})"
  | .useBeforeDef user operand => s!"UseBeforeDef \x7b user: {user.getD noUser}, operand: {operand} \x7d"
  | .componentOutOfRange s width =>
      s!"ComponentOutOfRange \x7b value: {s.value}, comp: {s.comp.toNat}, num_components: {width.toNat} \x7d"
  | .unknownBlock label => s!"UnknownBlock(BlockId({label}))"

inductive Trap where
  | outOfRange
  | idsExhausted
  | laneOverflow
  | emptyChain
  | malformed (name : String) (defect : Defect)
  | broken (result : Func) (defect : Defect)
deriving DecidableEq, Repr

def Trap.message? : Trap → Option String
  | .malformed name defect => some s!"reassoc: malformed input {name}: Err({defect.record})"
  | .broken result defect => some s!"reassoc: broke {result.name}: Err({defect.record})\n{result.text}"
  | .outOfRange => none
  | .idsExhausted => none
  | .laneOverflow => none
  | .emptyChain => none

def Func.checkIds (f : Func) : Except Trap Unit :=
  if f.defs.all (· < f.next) then .ok () else .error .outOfRange

def Func.fresh (f : Func) : Except Trap (Value × Func) :=
  if f.next + 1 < idLimit then .ok (f.next, { f with next := f.next + 1 }) else .error .idsExhausted

end Regroup
