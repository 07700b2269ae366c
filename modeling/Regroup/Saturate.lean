set_option autoImplicit false

namespace Regroup

abbrev Marks := Array Bool

def Marks.none (size : Nat) : Marks := Array.replicate size false

def Marks.has (marks : Marks) (i : Nat) : Bool := marks.getD i false

def Marks.add (marks : Marks) (i : Nat) : Marks := marks.setIfInBounds i true

-- A rule that only adds marks is exhausted after as many rounds as there are marks.
def saturate (grow : Marks → Marks) : Nat → Marks → Marks
  | 0, marks => marks
  | rounds + 1, marks =>
      let grown := grow marks
      if grown = marks then marks else saturate grow rounds grown

def Marks.closure (start : Marks) (grow : Marks → Marks) : Marks := saturate grow (start.size + 1) start

end Regroup
