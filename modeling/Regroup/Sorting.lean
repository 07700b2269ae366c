set_option autoImplicit false

namespace Regroup

def insertBy {α : Type} (le : α → α → Bool) (x : α) : List α → List α
  | [] => [x]
  | y :: rest => if le x y then x :: y :: rest else y :: insertBy le x rest

-- Elements that may precede each other keep their order.
def sortBy {α : Type} (le : α → α → Bool) (items : List α) : List α := items.foldr (insertBy le) []

end Regroup
