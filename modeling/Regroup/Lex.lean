set_option autoImplicit false

namespace Regroup

def lexLe (a b : List Nat) : Bool := decide (a.le b)

theorem lex_iff (a b : List Nat) : lexLe a b = true ↔ a.le b := decide_eq_true_iff

theorem lex_total (a b : List Nat) : lexLe a b = true ∨ lexLe b a = true := by
  rw [lex_iff, lex_iff]
  exact List.le_total a b

theorem lex_antisymm (a b : List Nat) (ab : lexLe a b = true) (ba : lexLe b a = true) : a = b :=
  List.le_antisymm ((lex_iff a b).mp ab) ((lex_iff b a).mp ba)

theorem lex_trans (a b c : List Nat) (ab : lexLe a b = true) (bc : lexLe b c = true) : lexLe a c = true :=
  (lex_iff a c).mpr (List.le_trans ((lex_iff a b).mp ab) ((lex_iff b c).mp bc))

theorem lex_nil (b : List Nat) : lexLe [] b = true := (lex_iff [] b).mpr (List.not_lt_nil b)

theorem lex_cons (a b : Nat) (as bs : List Nat) : lexLe (a :: as) (b :: bs) = (a < b || (a = b && lexLe as bs)) := by
  rw [Bool.eq_iff_iff, lex_iff, Bool.or_eq_true, Bool.and_eq_true, decide_eq_true_iff, decide_eq_true_iff, lex_iff]
  exact List.cons_le_cons_iff

end Regroup
