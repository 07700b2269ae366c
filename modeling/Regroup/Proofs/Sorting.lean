import Mathlib
import Regroup.Chain.Arrangement

set_option autoImplicit false

namespace Regroup

theorem insert_by_ordered {α : Type} (le : α → α → Bool) (x : α) (items : List α) :
    insertBy le x items = items.orderedInsert (fun a b => le a b = true) x := by
  induction items with
  | nil => rfl
  | cons y rest ih => rw [insertBy, List.orderedInsert_cons, ih]

theorem sort_by_insertion {α : Type} (le : α → α → Bool) (items : List α) :
    sortBy le items = items.insertionSort fun a b => le a b = true := by
  induction items with
  | nil => rfl
  | cons x rest ih => rw [List.insertionSort_cons, ← ih, ← insert_by_ordered, sortBy, sortBy, List.foldr_cons]

theorem sort_by_perm {α : Type} (le : α → α → Bool) (items : List α) : (sortBy le items).Perm items := by
  rw [sort_by_insertion]
  exact List.perm_insertionSort _ items

theorem sort_by_sorted {α : Type} (le : α → α → Bool) (total : ∀ a b, le a b = true ∨ le b a = true)
    (trans : ∀ a b c, le a b = true → le b c = true → le a c = true) (items : List α) :
    (sortBy le items).Pairwise fun a b => le a b = true := by
  have : Std.Total fun a b => le a b = true := ⟨total⟩
  have : IsTrans α fun a b => le a b = true := ⟨trans⟩
  rw [sort_by_insertion]
  exact List.pairwise_insertionSort _ items

def Facts.InOrder (facts : Facts) (a b : Scalar) : Prop := lexLe (facts.sortKey a) (facts.sortKey b) = true

theorem sort_leaves_sorted (facts : Facts) (leaves : List Scalar) : (facts.sortLeaves leaves).Pairwise facts.InOrder :=
  sort_by_sorted (fun a b => lexLe (facts.sortKey a) (facts.sortKey b)) (fun _ _ => lex_total _ _)
    (fun _ _ _ => lex_trans _ _ _) leaves

theorem sort_leaves_perm (facts : Facts) (leaves : List Scalar) : (facts.sortLeaves leaves).Perm leaves := sort_by_perm _ _

theorem sort_key_injective (facts : Facts) (a b : Scalar) (ab : facts.InOrder a b) (ba : facts.InOrder b a) : a = b := by
  have same := lex_antisymm _ _ ab ba
  exact scalar_key_injective a b (List.cons.inj same).2

theorem sorted_unique (facts : Facts) (leaves others : List Scalar) (sorted : leaves.Pairwise facts.InOrder)
    (also : others.Pairwise facts.InOrder) (perm : leaves.Perm others) : leaves = others :=
  List.Perm.eq_of_pairwise (fun a b _ _ => sort_key_injective facts a b) sorted also perm

theorem sort_leaves_congr (facts : Facts) (leaves others : List Scalar) (perm : leaves.Perm others) :
    facts.sortLeaves leaves = facts.sortLeaves others :=
  sorted_unique facts _ _ (sort_leaves_sorted facts leaves) (sort_leaves_sorted facts others)
    (((sort_leaves_perm facts leaves).trans perm).trans (sort_leaves_perm facts others).symm)

theorem sort_leaves_pair (facts : Facts) (a b : Scalar) :
    facts.sortLeaves [a, b] = if lexLe (facts.sortKey a) (facts.sortKey b) then [a, b] else [b, a] := rfl

end Regroup
