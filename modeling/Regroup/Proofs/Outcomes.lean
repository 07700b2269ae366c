import Mathlib
import Regroup.Func.Exec
import Regroup.Proofs.Associativity

set_option autoImplicit false

namespace Regroup

def Tree.eval {ν : Type} (op : Op) : Tree ν Const → Except Stop Const
  | .leaf c => .ok c
  | .node _ left right => do
      let lhs ← left.eval op
      let rhs ← right.eval op
      op.lane lhs rhs

def Op.Mismatch (op : Op) (outcome : Except Stop Const) : Prop :=
  ∃ lhs rhs, outcome = .error (.error (.typeMismatch op lhs rhs))

def Op.Gives (op : Op) (outcome : Except Stop Const) : Option Const → Prop
  | some c => outcome = .ok c
  | none => op.Mismatch outcome

theorem lane_gives (op : Op) (lhs rhs : Const) : op.Gives (op.lane lhs rhs) (op.apply lhs rhs) := by
  rw [Op.lane]
  cases op.apply lhs rhs with
  | none => exact ⟨lhs, rhs, rfl⟩
  | some c => exact rfl

theorem eval_gives {ν : Type} (op : Op) (t : Tree ν Const) : op.Gives (t.eval op) (t.fold op.combine some) := by
  induction t with
  | leaf c => exact rfl
  | node label left right lower upper =>
      rw [Tree.eval, Tree.fold]
      cases valueL : left.fold op.combine some with
      | none =>
          rw [valueL] at lower
          obtain ⟨a, b, failed⟩ := lower
          rw [failed]
          exact ⟨a, b, rfl⟩
      | some x =>
          rw [valueL] at lower
          have evaluated : left.eval op = .ok x := lower
          rw [evaluated]
          cases valueR : right.fold op.combine some with
          | none =>
              rw [valueR] at upper
              obtain ⟨a, b, failed⟩ := upper
              rw [failed]
              exact ⟨a, b, rfl⟩
          | some y =>
              rw [valueR] at upper
              have after : right.eval op = .ok y := upper
              rw [after]
              exact lane_gives op x y

theorem eval_ok_iff {ν : Type} (op : Op) (t : Tree ν Const) (c : Const) :
    t.eval op = .ok c ↔ t.fold op.combine some = some c := by
  have gives := eval_gives op t
  cases value : t.fold op.combine some with
  | none =>
      rw [value] at gives
      obtain ⟨a, b, failed⟩ := gives
      simp [failed]
  | some d =>
      rw [value] at gives
      have evaluated : t.eval op = .ok d := gives
      simp [evaluated]

section Integer

variable {ν : Type} (op : Op) (integer : op.integer = true)
include integer

theorem combine_some (x y : Option Const) (c : Const) (got : op.combine x y = some c) :
    (∃ a, x = some (.int a)) ∧ (∃ b, y = some (.int b)) ∧ ∃ v, c = .int v := by
  by_cases intX : ∃ a, x = some (.int a)
  · by_cases intY : ∃ b, y = some (.int b)
    · obtain ⟨a, rfl⟩ := intX
      obtain ⟨b, rfl⟩ := intY
      obtain ⟨v, _, rfl⟩ := Option.map_eq_some_iff.mp got
      exact ⟨⟨a, rfl⟩, ⟨b, rfl⟩, v, rfl⟩
    · rw [combine_none op integer x y (Or.inr fun b same => intY ⟨b, same⟩)] at got
      cases got
  · rw [combine_none op integer x y (Or.inl fun a same => intX ⟨a, same⟩)] at got
    cases got

theorem fold_float (t : Tree ν Const) (bits : UInt64) (got : t.fold op.combine some = some (.float bits)) :
    t = .leaf (.float bits) := by
  cases t with
  | leaf c =>
      cases got
      rfl
  | node label left right =>
      obtain ⟨_, _, v, impossible⟩ := combine_some op integer _ _ _ got
      cases impossible

theorem fold_int_iff (value : Int64 → Int64 → Int64) (regular : op.Regular value) (t : Tree ν Const) :
    (∃ v, t.fold op.combine some = some (.int v)) ↔ ∀ c ∈ t.leaves, ∃ a, c = .int a := by
  induction t with
  | leaf c => simp [Tree.fold, Tree.leaves]
  | node label left right lower upper =>
      constructor
      · rintro ⟨v, got⟩ c member
        obtain ⟨inLeft, inRight, _⟩ := combine_some op integer _ _ _ got
        cases List.mem_append.mp member with
        | inl left => exact lower.mp inLeft c left
        | inr right => exact upper.mp inRight c right
      · intro ints
        obtain ⟨a, inLeft⟩ := lower.mpr fun c member => ints c (List.mem_append_left _ member)
        obtain ⟨b, inRight⟩ := upper.mpr fun c member => ints c (List.mem_append_right _ member)
        exact ⟨value a b, by rw [Tree.fold, inLeft, inRight, combine_ints op value regular]⟩

end Integer

-- The third case is that of trees without an operation: a lone float is its own result.
theorem regrouped_trees_agree {ν μ : Type} (op : Op) (integer : op.integer = true)
    (laws : op.laws.commutative = true ∧ op.laws.associative = true) (t : Tree ν Const) (u : Tree μ Const)
    (same : t.leaves.Perm u.leaves) :
    ((∃ v, t.eval op = .ok (.int v) ∧ u.eval op = .ok (.int v)) ∨
      (op.Mismatch (t.eval op) ∧ op.Mismatch (u.eval op)) ∨
      ∃ bits, t = .leaf (.float bits) ∧ u = .leaf (.float bits)) ∧
    ((∃ v, t.eval op = .ok (.int v)) ↔ ∀ c ∈ t.leaves, ∃ a, c = .int a) := by
  obtain ⟨value, regular⟩ := integer_op_regular op integer laws.1
  have equal : t.fold op.combine some = u.fold op.combine some :=
    tree_fold_perm op.combine (combine_comm op value regular integer) (combine_assoc op value regular integer) some t u same
  constructor
  · cases result : t.fold op.combine some with
    | none =>
        have first := eval_gives op t
        have second := eval_gives op u
        rw [result] at first
        rw [← equal, result] at second
        exact Or.inr (Or.inl ⟨first, second⟩)
    | some c =>
        have other : u.fold op.combine some = some c := equal.symm.trans result
        cases c with
        | int v => exact Or.inl ⟨v, (eval_ok_iff op t _).mpr result, (eval_ok_iff op u _).mpr other⟩
        | float bits =>
            exact Or.inr (Or.inr ⟨bits, fold_float op integer t bits result, fold_float op integer u bits other⟩)
  · simp only [eval_ok_iff]
    exact fold_int_iff op integer value regular t

def wrappedProduct : Tree Unit Const :=
  .node () (.node () (.leaf (.int 9223372036854775807)) (.leaf (.int 3))) (.leaf (.int (-5)))

def turnedProduct : Tree Unit Const :=
  .node () (.leaf (.int (-5))) (.node () (.leaf (.int 9223372036854775807)) (.leaf (.int 3)))

def spoiltProduct : Tree Unit Const :=
  .node () (.node () (.leaf (.float 0)) (.leaf (.int 2))) (.leaf (.int 3))

def latelySpoiltProduct : Tree Unit Const :=
  .node () (.node () (.leaf (.int 2)) (.leaf (.int 3))) (.leaf (.float 0))

theorem wrapped_products_agree :
    wrappedProduct.leaves.Perm turnedProduct.leaves ∧
    (∃ v, wrappedProduct.eval .imul = .ok (.int v) ∧ turnedProduct.eval .imul = .ok (.int v)) ∧
    spoiltProduct.leaves.Perm latelySpoiltProduct.leaves ∧
    Op.imul.Mismatch (spoiltProduct.eval .imul) ∧ Op.imul.Mismatch (latelySpoiltProduct.eval .imul) := by
  have perm : wrappedProduct.leaves.Perm turnedProduct.leaves := by decide
  have spoiltPerm : spoiltProduct.leaves.Perm latelySpoiltProduct.leaves := by decide
  obtain ⟨outcomes, ints⟩ := regrouped_trees_agree .imul rfl ⟨rfl, rfl⟩ wrappedProduct turnedProduct perm
  obtain ⟨spoilt, noInts⟩ := regrouped_trees_agree .imul rfl ⟨rfl, rfl⟩ spoiltProduct latelySpoiltProduct spoiltPerm
  have whole : ∃ v, wrappedProduct.eval .imul = .ok (.int v) := ints.mpr (by simp [wrappedProduct, Tree.leaves])
  have notWhole : ¬ ∃ v, spoiltProduct.eval .imul = .ok (.int v) := fun some_value => by
    obtain ⟨a, impossible⟩ := noInts.mp some_value (.float 0) (by decide)
    cases impossible
  refine ⟨perm, ?_, spoiltPerm, ?_⟩
  · obtain agree | ⟨⟨_, _, failed⟩, _⟩ | ⟨_, bare, _⟩ := outcomes
    · exact agree
    · obtain ⟨v, value⟩ := whole
      rw [value] at failed
      cases failed
    · cases bare
  · obtain ⟨v, value, _⟩ | mismatch | ⟨_, bare, _⟩ := spoilt
    · exact absurd ⟨v, value⟩ notWhole
    · exact mismatch
    · cases bare

end Regroup
