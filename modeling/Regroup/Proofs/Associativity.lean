import Mathlib
import Regroup.Const
import Regroup.Tree

set_option autoImplicit false

namespace Regroup

def Op.integer : Op → Bool
  | .iadd | .isub | .imul | .idiv | .iand | .ior | .ixor | .ishl | .imin | .imax | .umin | .umax => true
  | .fadd | .fsub | .fmul | .fmin | .fmax => false

section Selection

variable {α κ : Type} [LinearOrder κ] (key : α → κ) (injective : Function.Injective key)
include injective

theorem least_laws (pick : α → α → α) (picks : ∀ a b, pick a b = if key a ≤ key b then a else b) :
    (∀ a b, pick a b = pick b a) ∧ ∀ a b c, pick (pick a b) c = pick a (pick b c) := by
  have least (x y : α) : key (pick x y) = min (key x) (key y) := by rw [picks, apply_ite key, ← min_def]
  constructor
  · intro a b
    apply injective
    rw [least, least, min_comm]
  · intro a b c
    apply injective
    rw [least, least, least, least, min_assoc]

theorem greatest_laws (pick : α → α → α) (picks : ∀ a b, pick a b = if key a ≤ key b then b else a) :
    (∀ a b, pick a b = pick b a) ∧ ∀ a b c, pick (pick a b) c = pick a (pick b c) := by
  have greatest (x y : α) : key (pick x y) = max (key x) (key y) := by rw [picks, apply_ite key, ← max_def]
  constructor
  · intro a b
    apply injective
    rw [greatest, greatest, max_comm]
  · intro a b c
    apply injective
    rw [greatest, greatest, greatest, greatest, max_assoc]

end Selection

theorem signed_key_injective : Function.Injective Int64.toInt := fun _ _ => Int64.toInt_inj.mp

theorem unsigned_key_injective : Function.Injective fun a : Int64 => a.toUInt64.toNat :=
  fun a b same => by
    cases a
    cases b
    simpa using UInt64.toNat_inj.mp same

structure Op.Regular (op : Op) (value : Int64 → Int64 → Int64) : Prop where
  total : ∀ a b, op.onInts a b = some (value a b)
  comm : ∀ a b, value a b = value b a
  assoc : ∀ a b c, value (value a b) c = value a (value b c)

theorem integer_op_regular (op : Op) (integer : op.integer = true) (commutative : op.laws.commutative = true) :
    ∃ value, op.Regular value := by
  cases op with
  | iadd => exact ⟨_, fun _ _ => rfl, Int64.add_comm, Int64.add_assoc⟩
  | imul => exact ⟨_, fun _ _ => rfl, Int64.mul_comm, Int64.mul_assoc⟩
  | iand => exact ⟨_, fun _ _ => rfl, Int64.and_comm, Int64.and_assoc⟩
  | ior => exact ⟨_, fun _ _ => rfl, Int64.or_comm, Int64.or_assoc⟩
  | ixor => exact ⟨_, fun _ _ => rfl, Int64.xor_comm, Int64.xor_assoc⟩
  | imin =>
      have laws := least_laws _ signed_key_injective (fun a b => if a ≤ b then a else b)
        fun a b => by simp only [Int64.le_iff_toInt_le]
      exact ⟨_, fun _ _ => rfl, laws.1, laws.2⟩
  | imax =>
      have laws := greatest_laws _ signed_key_injective (fun a b => if a ≤ b then b else a)
        fun a b => by simp only [Int64.le_iff_toInt_le]
      exact ⟨_, fun _ _ => rfl, laws.1, laws.2⟩
  | umin =>
      have laws := least_laws _ unsigned_key_injective (fun a b => if a.toUInt64 ≤ b.toUInt64 then a else b)
        fun a b => by simp only [UInt64.le_iff_toNat_le]
      exact ⟨_, fun _ _ => rfl, laws.1, laws.2⟩
  | umax =>
      have laws := greatest_laws _ unsigned_key_injective (fun a b => if a.toUInt64 ≤ b.toUInt64 then b else a)
        fun a b => by simp only [UInt64.le_iff_toNat_le]
      exact ⟨_, fun _ _ => rfl, laws.1, laws.2⟩
  | isub | idiv | ishl => cases commutative
  | fadd | fsub | fmul | fmin | fmax => cases integer

def Op.combine (op : Op) (x y : Option Const) : Option Const := x.bind fun a => y.bind fun b => op.apply a b

theorem combine_none (op : Op) (integer : op.integer = true) (x y : Option Const)
    (odd : (∀ a, x ≠ some (.int a)) ∨ ∀ b, y ≠ some (.int b)) : op.combine x y = none := by
  have noFloats (p q : Float) : op.onFloats p q = none := by
    cases op <;> first | rfl | cases integer
  cases x with
  | none => rfl
  | some c =>
      cases y with
      | none => rfl
      | some d =>
          cases c with
          | int a =>
              cases d with
              | int b =>
                  rcases odd with left | right
                  · exact absurd rfl (left a)
                  · exact absurd rfl (right b)
              | float q => rfl
          | float p =>
              cases d with
              | int b => rfl
              | float q => simp [Op.combine, Op.apply, noFloats]

section Regular

variable (op : Op) (value : Int64 → Int64 → Int64) (regular : op.Regular value)
include regular

theorem combine_ints (a b : Int64) : op.combine (some (.int a)) (some (.int b)) = some (.int (value a b)) := by
  simp [Op.combine, Op.apply, regular.total]

theorem combine_comm (integer : op.integer = true) (x y : Option Const) : op.combine x y = op.combine y x := by
  by_cases ints : (∃ a, x = some (.int a)) ∧ ∃ b, y = some (.int b)
  · obtain ⟨⟨a, rfl⟩, b, rfl⟩ := ints
    rw [combine_ints op value regular, combine_ints op value regular, regular.comm]
  · have odd : (∀ a, x ≠ some (.int a)) ∨ ∀ b, y ≠ some (.int b) := by
      by_contra both
      push Not at both
      exact ints both
    rw [combine_none op integer x y odd, combine_none op integer y x odd.symm]

theorem combine_assoc (integer : op.integer = true) (x y z : Option Const) :
    op.combine (op.combine x y) z = op.combine x (op.combine y z) := by
  have nothing (w : Option Const) : op.combine none w = none := rfl
  have missing (w : Option Const) : op.combine w none = none :=
    combine_none op integer w none (Or.inr (by simp))
  by_cases intX : ∃ a, x = some (.int a)
  · by_cases intY : ∃ b, y = some (.int b)
    · by_cases intZ : ∃ c, z = some (.int c)
      · obtain ⟨a, rfl⟩ := intX
        obtain ⟨b, rfl⟩ := intY
        obtain ⟨c, rfl⟩ := intZ
        simp only [combine_ints op value regular, regular.assoc]
      · have odd : ∀ c, z ≠ some (.int c) := fun c same => intZ ⟨c, same⟩
        rw [combine_none op integer _ z (Or.inr odd), combine_none op integer y z (Or.inr odd),
          missing]
    · have odd : ∀ b, y ≠ some (.int b) := fun b same => intY ⟨b, same⟩
      rw [combine_none op integer x y (Or.inr odd), combine_none op integer y z (Or.inl odd),
        missing, nothing]
  · have odd : ∀ a, x ≠ some (.int a) := fun a same => intX ⟨a, same⟩
    rw [combine_none op integer x y (Or.inl odd), combine_none op integer x _ (Or.inl odd),
      nothing]

end Regular

def Tree.fold {ν α β : Type} (join : β → β → β) (value : α → β) : Tree ν α → β
  | .leaf item => value item
  | .node _ left right => join (left.fold join value) (right.fold join value)

-- A fold depends on the leaves and not on the grouping: it is a product in the semigroup with a unit adjoined.
theorem tree_fold_perm {ν μ α β : Type} (join : β → β → β) (comm : ∀ x y, join x y = join y x)
    (assoc : ∀ x y z, join (join x y) z = join x (join y z)) (value : α → β) (t : Tree ν α) (u : Tree μ α)
    (perm : t.leaves.Perm u.leaves) : t.fold join value = u.fold join value := by
  let _ : CommSemigroup β := { mul := join, mul_assoc := assoc, mul_comm := comm }
  have product {ω : Type} (w : Tree ω α) :
      ((w.fold join value : β) : WithOne β) = (w.leaves.map fun item => ((value item : β) : WithOne β)).prod := by
    induction w with
    | leaf item => simp [Tree.fold, Tree.leaves]
    | node label left right leftProduct rightProduct =>
        rw [Tree.leaves, List.map_append, List.prod_append, ← leftProduct, ← rightProduct, ← WithOne.coe_mul]
        rfl
  apply WithOne.coe_injective
  rw [product t, product u]
  exact (perm.map _).prod_eq

end Regroup
