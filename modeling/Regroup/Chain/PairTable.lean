import Regroup.Chain.Growth
import Regroup.Lex

set_option autoImplicit false

namespace Regroup

def recordLimit : Nat := 8

def listPairs {α : Type} : List α → List (α × α)
  | [] => []
  | a :: rest => rest.map (fun b => (a, b)) ++ listPairs rest

structure PairKey where
  op : Op
  low : Scalar
  high : Scalar
deriving DecidableEq, Repr

def Scalar.key (s : Scalar) : List Nat := [s.value, s.comp.toNat]

def PairKey.of (op : Op) (a b : Scalar) : PairKey :=
  if lexLe a.key b.key then ⟨op, a, b⟩ else ⟨op, b, a⟩

-- Keys are ordered by both values, then by both components, then by operation.
def PairKey.order (k : PairKey) : List Nat :=
  [k.low.value, k.high.value, k.low.comp.toNat, k.high.comp.toNat, k.op.place]

structure PairTable where
  entries : List (PairKey × Nat)
deriving DecidableEq, Repr

def PairTable.empty : PairTable := ⟨[]⟩

def PairTable.clear (_ : PairTable) : PairTable := .empty

def PairTable.size (t : PairTable) : Nat := t.entries.length

def countOf (key : PairKey) : List (PairKey × Nat) → Nat
  | [] => 0
  | (k, count) :: rest => if k = key then count else countOf key rest

def PairTable.count (t : PairTable) (key : PairKey) : Nat := countOf key t.entries

def bumpEntry (key : PairKey) : List (PairKey × Nat) → List (PairKey × Nat)
  | [] => [(key, 1)]
  | (k, count) :: rest => if k = key then (k, count + 1) :: rest else (k, count) :: bumpEntry key rest

def PairTable.bump (t : PairTable) (key : PairKey) : PairTable := ⟨bumpEntry key t.entries⟩

def Chain.pairKeys (c : Chain) : List PairKey :=
  (listPairs c.leaves).map fun (a, b) => PairKey.of c.op a b

def PairTable.record (t : PairTable) (c : Chain) : PairTable :=
  if c.length ≤ recordLimit then c.pairKeys.eraseDups.foldl PairTable.bump t else t

theorem scalar_key_injective (a b : Scalar) (same : a.key = b.key) : a = b := by
  cases a
  cases b
  simp only [Scalar.key, List.cons.injEq, and_true, UInt8.toNat_inj] at same
  simp [same]

theorem pair_key_symm (op : Op) (a b : Scalar) : PairKey.of op a b = PairKey.of op b a := by
  by_cases ab : lexLe a.key b.key
  · by_cases ba : lexLe b.key a.key
    · rw [scalar_key_injective a b (lex_antisymm _ _ ab ba)]
    · rw [PairKey.of, if_pos ab, PairKey.of, if_neg ba]
  · have ba := (lex_total a.key b.key).resolve_left ab
    rw [PairKey.of, if_neg ab, PairKey.of, if_pos ba]

theorem bump_entry_count (key other : PairKey) (entries : List (PairKey × Nat)) :
    countOf other (bumpEntry key entries) = countOf other entries + if key = other then 1 else 0 := by
  induction entries with
  | nil => by_cases same : key = other <;> simp [bumpEntry, countOf, same]
  | cons entry rest ih =>
      obtain ⟨k, count⟩ := entry
      by_cases here : k = key
      · by_cases same : key = other <;> simp [bumpEntry, countOf, here, same]
      · by_cases there : k = other
        · subst there
          simp [bumpEntry, countOf, here, Ne.symm here]
        · simp [bumpEntry, countOf, here, there, ih]

end Regroup
