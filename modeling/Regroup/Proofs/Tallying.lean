import Mathlib
import Regroup.Proofs.Pairing

set_option autoImplicit false

namespace Regroup

inductive TableCall where
  | record (c : Chain)
  | clear

def TableCall.chain? : TableCall → Option Chain
  | .record c => some c
  | .clear => none

def PairTable.perform (t : PairTable) : TableCall → PairTable
  | .record c => t.record c
  | .clear => t.clear

def PairTable.after (calls : List TableCall) : PairTable := calls.foldl PairTable.perform .empty

def recentChains (calls : List TableCall) : List Chain :=
  (calls.rtakeWhile (·.chain?.isSome)).filterMap TableCall.chain?

theorem recent_record (calls : List TableCall) (c : Chain) :
    recentChains (calls ++ [.record c]) = recentChains calls ++ [c] := by
  rw [recentChains, List.rtakeWhile_concat_pos _ _ _ rfl, List.filterMap_append]
  rfl

theorem recent_clear (calls : List TableCall) : recentChains (calls ++ [.clear]) = [] := by
  rw [recentChains, List.rtakeWhile_concat_neg _ _ _ (by simp [TableCall.chain?])]
  rfl

theorem after_concat (calls : List TableCall) (call : TableCall) :
    PairTable.after (calls ++ [call]) = (PairTable.after calls).perform call := by
  rw [PairTable.after, List.foldl_concat]
  rfl

theorem after_count (calls : List TableCall) (key : PairKey) :
    (PairTable.after calls).count key = (recentChains calls).countP (·.counts key) := by
  induction calls using List.reverseRecOn with
  | nil => rfl
  | append_singleton calls call ih =>
      rw [after_concat]
      cases call with
      | clear =>
          rw [recent_clear]
          rfl
      | record c =>
          rw [recent_record, List.countP_append, ← ih, List.countP_singleton]
          exact (record_count _ c key).trans (by cases c.counts key <;> rfl)

theorem recent_length (calls : List TableCall) : (recentChains calls).length ≤ calls.length :=
  (List.length_filterMap_le _ _).trans (List.rtakeWhile_suffix _ calls).sublist.length_le

def PairTable.keys (t : PairTable) : List PairKey := t.entries.map Prod.fst

def PairKey.Normal (key : PairKey) : Prop := key = PairKey.of key.op key.low key.high

-- One entry for each pair, under its normal key, and none that counts nothing.
structure PairTable.Proper (t : PairTable) : Prop where
  distinct : t.keys.Nodup
  counted : ∀ e ∈ t.entries, e.2 ≠ 0
  normal : ∀ key ∈ t.keys, key.Normal

theorem pair_key_normal (op : Op) (a b : Scalar) : (PairKey.of op a b).Normal := by
  rw [PairKey.Normal]
  by_cases le : lexLe a.key b.key = true
  · simp only [PairKey.of, le, ↓reduceIte]
  · have ge := (lex_total a.key b.key).resolve_left le
    simp only [PairKey.of, le, ge, ↓reduceIte, Bool.false_eq_true]

theorem bump_entry_keys (key : PairKey) (entries : List (PairKey × Nat)) : (bumpEntry key entries).map Prod.fst =
    if key ∈ entries.map Prod.fst then entries.map Prod.fst else entries.map Prod.fst ++ [key] := by
  induction entries with
  | nil => rfl
  | cons entry rest ih =>
      obtain ⟨k, count⟩ := entry
      by_cases here : k = key
      · simp [bumpEntry, here]
      · by_cases later : key ∈ rest.map Prod.fst
        · rw [if_pos later] at ih
          rw [bumpEntry, if_neg here, List.map_cons, List.map_cons, ih, if_pos (List.mem_cons_of_mem k later)]
        · rw [if_neg later] at ih
          have missing : ¬ key ∈ k :: rest.map Prod.fst := by
            rw [List.mem_cons, not_or]
            exact ⟨Ne.symm here, later⟩
          rw [bumpEntry, if_neg here, List.map_cons, List.map_cons, ih, if_neg missing, List.cons_append]

theorem bump_entry_counted (key : PairKey) (entries : List (PairKey × Nat)) (counted : ∀ e ∈ entries, e.2 ≠ 0) :
    ∀ e ∈ bumpEntry key entries, e.2 ≠ 0 := by
  induction entries with
  | nil => simp [bumpEntry]
  | cons entry rest ih =>
      obtain ⟨k, count⟩ := entry
      obtain ⟨first, later⟩ := List.forall_mem_cons.mp counted
      by_cases here : k = key
      · rw [bumpEntry, if_pos here]
        exact List.forall_mem_cons.mpr ⟨Nat.succ_ne_zero count, later⟩
      · rw [bumpEntry, if_neg here]
        exact List.forall_mem_cons.mpr ⟨first, ih later⟩

theorem bump_proper (t : PairTable) (key : PairKey) (normal : key.Normal) (proper : t.Proper) : (t.bump key).Proper := by
  have keys : (t.bump key).keys = if key ∈ t.keys then t.keys else t.keys ++ [key] := bump_entry_keys key t.entries
  refine ⟨?_, bump_entry_counted key t.entries proper.counted, ?_⟩
  · rw [keys]
    split
    · exact proper.distinct
    · next missing => exact List.nodup_append.mpr ⟨proper.distinct, List.nodup_singleton key, fun a inside b single same =>
        missing (List.mem_singleton.mp single ▸ same ▸ inside)⟩
  · rw [keys]
    split
    · exact proper.normal
    · exact List.forall_mem_append.mpr ⟨proper.normal, List.forall_mem_singleton.mpr normal⟩

theorem record_proper (t : PairTable) (c : Chain) (proper : t.Proper) : (t.record c).Proper := by
  have bumps (keys : List PairKey) (t : PairTable) (proper : t.Proper) (normal : ∀ key ∈ keys, key.Normal) :
      (keys.foldl PairTable.bump t).Proper := by
    induction keys generalizing t with
    | nil => exact proper
    | cons key rest ih =>
        obtain ⟨first, later⟩ := List.forall_mem_cons.mp normal
        exact ih _ (bump_proper t key first proper) later
  rw [PairTable.record]
  split
  · refine bumps _ t proper fun key listed => ?_
    obtain ⟨a, b, _, rfl⟩ := (mem_pair_keys c key).mp (List.mem_eraseDups.mp listed)
    exact pair_key_normal c.op a b
  · exact proper

theorem empty_proper : PairTable.empty.Proper where
  distinct := List.nodup_nil
  counted := by simp [PairTable.empty]
  normal := by simp [PairTable.keys, PairTable.empty]

theorem after_proper (calls : List TableCall) : (PairTable.after calls).Proper := by
  induction calls using List.reverseRecOn with
  | nil => exact empty_proper
  | append_singleton calls call ih =>
      rw [after_concat]
      cases call with
      | clear => exact empty_proper
      | record c => exact record_proper _ c ih

theorem count_of_ne_zero (entries : List (PairKey × Nat)) (key : PairKey) (counted : ∀ e ∈ entries, e.2 ≠ 0) :
    countOf key entries ≠ 0 ↔ key ∈ entries.map Prod.fst := by
  induction entries with
  | nil => simp [countOf]
  | cons entry rest ih =>
      obtain ⟨k, count⟩ := entry
      obtain ⟨first, later⟩ := List.forall_mem_cons.mp counted
      by_cases here : k = key
      · simp [countOf, here, first]
      · rw [countOf, if_neg here, ih later, List.map_cons, List.mem_cons, or_iff_right (Ne.symm here)]

def PairTable.pairs (t : PairTable) : Set (Op × Sym2 Scalar) :=
  { pair | ∃ a b, pair.2 = s(a, b) ∧ t.count (PairKey.of pair.1 a b) ≠ 0 }

def PairKey.pair (key : PairKey) : Op × Sym2 Scalar := (key.op, s(key.low, key.high))

theorem normal_pair_injective (key other : PairKey) (normal : key.Normal) (also : other.Normal)
    (same : key.pair = other.pair) : key = other := by
  obtain ⟨op, ends⟩ := Prod.mk.inj same
  rw [normal, also, op]
  rcases Sym2.eq_iff.mp ends with ⟨low, high⟩ | ⟨low, high⟩
  · rw [low, high]
  · rw [low, high, pair_key_symm]

theorem pair_of_key (op : Op) (a b : Scalar) : (PairKey.of op a b).pair = (op, s(a, b)) := by
  rw [PairKey.of]
  split
  · rfl
  · exact congrArg (Prod.mk op) Sym2.eq_swap

theorem proper_pairs (t : PairTable) (proper : t.Proper) : t.pairs = PairKey.pair '' { key | key ∈ t.keys } := by
  have counts (key : PairKey) : t.count key ≠ 0 ↔ key ∈ t.keys := count_of_ne_zero t.entries key proper.counted
  ext pair
  constructor
  · intro member
    obtain ⟨a, b, ends, counted⟩ := member
    refine ⟨PairKey.of pair.1 a b, (counts _).mp counted, ?_⟩
    rw [pair_of_key, ← ends]
  · intro member
    obtain ⟨key, listed, rfl⟩ := member
    refine ⟨key.low, key.high, rfl, (counts _).mpr ?_⟩
    exact proper.normal key listed ▸ listed

theorem proper_size (t : PairTable) (proper : t.Proper) : t.pairs.encard = t.size := by
  have injective : Set.InjOn PairKey.pair { key | key ∈ t.keys } := fun key inKeys other inOthers =>
    normal_pair_injective key other (proper.normal key inKeys) (proper.normal other inOthers)
  have listed : { key | key ∈ t.keys } = (t.keys.toFinset : Set PairKey) := by
    ext key
    simp
  rw [proper_pairs t proper, injective.encard_image, listed, Set.encard_coe_eq_coe_finsetCard,
    List.toFinset_card_of_nodup proper.distinct, PairTable.keys, List.length_map, PairTable.size]

-- No count exceeds the number of calls, so that counters which hold that number never overflow.
theorem table_counts_recent_chains (calls : List TableCall) :
    (∀ op a b,
      (PairTable.after calls).count (PairKey.of op a b) = (PairTable.after calls).count (PairKey.of op b a) ∧
      (PairTable.after calls).count (PairKey.of op a b) =
        (recentChains calls).countP (fun c => decide (c.op = op ∧ c.length ≤ 8 ∧ c.HoldsPair a b)) ∧
      (PairTable.after calls).count (PairKey.of op a b) ≤ calls.length) ∧
    (PairTable.after calls).pairs.encard = (PairTable.after calls).size := by
  refine ⟨fun op a b => ⟨by rw [pair_key_symm], ?_, ?_⟩, proper_size _ (after_proper calls)⟩
  · rw [after_count]
    refine List.countP_congr fun c _ => ?_
    rw [counts_pair_iff, decide_eq_true_iff]
  · rw [after_count]
    exact List.countP_le_length.trans (recent_length calls)

end Regroup
