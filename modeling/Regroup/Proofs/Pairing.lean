import Mathlib
import Regroup.Chain.Survey
import Regroup.Proofs.Grouping

set_option autoImplicit false

namespace Regroup

theorem list_pairs_sublist {α : Type} (items : List α) (a b : α) :
    (a, b) ∈ listPairs items ↔ [a, b].Sublist items := by
  induction items with
  | nil => simp [listPairs]
  | cons x rest ih =>
      rw [listPairs, List.mem_append, ih, List.cons_sublist_cons', List.singleton_sublist]
      simp only [List.mem_map, Prod.mk.injEq]
      constructor
      · intro either
        rcases either with ⟨c, member, rfl, rfl⟩ | later
        · exact Or.inr ⟨rfl, member⟩
        · exact Or.inl later
      · intro either
        rcases either with later | ⟨rfl, member⟩
        · exact Or.inr later
        · exact Or.inl ⟨b, member, rfl, rfl⟩

theorem pair_subperm {α : Type} [DecidableEq α] (items : List α) (a b : α) :
    [a, b].Subperm items ↔ [a, b].Sublist items ∨ [b, a].Sublist items := by
  constructor
  · intro within
    obtain ⟨part, perm, sub⟩ := within
    rcases List.perm_pair.mp perm with rfl | rfl
    · exact Or.inl sub
    · exact Or.inr sub
  · intro either
    rcases either with sub | sub
    · exact sub.subperm
    · exact (List.Perm.swap b a []).subperm.trans sub.subperm

-- Two places of the chain hold the two scalars, in either order.
def Chain.HoldsPair (c : Chain) (a b : Scalar) : Prop :=
  ∃ i < c.length, ∃ j < c.length, i ≠ j ∧ c.leaves[i]? = some a ∧ c.leaves[j]? = some b

instance (c : Chain) (a b : Scalar) : Decidable (c.HoldsPair a b) :=
  inferInstanceAs (Decidable (∃ i < c.length, ∃ j < c.length, i ≠ j ∧ c.leaves[i]? = some a ∧ c.leaves[j]? = some b))

theorem holds_pair_iff (c : Chain) (a b : Scalar) : c.HoldsPair a b ↔ [a, b].Subperm c.leaves := by
  rw [pair_subperm, ← list_pairs_sublist, ← list_pairs_sublist, mem_list_pairs, mem_list_pairs]
  constructor
  · intro held
    obtain ⟨i, _, j, _, different, atI, atJ⟩ := held
    rcases Nat.lt_or_gt_of_ne different with less | greater
    · exact Or.inl ⟨i, j, less, atI, atJ⟩
    · exact Or.inr ⟨j, i, greater, atJ, atI⟩
  · intro either
    rcases either with ⟨i, j, less, atI, atJ⟩ | ⟨j, i, less, atJ, atI⟩
    · exact ⟨i, (List.getElem?_eq_some_iff.mp atI).1, j, (List.getElem?_eq_some_iff.mp atJ).1, Nat.ne_of_lt less, atI, atJ⟩
    · exact ⟨i, (List.getElem?_eq_some_iff.mp atI).1, j, (List.getElem?_eq_some_iff.mp atJ).1, Nat.ne_of_gt less, atI, atJ⟩

theorem subperm_map {α β : Type} (change : α → β) (part items : List α) (within : part.Subperm items) :
    (part.map change).Subperm (items.map change) := by
  obtain ⟨listed, perm, sub⟩ := within
  exact ⟨listed.map change, perm.map change, sub.map change⟩

theorem pair_subperm_map {α β : Type} (change : α → β) (items : List α) (a b : β)
    (within : [a, b].Subperm (items.map change)) : ∃ x y, [x, y].Sublist items ∧ [change x, change y].Perm [a, b] := by
  obtain ⟨part, perm, sub⟩ := within
  obtain ⟨source, inside, rfl⟩ := List.sublist_map_iff.mp sub
  have length : source.length = 2 := by
    rw [← List.length_map change, perm.length_eq]
    rfl
  obtain ⟨x, y, rfl⟩ := List.length_eq_two.mp length
  exact ⟨x, y, inside, perm⟩

theorem mem_pair_keys (c : Chain) (key : PairKey) :
    key ∈ c.pairKeys ↔ ∃ s t, [s, t].Subperm c.leaves ∧ key = PairKey.of c.op s t := by
  simp only [Chain.pairKeys, List.mem_map, Prod.exists, list_pairs_sublist, pair_subperm]
  constructor
  · intro found
    obtain ⟨s, t, sub, rfl⟩ := found
    exact ⟨s, t, Or.inl sub, rfl⟩
  · intro found
    obtain ⟨s, t, sub | sub, rfl⟩ := found
    · exact ⟨s, t, sub, rfl⟩
    · exact ⟨t, s, sub, pair_key_symm c.op t s⟩

theorem pair_key_parts (op : Op) (s t : Scalar) :
    (PairKey.of op s t).op = op ∧ [(PairKey.of op s t).low, (PairKey.of op s t).high].Perm [s, t] := by
  rw [PairKey.of]
  split
  · exact ⟨rfl, List.Perm.refl _⟩
  · exact ⟨rfl, List.Perm.swap _ _ _⟩

theorem pair_key_perm (op : Op) (a b x y : Scalar) (perm : [a, b].Perm [x, y]) :
    PairKey.of op a b = PairKey.of op x y := by
  rcases List.perm_pair.mp perm with equal | swapped
  · cases equal
    rfl
  · cases swapped
    exact pair_key_symm op a b

theorem pair_key_listed (c : Chain) (op : Op) (s t : Scalar) :
    PairKey.of op s t ∈ c.pairKeys ↔ op = c.op ∧ [s, t].Subperm c.leaves := by
  rw [mem_pair_keys]
  constructor
  · intro found
    obtain ⟨u, v, within, same⟩ := found
    obtain ⟨opHere, here⟩ := pair_key_parts op s t
    obtain ⟨opThere, there⟩ := pair_key_parts c.op u v
    rw [same] at opHere here
    exact ⟨opHere.symm.trans opThere, (here.symm.trans there).subperm.trans within⟩
  · intro both
    exact ⟨s, t, both.2, by rw [both.1]⟩

theorem pair_key_order_injective (a b : PairKey) (op : a.op = b.op) (same : a.order = b.order) : a = b := by
  obtain ⟨opA, ⟨lowA, compA⟩, ⟨highA, compA'⟩⟩ := a
  obtain ⟨opB, ⟨lowB, compB⟩, ⟨highB, compB'⟩⟩ := b
  simp only [PairKey.order, List.cons.injEq, and_true, UInt8.toNat_inj] at same
  obtain ⟨rfl, rfl, rfl, rfl, _⟩ := same
  rw [show opA = opB from op]

theorem erase_dups_nodup {α : Type} [DecidableEq α] (items : List α) : items.eraseDups.Nodup := by
  cases items with
  | nil => exact List.nodup_nil
  | cons a rest =>
      rw [List.eraseDups_cons, List.nodup_cons, List.mem_eraseDups]
      exact ⟨by simp, erase_dups_nodup _⟩
termination_by items.length
decreasing_by exact Nat.lt_succ_of_le (List.length_filter_le _ _)

theorem bumps_count (keys : List PairKey) (t : PairTable) (key : PairKey) :
    (keys.foldl PairTable.bump t).count key = t.count key + keys.count key := by
  induction keys generalizing t with
  | nil => rfl
  | cons k rest ih =>
      have bumped : (t.bump k).count key = t.count key + if k = key then 1 else 0 := bump_entry_count k key t.entries
      rw [List.foldl_cons, ih, bumped, List.count_cons]
      simp only [beq_iff_eq]
      omega

def Chain.counts (c : Chain) (key : PairKey) : Bool := c.length ≤ recordLimit && key ∈ c.pairKeys

theorem counts_pair_iff (c : Chain) (op : Op) (a b : Scalar) :
    c.counts (PairKey.of op a b) = true ↔ c.op = op ∧ c.length ≤ 8 ∧ c.HoldsPair a b := by
  rw [Chain.counts, Bool.and_eq_true, decide_eq_true_iff, decide_eq_true_iff, pair_key_listed, holds_pair_iff, recordLimit,
    eq_comm (a := op)]
  exact and_left_comm

theorem record_count (t : PairTable) (c : Chain) (key : PairKey) :
    (t.record c).count key = t.count key + (c.counts key).toNat := by
  by_cases short : c.length ≤ recordLimit
  · rw [PairTable.record, if_pos short, bumps_count, Chain.counts]
    by_cases listed : key ∈ c.pairKeys
    · rw [List.count_eq_one_of_mem (erase_dups_nodup _) (List.mem_eraseDups.mpr listed)]
      simp [short, listed]
    · rw [List.count_eq_zero.mpr fun member => listed (List.mem_eraseDups.mp member)]
      simp [listed]
  · rw [PairTable.record, if_neg short, Chain.counts]
    simp [short]

theorem recorded_count (found : List Found) (t : PairTable) (key : PairKey) :
    (found.foldl (fun t x => t.record x.chain) t).count key = t.count key + found.countP (·.chain.counts key) := by
  induction found generalizing t with
  | nil => rfl
  | cons x rest ih =>
      rw [List.foldl_cons, ih, record_count, List.countP_cons]
      cases x.chain.counts key with
      | false => simp
      | true =>
          simp only [Bool.toNat_true, ↓reduceIte]
          omega

section Beats

theorem unbeaten_iff (a b : PairChoice) : a.beats b = false ↔ a.count < b.count ∨ (a.count = b.count ∧
    (b.rank < a.rank ∨ (a.rank = b.rank ∧ lexLe b.key.order a.key.order = true))) := by
  cases lex : lexLe b.key.order a.key.order <;>
    simp only [PairChoice.beats, lex, Bool.or_eq_false_iff, Bool.and_eq_false_iff, decide_eq_false_iff_not, Bool.not_true,
      Bool.not_false, Bool.false_eq_true, Bool.true_eq_false, and_true, and_false, or_false, or_true] <;>
    omega

theorem unbeaten_refl (a : PairChoice) : a.beats a = false :=
  (unbeaten_iff a a).mpr (Or.inr ⟨rfl, Or.inr ⟨rfl, (lex_iff _ _).mpr (List.le_refl _)⟩⟩)

theorem unbeaten_trans (a b c : PairChoice) (ab : a.beats b = false) (bc : b.beats c = false) : a.beats c = false := by
  rw [unbeaten_iff] at ab bc ⊢
  rcases ab with less | ⟨count, ab⟩
  · rcases bc with more | ⟨count, _⟩
    · exact Or.inl (by omega)
    · exact Or.inl (by omega)
  · rcases bc with more | ⟨again, bc⟩
    · exact Or.inl (by omega)
    · refine Or.inr ⟨count.trans again, ?_⟩
      rcases ab with higher | ⟨rank, ab⟩
      · rcases bc with more | ⟨same, _⟩
        · exact Or.inl (by omega)
        · exact Or.inl (by omega)
      · rcases bc with more | ⟨same, bc⟩
        · exact Or.inl (by omega)
        · exact Or.inr ⟨rank.trans same, lex_trans _ _ _ bc ab⟩

theorem beats_asymm (a b : PairChoice) (wins : a.beats b = true) : b.beats a = false := by
  have lost : ¬ a.beats b = false := by simp [wins]
  rw [unbeaten_iff] at lost ⊢
  rcases lex_total a.key.order b.key.order with le | ge
  · simp only [le, and_true]
    omega
  · simp only [ge, and_true] at lost
    omega

theorem unbeaten_same (a b : PairChoice) (op : a.key.op = b.key.op) (ab : a.beats b = false) (ba : b.beats a = false) :
    a.key = b.key := by
  rw [unbeaten_iff] at ab ba
  rcases ab with less | ⟨count, ab⟩
  · omega
  · rcases ba with less | ⟨_, ba⟩
    · omega
    · rcases ab with higher | ⟨rank, le⟩
      · omega
      · rcases ba with higher | ⟨_, ge⟩
        · omega
        · exact pair_key_order_injective a.key b.key op (lex_antisymm _ _ ge le)

theorem better_fold_unbeaten (choices : List PairChoice) (start : Option PairChoice) (best : PairChoice)
    (chosen : choices.foldl PairChoice.better start = some best) :
    (∀ a ∈ choices, a.beats best = false) ∧ ∀ b, start = some b → b.beats best = false := by
  induction choices generalizing start with
  | nil =>
      refine ⟨by simp, fun b same => ?_⟩
      obtain rfl : best = b := Option.some.inj (Eq.symm chosen |>.trans same)
      exact unbeaten_refl best
  | cons a rest ih =>
      obtain ⟨later, now⟩ := ih (PairChoice.better start a) chosen
      cases start with
      | none =>
          refine ⟨List.forall_mem_cons.mpr ⟨now a rfl, later⟩, fun b same => ?_⟩
          cases same
      | some b =>
          by_cases wins : a.beats b = true
          · have first := now a (by simp [PairChoice.better, wins])
            refine ⟨List.forall_mem_cons.mpr ⟨first, later⟩, fun c same => ?_⟩
            cases same
            exact unbeaten_trans b a best (beats_asymm a b wins) first
          · have first := now b (by simp [PairChoice.better, wins])
            refine ⟨List.forall_mem_cons.mpr ⟨?_, later⟩, fun c same => ?_⟩
            · exact unbeaten_trans a b best (Bool.eq_false_iff.mpr wins) first
            · cases same
              exact first

theorem better_fold_some (choices : List PairChoice) (start : Option PairChoice)
    (found : start.isSome = true ∨ choices ≠ []) : (choices.foldl PairChoice.better start).isSome = true := by
  induction choices generalizing start with
  | nil => simpa using found
  | cons a rest ih =>
      refine ih (PairChoice.better start a) (Or.inl ?_)
      cases start with
      | none => rfl
      | some b =>
          rw [PairChoice.better]
          split <;> rfl

end Beats

section Choices

variable (c : Chain) (facts : Facts) (table : PairTable)

theorem pair_choice_mem (choice : PairChoice) (member : choice ∈ c.pairChoices facts table) :
    choice.leaves.Subperm c.leaves ∧ choice.key = PairKey.of c.op choice.first.1 choice.second.1 ∧
      choice.count = table.count choice.key ∧ choice.rank = max (facts.rank choice.first.1) (facts.rank choice.second.1) := by
  simp only [Chain.pairChoices, List.mem_map, Prod.exists] at member
  obtain ⟨a, i, b, j, listed, rfl⟩ := member
  refine ⟨?_, rfl, rfl, rfl⟩
  have sub := ((list_pairs_sublist _ _ _).mp listed).map Prod.fst
  rw [List.zipIdx_map_fst] at sub
  exact sub.subperm

theorem pair_choice_weight (choice : PairChoice) (member : choice ∈ c.pairChoices facts table) (a b : Scalar)
    (perm : choice.leaves.Perm [a, b]) : choice.key = PairKey.of c.op a b ∧
      choice.count = table.count (PairKey.of c.op a b) ∧ choice.rank = max (facts.rank a) (facts.rank b) := by
  obtain ⟨_, key, count, rank⟩ := pair_choice_mem c facts table choice member
  rw [pair_key_perm c.op _ _ a b perm] at key
  refine ⟨key, by rw [count, key], ?_⟩
  rcases List.perm_pair.mp perm with equal | swapped
  · cases equal
    exact rank
  · cases swapped
    rw [rank, Nat.max_comm]

theorem pair_choice_exists (s t : Scalar) (within : [s, t].Subperm c.leaves) :
    ∃ choice ∈ c.pairChoices facts table, choice.leaves.Perm [s, t] := by
  have ordered (a b : Scalar) (sub : [a, b].Sublist c.leaves) :
      ∃ choice ∈ c.pairChoices facts table, choice.leaves = [a, b] := by
    obtain ⟨i, j, less, atI, atJ⟩ := (mem_list_pairs _ a b).mp ((list_pairs_sublist _ a b).mpr sub)
    have listed : ((a, i), (b, j)) ∈ listPairs c.leaves.zipIdx :=
      (mem_list_pairs _ _ _).mpr ⟨i, j, less, by simp [List.getElem?_zipIdx, atI], by simp [List.getElem?_zipIdx, atJ]⟩
    exact ⟨_, List.mem_map_of_mem listed, rfl⟩
  rcases (pair_subperm c.leaves s t).mp within with sub | sub
  · obtain ⟨choice, member, same⟩ := ordered s t sub
    exact ⟨choice, member, same ▸ List.Perm.refl _⟩
  · obtain ⟨choice, member, same⟩ := ordered t s sub
    exact ⟨choice, member, same ▸ List.Perm.swap _ _ _⟩

theorem best_pair_unbeaten (best : PairChoice) (chosen : c.bestPair? facts table = some best) (a : PairChoice)
    (member : a ∈ c.pairChoices facts table) (common : 2 ≤ a.count) : a.beats best = false :=
  (better_fold_unbeaten _ none best chosen).1 a (List.mem_filter.mpr ⟨member, by simpa using common⟩)

theorem best_pair_none_iff :
    c.bestPair? facts table = none ↔ ∀ a ∈ c.pairChoices facts table, ¬ 2 ≤ a.count := by
  constructor
  · intro nothing a member common
    have found := better_fold_some ((c.pairChoices facts table).filter (2 ≤ ·.count)) none
      (Or.inr (List.ne_nil_of_mem (List.mem_filter.mpr ⟨member, by simpa using common⟩)))
    rw [Chain.bestPair?] at nothing
    rw [nothing] at found
    cases found
  · intro rare
    rw [Option.eq_none_iff_forall_ne_some]
    intro best chosen
    obtain ⟨member, common⟩ := best_pair_mem c facts table best chosen
    exact rare best member common

end Choices

end Regroup
