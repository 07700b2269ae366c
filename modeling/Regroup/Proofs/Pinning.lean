import Mathlib
import Regroup.Chain.Attempt
import Regroup.Proofs.Sorting

set_option autoImplicit false

namespace Regroup

theorem mem_list_pairs {α : Type} (items : List α) (a b : α) :
    (a, b) ∈ listPairs items ↔ ∃ i j : Nat, i < j ∧ items[i]? = some a ∧ items[j]? = some b := by
  induction items with
  | nil => simp [listPairs]
  | cons x rest ih =>
      simp only [listPairs, List.mem_append, List.mem_map, Prod.mk.injEq, ih]
      constructor
      · rintro (⟨y, member, rfl, rfl⟩ | ⟨i, j, less, atI, atJ⟩)
        · obtain ⟨j, found⟩ := List.mem_iff_getElem?.mp member
          exact ⟨0, j + 1, by omega, rfl, found⟩
        · exact ⟨i + 1, j + 1, by omega, atI, atJ⟩
      · rintro ⟨i, j, less, atI, atJ⟩
        cases j with
        | zero => omega
        | succ j =>
            cases i with
            | zero => exact Or.inl ⟨b, List.mem_of_getElem? atJ, by simpa using atI, rfl⟩
            | succ i => exact Or.inr ⟨i, j, by omega, atI, atJ⟩

theorem mem_pair_choices (c : Chain) (facts : Facts) (table : PairTable) (choice : PairChoice)
    (member : choice ∈ c.pairChoices facts table) :
    choice.first.2 < choice.second.2 ∧ c.leaves[choice.first.2]? = some choice.first.1 ∧
      c.leaves[choice.second.2]? = some choice.second.1 := by
  simp only [Chain.pairChoices, List.mem_map, Prod.exists] at member
  obtain ⟨a, i, b, j, listed, rfl⟩ := member
  obtain ⟨p, q, less, atP, atQ⟩ := (mem_list_pairs _ _ _).mp listed
  simp only [List.getElem?_zipIdx, Nat.zero_add, Option.map_eq_some_iff, Prod.mk.injEq] at atP atQ
  obtain ⟨x, foundX, rfl, rfl⟩ := atP
  obtain ⟨y, foundY, rfl, rfl⟩ := atQ
  exact ⟨less, foundX, foundY⟩

theorem better_fold_mem (choices : List PairChoice) (start : Option PairChoice) (best : PairChoice)
    (chosen : choices.foldl PairChoice.better start = some best) : best ∈ choices ∨ start = some best := by
  induction choices generalizing start with
  | nil => exact Or.inr chosen
  | cons a rest ih =>
      rcases ih (PairChoice.better start a) chosen with later | here
      · exact Or.inl (List.mem_cons_of_mem a later)
      · cases start with
        | none => exact Or.inl (by simp [Option.some.inj here])
        | some b =>
            by_cases wins : a.beats b = true
            · exact Or.inl (by simp [PairChoice.better, wins] at here; simp [here])
            · exact Or.inr (by simpa [PairChoice.better, wins] using here)

theorem best_pair_mem (c : Chain) (facts : Facts) (table : PairTable) (best : PairChoice)
    (chosen : c.bestPair? facts table = some best) : best ∈ c.pairChoices facts table ∧ 2 ≤ best.count := by
  rcases better_fold_mem _ none best chosen with member | impossible
  · simpa using List.mem_filter.mp member
  · cases impossible

-- The second swap leaves the first place alone, and the first leaves alone what the second puts behind it.
theorem swapped_front {α : Type} (items : List α) (i j : Nat) (a b : α) (less : i < j) (atI : items[i]? = some a)
    (atJ : items[j]? = some b) :
    ∃ rest, (items.swap 0 i).swap 1 j = a :: b :: rest ∧ (a :: b :: rest).Perm items := by
  obtain ⟨insideI, rfl⟩ := List.getElem?_eq_some_iff.mp atI
  obtain ⟨insideJ, rfl⟩ := List.getElem?_eq_some_iff.mp atJ
  have perm : ((items.swap 0 i).swap 1 j).Perm items := (List.swap_perm _ 1 j).trans (List.swap_perm items 0 i)
  obtain ⟨x, y, rest, whole⟩ : ∃ x y rest, (items.swap 0 i).swap 1 j = x :: y :: rest := by
    match (items.swap 0 i).swap 1 j, perm.length_eq with
    | x :: y :: rest, _ => exact ⟨x, y, rest, rfl⟩
    | [_], short => exact absurd short (by simp; omega)
    | [], short => exact absurd short (by simp; omega)
  have first : ((items.swap 0 i).swap 1 j)[0]? = some items[i] := by
    rw [List.getElem?_eq_getElem (by simp; omega), List.getElem_swap_of_ne (by omega) (by omega),
      List.getElem_swap_left_of_lt insideI]
  have second : ((items.swap 0 i).swap 1 j)[1]? = some items[j] := by
    rw [List.getElem?_eq_getElem (by simp; omega), List.getElem_swap_left_of_lt (by simpa using insideJ),
      List.getElem_swap_of_ne (by omega) (by omega)]
  rw [whole] at first second perm
  cases first
  cases second
  exact ⟨rest, whole, perm⟩

theorem pick_perm {α : Type} (items : List α) (i : Nat) (a : α) (found : items[i]? = some a) :
    (a :: items.eraseIdx i).Perm items := by
  obtain ⟨inside, rfl⟩ := List.getElem?_eq_some_iff.mp found
  exact List.getElem_cons_eraseIdx_perm inside

def PairChoice.leaves (choice : PairChoice) : List Scalar := [choice.first.1, choice.second.1]

def Chain.without (c : Chain) (choice : PairChoice) : List Scalar :=
  (c.leaves.eraseIdx choice.second.2).eraseIdx choice.first.2

section Pin

variable (c : Chain) (facts : Facts) (table : PairTable) (choice : PairChoice) (member : choice ∈ c.pairChoices facts table)
include member

theorem choice_perm : (choice.leaves ++ c.without choice).Perm c.leaves := by
  obtain ⟨less, atFirst, atSecond⟩ := mem_pair_choices c facts table choice member
  have firstKept : (c.leaves.eraseIdx choice.second.2)[choice.first.2]? = some choice.first.1 := by
    rw [List.getElem?_eraseIdx_of_lt less, atFirst]
  calc (choice.leaves ++ c.without choice).Perm (choice.second.1 :: choice.first.1 :: c.without choice) :=
        List.Perm.swap _ _ _
    List.Perm _ (choice.second.1 :: c.leaves.eraseIdx choice.second.2) := (pick_perm _ _ _ firstKept).cons _
    List.Perm _ c.leaves := pick_perm _ _ _ atSecond

-- The swaps leave the other leaves in some order of their own, but sorting does not depend on it.
theorem pin_sorted : c.pin facts choice = facts.sortLeaves choice.leaves ++ facts.sortLeaves (c.without choice) := by
  obtain ⟨less, atFirst, atSecond⟩ := mem_pair_choices c facts table choice member
  obtain ⟨rest, swapped, perm⟩ := swapped_front c.leaves _ _ _ _ less atFirst atSecond
  have behind : rest.Perm (c.without choice) :=
    (List.perm_append_left_iff choice.leaves).mp (perm.trans (choice_perm c facts table choice member).symm)
  rw [Chain.pin, Array.toList_swapIfInBounds, Array.toList_swapIfInBounds, swapped]
  dsimp only
  rw [sort_leaves_congr facts rest _ behind, PairChoice.leaves, sort_leaves_pair]
  split <;> rfl

theorem pin_perm : (c.pin facts choice).Perm c.leaves := by
  rw [pin_sorted c facts table choice member]
  exact ((sort_leaves_perm facts _).append (sort_leaves_perm facts _)).trans (choice_perm c facts table choice member)

end Pin

theorem arrange_perm (c : Chain) (facts : Facts) (table : Option PairTable) (arrangement : Arrangement)
    (arranged : c.arrange? facts table = some arrangement) : arrangement.leaves.Perm c.leaves := by
  simp only [Chain.arrange?] at arranged
  cases pair : if c.policy.sharePair then table.bind (c.bestPair? facts) else none with
  | none =>
      rw [pair] at arranged
      by_cases sorts : c.policy.sortByRank = true
      · simp only [sorts, if_true, Option.some.injEq] at arranged
        rw [← arranged]
        exact sort_leaves_perm facts c.leaves
      · simp [sorts] at arranged
  | some choice =>
      rw [pair] at arranged
      simp only [Option.some.injEq] at arranged
      by_cases shares : c.policy.sharePair = true
      · rw [if_pos shares, Option.bind_eq_some_iff] at pair
        obtain ⟨known, _, chosen⟩ := pair
        rw [← arranged]
        exact pin_perm c facts known choice (best_pair_mem c facts known choice chosen).1
      · simp [shares] at pair

end Regroup
