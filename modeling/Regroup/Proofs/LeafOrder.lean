import Mathlib
import Regroup.Chain.Attempt
import Regroup.Proofs.Pairing

set_option autoImplicit false

namespace Regroup

def Chain.Pins (c : Chain) (table : Option PairTable) : Prop :=
  c.policy.sharePair = true ∧ ∃ t, table = some t ∧ ∃ a b, c.HoldsPair a b ∧ 2 ≤ t.count (PairKey.of c.op a b)

def Chain.Prefers (c : Chain) (facts : Facts) (t : PairTable) (x y a b : Scalar) : Prop :=
  t.count (PairKey.of c.op a b) < t.count (PairKey.of c.op x y) ∨
    (t.count (PairKey.of c.op a b) = t.count (PairKey.of c.op x y) ∧
      (max (facts.rank x) (facts.rank y) < max (facts.rank a) (facts.rank b) ∨
        (max (facts.rank x) (facts.rank y) = max (facts.rank a) (facts.rank b) ∧
          lexLe (PairKey.of c.op x y).order (PairKey.of c.op a b).order = true)))

structure Chain.Favours (c : Chain) (facts : Facts) (t : PairTable) (x y : Scalar) : Prop where
  held : c.HoldsPair x y
  common : 2 ≤ t.count (PairKey.of c.op x y)
  best : ∀ a b, c.HoldsPair a b → c.Prefers facts t x y a b
  inOrder : facts.InOrder x y

-- The leaves in their final order, the first `pinned` of them in front for a reason of their own.
def Chain.ArrangedAs (c : Chain) (facts : Facts) (table : Option PairTable) (leaves : List Scalar) (pinned : Nat) : Prop :=
  leaves.Perm c.leaves ∧
    ((pinned = 0 ∧ ¬ c.Pins table ∧ c.policy.sortByRank = true ∧ leaves.Pairwise facts.InOrder) ∨
      (pinned = 2 ∧ c.Pins table ∧ ∃ t x y rest, table = some t ∧ c.Favours facts t x y ∧ leaves = x :: y :: rest ∧
        rest.Pairwise facts.InOrder))

section Unique

variable (c : Chain) (facts : Facts)

theorem prefers_antisymm (t : PairTable) (x y a b : Scalar) (first : c.Prefers facts t x y a b)
    (second : c.Prefers facts t a b x y) : PairKey.of c.op x y = PairKey.of c.op a b := by
  have op : (PairKey.of c.op x y).op = (PairKey.of c.op a b).op := by
    rw [(pair_key_parts c.op x y).1, (pair_key_parts c.op a b).1]
  rcases first with less | ⟨count, first⟩
  · rcases second with more | ⟨count, _⟩ <;> omega
  · rcases second with more | ⟨_, second⟩
    · omega
    · rcases first with lower | ⟨rank, le⟩
      · rcases second with higher | ⟨rank, _⟩ <;> omega
      · rcases second with higher | ⟨_, ge⟩
        · omega
        · exact pair_key_order_injective _ _ op (lex_antisymm _ _ le ge)

theorem favours_unique (t : PairTable) (x y a b : Scalar) (first : c.Favours facts t x y) (second : c.Favours facts t a b) :
    x = a ∧ y = b := by
  have key := prefers_antisymm c facts t x y a b (first.best a b second.held) (second.best x y first.held)
  have perm : [x, y].Perm [a, b] := by
    refine (pair_key_parts c.op x y).2.symm.trans ?_
    rw [key]
    exact (pair_key_parts c.op a b).2
  rcases List.perm_pair.mp perm with equal | swapped
  · cases equal
    exact ⟨rfl, rfl⟩
  · cases swapped
    have same := sort_key_injective facts x y first.inOrder second.inOrder
    exact ⟨same, same.symm⟩

theorem arranged_unique (table : Option PairTable) (leaves others : List Scalar) (pinned count : Nat)
    (first : c.ArrangedAs facts table leaves pinned) (second : c.ArrangedAs facts table others count) :
    leaves = others ∧ pinned = count := by
  obtain ⟨perm, ⟨rfl, loose, _, sorted⟩ | ⟨rfl, pins, t, x, y, rest, found, favours, rfl, sorted⟩⟩ := first
  · obtain ⟨also, ⟨rfl, _, _, again⟩ | ⟨_, pins, _⟩⟩ := second
    · exact ⟨sorted_unique facts _ _ sorted again (perm.trans also.symm), rfl⟩
    · exact absurd pins loose
  · obtain ⟨also, ⟨_, loose, _⟩ | ⟨rfl, _, u, a, b, left, same, favoured, rfl, again⟩⟩ := second
    · exact absurd pins loose
    · rw [found] at same
      cases same
      obtain ⟨rfl, rfl⟩ := favours_unique c facts t x y a b favours favoured
      have remaining := (List.perm_cons y).mp ((List.perm_cons x).mp (perm.trans also.symm))
      rw [sorted_unique facts rest left sorted again remaining]
      exact ⟨rfl, rfl⟩

end Unique

section Reordered

variable (c : Chain) (facts : Facts) (leaves : List Scalar) (perm : leaves.Perm c.leaves)
include perm

theorem holds_pair_reordered (a b : Scalar) : { c with leaves }.HoldsPair a b ↔ c.HoldsPair a b := by
  rw [holds_pair_iff, holds_pair_iff]
  exact ⟨fun within => within.trans perm.subperm, fun within => within.trans perm.symm.subperm⟩

theorem pins_reordered (table : Option PairTable) : { c with leaves }.Pins table ↔ c.Pins table := by
  simp only [Chain.Pins, holds_pair_reordered c leaves perm]

theorem favours_reordered (t : PairTable) (x y : Scalar) (favours : { c with leaves }.Favours facts t x y) :
    c.Favours facts t x y where
  held := (holds_pair_reordered c leaves perm x y).mp favours.held
  common := favours.common
  best a b held := favours.best a b ((holds_pair_reordered c leaves perm a b).mpr held)
  inOrder := favours.inOrder

theorem arranged_reordered (table : Option PairTable) (final : List Scalar) (pinned : Nat)
    (arranged : { c with leaves }.ArrangedAs facts table final pinned) : c.ArrangedAs facts table final pinned := by
  obtain ⟨also, either⟩ := arranged
  refine ⟨also.trans perm, ?_⟩
  rw [pins_reordered c leaves perm] at either
  rcases either with loose | ⟨two, pins, t, x, y, rest, found, favours, split, sorted⟩
  · exact Or.inl loose
  · exact Or.inr ⟨two, pins, t, x, y, rest, found, favours_reordered c facts leaves perm t x y favours, split, sorted⟩

end Reordered

section Arranged

variable (c : Chain) (facts : Facts)

theorem best_pair_exists_iff (t : PairTable) : (∃ best, c.bestPair? facts t = some best) ↔
    ∃ a b, c.HoldsPair a b ∧ 2 ≤ t.count (PairKey.of c.op a b) := by
  constructor
  · intro found
    obtain ⟨best, chosen⟩ := found
    obtain ⟨member, common⟩ := best_pair_mem c facts t best chosen
    obtain ⟨_, count, _⟩ := pair_choice_weight c facts t best member _ _ (List.Perm.refl _)
    exact ⟨_, _, (holds_pair_iff c _ _).mpr (pair_choice_mem c facts t best member).1, count ▸ common⟩
  · intro found
    obtain ⟨a, b, held, common⟩ := found
    obtain ⟨choice, member, perm⟩ := pair_choice_exists c facts t a b ((holds_pair_iff c a b).mp held)
    obtain ⟨_, count, _⟩ := pair_choice_weight c facts t choice member a b perm
    by_contra nothing
    rw [← Option.ne_none_iff_exists', not_not, best_pair_none_iff] at nothing
    exact nothing choice member (count ▸ common)

theorem best_pair_favoured (t : PairTable) (best : PairChoice) (chosen : c.bestPair? facts t = some best) :
    ∃ x y, facts.sortLeaves best.leaves = [x, y] ∧ c.Favours facts t x y := by
  obtain ⟨member, common⟩ := best_pair_mem c facts t best chosen
  have perm := sort_leaves_perm facts best.leaves
  have inOrder := sort_leaves_sorted facts best.leaves
  obtain ⟨x, y, sorted⟩ := List.length_eq_two.mp perm.length_eq
  rw [sorted] at perm inOrder
  obtain ⟨key, count, rank⟩ := pair_choice_weight c facts t best member x y perm.symm
  rw [count] at common
  refine ⟨x, y, sorted, ?_, common, fun a b held => ?_, List.rel_of_pairwise_cons inOrder (by simp)⟩
  · exact (holds_pair_iff c x y).mpr (perm.subperm.trans (pair_choice_mem c facts t best member).1)
  · obtain ⟨choice, listed, alike⟩ := pair_choice_exists c facts t a b ((holds_pair_iff c a b).mp held)
    obtain ⟨keyA, countA, rankA⟩ := pair_choice_weight c facts t choice listed a b alike
    by_cases rare : t.count (PairKey.of c.op a b) < 2
    · exact Or.inl (by omega)
    · have unbeaten := best_pair_unbeaten c facts t best chosen choice listed (by omega)
      rw [unbeaten_iff, key, keyA, count, countA, rank, rankA, eq_comm (a := max (facts.rank a) (facts.rank b))] at unbeaten
      exact unbeaten

theorem pin_front (t : PairTable) (best : PairChoice) (x y : Scalar) (chosen : c.bestPair? facts t = some best)
    (sorted : facts.sortLeaves best.leaves = [x, y]) :
    c.pin facts best = x :: y :: facts.sortLeaves (c.without best) := by
  rw [pin_sorted c facts t best (best_pair_mem c facts t best chosen).1, sorted]
  rfl

theorem chosen_pair_iff (table : Option PairTable) :
    (∃ best, (if c.policy.sharePair then table.bind (c.bestPair? facts) else none) = some best) ↔ c.Pins table := by
  rw [Chain.Pins]
  by_cases shares : c.policy.sharePair = true
  · simp only [shares, ↓reduceIte, true_and, Option.bind_eq_some_iff]
    constructor
    · intro found
      obtain ⟨best, t, given, chosen⟩ := found
      exact ⟨t, given, (best_pair_exists_iff c facts t).mp ⟨best, chosen⟩⟩
    · intro found
      obtain ⟨t, given, pair⟩ := found
      obtain ⟨best, chosen⟩ := (best_pair_exists_iff c facts t).mpr pair
      exact ⟨best, t, given, chosen⟩
  · simp [shares]

theorem arrange_none_iff (table : Option PairTable) :
    c.arrange? facts table = none ↔ ¬ c.Pins table ∧ c.policy.sortByRank = false := by
  rw [← chosen_pair_iff c facts table, Chain.arrange?]
  cases (if c.policy.sharePair then table.bind (c.bestPair? facts) else none) with
  | none => cases c.policy.sortByRank <;> simp
  | some best => simp

theorem arrange_arranged (table : Option PairTable) (arrangement : Arrangement)
    (arranged : c.arrange? facts table = some arrangement) :
    c.ArrangedAs facts table arrangement.leaves arrangement.pinnedCount := by
  refine ⟨arrange_perm c facts table arrangement arranged, ?_⟩
  have pins := chosen_pair_iff c facts table
  rw [Chain.arrange?] at arranged
  cases pair : (if c.policy.sharePair then table.bind (c.bestPair? facts) else none) with
  | none =>
      rw [pair] at pins arranged
      have loose : ¬ c.Pins table := by
        rw [← pins]
        simp
      by_cases sorts : c.policy.sortByRank = true
      · simp only [sorts, ↓reduceIte, Option.some.injEq] at arranged
        rw [← arranged]
        exact Or.inl ⟨rfl, loose, sorts, sort_leaves_sorted facts c.leaves⟩
      · simp [sorts] at arranged
  | some best =>
      rw [pair] at pins arranged
      simp only [Option.some.injEq] at arranged
      have pinned : c.Pins table := pins.mp ⟨best, rfl⟩
      rw [if_pos pinned.1, Option.bind_eq_some_iff] at pair
      obtain ⟨t, given, chosen⟩ := pair
      obtain ⟨x, y, sorted, favours⟩ := best_pair_favoured c facts t best chosen
      have front := pin_front c facts t best x y chosen sorted
      rw [← arranged]
      exact Or.inr ⟨rfl, pinned, t, x, y, _, given, favours, front, sort_leaves_sorted facts _⟩

end Arranged

theorem rebuild_leaves (f g : Func) (facts : Facts) (table : Option PairTable) (c : Chain) (attempt : Attempt)
    (long : 2 ≤ c.length) (done : f.rebuild facts table c = .ok (g, attempt)) :
    attempt.chain = { c with leaves := ((c.arrange? facts table).map Arrangement.leaves).getD c.leaves } := by
  rw [Func.rebuild, if_neg (Nat.not_lt.mpr long)] at done
  cases arranged : c.arrange? facts table with
  | none =>
      rw [arranged] at done
      cases done
      rfl
  | some arrangement =>
      rw [arranged] at done
      dsimp only at done
      cases made : Grouping.ofLeaves? arrangement.pinnedCount arrangement.leaves with
      | none =>
          rw [made] at done
          cases done
          rfl
      | some grouping =>
          rw [made] at done
          dsimp only [bind, Except.bind] at done
          cases carried : grouping.carryOut f facts { c with leaves := arrangement.leaves } with
          | error e =>
              rw [carried] at done
              cases done
          | ok result =>
              rw [carried] at done
              cases done
              rfl

theorem leaf_order_canonical (c : Chain) (facts : Facts) (table : Option PairTable) :
    (c.arrange? facts table = none ↔ ¬ c.Pins table ∧ c.policy.sortByRank = false) ∧
    (∀ arrangement, c.arrange? facts table = some arrangement → arrangement.leaves.Perm c.leaves ∧
      (¬ c.Pins table → arrangement.pinnedCount = 0 ∧ arrangement.leaves.Pairwise facts.InOrder) ∧
      (c.Pins table → arrangement.pinnedCount = 2 ∧ ∃ t x y rest, table = some t ∧ c.Favours facts t x y ∧
        arrangement.leaves = x :: y :: rest ∧ rest.Pairwise facts.InOrder)) ∧
    (∀ (f g : Func) (attempt : Attempt), 2 ≤ c.length → f.rebuild facts table c = .ok (g, attempt) →
      attempt.chain = { c with leaves := ((c.arrange? facts table).map Arrangement.leaves).getD c.leaves }) ∧
    ∀ leaves : List Scalar, leaves.Perm c.leaves →
      ({ c with leaves }.arrange? facts table).map (fun a : Arrangement => (a.leaves, a.pinnedCount)) =
        (c.arrange? facts table).map fun a => (a.leaves, a.pinnedCount) := by
  refine ⟨arrange_none_iff c facts table, fun arrangement arranged => ?_, fun f g attempt long done => ?_,
    fun leaves perm => ?_⟩
  · obtain ⟨perm, ⟨count, loose, _, sorted⟩ | ⟨count, pins, pair⟩⟩ := arrange_arranged c facts table arrangement arranged
    · exact ⟨perm, fun _ => ⟨count, sorted⟩, fun pins => absurd pins loose⟩
    · exact ⟨perm, fun loose => absurd pins loose, fun _ => ⟨count, pair⟩⟩
  · exact rebuild_leaves f g facts table c attempt long done
  -- both orders satisfy one description of the arrangement, which only one list satisfies
  · have nothing : { c with leaves }.arrange? facts table = none ↔ c.arrange? facts table = none := by
      rw [arrange_none_iff, arrange_none_iff, pins_reordered c leaves perm]
    cases here : c.arrange? facts table with
    | none => rw [nothing.mpr here]
    | some arrangement =>
        cases there : { c with leaves }.arrange? facts table with
        | none =>
            rw [nothing.mp there] at here
            cases here
        | some other =>
            have first := arrange_arranged c facts table arrangement here
            have second := arranged_reordered c facts leaves perm table _ _ (arrange_arranged _ facts table other there)
            obtain ⟨same, count⟩ := arranged_unique c facts table _ _ _ _ second first
            rw [Option.map_some, Option.map_some, same, count]

def fourLeaves : Func where
  name := "four"
  blocks := [⟨0, [.input 0 0 1 false, .input 1 1 1 false, .const 2 [.int 5], .input 3 2 1 false], .ret none⟩]
  next := 4
  divergence := none

def fourChain (leaves : List Scalar) : Chain := ⟨⟨0, 3⟩, .iadd, leaves, false, 0, ⟨true, true⟩⟩

-- Two chains have added the second and the last input.
def fourTable : PairTable := ⟨[(⟨.iadd, .of 1, .of 3⟩, 2)]⟩

theorem four_leaves_ordered :
    (fourChain [.of 3, .of 0, .of 2, .of 1]).Pins (some fourTable) ∧
    (∀ leaves : List Scalar, leaves.Perm [.of 3, .of 0, .of 2, .of 1] →
      ((fourChain leaves).arrange? fourLeaves.facts (some fourTable)).map (fun a : Arrangement => (a.leaves, a.pinnedCount)) =
        some ([.of 1, .of 3, .of 2, .of 0], 2)) ∧
    ¬ (fourChain [.of 3, .of 0, .of 2, .of 1]).Pins none ∧
    (fourChain [.of 3, .of 0, .of 2, .of 1]).arrange? fourLeaves.facts none =
      some ⟨[.of 2, .of 0, .of 1, .of 3], none⟩ := by
  obtain ⟨_, arranged, _, reordered⟩ :=
    leaf_order_canonical (fourChain [.of 3, .of 0, .of 2, .of 1]) fourLeaves.facts (some fourTable)
  have evaluated : ((fourChain [.of 3, .of 0, .of 2, .of 1]).arrange? fourLeaves.facts (some fourTable)).map
      (fun a : Arrangement => (a.leaves, a.pinnedCount)) = some ([.of 1, .of 3, .of 2, .of 0], 2) := by decide +kernel
  obtain ⟨arrangement, found, parts⟩ := Option.map_eq_some_iff.mp evaluated
  refine ⟨?_, fun leaves perm => (reordered leaves perm).trans evaluated, ?_, by decide +kernel⟩
  · by_contra loose
    have none_pinned := ((arranged arrangement found).2.1 loose).1
    rw [(Prod.mk.inj parts).2] at none_pinned
    cases none_pinned
  · rintro ⟨_, t, given, _⟩
    cases given

end Regroup
