import Mathlib
import Regroup.Proofs.Equivariance
import Regroup.Proofs.LeafOrder
import Regroup.Proofs.Persistence

set_option autoImplicit false

namespace Regroup

theorem lex_cons_congr (a b c d : Nat) (as bs cs ds : List Nat) (less : a < b ↔ c < d) (same : a = b ↔ c = d)
    (rest : lexLe as bs = lexLe cs ds) : lexLe (a :: as) (b :: bs) = lexLe (c :: cs) (d :: ds) := by
  simp only [lex_cons, rest, decide_eq_decide.mpr less, decide_eq_decide.mpr same]

theorem min_perm (xs ys : List Nat) (perm : xs.Perm ys) : xs.min? = ys.min? := by
  apply Option.ext
  intro a
  simp only [List.min?_eq_some_iff, perm.mem_iff]

theorem max_perm (xs ys : List Nat) (perm : xs.Perm ys) : xs.max? = ys.max? := by
  apply Option.ext
  intro a
  simp only [List.max?_eq_some_iff, perm.mem_iff]

def Func.Knows (f : Func) (leaves : List Scalar) : Prop := ∀ s ∈ leaves, s.value < f.next

section Carried

variable (h g : Func) (ρ : Value → Value) (carried : h.Carried g ρ)
include carried

theorem carried_less (v w : Value) (knownV : v < h.next) (knownW : w < h.next) : ρ v < ρ w ↔ v < w := by
  refine ⟨fun less => ?_, fun less => carried.ascending v w less knownW⟩
  rcases Nat.lt_trichotomy v w with before | same | after
  · exact before
  · rw [same] at less
    exact absurd less (Nat.lt_irrefl _)
  · exact absurd less (Nat.lt_asymm (carried.ascending w v after knownV))

theorem carried_same (v w : Value) (knownV : v < h.next) (knownW : w < h.next) : ρ v = ρ w ↔ v = w := by
  refine ⟨fun same => ?_, congrArg ρ⟩
  rcases Nat.lt_trichotomy v w with before | equal | after
  · exact absurd same (Nat.ne_of_lt (carried.ascending v w before knownW))
  · exact equal
  · exact absurd same.symm (Nat.ne_of_lt (carried.ascending w v after knownV))

theorem carried_scalar (s t : Scalar) (knownS : s.value < h.next) (knownT : t.value < h.next) :
    s.renamed ρ = t.renamed ρ ↔ s = t := by
  obtain ⟨v, c⟩ := s
  obtain ⟨w, d⟩ := t
  simp only [Scalar.renamed, Scalar.mk.injEq, carried_same h g ρ carried v w knownS knownT]

theorem carried_sort_key (s t : Scalar) (knownS : s.value < h.next) (knownT : t.value < h.next) :
    lexLe (g.facts.sortKey (s.renamed ρ)) (g.facts.sortKey (t.renamed ρ)) =
      lexLe (h.facts.sortKey s) (h.facts.sortKey t) := by
  rw [Facts.sortKey, Facts.sortKey, carried.ranks s knownS, carried.ranks t knownT]
  refine lex_cons_congr _ _ _ _ _ _ _ _ Iff.rfl Iff.rfl (lex_cons_congr _ _ _ _ _ _ _ _ ?_ ?_ rfl)
  · exact carried_less h g ρ carried _ _ knownS knownT
  · exact carried_same h g ρ carried _ _ knownS knownT

theorem carried_sort (leaves others : List Scalar) (known : h.Knows leaves)
    (perm : others.Perm (leaves.map (Scalar.renamed ρ))) :
    g.facts.sortLeaves others = (h.facts.sortLeaves leaves).map (Scalar.renamed ρ) := by
  have sorted := sort_leaves_sorted h.facts leaves
  have same := sort_leaves_perm h.facts leaves
  refine sorted_unique g.facts _ _ (sort_leaves_sorted g.facts others) ?_ ?_
  · rw [List.pairwise_map]
    refine sorted.imp_of_mem fun {s t} inS inT le => ?_
    rw [Facts.InOrder, carried_sort_key h g ρ carried s t (known s (same.mem_iff.mp inS)) (known t (same.mem_iff.mp inT))]
    exact le
  · exact (sort_leaves_perm g.facts others).trans (perm.trans (same.map _).symm)

theorem carried_key (op : Op) (s t : Scalar) (knownS : s.value < h.next) (knownT : t.value < h.next) :
    PairKey.of op (s.renamed ρ) (t.renamed ρ) =
      ⟨op, (PairKey.of op s t).low.renamed ρ, (PairKey.of op s t).high.renamed ρ⟩ := by
  have order : lexLe (s.renamed ρ).key (t.renamed ρ).key = lexLe s.key t.key :=
    lex_cons_congr _ _ _ _ _ _ _ _ (carried_less h g ρ carried _ _ knownS knownT)
      (carried_same h g ρ carried _ _ knownS knownT) rfl
  rw [PairKey.of, PairKey.of, order]
  split <;> rfl

theorem carried_key_order (op : Op) (s t u v : Scalar) (knownS : s.value < h.next) (knownT : t.value < h.next)
    (knownU : u.value < h.next) (knownV : v.value < h.next) :
    lexLe (PairKey.of op (s.renamed ρ) (t.renamed ρ)).order (PairKey.of op (u.renamed ρ) (v.renamed ρ)).order =
      lexLe (PairKey.of op s t).order (PairKey.of op u v).order := by
  have inside (a b : Scalar) (knownA : a.value < h.next) (knownB : b.value < h.next) :
      (PairKey.of op a b).low.value < h.next ∧ (PairKey.of op a b).high.value < h.next := by
    rw [PairKey.of]
    split
    · exact ⟨knownA, knownB⟩
    · exact ⟨knownB, knownA⟩
  obtain ⟨lowS, highT⟩ := inside s t knownS knownT
  obtain ⟨lowU, highV⟩ := inside u v knownU knownV
  rw [carried_key h g ρ carried op s t knownS knownT, carried_key h g ρ carried op u v knownU knownV]
  refine lex_cons_congr _ _ _ _ _ _ _ _ ?_ ?_ (lex_cons_congr _ _ _ _ _ _ _ _ ?_ ?_ ?_)
  · exact carried_less h g ρ carried _ _ lowS lowU
  · exact carried_same h g ρ carried _ _ lowS lowU
  · exact carried_less h g ρ carried _ _ highT highV
  · exact carried_same h g ρ carried _ _ highT highV
  · rw [(pair_key_parts op s t).1, (pair_key_parts op u v).1]
    rfl

end Carried

-- Two chains with corresponding leaves, rooted in the same block.
structure Chain.Echoes (h : Func) (ρ : Value → Value) (c d : Chain) : Prop where
  op : d.op = c.op
  block : d.root.block = c.root.block
  leaves : d.leaves.Perm (c.leaves.map (Scalar.renamed ρ))
  known : h.Knows c.leaves

section Echoes

variable (h g : Func) (ρ : Value → Value) (carried : h.Carried g ρ) (c d : Chain) (echoes : c.Echoes h ρ d)
include echoes

theorem echo_length : d.length = c.length := by
  rw [Chain.length, echoes.leaves.length_eq, List.length_map, Chain.length]

include carried

theorem echo_profile : d.profile g.facts = c.profile h.facts := by
  have ranks : (d.leaves.map g.facts.rank).Perm (c.leaves.map h.facts.rank) := by
    refine (echoes.leaves.map _).trans (List.Perm.of_eq ?_)
    rw [List.map_map]
    exact List.map_congr_left fun s member => carried.ranks s (echoes.known s member)
  have place : (d.leaves.all fun s => (g.facts.site? s.value).any (·.block = d.root.block)) =
      c.leaves.all fun s => (h.facts.site? s.value).any (·.block = c.root.block) := by
    rw [echoes.leaves.all_eq, List.all_map, echoes.block, Bool.eq_iff_iff, List.all_eq_true, List.all_eq_true]
    refine forall₂_congr fun s member => ?_
    have same := carried.blocks s.value (echoes.known s member)
    have through (site? : Option Site) :
        site?.any (·.block = c.root.block) = (site?.map Site.block).any (· = c.root.block) := by
      cases site? <;> rfl
    rw [Function.comp, through, through, ← same]
    rfl
  simp only [Chain.profile, min_perm _ _ ranks, max_perm _ _ ranks, ranks.count_eq, place]

end Echoes

section Choices

variable (h g : Func) (ρ : Value → Value) (carried : h.Carried g ρ) (c d : Chain) (echoes : c.Echoes h ρ d)
  (t u : PairTable) (counts : ∀ s v : Scalar, s.value < h.next → v.value < h.next →
    u.count (PairKey.of c.op (s.renamed ρ) (v.renamed ρ)) = t.count (PairKey.of c.op s v))
include echoes

theorem choice_known (a : PairChoice) (member : a ∈ c.pairChoices h.facts t) :
    a.first.1.value < h.next ∧ a.second.1.value < h.next := by
  have within := (pair_choice_mem c h.facts t a member).1.subset
  exact ⟨echoes.known _ (within (by simp [PairChoice.leaves])), echoes.known _ (within (by simp [PairChoice.leaves]))⟩

theorem choice_after (a : PairChoice) (member : a ∈ c.pairChoices h.facts t) :
    ∃ b ∈ d.pairChoices g.facts u, b.leaves.Perm (a.leaves.map (Scalar.renamed ρ)) := by
  have within := subperm_map (Scalar.renamed ρ) _ _ (pair_choice_mem c h.facts t a member).1
  exact pair_choice_exists d g.facts u _ _ (within.trans echoes.leaves.symm.subperm)

theorem choice_before (b : PairChoice) (member : b ∈ d.pairChoices g.facts u) :
    ∃ a ∈ c.pairChoices h.facts t, b.leaves.Perm (a.leaves.map (Scalar.renamed ρ)) := by
  have within := (pair_choice_mem d g.facts u b member).1.trans echoes.leaves.subperm
  obtain ⟨x, y, inside, perm⟩ := pair_subperm_map _ _ _ _ within
  obtain ⟨a, found, same⟩ := pair_choice_exists c h.facts t x y inside.subperm
  exact ⟨a, found, perm.symm.trans (same.map _).symm⟩

include carried counts

theorem echo_choice (a b : PairChoice) (inC : a ∈ c.pairChoices h.facts t) (inD : b ∈ d.pairChoices g.facts u)
    (perm : b.leaves.Perm (a.leaves.map (Scalar.renamed ρ))) : b.count = a.count ∧ b.rank = a.rank ∧
      b.key = PairKey.of c.op (a.first.1.renamed ρ) (a.second.1.renamed ρ) := by
  obtain ⟨_, keyA, countA, rankA⟩ := pair_choice_mem c h.facts t a inC
  obtain ⟨_, keyB, countB, rankB⟩ := pair_choice_mem d g.facts u b inD
  obtain ⟨knownFirst, knownSecond⟩ := choice_known h ρ c d echoes t a inC
  have key : b.key = PairKey.of c.op (a.first.1.renamed ρ) (a.second.1.renamed ρ) := by
    rw [keyB, echoes.op]
    exact pair_key_perm c.op _ _ _ _ perm
  refine ⟨?_, ?_, key⟩
  · rw [countB, countA, key, keyA]
    exact counts _ _ knownFirst knownSecond
  · rw [rankB, rankA, ← carried.ranks _ knownFirst, ← carried.ranks _ knownSecond]
    rcases List.perm_pair.mp perm with equal | swapped
    · obtain ⟨first, rest⟩ := List.cons.inj equal
      rw [first, (List.cons.inj rest).1]
    · obtain ⟨first, rest⟩ := List.cons.inj swapped
      rw [first, (List.cons.inj rest).1, Nat.max_comm]

theorem echo_beats (a b x y : PairChoice) (inA : a ∈ c.pairChoices h.facts t) (inB : b ∈ c.pairChoices h.facts t)
    (inX : x ∈ d.pairChoices g.facts u) (inY : y ∈ d.pairChoices g.facts u)
    (permA : x.leaves.Perm (a.leaves.map (Scalar.renamed ρ))) (permB : y.leaves.Perm (b.leaves.map (Scalar.renamed ρ))) :
    x.beats y = a.beats b := by
  obtain ⟨countX, rankX, keyX⟩ := echo_choice h g ρ carried c d echoes t u counts a x inA inX permA
  obtain ⟨countY, rankY, keyY⟩ := echo_choice h g ρ carried c d echoes t u counts b y inB inY permB
  obtain ⟨firstA, secondA⟩ := choice_known h ρ c d echoes t a inA
  obtain ⟨firstB, secondB⟩ := choice_known h ρ c d echoes t b inB
  rw [PairChoice.beats, PairChoice.beats, countX, countY, rankX, rankY, keyX, keyY,
    (pair_choice_mem c h.facts t a inA).2.1, (pair_choice_mem c h.facts t b inB).2.1,
    carried_key_order h g ρ carried c.op _ _ _ _ firstB secondB firstA secondA]

theorem echo_best_none : d.bestPair? g.facts u = none ↔ c.bestPair? h.facts t = none := by
  rw [best_pair_none_iff, best_pair_none_iff]
  constructor
  · intro rare a inC
    obtain ⟨b, inD, perm⟩ := choice_after h g ρ c d echoes t u a inC
    rw [← (echo_choice h g ρ carried c d echoes t u counts a b inC inD perm).1]
    exact rare b inD
  · intro rare b inD
    obtain ⟨a, inC, perm⟩ := choice_before h g ρ c d echoes t u b inD
    rw [(echo_choice h g ρ carried c d echoes t u counts a b inC inD perm).1]
    exact rare a inC

theorem echo_best (best found : PairChoice) (chosen : c.bestPair? h.facts t = some best)
    (picked : d.bestPair? g.facts u = some found) : found.leaves.Perm (best.leaves.map (Scalar.renamed ρ)) := by
  obtain ⟨inC, common⟩ := best_pair_mem c h.facts t best chosen
  obtain ⟨inD, frequent⟩ := best_pair_mem d g.facts u found picked
  obtain ⟨a, inA, permA⟩ := choice_before h g ρ c d echoes t u found inD
  obtain ⟨x, inX, permX⟩ := choice_after h g ρ c d echoes t u best inC
  have countA := (echo_choice h g ρ carried c d echoes t u counts a found inA inD permA).1
  have countX := (echo_choice h g ρ carried c d echoes t u counts best x inC inX permX).1
  have first : a.beats best = false := best_pair_unbeaten c h.facts t best chosen a inA (countA ▸ frequent)
  have second : best.beats a = false := by
    rw [← echo_beats h g ρ carried c d echoes t u counts best a x found inC inA inX inD permX permA]
    exact best_pair_unbeaten d g.facts u found picked x inX (countX ▸ common)
  have keyA := (pair_choice_mem c h.facts t a inA).2.1
  have keyBest := (pair_choice_mem c h.facts t best inC).2.1
  have op : a.key.op = best.key.op := by rw [keyA, keyBest, (pair_key_parts _ _ _).1, (pair_key_parts _ _ _).1]
  have same := unbeaten_same a best op first second
  rw [keyA, keyBest] at same
  have perm : a.leaves.Perm best.leaves := by
    refine (pair_key_parts c.op a.first.1 a.second.1).2.symm.trans ?_
    rw [same]
    exact (pair_key_parts c.op best.first.1 best.second.1).2
  exact permA.trans (perm.map _)

theorem echo_pin (best found : PairChoice) (chosen : c.bestPair? h.facts t = some best)
    (picked : d.bestPair? g.facts u = some found) :
    d.pin g.facts found = (c.pin h.facts best).map (Scalar.renamed ρ) := by
  have inC := (best_pair_mem c h.facts t best chosen).1
  have inD := (best_pair_mem d g.facts u found picked).1
  have pair := echo_best h g ρ carried c d echoes t u counts best found chosen picked
  have wholeC := choice_perm c h.facts t best inC
  have wholeD := choice_perm d g.facts u found inD
  have rest : (d.without found).Perm ((c.without best).map (Scalar.renamed ρ)) := by
    have both := (wholeD.trans echoes.leaves).trans (wholeC.map (Scalar.renamed ρ)).symm
    rw [List.map_append] at both
    exact (List.perm_append_left_iff _).mp ((pair.append_right _).symm.trans both)
  have known : h.Knows (best.leaves ++ c.without best) := fun s member => echoes.known s (wholeC.mem_iff.mp member)
  rw [pin_sorted c h.facts t best inC, pin_sorted d g.facts u found inD, List.map_append]
  congr 1
  · exact carried_sort h g ρ carried best.leaves found.leaves (fun s member => known s (List.mem_append_left _ member)) pair
  · exact carried_sort h g ρ carried _ _ (fun s member => known s (List.mem_append_right _ member)) rest

def Tallied (h : Func) (ρ : Value → Value) (op : Op) (t u : Option PairTable) : Prop :=
  (t = none ∧ u = none) ∨ ∃ first second, t = some first ∧ u = some second ∧ ∀ s v : Scalar, s.value < h.next →
    v.value < h.next → second.count (PairKey.of op (s.renamed ρ) (v.renamed ρ)) = first.count (PairKey.of op s v)

end Choices

theorem echo_chosen (h g : Func) (ρ : Value → Value) (carried : h.Carried g ρ) (c d : Chain) (echoes : c.Echoes h ρ d)
    (policy : d.policy = c.policy) (t u : Option PairTable) (tallied : Tallied h ρ c.op t u) :
    ((if d.policy.sharePair then u.bind (d.bestPair? g.facts) else none) = none ∧
      (if c.policy.sharePair then t.bind (c.bestPair? h.facts) else none) = none) ∨
    ∃ found best, (if d.policy.sharePair then u.bind (d.bestPair? g.facts) else none) = some found ∧
      (if c.policy.sharePair then t.bind (c.bestPair? h.facts) else none) = some best ∧
      d.pin g.facts found = (c.pin h.facts best).map (Scalar.renamed ρ) := by
  rw [policy]
  by_cases shares : c.policy.sharePair = true
  · simp only [shares, ↓reduceIte]
    rcases tallied with ⟨rfl, rfl⟩ | ⟨first, second, rfl, rfl, counts⟩
    · exact Or.inl ⟨rfl, rfl⟩
    · simp only [Option.bind_some]
      have nothing := echo_best_none h g ρ carried c d echoes first second counts
      cases picked : d.bestPair? g.facts second with
      | none => exact Or.inl ⟨rfl, nothing.mp picked⟩
      | some found =>
          cases chosen : c.bestPair? h.facts first with
          | none =>
              rw [nothing.mpr chosen] at picked
              cases picked
          | some best =>
              have pinned := echo_pin h g ρ carried c d echoes first second counts best found chosen picked
              exact Or.inr ⟨found, best, rfl, rfl, pinned⟩
  · simp [shares]

theorem echo_arrange (h g : Func) (ρ : Value → Value) (carried : h.Carried g ρ) (c d : Chain) (echoes : c.Echoes h ρ d)
    (policy : d.policy = c.policy) (t u : Option PairTable) (tallied : Tallied h ρ c.op t u) (arrangement : Arrangement)
    (arranged : d.arrange? g.facts u = some arrangement) : ∃ before, c.arrange? h.facts t = some before ∧
      arrangement.leaves = before.leaves.map (Scalar.renamed ρ) ∧ arrangement.pinnedCount = before.pinnedCount := by
  simp only [Chain.arrange?] at arranged ⊢
  rcases echo_chosen h g ρ carried c d echoes policy t u tallied with
    ⟨noneD, noneC⟩ | ⟨found, best, someD, someC, pinned⟩
  · rw [noneD, policy] at arranged
    rw [noneC]
    by_cases sorts : c.policy.sortByRank = true
    · simp only [sorts, ↓reduceIte, Option.some.injEq] at arranged ⊢
      refine ⟨_, rfl, ?_, by rw [← arranged]; rfl⟩
      rw [← arranged]
      exact carried_sort h g ρ carried c.leaves d.leaves echoes.known echoes.leaves
    · simp [sorts] at arranged
  · rw [someD] at arranged
    rw [someC]
    simp only [Option.some.injEq] at arranged ⊢
    refine ⟨_, rfl, ?_, by rw [← arranged]; rfl⟩
    rw [← arranged]
    exact pinned

def Shape.renamed (ρ : Value → Value) (t : Shape) : Shape := t.map id (Scalar.renamed ρ)

def Grouping.renamed (ρ : Value → Value) (g : Grouping) : Grouping := ⟨g.last.renamed ρ, g.rest.renamed ρ⟩

theorem renamed_extend (ρ : Value → Value) (pinned index : Nat) (acc : Shape) (leaves : List Scalar)
    (apart : ∀ s ∈ leaves, ∀ t ∈ leaves, s.renamed ρ = t.renamed ρ ↔ s = t) :
    Grouping.extend pinned index (acc.renamed ρ) (leaves.map (Scalar.renamed ρ)) =
      (Grouping.extend pinned index acc leaves).map (Grouping.renamed ρ) := by
  fun_induction Grouping.extend pinned index acc leaves with
  | case1 => rfl
  | case2 => rfl
  | case3 index acc s t fused =>
      obtain ⟨free, rfl⟩ := fused
      simp only [List.map_cons, List.map_nil, Grouping.extend, free, and_self, ↓reduceIte]
      rfl
  | case4 index acc s t different =>
      have same := apart s (by simp) t (by simp)
      simp only [List.map_cons, List.map_nil, Grouping.extend, same, different, ↓reduceIte]
      rfl
  | case5 index acc s t u rest fused ih =>
      obtain ⟨free, rfl⟩ := fused
      have later := ih fun x inX y inY => apart x (List.mem_cons_of_mem s (List.mem_cons_of_mem s inX)) y
        (List.mem_cons_of_mem s (List.mem_cons_of_mem s inY))
      simp only [List.map_cons, Grouping.extend, free, and_self, ↓reduceIte]
      exact later
  | case6 index acc s t u rest different ih =>
      have same := apart s (by simp) t (by simp)
      have later := ih fun x inX y inY => apart x (List.mem_cons_of_mem s inX) y (List.mem_cons_of_mem s inY)
      simp only [List.map_cons, Grouping.extend, same, different, ↓reduceIte]
      exact later

theorem renamed_grouping (ρ : Value → Value) (pinned : Nat) (leaves : List Scalar)
    (apart : ∀ s ∈ leaves, ∀ t ∈ leaves, s.renamed ρ = t.renamed ρ ↔ s = t) :
    Grouping.ofLeaves? pinned (leaves.map (Scalar.renamed ρ)) =
      (Grouping.ofLeaves? pinned leaves).map (Grouping.renamed ρ) := by
  cases leaves with
  | nil => rfl
  | cons s rest =>
      exact renamed_extend ρ pinned 1 (.leaf s) rest fun x inX y inY =>
        apart x (List.mem_cons_of_mem s inX) y (List.mem_cons_of_mem s inY)

end Regroup
