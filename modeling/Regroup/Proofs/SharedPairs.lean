import Mathlib
import Regroup.Proofs.Rereading

set_option autoImplicit false

namespace Regroup

def Func.Combines (g : Func) (v : Value) (op : Op) (x y : Scalar) : Prop :=
  ∃ root ∈ g.ariths, root.2.dest = v ∧ ∃ node ∈ g.ariths, node.2 ∈ (g.facts.rootTree g root.2).labels ∧
    node.2.op = op ∧ node.2.lhs = x ∧ node.2.rhs = y

instance (g : Func) (v : Value) (op : Op) (x y : Scalar) : Decidable (g.Combines v op x y) :=
  inferInstanceAs (Decidable (∃ root ∈ g.ariths, root.2.dest = v ∧ ∃ node ∈ g.ariths,
    node.2 ∈ (g.facts.rootTree g root.2).labels ∧ node.2.op = op ∧ node.2.lhs = x ∧ node.2.rhs = y))

def Report.Selects (report : Report) (facts : Facts) (k : Candidate) (best : PairChoice) : Prop :=
  k ∈ report.survey.candidates ∧ k.chain ∈ report.survey.queue ∧ best ∈ report.survey.table.bind (k.chain.bestPair? facts)

instance (report : Report) (facts : Facts) (k : Candidate) (best : PairChoice) : Decidable (report.Selects facts k best) :=
  inferInstanceAs (Decidable (k ∈ report.survey.candidates ∧ k.chain ∈ report.survey.queue ∧
    best ∈ report.survey.table.bind (k.chain.bestPair? facts)))

section Joins

variable (x y : Scalar)

def Shape.Joins : Shape → Prop
  | .leaf _ => False
  | .node _ left right => (left = .leaf x ∧ right = .leaf y) ∨ Joins left ∨ Joins right

theorem extend_joins (pinned index : Nat) (acc : Shape) (leaves : List Scalar) (g : Grouping)
    (joins : Shape.Joins x y acc) (made : Grouping.extend pinned index acc leaves = some g) : Shape.Joins x y g.rest := by
  fun_induction Grouping.extend pinned index acc leaves with
  | case1 => cases made
  | case2 =>
      cases made
      exact joins
  | case3 =>
      cases made
      exact joins
  | case4 =>
      cases made
      exact Or.inr (Or.inl joins)
  | case5 index acc s t u rest fused ih => exact ih (Or.inr (Or.inl joins)) made
  | case6 index acc s t u rest apart ih => exact ih (Or.inr (Or.inl joins)) made

-- A pinned pair is never taken apart to combine its second leaf with an equal neighbour.
theorem pinned_joins (z : Scalar) (rest : List Scalar) (g : Grouping)
    (made : Grouping.ofLeaves? 2 (x :: y :: z :: rest) = some g) : Shape.Joins x y g.tree := by
  refine Or.inr (Or.inr ?_)
  have pair : Shape.Joins x y (.node () (.leaf x) (.leaf y)) := Or.inl ⟨rfl, rfl⟩
  cases rest with
  | nil =>
      cases made
      exact pair
  | cons u rest => exact extend_joins x y 2 2 _ _ g pair made

theorem grown_leaf_shape (f : Func) (op : Op) (t : Tree Arith Scalar) (s : Scalar) (grown : f.Grown op t s)
    (shape : t.shape = .leaf x) : s = x := by
  cases grown with
  | leaf => exact Tree.leaf.inj shape
  | node => cases shape

theorem node_joins (f : Func) (a : Arith) (left right : Tree Arith Scalar) (lower : f.Grown a.op left a.lhs)
    (upper : f.Grown a.op right a.rhs)
    (inLeft : Shape.Joins x y left.shape → ∃ b ∈ left.labels, b.op = a.op ∧ b.lhs = x ∧ b.rhs = y)
    (inRight : Shape.Joins x y right.shape → ∃ b ∈ right.labels, b.op = a.op ∧ b.lhs = x ∧ b.rhs = y)
    (joins : Shape.Joins x y (Tree.node a left right).shape) :
    ∃ b ∈ (Tree.node a left right).labels, b.op = a.op ∧ b.lhs = x ∧ b.rhs = y := by
  rcases joins with ⟨first, second⟩ | below | below
  · exact ⟨a, List.mem_cons_self, rfl, grown_leaf_shape x f a.op left _ lower first,
      grown_leaf_shape y f a.op right _ upper second⟩
  · obtain ⟨b, label, fits⟩ := inLeft below
    exact ⟨b, List.mem_cons_of_mem a (List.mem_append_left _ label), fits⟩
  · obtain ⟨b, label, fits⟩ := inRight below
    exact ⟨b, List.mem_cons_of_mem a (List.mem_append_right _ label), fits⟩

theorem grown_joins (f : Func) (op : Op) (t : Tree Arith Scalar) (s : Scalar) (grown : f.Grown op t s)
    (joins : Shape.Joins x y t.shape) : ∃ b ∈ t.labels, b.op = op ∧ b.lhs = x ∧ b.rhs = y := by
  induction grown with
  | leaf s => exact joins.elim
  | node a left right site definition sameOp regroupable once lower upper inLeft inRight =>
      subst sameOp
      exact node_joins x y f a left right lower upper inLeft inRight joins

theorem root_joins (f : Func) (a : Arith) (t : Tree Arith Scalar) (grown : f.RootGrown a t)
    (joins : Shape.Joins x y t.shape) : ∃ b ∈ t.labels, b.op = a.op ∧ b.lhs = x ∧ b.rhs = y := by
  obtain ⟨left, right, rfl, lower, upper⟩ := grown
  exact node_joins x y f a left right lower upper (grown_joins x y f a.op left _ lower)
    (grown_joins x y f a.op right _ upper) joins

theorem root_combines (f : Func) (site : Site) (a : Arith) (stored : f.inst? site = some (.arith a))
    (joins : Shape.Joins x y (f.facts.rootTree f a).shape) : f.Combines a.dest a.op x y := by
  have grown := root_tree_grown f a
  obtain ⟨b, label, fits⟩ := root_joins x y f a _ grown joins
  obtain ⟨place, there⟩ := root_labels_stored f site a stored _ grown b label
  exact ⟨(site, a), (mem_ariths f site a).mpr stored, rfl, (place, b), (mem_ariths f place b).mpr there, label, fits⟩

end Joins

theorem sharing_chain_short (facts : Facts) (found : Found) (sharing : Bool)
    (shares : (found.candidate facts sharing).chain.policy.sharePair = true) : found.chain.length ≤ 8 := by
  simp only [Found.candidate, RankProfile.policy, Bool.and_eq_true, decide_eq_true_eq] at shares
  have limit : (found.chain.profile facts).shareLimit ≤ 8 := by
    rw [RankProfile.shareLimit]
    split <;> omega
  omega

theorem chosen_arranged (c : Chain) (facts : Facts) (t : PairTable) (best : PairChoice) (x y : Scalar)
    (chosen : c.bestPair? facts t = some best) (sorted : facts.sortLeaves best.leaves = [x, y])
    (shares : c.policy.sharePair = true) (long : 3 ≤ c.length) :
    ∃ z rest, c.arrange? facts (some t) = some ⟨x :: y :: z :: rest, some best⟩ := by
  have arranged : c.arrange? facts (some t) = some ⟨c.pin facts best, some best⟩ := by
    simp [Chain.arrange?, shares, chosen]
  have size := (arrange_perm c facts _ _ arranged).length_eq
  rw [pin_front c facts t best x y chosen sorted] at size arranged
  cases rest : facts.sortLeaves (c.without best) with
  | nil =>
      rw [rest] at size
      simp only [List.length_cons, List.length_nil] at size
      rw [Chain.length] at long
      omega
  | cons z others =>
      rw [rest] at arranged
      exact ⟨z, others, arranged⟩

theorem found_elsewhere (found : List Found)
    (apart : found.Pairwise fun later earlier => earlier.chain.root.Earlier later.chain.root) (two : 2 ≤ found.length)
    (root : Site) : ∃ other ∈ found, other.chain.root ≠ root := by
  match found with
  | [] => simp at two
  | [_] => simp at two
  | later :: earlier :: rest =>
      have before := List.rel_of_pairwise_cons apart List.mem_cons_self
      by_cases same : later.chain.root = root
      · refine ⟨earlier, List.mem_cons_of_mem later List.mem_cons_self, fun also => ?_⟩
        rw [also, same] at before
        exact earlier_irrefl root before
      · exact ⟨later, List.mem_cons_self, same⟩

theorem common_pair_elsewhere (h : Func) (table : PairTable) (recorded : (h.surveyed (some .empty)).table = some table)
    (op : Op) (x y : Scalar) (common : 2 ≤ table.count (PairKey.of op x y)) (root : Site) :
    ∃ other ∈ h.facts.findAll h, other.chain.op = op ∧ other.chain.root ≠ root ∧ other.chain.HoldsPair x y := by
  have complete : (h.facts.findAll h).foldl (fun t found => t.record found.chain) .empty = table := Option.some.inj recorded
  have counted := recorded_count (h.facts.findAll h) .empty (PairKey.of op x y)
  rw [complete, show PairTable.empty.count (PairKey.of op x y) = 0 from rfl, List.countP_eq_length_filter] at counted
  have apart := (List.pairwise_map.mp (find_all_roots h)).filter (·.chain.counts (PairKey.of op x y))
  obtain ⟨other, listed, elsewhere⟩ := found_elsewhere _ apart (by omega) root
  obtain ⟨found, counts⟩ := List.mem_filter.mp listed
  obtain ⟨sameOp, _, holds⟩ := (counts_pair_iff _ _ _ _).mp counts
  exact ⟨other, found, sameOp, elsewhere, holds⟩

theorem text_ordered_rebuilt (f : Func) (options : Options) (bench : Workbench) (accepted : f.check = .ok ())
    (ordered : f.TextOrdered) :
    (f.regroup options bench = .error .idsExhausted ∧ idLimit ≤ (chainCapacity - 1) * f.defs.length) ∨
    ∃ report rebuilt, f.regroup options bench = .ok report ∧ (f.prepared options).Regroups options.table report rebuilt ∧
      (f.prepared options).RebuiltAs report.func rebuilt := by
  have wf := (check_ok_iff f).mp accepted
  have fine := prepared_well_formed f options wf
  have text := renaming_text_ordered f _ _ (prepared_renaming f options wf.unique) wf ordered
  rcases regroup_cases f options bench accepted with exhausted | ⟨report, rebuilt, _, regroups, done⟩
  · exact Or.inl exhausted
  · have expansion := regroups_expansion _ _ report rebuilt regroups
    have sound : report.func.WellFormed := by
      refine (regroups_well_formed_iff _ _ report rebuilt fine regroups).mpr fun r member s leaf => ?_
      exact text_ordered_leaf_ready _ fine text r.site r.old (expansion.stored r member) s
        ((expansion.chain r member).2.2.mem_iff.mp leaf)
    rw [(check_ok_iff _).mpr sound] at done
    exact Or.inr ⟨report, rebuilt, done, regroups,
      regroups_rebuilt_as _ _ report rebuilt fine (text_ordered_orderly _ text) sound regroups⟩

theorem chosen_pair_combined (f : Func) (options : Options) (report : Report) (rebuilt : List Rebuilt)
    (regroups : (f.prepared options).Regroups options.table report rebuilt)
    (built : (f.prepared options).RebuiltAs report.func rebuilt) (found : Found)
    (member : found ∈ (f.prepared options).facts.findAll (f.prepared options)) (candidate : Candidate)
    (same : candidate = found.candidate (f.prepared options).facts options.table.isSome)
    (queued : candidate.chain ∈ ((f.prepared options).surveyed options.table).queue) (table : PairTable)
    (recorded : ((f.prepared options).surveyed options.table).table = some table) (best : PairChoice)
    (chosen : candidate.chain.bestPair? (f.prepared options).facts table = some best) (x y : Scalar)
    (sorted : (f.prepared options).facts.sortLeaves best.leaves = [x, y]) (shares : candidate.chain.policy.sharePair = true) :
    report.func.Combines candidate.dest candidate.chain.op x y := by
  subst same
  obtain ⟨site, a, stored, _, _, rfl⟩ := find_all_mem _ found member
  obtain ⟨_, _, _, _, _, long, _, _⟩ := queue_mem _ _ _ queued
  obtain ⟨z, rest, arranged⟩ := chosen_arranged _ _ table best x y chosen sorted shares long
  rw [← recorded] at arranged
  obtain ⟨place, c, there, dest⟩ := root_stored_after _ report.func rebuilt built site a stored
  have short : ((f.prepared options).facts.rootTree (f.prepared options) a).leafCount < chainCapacity := by
    have few : ((f.prepared options).facts.rootTree (f.prepared options) a).leaves.length ≤ 8 :=
      sharing_chain_short _ _ _ shares
    rw [tree_leaves_length] at few
    exact Nat.lt_of_le_of_lt few (by decide)
  have barred := short_leaves_barred _ _ a short
  obtain ⟨grouping, made, shape⟩ := arranged_shape f options report rebuilt regroups built site a member queued _ arranged
    place c there dest fun r inRebuilt old =>
      barred_tree_regrown _ report.func rebuilt built r inRebuilt (by rw [old]; exact barred)
  have combines := root_combines x y report.func place c there (by
    rw [shape]
    exact pinned_joins x y z rest grouping made)
  have sameOp : c.op = a.op := by
    rcases (root_after _ report.func rebuilt built site a stored place c there dest).2 with
      ⟨_, rfl⟩ | ⟨r, _, _, rfl, rfl⟩ <;> rfl
  rw [dest, sameOp] at combines
  exact combines

theorem shared_pairs_computed_alike (f : Func) (options : Options) (bench : Workbench) (accepted : f.check = .ok ())
    (ordered : f.TextOrdered) (sharing : options.sharing = true) :
    (f.regroup options bench = .error .idsExhausted ∧ idLimit ≤ (chainCapacity - 1) * f.defs.length) ∨
    ∃ report, f.regroup options bench = .ok report ∧ report.survey.table.isSome = true ∧
      (∀ k best, report.Selects (f.prepared options).facts k best → ∃ x y,
        [x, y].Perm best.leaves ∧ (f.prepared options).facts.InOrder x y ∧
        (k.chain.policy.sharePair = true → report.func.Combines k.dest k.chain.op x y) ∧
        ∃ other ∈ report.survey.found, other.chain.op = k.chain.op ∧ other.chain.root ≠ k.chain.root ∧
          other.chain.HoldsPair x y) ∧
      ∀ k l best also, report.Selects (f.prepared options).facts k best → report.Selects (f.prepared options).facts l also →
        k.chain.policy.sharePair = true → l.chain.policy.sharePair = true → l.chain.op = k.chain.op →
        also.leaves.Perm best.leaves → ∃ x y, [x, y].Perm best.leaves ∧ (f.prepared options).facts.InOrder x y ∧
          report.func.Combines k.dest k.chain.op x y ∧ report.func.Combines l.dest k.chain.op x y := by
  rcases text_ordered_rebuilt f options bench accepted ordered with exhausted | ⟨report, rebuilt, done, regroups, built⟩
  · exact Or.inl exhausted
  · have start : options.table = some .empty := if_pos sharing
    have each (k : Candidate) (best : PairChoice) (selects : report.Selects (f.prepared options).facts k best) : ∃ x y,
        [x, y].Perm best.leaves ∧ (f.prepared options).facts.InOrder x y ∧
        (k.chain.policy.sharePair = true → report.func.Combines k.dest k.chain.op x y) ∧
        ∃ other ∈ report.survey.found, other.chain.op = k.chain.op ∧ other.chain.root ≠ k.chain.root ∧
          other.chain.HoldsPair x y := by
      obtain ⟨member, queued, selected⟩ := selects
      rw [regroups.survey] at member queued selected ⊢
      obtain ⟨table, recorded, chosen⟩ := Option.bind_eq_some_iff.mp selected
      obtain ⟨x, y, sorted, favours⟩ := best_pair_favoured k.chain _ table best chosen
      obtain ⟨found, listed, same⟩ := List.mem_map.mp member
      have perm : [x, y].Perm best.leaves := sorted ▸ sort_leaves_perm _ best.leaves
      refine ⟨x, y, perm, favours.inOrder, fun shares => ?_, ?_⟩
      · exact chosen_pair_combined f options report rebuilt regroups built found (List.mem_of_mem_filter listed) k same.symm
          queued table recorded best chosen x y sorted shares
      · rw [start] at recorded
        exact common_pair_elsewhere _ table recorded k.chain.op x y favours.common k.chain.root
    have table : report.survey.table.isSome = true := by
      rw [regroups.survey, start]
      rfl
    refine Or.inr ⟨report, done, table, each, fun k l best also selectsK selectsL sharesK sharesL sameOp alike => ?_⟩
    obtain ⟨x, y, perm, inOrder, combines, _⟩ := each k best selectsK
    obtain ⟨u, v, permToo, inOrderToo, combinesToo, _⟩ := each l also selectsL
    have equal : [u, v] = [x, y] := sorted_unique _ _ _ (List.pairwise_pair.mpr inOrderToo)
      (List.pairwise_pair.mpr inOrder) (permToo.trans (alike.trans perm.symm))
    cases equal
    exact ⟨x, y, perm, inOrder, combines sharesK, sameOp ▸ combinesToo sharesL⟩

-- Two sums around the same pair. The second computes it already, the first does not.
def pairedSums : Func where
  name := "paired"
  blocks :=
    [⟨0, [.input 0 0 1 false, .input 1 1 1 true, .input 2 2 1 true, .input 3 3 1 true,
        .arith (Arith.plain 4 .iadd (.of 0) (.of 1)), .arith (Arith.plain 5 .iadd (.of 4) (.of 2)), .output 0 (.of 5),
        .arith (Arith.plain 6 .iadd (.of 0) (.of 2)), .arith (Arith.plain 7 .iadd (.of 3) (.of 6))], .ret (some (.of 7))⟩]
  next := 8
  divergence := none

def Report.SelectsFor (report : Report) (facts : Facts) (v : Value) (op : Op) (shares : Bool) (pair : List Scalar) : Prop :=
  ∃ k ∈ report.survey.candidates, ∃ best ∈ report.survey.table.bind (k.chain.bestPair? facts),
    report.Selects facts k best ∧ k.dest = v ∧ k.chain.op = op ∧ k.chain.policy.sharePair = shares ∧ best.leaves = pair

instance (report : Report) (facts : Facts) (v : Value) (op : Op) (shares : Bool) (pair : List Scalar) :
    Decidable (report.SelectsFor facts v op shares pair) :=
  inferInstanceAs (Decidable (∃ k ∈ report.survey.candidates, ∃ best ∈ report.survey.table.bind (k.chain.bestPair? facts),
    report.Selects facts k best ∧ k.dest = v ∧ k.chain.op = op ∧ k.chain.policy.sharePair = shares ∧ best.leaves = pair))

theorem paired_sums_alike : pairedSums.check = .ok () ∧ pairedSums.TextOrdered ∧
    ¬ (pairedSums.prepared ⟨true, true⟩).Combines 5 .iadd (.of 0) (.of 2) ∧
    ∃ report, pairedSums.regroup ⟨true, true⟩ .empty = .ok report ∧ report.stats.rebuilt = 1 ∧
      report.SelectsFor (pairedSums.prepared ⟨true, true⟩).facts 5 .iadd true [.of 0, .of 2] ∧
      report.SelectsFor (pairedSums.prepared ⟨true, true⟩).facts 7 .iadd true [.of 0, .of 2] ∧
      ∃ x y, [x, y].Perm [.of 0, .of 2] ∧ report.func.Combines 5 .iadd x y ∧ report.func.Combines 7 .iadd x y := by
  have accepted : pairedSums.check = .ok () := by decide +kernel
  have ordered : pairedSums.TextOrdered := by decide +kernel
  have chosen : (pairedSums.regroup ⟨true, true⟩ .empty).toOption.any (fun report => decide (report.stats.rebuilt = 1 ∧
      report.SelectsFor (pairedSums.prepared ⟨true, true⟩).facts 5 .iadd true [.of 0, .of 2] ∧
      report.SelectsFor (pairedSums.prepared ⟨true, true⟩).facts 7 .iadd true [.of 0, .of 2])) = true := by decide +kernel
  rcases shared_pairs_computed_alike pairedSums ⟨true, true⟩ .empty accepted ordered rfl with
    ⟨_, large⟩ | ⟨report, done, _, _, alike⟩
  · exact absurd large (by decide +kernel)
  · rw [done] at chosen
    obtain ⟨count, first, second⟩ := of_decide_eq_true chosen
    have ⟨k, _, best, _, selectsK, destK, opK, sharesK, leavesK⟩ := first
    have ⟨l, _, also, _, selectsL, destL, opL, sharesL, leavesL⟩ := second
    obtain ⟨x, y, perm, _, combinesK, combinesL⟩ := alike k l best also selectsK selectsL sharesK sharesL
      (opL.trans opK.symm) (leavesL ▸ leavesK ▸ List.Perm.refl _)
    rw [leavesK] at perm
    rw [destK, opK] at combinesK
    rw [destL, opK] at combinesL
    exact ⟨accepted, ordered, by decide +kernel, report, done, count, first, second, x, y, perm, combinesK, combinesL⟩

-- A sum with a single leaf above the lowest rank, and another sum of two of its leaves.
def loneDivergentSums : Func where
  name := "lone"
  blocks :=
    [⟨0, [.input 0 0 1 false, .input 1 1 1 false, .input 2 2 1 true, .arith (Arith.plain 3 .iadd (.of 0) (.of 2)),
        .output 0 (.of 3), .arith (Arith.plain 4 .iadd (.of 0) (.of 2)), .arith (Arith.plain 5 .iadd (.of 4) (.of 1))],
      .ret (some (.of 5))⟩]
  next := 6
  divergence := none

-- Such a chain is sorted by rank and gives up the pair, even though it has computed it.
theorem lone_divergent_splits_pair : loneDivergentSums.check = .ok () ∧ loneDivergentSums.TextOrdered ∧
    ∃ report, loneDivergentSums.regroup ⟨true, true⟩ .empty = .ok report ∧
      report.SelectsFor (loneDivergentSums.prepared ⟨true, true⟩).facts 5 .iadd false [.of 0, .of 2] ∧
      ¬ report.func.Combines 5 .iadd (.of 0) (.of 2) ∧ ¬ report.func.Combines 5 .iadd (.of 2) (.of 0) := by
  have split : (loneDivergentSums.regroup ⟨true, true⟩ .empty).toOption.any (fun report => decide (
      report.SelectsFor (loneDivergentSums.prepared ⟨true, true⟩).facts 5 .iadd false [.of 0, .of 2] ∧
      ¬ report.func.Combines 5 .iadd (.of 0) (.of 2) ∧ ¬ report.func.Combines 5 .iadd (.of 2) (.of 0))) = true := by
    decide +kernel
  obtain ⟨report, done, holds⟩ := (Option.any_eq_true _ _).mp split
  exact ⟨by decide +kernel, by decide +kernel, report, to_option_ok _ report done, of_decide_eq_true holds⟩

end Regroup
