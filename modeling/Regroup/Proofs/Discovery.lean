import Mathlib
import Regroup.Proofs.Liveness
import Regroup.Proofs.Partition

set_option autoImplicit false

namespace Regroup

def Func.TextOrdered (f : Func) : Prop :=
  ∀ o ∈ f.operands, o.ordered = true → ∀ e ∈ f.sited, e.2.dest? = some o.read.value → e.1.Earlier o.place

instance (f : Func) : Decidable f.TextOrdered :=
  inferInstanceAs (Decidable (∀ o ∈ f.operands, o.ordered = true → ∀ e ∈ f.sited,
    e.2.dest? = some o.read.value → e.1.Earlier o.place))

theorem text_ordered_read (f : Func) (ordered : f.TextOrdered) (site place : Site) (i j : Inst) (s : Scalar)
    (stored : f.inst? site = some i) (noPhi : i.isPhi = false) (read : s ∈ i.reads) (defined : f.Defines s.value place j) :
    place.Earlier site := by
  have operand : (⟨s, site, i.dest?, !i.isPhi⟩ : Operand) ∈ f.operands :=
    (mem_operands f _).mpr (Or.inl ⟨site, i, stored, s, read, rfl⟩)
  exact ordered _ operand (by simp [noPhi]) (place, j) ((mem_sited f place j).mpr defined.1) defined.2

theorem text_ordered_orderly (f : Func) (ordered : f.TextOrdered) : f.Orderly := by
  intro x inX y inY read
  have storedX := (mem_ariths f x.1 x.2).mp inX
  have storedY := (mem_ariths f y.1 y.2).mp inY
  rcases read with left | right
  · exact text_ordered_read f ordered x.1 y.1 _ _ x.2.lhs storedX rfl (arith_reads x.2).1 ⟨storedY, by rw [← left]; rfl⟩
  · exact text_ordered_read f ordered x.1 y.1 _ _ x.2.rhs storedX rfl (arith_reads x.2).2 ⟨storedY, by rw [← right]; rfl⟩

theorem grown_needed (f : Func) (wf : f.WellFormed) (op : Op) (t : Tree Arith Scalar) (s : Scalar) (grown : f.Grown op t s)
    (site : Site) (a : Arith) (stored : f.inst? site = some (.arith a)) (read : s ∈ (Inst.arith a).reads)
    (needed : f.Needed a.dest) : ∀ b ∈ t.labels, f.Needed b.dest := by
  induction grown generalizing site a with
  | leaf s => simp [Tree.labels]
  | node c left right place definition sameOp regroupable once growsL growsR lower upper =>
      have here := (definition_defines f c.dest place _ definition).2.1
      have operands := arith_reads c
      have top : f.Needed c.dest := by
        refine needed_read f wf site _ (.of c.dest) stored read fun v feeds => ?_
        cases feeds
        exact needed
      intro b member
      simp only [Tree.labels, List.mem_cons, List.mem_append] at member
      rcases member with rfl | inLeft | inRight
      · exact top
      · exact lower place c here operands.1 top b inLeft
      · exact upper place c here operands.2 top b inRight

theorem root_labels_needed (f : Func) (wf : f.WellFormed) (site : Site) (a : Arith) (t : Tree Arith Scalar)
    (stored : f.inst? site = some (.arith a)) (grown : f.RootGrown a t) (needed : f.Needed a.dest) :
    ∀ b ∈ t.labels, f.Needed b.dest := by
  obtain ⟨left, right, rfl, lower, upper⟩ := grown
  have operands := arith_reads a
  intro b member
  simp only [Tree.labels, List.mem_cons, List.mem_append] at member
  rcases member with rfl | inLeft | inRight
  · exact needed
  · exact grown_needed f wf a.op left _ lower site a stored operands.1 needed b inLeft
  · exact grown_needed f wf a.op right _ upper site a stored operands.2 needed b inRight

theorem find_from_takes (f : Func) (absorbed : List Value) (entries : List (Site × Arith)) (site : Site) (a : Arith)
    (listed : (site, a) ∈ entries) (live : f.facts.live.has a.dest = true) (regroupable : a.regroupable = true) :
    a.dest ∈ absorbed ∨ f.foundAt site a ∈ f.facts.findFrom f absorbed entries ∨
      ∃ x ∈ f.facts.findFrom f absorbed entries, a.dest ∈ interior x.tree := by
  induction entries generalizing absorbed with
  | nil => simp at listed
  | cons entry rest ih =>
      obtain ⟨place, b⟩ := entry
      by_cases roots : b.dest ∉ absorbed ∧ f.facts.live.has b.dest = true ∧ b.regroupable = true
      · rw [Facts.findFrom, if_pos roots]
        rcases List.mem_cons.mp listed with here | later
        · cases here
          exact Or.inr (Or.inl List.mem_cons_self)
        · rcases ih (interior (f.facts.rootTree f b) ++ absorbed) later with old | found | ⟨x, member, inner⟩
          · rcases List.mem_append.mp old with inner | before
            · exact Or.inr (Or.inr ⟨_, List.mem_cons_self, inner⟩)
            · exact Or.inl before
          · exact Or.inr (Or.inl (List.mem_cons_of_mem _ found))
          · exact Or.inr (Or.inr ⟨x, List.mem_cons_of_mem _ member, inner⟩)
      · rw [Facts.findFrom, if_neg roots]
        rcases List.mem_cons.mp listed with here | later
        · cases here
          by_cases old : a.dest ∈ absorbed
          · exact Or.inl old
          · exact absurd ⟨old, live, regroupable⟩ roots
        · exact ih absorbed later

theorem found_or_below (f : Func) (unique : f.defs.Nodup) (site : Site) (a : Arith) (stored : f.inst? site = some (.arith a))
    (live : f.facts.live.has a.dest = true) (regroupable : a.regroupable = true) :
    f.foundAt site a ∈ f.facts.findAll f ∨ ∃ place b, f.inst? place = some (.arith b) ∧
      f.foundAt place b ∈ f.facts.findAll f ∧ a ∈ (f.facts.rootTree f b).labels.tail := by
  have listed := List.mem_reverse.mpr ((mem_ariths f site a).mpr stored)
  rcases find_from_takes f [] _ site a listed live regroupable with old | found | ⟨x, member, inside⟩
  · simp at old
  · exact Or.inl found
  · obtain ⟨place, b, there, _, _, rfl⟩ := find_all_mem f x member
    obtain ⟨c, inner, same⟩ := List.mem_map.mp inside
    have equal := root_label_same f unique place b there _ (root_tree_grown f b) c a (List.mem_of_mem_tail inner) site stored
      same
    exact Or.inr ⟨place, b, there, member, equal ▸ inner⟩

section Found

variable (f : Func) (unique : f.defs.Nodup) (orderly : f.Orderly)
include unique orderly

theorem found_labels_nodup : ((f.facts.findAll f).flatMap (·.tree.labels)).Nodup := by
  rw [List.nodup_flatMap]
  refine ⟨fun x member => ?_, ?_⟩
  · obtain ⟨site, a, stored, _, _, rfl⟩ := find_all_mem f x member
    exact root_labels_nodup f unique orderly site a stored _ (root_tree_grown f a)
  · have order := List.pairwise_map.mp (find_all_roots f)
    refine order.imp_of_mem fun {x y} inX inY earlier b inFirst inSecond => ?_
    obtain ⟨site, a, storedA, _, _, rfl⟩ := find_all_mem f x inX
    obtain ⟨place, c, storedC, _, _, rfl⟩ := find_all_mem f y inY
    have different : site ≠ place := fun same => earlier_irrefl place (same ▸ earlier)
    exact found_labels_apart f unique orderly site place a c storedA storedC inX inY different b inFirst inSecond

theorem found_dests_nodup : ((f.facts.findAll f).flatMap fun x => x.tree.labels.map Arith.dest).Nodup := by
  rw [← List.map_flatMap]
  refine List.Nodup.map_on (fun b inB c inC same => ?_) (found_labels_nodup f unique orderly)
  have stored (d : Arith) (listed : d ∈ (f.facts.findAll f).flatMap (·.tree.labels)) :
      ∃ place, f.inst? place = some (.arith d) := by
    obtain ⟨x, member, label⟩ := List.mem_flatMap.mp listed
    obtain ⟨site, a, storedA, _, _, rfl⟩ := find_all_mem f x member
    exact root_labels_stored f site a storedA _ (root_tree_grown f a) d label
  obtain ⟨place, there⟩ := stored b inB
  obtain ⟨spot, elsewhere⟩ := stored c inC
  exact Inst.arith.inj (defines_unique f unique c.dest place spot _ _ ⟨there, by rw [← same]; rfl⟩ ⟨elsewhere, rfl⟩).2

end Found

def Survey.rootsAt (s : Survey) (site : Site) : Nat := s.found.countP (·.chain.root = site)

def Survey.timesAbsorbed (s : Survey) (v : Value) : Nat := (s.found.flatMap fun x => interior x.tree).count v

section Surveyed

variable (f : Func) (table : Option PairTable)

theorem roots_at_pos (site : Site) (rooted : 0 < (f.surveyed table).rootsAt site) :
    ∃ a, f.inst? site = some (.arith a) ∧ f.live.has a.dest = true ∧ a.regroupable = true := by
  obtain ⟨x, member, here⟩ := List.countP_pos_iff.mp rooted
  obtain ⟨place, a, stored, live, regroupable, rfl⟩ := find_all_mem f x member
  obtain rfl : place = site := of_decide_eq_true here
  exact ⟨a, stored, live, regroupable⟩

theorem times_absorbed_pos (wf : f.WellFormed) (v : Value) (absorbed : 0 < (f.surveyed table).timesAbsorbed v) :
    ∃ site a, f.Defines v site (.arith a) ∧ f.live.has v = true ∧ a.regroupable = true := by
  obtain ⟨x, member, inner⟩ := List.mem_flatMap.mp (List.count_pos_iff.mp absorbed)
  obtain ⟨root, c, stored, live, _, rfl⟩ := find_all_mem f x member
  obtain ⟨b, label, rfl⟩ := List.mem_map.mp inner
  have grown := root_tree_grown f c
  obtain ⟨place, there⟩ := root_labels_stored f root c stored _ grown b (List.mem_of_mem_tail label)
  have needed := root_labels_needed f wf root c _ stored grown (live_sound f c.dest live) b (List.mem_of_mem_tail label)
  exact ⟨place, b, ⟨there, rfl⟩, live_complete f b.dest needed, (root_inner_once f c _ grown b label).2.1⟩

theorem roots_at_eq (unique : f.defs.Nodup) (site : Site) (a : Arith) (stored : f.inst? site = some (.arith a)) :
    (f.surveyed table).rootsAt site = ((f.facts.findAll f).map Found.dest).count a.dest := by
  rw [Survey.rootsAt, List.count, List.countP_map]
  refine List.countP_congr fun x member => ?_
  obtain ⟨place, b, there, _, _, rfl⟩ := find_all_mem f x member
  simp only [Function.comp, beq_iff_eq, decide_eq_true_eq]
  constructor
  · intro (here : place = site)
    subst here
    rw [stored] at there
    cases there
    rfl
  · intro (same : b.dest = a.dest)
    exact (defines_unique f unique a.dest place site _ _ ⟨there, by rw [← same]; rfl⟩ ⟨stored, rfl⟩).1

-- The roots and what is absorbed are together the operations of all trees.
theorem taken_count (v : Value) : ((f.facts.findAll f).map Found.dest).count v + (f.surveyed table).timesAbsorbed v =
    ((f.facts.findAll f).flatMap fun x => x.tree.labels.map Arith.dest).count v := by
  have split : ((f.facts.findAll f).map Found.dest ++ (f.facts.findAll f).flatMap fun x => interior x.tree).Perm
      ((f.facts.findAll f).flatMap fun x => x.tree.labels.map Arith.dest) := by
    have each : ((f.facts.findAll f).flatMap fun x => x.tree.labels.map Arith.dest) =
        (f.facts.findAll f).flatMap fun x => [x.dest] ++ interior x.tree := by
      refine List.flatMap_congr fun x member => ?_
      obtain ⟨site, a, _, _, _, rfl⟩ := find_all_mem f x member
      rfl
    rw [each, List.map_eq_flatMap]
    exact List.flatMap_append_perm _ _ _
  rw [← split.count_eq, List.count_append]
  rfl

theorem roots_counted (s : Survey) (same : s.found = f.facts.findAll f) :
    s.found.length = (f.sited.filter fun e => 0 < s.rootsAt e.1).length := by
  have roots : (s.found.map (·.chain.root)).Perm ((f.sited.filter fun e => 0 < s.rootsAt e.1).map Prod.fst) := by
    refine (List.perm_ext_iff_of_nodup ?_ ?_).mpr fun site => ?_
    · rw [same]
      refine (find_all_roots f).imp fun {x y} earlier => ?_
      exact fun equal => earlier_irrefl y (equal ▸ earlier)
    · have positions : (f.sited.map Prod.fst).Nodup := by
        rw [List.Nodup, List.pairwise_map]
        refine (sited_earlier f).imp fun {x y} earlier => ?_
        exact fun equal => earlier_irrefl y.1 (equal ▸ earlier)
      exact positions.sublist (List.filter_sublist.map _)
    · simp only [List.mem_map, List.mem_filter, Survey.rootsAt, decide_eq_true_eq, List.countP_pos_iff]
      constructor
      · intro found
        obtain ⟨x, member, rfl⟩ := found
        obtain ⟨place, a, stored, _, _, rfl⟩ := find_all_mem f x (same ▸ member)
        exact ⟨(place, .arith a), ⟨(mem_sited f _ _).mpr stored, _, member, rfl⟩, rfl⟩
      · intro found
        obtain ⟨e, ⟨_, x, member, here⟩, rfl⟩ := found
        exact ⟨x, member, here⟩
  simpa using roots.length_eq

end Surveyed

theorem survey_takes_each_once (f : Func) (table : Option PairTable) (accepted : f.check = .ok ())
    (ordered : f.TextOrdered) : ∃ survey, f.survey f.facts table = .ok survey ∧
      (∀ site a, f.inst? site = some (.arith a) → f.live.has a.dest = true → a.regroupable = true →
        (survey.rootsAt site = 1 ∧ survey.timesAbsorbed a.dest = 0) ∨
        (survey.rootsAt site = 0 ∧ survey.timesAbsorbed a.dest = 1)) ∧
      (∀ site i, f.inst? site = some i → ¬ (i.regroupable = true ∧ ∃ v, i.dest? = some v ∧ f.live.has v = true) →
        survey.rootsAt site = 0 ∧ ∀ v, i.dest? = some v → survey.timesAbsorbed v = 0) ∧
      survey.found.length = (f.sited.filter fun e => 0 < survey.rootsAt e.1).length := by
  have wf := (check_ok_iff f).mp accepted
  have orderly := text_ordered_orderly f ordered
  refine ⟨f.surveyed table, survey_ok f table wf.bounded, ?_, ?_, roots_counted f _ rfl⟩
  · intro site a stored live regroupable
    have taken : a.dest ∈ (f.facts.findAll f).flatMap fun x => x.tree.labels.map Arith.dest := by
      have listed := List.mem_reverse.mpr ((mem_ariths f site a).mpr stored)
      rcases find_from_takes f [] _ site a listed live regroupable with old | root | ⟨x, member, inner⟩
      · simp at old
      · exact List.mem_flatMap.mpr ⟨_, root, by simp [Func.foundAt, Facts.rootTree, Tree.labels]⟩
      · obtain ⟨b, label, same⟩ := List.mem_map.mp inner
        exact List.mem_flatMap.mpr ⟨x, member, List.mem_map.mpr ⟨b, List.mem_of_mem_tail label, same⟩⟩
    have once := List.count_eq_one_of_mem (found_dests_nodup f wf.unique orderly) taken
    rw [← taken_count f table, ← roots_at_eq f table wf.unique site a stored] at once
    omega
  · intro site i stored idle
    refine ⟨?_, fun v dest => ?_⟩
    · by_contra rooted
      obtain ⟨a, there, live, regroupable⟩ := roots_at_pos f table site (Nat.pos_of_ne_zero rooted)
      rw [stored] at there
      cases there
      exact idle ⟨regroupable, a.dest, rfl, live⟩
    · by_contra absorbed
      obtain ⟨place, a, defined, live, regroupable⟩ := times_absorbed_pos f table wf v (Nat.pos_of_ne_zero absorbed)
      obtain ⟨_, rfl⟩ := defines_unique f wf.unique v place site _ _ defined ⟨stored, dest⟩
      exact idle ⟨regroupable, v, dest, live⟩

def nestedSums : Func where
  name := "nested"
  blocks :=
    [⟨0, [.input 0 0 1 false, .input 1 1 1 true, .arith (Arith.plain 2 .iadd (.of 0) (.of 1)),
        .arith (Arith.plain 3 .iadd (.of 2) (.of 0)), .arith (Arith.plain 4 .imul (.of 3) (.of 1)),
        .arith (Arith.plain 5 .imul (.of 4) (.of 3)), .arith (Arith.plain 6 .iadd (.of 0) (.of 0))], .ret (some (.of 5))⟩]
  next := 7
  divergence := none

theorem nested_sums_taken_once : nestedSums.check = .ok () ∧ nestedSums.TextOrdered ∧
    ∃ survey, nestedSums.survey nestedSums.facts none = .ok survey ∧ survey.found.length = 2 ∧
      survey.rootsAt ⟨0, 3⟩ = 1 ∧ survey.timesAbsorbed 3 = 0 ∧ survey.rootsAt ⟨0, 2⟩ = 0 ∧ survey.timesAbsorbed 2 = 1 ∧
      survey.rootsAt ⟨0, 6⟩ = 0 ∧ survey.timesAbsorbed 6 = 0 := by
  have accepted : nestedSums.check = .ok () := by decide +kernel
  have ordered : nestedSums.TextOrdered := by decide +kernel
  have counts : (nestedSums.survey nestedSums.facts none).toOption.map (fun survey =>
      (survey.found.length, survey.rootsAt ⟨0, 3⟩, survey.rootsAt ⟨0, 2⟩)) = some (2, 1, 0) := by decide +kernel
  obtain ⟨survey, done, live, idle, _⟩ := survey_takes_each_once nestedSums none accepted ordered
  rw [done] at counts
  obtain ⟨found, roots, apart⟩ := (Prod.mk.inj (Option.some.inj counts)).imp_right Prod.mk.inj
  have outer := live ⟨0, 3⟩ (Arith.plain 3 .iadd (.of 2) (.of 0)) rfl (by decide +kernel) (by decide +kernel)
  have inner := live ⟨0, 2⟩ (Arith.plain 2 .iadd (.of 0) (.of 1)) rfl (by decide +kernel) (by decide +kernel)
  have dead := idle ⟨0, 6⟩ (.arith (Arith.plain 6 .iadd (.of 0) (.of 0))) rfl (by
    intro both
    obtain ⟨_, v, dest, marked⟩ := both
    cases dest
    exact absurd marked (by decide +kernel))
  simp only [Arith.plain] at outer inner
  exact ⟨accepted, ordered, survey, done, found, roots, by omega, apart, by omega, dead.1, dead.2 6 rfl⟩

end Regroup
