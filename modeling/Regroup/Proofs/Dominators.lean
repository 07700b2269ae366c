import Mathlib
import Regroup.Proofs.DominatorTree

/- The dominator tree is exact. After `k` sweeps whatever is above a block lies on all paths to it of at most `k` edges,
   and no block needs a path of more edges than there are blocks. -/

set_option autoImplicit false

namespace Regroup

def DominatorTree.Tight (t : DominatorTree) (f : Func) (bound b : Nat) : Prop :=
  ∀ a, t.Above a b → ∀ before, f.Path (b :: before) → before.length ≤ bound → a ∈ b :: before

-- A sweep under way: all blocks are tight for the bound, and those it has visited for one edge more.
structure DominatorTree.Stage (t : DominatorTree) (f : Func) (bound : Nat) (visited : List Nat) : Prop where
  sound : t.Sound f
  settled : ∀ b ∈ visited, t.Settled b
  close : ∀ b before, f.Path (b :: before) → before.length ≤ bound → t.Settled b
  tight : ∀ b, t.Tight f bound b
  tighter : ∀ b ∈ visited, t.Tight f (bound + 1) b

theorem lists_led (f : Func) (visited rest : List Nat) (b : Nat) (lists : f.Lists (visited ++ b :: rest))
    (begun : 0 ∈ visited) : b ≠ 0 ∧ ∃ source ∈ visited, (source, b) ∈ f.edges ∧
      (visited ++ b :: rest).idxOf source < (visited ++ b :: rest).idxOf b := by
  obtain ⟨_, distinctRest, apart⟩ := List.nodup_append.mp lists.distinct
  have fresh : b ∉ visited := fun again => apart b again b (by simp) rfl
  have inner : b ≠ 0 := fun same => fresh (same ▸ begun)
  obtain ⟨source, edge, ordered⟩ := (lists.led b (by simp)).resolve_left inner
  have member : source ∈ visited := by
    obtain ⟨front, back, split, before, after⟩ := List.sublist_append_iff.mp ordered
    cases front with
    | nil =>
        -- both in the second part would put `b` behind itself
        rw [List.nil_append] at split
        subst split
        have tail : [b].Sublist rest := by
          cases after with
          | cons _ inside => exact (List.sublist_cons_self _ _).trans inside
          | cons_cons _ inside => exact inside
        exact absurd (List.singleton_sublist.mp tail) (List.nodup_cons.mp distinctRest).1
    | cons first others =>
        rw [(List.cons.inj split).1]
        exact before.subset (by simp)
  refine ⟨inner, source, member, edge, ?_⟩
  rw [List.idxOf_append_of_mem member, List.idxOf_append_of_notMem fresh, List.idxOf_cons_self]
  exact (List.idxOf_lt_length_of_mem member).trans_le (Nat.le_add_right _ _)

theorem visit_tight (f : Func) (t : DominatorTree) (bound : Nat) (visited : List Nat) (b parent : Nat)
    (stage : t.Stage f bound visited) (visits : t.Visits f b parent) : (t.setParent b parent).Tight f (bound + 1) b := by
  intro a above before walked short
  rcases above_visited f t stage.sound b parent visits a above with same | higher
  · simp [same]
  · cases walked with
    | entry _ => exact absurd rfl visits.inner
    | cross source _ before walked edge =>
        have within : before.length ≤ bound := by simpa using short
        have held := stage.close source before walked within
        have beyond := above_trans t a parent source higher (visits.above source edge held)
        exact List.mem_cons_of_mem b (stage.tight source a beyond before walked within)

theorem tight_set (f : Func) (t : DominatorTree) (sound : t.Sound f) (bound b parent x : Nat)
    (visits : t.Visits f b parent) (here : (t.setParent b parent).Tight f bound b) (old : t.Tight f bound x) :
    (t.setParent b parent).Tight f bound x := by
  intro a above before walked short
  rcases above_set f t sound b parent visits a x above with kept | ⟨below, rest⟩
  · exact old a kept before walked short
  · -- the path passes through `b`, and up to there through `a`
    obtain ⟨part, cut, inside⟩ := path_to_member f _ walked b (old b below before walked short)
    have fewer := inside.length_le
    simp only [List.length_cons] at fewer
    exact inside.subset (here a rest part cut (by omega))

theorem tight_mono (f : Func) (t : DominatorTree) (bound b : Nat) (tight : t.Tight f (bound + 1) b) :
    t.Tight f bound b :=
  fun a above before walked short => tight a above before walked (by omega)

theorem stage_visits (f : Func) (t : DominatorTree) (bound : Nat) (visited rest : List Nat) (b : Nat)
    (stage : t.Stage f bound visited) (order : t.order = visited ++ b :: rest) (begun : 0 ∈ visited) :
    ∃ parent, t.visit f.edges b = t.setParent b parent ∧ t.Visits f b parent := by
  obtain ⟨inner, source, member, edge, before⟩ := lists_led f visited rest b (order ▸ stage.sound.lists) begun
  exact visit_spec f t stage.sound b source (by simp [order]) inner edge (stage.settled source member)
    (by simpa [DominatorTree.place, order] using before)

theorem stage_visit (f : Func) (t : DominatorTree) (bound : Nat) (visited rest : List Nat) (b : Nat)
    (stage : t.Stage f bound visited) (order : t.order = visited ++ b :: rest) (begun : 0 ∈ visited) :
    (t.visit f.edges b).Stage f bound (visited ++ [b]) ∧ (t.visit f.edges b).order = t.order := by
  obtain ⟨parent, set, visits⟩ := stage_visits f t bound visited rest b stage order begun
  have here := visit_tight f t bound visited b parent stage visits
  have held := settled_set f t stage.sound b parent visits
  rw [set]
  refine ⟨⟨visit_sound f t stage.sound b parent visits, fun x member => ?_, fun x before walked short => ?_,
    fun x => ?_, fun x member => ?_⟩, rfl⟩
  · rw [held]
    rcases List.mem_append.mp member with old | new
    · exact Or.inr (stage.settled x old)
    · exact Or.inl (List.mem_singleton.mp new)
  · exact (held x).mpr (Or.inr (stage.close x before walked short))
  · exact tight_set f t stage.sound bound b parent x visits (tight_mono f _ bound b here) (stage.tight x)
  · rcases List.mem_append.mp member with old | new
    · exact tight_set f t stage.sound (bound + 1) b parent x visits here (stage.tighter x old)
    · exact List.mem_singleton.mp new ▸ here

theorem stage_visit_all (f : Func) (t : DominatorTree) (bound : Nat) (visited next rest : List Nat)
    (stage : t.Stage f bound visited) (order : t.order = visited ++ (next ++ rest)) (begun : 0 ∈ visited) :
    (next.foldl (DominatorTree.visit f.edges) t).Stage f bound (visited ++ next) ∧
      (next.foldl (DominatorTree.visit f.edges) t).order = t.order := by
  induction next generalizing t visited with
  | nil => simpa using stage
  | cons b next ih =>
      obtain ⟨stepped, same⟩ := stage_visit f t bound visited (next ++ rest) b stage order begun
      have later := ih (t.visit f.edges b) (visited ++ [b]) stepped (by simp [same, order]) (by simp [begun])
      simpa [same] using later

theorem order_cons (f : Func) (t : DominatorTree) (sound : t.Sound f) : t.order = 0 :: t.order.tail := by
  obtain ⟨rest, same⟩ := List.head?_eq_some_iff.mp sound.lists.first
  rw [same]
  rfl

theorem stage_start (f : Func) (t : DominatorTree) (bound : Nat) (sound : t.Sound f)
    (close : ∀ b before, f.Path (b :: before) → before.length ≤ bound → t.Settled b)
    (tight : ∀ b, t.Tight f bound b) : t.Stage f bound [0] := by
  refine ⟨sound, ?_, close, tight, ?_⟩
  · simp [DominatorTree.Settled, sound.entry]
  · intro b member a above before _ _
    obtain rfl := List.mem_singleton.mp member
    simp [above_entry f t sound a above]

theorem sweep_stage (f : Func) (t : DominatorTree) (bound : Nat) (stage : t.Stage f bound [0]) :
    (t.sweep f.edges).Stage f (bound + 1) [0] ∧ (t.sweep f.edges).order = t.order := by
  have order := order_cons f t stage.sound
  obtain ⟨swept, same⟩ := stage_visit_all f t bound [0] t.order.tail [] stage (by simpa using order) (by simp)
  rw [List.singleton_append, ← order] at swept
  refine ⟨stage_start f _ (bound + 1) swept.sound (fun b before walked _ => ?_) (fun b => ?_), same⟩
  · exact swept.settled b ((stage.sound.lists.reached b).mpr ⟨before, walked⟩)
  · intro a above before walked short
    exact swept.tighter b ((stage.sound.lists.reached b).mpr ⟨before, walked⟩) a above before walked short

theorem bare_parent (f : Func) (someBlock : 0 < f.blocks.length) (b : Nat) :
    f.bareTree.parent? b = if b = 0 then some 0 else none := by
  by_cases here : b = 0
  · subst here
    simp [Func.bareTree, DominatorTree.parent?, Array.getD_eq_getD_getElem?, someBlock]
  · have bare : ((Array.replicate f.blocks.length (none : Option Nat))[b]?).getD none = none := by
      rw [Array.getElem?_replicate]
      split <;> rfl
    simpa [Func.bareTree, DominatorTree.parent?, Array.getD_eq_getD_getElem?, here, Ne.symm here] using bare

theorem bare_sound (f : Func) (someBlock : 0 < f.blocks.length) : f.bareTree.Sound f := by
  have lists := walk_lists f someBlock
  have only (b parent : Nat) (step : f.bareTree.parent? b = some parent) : b = 0 ∧ parent = 0 := by
    rw [bare_parent f someBlock] at step
    by_cases here : b = 0
    · rw [if_pos here] at step
      exact ⟨here, (Option.some.inj step).symm⟩
    · simp [here] at step
  refine ⟨lists, by simp [Func.bareTree], by simp [bare_parent f someBlock], ?_, ?_, ?_, ?_⟩ <;> intro b parent step
  · rw [(only b parent step).1]
    exact List.mem_of_mem_head? lists.first
  · rw [(only b parent step).2]
    simp [DominatorTree.Settled, bare_parent f someBlock]
  · exact fun inner => absurd (only b parent step).1 inner
  · rw [(only b parent step).1, (only b parent step).2]
    exact fun _ _ dom => dom

theorem bare_stage (f : Func) (someBlock : 0 < f.blocks.length) : f.bareTree.Stage f 0 [0] := by
  have sound := bare_sound f someBlock
  refine stage_start f _ 0 sound (fun b before walked short => ?_) (fun b a above before walked short => ?_)
  · obtain rfl := List.length_eq_zero_iff.mp (Nat.le_zero.mp short)
    rw [path_alone f b walked]
    simp [DominatorTree.Settled, sound.entry]
  · obtain rfl := List.length_eq_zero_iff.mp (Nat.le_zero.mp short)
    obtain rfl := path_alone f b walked
    simp [above_entry f _ sound a above]

theorem rounds_stage (f : Func) (someBlock : 0 < f.blocks.length) (rounds : Nat) :
    ((DominatorTree.sweep f.edges)^[rounds] f.bareTree).Stage f rounds [0] ∧
      ((DominatorTree.sweep f.edges)^[rounds] f.bareTree).order = f.walk := by
  induction rounds with
  | zero => exact ⟨bare_stage f someBlock, rfl⟩
  | succ rounds ih =>
      rw [Function.iterate_succ_apply']
      obtain ⟨swept, same⟩ := sweep_stage f _ rounds ih.1
      exact ⟨swept, same.trans ih.2⟩

theorem settle_eq_iterate (edges : List (Nat × Nat)) (rounds : Nat) (t : DominatorTree) :
    t.settle edges rounds = (DominatorTree.sweep edges)^[rounds] t := by
  induction rounds generalizing t with
  | zero => rfl
  | succ rounds ih =>
      unfold DominatorTree.settle
      by_cases fixed : t.sweep edges = t
      · rw [Function.iterate_fixed fixed]
        simp [fixed]
      · simp only [if_neg fixed]
        rw [ih, Function.iterate_succ_apply]

theorem dominator_tree_stage (f : Func) (someBlock : 0 < f.blocks.length) :
    f.dominatorTree.Stage f f.blocks.length [0] := by
  rw [Func.dominatorTree, settle_eq_iterate]
  exact (rounds_stage f someBlock f.blocks.length).1

section Exact

variable (f : Func) (t : DominatorTree) (stage : t.Stage f f.blocks.length [0])
include stage

theorem settled_iff_reached (b : Nat) : t.Settled b ↔ ∃ before, f.Path (b :: before) := by
  constructor
  · intro settled
    obtain ⟨parent, step⟩ := (settled_iff t b).mp settled
    exact (stage.sound.lists.reached b).mp (stage.sound.listed b parent step)
  · rintro ⟨before, walked⟩
    obtain ⟨short, part, bounded, _⟩ := path_short f b before walked
    exact stage.close b short part bounded

theorem above_iff_dominates (a b : Nat) (settled : t.Settled b) : t.Above a b ↔ f.Dominates a b := by
  refine ⟨fun above before walked => ?_, dominator_above f t stage.sound a b settled⟩
  obtain ⟨short, part, bounded, within⟩ := path_short f b before walked
  exact within (stage.tight b a above short part bounded)

theorem visits_dominates (b parent : Nat) (visits : t.Visits f b parent) : f.Dominates parent b := by
  intro before walked
  cases walked with
  | entry _ => exact absurd rfl visits.inner
  | cross source _ before walked edge =>
      have held := (settled_iff_reached f t stage source).mpr ⟨before, walked⟩
      have dom := (above_iff_dominates f t stage parent source held).mp (visits.above source edge held)
      exact List.mem_cons_of_mem b (dom before walked)

-- A visit gives a block the parent that it has: both are its nearest strict dominator.
theorem visit_fixed (b parent : Nat) (visits : t.Visits f b parent) : t.setParent b parent = t := by
  have settled := (settled_iff_reached f t stage b).mpr ((stage.sound.lists.reached b).mp visits.member)
  obtain ⟨old, step⟩ := (settled_iff t b).mp settled
  have oldAbove : t.Above old parent := by
    have dom := (above_iff_dominates f t stage old b settled).mp (.up b old step .self)
    have lower := stage.sound.earlier b old step visits.inner
    have different : old ≠ b := fun same => by rw [same] at lower; omega
    exact (above_iff_dominates f t stage old parent visits.settled).mpr (visits.kept old different dom)
  have newAbove : t.Above parent old := by
    have above := (above_iff_dominates f t stage parent b settled).mpr (visits_dominates f t stage b parent visits)
    have lower := visits.earlier
    cases above with
    | self => omega
    | up _ other stored higher => exact Option.some.inj (stored.symm.trans step) ▸ higher
  rw [above_antisymm f t stage.sound parent old newAbove oldAbove]
  exact set_parent_same t b old step

theorem stage_any (visited : List Nat) (within : visited ⊆ t.order) : t.Stage f f.blocks.length visited := by
  have settled (b : Nat) (member : b ∈ visited) : t.Settled b :=
    (settled_iff_reached f t stage b).mpr ((stage.sound.lists.reached b).mp (within member))
  refine ⟨stage.sound, settled, stage.close, stage.tight, fun b member a above before walked _ => ?_⟩
  exact (above_iff_dominates f t stage a b (settled b member)).mp above before walked

theorem sweep_fixed : t.sweep f.edges = t := by
  have order := order_cons f t stage.sound
  have run (blocks : List Nat) (within : blocks ⊆ t.order.tail) : blocks.foldl (DominatorTree.visit f.edges) t = t := by
    induction blocks with
    | nil => rfl
    | cons b rest ih =>
        obtain ⟨front, back, split⟩ := List.append_of_mem (within (List.mem_cons_self ..))
        have whole : t.order = (0 :: front) ++ b :: back := by rw [order, split]; rfl
        have now := stage_any f t stage (0 :: front) (by rw [whole]; exact List.subset_append_left _ _)
        obtain ⟨parent, set, visits⟩ := stage_visits f t f.blocks.length (0 :: front) back b now whole (by simp)
        rw [List.foldl_cons, set, visit_fixed f t stage b parent visits]
        exact ih (List.subset_of_cons_subset within)
  exact run t.order.tail (List.Subset.refl _)

theorem tree_dominates_iff (a b : Nat) : t.dominates a b = true ↔ f.Dominates a b := by
  rw [DominatorTree.dominates, Bool.or_eq_true]
  by_cases settled : t.Settled b
  · rw [settled_has_parent t b settled, leads_up_iff f t stage.sound a b settled, above_iff_dominates f t stage a b settled]
    simp
  · have unreached := mt (settled_iff_reached f t stage b).mpr settled
    exact iff_of_true (Or.inl (unsettled_no_parent t b settled)) fun before walked => absurd ⟨before, walked⟩ unreached

end Exact

def Func.treeAfter (f : Func) (rounds visits : Nat) : DominatorTree :=
  (f.walk.tail.take visits).foldl (DominatorTree.visit f.edges) ((DominatorTree.sweep f.edges)^[rounds] f.bareTree)

theorem tree_after_sound (f : Func) (someBlock : 0 < f.blocks.length) (rounds visits : Nat) :
    (f.treeAfter rounds visits).Sound f ∧ (f.treeAfter rounds visits).order = f.walk := by
  obtain ⟨stage, same⟩ := rounds_stage f someBlock rounds
  have order := order_cons f _ stage.sound
  obtain ⟨visited, kept⟩ := stage_visit_all f _ rounds [0] (f.walk.tail.take visits) (f.walk.tail.drop visits) stage
    (by rw [order, same, List.take_append_drop]; rfl) (by simp)
  exact ⟨visited.sound, kept.trans same⟩

theorem dominator_tree_after (f : Func) : f.dominatorTree = f.treeAfter f.blocks.length 0 := by
  simp [Func.dominatorTree, settle_eq_iterate, Func.treeAfter]

theorem tree_after_empty (f : Func) (empty : f.blocks.length = 0) (rounds visits : Nat) :
    f.treeAfter rounds visits = ⟨[], #[]⟩ := by
  have walk : f.walk = [] := by simp [Func.walk, List.length_eq_zero_iff.mp empty]
  have bare : f.bareTree = ⟨[], #[]⟩ := by simp [Func.bareTree, walk, empty]
  have fixed : DominatorTree.sweep f.edges f.bareTree = f.bareTree := by simp [DominatorTree.sweep, bare]
  rw [Func.treeAfter, walk, Function.iterate_fixed fixed, List.tail_nil, List.take_nil, List.foldl_nil, bare]

theorem dominates_exact (f : Func) (a b : Nat) : f.dominates a b = true ↔ f.Dominates a b := by
  rcases Nat.eq_zero_or_pos f.blocks.length with empty | someBlock
  · refine iff_of_true ?_ fun before walked => ?_
    · rw [Func.dominates, dominator_tree_after, tree_after_empty f empty]
      rfl
    · have inside := path_bounded f _ walked b (by simp)
      omega
  · exact tree_dominates_iff f _ (dominator_tree_stage f someBlock) a b

theorem dominator_tree_exact (f : Func) :
    (∀ rounds visits b parent, (f.treeAfter rounds visits).parent? b = some parent →
      (b = 0 ∧ parent = 0) ∨ f.walk.idxOf parent < f.walk.idxOf b) ∧
    (∀ rounds visits a b, (f.treeAfter rounds visits).Settled a → (f.treeAfter rounds visits).Settled b →
      ∃ c, (f.treeAfter rounds visits).meet? a b = some c) ∧
    f.dominatorTree = f.treeAfter f.blocks.length 0 ∧
    f.dominatorTree.sweep f.edges = f.dominatorTree ∧
    ∀ a b, f.dominates a b = true ↔
      (¬ ∃ before, f.Path (b :: before)) ∨ ∀ before, f.Path (b :: before) → a ∈ b :: before := by
  have answers (a b : Nat) : f.dominates a b = true ↔
      (¬ ∃ before, f.Path (b :: before)) ∨ ∀ before, f.Path (b :: before) → a ∈ b :: before := by
    rw [dominates_exact]
    refine ⟨Or.inr, ?_⟩
    rintro (unreached | every) before walked
    · exact absurd ⟨before, walked⟩ unreached
    · exact every before walked
  rcases Nat.eq_zero_or_pos f.blocks.length with empty | someBlock
  · have none (rounds visits b : Nat) : (f.treeAfter rounds visits).parent? b = none := by
      rw [tree_after_empty f empty]
      rfl
    refine ⟨fun rounds visits b parent step => ?_, fun rounds visits a b settled => ?_, dominator_tree_after f, ?_, answers⟩
    · simp [none] at step
    · simp [DominatorTree.Settled, none] at settled
    · rw [dominator_tree_after, tree_after_empty f empty]
      rfl
  · refine ⟨fun rounds visits b parent step => ?_, fun rounds visits a b settledA settledB => ?_, dominator_tree_after f,
      sweep_fixed f _ (dominator_tree_stage f someBlock), answers⟩
    · obtain ⟨sound, order⟩ := tree_after_sound f someBlock rounds visits
      by_cases here : b = 0
      · rw [here, sound.entry] at step
        exact Or.inl ⟨here, (Option.some.inj step).symm⟩
      · right
        rw [← order]
        exact sound.earlier b parent step here
    · obtain ⟨sound, _⟩ := tree_after_sound f someBlock rounds visits
      obtain ⟨c, met, _⟩ := meet_spec f _ sound a b settledA settledB
      exact ⟨c, met⟩

end Regroup
