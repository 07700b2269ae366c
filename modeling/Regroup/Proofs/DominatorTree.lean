import Mathlib
import Regroup.Proofs.Walk

set_option autoImplicit false

namespace Regroup

-- `a` is `b`, or the climb from `b` by parents comes to it.
inductive DominatorTree.Above (t : DominatorTree) (a : Nat) : Nat → Prop where
  | self : t.Above a a
  | up (b parent : Nat) (step : t.parent? b = some parent) (above : t.Above a parent) : t.Above a b

theorem above_trans (t : DominatorTree) (a b c : Nat) (ab : t.Above a b) (bc : t.Above b c) : t.Above a c := by
  induction bc with
  | self => exact ab
  | up c parent step _ ih => exact .up c parent step ih

def DominatorTree.Settled (t : DominatorTree) (b : Nat) : Prop := (t.parent? b).isSome = true

theorem settled_iff (t : DominatorTree) (b : Nat) : t.Settled b ↔ ∃ parent, t.parent? b = some parent :=
  Option.isSome_iff_exists

theorem settled_has_parent (t : DominatorTree) (b : Nat) (settled : t.Settled b) : (t.parent? b).isNone = false := by
  simpa [DominatorTree.Settled] using settled

theorem unsettled_no_parent (t : DominatorTree) (b : Nat) (unsettled : ¬ t.Settled b) : (t.parent? b).isNone = true := by
  simpa [DominatorTree.Settled] using unsettled

-- What holds of the table of parents at every moment. No strict dominator of a block is lost on the way to its parent.
structure DominatorTree.Sound (t : DominatorTree) (f : Func) : Prop where
  lists : f.Lists t.order
  size : t.parents.size = f.blocks.length
  entry : t.parent? 0 = some 0
  listed : ∀ b parent, t.parent? b = some parent → b ∈ t.order
  known : ∀ b parent, t.parent? b = some parent → t.Settled parent
  earlier : ∀ b parent, t.parent? b = some parent → b ≠ 0 → t.place parent < t.place b
  kept : ∀ b parent, t.parent? b = some parent → ∀ a, a ≠ b → f.Dominates a b → f.Dominates a parent

section Climb

variable (f : Func) (t : DominatorTree) (sound : t.Sound f)
include sound

theorem place_entry : t.place 0 = 0 := by
  obtain ⟨rest, same⟩ := List.head?_eq_some_iff.mp sound.lists.first
  simp [DominatorTree.place, same]

theorem some_block : 0 < f.blocks.length := by
  obtain ⟨_, walked⟩ := (sound.lists.reached 0).mp (List.mem_of_mem_head? sound.lists.first)
  exact path_bounded f _ walked 0 (by simp)

theorem later_not_entry (a b : Nat) (later : t.place a < t.place b) : b ≠ 0 := by
  rintro rfl
  rw [place_entry f t sound] at later
  omega

theorem place_inj (a b : Nat) (settledA : t.Settled a) (same : t.place a = t.place b) : a = b := by
  obtain ⟨parent, stored⟩ := (settled_iff t a).mp settledA
  exact (List.idxOf_inj (sound.listed a parent stored)).mp same

theorem settled_above (a b : Nat) (above : t.Above a b) (settled : t.Settled b) : t.Settled a := by
  induction above with
  | self => exact settled
  | up b parent step _ ih => exact ih (sound.known b parent step)

theorem above_earlier (a b : Nat) (above : t.Above a b) : a = b ∨ t.place a < t.place b := by
  induction above with
  | self => exact Or.inl rfl
  | up b parent step _ ih =>
      by_cases here : b = 0
      · have same : parent = b := by
          rw [here, sound.entry] at step
          rw [here, ← Option.some.inj step]
        exact same ▸ ih
      · have before := sound.earlier b parent step here
        rcases ih with same | less
        · exact Or.inr (same ▸ before)
        · exact Or.inr (by omega)

theorem above_entry (a : Nat) (above : t.Above a 0) : a = 0 := by
  rcases above_earlier f t sound a 0 above with same | less
  · exact same
  · exact absurd rfl (later_not_entry f t sound a 0 less)

theorem above_antisymm (a b : Nat) (ab : t.Above a b) (ba : t.Above b a) : a = b := by
  rcases above_earlier f t sound a b ab with same | less
  · exact same
  · rcases above_earlier f t sound b a ba with same | more
    · exact same.symm
    · omega

theorem dominator_above (a b : Nat) (settled : t.Settled b) (dom : f.Dominates a b) : t.Above a b := by
  induction place : t.place b using Nat.strongRecOn generalizing b with
  | ind place_b ih =>
      by_cases same : a = b
      · exact same ▸ .self
      · obtain ⟨parent, step⟩ := (settled_iff t b).mp settled
        have inner : b ≠ 0 := by
          rintro rfl
          exact same (dominates_of_entry f a (some_block f t sound) dom)
        refine .up b parent step (ih (t.place parent) ?_ parent (sound.known b parent step)
          (sound.kept b parent step a same dom) rfl)
        exact place ▸ sound.earlier b parent step inner

theorem dominator_earlier (a b : Nat) (settled : t.Settled b) (dom : f.Dominates a b) : t.place a ≤ t.place b := by
  rcases above_earlier f t sound a b (dominator_above f t sound a b settled dom) with same | less
  · exact (congrArg t.place same).le
  · exact less.le

theorem meet_spec (a b : Nat) (settledA : t.Settled a) (settledB : t.Settled b) :
    ∃ c, t.meet? a b = some c ∧ t.Above c a ∧ t.Above c b ∧
      ∀ d, f.Dominates d a → f.Dominates d b → f.Dominates d c := by
  fun_induction DominatorTree.meet? with
  | case1 a => exact ⟨a, rfl, .self, .self, fun _ dom _ => dom⟩
  | case2 a b different later parent step lower ih =>
      obtain ⟨c, met, aboveParent, aboveB, common⟩ := ih (sound.known a parent step) settledB
      refine ⟨c, met, .up a parent step aboveParent, aboveB, fun d domA domB => ?_⟩
      have early := dominator_earlier f t sound d b settledB domB
      exact common d (sound.kept a parent step d (fun same => by rw [same] at early; omega) domA) domB
  | case3 a b different later parent step higher =>
      exact absurd (sound.earlier a parent step (later_not_entry f t sound b a later)) higher
  | case4 a b different later missing => simp [DominatorTree.Settled, missing] at settledA
  | case5 a b different notLater parent step lower ih =>
      obtain ⟨c, met, aboveA, aboveParent, common⟩ := ih settledA (sound.known b parent step)
      have before : t.place a ≠ t.place b := fun same => different (place_inj f t sound a b settledA same)
      refine ⟨c, met, aboveA, .up b parent step aboveParent, fun d domA domB => ?_⟩
      have early := dominator_earlier f t sound d a settledA domA
      exact common d domA (sound.kept b parent step d (fun same => by rw [same] at early; omega) domB)
  | case6 a b different notLater parent step higher =>
      have before : t.place a ≠ t.place b := fun same => different (place_inj f t sound a b settledA same)
      exact absurd (sound.earlier b parent step (later_not_entry f t sound a b (by omega))) higher
  | case7 a b different notLater missing => simp [DominatorTree.Settled, missing] at settledB

theorem leads_up_iff (a b : Nat) (settled : t.Settled b) : t.leadsUp b a = true ↔ t.Above a b := by
  fun_induction DominatorTree.leadsUp t b a with
  | case1 => simp [DominatorTree.Above.self]
  | case2 b different parent step lower ih =>
      rw [ih (sound.known b parent step)]
      refine ⟨.up b parent step, fun above => ?_⟩
      cases above with
      | self => exact absurd rfl different
      | up _ other stored above => exact Option.some.inj (stored.symm.trans step) ▸ above
  | case3 b different parent step higher =>
      have here : b = 0 := by
        by_contra inner
        exact higher (sound.earlier b parent step inner)
      simp only [Bool.false_eq_true, false_iff]
      intro above
      subst here
      exact different (above_entry f t sound a above).symm
  | case4 b different missing => simp [DominatorTree.Settled, missing] at settled

end Climb

def DominatorTree.Joined (t : DominatorTree) (f : Func) (sources : List Nat) : Option Nat → Prop
  | none => ∀ source ∈ sources, ¬ t.Settled source
  | some c => t.Settled c ∧ (∀ source ∈ sources, t.Settled source → t.Above c source) ∧
      ∀ d, (∀ source ∈ sources, t.Settled source → f.Dominates d source) → f.Dominates d c

theorem join_step (f : Func) (t : DominatorTree) (sound : t.Sound f) (sources : List Nat) (source : Nat)
    (common : Option Nat) (joined : t.Joined f sources common) :
    t.Joined f (sources ++ [source]) (t.join common source) := by
  unfold DominatorTree.join
  by_cases settled : t.Settled source
  · rw [settled_has_parent t source settled]
    cases common with
    | none =>
        have only : ∀ s ∈ sources ++ [source], t.Settled s → s = source := by
          intro s member held
          rcases List.mem_append.mp member with old | new
          · exact absurd held (joined s old)
          · exact List.mem_singleton.mp new
        exact ⟨settled, fun s member held => only s member held ▸ .self, fun d dom => dom source (by simp) settled⟩
    | some current =>
        obtain ⟨settledCurrent, above, common⟩ := joined
        -- the meeting point is above both, and no common dominator is below it
        obtain ⟨c, met, aboveCurrent, aboveSource, lowest⟩ := meet_spec f t sound current source settledCurrent settled
        simp only [Bool.false_eq_true, if_false, met]
        refine ⟨settled_above f t sound c source aboveSource settled, fun s member held => ?_, fun d dom => ?_⟩
        · rcases List.mem_append.mp member with old | new
          · exact above_trans t c current s aboveCurrent (above s old held)
          · exact List.mem_singleton.mp new ▸ aboveSource
        · exact lowest d (common d fun s old => dom s (List.mem_append_left _ old)) (dom source (by simp) settled)
  · have same : ∀ s ∈ sources ++ [source], t.Settled s → s ∈ sources := by
      intro s member held
      rcases List.mem_append.mp member with old | new
      · exact old
      · exact absurd (List.mem_singleton.mp new ▸ held) settled
    rw [unsettled_no_parent t source settled, if_pos rfl]
    cases common with
    | none => exact fun s member held => joined s (same s member held) held
    | some c =>
        obtain ⟨settledC, above, common⟩ := joined
        exact ⟨settledC, fun s member held => above s (same s member held) held,
          fun d dom => common d fun s old => dom s (List.mem_append_left _ old)⟩

theorem join_all (f : Func) (t : DominatorTree) (sound : t.Sound f) (sources more : List Nat) (common : Option Nat)
    (joined : t.Joined f sources common) : t.Joined f (sources ++ more) (more.foldl t.join common) := by
  induction more generalizing sources common with
  | nil => simpa using joined
  | cons source rest ih =>
      have next := ih (sources ++ [source]) (t.join common source) (join_step f t sound sources source common joined)
      simpa using next

theorem parent_set (f : Func) (t : DominatorTree) (sound : t.Sound f) (b parent x : Nat) (member : b ∈ t.order) :
    (t.setParent b parent).parent? x = if x = b then some parent else t.parent? x := by
  obtain ⟨_, walked⟩ := (sound.lists.reached b).mp member
  have inside : b < t.parents.size := by
    rw [sound.size]
    exact path_bounded f _ walked b (by simp)
  by_cases same : x = b
  · subst same
    simp [DominatorTree.parent?, DominatorTree.setParent, Array.getD_eq_getD_getElem?, inside]
  · simp [DominatorTree.parent?, DominatorTree.setParent, Array.getD_eq_getD_getElem?, same, Ne.symm same]

theorem set_parent_same (t : DominatorTree) (b parent : Nat) (stored : t.parent? b = some parent) :
    t.setParent b parent = t := by
  have kept : t.parents.setIfInBounds b (some parent) = t.parents := by
    apply Array.ext_getElem?
    intro i
    rw [Array.getElem?_setIfInBounds]
    by_cases here : b = i
    · subst here
      have inside : b < t.parents.size := by
        by_contra outside
        simp [DominatorTree.parent?, outside] at stored
      simpa [DominatorTree.parent?, Array.getD_eq_getD_getElem?, inside] using stored.symm
    · simp [here]
  rw [DominatorTree.setParent, kept]

-- One visit: the new parent of `b` is above all its sources, and no strict dominator of `b` is lost.
structure DominatorTree.Visits (t : DominatorTree) (f : Func) (b parent : Nat) : Prop where
  member : b ∈ t.order
  inner : b ≠ 0
  settled : t.Settled parent
  earlier : t.place parent < t.place b
  above : ∀ source, (source, b) ∈ f.edges → t.Settled source → t.Above parent source
  kept : ∀ a, a ≠ b → f.Dominates a b → f.Dominates a parent

theorem visit_spec (f : Func) (t : DominatorTree) (sound : t.Sound f) (b source : Nat) (member : b ∈ t.order)
    (inner : b ≠ 0) (edge : (source, b) ∈ f.edges) (settled : t.Settled source) (before : t.place source < t.place b) :
    ∃ parent, t.visit f.edges b = t.setParent b parent ∧ t.Visits f b parent := by
  have joined := join_all f t sound [] (sourcesOf f.edges b) none (by simp [DominatorTree.Joined])
  rw [List.nil_append] at joined
  have listed := (mem_sources_of f.edges source b).mpr edge
  unfold DominatorTree.visit
  cases result : (sourcesOf f.edges b).foldl t.join none with
  | none =>
      rw [result] at joined
      exact absurd settled (joined source listed)
  | some parent =>
      rw [result] at joined
      obtain ⟨settledParent, above, common⟩ := joined
      refine ⟨parent, rfl, member, inner, settledParent, ?_, ?_, ?_⟩
      · rcases above_earlier f t sound parent source (above source listed settled) with same | less
        · exact same ▸ before
        · exact less.trans before
      · exact fun s leads held => above s ((mem_sources_of f.edges s b).mpr leads) held
      · exact fun a different dom => common a fun s leads _ =>
          dominates_source f a s b ((mem_sources_of f.edges s b).mp leads) different dom

section Visit

variable (f : Func) (t : DominatorTree) (sound : t.Sound f) (b parent : Nat) (visits : t.Visits f b parent)
include sound visits

theorem settled_set (x : Nat) : (t.setParent b parent).Settled x ↔ x = b ∨ t.Settled x := by
  rw [DominatorTree.Settled, DominatorTree.Settled, parent_set f t sound b parent x visits.member]
  by_cases same : x = b
  · simp [same]
  · simp [same]

theorem parent_set_cases (x p : Nat) (step : (t.setParent b parent).parent? x = some p) :
    (x = b ∧ p = parent) ∨ (x ≠ b ∧ t.parent? x = some p) := by
  rw [parent_set f t sound b parent x visits.member] at step
  by_cases here : x = b
  · rw [if_pos here] at step
    exact Or.inl ⟨here, (Option.some.inj step).symm⟩
  · rw [if_neg here] at step
    exact Or.inr ⟨here, step⟩

theorem visit_sound : (t.setParent b parent).Sound f := by
  have cases := parent_set_cases f t sound b parent visits
  refine ⟨sound.lists, by simp [DominatorTree.setParent, sound.size], ?_, ?_, ?_, ?_, ?_⟩
  · rw [parent_set f t sound b parent 0 visits.member, if_neg visits.inner.symm]
    exact sound.entry
  · intro x p step
    rcases cases x p step with ⟨rfl, rfl⟩ | ⟨_, old⟩
    · exact visits.member
    · exact sound.listed x p old
  · intro x p step
    rw [settled_set f t sound b parent visits]
    rcases cases x p step with ⟨rfl, rfl⟩ | ⟨_, old⟩
    · exact Or.inr visits.settled
    · exact Or.inr (sound.known x p old)
  · intro x p step inner
    rcases cases x p step with ⟨rfl, rfl⟩ | ⟨_, old⟩
    · exact visits.earlier
    · exact sound.earlier x p old inner
  · intro x p step
    rcases cases x p step with ⟨rfl, rfl⟩ | ⟨_, old⟩
    · exact visits.kept
    · exact sound.kept x p old

theorem above_set (a x : Nat) (above : (t.setParent b parent).Above a x) :
    t.Above a x ∨ (t.Above b x ∧ (t.setParent b parent).Above a b) := by
  induction above with
  | self => exact Or.inl .self
  | up x p step higher ih =>
      rcases parent_set_cases f t sound b parent visits x p step with ⟨rfl, _⟩ | ⟨_, old⟩
      · exact Or.inr ⟨.self, .up x p step higher⟩
      · exact ih.imp (.up x p old) fun ⟨first, rest⟩ => ⟨.up x p old first, rest⟩

theorem above_visited (a : Nat) (above : (t.setParent b parent).Above a b) : a = b ∨ t.Above a parent := by
  cases above with
  | self => exact Or.inl rfl
  | up _ p step higher =>
      rcases parent_set_cases f t sound b parent visits b p step with ⟨_, rfl⟩ | ⟨other, _⟩
      · rcases above_set f t sound b p visits a p higher with old | ⟨below, _⟩
        · exact Or.inr old
        · have before := visits.earlier
          rcases above_earlier f t sound b p below with same | less
          · rw [same] at before
            omega
          · omega
      · exact absurd rfl other

end Visit

end Regroup
