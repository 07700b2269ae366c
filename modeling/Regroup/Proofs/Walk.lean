import Mathlib
import Regroup.Func.Dominators
import Regroup.Proofs.Paths

set_option autoImplicit false

namespace Regroup

-- What an order of blocks needs for one sweep to give every reached block a parent.
structure Func.Lists (f : Func) (order : List Nat) : Prop where
  first : order.head? = some 0
  distinct : order.Nodup
  led : ∀ b ∈ order, b = 0 ∨ ∃ source, (source, b) ∈ f.edges ∧ [source, b].Sublist order
  reached : ∀ b, b ∈ order ↔ ∃ before, f.Path (b :: before)

-- The blocks that a walk has come to: those on its stack, from the entry on, and then the finished ones.
def cameTo (finished : List Nat) (stack : List (Nat × List Nat)) : List Nat := (stack.map Prod.fst).reverse ++ finished

structure Func.Walking (f : Func) (fresh finished : List Nat) (stack : List (Nat × List Nat)) : Prop where
  parts : (fresh ++ cameTo finished stack).Perm (List.range f.blocks.length)
  first : (cameTo finished stack).head? = some 0
  led : ∀ b ∈ cameTo finished stack,
    b = 0 ∨ ∃ source, (source, b) ∈ f.edges ∧ [source, b].Sublist (cameTo finished stack)
  reached : ∀ b ∈ cameTo finished stack, ∃ before, f.Path (b :: before)
  left : ∀ entry ∈ stack, ∀ target ∈ entry.2, (entry.1, target) ∈ f.edges
  looked : ∀ entry ∈ stack, ∀ target, (entry.1, target) ∈ f.edges → target ∈ entry.2 ∨ target ∉ fresh
  closed : ∀ b ∈ finished, ∀ target, (b, target) ∈ f.edges → target ∉ fresh

theorem came_to_top (finished : List Nat) (b : Nat) (rest : List Nat) (stack : List (Nat × List Nat)) :
    cameTo finished ((b, rest) :: stack) = (stack.map Prod.fst).reverse ++ b :: finished := by
  simp [cameTo]

section Walk

variable (f : Func) (fresh finished : List Nat) (b target : Nat) (rest : List Nat) (stack : List (Nat × List Nat))

theorem walking_finish (walking : f.Walking fresh finished ((b, []) :: stack)) :
    f.Walking fresh (b :: finished) stack := by
  have same : cameTo (b :: finished) stack = cameTo finished ((b, []) :: stack) := (came_to_top finished b [] stack).symm
  refine ⟨same ▸ walking.parts, same ▸ walking.first, same ▸ walking.led, same ▸ walking.reached, ?_, ?_, ?_⟩
  · exact fun entry member => walking.left entry (List.mem_cons_of_mem _ member)
  · exact fun entry member => walking.looked entry (List.mem_cons_of_mem _ member)
  · refine List.forall_mem_cons.mpr ⟨fun target edge => ?_, walking.closed⟩
    exact (walking.looked (b, []) (by simp) target edge).resolve_left (by simp)

theorem looked_on (fewer : List Nat) (walking : f.Walking fresh finished ((b, target :: rest) :: stack))
    (seen : target ∉ fewer) (subset : fewer ⊆ fresh) : ∀ entry ∈ (b, rest) :: stack, ∀ next,
      (entry.1, next) ∈ f.edges → next ∈ entry.2 ∨ next ∉ fewer := by
  obtain ⟨top, others⟩ := List.forall_mem_cons.mp walking.looked
  refine List.forall_mem_cons.mpr ⟨fun next edge => ?_, fun entry member next edge => ?_⟩
  · rcases top next edge with listed | old
    · rcases List.mem_cons.mp listed with same | later
      · exact Or.inr (same ▸ seen)
      · exact Or.inl later
    · exact Or.inr fun present => old (subset present)
  · exact (others entry member next edge).imp_right fun old present => old (subset present)

theorem left_on (walking : f.Walking fresh finished ((b, target :: rest) :: stack)) : ∀ entry ∈ (b, rest) :: stack,
    ∀ next ∈ entry.2, (entry.1, next) ∈ f.edges := by
  obtain ⟨top, others⟩ := List.forall_mem_cons.mp walking.left
  exact List.forall_mem_cons.mpr ⟨fun next listed => top next (List.mem_cons_of_mem _ listed), others⟩

theorem walking_skip (walking : f.Walking fresh finished ((b, target :: rest) :: stack)) (seen : target ∉ fresh) :
    f.Walking fresh finished ((b, rest) :: stack) where
  parts := walking.parts
  first := walking.first
  led := walking.led
  reached := walking.reached
  left := left_on f fresh finished b target rest stack walking
  looked := looked_on f fresh finished b target rest stack fresh walking seen (List.Subset.refl _)
  closed := walking.closed

theorem walking_visit (walking : f.Walking fresh finished ((b, target :: rest) :: stack)) (new : target ∈ fresh) :
    f.Walking (fresh.erase target) finished ((target, targetsOf f.edges target) :: (b, rest) :: stack) := by
  have edge : (b, target) ∈ f.edges := walking.left (b, target :: rest) (by simp) target (by simp)
  have distinct : fresh.Nodup := (List.nodup_append.mp (walking.parts.nodup_iff.mpr List.nodup_range)).1
  have fewer : fresh.erase target ⊆ fresh := List.erase_subset
  -- the new block comes directly after the one that leads to it
  obtain ⟨parts, first, led, reached, _, _, closed⟩ := id walking
  rw [came_to_top] at parts first led reached
  have now : cameTo finished ((target, targetsOf f.edges target) :: (b, rest) :: stack) =
      (stack.map Prod.fst).reverse ++ b :: target :: finished := by
    simp [cameTo]
  have grown : ((stack.map Prod.fst).reverse ++ b :: finished).Sublist
      ((stack.map Prod.fst).reverse ++ b :: target :: finished) :=
    (List.Sublist.refl _).append ((List.sublist_cons_self _ _).cons_cons b)
  have added : ∀ c ∈ (stack.map Prod.fst).reverse ++ b :: target :: finished,
      c = target ∨ c ∈ (stack.map Prod.fst).reverse ++ b :: finished := by
    intro c member
    simp only [List.mem_append, List.mem_cons] at member ⊢
    tauto
  refine ⟨?_, ?_, ?_, ?_, ?_, ?_, ?_⟩
  · refine List.Perm.trans ?_ parts
    rw [now]
    calc fresh.erase target ++ ((stack.map Prod.fst).reverse ++ b :: target :: finished)
      _ = (fresh.erase target ++ ((stack.map Prod.fst).reverse ++ [b])) ++ target :: finished := by simp
      List.Perm _ (target :: (fresh.erase target ++ ((stack.map Prod.fst).reverse ++ [b]) ++ finished)) :=
        List.perm_middle
      _ = (target :: fresh.erase target) ++ ((stack.map Prod.fst).reverse ++ b :: finished) := by simp
      List.Perm _ (fresh ++ ((stack.map Prod.fst).reverse ++ b :: finished)) :=
        (List.perm_cons_erase new).symm.append_right _
  · rw [now, ← first]
    cases (stack.map Prod.fst).reverse <;> rfl
  · rw [now]
    intro c member
    rcases added c member with same | earlier
    · refine Or.inr ⟨b, same ▸ edge, ?_⟩
      rw [same]
      exact List.Sublist.trans (by simp) (List.sublist_append_right _ _)
    · rcases led c earlier with entry | ⟨source, before, sub⟩
      · exact Or.inl entry
      · exact Or.inr ⟨source, before, sub.trans grown⟩
  · rw [now]
    intro c member
    rcases added c member with same | earlier
    · obtain ⟨before, walked⟩ := reached b (by simp)
      exact ⟨b :: before, same ▸ .cross b target before walked edge⟩
    · exact reached c earlier
  · exact List.forall_mem_cons.mpr ⟨fun next listed => (mem_targets_of _ _ _).mp listed,
      left_on f fresh finished b target rest stack walking⟩
  · exact List.forall_mem_cons.mpr ⟨fun next leads => Or.inl ((mem_targets_of _ _ _).mpr leads),
      looked_on f fresh finished b target rest stack _ walking distinct.not_mem_erase fewer⟩
  · exact fun c member next leads present => closed c member next leads (fewer present)

end Walk

theorem walking_done (f : Func) (fresh finished : List Nat) (walking : f.Walking fresh finished []) :
    f.Lists finished := by
  have parts : (fresh ++ finished).Perm (List.range f.blocks.length) := by simpa [cameTo] using walking.parts
  refine ⟨by simpa [cameTo] using walking.first, ?_, by simpa [cameTo] using walking.led, fun b => ⟨fun member => ?_, ?_⟩⟩
  · exact (List.nodup_append.mp (parts.nodup_iff.mpr List.nodup_range)).2.1
  · exact walking.reached b (by simpa [cameTo] using member)
  · rintro ⟨before, walked⟩
    generalize same : b :: before = path at walked
    induction walked generalizing b before with
    | entry _ =>
        obtain ⟨rfl, rfl⟩ := List.cons.inj same
        have first : finished.head? = some 0 := by simpa [cameTo] using walking.first
        exact List.mem_of_mem_head? first
    | cross source target rest _ edge ih =>
        obtain ⟨rfl, rfl⟩ := List.cons.inj same
        have known := parts.mem_iff.mpr (List.mem_range.mpr (edge_target_lt f source b edge))
        exact (List.mem_append.mp known).resolve_left (walking.closed source (ih source rest rfl) b edge)

theorem walk_from_lists (f : Func) (fresh finished : List Nat) (stack : List (Nat × List Nat))
    (walking : f.Walking fresh finished stack) : f.Lists (walkFrom f.edges fresh finished stack) := by
  fun_induction walkFrom with
  | case1 fresh finished => exact walking_done f fresh finished walking
  | case2 fresh finished b stack ih => exact ih (walking_finish f fresh finished b stack walking)
  | case3 fresh finished b target rest stack new ih =>
      exact ih (walking_visit f fresh finished b target rest stack walking new)
  | case4 fresh finished b target rest stack seen ih =>
      exact ih (walking_skip f fresh finished b target rest stack walking seen)

theorem walk_lists (f : Func) (someBlock : 0 < f.blocks.length) : f.Lists f.walk := by
  rw [Func.walk, if_neg (by simpa using List.length_pos_iff.mp someBlock)]
  apply walk_from_lists
  refine ⟨?_, rfl, by simp [cameTo], ?_, ?_, ?_, by simp⟩
  · have perm := (List.perm_cons_erase (List.mem_range.mpr someBlock)).symm
    exact List.Perm.trans List.perm_append_comm (by simpa [cameTo] using perm)
  · intro b member
    obtain rfl : b = 0 := by simpa [cameTo] using member
    exact ⟨[], .entry someBlock⟩
  · simp [mem_targets_of]
  · simp +contextual [mem_targets_of]

theorem mem_walk_iff (f : Func) (b : Nat) : b ∈ f.walk ↔ f.Reaches none b := by
  have plain : f.Reaches none b ↔ ∃ before, f.Path (b :: before) := by simp [reaches_iff_path]
  rw [plain]
  rcases Nat.eq_zero_or_pos f.blocks.length with empty | someBlock
  · refine iff_of_false (by simp [Func.walk, List.length_eq_zero_iff.mp empty]) ?_
    rintro ⟨before, walked⟩
    have inside := path_bounded f _ walked b (by simp)
    omega
  · exact (walk_lists f someBlock).reached b

end Regroup
