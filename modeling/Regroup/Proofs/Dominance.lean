import Mathlib
import Regroup.Func.WellFormed
import Regroup.Proofs.Dominators

set_option autoImplicit false

namespace Regroup

theorem dominates_iff (f : Func) (a b : Nat) :
    f.dominates a b = true ↔ (f.Reaches none b → ¬ f.Reaches (some a) b) := by
  rw [dominates_exact]
  constructor
  · intro dom _ around
    obtain ⟨before, walked, other⟩ := (reaches_iff_path f (some a) b).mp around
    exact other a (dom before walked) rfl
  · intro every before walked
    by_contra missing
    refine every ((reaches_iff_path f none b).mpr ⟨before, walked, by simp⟩)
      ((reaches_iff_path f (some a) b).mpr ⟨before, walked, fun c member same => ?_⟩)
    exact missing (Option.some.inj same ▸ member)

theorem dominator_reached (f : Func) (a b : Nat) (path : f.Reaches none b) (dom : f.dominates a b = true) :
    f.Reaches none a :=
  (reaches_avoiding_or_through f none a b path).resolve_left ((dominates_iff f a b).mp dom path)

theorem dominates_trans (f : Func) (a b c : Nat) (path : f.Reaches none c) (ab : f.dominates a b = true)
    (bc : f.dominates b c = true) : f.dominates a c = true := by
  rw [dominates_iff]
  intro _ around
  have viaB := dominator_reached f b c path bc
  rcases reaches_avoiding_or_through f (some a) b c around with avoidB | through
  · exact (dominates_iff f b c).mp bc path avoidB
  · exact (dominates_iff f a b).mp ab viaB through

theorem dominates_antisymm (f : Func) (a b : Nat) (path : f.Reaches none b) (ab : f.dominates a b = true)
    (ba : f.dominates b a = true) : a = b := by
  by_contra different
  have reachA := dominator_reached f a b path ab
  rcases reaches_one_first f a b b different path with first | second | ⟨_, back⟩
  · exact (dominates_iff f b a).mp ba reachA first
  · exact (dominates_iff f a b).mp ab path second
  · exact avoided_unreached f b b back rfl

theorem dominates_pred (f : Func) (a source target : Nat) (path : f.Reaches none source)
    (edge : (source, target) ∈ f.edges) (different : a ≠ target) (dom : f.dominates a target = true) :
    f.dominates a source = true := by
  rw [dominates_iff]
  intro _ around
  have reachTarget : f.Reaches none target := .cross source target path edge (by simp)
  exact (dominates_iff f a target).mp dom reachTarget (.cross source target around edge (by simpa using different))

theorem dominates_entry (f : Func) (a : Nat) (someBlock : 0 < f.blocks.length) (dom : f.dominates a 0 = true) :
    a = 0 := by
  by_contra different
  exact (dominates_iff f a 0).mp dom (.entry someBlock (by simp)) (.entry someBlock (by simpa using different))

theorem precedes_irrefl (f : Func) (site : Site) : f.precedes site site = false := by simp [Func.precedes]

theorem precedes_trans (f : Func) (a b c : Site) (path : f.Reaches none c.block) (ab : f.precedes a b = true)
    (bc : f.precedes b c = true) : f.precedes a c = true := by
  unfold Func.precedes at ab bc ⊢
  by_cases sameAb : a.block = b.block
  · by_cases sameBc : b.block = c.block
    · simp only [sameAb, sameBc, if_true, decide_eq_true_eq] at ab bc ⊢
      omega
    · simpa [sameAb, sameBc] using bc
  · by_cases sameBc : b.block = c.block
    · simpa [sameAb, ← sameBc] using ab
    · rw [if_neg sameAb] at ab
      rw [if_neg sameBc] at bc
      have reachB := dominator_reached f b.block c.block path bc
      -- a block cannot lie strictly between another and itself
      have different : a.block ≠ c.block := fun same =>
        sameAb (dominates_antisymm f a.block b.block reachB ab (same ▸ bc))
      rw [if_neg different]
      exact dominates_trans f a.block b.block c.block path ab bc

theorem precedes_enter (f : Func) (site : Site) (source target : Nat) (b : Block) (path : f.Reaches none source)
    (edge : (source, target) ∈ f.edges) (inside : site.block = source → site.inst < b.insts.length)
    (before : f.precedes site ⟨target, 0⟩ = true) : f.precedes site ⟨source, b.insts.length⟩ = true := by
  unfold Func.precedes at before ⊢
  by_cases here : site.block = target
  · simp [here] at before
  · rw [if_neg here] at before
    by_cases there : site.block = source
    · simpa [there] using inside there
    · rw [if_neg there]
      exact dominates_pred f site.block source target path edge here before

theorem precedes_entry (f : Func) (site : Site) (someBlock : 0 < f.blocks.length) :
    f.precedes site ⟨0, 0⟩ = false := by
  by_contra before
  rw [Bool.not_eq_false] at before
  unfold Func.precedes at before
  by_cases here : site.block = 0
  · simp [here] at before
  · rw [if_neg here] at before
    exact here (dominates_entry f site.block someBlock before)

def Func.outline (f : Func) : List (Label × List Label) := f.blocks.map fun b => (b.label, b.term.successors)

section Outline

variable (f g : Func) (same : g.outline = f.outline)
include same

theorem outline_length : g.blocks.length = f.blocks.length := by
  simpa [Func.outline] using congrArg List.length same

theorem outline_edge_target : g.edgeTarget? = f.edgeTarget? := by
  have read (f : Func) (label : Label) : f.edgeTarget? label =
      (f.outline.zipIdx.reverse.find? fun (entry, _) => entry.1 = label).map Prod.snd := by
    rw [Func.outline, List.zipIdx_map, ← List.map_reverse, List.find?_map, Option.map_map]
    rfl
  funext label
  rw [read, read, same]

theorem outline_edges : g.edges = f.edges := by
  have read (f : Func) : f.edges = f.outline.zipIdx.flatMap fun (entry, source) =>
      (entry.2.filterMap f.edgeTarget?).map fun target => (source, target) := by
    rw [Func.outline, List.zipIdx_map, List.flatMap_map]
    rfl
  rw [read, read, same, outline_edge_target f g same]

theorem outline_preds : g.preds = f.preds := by
  funext target
  rw [Func.preds, Func.preds, outline_edges f g same]

theorem outline_reaches (avoided : Option Nat) (b : Nat) : g.Reaches avoided b ↔ f.Reaches avoided b := by
  have carry (f g : Func) (same : g.outline = f.outline) (path : g.Reaches avoided b) : f.Reaches avoided b := by
    induction path with
    | entry someBlock other => exact .entry (outline_length f g same ▸ someBlock) other
    | cross source target _ edge other ih => exact .cross source target ih (outline_edges f g same ▸ edge) other
  exact ⟨carry f g same, carry g f same.symm⟩

theorem outline_dominator_tree : g.dominatorTree = f.dominatorTree := by
  have blank : g.blocks.isEmpty = f.blocks.isEmpty := by
    rw [Bool.eq_iff_iff, List.isEmpty_iff_length_eq_zero, List.isEmpty_iff_length_eq_zero, outline_length f g same]
  rw [Func.dominatorTree, Func.dominatorTree, Func.bareTree, Func.bareTree, Func.walk, Func.walk, blank,
    outline_length f g same, outline_edges f g same]

theorem outline_precedes : g.precedes = f.precedes := by
  funext site place
  simp only [Func.precedes, Func.dominates, outline_dominator_tree f g same]

theorem outline_locate (label : Label) : g.locate? label = f.locate? label := by
  have read (f : Func) : f.locate? label = f.outline.findIdx? (·.1 = label) := by
    rw [Func.outline, List.findIdx?_map]
    rfl
  rw [read, read, same]

theorem outline_targets
    (targets : ∀ b ∈ f.blocks, ∀ label ∈ b.term.successors, ∃ index, f.locate? label = some index) :
    ∀ b ∈ g.blocks, ∀ label ∈ b.term.successors, ∃ index, g.locate? label = some index := by
  intro b member label listed
  have entry : (b.label, b.term.successors) ∈ f.outline := same ▸ List.mem_map_of_mem member
  obtain ⟨c, inBlocks, equal⟩ := List.mem_map.mp entry
  rw [outline_locate f g same]
  refine targets c inBlocks label ?_
  rw [(Prod.mk.inj equal).2]
  exact listed

end Outline

end Regroup
