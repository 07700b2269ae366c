import Mathlib
import Regroup.Func.Flow

set_option autoImplicit false

namespace Regroup

theorem edge_target_bounded (f : Func) (label : Label) (target : Nat) (found : f.edgeTarget? label = some target) :
    ∃ b, f.blocks[target]? = some b ∧ b.label = label := by
  simp only [Func.edgeTarget?, Option.map_eq_some_iff] at found
  obtain ⟨⟨b, index⟩, hit, same⟩ := found
  have member := List.mem_of_find?_eq_some hit
  rw [List.mem_reverse, List.mem_zipIdx_iff_getElem?] at member
  refine ⟨b, ?_, by simpa using List.find?_some hit⟩
  simpa [← same] using member

theorem mem_edges (f : Func) (source target : Nat) :
    (source, target) ∈ f.edges ↔ ∃ b, f.blocks[source]? = some b ∧
      ∃ label ∈ b.term.successors, f.edgeTarget? label = some target := by
  simp only [Func.edges, List.mem_flatMap, List.mem_map, List.mem_filterMap, Prod.exists, Prod.mk.injEq]
  constructor
  · rintro ⟨b, index, member, found, ⟨label, listed, hit⟩, sameSource, sameTarget⟩
    rw [List.mem_zipIdx_iff_getElem?] at member
    subst sameSource sameTarget
    exact ⟨b, by simpa using member, label, listed, hit⟩
  · rintro ⟨b, stored, label, listed, hit⟩
    exact ⟨b, source, by rw [List.mem_zipIdx_iff_getElem?]; simpa using stored, target, ⟨label, listed, hit⟩, rfl, rfl⟩

theorem edge_target_lt (f : Func) (source target : Nat) (edge : (source, target) ∈ f.edges) :
    target < f.blocks.length := by
  obtain ⟨_, _, label, _, hit⟩ := (mem_edges f source target).mp edge
  obtain ⟨b, stored, _⟩ := edge_target_bounded f label target hit
  exact (List.getElem?_eq_some_iff.mp stored).1

theorem mem_sources_of (edges : List (Nat × Nat)) (source target : Nat) :
    source ∈ sourcesOf edges target ↔ (source, target) ∈ edges := by
  simp [sourcesOf]

theorem mem_targets_of (edges : List (Nat × Nat)) (source target : Nat) :
    target ∈ targetsOf edges source ↔ (source, target) ∈ edges := by
  simp [targetsOf]

-- A path from the entry, with its last block first.
inductive Func.Path (f : Func) : List Nat → Prop where
  | entry (some_block : 0 < f.blocks.length) : f.Path [0]
  | cross (source target : Nat) (before : List Nat) (path : f.Path (source :: before))
      (edge : (source, target) ∈ f.edges) : f.Path (target :: source :: before)

theorem path_bounded (f : Func) (path : List Nat) (walked : f.Path path) : ∀ b ∈ path, b < f.blocks.length := by
  induction walked with
  | entry someBlock => simpa using someBlock
  | cross source target before _ edge ih =>
      intro b member
      rcases List.mem_cons.mp member with same | earlier
      · exact same ▸ edge_target_lt f source target edge
      · exact ih b earlier

theorem path_alone (f : Func) (b : Nat) (walked : f.Path [b]) : b = 0 := by
  cases walked
  rfl

theorem path_to_member (f : Func) (path : List Nat) (walked : f.Path path) (b : Nat) (member : b ∈ path) :
    ∃ before, f.Path (b :: before) ∧ (b :: before) <:+ path := by
  induction walked with
  | entry someBlock =>
      rw [List.mem_singleton.mp member]
      exact ⟨[], .entry someBlock, List.suffix_refl _⟩
  | cross source target before walked edge ih =>
      rcases List.mem_cons.mp member with same | earlier
      · exact ⟨source :: before, same ▸ .cross source target before walked edge, same ▸ List.suffix_refl _⟩
      · obtain ⟨rest, part, within⟩ := ih earlier
        exact ⟨rest, part, within.trans (List.suffix_cons _ _)⟩

theorem path_simple (f : Func) (path : List Nat) (walked : f.Path path) :
    ∃ b before short, path = b :: before ∧ f.Path (b :: short) ∧ (b :: short).Nodup ∧ (b :: short) ⊆ path := by
  induction walked with
  | entry someBlock => exact ⟨0, [], [], rfl, .entry someBlock, by simp, List.Subset.refl _⟩
  | cross source target before walked edge ih =>
      obtain ⟨b, rest, short, same, part, distinct, within⟩ := ih
      obtain ⟨rfl, rfl⟩ := List.cons.inj same
      refine ⟨target, source :: before, ?_⟩
      by_cases again : target ∈ source :: short
      · obtain ⟨cut, piece, inside⟩ := path_to_member f _ part target again
        exact ⟨cut, rfl, piece, inside.sublist.nodup distinct,
          List.Subset.trans inside.subset (List.Subset.trans within (List.subset_cons_self _ _))⟩
      · exact ⟨source :: short, rfl, .cross source target short part edge, List.nodup_cons.mpr ⟨again, distinct⟩,
          List.cons_subset_cons target within⟩

theorem path_short (f : Func) (b : Nat) (before : List Nat) (walked : f.Path (b :: before)) :
    ∃ short, f.Path (b :: short) ∧ short.length ≤ f.blocks.length ∧ (b :: short) ⊆ b :: before := by
  obtain ⟨c, rest, short, same, part, distinct, within⟩ := path_simple f _ walked
  obtain ⟨rfl, rfl⟩ := List.cons.inj same
  have bounded : (b :: short) ⊆ List.range f.blocks.length :=
    fun c member => List.mem_range.mpr (path_bounded f _ part c member)
  have fewer := (List.subperm_of_subset distinct bounded).length_le
  rw [List.length_range, List.length_cons] at fewer
  exact ⟨short, part, by omega, within⟩

inductive Func.Reaches (f : Func) (avoided : Option Nat) : Nat → Prop where
  | entry (some_block : 0 < f.blocks.length) (other : avoided ≠ some 0) : f.Reaches avoided 0
  | cross (source target : Nat) (before : f.Reaches avoided source) (edge : (source, target) ∈ f.edges)
      (other : avoided ≠ some target) : f.Reaches avoided target

theorem reaches_iff_path (f : Func) (avoided : Option Nat) (b : Nat) :
    f.Reaches avoided b ↔ ∃ before, f.Path (b :: before) ∧ ∀ a ∈ b :: before, avoided ≠ some a := by
  constructor
  · intro reached
    induction reached with
    | entry someBlock other => exact ⟨[], .entry someBlock, by simpa using other⟩
    | cross source target _ edge other ih =>
        obtain ⟨before, walked, around⟩ := ih
        exact ⟨source :: before, .cross source target before walked edge, List.forall_mem_cons.mpr ⟨other, around⟩⟩
  · rintro ⟨before, walked, around⟩
    generalize same : b :: before = path at walked around
    induction walked generalizing b before with
    | entry someBlock =>
        obtain ⟨rfl, rfl⟩ := List.cons.inj same
        exact .entry someBlock (around 0 (by simp))
    | cross source target rest walked edge ih =>
        obtain ⟨rfl, rfl⟩ := List.cons.inj same
        obtain ⟨other, earlier⟩ := List.forall_mem_cons.mp around
        exact .cross source b (ih source rest rfl earlier) edge other

theorem avoided_unreached (f : Func) (a b : Nat) (path : f.Reaches (some a) b) : b ≠ a := by
  intro same
  cases path with
  | entry _ other => exact other (by rw [same])
  | cross _ _ _ _ other => exact other (by rw [same])

theorem reaches_avoiding_or_through (f : Func) (avoided : Option Nat) (a b : Nat) (path : f.Reaches avoided b) :
    f.Reaches (some a) b ∨ f.Reaches avoided a := by
  induction path with
  | entry someBlock other =>
      by_cases here : a = 0
      · exact Or.inr (here ▸ .entry someBlock other)
      · exact Or.inl (.entry someBlock (by simpa using here))
  | cross source target before edge other ih =>
      rcases ih with around | through
      · by_cases here : a = target
        · exact Or.inr (here ▸ .cross source target before edge other)
        · exact Or.inl (.cross source target around edge (by simpa using here))
      · exact Or.inr through

theorem reaches_one_first (f : Func) (a b c : Nat) (different : a ≠ b) (path : f.Reaches none c) :
    f.Reaches (some b) a ∨ f.Reaches (some a) b ∨ (f.Reaches (some a) c ∧ f.Reaches (some b) c) := by
  induction path with
  | entry someBlock _ =>
      by_cases hereA : a = 0
      · exact Or.inl (hereA ▸ .entry someBlock (by simpa [← hereA] using different.symm))
      · by_cases hereB : b = 0
        · exact Or.inr (Or.inl (hereB ▸ .entry someBlock (by simpa using hereA)))
        · exact Or.inr (Or.inr ⟨.entry someBlock (by simpa using hereA), .entry someBlock (by simpa using hereB)⟩)
  | cross source target before edge _ ih =>
      rcases ih with first | second | ⟨aroundA, aroundB⟩
      · exact Or.inl first
      · exact Or.inr (Or.inl second)
      · by_cases hereA : a = target
        · exact Or.inl (hereA ▸ .cross source target aroundB edge (by simpa [← hereA] using different.symm))
        · by_cases hereB : b = target
          · exact Or.inr (Or.inl (hereB ▸ .cross source target aroundA edge (by simpa using hereA)))
          · exact Or.inr (Or.inr ⟨.cross source target aroundA edge (by simpa using hereA),
              .cross source target aroundB edge (by simpa using hereB)⟩)

def Func.Dominates (f : Func) (a b : Nat) : Prop := ∀ before, f.Path (b :: before) → a ∈ b :: before

theorem dominates_source (f : Func) (a source target : Nat) (edge : (source, target) ∈ f.edges) (different : a ≠ target)
    (dom : f.Dominates a target) : f.Dominates a source := by
  intro before walked
  exact (List.mem_cons.mp (dom _ (.cross source target before walked edge))).resolve_left different

theorem dominates_of_entry (f : Func) (a : Nat) (someBlock : 0 < f.blocks.length) (dom : f.Dominates a 0) : a = 0 :=
  List.mem_singleton.mp (dom [] (.entry someBlock))

end Regroup
