import Mathlib
import Regroup.Proofs.Liveness

set_option autoImplicit false

namespace Regroup

-- The value is read where no result decides whether that matters.
inductive Func.ReadForEffect (f : Func) (v : Value) : Prop where
  | output (site : Site) (slot : Slot) (src : Scalar) (stored : f.inst? site = some (.output slot src))
      (same : src.value = v)
  | phi (site : Site) (dest : Value) (incoming : List (Scalar × Label)) (entry : Scalar × Label)
      (stored : f.inst? site = some (.phi dest incoming)) (listed : entry ∈ incoming) (same : entry.1.value = v)
  | terminator (index : Nat) (b : Block) (s : Scalar) (stored : f.blocks[index]? = some b) (read : s ∈ b.term.reads)
      (same : s.value = v)

def Func.Feeds (f : Func) (v w : Value) : Prop :=
  w < f.next ∧ ∃ site i s, f.inst? site = some i ∧ s ∈ i.reads ∧ s.value = v ∧ i.dest? = some w

def Func.Lifeline (f : Func) (path : List Value) : Prop :=
  List.IsChain f.Feeds path ∧ ∃ last, path.getLast? = some last ∧ f.ReadForEffect last

theorem lifeline_end (f : Func) (v : Value) (effect : f.ReadForEffect v) : f.Lifeline [v] :=
  ⟨List.isChain_singleton v, v, rfl, effect⟩

theorem lifeline_cons (f : Func) (v w : Value) (path : List Value) (feeds : f.Feeds v w)
    (line : f.Lifeline (w :: path)) : f.Lifeline (v :: w :: path) := by
  obtain ⟨linked, last, ends, effect⟩ := line
  exact ⟨List.isChain_cons_cons.mpr ⟨feeds, linked⟩, last, by rw [List.getLast?_cons_cons, ends], effect⟩

theorem read_for_effect (f : Func) (site : Site) (i : Inst) (s : Scalar) (stored : f.inst? site = some i)
    (read : s ∈ i.reads) (nothing : i.feeds = none) : f.ReadForEffect s.value := by
  cases i with
  | input dest slot width divergent => cases read
  | const dest lanes => cases read
  | arith a => cases nothing
  | phi dest incoming =>
      obtain ⟨entry, listed, rfl⟩ := List.mem_map.mp read
      exact .phi site dest incoming entry stored listed rfl
  | output slot src =>
      rw [List.mem_singleton.mp read]
      exact .output site slot src stored rfl

theorem effect_needed (f : Func) (v : Value) (known : v < f.next) (effect : f.ReadForEffect v) : f.Needed v := by
  cases effect with
  | output site slot src stored same =>
      subst same
      have listed : ⟨src.value, none⟩ ∈ f.uses :=
        (mem_uses f _).mpr (Or.inl ⟨site, _, stored, src, List.mem_singleton.mpr rfl, rfl⟩)
      exact .effect _ listed rfl known
  | phi site dest incoming entry stored member same =>
      subst same
      have listed : ⟨entry.1.value, none⟩ ∈ f.uses :=
        (mem_uses f _).mpr (Or.inl ⟨site, _, stored, entry.1, List.mem_map_of_mem member, rfl⟩)
      exact .effect _ listed rfl known
  | terminator index b s stored read same =>
      subst same
      have listed : ⟨s.value, none⟩ ∈ f.uses := (mem_uses f _).mpr (Or.inr ⟨index, b, stored, s, read, rfl⟩)
      exact .effect _ listed rfl known

theorem feeds_needed (f : Func) (v w : Value) (known : v < f.next) (feeds : f.Feeds v w) (needed : f.Needed w) :
    f.Needed v := by
  obtain ⟨_, site, i, s, stored, read, rfl, dest⟩ := feeds
  have listed : ⟨s.value, i.feeds⟩ ∈ f.uses := (mem_uses f _).mpr (Or.inl ⟨site, i, stored, s, read, rfl⟩)
  cases target : i.feeds with
  | none => exact .effect ⟨s.value, i.feeds⟩ listed target known
  | some u =>
      have same : u = w := Option.some.inj ((feeds_dest i u target).symm.trans dest)
      exact .operand ⟨s.value, i.feeds⟩ u listed target (same ▸ needed) known

theorem needed_lt (f : Func) (v : Value) (needed : f.Needed v) : v < f.next := by
  cases needed with
  | effect u listed kept known => exact known
  | operand u dest listed feeds needed known => exact known

-- Along the uses that make a value needed, by induction from the effect back to the value.
theorem needed_lifeline (f : Func) (v : Value) (needed : f.Needed v) : ∃ path, f.Lifeline (v :: path) := by
  refine needed_induction f (fun v => ∃ path, f.Lifeline (v :: path)) ?_ ?_ v needed
  · intro index b s stored read
    exact ⟨[], lifeline_end f s.value (.terminator index b s stored read rfl)⟩
  · intro site i s stored read wanted
    cases target : i.feeds with
    | none => exact ⟨[], lifeline_end f s.value (read_for_effect f site i s stored read target)⟩
    | some w =>
        obtain ⟨needed, path, line⟩ := wanted w target
        have feeds : f.Feeds s.value w :=
          ⟨needed_lt f w needed, site, i, s, stored, read, rfl, feeds_dest i w target⟩
        exact ⟨w :: path, lifeline_cons f s.value w path feeds line⟩

theorem lifeline_needed (f : Func) (v : Value) (path : List Value) (known : v < f.next) (line : f.Lifeline (v :: path)) :
    f.Needed v := by
  induction path generalizing v with
  | nil =>
      obtain ⟨_, last, ends, effect⟩ := line
      cases ends
      exact effect_needed f v known effect
  | cons w rest ih =>
      obtain ⟨linked, last, ends, effect⟩ := line
      obtain ⟨feeds, tail⟩ := List.isChain_cons_cons.mp linked
      rw [List.getLast?_cons_cons] at ends
      exact feeds_needed f v w known feeds (ih w feeds.1 ⟨tail, last, ends, effect⟩)

theorem live_iff_lifeline (f : Func) :
    (∃ rounds ≤ f.next + 1, Settles (spreadLiveness f.uses) (Marks.none f.next) rounds f.live) ∧
      f.live.size = f.next ∧ ∀ v, f.live[v]? = some true ↔ v < f.next ∧ ∃ path, f.Lifeline (v :: path) := by
  obtain ⟨rounds, few, settles⟩ := closure_settles (Marks.none f.next) _ (spread_inflates f.uses)
  rw [none_size] at few
  have flagged (v : Value) : f.live[v]? = some true ↔ f.live.has v = true := by
    rw [Marks.has, Array.getD_eq_getD_getElem?]
    cases f.live[v]? <;> simp
  refine ⟨⟨rounds, few, settles⟩, live_size f, fun v => ?_⟩
  rw [flagged, live_iff]
  constructor
  · intro needed
    exact ⟨needed_lt f v needed, needed_lifeline f v needed⟩
  · rintro ⟨known, path, line⟩
    exact lifeline_needed f v path known line

end Regroup
