import Mathlib
import Regroup.Func.Liveness
import Regroup.Proofs.Renaming
import Regroup.Proofs.Saturation

set_option autoImplicit false

namespace Regroup

inductive Func.Needed (f : Func) : Value → Prop where
  | effect (u : Use) (listed : u ∈ f.uses) (kept : u.feeds = none) (known : u.operand < f.next) : f.Needed u.operand
  | operand (u : Use) (dest : Value) (listed : u ∈ f.uses) (feeds : u.feeds = some dest) (needed : f.Needed dest)
      (known : u.operand < f.next) : f.Needed u.operand

def spreadUse (live : Marks) (u : Use) : Marks := if u.needed live then live.add u.operand else live

theorem spread_liveness_eq (uses : List Use) (live : Marks) :
    spreadLiveness uses live = uses.reverse.foldl spreadUse live := by
  rw [List.foldl_reverse]
  rfl

theorem spread_use_inflates (u : Use) : Inflates fun live => spreadUse live u := inflates_add_if u.needed u.operand

theorem spread_inflates (uses : List Use) : Inflates (spreadLiveness uses) := by
  have rule := inflates_foldl spreadUse spread_use_inflates uses.reverse
  rwa [show (fun live => uses.reverse.foldl spreadUse live) = spreadLiveness uses from
    funext fun live => (spread_liveness_eq uses live).symm] at rule

theorem live_size (f : Func) : f.live.size = f.next := by
  rw [Func.live, closure_size _ _ (spread_inflates f.uses), none_size]

theorem live_sound (f : Func) (v : Value) (live : f.live.has v = true) : f.Needed v := by
  refine closure_within _ _ (spread_inflates f.uses) f.Needed (fun marks sized sound => ?_) (fun i start => ?_) v live
  · rw [spread_liveness_eq]
    refine foldl_within _ spread_use_inflates _ _ _ (fun u member now size held i grown => ?_) marks sized sound
    rw [List.mem_reverse] at member
    by_cases needed : u.needed now = true
    · rw [spreadUse, if_pos needed, has_add] at grown
      rcases Bool.or_eq_true_iff.mp grown with old | fresh
      · exact held i old
      · simp only [Bool.and_eq_true, decide_eq_true_eq, size, none_size] at fresh
        rw [fresh.1]
        cases feeds : u.feeds with
        | none => exact .effect u member feeds fresh.2
        | some dest =>
            rw [Use.needed, feeds] at needed
            exact .operand u dest member feeds (held dest needed) fresh.2
    · rw [spreadUse, if_neg needed] at grown
      exact held i grown
  · simp [has_none] at start

theorem live_complete (f : Func) (v : Value) (needed : f.Needed v) : f.live.has v = true := by
  have closed : ∀ u ∈ f.uses, spreadUse f.live u = f.live := by
    have fixed := closure_fixed (Marks.none f.next) _ (spread_inflates f.uses)
    rw [spread_liveness_eq] at fixed
    exact fun u listed => foldl_fixed _ spread_use_inflates _ _ fixed u (List.mem_reverse.mpr listed)
  have marked (u : Use) (listed : u ∈ f.uses) (known : u.operand < f.next) (wanted : u.needed f.live = true) :
      f.live.has u.operand = true := by
    have same := closed u listed
    rw [spreadUse, if_pos wanted] at same
    rw [← same, has_add]
    simp [live_size, known]
  induction needed with
  | effect u listed kept known => exact marked u listed known (by rw [Use.needed, kept])
  | operand u dest listed feeds _ known ih => exact marked u listed known (by rw [Use.needed, feeds]; exact ih)

theorem live_iff (f : Func) (v : Value) : f.live.has v = true ↔ f.Needed v := ⟨live_sound f v, live_complete f v⟩

theorem mem_uses (f : Func) (u : Use) : u ∈ f.uses ↔
    (∃ site i, f.inst? site = some i ∧ ∃ s ∈ i.reads, u = ⟨s.value, i.feeds⟩) ∨
    ∃ (index : Nat) (b : Block), f.blocks[index]? = some b ∧ ∃ s ∈ b.term.reads, u = ⟨s.value, none⟩ := by
  simp only [Func.uses, Block.uses, Inst.uses, List.mem_flatMap, List.mem_append, List.mem_map]
  constructor
  · intro listed
    obtain ⟨b, inBlocks, ⟨i, inInsts, s, read, rfl⟩ | ⟨s, read, rfl⟩⟩ := listed
    · obtain ⟨index, stored⟩ := List.mem_iff_getElem?.mp inBlocks
      obtain ⟨place, found⟩ := List.mem_iff_getElem?.mp inInsts
      exact Or.inl ⟨⟨index, place⟩, i, by simp [Func.inst?, stored, found], s, read, rfl⟩
    · obtain ⟨index, stored⟩ := List.mem_iff_getElem?.mp inBlocks
      exact Or.inr ⟨index, b, stored, s, read, rfl⟩
  · intro used
    rcases used with ⟨site, i, stored, s, read, rfl⟩ | ⟨index, b, stored, s, read, rfl⟩
    · obtain ⟨b, inBlock, found⟩ := Option.bind_eq_some_iff.mp stored
      exact ⟨b, List.mem_of_getElem? inBlock, Or.inl ⟨i, List.mem_of_getElem? found, s, read, rfl⟩⟩
    · exact ⟨b, List.mem_of_getElem? stored, Or.inr ⟨s, read, rfl⟩⟩

section WellFormed

variable (f : Func) (wf : f.WellFormed)
include wf

theorem needed_read (site : Site) (i : Inst) (s : Scalar) (stored : f.inst? site = some i) (read : s ∈ i.reads)
    (wanted : ∀ v, i.feeds = some v → f.Needed v) : f.Needed s.value := by
  obtain ⟨place, j, defined, _⟩ := read_defined f wf site i s stored read
  have known := defines_bounded f wf s.value place j defined
  have listed : ⟨s.value, i.feeds⟩ ∈ f.uses := (mem_uses f _).mpr (Or.inl ⟨site, i, stored, s, read, rfl⟩)
  cases feeds : i.feeds with
  | none => exact .effect ⟨s.value, i.feeds⟩ listed feeds known
  | some v => exact .operand ⟨s.value, i.feeds⟩ v listed feeds (wanted v feeds) known

theorem needed_end (index : Nat) (b : Block) (s : Scalar) (stored : f.blocks[index]? = some b)
    (read : s ∈ b.term.reads) : f.Needed s.value := by
  obtain ⟨place, j, defined, _⟩ := terminator_read_defined f wf index b s stored read
  have known := defines_bounded f wf s.value place j defined
  exact .effect ⟨s.value, none⟩ ((mem_uses f _).mpr (Or.inr ⟨index, b, stored, s, read, rfl⟩)) rfl known

omit wf in
theorem needed_induction (holds : Value → Prop)
    (ends : ∀ (index : Nat) (b : Block) (s : Scalar), f.blocks[index]? = some b → s ∈ b.term.reads → holds s.value)
    (reads : ∀ (site : Site) (i : Inst) (s : Scalar), f.inst? site = some i → s ∈ i.reads →
      (∀ v, i.feeds = some v → f.Needed v ∧ holds v) → holds s.value) (v : Value) (needed : f.Needed v) : holds v := by
  induction needed with
  | effect u listed kept known =>
      rcases (mem_uses f u).mp listed with ⟨site, i, stored, s, read, rfl⟩ | ⟨index, b, stored, s, read, rfl⟩
      · refine reads site i s stored read fun v feeds => ?_
        rw [show i.feeds = none from kept] at feeds
        cases feeds
      · exact ends index b s stored read
  | operand u dest listed feeds needed known ih =>
      rcases (mem_uses f u).mp listed with ⟨site, i, stored, s, read, rfl⟩ | ⟨index, b, stored, s, read, rfl⟩
      · refine reads site i s stored read fun v also => ?_
        rw [show i.feeds = some dest from feeds] at also
        cases also
        exact ⟨needed, ih⟩
      · cases feeds

end WellFormed

theorem renamed_feeds (ρ : Value → Value) (i : Inst) : (i.renamed ρ).feeds = i.feeds.map ρ := by
  rw [Inst.feeds, Inst.feeds, renamed_is_phi, renamed_dest]
  cases i.isPhi <;> rfl

theorem feeds_dest (i : Inst) (v : Value) (feeds : i.feeds = some v) : i.dest? = some v := by
  unfold Inst.feeds at feeds
  split at feeds
  · cases feeds
  · exact feeds

section Renaming

variable (f g : Func) (ρ : Value → Value) (link : Renaming f g ρ) (wf : f.WellFormed)
include link wf

theorem renaming_needed (v : Value) (known : v ∈ f.defs) : g.Needed (ρ v) ↔ f.Needed v := by
  have fine := renaming_well_formed f g ρ link wf
  constructor
  · intro needed
    refine needed_induction g (fun w => ∀ v ∈ f.defs, ρ v = w → f.Needed v) ?_ ?_ (ρ v) needed v known rfl
    · intro index c s stored read w inDefs same
      rw [link.blocks, List.getElem?_map, Option.map_eq_some_iff] at stored
      obtain ⟨b, there, rfl⟩ := stored
      rw [Block.renamed, renamed_term_reads, List.mem_map] at read
      obtain ⟨t, listed, rfl⟩ := read
      have inTerm := term_known f wf b (List.mem_of_getElem? there) t listed
      rw [link.injective w inDefs t.value inTerm same]
      exact needed_end f wf index b t there listed
    · intro site j s stored read wanted w inDefs same
      rw [renaming_inst f g ρ link, Option.map_eq_some_iff] at stored
      obtain ⟨i, there, rfl⟩ := stored
      rw [renamed_reads, List.mem_map] at read
      obtain ⟨t, listed, rfl⟩ := read
      rw [link.injective w inDefs t.value (read_known f wf site i t there listed) same]
      refine needed_read f wf site i t there listed fun u feeds => ?_
      have dest := (mem_defs f u).mpr ⟨site, i, there, feeds_dest i u feeds⟩
      exact (wanted (ρ u) (by rw [renamed_feeds, feeds]; rfl)).2 u dest rfl
  · intro needed
    refine needed_induction f (fun v => g.Needed (ρ v)) ?_ ?_ v needed
    · intro index b s stored read
      have there : g.blocks[index]? = some (b.renamed ρ) := by rw [link.blocks, List.getElem?_map, stored]; rfl
      refine needed_end g fine index _ (s.renamed ρ) there ?_
      rw [Block.renamed, renamed_term_reads]
      exact List.mem_map_of_mem read
    · intro site i s stored read wanted
      have there : g.inst? site = some (i.renamed ρ) := by rw [renaming_inst f g ρ link, stored]; rfl
      refine needed_read g fine site _ (s.renamed ρ) there ?_ fun w feeds => ?_
      · rw [renamed_reads]
        exact List.mem_map_of_mem read
      · rw [renamed_feeds, Option.map_eq_some_iff] at feeds
        obtain ⟨u, here, rfl⟩ := feeds
        exact (wanted u here).2

end Renaming

end Regroup
