import Mathlib
import Regroup.Proofs.Weaving

set_option autoImplicit false

namespace Regroup

-- A function into which patches are woven, and the patches that still wait, the last position first.
structure Splice where
  func : Func
  waiting : List Patch
deriving DecidableEq, Repr

def Splice.start (f : Func) (patches : List Patch) : Splice := ⟨f, sortBy Patch.goesBefore patches⟩

def Splice.step (s : Splice) : Except Trap Splice :=
  match s.waiting with
  | [] => .ok s
  | p :: rest =>
      match s.func.insert p with
      | .error trap => .error trap
      | .ok f => .ok ⟨f, rest⟩

def Splice.run : Nat → Splice → Except Trap Splice
  | 0, s => .ok s
  | steps + 1, s =>
      match s.step with
      | .error trap => .error trap
      | .ok next => Splice.run steps next

theorem splice_run_all (f g : Func) (waiting : List Patch) (woven : waiting.foldlM Func.insert f = .ok g) :
    Splice.run waiting.length ⟨f, waiting⟩ = .ok ⟨g, []⟩ := by
  induction waiting generalizing f with
  | nil =>
      cases woven
      rfl
  | cons p rest ih =>
      rw [List.foldlM_cons] at woven
      cases inserted : f.insert p with
      | error trap =>
          rw [inserted] at woven
          cases woven
      | ok next =>
          rw [inserted] at woven
          simp only [List.length_cons, Splice.run, Splice.step, inserted]
          exact ih next woven

def shift (patches : List Patch) (site : Site) : Nat :=
  ((patches.filter fun p => p.site.block = site.block ∧ p.site.inst ≤ site.inst).flatMap Patch.insts).length

structure Spliced (patches : List Patch) (index : Nat) (b c : Block) : Prop where
  label : c.label = b.label
  term : c.term = b.term
  moved : ∀ place i, b.insts[place]? = some i → c.insts[place + shift patches ⟨index, place⟩]? = some i
  placed : ∀ p ∈ patches, p.site.block = index → p.insts <:+ c.insts.take (p.site.inst + shift patches p.site)
  length : c.insts.length = b.insts.length + shift patches ⟨index, b.insts.length⟩
  content : c.insts.Perm (b.insts ++ (patches.filter (·.site.block = index)).flatMap Patch.insts)

theorem flat_map_one_place (insts : List Inst) (place count : Nat) :
    ((List.range count).flatMap fun k => if place = k then insts else []) = if place < count then insts else [] := by
  induction count with
  | zero => simp
  | succ count ih =>
      rw [List.range_succ, List.flatMap_append, ih, List.flatMap_singleton]
      by_cases here : place = count
      · simp [here]
      · by_cases less : place < count
        · simp [here, less, Nat.lt_succ_of_lt less]
        · have above : ¬ place < count + 1 := by omega
          simp [here, less, above]

theorem patches_by_place (patches : List Patch) (index count : Nat) :
    ((List.range count).flatMap fun k => patchAt patches ⟨index, k⟩).Perm
      ((patches.filter fun p => p.site.block = index ∧ p.site.inst < count).flatMap Patch.insts) := by
  induction patches with
  | nil => simp [patchAt]
  | cons p rest ih =>
      have apart (k : Nat) : patchAt (p :: rest) ⟨index, k⟩ =
          (if p.site.inst = k then (if p.site.block = index then p.insts else []) else []) ++ patchAt rest ⟨index, k⟩ := by
        by_cases block : p.site.block = index
        · by_cases inst : p.site.inst = k
          · have here : p.site = ⟨index, k⟩ := by rw [← block, ← inst]
            simp [patchAt, here]
          · have other : p.site ≠ ⟨index, k⟩ := fun same => inst (congrArg Site.inst same)
            simp [patchAt, inst, other]
        · have other : p.site ≠ ⟨index, k⟩ := fun same => block (congrArg Site.block same)
          simp [patchAt, block, other]
      simp only [apart]
      refine (List.flatMap_append_perm _ _ _).symm.trans ?_
      rw [flat_map_one_place]
      by_cases block : p.site.block = index
      · by_cases inst : p.site.inst < count
        · simpa [block, inst] using ih.append_left p.insts
        · simpa [block, inst] using ih
      · simpa [block] using ih

theorem patches_before (patches : List Patch) (index place : Nat) :
    ((List.range (place + 1)).flatMap fun k => patchAt patches ⟨index, k⟩).length = shift patches ⟨index, place⟩ := by
  rw [(patches_by_place patches index (place + 1)).length_eq]
  simp only [shift, Nat.lt_succ_iff]

theorem woven_front_perm (before : Nat → List Inst) (insts : List Inst) :
    (insts.zipIdx.flatMap fun x => before x.2 ++ [x.1]).Perm ((List.range insts.length).flatMap before ++ insts) := by
  have gaps : (insts.zipIdx.flatMap fun x => before x.2) = (List.range insts.length).flatMap before := by
    rw [← List.flatMap_map, List.zipIdx_map_snd, List.range_eq_range']
  have kept : (insts.zipIdx.flatMap fun x => [x.1]) = insts := flat_map_single insts
  have both := List.flatMap_append_perm insts.zipIdx (fun x => before x.2) fun x => [x.1]
  rw [gaps, kept] at both
  exact both.symm

-- A woven block, cut where the instruction at `place` has come to stand.
theorem woven_at (b : Block) (before : Nat → List Inst) (place : Nat) (inside : place ≤ b.insts.length) :
    ∃ later, (b.woven before).insts =
        ((b.insts.take place).zipIdx.flatMap fun x => before x.2 ++ [x.1]) ++ before place ++ later ∧
      later.head? = b.insts[place]? := by
  have size : (b.insts.take place).length = place := by simpa using inside
  have whole : (b.woven before).insts =
      ((b.insts.take place ++ b.insts.drop place).zipIdx.flatMap fun x => before x.2 ++ [x.1]) ++
        before b.insts.length := by
    rw [List.take_append_drop]
    rfl
  rw [List.zipIdx_append, List.flatMap_append, size, Nat.zero_add] at whole
  cases rest : b.insts.drop place with
  | nil =>
      have atEnd : b.insts.length = place := Nat.le_antisymm (List.drop_eq_nil_iff.mp rest) inside
      refine ⟨[], ?_, ?_⟩
      · rw [whole, rest, atEnd]
        simp
      · rw [List.getElem?_eq_none (Nat.le_of_eq atEnd)]
        rfl
  | cons i tail =>
      refine ⟨i :: ((tail.zipIdx (place + 1)).flatMap fun x => before x.2 ++ [x.1]) ++ before b.insts.length, ?_, ?_⟩
      · rw [whole, rest, List.zipIdx_cons, List.flatMap_cons]
        simp
      · rw [← List.head?_drop, rest]
        rfl

section Block

variable (patches : List Patch) (index : Nat) (b : Block)

theorem woven_cut_length (place : Nat) (inside : place ≤ b.insts.length) :
    (((b.insts.take place).zipIdx.flatMap fun x => patchAt patches ⟨index, x.2⟩ ++ [x.1]) ++
      patchAt patches ⟨index, place⟩).length = place + shift patches ⟨index, place⟩ := by
  have size : (b.insts.take place).length = place := by simpa using inside
  have front := (woven_front_perm (fun k => patchAt patches ⟨index, k⟩) (b.insts.take place)).length_eq
  have gaps := patches_before patches index place
  rw [List.length_append, size] at front
  rw [List.range_succ, List.flatMap_append, List.length_append, List.flatMap_singleton] at gaps
  rw [List.length_append, front]
  omega

theorem woven_spliced (distinct : (patches.map Patch.site).Nodup)
    (room : ∀ p ∈ patches, p.site.block = index → p.site.inst ≤ b.insts.length) :
    Spliced patches index b (b.woven fun place => patchAt patches ⟨index, place⟩) where
  label := rfl
  term := rfl
  moved := by
    intro place i stored
    have inside := (List.getElem?_eq_some_iff.mp stored).1
    obtain ⟨later, cut, next⟩ := woven_at b (fun place => patchAt patches ⟨index, place⟩) place (Nat.le_of_lt inside)
    have length := woven_cut_length patches index b place (Nat.le_of_lt inside)
    rw [cut, ← length, List.getElem?_append_right (Nat.le_refl _), Nat.sub_self, ← List.head?_eq_getElem?, next, stored]
  placed := by
    intro p member here
    obtain ⟨later, cut, _⟩ := woven_at b (fun place => patchAt patches ⟨index, place⟩) p.site.inst (room p member here)
    have length := woven_cut_length patches index b p.site.inst (room p member here)
    have site : (⟨index, p.site.inst⟩ : Site) = p.site := by rw [← here]
    rw [site] at length
    rw [cut, ← length, List.take_left', site, patch_at_mem patches distinct p member]
    · exact List.suffix_append _ _
    · rw [site]
  length := by
    obtain ⟨later, cut, next⟩ := woven_at b (fun place => patchAt patches ⟨index, place⟩) _ (Nat.le_refl _)
    have nothing : later = [] := by
      rw [List.getElem?_eq_none (Nat.le_refl _)] at next
      exact List.head?_eq_none_iff.mp next
    rw [cut, nothing, List.append_nil, woven_cut_length patches index b _ (Nat.le_refl _)]
  content := by
    -- one place more than there are instructions: a patch may stand at the end of its block
    have inBlock : (patches.filter fun p => p.site.block = index ∧ p.site.inst < b.insts.length + 1) =
        patches.filter (·.site.block = index) := by
      apply List.filter_congr
      intro p member
      by_cases here : p.site.block = index
      · simp [here, Nat.lt_succ_of_le (room p member here)]
      · simp [here]
    have gathered := patches_by_place patches index (b.insts.length + 1)
    rw [inBlock, List.range_succ, List.flatMap_append, List.flatMap_singleton] at gathered
    have front := woven_front_perm (fun k => patchAt patches ⟨index, k⟩) b.insts
    calc (b.woven fun place => patchAt patches ⟨index, place⟩).insts.Perm
          (((List.range b.insts.length).flatMap fun k => patchAt patches ⟨index, k⟩) ++ b.insts ++
            patchAt patches ⟨index, b.insts.length⟩) := front.append_right _
      List.Perm _ (b.insts ++ ((List.range b.insts.length).flatMap fun k => patchAt patches ⟨index, k⟩) ++
            patchAt patches ⟨index, b.insts.length⟩) := List.perm_append_comm.append_right _
      List.Perm _ (b.insts ++ (patches.filter (·.site.block = index)).flatMap Patch.insts) := by
        rw [List.append_assoc]
        exact gathered.append_left b.insts

end Block

theorem woven_block (f : Func) (before : Site → List Inst) (index : Nat) (b : Block) (stored : f.blocks[index]? = some b) :
    (f.woven before).blocks[index]? = some (b.woven fun place => before ⟨index, place⟩) := by
  simp [Func.woven, List.getElem?_zipIdx, stored]

theorem woven_elsewhere (patches : List Patch) (index : Nat) (b : Block) (absent : ∀ p ∈ patches, p.site.block ≠ index) :
    (b.woven fun place => patchAt patches ⟨index, place⟩) = b := by
  have nothing (place : Nat) : patchAt patches ⟨index, place⟩ = [] :=
    patch_at_absent patches ⟨index, place⟩ fun p member same => absent p member (congrArg Site.block same)
  simp only [nothing]
  exact block_woven_nothing b

theorem weave_exact (f : Func) (pending : List Patch) (distinct : (pending.map Patch.site).Nodup)
    (room : ∀ p ∈ pending, f.hasRoomAt p.site) :
    ∃ g, (∀ order : List Patch, order.Perm pending →
        f.weave order = .ok g ∧ (Splice.start f order).run order.length = .ok ⟨g, []⟩) ∧
      g.name = f.name ∧ g.next = f.next ∧ g.divergence = f.divergence ∧ g.blocks.length = f.blocks.length ∧
      ∀ (index : Nat) (b : Block), f.blocks[index]? = some b → ∃ c, g.blocks[index]? = some c ∧
        Spliced pending index b c ∧ ((∀ p ∈ pending, p.site.block ≠ index) → c = b) := by
  refine ⟨f.woven (patchAt pending), fun order perm => ?_, rfl, rfl, rfl, by simp [Func.woven], fun index b stored => ?_⟩
  · have apart := (perm.map Patch.site).nodup_iff.mpr distinct
    have woven := weave_eq_woven f order apart fun p member => room p (perm.mem_iff.mp member)
    rw [patch_at_perm order pending apart perm] at woven
    have emptied := splice_run_all f _ (sortBy Patch.goesBefore order) woven
    rw [(sort_by_perm Patch.goesBefore order).length_eq] at emptied
    exact ⟨woven, emptied⟩
  · have inside (p : Patch) (member : p ∈ pending) (here : p.site.block = index) : p.site.inst ≤ b.insts.length := by
      obtain ⟨c, found, fits⟩ := room p member
      rw [here, stored] at found
      cases found
      exact fits
    exact ⟨_, woven_block f _ index b stored, woven_spliced pending index b distinct inside,
      woven_elsewhere pending index b⟩

def twoBlocks : Func where
  name := "blocks"
  blocks :=
    [⟨0, [.output 0 (.of 0), .output 1 (.of 0)], .jump 1⟩, ⟨1, [.output 2 (.of 0)], .ret none⟩]
  next := 1
  divergence := none

def strayPatches : List Patch :=
  [⟨⟨0, 0⟩, [.output 10 (.of 0)]⟩, ⟨⟨1, 1⟩, [.output 13 (.of 0)]⟩,
   ⟨⟨0, 1⟩, [.output 11 (.of 0), .output 12 (.of 0)]⟩]

theorem stray_patches_woven : (strayPatches.map Patch.site).Nodup ∧ (∀ p ∈ strayPatches, twoBlocks.hasRoomAt p.site) ∧
    ∃ g c, twoBlocks.weave strayPatches = .ok g ∧ twoBlocks.weave strayPatches.reverse = .ok g ∧
      (Splice.start twoBlocks strayPatches).run 3 = .ok ⟨g, []⟩ ∧ g.blocks[0]? = some c ∧
      c.insts[4]? = some (.output 1 (.of 0)) ∧
      [.output 11 (.of 0), .output 12 (.of 0)] <:+ c.insts.take 4 := by
  have distinct : (strayPatches.map Patch.site).Nodup := by decide
  have room : ∀ p ∈ strayPatches, twoBlocks.hasRoomAt p.site := by
    intro p member
    simp only [strayPatches, List.mem_cons, List.not_mem_nil, or_false] at member
    rcases member with rfl | rfl | rfl
    · exact ⟨_, rfl, by decide⟩
    · exact ⟨_, rfl, by decide⟩
    · exact ⟨_, rfl, by decide⟩
  obtain ⟨g, any, _, _, _, _, blocks⟩ := weave_exact twoBlocks strayPatches distinct room
  obtain ⟨c, found, spliced, _⟩ := blocks 0 _ rfl
  have woven := any strayPatches (List.Perm.refl _)
  have reversed := any strayPatches.reverse (List.reverse_perm _)
  exact ⟨distinct, room, g, c, woven.1, reversed.1, woven.2, found, spliced.moved 1 _ rfl,
    spliced.placed ⟨⟨0, 1⟩, [.output 11 (.of 0), .output 12 (.of 0)]⟩ (by decide) rfl⟩

end Regroup
