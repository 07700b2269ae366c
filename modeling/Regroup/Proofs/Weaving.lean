import Mathlib
import Regroup.Func.Patch
import Regroup.Proofs.Sorting
import Regroup.Proofs.WellFormedness

set_option autoImplicit false

namespace Regroup

def Site.Earlier (a b : Site) : Prop := a.block < b.block ∨ (a.block = b.block ∧ a.inst < b.inst)

theorem earlier_irrefl (a : Site) : ¬ a.Earlier a := by simp [Site.Earlier]

theorem earlier_trans (a b c : Site) (ab : a.Earlier b) (bc : b.Earlier c) : a.Earlier c := by
  unfold Site.Earlier at *
  omega

theorem lex_key_iff (a b : Site) : lexLe a.key b.key = true ↔ a.Earlier b ∨ a = b := by
  obtain ⟨block, inst⟩ := a
  obtain ⟨other, place⟩ := b
  simp only [Site.key, lex_cons, lex_nil, Bool.or_eq_true, Bool.and_eq_true, decide_eq_true_eq, Site.Earlier,
    Site.mk.injEq, and_true]
  omega

def Block.woven (b : Block) (before : Nat → List Inst) : Block :=
  { b with insts := (b.insts.zipIdx.flatMap fun (i, place) => before place ++ [i]) ++ before b.insts.length }

def Func.woven (f : Func) (before : Site → List Inst) : Func :=
  { f with blocks := f.blocks.zipIdx.map fun (b, index) => b.woven fun place => before ⟨index, place⟩ }

def patchAt (patches : List Patch) (site : Site) : List Inst :=
  (patches.filter (·.site = site)).flatMap Patch.insts

theorem flat_map_untouched (before : Nat → List Inst) (insts : List Inst) (start : Nat)
    (nothing : ∀ place, start ≤ place → before place = []) :
    ((insts.zipIdx start).flatMap fun (i, place) => before place ++ [i]) = insts := by
  induction insts generalizing start with
  | nil => rfl
  | cons i rest ih =>
      rw [List.zipIdx_cons, List.flatMap_cons, ih (start + 1) fun place later => nothing place (by omega)]
      simp [nothing start (Nat.le_refl start)]

theorem block_woven_nothing (b : Block) : (b.woven fun _ => []) = b := by
  rw [Block.woven, flat_map_untouched (fun _ => []) b.insts 0 (fun _ _ => rfl), List.append_nil]

theorem func_woven_nothing (f : Func) : (f.woven fun _ => []) = f := by
  have each : (fun entry : Block × Nat => entry.1.woven fun _ => []) = Prod.fst := by
    funext entry
    exact block_woven_nothing entry.1
  simp only [Func.woven]
  rw [each, List.zipIdx_map_fst]

theorem block_insert_woven (p : Patch) (b : Block) (before : Nat → List Inst) (inside : p.site.inst ≤ b.insts.length)
    (late : ∀ place, p.site.inst ≤ place → before place = []) :
    (p.insertInto b).woven before = b.woven fun place => if place = p.site.inst then p.insts else before place := by
  generalize spot : p.site.inst = k at inside late
  obtain ⟨front, back, split, size⟩ : ∃ front back, b.insts = front ++ back ∧ front.length = k :=
    ⟨b.insts.take k, b.insts.drop k, (List.take_append_drop k b.insts).symm, by simpa using inside⟩
  have inserted : (p.insertInto b).insts = front ++ (p.insts ++ back) := by
    simp [Patch.insertInto, spot, split, ← size]
  have frontSame : ((front.zipIdx 0).flatMap fun (i, place) => (if place = k then p.insts else before place) ++ [i]) =
      (front.zipIdx 0).flatMap fun (i, place) => before place ++ [i] := by
    apply List.flatMap_congr
    rintro ⟨i, place⟩ member
    have bound := List.snd_lt_of_mem_zipIdx member
    have different : place ≠ k := by simp only [size] at bound; omega
    simp [different]
  have outside : before (p.insertInto b).insts.length = [] := late _ (by rw [inserted]; simp; omega)
  have rest : (back.zipIdx k).flatMap (fun (i, place) => (if place = k then p.insts else before place) ++ [i]) ++
      (if b.insts.length = k then p.insts else before b.insts.length) = p.insts ++ back := by
    cases back with
    | nil =>
        have atEnd : b.insts.length = k := by rw [split, List.append_nil, size]
        simp [atEnd]
    | cons i tail =>
        have notEnd : b.insts.length ≠ k := by rw [split]; simp; omega
        have later := flat_map_untouched (fun place => if place = k then p.insts else before place) tail (k + 1)
          fun place above => by simp [show place ≠ k by omega, late place (by omega)]
        rw [List.zipIdx_cons, List.flatMap_cons, later, if_neg notEnd, late _ (by rw [split]; simp; omega)]
        simp
  have whole : (p.insertInto b).woven before = { p.insertInto b with
      insts := (front.zipIdx 0).flatMap (fun (i, place) => before place ++ [i]) ++ (p.insts ++ back) } := by
    rw [Block.woven, outside, inserted, List.zipIdx_append, List.flatMap_append, List.append_nil, Nat.zero_add, size,
      flat_map_untouched before (p.insts ++ back) k late]
  rw [whole, Block.woven, split, List.zipIdx_append, List.flatMap_append, List.append_assoc, frontSame,
    Nat.zero_add, size, ← split, rest]
  rfl

def Func.hasRoomAt (f : Func) (site : Site) : Prop :=
  ∃ b, f.blocks[site.block]? = some b ∧ site.inst ≤ b.insts.length

theorem insert_woven (f : Func) (p : Patch) (before : Site → List Inst) (room : f.hasRoomAt p.site)
    (late : ∀ site : Site, ¬ site.Earlier p.site → before site = []) :
    ∃ next, f.insert p = .ok next ∧
      next.woven before = f.woven (fun site => if site = p.site then p.insts else before site) ∧
      ∀ site : Site, site.Earlier p.site → f.hasRoomAt site → next.hasRoomAt site := by
  obtain ⟨b, stored, inside⟩ := room
  refine ⟨{ f with blocks := f.blocks.modify p.site.block p.insertInto }, by simp [Func.insert, stored, inside], ?_, ?_⟩
  · simp only [Func.woven, Func.mk.injEq, and_self, and_true, true_and]
    apply List.ext_getElem?
    intro index
    simp only [List.getElem?_map, List.getElem?_zipIdx, List.getElem?_modify, Option.map_map]
    by_cases here : p.site.block = index
    · subst here
      simp only [stored, if_true, Option.map_eq_map, Option.map_some, Function.comp, Option.some.injEq, Nat.zero_add]
      -- nothing is left to insert behind the patch, so what it pushes on keeps its own
      rw [block_insert_woven p b _ inside fun place after => late ⟨p.site.block, place⟩ (by simp [Site.Earlier]; omega)]
      congr 1
      funext place
      by_cases same : place = p.site.inst
      · subst same
        simp
      · have other : (⟨p.site.block, place⟩ : Site) ≠ p.site := fun equal => same (congrArg Site.inst equal)
        simp [same, other]
    · cases f.blocks[index]? with
      | none => simp [here]
      | some c =>
          have other (place : Nat) : (⟨index, place⟩ : Site) ≠ p.site := fun equal =>
            here (congrArg Site.block equal).symm
          simp [here, other]
  · rintro site earlier ⟨c, there, fits⟩
    simp only [Func.hasRoomAt, List.getElem?_modify]
    by_cases here : p.site.block = site.block
    · rw [← here, stored] at there
      cases there
      refine ⟨p.insertInto b, by simp [← here, stored], ?_⟩
      have smaller : site.inst < p.site.inst := by
        unfold Site.Earlier at earlier
        omega
      simp only [Patch.insertInto, List.length_append, List.length_take]
      omega
    · exact ⟨c, by simp [here, there], fits⟩

theorem patch_at_absent (patches : List Patch) (site : Site) (absent : ∀ p ∈ patches, p.site ≠ site) :
    patchAt patches site = [] := by
  rw [patchAt, List.filter_eq_nil_iff.mpr (by simpa using absent)]
  rfl

theorem patch_at_mem (patches : List Patch) (distinct : (patches.map Patch.site).Nodup) (p : Patch)
    (member : p ∈ patches) : patchAt patches p.site = p.insts := by
  induction patches with
  | nil => simp at member
  | cons q rest ih =>
      rw [List.map_cons, List.nodup_cons] at distinct
      rcases List.mem_cons.mp member with same | later
      · subst same
        have others := patch_at_absent rest p.site fun r inRest equal =>
          distinct.1 (equal ▸ List.mem_map_of_mem inRest)
        rw [patchAt] at others ⊢
        simp [others]
      · have different : q.site ≠ p.site := fun equal => distinct.1 (equal ▸ List.mem_map_of_mem later)
        simpa [patchAt, different] using ih distinct.2 later

theorem insert_all_woven (f : Func) (patches : List Patch)
    (descending : patches.Pairwise fun p q => q.site.Earlier p.site) (room : ∀ p ∈ patches, f.hasRoomAt p.site) :
    patches.foldlM Func.insert f = .ok (f.woven (patchAt patches)) := by
  induction patches generalizing f with
  | nil => rw [show patchAt [] = fun _ => [] from rfl, func_woven_nothing]; rfl
  | cons p rest ih =>
      obtain ⟨smaller, descending⟩ := List.pairwise_cons.mp descending
      have nothing (site : Site) (late : ¬ site.Earlier p.site) : patchAt rest site = [] :=
        patch_at_absent rest site fun q member same => late (same ▸ smaller q member)
      obtain ⟨next, inserted, woven, kept⟩ := insert_woven f p (patchAt rest) (room p List.mem_cons_self) nothing
      have tail := ih next descending fun q member =>
        kept q.site (smaller q member) (room q (List.mem_cons_of_mem p member))
      rw [List.foldlM_cons, inserted]
      change rest.foldlM Func.insert next = _
      rw [tail, woven]
      congr 2
      funext site
      by_cases same : site = p.site
      · subst same
        have others := nothing p.site (earlier_irrefl p.site)
        rw [patchAt] at others
        simp [patchAt, others]
      · simp [patchAt, same, Ne.symm same]

theorem patch_at_perm (patches other : List Patch) (distinct : (patches.map Patch.site).Nodup)
    (perm : patches.Perm other) : patchAt patches = patchAt other := by
  funext site
  by_cases present : ∃ p ∈ patches, p.site = site
  · obtain ⟨p, member, same⟩ := present
    rw [← same, patch_at_mem patches distinct p member,
      patch_at_mem other ((perm.map Patch.site).nodup_iff.mp distinct) p (perm.mem_iff.mp member)]
  · have absent : ∀ p ∈ patches, p.site ≠ site := fun p member same => present ⟨p, member, same⟩
    rw [patch_at_absent patches site absent,
      patch_at_absent other site fun p member => absent p (perm.mem_iff.mpr member)]

theorem weave_eq_woven (f : Func) (patches : List Patch) (distinct : (patches.map Patch.site).Nodup)
    (room : ∀ p ∈ patches, f.hasRoomAt p.site) : f.weave patches = .ok (f.woven (patchAt patches)) := by
  have perm := sort_by_perm Patch.goesBefore patches
  have sorted := sort_by_sorted Patch.goesBefore (fun p q => lex_total q.site.key p.site.key)
    (fun p q r pq qr => lex_trans r.site.key q.site.key p.site.key qr pq) patches
  have apart : (sortBy Patch.goesBefore patches).Pairwise fun p q => p.site ≠ q.site :=
    List.pairwise_map.mp ((perm.map Patch.site).nodup_iff.mpr distinct)
  have descending : (sortBy Patch.goesBefore patches).Pairwise fun p q => q.site.Earlier p.site :=
    (sorted.and apart).imp fun {p q} both => ((lex_key_iff q.site p.site).mp both.1).resolve_right (Ne.symm both.2)
  rw [Func.weave, insert_all_woven f _ descending fun p member => room p (perm.mem_iff.mp member),
    patch_at_perm patches _ distinct perm.symm]

def Func.recast (f : Func) (expand : Site → Inst → List Inst) : Func :=
  { f with blocks := f.blocks.zipIdx.map fun (b, index) =>
      { b with insts := b.insts.zipIdx.flatMap fun (i, place) => expand ⟨index, place⟩ i } }

theorem flat_map_single (insts : List Inst) : insts.zipIdx.flatMap (fun (i, _) => [i]) = insts :=
  List.map_eq_flatMap.symm.trans (List.zipIdx_map_fst 0 insts)

theorem set_inst_recast (f : Func) (site : Site) (i : Inst) :
    f.setInst site i = f.recast fun place j => if place = site then [i] else [j] := by
  have blockSet (b : Block) : { b with insts := b.insts.set site.inst i } =
      { b with insts := b.insts.zipIdx.flatMap fun (j, place) =>
        if (⟨site.block, place⟩ : Site) = site then [i] else [j] } := by
    congr 1
    have single : (fun entry : Inst × Nat => if (⟨site.block, entry.2⟩ : Site) = site then [i] else [entry.1]) =
        fun entry => [if entry.2 = site.inst then i else entry.1] := by
      funext entry
      by_cases same : entry.2 = site.inst
      · simp [same]
      · have other : (⟨site.block, entry.2⟩ : Site) ≠ site := fun equal => same (congrArg Site.inst equal)
        simp [same, other]
    change _ = b.insts.zipIdx.flatMap fun entry : Inst × Nat =>
      if (⟨site.block, entry.2⟩ : Site) = site then [i] else [entry.1]
    rw [single, ← List.map_eq_flatMap]
    apply List.ext_getElem?
    intro place
    by_cases same : site.inst = place
    · subst same
      by_cases inside : site.inst < b.insts.length <;> simp [inside]
    · cases found : b.insts[place]? <;> simp [same, Ne.symm same, List.getElem?_zipIdx, found]
  simp only [Func.setInst, Func.recast, Func.mk.injEq, and_self, and_true, true_and]
  apply List.ext_getElem?
  intro index
  simp only [List.getElem?_map, List.getElem?_zipIdx, List.getElem?_modify, Option.map_map, Nat.zero_add]
  by_cases here : site.block = index
  · subst here
    cases f.blocks[site.block]? with
    | none => simp
    | some b => simpa using blockSet b
  · have other (place : Nat) : (⟨index, place⟩ : Site) ≠ site := fun equal => here (congrArg Site.block equal).symm
    cases f.blocks[index]? with
    | none => simp
    | some b => simp [here, other, flat_map_single b.insts]

theorem recast_recast (f : Func) (change : Site → Inst → Inst) (expand : Site → Inst → List Inst) :
    (f.recast fun site i => [change site i]).recast expand = f.recast fun site i => expand site (change site i) := by
  have each (insts : List Inst) (index start : Nat) :
      (((insts.zipIdx start).flatMap fun (i, place) => [change ⟨index, place⟩ i]).zipIdx start).flatMap
        (fun (i, place) => expand ⟨index, place⟩ i) =
      (insts.zipIdx start).flatMap fun (i, place) => expand ⟨index, place⟩ (change ⟨index, place⟩ i) := by
    induction insts generalizing start with
    | nil => rfl
    | cons i rest ih => simpa using ih (start + 1)
  simp only [Func.recast, Func.mk.injEq, and_self, and_true, true_and]
  apply List.ext_getElem?
  intro index
  simp only [List.getElem?_map, List.getElem?_zipIdx, Option.map_map, Nat.zero_add]
  cases f.blocks[index]? with
  | none => rfl
  | some b => simpa using each b.insts index 0

theorem recast_woven (f : Func) (change : Site → Inst → Inst) (before : Site → List Inst)
    (inside : ∀ site, f.inst? site = none → before site = []) :
    (f.recast fun site i => [change site i]).woven before = f.recast fun site i => before site ++ [change site i] := by
  have each (insts : List Inst) (index start : Nat) :
      (((insts.zipIdx start).flatMap fun (i, place) => [change ⟨index, place⟩ i]).zipIdx start).flatMap
        (fun (i, place) => before ⟨index, place⟩ ++ [i]) =
      (insts.zipIdx start).flatMap fun (i, place) => before ⟨index, place⟩ ++ [change ⟨index, place⟩ i] := by
    induction insts generalizing start with
    | nil => rfl
    | cons i rest ih => simpa using ih (start + 1)
  simp only [Func.recast, Func.woven, Func.mk.injEq, and_self, and_true, true_and]
  apply List.ext_getElem?
  intro index
  simp only [List.getElem?_map, List.getElem?_zipIdx, Option.map_map, Nat.zero_add]
  cases stored : f.blocks[index]? with
  | none => rfl
  | some b =>
      have atEnd : before ⟨index, b.insts.length⟩ = [] := inside _ (by simp [Func.inst?, stored])
      simpa [Block.woven, atEnd] using each b.insts index 0

theorem recast_block (f : Func) (expand : Site → Inst → List Inst) (index : Nat) :
    (f.recast expand).blocks[index]? = f.blocks[index]?.map fun b =>
      { b with insts := b.insts.zipIdx.flatMap fun (i, place) => expand ⟨index, place⟩ i } := by
  simp only [Func.recast, List.getElem?_map, List.getElem?_zipIdx, Option.map_map, Nat.zero_add]
  rfl

theorem recast_single_inst (f : Func) (change : Site → Inst → Inst) (site : Site) :
    (f.recast fun place i => [change place i]).inst? site = (f.inst? site).map (change site) := by
  simp only [Func.inst?, recast_block, Option.bind_map, Option.map_bind]
  cases f.blocks[site.block]? with
  | none => rfl
  | some b =>
      simp only [Option.bind_some, Function.comp]
      change (b.insts.zipIdx.flatMap fun entry => [change ⟨site.block, entry.2⟩ entry.1])[site.inst]? = _
      rw [← List.map_eq_flatMap]
      cases found : b.insts[site.inst]? <;> simp [List.getElem?_zipIdx, found]

theorem set_inst_at (f : Func) (site place : Site) (i : Inst) :
    (f.setInst site i).inst? place = (f.inst? place).map fun j => if place = site then i else j := by
  rw [set_inst_recast, ← recast_single_inst f fun place j => if place = site then i else j]
  simp only [apply_ite (fun j : Inst => [j])]

end Regroup
