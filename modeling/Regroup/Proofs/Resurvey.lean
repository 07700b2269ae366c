import Mathlib
import Regroup.Proofs.Rearrangement

set_option autoImplicit false

namespace Regroup

-- Lists whose entries are told apart by corresponding keys agree on how many entries pass corresponding tests.
theorem matched_count {α β : Type} (xs : List α) (ys : List β) (keyX : α → Value) (keyY : β → Value)
    (once : (xs.map keyX).Nodup) (perm : (ys.map keyY).Perm (xs.map keyX)) (p : α → Bool) (q : β → Bool)
    (alike : ∀ x ∈ xs, ∀ y ∈ ys, keyY y = keyX x → q y = p x) : ys.countP q = xs.countP p := by
  have again := perm.nodup_iff.mpr once
  have kept : ((ys.filter q).map keyY).Perm ((xs.filter p).map keyX) := by
    refine (List.perm_ext_iff_of_nodup (again.sublist (List.filter_sublist.map _))
      (once.sublist (List.filter_sublist.map _))).mpr fun v => ?_
    constructor
    · intro listed
      obtain ⟨y, member, rfl⟩ := List.mem_map.mp listed
      obtain ⟨inY, passes⟩ := List.mem_filter.mp member
      obtain ⟨x, inX, same⟩ := List.mem_map.mp (perm.mem_iff.mp (List.mem_map_of_mem inY))
      rw [← same]
      exact List.mem_map_of_mem (List.mem_filter.mpr ⟨inX, alike x inX y inY same.symm ▸ passes⟩)
    · intro listed
      obtain ⟨x, member, rfl⟩ := List.mem_map.mp listed
      obtain ⟨inX, passes⟩ := List.mem_filter.mp member
      obtain ⟨y, inY, same⟩ := List.mem_map.mp (perm.mem_iff.mpr (List.mem_map_of_mem inX))
      rw [← same]
      exact List.mem_map_of_mem (List.mem_filter.mpr ⟨inY, (alike x inX y inY same).trans passes⟩)
  rw [List.countP_eq_length_filter, List.countP_eq_length_filter]
  simpa using kept.length_eq

-- The chains of two functions correspond: their roots by value, and each of them by its leaves.
structure Func.Echoes (h g : Func) (ρ : Value → Value) : Prop where
  carried : h.Carried g ρ
  distinct : ((h.facts.findAll h).map fun x => ρ x.dest).Nodup
  roots : ((g.facts.findAll g).map Found.dest).Perm ((h.facts.findAll h).map fun x => ρ x.dest)
  chains : ∀ x ∈ h.facts.findAll h, ∀ y ∈ g.facts.findAll g, y.dest = ρ x.dest → x.chain.Echoes h ρ y.chain

section Echoes

variable (h g : Func) (ρ : Value → Value)

theorem echo_pair_held (carried : h.Carried g ρ) (c d : Chain) (echoes : c.Echoes h ρ d) (s t : Scalar)
    (knownS : s.value < h.next) (knownT : t.value < h.next) :
    [s.renamed ρ, t.renamed ρ].Subperm d.leaves ↔ [s, t].Subperm c.leaves := by
  constructor
  · intro within
    obtain ⟨x, y, inside, perm⟩ := pair_subperm_map _ _ _ _ (within.trans echoes.leaves.subperm)
    have known (z : Scalar) (member : z ∈ [x, y]) := echoes.known z (inside.subset member)
    have backS (z : Scalar) (member : z ∈ [x, y]) := carried_scalar h g ρ carried z s (known z member) knownS
    have backT (z : Scalar) (member : z ∈ [x, y]) := carried_scalar h g ρ carried z t (known z member) knownT
    rw [pair_subperm]
    rcases List.perm_pair.mp perm with equal | swapped
    · obtain ⟨first, rest⟩ := List.cons.inj equal
      rw [← (backS x (by simp)).mp first, ← (backT y (by simp)).mp (List.cons.inj rest).1]
      exact Or.inl inside
    · obtain ⟨first, rest⟩ := List.cons.inj swapped
      rw [← (backT x (by simp)).mp first, ← (backS y (by simp)).mp (List.cons.inj rest).1]
      exact Or.inr inside
  · intro within
    exact (subperm_map (Scalar.renamed ρ) _ _ within).trans echoes.leaves.symm.subperm

theorem echo_counts (carried : h.Carried g ρ) (c d : Chain) (echoes : c.Echoes h ρ d) (op : Op) (s t : Scalar)
    (knownS : s.value < h.next) (knownT : t.value < h.next) :
    d.counts (PairKey.of op (s.renamed ρ) (t.renamed ρ)) = c.counts (PairKey.of op s t) := by
  have held := echo_pair_held h g ρ carried c d echoes s t knownS knownT
  rw [Bool.eq_iff_iff]
  simp only [Chain.counts, Bool.and_eq_true, decide_eq_true_eq, pair_key_listed, echo_length h ρ c d echoes, echoes.op, held]

variable (echoes : h.Echoes g ρ)
include echoes

theorem echo_tallied (options : Options) (op : Op) :
    Tallied h ρ op (h.surveyed options.table).table (g.surveyed options.table).table := by
  cases sharing : options.sharing with
  | false =>
      rw [show options.table = none by simp [Options.table, sharing]]
      exact Or.inl ⟨rfl, rfl⟩
  | true =>
      rw [show options.table = some .empty by simp [Options.table, sharing]]
      refine Or.inr ⟨_, _, rfl, rfl, fun s v knownS knownV => ?_⟩
      rw [recorded_count, recorded_count]
      congr 1
      refine matched_count _ _ (fun x => ρ x.dest) Found.dest echoes.distinct echoes.roots _ _ fun x inX y inY same => ?_
      exact echo_counts h g ρ echoes.carried x.chain y.chain (echoes.chains x inX y inY same) op s v knownS knownV

theorem echo_queued (table : Option PairTable) (d : Chain) (queued : d ∈ (g.surveyed table).queue) :
    ∃ x ∈ h.facts.findAll h, ∃ y ∈ g.facts.findAll g, y.dest = ρ x.dest ∧
      d = (y.candidate g.facts table.isSome).chain ∧ (x.candidate h.facts table.isSome).chain ∈ (h.surveyed table).queue ∧
      (x.candidate h.facts table.isSome).chain.Echoes h ρ d ∧
      d.policy = (x.candidate h.facts table.isSome).chain.policy := by
  rw [surveyed_queue, List.mem_filter, List.mem_map] at queued
  obtain ⟨⟨y, listed, rfl⟩, active⟩ := queued
  obtain ⟨inY, long⟩ := List.mem_filter.mp listed
  obtain ⟨x, inX, same⟩ := List.mem_map.mp (echoes.roots.mem_iff.mp (List.mem_map_of_mem inY))
  have alike := echoes.chains x inX y inY same.symm
  have length := echo_length h ρ x.chain y.chain alike
  have policy : (y.candidate g.facts table.isSome).chain.policy = (x.candidate h.facts table.isSome).chain.policy := by
    simp only [Found.candidate, echo_profile h g ρ echoes.carried x.chain y.chain alike, length]
  refine ⟨x, inX, y, inY, same.symm, rfl, ?_, ⟨alike.op, alike.block, alike.leaves, alike.known⟩, policy⟩
  rw [surveyed_queue]
  refine List.mem_filter.mpr ⟨List.mem_map_of_mem (List.mem_filter.mpr ⟨inX, ?_⟩), policy ▸ active⟩
  rw [← length]
  exact long

end Echoes

theorem found_roots_nodup (f : Func) (unique : f.defs.Nodup) : ((f.facts.findAll f).map Found.dest).Nodup := by
  rw [List.Nodup, List.pairwise_map]
  refine (List.pairwise_map.mp (find_all_roots f)).imp_of_mem fun {x y} inX inY earlier same => ?_
  obtain ⟨site, a, storedA, _, _, rfl⟩ := find_all_mem f x inX
  obtain ⟨place, b, storedB, _, _, rfl⟩ := find_all_mem f y inY
  have equal : a.dest = b.dest := same
  have here := (defines_unique f unique b.dest site place _ _ ⟨storedA, congrArg some equal⟩ ⟨storedB, rfl⟩).1
  exact earlier_irrefl place (here ▸ earlier)

section Built

variable (h g : Func) (rebuilt : List Rebuilt) (built : h.RebuiltAs g rebuilt) (sated : h.Sated rebuilt)
include built sated

theorem found_dests_again : ((g.facts.findAll g).map Found.dest).Perm ((h.facts.findAll h).map Found.dest) := by
  refine (List.perm_ext_iff_of_nodup (found_roots_nodup g built.fine.unique) (found_roots_nodup h built.wf.unique)).mpr
    fun v => ?_
  constructor
  · intro listed
    obtain ⟨y, inY, rfl⟩ := List.mem_map.mp listed
    obtain ⟨place, c, there, _, _, rfl⟩ := find_all_mem g y inY
    obtain ⟨site, a, found, dest⟩ := (found_again h g rebuilt built sated place c there).mp inY
    exact List.mem_map.mpr ⟨_, found, dest⟩
  · intro listed
    obtain ⟨x, inX, rfl⟩ := List.mem_map.mp listed
    obtain ⟨site, a, stored, _, _, rfl⟩ := find_all_mem h x inX
    obtain ⟨place, c, there, dest⟩ := root_stored_after h g rebuilt built site a stored
    exact List.mem_map.mpr ⟨_, (found_again h g rebuilt built sated place c there).mpr ⟨site, a, inX, dest.symm⟩, dest⟩

theorem root_leaves_after (site : Site) (a : Arith) (found : h.foundAt site a ∈ h.facts.findAll h) (place : Site)
    (c : Arith) (there : g.inst? place = some (.arith c)) (dest : c.dest = a.dest) : c.op = a.op ∧
      place.block = site.block ∧ (g.facts.rootTree g c).leaves.Perm (h.facts.rootTree h a).leaves := by
  have stored := (found_at_mem h site a found).1
  obtain ⟨block, ⟨kept, rfl⟩ | ⟨r, member, _, rfl, rfl⟩⟩ := root_after h g rebuilt built site a stored place c there dest
  · exact ⟨rfl, block, List.Perm.of_eq (congrArg Tree.leaves (kept_root_tree h g rebuilt built site c stored found kept))⟩
  · obtain ⟨_, leaves, perm⟩ := built.expansion.chain r member
    refine ⟨rfl, block, ?_⟩
    rw [rebuilt_root_tree h g rebuilt built sated r member, Tree.leaves, shape_tree_leaves, shape_tree_leaves]
    refine List.perm_append_comm.trans ?_
    rw [← leaves] at perm
    exact perm

omit sated in
theorem root_dest_back (k : Func) (ρ : Value → Value) (link : Renaming g k ρ) (site place : Site) (a c : Arith)
    (stored : h.inst? site = some (.arith a)) (there : g.inst? place = some (.arith c)) (same : ρ c.dest = ρ a.dest) :
    c.dest = a.dest := by
  obtain ⟨spot, b, elsewhere, equal⟩ := root_stored_after h g rebuilt built site a stored
  have knownA := (mem_defs g a.dest).mpr ⟨spot, _, elsewhere, congrArg some equal⟩
  have knownC := (mem_defs g c.dest).mpr ⟨place, _, there, rfl⟩
  exact link.injective c.dest knownC a.dest knownA same

end Built

theorem prepared_echoes (f : Func) (options : Options) (g : Func) (rebuilt : List Rebuilt) (wf : f.WellFormed)
    (plain : f.divergence = none) (built : (f.prepared options).RebuiltAs g rebuilt)
    (sated : (f.prepared options).Sated rebuilt)
    (flags : g.divergence = none ∨ g.divergence = (f.prepared options).divergence) :
    (f.prepared options).Echoes (g.prepared options) g.rename := by
  have carried := prepared_carried f options g rebuilt wf plain built flags
  have link := prepared_renaming g options built.fine.unique
  have foundAll := renaming_find_all g _ g.rename link built.fine
  have old (x : Found) (inX : x ∈ (f.prepared options).facts.findAll (f.prepared options)) :
      x.dest < (f.prepared options).next := by
    obtain ⟨site, a, stored, _, _, rfl⟩ := find_all_mem _ x inX
    exact defines_bounded _ built.wf a.dest site _ ⟨stored, rfl⟩
  refine ⟨carried, ?_, ?_, fun x inX y inY same => ?_⟩
  · have once := found_roots_nodup (f.prepared options) built.wf.unique
    have renamed := once.map_on (f := g.rename) fun v inV w inW same => ?_
    · rw [List.map_map] at renamed
      exact renamed
    · obtain ⟨x, inX, rfl⟩ := List.mem_map.mp inV
      obtain ⟨y, inY, rfl⟩ := List.mem_map.mp inW
      exact (carried_same _ _ _ carried x.dest y.dest (old x inX) (old y inY)).mp same
  · have perm := (found_dests_again _ g rebuilt built sated).map g.rename
    rw [foundAll, List.map_map]
    rw [List.map_map, List.map_map] at perm
    exact perm
  · rw [foundAll] at inY
    obtain ⟨z, inZ, rfl⟩ := List.mem_map.mp inY
    obtain ⟨site, a, stored, _, _, rfl⟩ := find_all_mem _ x inX
    obtain ⟨place, c, there, _, _, rfl⟩ := find_all_mem g z inZ
    have dest := root_dest_back _ g rebuilt built _ g.rename link site place a c stored there same
    obtain ⟨op, block, perm⟩ := root_leaves_after _ g rebuilt built sated site a inX place c there dest
    refine ⟨op, block, perm.map _, fun s leaf => ?_⟩
    exact root_leaf_old _ built.wf site a stored s leaf

end Regroup
