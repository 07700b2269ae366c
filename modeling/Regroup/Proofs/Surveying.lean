import Mathlib
import Regroup.Chain.Survey
import Regroup.Proofs.Growth
import Regroup.Proofs.Renaming

set_option autoImplicit false

namespace Regroup

theorem block_sited_earlier (b : Block) (index : Nat) :
    (b.sited index).Pairwise fun x y => x.1.Earlier y.1 := by
  have ordered (insts : List Inst) (start : Nat) : (insts.zipIdx start).Pairwise fun x y => x.2 < y.2 := by
    induction insts generalizing start with
    | nil => exact List.Pairwise.nil
    | cons i rest ih =>
        refine List.pairwise_cons.mpr ⟨fun entry member => ?_, ih (start + 1)⟩
        have bound := List.le_snd_of_mem_zipIdx member
        dsimp only
        omega
  rw [Block.sited, List.pairwise_map]
  exact (ordered b.insts 0).imp fun less => Or.inr ⟨rfl, less⟩

theorem block_sited_block (b : Block) (index : Nat) (entry : Site × Inst) (member : entry ∈ b.sited index) :
    entry.1.block = index := by
  rw [Block.sited, List.mem_map] at member
  obtain ⟨_, _, rfl⟩ := member
  rfl

theorem blocks_sited_earlier (blocks : List Block) (start : Nat) :
    ((blocks.zipIdx start).flatMap fun (b, index) => b.sited index).Pairwise fun x y => x.1.Earlier y.1 := by
  induction blocks generalizing start with
  | nil => exact List.Pairwise.nil
  | cons b rest ih =>
      rw [List.zipIdx_cons, List.flatMap_cons]
      refine List.pairwise_append.mpr ⟨block_sited_earlier b start, ih (start + 1), fun x inB y inRest => Or.inl ?_⟩
      obtain ⟨⟨c, index⟩, listed, inC⟩ := List.mem_flatMap.mp inRest
      rw [block_sited_block b start x inB, block_sited_block c index y inC]
      have bound := List.le_snd_of_mem_zipIdx listed
      dsimp only at bound
      omega

theorem sited_earlier (f : Func) : f.sited.Pairwise fun x y => x.1.Earlier y.1 := blocks_sited_earlier f.blocks 0

theorem mem_ariths (f : Func) (site : Site) (a : Arith) : (site, a) ∈ f.ariths ↔ f.inst? site = some (.arith a) := by
  simp only [Func.ariths, List.mem_filterMap, Prod.exists, mem_sited, Option.map_eq_some_iff, Prod.mk.injEq, arith_of_inst]
  constructor
  · intro listed
    obtain ⟨place, i, stored, b, same, here, equal⟩ := listed
    rw [← here, ← equal, ← same]
    exact stored
  · intro stored
    exact ⟨site, .arith a, stored, a, rfl, rfl, rfl⟩

theorem ariths_earlier (f : Func) : f.ariths.Pairwise fun x y => x.1.Earlier y.1 := by
  rw [Func.ariths, List.pairwise_filterMap]
  refine (sited_earlier f).imp fun {x y} earlier p atX q atY => ?_
  obtain ⟨_, _, rfl⟩ := Option.map_eq_some_iff.mp atX
  obtain ⟨_, _, rfl⟩ := Option.map_eq_some_iff.mp atY
  exact earlier

def Func.foundAt (f : Func) (site : Site) (a : Arith) : Found :=
  ⟨a.dest, f.facts.rootTree f a, Chain.ofTree site a.op (f.facts.rootTree f a)⟩

theorem find_from_mem (f : Func) (absorbed : List Value) (entries : List (Site × Arith)) (found : Found)
    (member : found ∈ f.facts.findFrom f absorbed entries) : ∃ site a, (site, a) ∈ entries ∧ a.dest ∉ absorbed ∧
      f.facts.live.has a.dest = true ∧ a.regroupable = true ∧ found = f.foundAt site a := by
  induction entries generalizing absorbed with
  | nil => simp [Facts.findFrom] at member
  | cons entry rest ih =>
      obtain ⟨site, a⟩ := entry
      by_cases roots : a.dest ∉ absorbed ∧ f.facts.live.has a.dest = true ∧ a.regroupable = true
      · rw [Facts.findFrom, if_pos roots, List.mem_cons] at member
        rcases member with here | later
        · exact ⟨site, a, List.mem_cons_self, roots.1, roots.2.1, roots.2.2, here⟩
        · obtain ⟨place, b, listed, fresh, rest⟩ := ih _ later
          exact ⟨place, b, List.mem_cons_of_mem _ listed, fun old => fresh (List.mem_append_right _ old), rest⟩
      · rw [Facts.findFrom, if_neg roots] at member
        obtain ⟨place, b, listed, rest⟩ := ih absorbed member
        exact ⟨place, b, List.mem_cons_of_mem _ listed, rest⟩

theorem find_from_roots (f : Func) (absorbed : List Value) (entries : List (Site × Arith)) :
    ((f.facts.findFrom f absorbed entries).map (·.chain.root)).Sublist (entries.map Prod.fst) := by
  induction entries generalizing absorbed with
  | nil => exact List.Sublist.slnil
  | cons entry rest ih =>
      obtain ⟨site, a⟩ := entry
      by_cases roots : a.dest ∉ absorbed ∧ f.facts.live.has a.dest = true ∧ a.regroupable = true
      · rw [Facts.findFrom, if_pos roots]
        exact (ih _).cons_cons site
      · rw [Facts.findFrom, if_neg roots]
        exact (ih absorbed).cons site

theorem find_all_mem (f : Func) (found : Found) (member : found ∈ f.facts.findAll f) :
    ∃ site a, f.inst? site = some (.arith a) ∧ f.facts.live.has a.dest = true ∧ a.regroupable = true ∧
      found = f.foundAt site a := by
  obtain ⟨site, a, listed, _, live, regroupable, same⟩ := find_from_mem f [] _ found member
  exact ⟨site, a, (mem_ariths f site a).mp (List.mem_reverse.mp listed), live, regroupable, same⟩

theorem find_all_roots (f : Func) :
    ((f.facts.findAll f).map (·.chain.root)).Pairwise fun later earlier => earlier.Earlier later := by
  refine List.Pairwise.sublist (find_from_roots f [] f.ariths.reverse) ?_
  rw [List.pairwise_map, List.pairwise_reverse]
  exact ariths_earlier f

def Func.surveyed (f : Func) (table : Option PairTable) : Survey where
  found := f.facts.findAll f
  candidates := ((f.facts.findAll f).filter (shortestReordered ≤ ·.chain.length)).map
    (·.candidate f.facts table.isSome)
  recorded := if table.isSome then ((f.facts.findAll f).filter (·.chain.length ≤ recordLimit)).length else 0
  table := table.map fun t => (f.facts.findAll f).foldl (fun t found => t.record found.chain) t

theorem survey_ok (f : Func) (table : Option PairTable) (bounded : ∀ v ∈ f.defs, v < f.next) :
    f.survey f.facts table = .ok (f.surveyed table) := by
  rw [Func.survey, (check_ids_ok f).mpr bounded]
  rfl

theorem surveyed_queue (f : Func) (table : Option PairTable) : (f.surveyed table).queue =
    (((f.facts.findAll f).filter (shortestReordered ≤ ·.chain.length)).map
      fun found => (found.candidate f.facts table.isSome).chain).filter (·.policy.isActive) := by
  simp only [Survey.queue, Func.surveyed, List.map_map]
  rfl

theorem queue_mem (f : Func) (table : Option PairTable) (c : Chain) (member : c ∈ (f.surveyed table).queue) :
    ∃ site a, f.inst? site = some (.arith a) ∧ f.facts.live.has a.dest = true ∧ a.regroupable = true ∧
      shortestReordered ≤ c.length ∧ f.foundAt site a ∈ f.facts.findAll f ∧
      c = ((f.foundAt site a).candidate f.facts table.isSome).chain := by
  rw [surveyed_queue, List.mem_filter, List.mem_map] at member
  obtain ⟨⟨found, listed, same⟩, _⟩ := member
  rw [List.mem_filter] at listed
  obtain ⟨site, a, stored, live, regroupable, rfl⟩ := find_all_mem f found listed.1
  refine ⟨site, a, stored, live, regroupable, ?_, listed.1, same.symm⟩
  rw [← same]
  exact of_decide_eq_true listed.2

theorem queue_roots (f : Func) (table : Option PairTable) :
    ((f.surveyed table).queue.map Chain.root).Sublist ((f.facts.findAll f).map (·.chain.root)) := by
  rw [surveyed_queue]
  refine (List.filter_sublist.map Chain.root).trans ?_
  rw [List.map_map]
  exact List.filter_sublist.map _

theorem queue_roots_distinct (f : Func) (table : Option PairTable) :
    ((f.surveyed table).queue.map Chain.root).Nodup := by
  refine List.Pairwise.sublist (queue_roots f table) ((find_all_roots f).imp fun earlier same => ?_)
  exact earlier_irrefl _ (same ▸ earlier)

end Regroup
