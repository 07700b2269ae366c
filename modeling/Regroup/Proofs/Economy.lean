import Mathlib
import Regroup.Proofs.Discovery
import Regroup.Proofs.Regrowth

set_option autoImplicit false

namespace Regroup

theorem root_leaves_needed (f : Func) (wf : f.WellFormed) (site : Site) (a : Arith) (t : Tree Arith Scalar)
    (stored : f.inst? site = some (.arith a)) (grown : f.RootGrown a t) (needed : f.Needed a.dest) :
    ∀ s ∈ t.leaves, f.Needed s.value := by
  intro s leaf
  obtain ⟨p, label, read⟩ := root_leaf_reader f a t grown s leaf
  obtain ⟨place, there⟩ := root_labels_stored f site a stored t grown p label
  refine needed_read f wf place _ s there read fun v feeds => ?_
  cases feeds
  exact root_labels_needed f wf site a t stored grown needed p label

theorem shape_needed (g : Func) (fine : g.WellFormed) (c : Chain) (next : Nat) (t : Shape)
    (stored : ∀ i ∈ Shape.code c next t, ∃ place, g.inst? place = some i) (top : g.Needed (Shape.result next t).value) :
    (∀ s ∈ t.leaves, g.Needed s.value) ∧ ∀ m < t.nodeCount, g.Needed (next + m) := by
  induction t generalizing next with
  | leaf s => exact ⟨by simpa [Tree.leaves, Shape.result] using top, by simp [Tree.nodeCount]⟩
  | node label left right lower upper =>
      simp only [Shape.code, List.mem_append, List.mem_singleton] at stored
      obtain ⟨place, there⟩ := stored _ (Or.inr rfl)
      have operand (s : Scalar) (read : s = Shape.result next left ∨ s = Shape.result (next + left.nodeCount) right) :
          g.Needed s.value := by
        refine needed_read g fine place _ s there (by simpa [step_reads] using read) fun v feeds => ?_
        cases feeds
        exact top
      obtain ⟨leavesL, newL⟩ := lower next (fun i code => stored i (Or.inl (Or.inl code))) (operand _ (Or.inl rfl))
      obtain ⟨leavesR, newR⟩ := upper (next + left.nodeCount) (fun i code => stored i (Or.inl (Or.inr code)))
        (operand _ (Or.inr rfl))
      refine ⟨fun s member => (List.mem_append.mp member).elim (leavesL s) (leavesR s), fun m less => ?_⟩
      simp only [Tree.nodeCount] at less
      rcases Nat.lt_or_ge m left.nodeCount with low | beyond
      · exact newL m low
      · rcases Nat.lt_or_ge m (left.nodeCount + right.nodeCount) with middle | last
        · have there := newR (m - left.nodeCount) (by omega)
          rwa [show next + left.nodeCount + (m - left.nodeCount) = next + m by omega] at there
        · rw [show m = left.nodeCount + right.nodeCount by omega, ← Nat.add_assoc]
          exact top

section Built

variable (h g : Func) (rebuilt : List Rebuilt) (built : h.RebuiltAs g rebuilt)
include built

theorem rebuilt_root_needed (r : Rebuilt) (member : r ∈ rebuilt) : h.Needed r.old.dest := by
  obtain ⟨site, a, _, live, _, same⟩ := find_all_mem h _ (built.found r member)
  have dest : r.old.dest = a.dest := congrArg Found.dest same
  rw [dest]
  exact live_sound h a.dest live

theorem rebuilt_root_kept (r q : Rebuilt) (inR : r ∈ rebuilt) (inQ : q ∈ rebuilt) :
    q.old ∉ (h.facts.rootTree h r.old).labels.tail :=
  found_root_not_inner h built.wf.unique built.orderly r.site q.site r.old q.old (built.expansion.stored r inR)
    (built.expansion.stored q inQ) (built.found r inR) (built.found q inQ)

theorem root_not_orphan (q : Rebuilt) (member : q ∈ rebuilt) : ¬ h.Orphan rebuilt q.old.dest := by
  intro orphan
  obtain ⟨r, inR, b, inner, same⟩ := orphan
  obtain ⟨place, there⟩ := root_labels_stored h r.site r.old (built.expansion.stored r inR) _ (root_tree_grown h r.old) b
    (List.mem_of_mem_tail inner)
  have equal := (defines_unique h built.wf.unique q.old.dest place q.site _ _ ⟨there, by rw [← same]; rfl⟩
    ⟨built.expansion.stored q member, rfl⟩).2
  cases equal
  exact rebuilt_root_kept h g rebuilt built r q inR member inner

theorem absorbed_reader (r : Rebuilt) (member : r ∈ rebuilt) (b : Arith)
    (inner : b ∈ (h.facts.rootTree h r.old).labels.tail) (site : Site) (i : Inst) (s : Scalar)
    (stored : h.inst? site = some i) (read : s ∈ i.reads) (value : s.value = b.dest) :
    (i = .arith r.old ∧ site = r.site) ∨ ∃ p ∈ (h.facts.rootTree h r.old).labels.tail, i = .arith p := by
  have root := built.expansion.stored r member
  obtain ⟨p, label, rfl⟩ := root_inner_reader h r.site r.old root _ (root_tree_grown h r.old) b inner site i s stored read
    value
  rcases root_label_split h r.old p label with rfl | below
  · exact Or.inl ⟨rfl, (defines_unique h built.wf.unique r.old.dest site r.site _ _ ⟨stored, rfl⟩ ⟨root, rfl⟩).1⟩
  · exact Or.inr ⟨p, below, rfl⟩

theorem absorbed_no_end (r : Rebuilt) (member : r ∈ rebuilt) (b : Arith)
    (inner : b ∈ (h.facts.rootTree h r.old).labels.tail) (index : Nat) (c : Block) (stored : h.blocks[index]? = some c)
    (s : Scalar) (read : s ∈ c.term.reads) : s.value ≠ b.dest := by
  have grown := root_tree_grown h r.old
  obtain ⟨_, _, once⟩ := root_inner_once h r.old _ grown b inner
  obtain ⟨p, label, parent⟩ := root_parent h r.old _ grown b inner
  obtain ⟨place, there⟩ := root_labels_stored h r.site r.old (built.expansion.stored r member) _ grown p label
  exact sole_reader_no_end h b.dest once place _ _ there parent rfl index c stored s read

theorem orphan_reader (v : Value) (orphan : h.Orphan rebuilt v) (place : Site) (j : Inst) (s : Scalar)
    (stored : g.inst? place = some j) (read : s ∈ j.reads) (value : s.value = v) :
    ∃ w, j.feeds = some w ∧ h.Orphan rebuilt w := by
  have old := orphan_old h g rebuilt built v orphan
  obtain ⟨r, member, b, inner, rfl⟩ := orphan
  rcases built_cases h g rebuilt built place j stored with ⟨site, _, there, kept⟩ | ⟨q, inQ, _, made⟩
  · rcases absorbed_reader h g rebuilt built r member b inner site j s there read value with ⟨_, here⟩ | ⟨p, below, rfl⟩
    · rw [here, rebuilt_at_self rebuilt built.expansion.distinct r member] at kept
      cases kept
    · exact ⟨p.dest, rfl, r, member, p, below, rfl⟩
  · rcases made_reads h g rebuilt built q inQ j made s read with leaf | ⟨m, _, rfl⟩
    · exact absurd value (found_leaf_not_inner h built.wf.unique built.orderly q.site r.site q.old r.old
        (built.expansion.stored q inQ) (built.expansion.stored r member) (built.found q inQ) (built.found r member) s leaf b
        inner)
    · have new : q.base + m = b.dest := value
      exact absurd (new ▸ old) (expansion_new_large h rebuilt g.next built.expansion q inQ m)

theorem needed_not_orphan (v : Value) (needed : g.Needed v) : ¬ h.Orphan rebuilt v := by
  refine needed_induction g (fun v => ¬ h.Orphan rebuilt v) ?_ ?_ v needed
  · intro index c s stored read orphan
    obtain ⟨d, there, term⟩ := built_end h g rebuilt built index c stored
    obtain ⟨r, member, b, inner, same⟩ := orphan
    exact absorbed_no_end h g rebuilt built r member b inner index d there s (term ▸ read) same.symm
  · intro place j s stored read wanted orphan
    obtain ⟨w, feeds, also⟩ := orphan_reader h g rebuilt built _ orphan place j s stored read rfl
    exact (wanted w feeds).2 also

theorem needed_before (v : Value) (needed : g.Needed v) (old : v < h.next) : h.Needed v := by
  refine needed_induction g (fun v => v < h.next → h.Needed v) ?_ ?_ v needed old
  · intro index c s stored read _
    obtain ⟨b, there, term⟩ := built_end h g rebuilt built index c stored
    exact needed_end h built.wf index b s there (term ▸ read)
  · intro place j s stored read wanted small
    rcases built_cases h g rebuilt built place j stored with ⟨site, _, there, _⟩ | ⟨r, member, _, made⟩
    · refine needed_read h built.wf site j s there read fun w feeds => ?_
      exact (wanted w feeds).2 (defines_bounded h built.wf w site j ⟨there, feeds_dest j w feeds⟩)
    · rcases made_reads h g rebuilt built r member j made s read with leaf | ⟨m, _, rfl⟩
      · exact root_leaves_needed h built.wf r.site r.old _ (built.expansion.stored r member) (root_tree_grown h r.old)
          (rebuilt_root_needed h g rebuilt built r member) s leaf
      · exact absurd small (expansion_new_large h rebuilt g.next built.expansion r member m)

theorem made_needed (r : Rebuilt) (member : r ∈ rebuilt) (top : g.Needed r.old.dest) :
    (∀ s ∈ (h.facts.rootTree h r.old).leaves, g.Needed s.value) ∧ ∀ m < r.grouping.nodeCount, g.Needed (r.base + m) := by
  obtain ⟨_, leaves, perm⟩ := built.expansion.chain r member
  obtain ⟨place, _, root⟩ := built_new h g rebuilt built r member _ (Or.inr rfl)
  have code (i : Inst) (listed : i ∈ r.code) : ∃ place, g.inst? place = some i :=
    (built_new h g rebuilt built r member i (Or.inl listed)).imp fun _ both => both.2
  have operand (s : Scalar) (read : s = r.grouping.lhs r.base ∨ s = r.grouping.rhs r.base) : g.Needed s.value := by
    refine needed_read g built.fine place _ s root (by simpa [Inst.reads, Rebuilt.arith] using read) fun v feeds => ?_
    cases feeds
    exact top
  obtain ⟨restLeaves, restNew⟩ := shape_needed g built.fine r.chain r.base r.grouping.rest
    (fun i listed => code i (List.mem_append_left _ listed)) (operand _ (Or.inr rfl))
  obtain ⟨lastLeaves, lastNew⟩ := shape_needed g built.fine r.chain (r.base + r.grouping.rest.nodeCount) r.grouping.last
    (fun i listed => code i (List.mem_append_right _ listed)) (operand _ (Or.inl rfl))
  refine ⟨fun s leaf => ?_, fun m less => ?_⟩
  · have inGrouping : s ∈ r.grouping.leaves := by
      rw [leaves]
      exact perm.mem_iff.mpr leaf
    exact (List.mem_append.mp inGrouping).elim (restLeaves s) (lastLeaves s)
  · rw [Grouping.nodeCount] at less
    rcases Nat.lt_or_ge m r.grouping.rest.nodeCount with low | beyond
    · exact restNew m low
    · have there := lastNew (m - r.grouping.rest.nodeCount) (by omega)
      rwa [show r.base + r.grouping.rest.nodeCount + (m - r.grouping.rest.nodeCount) = r.base + m by omega] at there

-- What was live stays live, but for orphans; where an orphan was live, the root of its chain stays so.
theorem needed_after (v : Value) (needed : h.Needed v) : (¬ h.Orphan rebuilt v → g.Needed v) ∧
    ∀ r ∈ rebuilt, ∀ b ∈ (h.facts.rootTree h r.old).labels.tail, b.dest = v → g.Needed r.old.dest := by
  refine needed_induction h (fun v => (¬ h.Orphan rebuilt v → g.Needed v) ∧
    ∀ r ∈ rebuilt, ∀ b ∈ (h.facts.rootTree h r.old).labels.tail, b.dest = v → g.Needed r.old.dest) ?_ ?_ v needed
  · intro index b s stored read
    obtain ⟨c, there, term⟩ := built_end_kept h g rebuilt built index b stored
    refine ⟨fun _ => needed_end g built.fine index c s there (term ▸ read), fun r member a inner same => ?_⟩
    exact absurd same.symm (absorbed_no_end h g rebuilt built r member a inner index b stored s read)
  · intro site i s stored read wanted
    refine ⟨fun stays => ?_, fun r member b inner same => ?_⟩
    · -- an operand of an operation in a rebuilt chain that is no orphan is a leaf of the chain
      have leafNeeded (r : Rebuilt) (member : r ∈ rebuilt) (p : Arith) (label : p ∈ (h.facts.rootTree h r.old).labels)
          (operand : s ∈ (Inst.arith p).reads) (top : g.Needed r.old.dest) : g.Needed s.value := by
        rcases root_operand h r.old _ (root_tree_grown h r.old) p label s operand with leaf | ⟨b, inner, rfl⟩
        · exact (made_needed h g rebuilt built r member top).1 s leaf
        · exact absurd ⟨r, member, b, inner, rfl⟩ stays
      cases found : rebuiltAt rebuilt site with
      | some r =>
          obtain ⟨member, rfl, rfl⟩ := rebuilt_at_root h rebuilt g.next built.expansion site i r stored found
          have top := (wanted r.old.dest rfl).2.1 (root_not_orphan h g rebuilt built r member)
          exact leafNeeded r member r.old List.mem_cons_self read top
      | none =>
          obtain ⟨place, _, there⟩ := built_kept h g rebuilt built site i stored found
          by_cases orphan : ∃ w, i.feeds = some w ∧ h.Orphan rebuilt w
          · obtain ⟨w, feeds, r, member, b, inner, rfl⟩ := orphan
            obtain ⟨spot, elsewhere⟩ := root_labels_stored h r.site r.old (built.expansion.stored r member) _
              (root_tree_grown h r.old) b (List.mem_of_mem_tail inner)
            obtain ⟨_, rfl⟩ := defines_unique h built.wf.unique b.dest spot site _ _ ⟨elsewhere, rfl⟩
              ⟨stored, feeds_dest i _ feeds⟩
            exact leafNeeded r member b (List.mem_of_mem_tail inner) read ((wanted b.dest feeds).2.2 r member b inner rfl)
          · refine needed_read g built.fine place i s there read fun w feeds => ?_
            exact (wanted w feeds).2.1 fun also => orphan ⟨w, feeds, also⟩
    · rcases absorbed_reader h g rebuilt built r member b inner site i s stored read same.symm with ⟨rfl, _⟩ | ⟨p, below, rfl⟩
      · exact (wanted r.old.dest rfl).2.1 (root_not_orphan h g rebuilt built r member)
      · exact (wanted p.dest rfl).2.2 r member p below rfl

theorem rebuilt_root_live (r : Rebuilt) (member : r ∈ rebuilt) : g.Needed r.old.dest :=
  (needed_after h g rebuilt built _ (rebuilt_root_needed h g rebuilt built r member)).1
    (root_not_orphan h g rebuilt built r member)

end Built

def Func.liveResults (f : Func) (op : Op) : List Value :=
  (f.ariths.filter fun x => x.2.op = op && f.live.has x.2.dest).map fun x => x.2.dest

theorem mem_live_results (f : Func) (op : Op) (v : Value) : v ∈ f.liveResults op ↔
    ∃ site a, f.inst? site = some (.arith a) ∧ a.op = op ∧ f.Needed a.dest ∧ a.dest = v := by
  simp only [Func.liveResults, List.mem_map, List.mem_filter, Prod.exists, mem_ariths, Bool.and_eq_true, decide_eq_true_eq,
    live_iff, and_assoc]

theorem live_results_nodup (f : Func) (unique : f.defs.Nodup) (op : Op) : (f.liveResults op).Nodup := by
  refine List.Nodup.map_on (fun x inX y inY same => ?_) (List.Nodup.filter _ ?_)
  · have storedX := (mem_ariths f x.1 x.2).mp (List.mem_of_mem_filter inX)
    have storedY := (mem_ariths f y.1 y.2).mp (List.mem_of_mem_filter inY)
    obtain ⟨here, equal⟩ := defines_unique f unique y.2.dest x.1 y.1 _ _ ⟨storedX, by rw [← same]; rfl⟩ ⟨storedY, rfl⟩
    exact Prod.ext here (Inst.arith.inj equal)
  · refine (ariths_earlier f).imp fun {x y} earlier => ?_
    exact fun equal => earlier_irrefl y.1 (equal ▸ earlier)

def Func.absorbedResults (h : Func) (rebuilt : List Rebuilt) (op : Op) : List Value :=
  (rebuilt.filter (·.old.op = op)).flatMap fun r => interior (h.facts.rootTree h r.old)

def freshResults (rebuilt : List Rebuilt) (op : Op) : List Value :=
  (rebuilt.filter (·.old.op = op)).flatMap fun r => List.range' r.base r.grouping.nodeCount

theorem mem_absorbed_results (h : Func) (rebuilt : List Rebuilt) (op : Op) (v : Value) :
    v ∈ h.absorbedResults rebuilt op ↔
      ∃ r ∈ rebuilt, r.old.op = op ∧ ∃ b ∈ (h.facts.rootTree h r.old).labels.tail, b.dest = v := by
  simp only [Func.absorbedResults, List.mem_flatMap, List.mem_filter, decide_eq_true_eq, interior, List.mem_map, and_assoc]

theorem mem_fresh_results (rebuilt : List Rebuilt) (op : Op) (v : Value) : v ∈ freshResults rebuilt op ↔
    ∃ r ∈ rebuilt, r.old.op = op ∧ ∃ m < r.grouping.nodeCount, r.base + m = v := by
  simp only [freshResults, List.mem_flatMap, List.mem_filter, decide_eq_true_eq, List.mem_range', Nat.one_mul, and_assoc,
    eq_comm (a := v)]

section Counts

variable (h g : Func) (rebuilt : List Rebuilt) (built : h.RebuiltAs g rebuilt)
include built

theorem rebuilt_node_count (r : Rebuilt) (member : r ∈ rebuilt) :
    (interior (h.facts.rootTree h r.old)).length = r.grouping.nodeCount := by
  obtain ⟨_, leaves, perm⟩ := built.expansion.chain r member
  have count := grouping_node_count r.grouping
  rw [leaves, perm.length_eq, tree_leaves_length, tree_leaf_count, ← tree_labels_length] at count
  rw [interior, List.length_map, List.length_tail]
  omega

theorem absorbed_fresh_length (op : Op) :
    (h.absorbedResults rebuilt op).length = (freshResults rebuilt op).length := by
  rw [Func.absorbedResults, freshResults, List.length_flatMap, List.length_flatMap]
  congr 1
  refine List.map_congr_left fun r listed => ?_
  rw [rebuilt_node_count h g rebuilt built r (List.mem_of_mem_filter listed), List.length_range']

theorem absorbed_results_nodup (op : Op) : (h.absorbedResults rebuilt op).Nodup := by
  refine List.nodup_flatMap.mpr ⟨fun r listed => ?_, ?_⟩
  · have whole := (List.nodup_flatMap.mp (found_dests_nodup h built.wf.unique built.orderly)).1 _
      (built.found r (List.mem_of_mem_filter listed))
    rw [interior, List.map_tail]
    exact whole.sublist (List.tail_sublist _)
  · refine ((List.pairwise_map.mp built.expansion.distinct).filter _).imp_of_mem fun {r q} inR inQ different => ?_
    have memberR := List.mem_of_mem_filter inR
    have memberQ := List.mem_of_mem_filter inQ
    have rootR := built.expansion.stored r memberR
    have rootQ := built.expansion.stored q memberQ
    intro v inFirst inSecond
    obtain ⟨b, innerB, rfl⟩ := List.mem_map.mp inFirst
    obtain ⟨c, innerC, same⟩ := List.mem_map.mp inSecond
    have labelB := List.mem_of_mem_tail innerB
    have labelC := List.mem_of_mem_tail innerC
    obtain ⟨placeB, thereB⟩ := root_labels_stored h r.site r.old rootR _ (root_tree_grown h r.old) b labelB
    obtain ⟨placeC, thereC⟩ := root_labels_stored h q.site q.old rootQ _ (root_tree_grown h q.old) c labelC
    have equal := (defines_unique h built.wf.unique b.dest placeB placeC _ _ ⟨thereB, rfl⟩ ⟨thereC, congrArg some same⟩).2
    cases equal
    exact found_labels_apart h built.wf.unique built.orderly r.site q.site r.old q.old rootR rootQ (built.found r memberR)
      (built.found q memberQ) different b labelB labelC

theorem fresh_results_nodup (op : Op) : (freshResults rebuilt op).Nodup := by
  refine List.nodup_flatMap.mpr ⟨fun r _ => List.nodup_range', ?_⟩
  refine ((List.pairwise_map.mp built.expansion.distinct).filter _).imp_of_mem fun {r q} inR inQ different => ?_
  intro v inFirst inSecond
  obtain ⟨m, lessM, rfl⟩ := List.mem_range'.mp inFirst
  obtain ⟨n, lessN, same⟩ := List.mem_range'.mp inSecond
  rw [Nat.one_mul, Nat.one_mul] at same
  have equal := consecutive_apart _ _ rebuilt built.expansion.numbered r q m n (List.mem_of_mem_filter inR)
    (List.mem_of_mem_filter inQ) lessM lessN same
  exact different (congrArg Rebuilt.site equal)

theorem live_orphan_iff (op : Op) (v : Value) (live : v ∈ h.liveResults op) :
    v ∈ h.absorbedResults rebuilt op ↔ h.Orphan rebuilt v := by
  rw [mem_absorbed_results]
  constructor
  · intro absorbed
    obtain ⟨r, member, _, inner⟩ := absorbed
    exact ⟨r, member, inner⟩
  · intro orphan
    obtain ⟨r, member, b, inner, same⟩ := orphan
    have grown := root_tree_grown h r.old
    obtain ⟨site, a, stored, sameOp, _, dest⟩ := (mem_live_results h op v).mp live
    obtain ⟨place, there⟩ := root_labels_stored h r.site r.old (built.expansion.stored r member) _ grown b
      (List.mem_of_mem_tail inner)
    have equal := (defines_unique h built.wf.unique v place site _ _ ⟨there, by rw [← same]; rfl⟩
      ⟨stored, by rw [← dest]; rfl⟩).2
    cases equal
    exact ⟨r, member, (root_inner_once h r.old _ grown b inner).1.symm.trans sameOp, b, inner, same⟩

theorem live_results_before (op : Op) : (h.liveResults op).Perm
    ((h.liveResults op).filter (· ∉ h.absorbedResults rebuilt op) ++ h.absorbedResults rebuilt op) := by
  have live : ∀ v ∈ h.absorbedResults rebuilt op, v ∈ h.liveResults op := by
    intro v absorbed
    obtain ⟨r, member, sameOp, b, inner, same⟩ := (mem_absorbed_results h rebuilt op v).mp absorbed
    have grown := root_tree_grown h r.old
    have root := built.expansion.stored r member
    have label := List.mem_of_mem_tail inner
    obtain ⟨place, there⟩ := root_labels_stored h r.site r.old root _ grown b label
    have needed := root_labels_needed h built.wf r.site r.old _ root grown (rebuilt_root_needed h g rebuilt built r member)
      b label
    exact (mem_live_results h op v).mpr ⟨place, b, there, (root_inner_once h r.old _ grown b inner).1.trans sameOp, needed,
      same⟩
  have once := live_results_nodup h built.wf.unique op
  refine (List.perm_ext_iff_of_nodup once (List.Nodup.append (once.filter _) ?_ ?_)).mpr fun v => ?_
  · exact absorbed_results_nodup h g rebuilt built op
  · intro v kept absorbed
    exact absurd absorbed (of_decide_eq_true (List.mem_filter.mp kept).2)
  · rw [List.mem_append, List.mem_filter, decide_eq_true_iff]
    constructor
    · intro member
      by_cases absorbed : v ∈ h.absorbedResults rebuilt op
      · exact Or.inr absorbed
      · exact Or.inl ⟨member, absorbed⟩
    · intro either
      exact either.elim And.left (live v)

-- A rebuilt root was live before, since only live operations root a chain.
theorem live_result_source (op : Op) (v : Value) (live : v ∈ g.liveResults op) :
    (v ∈ h.liveResults op ∧ v ∉ h.absorbedResults rebuilt op) ∨ v ∈ freshResults rebuilt op := by
  obtain ⟨place, a, stored, sameOp, needed, rfl⟩ := (mem_live_results g op v).mp live
  have stays (member : a.dest ∈ h.liveResults op) : a.dest ∉ h.absorbedResults rebuilt op := by
    rw [live_orphan_iff h g rebuilt built op _ member]
    exact needed_not_orphan h g rebuilt built _ needed
  rcases built_cases h g rebuilt built place _ stored with ⟨site, _, there, _⟩ | ⟨r, member, _, code | root⟩
  · have before := needed_before h g rebuilt built _ needed (defines_bounded h built.wf _ site _ ⟨there, rfl⟩)
    have member := (mem_live_results h op a.dest).mpr ⟨site, a, there, sameOp, before, rfl⟩
    exact Or.inl ⟨member, stays member⟩
  · obtain ⟨k, inside, lhs, rhs, same⟩ := rebuilt_code_step r _ code
    cases same
    have op := (built.expansion.chain r member).1.symm.trans sameOp
    exact Or.inr ((mem_fresh_results rebuilt _ _).mpr ⟨r, member, op, k, inside, rfl⟩)
  · cases root
    have member := (mem_live_results h op r.old.dest).mpr ⟨r.site, r.old, built.expansion.stored r member, sameOp,
      rebuilt_root_needed h g rebuilt built r member, rfl⟩
    exact Or.inl ⟨member, stays member⟩

theorem live_result_stays (op : Op) (v : Value) (live : v ∈ h.liveResults op) (outside : v ∉ h.absorbedResults rebuilt op) :
    v ∈ g.liveResults op := by
  rw [live_orphan_iff h g rebuilt built op v live] at outside
  obtain ⟨site, a, stored, sameOp, needed, rfl⟩ := (mem_live_results h op v).mp live
  have after := (needed_after h g rebuilt built a.dest needed).1 outside
  cases found : rebuiltAt rebuilt site with
  | none =>
      obtain ⟨place, _, there⟩ := built_kept h g rebuilt built site _ stored found
      exact (mem_live_results g op _).mpr ⟨place, a, there, sameOp, after, rfl⟩
  | some r =>
      obtain ⟨member, rfl, root⟩ := rebuilt_at_root h rebuilt g.next built.expansion site _ r stored found
      cases root
      obtain ⟨place, _, there⟩ := built_new h g rebuilt built r member _ (Or.inr rfl)
      exact (mem_live_results g op _).mpr ⟨place, r.arith, there, sameOp, after, rfl⟩

theorem fresh_result_live (op : Op) (v : Value) (fresh : v ∈ freshResults rebuilt op) : v ∈ g.liveResults op := by
  obtain ⟨r, member, sameOp, m, less, rfl⟩ := (mem_fresh_results rebuilt op v).mp fresh
  have needed := (made_needed h g rebuilt built r member (rebuilt_root_live h g rebuilt built r member)).2 m less
  have inside : m < r.code.length := by rw [Rebuilt.code, grouping_code_length]; exact less
  obtain ⟨lhs, rhs, same, _, _⟩ := grouping_code_at r.grouping r.chain r.base m _ (List.getElem?_eq_getElem inside)
  obtain ⟨place, _, there⟩ := built_new h g rebuilt built r member _ (Or.inl (List.getElem_mem inside))
  rw [same] at there
  exact (mem_live_results g op _).mpr ⟨place, _, there, (built.expansion.chain r member).1.trans sameOp, needed, rfl⟩

theorem live_results_after (op : Op) : (g.liveResults op).Perm
    ((h.liveResults op).filter (· ∉ h.absorbedResults rebuilt op) ++ freshResults rebuilt op) := by
  refine (List.perm_ext_iff_of_nodup (live_results_nodup g built.fine.unique op) (List.Nodup.append ?_ ?_ ?_)).mpr
    fun v => ?_
  · exact (live_results_nodup h built.wf.unique op).filter _
  · exact fresh_results_nodup h g rebuilt built op
  · intro v kept fresh
    obtain ⟨site, a, stored, _, _, dest⟩ := (mem_live_results h op v).mp (List.mem_filter.mp kept).1
    obtain ⟨r, member, _, m, _, rfl⟩ := (mem_fresh_results rebuilt op v).mp fresh
    have old := defines_bounded h built.wf _ site _ ⟨stored, congrArg some dest⟩
    exact absurd old (expansion_new_large h rebuilt g.next built.expansion r member m)
  · rw [List.mem_append, List.mem_filter, decide_eq_true_iff]
    constructor
    · exact live_result_source h g rebuilt built op v
    · intro either
      rcases either with ⟨live, outside⟩ | fresh
      · exact live_result_stays h g rebuilt built op v live outside
      · exact fresh_result_live h g rebuilt built op v fresh

theorem live_results_length (op : Op) : (g.liveResults op).length = (h.liveResults op).length := by
  rw [(live_results_after h g rebuilt built op).length_eq, (live_results_before h g rebuilt built op).length_eq,
    List.length_append, List.length_append, absorbed_fresh_length h g rebuilt built op]

end Counts

section Renaming

variable (f g : Func) (ρ : Value → Value) (link : Renaming f g ρ) (wf : f.WellFormed)
include link wf

theorem renaming_text_ordered (ordered : f.TextOrdered) : g.TextOrdered := by
  intro o member inOrder e sited dest
  obtain ⟨source, listed, read, place, same⟩ := renaming_operand f g ρ link o member
  obtain ⟨site, i, defined, _⟩ := wf.widths source listed
  rw [read] at dest
  obtain ⟨j, there, _⟩ := renaming_defines_back f g ρ link source.read.value e.1 e.2 ((mem_defs f _).mpr ⟨site, i, defined⟩)
    ⟨(mem_sited g e.1 e.2).mp sited, dest⟩
  rw [place]
  exact ordered source listed (same ▸ inOrder) (e.1, j) ((mem_sited f e.1 j).mpr there.1) there.2

theorem renaming_live_results (op : Op) : (g.liveResults op).Perm ((f.liveResults op).map ρ) := by
  have fine := renaming_well_formed f g ρ link wf
  have known (v : Value) (member : v ∈ f.liveResults op) : v ∈ f.defs := by
    obtain ⟨site, a, stored, _, _, rfl⟩ := (mem_live_results f op v).mp member
    exact (mem_defs f _).mpr ⟨site, _, stored, rfl⟩
  refine (List.perm_ext_iff_of_nodup (live_results_nodup g fine.unique op) ?_).mpr fun w => ?_
  · exact List.Nodup.map_on (fun v inV u inU same => link.injective v (known v inV) u (known u inU) same)
      (live_results_nodup f wf.unique op)
  · rw [List.mem_map, mem_live_results]
    constructor
    · intro live
      obtain ⟨site, b, stored, sameOp, needed, rfl⟩ := live
      rw [renaming_inst f g ρ link, Option.map_eq_some_iff] at stored
      obtain ⟨i, there, renamed⟩ := stored
      obtain ⟨a, rfl, rfl⟩ := renamed_arith ρ i b renamed
      have before := (renaming_needed f g ρ link wf a.dest ((mem_defs f _).mpr ⟨site, _, there, rfl⟩)).mp needed
      exact ⟨a.dest, (mem_live_results f op _).mpr ⟨site, a, there, sameOp, before, rfl⟩, rfl⟩
    · intro renamed
      obtain ⟨v, live, rfl⟩ := renamed
      have inDefs := known v live
      obtain ⟨site, a, stored, sameOp, needed, rfl⟩ := (mem_live_results f op v).mp live
      have there : g.inst? site = some ((Inst.arith a).renamed ρ) := by rw [renaming_inst f g ρ link, stored]; rfl
      exact ⟨site, _, there, sameOp, (renaming_needed f g ρ link wf a.dest inDefs).mpr needed, rfl⟩

end Renaming

theorem needed_known (f : Func) (wf : f.WellFormed) (v : Value) (needed : f.Needed v) : v ∈ f.defs := by
  refine needed_induction f (· ∈ f.defs) ?_ ?_ v needed
  · intro index b s stored read
    exact term_known f wf b (List.mem_of_getElem? stored) s read
  · intro site i s stored read _
    exact read_known f wf site i s stored read

-- A block that nothing reaches counts as dominated by all, so there the order of the text decides.
theorem text_ordered_leaf_ready (f : Func) (wf : f.WellFormed) (ordered : f.TextOrdered) (site : Site) (a : Arith)
    (stored : f.inst? site = some (.arith a)) (s : Scalar) (leaf : s ∈ (f.facts.rootTree f a).leaves) :
    f.Ready s.value site := by
  have grown := root_tree_grown f a
  by_cases path : f.Reaches none site.block
  · exact root_leaves_ready f wf a _ site path stored grown s leaf
  · obtain ⟨p, label, read⟩ := root_leaf_reader f a _ grown s leaf
    have reader : ∃ spot, f.inst? spot = some (.arith p) ∧ (spot = site ∨ spot.Earlier site) := by
      rcases List.mem_cons.mp label with rfl | inner
      · exact ⟨site, stored, Or.inl rfl⟩
      · obtain ⟨spot, there, earlier⟩ := root_inner_earlier f (text_ordered_orderly f ordered) site a stored _ grown p inner
        exact ⟨spot, there, Or.inr earlier⟩
    obtain ⟨spot, there, order⟩ := reader
    obtain ⟨place, i, defined, _⟩ := read_defined f wf spot _ s there read
    have first := text_ordered_read f ordered spot place _ i s there rfl read defined
    have earlier : place.Earlier site := order.elim (fun same => same ▸ first) (earlier_trans place spot site first)
    refine ⟨place, i, defined, ?_⟩
    rw [Func.precedes]
    split
    · simp only [Site.Earlier] at earlier
      simp only [decide_eq_true_eq]
      omega
    · exact (dominates_iff f place.block site.block).mpr fun reached => absurd reached path

def Report.Absorbed (report : Report) (v : Value) : Prop :=
  ∃ attempt ∈ report.attempts, attempt.changed = true ∧
    ∃ x ∈ report.survey.found, x.chain.root = attempt.chain.root ∧ v ∈ interior x.tree

instance (report : Report) (v : Value) : Decidable (report.Absorbed v) :=
  inferInstanceAs (Decidable (∃ attempt ∈ report.attempts, attempt.changed = true ∧
    ∃ x ∈ report.survey.found, x.chain.root = attempt.chain.root ∧ v ∈ interior x.tree))

theorem absorbed_iff_orphan (h : Func) (table : Option PairTable) (report : Report) (rebuilt : List Rebuilt)
    (built : h.RebuiltAs report.func rebuilt) (regroups : h.Regroups table report rebuilt) (v : Value) :
    report.Absorbed v ↔ h.Orphan rebuilt v := by
  have changed := changed_attempt_rebuilt h table report rebuilt regroups
  rw [Report.Absorbed, regroups.survey]
  constructor
  · intro absorbed
    obtain ⟨attempt, listed, isChanged, x, found, here, inner⟩ := absorbed
    obtain ⟨r, member, same⟩ := (changed attempt.chain).mp ⟨attempt, listed, isChanged, rfl⟩
    obtain ⟨site, a, stored, _, _, rfl⟩ := find_all_mem h x found
    have root := built.expansion.stored r member
    have spot : r.site = site := (congrArg Chain.root same).trans here.symm
    rw [spot, stored] at root
    cases root
    exact ⟨r, member, List.mem_map.mp inner⟩
  · intro orphan
    obtain ⟨r, member, inner⟩ := orphan
    obtain ⟨attempt, listed, isChanged, same⟩ := (changed r.chain).mpr ⟨r, member, rfl⟩
    refine ⟨attempt, listed, isChanged, _, built.found r member, ?_, List.mem_map.mpr inner⟩
    rw [same]
    rfl

theorem regroup_adds_no_live_work (f : Func) (options : Options) (bench : Workbench) (accepted : f.check = .ok ())
    (ordered : f.TextOrdered) :
    (f.regroup options bench = .error .idsExhausted ∧ idLimit ≤ (chainCapacity - 1) * f.defs.length) ∨
    ∃ report, f.regroup options bench = .ok report ∧
      (∀ op, (report.func.liveResults op).length = (f.liveResults op).length) ∧
      (∀ v, report.Absorbed v → report.func.live.has v = false) ∧
      ∀ v, f.live.has v = true → ¬ report.Absorbed (f.rename v) → report.func.live.has (f.rename v) = true := by
  have wf := (check_ok_iff f).mp accepted
  have fine := prepared_well_formed f options wf
  have link := prepared_renaming f options wf.unique
  have text := renaming_text_ordered f _ _ link wf ordered
  rcases regroup_cases f options bench accepted with exhausted | ⟨report, rebuilt, _, regroups, done⟩
  · exact Or.inl exhausted
  · have expansion := regroups_expansion _ _ report rebuilt regroups
    have sound : report.func.WellFormed := by
      refine (regroups_well_formed_iff _ _ report rebuilt fine regroups).mpr fun r member s leaf => ?_
      exact text_ordered_leaf_ready _ fine text r.site r.old (expansion.stored r member) s
        ((expansion.chain r member).2.2.mem_iff.mp leaf)
    have built := regroups_rebuilt_as _ _ report rebuilt fine (text_ordered_orderly _ text) sound regroups
    have orphan := absorbed_iff_orphan _ _ report rebuilt built regroups
    refine Or.inr ⟨report, by rw [done, (check_ok_iff _).mpr sound], fun op => ?_, fun v absorbed => ?_,
      fun v live stays => ?_⟩
    · rw [live_results_length _ _ rebuilt built op, (renaming_live_results f _ _ link wf op).length_eq, List.length_map]
    · rw [← Bool.not_eq_true, live_iff]
      exact fun needed => needed_not_orphan _ _ rebuilt built v needed ((orphan v).mp absorbed)
    · rw [live_iff] at live ⊢
      have before := (renaming_needed f _ _ link wf v (needed_known f wf v live)).mpr live
      exact (needed_after _ _ rebuilt built _ before).1 fun also => stays ((orphan _).mpr also)

theorem loop_sum_live_work : loopSum.check = .ok () ∧ loopSum.TextOrdered ∧
    ∃ report, loopSum.regroup ⟨true, true⟩ .empty = .ok report ∧ report.Absorbed 5 ∧ loopSum.live.has 5 = true ∧
      report.func.live.has 5 = false ∧ report.func.live.has 4 = true ∧ (report.func.liveResults .iadd).length = 3 := by
  have accepted : loopSum.check = .ok () := by decide +kernel
  have ordered : loopSum.TextOrdered := by decide +kernel
  have absorbed : (loopSum.regroup ⟨true, true⟩ .empty).toOption.map (fun report =>
      (decide (report.Absorbed 5), decide (report.Absorbed 4))) = some (true, false) := by decide +kernel
  rcases regroup_adds_no_live_work loopSum ⟨true, true⟩ .empty accepted ordered with
    ⟨_, large⟩ | ⟨report, done, counts, dead, kept⟩
  · exact absurd large (by decide +kernel)
  · rw [done] at absorbed
    obtain ⟨inner, outer⟩ := Prod.mk.inj (Option.some.inj absorbed)
    have same : loopSum.rename 4 = 4 := by decide +kernel
    have live := kept 4 (by decide +kernel)
    rw [same] at live
    exact ⟨accepted, ordered, report, done, of_decide_eq_true inner, by decide +kernel, dead 5 (of_decide_eq_true inner),
      live (of_decide_eq_false outer), by rw [counts .iadd]; decide +kernel⟩

end Regroup
