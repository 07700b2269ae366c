import Mathlib
import Regroup.Proofs.Idempotence

set_option autoImplicit false

namespace Regroup

theorem renamed_leaves_id (leaves : List Scalar) : leaves.map (Scalar.renamed id) = leaves := List.map_id leaves

theorem expanded_carried (h g : Func) (rebuilt : List Rebuilt) (built : h.ExpandedAs g rebuilt)
    (flags : g.divergence = h.divergence) : h.Carried g id := by
  have more := (consecutive_bounds _ _ rebuilt built.expansion.numbered).1
  have same (v : Value) (old : v < h.next) :
      (g.definition? v).map (fun entry => (entry.1.block, entry.2.isConst)) =
        (h.definition? v).map fun entry => (entry.1.block, entry.2.isConst) := by
    by_cases known : v ∈ h.defs
    · obtain ⟨site, i, defined⟩ := (mem_defs h v).mp known
      obtain ⟨place, j, there, block, const⟩ := built_defines h g rebuilt built v site i defined
      rw [(definition_iff h built.wf.unique v site i).mpr ⟨old, defined⟩,
        (definition_iff g built.fine.unique v place j).mpr ⟨Nat.lt_of_lt_of_le old more, there⟩]
      simp [block, const]
    · have nowhere (f : Func) (missing : v ∉ f.defs) : f.definition? v = none := by
        rw [Option.eq_none_iff_forall_ne_some]
        intro entry found
        exact missing ((mem_defs f v).mpr ⟨entry.1, entry.2, (definition_defines f v _ _ found).2⟩)
      have absent : v ∉ g.defs := by
        intro present
        obtain ⟨place, j, defined⟩ := (mem_defs g v).mp present
        exact known (built_defines_back h g rebuilt built v place j defined old)
      rw [nowhere h known, nowhere g absent]
  refine ⟨fun v w less _ => less, fun s old => ?_, fun v old => ?_⟩
  · have const : ((g.definition? s.value).any fun entry => entry.2.isConst) =
        (h.definition? s.value).any fun entry => entry.2.isConst := by
      have through (found : Option (Site × Inst)) : (found.any fun entry => entry.2.isConst) =
          (found.map fun entry => (entry.1.block, entry.2.isConst)).any Prod.snd := by
        cases found <;> rfl
      rw [through, through, same s.value old]
    have diverges : g.mayDiverge s.value = h.mayDiverge s.value := by rw [Func.mayDiverge, Func.mayDiverge, flags]
    rw [facts_rank, facts_rank, if_pos old, if_pos (show (s.renamed id).value < g.next from Nat.lt_of_lt_of_le old more)]
    simp only [Func.rankOf, Scalar.renamed, id_eq, const, diverges]
  · have through (f : Func) : (f.facts.site? v).map Site.block =
        ((f.definition? v).map fun entry => (entry.1.block, entry.2.isConst)).map Prod.fst := by
      rw [facts_site, Func.site?]
      cases f.definition? v <;> rfl
    rw [id, through, through, same v old]

theorem start_unmoved (h : Func) (rebuilt : List Rebuilt) (site : Site) (i : Inst) (stored : h.inst? site = some i)
    (unmoved : ∀ k < site.inst, rebuiltAt rebuilt ⟨site.block, k⟩ = none) :
    h.start (expanded rebuilt) site = site.inst := by
  obtain ⟨b, inBlock, there⟩ := Option.bind_eq_some_iff.mp stored
  have inside := (List.getElem?_eq_some_iff.mp there).1
  have single : (b.insts.zipIdx.take site.inst).map (fun e => (expanded rebuilt ⟨site.block, e.2⟩ e.1).length) =
      (b.insts.zipIdx.take site.inst).map fun _ => 1 := by
    refine List.map_congr_left fun e member => ?_
    obtain ⟨k, less, same⟩ := List.mem_take_iff_getElem.mp member
    rw [List.getElem_zipIdx] at same
    have here : e.2 = k := by simp [← same]
    simp [expanded, here, unmoved k (by omega)]
  simp only [Func.start, inBlock, List.length_flatMap]
  rw [single]
  simp
  omega

theorem root_moved (h g : Func) (rebuilt : List Rebuilt) (built : h.ExpandedAs g rebuilt) (r : Rebuilt)
    (member : r ∈ rebuilt) (unmoved : ∀ k < r.site.inst, rebuiltAt rebuilt ⟨r.site.block, k⟩ = none) :
    g.inst? ⟨r.site.block, r.site.inst + r.grouping.nodeCount⟩ = some (.arith r.arith) := by
  have stored := built.expansion.stored r member
  rw [built_inst_iff h g rebuilt built]
  refine ⟨r.site, .arith r.old, r.grouping.nodeCount, stored, ?_, ?_⟩
  · rw [expanded_root h rebuilt g.next built.expansion r member, ← grouping_code_length r.grouping r.chain r.base]
    exact List.getElem?_concat_length
  · rw [Func.spot, start_unmoved h rebuilt r.site _ stored unmoved]

theorem shape_tree_flags (c : Chain) (next : Nat) (t : Shape) :
    ∀ b ∈ (Shape.tree c next t).labels, b.exact = c.exact ∧ b.fastMath = c.fastMath := by
  induction t generalizing next with
  | leaf s => simp [Shape.tree, Tree.labels]
  | node label left right lower upper =>
      simp only [Shape.tree, Tree.labels, List.forall_mem_cons, List.forall_mem_append]
      exact ⟨⟨rfl, rfl⟩, lower next, upper (next + left.nodeCount)⟩

theorem fold_or_same (nodes : List Arith) (bits : FastMath) (same : ∀ n ∈ nodes, n.fastMath = bits) :
    nodes.foldl (fun all a => all ||| a.fastMath) bits = bits := by
  induction nodes with
  | nil => rfl
  | cons n rest ih =>
      obtain ⟨here, later⟩ := List.forall_mem_cons.mp same
      rw [List.foldl_cons, here, UInt16.or_self, ih later]

section Regrown

variable (h g : Func) (rebuilt : List Rebuilt) (built : h.ExpandedAs g rebuilt) (r : Rebuilt) (member : r ∈ rebuilt)
  (barred : ∀ s ∈ (h.facts.rootTree h r.old).leaves, h.facts.absorbable? h r.old.op s = none)
include built member barred

theorem barred_tree_regrown : g.facts.rootTree g r.arith = .node r.arith
    (Shape.tree r.chain (r.base + r.grouping.rest.nodeCount) r.grouping.last)
    (Shape.tree r.chain r.base r.grouping.rest) := by
  refine rebuilt_tree_regrown h g rebuilt built r member fun s leaf => ?_
  exact leaf_stays_leaf h g rebuilt built r.site r.old (built.expansion.stored r member) s leaf r.old.op (barred s leaf)

theorem regrown_leaves : (g.facts.rootTree g r.arith).leaves.Perm (h.facts.rootTree h r.old).leaves := by
  obtain ⟨_, leaves, perm⟩ := built.expansion.chain r member
  rw [barred_tree_regrown h g rebuilt built r member barred, Tree.leaves, shape_tree_leaves, shape_tree_leaves]
  refine List.perm_append_comm.trans ?_
  change r.grouping.leaves.Perm _
  rw [leaves]
  exact perm

theorem regrown_flags : ∀ b ∈ (g.facts.rootTree g r.arith).labels,
    b.exact = r.chain.exact ∧ b.fastMath = r.chain.fastMath := by
  rw [barred_tree_regrown h g rebuilt built r member barred]
  simp only [Tree.labels, List.forall_mem_cons, List.forall_mem_append]
  exact ⟨⟨rfl, rfl⟩, shape_tree_flags _ _ _, shape_tree_flags _ _ _⟩

theorem regrown_restrictions : (g.facts.rootTree g r.arith).labels.any Arith.exact = r.chain.exact ∧
    (g.facts.rootTree g r.arith).labels.foldl (fun bits a => bits ||| a.fastMath) 0 = r.chain.fastMath := by
  have flags := regrown_flags h g rebuilt built r member barred
  rw [barred_tree_regrown h g rebuilt built r member barred] at flags ⊢
  simp only [Tree.labels, List.forall_mem_cons] at flags
  obtain ⟨_, below⟩ := flags
  constructor
  · rw [Bool.eq_iff_iff, List.any_eq_true]
    constructor
    · rintro ⟨b, label, strict⟩
      rcases List.mem_cons.mp label with rfl | inner
      · exact strict
      · exact (below b inner).1 ▸ strict
    · exact fun strict => ⟨r.arith, List.mem_cons_self, strict⟩
  · rw [Tree.labels, List.foldl_cons, UInt16.zero_or]
    exact fold_or_same _ _ fun b inner => (below b inner).2

-- Read back, the chain is put into the order that it was given, and it follows that order by now.
theorem regrown_stays (flags : g.divergence = h.divergence) (table : Option PairTable) (policy : Policy)
    (fits : r.Fits h h.facts table { Chain.ofTree r.site r.old.op (h.facts.rootTree h r.old) with policy }) (place : Site)
    (there : g.inst? place = some (.arith r.arith)) (block : place.block = r.site.block) :
    { Chain.ofTree place r.arith.op (g.facts.rootTree g r.arith) with policy }.Stays g.facts table g := by
  have carried := expanded_carried h g rebuilt built flags
  have echoes : { Chain.ofTree r.site r.old.op (h.facts.rootTree h r.old) with policy }.Echoes h id
      { Chain.ofTree place r.arith.op (g.facts.rootTree g r.arith) with policy } := by
    refine ⟨rfl, block, ?_, fun s leaf => ?_⟩
    · rw [renamed_leaves_id]
      exact regrown_leaves h g rebuilt built r member barred
    · exact root_leaf_old h built.wf r.site r.old (built.expansion.stored r member) s leaf
  have tallied : Tallied h id r.old.op table table := by
    cases table with
    | none => exact Or.inl ⟨rfl, rfl⟩
    | some counts => exact Or.inr ⟨counts, counts, rfl, rfl, fun _ _ _ _ => rfl⟩
  intro arrangement arranged
  obtain ⟨before, first, leaves, pinned⟩ :=
    echo_arrange h g id carried _ _ echoes rfl table table tallied arrangement arranged
  obtain ⟨own, ordered, _, made⟩ := fits.arranged
  rw [first] at ordered
  cases ordered
  refine ⟨r.grouping, .arith r.arith, ?_, there, root_tree_followed g r.arith r.grouping ?_⟩
  · rw [leaves, pinned, renamed_leaves_id]
    exact made
  · rw [barred_tree_regrown h g rebuilt built r member barred]
    exact congrArg₂ (Tree.node ()) (shape_tree_shape _ _ _) (shape_tree_shape _ _ _)

end Regrown

theorem single_expanded_as (f : Func) (wf : f.WellFormed) (site : Site) (a : Arith) (path : f.Reaches none site.block)
    (stored : f.inst? site = some (.arith a)) (regroupable : a.regroupable = true) (policy : Policy)
    (table : Option PairTable) (r : Rebuilt) (base : r.base = f.next)
    (fits : r.Fits f f.facts table { Chain.ofTree site a.op (f.facts.rootTree f a) with policy }) :
    r.site = site ∧ r.old = a ∧
      f.ExpandedAs ({ f with next := f.next + r.grouping.nodeCount }.recast (expanded [r])) [r] := by
  have here : r.site = site := fits_site r f _ _ _ fits
  have old : r.old = a := by
    have root := fits.stored
    change f.inst? site = _ at root
    rw [stored] at root
    exact (Inst.arith.inj (Option.some.inj root)).symm
  have chain := fits_chain r f _ _ _ fits
  have expansion : Expansion f [r] (f.next + r.grouping.nodeCount) := by
    refine ⟨⟨base, rfl⟩, List.nodup_singleton _, ?_, ?_, ?_⟩ <;> intro q member <;> rw [List.mem_singleton.mp member]
    · rw [here, old]
      exact stored
    · rw [old]
      exact regroupable
    · rw [old]
      exact chain
  obtain ⟨_, _, whole, _⟩ := fits.arranged
  refine ⟨here, old, wf, ?_, expansion, rfl, ?_, ?_⟩
  · refine expansion_well_formed f [r] _ wf expansion f.divergence fun q member s leaf => ?_
    rw [List.mem_singleton.mp member] at leaf ⊢
    rw [here]
    exact root_leaves_ready f wf a _ site path stored (root_tree_grown f a) s (chain.2.2.mem_iff.mp leaf)
  all_goals
    intro q member
    rw [List.mem_singleton.mp member, whole, old]
    rfl

theorem rebuilt_chain_reads_back (f : Func) (site : Site) (a : Arith) (tree : Tree Arith Scalar) (policy : Policy)
    (table : Option PairTable) (g : Func) (attempt : Attempt) (accepted : f.check = .ok ())
    (reached : ∀ index < f.blocks.length, f.Reaches none index) (stored : f.inst? site = some (.arith a))
    (regroupable : a.regroupable = true) (grown : f.treeAt f.facts site = .ok (some tree)) (long : 3 ≤ tree.leaves.length)
    (barred : ∀ s ∈ tree.leaves, f.facts.absorbable? f a.op s = none)
    (done : f.rebuild f.facts table { Chain.ofTree site a.op tree with policy } = .ok (g, attempt))
    (changed : attempt.changed = true) :
    let place : Site := ⟨site.block, site.inst + (tree.leaves.length - 2)⟩
    ∃ woven b again, g.weave attempt.patch?.toList = .ok woven ∧
      woven.inst? place = some (.arith b) ∧ b.dest = a.dest ∧
      woven.treeAt woven.facts place = .ok (some again) ∧
      (Chain.ofTree place b.op again).op = (Chain.ofTree site a.op tree).op ∧
      (Chain.ofTree place b.op again).exact = (Chain.ofTree site a.op tree).exact ∧
      (Chain.ofTree place b.op again).fastMath = (Chain.ofTree site a.op tree).fastMath ∧
      (Chain.ofTree place b.op again).leaves.Perm (Chain.ofTree site a.op tree).leaves ∧
      ∃ second : Attempt,
        woven.rebuild woven.facts table { Chain.ofTree place b.op again with policy } = .ok (woven, second) ∧
        second.changed = false := by
  intro place
  have wf := (check_ok_iff f).mp accepted
  obtain rfl : f.facts.rootTree f a = tree := by
    simpa [Func.treeAt, stored, Inst.arith?] using grown
  rcases rebuild_cases f f.facts table { Chain.ofTree site a.op (f.facts.rootTree f a) with policy } a
    (Nat.le_of_succ_le long) stored with
    ⟨exhausted, _⟩ | ⟨idle, returned, unchanged, _⟩ | ⟨r, made, fits, base, chain, verdict, returned⟩
  · rw [exhausted] at done
    cases done
  · rw [returned] at done
    cases done
    rw [unchanged] at changed
    cases changed
  · rw [returned] at done
    cases done
    have path : f.Reaches none site.block := by
      obtain ⟨b, inBlock, _⟩ := Option.bind_eq_some_iff.mp stored
      exact reached _ (List.getElem?_eq_some_iff.mp inBlock).1
    obtain ⟨here, rfl, built⟩ := single_expanded_as f wf site a path stored regroupable policy table r base fits
    subst here
    have count := fits_node_count r f _ _ _ fits
    have rebuilds := rebuilds_to_rebuilt f _ f.facts table _ [] r attempt [] [] (by simp) fits base chain verdict
      (rebuilds_to_nothing _ f.facts table)
    have woven := weave_rebuilt f _ f.facts table _ [attempt] [r] (List.nodup_singleton _) rebuilds
    have unmoved (k : Nat) (less : k < r.site.inst) : rebuiltAt [r] ⟨r.site.block, k⟩ = none := by
      rw [rebuilt_at_none, List.map_singleton, List.mem_singleton]
      intro same
      exact absurd (congrArg Site.inst same) (Nat.ne_of_lt less)
    have moved : place = ⟨r.site.block, r.site.inst + r.grouping.nodeCount⟩ := by
      have leaves : r.grouping.nodeCount + 2 = (f.facts.rootTree f r.old).leaves.length := count
      exact congrArg (Site.mk r.site.block) (by omega)
    have there := root_moved f _ [r] built r List.mem_cons_self unmoved
    rw [← moved] at there
    have flags := regrown_restrictions f _ [r] built r List.mem_cons_self barred
    have stays := regrown_stays f _ [r] built r List.mem_cons_self barred rfl table policy fits place there rfl
    have patch : attempt.patch?.toList = [attempt].filterMap Attempt.patch? := by
      cases listed : attempt.patch? <;> simp [listed]
    refine ⟨_, r.arith, _, by rw [patch]; exact woven, there, rfl, by rw [Func.treeAt, there]; rfl, rfl, ?_, ?_, ?_, ?_⟩
    · exact flags.1.trans (built.exact r List.mem_cons_self)
    · exact flags.2.trans (built.fastMath r List.mem_cons_self)
    · exact regrown_leaves f _ [r] built r List.mem_cons_self barred
    · exact rebuild_stays _ _ table _ stays

def loopChain : Chain :=
  { Chain.ofTree ⟨1, 2⟩ .iadd (loopSum.facts.rootTree loopSum (Arith.plain 6 .iadd (.of 5) (.of 0))) with
    policy := ⟨true, true⟩ }

def loopTable : PairTable := (PairTable.empty.record loopChain).record loopChain

theorem loop_sum_reads_back : ∃ g attempt woven b again,
    loopSum.rebuild loopSum.facts (some loopTable) loopChain = .ok (g, attempt) ∧ attempt.changed = true ∧
    g.weave attempt.patch?.toList = .ok woven ∧ woven.inst? ⟨1, 4⟩ = some (.arith b) ∧
    woven.treeAt woven.facts ⟨1, 4⟩ = .ok (some again) ∧ again.leaves.Perm [.of 4, .of 1, .of 2, .of 0] ∧
    ∃ second : Attempt, woven.rebuild woven.facts (some loopTable)
      { Chain.ofTree ⟨1, 4⟩ b.op again with policy := ⟨true, true⟩ } = .ok (woven, second) ∧ second.changed = false := by
  have accepted : loopSum.check = .ok () := by decide +kernel
  have reached : ∀ index < loopSum.blocks.length, loopSum.Reaches none index := by
    have listed : ∀ index < loopSum.blocks.length, index ∈ loopSum.walk := by decide +kernel
    exact fun index inside => (mem_walk_iff loopSum index).mp (listed index inside)
  have leaves : (loopSum.facts.rootTree loopSum (Arith.plain 6 .iadd (.of 5) (.of 0))).leaves =
      [.of 4, .of 1, .of 2, .of 0] := by decide +kernel
  have barred : ∀ s ∈ [Scalar.of 4, .of 1, .of 2, .of 0], loopSum.facts.absorbable? loopSum .iadd s = none := by
    decide +kernel
  have rebuilds : (loopSum.rebuild loopSum.facts (some loopTable) loopChain).toOption.map (·.2.changed) = some true := by
    decide +kernel
  obtain ⟨⟨g, attempt⟩, found, changed⟩ := Option.map_eq_some_iff.mp rebuilds
  have done := to_option_ok _ _ found
  obtain ⟨woven, b, again, spliced, there, _, regrown, _, _, _, perm, second⟩ := rebuilt_chain_reads_back loopSum ⟨1, 2⟩
    (Arith.plain 6 .iadd (.of 5) (.of 0)) _ ⟨true, true⟩ (some loopTable) g attempt accepted reached rfl rfl rfl
    (by rw [leaves]; decide) (by rw [leaves]; exact barred) done changed
  change again.leaves.Perm (loopSum.facts.rootTree loopSum (Arith.plain 6 .iadd (.of 5) (.of 0))).leaves at perm
  rw [leaves] at there regrown perm second
  exact ⟨g, attempt, woven, b, again, done, changed, spliced, there, regrown, perm, second⟩

end Regroup
