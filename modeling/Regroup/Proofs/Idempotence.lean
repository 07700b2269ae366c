import Mathlib
import Regroup.Proofs.Resurvey

/- Regrouping a second time changes nothing, if operations are listed after what they read and no rebuilt root reads an
   operation that its chain had no room for. Every chain is found again and follows its order by then. -/

set_option autoImplicit false

namespace Regroup

def Tree.shape (t : Tree Arith Scalar) : Shape := t.map (fun _ => ()) id

theorem renamed_shape (ρ : Value → Value) (t : Tree Arith Scalar) : (t.renamed ρ).shape = t.shape.renamed ρ := by
  rw [Tree.shape, Tree.renamed, map_map_tree, Shape.renamed, Tree.shape, map_map_tree]
  rfl

theorem shape_tree_shape (c : Chain) (next : Nat) (t : Shape) : (Shape.tree c next t).shape = t := by
  induction t generalizing next with
  | leaf s => rfl
  | node label left right lower upper =>
      rw [Shape.tree]
      exact congrArg₂ (Tree.node ()) (lower next) (upper (next + left.nodeCount))

theorem operand_tree_computed (f : Func) (op : Op) (room : Nat) (s : Scalar) :
    f.facts.computes f op (f.facts.operandTree f op room s).shape s = true := by
  fun_induction Facts.operandTree f.facts f op room s with
  | case1 room s absent => exact decide_eq_true rfl
  | case2 room s site a found roomy left lower upper =>
      rw [Tree.shape, Tree.map, Facts.computes, found]
      exact Bool.and_eq_true_iff.mpr ⟨lower, upper⟩
  | case3 room s site a found cramped => exact decide_eq_true rfl

theorem root_tree_followed (f : Func) (a : Arith) (grouping : Grouping)
    (shape : (f.facts.rootTree f a).shape = .node () grouping.last grouping.rest) :
    grouping.followedBy f.facts f a.op (.arith a) = true := by
  obtain ⟨_, left, right⟩ := Tree.node.inj shape
  have first := operand_tree_computed f a.op (chainCapacity - 1) a.lhs
  have second := operand_tree_computed f a.op
    (chainCapacity - (f.facts.operandTree f a.op (chainCapacity - 1) a.lhs).leafCount) a.rhs
  simp only [Tree.shape] at first second
  rw [left] at first
  rw [right] at second
  exact Bool.and_eq_true_iff.mpr ⟨first, second⟩

theorem absorbable_elsewhere (facts : Facts) (f current : Func) (op : Op) (s : Scalar) (site : Site) (b : Arith)
    (found : facts.absorbable? f op s = some (site, b)) (same : current.inst? site = f.inst? site) :
    facts.absorbable? current op s = some (site, b) := by
  by_cases single : s.comp = 0 ∧ facts.reads[s.value]? = some 1
  · rw [Facts.absorbable?, if_pos single, Option.bind_eq_some_iff] at found ⊢
    obtain ⟨place, located, found⟩ := found
    obtain ⟨c, stored, taken⟩ := Option.bind_eq_some_iff.mp found
    by_cases fits : c.op = op ∧ c.regroupable = true
    · rw [if_pos fits] at taken
      cases taken
      refine ⟨site, located, Option.bind_eq_some_iff.mpr ⟨b, ?_, if_pos fits⟩⟩
      rw [Func.arith?, same]
      exact stored
    · rw [if_neg fits] at taken
      cases taken
  · rw [Facts.absorbable?, if_neg single] at found
    cases found

theorem leaf_covered (facts : Facts) (f : Func) (op : Op) (s : Scalar) (shape : Shape)
    (computes : facts.computes f op shape s = true) :
    1 ≤ shape.leafCount ∧ (1 = shape.leafCount → .leaf s = shape) := by
  refine ⟨tree_leaf_count_pos shape, fun single => ?_⟩
  cases shape with
  | leaf leaf => rw [of_decide_eq_true computes]
  | node label left right =>
      have leftSome := tree_leaf_count_pos left
      have rightSome := tree_leaf_count_pos right
      simp only [Tree.leafCount] at single
      omega

-- A shape that computes the same scalar, from nothing that the tree has absorbed, goes at least as deep as the tree.
theorem computed_covers (f current : Func) (op : Op) (room : Nat) (s : Scalar) (shape : Shape)
    (same : ∀ b ∈ (f.facts.operandTree f op room s).labels,
      ∃ place, f.facts.absorbable? current op (.of b.dest) = some (place, b))
    (outside : ∀ b ∈ (f.facts.operandTree f op room s).labels, Scalar.of b.dest ∉ shape.leaves)
    (computes : f.facts.computes current op shape s = true) :
    (f.facts.operandTree f op room s).leafCount ≤ shape.leafCount ∧
      ((f.facts.operandTree f op room s).leafCount = shape.leafCount → (f.facts.operandTree f op room s).shape = shape) := by
  fun_induction Facts.operandTree f.facts f op room s generalizing shape with
  | case1 room s absent => exact leaf_covered f.facts current op s shape computes
  | case2 room s site a found roomy left lower upper =>
      obtain ⟨rfl, _⟩ := (absorbable_iff f op s site a).mp found
      simp only [Tree.labels, List.mem_cons, List.mem_append] at same outside
      cases shape with
      | leaf leaf =>
          have equal : Scalar.of a.dest = leaf := of_decide_eq_true computes
          exact absurd (by simp [Tree.leaves, equal]) (outside a (Or.inl rfl))
      | node label first second =>
          obtain ⟨place, again⟩ := same a (Or.inl rfl)
          simp only [Tree.leaves, List.mem_append, not_or] at outside
          rw [Facts.computes, again] at computes
          obtain ⟨computesL, computesR⟩ := Bool.and_eq_true_iff.mp computes
          obtain ⟨lessL, equalL⟩ : left.leafCount ≤ first.leafCount ∧ (left.leafCount = first.leafCount → left.shape = first) :=
            lower first (fun b inside => same b (Or.inr (Or.inl inside)))
              (fun b inside => (outside b (Or.inr (Or.inl inside))).1) computesL
          obtain ⟨lessR, equalR⟩ := upper second (fun b inside => same b (Or.inr (Or.inr inside)))
            (fun b inside => (outside b (Or.inr (Or.inr inside))).2) computesR
          simp only [Tree.leafCount]
          refine ⟨by omega, fun total => ?_⟩
          exact congrArg₂ (Tree.node ()) (equalL (by omega)) (equalR (by omega))
  | case3 room s site a found cramped => exact leaf_covered f.facts current op s shape computes

theorem followed_shape (h : Func) (wf : h.WellFormed) (orderly : h.Orderly) (current : Func) (site : Site) (a : Arith)
    (stored : h.inst? site = some (.arith a))
    (kept : ∀ b ∈ (h.facts.rootTree h a).labels.tail, ∀ place, h.inst? place = some (.arith b) →
      current.inst? place = h.inst? place)
    (grouping : Grouping) (perm : grouping.leaves.Perm (h.facts.rootTree h a).leaves)
    (follows : grouping.followedBy h.facts current a.op (.arith a) = true) :
    (h.facts.rootTree h a).shape = .node () grouping.last grouping.rest := by
  have grown := root_tree_grown h a
  have same (b : Arith) (inner : b ∈ (h.facts.rootTree h a).labels.tail) :
      ∃ place, h.facts.absorbable? current a.op (.of b.dest) = some (place, b) := by
    obtain ⟨sameOp, regroupable, once⟩ := root_inner_once h a _ grown b inner
    obtain ⟨place, there⟩ := root_labels_stored h site a stored _ grown b (List.mem_of_mem_tail inner)
    have absorbed := absorbable_stored h wf place b there once regroupable
    rw [sameOp] at absorbed
    exact ⟨place, absorbable_elsewhere h.facts h current a.op _ place b absorbed (kept b inner place there)⟩
  have outside (b : Arith) (inner : b ∈ (h.facts.rootTree h a).labels.tail) : Scalar.of b.dest ∉ grouping.leaves := by
    intro leaf
    exact root_leaf_not_inner h wf.unique orderly site a stored _ grown _ (perm.mem_iff.mp leaf) b inner rfl
  obtain ⟨computesL, computesR⟩ := Bool.and_eq_true_iff.mp (show (_ && _) = true from follows)
  obtain ⟨lessL, equalL⟩ := computed_covers h current a.op (chainCapacity - 1) a.lhs grouping.last
    (fun b inside => same b (List.mem_append_left _ inside))
    (fun b inside leaf => outside b (List.mem_append_left _ inside) (List.mem_append_right _ leaf)) computesL
  obtain ⟨lessR, equalR⟩ := computed_covers h current a.op
    (chainCapacity - (h.facts.operandTree h a.op (chainCapacity - 1) a.lhs).leafCount) a.rhs grouping.rest
    (fun b inside => same b (List.mem_append_right _ inside))
    (fun b inside leaf => outside b (List.mem_append_right _ inside) (List.mem_append_left _ leaf)) computesR
  have total := perm.length_eq
  rw [Grouping.leaves, List.length_append, tree_leaves_length, tree_leaves_length, tree_leaves_length, Facts.rootTree,
    Tree.leafCount] at total
  exact congrArg₂ (Tree.node ()) (equalL (by omega)) (equalR (by omega))

theorem rebuild_all_stays (f : Func) (facts : Facts) (table : Option PairTable) (queue : List Chain)
    (stays : ∀ c ∈ queue, c.Stays facts table f) :
    ∃ attempts, f.rebuildAll facts table queue = .ok (f, attempts) ∧ attempts.any Attempt.changed = false := by
  induction queue with
  | nil => exact ⟨[], rfl, rfl⟩
  | cons c rest ih =>
      obtain ⟨attempt, done, unchanged⟩ := rebuild_stays f facts table c (stays c List.mem_cons_self)
      obtain ⟨attempts, later, idle⟩ := ih fun d member => stays d (List.mem_cons_of_mem c member)
      refine ⟨attempt :: attempts, ?_, by simp [unchanged, idle]⟩
      simp [Func.rebuildAll, done, later, bind, Except.bind, pure, Except.pure]

theorem regroup_stays (f : Func) (options : Options) (bench : Workbench) (wf : f.WellFormed)
    (stays : ∀ c ∈ ((f.prepared options).surveyed options.table).queue,
      c.Stays (f.prepared options).facts ((f.prepared options).surveyed options.table).table (f.prepared options)) :
    ∃ report, f.regroup options bench = .ok report ∧ report.changed = false ∧ report.func = f.prepared options := by
  have fine := prepared_well_formed f options wf
  obtain ⟨attempts, done, idle⟩ := rebuild_all_stays _ _ _ _ stays
  have cleared : (if options.sharing = true then some bench.clear.pairs else none) = options.table := rfl
  have settled (pending : List Patch) : (f.prepared options).settle attempts pending = .ok (f.prepared options, pending) := by
    rw [Func.settle, if_neg (by simp [idle])]
  obtain ⟨report, chains, func, made⟩ : ∃ report, f.regroupChains options bench = .ok report ∧
      report.func = f.prepared options ∧ report.attempts = attempts := by
    refine ⟨⟨f.prepared options, (f.prepared options).surveyed options.table, attempts,
      ⟨((f.prepared options).surveyed options.table).table.getD .empty, attempts.map Attempt.chain,
        attempts.filterMap Attempt.patch?⟩⟩, ?_, rfl, rfl⟩
    simp only [Func.regroupChains, prepare_ok f options wf, bind, Except.bind]
    rw [cleared, survey_ok _ _ fine.bounded]
    simp only [Workbench.clear, List.nil_append]
    rw [done]
    simp only [settled]
    rfl
  refine ⟨report, ?_, ?_, func⟩
  · simp only [Func.regroup, Func.demand, (check_ok_iff f).mpr wf, chains, func, (check_ok_iff _).mpr fine, bind, Except.bind]
    rfl
  · have unchanged : attempts.countP Attempt.changed = 0 := by
      rw [List.countP_eq_zero]
      intro attempt member changed
      exact List.any_eq_false.mp idle attempt member changed
    simp [Report.changed, Report.stats, made, unchanged]

section Again

variable (f : Func) (options : Options) (report : Report) (rebuilt : List Rebuilt) (wf : f.WellFormed)
  (plain : f.divergence = none) (regroups : (f.prepared options).Regroups options.table report rebuilt)
  (built : (f.prepared options).RebuiltAs report.func rebuilt) (sated : (f.prepared options).Sated rebuilt)
include regroups built

theorem arranged_shape (site : Site) (a : Arith)
    (found : (f.prepared options).foundAt site a ∈ (f.prepared options).facts.findAll (f.prepared options))
    (queued : (((f.prepared options).foundAt site a).candidate (f.prepared options).facts options.table.isSome).chain ∈
      ((f.prepared options).surveyed options.table).queue)
    (arrangement : Arrangement)
    (arranged : (((f.prepared options).foundAt site a).candidate (f.prepared options).facts
      options.table.isSome).chain.arrange? (f.prepared options).facts
        ((f.prepared options).surveyed options.table).table = some arrangement)
    (place : Site) (c : Arith) (there : report.func.inst? place = some (.arith c)) (dest : c.dest = a.dest)
    (regrown : ∀ r ∈ rebuilt, r.old = a → report.func.facts.rootTree report.func r.arith = .node r.arith
      (Shape.tree r.chain (r.base + r.grouping.rest.nodeCount) r.grouping.last)
      (Shape.tree r.chain r.base r.grouping.rest)) :
    ∃ grouping, Grouping.ofLeaves? arrangement.pinnedCount arrangement.leaves = some grouping ∧
      (report.func.facts.rootTree report.func c).shape = .node () grouping.last grouping.rest := by
  have stored := (found_at_mem _ site a found).1
  rcases (root_after _ report.func rebuilt built site a stored place c there dest).2 with
    ⟨kept, rfl⟩ | ⟨r, member, here, rfl, rfl⟩
  · have outside : site ∉ rebuilt.map Rebuilt.site := (rebuilt_at_none rebuilt site).mp kept
    obtain ⟨earlier, current, subset, restates, stays⟩ := regroups.stays _ queued outside
    obtain ⟨grouping, i, made, root, follows⟩ := stays arrangement arranged
    -- it was looked at in `current`, where only some of the chains were rebuilt yet
    have unchanged (spot : Site) (absent : rebuiltAt rebuilt spot = none) :
        current.inst? spot = (f.prepared options).inst? spot := by
      rw [restates spot, restated_elsewhere earlier rebuilt subset spot absent, Option.map_id, id]
    have equal := (unchanged site kept).trans stored
    rw [show current.inst? site = some i from root] at equal
    cases equal
    refine ⟨grouping, made, ?_⟩
    rw [kept_root_tree _ report.func rebuilt built site c stored found kept]
    refine followed_shape _ built.wf built.orderly current site c stored (fun b inner spot elsewhere => ?_) grouping ?_
      follows
    · exact unchanged spot (inner_kept _ report.func rebuilt built site c stored found b inner spot elsewhere)
    · rw [grouping_leaves _ _ _ made]
      exact arrange_perm _ _ _ arrangement arranged
  · obtain ⟨d, inQueue, fits⟩ := regroups.fits r member
    obtain ⟨spot, b, elsewhere, _, _, _, _, rfl⟩ := queue_mem _ _ d inQueue
    have root : r.site = spot := fits_site r _ _ _ _ fits
    obtain rfl : site = spot := here.symm.trans root
    rw [stored] at elsewhere
    cases elsewhere
    obtain ⟨other, ordered, _, made⟩ := fits.arranged
    rw [arranged] at ordered
    cases ordered
    refine ⟨r.grouping, made, ?_⟩
    rw [regrown r member rfl]
    exact congrArg₂ (Tree.node ()) (shape_tree_shape _ _ _) (shape_tree_shape _ _ _)

include wf plain sated

theorem queued_stays (d : Chain) (queued : d ∈ ((report.func.prepared options).surveyed options.table).queue) :
    d.Stays (report.func.prepared options).facts ((report.func.prepared options).surveyed options.table).table
      (report.func.prepared options) := by
  have flags : report.func.divergence = none ∨ report.func.divergence = (f.prepared options).divergence := by
    rw [regroups.func]
    by_cases nothing : rebuilt.isEmpty = true
    · exact Or.inr (if_pos nothing)
    · exact Or.inl (if_neg nothing)
  have link := prepared_renaming report.func options built.fine.unique
  have echoes := prepared_echoes f options report.func rebuilt wf plain built sated flags
  intro arrangement arranged
  obtain ⟨x, inX, y, inY, same, rfl, before, alike, policy⟩ := echo_queued _ _ _ echoes options.table d queued
  obtain ⟨first, arrangedFirst, leaves, pinned⟩ := echo_arrange _ _ _ echoes.carried _ _ alike policy _ _
    (echo_tallied _ _ _ echoes options _) arrangement arranged
  rw [renaming_find_all report.func _ _ link built.fine] at inY
  obtain ⟨z, inZ, rfl⟩ := List.mem_map.mp inY
  obtain ⟨site, a, stored, _, _, rfl⟩ := find_all_mem _ x inX
  obtain ⟨place, c, there, _, _, rfl⟩ := find_all_mem report.func z inZ
  have dest := root_dest_back _ report.func rebuilt built _ _ link site place a c stored there same
  obtain ⟨grouping, made, shape⟩ := arranged_shape f options report rebuilt regroups built site a inX before first
    arrangedFirst place c there dest fun r member _ => rebuilt_root_tree _ report.func rebuilt built sated r member
  have known (s : Scalar) (leaf : s ∈ first.leaves) : s.value < (f.prepared options).next :=
    alike.known s ((arrange_perm _ _ _ first arrangedFirst).mem_iff.mp leaf)
  refine ⟨grouping.renamed report.func.rename, .arith (c.renamed report.func.rename), ?_, ?_, ?_⟩
  · rw [leaves, pinned, renamed_grouping _ _ _ fun s inS t inT =>
      carried_scalar _ _ _ echoes.carried s t (known s inS) (known t inT), made]
    rfl
  · rw [show (_ : Chain).root = place from rfl, renaming_inst report.func _ _ link, there]
    rfl
  · refine root_tree_followed _ (c.renamed report.func.rename) _ ?_
    rw [renaming_root_tree report.func _ _ link built.fine place c there, renamed_shape, shape]
    rfl

end Again

-- A rebuilt root reads no operation that its chain could have absorbed and left outside.
def Report.Sated (report : Report) (h : Func) : Prop :=
  ∀ attempt ∈ report.attempts, attempt.changed = true → ∀ a ∈ h.arith? attempt.chain.root, ∀ s ∈ [a.lhs, a.rhs],
    (h.facts.absorbable? h a.op s).isSome = true → report.Absorbed s.value

instance (report : Report) (h : Func) : Decidable (report.Sated h) :=
  inferInstanceAs (Decidable (∀ attempt ∈ report.attempts, attempt.changed = true →
    ∀ a ∈ h.arith? attempt.chain.root, ∀ s ∈ [a.lhs, a.rhs], (h.facts.absorbable? h a.op s).isSome = true →
      report.Absorbed s.value))

theorem report_sated (h : Func) (table : Option PairTable) (report : Report) (rebuilt : List Rebuilt)
    (regroups : h.Regroups table report rebuilt) (built : h.RebuiltAs report.func rebuilt) (sated : report.Sated h) :
    h.Sated rebuilt := by
  intro r member s read absorbable
  have root := built.expansion.stored r member
  obtain ⟨attempt, listed, changed, same⟩ :=
    (changed_attempt_rebuilt h table report rebuilt regroups r.chain).mpr ⟨r, member, rfl⟩
  have here : r.old ∈ h.arith? attempt.chain.root := by
    rw [same]
    exact (func_arith_iff h r.site r.old).mpr root
  have absorbed := sated attempt listed changed r.old here s read absorbable
  obtain ⟨q, inQ, b, inner, value⟩ := (absorbed_iff_orphan h table report rebuilt built regroups s.value).mp absorbed
  obtain ⟨⟨place, c⟩, taken⟩ := Option.isSome_iff_exists.mp absorbable
  obtain ⟨rfl, _⟩ := (absorbable_iff h r.old.op s place c).mp taken
  have scalar : Scalar.of c.dest = .of b.dest := congrArg Scalar.of value.symm
  rcases absorbed_reader h report.func rebuilt built q inQ b inner r.site _ _ root read value.symm with
    ⟨equal, _⟩ | ⟨p, below, equal⟩
  · rw [Inst.arith.inj equal]
    exact ⟨b, inner, scalar⟩
  · cases equal
    exact absurd below (rebuilt_root_kept h report.func rebuilt built q r inQ member)

theorem renaming_orderly (f g : Func) (ρ : Value → Value) (link : Renaming f g ρ) (wf : f.WellFormed)
    (orderly : f.Orderly) : g.Orderly := by
  intro x inX y inY read
  rw [renaming_ariths f g ρ link] at inX inY
  obtain ⟨⟨site, a⟩, inA, rfl⟩ := List.mem_map.mp inX
  obtain ⟨⟨place, b⟩, inB, rfl⟩ := List.mem_map.mp inY
  have stored := (mem_ariths f site a).mp inA
  have known := (mem_defs f b.dest).mpr ⟨place, _, (mem_ariths f place b).mp inB, rfl⟩
  have operand (s : Scalar) (reads : s ∈ (Inst.arith a).reads) (same : ρ b.dest = ρ s.value) : b.dest = s.value :=
    link.injective b.dest known s.value (read_known f wf site _ s stored reads) same
  exact orderly (site, a) inA (place, b) inB (read.imp (operand a.lhs (arith_reads a).1) (operand a.rhs (arith_reads a).2))

theorem regroup_idempotent (f : Func) (options : Options) (bench again : Workbench) (first : Report)
    (accepted : f.check = .ok ()) (orderly : f.Orderly) (plain : f.divergence = none)
    (done : f.regroup options bench = .ok first) (sated : first.Sated (f.prepared options)) :
    ∃ second, first.func.regroup options again = .ok second ∧ second.changed = false ∧
      second.func.blocks = first.func.renumbered.blocks ∧ second.func.next = first.func.renumbered.next := by
  have wf := (check_ok_iff f).mp accepted
  have fine := prepared_well_formed f options wf
  have link := prepared_renaming f options wf.unique
  have sound := regroup_well_formed f options bench accepted first done
  obtain ⟨rebuilt, regroups⟩ := regroup_ok f options bench accepted first done
  have built := regroups_rebuilt_as _ _ first rebuilt fine (renaming_orderly f _ _ link wf orderly) sound regroups
  have full := report_sated _ _ first rebuilt regroups built sated
  obtain ⟨second, returned, unchanged, func⟩ := regroup_stays first.func options again sound
    (queued_stays f options first rebuilt wf plain regroups built full)
  exact ⟨second, returned, unchanged, by rw [func]; rfl, by rw [func]; rfl⟩

def ladder (count : Nat) : List Inst :=
  [.input 0 0 1 false, .input 1 1 1 true] ++ (List.range count).map fun k =>
    .arith (Arith.plain (k + 2) .iadd (.of (if k = 0 then 0 else k + 1)) (.of ((k + 1) % 2)))

def longSum : Func where
  name := "long"
  blocks := [⟨0, ladder 17, .ret (some (.of 18))⟩]
  next := 19
  divergence := none

theorem long_sum_settles : longSum.check = .ok () ∧ longSum.Orderly ∧ longSum.divergence = none ∧
    ∃ first, longSum.regroup ⟨true, true⟩ .empty = .ok first ∧ first.changed = true ∧
      first.Sated (longSum.prepared ⟨true, true⟩) ∧
      ∃ second, first.func.regroup ⟨true, true⟩ first.bench = .ok second ∧ second.changed = false ∧
        second.func.blocks = first.func.renumbered.blocks ∧ second.func.next = first.func.renumbered.next := by
  have accepted : longSum.check = .ok () := by decide +kernel
  have orderly : longSum.Orderly := by decide +kernel
  have facts : (longSum.regroup ⟨true, true⟩ .empty).toOption.map (fun first =>
      (first.changed, decide (first.Sated (longSum.prepared ⟨true, true⟩)))) = some (true, true) := by decide +kernel
  obtain ⟨first, done, both⟩ := Option.map_eq_some_iff.mp facts
  have returned := to_option_ok _ first done
  obtain ⟨changed, sated⟩ := Prod.mk.inj both
  exact ⟨accepted, orderly, rfl, first, returned, changed, of_decide_eq_true sated,
    regroup_idempotent longSum ⟨true, true⟩ .empty first.bench first accepted orderly rfl returned (of_decide_eq_true sated)⟩

-- A sum of seventeen terms whose root adds fifteen to two. The two do not fit and stay outside as a sum of their own, and
-- nothing but the new root reads it when the chain is rebuilt.
def wideSum : Func where
  name := "wide"
  blocks :=
    [⟨0, ladder 14 ++ [.arith (Arith.plain 16 .iadd (.of 0) (.of 1)), .arith (Arith.plain 17 .iadd (.of 15) (.of 16))],
      .ret (some (.of 17))⟩]
  next := 18
  divergence := none

-- A sum whose first addition is listed after the second, in the block that runs before it.
def upsideSum : Func where
  name := "upside"
  blocks :=
    [⟨0, [.const 0 [.int 1], .input 1 0 1 false, .input 2 1 1 true], .jump 2⟩,
     ⟨1, [.arith (Arith.plain 4 .iadd (.of 3) (.of 0))], .ret (some (.of 4))⟩,
     ⟨2, [.arith (Arith.plain 3 .iadd (.of 1) (.of 2))], .jump 1⟩]
  next := 5
  divergence := none

theorem returned_twice (f : Func) (options : Options) (test : Report → Report → Bool)
    (passed : (f.regroup options .empty).toOption.any (fun first =>
      (first.func.regroup options first.bench).toOption.any (test first)) = true) :
    ∃ first second, f.regroup options .empty = .ok first ∧ first.func.regroup options first.bench = .ok second ∧
      test first second = true := by
  obtain ⟨first, done, passed⟩ := (Option.any_eq_true _ _).mp passed
  obtain ⟨second, again, passed⟩ := (Option.any_eq_true _ _).mp passed
  exact ⟨first, second, to_option_ok _ first done, to_option_ok _ second again, passed⟩

theorem unsettled_sums :
    (wideSum.check = .ok () ∧ wideSum.divergence = none ∧ wideSum.Orderly ∧ ∃ first second,
      wideSum.regroup ⟨true, true⟩ .empty = .ok first ∧ first.func.regroup ⟨true, true⟩ first.bench = .ok second ∧
      ¬ first.Sated (wideSum.prepared ⟨true, true⟩) ∧ second.changed = true) ∧
    (upsideSum.check = .ok () ∧ upsideSum.divergence = none ∧ ¬ upsideSum.Orderly ∧ ∃ first second,
      upsideSum.regroup ⟨true, true⟩ .empty = .ok first ∧ first.func.regroup ⟨true, true⟩ first.bench = .ok second ∧
      first.Sated (upsideSum.prepared ⟨true, true⟩) ∧ second.changed = true) := by
  obtain ⟨first, second, done, again, wide⟩ := returned_twice wideSum ⟨true, true⟩
    (fun first second => !decide (first.Sated (wideSum.prepared ⟨true, true⟩)) && second.changed) (by decide +kernel)
  obtain ⟨before, after, early, late, upside⟩ := returned_twice upsideSum ⟨true, true⟩
    (fun first second => decide (first.Sated (upsideSum.prepared ⟨true, true⟩)) && second.changed) (by decide +kernel)
  simp only [Bool.and_eq_true, Bool.not_eq_true', decide_eq_false_iff_not, decide_eq_true_eq] at wide upside
  exact ⟨⟨by decide +kernel, rfl, by decide +kernel, first, second, done, again, wide⟩,
    by decide +kernel, rfl, by decide +kernel, before, after, early, late, upside⟩

end Regroup
