import Mathlib
import Regroup.Proofs.Economy

set_option autoImplicit false

namespace Regroup

theorem sum_sole {α : Type} [DecidableEq α] (items : List α) (weight : α → Nat) (x : α) (once : items.Nodup)
    (member : x ∈ items) (others : ∀ y ∈ items, y ≠ x → weight y = 0) : (items.map weight).sum = weight x := by
  have rest : ((items.erase x).map weight).sum = 0 := by
    refine List.sum_eq_zero fun n listed => ?_
    obtain ⟨y, inRest, rfl⟩ := List.mem_map.mp listed
    obtain ⟨different, inItems⟩ := once.mem_erase_iff.mp inRest
    exact others y inItems different
  rw [← List.sum_map_erase weight member, rest, Nat.add_zero]

theorem sited_nodup (f : Func) : f.sited.Nodup := by
  refine (sited_earlier f).imp fun {x y} earlier => ?_
  exact fun same => earlier_irrefl y.1 (same ▸ earlier)

theorem inst_read_count_zero (f : Func) (wf : f.WellFormed) (site : Site) (i : Inst) (stored : f.inst? site = some i)
    (v : Value) (unknown : ¬ v < f.next) : i.readCount v = 0 := by
  refine List.countP_eq_zero.mpr fun s read => ?_
  rw [decide_eq_true_iff]
  exact fun same => unknown (same ▸ wf.bounded _ (read_known f wf site i s stored read))

theorem end_count_zero (f : Func) (wf : f.WellFormed) (v : Value) (unknown : ¬ v < f.next) : f.endCount v = 0 := by
  refine List.countP_eq_zero.mpr fun s read => ?_
  obtain ⟨b, member, ends⟩ := List.mem_flatMap.mp read
  rw [decide_eq_true_iff]
  exact fun same => unknown (same ▸ wf.bounded _ (term_known f wf b member s ends))

-- A rebuilt root reads no operation that its chain could have absorbed and left outside.
def Func.Sated (h : Func) (rebuilt : List Rebuilt) : Prop :=
  ∀ r ∈ rebuilt, ∀ s ∈ (Inst.arith r.old).reads, (h.facts.absorbable? h r.old.op s).isSome = true →
    ∃ b ∈ (h.facts.rootTree h r.old).labels.tail, s = .of b.dest

section Counts

variable (h g : Func) (rebuilt : List Rebuilt) (built : h.ExpandedAs g rebuilt)
include built

theorem new_read_once (r : Rebuilt) (member : r ∈ rebuilt) (m : Nat) (less : m < r.grouping.nodeCount) :
    g.readCount (r.base + m) = 1 := by
  have large := expansion_new_large h rebuilt g.next built.expansion r member m
  have root := built.expansion.stored r member
  have noLeaf (q : Rebuilt) (inQ : q ∈ rebuilt) :
      (h.facts.rootTree h q.old).leaves.countP (·.value = r.base + m) = 0 := by
    refine List.countP_eq_zero.mpr fun s leaf => ?_
    rw [decide_eq_true_iff]
    exact fun same => large (same ▸ root_leaf_old h built.wf q.site q.old (built.expansion.stored q inQ) s leaf)
  rw [built_read_count h g rebuilt built, end_count_zero h built.wf _ large, Nat.add_zero,
    sum_sole h.sited _ (r.site, .arith r.old) (sited_nodup h) ((mem_sited h _ _).mpr root)]
  · rw [rebuilt_read_count h g rebuilt built r member, noLeaf r member, Nat.zero_add]
    exact List.count_eq_one_of_mem List.nodup_range' (List.mem_range'.mpr ⟨m, less, by rw [Nat.one_mul]⟩)
  · intro e inSited different
    obtain ⟨site, i⟩ := e
    have stored := (mem_sited h site i).mp inSited
    cases found : rebuiltAt rebuilt site with
    | none => exact (kept_read_count rebuilt site i _ found).trans (inst_read_count_zero h built.wf site i stored _ large)
    | some q =>
        obtain ⟨inQ, rfl, rfl⟩ := rebuilt_at_root h rebuilt g.next built.expansion site i q stored found
        rw [rebuilt_read_count h g rebuilt built q inQ, noLeaf q inQ, Nat.zero_add, List.count_eq_zero]
        intro inRange
        obtain ⟨n, lessN, same⟩ := List.mem_range'.mp inRange
        rw [Nat.one_mul] at same
        have equal := consecutive_apart _ _ rebuilt built.expansion.numbered r q m n member inQ less lessN same
        exact different (by rw [equal])

theorem untouched_read_count (v : Value) (old : v < h.next)
    (untouched : ∀ r ∈ rebuilt, (Inst.arith r.old).readCount v = 0 ∧
      (h.facts.rootTree h r.old).leaves.countP (·.value = v) = 0) : g.readCount v = h.readCount v := by
  rw [built_read_count h g rebuilt built, read_count_sum]
  congr 2
  refine List.map_congr_left fun e member => ?_
  obtain ⟨site, i⟩ := e
  have stored := (mem_sited h site i).mp member
  cases found : rebuiltAt rebuilt site with
  | none => exact kept_read_count rebuilt site i v found
  | some r =>
      obtain ⟨inList, rfl, rfl⟩ := rebuilt_at_root h rebuilt g.next built.expansion site i r stored found
      have fresh : v ∉ List.range' r.base r.grouping.nodeCount := by
        intro inRange
        obtain ⟨m, _, same⟩ := List.mem_range'.mp inRange
        rw [Nat.one_mul] at same
        exact expansion_new_large h rebuilt g.next built.expansion r inList m (same ▸ old)
      rw [rebuilt_read_count h g rebuilt built r inList, (untouched r inList).1, (untouched r inList).2,
        List.count_eq_zero.mpr fresh]

end Counts

-- A leaf that could not be absorbed still cannot be. What computes it was there before, and was read as often at most:
-- only the operations below a rebuilt root lose a reader, and they had just one.
theorem leaf_stays_leaf (h g : Func) (rebuilt : List Rebuilt) (built : h.ExpandedAs g rebuilt) (site : Site) (a : Arith)
    (stored : h.inst? site = some (.arith a)) (s : Scalar) (leaf : s ∈ (h.facts.rootTree h a).leaves) (op : Op)
    (barred : h.facts.absorbable? h op s = none) : g.facts.absorbable? g op s = none := by
  rw [Option.eq_none_iff_forall_ne_some]
  intro entry taken
  obtain ⟨place, c⟩ := entry
  obtain ⟨rfl, once, definition, sameOp, regroupable⟩ := (absorbable_iff g op s place c).mp taken
  have here := (definition_defines g c.dest place _ definition).2.1
  have old := root_leaf_old h built.wf site a stored _ leaf
  have single : h.readCount c.dest = 1 := by
    by_cases orphan : h.Orphan rebuilt c.dest
    · obtain ⟨r, _, b, inner, same⟩ := orphan
      exact same ▸ (root_inner_once h r.old _ (root_tree_grown h r.old) b inner).2.2
    · have more := built_reads_more h g rebuilt built c.dest orphan
      obtain ⟨reader, p, there, read⟩ := root_leaf_source h a _ site stored (root_tree_grown h a) _ leaf
      have some_read : 0 < h.readCount c.dest := read_count_pos h reader _ _ there read
      omega
  obtain ⟨spot, b, there, dest, op', regroupable'⟩ : ∃ spot b, h.inst? spot = some (.arith b) ∧ b.dest = c.dest ∧
      b.op = op ∧ b.regroupable = true := by
    rcases built_cases h g rebuilt built place _ here with ⟨spot, _, there, _⟩ | ⟨r, member, _, code | root⟩
    · exact ⟨spot, c, there, rfl, sameOp, regroupable⟩
    · exact absurd old (code_dest_new h g rebuilt built r member c code)
    · cases root
      exact ⟨r.site, r.old, built.expansion.stored r member, rfl, sameOp, built.expansion.regroupable r member⟩
  have absorbed := absorbable_stored h built.wf spot b there (dest ▸ single) regroupable'
  rw [dest, op', barred] at absorbed
  cases absorbed

section Leaves

variable (h g : Func) (rebuilt : List Rebuilt) (built : h.RebuiltAs g rebuilt)
include built

-- A leaf of a rebuilt chain that could have been absorbed is read a second time, by the orphan that read it.
theorem rebuilt_leaf_read_twice (sated : h.Sated rebuilt) (r : Rebuilt) (member : r ∈ rebuilt) (s : Scalar)
    (leaf : s ∈ (h.facts.rootTree h r.old).leaves) (absorbable : (h.facts.absorbable? h r.old.op s).isSome = true) :
    2 ≤ g.readCount s.value := by
  have root := built.expansion.stored r member
  have grown := root_tree_grown h r.old
  obtain ⟨p, label, read⟩ := root_leaf_reader h r.old _ grown s leaf
  rcases root_label_split h r.old p label with rfl | inner
  · obtain ⟨b, inside, same⟩ := sated r member s read absorbable
    exact absurd (by rw [same]; rfl)
      (root_leaf_not_inner h built.wf.unique built.orderly r.site r.old root _ grown s leaf b inside)
  · obtain ⟨place, there⟩ := root_labels_stored h r.site r.old root _ grown p label
    have kept := inner_kept h g rebuilt built r.site r.old root (built.found r member) p inner place there
    have different : (place, Inst.arith p) ≠ (r.site, .arith r.old) := by
      intro same
      rw [(Prod.mk.inj same).1, rebuilt_at_self rebuilt built.expansion.distinct r member] at kept
      cases kept
    have two := sum_two_le h.sited (fun e => ((expanded rebuilt e.1 e.2).map (·.readCount s.value)).sum) (r.site, .arith r.old)
      (place, .arith p) ((mem_sited h _ _).mpr root) ((mem_sited h _ _).mpr there) different
    have first := rebuilt_read_count h g rebuilt built r member s.value
    have second := kept_read_count rebuilt place (.arith p) s.value kept
    have some_leaf : 0 < (h.facts.rootTree h r.old).leaves.countP (·.value = s.value) :=
      List.countP_pos_iff.mpr ⟨s, leaf, by simp⟩
    have reads := inst_read_count_pos (.arith p) s read
    have total := built_read_count h g rebuilt built s.value
    dsimp only at two
    omega

theorem rebuilt_leaf_stays (sated : h.Sated rebuilt) (r : Rebuilt) (member : r ∈ rebuilt) (s : Scalar)
    (leaf : s ∈ (h.facts.rootTree h r.old).leaves) : g.facts.absorbable? g r.old.op s = none := by
  cases before : h.facts.absorbable? h r.old.op s with
  | none =>
      exact leaf_stays_leaf h g rebuilt built r.site r.old (built.expansion.stored r member) s leaf r.old.op before
  | some entry =>
      have twice := rebuilt_leaf_read_twice h g rebuilt built sated r member s leaf (by rw [before]; rfl)
      rw [Option.eq_none_iff_forall_ne_some]
      intro other taken
      obtain ⟨rfl, once, _⟩ := (absorbable_iff g r.old.op s other.1 other.2).mp taken
      simp only [Scalar.of] at twice
      omega

end Leaves

def Chain.operation (c : Chain) (dest : Value) (lhs rhs : Scalar) : Arith :=
  { Arith.plain dest c.op lhs rhs with exact := c.exact, fastMath := c.fastMath }

def Shape.tree (c : Chain) (next : Nat) : Shape → Tree Arith Scalar
  | .leaf s => .leaf s
  | .node _ left right =>
      let middle := next + left.nodeCount
      .node (c.operation (middle + right.nodeCount) (Shape.result next left) (Shape.result middle right))
        (Shape.tree c next left) (Shape.tree c middle right)

theorem shape_tree_leaf_count (c : Chain) (next : Nat) (t : Shape) : (Shape.tree c next t).leafCount = t.leafCount := by
  induction t generalizing next with
  | leaf s => rfl
  | node label left right lower upper => simp [Shape.tree, Tree.leafCount, lower, upper]

theorem shape_tree_leaves (c : Chain) (next : Nat) (t : Shape) : (Shape.tree c next t).leaves = t.leaves := by
  induction t generalizing next with
  | leaf s => rfl
  | node label left right lower upper => simp [Shape.tree, Tree.leaves, lower, upper]

theorem shape_tree_labels (c : Chain) (next : Nat) (t : Shape) (b : Arith) :
    b ∈ (Shape.tree c next t).labels ↔ Inst.arith b ∈ Shape.code c next t := by
  induction t generalizing next with
  | leaf s => simp [Shape.tree, Tree.labels, Shape.code]
  | node label left right lower upper =>
      simp only [Shape.tree, Tree.labels, Shape.code, List.mem_cons, List.mem_append, List.not_mem_nil, or_false, lower,
        upper, Chain.step, Inst.arith.injEq]
      exact or_comm

theorem shape_grows (g : Func) (fine : g.WellFormed) (op : Op) (c : Chain) (sameOp : c.op = op)
    (regroupable : ∀ dest lhs rhs, (c.operation dest lhs rhs).regroupable = true) (next room : Nat) (t : Shape)
    (stored : ∀ i ∈ Shape.code c next t, ∃ place, g.inst? place = some i)
    (once : ∀ m < t.nodeCount, g.readCount (next + m) = 1)
    (leaves : ∀ s ∈ t.leaves, g.facts.absorbable? g op s = none) (fits : t.leafCount ≤ room) :
    g.facts.operandTree g op room (Shape.result next t) = Shape.tree c next t := by
  induction t generalizing next room with
  | leaf s =>
      rw [Facts.operandTree, Shape.result, leaves s (by simp [Tree.leaves])]
      rfl
  | node label left right lower upper =>
      have leftSome := tree_leaf_count_pos left
      have rightSome := tree_leaf_count_pos right
      simp only [Tree.leafCount] at fits
      simp only [Shape.code, List.mem_append, List.mem_singleton] at stored
      simp only [Tree.nodeCount] at once
      simp only [Tree.leaves, List.mem_append] at leaves
      obtain ⟨place, there⟩ := stored _ (Or.inr rfl)
      have single := once (left.nodeCount + right.nodeCount) (by omega)
      rw [← Nat.add_assoc] at single
      have absorbed : g.facts.absorbable? g op (.of (next + left.nodeCount + right.nodeCount)) =
          some (place, c.operation (next + left.nodeCount + right.nodeCount) (Shape.result next left)
            (Shape.result (next + left.nodeCount) right)) := by
        rw [← sameOp]
        exact absorbable_stored g fine place (c.operation _ _ _) there single (regroupable _ _ _)
      -- on the left one leaf is set aside for the operand that waits on the right
      have left_grows := lower next (room - 1) (fun i code => stored i (Or.inl (Or.inl code)))
        (fun m less => once m (by omega)) (fun s leaf => leaves s (Or.inl leaf)) (by omega)
      have right_grows := upper (next + left.nodeCount) (room - left.leafCount)
        (fun i code => stored i (Or.inl (Or.inr code)))
        (fun m less => by rw [Nat.add_assoc]; exact once (left.nodeCount + m) (by omega))
        (fun s leaf => leaves s (Or.inr leaf)) (by omega)
      rw [Facts.operandTree, Shape.result, absorbed]
      simp only [show 2 ≤ room by omega, ↓reduceDIte, Chain.operation, Arith.plain, left_grows, shape_tree_leaf_count,
        right_grows, Shape.tree]

section Regrown

variable (h g : Func) (rebuilt : List Rebuilt) (built : h.ExpandedAs g rebuilt)
include built

theorem rebuilt_regroupable (r : Rebuilt) (member : r ∈ rebuilt) (b : Arith) (width : b.width = 1) (sameOp : b.op = r.old.op)
    (flag : b.exact = r.chain.exact) : b.regroupable = true := by
  have whole := built.expansion.regroupable r member
  simp only [Arith.regroupable, Bool.and_eq_true, Bool.or_eq_true, Bool.not_eq_true', decide_eq_true_eq, width, sameOp]
    at whole ⊢
  refine ⟨⟨trivial, whole.1.2⟩, ?_⟩
  rcases whole.2 with associative | loose
  · exact Or.inl associative
  · cases strictness : r.chain.exact with
    | false => exact Or.inr ⟨flag.trans strictness, loose.2⟩
    | true =>
        rw [built.exact r member, List.any_eq_true] at strictness
        obtain ⟨c, label, strict⟩ := strictness
        rcases root_label_split h r.old c label with rfl | inner
        · rw [loose.1] at strict
          cases strict
        · obtain ⟨op, free, _⟩ := root_inner_once h r.old _ (root_tree_grown h r.old) c inner
          simp only [Arith.regroupable, strict, op, Bool.and_eq_true, Bool.or_eq_true, Bool.not_true, Bool.false_eq_true,
            false_and, or_false] at free
          exact Or.inl free.2

theorem rebuilt_tree_regrown (r : Rebuilt) (member : r ∈ rebuilt)
    (barred : ∀ s ∈ (h.facts.rootTree h r.old).leaves, g.facts.absorbable? g r.old.op s = none) :
    g.facts.rootTree g r.arith = .node r.arith
      (Shape.tree r.chain (r.base + r.grouping.rest.nodeCount) r.grouping.last)
      (Shape.tree r.chain r.base r.grouping.rest) := by
  obtain ⟨sameOp, leaves, perm⟩ := built.expansion.chain r member
  have room : r.grouping.rest.leafCount + r.grouping.last.leafCount ≤ chainCapacity := by
    have fits := root_tree_fits h.facts h r.old
    rw [← tree_leaves_length, ← perm.length_eq, ← leaves, Grouping.leaves, List.length_append, tree_leaves_length,
      tree_leaves_length] at fits
    exact fits
  have restSome := tree_leaf_count_pos r.grouping.rest
  have barred (s : Scalar) (leaf : s ∈ r.grouping.leaves) : g.facts.absorbable? g r.old.op s = none :=
    barred s (perm.mem_iff.mp (leaves ▸ leaf))
  have stored (i : Inst) (listed : i ∈ r.code) : ∃ place, g.inst? place = some i :=
    (built_new h g rebuilt built r member i (Or.inl listed)).imp fun _ both => both.2
  have regroupable (dest : Value) (lhs rhs : Scalar) : (r.chain.operation dest lhs rhs).regroupable = true :=
    rebuilt_regroupable h g rebuilt built r member _ rfl sameOp rfl
  have once (m : Nat) (less : m < r.grouping.nodeCount) := new_read_once h g rebuilt built r member m less
  rw [Grouping.nodeCount] at once
  have left_grows := shape_grows g built.fine r.old.op r.chain sameOp regroupable (r.base + r.grouping.rest.nodeCount)
    (chainCapacity - 1) r.grouping.last (fun i code => stored i (List.mem_append_right _ code))
    (fun m less => by rw [Nat.add_assoc]; exact once _ (by omega)) (fun s leaf => barred s (List.mem_append_right _ leaf))
    (by omega)
  have right_grows := shape_grows g built.fine r.old.op r.chain sameOp regroupable r.base
    (chainCapacity - r.grouping.last.leafCount) r.grouping.rest (fun i code => stored i (List.mem_append_left _ code))
    (fun m less => once m (by omega)) (fun s leaf => barred s (List.mem_append_left _ leaf)) (by omega)
  simp only [Facts.rootTree, Rebuilt.arith, Grouping.lhs, Grouping.rhs, left_grows, shape_tree_leaf_count, right_grows]

end Regrown

section Trees

variable (h g : Func) (rebuilt : List Rebuilt) (built : h.RebuiltAs g rebuilt)
include built

theorem rebuilt_root_tree (sated : h.Sated rebuilt) (r : Rebuilt) (member : r ∈ rebuilt) :
    g.facts.rootTree g r.arith = .node r.arith
      (Shape.tree r.chain (r.base + r.grouping.rest.nodeCount) r.grouping.last)
      (Shape.tree r.chain r.base r.grouping.rest) :=
  rebuilt_tree_regrown h g rebuilt built r member fun s leaf => rebuilt_leaf_stays h g rebuilt built sated r member s leaf

omit built in
theorem operand_tree_same (op : Op) (room : Nat) (s : Scalar)
    (inner : ∀ b ∈ (h.facts.operandTree h op room s).labels, ∃ place, g.facts.absorbable? g op (.of b.dest) = some (place, b))
    (outer : ∀ leaf ∈ (h.facts.operandTree h op room s).leaves, h.facts.absorbable? h op leaf = none →
      g.facts.absorbable? g op leaf = none) :
    g.facts.operandTree g op room s = h.facts.operandTree h op room s := by
  fun_induction Facts.operandTree h.facts h op room s with
  | case1 room s absent =>
      rw [Facts.operandTree, outer s (by simp [Tree.leaves]) absent]
  | case2 room s site a found roomy left lower upper =>
      simp only [Tree.labels, Tree.leaves, List.mem_cons, List.mem_append] at inner outer
      obtain ⟨place, again⟩ := inner a (Or.inl rfl)
      rw [← ((absorbable_iff h op s site a).mp found).1] at again
      have leftSame := lower (fun b label => inner b (Or.inr (Or.inl label))) fun leaf member => outer leaf (Or.inl member)
      have rightSame := upper (fun b label => inner b (Or.inr (Or.inr label))) fun leaf member => outer leaf (Or.inr member)
      rw [Facts.operandTree, again]
      simp only [roomy, ↓reduceDIte, leftSame]
      rw [rightSame]
  | case3 room s site a found cramped =>
      rw [Facts.operandTree]
      split
      · rfl
      · simp only [cramped, ↓reduceDIte]

theorem kept_inner_once (site : Site) (a : Arith) (stored : h.inst? site = some (.arith a))
    (found : h.foundAt site a ∈ h.facts.findAll h) (kept : rebuiltAt rebuilt site = none) (b : Arith)
    (inner : b ∈ (h.facts.rootTree h a).labels.tail) : g.readCount b.dest = 1 := by
  have grown := root_tree_grown h a
  obtain ⟨spot, there⟩ := root_labels_stored h site a stored _ grown b (List.mem_of_mem_tail inner)
  rw [← (root_inner_once h a _ grown b inner).2.2]
  refine untouched_read_count h g rebuilt built b.dest (defines_bounded h built.wf b.dest spot _ ⟨there, rfl⟩)
    fun r member => ⟨List.countP_eq_zero.mpr fun s read => ?_, List.countP_eq_zero.mpr fun s leaf => ?_⟩
  · rw [decide_eq_true_iff]
    intro same
    have root := built.expansion.stored r member
    obtain ⟨p, inTree, equal⟩ := root_inner_reader h site a stored _ grown b inner r.site _ s root read same
    cases equal
    rcases root_label_split h a r.old inTree with rfl | below
    · rw [(defines_unique h built.wf.unique r.old.dest site r.site _ _ ⟨stored, rfl⟩ ⟨root, rfl⟩).1,
        rebuilt_at_self rebuilt built.expansion.distinct r member] at kept
      cases kept
    · exact found_root_not_inner h built.wf.unique built.orderly site r.site a r.old stored root found
        (built.found r member) below
  · rw [decide_eq_true_iff]
    exact found_leaf_not_inner h built.wf.unique built.orderly r.site site r.old a (built.expansion.stored r member)
      stored (built.found r member) found s leaf b inner

theorem kept_root_tree (site : Site) (a : Arith) (stored : h.inst? site = some (.arith a))
    (found : h.foundAt site a ∈ h.facts.findAll h) (kept : rebuiltAt rebuilt site = none) :
    g.facts.rootTree g a = h.facts.rootTree h a := by
  have grown := root_tree_grown h a
  have inner (b : Arith) (label : b ∈ (h.facts.rootTree h a).labels.tail) :
      ∃ place, g.facts.absorbable? g a.op (.of b.dest) = some (place, b) := by
    obtain ⟨sameOp, regroupable, _⟩ := root_inner_once h a _ grown b label
    obtain ⟨spot, there⟩ := root_labels_stored h site a stored _ grown b (List.mem_of_mem_tail label)
    have stays := inner_kept h g rebuilt built site a stored found b label spot there
    obtain ⟨place, _, still⟩ := built_kept h g rebuilt built spot _ there stays
    have single := kept_inner_once h g rebuilt built site a stored found kept b label
    exact ⟨place, sameOp ▸ absorbable_stored g built.fine place b still single regroupable⟩
  have outer (s : Scalar) (leaf : s ∈ (h.facts.rootTree h a).leaves) (barred : h.facts.absorbable? h a.op s = none) :
      g.facts.absorbable? g a.op s = none := leaf_stays_leaf h g rebuilt built site a stored s leaf a.op barred
  have leftSame := operand_tree_same h g a.op (chainCapacity - 1) a.lhs
    (fun b label => inner b (List.mem_append_left _ label)) fun s leaf => outer s (List.mem_append_left _ leaf)
  have rightSame := operand_tree_same h g a.op
    (chainCapacity - (h.facts.operandTree h a.op (chainCapacity - 1) a.lhs).leafCount) a.rhs
    (fun b label => inner b (List.mem_append_right _ label)) fun s leaf => outer s (List.mem_append_right _ leaf)
  rw [Facts.rootTree, Facts.rootTree, leftSame]
  simp only [rightSame]

end Trees

end Regroup
