import Mathlib
import Regroup.Proofs.Reading
import Regroup.Proofs.Surveying

set_option autoImplicit false

namespace Regroup

instance (a b : Site) : Decidable (a.Earlier b) :=
  inferInstanceAs (Decidable (a.block < b.block ∨ (a.block = b.block ∧ a.inst < b.inst)))

def Func.Orderly (f : Func) : Prop :=
  ∀ x ∈ f.ariths, ∀ y ∈ f.ariths, y.2.dest = x.2.lhs.value ∨ y.2.dest = x.2.rhs.value → y.1.Earlier x.1

instance (f : Func) : Decidable f.Orderly :=
  inferInstanceAs (Decidable (∀ x ∈ f.ariths, ∀ y ∈ f.ariths,
    y.2.dest = x.2.lhs.value ∨ y.2.dest = x.2.rhs.value → y.1.Earlier x.1))

theorem orderly_earlier (f : Func) (orderly : f.Orderly) (site place : Site) (a b : Arith)
    (storedA : f.inst? site = some (.arith a)) (storedB : f.inst? place = some (.arith b))
    (read : Scalar.of b.dest ∈ (Inst.arith a).reads) : place.Earlier site := by
  refine orderly _ ((mem_ariths f site a).mpr storedA) _ ((mem_ariths f place b).mpr storedB) ?_
  simp only [Inst.reads, List.mem_cons, List.not_mem_nil, or_false] at read
  rcases read with left | right
  · exact Or.inl (by rw [← left]; rfl)
  · exact Or.inr (by rw [← right]; rfl)

def Tree.Holds (t : Tree Arith Scalar) (r : Scalar) : Prop := r ∈ t.leaves ∨ ∃ b ∈ t.labels, r = .of b.dest

theorem holds_left (a : Arith) (left right : Tree Arith Scalar) (r : Scalar) (holds : left.Holds r) :
    (Tree.node a left right).Holds r := by
  rcases holds with leaf | ⟨b, inside, same⟩
  · exact Or.inl (List.mem_append_left _ leaf)
  · exact Or.inr ⟨b, by simp [Tree.labels, inside], same⟩

theorem holds_right (a : Arith) (left right : Tree Arith Scalar) (r : Scalar) (holds : right.Holds r) :
    (Tree.node a left right).Holds r := by
  rcases holds with leaf | ⟨b, inside, same⟩
  · exact Or.inl (List.mem_append_right _ leaf)
  · exact Or.inr ⟨b, by simp [Tree.labels, inside], same⟩

section Grown

variable (f : Func) (op : Op) (t : Tree Arith Scalar) (s : Scalar) (grown : f.Grown op t s)
include grown

theorem grown_stored : ∀ b ∈ t.labels, f.readCount b.dest = 1 ∧ ∃ site, f.inst? site = some (.arith b) := by
  intro b member
  obtain ⟨_, _, once, site, definition⟩ := grown_node_regroupable f op t s grown b member
  exact ⟨once, site, (definition_defines f b.dest site _ definition).2.1⟩

theorem grown_top : t = .leaf s ∨ ∃ b ∈ t.labels, s = .of b.dest := by
  cases grown with
  | leaf s => exact Or.inl rfl
  | node a left right site definition sameOp regroupable once lower upper =>
      exact Or.inr ⟨a, by simp [Tree.labels], rfl⟩

theorem grown_holds : t.Holds s := by
  rcases grown_top f op t s grown with leaf | inner
  · exact Or.inl (by simp [leaf, Tree.leaves])
  · exact Or.inr inner

theorem grown_parent : ∀ b ∈ t.labels, s = .of b.dest ∨ ∃ p ∈ t.labels, Scalar.of b.dest ∈ (Inst.arith p).reads := by
  induction grown with
  | leaf s => simp [Tree.labels]
  | node a left right site definition sameOp regroupable once _ _ lower upper =>
      intro b member
      simp only [Tree.labels, List.mem_cons, List.mem_append] at member ⊢
      have operands := arith_reads a
      rcases member with rfl | inLeft | inRight
      · exact Or.inl rfl
      · rcases lower b inLeft with top | ⟨p, inside, read⟩
        · exact Or.inr ⟨a, Or.inl rfl, top ▸ operands.1⟩
        · exact Or.inr ⟨p, Or.inr (Or.inl inside), read⟩
      · rcases upper b inRight with top | ⟨p, inside, read⟩
        · exact Or.inr ⟨a, Or.inl rfl, top ▸ operands.2⟩
        · exact Or.inr ⟨p, Or.inr (Or.inr inside), read⟩

theorem grown_operand : ∀ p ∈ t.labels, ∀ r ∈ (Inst.arith p).reads, t.Holds r := by
  induction grown with
  | leaf s => simp [Tree.labels]
  | node a left right site definition sameOp regroupable once growsL growsR lower upper =>
      intro p member r read
      simp only [Tree.labels, List.mem_cons, List.mem_append] at member
      rcases member with rfl | inLeft | inRight
      · simp only [Inst.reads, List.mem_cons, List.not_mem_nil, or_false] at read
        rcases read with rfl | rfl
        · exact holds_left p left right _ (grown_holds f op left _ growsL)
        · exact holds_right p left right _ (grown_holds f op right _ growsR)
      · exact holds_left a left right r (lower p inLeft r read)
      · exact holds_right a left right r (upper p inRight r read)

-- A set of operations that goes up with each of its members to a reader stays off the tree if it has no reader of the top.
theorem grown_apart (others : Arith → Prop)
    (stored : ∀ p, others p → ∃ site, f.inst? site = some (.arith p))
    (climbs : ∀ b ∈ t.labels, others b → ∃ p, others p ∧ Scalar.of b.dest ∈ (Inst.arith p).reads)
    (top : ∀ p, others p → s ∈ (Inst.arith p).reads → t.labels = []) : ∀ b ∈ t.labels, ¬ others b := by
  induction grown with
  | leaf s => simp [Tree.labels]
  | node a left right site definition sameOp regroupable once growsL growsR lower upper =>
      have here := (definition_defines f a.dest site _ definition).2.1
      have outside : ¬ others a := by
        intro inside
        obtain ⟨p, other, read⟩ := climbs a (by simp [Tree.labels]) inside
        exact absurd (top p other read) (by simp [Tree.labels])
      -- a second reader of an operand that was absorbed would be the operation itself
      have below (part : Tree Arith Scalar) (r : Scalar) (grows : f.Grown op part r) (operand : r ∈ (Inst.arith a).reads)
          (p : Arith) (other : others p) (read : r ∈ (Inst.arith p).reads) : part.labels = [] := by
        rcases grown_top f op part r grows with leaf | ⟨b, inside, same⟩
        · rw [leaf]
          rfl
        · obtain ⟨place, there⟩ := stored p other
          have single := (grown_stored f op part r grows b inside).1
          have equal := (sole_reader f b.dest single site place _ _ r r here there operand read (by rw [same]; rfl)
            (by rw [same]; rfl)).2
          cases equal
          exact absurd other outside
      have operands := arith_reads a
      intro b member
      simp only [Tree.labels, List.mem_cons, List.mem_append] at member climbs
      rcases member with rfl | inLeft | inRight
      · exact outside
      · exact lower (fun c inside => climbs c (Or.inr (Or.inl inside))) (below left _ growsL operands.1) b inLeft
      · exact upper (fun c inside => climbs c (Or.inr (Or.inr inside))) (below right _ growsR operands.2) b inRight

theorem grown_earlier (orderly : f.Orderly) (site : Site) (a : Arith) (stored : f.inst? site = some (.arith a))
    (read : s ∈ (Inst.arith a).reads) : ∀ b ∈ t.labels, ∃ place, f.inst? place = some (.arith b) ∧ place.Earlier site := by
  induction grown generalizing site a with
  | leaf s => simp [Tree.labels]
  | node c left right place definition sameOp regroupable once growsL growsR lower upper =>
      have here := (definition_defines f c.dest place _ definition).2.1
      have before := orderly_earlier f orderly site place a c stored here read
      have operands := arith_reads c
      intro b member
      simp only [Tree.labels, List.mem_cons, List.mem_append] at member
      rcases member with rfl | inLeft | inRight
      · exact ⟨place, here, before⟩
      · obtain ⟨spot, found, earlier⟩ := lower place c here operands.1 b inLeft
        exact ⟨spot, found, earlier_trans spot place site earlier before⟩
      · obtain ⟨spot, found, earlier⟩ := upper place c here operands.2 b inRight
        exact ⟨spot, found, earlier_trans spot place site earlier before⟩

end Grown

section Siblings

variable (f : Func) (unique : f.defs.Nodup) (orderly : f.Orderly) (op : Op) (site : Site) (a : Arith)
  (stored : f.inst? site = some (.arith a)) (left right : Tree Arith Scalar) (lower : f.Grown op left a.lhs)
  (upper : f.Grown op right a.rhs)
include unique orderly stored lower upper

theorem root_not_below : a ∉ left.labels ∧ a ∉ right.labels := by
  have never (t : Tree Arith Scalar) (s : Scalar) (grown : f.Grown op t s) (read : s ∈ (Inst.arith a).reads) :
      a ∉ t.labels := by
    intro inside
    obtain ⟨place, found, earlier⟩ := grown_earlier f op t s grown orderly site a stored read a inside
    rw [(defines_unique f unique a.dest place site _ _ ⟨found, rfl⟩ ⟨stored, rfl⟩).1] at earlier
    exact earlier_irrefl site earlier
  exact ⟨never left _ lower (arith_reads a).1, never right _ upper (arith_reads a).2⟩

theorem siblings_apart : ∀ b ∈ left.labels, b ∉ right.labels := by
  obtain ⟨notLeft, notRight⟩ := root_not_below f unique orderly op site a stored left right lower upper
  have operands := arith_reads a
  -- whoever reads an operand that is absorbed is the operation itself
  have only (b p : Arith) (once : f.readCount b.dest = 1) (operand : Scalar.of b.dest ∈ (Inst.arith a).reads)
      (there : ∃ place, f.inst? place = some (.arith p)) (read : Scalar.of b.dest ∈ (Inst.arith p).reads) : p = a := by
    obtain ⟨place, found⟩ := there
    exact Inst.arith.inj (sole_reader f b.dest once site place _ _ _ _ stored found operand read rfl rfl).2
  refine grown_apart f op left a.lhs lower (· ∈ right.labels)
    (fun p inside => (grown_stored f op right _ upper p inside).2) (fun b inLeft inRight => ?_) fun p inRight read => ?_
  · rcases grown_parent f op right _ upper b inRight with top | parent
    · -- both sides of the operation would read the same value
      have once := (grown_stored f op right _ upper b inRight).1
      rcases grown_parent f op left _ lower b inLeft with same | ⟨p, inside, read⟩
      · exact absurd (by rw [top]; rfl) (sole_operand f b.dest once site a stored (by rw [same]; rfl))
      · have equal := only b p once (top ▸ operands.2) (grown_stored f op left _ lower p inside).2 read
        exact absurd (equal ▸ inside) notLeft
    · exact parent
  · rcases grown_top f op left _ lower with leaf | ⟨b, inside, same⟩
    · rw [leaf]
      rfl
    · have equal := only b p (grown_stored f op left _ lower b inside).1 (same ▸ operands.1)
        (grown_stored f op right _ upper p inRight).2 (same ▸ read)
      exact absurd (equal ▸ inRight) notRight

theorem node_labels_nodup (leftOnce : left.labels.Nodup) (rightOnce : right.labels.Nodup) :
    (Tree.node a left right).labels.Nodup := by
  obtain ⟨notLeft, notRight⟩ := root_not_below f unique orderly op site a stored left right lower upper
  rw [Tree.labels, List.nodup_cons, List.mem_append, List.nodup_append']
  refine ⟨fun inside => inside.elim notLeft notRight, leftOnce, rightOnce, fun b inLeft inRight => ?_⟩
  exact siblings_apart f unique orderly op site a stored left right lower upper b inLeft inRight

end Siblings

theorem grown_labels_nodup (f : Func) (unique : f.defs.Nodup) (orderly : f.Orderly) (op : Op) (t : Tree Arith Scalar)
    (s : Scalar) (grown : f.Grown op t s) : t.labels.Nodup := by
  induction grown with
  | leaf s => exact List.nodup_nil
  | node a left right site definition sameOp regroupable once growsL growsR lower upper =>
      have here := (definition_defines f a.dest site _ definition).2.1
      exact node_labels_nodup f unique orderly op site a here left right growsL growsR lower upper

theorem grown_read_counts (f : Func) (op : Op) (t : Tree Arith Scalar) (s : Scalar) (grown : f.Grown op t s) (v : Value) :
    (t.labels.map fun b => (Inst.arith b).readCount v).sum + (if s.value = v then 1 else 0) =
      t.leaves.countP (·.value = v) + (t.labels.map Arith.dest).count v := by
  induction grown with
  | leaf s => simp [Tree.labels, Tree.leaves, List.countP_singleton]
  | node a left right site definition sameOp regroupable once growsL growsR lower upper =>
      simp only [Tree.labels, Tree.leaves, List.map_cons, List.map_append, List.sum_cons, List.sum_append,
        List.countP_append, List.count_cons, List.count_append, Inst.readCount, Inst.reads, List.countP_cons,
        List.countP_nil, decide_eq_true_eq, beq_iff_eq, Scalar.of] at lower upper ⊢
      by_cases dest : a.dest = v
      · simp only [dest, ↓reduceIte]
        omega
      · simp only [dest, ↓reduceIte]
        omega

theorem root_label_split (f : Func) (a b : Arith) (label : b ∈ (f.facts.rootTree f a).labels) :
    b = a ∨ b ∈ (f.facts.rootTree f a).labels.tail := List.mem_cons.mp label

section Root

variable (f : Func) (unique : f.defs.Nodup) (orderly : f.Orderly) (site : Site) (a : Arith)
  (stored : f.inst? site = some (.arith a)) (t : Tree Arith Scalar) (grown : f.RootGrown a t)
include stored grown

theorem root_labels_stored : ∀ b ∈ t.labels, ∃ place, f.inst? place = some (.arith b) := by
  obtain ⟨left, right, rfl, lower, upper⟩ := grown
  intro b member
  simp only [Tree.labels, List.mem_cons, List.mem_append] at member
  rcases member with rfl | inLeft | inRight
  · exact ⟨site, stored⟩
  · exact (grown_stored f a.op left _ lower b inLeft).2
  · exact (grown_stored f a.op right _ upper b inRight).2

include unique in
theorem root_label_same (b c : Arith) (label : b ∈ t.labels) (place : Site) (there : f.inst? place = some (.arith c))
    (same : b.dest = c.dest) : b = c := by
  obtain ⟨spot, elsewhere⟩ := root_labels_stored f site a stored t grown b label
  exact Inst.arith.inj (defines_unique f unique c.dest spot place _ _ ⟨elsewhere, congrArg some same⟩ ⟨there, rfl⟩).2

omit stored in
theorem root_inner_once : ∀ b ∈ t.labels.tail, b.op = a.op ∧ b.regroupable = true ∧ f.readCount b.dest = 1 := by
  obtain ⟨left, right, rfl, lower, upper⟩ := grown
  intro b member
  rcases List.mem_append.mp (show b ∈ left.labels ++ right.labels from member) with inLeft | inRight
  · obtain ⟨sameOp, regroupable, once, _⟩ := grown_node_regroupable f a.op left _ lower b inLeft
    exact ⟨sameOp, regroupable, once⟩
  · obtain ⟨sameOp, regroupable, once, _⟩ := grown_node_regroupable f a.op right _ upper b inRight
    exact ⟨sameOp, regroupable, once⟩

omit stored in
theorem root_parent : ∀ b ∈ t.labels.tail, ∃ p ∈ t.labels, Scalar.of b.dest ∈ (Inst.arith p).reads := by
  obtain ⟨left, right, rfl, lower, upper⟩ := grown
  have operands := arith_reads a
  intro b member
  simp only [Tree.labels, List.mem_cons, List.mem_append]
  rcases List.mem_append.mp (show b ∈ left.labels ++ right.labels from member) with inLeft | inRight
  · rcases grown_parent f a.op left _ lower b inLeft with top | ⟨p, inside, read⟩
    · exact ⟨a, Or.inl rfl, top ▸ operands.1⟩
    · exact ⟨p, Or.inr (Or.inl inside), read⟩
  · rcases grown_parent f a.op right _ upper b inRight with top | ⟨p, inside, read⟩
    · exact ⟨a, Or.inl rfl, top ▸ operands.2⟩
    · exact ⟨p, Or.inr (Or.inr inside), read⟩

theorem root_inner_reader (b : Arith) (inner : b ∈ t.labels.tail) (place : Site) (i : Inst) (s : Scalar)
    (found : f.inst? place = some i) (read : s ∈ i.reads) (value : s.value = b.dest) : ∃ p ∈ t.labels, i = .arith p := by
  obtain ⟨_, _, once⟩ := root_inner_once f a t grown b inner
  obtain ⟨p, inside, parent⟩ := root_parent f a t grown b inner
  obtain ⟨spot, there⟩ := root_labels_stored f site a stored t grown p inside
  exact ⟨p, inside, (sole_reader f b.dest once spot place _ i _ s there found parent read rfl value).2⟩

omit stored in
theorem root_operand : ∀ p ∈ t.labels, ∀ r ∈ (Inst.arith p).reads, r ∈ t.leaves ∨ ∃ b ∈ t.labels.tail, r = .of b.dest := by
  obtain ⟨left, right, rfl, lower, upper⟩ := grown
  have inLeft (r : Scalar) (holds : left.Holds r) : r ∈ left.leaves ++ right.leaves ∨
      ∃ b ∈ left.labels ++ right.labels, r = .of b.dest := by
    rcases holds with leaf | ⟨b, inside, same⟩
    · exact Or.inl (List.mem_append_left _ leaf)
    · exact Or.inr ⟨b, List.mem_append_left _ inside, same⟩
  have inRight (r : Scalar) (holds : right.Holds r) : r ∈ left.leaves ++ right.leaves ∨
      ∃ b ∈ left.labels ++ right.labels, r = .of b.dest := by
    rcases holds with leaf | ⟨b, inside, same⟩
    · exact Or.inl (List.mem_append_right _ leaf)
    · exact Or.inr ⟨b, List.mem_append_right _ inside, same⟩
  intro p member r read
  simp only [Tree.labels, List.mem_cons, List.mem_append] at member
  rcases member with rfl | below | beside
  · simp only [Inst.reads, List.mem_cons, List.not_mem_nil, or_false] at read
    rcases read with rfl | rfl
    · exact inLeft _ (grown_holds f p.op left _ lower)
    · exact inRight _ (grown_holds f p.op right _ upper)
  · exact inLeft r (grown_operand f a.op left _ lower p below r read)
  · exact inRight r (grown_operand f a.op right _ upper p beside r read)

include orderly

theorem root_inner_earlier : ∀ b ∈ t.labels.tail, ∃ place, f.inst? place = some (.arith b) ∧ place.Earlier site := by
  obtain ⟨left, right, rfl, lower, upper⟩ := grown
  have operands := arith_reads a
  intro b member
  rcases List.mem_append.mp (show b ∈ left.labels ++ right.labels from member) with inLeft | inRight
  · exact grown_earlier f a.op left _ lower orderly site a stored operands.1 b inLeft
  · exact grown_earlier f a.op right _ upper orderly site a stored operands.2 b inRight

include unique

theorem root_labels_nodup : t.labels.Nodup := by
  obtain ⟨left, right, rfl, lower, upper⟩ := grown
  exact node_labels_nodup f unique orderly a.op site a stored left right lower upper
    (grown_labels_nodup f unique orderly a.op left _ lower) (grown_labels_nodup f unique orderly a.op right _ upper)

theorem root_read_counts (v : Value) :
    t.leaves.countP (·.value = v) + (interior t).count v ≤ f.readCount v := by
  have once := root_labels_nodup f unique orderly site a stored t grown
  have members := root_labels_stored f site a stored t grown
  have total : (t.labels.map fun b => (Inst.arith b).readCount v).sum =
      t.leaves.countP (·.value = v) + (interior t).count v := by
    obtain ⟨left, right, rfl, lower, upper⟩ := grown
    have first := grown_read_counts f a.op left _ lower v
    have second := grown_read_counts f a.op right _ upper v
    simp only [interior, Tree.labels, List.tail_cons, Tree.leaves, List.map_cons, List.map_append, List.sum_cons,
      List.sum_append, List.countP_append, List.count_append, Inst.readCount, Inst.reads, List.countP_cons,
      List.countP_nil, decide_eq_true_eq] at first second ⊢
    omega
  have within : (t.labels.map Inst.arith).Subperm f.insts := by
    refine List.Nodup.subperm (once.map fun _ _ same => Inst.arith.inj same) fun i listed => ?_
    obtain ⟨b, inside, rfl⟩ := List.mem_map.mp listed
    exact (mem_insts f _).mpr (members b inside)
  obtain ⟨part, perm, sub⟩ := within
  have less : (part.map (·.readCount v)).sum ≤ (f.insts.map (·.readCount v)).sum :=
    (sub.map _).sum_le_sum fun _ _ => Nat.zero_le _
  rw [(perm.map _).sum_eq, List.map_map] at less
  have whole := read_count_sum f v
  rw [← total, whole]
  rw [← sited_insts, List.map_map] at less
  exact Nat.le_trans less (Nat.le_add_right _ _)

theorem root_leaf_not_inner (s : Scalar) (leaf : s ∈ t.leaves) (b : Arith) (inner : b ∈ t.labels.tail) :
    s.value ≠ b.dest := by
  intro same
  obtain ⟨_, _, once⟩ := root_inner_once f a t grown b inner
  have counts := root_read_counts f unique orderly site a stored t grown b.dest
  have leaves : 0 < t.leaves.countP (·.value = b.dest) := List.countP_pos_iff.mpr ⟨s, leaf, by simp [same]⟩
  have inside : 0 < (interior t).count b.dest := List.count_pos_iff.mpr (List.mem_map_of_mem inner)
  omega

end Root

theorem root_leaf_reader (f : Func) (a : Arith) (t : Tree Arith Scalar) (grown : f.RootGrown a t) :
    ∀ s ∈ t.leaves, ∃ p ∈ t.labels, s ∈ (Inst.arith p).reads := by
  obtain ⟨left, right, rfl, lower, upper⟩ := grown
  have operands := arith_reads a
  have source (part : Tree Arith Scalar) (top : Scalar) (grows : f.Grown a.op part top) (read : top ∈ (Inst.arith a).reads)
      (inside : ∀ p ∈ part.labels, p ∈ (Tree.node a left right).labels) :
      ∀ s ∈ part.leaves, ∃ p ∈ (Tree.node a left right).labels, s ∈ (Inst.arith p).reads := by
    intro s leaf
    rcases grown_leaf_source f a.op part top grows s leaf with same | ⟨p, label, operand⟩
    · exact ⟨a, by simp [Tree.labels], same ▸ read⟩
    · exact ⟨p, inside p label, by simpa [Inst.reads] using operand⟩
  intro s member
  rcases List.mem_append.mp member with inLeft | inRight
  · exact source left _ lower operands.1 (fun p label => by simp [Tree.labels, label]) s inLeft
  · exact source right _ upper operands.2 (fun p label => by simp [Tree.labels, label]) s inRight

theorem find_from_inner (f : Func) (absorbed : List Value) (entries : List (Site × Arith)) :
    (f.facts.findFrom f absorbed entries).Pairwise fun x y => y.dest ∉ interior x.tree := by
  induction entries generalizing absorbed with
  | nil => exact List.Pairwise.nil
  | cons entry rest ih =>
      obtain ⟨site, a⟩ := entry
      by_cases roots : a.dest ∉ absorbed ∧ f.facts.live.has a.dest = true ∧ a.regroupable = true
      · rw [Facts.findFrom, if_pos roots]
        refine List.pairwise_cons.mpr ⟨fun y later => ?_, ih _⟩
        obtain ⟨place, b, _, fresh, _, _, rfl⟩ := find_from_mem f _ rest y later
        exact fun inner => fresh (List.mem_append_left _ inner)
      · rw [Facts.findFrom, if_neg roots]
        exact ih absorbed

-- Of two chains the one at the later root is found first, and what it absorbs is no root.
theorem found_in_turn (f : Func) (x y : Found) (inX : x ∈ f.facts.findAll f) (inY : y ∈ f.facts.findAll f) :
    x = y ∨ (y.dest ∉ interior x.tree ∧ y.chain.root.Earlier x.chain.root) ∨
      (x.dest ∉ interior y.tree ∧ x.chain.root.Earlier y.chain.root) := by
  have inner := List.pairwise_iff_getElem.mp (find_from_inner f [] f.ariths.reverse)
  have order := List.pairwise_iff_getElem.mp (List.pairwise_map.mp (find_all_roots f))
  obtain ⟨i, insideX, rfl⟩ := List.mem_iff_getElem.mp inX
  obtain ⟨j, insideY, rfl⟩ := List.mem_iff_getElem.mp inY
  rcases Nat.lt_trichotomy i j with before | same | after
  · exact Or.inr (Or.inl ⟨inner i j insideX insideY before, order i j insideX insideY before⟩)
  · subst same
    exact Or.inl rfl
  · exact Or.inr (Or.inr ⟨inner j i insideY insideX after, order j i insideY insideX after⟩)

section Found

variable (f : Func) (unique : f.defs.Nodup) (orderly : f.Orderly) (site place : Site) (a b : Arith)
  (storedA : f.inst? site = some (.arith a)) (storedB : f.inst? place = some (.arith b))
  (foundA : f.foundAt site a ∈ f.facts.findAll f) (foundB : f.foundAt place b ∈ f.facts.findAll f)
include unique orderly storedA storedB foundA foundB

theorem found_root_not_inner : b ∉ (f.facts.rootTree f a).labels.tail := by
  intro inner
  have grown := root_tree_grown f a
  obtain ⟨spot, there, earlier⟩ := root_inner_earlier f orderly site a storedA _ grown b inner
  rw [(defines_unique f unique b.dest spot place _ _ ⟨there, rfl⟩ ⟨storedB, rfl⟩).1] at earlier
  rcases found_in_turn f _ _ foundA foundB with same | ⟨outside, _⟩ | ⟨_, later⟩
  · have equal : site = place := congrArg (·.chain.root) same
    rw [equal] at earlier
    exact earlier_irrefl place earlier
  · exact outside (List.mem_map_of_mem inner)
  · exact earlier_irrefl site (earlier_trans site place site later earlier)

theorem found_labels_apart (different : site ≠ place) :
    ∀ c ∈ (f.facts.rootTree f a).labels, c ∉ (f.facts.rootTree f b).labels := by
  have grownB := root_tree_grown f b
  have rootB : a ∉ (f.facts.rootTree f b).labels := by
    intro inside
    have split : a = b ∨ a ∈ (f.facts.rootTree f b).labels.tail := List.mem_cons.mp inside
    rcases split with rfl | inner
    · exact different (defines_unique f unique a.dest site place _ _ ⟨storedA, rfl⟩ ⟨storedB, rfl⟩).1
    · exact found_root_not_inner f unique orderly place site b a storedB storedA foundB foundA inner
  have innerB := found_root_not_inner f unique orderly site place a b storedA storedB foundA foundB
  have storedIn := root_labels_stored f place b storedB _ grownB
  have operands := arith_reads a
  -- below its root the tree of `b` holds the readers of its operations, and it does not read the top of a part
  have apart (part : Tree Arith Scalar) (top : Scalar) (grows : f.Grown a.op part top)
      (operand : top ∈ (Inst.arith a).reads) (inside : ∀ c ∈ part.labels, c ∈ (f.facts.rootTree f a).labels.tail) :
      ∀ c ∈ part.labels, c ∉ (f.facts.rootTree f b).labels := by
    refine grown_apart f a.op part top grows (· ∈ (f.facts.rootTree f b).labels) storedIn (fun c inPart inB => ?_) ?_
    · have split : c = b ∨ c ∈ (f.facts.rootTree f b).labels.tail := List.mem_cons.mp inB
      rcases split with rfl | inner
      · exact absurd (inside c inPart) innerB
      · exact root_parent f b _ grownB c inner
    · intro p inB read
      rcases grown_top f a.op part top grows with leaf | ⟨c, inPart, same⟩
      · rw [leaf]
        rfl
      · obtain ⟨spot, there⟩ := storedIn p inB
        have once := (grown_stored f a.op part top grows c inPart).1
        have equal := (sole_reader f c.dest once site spot _ _ top top storedA there operand read (by rw [same]; rfl)
          (by rw [same]; rfl)).2
        cases equal
        exact absurd inB rootB
  obtain ⟨left, right, whole, lower, upper⟩ := root_tree_grown f a
  rw [whole] at apart ⊢
  intro c member
  simp only [Tree.labels, List.mem_cons, List.mem_append] at member
  rcases member with rfl | inLeft | inRight
  · exact rootB
  · exact apart left _ lower operands.1 (fun c label => List.mem_append_left _ label) c inLeft
  · exact apart right _ upper operands.2 (fun c label => List.mem_append_right _ label) c inRight

theorem found_leaf_not_inner (s : Scalar) (leaf : s ∈ (f.facts.rootTree f a).leaves) (c : Arith)
    (inner : c ∈ (f.facts.rootTree f b).labels.tail) : s.value ≠ c.dest := by
  by_cases same : site = place
  · subst same
    rw [storedA] at storedB
    cases storedB
    exact root_leaf_not_inner f unique orderly site a storedA _ (root_tree_grown f a) s leaf c inner
  · intro value
    obtain ⟨p, inA, read⟩ := root_leaf_reader f a _ (root_tree_grown f a) s leaf
    obtain ⟨spot, there⟩ := root_labels_stored f site a storedA _ (root_tree_grown f a) p inA
    obtain ⟨q, inB, equal⟩ :=
      root_inner_reader f place b storedB _ (root_tree_grown f b) c inner spot _ s there read value
    cases equal
    exact found_labels_apart f unique orderly site place a b storedA storedB foundA foundB same p inA inB

end Found

end Regroup
