import Mathlib
import Regroup.Proofs.Growth
import Regroup.Proofs.Saturation

set_option autoImplicit false

namespace Regroup

inductive GrowthFault where
  | noSite (site : Site)
  | noMark (v : Value)
  | overfull (c : Chain)
deriving DecidableEq, Repr

structure Growth where
  chain : Chain
  waiting : List Scalar
  marks : Marks
deriving DecidableEq, Repr

def Chain.bare (root : Site) (op : Op) : Chain := ⟨root, op, [], false, 0, ⟨false, false⟩⟩

def Chain.restrict (c : Chain) (a : Arith) : Chain :=
  { c with exact := c.exact || a.exact, fastMath := c.fastMath ||| a.fastMath }

def Facts.inspect (facts : Facts) (f : Func) (op : Op) (s : Scalar) : Except GrowthFault (Option Arith) :=
  if s.comp = 0 ∧ facts.reads[s.value]? = some 1 then
    match facts.site? s.value with
    | none => .ok none
    | some site =>
        match f.inst? site with
        | none => .error (.noSite site)
        | some i => .ok (i.arith?.filter fun a => a.op = op ∧ a.regroupable)
  else .ok none

def Growth.keep (g : Growth) (s : Scalar) (rest : List Scalar) : Except GrowthFault Growth :=
  if g.chain.length < chainCapacity then
    .ok { g with chain := { g.chain with leaves := g.chain.leaves ++ [s] }, waiting := rest }
  else .error (.overfull g.chain)

def Growth.opened (g : Growth) (v : Value) (a : Arith) (rest : List Scalar) : Growth :=
  ⟨g.chain.restrict a, a.lhs :: a.rhs :: rest, g.marks.add v⟩

def Growth.absorb (g : Growth) (s : Scalar) (a : Arith) (rest : List Scalar) : Except GrowthFault Growth :=
  if s.value < g.marks.size then .ok (g.opened s.value a rest) else .error (.noMark s.value)

-- Serves the first operand that waits. Absorbing takes two places in the chain, besides one for each of the others.
def Growth.step (facts : Facts) (f : Func) (g : Growth) : Except GrowthFault Growth :=
  match g.waiting with
  | [] => .ok g
  | s :: rest =>
      match facts.inspect f g.chain.op s with
      | .error fault => .error fault
      | .ok none => g.keep s rest
      | .ok (some a) => if g.chain.length + rest.length + 2 ≤ chainCapacity then g.absorb s a rest else g.keep s rest

def Growth.run (facts : Facts) (f : Func) : Nat → Growth → Except GrowthFault Growth
  | 0, g => .ok g
  | steps + 1, g =>
      match g.step facts f with
      | .error fault => .error fault
      | .ok next => Growth.run facts f steps next

def Growth.start (root : Site) (a : Arith) (marks : Marks) : Growth :=
  ⟨(Chain.bare root a.op).restrict a, [a.lhs, a.rhs], marks⟩

-- What serving an operand to the end makes of a growth, if `t` is the operand's tree.
def Growth.after (g : Growth) (t : Tree Arith Scalar) (rest : List Scalar) : Growth where
  chain := { g.chain with
    leaves := g.chain.leaves ++ t.leaves
    exact := g.chain.exact || t.labels.any Arith.exact
    fastMath := t.labels.foldl (fun bits a => bits ||| a.fastMath) g.chain.fastMath }
  waiting := rest
  marks := (t.labels.map Arith.dest).foldl Marks.add g.marks

section Run

variable (facts : Facts) (f : Func)

theorem growth_run_add (first second : Nat) (g next : Growth) (done : g.run facts f first = .ok next) :
    g.run facts f (first + second) = next.run facts f second := by
  induction first generalizing g with
  | zero =>
      cases done
      rw [Nat.zero_add]
  | succ first ih =>
      rw [Nat.add_right_comm]
      cases stepped : g.step facts f with
      | error fault =>
          rw [Growth.run, stepped] at done
          cases done
      | ok middle =>
          simp only [Growth.run, stepped] at done ⊢
          exact ih middle done

theorem growth_run_finished (steps : Nat) (g : Growth) (finished : g.waiting = []) : g.run facts f steps = .ok g := by
  induction steps with
  | zero => rfl
  | succ steps ih =>
      have idle : g.step facts f = .ok g := by simp [Growth.step, finished]
      simp only [Growth.run, idle]
      exact ih

theorem growth_run_one (g next : Growth) (stepped : g.step facts f = .ok next) : g.run facts f 1 = .ok next := by
  simp [Growth.run, stepped]

end Run

-- The tables of a function lead only to positions that it has.
theorem inspect_facts (f : Func) (op : Op) (s : Scalar) :
    f.facts.inspect f op s = .ok ((f.facts.absorbable? f op s).map Prod.snd) := by
  by_cases single : s.comp = 0 ∧ f.facts.reads[s.value]? = some 1
  · rw [Facts.inspect, Facts.absorbable?, if_pos single, if_pos single, facts_site]
    cases definition : f.definition? s.value with
    | none => simp [Func.site?, definition]
    | some entry =>
        obtain ⟨site, i⟩ := entry
        have stored := (definition_defines f s.value site i definition).2.1
        cases operation : i.arith? with
        | none => simp [Func.site?, definition, stored, Func.arith?, operation]
        | some a =>
            by_cases fits : a.op = op ∧ a.regroupable = true
            · simp [Func.site?, definition, stored, Func.arith?, operation, fits]
            · simp only [Func.site?, definition, stored, Func.arith?, operation, Option.map_some, Option.bind_some,
                Option.filter_some, decide_eq_true_eq, if_neg fits, Option.map_none]
  · simp [Facts.inspect, Facts.absorbable?, single]

section Steps

variable (f : Func) (g : Growth) (s : Scalar) (rest : List Scalar) (waits : g.waiting = s :: rest)
  (room : g.chain.length + rest.length < chainCapacity)
include waits room

theorem growth_keeps (barred : ∀ site a, f.facts.absorbable? f g.chain.op s = some (site, a) →
      ¬ g.chain.length + rest.length + 2 ≤ chainCapacity) :
    g.step f.facts f = .ok (g.after (.leaf s) rest) := by
  have kept : g.keep s rest = .ok (g.after (.leaf s) rest) := by
    have space : g.chain.length < chainCapacity := by omega
    simp [Growth.keep, space, Growth.after, Tree.leaves, Tree.labels]
  cases found : f.facts.absorbable? f g.chain.op s with
  | none => simp only [Growth.step, waits, inspect_facts, found, Option.map_none, kept]
  | some entry =>
      obtain ⟨site, a⟩ := entry
      simp only [Growth.step, waits, inspect_facts, found, Option.map_some, if_neg (barred site a found), kept]

omit room in
theorem growth_absorbs (sized : g.marks.size = f.next) (site : Site) (a : Arith)
    (found : f.facts.absorbable? f g.chain.op s = some (site, a))
    (roomy : g.chain.length + rest.length + 2 ≤ chainCapacity) :
    g.step f.facts f = .ok (g.opened a.dest a rest) := by
  have known := (absorbable_iff f _ s site a).mp found
  have inside : s.value < g.marks.size := by
    rw [known.1, sized]
    exact (definition_defines f a.dest site _ known.2.2.1).1
  have same : s.value = a.dest := by
    rw [known.1]
    rfl
  simp only [Growth.step, waits, inspect_facts, found, Option.map_some, if_pos roomy, Growth.absorb, if_pos inside]
  rw [same]

end Steps

theorem marks_add_size (marks : Marks) (v : Value) : (marks.add v).size = marks.size := Array.size_setIfInBounds

theorem marks_add_all_size (marks : Marks) (vs : List Value) : (vs.foldl Marks.add marks).size = marks.size := by
  induction vs generalizing marks with
  | nil => rfl
  | cons v rest ih => rw [List.foldl_cons, ih, marks_add_size]

theorem growth_after_node (g : Growth) (a : Arith) (left right : Tree Arith Scalar) (rest : List Scalar) :
    ((g.opened a.dest a rest).after left (a.rhs :: rest)).after right rest = g.after (.node a left right) rest := by
  simp [Growth.after, Growth.opened, Chain.restrict, Tree.leaves, Tree.labels, Bool.or_assoc, List.append_assoc]

-- Serving the first operand takes a step for each node and each leaf of its tree. The room of the tree is what the
-- leaves so far and the other operands leave of the capacity.
theorem growth_serves (f : Func) (op : Op) (room : Nat) (s : Scalar) (g : Growth) (rest : List Scalar)
    (waits : g.waiting = s :: rest) (sameOp : g.chain.op = op) (sized : g.marks.size = f.next)
    (space : g.chain.length + rest.length + room = chainCapacity) (someRoom : 1 ≤ room) :
    g.run f.facts f ((f.facts.operandTree f op room s).nodeCount + (f.facts.operandTree f op room s).leafCount) =
      .ok (g.after (f.facts.operandTree f op room s) rest) := by
  -- along the growth of the tree: the left operand is served while the right one waits
  fun_induction Facts.operandTree f.facts f op room s generalizing g rest with
  | case1 room s absent =>
      refine growth_run_one f.facts f g _ (growth_keeps f g s rest waits (by omega) fun site a found => ?_)
      rw [sameOp, absent] at found
      cases found
  | case2 room s site a found roomy left lower upper =>
      have absorbed := growth_absorbs f g s rest waits sized site a (sameOp ▸ found) (by omega)
      have leftFits : left.leafCount ≤ room - 1 := operand_tree_fits f.facts f op (room - 1) a.lhs (by omega)
      have openSized : (g.opened a.dest a rest).marks.size = f.next := (marks_add_size _ _).trans sized
      have openSpace : (g.opened a.dest a rest).chain.length + (a.rhs :: rest).length + (room - 1) = chainCapacity := by
        simp only [Growth.opened, Chain.restrict, Chain.length, List.length_cons] at space ⊢
        omega
      have first : (g.opened a.dest a rest).run f.facts f (left.nodeCount + left.leafCount) =
          .ok ((g.opened a.dest a rest).after left (a.rhs :: rest)) :=
        lower (g.opened a.dest a rest) (a.rhs :: rest) rfl sameOp openSized openSpace (by omega)
      have halfSized : ((g.opened a.dest a rest).after left (a.rhs :: rest)).marks.size = f.next :=
        (marks_add_all_size _ _).trans openSized
      have halfSpace : ((g.opened a.dest a rest).after left (a.rhs :: rest)).chain.length + rest.length +
          (room - left.leafCount) = chainCapacity := by
        simp only [Growth.after, Growth.opened, Chain.restrict, Chain.length, List.length_append, tree_leaves_length] at space ⊢
        omega
      have second := upper ((g.opened a.dest a rest).after left (a.rhs :: rest)) rest rfl sameOp halfSized halfSpace (by omega)
      rw [growth_after_node] at second
      rw [← second, ← growth_run_add f.facts f _ _ _ _ first,
        ← growth_run_add f.facts f 1 _ g _ (growth_run_one f.facts f g _ absorbed)]
      congr 1
      simp only [Tree.nodeCount, Tree.leafCount]
      omega
  | case3 room s site a found cramped =>
      exact growth_run_one f.facts f g _ (growth_keeps f g s rest waits (by omega) fun _ _ _ => by omega)

theorem growth_completes (f : Func) (root : Site) (a : Arith) (marks : Marks) (sized : marks.size = f.next)
    (t : Tree Arith Scalar) (tree : f.facts.rootTree f a = t) :
    (Growth.start root a marks).run f.facts f (t.nodeCount + t.leafCount - 1) =
      .ok ⟨Chain.ofTree root a.op t, [], (interior t).foldl Marks.add marks⟩ := by
  obtain ⟨left, leftTree⟩ : ∃ left, f.facts.operandTree f a.op (chainCapacity - 1) a.lhs = left := ⟨_, rfl⟩
  obtain ⟨right, rightTree⟩ : ∃ right, f.facts.operandTree f a.op (chainCapacity - left.leafCount) a.rhs = right :=
    ⟨_, rfl⟩
  have whole : t = .node a left right := by rw [← tree, Facts.rootTree, leftTree, rightTree]
  have leftFits := operand_tree_fits f.facts f a.op (chainCapacity - 1) a.lhs (by decide)
  rw [leftTree] at leftFits
  have capacity : chainCapacity = 16 := rfl
  have first := growth_serves f a.op (chainCapacity - 1) a.lhs (Growth.start root a marks) [a.rhs] rfl rfl sized rfl
    (by decide)
  rw [leftTree] at first
  have second := growth_serves f a.op (chainCapacity - left.leafCount) a.rhs
    ((Growth.start root a marks).after left [a.rhs]) [] rfl rfl ((marks_add_all_size _ _).trans sized)
    (by
      simp only [Growth.after, Growth.start, Chain.restrict, Chain.bare, Chain.length, List.nil_append, tree_leaves_length,
        List.length_nil]
      omega)
    (by omega)
  rw [rightTree] at second
  have joined := (growth_run_add f.facts f _ _ _ _ first).trans second
  have steps : t.nodeCount + t.leafCount - 1 = left.nodeCount + left.leafCount + (right.nodeCount + right.leafCount) := by
    simp only [whole, Tree.nodeCount, Tree.leafCount]
    omega
  have ended : ((Growth.start root a marks).after left [a.rhs]).after right [] =
      ⟨Chain.ofTree root a.op t, [], (interior t).foldl Marks.add marks⟩ := by
    simp [whole, Growth.after, Growth.start, Chain.restrict, Chain.bare, Chain.ofTree, interior, Tree.leaves, Tree.labels,
      Bool.or_assoc]
  rw [steps, joined, ended]

-- No property of the function is assumed: operations may even read each other in a circle.
theorem chain_growth_ends (f : Func) (root : Site) (a : Arith) (marks : Marks) (stored : f.arith? root = some a)
    (sized : marks.size = f.next) :
    ∃ t, f.treeAt f.facts root = .ok (some t) ∧
      (∀ steps, 2 * chainCapacity - 2 ≤ steps → (Growth.start root a marks).run f.facts f steps =
        .ok ⟨Chain.ofTree root a.op t, [], (interior t).foldl Marks.add marks⟩) ∧
      2 ≤ (Chain.ofTree root a.op t).length ∧ (Chain.ofTree root a.op t).length ≤ chainCapacity ∧
      ((Chain.ofTree root a.op t).length < chainCapacity →
        ∀ s ∈ (Chain.ofTree root a.op t).leaves, f.facts.absorbable? f a.op s = none) := by
  have size : (Chain.ofTree root a.op (f.facts.rootTree f a)).length = (f.facts.rootTree f a).leafCount :=
    tree_leaves_length _
  have nodes := tree_leaf_count (f.facts.rootTree f a)
  have rootNode : 1 ≤ (f.facts.rootTree f a).nodeCount := Nat.le_add_left 1 _
  have fits := root_tree_fits f.facts f a
  refine ⟨f.facts.rootTree f a, ?_, ?_, by omega, by omega, ?_⟩
  · rw [Func.treeAt, (func_arith_iff f root a).mp stored]
    rfl
  · intro steps enough
    obtain ⟨more, total⟩ := Nat.exists_eq_add_of_le
      (show (f.facts.rootTree f a).nodeCount + (f.facts.rootTree f a).leafCount - 1 ≤ steps by omega)
    rw [total, growth_run_add f.facts f _ more _ _ (growth_completes f root a marks sized _ rfl)]
    exact growth_run_finished f.facts f more _ rfl
  · intro short
    exact short_leaves_barred f.facts f a (size ▸ short)

def selfSum : Func where
  name := "self"
  blocks := [⟨0, [.const 0 [.int 1], .arith (Arith.plain 0 .iadd (.of 0) (.of 9))], .ret none⟩]
  next := 2
  divergence := none

theorem self_sum_growth_ends : selfSum.check = .error (.duplicate 0) ∧
    ∃ t, selfSum.treeAt selfSum.facts ⟨0, 1⟩ = .ok (some t) ∧ t.leaves = .of 0 :: List.replicate 15 (.of 9) ∧
      ∀ steps, 30 ≤ steps →
        (Growth.start ⟨0, 1⟩ (Arith.plain 0 .iadd (.of 0) (.of 9)) (.none 2)).run selfSum.facts selfSum steps =
          .ok ⟨Chain.ofTree ⟨0, 1⟩ .iadd t, [], (interior t).foldl Marks.add (.none 2)⟩ := by
  obtain ⟨t, tree, ends, _⟩ := chain_growth_ends selfSum ⟨0, 1⟩ (Arith.plain 0 .iadd (.of 0) (.of 9)) (.none 2)
    (by decide +kernel) (none_size 2)
  have leaves : ((selfSum.treeAt selfSum.facts ⟨0, 1⟩).toOption.join.map Tree.leaves) =
      some (.of 0 :: List.replicate 15 (.of 9)) := by decide +kernel
  rw [tree] at leaves
  exact ⟨by decide +kernel, t, tree, Option.some.inj leaves, ends⟩

end Regroup
