import Mathlib
import Regroup.Proofs.Rebuilding

set_option autoImplicit false

namespace Regroup

def Attempt.enqueue (a : Attempt) (pending : List Patch) : List Patch := pending ++ a.patch?.toList

-- One by one, the patches come to wait as the pass has them wait.
theorem enqueue_all (attempts : List Attempt) (pending : List Patch) :
    attempts.foldl (fun waiting a => a.enqueue waiting) pending = pending ++ attempts.filterMap Attempt.patch? := by
  induction attempts generalizing pending with
  | nil => simp
  | cons a rest ih =>
      rw [List.foldl_cons, ih, Attempt.enqueue]
      cases patch : a.patch? <;> simp [patch]

-- The attempt has spent numbers at most, and those only on a root that is no operation.
structure LeftAsIs (f g : Func) (c : Chain) (root : Inst) : Prop where
  func : g = { f with next := g.next }
  next : g.next = f.next ∨ root.arith? = none ∧ g.next = f.next + (c.length - 2)

-- The root looks the same only if it has been reading a number that is not given out before now.
structure RootReplaced (f g : Func) (c : Chain) (old new : Arith) (insts : List Inst) : Prop where
  func : g = { f with next := f.next + (c.length - 2) }.setInst c.root (.arith new)
  dest : new.dest = old.dest
  op : new.op = old.op
  width : new.width = old.width
  operands : ∀ s ∈ [new.lhs, new.rhs], s ∈ c.leaves ∨ ∃ m < c.length - 2, s = .of (f.next + m)
  dests : insts.map Inst.dest? = (List.range' f.next (c.length - 2)).map some
  reads : ∀ k i, insts[k]? = some i → ∀ s ∈ i.reads, s ∈ c.leaves ∨ ∃ m < k, s = .of (f.next + m)
  differs : new = old → ∃ s ∈ [old.lhs, old.rhs], ∃ m < c.length - 2, s = .of (f.next + m)

theorem set_inst_same (f : Func) (site : Site) (i : Inst) (stored : f.inst? site = some i) : f.setInst site i = f := by
  obtain ⟨b, inBlock, found⟩ := Option.bind_eq_some_iff.mp stored
  obtain ⟨inside, here⟩ := List.getElem?_eq_some_iff.mp found
  have kept : { b with insts := b.insts.set site.inst i } = b := by rw [← here, List.set_getElem_self]
  have blocks : (f.blocks.modify site.block fun b => { b with insts := b.insts.set site.inst i }) = f.blocks := by
    apply List.ext_getElem?
    intro index
    rw [List.getElem?_modify]
    by_cases same : site.block = index
    · rw [← same, inBlock]
      simp [kept]
    · simp [same]
  rw [Func.setInst, blocks]

-- No edit gets half way: an instruction whose operands can be overwritten has flags as well.
theorem overwrite_other (i : Inst) (lhs rhs : Scalar) (exact : Bool) (fastMath : FastMath) (other : i.arith? = none) :
    i.overwrite lhs rhs exact fastMath = (i, some ⟨i.dest?⟩) := by
  simp [Inst.overwrite, Inst.withOperands, other]

theorem unchanged_enqueue (a : Attempt) (pending : List Patch) (unchanged : a.changed = false) :
    a.enqueue pending = pending := by
  cases verdict : a.verdict with
  | rebuilt insts => simp [Attempt.changed, verdict] at unchanged
  | leftAlone => simp [Attempt.enqueue, Attempt.patch?, verdict]
  | inOrder => simp [Attempt.enqueue, Attempt.patch?, verdict]
  | noOperation e => simp [Attempt.enqueue, Attempt.patch?, verdict]

theorem rebuild_other (f : Func) (facts : Facts) (table : Option PairTable) (c : Chain) (root : Inst)
    (long : 2 ≤ c.length) (inside : f.inst? c.root = some root) (other : root.arith? = none) :
    (f.rebuild facts table c = .error .idsExhausted ∧ idLimit + 2 ≤ f.next + c.length) ∨
    ∃ (g : Func) (a : Attempt), f.rebuild facts table c = .ok (g, a) ∧ a.changed = false ∧ LeftAsIs f g c root := by
  cases arranged : c.arrange? facts table with
  | none => exact Or.inr ⟨f, _, rebuild_unarranged f facts table c arranged, rfl, rfl, Or.inl rfl⟩
  | some arrangement =>
      obtain ⟨grouping, made, count⟩ := arrangement_grouping facts table c long arrangement arranged
      have strange : ¬ grouping.followedBy facts f c.op root = true := by simp [Grouping.followedBy, other]
      have done := rebuild_arranged f facts table c long arrangement grouping arranged made
      rw [carry_out_applied f facts { c with leaves := arrangement.leaves } grouping root inside strange, Grouping.apply] at done
      by_cases exhausted : idLimit ≤ f.next + grouping.nodeCount
      · rw [if_pos exhausted] at done
        exact Or.inl ⟨done, by omega⟩
      · rw [if_neg exhausted, overwrite_other _ _ _ _ _ other] at done
        have kept := set_inst_same { f with next := f.next + grouping.nodeCount } c.root root inside
        have spent : grouping.nodeCount = c.length - 2 := by omega
        exact Or.inr ⟨_, _, done, rfl, by simp only [kept], Or.inr ⟨other, congrArg (f.next + ·) spent⟩⟩

theorem code_dests (g : Grouping) (c : Chain) (base : Nat) :
    (g.code c base).map Inst.dest? = (List.range' base g.nodeCount).map some := by
  apply List.ext_getElem?
  intro k
  rw [List.getElem?_map, List.getElem?_map]
  cases found : (g.code c base)[k]? with
  | none =>
      have outside := List.getElem?_eq_none_iff.mp found
      rw [grouping_code_length] at outside
      rw [List.getElem?_eq_none (by simpa using outside)]
      rfl
  | some i =>
      have inside := (List.getElem?_eq_some_iff.mp found).1
      rw [grouping_code_length] at inside
      obtain ⟨lhs, rhs, rfl, _, _⟩ := grouping_code_at g c base k i found
      rw [List.getElem?_range' inside, Nat.one_mul]
      rfl

theorem grouping_fresh_operand (g : Grouping) (base : Nat) (some_node : 0 < g.nodeCount) :
    ∃ s ∈ [g.lhs base, g.rhs base], ∃ m < g.nodeCount, s = .of (base + m) := by
  obtain ⟨last, rest⟩ := g
  cases last with
  | node label left right =>
      refine ⟨_, List.mem_cons_self, rest.nodeCount + left.nodeCount + right.nodeCount, ?_, ?_⟩
      · simp only [Grouping.nodeCount, Tree.nodeCount]
        omega
      · rw [Grouping.lhs, Shape.result, Nat.add_assoc, Nat.add_assoc, Nat.add_assoc]
  | leaf s =>
      cases rest with
      | node label left right =>
          refine ⟨_, List.mem_cons_of_mem _ List.mem_cons_self, left.nodeCount + right.nodeCount, ?_, ?_⟩
          · simp only [Grouping.nodeCount, Tree.nodeCount]
            omega
          · rw [Grouping.rhs, Shape.result, Nat.add_assoc]
      | leaf t => simp [Grouping.nodeCount, Tree.nodeCount] at some_node

theorem bare_grouping_followed (g : Grouping) (facts : Facts) (f : Func) (op : Op) (base : Nat) (a : Arith)
    (bare : g.nodeCount = 0) (lhs : a.lhs = g.lhs base) (rhs : a.rhs = g.rhs base) :
    g.followedBy facts f op (.arith a) = true := by
  obtain ⟨last, rest⟩ := g
  cases last with
  | node label left right => simp [Grouping.nodeCount, Tree.nodeCount] at bare
  | leaf s =>
      cases rest with
      | node label left right => simp [Grouping.nodeCount, Tree.nodeCount] at bare
      | leaf t => simp [Grouping.followedBy, Inst.arith?, Facts.computes, lhs, rhs, Grouping.lhs, Grouping.rhs, Shape.result]

theorem changed_moved (f g : Func) (facts : Facts) (table : Option PairTable) (c : Chain) (a : Attempt)
    (done : f.rebuild facts table c = .ok (g, a)) (changed : a.changed = true) : ¬ c.Stays facts table f := by
  intro stays
  obtain ⟨other, returned, unchanged⟩ := rebuild_stays f facts table c stays
  have same : a = other := congrArg Prod.snd (Except.ok.inj (done.symm.trans returned))
  rw [← same, changed] at unchanged
  cases unchanged

theorem rebuilt_differs (f : Func) (facts : Facts) (table : Option PairTable) (c : Chain) (r : Rebuilt)
    (fits : r.Fits f facts table c) (moved : ¬ c.Stays facts table f) (same : r.arith = r.old) :
    ∃ s ∈ [r.old.lhs, r.old.rhs], ∃ m < r.grouping.nodeCount, s = .of (r.base + m) := by
  have lhs : r.old.lhs = r.grouping.lhs r.base := (congrArg Arith.lhs same).symm
  have rhs : r.old.rhs = r.grouping.rhs r.base := (congrArg Arith.rhs same).symm
  by_cases bare : r.grouping.nodeCount = 0
  · apply absurd _ moved
    intro arrangement arranged
    obtain ⟨other, found, _, made⟩ := fits.arranged
    cases found.symm.trans arranged
    exact ⟨r.grouping, .arith r.old, made, fits.stored,
      bare_grouping_followed r.grouping facts f c.op r.base r.old bare lhs rhs⟩
  · rw [lhs, rhs]
    exact grouping_fresh_operand r.grouping r.base (Nat.pos_of_ne_zero bare)

theorem rebuilt_replaced (f : Func) (facts : Facts) (table : Option PairTable) (c : Chain) (r : Rebuilt)
    (fits : r.Fits f facts table c) (base : r.base = f.next) (moved : ¬ c.Stays facts table f) :
    RootReplaced f ({ f with next := f.next + r.grouping.nodeCount }.setInst c.root (.arith r.arith)) c r.old r.arith
      r.code := by
  have count : r.grouping.nodeCount = c.length - 2 := by
    have more := fits_node_count r f facts table c fits
    omega
  obtain ⟨_, leaves, perm⟩ := fits_chain r f facts table c fits
  have drawn (bound : Nat) (s : Scalar) (source : Drawn r.grouping.leaves r.base bound s) :
      s ∈ c.leaves ∨ ∃ m < bound, s = .of (f.next + m) := by
    rw [leaves, base] at source
    exact source.imp perm.mem_iff.mp id
  refine ⟨by rw [count], rfl, rfl, rfl, ?_, ?_, ?_, ?_⟩
  · intro s member
    rw [← count]
    rcases List.mem_cons.mp member with rfl | last
    · exact drawn _ _ (grouping_lhs_drawn r.grouping r.base)
    · rw [List.mem_singleton.mp last]
      exact drawn _ _ (grouping_rhs_drawn r.grouping r.base)
  · rw [← count, ← base]
    exact code_dests r.grouping r.chain r.base
  · intro k i stored s read
    obtain ⟨lhs, rhs, rfl, fromL, fromR⟩ := grouping_code_at r.grouping r.chain r.base k i stored
    rw [step_reads, List.mem_cons, List.mem_singleton] at read
    rcases read with rfl | rfl
    · exact drawn k s fromL
    · exact drawn k s fromR
  · rw [← count, ← base]
    exact rebuilt_differs f facts table c r fits moved

theorem rebuilt_enqueue (a : Attempt) (insts : List Inst) (verdict : a.verdict = .rebuilt insts) (pending : List Patch) :
    a.enqueue pending = if 0 < insts.length then pending ++ [⟨a.chain.root, insts⟩] else pending := by
  cases insts with
  | nil => simp [Attempt.enqueue, Attempt.patch?, verdict]
  | cons i rest => simp [Attempt.enqueue, Attempt.patch?, verdict]

-- The table need not belong to the function, and its root may be any instruction.
theorem rebuild_all_or_nothing (f : Func) (table : Option PairTable) (c : Chain) (root : Inst)
    (pending : List Patch) (inside : f.inst? c.root = some root) :
    (f.rebuild f.facts table c = .error .idsExhausted ∧ idLimit + 2 ≤ f.next + c.length) ∨
    ∃ (g : Func) (a : Attempt), f.rebuild f.facts table c = .ok (g, a) ∧
      ((a.changed = false ∧ LeftAsIs f g c root ∧ a.enqueue pending = pending) ∨
        (a.changed = true ∧ ∃ old new insts, root = .arith old ∧ RootReplaced f g c old new insts ∧
          a.enqueue pending = if 3 ≤ c.length then pending ++ [⟨c.root, insts⟩] else pending)) := by
  by_cases short : c.length < 2
  · exact Or.inr ⟨f, _, rebuild_short f f.facts table c short,
      Or.inl ⟨rfl, ⟨rfl, Or.inl rfl⟩, unchanged_enqueue _ pending rfl⟩⟩
  have long : 2 ≤ c.length := Nat.not_lt.mp short
  cases operation : root.arith? with
  | none =>
      rcases rebuild_other f f.facts table c root long inside operation with exhausted | ⟨g, a, done, unchanged, asIs⟩
      · exact Or.inl exhausted
      · exact Or.inr ⟨g, a, done, Or.inl ⟨unchanged, asIs, unchanged_enqueue a pending unchanged⟩⟩
  | some old =>
      have stored : f.inst? c.root = some (.arith old) := by rw [inside, (arith_of_inst root old).mp operation]
      rcases rebuild_cases f f.facts table c old long stored with
        exhausted | ⟨a, done, unchanged, _⟩ | ⟨r, a, fits, base, chain, verdict, done⟩
      · exact Or.inl exhausted
      · exact Or.inr ⟨f, a, done, Or.inl ⟨unchanged, ⟨rfl, Or.inl rfl⟩, unchanged_enqueue a pending unchanged⟩⟩
      · have changed : a.changed = true := (changed_iff a).mpr ⟨_, verdict⟩
        have same : root = .arith r.old := Option.some.inj (inside.symm.trans fits.stored)
        have place : a.chain.root = c.root := chain ▸ fits_site r f f.facts table c fits
        have count : r.code.length = c.length - 2 := by
          have more := fits_node_count r f f.facts table c fits
          rw [Rebuilt.code, grouping_code_length]
          omega
        have waits := rebuilt_enqueue a r.code verdict pending
        rw [place, count] at waits
        refine Or.inr ⟨_, a, done, Or.inr ⟨changed, r.old, r.arith, r.code, same,
          rebuilt_replaced f f.facts table c r fits base (changed_moved f _ f.facts table c a done changed), waits.trans ?_⟩⟩
        congr 1
        exact propext (by omega)

def threeSum : Func where
  name := "three"
  blocks :=
    [⟨0, [.input 0 0 1 false, .input 1 1 1 false, .const 2 [.int 5], .arith (Arith.plain 3 .iadd (.of 0) (.of 1)),
      .arith (Arith.plain 4 .iadd (.of 3) (.of 2))], .ret (some (.of 4))⟩]
  next := 5
  divergence := none

def threeChain (root : Site) : Chain := ⟨root, .iadd, [.of 0, .of 1, .of 2], false, 0, ⟨false, true⟩⟩

theorem three_sum_whole :
    (threeSum.inst? ⟨0, 4⟩ = some (.arith (Arith.plain 4 .iadd (.of 3) (.of 2))) ∧
      ∃ g a new insts, threeSum.rebuild threeSum.facts none (threeChain ⟨0, 4⟩) = .ok (g, a) ∧ a.changed = true ∧
        g = { threeSum with next := 6 }.setInst ⟨0, 4⟩ (.arith new) ∧ new ≠ Arith.plain 4 .iadd (.of 3) (.of 2) ∧
        insts.map Inst.dest? = [some 5] ∧ a.enqueue [⟨⟨0, 0⟩, []⟩] = [⟨⟨0, 0⟩, []⟩, ⟨⟨0, 4⟩, insts⟩]) ∧
    (threeSum.inst? ⟨0, 0⟩ = some (.input 0 0 1 false) ∧
      ∃ g a, threeSum.rebuild threeSum.facts none (threeChain ⟨0, 0⟩) = .ok (g, a) ∧ a.changed = false ∧
        g.blocks = threeSum.blocks ∧ g.next = 6 ∧ a.enqueue [⟨⟨0, 0⟩, []⟩] = [⟨⟨0, 0⟩, []⟩]) := by
  have outcome (root : Site) (verdict : Bool × Nat)
      (evaluated : (threeSum.rebuild threeSum.facts none (threeChain root)).toOption.map
        (fun result => (result.2.changed, result.1.next)) = some verdict) (g : Func) (a : Attempt)
      (done : threeSum.rebuild threeSum.facts none (threeChain root) = .ok (g, a)) :
      a.changed = verdict.1 ∧ g.next = verdict.2 := by
    rw [done] at evaluated
    exact Prod.mk.inj (Option.some.inj evaluated)
  have few : ¬ idLimit + 2 ≤ threeSum.next + 3 := by decide +kernel
  refine ⟨⟨rfl, ?_⟩, ⟨rfl, ?_⟩⟩
  · rcases rebuild_all_or_nothing threeSum none (threeChain ⟨0, 4⟩) _ [⟨⟨0, 0⟩, []⟩] rfl with
      ⟨_, large⟩ | ⟨g, a, done, whole⟩
    · exact absurd large few
    · have rewritten := (outcome ⟨0, 4⟩ (true, 6) (by decide +kernel) g a done).1
      rcases whole with ⟨unchanged, _⟩ | ⟨changed, old, new, insts, same, replaced, waits⟩
      · rw [rewritten] at unchanged
        cases unchanged
      · cases same
        have known : ¬ ∃ s ∈ [Scalar.of 3, Scalar.of 2], ∃ m < 1, s = .of (5 + m) := by decide
        exact ⟨g, a, new, insts, done, changed, replaced.func, mt replaced.differs known, replaced.dests, waits⟩
  · rcases rebuild_all_or_nothing threeSum none (threeChain ⟨0, 0⟩) _ [⟨⟨0, 0⟩, []⟩] rfl with
      ⟨_, large⟩ | ⟨g, a, done, whole⟩
    · exact absurd large few
    · obtain ⟨kept, spent⟩ := outcome ⟨0, 0⟩ (false, 6) (by decide +kernel) g a done
      rcases whole with ⟨unchanged, asIs, waits⟩ | ⟨changed, _⟩
      · exact ⟨g, a, done, unchanged, by rw [asIs.func], spent, waits⟩
      · rw [kept] at changed
        cases changed

-- The root reads the number that its chain gives out next.
def freshReader : Func where
  name := "fresh"
  blocks :=
    [⟨0, [.input 0 0 1 false, .input 1 1 1 false, .const 2 [.int 5], .arith (Arith.plain 3 .iadd (.of 1) (.of 4))],
      .ret (some (.of 3))⟩]
  next := 4
  divergence := none

theorem fresh_reader_looks_same :
    ∃ result, freshReader.rebuild freshReader.facts none (threeChain ⟨0, 3⟩) = .ok result ∧ result.2.changed = true ∧
      result.1.blocks = freshReader.blocks ∧ (result.2.enqueue []).map Patch.site = [⟨0, 3⟩] := by
  have evaluated : (freshReader.rebuild freshReader.facts none (threeChain ⟨0, 3⟩)).toOption.any (fun result => decide (
      result.2.changed = true ∧ result.1.blocks = freshReader.blocks ∧
        (result.2.enqueue []).map Patch.site = [⟨0, 3⟩])) = true := by decide +kernel
  cases done : freshReader.rebuild freshReader.facts none (threeChain ⟨0, 3⟩) with
  | error trap =>
      rw [done] at evaluated
      cases evaluated
  | ok result =>
      rw [done] at evaluated
      exact ⟨result, rfl, of_decide_eq_true evaluated⟩

end Regroup
