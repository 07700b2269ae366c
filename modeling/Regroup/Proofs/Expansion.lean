import Mathlib
import Regroup.Proofs.Recasting
import Regroup.Proofs.Regrouping

set_option autoImplicit false

namespace Regroup

theorem consecutive_bounds (start stop : Nat) (rebuilt : List Rebuilt) (numbered : Consecutive start rebuilt stop) :
    start ≤ stop ∧ ∀ r ∈ rebuilt, start ≤ r.base ∧ r.base + r.grouping.nodeCount ≤ stop := by
  induction rebuilt generalizing start with
  | nil => exact ⟨Nat.le_of_eq numbered.symm, by simp⟩
  | cons r rest ih =>
      obtain ⟨base, later⟩ := numbered
      obtain ⟨whole, each⟩ := ih (start + r.grouping.nodeCount) later
      refine ⟨by omega, List.forall_mem_cons.mpr ⟨by omega, fun q member => ?_⟩⟩
      have bounds := each q member
      omega

theorem consecutive_apart (start stop : Nat) (rebuilt : List Rebuilt) (numbered : Consecutive start rebuilt stop)
    (r q : Rebuilt) (m n : Nat) (inR : r ∈ rebuilt) (inQ : q ∈ rebuilt) (lessM : m < r.grouping.nodeCount)
    (lessN : n < q.grouping.nodeCount) (same : r.base + m = q.base + n) : r = q := by
  induction rebuilt generalizing start with
  | nil => simp at inR
  | cons head rest ih =>
      obtain ⟨base, later⟩ := numbered
      have bounds := (consecutive_bounds _ _ rest later).2
      rcases List.mem_cons.mp inR with rHead | rRest
      · rcases List.mem_cons.mp inQ with qHead | qRest
        · rw [rHead, qHead]
        · have bound := bounds q qRest
          subst rHead
          omega
      · rcases List.mem_cons.mp inQ with qHead | qRest
        · have bound := bounds r rRest
          subst qHead
          omega
        · exact ih (start + head.grouping.nodeCount) later rRest qRest

structure Expansion (h : Func) (rebuilt : List Rebuilt) (stop : Nat) : Prop where
  numbered : Consecutive h.next rebuilt stop
  distinct : (rebuilt.map Rebuilt.site).Nodup
  stored : ∀ r ∈ rebuilt, h.inst? r.site = some (.arith r.old)
  regroupable : ∀ r ∈ rebuilt, r.old.regroupable = true
  chain : ∀ r ∈ rebuilt, r.chain.op = r.old.op ∧ r.grouping.leaves = r.chain.leaves ∧
    r.chain.leaves.Perm (h.facts.rootTree h r.old).leaves

theorem regroups_expansion (h : Func) (table : Option PairTable) (report : Report) (rebuilt : List Rebuilt)
    (regroups : h.Regroups table report rebuilt) : Expansion h rebuilt report.func.next where
  numbered := regroups.numbered
  distinct := (queue_roots_distinct h table).sublist regroups.sites
  stored := by
    intro r member
    obtain ⟨c, _, fits⟩ := regroups.fits r member
    rw [fits_site r h _ _ c fits]
    exact fits.stored
  regroupable := by
    intro r member
    obtain ⟨c, queued, fits⟩ := regroups.fits r member
    obtain ⟨site, a, stored, _, regroupable, _, _, same⟩ := queue_mem h table c queued
    have root : c.root = site := by rw [same]; rfl
    have equal := fits.stored
    rw [root, stored] at equal
    cases equal
    exact regroupable
  chain := by
    intro r member
    obtain ⟨c, queued, fits⟩ := regroups.fits r member
    obtain ⟨site, a, stored, _, regroupable, _, _, same⟩ := queue_mem h table c queued
    have root : c.root = site := by rw [same]; rfl
    have equal := fits.stored
    rw [root, stored] at equal
    cases equal
    have chain := fits_chain r h _ _ c fits
    rw [same] at chain
    exact chain

section Expansion

variable (h : Func) (rebuilt : List Rebuilt) (stop : Nat) (wf : h.WellFormed) (expansion : Expansion h rebuilt stop)
include expansion

-- The instructions of an expansion: one that stays, or new operations and a rebuilt root behind them.
theorem expanded_cases (site : Site) (i j : Inst) (off : Nat) (stored : h.inst? site = some i)
    (inside : (expanded rebuilt site i)[off]? = some j) :
    (j = i ∧ off + 1 = (expanded rebuilt site i).length ∧ rebuiltAt rebuilt site = none) ∨
    ∃ r ∈ rebuilt, r.site = site ∧ i = .arith r.old ∧ (expanded rebuilt site i).length = r.grouping.nodeCount + 1 ∧
      ((off < r.grouping.nodeCount ∧ r.code[off]? = some j) ∨ (off = r.grouping.nodeCount ∧ j = .arith r.arith)) := by
  cases found : rebuiltAt rebuilt site with
  | none =>
      have alone : expanded rebuilt site i = [i] := by simp [expanded, found]
      rw [alone] at inside ⊢
      have bound := (List.getElem?_eq_some_iff.mp inside).1
      have first : off = 0 := by simpa using bound
      subst first
      exact Or.inl ⟨(Option.some.inj inside).symm, rfl, rfl⟩
  | some r =>
      obtain ⟨member, here⟩ := rebuilt_at_mem rebuilt site r found
      have root := expansion.stored r member
      rw [here, stored] at root
      cases root
      have code : expanded rebuilt site (.arith r.old) = r.code ++ [.arith r.arith] := by simp [expanded, found]
      have length : r.code.length = r.grouping.nodeCount := grouping_code_length r.grouping r.chain r.base
      refine Or.inr ⟨r, member, here, rfl, by simp [code, length], ?_⟩
      rw [code] at inside
      by_cases low : off < r.grouping.nodeCount
      · rw [List.getElem?_append_left (by rw [length]; exact low)] at inside
        exact Or.inl ⟨low, inside⟩
      · rw [List.getElem?_append_right (by rw [length]; omega), length] at inside
        have bound := (List.getElem?_eq_some_iff.mp inside).1
        rw [List.length_singleton] at bound
        have last : off = r.grouping.nodeCount := by omega
        rw [last, Nat.sub_self] at inside
        exact Or.inr ⟨last, (Option.some.inj inside).symm⟩

theorem rebuilt_at_root (site : Site) (i : Inst) (r : Rebuilt) (stored : h.inst? site = some i)
    (found : rebuiltAt rebuilt site = some r) : r ∈ rebuilt ∧ r.site = site ∧ i = .arith r.old := by
  obtain ⟨member, here⟩ := rebuilt_at_mem rebuilt site r found
  have root := expansion.stored r member
  rw [here, stored] at root
  exact ⟨member, here, Option.some.inj root⟩

theorem expanded_root (r : Rebuilt) (member : r ∈ rebuilt) :
    expanded rebuilt r.site (.arith r.old) = r.code ++ [.arith r.arith] := by
  simp [expanded, rebuilt_at_self rebuilt expansion.distinct r member]

theorem expanded_dest (site : Site) (i j : Inst) (off : Nat) (v : Value) (stored : h.inst? site = some i)
    (inside : (expanded rebuilt site i)[off]? = some j) (dest : j.dest? = some v) :
    (i.dest? = some v ∧ off + 1 = (expanded rebuilt site i).length) ∨
    ∃ r ∈ rebuilt, r.site = site ∧ off < r.grouping.nodeCount ∧ r.base + off = v := by
  rcases expanded_cases h rebuilt stop expansion site i j off stored inside with
    ⟨same, last, _⟩ | ⟨r, member, here, rfl, length, ⟨low, code⟩ | ⟨last, root⟩⟩
  · exact Or.inl ⟨same ▸ dest, last⟩
  · obtain ⟨lhs, rhs, step, _, _⟩ := grouping_code_at r.grouping r.chain r.base off j code
    rw [step, step_dest] at dest
    exact Or.inr ⟨r, member, here, low, Option.some.inj dest⟩
  · refine Or.inl ⟨?_, by omega⟩
    rw [root] at dest
    exact dest

theorem expanded_last (site : Site) (i : Inst) (stored : h.inst? site = some i) :
    ∃ off j, (expanded rebuilt site i)[off]? = some j ∧ off + 1 = (expanded rebuilt site i).length ∧
      j.dest? = i.dest? ∧ j.width = i.width := by
  cases found : rebuiltAt rebuilt site with
  | none => exact ⟨0, i, by simp [expanded, found], by simp [expanded, found], rfl, rfl⟩
  | some r =>
      obtain ⟨_, _, rfl⟩ := rebuilt_at_root h rebuilt stop expansion site i r stored found
      exact ⟨r.code.length, .arith r.arith, by simp [expanded, found], by simp [expanded, found], rfl, rfl⟩

omit expansion in
theorem rebuilt_code_step (r : Rebuilt) (j : Inst) (listed : j ∈ r.code) :
    ∃ k < r.grouping.nodeCount, ∃ lhs rhs, j = r.chain.step (r.base + k) lhs rhs := by
  obtain ⟨k, stored⟩ := List.mem_iff_getElem?.mp listed
  have inside := (List.getElem?_eq_some_iff.mp stored).1
  rw [Rebuilt.code, grouping_code_length] at inside
  obtain ⟨lhs, rhs, step, _, _⟩ := grouping_code_at r.grouping r.chain r.base k j stored
  exact ⟨k, inside, lhs, rhs, step⟩

theorem expanded_step (r : Rebuilt) (member : r ∈ rebuilt) (m : Nat) (less : m < r.grouping.nodeCount) :
    ∃ j, (expanded rebuilt r.site (.arith r.old))[m]? = some j ∧ j.dest? = some (r.base + m) ∧ j.width = 1 := by
  have length : r.code.length = r.grouping.nodeCount := grouping_code_length r.grouping r.chain r.base
  have inside : m < r.code.length := by rw [length]; exact less
  obtain ⟨lhs, rhs, step, _, _⟩ :=
    grouping_code_at r.grouping r.chain r.base m _ (List.getElem?_eq_getElem inside)
  refine ⟨r.chain.step (r.base + m) lhs rhs, ?_, rfl, rfl⟩
  rw [expanded_root h rebuilt stop expansion r member, List.getElem?_append_left inside, List.getElem?_eq_getElem inside,
    step]

theorem expansion_new_large (r : Rebuilt) (member : r ∈ rebuilt) (m : Nat) : ¬ r.base + m < h.next :=
  Nat.not_lt.mpr (Nat.le_trans ((consecutive_bounds _ _ rebuilt expansion.numbered).2 r member).1 (Nat.le_add_right _ m))

theorem expansion_ready_old (v : Value) (place : Site) (other : Nat) (old : v < h.next)
    (within : ∀ k, h.inst? place = some k → other < (expanded rebuilt place k).length) :
    (h.recast (expanded rebuilt)).Ready v (h.spot (expanded rebuilt) place other) ↔ h.Ready v place := by
  rw [recast_ready_iff h _ v place other within]
  constructor
  · intro ready
    obtain ⟨site, i, off, j, stored, inside, dest, before⟩ := ready
    rcases expanded_dest h rebuilt stop expansion site i j off v stored inside dest with
      ⟨defines, last⟩ | ⟨r, member, _, _, new⟩
    · by_cases here : site = place
      · subst here
        have bound := within i stored
        rw [if_pos rfl] at before
        omega
      · rw [if_neg here] at before
        exact ⟨site, i, ⟨stored, defines⟩, before⟩
    · exact absurd old (new ▸ expansion_new_large h rebuilt stop expansion r member off)
  · intro ready
    obtain ⟨site, i, ⟨stored, defines⟩, before⟩ := ready
    obtain ⟨off, j, inside, _, dest, _⟩ := expanded_last h rebuilt stop expansion site i stored
    refine ⟨site, i, off, j, stored, inside, dest.trans defines, ?_⟩
    have different : site ≠ place := by
      intro same
      rw [same, precedes_irrefl] at before
      cases before
    rw [if_neg different]
    exact before

theorem expansion_ready_new (r : Rebuilt) (member : r ∈ rebuilt) (m other : Nat) (less : m < other)
    (within : other ≤ r.grouping.nodeCount) :
    (h.recast (expanded rebuilt)).Ready (r.base + m) (h.spot (expanded rebuilt) r.site other) := by
  have root := expansion.stored r member
  have length : (expanded rebuilt r.site (.arith r.old)).length = r.grouping.nodeCount + 1 := by
    rw [expanded_root h rebuilt stop expansion r member, List.length_append, Rebuilt.code, grouping_code_length,
      List.length_singleton]
  obtain ⟨j, inside, dest, _⟩ := expanded_step h rebuilt stop expansion r member m (by omega)
  refine (recast_ready_iff h _ _ r.site other fun k there => ?_).mpr ⟨r.site, _, m, j, root, inside, dest, by simpa⟩
  rw [root] at there
  cases there
  omega

theorem expansion_defines (v : Value) (site : Site) (i : Inst) (defined : h.Defines v site i) :
    ∃ place j, (h.recast (expanded rebuilt)).Defines v place j ∧ j.width = i.width := by
  obtain ⟨off, j, inside, _, dest, width⟩ := expanded_last h rebuilt stop expansion site i defined.1
  exact ⟨_, j, (recast_defines_iff h _ v _ j).mpr ⟨site, i, off, defined.1, inside, dest.trans defined.2, rfl⟩, width⟩

theorem expansion_defines_new (r : Rebuilt) (member : r ∈ rebuilt) (m : Nat) (less : m < r.grouping.nodeCount) :
    ∃ place j, (h.recast (expanded rebuilt)).Defines (r.base + m) place j ∧ j.width = 1 := by
  obtain ⟨j, inside, dest, width⟩ := expanded_step h rebuilt stop expansion r member m less
  exact ⟨_, j, (recast_defines_iff h _ _ _ j).mpr
    ⟨r.site, _, m, expansion.stored r member, inside, dest, rfl⟩, width⟩

include wf

theorem expansion_once (v : Value) (a b : Site) (i j : Inst) (one : (h.recast (expanded rebuilt)).Defines v a i)
    (two : (h.recast (expanded rebuilt)).Defines v b j) : a = b := by
  obtain ⟨site, k, off, storedA, insideA, destA, rfl⟩ := (recast_defines_iff h _ v a i).mp one
  obtain ⟨place, l, other, storedB, insideB, destB, rfl⟩ := (recast_defines_iff h _ v b j).mp two
  have small (site : Site) (k : Inst) (stored : h.inst? site = some k) (dest : k.dest? = some v) : v < h.next :=
    defines_bounded h wf v site k ⟨stored, dest⟩
  rcases expanded_dest h rebuilt stop expansion site k i off v storedA insideA destA with
    ⟨oldA, lastA⟩ | ⟨r, inR, hereR, lowR, newA⟩
  · rcases expanded_dest h rebuilt stop expansion place l j other v storedB insideB destB with
      ⟨oldB, lastB⟩ | ⟨q, inQ, hereQ, lowQ, newB⟩
    · obtain ⟨rfl, rfl⟩ := defines_unique h wf.unique v site place k l ⟨storedA, oldA⟩ ⟨storedB, oldB⟩
      rw [show off = other by omega]
    · exact absurd (small site k storedA oldA) (newB ▸ expansion_new_large h rebuilt stop expansion q inQ other)
  · rcases expanded_dest h rebuilt stop expansion place l j other v storedB insideB destB with
      ⟨oldB, lastB⟩ | ⟨q, inQ, hereQ, lowQ, newB⟩
    · exact absurd (small place l storedB oldB) (newA ▸ expansion_new_large h rebuilt stop expansion r inR off)
    · have same := consecutive_apart _ _ rebuilt expansion.numbered r q off other inR inQ lowR lowQ
        (newA.trans newB.symm)
      subst same
      rw [← hereR, ← hereQ, show off = other from Nat.add_left_cancel (newA.trans newB.symm)]

theorem expansion_bounded (v : Value) (place : Site) (j : Inst)
    (defined : (h.recast (expanded rebuilt)).Defines v place j) : v < stop := by
  obtain ⟨site, i, off, stored, inside, dest, _⟩ := (recast_defines_iff h _ v place j).mp defined
  have bounds := consecutive_bounds _ _ rebuilt expansion.numbered
  rcases expanded_dest h rebuilt stop expansion site i j off v stored inside dest with
    ⟨old, _⟩ | ⟨r, member, _, low, rfl⟩
  · exact Nat.lt_of_lt_of_le (defines_bounded h wf v site i ⟨stored, old⟩) bounds.1
  · exact Nat.lt_of_lt_of_le (Nat.add_lt_add_left low r.base) (bounds.2 r member).2

theorem rebuilt_leaf_defined (r : Rebuilt) (member : r ∈ rebuilt) (s : Scalar) (leaf : s ∈ r.chain.leaves) :
    ∃ site i, h.Defines s.value site i ∧ s.comp < i.width := by
  have inTree := (expansion.chain r member).2.2.mem_iff.mp leaf
  obtain ⟨place, b, stored, read⟩ :=
    root_leaf_source h r.old _ r.site (expansion.stored r member) (root_tree_grown h r.old) s inTree
  exact read_defined h wf place _ s stored read

theorem drawn_fine (r : Rebuilt) (member : r ∈ rebuilt) (off : Nat) (within : off ≤ r.grouping.nodeCount) (s : Scalar)
    (ready : ∀ leaf ∈ r.chain.leaves, h.Ready leaf.value r.site) (drawn : Drawn r.grouping.leaves r.base off s) :
    (∃ place j, (h.recast (expanded rebuilt)).Defines s.value place j ∧ s.comp < j.width) ∧
      (h.recast (expanded rebuilt)).Ready s.value (h.spot (expanded rebuilt) r.site off) := by
  rcases drawn with leaf | ⟨m, less, rfl⟩
  · rw [(expansion.chain r member).2.1] at leaf
    obtain ⟨site, i, defined, narrow⟩ := rebuilt_leaf_defined h rebuilt stop wf expansion r member s leaf
    obtain ⟨place, j, again, width⟩ := expansion_defines h rebuilt stop expansion s.value site i defined
    refine ⟨⟨place, j, again, width ▸ narrow⟩, ?_⟩
    refine (expansion_ready_old h rebuilt stop expansion _ _ _ (defines_bounded h wf _ _ _ defined) ?_).mpr (ready s leaf)
    intro k there
    rw [expansion.stored r member] at there
    cases there
    rw [expanded_root h rebuilt stop expansion r member, List.length_append, Rebuilt.code, grouping_code_length,
      List.length_singleton]
    omega
  · obtain ⟨place, j, defined, width⟩ := expansion_defines_new h rebuilt stop expansion r member m (by omega)
    exact ⟨⟨place, j, defined, by rw [width]; exact (by decide : (0 : UInt8) < 1)⟩,
      expansion_ready_new h rebuilt stop expansion r member m off less within⟩

theorem old_operand_fine (o : Operand) (listed : o ∈ h.operands) (off : Nat)
    (within : ∀ i, h.inst? o.place = some i → off < (expanded rebuilt o.place i).length) :
    (∃ place j, (h.recast (expanded rebuilt)).Defines o.read.value place j ∧ o.read.comp < j.width) ∧
      (o.ordered = true →
        (h.recast (expanded rebuilt)).Ready o.read.value (h.spot (expanded rebuilt) o.place off)) := by
  obtain ⟨site, i, defined, narrow⟩ := wf.widths o listed
  obtain ⟨place, j, again, width⟩ := expansion_defines h rebuilt stop expansion _ site i defined
  refine ⟨⟨place, j, again, width ▸ narrow⟩, fun ordered => ?_⟩
  exact (expansion_ready_old h rebuilt stop expansion _ _ off (defines_bounded h wf _ _ _ defined) within).mpr
    (wf.ordered o listed ordered)

theorem expansion_operand (o : Operand) (member : o ∈ (h.recast (expanded rebuilt)).operands)
    (ready : ∀ r ∈ rebuilt, ∀ s ∈ r.chain.leaves, h.Ready s.value r.site) :
    (∃ place j, (h.recast (expanded rebuilt)).Defines o.read.value place j ∧ o.read.comp < j.width) ∧
      (o.ordered = true → (h.recast (expanded rebuilt)).Ready o.read.value o.place) := by
  rcases (mem_operands _ o).mp member with ⟨place, j, stored, s, read, rfl⟩ | ⟨index, c, stored, s, read, rfl⟩
  · obtain ⟨site, i, off, there, inside, rfl⟩ := (recast_inst_iff h _ place j).mp stored
    rcases expanded_cases h rebuilt stop expansion site i j off there inside with
      ⟨rfl, last, _⟩ | ⟨r, inRebuilt, rfl, rfl, length, ⟨low, code⟩ | ⟨atEnd, rfl⟩⟩
    · refine old_operand_fine h rebuilt stop wf expansion ⟨s, site, j.dest?, !j.isPhi⟩
        ((mem_operands h _).mpr (Or.inl ⟨site, j, there, s, read, rfl⟩)) off ?_
      intro k found
      rw [there] at found
      cases found
      exact Nat.lt_of_succ_le (Nat.le_of_eq last)
    · obtain ⟨lhs, rhs, rfl, drawnL, drawnR⟩ := grouping_code_at r.grouping r.chain r.base off j code
      have fine : Drawn r.grouping.leaves r.base off s := by
        rcases List.mem_pair.mp read with rfl | rfl
        · exact drawnL
        · exact drawnR
      have both := drawn_fine h rebuilt stop wf expansion r inRebuilt off (by omega) s (ready r inRebuilt) fine
      exact ⟨both.1, fun _ => both.2⟩
    · have fine : Drawn r.grouping.leaves r.base off s := by
        rw [atEnd]
        rcases List.mem_pair.mp read with rfl | rfl
        · exact grouping_lhs_drawn r.grouping r.base
        · exact grouping_rhs_drawn r.grouping r.base
      have both := drawn_fine h rebuilt stop wf expansion r inRebuilt off (by omega) s (ready r inRebuilt) fine
      exact ⟨both.1, fun _ => both.2⟩
  · cases found : h.blocks[index]? with
    | none =>
        rw [recast_block, found] at stored
        cases stored
    | some b =>
        obtain ⟨d, again, _, term, spot⟩ := recast_end h (expanded rebuilt) index b found
        rw [stored] at again
        cases again
        rw [term] at read
        rw [spot]
        refine old_operand_fine h rebuilt stop wf expansion ⟨s, ⟨index, b.insts.length⟩, none, true⟩
          ((mem_operands h _).mpr (Or.inr ⟨index, b, found, s, read, rfl⟩)) 0 ?_
        intro k there
        simp [Func.inst?, found] at there

theorem expansion_well_formed (divergence : Option (Array Bool))
    (ready : ∀ r ∈ rebuilt, ∀ s ∈ r.chain.leaves, h.Ready s.value r.site) :
    { h.recast (expanded rebuilt) with next := stop, divergence }.WellFormed where
  unique := defs_nodup _ (expansion_once h rebuilt stop wf expansion)
  bounded := by
    intro v member
    obtain ⟨site, i, defined⟩ := (mem_defs _ v).mp member
    exact expansion_bounded h rebuilt stop wf expansion v site i defined
  targets := outline_targets h _ (recast_outline h (expanded rebuilt)) wf.targets
  widths := fun o member => (expansion_operand h rebuilt stop wf expansion o member ready).1
  ordered := fun o member => (expansion_operand h rebuilt stop wf expansion o member ready).2

theorem expansion_leaves_ready (divergence : Option (Array Bool))
    (fine : { h.recast (expanded rebuilt) with next := stop, divergence }.WellFormed) :
    ∀ r ∈ rebuilt, ∀ s ∈ r.chain.leaves, h.Ready s.value r.site := by
  intro r member s leaf
  obtain ⟨site, i, defined, _⟩ := rebuilt_leaf_defined h rebuilt stop wf expansion r member s leaf
  have old := defines_bounded h wf _ _ _ defined
  have root := expansion.stored r member
  have shape := expanded_root h rebuilt stop expansion r member
  -- some instruction of the expansion reads the leaf
  obtain ⟨off, j, inside, read, noPhi⟩ : ∃ (off : Nat) (j : Inst),
      (expanded rebuilt r.site (.arith r.old))[off]? = some j ∧ s ∈ j.reads ∧ j.isPhi = false := by
    rw [shape]
    rw [← (expansion.chain r member).2.1] at leaf
    rcases grouping_leaf_read r.grouping r.chain r.base s leaf with atLeft | atRight | ⟨j, code, read⟩
    · exact ⟨r.code.length, .arith r.arith, by simp, by simp [Inst.reads, Rebuilt.arith, atLeft], rfl⟩
    · exact ⟨r.code.length, .arith r.arith, by simp, by simp [Inst.reads, Rebuilt.arith, atRight], rfl⟩
    · obtain ⟨off, here⟩ := List.mem_iff_getElem?.mp code
      obtain ⟨lhs, rhs, rfl, _, _⟩ := grouping_code_at r.grouping r.chain r.base off j here
      refine ⟨off, _, ?_, read, rfl⟩
      rw [Rebuilt.code, List.getElem?_append_left (List.getElem?_eq_some_iff.mp here).1]
      exact here
  have stored := (recast_inst_iff h (expanded rebuilt) _ j).mpr ⟨r.site, _, off, root, inside, rfl⟩
  have ready := read_ready _ fine _ j s stored read noPhi
  refine (expansion_ready_old h rebuilt stop expansion _ r.site off old fun k there => ?_).mp ready
  rw [root] at there
  cases there
  exact (List.getElem?_eq_some_iff.mp inside).1

end Expansion

end Regroup
