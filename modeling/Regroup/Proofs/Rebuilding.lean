import Mathlib
import Regroup.Pass.Report
import Regroup.Proofs.Grouping

set_option autoImplicit false

namespace Regroup

-- A chain that was rebuilt, with its leaves in their new order. New values are numbered from `base` on.
structure Rebuilt where
  chain : Chain
  grouping : Grouping
  base : Nat
  old : Arith

def Rebuilt.site (r : Rebuilt) : Site := r.chain.root

def Rebuilt.code (r : Rebuilt) : List Inst := r.grouping.code r.chain r.base

def Rebuilt.arith (r : Rebuilt) : Arith :=
  { r.old with
    lhs := r.grouping.lhs r.base
    rhs := r.grouping.rhs r.base
    exact := r.chain.exact
    fastMath := r.chain.fastMath
    noSignedWrap := false
    noUnsignedWrap := false }

def rebuiltAt (rebuilt : List Rebuilt) (site : Site) : Option Rebuilt := rebuilt.find? (·.site = site)

def restated (rebuilt : List Rebuilt) (site : Site) (i : Inst) : Inst :=
  match rebuiltAt rebuilt site with
  | some r => .arith r.arith
  | none => i

def expanded (rebuilt : List Rebuilt) (site : Site) (i : Inst) : List Inst :=
  match rebuiltAt rebuilt site with
  | some r => r.code ++ [.arith r.arith]
  | none => [i]

theorem rebuilt_at_mem (rebuilt : List Rebuilt) (site : Site) (r : Rebuilt) (found : rebuiltAt rebuilt site = some r) :
    r ∈ rebuilt ∧ r.site = site :=
  ⟨List.mem_of_find?_eq_some found, by simpa using List.find?_some found⟩

theorem rebuilt_at_none (rebuilt : List Rebuilt) (site : Site) :
    rebuiltAt rebuilt site = none ↔ site ∉ rebuilt.map Rebuilt.site := by
  simp [rebuiltAt, List.find?_eq_none]

theorem rebuilt_at_self (rebuilt : List Rebuilt) (distinct : (rebuilt.map Rebuilt.site).Nodup) (r : Rebuilt)
    (member : r ∈ rebuilt) : rebuiltAt rebuilt r.site = some r := by
  induction rebuilt with
  | nil => simp at member
  | cons q rest ih =>
      rw [List.map_cons, List.nodup_cons] at distinct
      rcases List.mem_cons.mp member with same | later
      · simp [rebuiltAt, same]
      · have different : q.site ≠ r.site := fun equal => distinct.1 (equal ▸ List.mem_map_of_mem later)
        simpa [rebuiltAt, different] using ih distinct.2 later

theorem restated_elsewhere (earlier rebuilt : List Rebuilt) (subset : ∀ r ∈ earlier, r ∈ rebuilt) (site : Site)
    (absent : rebuiltAt rebuilt site = none) : restated earlier site = id := by
  have missing : rebuiltAt earlier site = none := by
    rw [rebuilt_at_none] at absent ⊢
    exact fun again => absent (List.map_subset Rebuilt.site subset again)
  funext i
  simp [restated, missing]

theorem restated_cons (r : Rebuilt) (rest : List Rebuilt) (absent : r.site ∉ rest.map Rebuilt.site) (site : Site)
    (i : Inst) : restated (r :: rest) site i = restated rest site (if site = r.site then .arith r.arith else i) := by
  by_cases here : site = r.site
  · subst here
    have missing := (rebuilt_at_none rest r.site).mpr absent
    have found : rebuiltAt (r :: rest) r.site = some r := by simp [rebuiltAt]
    simp [restated, missing, found]
  · have found : rebuiltAt (r :: rest) site = rebuiltAt rest site := by simp [rebuiltAt, Ne.symm here]
    simp [restated, found, here]

def Consecutive : Nat → List Rebuilt → Nat → Prop
  | start, [], stop => stop = start
  | start, r :: rest, stop => r.base = start ∧ Consecutive (start + r.grouping.nodeCount) rest stop

structure Rebuilt.Fits (r : Rebuilt) (f : Func) (facts : Facts) (table : Option PairTable) (c : Chain) : Prop where
  stored : f.inst? c.root = some (.arith r.old)
  arranged : ∃ arrangement, c.arrange? facts table = some arrangement ∧
    r.chain = { c with leaves := arrangement.leaves } ∧
    Grouping.ofLeaves? arrangement.pinnedCount arrangement.leaves = some r.grouping

def Chain.Stays (c : Chain) (facts : Facts) (table : Option PairTable) (f : Func) : Prop :=
  ∀ arrangement, c.arrange? facts table = some arrangement →
    ∃ grouping i, Grouping.ofLeaves? arrangement.pinnedCount arrangement.leaves = some grouping ∧
      f.inst? c.root = some i ∧ grouping.followedBy facts f c.op i = true

section Attempt

variable (f : Func) (facts : Facts) (table : Option PairTable) (c : Chain)

theorem rebuild_short (short : c.length < 2) : f.rebuild facts table c = .ok (f, ⟨c, none, .leftAlone⟩) :=
  if_pos short

theorem rebuild_unarranged (nothing : c.arrange? facts table = none) :
    f.rebuild facts table c = .ok (f, ⟨c, none, .leftAlone⟩) := by
  simp [Func.rebuild, nothing]

theorem rebuild_arranged (long : 2 ≤ c.length) (arrangement : Arrangement) (grouping : Grouping)
    (arranged : c.arrange? facts table = some arrangement)
    (made : Grouping.ofLeaves? arrangement.pinnedCount arrangement.leaves = some grouping) :
    f.rebuild facts table c = (grouping.carryOut f facts { c with leaves := arrangement.leaves }).map fun x =>
      (x.1, ⟨{ c with leaves := arrangement.leaves }, arrangement.pinned, x.2⟩) := by
  rw [Func.rebuild, if_neg (Nat.not_lt.mpr long), arranged]
  simp only [made]
  cases grouping.carryOut f facts { c with leaves := arrangement.leaves } <;> rfl

theorem arrangement_grouping (long : 2 ≤ c.length) (arrangement : Arrangement)
    (arranged : c.arrange? facts table = some arrangement) :
    ∃ grouping, Grouping.ofLeaves? arrangement.pinnedCount arrangement.leaves = some grouping ∧
      grouping.nodeCount + 2 = c.length := by
  have perm := arrange_perm c facts table arrangement arranged
  obtain ⟨grouping, made⟩ := grouping_exists arrangement.pinnedCount arrangement.leaves (by rw [perm.length_eq]; exact long)
  exact ⟨grouping, made, by rw [grouping_node_count, grouping_leaves _ _ _ made, perm.length_eq, Chain.length]⟩

theorem carry_out_followed (grouping : Grouping) (i : Inst) (stored : f.inst? c.root = some i)
    (follows : grouping.followedBy facts f c.op i = true) : grouping.carryOut f facts c = .ok (f, .inOrder) := by
  rw [Grouping.carryOut, stored]
  exact if_pos follows

theorem carry_out_applied (grouping : Grouping) (i : Inst) (stored : f.inst? c.root = some i)
    (strange : ¬ grouping.followedBy facts f c.op i = true) : grouping.carryOut f facts c = grouping.apply f c i := by
  rw [Grouping.carryOut, stored]
  exact if_neg strange

theorem overwrite_arith (a : Arith) (lhs rhs : Scalar) (exact : Bool) (fastMath : FastMath) :
    (Inst.arith a).overwrite lhs rhs exact fastMath =
      (.arith { a with lhs, rhs, exact, fastMath, noSignedWrap := false, noUnsignedWrap := false }, none) := rfl

theorem rebuild_cases (a : Arith) (long : 2 ≤ c.length) (stored : f.inst? c.root = some (.arith a)) :
    (f.rebuild facts table c = .error .idsExhausted ∧ idLimit + 2 ≤ f.next + c.length) ∨
    (∃ attempt : Attempt, f.rebuild facts table c = .ok (f, attempt) ∧ attempt.changed = false ∧ attempt.chain.root = c.root ∧
      c.Stays facts table f) ∨
    ∃ (r : Rebuilt) (attempt : Attempt), r.Fits f facts table c ∧ r.base = f.next ∧ attempt.chain = r.chain ∧
      attempt.verdict = .rebuilt r.code ∧ f.rebuild facts table c =
        .ok ({ f with next := f.next + r.grouping.nodeCount }.setInst c.root (.arith r.arith), attempt) := by
  cases arranged : c.arrange? facts table with
  | none =>
      refine Or.inr (Or.inl ⟨_, rebuild_unarranged f facts table c arranged, rfl, rfl, fun arrangement found => ?_⟩)
      rw [arranged] at found
      cases found
  | some arrangement =>
      obtain ⟨grouping, made, count⟩ := arrangement_grouping facts table c long arrangement arranged
      have done := rebuild_arranged f facts table c long arrangement grouping arranged made
      by_cases follows : grouping.followedBy facts f c.op (.arith a) = true
      · rw [carry_out_followed f facts { c with leaves := arrangement.leaves } grouping (.arith a) stored follows] at done
        refine Or.inr (Or.inl ⟨_, done, rfl, rfl, fun other found => ?_⟩)
        rw [arranged] at found
        cases found
        exact ⟨grouping, .arith a, made, stored, follows⟩
      · rw [carry_out_applied f facts { c with leaves := arrangement.leaves } grouping (.arith a) stored follows, Grouping.apply] at done
        by_cases exhausted : idLimit ≤ f.next + grouping.nodeCount
        · rw [if_pos exhausted] at done
          exact Or.inl ⟨done, by omega⟩
        · rw [if_neg exhausted, overwrite_arith] at done
          exact Or.inr (Or.inr ⟨⟨{ c with leaves := arrangement.leaves }, grouping, f.next, a⟩, _,
            ⟨stored, arrangement, arranged, rfl, made⟩, rfl, rfl, rfl, done⟩)

theorem rebuild_stays (stays : c.Stays facts table f) :
    ∃ attempt : Attempt, f.rebuild facts table c = .ok (f, attempt) ∧ attempt.changed = false := by
  by_cases short : c.length < 2
  · exact ⟨_, rebuild_short f facts table c short, rfl⟩
  · cases arranged : c.arrange? facts table with
    | none => exact ⟨_, rebuild_unarranged f facts table c arranged, rfl⟩
    | some arrangement =>
        obtain ⟨grouping, i, made, stored, follows⟩ := stays arrangement arranged
        have done := rebuild_arranged f facts table c (Nat.not_lt.mp short) arrangement grouping arranged made
        rw [carry_out_followed f facts { c with leaves := arrangement.leaves } grouping i stored follows] at done
        exact ⟨_, done, rfl⟩

end Attempt

structure RebuildsTo (f : Func) (facts : Facts) (table : Option PairTable) (queue : List Chain) (result : Func)
    (attempts : List Attempt) (rebuilt : List Rebuilt) : Prop where
  func : result = { f with next := result.next }.recast fun site i => [restated rebuilt site i]
  numbered : Consecutive f.next rebuilt result.next
  fits : ∀ r ∈ rebuilt, ∃ c ∈ queue, r.Fits f facts table c
  sites : (rebuilt.map Rebuilt.site).Sublist (queue.map Chain.root)
  attempts : (attempts.filter Attempt.changed).map (fun a => (a.chain, a.verdict)) =
    rebuilt.map fun r => (r.chain, Verdict.rebuilt r.code)
  stays : ∀ c ∈ queue, c.root ∉ rebuilt.map Rebuilt.site → ∃ (earlier : List Rebuilt) (current : Func),
    (∀ r ∈ earlier, r ∈ rebuilt) ∧ (∀ site, current.inst? site = (f.inst? site).map (restated earlier site)) ∧
      c.Stays facts table current

theorem recast_same (f : Func) : (f.recast fun _ i => [i]) = f := by
  simp only [Func.recast, flat_map_single]
  rw [show (fun x : Block × Nat => ({ x.1 with insts := x.1.insts } : Block)) = Prod.fst from rfl, List.zipIdx_map_fst]

theorem fits_of_other (r : Rebuilt) (f next : Func) (facts : Facts) (table : Option PairTable) (c : Chain)
    (same : next.inst? c.root = f.inst? c.root) (fits : r.Fits next facts table c) : r.Fits f facts table c :=
  ⟨same ▸ fits.stored, fits.arranged⟩

theorem fits_site (r : Rebuilt) (f : Func) (facts : Facts) (table : Option PairTable) (c : Chain)
    (fits : r.Fits f facts table c) : r.site = c.root := by
  obtain ⟨arrangement, _, chain, _⟩ := fits.arranged
  rw [Rebuilt.site, chain]

theorem fits_chain (r : Rebuilt) (f : Func) (facts : Facts) (table : Option PairTable) (c : Chain)
    (fits : r.Fits f facts table c) :
    r.chain.op = c.op ∧ r.grouping.leaves = r.chain.leaves ∧ r.chain.leaves.Perm c.leaves := by
  obtain ⟨arrangement, arranged, chain, made⟩ := fits.arranged
  rw [chain]
  exact ⟨rfl, grouping_leaves _ _ _ made, arrange_perm c facts table arrangement arranged⟩

theorem fits_node_count (r : Rebuilt) (f : Func) (facts : Facts) (table : Option PairTable) (c : Chain)
    (fits : r.Fits f facts table c) : r.grouping.nodeCount + 2 = c.length := by
  obtain ⟨_, leaves, perm⟩ := fits_chain r f facts table c fits
  rw [grouping_node_count, leaves, perm.length_eq, Chain.length]

theorem changed_iff (attempt : Attempt) : attempt.changed = true ↔ ∃ insts, attempt.verdict = .rebuilt insts := by
  cases verdict : attempt.verdict <;> simp [Attempt.changed, verdict]

theorem rebuilds_to_nothing (f : Func) (facts : Facts) (table : Option PairTable) :
    RebuildsTo f facts table [] f [] [] where
  func := (recast_same f).symm
  numbered := rfl
  fits := by simp
  sites := .slnil
  attempts := rfl
  stays := by simp

theorem rebuilds_to_skip (f result : Func) (facts : Facts) (table : Option PairTable) (c : Chain) (rest : List Chain)
    (attempt : Attempt) (attempts : List Attempt) (rebuilt : List Rebuilt) (unchanged : attempt.changed = false)
    (stays : c.Stays facts table f) (later : RebuildsTo f facts table rest result attempts rebuilt) :
    RebuildsTo f facts table (c :: rest) result (attempt :: attempts) rebuilt where
  func := later.func
  numbered := later.numbered
  fits := fun r member =>
    let ⟨d, listed, fits⟩ := later.fits r member
    ⟨d, List.mem_cons_of_mem c listed, fits⟩
  sites := later.sites.cons c.root
  attempts := by simpa [unchanged] using later.attempts
  stays := by
    intro d member outside
    rcases List.mem_cons.mp member with same | listed
    · subst same
      exact ⟨[], f, by simp, fun site => Option.map_id'.symm, stays⟩
    · exact later.stays d listed outside

theorem rebuilds_to_rebuilt (f result : Func) (facts : Facts) (table : Option PairTable) (c : Chain) (rest : List Chain)
    (r : Rebuilt) (attempt : Attempt) (attempts : List Attempt) (rebuilt : List Rebuilt)
    (distinct : c.root ∉ rest.map Chain.root) (fits : r.Fits f facts table c) (base : r.base = f.next)
    (chain : attempt.chain = r.chain) (verdict : attempt.verdict = .rebuilt r.code)
    (later : RebuildsTo ({ f with next := f.next + r.grouping.nodeCount }.setInst c.root (.arith r.arith)) facts table
      rest result attempts rebuilt) :
    RebuildsTo f facts table (c :: rest) result (attempt :: attempts) (r :: rebuilt) := by
  have site := fits_site r f facts table c fits
  have changed : attempt.changed = true := (changed_iff attempt).mpr ⟨_, verdict⟩
  have fresh : r.site ∉ rebuilt.map Rebuilt.site := fun again => distinct (site ▸ later.sites.subset again)
  have edited (place : Site) :
      ({ f with next := f.next + r.grouping.nodeCount }.setInst c.root (.arith r.arith)).inst? place =
        (f.inst? place).map fun i => if place = r.site then .arith r.arith else i := by
    rw [set_inst_at, site]
    rfl
  refine ⟨?_, ⟨base, later.numbered⟩, ?_, ?_, ?_, ?_⟩
  · rw [later.func, set_inst_recast]
    simp only [← apply_ite (fun i : Inst => [i])]
    have both := recast_recast { f with next := result.next } (fun place i => if place = c.root then .arith r.arith else i)
      fun place i => [restated rebuilt place i]
    simp only [restated_cons r rebuilt fresh, site]
    exact both
  · intro q member
    rcases List.mem_cons.mp member with same | listed
    · exact ⟨c, List.mem_cons_self, same ▸ fits⟩
    · obtain ⟨d, queued, fitsNext⟩ := later.fits q listed
      have different : d.root ≠ r.site := fun same => distinct (site ▸ same ▸ List.mem_map_of_mem queued)
      refine ⟨d, List.mem_cons_of_mem c queued, fits_of_other q f _ facts table d ?_ fitsNext⟩
      simp [edited, different]
  · rw [List.map_cons, List.map_cons, site]
    exact later.sites.cons_cons c.root
  · simpa [changed, chain, verdict] using later.attempts
  · intro d member outside
    rw [List.map_cons, List.mem_cons, not_or] at outside
    rcases List.mem_cons.mp member with same | listed
    · exact absurd (same ▸ site.symm) outside.1
    · obtain ⟨earlier, current, subset, stored, stays⟩ := later.stays d listed outside.2
      have absent : r.site ∉ earlier.map Rebuilt.site := fun again => fresh (List.map_subset Rebuilt.site subset again)
      refine ⟨r :: earlier, current, ?_, fun place => ?_, stays⟩
      · intro q inEarlier
        exact List.mem_cons.mpr ((List.mem_cons.mp inEarlier).imp id (subset q))
      · rw [stored place, edited place, Option.map_map]
        congr 1
        funext i
        exact (restated_cons r earlier absent place i).symm

theorem rebuild_all_cases (f : Func) (facts : Facts) (table : Option PairTable) (queue : List Chain)
    (stored : ∀ c ∈ queue, ∃ a, f.inst? c.root = some (.arith a))
    (sized : ∀ c ∈ queue, 2 ≤ c.length ∧ c.length ≤ chainCapacity) (distinct : (queue.map Chain.root).Nodup) :
    (f.rebuildAll facts table queue = .error .idsExhausted ∧ idLimit ≤ f.next + (chainCapacity - 2) * queue.length) ∨
    ∃ result attempts rebuilt,
      f.rebuildAll facts table queue = .ok (result, attempts) ∧
      RebuildsTo f facts table queue result attempts rebuilt := by
  induction queue generalizing f with
  | nil => exact Or.inr ⟨f, [], [], rfl, rebuilds_to_nothing f facts table⟩
  | cons c rest ih =>
      rw [List.map_cons, List.nodup_cons] at distinct
      obtain ⟨a, root⟩ := stored c List.mem_cons_self
      have sizedRest := fun d member => sized d (List.mem_cons_of_mem c member)
      have size := sized c List.mem_cons_self
      simp only [chainCapacity] at size
      rcases rebuild_cases f facts table c a size.1 root with
        ⟨exhausted, large⟩ | ⟨attempt, done, unchanged, _, stays⟩ | ⟨r, attempt, fits, base, chain, verdict, done⟩
      · refine Or.inl ⟨by simp [Func.rebuildAll, exhausted, bind, Except.bind], ?_⟩
        simp only [chainCapacity, List.length_cons]
        omega
      · rcases ih f (fun d member => stored d (List.mem_cons_of_mem c member)) sizedRest distinct.2 with
          ⟨exhausted, large⟩ | ⟨result, attempts, rebuilt, rebuiltRest, later⟩
        · refine Or.inl ⟨by simp [Func.rebuildAll, done, exhausted, bind, Except.bind], ?_⟩
          simp only [chainCapacity, List.length_cons] at large ⊢
          omega
        · refine Or.inr ⟨result, attempt :: attempts, rebuilt, ?_,
            rebuilds_to_skip f result facts table c rest attempt attempts rebuilt unchanged stays later⟩
          simp [Func.rebuildAll, done, rebuiltRest, bind, Except.bind, pure, Except.pure]
      · have storedRest : ∀ d ∈ rest, ∃ b, ({ f with next := f.next + r.grouping.nodeCount }.setInst c.root
            (.arith r.arith)).inst? d.root = some (.arith b) := by
          intro d member
          obtain ⟨b, found⟩ := stored d (List.mem_cons_of_mem c member)
          have different : d.root ≠ c.root := fun same => distinct.1 (same ▸ List.mem_map_of_mem member)
          refine ⟨b, ?_⟩
          rw [set_inst_at]
          simp only [if_neg different, Option.map_id']
          exact found
        -- the roots still to come are other instructions, which the edit of this one leaves alone
        rcases ih _ storedRest sizedRest distinct.2 with
          ⟨exhausted, large⟩ | ⟨result, attempts, rebuilt, rebuiltRest, later⟩
        · refine Or.inl ⟨by simp [Func.rebuildAll, done, exhausted, bind, Except.bind], ?_⟩
          have count := fits_node_count r f facts table c fits
          simp only [chainCapacity, List.length_cons, Func.setInst] at large ⊢
          omega
        · refine Or.inr ⟨result, attempt :: attempts, r :: rebuilt, ?_,
            rebuilds_to_rebuilt f result facts table c rest r attempt attempts rebuilt distinct.1 fits base chain
              verdict later⟩
          simp [Func.rebuildAll, done, rebuiltRest, bind, Except.bind, pure, Except.pure]

end Regroup
