import Mathlib
import Regroup.Proofs.Equivariance
import Regroup.Proofs.Regrowth

set_option autoImplicit false

namespace Regroup

theorem fold_or_bit (nodes : List Arith) (start : FastMath) (k : Nat) :
    (nodes.foldl (fun bits a => bits ||| a.fastMath) start).toBitVec.getLsbD k = true ↔
      start.toBitVec.getLsbD k = true ∨ ∃ n ∈ nodes, n.fastMath.toBitVec.getLsbD k = true := by
  induction nodes generalizing start with
  | nil => simp
  | cons n rest ih => simp [ih, or_assoc]

-- The operation has the restrictions of the listed ones together, and makes no promise not to wrap.
structure Arith.Carries (b : Arith) (nodes : List Arith) : Prop where
  exact : b.exact = true ↔ ∃ n ∈ nodes, n.exact = true
  fastMath : ∀ k, b.fastMath.toBitVec.getLsbD k = true ↔ ∃ n ∈ nodes, n.fastMath.toBitVec.getLsbD k = true
  signed : b.noSignedWrap = false
  unsigned : b.noUnsignedWrap = false

theorem loose_not_exact (a : Arith) (loose : a.op = .fadd ∨ a.op = .fmul) (regroupable : a.regroupable = true) :
    a.exact = false := by
  have law := (Bool.and_eq_true_iff.mp regroupable).2
  rcases loose with add | mul
  · simpa [add, Op.laws] using law
  · simpa [mul, Op.laws] using law

theorem not_regroupable (a : Arith)
    (barred : (a.exact = true ∧ (a.op = .fadd ∨ a.op = .fmul)) ∨ a.op.laws.commutative = false ∨ a.width ≠ 1) :
    a.regroupable = false := by
  rcases barred with ⟨exact, loose⟩ | ordered | vector
  · by_contra regroupable
    rw [loose_not_exact a loose (Bool.eq_true_of_not_eq_false regroupable)] at exact
    cases exact
  · simp [Arith.regroupable, ordered]
  · simp [Arith.regroupable, vector]

section Expanded

variable (h g : Func) (rebuilt : List Rebuilt) (built : h.ExpandedAs g rebuilt)
include built

theorem barred_kept (site : Site) (a : Arith) (stored : h.inst? site = some (.arith a)) (barred : a.regroupable = false) :
    rebuiltAt rebuilt site = none := by
  rw [rebuilt_at_none]
  intro listed
  obtain ⟨r, member, rfl⟩ := List.mem_map.mp listed
  have root := built.expansion.stored r member
  rw [stored] at root
  cases root
  rw [built.expansion.regroupable r member] at barred
  cases barred

theorem rebuilt_carries (r : Rebuilt) (member : r ∈ rebuilt) (b : Arith) (exact : b.exact = r.chain.exact)
    (fastMath : b.fastMath = r.chain.fastMath) (signed : b.noSignedWrap = false) (unsigned : b.noUnsignedWrap = false) :
    b.Carries (h.facts.rootTree h r.old).labels where
  exact := by rw [exact, built.exact r member, List.any_eq_true]
  fastMath k := by
    rw [fastMath, built.fastMath r member, fold_or_bit]
    simp
  signed := signed
  unsigned := unsigned

theorem rebuilt_in_row (r : Rebuilt) (member : r ∈ rebuilt) : ∃ (fresh : List Arith) (start : Nat),
    r.code = fresh.map Inst.arith ∧
    (∀ k c, (fresh ++ [r.arith])[k]? = some c → g.inst? ⟨r.site.block, start + k⟩ = some (.arith c)) ∧
    ∀ c ∈ fresh ++ [r.arith], c.op = r.old.op ∧ c.Carries (h.facts.rootTree h r.old).labels := by
  obtain ⟨fresh, code, _, _⟩ := rebuilt_code_ariths r
  refine ⟨fresh, h.start (expanded rebuilt) r.site, code, fun k c listed => ?_, fun c listed => ?_⟩
  · rw [built_inst_iff h g rebuilt built]
    refine ⟨r.site, .arith r.old, k, built.expansion.stored r member, ?_, rfl⟩
    rw [expanded_root h rebuilt g.next built.expansion r member, code, ← List.map_singleton, ← List.map_append,
      List.getElem?_map, listed, Option.map_some]
  · rcases List.mem_append.mp listed with new | root
    · obtain ⟨k, _, lhs, rhs, same⟩ := rebuilt_code_step r (.arith c) (by rw [code]; exact List.mem_map_of_mem new)
      cases same
      exact ⟨(built.expansion.chain r member).1, rebuilt_carries h g rebuilt built r member _ rfl rfl rfl rfl⟩
    · rw [List.mem_singleton.mp root]
      exact ⟨rfl, rebuilt_carries h g rebuilt built r member _ rfl rfl rfl rfl⟩

omit built in
theorem root_tree_loose (a : Arith) (regroupable : a.regroupable = true) (loose : a.op = .fadd ∨ a.op = .fmul) :
    ∀ n ∈ (h.facts.rootTree h a).labels, n.exact = false := by
  intro n label
  rcases root_label_split h a n label with rfl | inner
  · exact loose_not_exact n loose regroupable
  · obtain ⟨sameOp, free, _⟩ := root_inner_once h a _ (root_tree_grown h a) n inner
    exact loose_not_exact n (sameOp ▸ loose) free

end Expanded

theorem renamed_carries (ρ : Value → Value) (b : Arith) (nodes : List Arith)
    (carries : b.Carries (nodes.map (Arith.renamed ρ))) : b.Carries nodes where
  exact := by simpa [Arith.renamed] using carries.exact
  fastMath k := by simpa [Arith.renamed] using carries.fastMath k
  signed := carries.signed
  unsigned := carries.unsigned

theorem renaming_arith_iff (f g : Func) (ρ : Value → Value) (link : Renaming f g ρ) (site : Site) (b : Arith) :
    g.inst? site = some (.arith b) ↔ ∃ a, f.inst? site = some (.arith a) ∧ b = a.renamed ρ := by
  rw [← func_arith_iff, renaming_arith f g ρ link, Option.map_eq_some_iff]
  refine exists_congr fun a => ?_
  rw [func_arith_iff, eq_comm (a := b)]

theorem regroup_keeps_restrictions (f : Func) (options : Options) (bench : Workbench) (report : Report)
    (accepted : f.check = .ok ()) (done : f.regroup options bench = .ok report) :
    (∀ a : Arith, (a.exact = true ∧ (a.op = .fadd ∨ a.op = .fmul)) ∨ a.op.laws.commutative = false ∨ a.width ≠ 1 →
      a.regroupable = false) ∧
    (∀ site a, f.inst? site = some (.arith a) → a.regroupable = false → ∃ place, place.block = site.block ∧
      report.func.definition? (f.rename a.dest) = some (place, .arith (a.renamed f.rename))) ∧
    (∀ attempt ∈ report.attempts, attempt.changed = true → ∃ (a b : Arith) (fresh : List Arith) (start : Nat),
      f.inst? attempt.chain.root = some (.arith a) ∧ a.regroupable = true ∧
      attempt.verdict = .rebuilt (fresh.map Inst.arith) ∧ b.dest = f.rename a.dest ∧
      (∀ k c, (fresh ++ [b])[k]? = some c →
        report.func.inst? ⟨attempt.chain.root.block, start + k⟩ = some (.arith c)) ∧
      (∀ c ∈ fresh ++ [b], c.op = a.op ∧ c.Carries (f.facts.rootTree f a).labels) ∧
      (a.op = .fadd ∨ a.op = .fmul → ∀ c ∈ fresh ++ [b], c.exact = false)) ∧
    ∀ place c, report.func.inst? place = some (.arith c) →
      (∃ site a, site.block = place.block ∧ f.inst? site = some (.arith a) ∧ c = a.renamed f.rename) ∨
      ∃ attempt ∈ report.attempts, attempt.changed = true ∧
        ((∃ code, attempt.verdict = .rebuilt code ∧ .arith c ∈ code) ∨
          ∃ a, f.inst? attempt.chain.root = some (.arith a) ∧ c.dest = f.rename a.dest) := by
  have wf := (check_ok_iff f).mp accepted
  have link := prepared_renaming f options wf.unique
  have fine := regroup_well_formed f options bench accepted report done
  obtain ⟨rebuilt, regroups⟩ := regroup_ok f options bench accepted report done
  have built := regroups_expanded_as _ _ report rebuilt (prepared_well_formed f options wf) fine regroups
  have source (r : Rebuilt) (member : r ∈ rebuilt) : ∃ a, f.inst? r.site = some (.arith a) ∧ r.old = a.renamed f.rename :=
    (renaming_arith_iff f _ _ link r.site r.old).mp (built.expansion.stored r member)
  refine ⟨not_regroupable, fun site a stored barred => ?_, fun attempt listed changed => ?_, fun place c stored => ?_⟩
  · have there := (renaming_arith_iff f _ _ link site _).mpr ⟨a, stored, rfl⟩
    have kept := barred_kept _ _ rebuilt built site (a.renamed f.rename) there barred
    obtain ⟨place, block, still⟩ := built_kept _ _ rebuilt built site _ there kept
    have defines : report.func.Defines (f.rename a.dest) place (.arith (a.renamed f.rename)) := ⟨still, rfl⟩
    exact ⟨place, block, (definition_iff _ fine.unique _ place _).mpr ⟨defines_bounded _ fine _ place _ defines, defines⟩⟩
  · obtain ⟨r, member, chain, verdict⟩ := changed_attempt_code _ _ report rebuilt regroups attempt listed changed
    obtain ⟨a, stored, old⟩ := source r member
    obtain ⟨fresh, start, code, row, carry⟩ := rebuilt_in_row _ _ rebuilt built r member
    have free : a.regroupable = true := by
      have whole := built.expansion.regroupable r member
      rw [old] at whole
      exact whole
    have carries (c : Arith) (inRow : c ∈ fresh ++ [r.arith]) : c.op = a.op ∧ c.Carries (f.facts.rootTree f a).labels := by
      obtain ⟨op, restricted⟩ := carry c inRow
      rw [old, renaming_root_tree f _ _ link wf r.site a stored, Tree.renamed, map_labels] at restricted
      exact ⟨by rw [op, old]; rfl, renamed_carries f.rename c _ restricted⟩
    refine ⟨a, r.arith, fresh, start, chain ▸ stored, free, by rw [verdict, code], ?_, ?_, carries, fun loose c inRow => ?_⟩
    · change r.old.dest = _
      rw [old]
      rfl
    · intro k c inRow
      rw [chain]
      exact row k c inRow
    · by_contra strict
      obtain ⟨n, label, exact⟩ := (carries c inRow).2.exact.mp (Bool.eq_true_of_not_eq_false strict)
      rw [root_tree_loose f a free loose n label] at exact
      cases exact
  · rcases built_cases _ _ rebuilt built place _ stored with ⟨site, block, there, _⟩ | ⟨r, member, _, made⟩
    · obtain ⟨a, before, same⟩ := (renaming_arith_iff f _ _ link site c).mp there
      exact Or.inl ⟨site, a, block, before, same⟩
    · obtain ⟨attempt, listed, changed, chain, verdict⟩ := rebuilt_attempt_code _ _ report rebuilt regroups r member
      refine Or.inr ⟨attempt, listed, changed, ?_⟩
      rcases made with code | root
      · exact Or.inl ⟨r.code, verdict, code⟩
      · obtain ⟨a, before, old⟩ := source r member
        cases root
        refine Or.inr ⟨a, chain ▸ before, ?_⟩
        change r.old.dest = _
        rw [old]
        rfl

-- A strict sum of floats below a loose one whose additions have different restrictions, and a sum of integers of which one
-- addition is exact and two promise not to wrap.
def mixedSums : Func where
  name := "mixed"
  blocks :=
    [⟨0, [.input 0 0 1 false, .input 1 1 1 true, .input 2 2 1 false,
        .arith { Arith.plain 3 .fadd (.of 1) (.of 0) with exact := true, fastMath := 1 },
        .arith { Arith.plain 4 .fadd (.of 3) (.of 2) with fastMath := 32768 },
        .arith { Arith.plain 5 .fadd (.of 1) (.of 4) with fastMath := 2 },
        .arith { Arith.plain 6 .fadd (.of 5) (.of 0) with fastMath := 2 },
        .arith { Arith.plain 7 .iadd (.of 1) (.of 0) with exact := true, noSignedWrap := true },
        .arith { Arith.plain 8 .iadd (.of 7) (.of 1) with noUnsignedWrap := true },
        .arith (Arith.plain 9 .iadd (.of 8) (.of 2))], .branch (.of 6) 0 1⟩,
     ⟨1, [.output 0 (.of 9)], .ret none⟩]
  next := 10
  divergence := none

theorem mixed_sums_restrictions : mixedSums.check = .ok () ∧
    ∃ report, mixedSums.regroup ⟨true, true⟩ .empty = .ok report ∧ report.stats.rebuilt = 2 ∧
      (∃ place, report.func.definition? 3 =
        some (place, .arith { Arith.plain 3 .fadd (.of 1) (.of 0) with exact := true, fastMath := 1 })) ∧
      ∀ attempt ∈ report.attempts, attempt.changed = true → ∃ (a : Arith) (fresh : List Arith),
        mixedSums.inst? attempt.chain.root = some (.arith a) ∧ attempt.verdict = .rebuilt (fresh.map Inst.arith) ∧
        ∀ c ∈ fresh, c.Carries (mixedSums.facts.rootTree mixedSums a).labels := by
  have accepted : mixedSums.check = .ok () := by decide +kernel
  have twice : (mixedSums.regroup ⟨true, true⟩ .empty).toOption.map (·.stats.rebuilt) = some 2 := by decide +kernel
  obtain ⟨report, found, count⟩ := Option.map_eq_some_iff.mp twice
  have done := to_option_ok _ report found
  obtain ⟨_, kept, rows, _⟩ := regroup_keeps_restrictions mixedSums ⟨true, true⟩ .empty report accepted done
  refine ⟨accepted, report, done, count, ?_, fun attempt listed changed => ?_⟩
  · obtain ⟨place, _, still⟩ := kept ⟨0, 3⟩ _ rfl (by decide)
    exact ⟨place, still⟩
  · obtain ⟨a, b, fresh, _, stored, _, verdict, _, _, carries, _⟩ := rows attempt listed changed
    exact ⟨a, fresh, stored, verdict, fun c new => (carries c (List.mem_append_left _ new)).2⟩

end Regroup
