import Mathlib
import Regroup.Proofs.Rebuilding
import Regroup.Proofs.Renaming
import Regroup.Proofs.Surveying

set_option autoImplicit false

namespace Regroup

def Func.prepared (f : Func) (options : Options) : Func :=
  { f.renumbered with
    divergence := if options.uniformity then some (f.renumbered.divergence.getD f.renumbered.divergent)
      else f.renumbered.divergence }

def Options.table (options : Options) : Option PairTable := if options.sharing then some .empty else none

theorem renumbered_bounded (f : Func) (unique : f.defs.Nodup) : ∀ v ∈ f.renumbered.defs, v < f.renumbered.next := by
  rw [renumbered_defs f unique]
  exact fun v member => List.mem_range.mp member

theorem compute_divergence_ok (f : Func) (bounded : ∀ v ∈ f.defs, v < f.next) :
    f.computeDivergence = .ok f.divergent := by
  rw [Func.computeDivergence, (check_ids_ok f).mpr bounded]
  rfl

theorem prepare_ok (f : Func) (options : Options) (wf : f.WellFormed) :
    f.prepare options = .ok (f.prepared options) := by
  rw [Func.prepare, renumber_ok f wf.bounded]
  by_cases uniformity : options.uniformity = true
  · cases flags : f.renumbered.divergence with
    | none =>
        have computed := compute_divergence_ok f.renumbered (renumbered_bounded f wf.unique)
        simp [uniformity, Func.withDivergence, flags, computed, Func.prepared, bind, Except.bind, pure, Except.pure]
    | some known =>
        simp only [uniformity, Func.withDivergence, flags, Func.prepared, bind, Except.bind, if_true, Option.getD_some]
        rw [← flags]
  · simp [uniformity, Func.prepared, bind, Except.bind, pure, Except.pure]

theorem prepared_renaming (f : Func) (options : Options) (unique : f.defs.Nodup) :
    Renaming f (f.prepared options) f.rename :=
  have link := renumbered_renaming f unique
  ⟨link.blocks, link.injective, link.bounded⟩

theorem prepared_well_formed (f : Func) (options : Options) (wf : f.WellFormed) : (f.prepared options).WellFormed :=
  renaming_well_formed f _ f.rename (prepared_renaming f options wf.unique) wf

structure Func.Regroups (h : Func) (table : Option PairTable) (report : Report) (rebuilt : List Rebuilt) : Prop where
  survey : report.survey = h.surveyed table
  func : report.func = { h with
    next := report.func.next
    divergence := if rebuilt.isEmpty then h.divergence else none }.recast (expanded rebuilt)
  numbered : Consecutive h.next rebuilt report.func.next
  fits : ∀ r ∈ rebuilt, ∃ c ∈ (h.surveyed table).queue, r.Fits h h.facts (h.surveyed table).table c
  sites : (rebuilt.map Rebuilt.site).Sublist ((h.surveyed table).queue.map Chain.root)
  attempts : (report.attempts.filter Attempt.changed).map (fun a => (a.chain, a.verdict)) =
    rebuilt.map fun r => (r.chain, Verdict.rebuilt r.code)
  stays : ∀ c ∈ (h.surveyed table).queue, c.root ∉ rebuilt.map Rebuilt.site →
    ∃ (earlier : List Rebuilt) (current : Func), (∀ r ∈ earlier, r ∈ rebuilt) ∧
      (∀ site, current.inst? site = (h.inst? site).map (restated earlier site)) ∧
      c.Stays h.facts (h.surveyed table).table current

def Rebuilt.patch? (r : Rebuilt) : Option Patch := if r.code.isEmpty then none else some ⟨r.site, r.code⟩

theorem attempt_patches (attempts : List Attempt) (rebuilt : List Rebuilt)
    (same : (attempts.filter Attempt.changed).map (fun a => (a.chain, a.verdict)) =
      rebuilt.map fun r => (r.chain, Verdict.rebuilt r.code)) :
    attempts.filterMap Attempt.patch? = rebuilt.filterMap Rebuilt.patch? := by
  have onlyChanged : attempts.filterMap Attempt.patch? = (attempts.filter Attempt.changed).filterMap Attempt.patch? := by
    rw [List.filterMap_filter]
    refine List.filterMap_congr fun attempt _ => ?_
    cases verdict : attempt.verdict <;> simp [Attempt.patch?, Attempt.changed, verdict]
  have viaChain : (attempts.filter Attempt.changed).filterMap Attempt.patch? =
      ((attempts.filter Attempt.changed).map fun a => (a.chain, a.verdict)).filterMap
        fun entry => (⟨entry.1, none, entry.2⟩ : Attempt).patch? := by
    rw [List.filterMap_map]
    rfl
  rw [onlyChanged, viaChain, same, List.filterMap_map]
  rfl

theorem any_changed_iff (attempts : List Attempt) (rebuilt : List Rebuilt)
    (same : (attempts.filter Attempt.changed).map (fun a => (a.chain, a.verdict)) =
      rebuilt.map fun r => (r.chain, Verdict.rebuilt r.code)) :
    attempts.any Attempt.changed = !rebuilt.isEmpty := by
  have length : (attempts.filter Attempt.changed).length = rebuilt.length := by simpa using congrArg List.length same
  cases rebuilt with
  | nil =>
      rw [List.length_nil, List.length_eq_zero_iff, List.filter_eq_nil_iff] at length
      simpa using length
  | cons r rest =>
      have nonempty : attempts.filter Attempt.changed ≠ [] := by
        intro empty
        simp [empty] at length
      obtain ⟨attempt, member⟩ := List.exists_mem_of_ne_nil _ nonempty
      simpa using ⟨attempt, (List.mem_filter.mp member).1, (List.mem_filter.mp member).2⟩

theorem rebuilt_patch_some (r : Rebuilt) (p : Patch) :
    r.patch? = some p ↔ r.code ≠ [] ∧ p = ⟨r.site, r.code⟩ := by
  by_cases empty : r.code = []
  · simp [Rebuilt.patch?, empty]
  · simp [Rebuilt.patch?, empty, eq_comm (a := p)]

theorem rebuilt_patches_distinct (rebuilt : List Rebuilt) (distinct : (rebuilt.map Rebuilt.site).Nodup) :
    ((rebuilt.filterMap Rebuilt.patch?).map Patch.site).Nodup := by
  rw [List.Nodup, List.pairwise_map, List.pairwise_filterMap]
  refine (List.pairwise_map.mp distinct).imp fun {r q} apart p atR o atQ => ?_
  rw [((rebuilt_patch_some r p).mp atR).2, ((rebuilt_patch_some q o).mp atQ).2]
  exact apart

theorem rebuilt_patch_at (rebuilt : List Rebuilt) (distinct : (rebuilt.map Rebuilt.site).Nodup) (site : Site) (i : Inst) :
    patchAt (rebuilt.filterMap Rebuilt.patch?) site ++ [restated rebuilt site i] = expanded rebuilt site i := by
  have source (p : Patch) (member : p ∈ rebuilt.filterMap Rebuilt.patch?) (here : p.site = site) :
      ∃ r ∈ rebuilt, r.site = site ∧ r.code ≠ [] := by
    obtain ⟨r, listed, made⟩ := List.mem_filterMap.mp member
    obtain ⟨nonempty, rfl⟩ := (rebuilt_patch_some r p).mp made
    exact ⟨r, listed, here, nonempty⟩
  cases found : rebuiltAt rebuilt site with
  | none =>
      have absent := (rebuilt_at_none rebuilt site).mp found
      have nothing : patchAt (rebuilt.filterMap Rebuilt.patch?) site = [] := by
        refine patch_at_absent _ site fun p member same => ?_
        obtain ⟨r, listed, here, _⟩ := source p member same
        exact absent (here ▸ List.mem_map_of_mem listed)
      simp [nothing, restated, expanded, found]
  | some r =>
      obtain ⟨member, same⟩ := rebuilt_at_mem rebuilt site r found
      have code : patchAt (rebuilt.filterMap Rebuilt.patch?) site = r.code := by
        by_cases empty : r.code = []
        · rw [empty]
          refine patch_at_absent _ site fun p listed equal => ?_
          obtain ⟨q, inRebuilt, here, nonempty⟩ := source p listed equal
          have again := rebuilt_at_self rebuilt distinct q inRebuilt
          rw [here, found] at again
          cases again
          exact nonempty empty
        · have listed : (⟨r.site, r.code⟩ : Patch) ∈ rebuilt.filterMap Rebuilt.patch? :=
            List.mem_filterMap.mpr ⟨r, member, (rebuilt_patch_some r _).mpr ⟨empty, rfl⟩⟩
          rw [← same]
          exact patch_at_mem _ (rebuilt_patches_distinct rebuilt distinct) ⟨r.site, r.code⟩ listed
      simp [code, restated, expanded, found]

theorem weave_rebuilt (h result : Func) (facts : Facts) (table : Option PairTable) (queue : List Chain)
    (attempts : List Attempt) (rebuilt : List Rebuilt) (distinct : (rebuilt.map Rebuilt.site).Nodup)
    (rebuilds : RebuildsTo h facts table queue result attempts rebuilt) :
    result.weave (attempts.filterMap Attempt.patch?) = .ok ({ h with next := result.next }.recast (expanded rebuilt)) := by
  have present (p : Patch) (member : p ∈ rebuilt.filterMap Rebuilt.patch?) : ∃ i, h.inst? p.site = some i := by
    obtain ⟨q, listed, made⟩ := List.mem_filterMap.mp member
    obtain ⟨c, _, fits⟩ := rebuilds.fits q listed
    rw [((rebuilt_patch_some q p).mp made).2]
    exact ⟨_, (fits_site q h facts table c fits).symm ▸ fits.stored⟩
  have inside (site : Site) (missing : h.inst? site = none) : patchAt (rebuilt.filterMap Rebuilt.patch?) site = [] := by
    refine patch_at_absent _ site fun p member same => ?_
    obtain ⟨i, found⟩ := present p member
    rw [same, missing] at found
    cases found
  have room (p : Patch) (member : p ∈ rebuilt.filterMap Rebuilt.patch?) : result.hasRoomAt p.site := by
    obtain ⟨i, found⟩ := present p member
    have kept : result.inst? p.site = some (restated rebuilt p.site i) := by
      rw [rebuilds.func, recast_single_inst]
      change (h.inst? p.site).map _ = _
      rw [found, Option.map_some]
    obtain ⟨b, stored, there⟩ := Option.bind_eq_some_iff.mp kept
    exact ⟨b, stored, Nat.le_of_lt (List.getElem?_eq_some_iff.mp there).1⟩
  have woven := weave_eq_woven result _ (rebuilt_patches_distinct rebuilt distinct) room
  rw [attempt_patches attempts rebuilt rebuilds.attempts, woven, rebuilds.func,
    recast_woven { h with next := result.next } _ _ inside]
  simp only [rebuilt_patch_at rebuilt distinct]
  rfl

theorem settle_rebuilt (h result : Func) (facts : Facts) (table : Option PairTable) (queue : List Chain)
    (attempts : List Attempt) (rebuilt : List Rebuilt) (distinct : (rebuilt.map Rebuilt.site).Nodup)
    (rebuilds : RebuildsTo h facts table queue result attempts rebuilt) :
    ∃ final pending, result.settle attempts (attempts.filterMap Attempt.patch?) = .ok (final, pending) ∧
      final = { h with
        next := result.next
        divergence := if rebuilt.isEmpty then h.divergence else none }.recast (expanded rebuilt) := by
  have changed := any_changed_iff attempts rebuilt rebuilds.attempts
  cases rebuilt with
  | nil =>
      refine ⟨result, attempts.filterMap Attempt.patch?, ?_, rebuilds.func⟩
      have unchanged : ¬ attempts.any Attempt.changed = true := by simp [changed]
      rw [Func.settle, if_neg unchanged]
  | cons r rest =>
      refine ⟨_, [], ?_, rfl⟩
      have someChanged : attempts.any Attempt.changed = true := by simp [changed]
      rw [Func.settle, if_pos someChanged, weave_rebuilt h result facts table queue attempts (r :: rest) distinct rebuilds]
      rfl

theorem queue_length (f : Func) (table : Option PairTable) : (f.surveyed table).queue.length ≤ f.defs.length := by
  have found := (queue_roots f table).length_le
  have listed := (find_from_roots f [] f.ariths.reverse).length_le
  have operations : f.ariths.length ≤ f.defs.length := by
    rw [← sited_defs, Func.ariths]
    induction f.sited with
    | nil => exact Nat.le_refl 0
    | cons entry rest ih =>
        obtain ⟨site, i⟩ := entry
        cases i <;> simp [Inst.arith?, Inst.dest?] at ih ⊢ <;> omega
  simp only [List.length_map, List.length_reverse, Facts.findAll] at found listed
  omega

theorem regroup_chains_cases (f : Func) (options : Options) (bench : Workbench) (wf : f.WellFormed) :
    (f.regroupChains options bench = .error .idsExhausted ∧ idLimit ≤ (chainCapacity - 1) * f.defs.length) ∨
    ∃ report rebuilt,
      f.regroupChains options bench = .ok report ∧ (f.prepared options).Regroups options.table report rebuilt := by
  have fine := prepared_well_formed f options wf
  have stored (c : Chain) (member : c ∈ ((f.prepared options).surveyed options.table).queue) :
      (∃ a, (f.prepared options).inst? c.root = some (.arith a)) ∧ 2 ≤ c.length ∧ c.length ≤ chainCapacity := by
    obtain ⟨site, a, root, _, _, long, _, same⟩ := queue_mem _ _ c member
    refine ⟨⟨a, by rw [same]; exact root⟩, Nat.le_trans (by decide) long, ?_⟩
    rw [same]
    exact Nat.le_trans (Nat.le_of_eq (tree_leaves_length _)) (root_tree_fits _ _ a)
  have distinct := queue_roots_distinct (f.prepared options) options.table
  have cleared : (if options.sharing = true then some bench.clear.pairs else none) = options.table := rfl
  rcases rebuild_all_cases (f.prepared options) (f.prepared options).facts _ _ (fun c member => (stored c member).1)
    (fun c member => (stored c member).2) distinct with
    ⟨exhausted, large⟩ | ⟨result, attempts, rebuilt, done, rebuilds⟩
  · refine Or.inl ⟨?_, ?_⟩
    · simp only [Func.regroupChains, prepare_ok f options wf, bind, Except.bind]
      rw [cleared, survey_ok _ _ fine.bounded]
      simp only [Workbench.clear, List.nil_append]
      rw [exhausted]
    · have count := queue_length (f.prepared options) options.table
      have next : (f.prepared options).next = f.defs.length := rfl
      have defs : (f.prepared options).defs.length = f.defs.length := by
        rw [renaming_defs f _ _ (prepared_renaming f options wf.unique), List.length_map]
      simp only [chainCapacity] at large ⊢
      omega
  · obtain ⟨final, pending, settled, shape⟩ :=
      settle_rebuilt _ result _ _ _ attempts rebuilt (distinct.sublist rebuilds.sites) rebuilds
    refine Or.inr ⟨⟨final, (f.prepared options).surveyed options.table, attempts,
      ⟨((f.prepared options).surveyed options.table).table.getD .empty, attempts.map Attempt.chain, pending⟩⟩, rebuilt,
      ?_, ⟨rfl, by rw [shape]; rfl, by rw [shape]; exact rebuilds.numbered, rebuilds.fits, rebuilds.sites,
        rebuilds.attempts, rebuilds.stays⟩⟩
    simp only [Func.regroupChains, prepare_ok f options wf, bind, Except.bind]
    rw [cleared, survey_ok _ _ fine.bounded]
    simp only [Workbench.clear, List.nil_append]
    rw [done]
    simp only [settled]
    rfl

end Regroup
