import Mathlib
import Regroup.Proofs.Frame

set_option autoImplicit false

namespace Regroup

theorem regroup_any_bench (f : Func) (options : Options) (bench again : Workbench) :
    f.regroup options bench = f.regroup options again := rfl

section Reported

variable (h : Func) (table : Option PairTable) (report : Report) (rebuilt : List Rebuilt)
  (regroups : h.Regroups table report rebuilt)
include regroups

theorem report_changed_iff : report.changed = true ↔ rebuilt ≠ [] := by
  have count : report.attempts.countP Attempt.changed = rebuilt.length := by
    rw [List.countP_eq_length_filter]
    simpa using congrArg List.length regroups.attempts
  simp [Report.changed, Report.stats, count, List.length_pos_iff]

theorem unchanged_blocks (nothing : rebuilt = []) : report.func.blocks = h.blocks ∧ report.func.next = h.next := by
  subst nothing
  have next : report.func.next = h.next := regroups.numbered
  refine ⟨?_, next⟩
  have same : report.func = { h with next := report.func.next, divergence := h.divergence }.recast fun _ i => [i] :=
    regroups.func
  rw [same, recast_same]

-- A rebuilt chain has at least three leaves, so it brings a value that the function did not define.
theorem changed_blocks (wf : h.WellFormed) (something : rebuilt ≠ []) : report.func.blocks ≠ h.blocks := by
  intro same
  obtain ⟨r, member⟩ := List.exists_mem_of_ne_nil rebuilt something
  have expansion := regroups_expansion h table report rebuilt regroups
  obtain ⟨c, queued, fits⟩ := regroups.fits r member
  obtain ⟨_, _, _, _, _, long, _, _⟩ := queue_mem h table c queued
  have count := fits_node_count r h _ _ c fits
  simp only [shortestReordered] at long
  obtain ⟨place, j, defined, _⟩ := expansion_defines_new h rebuilt _ expansion r member 0 (by omega)
  have blocks : report.func.blocks = (h.recast (expanded rebuilt)).blocks := by rw [regroups.func]; rfl
  have old : h.Defines (r.base + 0) place j := by
    refine ⟨?_, defined.2⟩
    rw [← defined.1, Func.inst?, Func.inst?, ← blocks, same]
  exact expansion_new_large h rebuilt _ expansion r member 0 (defines_bounded h wf _ place j old)

end Reported

theorem regroup_changed_iff (f : Func) (options : Options) (bench : Workbench) (report : Report)
    (accepted : f.check = .ok ()) (done : f.regroup options bench = .ok report) :
    (report.changed = true ↔ report.func.blocks ≠ f.renumbered.blocks) ∧
    (report.changed = false → report.func.blocks = f.renumbered.blocks ∧ report.func.next = f.renumbered.next) := by
  have fine := prepared_well_formed f options ((check_ok_iff f).mp accepted)
  obtain ⟨rebuilt, regroups⟩ := regroup_ok f options bench accepted report done
  have changed := report_changed_iff _ _ report rebuilt regroups
  by_cases nothing : rebuilt = []
  · have same := unchanged_blocks _ _ report rebuilt regroups nothing
    refine ⟨iff_of_false (fun set => changed.mp set nothing) (not_not.mpr same.1), fun _ => same⟩
  · have set := changed.mpr nothing
    refine ⟨iff_of_true set (changed_blocks (f.prepared options) _ report rebuilt regroups fine nothing), fun unset => ?_⟩
    rw [set] at unset
    cases unset

theorem regroup_each_pointwise (options : Options) (bench : Workbench) (funcs : List Func)
    (accepted : ∀ f ∈ funcs, f.check = .ok ())
    (returns : ∀ f ∈ funcs, ∃ report, f.regroup options .empty = .ok report) :
    ∃ reports, regroupEach options bench funcs = .ok reports ∧
      List.Forall₂ (fun f report => f.regroup options .empty = .ok report ∧
        (report.changed = true ↔ report.func.blocks ≠ f.renumbered.blocks) ∧
        (report.changed = false → report.func.blocks = f.renumbered.blocks ∧ report.func.next = f.renumbered.next))
        funcs reports := by
  induction funcs generalizing bench with
  | nil => exact ⟨[], rfl, .nil⟩
  | cons f rest ih =>
      obtain ⟨⟨report, done⟩, othersReturn⟩ := List.forall_mem_cons.mp returns
      obtain ⟨fine, othersFine⟩ := List.forall_mem_cons.mp accepted
      obtain ⟨reports, later, each⟩ := ih report.bench othersFine othersReturn
      refine ⟨report :: reports, ?_, .cons ⟨done, regroup_changed_iff f options .empty report fine done⟩ each⟩
      simp only [regroupEach, regroup_any_bench f options bench .empty, done, later, bind, Except.bind]
      rfl

theorem count_changed (funcs : List Func) (reports : List Report)
    (counted : List.Forall₂ (fun f report => report.changed = true ↔ report.func.blocks ≠ f.renumbered.blocks)
      funcs reports) :
    reports.countP Report.changed =
      (funcs.zip (reports.map Report.func)).countP fun pair => pair.2.blocks ≠ pair.1.renumbered.blocks := by
  induction counted with
  | nil => rfl
  | cons here _ ih =>
      rw [List.map_cons, List.zip_cons_cons, List.countP_cons, List.countP_cons, ih]
      simp only [here, decide_eq_true_eq]

theorem program_runs_pointwise (options : Options) (bench : Workbench) (funcs : List Func)
    (accepted : ∀ f ∈ funcs, f.check = .ok ())
    (returns : ∀ f ∈ funcs, ∃ report, f.regroup options .empty = .ok report) :
    (∃ reports, regroupEach options bench funcs = .ok reports ∧
      List.Forall₂ (fun f report => f.regroup options .empty = .ok report ∧
        (report.changed = true ↔ report.func.blocks ≠ f.renumbered.blocks) ∧
        (report.changed = false → report.func.blocks = f.renumbered.blocks ∧ report.func.next = f.renumbered.next))
        funcs reports) ∧
    ∃ program, regroupProgram options funcs = .ok program ∧
      List.Forall₂ (fun f result => ∃ report, f.regroup options .empty = .ok report ∧ report.func = result)
        funcs program.funcs ∧
      program.changed = (funcs.zip program.funcs).countP fun pair => pair.2.blocks ≠ pair.1.renumbered.blocks := by
  refine ⟨regroup_each_pointwise options bench funcs accepted returns, ?_⟩
  obtain ⟨reports, done, each⟩ := regroup_each_pointwise options .empty funcs accepted returns
  refine ⟨⟨reports.map Report.func, reports.countP Report.changed, reports.flatMap Report.log⟩, ?_, ?_, ?_⟩
  · simp only [regroupProgram, done, bind, Except.bind]
    rfl
  · exact List.forall₂_map_right_iff.mpr (each.imp fun f report ⟨alone, _⟩ => ⟨report, alone, rfl⟩)
  · exact count_changed funcs reports (each.imp fun f report ⟨_, counted, _⟩ => counted)

def shortSum : Func where
  name := "short"
  blocks := [⟨0, [.input 3 0 1 false, .input 5 1 1 true, .arith (Arith.plain 8 .iadd (.of 5) (.of 3))], .ret (some (.of 8))⟩]
  next := 9
  divergence := none

theorem loop_sums_pointwise : ∃ used, loopSum.regroup ⟨true, true⟩ .empty = .ok used ∧ used.bench ≠ .empty ∧
    (∃ reports, regroupEach ⟨true, true⟩ used.bench [loopSum, shortSum, loopSum] = .ok reports ∧
      reports.map Report.changed = [true, false, true]) ∧
    ∃ program, regroupProgram ⟨true, true⟩ [loopSum, shortSum, loopSum] = .ok program ∧ program.changed = 2 := by
  have loop : (loopSum.regroup ⟨true, true⟩ .empty).toOption.map (fun r => (r.changed, decide (r.bench = .empty))) =
      some (true, false) := by decide +kernel
  have short : (shortSum.regroup ⟨true, true⟩ .empty).toOption.map Report.changed = some false := by decide +kernel
  obtain ⟨used, found, facts⟩ := Option.map_eq_some_iff.mp loop
  obtain ⟨idle, foundShort, unchanged⟩ := Option.map_eq_some_iff.mp short
  have ran := to_option_ok _ used found
  have ranShort := to_option_ok _ idle foundShort
  obtain ⟨changed, dirty⟩ := Prod.mk.inj facts
  have accepted : ∀ f ∈ [loopSum, shortSum, loopSum], f.check = .ok () := by decide +kernel
  have returns : ∀ f ∈ [loopSum, shortSum, loopSum], ∃ report, f.regroup ⟨true, true⟩ .empty = .ok report := by
    simp [ran, ranShort]
  obtain ⟨⟨reports, done, each⟩, program, whole, results, count⟩ :=
    program_runs_pointwise ⟨true, true⟩ used.bench [loopSum, shortSum, loopSum] accepted returns
  refine ⟨used, ran, of_decide_eq_false dirty, ⟨reports, done, ?_⟩, program, whole, ?_⟩
  · cases each with
    | cons first rest =>
        cases rest with
        | cons second rest =>
            cases rest with
            | cons third rest =>
                cases rest
                rw [ran] at first third
                rw [ranShort] at second
                cases first.1
                cases second.1
                cases third.1
                simp [changed, unchanged]
  · have counted : (regroupProgram ⟨true, true⟩ [loopSum, shortSum, loopSum]).toOption.map ProgramReport.changed =
        some 2 := by decide +kernel
    rw [whole] at counted
    exact Option.some.inj counted

end Regroup
