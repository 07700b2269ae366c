import Mathlib
import Regroup.Proofs.Stopping

set_option autoImplicit false

namespace Regroup

-- Control can pass from one block to the other. A label stands for the first block that bears it.
def Func.Leads (f : Func) (source target : Nat) : Prop :=
  ∃ b, f.blocks[source]? = some b ∧ ∃ label ∈ b.term.successors, f.locate? label = some target

def Func.Cycle (f : Func) (first : Nat) (rest : List Nat) : Prop := List.IsChain f.Leads (first :: rest ++ [first])

def Func.Busy (f : Func) : Prop :=
  ∀ first rest, f.Cycle first rest → ∃ index ∈ first :: rest, ∃ b, f.blocks[index]? = some b ∧ b.insts ≠ []

def Func.Idle (f : Func) (index : Nat) : Prop := ∃ b, f.blocks[index]? = some b ∧ b.insts = []

-- Entering blocks without a bound until one of them ends the run. `entries` counts them all.
inductive Func.Halts (f : Func) (inputs : Inputs) :
    Label → Option Label → Machine → Nat → Except Stop (Machine × Option Const) → Prop where
  | stops (here : Label) (pred : Option Label) (m : Machine) (stop : Stop)
      (failed : f.enter inputs here pred m = .error stop) : f.Halts inputs here pred m 1 (.error stop)
  | leaves (here : Label) (pred : Option Label) (m after : Machine) (returned : Option Const)
      (left : f.enter inputs here pred m = .ok (after, .leave returned)) :
      f.Halts inputs here pred m 1 (.ok (after, returned))
  | passes (here : Label) (pred : Option Label) (m after : Machine) (target : Label) (entries : Nat)
      (outcome : Except Stop (Machine × Option Const))
      (passed : f.enter inputs here pred m = .ok (after, .enter target))
      (later : f.Halts inputs target (some here) after entries outcome) :
      f.Halts inputs here pred m (entries + 1) outcome

theorem halts_run_from (f : Func) (inputs : Inputs) (here : Label) (pred : Option Label) (m : Machine)
    (entries budget : Nat) (outcome : Except Stop (Machine × Option Const))
    (halts : f.Halts inputs here pred m entries outcome) (enough : entries ≤ budget) :
    f.runFrom inputs budget here pred m = outcome := by
  induction halts generalizing budget with
  | stops here pred m stop failed =>
      obtain ⟨more, rfl⟩ := Nat.exists_eq_add_of_le' enough
      rw [run_from_succ, failed]
      rfl
  | leaves here pred m after returned left =>
      obtain ⟨more, rfl⟩ := Nat.exists_eq_add_of_le' enough
      rw [run_from_succ, left]
      rfl
  | passes here pred m after target entries outcome passed later ih =>
      cases budget with
      | zero => omega
      | succ budget =>
          rw [run_from_succ, passed]
          exact ih budget (by omega)

theorem find_located (f : Func) (label : Label) (b : Block) (found : f.blocks.find? (·.label = label) = some b) :
    ∃ index, f.locate? label = some index ∧ f.blocks[index]? = some b := by
  obtain ⟨same, index, inside, stored, earlier⟩ := List.find?_eq_some_iff_getElem.mp found
  refine ⟨index, List.findIdx?_eq_some_iff_getElem.mpr ⟨inside, stored ▸ same, fun j before => ?_⟩, ?_⟩
  · simpa using earlier j before
  · rw [List.getElem?_eq_getElem inside, stored]

theorem enter_ends (f : Func) (inputs : Inputs) (here : Label) (pred : Option Label) (m : Machine)
    (within : m.steps ≤ stepLimit) :
    Ends (· ≠ .endless) (fun x => ∃ index b, f.locate? here = some index ∧ f.blocks[index]? = some b ∧
      x.1.steps = m.steps + b.insts.length ∧ x.1.steps ≤ stepLimit ∧
      ∀ label, x.2 = .enter label → label ∈ b.term.successors) (f.enter inputs here pred m) := by
  have ordinary (stop : Stop) (usual : stop.Ordinary) : stop ≠ .endless := by
    rintro rfl
    exact usual
  have missing (b : Block) (stop : Stop) (listed : stop ∈ b.shortfalls) : stop ≠ .endless := by
    obtain rfl | ⟨s, rfl⟩ := shortfall_cases b stop listed
    · exact Stop.noConfusion
    · exact Stop.noConfusion
  rw [Func.enter]
  cases found : f.blocks.find? (·.label = here) with
  | none => exact Stop.noConfusion
  | some b =>
      obtain ⟨index, located, stored⟩ := find_located f here b found
      have ends := block_ends (· ≠ .endless) ordinary inputs b pred m within (missing b)
      exact ends_results _ _ _ _ ends fun x _ after => ⟨index, b, located, stored, after⟩

-- The idle blocks that control has come through since the last step, on its way to the block `here`.
structure Func.Trail (f : Func) (trail : List Nat) (here : Label) : Prop where
  idle : ∀ index ∈ trail, f.Idle index
  distinct : trail.Nodup
  leads : ∀ next, f.locate? here = some next → List.IsChain f.Leads (trail ++ [next])

theorem trail_start (f : Func) (here : Label) : f.Trail [] here where
  idle := by simp
  distinct := .nil
  leads next _ := List.isChain_singleton next

theorem trail_short (f : Func) (trail : List Nat) (here : Label) (walked : f.Trail trail here) :
    trail.length ≤ f.blocks.length := by
  have bounded : trail ⊆ List.range f.blocks.length := by
    intro index member
    obtain ⟨b, stored, _⟩ := walked.idle index member
    exact List.mem_range.mpr (List.getElem?_eq_some_iff.mp stored).1
  simpa using (List.subperm_of_subset walked.distinct bounded).length_le

theorem trail_onward (f : Func) (busy : f.Busy) (trail : List Nat) (here target : Label) (index : Nat) (b : Block)
    (walked : f.Trail trail here) (located : f.locate? here = some index) (stored : f.blocks[index]? = some b)
    (nothing : b.insts = []) (next : target ∈ b.term.successors) : f.Trail (trail ++ [index]) target := by
  have linked := walked.leads index located
  have fresh : index ∉ trail := by
    intro again
    obtain ⟨front, back, split⟩ := List.append_of_mem again
    have round : f.Cycle index back := by
      rw [split, List.append_assoc, List.cons_append, List.isChain_split] at linked
      exact linked.2
    obtain ⟨other, member, c, there, some_inst⟩ := busy index back round
    have inTrail : other ∈ trail := by
      rw [split]
      exact List.mem_append_right front member
    obtain ⟨d, found, empty⟩ := walked.idle other inTrail
    rw [found] at there
    cases there
    exact some_inst empty
  refine ⟨fun other member => ?_, ?_, fun after reached => ?_⟩
  · rcases List.mem_append.mp member with earlier | last
    · exact walked.idle other earlier
    · rw [List.mem_singleton.mp last]
      exact ⟨b, stored, nothing⟩
  · rw [← List.concat_eq_append]
    exact walked.distinct.concat fresh
  · rw [List.append_assoc, List.singleton_append, List.isChain_append_cons_cons]
    exact ⟨linked, ⟨b, stored, target, next, reached⟩, List.isChain_singleton after⟩

-- How many more blocks a run can enter: for each step that is left, all idle blocks and one more, and until the next
-- step those that are not in the trail.
def Func.allowance (f : Func) (m : Machine) (trail : List Nat) : Nat :=
  (stepLimit - m.steps) * (f.blocks.length + 1) + (f.blocks.length + 1 - trail.length)

theorem allowance_step (f : Func) (m after : Machine) (trail : List Nat) (short : trail.length ≤ f.blocks.length)
    (more : m.steps < after.steps) (within : after.steps ≤ stepLimit) : f.allowance after [] < f.allowance m trail := by
  have fewer : stepLimit - after.steps + 1 ≤ stepLimit - m.steps := by omega
  have scaled := Nat.mul_le_mul_right (f.blocks.length + 1) fewer
  rw [Nat.add_mul, Nat.one_mul] at scaled
  simp only [Func.allowance, List.length_nil]
  omega

theorem allowance_idle (f : Func) (m after : Machine) (trail : List Nat) (index : Nat)
    (short : trail.length ≤ f.blocks.length) (same : after.steps = m.steps) :
    f.allowance after (trail ++ [index]) < f.allowance m trail := by
  simp only [Func.allowance, same, List.length_append, List.length_singleton]
  omega

-- By induction on what is left of the allowance.
theorem trail_halts (f : Func) (busy : f.Busy) (inputs : Inputs) (budget : Nat) (here : Label) (pred : Option Label)
    (m : Machine) (trail : List Nat) (walked : f.Trail trail here) (within : m.steps ≤ stepLimit)
    (enough : f.allowance m trail ≤ budget) :
    ∃ entries ≤ budget, ∃ outcome, f.Halts inputs here pred m entries outcome ∧ outcome ≠ .error .endless := by
  have short := trail_short f trail here walked
  induction budget generalizing here pred m trail with
  | zero =>
      simp only [Func.allowance] at enough
      omega
  | succ budget ih =>
      have entered := enter_ends f inputs here pred m within
      cases result : f.enter inputs here pred m with
      | error stop =>
          rw [result] at entered
          exact ⟨1, by omega, _, .stops here pred m stop result, fun same => entered (Except.error.inj same)⟩
      | ok x =>
          rw [result] at entered
          obtain ⟨index, b, located, stored, counted, afterWithin, taken⟩ := entered
          obtain ⟨after, next⟩ := x
          cases next with
          | leave returned => exact ⟨1, by omega, _, .leaves here pred m after returned result, nofun⟩
          | enter target =>
              -- an idle block lengthens the trail, any other block starts a new one and spends steps
              have later : ∃ onward, f.Trail onward target ∧ f.allowance after onward < f.allowance m trail := by
                by_cases nothing : b.insts = []
                · refine ⟨trail ++ [index], ?_, ?_⟩
                  · exact trail_onward f busy trail here target index b walked located stored nothing (taken target rfl)
                  · exact allowance_idle f m after trail index short (by simpa [nothing] using counted)
                · have some_inst : 0 < b.insts.length := List.length_pos_iff.mpr nothing
                  simp only at counted afterWithin
                  exact ⟨[], trail_start f target, allowance_step f m after trail short (by omega) afterWithin⟩
              obtain ⟨onward, continued, less⟩ := later
              obtain ⟨entries, few, outcome, halts, certain⟩ := ih target (some here) after onward continued afterWithin
                (by omega) (trail_short f onward target continued)
              exact ⟨entries + 1, by omega, outcome, .passes here pred m after target entries outcome result halts, certain⟩

theorem run_to_end_halts (f : Func) (busy : f.Busy) (inputs : Inputs) (entry : Block)
    (first : f.blocks.head? = some entry) :
    ∃ entries ≤ (stepLimit + 1) * (f.blocks.length + 1),
      f.Halts inputs entry.label none (Machine.init f) entries (f.runToEnd inputs) ∧
        f.runToEnd inputs ≠ .error .endless := by
  have start : f.allowance (Machine.init f) [] ≤ (stepLimit + 1) * (f.blocks.length + 1) := by
    simp only [Func.allowance, Machine.init, List.length_nil, Nat.sub_zero, Nat.add_mul, Nat.one_mul]
    exact Nat.le_refl _
  obtain ⟨entries, few, outcome, halts, certain⟩ := trail_halts f busy inputs _ entry.label none (Machine.init f) []
    (trail_start f entry.label) (Nat.zero_le _) start
  have bounded : entries ≤ f.entryBound :=
    few.trans (Nat.mul_le_mul_right (f.blocks.length + 1) (Nat.le_succ (stepLimit + 1)))
  have same : f.runToEnd inputs = outcome := by
    obtain ⟨rest, blocks⟩ := List.head?_eq_some_iff.mp first
    rw [Func.runToEnd, blocks]
    exact halts_run_from f inputs _ none _ entries f.entryBound outcome halts bounded
  exact ⟨entries, few, same ▸ halts, same ▸ certain⟩

theorem run_halts (f : Func) (inputs : Inputs) (busy : f.Busy) :
    f.run inputs ≠ .error .endless ∧ ∀ entry, f.blocks.head? = some entry →
      ∃ entries ≤ (stepLimit + 1) * (f.blocks.length + 1),
        f.Halts inputs entry.label none (Machine.init f) entries (f.runToEnd inputs) := by
  constructor
  · intro endless
    have finished : f.runToEnd inputs = .error .endless := by
      cases outcome : f.runToEnd inputs with
      | error stop =>
          rw [Func.run, outcome] at endless
          cases endless
          rfl
      | ok x =>
          rw [Func.run, outcome] at endless
          cases endless
    cases blocks : f.blocks with
    | nil => simp [Func.runToEnd, blocks] at finished
    | cons entry rest =>
        obtain ⟨_, _, _, certain⟩ := run_to_end_halts f busy inputs entry (by rw [blocks]; rfl)
        exact certain finished
  · intro entry first
    obtain ⟨entries, few, halts, _⟩ := run_to_end_halts f busy inputs entry first
    exact ⟨entries, few, halts⟩

theorem idle_walk_falls (f : Func) (rank : Nat → Nat) (falls : ∀ a b, f.Leads a b → f.Idle a → rank b < rank a)
    (first last : Nat) (rest : List Nat) (linked : List.IsChain f.Leads (first :: rest ++ [last]))
    (nothing : ∀ index ∈ first :: rest, ∀ b, f.blocks[index]? = some b → b.insts = []) : rank last < rank first := by
  have drop (index target : Nat) (empty : ∀ b, f.blocks[index]? = some b → b.insts = []) (leads : f.Leads index target) :
      rank target < rank index := by
    obtain ⟨b, stored, _⟩ := id leads
    exact falls index target leads ⟨b, stored, empty b stored⟩
  induction rest generalizing first with
  | nil => exact drop first last (nothing first List.mem_cons_self) (List.isChain_cons_cons.mp linked).1
  | cons x rest ih =>
      obtain ⟨leads, tail⟩ := List.isChain_cons_cons.mp linked
      have below := ih x tail fun index member => nothing index (List.mem_cons_of_mem first member)
      exact below.trans (drop first x (nothing first List.mem_cons_self) leads)

theorem ranked_busy (f : Func) (rank : Nat → Nat) (falls : ∀ a b, f.Leads a b → f.Idle a → rank b < rank a) :
    f.Busy := by
  intro first rest round
  by_contra nowhere
  push Not at nowhere
  exact Nat.lt_irrefl _ (idle_walk_falls f rank falls first first rest round nowhere)

def idleRing : Func where
  name := "ring"
  blocks :=
    [⟨0, [], .jump 1⟩, ⟨1, [.const 0 [.int 1]], .branch (.of 0) 2 3⟩, ⟨2, [], .jump 0⟩, ⟨3, [], .ret none⟩,
     ⟨0, [], .jump 0⟩]
  next := 1
  divergence := none

theorem idle_ring_halts : idleRing.Busy ∧ idleRing.Cycle 0 [1, 2] ∧ ∀ inputs,
    idleRing.run inputs ≠ .error .endless ∧ ∃ entries ≤ (stepLimit + 1) * 6,
      idleRing.Halts inputs 0 none (Machine.init idleRing) entries (idleRing.runToEnd inputs) := by
  have ranked : ∀ x ∈ idleRing.blocks.zipIdx, x.1.insts = [] → ∀ label ∈ x.1.term.successors,
      ∀ b ∈ idleRing.locate? label, [1, 0, 2, 0, 2].getD b 0 < [1, 0, 2, 0, 2].getD x.2 0 := by decide
  have busy : idleRing.Busy := by
    refine ranked_busy idleRing (fun index => [1, 0, 2, 0, 2].getD index 0) fun a b leads idle => ?_
    obtain ⟨source, stored, label, listed, located⟩ := leads
    obtain ⟨c, found, nothing⟩ := idle
    cases stored.symm.trans found
    exact ranked (source, a) (List.mem_zipIdx_iff_getElem?.mpr stored) nothing label listed b located
  have ring : idleRing.Cycle 0 [1, 2] :=
    .cons_cons ⟨_, rfl, 1, by decide, by decide⟩ (.cons_cons ⟨_, rfl, 2, by decide, by decide⟩
      (.cons_cons ⟨_, rfl, 0, by decide, by decide⟩ (.singleton 0)))
  refine ⟨busy, ring, fun inputs => ?_⟩
  obtain ⟨certain, halts⟩ := run_halts idleRing inputs busy
  exact ⟨certain, halts _ rfl⟩

end Regroup
