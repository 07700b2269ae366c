import Mathlib
import Regroup.Proofs.Supply
import Regroup.Proofs.Uniformity

/- Uniform values do not depend on divergent inputs. If no branch diverges, two runs go the same way, in step. If one
   does, a uniform phi has a single block to read from, so that every uniform value has one result on all paths. -/

set_option autoImplicit false

namespace Regroup

def Both {α β : Type} (related : α → β → Prop) (x : Except Stop α) (y : Except Stop β) : Prop :=
  ∀ a b, x = .ok a → y = .ok b → related a b

section Both

variable {α β γ δ : Type}

theorem both_bind (related : α → β → Prop) (after : γ → δ → Prop) (x : Except Stop α) (y : Except Stop β)
    (first : α → Except Stop γ) (second : β → Except Stop δ) (start : Both related x y)
    (next : ∀ a b, x = .ok a → y = .ok b → related a b → Both after (first a) (second b)) :
    Both after (x >>= first) (y >>= second) := by
  intro c d doneC doneD
  obtain ⟨a, gotA, restA⟩ := bind_ok x first c doneC
  obtain ⟨b, gotB, restB⟩ := bind_ok y second d doneD
  exact next a b gotA gotB (start a b gotA gotB) c d restA restB

theorem both_ok (related : α → β → Prop) (a : α) (b : β) (holds : related a b) :
    Both related (.ok a : Except Stop α) (.ok b : Except Stop β) := by
  intro c d sameC sameD
  cases sameC
  cases sameD
  exact holds

theorem both_map_m (items : List γ) (first second : γ → Except Stop α)
    (each : ∀ x ∈ items, Both Eq (first x) (second x)) : Both Eq (items.mapM first) (items.mapM second) := by
  induction items with
  | nil => exact both_ok Eq [] [] rfl
  | cons x rest ih =>
      rw [List.mapM_cons, List.mapM_cons]
      refine both_bind Eq Eq _ _ _ _ (each x List.mem_cons_self) fun a b _ _ same => ?_
      refine both_bind Eq Eq _ _ _ _ (ih fun y member => each y (List.mem_cons_of_mem x member)) fun as bs _ _ rests => ?_
      exact both_ok Eq (a :: as) (b :: bs) (by rw [same, rests])

end Both

def Machine.SameAt (m n : Machine) (v : Value) : Prop :=
  ∀ xs ys, m.values[v]? = some (some xs) → n.values[v]? = some (some ys) → xs = ys

def Machine.yield (m : Machine) (inputs : Inputs) (here : Label) (pred : Option Label) : Inst → Except Stop (List Const)
  | .input _ slot _ _ =>
      match inputs slot with
      | some lanes => .ok lanes
      | none => .error (.error (.missingInput slot))
  | .const _ lanes => .ok lanes
  | .arith a => (List.range a.width.toNat).mapM (m.arithLane a)
  | .phi _ incoming => m.readPhi here pred incoming >>= fun c => .ok [c]
  | .output .. => .ok []

theorem same_read (m n : Machine) (s : Scalar) (same : m.SameAt n s.value) : Both Eq (m.read s) (n.read s) := by
  intro c d gotC gotD
  obtain ⟨xs, storedX, laneX⟩ := read_stored m s c gotC
  obtain ⟨ys, storedY, laneY⟩ := read_stored n s d gotD
  rw [same xs ys storedX storedY, laneY] at laneX
  exact (Option.some.inj laneX).symm

theorem same_read_lane (m n : Machine) (s : Scalar) (lane : Nat) (same : m.SameAt n s.value) :
    Both Eq (m.readLane s lane) (n.readLane s lane) := by
  by_cases inside : s.comp.toNat + lane < 256
  · have next : s.lane? lane = some ⟨s.value, UInt8.ofNat (s.comp.toNat + lane)⟩ := if_pos inside
    simp only [Machine.readLane, next]
    exact same_read m n _ same
  · have next : s.lane? lane = none := if_neg inside
    intro c d gotC
    simp [Machine.readLane, next] at gotC

theorem same_yield (inputs : Inputs) (m n : Machine) (here there : Label) (pred : Option Label) (i : Inst)
    (same : ∀ s ∈ i.reads, m.SameAt n s.value) : Both Eq (m.yield inputs here pred i) (n.yield inputs there pred i) := by
  cases i with
  | input dest slot width divergent =>
      intro xs ys gotX gotY
      exact Except.ok.inj (gotX.symm.trans gotY)
  | const dest lanes => exact both_ok Eq lanes lanes rfl
  | arith a =>
      refine both_map_m _ _ _ fun lane _ => ?_
      refine both_bind Eq Eq _ _ _ _ (same_read_lane m n a.lhs lane (same _ (arith_reads a).1)) fun x x' _ _ sameX => ?_
      refine both_bind Eq Eq _ _ _ _ (same_read_lane m n a.rhs lane (same _ (arith_reads a).2)) fun y y' _ _ sameY => ?_
      rw [sameX, sameY]
      intro c d gotC gotD
      exact Except.ok.inj (gotC.symm.trans gotD)
  | phi dest incoming =>
      refine both_bind Eq Eq _ _ _ _ ?_ fun c d _ _ equal => both_ok Eq [c] [d] (by rw [equal])
      cases found : incoming.find? fun x => some x.2 = pred with
      | none =>
          rw [read_phi_none m here pred incoming found]
          intro c d impossible
          cases impossible
      | some entry =>
          rw [read_phi_some m here pred incoming entry found, read_phi_some n there pred incoming entry found]
          exact same_read m n entry.1 (same _ (List.mem_map_of_mem (List.mem_of_find?_eq_some found)))
  | output slot src => exact both_ok Eq [] [] rfl

theorem exec_yield (inputs : Inputs) (m n : Machine) (here : Label) (pred : Option Label) (i : Inst) (v : Value)
    (noPhi : i.isPhi = false) (dest : i.dest? = some v) (done : m.exec inputs i = .ok n) :
    ∃ lanes, m.yield inputs here pred i = .ok lanes ∧ m.write v lanes = .ok n := by
  cases i with
  | input w slot width divergent =>
      cases dest
      cases found : inputs slot with
      | none => simp [Machine.exec, found] at done
      | some lanes => exact ⟨lanes, by simp [Machine.yield, found], by simpa [Machine.exec, found] using done⟩
  | const w lanes =>
      cases dest
      exact ⟨lanes, rfl, done⟩
  | arith a =>
      cases dest
      exact bind_ok _ _ _ done
  | phi w incoming => cases noPhi
  | output slot src => cases dest

theorem write_value (m n : Machine) (v : Value) (lanes : List Const) (done : m.write v lanes = .ok n) :
    n.values[v]? = some (some lanes) ∧ ∀ w, w ≠ v → n.values[w]? = m.values[w]? := by
  refine ⟨?_, fun w different => write_other m n v w lanes done different⟩
  obtain ⟨inside, rfl⟩ := write_ok m n v lanes done
  simp [inside]

theorem read_phis_yield (inputs : Inputs) (m : Machine) (here : Label) (pred : Option Label) (insts : List Inst)
    (ps : List (Value × Const)) (done : m.readPhis here pred insts = .ok ps) :
    ∀ v c, (v, c) ∈ ps → ∃ i ∈ insts, i.isPhi = true ∧ i.dest? = some v ∧ m.yield inputs here pred i = .ok [c] := by
  induction insts generalizing ps with
  | nil =>
      cases done
      simp
  | cons i rest ih =>
      have skip (later : m.readPhis here pred rest = .ok ps) : ∀ v c, (v, c) ∈ ps →
          ∃ j ∈ i :: rest, j.isPhi = true ∧ j.dest? = some v ∧ m.yield inputs here pred j = .ok [c] := by
        intro v c member
        obtain ⟨j, listed, facts⟩ := ih ps later v c member
        exact ⟨j, List.mem_cons_of_mem i listed, facts⟩
      cases i with
      | input dest slot width divergent => exact skip done
      | const dest lanes => exact skip done
      | arith a => exact skip done
      | output slot src => exact skip done
      | phi dest incoming =>
          obtain ⟨d, got, more⟩ := bind_ok _ _ _ done
          obtain ⟨qs, later, made⟩ := bind_ok _ _ _ more
          cases made
          intro v c member
          rcases List.mem_cons.mp member with same | behind
          · cases same
            exact ⟨_, List.mem_cons_self, rfl, rfl, by rw [Machine.yield, got]; rfl⟩
          · obtain ⟨j, listed, facts⟩ := ih qs later v c behind
            exact ⟨j, List.mem_cons_of_mem _ listed, facts⟩

theorem write_phis_value (ps : List (Value × Const)) (m n : Machine) (done : Machine.writePhis ps m = .ok n) (v : Value)
    (lanes : List Const) (stored : n.values[v]? = some (some lanes)) :
    (∃ c, (v, c) ∈ ps ∧ lanes = [c]) ∨ ((∀ p ∈ ps, v ≠ p.1) ∧ m.values[v]? = some (some lanes)) := by
  by_cases listed : ∃ p ∈ ps, v = p.1
  · refine Or.inl ?_
    induction ps generalizing m with
    | nil => simp at listed
    | cons p rest ih =>
        obtain ⟨middle, written, later⟩ := bind_ok _ _ _ done
        by_cases again : ∃ q ∈ rest, v = q.1
        · obtain ⟨c, member, same⟩ := ih middle later again
          exact ⟨c, List.mem_cons_of_mem p member, same⟩
        · push Not at again
          obtain ⟨q, member, same⟩ := listed
          rcases List.mem_cons.mp member with rfl | behind
          · rw [write_phis_other rest middle n v later again, same, (write_value m middle q.1 [q.2] written).1] at stored
            cases stored
            exact ⟨q.2, by rw [same]; exact List.mem_cons_self, rfl⟩
          · exact absurd same (again q behind)
  · push Not at listed
    rw [write_phis_other ps m n v done listed] at stored
    exact Or.inr ⟨listed, stored⟩

theorem block_run_ok (b : Block) (inputs : Inputs) (pred : Option Label) (m : Machine) (x : Machine × Next)
    (done : b.run inputs pred m = .ok x) : ∃ ps entered, m.readPhis b.label pred b.insts = .ok ps ∧
      Machine.writePhis ps m = .ok entered ∧ Machine.execAll inputs b.insts entered = .ok x.1 ∧
      x.1.follow b.term = .ok x.2 := by
  obtain ⟨ps, read, rest⟩ := bind_ok _ _ _ done
  obtain ⟨entered, written, more⟩ := bind_ok _ _ _ rest
  obtain ⟨last, ran, ends⟩ := bind_ok _ _ _ more
  obtain ⟨next, taken, result⟩ := bind_ok _ _ _ ends
  cases result
  exact ⟨ps, entered, read, written, ran, taken⟩

theorem enter_ok (f : Func) (inputs : Inputs) (here : Label) (pred : Option Label) (m : Machine) (x : Machine × Next)
    (done : f.enter inputs here pred m = .ok x) :
    ∃ (index : Nat) (b : Block), f.blocks[index]? = some b ∧ b.label = here ∧ f.blocks.find? (·.label = here) = some b ∧
      b.run inputs pred m = .ok x := by
  rw [Func.enter] at done
  cases found : f.blocks.find? (·.label = here) with
  | none =>
      rw [found] at done
      cases done
  | some b =>
      rw [found] at done
      obtain ⟨index, stored⟩ := List.mem_iff_getElem?.mp (List.mem_of_find?_eq_some found)
      exact ⟨index, b, stored, by simpa using List.find?_some found, rfl, done⟩

theorem tick_values (m n : Machine) (done : m.tick = .ok n) : n.values = m.values := by
  by_cases more : m.steps < stepLimit
  · rw [Machine.tick, if_pos more] at done
    cases done
    rfl
  · rw [Machine.tick, if_neg more] at done
    cases done

theorem exec_untouched (inputs : Inputs) (m n : Machine) (i : Inst) (v : Value)
    (other : ¬ (i.dest? = some v ∧ i.isPhi = false)) (done : m.exec inputs i = .ok n) : n.values[v]? = m.values[v]? := by
  by_cases dest : i.dest? = some v
  · cases i with
    | phi w incoming =>
        cases done
        rfl
    | input w slot width divergent => exact absurd ⟨dest, rfl⟩ other
    | const w lanes => exact absurd ⟨dest, rfl⟩ other
    | arith a => exact absurd ⟨dest, rfl⟩ other
    | output slot src => cases dest
  · exact (exec_writes inputs m i n done).2 v dest

def Inputs.AgreeOn (first second : Inputs) (f : Func) : Prop :=
  ∀ dest slot width, Inst.input dest slot width false ∈ f.insts → first slot = second slot

def Machine.Agrees (m n : Machine) (f : Func) : Prop := ∀ v, ¬ f.Varies v → m.SameAt n v

theorem same_at_of_values (m n m' n' : Machine) (v : Value) (left : m'.values[v]? = m.values[v]?)
    (right : n'.values[v]? = n.values[v]?) (same : m.SameAt n v) : m'.SameAt n' v := by
  intro xs ys storedX storedY
  exact same xs ys (left ▸ storedX) (right ▸ storedY)

theorem uniform_operand (f : Func) (v : Value) (site : Site) (i : Inst) (defined : f.Defines v site i)
    (uniform : ¬ f.Varies v) : ∀ s ∈ i.reads, ¬ f.Varies s.value :=
  fun s read varies => uniform (.operand site i v s defined.1 defined.2 read varies)

section Inputs

variable (f : Func) (first second : Inputs) (agree : first.AgreeOn second f)
include agree

theorem uniform_yield_inputs (m : Machine) (here : Label) (pred : Option Label) (v : Value) (site : Site) (i : Inst)
    (defined : f.Defines v site i) (uniform : ¬ f.Varies v) :
    m.yield first here pred i = m.yield second here pred i := by
  cases i with
  | input dest slot width divergent =>
      cases divergent with
      | false => simp only [Machine.yield, agree dest slot width ((mem_insts f _).mpr ⟨site, defined.1⟩)]
      | true => exact absurd (.input site _ v defined.1 defined.2 rfl) uniform
  | const dest lanes => rfl
  | arith a => rfl
  | phi dest incoming => rfl
  | output slot src => rfl

theorem agree_yield (m n : Machine) (agrees : m.Agrees n f) (here there : Label) (pred : Option Label) (v : Value)
    (site : Site) (i : Inst) (defined : f.Defines v site i) (uniform : ¬ f.Varies v) :
    Both Eq (m.yield first here pred i) (n.yield second there pred i) := by
  rw [← uniform_yield_inputs f first second agree n there pred v site i defined uniform]
  exact same_yield first m n here there pred i fun s read => agrees _ (uniform_operand f v site i defined uniform s read)

theorem agree_exec (m n : Machine) (agrees : m.Agrees n f) (site : Site) (i : Inst) (stored : f.inst? site = some i) :
    Both (fun m' n' => m'.Agrees n' f) (m.exec first i) (n.exec second i) := by
  intro m' n' doneM doneN v uniform
  by_cases writes : i.dest? = some v ∧ i.isPhi = false
  · obtain ⟨dest, noPhi⟩ := writes
    obtain ⟨xs, yieldM, writeM⟩ := exec_yield first m m' 0 none i v noPhi dest doneM
    obtain ⟨ys, yieldN, writeN⟩ := exec_yield second n n' 0 none i v noPhi dest doneN
    have equal := agree_yield f first second agree m n agrees 0 0 none v site i ⟨stored, dest⟩ uniform xs ys yieldM yieldN
    intro xs' ys' storedX storedY
    rw [(write_value m m' v xs writeM).1] at storedX
    rw [(write_value n n' v ys writeN).1] at storedY
    cases storedX
    cases storedY
    exact equal
  · exact same_at_of_values m n m' n' v (exec_untouched first m m' i v writes doneM)
      (exec_untouched second n n' i v writes doneN) (agrees v uniform)

theorem agree_exec_all (insts : List Inst) (listed : ∀ i ∈ insts, ∃ site, f.inst? site = some i) (m n : Machine)
    (agrees : m.Agrees n f) :
    Both (fun m' n' => m'.Agrees n' f) (Machine.execAll first insts m) (Machine.execAll second insts n) := by
  induction insts generalizing m n with
  | nil => exact both_ok _ m n agrees
  | cons i rest ih =>
      obtain ⟨site, stored⟩ := listed i List.mem_cons_self
      have ticked : Both (fun m' n' => m'.Agrees n' f) m.tick n.tick := by
        intro m' n' doneM doneN v uniform
        exact same_at_of_values m n m' n' v (by rw [tick_values m m' doneM]) (by rw [tick_values n n' doneN])
          (agrees v uniform)
      refine both_bind _ _ _ _ _ _ ticked fun m' n' _ _ still => ?_
      refine both_bind _ _ _ _ _ _ (agree_exec f first second agree m' n' still site i stored) fun m'' n'' _ _ after => ?_
      exact ih (fun j member => listed j (List.mem_cons_of_mem i member)) m'' n'' after

theorem agree_phis (unique : f.defs.Nodup) (m n : Machine) (agrees : m.Agrees n f) (here : Label) (pred : Option Label)
    (insts : List Inst) (listed : ∀ i ∈ insts, ∃ site, f.inst? site = some i) :
    Both (fun m' n' => m'.Agrees n' f) (m.readPhis here pred insts >>= fun ps => Machine.writePhis ps m)
      (n.readPhis here pred insts >>= fun ps => Machine.writePhis ps n) := by
  intro m' n' doneM doneN v uniform xs ys storedX storedY
  obtain ⟨ps, readM, writeM⟩ := bind_ok _ _ _ doneM
  obtain ⟨qs, readN, writeN⟩ := bind_ok _ _ _ doneN
  have firsts : ps.map Prod.fst = qs.map Prod.fst := by
    rw [read_phis_firsts m here pred insts ps readM, read_phis_firsts n here pred insts qs readN]
  rcases write_phis_value ps m m' writeM v xs storedX with ⟨c, inPs, rfl⟩ | ⟨notPs, oldX⟩
  · rcases write_phis_value qs n n' writeN v ys storedY with ⟨d, inQs, rfl⟩ | ⟨notQs, _⟩
    · obtain ⟨i, inI, _, destI, yieldM⟩ := read_phis_yield first m here pred insts ps readM v c inPs
      obtain ⟨j, inJ, _, destJ, yieldN⟩ := read_phis_yield second n here pred insts qs readN v d inQs
      obtain ⟨site, stored⟩ := listed i inI
      obtain ⟨place, found⟩ := listed j inJ
      obtain ⟨rfl, rfl⟩ := defines_unique f unique v site place i j ⟨stored, destI⟩ ⟨found, destJ⟩
      exact agree_yield f first second agree m n agrees here here pred v site i ⟨stored, destI⟩ uniform [c] [d] yieldM yieldN
    · have member : v ∈ qs.map Prod.fst := firsts ▸ List.mem_map_of_mem inPs
      obtain ⟨q, inQs, same⟩ := List.mem_map.mp member
      exact absurd same.symm (notQs q inQs)
  · rcases write_phis_value qs n n' writeN v ys storedY with ⟨d, inQs, rfl⟩ | ⟨_, oldY⟩
    · have member : v ∈ ps.map Prod.fst := firsts ▸ List.mem_map_of_mem inQs
      obtain ⟨p, inPs, same⟩ := List.mem_map.mp member
      exact absurd same.symm (notPs p inPs)
    · exact agrees v uniform xs ys oldX oldY

end Inputs

theorem same_follow (m n : Machine) (term : Terminator)
    (same : ∀ cond, term.condition? = some cond → m.SameAt n cond.value) :
    Both (fun x y => ∀ target, x = .enter target ↔ y = .enter target) (m.follow term) (n.follow term) := by
  cases term with
  | ret src =>
      cases src with
      | none => exact both_ok _ _ _ fun target => Iff.rfl
      | some s =>
          intro x y doneX doneY target
          obtain ⟨c, _, left⟩ := bind_ok _ _ _ doneX
          obtain ⟨d, _, right⟩ := bind_ok _ _ _ doneY
          cases left
          cases right
          simp
  | jump target => exact both_ok _ _ _ fun _ => Iff.rfl
  | branch cond onTrue onFalse =>
      refine both_bind Eq _ _ _ _ _ (same_read m n cond (same cond rfl)) fun c d _ _ equal => ?_
      rw [equal]
      exact both_ok _ _ _ fun _ => Iff.rfl

section Lockstep

variable (f : Func) (wf : f.WellFormed) (first second : Inputs) (agree : first.AgreeOn second f)
  (level : ∀ (index : Nat) (b : Block) (cond : Scalar), f.blocks[index]? = some b → b.term.condition? = some cond →
    ¬ f.Varies cond.value)
include wf agree level

theorem agree_block (index : Nat) (b : Block) (pred : Option Label) (m n : Machine) (stored : f.blocks[index]? = some b)
    (agrees : m.Agrees n f) :
    Both (fun x y => x.1.Agrees y.1 f ∧ ∀ target, x.2 = .enter target ↔ y.2 = .enter target)
      (b.run first pred m) (b.run second pred n) := by
  have listed : ∀ i ∈ b.insts, ∃ site, f.inst? site = some i := by
    intro i member
    obtain ⟨k, found⟩ := List.mem_iff_getElem?.mp member
    exact ⟨⟨index, k⟩, by simp [Func.inst?, stored, found]⟩
  rw [block_run_steps, block_run_steps]
  refine both_bind _ _ _ _ _ _ (agree_phis f first second agree wf.unique m n agrees b.label pred b.insts listed)
    fun m' n' _ _ entered => ?_
  refine both_bind _ _ _ _ _ _ (agree_exec_all f first second agree b.insts listed m' n' entered)
    fun last other _ _ ran => ?_
  have taken := same_follow last other b.term fun cond branch => ran _ (level index b cond stored branch)
  refine both_bind _ _ _ _ _ _ taken fun next same _ _ targets => ?_
  exact both_ok _ (last, next) (other, same) ⟨ran, targets⟩

theorem agree_run_from (entries : Nat) (here : Label) (pred : Option Label) (m n : Machine) (agrees : m.Agrees n f) :
    Both (fun x y => x.1.Agrees y.1 f) (f.runFrom first entries here pred m) (f.runFrom second entries here pred n) := by
  induction entries generalizing here pred m n with
  | zero =>
      intro x y impossible
      cases impossible
  | succ entries ih =>
      have entered : Both (fun x y => x.1.Agrees y.1 f ∧ ∀ target, x.2 = .enter target ↔ y.2 = .enter target)
          (f.enter first here pred m) (f.enter second here pred n) := by
        intro x y doneX doneY
        obtain ⟨index, b, stored, _, found, runX⟩ := enter_ok f first here pred m x doneX
        obtain ⟨_, c, _, _, again, runY⟩ := enter_ok f second here pred n y doneY
        cases found.symm.trans again
        exact agree_block f wf first second agree level index b pred m n stored agrees x y runX runY
      rw [run_from_succ, run_from_succ]
      refine both_bind _ _ _ _ _ _ entered fun x y _ _ after => ?_
      obtain ⟨m', next⟩ := x
      obtain ⟨n', other⟩ := y
      obtain ⟨still, targets⟩ := after
      cases next with
      | enter target =>
          obtain rfl := (targets target).mp rfl
          exact ih target (some here) m' n' still
      | leave returned =>
          cases other with
          | enter target => cases (targets target).mpr rfl
          | leave given => exact both_ok _ _ _ still

end Lockstep

-- The result of a uniform value, on whatever path it is computed: what its instruction makes of operands that have
-- such results themselves. A phi has a single block to read from.
inductive Func.Determined (f : Func) (inputs : Inputs) : Value → List Const → Prop where
  | step (v : Value) (site : Site) (i : Inst) (m : Machine) (here : Label) (pred : Option Label) (lanes : List Const)
      (defined : f.Defines v site i)
      (operands : ∀ s ∈ i.reads, ∀ xs, m.values[s.value]? = some (some xs) → f.Determined inputs s.value xs)
      (only : i.isPhi = true → ∃ source b, f.preds site.block = [source] ∧ f.blocks[source]? = some b ∧
        pred = some b.label)
      (yields : m.yield inputs here pred i = .ok lanes) : f.Determined inputs v lanes

theorem yield_anywhere (m : Machine) (inputs : Inputs) (here : Label) (pred other : Option Label) (i : Inst)
    (noPhi : i.isPhi = false) : m.yield inputs here pred i = m.yield inputs here other i := by
  cases i with
  | phi dest incoming => cases noPhi
  | input dest slot width divergent => rfl
  | const dest lanes => rfl
  | arith a => rfl
  | output slot src => rfl

theorem determined_unique (f : Func) (unique : f.defs.Nodup) (inputs : Inputs) (v : Value) (lanes others : List Const)
    (one : f.Determined inputs v lanes) (two : f.Determined inputs v others) : lanes = others := by
  induction one generalizing others with
  | step v site i m here pred lanes defined operands only yields ih =>
      obtain ⟨_, place, j, n, there, origin, _, again, determined, single, result⟩ := two
      obtain ⟨rfl, rfl⟩ := defines_unique f unique v site place i j defined again
      have same : ∀ s ∈ i.reads, m.SameAt n s.value := fun s read xs ys storedX storedY =>
        ih s read xs storedX ys (determined s read ys storedY)
      have sameOrigin : n.yield inputs there pred i = .ok others := by
        cases phi : i.isPhi with
        | false =>
            rw [yield_anywhere n inputs there pred origin i phi]
            exact result
        | true =>
            obtain ⟨source, b, preds, inBlock, rfl⟩ := only phi
            obtain ⟨source', b', preds', inBlock', rfl⟩ := single phi
            cases preds.symm.trans preds'
            cases inBlock.symm.trans inBlock'
            exact result
      exact same_yield inputs m n here there pred i same lanes others yields sameOrigin

def Machine.Settled (m : Machine) (f : Func) (inputs : Inputs) : Prop :=
  ∀ v, ¬ f.Varies v → ∀ lanes, m.values[v]? = some (some lanes) → f.Determined inputs v lanes

section Paths

variable (f : Func) (first inputs : Inputs) (agree : first.AgreeOn inputs f)
include agree

theorem settled_yield (m : Machine) (settled : m.Settled f first) (here : Label) (pred : Option Label) (v : Value)
    (site : Site) (i : Inst) (lanes : List Const) (defined : f.Defines v site i) (uniform : ¬ f.Varies v)
    (only : i.isPhi = true → ∃ source b, f.preds site.block = [source] ∧ f.blocks[source]? = some b ∧
      pred = some b.label)
    (yields : m.yield inputs here pred i = .ok lanes) : f.Determined first v lanes := by
  refine .step v site i m here pred lanes defined (fun s read xs stored => ?_) only ?_
  · exact settled s.value (uniform_operand f v site i defined uniform s read) xs stored
  · rw [uniform_yield_inputs f first inputs agree m here pred v site i defined uniform]
    exact yields

theorem settled_exec (m n : Machine) (settled : m.Settled f first) (site : Site) (i : Inst)
    (stored : f.inst? site = some i) (done : m.exec inputs i = .ok n) : n.Settled f first := by
  intro v uniform lanes result
  by_cases writes : i.dest? = some v ∧ i.isPhi = false
  · obtain ⟨dest, noPhi⟩ := writes
    obtain ⟨xs, yields, written⟩ := exec_yield inputs m n 0 none i v noPhi dest done
    rw [(write_value m n v xs written).1] at result
    cases result
    exact settled_yield f first inputs agree m settled 0 none v site i lanes ⟨stored, dest⟩ uniform
      (fun phi => by rw [noPhi] at phi; cases phi) yields
  · rw [exec_untouched inputs m n i v writes done] at result
    exact settled v uniform lanes result

theorem settled_exec_all (insts : List Inst) (listed : ∀ i ∈ insts, ∃ site, f.inst? site = some i) (m n : Machine)
    (settled : m.Settled f first) (done : Machine.execAll inputs insts m = .ok n) : n.Settled f first := by
  induction insts generalizing m with
  | nil =>
      cases done
      exact settled
  | cons i rest ih =>
      obtain ⟨ticked, counted, more⟩ := bind_ok _ _ _ done
      obtain ⟨middle, ran, later⟩ := bind_ok _ _ _ more
      obtain ⟨site, stored⟩ := listed i List.mem_cons_self
      have still : ticked.Settled f first := by
        intro v uniform lanes result
        rw [tick_values m ticked counted] at result
        exact settled v uniform lanes result
      exact ih (fun j member => listed j (List.mem_cons_of_mem i member)) middle
        (settled_exec f first inputs agree ticked middle still site i stored ran) later

end Paths

theorem yield_phi_pred (m : Machine) (inputs : Inputs) (here : Label) (pred : Option Label) (i : Inst)
    (lanes : List Const) (phi : i.isPhi = true) (yields : m.yield inputs here pred i = .ok lanes) :
    ∃ label, pred = some label := by
  cases pred with
  | some label => exact ⟨label, rfl⟩
  | none =>
      cases i with
      | phi dest incoming =>
          obtain ⟨c, got, _⟩ := bind_ok _ _ _ yields
          rw [read_phi_none m here none incoming (by simp)] at got
          cases got
      | input dest slot width divergent => cases phi
      | const dest lanes => cases phi
      | arith a => cases phi
      | output slot src => cases phi

theorem only_pred (f : Func) (source target : Nat) (edge : (source, target) ∈ f.edges)
    (few : ¬ 1 < (f.preds target).length) : f.preds target = [source] := by
  have member : source ∈ f.preds target := (mem_sources_of f.edges source target).mpr edge
  have some := List.length_pos_of_mem member
  obtain ⟨only, same⟩ := List.length_eq_one_iff.mp (show (f.preds target).length = 1 by omega)
  rw [same, List.mem_singleton] at member
  rw [same, member]

def Func.Comes (f : Func) (first : Inputs) (here : Label) (pred : Option Label) (m : Machine) : Prop :=
  m.Settled f first ∧ ∀ label, pred = some label → ∃ source target c d, f.blocks[source]? = some c ∧ c.label = label ∧
    f.blocks[target]? = some d ∧ d.label = here ∧ (source, target) ∈ f.edges

section Divergence

variable (f : Func) (wf : f.WellFormed) (labels : (f.blocks.map Block.label).Nodup) (first inputs : Inputs)
  (agree : first.AgreeOn inputs f) (index : Nat) (b : Block) (cond : Scalar) (inBlock : f.blocks[index]? = some b)
  (branch : b.term.condition? = some cond) (varies : f.Varies cond.value)
include wf labels agree inBlock branch varies

theorem settled_enter (here : Label) (pred : Option Label) (m : Machine) (comes : f.Comes first here pred m)
    (x : Machine × Next) (done : f.enter inputs here pred m = .ok x) :
    x.1.Settled f first ∧ ∀ target, x.2 = .enter target → f.Comes first target (some here) x.1 := by
  obtain ⟨settled, origin⟩ := comes
  obtain ⟨place, c, stored, rfl, _, ran⟩ := enter_ok f inputs here pred m x done
  obtain ⟨ps, entered, read, written, execs, taken⟩ := block_run_ok c inputs pred m x ran
  have listed : ∀ i ∈ c.insts, ∃ site, f.inst? site = some i ∧ site.block = place := by
    intro i member
    obtain ⟨k, found⟩ := List.mem_iff_getElem?.mp member
    exact ⟨⟨place, k⟩, by simp [Func.inst?, stored, found], rfl⟩
  have afterPhis : entered.Settled f first := by
    intro v uniform lanes result
    rcases write_phis_value ps m entered written v lanes result with ⟨e, inPs, rfl⟩ | ⟨_, old⟩
    · obtain ⟨i, inInsts, phi, dest, yields⟩ := read_phis_yield inputs m c.label pred c.insts ps read v e inPs
      obtain ⟨site, there, rfl⟩ := listed i inInsts
      refine settled_yield f first inputs agree m settled c.label pred v site i [e] ⟨there, dest⟩ uniform (fun _ => ?_) yields
      -- with a divergent branch about, a uniform phi has one block before it
      obtain ⟨label, rfl⟩ := yield_phi_pred m inputs c.label pred i [e] phi yields
      obtain ⟨source, target, d, d', inSource, rfl, inTarget, sameLabel, edge⟩ := origin label rfl
      obtain rfl := label_index f labels target site.block d' c inTarget stored sameLabel
      have few : ¬ 1 < (f.preds site.block).length := fun many =>
        uniform (.joined site i v index b cond there dest phi many inBlock branch varies)
      exact ⟨source, d, only_pred f source site.block edge few, inSource, rfl⟩
    · exact settled v uniform lanes old
  have final := settled_exec_all f first inputs agree c.insts (fun i member => (listed i member).imp fun _ => And.left)
    entered x.1 afterPhis execs
  refine ⟨final, fun target next => ⟨final, fun label same => ?_⟩⟩
  cases same
  have successor := follow_successor x.1 c.term target (next ▸ taken)
  obtain ⟨there, located⟩ := wf.targets c (List.mem_of_getElem? stored) target successor
  obtain ⟨d, found, sameLabel⟩ := locate_stored f target there located
  refine ⟨place, there, c, d, stored, rfl, found, sameLabel, (mem_edges f place there).mpr ?_⟩
  exact ⟨c, stored, target, successor, sameLabel ▸ edge_target_index f labels there d found⟩

theorem settled_run_from (entries : Nat) (here : Label) (pred : Option Label) (m : Machine)
    (comes : f.Comes first here pred m) (x : Machine × Option Const)
    (done : f.runFrom inputs entries here pred m = .ok x) : x.1.Settled f first := by
  have entered := settled_enter f wf labels first inputs agree index b cond inBlock branch varies
  have ends := run_from_ends (fun _ => True) f inputs (f.Comes first) trivial (fun here pred m comes => ?_) entries here pred m
    comes
  · rw [done] at ends
    obtain ⟨last, from_, n, there, left⟩ := ends
    exact (entered last from_ n there _ left).1
  · cases result : f.enter inputs here pred m with
    | error stop => trivial
    | ok x => exact (entered here pred m comes x result).2

end Divergence

theorem uniform_values_agree (f : Func) (first second : Inputs) (accepted : f.check = .ok ())
    (labels : (f.blocks.map Block.label).Nodup) (agree : first.AgreeOn second f) (m n : Machine)
    (returned given : Option Const) (doneM : f.runToEnd first = .ok (m, returned))
    (doneN : f.runToEnd second = .ok (n, given)) :
    ∃ flags, f.computeDivergence = .ok flags ∧ ∀ v, flags.has v = false →
      ∀ lanes others, m.values[v]? = some (some lanes) → n.values[v]? = some (some others) → lanes = others := by
  have wf := (check_ok_iff f).mp accepted
  have computed : f.computeDivergence = .ok f.divergent := by
    rw [Func.computeDivergence, (check_ids_ok f).mpr wf.bounded]
    rfl
  refine ⟨f.divergent, computed, fun v unmarked => ?_⟩
  have uniform : ¬ f.Varies v := by
    rw [← divergent_iff f wf, unmarked]
    simp
  have fresh (w : Value) (lanes : List Const) : (Machine.init f).values[w]? ≠ some (some lanes) := by
    simp [Machine.init, Array.getElem?_replicate]
  cases blocks : f.blocks with
  | nil =>
      intro lanes others stored
      rw [Func.runToEnd, blocks] at doneM
      cases doneM
      exact absurd stored (fresh v lanes)
  | cons entry rest =>
      rw [Func.runToEnd, blocks] at doneM doneN
      -- in step as long as no branch varies, otherwise each run on its own
      by_cases level : ∀ (index : Nat) (b : Block) (cond : Scalar), f.blocks[index]? = some b →
          b.term.condition? = some cond → ¬ f.Varies cond.value
      · have start : (Machine.init f).Agrees (Machine.init f) f := fun w _ xs _ stored => absurd stored (fresh w xs)
        exact agree_run_from f wf first second agree level _ _ _ _ _ start _ _ doneM doneN v uniform
      · push Not at level
        obtain ⟨index, b, cond, inBlock, branch, varies⟩ := level
        have start : f.Comes first entry.label none (Machine.init f) :=
          ⟨fun w _ xs stored => absurd stored (fresh w xs), by simp⟩
        have settledM := settled_run_from f wf labels first first (fun _ _ _ _ => rfl) index b cond inBlock branch varies
          _ _ _ _ start _ doneM
        have settledN := settled_run_from f wf labels first second agree index b cond inBlock branch varies _ _ _ _ start _
          doneN
        intro lanes others storedM storedN
        exact determined_unique f wf.unique first v lanes others (settledM v uniform lanes storedM)
          (settledN v uniform others storedN)

-- Two ways to a sum, chosen by a divergent input. The phi behind them tells which was taken, the sum does not.
def forkedSum : Func where
  name := "forked"
  blocks :=
    [⟨0, [.input 0 0 1 false, .input 1 1 1 true, .const 2 [.int 5]], .branch (.of 1) 1 2⟩,
     ⟨1, [.phi 3 [(.of 0, 0)]], .jump 3⟩,
     ⟨2, [], .jump 3⟩,
     ⟨3, [.phi 4 [(.of 0, 1), (.of 2, 2)], .arith (Arith.plain 5 .iadd (.of 0) (.of 2))], .ret (some (.of 4))⟩]
  next := 6
  divergence := none

theorem forked_sum_agrees :
    let first : Inputs := fun slot => if slot = 0 then some [.int 7] else some [.int 0]
    let second : Inputs := fun slot => if slot = 0 then some [.int 7] else some [.int 1]
    forkedSum.check = .ok () ∧ first.AgreeOn second forkedSum ∧
      ∃ m n returned given, forkedSum.runToEnd first = .ok (m, returned) ∧ forkedSum.runToEnd second = .ok (n, given) ∧
        (∃ flags, forkedSum.computeDivergence = .ok flags ∧ flags.has 4 = true ∧ flags.has 5 = false) ∧
        m.values[4]? ≠ n.values[4]? ∧ ∃ lanes, m.values[5]? = some (some lanes) ∧ n.values[5]? = some (some lanes) := by
  intro first second
  have accepted : forkedSum.check = .ok () := by decide +kernel
  have labels : (forkedSum.blocks.map Block.label).Nodup := by decide +kernel
  have agree : first.AgreeOn second forkedSum := by
    intro dest slot width listed
    simp only [Func.insts, forkedSum, List.flatMap_cons, List.flatMap_nil, List.append_nil, List.mem_append, List.mem_cons,
      List.not_mem_nil, Inst.input.injEq, reduceCtorEq, or_false, and_false, Bool.false_eq_true] at listed
    simp [first, second, listed.2.1]
  have ranM : ∃ x, forkedSum.runToEnd first = .ok x ∧ x.1.values[4]? = some (some [.int 5]) ∧
      x.1.values[5]? = some (some [.int 12]) := ⟨_, rfl, by decide +kernel, by decide +kernel⟩
  have ranN : ∃ y, forkedSum.runToEnd second = .ok y ∧ y.1.values[4]? = some (some [.int 7]) ∧
      y.1.values[5]? = some (some [.int 12]) := ⟨_, rfl, by decide +kernel, by decide +kernel⟩
  have flagged : forkedSum.computeDivergence.toOption.map (fun flags => (flags.has 4, flags.has 5)) = some (true, false) := by
    decide +kernel
  obtain ⟨⟨m, returned⟩, doneM, phiM, sumM⟩ := ranM
  obtain ⟨⟨n, given⟩, doneN, phiN, sumN⟩ := ranN
  obtain ⟨flags, computed, same⟩ := uniform_values_agree forkedSum first second accepted labels agree m n returned given
    doneM doneN
  rw [computed] at flagged
  obtain ⟨varies, uniform⟩ := Prod.mk.inj (Option.some.inj flagged)
  have equal := same 5 uniform _ _ sumM sumN
  refine ⟨accepted, agree, m, n, returned, given, doneM, doneN, ⟨flags, computed, varies, uniform⟩, ?_, _, sumM, equal ▸ sumN⟩
  rw [show m.values[4]? = _ from phiM, show n.values[4]? = _ from phiN]
  decide

end Regroup
