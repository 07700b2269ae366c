import Mathlib
import Regroup.Proofs.Stopping

set_option autoImplicit false

namespace Regroup

-- The reasons to stop that a check leaves open: operands of other types, a phi without the entry, and no end in sight.
def Stop.Fair : Stop → Prop
  | .error (.typeMismatch _ _ _) => True
  | .error (.missingPhiEntry _ _) => True
  | .error .stepLimit => True
  | .endless => True
  | .error (.missingInput _) => False
  | .error (.unavailable _) => False
  | .error (.unknownBlock _) => False
  | .trap _ => False

def Func.LanesWithin (f : Func) : Prop :=
  ∀ x ∈ f.ariths, ∀ s ∈ [x.2.lhs, x.2.rhs], ∀ e ∈ f.sited, e.2.dest? = some s.value →
    ∀ lane < x.2.width.toNat, s.comp.toNat + lane < e.2.width.toNat

def Inst.entries : Inst → List (Scalar × Label)
  | .phi _ incoming => incoming
  | .input .. => []
  | .const .. => []
  | .arith _ => []
  | .output .. => []

def Func.EntriesDominated (f : Func) : Prop :=
  ∀ e ∈ f.sited, ∀ entry ∈ e.2.entries, ∀ c ∈ f.blocks.zipIdx, c.1.label = entry.2 →
    ∀ d ∈ f.sited, d.2.dest? = some entry.1.value → f.dominates d.1.block c.2 = true

instance (f : Func) : Decidable f.LanesWithin :=
  inferInstanceAs (Decidable (∀ x ∈ f.ariths, ∀ s ∈ [x.2.lhs, x.2.rhs], ∀ e ∈ f.sited, e.2.dest? = some s.value →
    ∀ lane < x.2.width.toNat, s.comp.toNat + lane < e.2.width.toNat))

instance (f : Func) : Decidable f.EntriesDominated :=
  inferInstanceAs (Decidable (∀ e ∈ f.sited, ∀ entry ∈ e.2.entries, ∀ c ∈ f.blocks.zipIdx, c.1.label = entry.2 →
    ∀ d ∈ f.sited, d.2.dest? = some entry.1.value → f.dominates d.1.block c.2 = true))

def Inputs.Feed (inputs : Inputs) (f : Func) : Prop :=
  ∀ dest slot width divergent, Inst.input dest slot width divergent ∈ f.insts →
    ∃ lanes, inputs slot = some lanes ∧ width.toNat ≤ lanes.length

structure Machine.Stocked (m : Machine) (f : Func) (done : Site → Inst → Prop) : Prop where
  size : m.values.size = f.next
  values : ∀ v site i, f.Defines v site i → done site i →
    ∃ lanes, m.values[v]? = some (some lanes) ∧ i.width.toNat ≤ lanes.length

-- What has been computed when control is at the place: all before it, and the phis of its block.
def Func.Computed (f : Func) (place site : Site) (i : Inst) : Prop :=
  f.precedes site place = true ∨ (i.isPhi = true ∧ site.block = place.block)

theorem precedes_succ (f : Func) (site : Site) (index k : Nat) (before : f.precedes site ⟨index, k + 1⟩ = true) :
    site = ⟨index, k⟩ ∨ f.precedes site ⟨index, k⟩ = true := by
  obtain ⟨block, inst⟩ := site
  unfold Func.precedes at before ⊢
  by_cases sameBlock : block = index
  · simp only [sameBlock, if_true, decide_eq_true_eq, Site.mk.injEq, true_and] at before ⊢
    omega
  · simp only [sameBlock, if_false] at before ⊢
    exact Or.inr before

theorem precedes_end (f : Func) (site : Site) (i : Inst) (index : Nat) (b : Block) (stored : f.inst? site = some i)
    (inBlock : f.blocks[index]? = some b) (dominated : f.dominates site.block index = true) :
    f.precedes site ⟨index, b.insts.length⟩ = true := by
  unfold Func.precedes
  by_cases same : site.block = index
  · obtain ⟨c, there, found⟩ := Option.bind_eq_some_iff.mp stored
    rw [same, inBlock] at there
    cases there
    simpa [same] using (List.getElem?_eq_some_iff.mp found).1
  · simpa [same] using dominated

section Machine

variable (f : Func) (m : Machine) (done : Site → Inst → Prop)

theorem stocked_mono (fewer : Site → Inst → Prop) (stock : m.Stocked f done)
    (less : ∀ v site i, f.Defines v site i → fewer site i → done site i) : m.Stocked f fewer :=
  ⟨stock.size, fun v site i defined there => stock.values v site i defined (less v site i defined there)⟩

theorem stocked_get (stock : m.Stocked f done) (s : Scalar) (site : Site) (i : Inst) (defined : f.Defines s.value site i)
    (there : done site i) (narrow : s.comp.toNat < i.width.toNat) : ∃ c, m.get? s = some c := by
  obtain ⟨lanes, stored, wide⟩ := stock.values s.value site i defined there
  have inside : s.comp.toNat < lanes.length := Nat.lt_of_lt_of_le narrow wide
  exact ⟨lanes[s.comp.toNat], by simp [Machine.get?, stored, inside]⟩

theorem stocked_write (wf : f.WellFormed) (stock : m.Stocked f done) (v : Value) (site : Site) (i : Inst)
    (lanes : List Const) (defined : f.Defines v site i) (wide : i.width.toNat ≤ lanes.length) :
    ∃ n, m.write v lanes = .ok n ∧ n.Stocked f (fun place j => done place j ∨ place = site) := by
  have inside : v < m.values.size := stock.size ▸ defines_bounded f wf v site i defined
  have written : m.write v lanes = .ok { m with values := m.values.setIfInBounds v (some lanes) } := if_pos inside
  refine ⟨_, written, ?_, fun w place j there either => ?_⟩
  · simpa using stock.size
  · by_cases same : w = v
    · subst same
      obtain ⟨_, rfl⟩ := defines_unique f wf.unique w place site j i there defined
      exact ⟨lanes, by simp [inside], wide⟩
    · rw [write_other m _ v w lanes written same]
      refine stock.values w place j there (either.resolve_right fun here => ?_)
      rw [here] at there
      have equal := there.1.symm.trans defined.1
      cases equal
      exact same (Option.some.inj (there.2.symm.trans defined.2))

end Machine

section Steps

variable (f : Func) (wf : f.WellFormed) (inputs : Inputs)
include wf

theorem stocked_read (m : Machine) (place : Site) (stock : m.Stocked f (f.Computed place)) (s : Scalar)
    (ready : f.Ready s.value place) (narrow : ∃ site i, f.Defines s.value site i ∧ s.comp < i.width) :
    ∃ c, m.read s = .ok c := by
  obtain ⟨site, i, defined, before⟩ := ready
  obtain ⟨spot, j, again, less⟩ := narrow
  obtain ⟨_, rfl⟩ := defines_unique f wf.unique s.value site spot i j defined again
  obtain ⟨c, got⟩ := stocked_get f m _ stock s site i defined (Or.inl before) (UInt8.lt_iff_toNat_lt.mp less)
  exact ⟨c, by rw [Machine.read, got]⟩

omit wf in
theorem lane_within (s : Scalar) (lane : Nat) (width : UInt8) (narrow : s.comp.toNat + lane < width.toNat) :
    ∃ t, s.lane? lane = some t ∧ t.value = s.value ∧ t.comp < width := by
  have byte := width.toNat_lt
  have small : s.comp.toNat + lane < 256 := by omega
  have next : s.lane? lane = some ⟨s.value, UInt8.ofNat (s.comp.toNat + lane)⟩ := if_pos small
  exact ⟨_, next, rfl, by rw [UInt8.lt_iff_toNat_lt, UInt8.toNat_ofNat_of_lt' small]; exact narrow⟩

theorem stocked_lane (within : f.LanesWithin) (m : Machine) (place : Site) (a : Arith)
    (stored : f.inst? place = some (.arith a)) (stock : m.Stocked f (f.Computed place)) (s : Scalar)
    (read : s ∈ [a.lhs, a.rhs]) (lane : Nat) (less : lane < a.width.toNat) : ∃ c, m.readLane s lane = .ok c := by
  obtain ⟨site, i, defined, before⟩ := read_ready f wf place _ s stored read rfl
  have narrow : s.comp.toNat + lane < i.width.toNat := within (place, a) ((mem_ariths f place a).mpr stored) s read (site, i)
    ((mem_sited f site i).mpr defined.1) defined.2 lane less
  obtain ⟨t, next, same, inside⟩ := lane_within s lane i.width narrow
  obtain ⟨c, got⟩ := stocked_get f m _ stock t site i (same ▸ defined) (Or.inl before) (UInt8.lt_iff_toNat_lt.mp inside)
  exact ⟨c, by simp only [Machine.readLane, next, Machine.read, got]⟩

theorem stocked_arith (within : f.LanesWithin) (m : Machine) (place : Site) (a : Arith)
    (stored : f.inst? place = some (.arith a)) (stock : m.Stocked f (f.Computed place)) :
    Ends Stop.Fair (fun lanes => lanes.length = a.width.toNat) ((List.range a.width.toNat).mapM (m.arithLane a)) := by
  have each : ∀ lane ∈ List.range a.width.toNat, Ends Stop.Fair (fun _ => True) (m.arithLane a lane) := by
    intro lane listed
    have less := List.mem_range.mp listed
    obtain ⟨x, left⟩ := stocked_lane f wf within m place a stored stock a.lhs (by simp) lane less
    obtain ⟨y, right⟩ := stocked_lane f wf within m place a stored stock a.rhs (by simp) lane less
    rw [Machine.arithLane, left, right]
    cases result : a.op.apply x y with
    | none => simp [Op.lane, result, bind, Except.bind, Ends, Stop.Fair]
    | some c => simp [Op.lane, result, bind, Except.bind, Ends]
  simpa using ends_map_m Stop.Fair _ _ each

theorem stocked_exec (within : f.LanesWithin) (fed : inputs.Feed f) (m : Machine) (index k : Nat) (i : Inst)
    (stored : f.inst? ⟨index, k⟩ = some i) (stock : m.Stocked f (f.Computed ⟨index, k⟩)) :
    Ends Stop.Fair (fun n => n.Stocked f (f.Computed ⟨index, k + 1⟩)) (m.exec inputs i) := by
  have later (v : Value) (site : Site) (j : Inst) (defined : f.Defines v site j)
      (computed : f.Computed ⟨index, k + 1⟩ site j) : f.Computed ⟨index, k⟩ site j ∨ site = ⟨index, k⟩ := by
    rcases computed with before | phi
    · exact (precedes_succ f site index k before).symm.imp_left Or.inl
    · exact Or.inl (Or.inr phi)
  have wrote (v : Value) (lanes : List Const) (dest : i.dest? = some v) (wide : i.width.toNat ≤ lanes.length) :
      Ends Stop.Fair (fun n => n.Stocked f (f.Computed ⟨index, k + 1⟩)) (m.write v lanes) := by
    obtain ⟨n, written, more⟩ := stocked_write f m _ wf stock v ⟨index, k⟩ i lanes ⟨stored, dest⟩ wide
    rw [written]
    exact stocked_mono f n _ _ more later
  cases i with
  | input dest slot width divergent =>
      obtain ⟨lanes, given, wide⟩ := fed dest slot width divergent ((mem_insts f _).mpr ⟨_, stored⟩)
      rw [Machine.exec, given]
      exact wrote dest lanes rfl wide
  | const dest lanes => exact wrote dest lanes rfl (by simpa [Inst.width] using Nat.mod_le lanes.length 256)
  | arith a =>
      refine ends_bind _ _ _ _ _ (stocked_arith f wf within m _ a stored stock) fun lanes length => ?_
      exact wrote a.dest lanes rfl (Nat.le_of_eq length.symm)
  | phi dest incoming =>
      refine stocked_mono f m _ _ stock fun v site j defined computed => ?_
      rcases later v site j defined computed with before | here
      · exact before
      · subst here
        have same := stored.symm.trans defined.1
        cases same
        exact Or.inr ⟨rfl, rfl⟩
  | output slot src =>
      have operand := List.mem_singleton_self src
      obtain ⟨c, got⟩ := stocked_read f wf m _ stock src (read_ready f wf _ _ src stored operand rfl)
        (read_defined f wf _ _ src stored operand)
      rw [Machine.exec, got]
      refine stocked_mono f { m with outputs := putOutput slot c m.outputs } _ _ ⟨stock.size, stock.values⟩ ?_
      intro v site j defined computed
      refine (later v site j defined computed).resolve_right fun here => ?_
      subst here
      have same := stored.symm.trans defined.1
      cases same
      cases defined.2

theorem stocked_exec_all (within : f.LanesWithin) (fed : inputs.Feed f) (index : Nat) (insts : List Inst) (start : Nat)
    (m : Machine) (stored : ∀ k i, insts[k]? = some i → f.inst? ⟨index, start + k⟩ = some i)
    (stock : m.Stocked f (f.Computed ⟨index, start⟩)) :
    Ends Stop.Fair (fun n => n.Stocked f (f.Computed ⟨index, start + insts.length⟩)) (Machine.execAll inputs insts m) := by
  induction insts generalizing start m with
  | nil => exact stock
  | cons i rest ih =>
      have ticked : Ends Stop.Fair (fun n => n.Stocked f (f.Computed ⟨index, start⟩)) m.tick := by
        by_cases more : m.steps < stepLimit
        · rw [Machine.tick, if_pos more]
          exact ⟨stock.size, stock.values⟩
        · rw [Machine.tick, if_neg more]
          trivial
      rw [Machine.execAll]
      refine ends_bind _ _ _ _ _ ticked fun m' still => ?_
      refine ends_bind _ _ _ _ _ (stocked_exec f wf inputs within fed m' index start i (stored 0 i rfl) still) ?_
      intro n after
      have later := ih (start + 1) n (fun k j found => ?_) after
      · rw [List.length_cons, Nat.add_comm rest.length 1, ← Nat.add_assoc]
        exact later
      · rw [Nat.add_assoc, Nat.add_comm 1 k]
        exact stored (k + 1) j found

omit wf in
theorem read_phis_firsts (m : Machine) (here : Label) (pred : Option Label) (insts : List Inst)
    (ps : List (Value × Const)) (done : m.readPhis here pred insts = .ok ps) :
    ps.map Prod.fst = (insts.filter Inst.isPhi).filterMap Inst.dest? := by
  induction insts generalizing ps with
  | nil =>
      cases done
      rfl
  | cons i rest ih =>
      cases i with
      | input dest slot width divergent => exact ih ps done
      | const dest lanes => exact ih ps done
      | arith a => exact ih ps done
      | output slot src => exact ih ps done
      | phi dest incoming =>
          obtain ⟨c, _, more⟩ := bind_ok _ _ _ done
          obtain ⟨qs, later, made⟩ := bind_ok _ _ _ more
          cases made
          exact congrArg (dest :: ·) (ih qs later)

omit wf in
theorem ends_read_phis (m : Machine) (here : Label) (pred : Option Label) (insts : List Inst)
    (supplied : ∀ i ∈ insts, ∀ entry ∈ i.entries, some entry.2 = pred → ∃ c, m.get? entry.1 = some c) :
    Ends Stop.Fair (fun _ => True) (m.readPhis here pred insts) := by
  induction insts with
  | nil => trivial
  | cons i rest ih =>
      have later := ih fun j member => supplied j (List.mem_cons_of_mem i member)
      cases i with
      | input dest slot width divergent => exact later
      | const dest lanes => exact later
      | arith a => exact later
      | output slot src => exact later
      | phi dest incoming =>
          have first : Ends Stop.Fair (fun _ => True) (m.readPhi here pred incoming) := by
            cases found : incoming.find? fun x => some x.2 = pred with
            | none =>
                rw [read_phi_none m here pred incoming found]
                trivial
            | some entry =>
                obtain ⟨c, got⟩ := supplied _ List.mem_cons_self entry (List.mem_of_find?_eq_some found)
                  (by simpa using List.find?_some found)
                rw [read_phi_some m here pred incoming entry found, Machine.read, got]
                trivial
          exact ends_bind _ _ _ _ _ first fun c _ => ends_bind _ _ _ _ _ later fun ps _ => trivial

theorem stocked_write_phis (ps : List (Value × Const)) (m : Machine) (done : Site → Inst → Prop)
    (stock : m.Stocked f done) (defined : ∀ p ∈ ps, ∃ site i, f.Defines p.1 site i ∧ i.width = 1) :
    Ends Stop.Fair (fun n => n.Stocked f (fun site i => done site i ∨ ∃ p ∈ ps, i.dest? = some p.1))
      (Machine.writePhis ps m) := by
  induction ps generalizing m done with
  | nil => exact stocked_mono f m _ _ stock fun v site i _ either => either.resolve_right (by simp)
  | cons p rest ih =>
      obtain ⟨site, i, defines, scalar⟩ := defined p List.mem_cons_self
      obtain ⟨n, written, more⟩ := stocked_write f m _ wf stock p.1 site i [p.2] defines (by simp [scalar])
      have later := ih n _ more fun q member => defined q (List.mem_cons_of_mem p member)
      rw [Machine.writePhis, written]
      refine ends_results _ _ _ _ later fun last _ full => stocked_mono f last _ _ full ?_
      intro v place j there either
      rcases either with before | ⟨q, member, dest⟩
      · exact Or.inl (Or.inl before)
      · rcases List.mem_cons.mp member with same | behind
        · have again : f.Defines p.1 place j := ⟨there.1, by rw [dest, same]⟩
          exact Or.inl (Or.inr (defines_unique f wf.unique p.1 place site j i again defines).1)
        · exact Or.inr ⟨q, behind, dest⟩

theorem stocked_follow (m : Machine) (index : Nat) (b : Block) (stored : f.blocks[index]? = some b)
    (stock : m.Stocked f (f.Computed ⟨index, b.insts.length⟩)) :
    Ends Stop.Fair (fun next => m.follow b.term = .ok next) (m.follow b.term) := by
  have reads : ∀ s ∈ b.term.reads, ∃ c, m.read s = .ok c := by
    intro s read
    refine stocked_read f wf m _ stock s ?_ (terminator_read_defined f wf index b s stored read)
    exact wf.ordered ⟨s, ⟨index, b.insts.length⟩, none, true⟩
      ((mem_operands f _).mpr (Or.inr ⟨index, b, stored, s, read, rfl⟩)) rfl
  cases term : b.term with
  | ret src =>
      cases src with
      | none => exact rfl
      | some s =>
          obtain ⟨c, got⟩ := reads s (by simp [term, Terminator.reads])
          rw [Machine.follow, got]
          exact rfl
  | jump target => exact rfl
  | branch cond onTrue onFalse =>
      obtain ⟨c, got⟩ := reads cond (by simp [term, Terminator.reads])
      rw [Machine.follow, got]
      exact rfl

theorem stocked_block (within : f.LanesWithin) (fed : inputs.Feed f) (m : Machine) (index : Nat) (b : Block)
    (pred : Option Label) (stored : f.blocks[index]? = some b)
    (stock : m.Stocked f (fun site _ => f.precedes site ⟨index, 0⟩ = true))
    (supplied : ∀ i ∈ b.insts, ∀ entry ∈ i.entries, some entry.2 = pred → ∃ c, m.get? entry.1 = some c) :
    Ends Stop.Fair (fun x => x.1.Stocked f (fun site _ => f.precedes site ⟨index, b.insts.length⟩ = true) ∧
      x.1.follow b.term = .ok x.2) (b.run inputs pred m) := by
  have listed (k : Nat) (i : Inst) (found : b.insts[k]? = some i) : f.inst? ⟨index, 0 + k⟩ = some i := by
    rw [Nat.zero_add]
    simp [Func.inst?, stored, found]
  have entered : Ends Stop.Fair (fun n => n.Stocked f (f.Computed ⟨index, 0⟩))
      (m.readPhis b.label pred b.insts >>= fun ps => Machine.writePhis ps m) := by
    have read := ends_results _ _ _ _ (ends_read_phis m b.label pred b.insts supplied)
      fun ps done _ => read_phis_firsts m b.label pred b.insts ps done
    refine ends_bind _ _ _ _ _ read fun ps dests => ?_
    have inPhis (v : Value) : v ∈ ps.map Prod.fst ↔ ∃ i ∈ b.insts, i.isPhi = true ∧ i.dest? = some v := by
      rw [dests]
      simp only [List.mem_filterMap, List.mem_filter, and_assoc]
    refine ends_results _ _ _ _ (stocked_write_phis f wf ps m _ stock fun p member => ?_) fun n _ more => ?_
    · obtain ⟨i, inBlock, phi, dest⟩ := (inPhis p.1).mp (List.mem_map_of_mem member)
      obtain ⟨k, found⟩ := List.mem_iff_getElem?.mp inBlock
      exact ⟨_, i, ⟨listed k i found, dest⟩, by cases i <;> simp_all [Inst.isPhi, Inst.width]⟩
    · refine stocked_mono f n _ _ more fun v site i defined computed => ?_
      rcases computed with before | ⟨phi, here⟩
      · exact Or.inl before
      · obtain ⟨c, there, found⟩ := Option.bind_eq_some_iff.mp defined.1
        rw [here, stored] at there
        cases there
        obtain ⟨p, member, same⟩ := List.mem_map.mp ((inPhis v).mpr ⟨i, List.mem_of_getElem? found, phi, defined.2⟩)
        exact Or.inr ⟨p, member, by rw [same]; exact defined.2⟩
  rw [block_run_steps]
  refine ends_bind _ _ _ _ _ entered fun m' ready => ?_
  refine ends_bind _ _ _ _ _ (stocked_exec_all f wf inputs within fed index b.insts 0 m' listed ready) fun last full => ?_
  rw [Nat.zero_add] at full
  refine ends_bind _ _ _ _ _ (stocked_follow f wf last index b stored full) fun next taken => ?_
  exact ⟨stocked_mono f last _ _ full fun v site i _ before => Or.inl before, taken⟩

end Steps

theorem locate_stored (f : Func) (label : Label) (index : Nat) (found : f.locate? label = some index) :
    ∃ b, f.blocks[index]? = some b ∧ b.label = label := by
  obtain ⟨inside, same, _⟩ := List.findIdx?_eq_some_iff_getElem.mp found
  exact ⟨_, List.getElem?_eq_getElem inside, by simpa using same⟩

theorem find_label (f : Func) (labels : (f.blocks.map Block.label).Nodup) (index : Nat) (b : Block)
    (stored : f.blocks[index]? = some b) : f.blocks.find? (·.label = b.label) = some b := by
  cases found : f.blocks.find? (·.label = b.label) with
  | none => exact absurd (by simp) (List.find?_eq_none.mp found b (List.mem_of_getElem? stored))
  | some c =>
      obtain ⟨other, there⟩ := List.mem_iff_getElem?.mp (List.mem_of_find?_eq_some found)
      have same : c.label = b.label := by simpa using List.find?_some found
      rw [label_index f labels other index c b there stored same, stored] at there
      exact there.symm

theorem entry_read (i : Inst) (entry : Scalar × Label) (listed : entry ∈ i.entries) : entry.1 ∈ i.reads := by
  cases i with
  | phi dest incoming => exact List.mem_map_of_mem listed
  | input dest slot width divergent => cases listed
  | const dest lanes => cases listed
  | arith a => cases listed
  | output slot src => cases listed

-- Control may enter the block with the label from the block `pred`, if there is one: it has run to its end.
def Func.Enters (f : Func) (here : Label) (pred : Option Label) (m : Machine) : Prop :=
  ∃ index b, f.blocks[index]? = some b ∧ b.label = here ∧ f.Reaches none index ∧
    m.Stocked f (fun site _ => f.precedes site ⟨index, 0⟩ = true) ∧
    ∀ label, pred = some label → ∃ source c, f.blocks[source]? = some c ∧ c.label = label ∧
      m.Stocked f (fun site _ => f.precedes site ⟨source, c.insts.length⟩ = true)

section Run

variable (f : Func) (wf : f.WellFormed) (labels : (f.blocks.map Block.label).Nodup) (within : f.LanesWithin)
  (dominated : f.EntriesDominated) (inputs : Inputs) (fed : inputs.Feed f)
include wf labels

theorem enters_next (m : Machine) (index : Nat) (b : Block) (target : Label) (path : f.Reaches none index)
    (stored : f.blocks[index]? = some b)
    (stock : m.Stocked f (fun site _ => f.precedes site ⟨index, b.insts.length⟩ = true))
    (taken : m.follow b.term = .ok (.enter target)) : f.Enters target (some b.label) m := by
  have successor := follow_successor m b.term target taken
  obtain ⟨there, located⟩ := wf.targets b (List.mem_of_getElem? stored) target successor
  obtain ⟨c, found, label⟩ := locate_stored f target there located
  have edge : (index, there) ∈ f.edges := by
    rw [mem_edges]
    exact ⟨b, stored, target, successor, label ▸ edge_target_index f labels there c found⟩
  refine ⟨there, c, found, label, .cross index there path edge (by simp), ?_, fun pred same => ?_⟩
  · refine stocked_mono f m _ _ stock fun v site i defined before => ?_
    refine precedes_enter f site index there b path edge (fun here => ?_) before
    obtain ⟨d, inBlock, at_⟩ := Option.bind_eq_some_iff.mp defined.1
    rw [here, stored] at inBlock
    cases inBlock
    exact (List.getElem?_eq_some_iff.mp at_).1
  · cases same
    exact ⟨index, b, stored, rfl, stock⟩

include within dominated fed

theorem enter_stocked (here : Label) (pred : Option Label) (m : Machine) (enters : f.Enters here pred m) :
    Ends Stop.Fair (fun x => ∀ target, x.2 = .enter target → f.Enters target (some here) x.1)
      (f.enter inputs here pred m) := by
  obtain ⟨index, b, stored, rfl, path, stock, source⟩ := enters
  have supplied : ∀ i ∈ b.insts, ∀ entry ∈ i.entries, some entry.2 = pred → ∃ c, m.get? entry.1 = some c := by
    intro i member entry listed same
    obtain ⟨k, found⟩ := List.mem_iff_getElem?.mp member
    have there : f.inst? ⟨index, k⟩ = some i := by simp [Func.inst?, stored, found]
    obtain ⟨from_, c, ran, label, full⟩ := source entry.2 same.symm
    obtain ⟨place, j, defined, narrow⟩ := read_defined f wf _ i entry.1 there (entry_read i entry listed)
    have above := dominated (⟨index, k⟩, i) ((mem_sited f _ i).mpr there) entry listed (c, from_)
      (List.mem_zipIdx_iff_getElem?.mpr ran) label (place, j) ((mem_sited f place j).mpr defined.1) defined.2
    exact stocked_get f m _ full entry.1 place j defined (precedes_end f place j from_ c defined.1 ran above)
      (UInt8.lt_iff_toNat_lt.mp narrow)
  rw [Func.enter, find_label f labels index b stored]
  refine ends_results _ _ _ _ (stocked_block f wf inputs within fed m index b pred stored stock supplied) fun x _ after target next => ?_
  exact enters_next f wf labels x.1 index b target path stored after.1 (next ▸ after.2)

theorem run_to_end_fair : Ends Stop.Fair (fun _ => True) (f.runToEnd inputs) := by
  cases blocks : f.blocks with
  | nil => simp [Func.runToEnd, blocks, Ends]
  | cons entry rest =>
      have first : f.blocks[0]? = some entry := by rw [blocks]; rfl
      have some : 0 < f.blocks.length := (List.getElem?_eq_some_iff.mp first).1
      have start : f.Enters entry.label none (Machine.init f) := by
        refine ⟨0, entry, first, rfl, .entry some (by simp), ⟨by simp [Machine.init], ?_⟩, by simp⟩
        intro v site i _ before
        rw [precedes_entry f site some] at before
        cases before
      rw [Func.runToEnd, blocks]
      have ran := run_from_ends Stop.Fair f inputs f.Enters trivial (enter_stocked f wf labels within dominated inputs fed)
        f.entryBound entry.label none _ start
      exact ends_results _ _ _ _ ran fun _ _ _ => trivial

end Run

theorem checked_run_lacks_nothing (f : Func) (inputs : Inputs) (accepted : f.check = .ok ())
    (labels : (f.blocks.map Block.label).Nodup) (within : f.LanesWithin) (dominated : f.EntriesDominated)
    (fed : inputs.Feed f) :
    (∀ s, f.run inputs ≠ .error (.error (.unavailable s))) ∧
    (∀ label, f.run inputs ≠ .error (.error (.unknownBlock label))) ∧
    (∀ slot, f.run inputs ≠ .error (.error (.missingInput slot))) ∧
    ∀ trap, f.run inputs ≠ .error (.trap trap) := by
  have fair : Ends Stop.Fair (fun _ => True) (f.run inputs) := by
    refine ends_bind _ _ _ _ _
      (run_to_end_fair f ((check_ok_iff f).mp accepted) labels within dominated inputs fed) fun x _ => ?_
    trivial
  refine ⟨fun s same => ?_, fun label same => ?_, fun slot same => ?_, fun trap same => ?_⟩
  all_goals
    rw [same] at fair
    exact fair

def pairLoop : Func where
  name := "pairs"
  blocks :=
    [⟨0, [.input 0 0 2 false, .const 1 [.int 1, .int 2]], .jump 1⟩,
     ⟨1, [.phi 2 [(⟨0, 1⟩, 0), (⟨3, 1⟩, 1)], .arith { Arith.plain 3 .iadd (.of 0) (.of 1) with width := 2 },
        .arith (Arith.plain 4 .isub (.of 2) ⟨3, 1⟩)], .branch (.of 4) 1 2⟩,
     ⟨2, [.output 0 ⟨3, 1⟩], .ret (some (.of 2))⟩]
  next := 5
  divergence := none

theorem pair_loop_lacks_nothing : pairLoop.check = .ok () ∧ (pairLoop.blocks.map Block.label).Nodup ∧
    pairLoop.LanesWithin ∧ pairLoop.EntriesDominated ∧ Inputs.Feed (fun _ => some [.int 3, .int 4]) pairLoop ∧
    ∀ s, pairLoop.run (fun _ => some [.int 3, .int 4]) ≠ .error (.error (.unavailable s)) := by
  have accepted : pairLoop.check = .ok () := by decide +kernel
  have labels : (pairLoop.blocks.map Block.label).Nodup := by decide +kernel
  have within : pairLoop.LanesWithin := by decide +kernel
  have dominated : pairLoop.EntriesDominated := by decide +kernel
  have fed : Inputs.Feed (fun _ => some [.int 3, .int 4]) pairLoop := by
    intro dest slot width divergent listed
    simp only [Func.insts, pairLoop, List.flatMap_cons, List.flatMap_nil, List.append_nil, List.mem_append, List.mem_cons,
      List.not_mem_nil, Inst.input.injEq, reduceCtorEq, or_false] at listed
    obtain ⟨_, _, rfl, _⟩ := listed
    exact ⟨_, rfl, by decide⟩
  exact ⟨accepted, labels, within, dominated, fed,
    (checked_run_lacks_nothing pairLoop _ accepted labels within dominated fed).1⟩

end Regroup
