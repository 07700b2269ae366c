import Mathlib
import Regroup.Proofs.Supply

set_option autoImplicit false

namespace Regroup

def Func.Spans (f : Func) (a : Arith) : Prop :=
  ∀ s ∈ [a.lhs, a.rhs], ∀ e ∈ f.sited, e.2.dest? = some s.value → s.comp.toNat + a.width.toNat ≤ e.2.width.toNat

def Func.SpansVectors (f : Func) : Prop := ∀ x ∈ f.ariths, 1 < x.2.width.toNat → f.Spans x.2

def Machine.Measured (m : Machine) (f : Func) : Prop :=
  ∀ e ∈ f.sited, ∀ v ∈ e.2.dest?, ∀ lanes ∈ m.values[v]?.join, lanes.length ≤ e.2.width.toNat

instance (f : Func) (a : Arith) : Decidable (f.Spans a) :=
  inferInstanceAs (Decidable (∀ s ∈ [a.lhs, a.rhs], ∀ e ∈ f.sited, e.2.dest? = some s.value →
    s.comp.toNat + a.width.toNat ≤ e.2.width.toNat))

instance (f : Func) : Decidable f.SpansVectors :=
  inferInstanceAs (Decidable (∀ x ∈ f.ariths, 1 < x.2.width.toNat → f.Spans x.2))

instance (m : Machine) (f : Func) : Decidable (m.Measured f) :=
  inferInstanceAs (Decidable (∀ e ∈ f.sited, ∀ v ∈ e.2.dest?, ∀ lanes ∈ m.values[v]?.join,
    lanes.length ≤ e.2.width.toNat))

def Func.Declares (f : Func) (s : Scalar) : Prop := ∃ site i, f.Defines s.value site i ∧ s.comp < i.width

-- Lanes are not the reason to stop: they do not run past the last component, and a component that was not there is
-- one that the function declares.
structure Func.Spares (f : Func) (stop : Stop) : Prop where
  counted : stop ≠ .trap .laneOverflow
  declared : ∀ s, stop = .error (.unavailable s) → f.Declares s

theorem spares_unavailable (f : Func) (s : Scalar) (declared : f.Declares s) : f.Spares (.error (.unavailable s)) where
  counted := Stop.noConfusion
  declared t same := by
    cases same
    exact declared

theorem spares_ordinary (f : Func) (stop : Stop) (ordinary : stop.Ordinary) : f.Spares stop where
  counted same := by
    rw [same] at ordinary
    exact ordinary
  declared s same := by
    rw [same] at ordinary
    exact ordinary.elim

theorem map_m_each {α β : Type} (items : List α) (next : α → Except Stop β) (results : List β)
    (done : items.mapM next = .ok results) : ∀ x ∈ items, ∃ y, next x = .ok y := by
  induction items generalizing results with
  | nil => simp
  | cons first rest ih =>
      rw [List.mapM_cons] at done
      obtain ⟨y, got, more⟩ := bind_ok _ _ _ done
      obtain ⟨ys, later, _⟩ := bind_ok _ _ _ more
      intro x member
      cases member with
      | head => exact ⟨y, got⟩
      | tail _ behind => exact ih ys later x behind

theorem read_lane_stored (m : Machine) (s : Scalar) (lane : Nat) (c : Const) (done : m.readLane s lane = .ok c) :
    ∃ lanes, m.values[s.value]? = some (some lanes) ∧ s.comp.toNat + lane < lanes.length := by
  by_cases small : s.comp.toNat + lane < 256
  · have next : s.lane? lane = some ⟨s.value, UInt8.ofNat (s.comp.toNat + lane)⟩ := if_pos small
    rw [Machine.readLane, next] at done
    obtain ⟨lanes, stored, found⟩ := read_stored m _ c done
    have inside := (List.getElem?_eq_some_iff.mp found).1
    rw [UInt8.toNat_ofNat_of_lt' small] at inside
    exact ⟨lanes, stored, inside⟩
  · have next : s.lane? lane = none := if_neg small
    rw [Machine.readLane, next] at done
    cases done

section Checked

variable (f : Func) (wf : f.WellFormed)
include wf

theorem first_lane_within (site : Site) (a : Arith) (stored : f.inst? site = some (.arith a)) (s : Scalar)
    (read : s ∈ [a.lhs, a.rhs]) (e : Site × Inst) (member : e ∈ f.sited) (dest : e.2.dest? = some s.value) :
    s.comp.toNat < e.2.width.toNat := by
  obtain ⟨place, j, defined, narrow⟩ := read_defined f wf site (.arith a) s stored read
  have listed : f.Defines s.value e.1 e.2 := ⟨(mem_sited f e.1 e.2).mp member, dest⟩
  obtain ⟨_, same⟩ := defines_unique f wf.unique s.value place e.1 j e.2 defined listed
  rw [same] at narrow
  exact UInt8.lt_iff_toNat_lt.mp narrow

theorem lanes_within_iff : f.LanesWithin ↔ f.SpansVectors := by
  constructor
  · intro within x listed wide s read e member dest
    have last := within x listed s read e member dest (x.2.width.toNat - 1) (by omega)
    omega
  · intro spans x listed s read e member dest lane less
    by_cases wide : 1 < x.2.width.toNat
    · have ends := spans x listed wide s read e member dest
      omega
    · have first := first_lane_within f wf x.1 x.2 ((mem_ariths f x.1 x.2).mp listed) s read e member dest
      omega

theorem spares_shortfall (within : f.LanesWithin) (site : Site) (a : Arith) (stored : f.inst? site = some (.arith a))
    (s : Scalar) (read : s ∈ [a.lhs, a.rhs]) (lane : Nat) (less : lane < a.width.toNat) :
    f.Spares (s.shortfall lane) := by
  obtain ⟨place, j, defined, _⟩ := read_defined f wf site (.arith a) s stored read
  have narrow : s.comp.toNat + lane < j.width.toNat := within (site, a) ((mem_ariths f site a).mpr stored) s read
    (place, j) ((mem_sited f place j).mpr defined.1) defined.2 lane less
  obtain ⟨t, next, same, inside⟩ := lane_within s lane j.width narrow
  rw [Scalar.shortfall, next]
  exact spares_unavailable f t ⟨place, j, same ▸ defined, inside⟩

theorem spares_inst (within : f.LanesWithin) (site : Site) (i : Inst) (stored : f.inst? site = some i) :
    ∀ stop ∈ i.shortfalls, f.Spares stop := by
  have operand (s : Scalar) (read : s ∈ i.reads) : f.Spares (.error (.unavailable s)) :=
    spares_unavailable f s (read_defined f wf site i s stored read)
  intro stop member
  cases i with
  | input dest slot width divergent => cases member
  | const dest lanes => cases member
  | arith a =>
      obtain ⟨lane, listed, either⟩ := List.mem_flatMap.mp member
      have less := List.mem_range.mp listed
      simp only [List.mem_cons, List.not_mem_nil, or_false] at either
      cases either with
      | inl left =>
          rw [left]
          exact spares_shortfall f wf within site a stored a.lhs (by simp) lane less
      | inr right =>
          rw [right]
          exact spares_shortfall f wf within site a stored a.rhs (by simp) lane less
  | phi dest incoming =>
      obtain ⟨entry, listed, rfl⟩ := List.mem_map.mp member
      exact operand entry.1 (List.mem_map_of_mem listed)
  | output slot src =>
      cases List.mem_singleton.mp member
      exact operand src (List.mem_singleton_self src)

theorem spares_block (within : f.LanesWithin) (b : Block) (member : b ∈ f.blocks) :
    ∀ stop ∈ b.shortfalls, f.Spares stop := by
  obtain ⟨index, inFunc⟩ := List.mem_iff_getElem?.mp member
  intro stop listed
  cases List.mem_append.mp listed with
  | inl inInsts =>
      obtain ⟨i, inBlock, missing⟩ := List.mem_flatMap.mp inInsts
      obtain ⟨place, found⟩ := List.mem_iff_getElem?.mp inBlock
      have stored : f.inst? ⟨index, place⟩ = some i := by simp [Func.inst?, inFunc, found]
      exact spares_inst f wf within ⟨index, place⟩ i stored stop missing
  | inr atEnd =>
      obtain ⟨s, read, rfl⟩ := List.mem_map.mp atEnd
      exact spares_unavailable f s (terminator_read_defined f wf index b s inFunc read)

theorem run_spares (within : f.LanesWithin) (inputs : Inputs) : Ends f.Spares (fun _ => True) (f.run inputs) := by
  have endless : f.Spares .endless := ⟨Stop.noConfusion, fun _ => Stop.noConfusion⟩
  exact run_ends f.Spares f inputs (spares_ordinary f) endless (spares_block f wf within)

theorem executed_spans (m : Machine) (measured : m.Measured f) (site : Site) (a : Arith)
    (stored : f.inst? site = some (.arith a)) (inputs : Inputs) (n : Machine)
    (done : m.exec inputs (.arith a) = .ok n) : f.Spans a := by
  intro s read e member dest
  have first := first_lane_within f wf site a stored s read e member dest
  by_cases nothing : a.width.toNat = 0
  · omega
  · obtain ⟨results, computed, _⟩ := bind_ok _ _ _ done
    obtain ⟨c, lane⟩ := map_m_each _ _ results computed (a.width.toNat - 1) (List.mem_range.mpr (by omega))
    obtain ⟨x, left, rest⟩ := bind_ok _ _ _ lane
    obtain ⟨y, right, _⟩ := bind_ok _ _ _ rest
    have got : ∃ z, m.readLane s (a.width.toNat - 1) = .ok z := by
      simp only [List.mem_cons, List.not_mem_nil, or_false] at read
      cases read with
      | inl isLeft => exact ⟨x, isLeft ▸ left⟩
      | inr isRight => exact ⟨y, isRight ▸ right⟩
    obtain ⟨z, reached⟩ := got
    obtain ⟨lanes, held, inside⟩ := read_lane_stored m s _ z reached
    have bounded := measured e member s.value dest lanes (by rw [held]; rfl)
    omega

end Checked

theorem checked_lanes_exist_iff (f : Func) (accepted : f.check = .ok ()) :
    (f.LanesWithin ↔ f.SpansVectors) ∧
    (f.SpansVectors → ∀ inputs stop, f.run inputs = .error stop → f.Spares stop) ∧
    ∀ m : Machine, m.Measured f → ∀ x ∈ f.ariths, ∀ inputs n, m.exec inputs (.arith x.2) = .ok n → f.Spans x.2 := by
  have wf := (check_ok_iff f).mp accepted
  have exist := lanes_within_iff f wf
  refine ⟨exist, ?_, ?_⟩
  · intro spans inputs stop failed
    have ends := run_spares f wf (exist.mpr spans) inputs
    rw [failed] at ends
    exact ends
  · intro m measured x listed inputs n done
    exact executed_spans f wf m measured x.1 x.2 ((mem_ariths f x.1 x.2).mp listed) inputs n done

def lastLanes : Arith := { Arith.plain 2 .iadd ⟨0, 1⟩ (.of 1) with width := 2 }

def shiftedLanes : Func where
  name := "shifted"
  blocks :=
    [⟨0, [.input 0 0 3 false, .const 1 [.int 5, .int 6], .arith lastLanes, .output 0 ⟨2, 1⟩], .ret (some (.of 2))⟩]
  next := 3
  divergence := none

def shiftedMachine : Machine := ⟨#[some [.int 1, .int 2, .int 3], some [.int 5, .int 6], none], [], 0⟩

theorem shifted_lanes_exist : shiftedLanes.check = .ok () ∧ shiftedLanes.SpansVectors ∧ shiftedLanes.LanesWithin ∧
    (∀ inputs stop, shiftedLanes.run inputs = .error stop → shiftedLanes.Spares stop) ∧
    shiftedMachine.Measured shiftedLanes ∧ (∃ n, shiftedMachine.exec (fun _ => none) (.arith lastLanes) = .ok n) ∧
    shiftedLanes.Spans lastLanes := by
  have accepted : shiftedLanes.check = .ok () := by decide +kernel
  have spans : shiftedLanes.SpansVectors := by decide +kernel
  have measured : shiftedMachine.Measured shiftedLanes := by decide +kernel
  have listed : (⟨0, 2⟩, lastLanes) ∈ shiftedLanes.ariths := by decide +kernel
  have done : shiftedMachine.exec (fun _ => none) (.arith lastLanes) =
      .ok ⟨#[some [.int 1, .int 2, .int 3], some [.int 5, .int 6], some [.int 7, .int 9]], [], 0⟩ := by decide +kernel
  obtain ⟨exist, runs, executed⟩ := checked_lanes_exist_iff shiftedLanes accepted
  exact ⟨accepted, spans, exist.mpr spans, runs spans, measured, ⟨_, done⟩,
    executed shiftedMachine measured _ listed _ _ done⟩

def strayLanes : Func where
  name := "stray"
  blocks :=
    [⟨0, [.input 0 0 1 false, .input 1 1 1 false,
        .arith { Arith.plain 2 .iadd (.of 0) (.of 1) with width := 2 }], .ret (some (.of 2))⟩]
  next := 3
  divergence := none

def overrunLanes : Func where
  name := "overrun"
  blocks := [⟨0, [.input 0 0 3 false, .arith { Arith.plain 1 .iadd ⟨0, 2⟩ ⟨0, 2⟩ with width := 255 }], .ret (some (.of 1))⟩]
  next := 2
  divergence := none

theorem stray_lanes_accepted :
    strayLanes.check = .ok () ∧ ¬ strayLanes.LanesWithin ∧
    strayLanes.run (fun _ => some [.int 1]) = .error (.error (.unavailable ⟨0, 1⟩)) ∧
    overrunLanes.check = .ok () ∧ ¬ overrunLanes.LanesWithin ∧
    overrunLanes.run (fun _ => some (List.replicate 256 (.int 1))) = .error (.trap .laneOverflow) := by
  refine ⟨?_, ?_, ?_, ?_, ?_, ?_⟩
  all_goals decide +kernel

end Regroup
