import Mathlib
import Regroup.Saturate

set_option autoImplicit false

namespace Regroup

theorem has_add (marks : Marks) (i j : Nat) :
    (marks.add i).has j = (marks.has j || (decide (j = i) && decide (i < marks.size))) := by
  simp only [Marks.has, Marks.add, Array.getD_eq_getD_getElem?, Array.getElem?_setIfInBounds]
  grind

theorem has_none (size i : Nat) : (Marks.none size).has i = false := by
  simp only [Marks.has, Marks.none, Array.getD_eq_getD_getElem?, Array.getElem?_replicate]
  grind

theorem none_size (size : Nat) : (Marks.none size).size = size := Array.size_replicate

theorem has_bounded (marks : Marks) (i : Nat) (marked : marks.has i = true) : i < marks.size := by
  by_contra outside
  simp [Marks.has, outside] at marked

theorem marks_ext (a b : Marks) (sameSize : a.size = b.size) (sameMarks : ∀ i, a.has i = b.has i) : a = b := by
  apply Array.ext sameSize
  intro i inA inB
  simpa [Marks.has, inA, inB] using sameMarks i

structure Inflates (grow : Marks → Marks) : Prop where
  size : ∀ marks, (grow marks).size = marks.size
  keeps : ∀ marks i, marks.has i = true → (grow marks).has i = true

theorem inflates_id : Inflates id := ⟨fun _ => rfl, fun _ _ marked => marked⟩

theorem inflates_comp (first second : Marks → Marks) (one : Inflates first) (two : Inflates second) :
    Inflates fun marks => second (first marks) :=
  ⟨fun marks => (two.size _).trans (one.size marks), fun marks i marked => two.keeps _ i (one.keeps marks i marked)⟩

theorem inflates_add_if (cond : Marks → Bool) (i : Nat) :
    Inflates fun marks => if cond marks then marks.add i else marks := by
  refine ⟨fun marks => ?_, fun marks j marked => ?_⟩
  · by_cases holds : cond marks = true <;> simp [holds, Marks.add]
  · by_cases holds : cond marks = true <;> simp [holds, has_add, marked]

theorem inflates_fixed_of_between (marks middle : Marks) (grow : Marks → Marks) (rule : Inflates grow)
    (sameSize : middle.size = marks.size) (below : ∀ i, marks.has i = true → middle.has i = true)
    (back : grow middle = marks) : middle = marks := by
  apply marks_ext middle marks sameSize
  intro i
  rw [Bool.eq_iff_iff]
  exact ⟨fun marked => back ▸ rule.keeps middle i marked, below i⟩

section Folds

variable {α : Type} (step : Marks → α → Marks)

theorem inflates_foldl (rules : ∀ x, Inflates fun marks => step marks x) (items : List α) :
    Inflates fun marks => items.foldl step marks := by
  induction items with
  | nil => exact inflates_id
  | cons x rest ih => exact inflates_comp _ _ (rules x) ih

-- If a sequence of rules adds nothing as a whole, none of them adds anything.
theorem foldl_fixed (rules : ∀ x, Inflates fun marks => step marks x) (items : List α) (marks : Marks)
    (fixed : items.foldl step marks = marks) : ∀ x ∈ items, step marks x = marks := by
  induction items with
  | nil => simp
  | cons x rest ih =>
      have here : step marks x = marks :=
        inflates_fixed_of_between marks _ _ (inflates_foldl step rules rest) ((rules x).size marks)
          ((rules x).keeps marks) fixed
      rw [List.foldl_cons, here] at fixed
      intro y member
      rcases List.mem_cons.mp member with same | later
      · rw [same, here]
      · exact ih fixed y later

theorem foldl_within (rules : ∀ x, Inflates fun marks => step marks x) (allowed : Nat → Prop) (size : Nat)
    (items : List α)
    (sound : ∀ x ∈ items, ∀ marks : Marks, marks.size = size → (∀ i, marks.has i = true → allowed i) →
      ∀ i, (step marks x).has i = true → allowed i)
    (marks : Marks) (sized : marks.size = size) (start : ∀ i, marks.has i = true → allowed i) :
    ∀ i, (items.foldl step marks).has i = true → allowed i := by
  induction items generalizing marks with
  | nil => exact start
  | cons x rest ih =>
      exact ih (fun y member => sound y (List.mem_cons_of_mem x member)) (step marks x)
        (((rules x).size marks).trans sized) (sound x List.mem_cons_self marks sized start)

end Folds

def unmarked (marks : Marks) : Finset Nat := (Finset.range marks.size).filter fun i => marks.has i = false

theorem unmarked_card_le (marks : Marks) : (unmarked marks).card ≤ marks.size := by
  simpa [unmarked] using Finset.card_filter_le (Finset.range marks.size) fun i => marks.has i = false

theorem unmarked_grow_lt (marks : Marks) (grow : Marks → Marks) (rule : Inflates grow)
    (moved : grow marks ≠ marks) : (unmarked (grow marks)).card < (unmarked marks).card := by
  have gained : ∃ i, (grow marks).has i = true ∧ marks.has i = false := by
    by_contra nothing
    push Not at nothing
    apply moved
    apply marks_ext _ _ (rule.size marks)
    intro i
    rw [Bool.eq_iff_iff]
    exact ⟨fun marked => by simpa using nothing i marked, rule.keeps marks i⟩
  obtain ⟨i, now, before⟩ := gained
  apply Finset.card_lt_card
  refine ⟨fun j member => ?_, fun back => ?_⟩
  · simp only [unmarked, Finset.mem_filter, rule.size] at member ⊢
    refine ⟨member.1, ?_⟩
    by_contra marked
    simp [rule.keeps marks j (by simpa using marked)] at member
  · have inside : i < marks.size := by simpa only [rule.size] using has_bounded _ i now
    have member : i ∈ unmarked (grow marks) := back (by simp [unmarked, before, inside])
    simp [unmarked, now] at member

theorem saturate_fixed (grow : Marks → Marks) (rule : Inflates grow) (rounds : Nat) (marks : Marks)
    (enough : (unmarked marks).card < rounds) : grow (saturate grow rounds marks) = saturate grow rounds marks := by
  induction rounds generalizing marks with
  | zero => omega
  | succ rounds ih =>
      by_cases done : grow marks = marks
      · simp [saturate, done]
      · have fewer := unmarked_grow_lt marks grow rule done
        simpa [saturate, done] using ih (grow marks) (by omega)

theorem saturate_keeps (grow : Marks → Marks) (rule : Inflates grow) (rounds : Nat) : Inflates (saturate grow rounds) := by
  induction rounds with
  | zero => exact inflates_id
  | succ rounds ih =>
      refine ⟨fun marks => ?_, fun marks i marked => ?_⟩
      · by_cases done : grow marks = marks
        · simp [saturate, done]
        · simp [saturate, done, ih.size, rule.size]
      · by_cases done : grow marks = marks
        · simpa [saturate, done] using marked
        · simpa [saturate, done] using ih.keeps _ i (rule.keeps marks i marked)

theorem saturate_within (grow : Marks → Marks) (rule : Inflates grow) (allowed : Nat → Prop) (size : Nat)
    (sound : ∀ marks : Marks, marks.size = size → (∀ i, marks.has i = true → allowed i) →
      ∀ i, (grow marks).has i = true → allowed i)
    (rounds : Nat) (marks : Marks) (sized : marks.size = size) (start : ∀ i, marks.has i = true → allowed i) :
    ∀ i, (saturate grow rounds marks).has i = true → allowed i := by
  induction rounds generalizing marks with
  | zero => exact start
  | succ rounds ih =>
      by_cases done : grow marks = marks
      · simpa [saturate, done] using start
      · simpa [saturate, done] using ih (grow marks) ((rule.size marks).trans sized) (sound marks sized start)

-- Without a bound. The last round, which finds nothing to do, is counted too.
inductive Settles (grow : Marks → Marks) : Marks → Nat → Marks → Prop where
  | still (marks : Marks) (same : grow marks = marks) : Settles grow marks 1 marks
  | again (marks last : Marks) (rounds : Nat) (moved : grow marks ≠ marks)
      (later : Settles grow (grow marks) rounds last) : Settles grow marks (rounds + 1) last

theorem saturate_settles (grow : Marks → Marks) (rule : Inflates grow) (rounds : Nat) (marks : Marks)
    (enough : (unmarked marks).card < rounds) :
    ∃ used ≤ (unmarked marks).card + 1, Settles grow marks used (saturate grow rounds marks) := by
  induction rounds generalizing marks with
  | zero => omega
  | succ rounds ih =>
      by_cases done : grow marks = marks
      · have stays : saturate grow (rounds + 1) marks = marks := by simp [saturate, done]
        exact ⟨1, by omega, stays.symm ▸ .still marks done⟩
      · have fewer := unmarked_grow_lt marks grow rule done
        obtain ⟨used, few, settles⟩ := ih (grow marks) (by omega)
        have goes : saturate grow (rounds + 1) marks = saturate grow rounds (grow marks) := by simp [saturate, done]
        exact ⟨used + 1, by omega, goes.symm ▸ .again marks _ used done settles⟩

theorem closure_fixed (start : Marks) (grow : Marks → Marks) (rule : Inflates grow) :
    grow (start.closure grow) = start.closure grow :=
  saturate_fixed grow rule _ start (Nat.lt_succ_of_le (unmarked_card_le start))

theorem closure_size (start : Marks) (grow : Marks → Marks) (rule : Inflates grow) :
    (start.closure grow).size = start.size :=
  (saturate_keeps grow rule _).size start

theorem closure_within (start : Marks) (grow : Marks → Marks) (rule : Inflates grow) (allowed : Nat → Prop)
    (sound : ∀ marks : Marks, marks.size = start.size → (∀ i, marks.has i = true → allowed i) →
      ∀ i, (grow marks).has i = true → allowed i)
    (begin : ∀ i, start.has i = true → allowed i) : ∀ i, (start.closure grow).has i = true → allowed i :=
  saturate_within grow rule allowed start.size sound _ start rfl begin

theorem closure_settles (start : Marks) (grow : Marks → Marks) (rule : Inflates grow) :
    ∃ used ≤ start.size + 1, Settles grow start used (start.closure grow) := by
  have few := unmarked_card_le start
  obtain ⟨used, bound, settles⟩ := saturate_settles grow rule (start.size + 1) start (Nat.lt_succ_of_le few)
  exact ⟨used, by omega, settles⟩

end Regroup
