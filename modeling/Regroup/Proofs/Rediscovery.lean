import Mathlib
import Regroup.Proofs.Recognition

set_option autoImplicit false

namespace Regroup

theorem found_at_mem (f : Func) (site : Site) (a : Arith) (found : f.foundAt site a ∈ f.facts.findAll f) :
    f.inst? site = some (.arith a) ∧ f.facts.live.has a.dest = true ∧ a.regroupable = true := by
  obtain ⟨place, b, stored, live, regroupable, same⟩ := find_all_mem f _ found
  obtain rfl : site = place := congrArg (·.chain.root) same
  obtain rfl : a = b := (Tree.node.inj (congrArg Found.tree same)).1
  exact ⟨stored, live, regroupable⟩

-- Induction over the operations of a function, from the last of the text to the first.
theorem arith_backward_induction (f : Func) (P : Site → Arith → Prop)
    (step : ∀ site a, f.inst? site = some (.arith a) →
      (∀ place b, f.inst? place = some (.arith b) → site.Earlier place → P place b) → P site a)
    (site : Site) (a : Arith) (stored : f.inst? site = some (.arith a)) : P site a := by
  have irreflexive : Std.Irrefl fun x y : { e // e ∈ f.ariths } => y.1.1.Earlier x.1.1 :=
    ⟨fun x => earlier_irrefl x.1.1⟩
  have transitive : IsTrans { e // e ∈ f.ariths } fun x y => y.1.1.Earlier x.1.1 :=
    ⟨fun x y z first second => earlier_trans z.1.1 y.1.1 x.1.1 second first⟩
  have founded := Finite.wellFounded_of_trans_of_irrefl fun x y : { e // e ∈ f.ariths } => y.1.1.Earlier x.1.1
  suffices all : ∀ e : { e // e ∈ f.ariths }, P e.1.1 e.1.2 from all ⟨(site, a), (mem_ariths f site a).mpr stored⟩
  intro e
  induction e using founded.induction with
  | _ e ih =>
      refine step e.1.1 e.1.2 ((mem_ariths f _ _).mp e.2) fun place b there earlier => ?_
      exact ih ⟨(place, b), (mem_ariths f place b).mpr there⟩ earlier

theorem found_iff_kernel (f : Func) (unique : f.defs.Nodup) (orderly : f.Orderly) (roots : Value → Prop)
    (taken : ∀ site a, f.inst? site = some (.arith a) → roots a.dest →
      f.facts.live.has a.dest = true ∧ a.regroupable = true)
    (apart : ∀ site place a b, f.inst? site = some (.arith a) → f.inst? place = some (.arith b) → roots a.dest →
      roots b.dest → b ∉ (f.facts.rootTree f a).labels.tail)
    (covers : ∀ site a, f.inst? site = some (.arith a) → f.facts.live.has a.dest = true → a.regroupable = true →
      ¬ roots a.dest → ∃ place b, f.inst? place = some (.arith b) ∧ roots b.dest ∧ a ∈ (f.facts.rootTree f b).labels.tail)
    (site : Site) (a : Arith) (stored : f.inst? site = some (.arith a)) :
    f.foundAt site a ∈ f.facts.findAll f ↔ roots a.dest := by
  refine arith_backward_induction f (fun site a => f.foundAt site a ∈ f.facts.findAll f ↔ roots a.dest)
    (fun place b here ih => ?_) site a stored
  -- whoever has the operation below it comes later
  have above (spot : Site) (c : Arith) (there : f.inst? spot = some (.arith c))
      (inner : b ∈ (f.facts.rootTree f c).labels.tail) : f.foundAt spot c ∈ f.facts.findAll f ↔ roots c.dest := by
    obtain ⟨again, same, earlier⟩ := root_inner_earlier f orderly spot c there _ (root_tree_grown f c) b inner
    rw [(defines_unique f unique b.dest again place _ _ ⟨same, rfl⟩ ⟨here, rfl⟩).1] at earlier
    exact ih spot c there earlier
  constructor
  · intro found
    by_contra outside
    obtain ⟨_, live, regroupable⟩ := found_at_mem f place b found
    obtain ⟨spot, c, there, root, inner⟩ := covers place b here live regroupable outside
    exact found_root_not_inner f unique orderly spot place c b there here ((above spot c there inner).mpr root) found inner
  · intro root
    obtain ⟨live, regroupable⟩ := taken place b here root
    rcases found_or_below f unique place b here live regroupable with found | ⟨spot, c, there, member, inner⟩
    · exact found
    · exact absurd inner (apart spot place c b there here ((above spot c there inner).mp member) root)

theorem spot_earlier (f : Func) (expand : Site → Inst → List Inst) (site place : Site) (off other : Nat) (i : Inst)
    (stored : f.inst? site = some i) (inside : off < (expand site i).length) (before : site.Earlier place) :
    (f.spot expand site off).Earlier (f.spot expand place other) := by
  rcases before with block | ⟨sameBlock, less⟩
  · exact Or.inl block
  · have bound := start_lt f expand site place i stored sameBlock less
    refine Or.inr ⟨sameBlock, ?_⟩
    simp only [Func.spot]
    omega

section Order

variable (h g : Func) (rebuilt : List Rebuilt) (built : h.RebuiltAs g rebuilt)
include built

theorem built_arith_reads (place : Site) (c : Arith) (stored : g.inst? place = some (.arith c)) :
    ∃ site off, place = h.spot (expanded rebuilt) site off ∧ ∀ s ∈ (Inst.arith c).reads,
      (∃ spot b, h.inst? spot = some (.arith b) ∧ s ∈ (Inst.arith b).reads ∧ (spot = site ∨ spot.Earlier site)) ∨
      ∃ r ∈ rebuilt, r.site = site ∧ ∃ m < off, m < r.grouping.nodeCount ∧ s = .of (r.base + m) := by
  obtain ⟨site, i, off, there, inside, rfl⟩ := (built_inst_iff h g rebuilt built place _).mp stored
  refine ⟨site, off, rfl, fun s read => ?_⟩
  have drawn (r : Rebuilt) (member : r ∈ rebuilt) (here : r.site = site) (within : off ≤ r.grouping.nodeCount)
      (source : Drawn r.grouping.leaves r.base off s) :
      (∃ spot b, h.inst? spot = some (.arith b) ∧ s ∈ (Inst.arith b).reads ∧ (spot = site ∨ spot.Earlier site)) ∨
      ∃ r ∈ rebuilt, r.site = site ∧ ∃ m < off, m < r.grouping.nodeCount ∧ s = .of (r.base + m) := by
    obtain ⟨_, leaves, perm⟩ := built.expansion.chain r member
    have root := built.expansion.stored r member
    have grown := root_tree_grown h r.old
    rcases source with leaf | ⟨m, less, same⟩
    · obtain ⟨b, label, reads⟩ := root_leaf_reader h r.old _ grown s (perm.mem_iff.mp (leaves ▸ leaf))
      rcases root_label_split h r.old b label with rfl | inner
      · exact Or.inl ⟨r.site, r.old, root, reads, Or.inl here⟩
      · obtain ⟨spot, elsewhere, earlier⟩ := root_inner_earlier h built.orderly r.site r.old root _ grown b inner
        exact Or.inl ⟨spot, b, elsewhere, reads, Or.inr (here ▸ earlier)⟩
    · exact Or.inr ⟨r, member, here, m, less, by omega, same⟩
  rcases expanded_cases h rebuilt g.next built.expansion site i _ off there inside with
    ⟨rfl, _, _⟩ | ⟨r, member, here, _, _, ⟨low, code⟩ | ⟨last, root⟩⟩
  · exact Or.inl ⟨site, c, there, read, Or.inl rfl⟩
  · obtain ⟨lhs, rhs, same, left, right⟩ := grouping_code_at r.grouping r.chain r.base off _ code
    rw [same, step_reads] at read
    rcases List.mem_pair.mp read with rfl | rfl
    · exact drawn r member here (Nat.le_of_lt low) left
    · exact drawn r member here (Nat.le_of_lt low) right
  · rw [root] at read
    subst last
    rcases List.mem_pair.mp read with rfl | rfl
    · exact drawn r member here (Nat.le_refl _) (grouping_lhs_drawn r.grouping r.base)
    · exact drawn r member here (Nat.le_refl _) (grouping_rhs_drawn r.grouping r.base)

theorem built_arith_dest (place : Site) (c : Arith) (stored : g.inst? place = some (.arith c)) :
    ∃ site i off, h.inst? site = some i ∧ off < (expanded rebuilt site i).length ∧
      place = h.spot (expanded rebuilt) site off ∧
      ((∃ b, i = .arith b ∧ b.dest = c.dest) ∨
        ∃ r ∈ rebuilt, r.site = site ∧ off < r.grouping.nodeCount ∧ r.base + off = c.dest) := by
  obtain ⟨site, i, off, there, inside, rfl⟩ := (built_inst_iff h g rebuilt built place _).mp stored
  refine ⟨site, i, off, there, (List.getElem?_eq_some_iff.mp inside).1, rfl, ?_⟩
  rcases expanded_cases h rebuilt g.next built.expansion site i _ off there inside with
    ⟨same, _, _⟩ | ⟨r, member, here, same, _, ⟨low, code⟩ | ⟨_, root⟩⟩
  · exact Or.inl ⟨c, same.symm, rfl⟩
  · obtain ⟨lhs, rhs, step, _, _⟩ := grouping_code_at r.grouping r.chain r.base off _ code
    cases step
    exact Or.inr ⟨r, member, here, low, rfl⟩
  · cases root
    exact Or.inl ⟨r.old, same, rfl⟩

theorem built_orderly : g.Orderly := by
  intro x inX y inY read
  obtain ⟨s, operand, value⟩ : ∃ s ∈ (Inst.arith x.2).reads, y.2.dest = s.value := by
    rcases read with left | right
    · exact ⟨_, (arith_reads x.2).1, left⟩
    · exact ⟨_, (arith_reads x.2).2, right⟩
  obtain ⟨site, off, hereX, reads⟩ := built_arith_reads h g rebuilt built x.1 x.2 ((mem_ariths g _ _).mp inX)
  obtain ⟨place, i, other, there, inside, hereY, dest⟩ :=
    built_arith_dest h g rebuilt built y.1 y.2 ((mem_ariths g _ _).mp inY)
  rw [hereX, hereY]
  -- old values were read before; a new one belongs to the chain that reads it
  rcases reads s operand with ⟨spot, b, reader, readB, order⟩ | ⟨r, inR, hereR, m, less, lessM, same⟩
  · rcases dest with ⟨c, rfl, destC⟩ | ⟨q, inQ, _, _, destQ⟩
    · have defines : c.dest = b.lhs.value ∨ c.dest = b.rhs.value := by
        rw [destC, value]
        rcases List.mem_pair.mp readB with rfl | rfl
        · exact Or.inl rfl
        · exact Or.inr rfl
      have first := built.orderly _ ((mem_ariths h spot b).mpr reader) _ ((mem_ariths h place c).mpr there) defines
      refine spot_earlier h _ place site other off _ there inside ?_
      exact order.elim (fun same => same ▸ first) (earlier_trans place spot site first)
    · have old := built.wf.bounded _ (read_known h built.wf spot _ s reader readB)
      rw [← value, ← destQ] at old
      exact absurd old (expansion_new_large h rebuilt g.next built.expansion q inQ other)
  · have new : y.2.dest = r.base + m := by rw [value, same]; rfl
    rcases dest with ⟨c, rfl, destC⟩ | ⟨q, inQ, hereQ, lessQ, destQ⟩
    · have old := defines_bounded h built.wf c.dest place _ ⟨there, rfl⟩
      rw [destC, new] at old
      exact absurd old (expansion_new_large h rebuilt g.next built.expansion r inR m)
    · have sum : r.base + m = q.base + other := new.symm.trans destQ.symm
      have equal := consecutive_apart _ _ rebuilt built.expansion.numbered r q m other inR inQ lessM lessQ sum
      subst equal
      rw [← hereR, ← hereQ]
      refine Or.inr ⟨rfl, ?_⟩
      simp only [Func.spot]
      omega

end Order

section Roots

variable (h g : Func) (rebuilt : List Rebuilt) (built : h.RebuiltAs g rebuilt)
include built

theorem root_after (site : Site) (a : Arith) (stored : h.inst? site = some (.arith a)) (place : Site) (c : Arith)
    (there : g.inst? place = some (.arith c)) (dest : c.dest = a.dest) : place.block = site.block ∧
      ((rebuiltAt rebuilt site = none ∧ c = a) ∨ ∃ r ∈ rebuilt, r.site = site ∧ r.old = a ∧ c = r.arith) := by
  have old := defines_bounded h built.wf a.dest site _ ⟨stored, rfl⟩
  rcases built_cases h g rebuilt built place _ there with ⟨spot, block, here, kept⟩ | ⟨r, member, block, code | root⟩
  · obtain ⟨rfl, same⟩ := defines_unique h built.wf.unique a.dest spot site _ _ ⟨here, by rw [← dest]; rfl⟩ ⟨stored, rfl⟩
    exact ⟨block.symm, Or.inl ⟨kept, Inst.arith.inj same⟩⟩
  · exact absurd (dest ▸ old) (code_dest_new h g rebuilt built r member c code)
  · cases root
    have here := built.expansion.stored r member
    obtain ⟨rfl, same⟩ := defines_unique h built.wf.unique a.dest r.site site _ _ ⟨here, congrArg some dest⟩ ⟨stored, rfl⟩
    exact ⟨block.symm, Or.inr ⟨r, member, rfl, Inst.arith.inj same, rfl⟩⟩

theorem root_stored_after (site : Site) (a : Arith) (stored : h.inst? site = some (.arith a)) :
    ∃ place c, g.inst? place = some (.arith c) ∧ c.dest = a.dest := by
  cases found : rebuiltAt rebuilt site with
  | none =>
      obtain ⟨place, _, there⟩ := built_kept h g rebuilt built site _ stored found
      exact ⟨place, a, there, rfl⟩
  | some r =>
      obtain ⟨member, rfl, root⟩ := rebuilt_at_root h rebuilt g.next built.expansion site _ r stored found
      cases root
      obtain ⟨place, _, there⟩ := built_new h g rebuilt built r member _ (Or.inr rfl)
      exact ⟨place, r.arith, there, rfl⟩

theorem found_root_live (site : Site) (a : Arith) (found : h.foundAt site a ∈ h.facts.findAll h) : g.Needed a.dest := by
  obtain ⟨stored, live, _⟩ := found_at_mem h site a found
  refine (needed_after h g rebuilt built a.dest (live_sound h a.dest live)).1 fun orphan => ?_
  obtain ⟨r, member, b, inner, same⟩ := orphan
  have root := built.expansion.stored r member
  have equal := root_label_same h built.wf.unique r.site r.old root _ (root_tree_grown h r.old) b a
    (List.mem_of_mem_tail inner) site stored same
  exact found_root_not_inner h built.wf.unique built.orderly r.site site r.old a root stored (built.found r member) found
    (equal ▸ inner)

theorem root_still_regroupable (site : Site) (a : Arith) (found : h.foundAt site a ∈ h.facts.findAll h) (place : Site)
    (c : Arith) (there : g.inst? place = some (.arith c)) (dest : c.dest = a.dest) : c.regroupable = true := by
  obtain ⟨stored, _, regroupable⟩ := found_at_mem h site a found
  rcases (root_after h g rebuilt built site a stored place c there dest).2 with ⟨_, rfl⟩ | ⟨r, member, _, _, rfl⟩
  · exact regroupable
  · have width := built.expansion.regroupable r member
    simp only [Arith.regroupable, Bool.and_eq_true, decide_eq_true_eq] at width
    exact rebuilt_regroupable h g rebuilt built r member _ width.1.1 rfl rfl

variable (sated : h.Sated rebuilt)
include sated

theorem rebuilt_inner_iff (r : Rebuilt) (member : r ∈ rebuilt) (d : Arith) :
    d ∈ (g.facts.rootTree g r.arith).labels.tail ↔ Inst.arith d ∈ r.code := by
  rw [rebuilt_root_tree h g rebuilt built sated r member]
  refine List.mem_append.trans (Iff.trans ?_ List.mem_append.symm)
  rw [shape_tree_labels, shape_tree_labels]
  exact or_comm

theorem roots_still_apart (site origin : Site) (a b : Arith) (foundA : h.foundAt site a ∈ h.facts.findAll h)
    (foundB : h.foundAt origin b ∈ h.facts.findAll h) (place : Site) (c d : Arith)
    (there : g.inst? place = some (.arith c)) (destA : c.dest = a.dest) (destB : d.dest = b.dest) :
    d ∉ (g.facts.rootTree g c).labels.tail := by
  intro inner
  have hereA := (found_at_mem h site a foundA).1
  have hereB := (found_at_mem h origin b foundB).1
  rcases (root_after h g rebuilt built site a hereA place c there destA).2 with ⟨kept, rfl⟩ | ⟨r, member, _, _, rfl⟩
  · rw [kept_root_tree h g rebuilt built site c hereA foundA kept] at inner
    have equal := root_label_same h built.wf.unique site c hereA _ (root_tree_grown h c) d b (List.mem_of_mem_tail inner)
      origin hereB destB
    exact found_root_not_inner h built.wf.unique built.orderly site origin c b hereA hereB foundA foundB (equal ▸ inner)
  · have new := code_dest_new h g rebuilt built r member d ((rebuilt_inner_iff h g rebuilt built sated r member d).mp inner)
    rw [destB] at new
    exact new (defines_bounded h built.wf b.dest origin _ ⟨hereB, rfl⟩)

theorem roots_still_cover (place : Site) (c : Arith) (there : g.inst? place = some (.arith c)) (needed : g.Needed c.dest)
    (regroupable : c.regroupable = true)
    (outside : ¬ ∃ site a, h.foundAt site a ∈ h.facts.findAll h ∧ a.dest = c.dest) :
    ∃ spot d, g.inst? spot = some (.arith d) ∧ (∃ site a, h.foundAt site a ∈ h.facts.findAll h ∧ a.dest = d.dest) ∧
      c ∈ (g.facts.rootTree g d).labels.tail := by
  rcases built_cases h g rebuilt built place _ there with ⟨site, _, here, _⟩ | ⟨r, member, _, code | root⟩
  · have before := needed_before h g rebuilt built c.dest needed (defines_bounded h built.wf c.dest site _ ⟨here, rfl⟩)
    rcases found_or_below h built.wf.unique site c here (live_complete h c.dest before) regroupable with
      found | ⟨origin, a, root, member, inner⟩
    · exact absurd ⟨site, c, found, rfl⟩ outside
    · cases rebuiltHere : rebuiltAt rebuilt origin with
      | none =>
          obtain ⟨spot, _, kept⟩ := built_kept h g rebuilt built origin _ root rebuiltHere
          refine ⟨spot, a, kept, ⟨origin, a, member, rfl⟩, ?_⟩
          rw [kept_root_tree h g rebuilt built origin a root member rebuiltHere]
          exact inner
      | some r =>
          obtain ⟨inRebuilt, rfl, same⟩ := rebuilt_at_root h rebuilt g.next built.expansion origin _ r root rebuiltHere
          cases same
          exact absurd ⟨r, inRebuilt, c, inner, rfl⟩ (needed_not_orphan h g rebuilt built c.dest needed)
  · obtain ⟨spot, _, root⟩ := built_new h g rebuilt built r member _ (Or.inr rfl)
    exact ⟨spot, r.arith, root, ⟨r.site, r.old, built.found r member, rfl⟩,
      (rebuilt_inner_iff h g rebuilt built sated r member c).mpr code⟩
  · cases root
    exact absurd ⟨r.site, r.old, built.found r member, rfl⟩ outside

theorem found_again (place : Site) (c : Arith) (stored : g.inst? place = some (.arith c)) :
    g.foundAt place c ∈ g.facts.findAll g ↔
      ∃ site a, h.foundAt site a ∈ h.facts.findAll h ∧ a.dest = c.dest := by
  refine found_iff_kernel g built.fine.unique (built_orderly h g rebuilt built)
    (fun v => ∃ site a, h.foundAt site a ∈ h.facts.findAll h ∧ a.dest = v) ?_ ?_ ?_ place c stored
  · intro place c there root
    obtain ⟨site, a, found, dest⟩ := root
    have live := live_complete g a.dest (found_root_live h g rebuilt built site a found)
    exact ⟨dest ▸ live, root_still_regroupable h g rebuilt built site a found place c there dest.symm⟩
  · intro place spot c d thereC _ rootC rootD
    obtain ⟨site, a, foundA, destA⟩ := rootC
    obtain ⟨origin, b, foundB, destB⟩ := rootD
    exact roots_still_apart h g rebuilt built sated site origin a b foundA foundB place c d thereC destA.symm destB.symm
  · intro place c there live regroupable outside
    exact roots_still_cover h g rebuilt built sated place c there (live_sound g c.dest live) regroupable outside

end Roots

end Regroup
