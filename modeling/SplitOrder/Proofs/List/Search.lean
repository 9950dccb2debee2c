import SplitOrder.List.Search
import SplitOrder.Proofs.Checked
import SplitOrder.Proofs.List.Write

/-!
# What a search finds

In a run of a single client a search takes one pass. It ends at two neighbours around the place
that is sought, neither of them deleted, and on its way it does nothing to the list but unlink
deleted nodes.

* `Trims` — what a search may do to a list. It leaves the contents alone (`Trims.holds_iff`).
* `Located` — what a search answers.
* `search_spec` — a search ends, with such an answer and such an effect.
* `Located.eq_of_mem_linked` — a linked node with an element at the place can only be the one behind
  it. A deleted node with such an element is therefore off the list (`Located.notMem_linked`).

The places that can be sought are those of a monotone probe: whatever is less than an element in
front of the place, or at it, is in front of the place.
-/

namespace SplitOrder

variable {α : Type _} [Ord α]

/-- A probe that agrees with the order: in front of an element that is not beyond the place,
everything is in front of the place. -/
def Probe.Monotone (probe : Probe α) : Prop :=
  ∀ a b, compare a b = .lt → probe b ≠ .gt → probe a = .lt

theorem Probe.monotone_ofElement [Std.TransOrd α] (c : α) : (Probe.ofElement c).Monotone := by
  intro a b hab hb
  unfold Probe.ofElement at hb ⊢
  cases hbc : compare b c with
  | lt => exact Std.TransCmp.lt_trans hab hbc
  | eq => exact Std.TransCmp.lt_of_lt_of_eq hab hbc
  | gt => exact absurd hbc hb

namespace SortedList

/-- A node from which a search can start: it is not deleted and stands in front of the place. -/
structure InFront (l : SortedList α) (probe : Probe α) (i : NodeId) : Prop where
  lt_size : i < l.nodes.size
  unmarked : (l.link i).marked = false
  lt : ∀ a, (l.node i).element? = some a → probe a = .lt

/-- The two neighbours around the place: the first is in front of it, the second is not, and
neither is deleted. -/
structure Located (l : SortedList α) (probe : Probe α) (loc : Location) : Prop where
  pred : l.InFront probe loc.pred
  adjacent : (l.link loc.pred).target = loc.curr
  curr : ∀ i, loc.curr = some i → ∃ a, l.Holds i a ∧ probe a ≠ .lt

/-- What a search does to a list: it unlinks deleted nodes, and nothing else. -/
structure Trims (l l' : SortedList α) : Prop where
  evolves : l.Evolves l'
  size_eq : l'.nodes.size = l.nodes.size
  element_eq : ∀ i, (l'.node i).element? = (l.node i).element?
  marked_eq : ∀ i, (l'.link i).marked = (l.link i).marked
  reclaimer_eq : l'.reclaimer = l.reclaimer

variable {l l' l'' : SortedList α} {probe : Probe α} {loc : Location} {i j pred : NodeId} {a b : α}

theorem Trims.refl (l : SortedList α) : l.Trims l :=
  ⟨.refl, rfl, fun _ => rfl, fun _ => rfl, rfl⟩

theorem Trims.trans (h : l.Trims l') (h' : l'.Trims l'') : l.Trims l'' where
  evolves := h.evolves.trans h'.evolves
  size_eq := h'.size_eq.trans h.size_eq
  element_eq := fun i => (h'.element_eq i).trans (h.element_eq i)
  marked_eq := fun i => (h'.marked_eq i).trans (h.marked_eq i)
  reclaimer_eq := h'.reclaimer_eq.trans h.reclaimer_eq

theorem Trims.holds_iff (h : l.Trims l') : l'.Holds i a ↔ l.Holds i a := by
  unfold Holds
  rw [h.element_eq, h.marked_eq]

theorem Trims.inFront (h : l.Trims l') (hi : l.InFront probe i) : l'.InFront probe i := by
  refine ⟨by rw [h.size_eq]; exact hi.lt_size, by rw [h.marked_eq]; exact hi.unmarked, ?_⟩
  intro a ha
  rw [h.element_eq] at ha
  exact hi.lt a ha

theorem trims_unlink {curr : NodeId} {succ : Option NodeId}
    (here : l.link pred = ⟨some curr, false⟩) (frozen : l.link curr = ⟨succ, true⟩) :
    l.Trims (l.setLink pred ⟨succ, false⟩) where
  evolves := .single (.unlink here frozen)
  size_eq := size_setLink ..
  element_eq := fun _ => element_setLink ..
  marked_eq := fun _ => marked_setLink_target here (lt_size_of_target (by rw [here]))
  reclaimer_eq := rfl

omit [Ord α] in
theorem InFront.link_eq (h : l.InFront probe i) {curr : Option NodeId}
    (ht : (l.link i).target = curr) : l.link i = ⟨curr, false⟩ :=
  Link.ext ht h.unmarked

omit [Ord α] in
theorem Holds.inFront (h : l.Holds i a) (hlt : probe a = .lt) : l.InFront probe i := by
  refine ⟨h.lt_size, h.2, fun b hb => ?_⟩
  rw [← h.unique hb]
  exact hlt

theorem Sound.inFront_head (h : l.Sound) (probe : Probe α) : l.InFront probe head := by
  refine ⟨h.head_lt, h.head_unmarked, fun a ha => ?_⟩
  rw [h.head_bare] at ha
  cases ha

variable [Std.TransOrd α]

/-- At most one node holds what is sought. -/
theorem Sound.eq_of_sought (h : l.Sound) (hp : probe.Monotone) (ha : l.Holds i a)
    (hb : l.Holds j b) (hpa : probe a = .eq) (hpb : probe b = .eq) : i = j := by
  rcases h.eq_or_before (List.mem_cons_of_mem _ (h.mem_linked ha))
    (List.mem_cons_of_mem _ (h.mem_linked hb)) with hij | hj | hi
  · exact hij
  · have hlt := hp a b ((h.before_of_mem_trail hj).compare_eq ha.1 hb.1) (by rw [hpb]; decide)
    exact absurd (hpa.symm.trans hlt) (by decide)
  · have hlt := hp b a ((h.before_of_mem_trail hi).compare_eq hb.1 ha.1) (by rw [hpa]; decide)
    exact absurd (hpb.symm.trans hlt) (by decide)

/-- A node in front of the place comes before the one that holds what is sought. -/
theorem InFront.before (h : l.InFront probe i) (hl : l.Sound) (hp : probe.Monotone)
    (ha : l.Holds j a) (heq : probe a = .eq) : l.Before i j := by
  rcases hl.eq_or_before (hl.mem_cons_linked h.lt_size h.unmarked)
    (List.mem_cons_of_mem _ (hl.mem_linked ha)) with rfl | hj | hi
  · exact absurd (heq.symm.trans (h.lt a ha.1)) (by decide)
  · exact hl.before_of_mem_trail hj
  · obtain ⟨b, hb, hlt⟩ := hl.before_of_mem_trail hi
    have hbefore := hp a b (hlt a ha.1) (by rw [h.lt b hb]; decide)
    exact absurd (heq.symm.trans hbefore) (by decide)

/-- **One pass.** From a node in front of the place, with more steps than there are nodes behind
it, the pass arrives. -/
theorem walk_spec {steps : Nat} (hl : l.Sound) (hpred : l.InFront probe pred)
    {curr : Option NodeId} (hcurr : (l.link pred).target = curr)
    (hsteps : (l.trail pred).length < steps) :
    ∃ loc l', l.walk probe steps pred curr = .ok (.arrived loc, l') ∧ l.Trims l' ∧
      l'.Located probe loc := by
  -- on the steps: each leaves fewer nodes behind `pred`, because a deleted one is unlinked or
  -- because `pred` moves on
  induction steps generalizing l pred curr with
  | zero => exact absurd hsteps (Nat.not_lt_zero _)
  | succ steps ih =>
    cases curr with
    | none => exact ⟨⟨pred, none⟩, l, rfl, Trims.refl l, hpred, hcurr, fun i hi => nomatch hi⟩
    | some c =>
      have here : l.link pred = ⟨some c, false⟩ := hpred.link_eq hcurr
      have htrail : l.trail pred = c :: l.trail c := hl.trail_of_target_some hcurr
      rw [htrail, List.length_cons] at hsteps
      rw [walk]
      cases hmark : (l.link c).marked with
      | true =>
        -- a deleted node: it is unlinked, which cannot fail here
        have frozen : l.link c = ⟨(l.link c).target, true⟩ := Link.ext rfl hmark
        have htrim := trims_unlink here frozen
        have hsound := hl.setLink_unlink here frozen
        have hshort := hl.trail_unlink here frozen
        obtain ⟨loc, l', hwalk, htrims, hloc⟩ := ih hsound (htrim.inFront hpred)
          (by rw [link_setLink_self hpred.lt_size]) (by rw [hshort]; omega)
        refine ⟨loc, l', ?_, htrim.trans htrims, hloc⟩
        simp only [unlink, compareAndSwap_eq, if_pos here, if_true]
        exact hwalk
      | false =>
        obtain ⟨b, hb, -⟩ := hl.before hcurr
        have helem : l.element c = .ok b := element_eq_ok_iff.mpr hb
        simp only [Bool.false_eq_true, if_false, helem, Checked.ok_bind]
        by_cases hlt : probe b = .lt
        · -- a live node in front of the place: the pass goes on behind it
          rw [if_pos hlt]
          have hc : l.Holds c b := ⟨hb, hmark⟩
          exact ih hl (hc.inFront hlt) rfl (by omega)
        · -- a live node that is not in front of it: this is the place
          rw [if_neg hlt]
          refine ⟨⟨pred, some c⟩, l, rfl, Trims.refl l, hpred, hcurr, fun i hi => ?_⟩
          obtain rfl : c = i := Option.some.inj hi
          exact ⟨b, ⟨hb, hmark⟩, hlt⟩

/-- **A search ends at its place.** -/
theorem search_spec (hl : l.Sound) (hi : l.InFront probe i) :
    ∃ loc l', l.search i probe = .ok (loc, l') ∧ l.Trims l' ∧ l'.Located probe loc := by
  obtain ⟨loc, l', hwalk, hspec⟩ := walk_spec hl hi rfl (hl.length_trail_lt i)
  -- the first pass arrives, so no second one is made
  refine ⟨loc, l', ?_, hspec⟩
  rw [search, bound, searchWithin, hwalk]
  rfl

/-! ### The node that is sought -/

/-- Whatever is linked with an element at the place stands right behind it. -/
theorem Located.eq_of_mem_linked (h : l.Located probe loc) (hl : l.Sound) (hp : probe.Monotone)
    (hi : i ∈ l.linked) (ha : (l.node i).element? = some a) (heq : probe a = .eq) :
    loc.curr = some i := by
  have hpred := h.pred
  have hpmem := hl.mem_cons_linked hpred.lt_size hpred.unmarked
  rcases hl.eq_or_before hpmem (List.mem_cons_of_mem head hi) with rfl | hi | hi
  · exact absurd (heq.symm.trans (hpred.lt a ha)) (by decide)
  · -- behind `pred`: then behind `curr`, unless it is `curr`
    cases hcurr : loc.curr with
    | none =>
      rw [trail_of_target_none (h.adjacent.trans hcurr)] at hi
      cases hi
    | some c =>
      obtain ⟨b, hb, hge⟩ := h.curr c hcurr
      rw [hl.trail_of_target_some (h.adjacent.trans hcurr)] at hi
      rcases List.mem_cons.mp hi with rfl | hi
      · rfl
      · have hlt := (hl.before_of_mem_trail hi).compare_eq hb.1 ha
        exact absurd (hp b a hlt (by rw [heq]; decide)) hge
  · -- in front of `pred`, which is in front of the place
    obtain ⟨b, hb, hlt⟩ := hl.before_of_mem_trail hi
    have hbefore := hp a b (hlt a ha) (by rw [hpred.lt b hb]; decide)
    exact absurd (heq.symm.trans hbefore) (by decide)

theorem Located.eq_of_holds (h : l.Located probe loc) (hl : l.Sound) (hp : probe.Monotone)
    (ha : l.Holds i a) (heq : probe a = .eq) : loc.curr = some i :=
  h.eq_of_mem_linked hl hp (hl.mem_linked ha) ha.1 heq

/-- A deleted node with an element at the place is not linked any more. -/
theorem Located.notMem_linked (h : l.Located probe loc) (hl : l.Sound) (hp : probe.Monotone)
    (hm : (l.link i).marked = true) (ha : (l.node i).element? = some a) (heq : probe a = .eq) :
    i ∉ l.linked := by
  intro hi
  obtain ⟨b, hb, -⟩ := h.curr i (h.eq_of_mem_linked hl hp hi ha heq)
  exact absurd (hm.symm.trans hb.2) (by decide)

/-- No node holds what is sought. -/
def Lacks (l : SortedList α) (probe : Probe α) : Prop :=
  ∀ i a, l.Holds i a → probe a ≠ .eq

/-- What a search for a node may answer: one that holds what is sought, or none if there is none. -/
def Found (l : SortedList α) (probe : Probe α) : Option NodeId → Prop
  | some i => ∃ a, l.Holds i a ∧ probe a = .eq
  | none => l.Lacks probe

/-- What a search for an element may answer: one that is stored and is what is sought, or none if
there is none. -/
def Stores (l : SortedList α) (probe : Probe α) : Option α → Prop
  | some a => ∃ i, l.Holds i a ∧ probe a = .eq
  | none => l.Lacks probe

theorem Located.matching?_spec (h : l.Located probe loc) (hl : l.Sound) (hp : probe.Monotone) :
    ∃ found, l.matching? probe loc.curr = .ok found ∧ l.Found probe found ∧
      ∀ i, found = some i → loc.curr = some i := by
  cases hcurr : loc.curr with
  | none =>
    refine ⟨none, rfl, fun i a ha heq => ?_, fun i hi => nomatch hi⟩
    exact absurd (hcurr.symm.trans (h.eq_of_holds hl hp ha heq)) (by simp)
  | some c =>
    obtain ⟨b, hb, -⟩ := h.curr c hcurr
    have helem : l.element c = .ok b := element_eq_ok_iff.mpr hb.1
    simp only [matching?, helem, Checked.ok_bind]
    -- `c` is not in front of the place, so it is either what is sought or beyond it
    by_cases heq : probe b = .eq
    · exact ⟨some c, by rw [if_pos heq]; rfl, ⟨b, hb, heq⟩, fun i hi => hi⟩
    · refine ⟨none, by rw [if_neg heq]; rfl, fun i a ha hai => heq ?_, fun i hi => nomatch hi⟩
      have hci := hcurr.symm.trans (h.eq_of_holds hl hp ha hai)
      obtain rfl : c = i := Option.some.inj hci
      rw [hb.unique ha.1, hai]

/-- **A lookup finds what is there.** -/
theorem lookupAfter_spec (hl : l.Sound) (hi : l.InFront probe i) (hp : probe.Monotone) :
    ∃ found l', l.lookupAfter i probe = .ok (found, l') ∧ l.Trims l' ∧ l.Found probe found := by
  obtain ⟨loc, l', hsearch, htrims, hloc⟩ := search_spec hl hi
  obtain ⟨found, hmatch, hfound, -⟩ := hloc.matching?_spec (hl.evolves htrims.evolves).1 hp
  refine ⟨found, l', ?_, htrims, ?_⟩
  · simp only [lookupAfter, hsearch, Checked.ok_bind, hmatch]
    rfl
  · -- what was found after the search was there before it
    cases found with
    | some i =>
      obtain ⟨a, ha, heq⟩ := hfound
      exact ⟨a, htrims.holds_iff.mp ha, heq⟩
    | none => exact fun i a ha => hfound i a (htrims.holds_iff.mpr ha)

omit [Ord α] [Std.TransOrd α] in
/-- A search that found a node found what the node holds. -/
theorem Found.exists_stores {found : Option NodeId} (h : l.Found probe found) :
    ∃ x, l.Stores probe x ∧ x.isSome = found.isSome := by
  cases found with
  | none => exact ⟨none, h, rfl⟩
  | some i =>
    obtain ⟨a, ha, heq⟩ := h
    exact ⟨some a, ⟨i, ha, heq⟩, rfl⟩

/-- There is only one answer to a search. -/
theorem Stores.unique (hl : l.Sound) (hp : probe.Monotone) {x y : Option α}
    (hx : l.Stores probe x) (hy : l.Stores probe y) : x = y := by
  cases x with
  | none =>
    cases y with
    | none => rfl
    | some b =>
      obtain ⟨j, hb, hpb⟩ := hy
      exact absurd hpb (hx j b hb)
  | some a =>
    obtain ⟨i, ha, hpa⟩ := hx
    cases y with
    | none => exact absurd hpa (hy i a ha)
    | some b =>
      obtain ⟨j, hb, hpb⟩ := hy
      obtain rfl := hl.eq_of_sought hp ha hb hpa hpb
      exact ha.1.symm.trans hb.1

end SortedList

end SplitOrder
