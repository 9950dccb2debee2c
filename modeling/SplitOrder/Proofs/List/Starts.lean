import SplitOrder.Proofs.List.Update

/-!
# Where a search starts

On a list without deleted nodes a search writes nothing, and the place that it ends at is the only
one there is. So it does not matter where it starts, as long as that is a live node in front of the
place; and an operation knows of its start by its search alone.

* `Clean` — no deleted node is on the list.
* `search_of_clean` — a search on such a list leaves it as it is.
* `Located.unique` — there is one place.
* `search_congr`, `lookupAfter_congr`, `insertAfter_congr`, `deleteAfter_congr` — from two starts in
  front of the place an operation answers the same and leaves the same list.
-/

namespace SplitOrder.SortedList

variable {α : Type _}

/-- No deleted node is on the list. -/
def Clean (l : SortedList α) : Prop :=
  ∀ i ∈ l.linked, (l.link i).marked = false

variable [Ord α] {l l' : SortedList α} {probe : Probe α} {loc loc' : Location} {i j : NodeId} {a : α}

variable [Std.TransOrd α]

/-- What is met behind a linked node is linked. -/
theorem Ordered.trail_subset_linked (h : l.Ordered) (hi : i ∈ head :: l.linked) :
    l.trail i ⊆ l.linked := by
  rcases List.mem_cons.mp hi with rfl | hi
  · exact List.Subset.refl _
  · intro k hk
    obtain ⟨xs, hxs⟩ := h.exists_trail_eq_append (i := head) hi
    rw [← trail_head, hxs]
    exact List.mem_append_right _ (List.mem_cons_of_mem _ hk)

/-- A pass that meets no deleted node writes nothing. -/
theorem walk_of_unmarked (h : l.Ordered) {steps : Nat} {pred : NodeId} {curr : Option NodeId}
    {pass : Pass} (unmarked : ∀ k ∈ l.trail pred, (l.link k).marked = false)
    (hcurr : (l.link pred).target = curr)
    (hwalk : l.walk probe steps pred curr = .ok (pass, l')) : l' = l := by
  -- on the steps; whatever the pass meets stands on the trail of `pred`
  induction steps generalizing pred curr with
  | zero => cases hwalk
  | succ steps ih =>
    cases curr with
    | none =>
      cases hwalk
      rfl
    | some c =>
      have htrail : l.trail pred = c :: l.trail c := h.trail_of_target_some hcurr
      have hc : (l.link c).marked = false := unmarked c (by rw [htrail]; exact List.mem_cons_self)
      simp only [walk, hc, Bool.false_eq_true, if_false] at hwalk
      obtain ⟨item, -, hwalk⟩ := Checked.bind_eq_ok.mp hwalk
      split at hwalk
      · -- the pass goes on behind `c`
        refine ih (fun k hk => unmarked k ?_) rfl hwalk
        rw [htrail]
        exact List.mem_cons_of_mem _ hk
      · cases hwalk
        rfl

/-- **A search writes nothing** where no deleted node is on the list. -/
theorem search_of_clean (hl : l.Sound) (clean : l.Clean) (hi : l.InFront probe i) :
    ∃ loc, l.search i probe = .ok (loc, l) ∧ l.Located probe loc := by
  -- the first pass arrives, and all it meets is linked
  obtain ⟨loc, l', hwalk, -, hloc⟩ := walk_spec hl hi rfl (hl.length_trail_lt i)
  have hsub : l.trail i ⊆ l.linked :=
    hl.trail_subset_linked (hl.mem_cons_linked hi.lt_size hi.unmarked)
  obtain rfl : l' = l := walk_of_unmarked hl.toOrdered (fun k hk => clean k (hsub hk)) rfl hwalk
  refine ⟨loc, ?_, hloc⟩
  rw [search, bound, searchWithin, hwalk]
  rfl

/-- Behind the place there is nothing in front of it. -/
theorem Located.notMem_trail (h : l.Located probe loc) (hl : l.Sound) (hp : probe.Monotone)
    (hj : l.InFront probe j) : j ∉ l.trail loc.pred := by
  intro hmem
  cases hcurr : loc.curr with
  | none =>
    rw [trail_of_target_none (h.adjacent.trans hcurr)] at hmem
    cases hmem
  | some c =>
    obtain ⟨b, hb, hge⟩ := h.curr c hcurr
    rw [hl.trail_of_target_some (h.adjacent.trans hcurr)] at hmem
    rcases List.mem_cons.mp hmem with rfl | hmem
    · exact hge (hj.lt b hb.1)
    · -- `c` would be in front of the place, since `j` is and stands behind it
      obtain ⟨a, ha, hlt⟩ := hl.before_of_mem_trail hmem
      refine hge (hp b a (hlt b hb.1) ?_)
      rw [hj.lt a ha]
      decide

/-- **There is one place.** -/
theorem Located.unique (h : l.Located probe loc) (h' : l.Located probe loc') (hl : l.Sound)
    (hp : probe.Monotone) : loc = loc' := by
  have hmem : ∀ {k}, l.InFront probe k → k ∈ head :: l.linked := fun hk =>
    hl.mem_cons_linked hk.lt_size hk.unmarked
  -- neither of the nodes in front stands behind the other
  have hpred : loc.pred = loc'.pred := by
    rcases hl.eq_or_before (hmem h.pred) (hmem h'.pred) with heq | hbehind | hbehind
    · exact heq
    · exact absurd hbehind (h.notMem_trail hl hp h'.pred)
    · exact absurd hbehind (h'.notMem_trail hl hp h.pred)
  have hcurr : loc.curr = loc'.curr := by
    rw [← h.adjacent, ← h'.adjacent, hpred]
  obtain ⟨pred, curr⟩ := loc
  obtain rfl : pred = loc'.pred := hpred
  obtain rfl : curr = loc'.curr := hcurr
  rfl

/-! ### Two starts -/

/-- From two starts a search ends at one place and leaves the list as it is. -/
theorem search_congr (hl : l.Sound) (clean : l.Clean) (hp : probe.Monotone)
    (hi : l.InFront probe i) (hj : l.InFront probe j) :
    ∃ loc, l.search i probe = .ok (loc, l) ∧ l.search j probe = .ok (loc, l) ∧
      l.Located probe loc := by
  obtain ⟨loc, hsearch, hloc⟩ := search_of_clean hl clean hi
  obtain ⟨loc', hsearch', hloc'⟩ := search_of_clean hl clean hj
  obtain rfl := hloc.unique hloc' hl hp
  exact ⟨loc, hsearch, hsearch', hloc⟩

theorem lookupAfter_congr (hl : l.Sound) (clean : l.Clean) (hp : probe.Monotone)
    (hi : l.InFront probe i) (hj : l.InFront probe j) :
    l.lookupAfter i probe = l.lookupAfter j probe := by
  obtain ⟨loc, hsearch, hsearch', -⟩ := search_congr hl clean hp hi hj
  rw [lookupAfter, lookupAfter, hsearch, hsearch']

theorem insertAfter_congr (hl : l.Sound) (clean : l.Clean) (hi : l.InFront (.ofElement a) i)
    (hj : l.InFront (.ofElement a) j) : l.insertAfter i a = l.insertAfter j a := by
  obtain ⟨loc, hsearch, hsearch', hloc⟩ :=
    search_congr hl clean (Probe.monotone_ofElement a) hi hj
  rw [insertAfter_of_search hsearch hloc, insertAfter_of_search hsearch' hloc]

theorem deleteAfter_congr (hl : l.Sound) (clean : l.Clean) (hp : probe.Monotone)
    (hi : l.InFront probe i) (hj : l.InFront probe j) :
    l.deleteAfter i probe = l.deleteAfter j probe := by
  obtain ⟨loc, hsearch, hsearch', hloc⟩ := search_congr hl clean hp hi hj
  rw [deleteAfter_of_search hsearch hl hloc hp, deleteAfter_of_search hsearch' hl hloc hp]

end SplitOrder.SortedList
