import SplitOrder.Proofs.List.Update

/-!
# Starts that were deleted meanwhile

A deletion may search from its start twice, and what was run between the two searches may have
deleted the start itself. The second search may then never end. If it ends, the deletion is
settled like any other (`Claims.evolves_settleAfter`).

* `search_of_marked` — a search from a deleted node either comes back to a live node in front of
  the place, or stays where it is, because the frozen link of its start leads beyond the place.
* `Evolves.notMem_linked_of_skipped` — when a node is deleted, whatever its link leads over is off
  the list. So in the second case there is nothing left to unlink.
-/

namespace SplitOrder.SortedList

variable {α : Type _} [Ord α] {l l' l'' : SortedList α} {probe : Probe α} {i k : NodeId}

/-- Only the write that marks a node marks it. -/
theorem Write.eq_of_marked (hw : l.Write l') (hm : (l.link i).marked = false)
    (hm' : (l'.link i).marked = true) :
    ∃ succ, l.link i = ⟨succ, false⟩ ∧ i < l.nodes.size ∧ l' = l.setLink i ⟨succ, true⟩ := by
  cases hw with
  | @link pred curr a here inRange above below =>
    by_cases hnew : i = l.nodes.size
    · subst hnew
      rw [link_withNode_new] at hm'
      cases hm'
    · rw [marked_withNode here inRange hnew, hm] at hm'
      cases hm'
  | @mark j succ here inRange ne_head =>
    by_cases hij : i = j
    · subst hij
      exact ⟨succ, here, inRange, rfl⟩
    · rw [link_setLink_of_ne inRange hij, hm] at hm'
      cases hm'
  | unlink here frozen =>
    rw [marked_setLink_target here (lt_size_of_target (by rw [here])), hm] at hm'
    cases hm'
  | retire marked unlinked =>
    have hm' : (l.link i).marked = true := hm'
    rw [hm] at hm'
    cases hm'

variable [Std.TransOrd α]

/-- A node between a linked one and the next is not linked. -/
theorem Ordered.notMem_linked_of_between (h : l.Ordered) (hi : i ∈ head :: l.linked)
    (hik : l.Before i k) (hkj : ∀ j, (l.link i).target = some j → l.Before k j) :
    k ∉ l.linked := by
  intro hk
  -- `k` would have to be `i`, behind `i` and then behind the next one, or in front of `i`
  rcases h.eq_or_before hi (List.mem_cons_of_mem _ hk) with rfl | hk | hk
  · exact not_before_self hik
  · cases ht : (l.link i).target with
    | none =>
      rw [trail_of_target_none ht] at hk
      cases hk
    | some j =>
      rw [h.trail_of_target_some ht] at hk
      rcases List.mem_cons.mp hk with rfl | hk
      · exact not_before_self (hkj k ht)
      · exact not_before_self ((h.before_of_mem_trail hk).trans (hkj j ht))
  · exact not_before_self (hik.trans (h.before_of_mem_trail hk))

/-- **What a deleted node leads over is gone.** When `i` was deleted it was linked, and `k` did not
come next. -/
theorem Evolves.notMem_linked_of_skipped (he : l.Evolves l') (hl : l.Sound)
    (hi : i < l.nodes.size) (hm : (l.link i).marked = false) (hm' : (l'.link i).marked = true)
    (hik : l.Before i k) (hkj : ∀ j, (l'.link i).target = some j → l'.Before k j) :
    k ∉ l'.linked := by
  -- on the writes: up to the one that marks `i` nothing is known of `k`; from then on the link of
  -- `i` is frozen, and a node that is off the list stays off
  induction he with
  | refl =>
    rw [hm] at hm'
    cases hm'
  | @tail l₁ l₂ he hw ih =>
    obtain ⟨hl₁, hlater⟩ := hl.evolves he
    have hlast := hw.later hl₁
    have hk : k < l₁.nodes.size := Nat.lt_of_lt_of_le hik.lt_size hlater.size_le
    have hi₁ : i < l₁.nodes.size := Nat.lt_of_lt_of_le hi hlater.size_le
    have hkj₁ : ∀ j, j < l₁.nodes.size → l₂.Before k j → l₁.Before k j := fun j hj h =>
      h.of_element (hlast.element hk).symm (hlast.element hj).symm
    cases hm₁ : (l₁.link i).marked with
    | true =>
      -- marked before: the link led over `k` then as it does now
      refine hlast.unlinked hk (ih hm₁ fun j hj => hkj₁ j (hl₁.before hj).lt_size (hkj j ?_))
      rw [hlast.frozen hm₁, hj]
    | false =>
      -- this write marks it
      obtain ⟨succ, here, -, rfl⟩ := hw.eq_of_marked hm₁ hm'
      rw [linked_mark here hi₁]
      refine hl₁.notMem_linked_of_between (hl₁.mem_cons_linked hi₁ hm₁)
        (hik.of_element (hlater.element hi) (hlater.element hik.lt_size)) fun j hj => ?_
      refine hkj₁ j (hl₁.before hj).lt_size (hkj j ?_)
      rw [link_setLink_self hi₁]
      rwa [here] at hj

/-! ### A search from a deleted node -/

/-- The link of a node leads beyond the place, to a live node or to the end. -/
def LeadsBeyond (l : SortedList α) (probe : Probe α) (i : NodeId) : Prop :=
  ∀ j, (l.link i).target = some j → ∃ a, l.Holds j a ∧ probe a ≠ .lt

/-- What a search that ends has done if it began at a deleted node. -/
def Rejoined (l : SortedList α) (probe : Probe α) (i : NodeId) (loc : Location)
    (l' : SortedList α) : Prop :=
  l.Trims l' ∧ l'.Located probe loc ∨ l' = l ∧ l.LeadsBeyond probe i

/-- One pass from a deleted node. -/
theorem walk_of_marked (hl : l.Sound) (hm : (l.link i).marked = true) {pass : Pass}
    (h : l.walk probe l.bound i (l.link i).target = .ok (pass, l')) :
    pass = .disturbed ∧ l' = l ∨ ∃ loc, pass = .arrived loc ∧ l.Rejoined probe i loc l' := by
  have hlength := hl.length_trail_lt i
  rw [bound] at h hlength
  cases ht : (l.link i).target with
  | none =>
    rw [ht, walk] at h
    cases h
    refine .inr ⟨_, rfl, .inr ⟨rfl, fun j hj => ?_⟩⟩
    rw [ht] at hj
    cases hj
  | some j =>
    rw [ht, walk] at h
    cases hmark : (l.link j).marked with
    | true =>
      -- the link of a deleted start is frozen, so the deleted node behind it cannot be left out
      have hne : l.link i ≠ ⟨some j, false⟩ := by
        intro heq
        rw [heq] at hm
        cases hm
      simp only [hmark, if_true, unlink, compareAndSwap_eq, if_neg hne] at h
      cases h
      exact .inl ⟨rfl, rfl⟩
    | false =>
      obtain ⟨b, hb, -⟩ := hl.before ht
      simp only [hmark, Bool.false_eq_true, if_false, element_eq_ok_iff.mpr hb,
        Checked.ok_bind] at h
      by_cases hlt : probe b = .lt
      · -- back on the list, in front of the place
        rw [if_pos hlt] at h
        rw [hl.trail_of_target_some ht, List.length_cons] at hlength
        have hj : l.Holds j b := ⟨hb, hmark⟩
        obtain ⟨loc, l₁, hwalk, htrims, hloc⟩ :=
          walk_spec hl (hj.inFront hlt) rfl (Nat.lt_of_succ_lt_succ hlength)
        cases hwalk.symm.trans h
        exact .inr ⟨loc, rfl, .inl ⟨htrims, hloc⟩⟩
      · -- already beyond the place
        rw [if_neg hlt] at h
        cases h
        refine .inr ⟨_, rfl, .inr ⟨rfl, fun k hk => ?_⟩⟩
        obtain rfl : j = k := Option.some.inj (ht.symm.trans hk)
        exact ⟨b, ⟨hb, hmark⟩, hlt⟩

theorem search_of_marked (hl : l.Sound) (hm : (l.link i).marked = true) {loc : Location}
    (h : l.search i probe = .ok (loc, l')) : l.Rejoined probe i loc l' := by
  rw [search] at h
  -- a pass that is disturbed leaves the list as it is, so each of them is the first one
  generalize l.bound = passes at h
  induction passes with
  | zero => cases h
  | succ passes ih =>
    rw [searchWithin] at h
    obtain ⟨⟨pass, l₁⟩, hwalk, hrest⟩ := Checked.bind_eq_ok.mp h
    rcases walk_of_marked hl hm hwalk with ⟨rfl, rfl⟩ | ⟨loc', rfl, hspec⟩
    · exact ih hrest
    · cases hrest
      exact hspec

/-! ### A late settling -/

/-- What was claimed is off the list if the link of a deleted start leads beyond it. -/
theorem Claims.notMem_linked_of_leadsBeyond {c : Claim} (h : l.Claims probe c l')
    (hl : l.Sound) (hi : l.InFront probe i) (hp : probe.Monotone) (he : l'.Evolves l'')
    (hm : (l''.link i).marked = true) (hbeyond : l''.LeadsBeyond probe i) :
    c.node ∉ l''.linked := by
  have hi' := h.inFront hi
  have hl' := (hl.evolves h.evolves).1
  have hl'' := (hl'.evolves he).1
  have hnode : l.Before i c.node := by
    obtain ⟨a, ha, heq⟩ := h.held
    exact hi.before hl hp ha heq
  obtain ⟨frozen, a, ha, heq⟩ := h.lasts hl he
  intro hmem
  refine he.notMem_linked_of_skipped hl' hi'.lt_size hi'.unmarked hm
    (hnode.of_element (h.element_eq i) (h.element_eq c.node)) (fun j hj => ?_) hmem
  -- `j` is live and not in front of the place, so it comes after the claimed node
  obtain ⟨b, hb, hge⟩ := hbeyond j hj
  rcases hl''.eq_or_before (List.mem_cons_of_mem _ hmem)
    (List.mem_cons_of_mem _ (hl''.mem_linked hb)) with rfl | hj | hnode
  · have hunmarked := hb.2
    rw [frozen] at hunmarked
    cases hunmarked
  · exact hl''.before_of_mem_trail hj
  · have hlt := (hl''.before_of_mem_trail hnode).compare_eq hb.1 ha
    exact absurd (hp b a hlt (by rw [heq]; decide)) hge

/-- A claimed node leaves the list even if the start of the deletion was deleted: with the write of
the claim, in the search, or before. -/
theorem Claims.unlinkClaimed_of_marked {c : Claim} {l₃ : SortedList α} (h : l.Claims probe c l')
    (hl : l.Sound) (hi : l.InFront probe i) (hp : probe.Monotone) (he : l'.Evolves l'')
    (hm : (l''.link i).marked = true) (hu : l''.unlinkClaimed i probe c = .ok l₃) :
    l''.Trims l₃ ∧ c.node ∉ l₃.linked := by
  have hl'' : l''.Sound := ((hl.evolves h.evolves).1.evolves he).1
  obtain ⟨frozen, a, ha, heq⟩ := h.lasts hl he
  unfold unlinkClaimed unlink at hu
  rw [compareAndSwap_eq] at hu
  by_cases here : l''.link c.pred = ⟨some c.node, false⟩
  · rw [if_pos here] at hu
    cases hu
    exact ⟨trims_unlink here frozen, hl''.notMem_linked_unlink here frozen⟩
  · rw [if_neg here] at hu
    obtain ⟨⟨loc, l₄⟩, hsearch, hu⟩ := Checked.bind_eq_ok.mp hu
    cases hu
    rcases search_of_marked hl'' hm hsearch with ⟨htrims, hloc⟩ | ⟨rfl, hbeyond⟩
    · refine ⟨htrims, hloc.notMem_linked (hl''.evolves htrims.evolves).1 hp ?_ ?_ heq⟩
      · rw [htrims.marked_eq, frozen]
      · rw [htrims.element_eq, ha]
    · exact ⟨Trims.refl _, h.notMem_linked_of_leadsBeyond hl hi hp he hm hbeyond⟩

/-- **A settling that ends only writes what may be written**, however old the claim is, and whether
or not its start is still on the list. -/
theorem Claims.evolves_settleAfter {c : Claim} {l₃ : SortedList α} (h : l.Claims probe c l')
    (hl : l.Sound) (hi : l.InFront probe i) (hp : probe.Monotone) (he : l'.Evolves l'')
    (hs : l''.settleAfter i probe c = .ok l₃) : l''.Evolves l₃ := by
  have hi' := h.inFront hi
  obtain ⟨-, hlater⟩ := (hl.evolves h.evolves).1.evolves he
  cases hm : (l''.link i).marked with
  | false =>
    -- the start is live: this is the usual case
    have hi'' : l''.InFront probe i := by
      refine ⟨Nat.lt_of_lt_of_le hi'.lt_size hlater.size_le, hm, fun a ha => hi'.lt a ?_⟩
      rw [← hlater.element hi'.lt_size, ha]
    obtain ⟨l₄, hs', hset⟩ := h.settles hl he hi'' hp
    cases hs'.symm.trans hs
    exact hset.evolves
  | true =>
    obtain ⟨l₄, hunlink, hs⟩ := Checked.bind_eq_ok.mp hs
    cases hs
    obtain ⟨htrims, hgone⟩ := h.unlinkClaimed_of_marked hl hi hp he hm hunlink
    obtain ⟨frozen, -⟩ := h.lasts hl he
    refine htrims.evolves.tail (.retire ?_ hgone)
    rw [htrims.marked_eq, frozen]

end SplitOrder.SortedList
