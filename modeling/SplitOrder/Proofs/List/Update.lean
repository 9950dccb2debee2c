import SplitOrder.List.Update
import SplitOrder.Proofs.List.Search

/-!
# What insertions and deletions do

Each operation ends, and its effect is told by what the nodes hold before and after it.

* `insertAfter_of_search`, `claimAfter_of_search`, `deleteAfter_of_search` — what is done after the
  search: the neighbours are still what the search found, so the first attempt succeeds.
* `insertAfter_spec` — either an equal element is there and the list is only trimmed, or one new
  node holds the new element (`Links`).
* `claimAfter_spec` — the node that holds what is sought is marked (`Claims`). Nothing else
  happens to any node.
* `settleAfter_spec` — a claimed node is off the list afterwards, whatever happened since the claim
  (`Settles`). Its link is frozen, so the write in front of it is either right or fails; after a
  failure the search cannot end without unlinking the node.
* `deleteAfter_spec` — both steps.

All searches may start at any node in front of the place (`InFront`).
-/

namespace SplitOrder.SortedList

variable {α : Type _} [Ord α]

/-- **The effect of an insertion.** No node held an equal element; the new node holds `a`. -/
structure Links (l : SortedList α) (a : α) (i : NodeId) (l' : SortedList α) : Prop where
  evolves : l.Evolves l'
  fresh : l.Lacks (.ofElement a)
  name_eq : i = l.nodes.size
  size_eq : l'.nodes.size = l.nodes.size + 1
  marked_eq : ∀ j, (l'.link j).marked = (l.link j).marked
  holds_iff : ∀ {j b}, l'.Holds j b ↔ l.Holds j b ∨ (j = i ∧ b = a)
  reclaimer_eq : l'.reclaimer = l.reclaimer

/-- How an insertion may end. -/
def Inserts (l : SortedList α) (a : α) : Insertion → SortedList α → Prop
  | .linked i, l' => l.Links a i l'
  | .existing i, l' => l.Trims l' ∧ ∃ b, l.Holds i b ∧ compare b a = .eq

/-- **The effect of a claim.** One node is marked that held what is sought, and its link is frozen
from now on. -/
structure Claims (l : SortedList α) (probe : Probe α) (c : Claim) (l' : SortedList α) :
    Prop where
  evolves : l.Evolves l'
  held : ∃ a, l.Holds c.node a ∧ probe a = .eq
  frozen : l'.link c.node = ⟨c.succ, true⟩
  size_eq : l'.nodes.size = l.nodes.size
  element_eq : ∀ j, (l'.node j).element? = (l.node j).element?
  marked_eq : ∀ j, j ≠ c.node → (l'.link j).marked = (l.link j).marked
  reclaimer_eq : l'.reclaimer = l.reclaimer

/-- **The effect of settling a claim.** The node is off the list and retired; what the nodes hold
stays. -/
structure Settles (l : SortedList α) (c : Claim) (l' : SortedList α) : Prop where
  evolves : l.Evolves l'
  unlinked : c.node ∉ l'.linked
  size_eq : l'.nodes.size = l.nodes.size
  marked_eq : ∀ j, (l'.link j).marked = (l.link j).marked
  holds_iff : ∀ {j b}, l'.Holds j b ↔ l.Holds j b
  reclaimer_eq : l'.reclaimer = l.reclaimer.retire c.node

/-- How a claim may end. -/
def ClaimEnds (l : SortedList α) (probe : Probe α) : Option Claim → SortedList α → Prop
  | some c, l' => l.Claims probe c l'
  | none, l' => l.Trims l' ∧ l.Lacks probe

/-- **The effect of a deletion.** One node does not hold its element any more. -/
structure Deletes (l : SortedList α) (probe : Probe α) (a : α) (i : NodeId)
    (l' : SortedList α) : Prop where
  evolves : l.Evolves l'
  held : l.Holds i a
  sought : probe a = .eq
  unlinked : i ∉ l'.linked
  marked : (l'.link i).marked = true
  marked_eq : ∀ j, j ≠ i → (l'.link j).marked = (l.link j).marked
  holds_iff : ∀ {j b}, l'.Holds j b ↔ l.Holds j b ∧ j ≠ i
  reclaimer_eq : l'.reclaimer = l.reclaimer.retire i

/-- How a deletion may end. -/
def DeletionEnds (l : SortedList α) (probe : Probe α) : Option α → SortedList α → Prop
  | some a, l' => ∃ i, l.Deletes probe a i l'
  | none, l' => l.Trims l' ∧ l.Lacks probe

variable {l l' l'' : SortedList α} {probe : Probe α} {loc : Location} {i j pred : NodeId} {a b : α}
  {c : Claim}

theorem Inserts.evolves {ins : Insertion} (h : l.Inserts a ins l') : l.Evolves l' := by
  cases ins with
  | linked i => exact Links.evolves h
  | existing i => exact h.1.evolves

theorem DeletionEnds.evolves {probe : Probe α} {removed : Option α}
    (h : l.DeletionEnds probe removed l') : l.Evolves l' := by
  cases removed with
  | none => exact h.1.evolves
  | some a =>
    obtain ⟨i, hdel⟩ := h
    exact hdel.evolves

theorem ClaimEnds.evolves {probe : Probe α} {claim : Option Claim}
    (h : l.ClaimEnds probe claim l') : l.Evolves l' := by
  cases claim with
  | none => exact h.1.evolves
  | some c => exact Claims.evolves h

theorem Claims.holds_iff (h : l.Claims probe c l') :
    l'.Holds j b ↔ l.Holds j b ∧ j ≠ c.node := by
  unfold Holds
  rw [h.element_eq]
  by_cases hj : j = c.node
  · subst hj
    rw [h.frozen]
    simp
  · rw [h.marked_eq j hj]
    simp [hj]

/-- A start in front of the place is not the node that was claimed there. -/
theorem Claims.inFront (h : l.Claims probe c l') (hi : l.InFront probe i) :
    l'.InFront probe i := by
  obtain ⟨a, ha, heq⟩ := h.held
  have hne : i ≠ c.node := by
    rintro rfl
    exact absurd (heq.symm.trans (hi.lt a ha.1)) (by decide)
  refine ⟨by rw [h.size_eq]; exact hi.lt_size, by rw [h.marked_eq i hne]; exact hi.unmarked, ?_⟩
  intro b hb
  rw [h.element_eq] at hb
  exact hi.lt b hb

/-! ### What follows a search -/

section Searched

variable {l₁ : SortedList α}

/-- A new element is linked at the place that the search found. -/
theorem insertAfter_of_search (hsearch : l.search i (.ofElement a) = .ok (loc, l₁))
    (hloc : l₁.Located (.ofElement a) loc) :
    l.insertAfter i a = do
      match ← l₁.matching? (.ofElement a) loc.curr with
      | some j => return (.existing j, l₁)
      | none => return (.linked l₁.nodes.size, l₁.withNode loc.pred loc.curr a) := by
  have here : l₁.link loc.pred = ⟨loc.curr, false⟩ := hloc.pred.link_eq hloc.adjacent
  rw [insertAfter, bound, insertWithin, hsearch, Checked.ok_bind]
  refine bind_congr fun found => ?_
  cases found with
  | some j => rfl
  | none => simp only [linkNew_eq, if_pos here]

variable [Std.TransOrd α]

/-- The node that the search found is live, so the mark is set at once. -/
theorem claimAfter_of_search (hsearch : l.search i probe = .ok (loc, l₁)) (hl₁ : l₁.Sound)
    (hloc : l₁.Located probe loc) (hp : probe.Monotone) :
    l.claimAfter i probe = do
      match ← l₁.matching? probe loc.curr with
      | none => return (none, l₁)
      | some j =>
        return (some ⟨loc.pred, j, (l₁.link j).target⟩,
          l₁.setLink j ⟨(l₁.link j).target, true⟩) := by
  obtain ⟨found, hmatch, hfound, -⟩ := hloc.matching?_spec hl₁ hp
  rw [claimAfter, bound, claimWithin, hsearch]
  simp only [Checked.ok_bind, hmatch]
  cases found with
  | none => rfl
  | some j =>
    obtain ⟨b, hb, -⟩ := hfound
    have here : l₁.link j = ⟨(l₁.link j).target, false⟩ := Link.ext rfl hb.2
    simp only [hb.2, Bool.false_eq_true, if_false, mark, compareAndSwap_eq, if_pos here]

/-- Where nothing happens between the two steps, the node in front is still the one of the claim, and
no second search is made. -/
theorem deleteAfter_of_search (hsearch : l.search i probe = .ok (loc, l₁)) (hl₁ : l₁.Sound)
    (hloc : l₁.Located probe loc) (hp : probe.Monotone) :
    l.deleteAfter i probe = do
      match ← l₁.matching? probe loc.curr with
      | none => return (none, l₁)
      | some j =>
        let a ← l₁.element j
        return (some a, ((l₁.setLink j ⟨(l₁.link j).target, true⟩).setLink loc.pred
          ⟨(l₁.link j).target, false⟩).retire j) := by
  obtain ⟨found, hmatch, hfound, hcurr⟩ := hloc.matching?_spec hl₁ hp
  rw [deleteAfter, claimAfter_of_search hsearch hl₁ hloc hp]
  simp only [hmatch, Checked.ok_bind]
  cases found with
  | none => rfl
  | some j =>
    obtain ⟨b, hb, -⟩ := hfound
    have htarget : (l₁.link loc.pred).target = some j := hloc.adjacent.trans (hcurr j rfl)
    have hne : loc.pred ≠ j := by
      intro h
      rw [h] at htarget
      exact not_before_self (hl₁.before htarget)
    -- to mark the node leaves its element, and the link in front of it
    have helem : (l₁.setLink j ⟨(l₁.link j).target, true⟩).element j = l₁.element j := by
      rw [element, element, element_setLink]
    have here : (l₁.setLink j ⟨(l₁.link j).target, true⟩).link loc.pred = ⟨some j, false⟩ := by
      rw [link_setLink_of_ne hb.lt_size hne]
      exact hloc.pred.link_eq htarget
    simp only [Checked.pure_eq_ok, Checked.ok_bind, helem, settleAfter, unlinkClaimed, unlink,
      compareAndSwap_eq, if_pos here]

end Searched

variable [Std.TransOrd α]

/-- Between the two nodes of a place there is room for an element that is not there. -/
theorem Located.write_withNode (hloc : l.Located (.ofElement a) loc)
    (hlacks : l.Lacks (.ofElement a)) : l.Write (l.withNode loc.pred loc.curr a) := by
  have here : l.link loc.pred = ⟨loc.curr, false⟩ := hloc.pred.link_eq hloc.adjacent
  refine .link here hloc.pred.lt_size hloc.pred.lt fun j hj => ?_
  obtain ⟨b, hb, hge⟩ := hloc.curr j hj
  refine ⟨b, hb.1, Std.OrientedCmp.gt_iff_lt.mp ?_⟩
  have hne : compare b a ≠ .eq := hlacks j b hb
  have hge : compare b a ≠ .lt := hge
  cases hba : compare b a <;> simp_all

/-- **An insertion ends**, at the first attempt. -/
theorem insertAfter_spec (hl : l.Sound) (hi : l.InFront (.ofElement a) i) :
    ∃ ins l', l.insertAfter i a = .ok (ins, l') ∧ l.Inserts a ins l' := by
  obtain ⟨loc, l₁, hsearch, htrims, hloc⟩ := search_spec hl hi
  have hl₁ : l₁.Sound := (hl.evolves htrims.evolves).1
  obtain ⟨found, hmatch, hfound, hcurr⟩ :=
    hloc.matching?_spec hl₁ (Probe.monotone_ofElement a)
  rw [insertAfter_of_search hsearch hloc, hmatch, Checked.ok_bind]
  cases found with
  | some j =>
    -- an equal element is there, and nothing is written
    obtain ⟨b, hb, heq⟩ := hfound
    exact ⟨.existing j, l₁, rfl, htrims, b, htrims.holds_iff.mp hb, heq⟩
  | none =>
    have here : l₁.link loc.pred = ⟨loc.curr, false⟩ := hloc.pred.link_eq hloc.adjacent
    refine ⟨.linked l₁.nodes.size, l₁.withNode loc.pred loc.curr a, rfl,
      htrims.evolves.tail (hloc.write_withNode hfound),
      fun j b hb => hfound j b (htrims.holds_iff.mpr hb), htrims.size_eq, ?_, fun j => ?_,
      fun {j b} => ?_, htrims.reclaimer_eq⟩
    · rw [size_withNode, htrims.size_eq]
    · rw [marked_withNode_eq here hloc.pred.lt_size, htrims.marked_eq]
    · rw [holds_withNode_iff here hloc.pred.lt_size, htrims.holds_iff]

/-- **A claim ends**, at the first attempt. -/
theorem claimAfter_spec (hl : l.Sound) (hi : l.InFront probe i) (hp : probe.Monotone) :
    ∃ claim l', l.claimAfter i probe = .ok (claim, l') ∧ l.ClaimEnds probe claim l' := by
  obtain ⟨loc, l₁, hsearch, htrims, hloc⟩ := search_spec hl hi
  have hl₁ : l₁.Sound := (hl.evolves htrims.evolves).1
  obtain ⟨found, hmatch, hfound, -⟩ := hloc.matching?_spec hl₁ hp
  rw [claimAfter_of_search hsearch hl₁ hloc hp, hmatch, Checked.ok_bind]
  cases found with
  | none =>
    exact ⟨none, l₁, rfl, htrims, fun j b hb => hfound j b (htrims.holds_iff.mpr hb)⟩
  | some j =>
    obtain ⟨b, hb, heq⟩ := hfound
    have here : l₁.link j = ⟨(l₁.link j).target, false⟩ := Link.ext rfl hb.2
    have hj : j < l₁.nodes.size := hb.lt_size
    refine ⟨some ⟨loc.pred, j, (l₁.link j).target⟩, l₁.setLink j ⟨(l₁.link j).target, true⟩, rfl,
      htrims.evolves.tail (.mark here hj (hl₁.ne_head_of_element hb.1)),
      ⟨b, htrims.holds_iff.mp hb, heq⟩, link_setLink_self hj, ?_, fun m => ?_, fun m hm => ?_,
      htrims.reclaimer_eq⟩
    · rw [size_setLink, htrims.size_eq]
    · rw [element_setLink, htrims.element_eq]
    · rw [link_setLink_of_ne hj hm, htrims.marked_eq]

/-- **A claimed node leaves the list**, however old the claim is. -/
theorem unlinkClaimed_spec (hl : l.Sound) (hi : l.InFront probe i) (hp : probe.Monotone)
    (frozen : l.link c.node = ⟨c.succ, true⟩) (ha : (l.node c.node).element? = some a)
    (heq : probe a = .eq) :
    ∃ l', l.unlinkClaimed i probe c = .ok l' ∧ l.Trims l' ∧ c.node ∉ l'.linked := by
  unfold unlinkClaimed unlink
  rw [compareAndSwap_eq]
  by_cases here : l.link c.pred = ⟨some c.node, false⟩
  · -- the node in front is still the one of the claim
    rw [if_pos here]
    exact ⟨_, rfl, trims_unlink here frozen, hl.notMem_linked_unlink here frozen⟩
  · -- it is not, and a search unlinks the node unless that is done already
    rw [if_neg here]
    obtain ⟨loc, l', hsearch, htrims, hloc⟩ := search_spec hl hi
    refine ⟨l', ?_, htrims, hloc.notMem_linked (hl.evolves htrims.evolves).1 hp ?_ ?_ heq⟩
    · simp only [hsearch, Checked.ok_bind]
      rfl
    · rw [htrims.marked_eq, frozen]
    · rw [htrims.element_eq, ha]

theorem settleAfter_spec (hl : l.Sound) (hi : l.InFront probe i) (hp : probe.Monotone)
    (frozen : l.link c.node = ⟨c.succ, true⟩) (ha : (l.node c.node).element? = some a)
    (heq : probe a = .eq) :
    ∃ l', l.settleAfter i probe c = .ok l' ∧ l.Settles c l' := by
  obtain ⟨l₁, hunlink, htrims, hgone⟩ := unlinkClaimed_spec hl hi hp frozen ha heq
  refine ⟨l₁.retire c.node, ?_, ?_⟩
  · rw [settleAfter, hunlink]
    rfl
  · have hmark : (l₁.link c.node).marked = true := by rw [htrims.marked_eq, frozen]
    refine ⟨htrims.evolves.tail (.retire hmark hgone), ?_, htrims.size_eq, htrims.marked_eq,
      fun {_ _} => htrims.holds_iff, ?_⟩
    · rw [linked_retire]
      exact hgone
    · rw [retire, htrims.reclaimer_eq]

/-- At any time after a claim was made the node is what it was then. -/
theorem Claims.lasts (h : l.Claims probe c l') (hl : l.Sound) (he : l'.Evolves l'') :
    l''.link c.node = ⟨c.succ, true⟩ ∧
      ∃ a, (l''.node c.node).element? = some a ∧ probe a = .eq := by
  obtain ⟨a, ha, heq⟩ := h.held
  obtain ⟨-, hlater⟩ := (hl.evolves h.evolves).1.evolves he
  have hmark : (l'.link c.node).marked = true := by rw [h.frozen]
  have helem : (l'.node c.node).element? = some a := by rw [h.element_eq, ha.1]
  refine ⟨?_, a, ?_, heq⟩
  · rw [hlater.frozen hmark, h.frozen]
  · rw [hlater.element (lt_size_of_element helem), helem]

/-- A claim can be settled at any time after it was made. -/
theorem Claims.settles (h : l.Claims probe c l') (hl : l.Sound) (he : l'.Evolves l'')
    (hi : l''.InFront probe i) (hp : probe.Monotone) :
    ∃ l₁, l''.settleAfter i probe c = .ok l₁ ∧ l''.Settles c l₁ := by
  obtain ⟨frozen, a, ha, heq⟩ := h.lasts hl he
  have hl'' : l''.Sound := ((hl.evolves h.evolves).1.evolves he).1
  exact settleAfter_spec hl'' hi hp frozen ha heq

theorem deleteAfter_spec (hl : l.Sound) (hi : l.InFront probe i) (hp : probe.Monotone) :
    ∃ removed l', l.deleteAfter i probe = .ok (removed, l') ∧ l.DeletionEnds probe removed l' := by
  obtain ⟨claim, l₁, hclaim, hends⟩ := claimAfter_spec hl hi hp
  rw [deleteAfter, hclaim]
  simp only [Checked.ok_bind]
  cases claim with
  | none => exact ⟨none, l₁, rfl, hends⟩
  | some c =>
    -- nothing happens between the two steps here
    have hclaims : l.Claims probe c l₁ := hends
    obtain ⟨a, ha, heq⟩ := hclaims.held
    have helem : (l₁.node c.node).element? = some a := by rw [hclaims.element_eq, ha.1]
    obtain ⟨l₂, hsettle, hset⟩ := hclaims.settles hl .refl (hclaims.inFront hi) hp
    refine ⟨some a, l₂, ?_, c.node, hclaims.evolves.trans hset.evolves, ha, heq, hset.unlinked,
      ?_, fun j hj => ?_, ?_, ?_⟩
    · simp only [element_eq_ok_iff.mpr helem, hsettle, Checked.ok_bind]
      rfl
    · rw [hset.marked_eq, hclaims.frozen]
    · rw [hset.marked_eq, hclaims.marked_eq j hj]
    · intro j b
      rw [hset.holds_iff, hclaims.holds_iff]
    · rw [hset.reclaimer_eq, hclaims.reclaimer_eq]

/-! ### What is left -/

/-- **A removal.** What was sought is gone, and all else is still held where it was. -/
def Removes (l : SortedList α) (probe : Probe α) (l' : SortedList α) : Prop :=
  ∀ j b, l'.Holds j b ↔ l.Holds j b ∧ probe b ≠ .eq

omit [Std.TransOrd α] in
theorem Trims.removes (h : l.Trims l') (hlacks : l.Lacks probe) : l.Removes probe l' := by
  intro j b
  rw [h.holds_iff]
  exact ⟨fun hb => ⟨hb, hlacks j b hb⟩, And.left⟩

/-- Where one node that held what is sought holds it no more, nothing that is sought is left. -/
theorem Sound.removes (hl : l.Sound) (hp : probe.Monotone) (ha : l.Holds i a)
    (heq : probe a = .eq) (hiff : ∀ j b, l'.Holds j b ↔ l.Holds j b ∧ j ≠ i) :
    l.Removes probe l' := by
  intro j b
  rw [hiff]
  refine ⟨fun ⟨hb, hne⟩ => ⟨hb, fun hpb => hne ?_⟩, fun ⟨hb, hpb⟩ => ⟨hb, ?_⟩⟩
  · -- only one node holds what is sought
    exact hl.eq_of_sought hp hb ha hpb heq
  · rintro rfl
    rw [hb.unique ha.1] at hpb
    exact hpb heq

theorem Claims.removes (h : l.Claims probe c l') (hl : l.Sound) (hp : probe.Monotone) :
    l.Removes probe l' := by
  obtain ⟨a, ha, heq⟩ := h.held
  exact hl.removes hp ha heq fun _ _ => h.holds_iff

theorem DeletionEnds.removes {removed : Option α} (h : l.DeletionEnds probe removed l')
    (hl : l.Sound) (hp : probe.Monotone) : l.Removes probe l' := by
  cases removed with
  | none => exact h.1.removes h.2
  | some a =>
    obtain ⟨i, hdel⟩ := h
    exact hl.removes hp hdel.held hdel.sought fun _ _ => hdel.holds_iff

omit [Std.TransOrd α] in
/-- A deletion answers what a search would have found. -/
theorem DeletionEnds.stores {removed : Option α} (h : l.DeletionEnds probe removed l') :
    l.Stores probe removed := by
  cases removed with
  | none => exact h.2
  | some a =>
    obtain ⟨i, hdel⟩ := h
    exact ⟨i, hdel.held, hdel.sought⟩

/-! ### What is listed afterwards -/

theorem Trims.live_perm (h : l.Trims l') (hl : l.Sound) : l'.live.Perm l.live := by
  refine hl.live_perm (hl.evolves h.evolves).1 fun b => ?_
  simp only [h.holds_iff]

theorem Links.live_perm (h : l.Links a i l') (hl : l.Sound) : l'.live.Perm (a :: l.live) := by
  refine hl.live_perm_cons (hl.evolves h.evolves).1 (fun j hj => ?_) fun b => ?_
  · -- nothing equal to the new element was held
    exact h.fresh j a hj Std.compare_self
  · simp only [h.holds_iff]
    constructor
    · rintro ⟨j, hj | ⟨-, rfl⟩⟩
      · exact .inr ⟨j, hj⟩
      · exact .inl rfl
    · rintro (rfl | ⟨j, hj⟩)
      · exact ⟨i, .inr ⟨rfl, rfl⟩⟩
      · exact ⟨j, .inl hj⟩

theorem Deletes.live_perm (h : l.Deletes probe a i l') (hl : l.Sound) :
    l.live.Perm (a :: l'.live) := by
  refine (hl.evolves h.evolves).1.live_perm_cons hl (fun j hj => ?_) fun b => ?_
  · -- the node that is left would hold the same element as the one that was deleted
    obtain ⟨hj, hne⟩ := h.holds_iff.mp hj
    exact hne (hl.eq_of_sought (Probe.monotone_ofElement a) hj h.held Std.compare_self
      Std.compare_self)
  · simp only [h.holds_iff]
    constructor
    · rintro ⟨j, hj⟩
      by_cases hji : j = i
      · subst hji
        exact .inl (hj.unique h.held.1)
      · exact .inr ⟨j, hj, hji⟩
    · rintro (rfl | ⟨j, hj, -⟩)
      · exact ⟨i, h.held⟩
      · exact ⟨j, hj⟩

/-! ### What searches find afterwards -/

section Stores

variable {probe' : Probe α} {x : Option α}

omit [Ord α] [Std.TransOrd α] in
theorem Stores.congr (h : l.Stores probe x) (hiff : ∀ i b, l'.Holds i b ↔ l.Holds i b) :
    l'.Stores probe x := by
  cases x with
  | none => exact fun i b hb => h i b ((hiff i b).mp hb)
  | some a =>
    obtain ⟨i, ha, heq⟩ := h
    exact ⟨i, (hiff i a).mpr ha, heq⟩

omit [Ord α] [Std.TransOrd α] in
theorem Found.congr {found : Option NodeId} (h : l.Found probe found)
    (hiff : ∀ i b, l'.Holds i b ↔ l.Holds i b) : l'.Found probe found := by
  cases found with
  | none => exact fun i b hb => h i b ((hiff i b).mp hb)
  | some i =>
    obtain ⟨a, ha, heq⟩ := h
    exact ⟨a, (hiff i a).mpr ha, heq⟩

omit [Std.TransOrd α] in
theorem Links.stores (h : l.Links a i l') (heq : probe a = .eq) : l'.Stores probe (some a) :=
  ⟨i, h.holds_iff.mpr (.inr ⟨rfl, rfl⟩), heq⟩

omit [Std.TransOrd α] in
/-- A search for something else finds what it found before. -/
theorem Stores.links (hs : l.Stores probe x) (h : l.Links a i l') (hne : probe a ≠ .eq) :
    l'.Stores probe x := by
  cases x with
  | none =>
    intro j b hb
    rcases h.holds_iff.mp hb with hb | ⟨-, rfl⟩
    · exact hs j b hb
    · exact hne
  | some b =>
    obtain ⟨j, hb, heq⟩ := hs
    exact ⟨j, h.holds_iff.mpr (.inl hb), heq⟩

omit [Ord α] [Std.TransOrd α] in
theorem Removes.lacks (h : l.Removes probe l') (himp : ∀ b, probe' b = .eq → probe b = .eq) :
    l'.Lacks probe' :=
  fun j b hb heq => ((h j b).mp hb).2 (himp b heq)

omit [Ord α] [Std.TransOrd α] in
/-- A search for something else finds what it found before. -/
theorem Stores.removes (hs : l.Stores probe' x) (h : l.Removes probe l')
    (hne : ∀ b, probe' b = .eq → probe b ≠ .eq) : l'.Stores probe' x := by
  cases x with
  | none => exact fun j b hb => hs j b ((h j b).mp hb).1
  | some b =>
    obtain ⟨j, hb, heq⟩ := hs
    exact ⟨j, (h j b).mpr ⟨hb, hne b heq⟩, heq⟩

end Stores

end SplitOrder.SortedList
