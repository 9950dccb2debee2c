import SplitOrder.Proofs.List.Clearing
import SplitOrder.Proofs.List.Starts

/-!
# Starting further on

An operation may start at any live node in front of its place, and does there what it does from the
head. On a list without deleted nodes it even leaves the same list
(`SplitOrder.Proofs.List.Starts`). With deleted nodes on the list it does not: a search takes off
those that it passes, and from the head it passes more of them. That is all the difference there is.

* `SameFrom` — two lists that are the same from a node on, each with what it has in front of it. The
  same write behind that node keeps them so (`SameFrom.setLink`, `SameFrom.withNode`).
* `exists_searchPair` — a search from the start and one from the head end at one place, and leave
  two such lists.
* `LeavesBehind` — what can be seen of the difference: deleted nodes in front of the start, which
  are still there if the operation began at the start.
* `AsFromHead` — an operation answers the same from both, and leaves two lists of which this can be
  seen.
* `lookupAfter_asFromHead`, `insertAfter_asFromHead`, `claimAfter_asFromHead`,
  `settleAfter_asFromHead`, `deleteAfter_asFromHead` — the operations, one by one.
* `Moment.Reachable.from_live_as_from_head` — all of them at any moment of a run.
-/

namespace SplitOrder

namespace SortedList

variable {α : Type} [Ord α]

/-- **The same from a node on.** The nodes `front` stand in front of `start` on the list `l₁`, and
the nodes `kept` on the list `l₂`. All other nodes are the same on both, and those in front differ
in nothing but where they lead. -/
structure SameFrom (front kept : List NodeId) (start : NodeId) (l₁ l₂ : SortedList α) : Prop where
  sound_left : l₁.Sound
  sound_right : l₂.Sound
  linked_left : head :: l₁.linked = (head :: front) ++ start :: l₁.trail start
  linked_right : head :: l₂.linked = (head :: kept) ++ start :: l₂.trail start
  kept_subset : kept ⊆ front
  node_eq : ∀ i, i ∉ head :: front → l₁.node i = l₂.node i
  element_eq : ∀ i, (l₁.node i).element? = (l₂.node i).element?
  marked_eq : ∀ i, (l₁.link i).marked = (l₂.link i).marked
  size_eq : l₁.nodes.size = l₂.nodes.size
  reclaimer_eq : l₁.reclaimer = l₂.reclaimer

/-- **What a shorter way leaves behind.** On the list `l` an operation was made from `start`, which
left `l₁`, and from the head, which left `l₂`. The deleted nodes in front of the start are still on
`l₁`, and that is all in which the two differ. -/
structure LeavesBehind (l : SortedList α) (start : NodeId) (l₁ l₂ : SortedList α) : Prop where
  linked : ∃ front rest back, l.linked = front ++ start :: rest ∧
    l₁.linked = front ++ start :: back ∧ l₂.linked = l.unmarkedOf front ++ start :: back
  element_eq : ∀ i, (l₁.node i).element? = (l₂.node i).element?
  marked_eq : ∀ i, (l₁.link i).marked = (l₂.link i).marked
  live_eq : l₁.live = l₂.live
  /-- The same nodes are retired. -/
  reclaimer_eq : l₁.reclaimer = l₂.reclaimer

/-- **As from the head.** From `start` an operation on `l` answers what it answers from the head,
and what the two leave differs only in front of the start. -/
def AsFromHead {β : Type} (l : SortedList α) (start : NodeId)
    (op : NodeId → Checked (β × SortedList α)) : Prop :=
  ∃ answer l₁ l₂, op start = .ok (answer, l₁) ∧ op head = .ok (answer, l₂) ∧
    l.LeavesBehind start l₁ l₂

variable {l l₁ l₂ l₁' l₂' : SortedList α} {front kept : List NodeId} {start i j pred : NodeId}
  {probe : Probe α} {loc : Location} {a b : α}

/-! ### Two lists that are the same from a node on -/

namespace SameFrom

theorem link_eq (h : SameFrom front kept start l₁ l₂) (hi : i ∉ head :: front) :
    l₁.link i = l₂.link i :=
  congrArg Node.link (h.node_eq i hi)

theorem holds_iff (h : SameFrom front kept start l₁ l₂) : l₁.Holds i a ↔ l₂.Holds i a := by
  unfold Holds
  rw [h.element_eq, h.marked_eq]

theorem element_congr (h : SameFrom front kept start l₁ l₂) (i : NodeId) :
    l₁.element i = l₂.element i := by
  rw [element, element, h.element_eq]

/-- To compare with what is sought, only elements are read. -/
theorem matching?_congr (h : SameFrom front kept start l₁ l₂) (probe : Probe α)
    (o : Option NodeId) : l₁.matching? probe o = l₂.matching? probe o := by
  cases o with
  | none => rfl
  | some i => rw [matching?, matching?, h.element_congr]

/-- A place behind the start is one on both lists. -/
theorem located (h : SameFrom front kept start l₁ l₂) (hloc : l₁.Located probe loc)
    (hpred : loc.pred ∉ head :: front) : l₂.Located probe loc where
  pred := by
    have hfront := hloc.pred
    refine ⟨h.size_eq ▸ hfront.lt_size, (h.marked_eq _).symm.trans hfront.unmarked, ?_⟩
    intro a ha
    exact hfront.lt a ((h.element_eq _).trans ha)
  adjacent := by rw [← h.link_eq hpred, hloc.adjacent]
  curr := by
    intro i hi
    obtain ⟨a, ha, hge⟩ := hloc.curr i hi
    exact ⟨a, h.holds_iff.mp ha, hge⟩

variable [Std.TransOrd α]

/-- What is behind the start is not in front of it. -/
theorem notMem_front (h : SameFrom front kept start l₁ l₂) (hi : i ∈ start :: l₁.trail start) :
    i ∉ head :: front := by
  have hnodup := h.sound_left.nodup_cons_trail head
  rw [trail_head, h.linked_left] at hnodup
  intro hmem
  exact (List.nodup_append.mp hnodup).2.2 i hmem i hi rfl

/-- Both lists show the same elements. -/
theorem live_eq (h : SameFrom front kept start l₁ l₂) : l₁.live = l₂.live := by
  refine eq_of_pairwise_lt h.sound_left.pairwise_live h.sound_right.pairwise_live fun a => ?_
  rw [h.sound_left.mem_live_iff, h.sound_right.mem_live_iff]
  exact exists_congr fun _ => h.holds_iff

/-- **Two writes behind the start.** If either list is written to where it is not in front of the
start, and both are the same from the start on again, they stay lists of this kind. -/
theorem of_front (h : SameFrom front kept start l₁ l₂) (hl₁ : l₁'.Sound) (hl₂ : l₂'.Sound)
    (same₁ : ∀ i ∈ head :: front, l₁'.node i = l₁.node i)
    (same₂ : ∀ i ∈ head :: front, l₂'.node i = l₂.node i)
    (node_eq : ∀ i, i ∉ head :: front → l₁'.node i = l₂'.node i)
    (size_eq : l₁'.nodes.size = l₂'.nodes.size) (reclaimer_eq : l₁'.reclaimer = l₂'.reclaimer) :
    SameFrom front kept start l₁' l₂' := by
  have hkept : head :: kept ⊆ head :: front := List.cons_subset_cons _ h.kept_subset
  -- the two halves of a node come from the lists of before if it is in front of the start
  have hfront : ∀ i ∈ head :: front, (l₁'.node i).element? = (l₂'.node i).element? ∧
      (l₁'.link i).marked = (l₂'.link i).marked := by
    intro i hi
    simp only [SortedList.link_eq, same₁ i hi, same₂ i hi]
    exact ⟨h.element_eq i, h.marked_eq i⟩
  refine ⟨hl₁, hl₂, ?_, ?_, h.kept_subset, node_eq, fun i => ?_, fun i => ?_, size_eq,
    reclaimer_eq⟩
  · refine h.sound_left.cons_linked_of_front hl₁.toOrdered h.linked_left (fun j hj => ?_)
      (hl₁.leads_trail start)
    rw [SortedList.link_eq, same₁ j hj, SortedList.link_eq]
  · refine h.sound_right.cons_linked_of_front hl₂.toOrdered h.linked_right (fun j hj => ?_)
      (hl₂.leads_trail start)
    rw [SortedList.link_eq, same₂ j (hkept hj), SortedList.link_eq]
  · by_cases hi : i ∈ head :: front
    · exact (hfront i hi).1
    · rw [node_eq i hi]
  · by_cases hi : i ∈ head :: front
    · exact (hfront i hi).2
    · rw [SortedList.link_eq, SortedList.link_eq, node_eq i hi]

/-- One link behind the start. -/
theorem setLink (h : SameFrom front kept start l₁ l₂) (hp : pred ∉ head :: front)
    (hlt : pred < l₁.nodes.size) {k : Link (Option NodeId)} (hw₁ : l₁.Write (l₁.setLink pred k))
    (hw₂ : l₂.Write (l₂.setLink pred k)) :
    SameFrom front kept start (l₁.setLink pred k) (l₂.setLink pred k) := by
  have hlt' : pred < l₂.nodes.size := h.size_eq ▸ hlt
  have hne : ∀ i ∈ head :: front, pred ≠ i := fun i hi heq => hp (heq ▸ hi)
  refine h.of_front (hw₁.sound h.sound_left) (hw₂.sound h.sound_right) (fun i hi => ?_)
    (fun i hi => ?_) (fun i hi => ?_) (by simp only [size_setLink, h.size_eq]) h.reclaimer_eq
  · rw [node_setLink _ _ _ _ hlt, if_neg (hne i hi)]
  · rw [node_setLink _ _ _ _ hlt', if_neg (hne i hi)]
  · rw [node_setLink _ _ _ _ hlt, node_setLink _ _ _ _ hlt', h.node_eq pred hp, h.node_eq i hi]

theorem mark (h : SameFrom front kept start l₁ l₂) (hi : i ∉ head :: front)
    (ha : l₁.Holds i a) : SameFrom front kept start (l₁.setLink i ⟨(l₁.link i).target, true⟩)
      (l₂.setLink i ⟨(l₂.link i).target, true⟩) := by
  have here : l₁.link i = ⟨(l₁.link i).target, false⟩ := Link.ext rfl ha.2
  have hne : i ≠ head := h.sound_left.ne_head_of_element ha.1
  have hlt : i < l₂.nodes.size := h.size_eq ▸ ha.lt_size
  rw [← h.link_eq hi]
  refine h.setLink hi ha.lt_size (.mark here ha.lt_size hne) (.mark ?_ hlt hne)
  rw [← h.link_eq hi]
  exact here

theorem unlink (h : SameFrom front kept start l₁ l₂) (hp : pred ∉ head :: front)
    (hi : i ∉ head :: front) {succ : Option NodeId} (here : l₁.link pred = ⟨some i, false⟩)
    (frozen : l₁.link i = ⟨succ, true⟩) :
    SameFrom front kept start (l₁.setLink pred ⟨succ, false⟩) (l₂.setLink pred ⟨succ, false⟩) := by
  have hlt : pred < l₁.nodes.size := lt_size_of_target (by rw [here])
  have here' : l₂.link pred = ⟨some i, false⟩ := by rw [← h.link_eq hp, here]
  have frozen' : l₂.link i = ⟨succ, true⟩ := by rw [← h.link_eq hi, frozen]
  exact h.setLink hp hlt (.unlink here frozen) (.unlink here' frozen')

/-- One node behind the start. -/
theorem withNode (h : SameFrom front kept start l₁ l₂) (hp : pred ∉ head :: front)
    (hlt : pred < l₁.nodes.size) {curr : Option NodeId}
    (hw₁ : l₁.Write (l₁.withNode pred curr a)) (hw₂ : l₂.Write (l₂.withNode pred curr a)) :
    SameFrom front kept start (l₁.withNode pred curr a) (l₂.withNode pred curr a) := by
  have hlt' : pred < l₂.nodes.size := h.size_eq ▸ hlt
  have hne : ∀ i ∈ head :: front, pred ≠ i := fun i hi heq => hp (heq ▸ hi)
  -- the name of the new node is none of those that stand on the list
  have hnew : ∀ i ∈ head :: front, i ≠ l₁.nodes.size := by
    intro i hi
    have hmem : i ∈ head :: l₁.linked := h.linked_left ▸ List.mem_append_left _ hi
    rcases List.mem_cons.mp hmem with rfl | hmem
    · exact Nat.ne_of_lt h.sound_left.head_lt
    · exact Nat.ne_of_lt (h.sound_left.lt_size_of_mem_linked hmem)
  refine h.of_front (hw₁.sound h.sound_left) (hw₂.sound h.sound_right) (fun i hi => ?_)
    (fun i hi => ?_) (fun i hi => ?_) (by simp only [size_withNode, h.size_eq]) h.reclaimer_eq
  · rw [node_withNode_of_ne (hnew i hi), node_setLink _ _ _ _ hlt, if_neg (hne i hi)]
  · rw [node_withNode_of_ne (h.size_eq ▸ hnew i hi), node_setLink _ _ _ _ hlt',
      if_neg (hne i hi)]
  · by_cases hi' : i = l₁.nodes.size
    · subst hi'
      rw [node_withNode_new, h.size_eq, node_withNode_new]
    · rw [node_withNode_of_ne hi', node_withNode_of_ne (h.size_eq ▸ hi'),
        node_setLink _ _ _ _ hlt, node_setLink _ _ _ _ hlt', h.node_eq pred hp, h.node_eq i hi,
        h.size_eq]

theorem retire (h : SameFrom front kept start l₁ l₂) (i : NodeId) :
    SameFrom front kept start (l₁.retire i) (l₂.retire i) :=
  h.of_front (h.sound_left.retire i) (h.sound_right.retire i) (fun _ _ => rfl) (fun _ _ => rfl)
    h.node_eq h.size_eq (congrArg (Reclaimer.retire · i) h.reclaimer_eq)

/-- Behind the start the same nodes stand on both lists. -/
theorem trail_eq (h : SameFrom front kept start l₁ l₂) : l₂.trail start = l₁.trail start := by
  refine h.sound_right.trail_eq ?_
  rw [← h.link_eq (h.notMem_front List.mem_cons_self)]
  -- each of their links is the same on both
  refine (h.sound_left.leads_trail start).congr fun j hj => ?_
  rw [h.link_eq (h.notMem_front (List.mem_cons_of_mem _ hj))]

/-- What can be seen of such lists, if the nodes in front of the start are those of before. -/
theorem leavesBehind (h : SameFrom front (l.unmarkedOf front) start l₁ l₂)
    (hfront : l.linked = front ++ start :: l.trail start) : l.LeavesBehind start l₁ l₂ where
  linked := by
    refine ⟨front, l.trail start, l₁.trail start, hfront, (List.cons.inj h.linked_left).2, ?_⟩
    rw [← h.trail_eq]
    exact (List.cons.inj h.linked_right).2
  element_eq := h.element_eq
  marked_eq := h.marked_eq
  live_eq := h.live_eq
  reclaimer_eq := h.reclaimer_eq

end SameFrom

/-! ### Two searches -/

variable [Std.TransOrd α]

/-- A live node in front of the place splits the list. -/
theorem Sound.exists_linked_eq_append (hl : l.Sound) (hb : l.Holds start b) :
    ∃ front, l.linked = front ++ start :: l.trail start :=
  hl.exists_trail_eq_append (i := head) (hl.mem_linked hb)

/-- What stands in front of the start is in front of the place. -/
theorem Ordered.lt_of_mem_front (hl : l.Ordered) (hp : probe.Monotone)
    (hb : (l.node start).element? = some b) (hlt : probe b = .lt)
    (hfront : l.linked = front ++ start :: l.trail start) (hi : i ∈ head :: front)
    (ha : (l.node i).element? = some a) : probe a = .lt := by
  have hpairwise : (front ++ start :: l.trail start).Pairwise l.Before :=
    hfront ▸ hl.pairwise_linked
  rcases List.mem_cons.mp hi with rfl | hi
  · exact absurd rfl (hl.ne_head_of_element ha)
  · have hbefore : l.Before i start :=
      (List.pairwise_append.mp hpairwise).2.2 i hi start List.mem_cons_self
    exact hp a b (hbefore.compare_eq ha hb) (by rw [hlt]; decide)

/-- From the head a search passes what is in front of the start, the start, and then what it passes
from there. -/
theorem Sound.passed_head (hl : l.Sound) (hp : probe.Monotone) (hb : l.Holds start b)
    (hlt : probe b = .lt) (hfront : l.linked = front ++ start :: l.trail start) :
    l.passed probe head = front ++ start :: l.passed probe start ∧
      l.beyond probe head = l.beyond probe start := by
  have hpass : ∀ i ∈ front ++ [start], (!l.stopsAt probe i) = true := by
    intro i hi
    have hlt' : ∀ a, (l.node i).element? = some a → probe a = .lt := by
      intro a ha
      rcases List.mem_append.mp hi with hi | hi
      · exact hl.lt_of_mem_front hp hb.1 hlt hfront (List.mem_cons_of_mem _ hi) ha
      · obtain rfl := List.mem_singleton.mp hi
        rw [← hb.unique ha, hlt]
    cases helem : (l.node i).element? with
    | none => simp [stopsAt, helem]
    | some a => simp [stopsAt, helem, hlt' a helem]
  have htrail : l.trail head = (front ++ [start]) ++ l.trail start := by
    rw [trail_head, hfront, List.append_assoc, List.singleton_append]
  constructor
  · rw [passed, htrail, List.takeWhile_append_of_pos hpass, List.append_assoc,
      List.singleton_append, passed]
  · rw [beyond, htrail, List.dropWhile_append_of_pos hpass, beyond]

/-- **Two passes.** One from the start and one from the head leave two lists that are the same from
the start on. -/
theorem sameFrom_of_passClears {loc₁ loc₂ : Location} (hl : l.Sound) (hp : probe.Monotone)
    (hb : l.Holds start b) (hlt : probe b = .lt)
    (hfront : l.linked = front ++ start :: l.trail start)
    (htrims₁ : l.Trims l₁) (h₁ : l.PassClears probe start loc₁ l₁)
    (htrims₂ : l.Trims l₂) (h₂ : l.PassClears probe head loc₂ l₂) :
    SameFrom front (l.unmarkedOf front) start l₁ l₂ := by
  have hl₁ : l₁.Sound := (hl.evolves htrims₁.evolves).1
  have hl₂ : l₂.Sound := (hl.evolves htrims₂.evolves).1
  obtain ⟨hpassed, hbeyond⟩ := hl.passed_head hp hb hlt hfront
  -- what the second pass leaves is what it kept in front, the start, and what the first one leaves
  have hlinked₂ : l₂.linked = l.unmarkedOf front ++ start :: l₁.trail start := by
    rw [← trail_head, h₂.trail, hpassed, hbeyond, unmarkedOf_append,
      unmarkedOf_cons_of_unmarked _ hb.2, List.append_assoc, List.cons_append, ← h₁.trail]
  have hleads₂ : l₂.Leads (l₂.link head).target (l.unmarkedOf front ++ start :: l₁.trail start) :=
    hlinked₂ ▸ hl₂.leads_trail head
  have htrail : l₂.trail start = l₁.trail start := hl₂.trail_eq hleads₂.suffix
  have helement : ∀ i, (l₁.node i).element? = (l₂.node i).element? := fun i =>
    (htrims₁.element_eq i).trans (htrims₂.element_eq i).symm
  have hmarked : ∀ i, (l₁.link i).marked = (l₂.link i).marked := fun i =>
    (htrims₁.marked_eq i).trans (htrims₂.marked_eq i).symm
  refine ⟨hl₁, hl₂, ?_, ?_, fun i hi => (mem_unmarkedOf.mp hi).1, fun i hi => ?_, helement, hmarked,
    htrims₁.size_eq.trans htrims₂.size_eq.symm,
    htrims₁.reclaimer_eq.trans htrims₂.reclaimer_eq.symm⟩
  · have hsplit : head :: l.linked = (head :: front) ++ start :: l.trail start := by
      rw [hfront, List.cons_append]
    exact h₁.cons_linked_eq hl hl₁ hsplit
  · rw [hlinked₂, htrail, List.cons_append]
  · by_cases hmem : i ∈ start :: l₁.trail start
    · -- the ways from the start are the same, so the node leads to the next one on both
      obtain ⟨xs, ys, hxy⟩ := List.append_of_mem hmem
      have hway₁ : l₁.Leads (some start) (xs ++ i :: ys) := by
        rw [← hxy]
        exact .step (hl₁.leads_trail start)
      have hway₂ : l₂.Leads (some start) (xs ++ i :: ys) := by
        rw [← hxy, ← htrail]
        exact .step (hl₂.leads_trail start)
      have htarget : (l₁.link i).target = (l₂.link i).target :=
        hway₁.suffix.eq_head?.trans hway₂.suffix.eq_head?.symm
      have hlink : l₁.link i = l₂.link i := Link.ext htarget (hmarked i)
      calc l₁.node i = ⟨(l₁.node i).element?, l₁.link i⟩ := rfl
        _ = ⟨(l₂.node i).element?, l₂.link i⟩ := by rw [helement i, hlink]
        _ = l₂.node i := rfl
    · by_cases hm : (l.link i).marked = true
      · rw [htrims₁.node_eq_of_marked hl hm, htrims₂.node_eq_of_marked hl hm]
      · -- neither pass came to this node
        have hnot : i ∉ start :: l.passed probe start := by
          intro hpass
          rcases List.mem_cons.mp hpass with rfl | hpass
          · exact hmem List.mem_cons_self
          · refine hmem (List.mem_cons_of_mem _ ?_)
            rw [h₁.trail]
            exact List.mem_append_left _ (mem_unmarkedOf.mpr ⟨hpass, by simpa using hm⟩)
        have hnot' : i ∉ head :: l.passed probe head := by
          rw [hpassed, ← List.cons_append]
          exact fun h => (List.mem_append.mp h).elim hi hnot
        rw [h₁.node_eq i hnot, h₂.node_eq i hnot']

/-- What the search from the start and the search from the head answer and leave, for an operation
to go on with. -/
structure SearchPair (l : SortedList α) (probe : Probe α) (start : NodeId) (loc : Location)
    (front : List NodeId) (l₁ l₂ : SortedList α) : Prop where
  search_start : l.search start probe = .ok (loc, l₁)
  search_head : l.search head probe = .ok (loc, l₂)
  front_eq : l.linked = front ++ start :: l.trail start
  same : SameFrom front (l.unmarkedOf front) start l₁ l₂
  located_start : l₁.Located probe loc
  located_head : l₂.Located probe loc
  /-- Nothing of the place is in front of the start. -/
  pred_notMem : loc.pred ∉ head :: front
  curr_notMem : ∀ i, loc.curr = some i → i ∉ head :: front

/-- **Two searches.** From a live node in front of the place and from the head a search ends at one
place. -/
theorem exists_searchPair (hl : l.Sound) (hp : probe.Monotone) (hb : l.Holds start b)
    (hlt : probe b = .lt) :
    ∃ loc front l₁ l₂, l.SearchPair probe start loc front l₁ l₂ := by
  obtain ⟨front, hfront⟩ := hl.exists_linked_eq_append hb
  obtain ⟨loc, l₁, hsearch₁, htrims₁, hloc₁, hclears₁⟩ :=
    search_passClears hl (hb.inFront hlt)
  obtain ⟨loc₂, l₂, hsearch₂, htrims₂, hloc₂, hclears₂⟩ :=
    search_passClears hl (hl.inFront_head probe)
  have hsame := sameFrom_of_passClears hl hp hb hlt hfront htrims₁ hclears₁ htrims₂ hclears₂
  have hpred : loc.pred ∉ head :: front := by
    have hnodup := hl.nodup_cons_trail head
    rw [trail_head, hfront, ← List.cons_append] at hnodup
    intro hmem
    exact (List.nodup_append.mp hnodup).2.2 _ hmem _ hclears₁.pred_mem rfl
  have hcurr : ∀ i, loc.curr = some i → i ∉ head :: front := by
    intro i hi hmem
    obtain ⟨a, ha, hge⟩ := hloc₁.curr i hi
    exact hge (hl.lt_of_mem_front hp hb.1 hlt hfront hmem (htrims₁.holds_iff.mp ha).1)
  -- the place of the first search is one on the second list, where there is no other
  have hloc := hsame.located hloc₁ hpred
  obtain rfl := hloc.unique hloc₂ hsame.sound_right hp
  exact ⟨loc, front, l₁, l₂, hsearch₁, hsearch₂, hfront, hsame, hloc₁, hloc, hpred, hcurr⟩

/-! ### Two operations -/

theorem lookupAfter_asFromHead (hl : l.Sound) (hp : probe.Monotone) (hb : l.Holds start b)
    (hlt : probe b = .lt) :
    l.AsFromHead start fun i => l.lookupAfter i probe := by
  obtain ⟨loc, front, l₁, l₂, h⟩ := exists_searchPair hl hp hb hlt
  obtain ⟨found, hmatch, -⟩ := h.located_start.matching?_spec h.same.sound_left hp
  refine ⟨found, l₁, l₂, ?_, ?_, h.same.leavesBehind h.front_eq⟩
  · simp only [lookupAfter, h.search_start, Checked.ok_bind, hmatch]
    rfl
  · simp only [lookupAfter, h.search_head, Checked.ok_bind, ← h.same.matching?_congr, hmatch]
    rfl

theorem insertAfter_asFromHead (hl : l.Sound) (hb : l.Holds start b)
    (hlt : compare b a = .lt) :
    l.AsFromHead start fun i => l.insertAfter i a := by
  have hp := Probe.monotone_ofElement a
  obtain ⟨loc, front, l₁, l₂, h⟩ := exists_searchPair hl hp hb hlt
  obtain ⟨found, hmatch, hfound, -⟩ := h.located_start.matching?_spec h.same.sound_left hp
  simp only [AsFromHead]
  rw [insertAfter_of_search h.search_start h.located_start,
    insertAfter_of_search h.search_head h.located_head, ← h.same.matching?_congr, hmatch,
    ← h.same.size_eq]
  cases found with
  | some i => exact ⟨.existing i, l₁, l₂, rfl, rfl, h.same.leavesBehind h.front_eq⟩
  | none =>
    have hlacks : l₂.Lacks (.ofElement a) := fun i b hb => hfound i b (h.same.holds_iff.mpr hb)
    have hsame := h.same.withNode h.pred_notMem h.located_start.pred.lt_size
      (h.located_start.write_withNode hfound) (h.located_head.write_withNode hlacks)
    exact ⟨.linked l₁.nodes.size, _, _, rfl, rfl, hsame.leavesBehind h.front_eq⟩

theorem claimAfter_asFromHead (hl : l.Sound) (hp : probe.Monotone) (hb : l.Holds start b)
    (hlt : probe b = .lt) :
    l.AsFromHead start fun i => l.claimAfter i probe := by
  obtain ⟨loc, front, l₁, l₂, h⟩ := exists_searchPair hl hp hb hlt
  obtain ⟨found, hmatch, hfound, hcurr⟩ := h.located_start.matching?_spec h.same.sound_left hp
  simp only [AsFromHead]
  rw [claimAfter_of_search h.search_start h.same.sound_left h.located_start hp,
    claimAfter_of_search h.search_head h.same.sound_right h.located_head hp,
    ← h.same.matching?_congr, hmatch]
  cases found with
  | none => exact ⟨none, l₁, l₂, rfl, rfl, h.same.leavesBehind h.front_eq⟩
  | some i =>
    obtain ⟨a, ha, -⟩ := hfound
    have hi : i ∉ head :: front := h.curr_notMem i (hcurr i rfl)
    refine ⟨some ⟨loc.pred, i, (l₁.link i).target⟩, _, _, rfl, ?_,
      (h.same.mark hi ha).leavesBehind h.front_eq⟩
    rw [h.same.link_eq hi]
    rfl

theorem deleteAfter_asFromHead (hl : l.Sound) (hp : probe.Monotone) (hb : l.Holds start b)
    (hlt : probe b = .lt) :
    l.AsFromHead start fun i => l.deleteAfter i probe := by
  obtain ⟨loc, front, l₁, l₂, h⟩ := exists_searchPair hl hp hb hlt
  obtain ⟨found, hmatch, hfound, hcurr⟩ := h.located_start.matching?_spec h.same.sound_left hp
  simp only [AsFromHead]
  rw [deleteAfter_of_search h.search_start h.same.sound_left h.located_start hp,
    deleteAfter_of_search h.search_head h.same.sound_right h.located_head hp,
    ← h.same.matching?_congr, hmatch]
  cases found with
  | none => exact ⟨none, l₁, l₂, rfl, rfl, h.same.leavesBehind h.front_eq⟩
  | some i =>
    obtain ⟨a, ha, -⟩ := hfound
    have hi : i ∉ head :: front := h.curr_notMem i (hcurr i rfl)
    have htarget : (l₁.link loc.pred).target = some i :=
      h.located_start.adjacent.trans (hcurr i rfl)
    have hne : loc.pred ≠ i := by
      intro heq
      rw [heq] at htarget
      exact not_before_self (h.same.sound_left.before htarget)
    have helem : l₁.element i = .ok a := element_eq_ok_iff.mpr ha.1
    -- the mark, and then the link in front of it
    have hunlink := (h.same.mark hi ha).unlink h.pred_notMem hi
      (by rw [link_setLink_of_ne ha.lt_size hne, h.located_start.pred.link_eq htarget])
      (link_setLink_self ha.lt_size)
    refine ⟨some a, _, _, ?_, ?_, (hunlink.retire i).leavesBehind h.front_eq⟩
    · simp only [Checked.ok_bind, helem]
      rfl
    · simp only [Checked.ok_bind, ← h.same.element_congr, helem, h.same.link_eq hi]
      rfl

/-- **A claim that was made earlier.** If the node in front of it is still the one of the claim, no
search is made, and it does not matter from where. If it is not, the search that repairs this makes
the difference that every search makes. -/
theorem settleAfter_asFromHead (hl : l.Sound) (hp : probe.Monotone) (hb : l.Holds start b)
    (hlt : probe b = .lt) (c : Claim) :
    (∃ l', l.link c.pred = ⟨some c.node, false⟩ ∧ ∀ i, l.settleAfter i probe c = .ok l') ∨
      l.AsFromHead start fun i => return ((), ← l.settleAfter i probe c) := by
  by_cases here : l.link c.pred = ⟨some c.node, false⟩
  · refine .inl ⟨(l.setLink c.pred ⟨c.succ, false⟩).retire c.node, here, fun i => ?_⟩
    simp only [settleAfter, unlinkClaimed, unlink, compareAndSwap_eq, if_pos here]
    rfl
  · obtain ⟨loc, front, l₁, l₂, h⟩ := exists_searchPair hl hp hb hlt
    refine .inr ⟨(), l₁.retire c.node, l₂.retire c.node, ?_, ?_,
      (h.same.retire c.node).leavesBehind h.front_eq⟩
    · simp only [settleAfter, unlinkClaimed, unlink, compareAndSwap_eq, if_neg here,
        h.search_start]
      rfl
    · simp only [settleAfter, unlinkClaimed, unlink, compareAndSwap_eq, if_neg here,
        h.search_head]
      rfl

end SortedList

namespace Moment

open SortedList

variable {α : Type} [Ord α] [Std.TransOrd α] [Text.Legible α] {m : Moment α}

/-- **From a live node as from the head.** Whatever deleted nodes stand on the list, an operation
for `e` may start at any live node in front of the place of `e`. It finds the same node, inserts the
same one or reports the same one as existing, and marks, removes and retires the same one. The same
elements are live afterwards, and the two lists differ at most in deleted nodes in front of the
start, which only the search from the head takes off. This holds for a deletion as a whole, for its
first step, and, whatever happened since, for its second one. -/
theorem Reachable.from_live_as_from_head (hm : m.Reachable) {start : NodeId} {a e : α}
    (ha : m.list.Holds start a) (hlt : compare a e = .lt) :
    (m.list.AsFromHead start fun i => m.list.lookupAfter i (.ofElement e)) ∧
      (m.list.AsFromHead start fun i => m.list.insertAfter i e) ∧
      (m.list.AsFromHead start fun i => m.list.deleteAfter i (.ofElement e)) ∧
      (m.list.AsFromHead start fun i => m.list.claimAfter i (.ofElement e)) ∧
      ∀ c, (∃ l', m.list.link c.pred = ⟨some c.node, false⟩ ∧
          ∀ i, m.list.settleAfter i (.ofElement e) c = .ok l') ∨
        m.list.AsFromHead start fun i =>
          return ((), ← m.list.settleAfter i (.ofElement e) c) := by
  have hl : m.list.Sound := hm.sound.list
  have hp : (Probe.ofElement e).Monotone := Probe.monotone_ofElement e
  exact ⟨lookupAfter_asFromHead hl hp ha hlt, insertAfter_asFromHead hl ha hlt,
    deleteAfter_asFromHead hl hp ha hlt, claimAfter_asFromHead hl hp ha hlt,
    settleAfter_asFromHead hl hp ha hlt⟩

/-- From 20 the element 70 is deleted, on a list with deleted nodes in front of 20, in two runs
behind it, and behind the place. The one in front of 20 stays, and would not if the deletion began
at the head. -/
theorem Reachable.from_live_as_from_head_of_deleted_runs :
    ∃ (m : Moment UInt64) (l₁ l₂ : SortedList UInt64), m.Reachable ∧
      m.list.chain = [(10, true), (20, false), (30, true), (40, true), (50, false), (60, true),
        (70, false), (80, true), (90, false)] ∧
      m.list.deleteAfter 2 (.ofElement 70) = .ok (some 70, l₁) ∧
      m.list.deleteAfter head (.ofElement 70) = .ok (some 70, l₂) ∧
      m.list.LeavesBehind 2 l₁ l₂ ∧
      l₁.chain = [(10, true), (20, false), (50, false), (80, true), (90, false)] ∧
      l₂.chain = [(20, false), (50, false), (80, true), (90, false)] := by
  -- the marks are set from the end of the list on, so that no search unlinks an earlier one
  let ops : List (ListOp UInt64) :=
    [10, 20, 30, 40, 50, 60, 70, 80, 90].map (fun a => .request (.insert a)) ++
      [80, 60, 40, 30, 10].map fun a => .request (.markOnly a)
  let deletion (start : NodeId) : Checked (Option UInt64 × List (UInt64 × Bool)) := do
    let (_, s) ← (ListSession.fresh .deferred).steps ops
    let (removed, l) ← s.list.deleteAfter start (.ofElement 70)
    return (removed, l.chain)
  have hlist : (do
      let (_, s) ← (ListSession.fresh .deferred).steps ops
      return (s.list.node 2, s.list.chain)) =
        .ok (⟨some 20, ⟨some 3, false⟩⟩, [(10, true), (20, false), (30, true), (40, true),
          (50, false), (60, true), (70, false), (80, true), (90, false)]) := by
    decide +kernel
  have hstart : deletion 2 =
      .ok (some 70, [(10, true), (20, false), (50, false), (80, true), (90, false)]) := by
    decide +kernel
  have hhead : deletion head =
      .ok (some 70, [(20, false), (50, false), (80, true), (90, false)]) := by
    decide +kernel
  obtain ⟨⟨replies, s⟩, hsteps, hlist⟩ := Checked.bind_eq_ok.mp hlist
  obtain ⟨hnode, hchain⟩ := Prod.mk.inj (Except.ok.inj hlist)
  simp only [deletion, hsteps, Checked.ok_bind] at hstart hhead
  obtain ⟨⟨removed, l₁⟩, hstart, hcomputed⟩ := Checked.bind_eq_ok.mp hstart
  obtain ⟨rfl, hchain₁⟩ := Prod.mk.inj (Except.ok.inj hcomputed)
  obtain ⟨⟨removed', l₂⟩, hhead, hcomputed⟩ := Checked.bind_eq_ok.mp hhead
  obtain ⟨rfl, hchain₂⟩ := Prod.mk.inj (Except.ok.inj hcomputed)
  have hm : Reachable ⟨s, []⟩ := reachable_of_steps hsteps
  have hholds : s.list.Holds 2 20 := ⟨by rw [hnode], by rw [link_eq, hnode]⟩
  have hlt : compare (20 : UInt64) 70 = .lt := rfl
  obtain ⟨-, -, ⟨removed, l₁', l₂', hstart', hhead', hleaves⟩, -⟩ :=
    hm.from_live_as_from_head hholds hlt
  cases hstart.symm.trans hstart'
  cases hhead.symm.trans hhead'
  exact ⟨_, _, _, hm, hchain, hstart, hhead, hleaves, hchain₁, hchain₂⟩

end Moment

end SplitOrder
