import Mathlib.Data.List.TakeWhile
import SplitOrder.Proofs.List.SortedSet

/-!
# What a search clears away

A search rewrites the list while it walks along it. What it leaves can be said without the walk: it
goes from its start to the first live node that is not in front of what is sought, or to the end if
there is none, and takes off the deleted nodes in between, however many there are and wherever they
stand. All other nodes are as they were.

Nothing is asked of the probe here. A search with a probe that does not agree with the order of the
elements ends as well, at the first node that stops it.

* `stopsAt` — whether a search ends at a node. A deleted node never stops it.
* `passed`, `beyond` — the nodes behind the start up to the first one that stops the search, and
  those from there on.
* `Clears` — the place that a search answers and the list that it leaves, in these terms.
* `PassClears.of_walk` — one pass, by induction on its steps, as seen from the node behind which it
  begins.
* `search_clears`, `Moment.Reachable.clears_way` — a search at any moment of a run, from any start.
-/

namespace SplitOrder

namespace SortedList

variable {α : Type}

/-- A search ends at this node: it is not deleted, and its element is not in front of the place. -/
def stopsAt (l : SortedList α) (probe : Probe α) (i : NodeId) : Bool :=
  !(l.link i).marked && (l.node i).element?.any fun a => probe a != .lt

/-- The nodes behind `start` in front of the first one that stops the search. -/
def passed (l : SortedList α) (probe : Probe α) (start : NodeId) : List NodeId :=
  (l.trail start).takeWhile fun i => !l.stopsAt probe i

/-- The nodes behind `start` from the first one that stops the search. -/
def beyond (l : SortedList α) (probe : Probe α) (start : NodeId) : List NodeId :=
  (l.trail start).dropWhile fun i => !l.stopsAt probe i

/-- Those of the given nodes that are not deleted. -/
def unmarkedOf (l : SortedList α) (is : List NodeId) : List NodeId :=
  is.filter fun i => !(l.link i).marked

/-- **What a search does, exactly.** It was made on `l` from `start`, answered `loc` and left `l'`.
-/
structure Clears (l : SortedList α) (probe : Probe α) (start : NodeId) (loc : Location)
    (l' : SortedList α) : Prop where
  /-- The first node of the place is the start, or a live node behind it whose element is in front
  of the place. -/
  pred : loc.pred = start ∨
    loc.pred ∈ l.trail start ∧ ∃ a, l'.Holds loc.pred a ∧ probe a = .lt
  /-- The second one is the first live node behind the start whose element is not. -/
  curr : loc.curr = (l.trail start).find? (l.stopsAt probe)
  /-- The two are neighbours now. -/
  adjacent : l'.link loc.pred = ⟨loc.curr, false⟩
  /-- The deleted nodes between the start and the second node of the place are left out, and no
  others. -/
  linked : ∃ xs, head :: l.linked = xs ++ start :: (l.passed probe start ++ l.beyond probe start) ∧
    head :: l'.linked =
      xs ++ start :: (l.unmarkedOf (l.passed probe start) ++ l.beyond probe start)
  beyond_head : (l.beyond probe start).head? = loc.curr
  /-- Nodes in front of the start, and from the second node of the place on, are as they were. -/
  node_eq : ∀ i, i ∉ start :: l.passed probe start → l'.node i = l.node i
  /-- So are the deleted nodes, those left out among them. -/
  frozen : ∀ i, (l.link i).marked = true → l'.node i = l.node i
  element_eq : ∀ i, (l'.node i).element? = (l.node i).element?
  marked_eq : ∀ i, (l'.link i).marked = (l.link i).marked
  live_eq : l'.live = l.live
  /-- No node was handed over. -/
  reclaimer_eq : l'.reclaimer = l.reclaimer

variable {l l' : SortedList α} {probe : Probe α} {loc : Location} {i start pred c : NodeId} {a : α}
  {is : List NodeId}

/-! ### Nodes that a search passes -/

theorem passed_append_beyond (l : SortedList α) (probe : Probe α) (start : NodeId) :
    l.passed probe start ++ l.beyond probe start = l.trail start :=
  List.takeWhile_append_dropWhile

theorem head?_beyond (l : SortedList α) (probe : Probe α) (start : NodeId) :
    (l.beyond probe start).head? = (l.trail start).find? (l.stopsAt probe) :=
  ((l.trail start).find?_eq_head?_dropWhile_not _).symm

theorem stopsAt_of_marked (hm : (l.link i).marked = true) : l.stopsAt probe i = false := by
  simp [stopsAt, hm]

theorem Holds.stopsAt_eq (ha : l.Holds i a) : l.stopsAt probe i = (probe a != .lt) := by
  simp [stopsAt, ha.1, ha.2]

@[simp] theorem unmarkedOf_nil (l : SortedList α) : l.unmarkedOf [] = [] := rfl

theorem unmarkedOf_cons_of_marked (is : List NodeId) (hm : (l.link i).marked = true) :
    l.unmarkedOf (i :: is) = l.unmarkedOf is := by
  rw [unmarkedOf, List.filter_cons_of_neg (by simp [hm])]
  rfl

theorem unmarkedOf_cons_of_unmarked (is : List NodeId) (hm : (l.link i).marked = false) :
    l.unmarkedOf (i :: is) = i :: l.unmarkedOf is := by
  rw [unmarkedOf, List.filter_cons_of_pos (by simp [hm])]
  rfl

/-- The first node behind the start, when it does not stop the search. -/
theorem passed_eq_cons (htrail : l.trail pred = c :: l.trail c) (hc : l.stopsAt probe c = false) :
    l.passed probe pred = c :: l.passed probe c ∧ l.beyond probe pred = l.beyond probe c := by
  simp only [passed, beyond, htrail, List.takeWhile_cons, List.dropWhile_cons, hc, Bool.not_false,
    if_true, and_self]

/-- The first node behind the start, when it stops the search. -/
theorem passed_eq_nil (htrail : l.trail pred = c :: l.trail c) (hc : l.stopsAt probe c = true) :
    l.passed probe pred = [] ∧ l.beyond probe pred = c :: l.trail c := by
  simp only [passed, beyond, htrail, List.takeWhile_cons, List.dropWhile_cons, hc, Bool.not_true,
    Bool.false_eq_true, if_false, and_self]

theorem unmarkedOf_append (is js : List NodeId) :
    l.unmarkedOf (is ++ js) = l.unmarkedOf is ++ l.unmarkedOf js :=
  List.filter_append is js

theorem mem_unmarkedOf : i ∈ l.unmarkedOf is ↔ i ∈ is ∧ (l.link i).marked = false := by
  simp [unmarkedOf]

variable [Ord α]

theorem Trims.stopsAt_eq (h : l.Trims l') (probe : Probe α) :
    l'.stopsAt probe = l.stopsAt probe := by
  funext i
  rw [stopsAt, stopsAt, h.element_eq, h.marked_eq]

theorem Trims.unmarkedOf_eq (h : l.Trims l') : l'.unmarkedOf = l.unmarkedOf := by
  funext is
  simp only [unmarkedOf, h.marked_eq]

/-! ### One pass -/

/-- What a pass does, as seen from the node `pred` behind which it begins. -/
structure PassClears (l : SortedList α) (probe : Probe α) (pred : NodeId) (loc : Location)
    (l' : SortedList α) : Prop where
  pred_mem : loc.pred ∈ pred :: l.trail pred
  curr : loc.curr = (l.beyond probe pred).head?
  trail : l'.trail pred = l.unmarkedOf (l.passed probe pred) ++ l.beyond probe pred
  node_eq : ∀ i, i ∉ pred :: l.passed probe pred → l'.node i = l.node i

variable [Std.TransOrd α]

omit [Ord α] [Std.TransOrd α] in
/-- At the end, or at a node that stops it, the pass is over. -/
theorem PassClears.refl (hpassed : l.passed probe pred = [])
    (hcurr : (l.beyond probe pred).head? = loc.curr) (hpred : loc.pred = pred) :
    l.PassClears probe pred loc l where
  pred_mem := hpred ▸ List.mem_cons_self
  curr := hcurr.symm
  trail := by rw [← passed_append_beyond, hpassed, unmarkedOf_nil]
  node_eq := fun _ _ => rfl

/-- A deleted node is left out, and the pass stays behind `pred`. -/
theorem PassClears.of_unlink {succ : Option NodeId} (hl : l.Sound)
    (here : l.link pred = ⟨some c, false⟩) (frozen : l.link c = ⟨succ, true⟩)
    (h : (l.setLink pred ⟨succ, false⟩).PassClears probe pred loc l') :
    l.PassClears probe pred loc l' := by
  have hp : pred < l.nodes.size := lt_size_of_target (by rw [here])
  have hm : (l.link c).marked = true := by rw [frozen]
  have htrims := trims_unlink here frozen
  have htrail : l.trail pred = c :: l.trail c := hl.trail_of_target_some (by rw [here])
  have hshort := hl.trail_unlink here frozen
  have hstop : l.stopsAt probe c = false := stopsAt_of_marked hm
  obtain ⟨hpassed, hbeyond⟩ := passed_eq_cons htrail hstop
  -- what is ahead of the pass now was ahead of the node left out
  have hpassed' : (l.setLink pred ⟨succ, false⟩).passed probe pred = l.passed probe c := by
    rw [passed, passed, hshort, htrims.stopsAt_eq]
  have hbeyond' : (l.setLink pred ⟨succ, false⟩).beyond probe pred = l.beyond probe c := by
    rw [beyond, beyond, hshort, htrims.stopsAt_eq]
  obtain ⟨hmem, hcurr, htrail', hnode⟩ := h
  rw [hshort] at hmem
  rw [hbeyond'] at hcurr htrail'
  rw [hpassed'] at htrail' hnode
  refine ⟨?_, by rw [hbeyond, hcurr], ?_, fun i hi => ?_⟩
  · rw [htrail]
    exact List.cons_subset_cons _ (List.subset_cons_self _ _) hmem
  · rw [htrail', htrims.unmarkedOf_eq, hpassed, hbeyond, unmarkedOf_cons_of_marked _ hm]
  · rw [hpassed] at hi
    have hne : i ≠ pred := fun h => hi (h ▸ List.mem_cons_self)
    rw [hnode i fun hmem => hi (List.cons_subset_cons _ (List.subset_cons_self _ _) hmem),
      node_setLink _ _ _ _ hp, if_neg hne.symm]

/-- A live node in front of the place is passed, and the pass goes on behind it. -/
theorem PassClears.of_next (hl : l.Sound) (hl' : l'.Sound)
    (ht : (l.link pred).target = some c) (hm : (l.link c).marked = false)
    (hc : l.stopsAt probe c = false) (h : l.PassClears probe c loc l') :
    l.PassClears probe pred loc l' := by
  have htrail : l.trail pred = c :: l.trail c := hl.trail_of_target_some ht
  obtain ⟨hpassed, hbeyond⟩ := passed_eq_cons htrail hc
  -- `pred` is not among the nodes from `c` on, so its link is the same
  have hpred : l'.node pred = l.node pred := by
    refine h.node_eq pred fun hmem => (List.nodup_cons.mp (hl.nodup_cons_trail pred)).1 ?_
    rw [htrail]
    exact List.cons_subset_cons _ (List.takeWhile_subset _) hmem
  have htrail' : l'.trail pred = c :: l'.trail c :=
    hl'.trail_of_target_some (by rw [link_eq, hpred]; exact ht)
  refine ⟨?_, by rw [hbeyond, h.curr], ?_, fun i hi => h.node_eq i fun hmem => hi ?_⟩
  · rw [htrail]
    exact List.mem_cons_of_mem _ h.pred_mem
  · rw [htrail', h.trail, hpassed, hbeyond, unmarkedOf_cons_of_unmarked _ hm, List.cons_append]
  · rw [hpassed]
    exact List.mem_cons_of_mem _ hmem

/-- **One pass.** Whatever it did until it arrived, it cleared the way from the node behind which it
began. -/
theorem PassClears.of_walk {steps : Nat} (hl : l.Sound) (hl' : l'.Sound)
    (hpred : l.InFront probe pred) {curr : Option NodeId} (hcurr : (l.link pred).target = curr)
    (hwalk : l.walk probe steps pred curr = .ok (.arrived loc, l')) :
    l.PassClears probe pred loc l' := by
  -- on the steps, as the pass itself goes: at the end, at a deleted node, at a live one in front of
  -- the place, or at one that stops it
  induction steps generalizing l pred curr with
  | zero => cases hwalk
  | succ steps ih =>
    cases curr with
    | none =>
      have htrail : l.trail pred = [] := trail_of_target_none hcurr
      cases hwalk
      exact .refl (by rw [passed, htrail]; rfl) (by rw [beyond, htrail]; rfl) rfl
    | some c =>
      have here : l.link pred = ⟨some c, false⟩ := hpred.link_eq hcurr
      rw [walk] at hwalk
      cases hmark : (l.link c).marked with
      | true =>
        have frozen : l.link c = ⟨(l.link c).target, true⟩ := Link.ext rfl hmark
        simp only [hmark, if_true, unlink, compareAndSwap_eq, if_pos here] at hwalk
        refine .of_unlink hl here frozen (ih (hl.setLink_unlink here frozen) ?_ ?_ hwalk)
        · exact (trims_unlink here frozen).inFront hpred
        · rw [link_setLink_self hpred.lt_size]
      | false =>
        obtain ⟨b, hb, -⟩ := hl.before hcurr
        have hc : l.Holds c b := ⟨hb, hmark⟩
        simp only [hmark, Bool.false_eq_true, if_false, element_eq_ok_iff.mpr hb, Checked.ok_bind]
          at hwalk
        by_cases hlt : probe b = .lt
        · rw [if_pos hlt] at hwalk
          have hstop : l.stopsAt probe c = false := by rw [hc.stopsAt_eq, hlt]; rfl
          exact .of_next hl hl' hcurr hmark hstop (ih hl (hc.inFront hlt) rfl hwalk)
        · rw [if_neg hlt] at hwalk
          have hstop : l.stopsAt probe c = true := by simp [hc.stopsAt_eq, hlt]
          obtain ⟨hpassed, hbeyond⟩ := passed_eq_nil (hl.trail_of_target_some hcurr) hstop
          cases hwalk
          exact .refl hpassed (by rw [hbeyond]; rfl) rfl

/-! ### The whole list -/

/-- The nodes in front of the start stand where they stood. -/
theorem PassClears.cons_linked_eq (h : l.PassClears probe start loc l') (hl : l.Sound)
    (hl' : l'.Sound) {xs : List NodeId} (hxs : head :: l.linked = xs ++ start :: l.trail start) :
    head :: l'.linked = xs ++ start :: l'.trail start := by
  -- they are none of those that were passed
  have hnodup : (xs ++ start :: l.trail start).Nodup := hxs ▸ hl.nodup_cons_trail head
  refine hl.cons_linked_of_front hl'.toOrdered hxs (fun j hj => ?_) (hl'.leads_trail start)
  rw [link_eq, link_eq, h.node_eq j fun hmem => ?_]
  exact (List.nodup_append.mp hnodup).2.2 j hj j
    (List.cons_subset_cons _ (List.takeWhile_subset _) hmem) rfl

/-- What was done behind the start, seen from the head. -/
theorem PassClears.linked (h : l.PassClears probe start loc l') (hl : l.Sound) (hl' : l'.Sound)
    (hstart : l.InFront probe start) :
    ∃ xs, head :: l.linked = xs ++ start :: (l.passed probe start ++ l.beyond probe start) ∧
      head :: l'.linked =
        xs ++ start :: (l.unmarkedOf (l.passed probe start) ++ l.beyond probe start) := by
  obtain ⟨xs, hxs⟩ :=
    hl.exists_cons_linked_eq_append (hl.mem_cons_linked hstart.lt_size hstart.unmarked)
  refine ⟨xs, by rw [hxs, passed_append_beyond], ?_⟩
  rw [h.cons_linked_eq hl hl' hxs, h.trail]

omit [Std.TransOrd α] in
/-- A search starts at the head, or at a linked node that is not deleted and whose element is in
front of the place. -/
theorem Sound.inFront_iff (hl : l.Sound) : l.InFront probe i ↔
    i = head ∨ i ∈ l.linked ∧ ∃ a, l.Holds i a ∧ probe a = .lt := by
  constructor
  · intro h
    by_cases hne : i = head
    · exact .inl hne
    · obtain ⟨a, ha⟩ := hl.element h.lt_size hne
      exact .inr ⟨hl.linked h.lt_size hne h.unmarked, a, ⟨ha, h.unmarked⟩, h.lt a ha⟩
  · rintro (rfl | ⟨-, a, ha, hlt⟩)
    · exact hl.inFront_head probe
    · exact ha.inFront hlt

/-- **A search is one pass**, which clears the way to its place. -/
theorem search_passClears (hl : l.Sound) (hstart : l.InFront probe start) :
    ∃ loc l', l.search start probe = .ok (loc, l') ∧ l.Trims l' ∧ l'.Located probe loc ∧
      l.PassClears probe start loc l' := by
  obtain ⟨loc, l', hwalk, htrims, hloc⟩ := walk_spec hl hstart rfl (hl.length_trail_lt start)
  have hl' : l'.Sound := (hl.evolves htrims.evolves).1
  refine ⟨loc, l', ?_, htrims, hloc, .of_walk hl hl' hstart rfl hwalk⟩
  -- the first pass arrives, so no second one is made
  rw [search, bound, searchWithin, hwalk]
  rfl

/-- Neither half of a deleted node changes in a search. -/
theorem Trims.node_eq_of_marked (h : l.Trims l') (hl : l.Sound) (hm : (l.link i).marked = true) :
    l'.node i = l.node i := by
  have hlater : l.Later l' := (hl.evolves h.evolves).2
  calc l'.node i = ⟨(l'.node i).element?, l'.link i⟩ := rfl
    _ = ⟨(l.node i).element?, l.link i⟩ := by rw [h.element_eq, hlater.frozen hm]
    _ = l.node i := rfl

/-- **A search clears the way to its place.** -/
theorem search_clears (hl : l.Sound) (hstart : l.InFront probe start) :
    ∃ loc l', l.search start probe = .ok (loc, l') ∧ l.Clears probe start loc l' := by
  obtain ⟨loc, l', hsearch, htrims, hloc, hclears⟩ := search_passClears hl hstart
  have hl' : l'.Sound := (hl.evolves htrims.evolves).1
  refine ⟨loc, l', hsearch, ?_, by rw [hclears.curr, head?_beyond],
    hloc.pred.link_eq hloc.adjacent, hclears.linked hl hl' hstart, hclears.curr.symm,
    hclears.node_eq, fun i hm => htrims.node_eq_of_marked hl hm, htrims.element_eq,
    htrims.marked_eq, ?_, htrims.reclaimer_eq⟩
  · rcases List.mem_cons.mp hclears.pred_mem with heq | hmem
    · exact .inl heq
    · -- a node behind another one has an element
      obtain ⟨a, ha, -⟩ := hl.before_of_mem_trail hmem
      have ha' : (l'.node loc.pred).element? = some a := (htrims.element_eq _).trans ha
      exact .inr ⟨hmem, a, ⟨ha', hloc.pred.unmarked⟩, hloc.pred.lt a ha'⟩
  · exact eq_of_pairwise_lt hl'.pairwise_live hl.pairwise_live fun _ =>
      (htrims.live_perm hl).mem_iff

end SortedList

namespace Moment

open SortedList

variable {α : Type} [Ord α] [Std.TransOrd α] [Text.Legible α] {m : Moment α}

/-- **A search at any moment.** Whatever deleted nodes stand on the list, from the head or from a
live node in front of the place, and for every probe, a search ends. The place it answers is the
first one behind the start, and the deleted nodes up to it are all that is gone from the list. -/
theorem Reachable.clears_way (hm : m.Reachable) {probe : Probe α} {start : NodeId}
    (hstart : start = head ∨
      start ∈ m.list.linked ∧ ∃ a, m.list.Holds start a ∧ probe a = .lt) :
    ∃ loc l', m.list.search start probe = .ok (loc, l') ∧ m.list.Clears probe start loc l' :=
  SortedList.search_clears hm.sound.list (hm.sound.list.inFront_iff.mpr hstart)

/-- From 20 the place of 55 is searched, on a list with deleted nodes in front of 20, in two runs
behind it, and behind the place. -/
theorem Reachable.clears_way_of_deleted_runs :
    ∃ (m : Moment UInt64) (l' : SortedList UInt64), m.Reachable ∧
      m.list.chain = [(10, true), (20, false), (30, true), (40, true), (50, false), (60, true),
        (70, false), (80, true), (90, false)] ∧
      m.list.search 2 (.ofElement 55) = .ok (⟨5, some 7⟩, l') ∧
      m.list.Clears (.ofElement 55) 2 ⟨5, some 7⟩ l' ∧
      l'.chain = [(10, true), (20, false), (50, false), (70, false), (80, true), (90, false)] := by
  -- the marks are set from the end of the list on, so that no search unlinks an earlier one
  let ops : List (ListOp UInt64) :=
    [10, 20, 30, 40, 50, 60, 70, 80, 90].map (fun a => .request (.insert a)) ++
      [80, 60, 40, 30, 10].map fun a => .request (.markOnly a)
  have hcomputed : (do
      let (_, s) ← (ListSession.fresh .deferred).steps ops
      let (loc, l) ← s.list.search 2 (.ofElement 55)
      return (s.list.node 2, s.list.chain, loc, l.chain)) = .ok (⟨some 20, ⟨some 3, false⟩⟩,
        [(10, true), (20, false), (30, true), (40, true), (50, false), (60, true), (70, false),
          (80, true), (90, false)], ⟨5, some 7⟩,
        [(10, true), (20, false), (50, false), (70, false), (80, true), (90, false)]) := by
    decide +kernel
  obtain ⟨⟨replies, s⟩, hsteps, hcomputed⟩ := Checked.bind_eq_ok.mp hcomputed
  obtain ⟨⟨loc, l'⟩, hsearch, hcomputed⟩ := Checked.bind_eq_ok.mp hcomputed
  obtain ⟨hnode, hchain, rfl, hchain'⟩ :
      s.list.node 2 = _ ∧ s.list.chain = _ ∧ loc = _ ∧ l'.chain = _ := by
    simpa only [Checked.pure_eq_ok, Except.ok.injEq, Prod.mk.injEq] using hcomputed
  have hm : Reachable ⟨s, []⟩ := reachable_of_steps hsteps
  have hholds : s.list.Holds 2 20 := ⟨by rw [hnode], by rw [link_eq, hnode]⟩
  have hlt : Probe.ofElement (55 : UInt64) 20 = .lt := rfl
  obtain ⟨loc, l'', hsearch', hclears⟩ :=
    hm.clears_way (.inr ⟨hm.sound.list.mem_linked hholds, 20, hholds, hlt⟩)
  cases hsearch.symm.trans hsearch'
  exact ⟨_, _, hm, hchain, hsearch, hclears, hchain'⟩

end Moment

end SplitOrder
