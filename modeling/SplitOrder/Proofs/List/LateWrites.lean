import Mathlib.Data.List.Basic
import SplitOrder.Proofs.List.Reachable

/-!
# Writes that come late

An operation looks at the list first and writes to it later. In between others get their turn, and
whatever it saw may have been deleted, unlinked or replaced since. All that guards the write is the
comparison with one link.

That is enough, because the rest does not grow stale: a node keeps its element, and a deleted node
keeps its link (`SortedList.Later`). What may have changed, that the node in front is on the list and
what comes next behind it, is what the comparison tells. So a late write either fails and changes
nothing, or does to the list as it is now what it was meant to do to the list as it was.

* `Gains`, `Drops`, `Snips` — what the three writes are meant to do: one node more, one element less,
  one deleted node less.
* `Later.linkEnds`, `Later.markEnds`, `Later.unlinkEnds` — a late write does that or nothing.
* `Moment.Reachable.late_writes` — the same for writes that were prepared at any moment of a run and
  are executed at any later one.
-/

namespace SplitOrder

namespace SortedList

variable {α : Type}

/-! ### Chains -/

/-- What the given nodes show on the chain: their elements with their marks. -/
def itemsOf (l : SortedList α) (is : List NodeId) : List (α × Bool) :=
  is.filterMap fun i => (l.node i).element?.map fun a => (a, (l.link i).marked)

variable {l l' : SortedList α} {i : NodeId} {a : α} {is js : List NodeId}

theorem chain_eq_itemsOf (l : SortedList α) : l.chain = l.itemsOf l.linked := rfl

theorem itemsOf_append (l : SortedList α) (is js : List NodeId) :
    l.itemsOf (is ++ js) = l.itemsOf is ++ l.itemsOf js :=
  List.filterMap_append

theorem itemsOf_cons (is : List NodeId) (ha : (l.node i).element? = some a) :
    l.itemsOf (i :: is) = (a, (l.link i).marked) :: l.itemsOf is := by
  unfold itemsOf
  rw [List.filterMap_cons, ha]
  rfl

/-- A node shows nothing but its element and its mark. -/
theorem itemsOf_congr (helem : ∀ i ∈ is, (l'.node i).element? = (l.node i).element?)
    (hmark : ∀ i ∈ is, (l'.link i).marked = (l.link i).marked) : l'.itemsOf is = l.itemsOf is := by
  refine List.filterMap_congr fun i hi => ?_
  rw [helem i hi, hmark i hi]

/-- Two lists that agree up to a node agree up to it without their first node. -/
theorem exists_append_of_cons_eq {x p : NodeId} {as bs xs ys zs : List NodeId}
    (h : x :: as = xs ++ p :: ys) (h' : x :: bs = xs ++ p :: zs) :
    ∃ is, as = is ++ ys ∧ bs = is ++ zs := by
  cases xs with
  | nil => exact ⟨[], (List.cons.inj h).2, (List.cons.inj h').2⟩
  | cons x' xs =>
    refine ⟨xs ++ [p], ?_, ?_⟩
    · rw [(List.cons.inj h).2, List.append_assoc]
      rfl
    · rw [(List.cons.inj h').2, List.append_assoc]
      rfl

variable [Ord α]

/-! ### What the writes are meant to do -/

/-- **One node more.** It holds its element between two neighbours, and nothing else is changed. -/
structure Gains (l : SortedList α) (i : NodeId) (a : α) (l' : SortedList α) : Prop where
  fresh : i ∉ l.linked
  linked : ∃ is js, l.linked = is ++ js ∧ l'.linked = is ++ i :: js
  chain : ∃ xs ys, l.chain = xs ++ ys ∧ l'.chain = xs ++ (a, false) :: ys
  ascending : (head :: l'.linked).Pairwise l'.Before

/-- **One element less.** Its node is deleted, and stays where it is. -/
structure Drops (l : SortedList α) (i : NodeId) (a : α) (l' : SortedList α) : Prop where
  mem_linked : i ∈ l.linked
  linked_eq : l'.linked = l.linked
  chain : ∃ xs ys, l.chain = xs ++ (a, false) :: ys ∧ l'.chain = xs ++ (a, true) :: ys
  live : ∃ xs ys, l.live = xs ++ a :: ys ∧ l'.live = xs ++ ys

/-- **One node less.** It was deleted, so no element goes with it. -/
structure Snips (l : SortedList α) (i : NodeId) (l' : SortedList α) : Prop where
  linked : ∃ is js, l.linked = is ++ i :: js ∧ l'.linked = is ++ js
  chain : ∃ xs a ys, l.chain = xs ++ (a, true) :: ys ∧ l'.chain = xs ++ ys
  live_eq : l'.live = l.live

/-- How an attempt to link a new node may end: it is told to fail and changes nothing, or it puts an
element on the list that was not there. -/
def LinkEnds (l : SortedList α) (pred : NodeId) (curr : Option NodeId) (a : α) : Prop :=
  l.linkNew pred curr a = (none, l) ∨
    ∃ i l', l.linkNew pred curr a = (some i, l') ∧ (∀ b ∈ l.live, compare b a ≠ .eq) ∧
      l.Gains i a l'

/-- How an attempt to mark a node with the element `a` may end. -/
def MarkEnds (l : SortedList α) (i : NodeId) (succ : Option NodeId) (a : α) : Prop :=
  l.mark i succ = (false, l) ∨ ∃ l', l.mark i succ = (true, l') ∧ l.Drops i a l'

/-- How an attempt to unlink a node may end. -/
def UnlinkEnds (l : SortedList α) (pred curr : NodeId) (succ : Option NodeId) : Prop :=
  l.unlink pred curr succ = (false, l) ∨ ∃ l', l.unlink pred curr succ = (true, l') ∧ l.Snips curr l'

variable [Std.TransOrd α] {pred curr : NodeId} {next succ : Option NodeId}

/-! ### What they do -/

theorem Sound.gains_withNode (hl : l.Sound) (here : l.link pred = ⟨next, false⟩)
    (hp : pred < l.nodes.size)
    (above : ∀ b, (l.node pred).element? = some b → compare b a = .lt)
    (below : ∀ i, next = some i → ∃ b, (l.node i).element? = some b ∧ compare a b = .lt) :
    l.Gains l.nodes.size a (l.withNode pred next a) := by
  have hold : ∀ j ∈ l.linked, j ≠ l.nodes.size :=
    fun j hj => Nat.ne_of_lt (hl.lt_size_of_mem_linked hj)
  obtain ⟨xs, hxs, hxs'⟩ := hl.exists_cons_linked_withNode here hp above below
  obtain ⟨is, his, his'⟩ := exists_append_of_cons_eq hxs hxs'
  -- the nodes that were linked show what they showed
  have hsame : ∀ js, js ⊆ l.linked → (l.withNode pred next a).itemsOf js = l.itemsOf js :=
    fun js hjs => itemsOf_congr (fun j hj => element_withNode_of_ne (hold j (hjs hj)))
      fun j hj => marked_withNode here hp (hold j (hjs hj))
  refine ⟨fun hmem => hold _ hmem rfl, ⟨is, l.trail pred, his, his'⟩,
    ⟨l.itemsOf is, l.itemsOf (l.trail pred), ?_, ?_⟩,
    (hl.sound_withNode here hp above below).pairwise_cons_trail head⟩
  · rw [chain_eq_itemsOf, his, itemsOf_append]
  · rw [chain_eq_itemsOf, his', itemsOf_append, itemsOf_cons _ (by rw [node_withNode_new]),
      link_withNode_new, hsame is (his ▸ List.subset_append_left _ _),
      hsame _ (his ▸ List.subset_append_right _ _)]

theorem Sound.drops_mark (hl : l.Sound) (ha : l.Holds i a) (here : l.link i = ⟨succ, false⟩) :
    l.Drops i a (l.setLink i ⟨succ, true⟩) := by
  have hi : i < l.nodes.size := ha.lt_size
  have hmem : i ∈ l.linked := hl.mem_linked ha
  have hlinked : (l.setLink i ⟨succ, true⟩).linked = l.linked := linked_mark here hi
  obtain ⟨is, js, hsplit⟩ := List.append_of_mem hmem
  have hnodup : (is ++ i :: js).Nodup := hsplit ▸ (List.nodup_cons.mp (hl.nodup_cons_trail head)).2
  -- all others are marked or not as they were
  have hsame : ∀ ks, i ∉ ks → (l.setLink i ⟨succ, true⟩).itemsOf ks = l.itemsOf ks := by
    intro ks hks
    refine itemsOf_congr (fun j _ => element_setLink ..) fun j hj => ?_
    rw [link_setLink_of_ne hi]
    rintro rfl
    exact hks hj
  have hchain : l.chain = l.itemsOf is ++ (a, false) :: l.itemsOf js := by
    rw [chain_eq_itemsOf, hsplit, itemsOf_append, itemsOf_cons _ ha.1, here]
  have hchain' : (l.setLink i ⟨succ, true⟩).chain =
      l.itemsOf is ++ (a, true) :: l.itemsOf js := by
    rw [chain_eq_itemsOf, hlinked, hsplit, itemsOf_append,
      itemsOf_cons _ ((element_setLink ..).trans ha.1), link_setLink_self hi, hsame is, hsame js]
    · exact (List.nodup_cons.mp (List.nodup_append.mp hnodup).2.1).1
    · exact fun hi => (List.nodup_append.mp hnodup).2.2 i hi i List.mem_cons_self rfl
  refine ⟨hmem, hlinked, ⟨_, _, hchain, hchain'⟩, ⟨l.liveOf is, l.liveOf js, ?_, ?_⟩⟩
  · rw [live, hchain]
    simp [liveOf, itemsOf]
  · rw [live, hchain']
    simp [liveOf, itemsOf]

theorem Sound.snips_unlink (hl : l.Sound) (here : l.link pred = ⟨some curr, false⟩)
    (frozen : l.link curr = ⟨succ, true⟩) : l.Snips curr (l.setLink pred ⟨succ, false⟩) := by
  obtain ⟨xs, hxs, hxs'⟩ := hl.exists_cons_linked_unlink here frozen
  obtain ⟨is, his, his'⟩ := exists_append_of_cons_eq hxs hxs'
  obtain ⟨a, ha, -⟩ := hl.before (by rw [here] : (l.link pred).target = some curr)
  -- no mark and no element is changed
  have hsame : ∀ js, (l.setLink pred ⟨succ, false⟩).itemsOf js = l.itemsOf js := fun js =>
    itemsOf_congr (fun _ _ => element_setLink ..) fun _ _ =>
      marked_setLink_target here (lt_size_of_target (by rw [here]))
  have hchain : l.chain = l.itemsOf is ++ (a, true) :: l.itemsOf (l.trail curr) := by
    rw [chain_eq_itemsOf, his, itemsOf_append, itemsOf_cons _ ha, frozen]
  have hchain' : (l.setLink pred ⟨succ, false⟩).chain =
      l.itemsOf is ++ l.itemsOf (l.trail curr) := by
    rw [chain_eq_itemsOf, his', hsame, itemsOf_append]
  refine ⟨⟨is, _, his, his'⟩, ⟨_, a, _, hchain, hchain'⟩, ?_⟩
  rw [live, live, hchain, hchain']
  simp

/-! ### Late writes -/

/-- An element between two neighbours on a list is not on it. -/
theorem Sound.not_mem_live_of_between (hl : l.Sound) (hp : pred ∈ head :: l.linked)
    (above : ∀ b, (l.node pred).element? = some b → compare b a = .lt)
    (below : ∀ i, (l.link pred).target = some i →
      ∃ b, (l.node i).element? = some b ∧ compare a b = .lt) {b : α} (hb : b ∈ l.live) :
    compare b a ≠ .eq := by
  intro heq
  obtain ⟨k, hk⟩ := hl.mem_live_iff.mp hb
  refine hl.notMem_linked_of_between hp ⟨b, hk.1, fun c hc => ?_⟩ (fun j hj => ?_)
    (hl.mem_linked hk)
  · exact Std.TransCmp.lt_of_lt_of_eq (above c hc) (Std.OrientedCmp.eq_symm heq)
  · obtain ⟨d, hd, hlt⟩ := below j hj
    refine ⟨d, hd, fun c hc => ?_⟩
    rw [← hk.unique hc]
    exact Std.TransCmp.lt_of_eq_of_lt heq hlt

/-- **Linking late.** The neighbours were chosen at an earlier time, by their elements. -/
theorem Later.linkEnds (h : l.Later l') (hl' : l'.Sound) (hp : pred < l.nodes.size)
    (above : ∀ b, (l.node pred).element? = some b → compare b a = .lt)
    (below : ∀ i, next = some i → ∃ b, (l.node i).element? = some b ∧ compare a b = .lt) :
    l'.LinkEnds pred next a := by
  rw [LinkEnds, linkNew_eq]
  by_cases here : l'.link pred = ⟨next, false⟩
  · -- the node in front is not deleted, so it is on the list, and `next` is what comes behind it
    rw [if_pos here]
    have hp' : pred < l'.nodes.size := Nat.lt_of_lt_of_le hp h.size_le
    have above' : ∀ b, (l'.node pred).element? = some b → compare b a = .lt := fun b hb =>
      above b ((h.element hp).symm.trans hb)
    have below' : ∀ i, next = some i →
        ∃ b, (l'.node i).element? = some b ∧ compare a b = .lt := by
      intro i hi
      obtain ⟨b, hb, hlt⟩ := below i hi
      exact ⟨b, (h.element (lt_size_of_element hb)).trans hb, hlt⟩
    refine .inr ⟨_, _, rfl, fun b hb => ?_, hl'.gains_withNode here hp' above' below'⟩
    refine hl'.not_mem_live_of_between (hl'.mem_cons_linked hp' (by rw [here])) above' ?_ hb
    rw [here]
    exact below'
  · rw [if_neg here]
    exact .inl rfl

/-- **Marking late.** -/
theorem Later.markEnds (h : l.Later l') (hl' : l'.Sound) (ha : (l.node i).element? = some a) :
    l'.MarkEnds i succ a := by
  rw [MarkEnds, mark, compareAndSwap_eq]
  by_cases here : l'.link i = ⟨succ, false⟩
  · rw [if_pos here]
    have ha' : l'.Holds i a := ⟨(h.element (lt_size_of_element ha)).trans ha, by rw [here]⟩
    exact .inr ⟨_, rfl, hl'.drops_mark ha' here⟩
  · rw [if_neg here]
    exact .inl rfl

/-- **Unlinking late.** The node was deleted at an earlier time, and its link is frozen since. -/
theorem Later.unlinkEnds (h : l.Later l') (hl' : l'.Sound) (frozen : l.link curr = ⟨succ, true⟩) :
    l'.UnlinkEnds pred curr succ := by
  rw [UnlinkEnds, unlink, compareAndSwap_eq]
  by_cases here : l'.link pred = ⟨some curr, false⟩
  · rw [if_pos here]
    have frozen' : l'.link curr = ⟨succ, true⟩ := by rw [h.frozen (by rw [frozen]), frozen]
    exact .inr ⟨_, rfl, hl'.snips_unlink here frozen'⟩
  · rw [if_neg here]
    exact .inl rfl

end SortedList

namespace Moment

open SortedList

variable {α : Type} [Ord α] [Std.TransOrd α] [Text.Legible α] {m m' : Moment α}

/-- **Late writes are harmless.** Whatever happens between two moments of a run: a new node for an
element that a search at the first moment did not find, a delete mark on an element that was live
then, and the unlinking of a node that was deleted then, each with the neighbours of that time,
either fail at the second moment and change nothing, or do what they are meant to do. -/
theorem Reachable.late_writes (hm : m.Reachable) (h : m.Reaches m') :
    (∀ a, ∃ loc l, m.list.search head (.ofElement a) = .ok (loc, l) ∧
      ((∀ i, loc.curr = some i → ∃ b, (m.list.node i).element? = some b ∧ compare a b = .lt) →
        m'.list.LinkEnds loc.pred loc.curr a)) ∧
    (∀ i a, m.list.Holds i a → m'.list.MarkEnds i (m.list.link i).target a) ∧
    (∀ pred i succ, (m.list.link pred).target = some i → m.list.link i = ⟨succ, true⟩ →
      m'.list.UnlinkEnds pred i succ) := by
  have hl : m.list.Sound := hm.sound.list
  obtain ⟨hl', hlater⟩ := hl.evolves (h.evolves hm.sound).1
  refine ⟨fun a => ?_, fun i a ha => hlater.markEnds hl' ha.1, fun pred i succ _ frozen =>
    hlater.unlinkEnds hl' frozen⟩
  obtain ⟨loc, l, hsearch, htrims, hloc⟩ := search_spec hl (hl.inFront_head (.ofElement a))
  refine ⟨loc, l, hsearch, fun below => hlater.linkEnds hl' ?_ (fun b hb => ?_) below⟩
  · rw [← htrims.size_eq]
    exact hloc.pred.lt_size
  · -- the search changed no element
    exact hloc.pred.lt b ((htrims.element_eq loc.pred).trans hb)

/-- A place for 25 is found between 10 and 30, behind a deleted 20. Then 30 is deleted too, by a mark
alone: the new node can still be linked in front of it. The deleted 20 is off the list by then, and
the attempt to unlink it once more fails. -/
theorem Reachable.late_writes_around_deleted :
    ∃ m m' : Moment UInt64, m.Reachable ∧ m.Reaches m' ∧
      m.list.chain = [(10, false), (20, true), (30, false), (40, false)] ∧
      m'.list.chain = [(10, false), (30, true), (40, false)] ∧
      (m'.list.linkNew 1 (some 3) 25).1 = some 5 ∧ m'.list.LinkEnds 1 (some 3) 25 ∧
      (m'.list.mark 4 none).1 = true ∧ m'.list.MarkEnds 4 none 40 ∧
      (m'.list.unlink 1 2 (some 3)).1 = false ∧ m'.list.UnlinkEnds 1 2 (some 3) := by
  let l : SortedList UInt64 :=
    { nodes := #[⟨none, ⟨some 1, false⟩⟩, ⟨some 10, ⟨some 2, false⟩⟩, ⟨some 20, ⟨some 3, true⟩⟩,
        ⟨some 30, ⟨some 4, false⟩⟩, ⟨some 40, ⟨none, false⟩⟩] }
  let l' : SortedList UInt64 :=
    { nodes := #[⟨none, ⟨some 1, false⟩⟩, ⟨some 10, ⟨some 3, false⟩⟩, ⟨some 20, ⟨some 3, true⟩⟩,
        ⟨some 30, ⟨some 4, true⟩⟩, ⟨some 40, ⟨none, false⟩⟩] }
  have hm : Reachable ⟨{ list := l }, []⟩ := reachable_of_steps
    (show (ListSession.fresh .deferred).steps
      ([10, 20, 30, 40].map (fun a => .request (.insert a)) ++ [.request (.markOnly 20)]) =
        .ok (_, _) from rfl)
  have hm' : Reaches ⟨{ list := l }, []⟩ ⟨{ list := l' }, []⟩ :=
    reaches_steps hm.sound [.request (.markOnly 30)] rfl
  obtain ⟨hlink, hmark, hunlink⟩ := hm.late_writes hm'
  obtain ⟨loc, l₁, hsearch, hends⟩ := hlink 25
  obtain rfl : loc = ⟨1, some 3⟩ := by
    have hplace : l.search head (.ofElement 25) = .ok (⟨1, some 3⟩, _) := rfl
    exact congrArg Prod.fst (Except.ok.inj (hsearch.symm.trans hplace))
  refine ⟨_, _, hm, hm', rfl, rfl, rfl, hends fun i hi => ?_, rfl, hmark 4 40 ⟨rfl, rfl⟩, rfl,
    hunlink 1 2 (some 3) rfl rfl⟩
  obtain rfl : 3 = i := Option.some.inj hi
  exact ⟨30, rfl, rfl⟩

end Moment

end SplitOrder
