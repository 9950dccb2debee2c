import Mathlib.Logic.Relation
import SplitOrder.Proofs.List.Sound

/-!
# Writes

All that ever happens to a sorted list, one indivisible change after the other. An operation is
nothing but a sequence of writes, so what every write keeps, every operation keeps, however
operations are nested or interleaved.

* `Write` — the four changes and what makes each of them safe. A write rests on the link that it
  replaces and, for `Write.unlink`, on the frozen link of a deleted node; neither grows stale.
* `Write.sound` — a write keeps the invariant.
* `Later`, `Write.later` — what one state tells about all later ones: nodes keep their elements,
  the link of a deleted node is frozen, and a node that was unlinked stays so.
* `Evolves` — any number of writes.

What a write does to the nodes from the head on is one equation, `Ordered.cons_linked_eq`: the
nodes up to the written one stay, and behind it follows whatever it leads to now.
-/

namespace SplitOrder.SortedList

variable {α : Type _}

/-! ### Nodes after a write -/

section Nodes

variable (l : SortedList α) (i j : NodeId) (k : Link (Option NodeId))

@[simp] theorem size_setLink : (l.setLink i k).nodes.size = l.nodes.size :=
  Array.size_modify

@[simp] theorem element_setLink :
    ((l.setLink i k).node j).element? = (l.node j).element? := by
  simp only [node, setLink, Array.getElem?_modify]
  split
  · cases l.nodes[j]? <;> rfl
  · rfl

variable {l i j k}

theorem link_setLink_self (hi : i < l.nodes.size) : (l.setLink i k).link i = k := by
  rw [link_eq, node_setLink l i i k hi, if_pos rfl]

theorem link_setLink_of_ne (hi : i < l.nodes.size) (hij : j ≠ i) :
    (l.setLink i k).link j = l.link j := by
  rw [link_eq, node_setLink l i j k hi, if_neg (Ne.symm hij), link_eq]

theorem marked_setLink_target {curr succ : Option NodeId} (here : l.link i = ⟨curr, false⟩)
    (hi : i < l.nodes.size) :
    ((l.setLink i ⟨succ, false⟩).link j).marked = (l.link j).marked := by
  by_cases hj : j = i
  · subst hj
    rw [link_setLink_self hi, here]
  · rw [link_setLink_of_ne hi hj]

variable (l)

/-- The list with a new node for `a` behind the node `pred`, in front of `curr`. -/
def withNode (pred : NodeId) (curr : Option NodeId) (a : α) : SortedList α :=
  { l with
    nodes := (l.setLink pred ⟨some l.nodes.size, false⟩).nodes.push ⟨some a, ⟨curr, false⟩⟩ }

variable {l} {pred : NodeId} {curr : Option NodeId} {a : α}

@[simp] theorem size_withNode : (l.withNode pred curr a).nodes.size = l.nodes.size + 1 := by
  simp [withNode]

@[simp] theorem node_withNode_new :
    (l.withNode pred curr a).node l.nodes.size = ⟨some a, ⟨curr, false⟩⟩ := by
  have hsize := size_setLink l pred ⟨some l.nodes.size, false⟩
  rw [node, withNode, Array.getElem?_push, if_pos hsize.symm]
  rfl

theorem node_withNode_of_ne (hj : j ≠ l.nodes.size) :
    (l.withNode pred curr a).node j = (l.setLink pred ⟨some l.nodes.size, false⟩).node j := by
  simp [node, withNode, Array.getElem?_push, hj]

theorem element_withNode_of_ne (hj : j ≠ l.nodes.size) :
    ((l.withNode pred curr a).node j).element? = (l.node j).element? := by
  rw [node_withNode_of_ne hj, element_setLink]

@[simp] theorem link_withNode_new :
    (l.withNode pred curr a).link l.nodes.size = ⟨curr, false⟩ := by
  rw [link_eq, node_withNode_new]

theorem link_withNode_pred (hp : pred < l.nodes.size) :
    (l.withNode pred curr a).link pred = ⟨some l.nodes.size, false⟩ := by
  rw [link_eq, node_withNode_of_ne (Nat.ne_of_lt hp), ← link_eq, link_setLink_self hp]

theorem link_withNode_of_ne (hp : pred < l.nodes.size) (hj : j ≠ l.nodes.size) (hjp : j ≠ pred) :
    (l.withNode pred curr a).link j = l.link j := by
  rw [link_eq, node_withNode_of_ne hj, ← link_eq, link_setLink_of_ne hp hjp]

theorem marked_withNode (here : l.link pred = ⟨curr, false⟩) (hp : pred < l.nodes.size)
    (hj : j ≠ l.nodes.size) :
    ((l.withNode pred curr a).link j).marked = (l.link j).marked := by
  rw [link_eq, node_withNode_of_ne hj, ← link_eq, marked_setLink_target here hp]

/-- A new node is not deleted, and neither was its name before it was given out. -/
theorem marked_withNode_eq (here : l.link pred = ⟨curr, false⟩) (hp : pred < l.nodes.size)
    (j : NodeId) : ((l.withNode pred curr a).link j).marked = (l.link j).marked := by
  by_cases hnew : j = l.nodes.size
  · subst hnew
    rw [link_withNode_new, link_eq, node_of_size_le (Nat.le_refl _)]
  · exact marked_withNode here hp hnew

theorem linkNew_eq (l : SortedList α) (pred : NodeId) (curr : Option NodeId) (a : α) :
    l.linkNew pred curr a =
      if l.link pred = ⟨curr, false⟩ then (some l.nodes.size, l.withNode pred curr a)
      else (none, l) := by
  simp only [linkNew, compareAndSwap_eq]
  by_cases h : l.link pred = ⟨curr, false⟩
  · rw [if_pos h, if_pos h]
    rfl
  · rw [if_neg h, if_neg h]

end Nodes

/-! ### What a write does to the contents -/

theorem holds_withNode_iff {l : SortedList α} {pred j : NodeId} {curr : Option NodeId} {a b : α}
    (here : l.link pred = ⟨curr, false⟩)
    (hp : pred < l.nodes.size) :
    (l.withNode pred curr a).Holds j b ↔ l.Holds j b ∨ (j = l.nodes.size ∧ b = a) := by
  by_cases hnew : j = l.nodes.size
  · -- before the write there was no such node
    subst hnew
    unfold Holds
    rw [node_withNode_new, link_withNode_new, node_of_size_le (Nat.le_refl _)]
    constructor
    · rintro ⟨hb, -⟩
      exact .inr ⟨rfl, (Option.some.inj hb).symm⟩
    · rintro (⟨hb, -⟩ | ⟨-, rfl⟩)
      · cases hb
      · exact ⟨rfl, rfl⟩
  · unfold Holds
    rw [element_withNode_of_ne hnew, marked_withNode here hp hnew]
    simp [hnew]

theorem holds_setLink_mark_iff {l : SortedList α} {i j : NodeId} {succ : Option NodeId} {b : α}
    (hi : i < l.nodes.size) :
    (l.setLink i ⟨succ, true⟩).Holds j b ↔ l.Holds j b ∧ j ≠ i := by
  unfold Holds
  rw [element_setLink]
  by_cases hji : j = i
  · subst hji
    rw [link_setLink_self hi]
    simp
  · rw [link_setLink_of_ne hi hji]
    simp [hji]

/-! ### What a write keeps -/

theorem linked_mark {l : SortedList α} {i : NodeId} {succ : Option NodeId}
    (here : l.link i = ⟨succ, false⟩) (hi : i < l.nodes.size) :
    (l.setLink i ⟨succ, true⟩).linked = l.linked := by
  -- a mark changes no target
  have same : ∀ j, ((l.setLink i ⟨succ, true⟩).link j).target = (l.link j).target := by
    intro j
    by_cases hji : j = i
    · subst hji
      rw [link_setLink_self hi, here]
    · rw [link_setLink_of_ne hi hji]
  unfold linked bound
  rw [linkedFrom_congr same, same, size_setLink]

theorem linked_retire (l : SortedList α) (i : NodeId) : (l.retire i).linked = l.linked := by
  have same : ∀ j, ((l.retire i).link j).target = (l.link j).target := fun _ => rfl
  exact linkedFrom_congr same _ _

/-- **What lasts.** Facts about one state that hold of every later one. -/
structure Later (l l' : SortedList α) : Prop where
  /-- Names are never taken back. -/
  size_le : l.nodes.size ≤ l'.nodes.size
  /-- A node keeps its element. -/
  element : ∀ {i}, i < l.nodes.size → (l'.node i).element? = (l.node i).element?
  /-- A deleted node stays deleted and keeps its successor. -/
  frozen : ∀ {i}, (l.link i).marked = true → l'.link i = l.link i
  /-- A node that is not on the list will not be on it again. -/
  unlinked : ∀ {i}, i < l.nodes.size → i ∉ l.linked → i ∉ l'.linked

theorem Later.refl (l : SortedList α) : l.Later l where
  size_le := Nat.le_refl _
  element := fun _ => rfl
  frozen := fun _ => rfl
  unlinked := fun _ h => h

theorem Later.trans {l l' l'' : SortedList α} (h : l.Later l') (h' : l'.Later l'') :
    l.Later l'' where
  size_le := Nat.le_trans h.size_le h'.size_le
  element := fun hi => (h'.element (Nat.lt_of_lt_of_le hi h.size_le)).trans (h.element hi)
  frozen := fun hm => by
    -- the link is the same at all three times, so the mark is as well
    have hl := h.frozen hm
    rw [h'.frozen (by rw [hl, hm]), hl]
  unlinked := fun hi hn => h'.unlinked (Nat.lt_of_lt_of_le hi h.size_le) (h.unlinked hi hn)

variable [Ord α]

/-- **The writes.** Each replaces one link, or hands one node over. -/
inductive Write : SortedList α → SortedList α → Prop
  /-- A new node is linked between two neighbours, with an element between theirs. -/
  | link {l : SortedList α} {pred : NodeId} {curr : Option NodeId} {a : α}
      (here : l.link pred = ⟨curr, false⟩) (inRange : pred < l.nodes.size)
      (above : ∀ b, (l.node pred).element? = some b → compare b a = .lt)
      (below : ∀ i, curr = some i → ∃ b, (l.node i).element? = some b ∧ compare a b = .lt) :
      Write l (l.withNode pred curr a)
  /-- A node other than the head gets its delete mark. -/
  | mark {l : SortedList α} {i : NodeId} {succ : Option NodeId}
      (here : l.link i = ⟨succ, false⟩) (inRange : i < l.nodes.size) (ne_head : i ≠ head) :
      Write l (l.setLink i ⟨succ, true⟩)
  /-- A deleted node is left out: the link in front of it takes over its target. -/
  | unlink {l : SortedList α} {pred curr : NodeId} {succ : Option NodeId}
      (here : l.link pred = ⟨some curr, false⟩) (frozen : l.link curr = ⟨succ, true⟩) :
      Write l (l.setLink pred ⟨succ, false⟩)
  /-- A deleted node that is out of reach goes to the reclaimer. -/
  | retire {l : SortedList α} {i : NodeId} (marked : (l.link i).marked = true)
      (unlinked : i ∉ l.linked) : Write l (l.retire i)

/-- Any number of writes. -/
abbrev Evolves : SortedList α → SortedList α → Prop :=
  Relation.ReflTransGen Write

variable {l l' : SortedList α} {i j pred curr : NodeId} {a b : α}

theorem Before.of_element (h : l.Before i j) (hi : (l'.node i).element? = (l.node i).element?)
    (hj : (l'.node j).element? = (l.node j).element?) : l'.Before i j := by
  obtain ⟨b, hb, hlt⟩ := h
  exact ⟨b, hj.trans hb, fun a ha => hlt a (hi ▸ ha)⟩

/-- A link to a greater element keeps a list ordered. -/
theorem Ordered.setLink (h : l.Ordered) (hi : i < l.nodes.size) {k : Link (Option NodeId)}
    (hk : ∀ j, k.target = some j → l.Before i j) : (l.setLink i k).Ordered where
  head_lt := by rw [size_setLink]; exact h.head_lt
  head_bare := by rw [element_setLink]; exact h.head_bare
  element := fun hj hne => by
    rw [size_setLink] at hj
    obtain ⟨a, ha⟩ := h.element hj hne
    exact ⟨a, by rw [element_setLink, ha]⟩
  before := by
    intro j m hm
    have hj : j < l.nodes.size := by simpa using lt_size_of_target hm
    refine Before.of_element ?_ (element_setLink ..) (element_setLink ..)
    by_cases hji : j = i
    · subst hji
      rw [link_setLink_self hj] at hm
      exact hk m hm
    · rw [link_setLink_of_ne hi hji] at hm
      exact h.before hm

/-- A new node with an element between its neighbours keeps a list ordered. -/
theorem Ordered.withNode (h : l.Ordered) {curr : Option NodeId} (hp : pred < l.nodes.size)
    (above : ∀ b, (l.node pred).element? = some b → compare b a = .lt)
    (below : ∀ i, curr = some i → ∃ b, (l.node i).element? = some b ∧ compare a b = .lt) :
    (l.withNode pred curr a).Ordered where
  head_lt := by
    rw [size_withNode]
    exact Nat.lt_succ_of_lt h.head_lt
  head_bare := by
    rw [element_withNode_of_ne (Nat.ne_of_lt h.head_lt)]
    exact h.head_bare
  element := by
    intro j hj hne
    by_cases hnew : j = l.nodes.size
    · subst hnew
      exact ⟨a, by rw [node_withNode_new]⟩
    · rw [size_withNode] at hj
      obtain ⟨b, hb⟩ := h.element (by omega) hne
      exact ⟨b, by rw [element_withNode_of_ne hnew, hb]⟩
  before := by
    intro j m hm
    have old : ∀ {n}, n < l.nodes.size →
        ((l.withNode pred curr a).node n).element? = (l.node n).element? :=
      fun hn => element_withNode_of_ne (Nat.ne_of_lt hn)
    by_cases hnew : j = l.nodes.size
    · -- the new node, in front of `curr`
      subst hnew
      rw [link_withNode_new] at hm
      obtain ⟨b, hb, hlt⟩ := below m hm
      refine ⟨b, by rw [old (lt_size_of_element hb), hb], fun c hc => ?_⟩
      rw [node_withNode_new] at hc
      obtain rfl : a = c := Option.some.inj hc
      exact hlt
    · by_cases hjp : j = pred
      · -- `pred`, in front of the new node
        subst hjp
        rw [link_withNode_pred hp] at hm
        obtain rfl : l.nodes.size = m := Option.some.inj hm
        refine ⟨a, by rw [node_withNode_new], fun c hc => ?_⟩
        rw [old hp] at hc
        exact above c hc
      · rw [link_withNode_of_ne hp hnew hjp] at hm
        have hjm := h.before hm
        exact hjm.of_element (old (lt_size_of_target hm)) (old hjm.lt_size)

theorem Sound.retire (h : l.Sound) (i : NodeId) : (l.retire i).Sound where
  -- the reclaimer plays no part in it
  head_lt := h.head_lt
  head_bare := h.head_bare
  element := h.element
  before := h.before
  head_unmarked := h.head_unmarked
  linked := fun hi hne hm => by
    rw [linked_retire]
    exact h.linked hi hne hm

theorem Sound.setLink_mark (h : l.Sound) {succ : Option NodeId}
    (here : l.link i = ⟨succ, false⟩) (hi : i < l.nodes.size) (ne_head : i ≠ head) :
    (l.setLink i ⟨succ, true⟩).Sound := by
  have hord : (l.setLink i ⟨succ, true⟩).Ordered :=
    h.setLink hi fun j hj => h.before (by rw [here]; exact hj)
  refine ⟨hord, ?_, fun {j} hj hne hm => ?_⟩
  · rw [link_setLink_of_ne hi ne_head.symm, h.head_unmarked]
  · rw [linked_mark here hi]
    rw [size_setLink] at hj
    have hji : j ≠ i := by
      rintro rfl
      rw [link_setLink_self hi] at hm
      cases hm
    rw [link_setLink_of_ne hi hji] at hm
    exact h.linked hj hne hm

variable [Std.TransOrd α]

/-- To leave out a deleted node keeps a list ordered. -/
theorem Ordered.unlink_ordered (h : l.Ordered) {succ : Option NodeId}
    (here : l.link pred = ⟨some curr, false⟩) (frozen : l.link curr = ⟨succ, true⟩) :
    (l.setLink pred ⟨succ, false⟩).Ordered := by
  refine h.setLink (lt_size_of_target (by rw [here])) fun j hj => ?_
  have hcurr : l.Before pred curr := h.before (by rw [here])
  exact hcurr.trans (h.before (by rw [frozen]; exact hj))

/-! ### The nodes from the head on -/

/-- If the nodes in front of `i` lead where they led, they stand from the head on as they did, and
behind `i` stand those that it leads to now. -/
theorem Ordered.cons_linked_of_front (h : l.Ordered) (h' : l'.Ordered) {xs zs : List NodeId}
    (hxs : head :: l.linked = xs ++ i :: l.trail i)
    (same : ∀ j ∈ xs, (l'.link j).target = (l.link j).target)
    (hzs : l'.Leads (l'.link i).target zs) : head :: l'.linked = xs ++ i :: zs := by
  have hl : l.Leads (some head) (xs ++ i :: l.trail i) := by
    rw [← hxs]
    exact .step (h.leads_trail head)
  exact (Leads.step (h'.leads_trail head)).unique (hl.splice same hzs)

/-- **One write, one splice.** If only the link of `pred` leads elsewhere, the nodes from the head
up to `pred` stay, and behind it stand those that it leads to now. -/
theorem Ordered.cons_linked_eq (h : l.Ordered) (h' : l'.Ordered) {xs zs : List NodeId}
    (hxs : head :: l.linked = xs ++ pred :: l.trail pred)
    (same : ∀ j, j < l.nodes.size → j ≠ pred → (l'.link j).target = (l.link j).target)
    (hzs : l'.Leads (l'.link pred).target zs) : head :: l'.linked = xs ++ pred :: zs := by
  have hnodup : (xs ++ pred :: l.trail pred).Nodup := hxs ▸ h.nodup_cons_trail head
  -- the nodes in front of `pred` are other ones, so their targets stayed
  refine h.cons_linked_of_front h' hxs (fun j hj => same j ?_ ?_) hzs
  · have hmem : j ∈ head :: l.linked := hxs ▸ List.mem_append_left _ hj
    rcases List.mem_cons.mp hmem with rfl | hmem
    · exact h.head_lt
    · exact h.lt_size_of_mem_linked hmem
  · rintro rfl
    exact (List.nodup_append.mp hnodup).2.2 j hj j List.mem_cons_self rfl

/-- Where a node is left out, what was behind it follows. -/
theorem Ordered.trail_unlink (h : l.Ordered) {succ : Option NodeId}
    (here : l.link pred = ⟨some curr, false⟩) (frozen : l.link curr = ⟨succ, true⟩) :
    (l.setLink pred ⟨succ, false⟩).trail pred = l.trail curr := by
  have hp : pred < l.nodes.size := lt_size_of_target (by rw [here])
  refine (h.unlink_ordered here frozen).trail_eq ?_
  have hcurr := h.leads_trail curr
  rw [frozen] at hcurr
  rw [link_setLink_self hp]
  -- `pred` comes before all of them, so none of their links was written
  refine hcurr.congr fun m hm => ?_
  have hpm : l.Before pred m := (h.before (by rw [here])).trans (h.before_of_mem_trail hm)
  rw [link_setLink_of_ne hp]
  rintro rfl
  exact not_before_self hpm

/-- Where a node is unlinked, the nodes from the head on are split at the one in front of it. -/
theorem Sound.exists_cons_linked_unlink (h : l.Sound) {succ : Option NodeId}
    (here : l.link pred = ⟨some curr, false⟩) (frozen : l.link curr = ⟨succ, true⟩) :
    ∃ xs, head :: l.linked = xs ++ pred :: curr :: l.trail curr ∧
      head :: (l.setLink pred ⟨succ, false⟩).linked = xs ++ pred :: l.trail curr := by
  have hp : pred < l.nodes.size := lt_size_of_target (by rw [here])
  have hpred : l.trail pred = curr :: l.trail curr := h.trail_of_target_some (by rw [here])
  have hord := h.unlink_ordered here frozen
  obtain ⟨xs, hxs⟩ := h.exists_cons_linked_eq_append (h.mem_cons_linked hp (by rw [here]))
  refine ⟨xs, by rw [hxs, hpred], ?_⟩
  rw [h.cons_linked_eq hord hxs (fun m _ hne => by rw [link_setLink_of_ne hp hne])
    (hord.leads_trail pred), h.trail_unlink here frozen]

/-- After a node is unlinked the others from the head on are still there, and it is not. -/
theorem Sound.mem_cons_linked_unlink (h : l.Sound) {succ : Option NodeId}
    (here : l.link pred = ⟨some curr, false⟩) (frozen : l.link curr = ⟨succ, true⟩) :
    j ∈ head :: (l.setLink pred ⟨succ, false⟩).linked ↔ j ∈ head :: l.linked ∧ j ≠ curr := by
  obtain ⟨xs, hxs, hxs'⟩ := h.exists_cons_linked_unlink here frozen
  have hnodup : (xs ++ pred :: curr :: l.trail curr).Nodup := hxs ▸ h.nodup_cons_trail head
  rw [hxs', hxs]
  -- left is `curr`, which occurs once between what stands in front and what stands behind
  simp only [List.mem_append, List.mem_cons]
  grind

theorem Sound.notMem_linked_unlink (h : l.Sound) {succ : Option NodeId}
    (here : l.link pred = ⟨some curr, false⟩) (frozen : l.link curr = ⟨succ, true⟩) :
    curr ∉ (l.setLink pred ⟨succ, false⟩).linked := fun hmem =>
  ((h.mem_cons_linked_unlink here frozen).mp (List.mem_cons_of_mem _ hmem)).2 rfl

/-- Where a node is linked, the nodes from the head on are split at the one in front of it. -/
theorem Sound.exists_cons_linked_withNode (h : l.Sound) {curr : Option NodeId}
    (here : l.link pred = ⟨curr, false⟩) (hp : pred < l.nodes.size)
    (above : ∀ b, (l.node pred).element? = some b → compare b a = .lt)
    (below : ∀ i, curr = some i → ∃ b, (l.node i).element? = some b ∧ compare a b = .lt) :
    ∃ xs, head :: l.linked = xs ++ pred :: l.trail pred ∧
      head :: (l.withNode pred curr a).linked = xs ++ pred :: l.nodes.size :: l.trail pred := by
  obtain ⟨xs, hxs⟩ := h.exists_cons_linked_eq_append (h.mem_cons_linked hp (by rw [here]))
  -- behind `pred` follow the new node and what was behind `pred`
  have hlead : (l.withNode pred curr a).Leads ((l.withNode pred curr a).link pred).target
      (l.nodes.size :: l.trail pred) := by
    have hcurr := h.leads_trail pred
    rw [here] at hcurr
    rw [link_withNode_pred hp]
    refine .step ?_
    rw [link_withNode_new]
    refine hcurr.congr fun m hm => ?_
    have hpm : l.Before pred m := h.before_of_mem_trail hm
    rw [link_withNode_of_ne hp (Nat.ne_of_lt hpm.lt_size)]
    rintro rfl
    exact not_before_self hpm
  refine ⟨xs, hxs, ?_⟩
  exact h.cons_linked_eq (h.withNode hp above below) hxs
    (fun m hm hne => by rw [link_withNode_of_ne hp (Nat.ne_of_lt hm) hne]) hlead

/-- After a node is linked it is there, and so are the others from the head on. -/
theorem Sound.mem_cons_linked_withNode (h : l.Sound) {curr : Option NodeId}
    (here : l.link pred = ⟨curr, false⟩) (hp : pred < l.nodes.size)
    (above : ∀ b, (l.node pred).element? = some b → compare b a = .lt)
    (below : ∀ i, curr = some i → ∃ b, (l.node i).element? = some b ∧ compare a b = .lt) :
    j ∈ head :: (l.withNode pred curr a).linked ↔ j ∈ head :: l.linked ∨ j = l.nodes.size := by
  obtain ⟨xs, hxs, hxs'⟩ := h.exists_cons_linked_withNode here hp above below
  rw [hxs', hxs]
  simp only [List.mem_append, List.mem_cons]
  grind

/-! ### Every write keeps the invariant -/

theorem Sound.setLink_unlink (h : l.Sound) {succ : Option NodeId}
    (here : l.link pred = ⟨some curr, false⟩) (frozen : l.link curr = ⟨succ, true⟩) :
    (l.setLink pred ⟨succ, false⟩).Sound := by
  have hp : pred < l.nodes.size := lt_size_of_target (by rw [here])
  refine ⟨h.unlink_ordered here frozen, by rw [marked_setLink_target here hp, h.head_unmarked],
    fun {j} hj hne hm => ?_⟩
  rw [size_setLink] at hj
  rw [marked_setLink_target here hp] at hm
  -- a node that is not deleted is not the one left out
  have hcurr : j ≠ curr := by
    rintro rfl
    rw [frozen] at hm
    cases hm
  have hmem := (h.mem_cons_linked_unlink here frozen).mpr ⟨h.mem_cons_linked hj hm, hcurr⟩
  exact (List.mem_cons.mp hmem).resolve_left hne

theorem Sound.sound_withNode (h : l.Sound) {curr : Option NodeId}
    (here : l.link pred = ⟨curr, false⟩) (hp : pred < l.nodes.size)
    (above : ∀ b, (l.node pred).element? = some b → compare b a = .lt)
    (below : ∀ i, curr = some i → ∃ b, (l.node i).element? = some b ∧ compare a b = .lt) :
    (l.withNode pred curr a).Sound := by
  refine ⟨h.withNode hp above below, ?_, fun {j} hj hne hm => ?_⟩
  · rw [marked_withNode here hp (Nat.ne_of_lt h.head_lt), h.head_unmarked]
  have hmem := (h.mem_cons_linked_withNode here hp above below (j := j)).mpr ?_
  · exact (List.mem_cons.mp hmem).resolve_left hne
  · by_cases hnew : j = l.nodes.size
    · exact .inr hnew
    · rw [size_withNode] at hj
      have hj : j < l.nodes.size := by omega
      rw [marked_withNode here hp hnew] at hm
      exact .inl (h.mem_cons_linked hj hm)

/-- **Step lemma for the invariant.** -/
theorem Write.sound (hw : l.Write l') (h : l.Sound) : l'.Sound := by
  cases hw with
  | link here inRange above below => exact h.sound_withNode here inRange above below
  | mark here inRange ne_head => exact h.setLink_mark here inRange ne_head
  | unlink here frozen => exact h.setLink_unlink here frozen
  | retire marked unlinked => exact h.retire _

/-- **Step lemma for what lasts.** -/
theorem Write.later (hw : l.Write l') (h : l.Sound) : l.Later l' := by
  cases hw with
  | @link pred curr a here inRange above below =>
    refine ⟨by simp, fun hi => element_withNode_of_ne (Nat.ne_of_lt hi), fun {i} hm => ?_,
      fun {i} hi hn hn' => hn ?_⟩
    · -- `pred` is not deleted, so its link was not a frozen one
      refine link_withNode_of_ne inRange (Nat.ne_of_lt (lt_size_of_marked hm)) ?_
      rintro rfl
      rw [here] at hm
      cases hm
    · -- whoever is linked now was linked before, or is the new node
      have hmem := (h.mem_cons_linked_withNode here inRange above below).mp
        (List.mem_cons_of_mem _ hn')
      have hold := hmem.resolve_right (Nat.ne_of_lt hi)
      refine (List.mem_cons.mp hold).resolve_left ?_
      rintro rfl
      exact (h.sound_withNode here inRange above below).head_notMem_linked hn'
  | @mark i succ here inRange ne_head =>
    refine ⟨by simp, fun _ => element_setLink .., fun {j} hm => ?_, fun {j} hj hn => ?_⟩
    · -- a node is marked once: the link written was not a frozen one
      refine link_setLink_of_ne inRange ?_
      rintro rfl
      rw [here] at hm
      cases hm
    · rw [linked_mark here inRange]
      exact hn
  | @unlink pred curr succ here frozen =>
    refine ⟨by simp, fun _ => element_setLink .., fun {j} hm => ?_, fun {j} hj hn hn' => hn ?_⟩
    · -- the same for the link of `pred`, which is live
      refine link_setLink_of_ne (lt_size_of_target (by rw [here])) ?_
      rintro rfl
      rw [here] at hm
      cases hm
    · have hmem := (h.mem_cons_linked_unlink here frozen).mp (List.mem_cons_of_mem _ hn')
      refine (List.mem_cons.mp hmem.1).resolve_left ?_
      rintro rfl
      exact (h.setLink_unlink here frozen).head_notMem_linked hn'
  | @retire i marked unlinked =>
    refine ⟨Nat.le_refl _, fun _ => rfl, fun _ => rfl, fun {j} _ hn => ?_⟩
    rw [linked_retire]
    exact hn

/-- **Run lemma.** Whatever a sound list evolves to is sound, and is one of its later states. -/
theorem Sound.evolves (h : l.Sound) (he : l.Evolves l') : l'.Sound ∧ l.Later l' := by
  induction he with
  | refl => exact ⟨h, Later.refl l⟩
  | tail _ hw ih => exact ⟨hw.sound ih.1, ih.2.trans (hw.later ih.1)⟩

end SplitOrder.SortedList
