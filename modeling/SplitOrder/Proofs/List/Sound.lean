import SplitOrder.Proofs.FiniteSet
import SplitOrder.Proofs.List.Trail

/-!
# Sound lists

What holds of a sorted list at every moment, in the middle of an operation as well as between two.
The invariant has a local half and a global one.

* `Ordered` is local: a link leads from a node to one with a greater element. It says nothing about
  who stands on the list, and it covers the nodes that were taken off, whose links readers may
  still follow. Since elements only grow along the links and there are finitely many nodes, every
  way ends (`Ordered.leads_trail`), and all that is met on it is ascending
  (`Ordered.pairwise_cons_trail`).
* `Sound` adds that an unmarked node is never lost: it is reached from the head. The mark alone
  therefore decides whether an element is on the list, which is what `Holds` expresses.

The contents of a sound list are described in two ways: by `Holds`, node by node, and by
`SortedList.live`, the elements in order. `Sound.mem_live_iff` and `Ordered.pairwise_live` connect
them.
-/

namespace SplitOrder.SortedList

variable {α : Type _}

/-- A node holds an element of the list: the element is stored there and is not deleted. -/
def Holds (l : SortedList α) (i : NodeId) (a : α) : Prop :=
  (l.node i).element? = some a ∧ (l.link i).marked = false

/-- A name that was not given out reads as an unmarked node without element and successor. -/
theorem node_of_size_le {l : SortedList α} {i : NodeId} (h : l.nodes.size ≤ i) : l.node i = {} := by
  simp [node, Array.getElem?_eq_none h]

/-- A node of which anything is known has a name that was given out. -/
theorem lt_size_of_element {l : SortedList α} {i : NodeId} {a : α}
    (h : (l.node i).element? = some a) : i < l.nodes.size := by
  refine Nat.lt_of_not_le fun hi => ?_
  rw [node_of_size_le hi] at h
  cases h

theorem Holds.lt_size {l : SortedList α} {i : NodeId} {a : α} (h : l.Holds i a) :
    i < l.nodes.size :=
  lt_size_of_element h.1

theorem Holds.unique {l : SortedList α} {i : NodeId} {a b : α} (h : l.Holds i a)
    (hb : (l.node i).element? = some b) : a = b :=
  Option.some.inj (h.1.symm.trans hb)

theorem lt_size_of_target {l : SortedList α} {i j : NodeId}
    (h : (l.link i).target = some j) : i < l.nodes.size := by
  refine Nat.lt_of_not_le fun hi => ?_
  rw [link_eq, node_of_size_le hi] at h
  cases h

theorem lt_size_of_marked {l : SortedList α} {i : NodeId}
    (h : (l.link i).marked = true) : i < l.nodes.size := by
  refine Nat.lt_of_not_le fun hi => ?_
  rw [link_eq, node_of_size_le hi] at h
  cases h

variable [Ord α]

/-- The element of the first node is less than that of the second. The head, which has no element,
comes before every node that has one. -/
def Before (l : SortedList α) (i j : NodeId) : Prop :=
  ∃ b, (l.node j).element? = some b ∧ ∀ a, (l.node i).element? = some a → compare a b = .lt

/-- **The local invariant.** Every link leads to a node with a greater element. -/
structure Ordered (l : SortedList α) : Prop where
  /-- There is a head. -/
  head_lt : head < l.nodes.size
  /-- The head carries no element. -/
  head_bare : (l.node head).element? = none
  /-- All other nodes do. -/
  element : ∀ {i}, i < l.nodes.size → i ≠ head → ∃ a, (l.node i).element? = some a
  /-- Elements grow along the links. -/
  before : ∀ {i j}, (l.link i).target = some j → l.Before i j

/-- **The invariant.** In addition, the nodes that are not deleted stand on the list. -/
structure Sound (l : SortedList α) : Prop extends l.Ordered where
  /-- The head is never deleted. -/
  head_unmarked : (l.link head).marked = false
  /-- Every other node that is not deleted is linked. -/
  linked : ∀ {i}, i < l.nodes.size → i ≠ head → (l.link i).marked = false → i ∈ l.linked

theorem sound_empty : (∅ : SortedList α).Sound where
  head_lt := Nat.one_pos
  head_bare := rfl
  element := fun hi hne => absurd (Nat.lt_one_iff.mp hi) hne
  before := by
    intro i j h
    obtain rfl : i = 0 := Nat.lt_one_iff.mp (lt_size_of_target h)
    cases h
  head_unmarked := rfl
  linked := fun hi hne => absurd (Nat.lt_one_iff.mp hi) hne

omit [Ord α] in
theorem not_holds_empty {i : NodeId} {a : α} : ¬ (∅ : SortedList α).Holds i a := by
  intro h
  obtain rfl : i = 0 := Nat.lt_one_iff.mp h.lt_size
  cases h.1

variable {l l' : SortedList α} {i j k : NodeId} {a b : α}

theorem Before.lt_size (h : l.Before i j) : j < l.nodes.size := by
  obtain ⟨b, hb, -⟩ := h
  exact lt_size_of_element hb

/-- `Before` on two nodes with elements is the order of the elements. -/
theorem Before.compare_eq (h : l.Before i j) (ha : (l.node i).element? = some a)
    (hb : (l.node j).element? = some b) : compare a b = .lt := by
  obtain ⟨b', hb', hlt⟩ := h
  obtain rfl : b' = b := Option.some.inj (hb'.symm.trans hb)
  exact hlt a ha

theorem Ordered.ne_head_of_element (h : l.Ordered) (ha : (l.node i).element? = some a) :
    i ≠ head := by
  rintro rfl
  rw [h.head_bare] at ha
  cases ha

theorem Sound.mem_linked (h : l.Sound) (ha : l.Holds i a) : i ∈ l.linked :=
  h.linked ha.lt_size (h.ne_head_of_element ha.1) ha.2

/-- A node that is not deleted is the head, or linked behind it. -/
theorem Sound.mem_cons_linked (h : l.Sound) (hi : i < l.nodes.size)
    (hm : (l.link i).marked = false) : i ∈ head :: l.linked := by
  by_cases hne : i = head
  · exact hne ▸ List.mem_cons_self
  · exact List.mem_cons_of_mem _ (h.linked hi hne hm)

omit [Ord α] in
/-- What stands on a list are the elements of its nodes, with their marks. -/
theorem mem_chain_iff {item : α × Bool} : item ∈ l.chain ↔
    ∃ i ∈ l.linked, (l.node i).element? = some item.1 ∧ (l.link i).marked = item.2 := by
  rw [chain, List.mem_filterMap]
  refine exists_congr fun i => and_congr_right fun _ => ?_
  rw [Option.map_eq_some_iff]
  constructor
  · rintro ⟨a, ha, rfl⟩
    exact ⟨ha, rfl⟩
  · rintro ⟨ha, hm⟩
    exact ⟨item.1, ha, by rw [hm]⟩

/-- The elements on a sound list are those that its nodes hold. -/
theorem Sound.mem_live_iff (h : l.Sound) : a ∈ l.live ↔ ∃ i, l.Holds i a := by
  simp only [live, List.mem_map, List.mem_filter, mem_chain_iff]
  constructor
  · rintro ⟨item, ⟨⟨i, -, ha, hm⟩, hlive⟩, rfl⟩
    exact ⟨i, ha, by simpa [← hm] using hlive⟩
  · -- here soundness is needed: a node that holds an element is linked
    rintro ⟨i, hi⟩
    exact ⟨(a, false), ⟨⟨i, h.mem_linked hi, hi⟩, rfl⟩, rfl⟩

variable [Std.TransOrd α]

theorem not_before_self : ¬ l.Before i i := by
  rintro ⟨b, hb, hlt⟩
  exact absurd (Std.compare_self.symm.trans (hlt b hb)) (by decide)

theorem Before.trans (h : l.Before i j) (h' : l.Before j k) : l.Before i k := by
  obtain ⟨b, hb, hlt⟩ := h
  obtain ⟨c, hc, hlt'⟩ := h'
  exact ⟨c, hc, fun a ha => Std.TransCmp.lt_trans (hlt a ha) (hlt' b hb)⟩

/-! ### Ways on an ordered list -/

theorem Ordered.pairwise_cons_linkedFrom (h : l.Ordered) (n : Nat) (i : NodeId) :
    (i :: l.linkedFrom n (l.link i).target).Pairwise l.Before := by
  -- on the steps; the node in front is part of the statement, so that its order to all others
  -- follows from the one to the next
  induction n generalizing i with
  | zero => simp [linkedFrom]
  | succ n ih =>
    cases ht : (l.link i).target with
    | none => simp [linkedFrom]
    | some j =>
      rw [linkedFrom]
      have hij : l.Before i j := h.before ht
      refine List.pairwise_cons.mpr ⟨fun k hk => ?_, ih j⟩
      rcases List.mem_cons.mp hk with rfl | hk
      · exact hij
      · exact hij.trans (List.rel_of_pairwise_cons (ih j) hk)

/-- What is met behind a node is ascending, and greater than the node. -/
theorem Ordered.pairwise_cons_trail (h : l.Ordered) (i : NodeId) :
    (i :: l.trail i).Pairwise l.Before :=
  h.pairwise_cons_linkedFrom l.bound i

theorem Ordered.before_of_mem_trail (h : l.Ordered) (hj : j ∈ l.trail i) : l.Before i j :=
  List.rel_of_pairwise_cons (h.pairwise_cons_trail i) hj

theorem Ordered.nodup_cons_trail (h : l.Ordered) (i : NodeId) : (i :: l.trail i).Nodup :=
  (h.pairwise_cons_trail i).imp fun hij => by rintro rfl; exact not_before_self hij

/-- There are no more nodes behind a node than there are nodes. -/
theorem Ordered.length_trail_lt (h : l.Ordered) (i : NodeId) : (l.trail i).length < l.bound := by
  -- ascending nodes are distinct, and all of them have names below `size`
  have hsub : l.trail i ⊆ List.range l.nodes.size := fun j hj =>
    List.mem_range.mpr (h.before_of_mem_trail hj).lt_size
  have hle := (List.nodup_cons.mp (h.nodup_cons_trail i)).2.length_le_of_subset hsub
  rw [List.length_range] at hle
  exact Nat.lt_succ_of_le hle

/-- **Every way ends.** The trail of a node is the whole way behind it. -/
theorem Ordered.leads_trail (h : l.Ordered) (i : NodeId) :
    l.Leads (l.link i).target (l.trail i) :=
  leads_linkedFrom (h.length_trail_lt i)

/-- Whatever the links lead through is the trail. -/
theorem Ordered.trail_eq (h : l.Ordered) {is : List NodeId} (h' : l.Leads (l.link i).target is) :
    l.trail i = is :=
  (h.leads_trail i).unique h'

/-- A trail goes on from each of its nodes along the trail of that node. -/
theorem Ordered.exists_trail_eq_append (h : l.Ordered) (hj : j ∈ l.trail i) :
    ∃ xs, l.trail i = xs ++ j :: l.trail j := by
  obtain ⟨xs, ys, hxy⟩ := List.append_of_mem hj
  have hl := h.leads_trail i
  rw [hxy] at hl
  exact ⟨xs, by rw [hxy, h.trail_eq hl.suffix]⟩

theorem Ordered.trail_of_target_some (h : l.Ordered) (ht : (l.link i).target = some j) :
    l.trail i = j :: l.trail j := by
  refine h.trail_eq ?_
  rw [ht]
  exact .step (h.leads_trail j)

/-- The nodes from the head on, split at one of them. -/
theorem Ordered.exists_cons_linked_eq_append (h : l.Ordered) (hi : i ∈ head :: l.linked) :
    ∃ xs, head :: l.linked = xs ++ i :: l.trail i := by
  rcases List.mem_cons.mp hi with rfl | hi
  · exact ⟨[], rfl⟩
  · obtain ⟨xs, hxs⟩ := h.exists_trail_eq_append (i := head) hi
    exact ⟨head :: xs, by rw [← trail_head, hxs]; rfl⟩

/-! ### The nodes on a list -/

theorem Ordered.pairwise_linked (h : l.Ordered) : l.linked.Pairwise l.Before :=
  (List.pairwise_cons.mp (h.pairwise_cons_trail head)).2

theorem Ordered.head_notMem_linked (h : l.Ordered) : head ∉ l.linked :=
  (List.nodup_cons.mp (h.nodup_cons_trail head)).1

theorem Ordered.lt_size_of_mem_linked (h : l.Ordered) (hi : i ∈ l.linked) : i < l.nodes.size :=
  (h.before_of_mem_trail (i := head) hi).lt_size

theorem Ordered.element_of_mem_linked (h : l.Ordered) (hi : i ∈ l.linked) :
    ∃ a, (l.node i).element? = some a := by
  obtain ⟨a, ha, -⟩ := h.before_of_mem_trail (i := head) hi
  exact ⟨a, ha⟩

/-- Two nodes from the head on are the same, or one comes before the other. -/
theorem Ordered.eq_or_before (h : l.Ordered) (hi : i ∈ head :: l.linked)
    (hj : j ∈ head :: l.linked) : i = j ∨ j ∈ l.trail i ∨ i ∈ l.trail j := by
  obtain ⟨xs, hxs⟩ := h.exists_cons_linked_eq_append hi
  rw [hxs] at hj
  rcases List.mem_append.mp hj with hj | hj
  · -- `j` stands in front, so `i` is met on its trail
    right; right
    obtain ⟨ys, zs, rfl⟩ := List.append_of_mem hj
    have hl : l.Leads (some head) (ys ++ j :: (zs ++ i :: l.trail i)) := by
      have := Leads.step (h.leads_trail head)
      rw [trail_head, hxs] at this
      simpa using this
    rw [h.trail_eq hl.suffix]
    simp
  · rcases List.mem_cons.mp hj with rfl | hj
    · exact .inl rfl
    · exact .inr (.inl hj)

/-! ### The contents of a list -/

/-- What stands on a list is strictly ascending. -/
theorem Ordered.pairwise_chain (h : l.Ordered) :
    l.chain.Pairwise fun p q => compare p.1 q.1 = .lt := by
  rw [chain, List.pairwise_filterMap]
  refine h.pairwise_linked.imp fun {i j} hij p hp q hq => ?_
  obtain ⟨a, ha, rfl⟩ := Option.map_eq_some_iff.mp hp
  obtain ⟨b, hb, rfl⟩ := Option.map_eq_some_iff.mp hq
  exact hij.compare_eq ha hb

/-- The elements on a list are strictly ascending. -/
theorem Ordered.pairwise_live (h : l.Ordered) :
    l.live.Pairwise fun a b => compare a b = .lt :=
  List.pairwise_map.mpr (h.pairwise_chain.filter _)

theorem Ordered.nodup_live (h : l.Ordered) : l.live.Nodup :=
  nodup_of_pairwise_lt h.pairwise_live

/-- Two lists whose nodes hold the same elements are listings of each other, up to their order. -/
theorem Sound.live_perm (h : l.Sound) (h' : l'.Sound)
    (hiff : ∀ b, (∃ j, l'.Holds j b) ↔ ∃ j, l.Holds j b) : l'.live.Perm l.live := by
  refine (List.perm_ext_iff_of_nodup h'.nodup_live h.nodup_live).mpr fun b => ?_
  rw [h'.mem_live_iff, h.mem_live_iff, hiff]

/-- A list with one element more. -/
theorem Sound.live_perm_cons (h : l.Sound) (h' : l'.Sound) (hnew : ∀ j, ¬ l.Holds j a)
    (hiff : ∀ b, (∃ j, l'.Holds j b) ↔ b = a ∨ ∃ j, l.Holds j b) : l'.live.Perm (a :: l.live) := by
  have hnodup : (a :: l.live).Nodup := by
    refine List.nodup_cons.mpr ⟨fun hmem => ?_, h.nodup_live⟩
    obtain ⟨j, hj⟩ := h.mem_live_iff.mp hmem
    exact hnew j hj
  refine (List.perm_ext_iff_of_nodup h'.nodup_live hnodup).mpr fun b => ?_
  rw [h'.mem_live_iff, List.mem_cons, h.mem_live_iff, hiff]

end SplitOrder.SortedList
