import SplitOrder.List.Listing
import SplitOrder.Proofs.Checked
import SplitOrder.Proofs.List.Sound

/-!
# What a walk with a cursor yields

A cursor at a node yields the elements of the nodes ahead of it that are not deleted, in order.
The statements here are about any way along the links that ends (`Leads`), whether or not it begins
on the list, since a cursor may stand on a node that was taken off.

* `liveOf` — the elements on a way that are not deleted.
* `Cursor.Ahead` — the nodes ahead of a cursor.
* `Cursor.Passes` — what a call does to a cursor: it passes some of the nodes ahead, and the others
  stay ahead.
* `settle_spec`, `hasNext_spec`, `peek_spec`, `next_spec` — which of them a call passes. Only `next`
  passes an element, and that is the first one.
* `drainWithin_spec` — draining a cursor yields them all, and nothing is ahead of it then.
* `toList_eq`, `length_eq` — hence a listing of a sound list is `SortedList.live`.
-/

namespace SplitOrder

namespace SortedList

variable {α : Type _}

/-- The elements of the given nodes that are not deleted. -/
def liveOf (l : SortedList α) (is : List NodeId) : List α :=
  ((is.filterMap fun i => (l.node i).element?.map fun a => (a, (l.link i).marked)).filter
    fun item => !item.2).map Prod.fst

theorem liveOf_cons_of_marked {l : SortedList α} {i : NodeId} (is : List NodeId)
    (hm : (l.link i).marked = true) : l.liveOf (i :: is) = l.liveOf is := by
  unfold liveOf
  rw [List.filterMap_cons]
  cases (l.node i).element? with
  | none => rfl
  | some a => simp [hm]

theorem liveOf_cons_of_holds {l : SortedList α} {i : NodeId} {a : α} (is : List NodeId)
    (ha : l.Holds i a) : l.liveOf (i :: is) = a :: l.liveOf is := by
  unfold liveOf
  rw [List.filterMap_cons, ha.1]
  simp [ha.2]

theorem liveOf_append (l : SortedList α) (is js : List NodeId) :
    l.liveOf (is ++ js) = l.liveOf is ++ l.liveOf js := by
  simp [liveOf]

theorem mem_liveOf_iff {l : SortedList α} {is : List NodeId} {a : α} :
    a ∈ l.liveOf is ↔ ∃ i ∈ is, l.Holds i a := by
  simp only [liveOf, List.mem_map, List.mem_filter, List.mem_filterMap, Option.map_eq_some_iff]
  constructor
  · rintro ⟨_, ⟨⟨i, hi, b, hb, rfl⟩, hm⟩, rfl⟩
    exact ⟨i, hi, hb, by simpa using hm⟩
  · rintro ⟨i, hi, ha⟩
    exact ⟨_, ⟨⟨i, hi, a, ha.1, rfl⟩, by simp [ha.2]⟩, rfl⟩

theorem length_liveOf_le (l : SortedList α) (is : List NodeId) :
    (l.liveOf is).length ≤ is.length := by
  unfold liveOf
  rw [List.length_map]
  exact Nat.le_trans (List.length_filter_le ..) (List.length_filterMap_le ..)

end SortedList

namespace Cursor

open SortedList

variable {α : Type} {l : SortedList α} {o : Option NodeId} {c : Cursor} {is : List NodeId}

/-- The nodes ahead of a cursor: the links lead through them to the end, there are no more than a
walk makes steps, and each of them has an element. -/
structure Ahead (l : SortedList α) (c : Cursor) (is : List NodeId) : Prop where
  leads : l.Leads c.candidate is
  length_lt : is.length < l.bound
  element : ∀ i ∈ is, ∃ a, (l.node i).element? = some a

/-- **The effect of a call.** The cursor passes over some of the nodes ahead, which hold the
elements `as`, and has the nodes `js` ahead then. -/
structure Passes (l : SortedList α) (is : List NodeId) (as : List α) (c' : Cursor)
    (js : List NodeId) : Prop where
  passed : ∃ xs, is = xs ++ js ∧ l.liveOf xs = as
  ahead : Ahead l c' js

variable {c' c'' : Cursor} {js ks : List NodeId} {as bs : List α}

/-- To move along the way ahead is to pass the nodes in between. -/
theorem Ahead.passes (xs : List NodeId) (h : Ahead l c (xs ++ js))
    (hleads : l.Leads c'.candidate js) : Passes l (xs ++ js) (l.liveOf xs) c' js where
  passed := ⟨xs, rfl, rfl⟩
  ahead := {
    leads := hleads
    length_lt := by
      have hlt := h.length_lt
      rw [List.length_append] at hlt
      omega
    element := fun i hi => h.element i (List.mem_append_right xs hi) }

theorem Passes.trans (h : Passes l is as c' js) (h' : Passes l js bs c'' ks) :
    Passes l is (as ++ bs) c'' ks where
  passed := by
    obtain ⟨xs, rfl, rfl⟩ := h.passed
    obtain ⟨ys, rfl, rfl⟩ := h'.passed
    exact ⟨xs ++ ys, (List.append_assoc ..).symm, liveOf_append ..⟩
  ahead := h'.ahead

/-- What is passed comes first among the elements ahead, and the others are still ahead. -/
theorem Passes.liveOf_eq (h : Passes l is as c' js) : l.liveOf is = as ++ l.liveOf js := by
  obtain ⟨xs, rfl, rfl⟩ := h.passed
  exact liveOf_append ..

/-- A way that begins at a node begins with it. -/
theorem Ahead.eq_cons {i : NodeId} (h : Ahead l c is) (hi : c.candidate = some i) :
    ∃ js, is = i :: js ∧ l.Leads (l.link i).target js := by
  have hleads := h.leads
  rw [hi] at hleads
  cases hleads with
  | step hleads => exact ⟨_, rfl, hleads⟩

/-- **Settling drops nothing.** A cursor passes over deleted nodes to the first one that is not, or
to the end. -/
theorem firstLive_spec {n : Nat} (h : l.Leads o is) (hn : is.length < n) :
    ∃ r xs js, firstLive l n o = .ok r ∧ is = xs ++ js ∧ l.liveOf xs = [] ∧ l.Leads r js ∧
      ∀ i, r = some i → (l.link i).marked = false := by
  induction h generalizing n with
  | done =>
    obtain ⟨n, rfl⟩ : ∃ m, n = m + 1 := ⟨n - 1, by omega⟩
    exact ⟨none, [], [], rfl, rfl, rfl, .done, fun _ hi => nomatch hi⟩
  | @step i is h ih =>
    rw [List.length_cons] at hn
    obtain ⟨n, rfl⟩ : ∃ m, n = m + 1 := ⟨n - 1, by omega⟩
    rw [firstLive]
    cases hm : (l.link i).marked with
    | true =>
      -- a deleted node shows no element, so none is dropped with it
      obtain ⟨r, xs, js, hr, rfl, hdropped, hleads, hmark⟩ := ih (n := n) (by omega)
      refine ⟨r, i :: xs, js, by simpa using hr, rfl, ?_, hleads, hmark⟩
      rw [liveOf_cons_of_marked xs hm, hdropped]
    | false =>
      refine ⟨some i, [], i :: is, by simp, rfl, rfl, .step h, fun j hj => ?_⟩
      obtain rfl : i = j := Option.some.inj hj
      exact hm

/-- A cursor at the end, or at a node that holds an element. -/
def Settled (l : SortedList α) (c : Cursor) (is : List NodeId) : Prop :=
  (c.candidate = none ∧ is = []) ∨
    ∃ i a js, c.candidate = some i ∧ is = i :: js ∧ l.Holds i a

theorem Settled.eq_nil (h : Settled l c is) (hnil : l.liveOf is = []) : is = [] := by
  obtain ⟨-, rfl⟩ | ⟨i, a, js, -, rfl, ha⟩ := h
  · rfl
  · rw [liveOf_cons_of_holds js ha] at hnil
    cases hnil

/-- A settled cursor stands at the first of the elements ahead. -/
theorem Settled.exists_holds {a : α} (h : Settled l c is) (hcons : l.liveOf is = a :: as) :
    ∃ i, c.candidate = some i ∧ l.Holds i a := by
  obtain ⟨-, rfl⟩ | ⟨i, b, js, hi, rfl, hb⟩ := h
  · cases hcons
  · rw [liveOf_cons_of_holds js hb] at hcons
    cases hcons
    exact ⟨i, hi, hb⟩

theorem settle_spec (h : Ahead l c is) :
    ∃ c' js, c.settle l = .ok c' ∧ Passes l is [] c' js ∧ Settled l c' js := by
  obtain ⟨r, xs, js, hr, rfl, hdropped, hleads, hmark⟩ := firstLive_spec h.leads h.length_lt
  have hpasses : Passes l (xs ++ js) (l.liveOf xs) ⟨r⟩ js := h.passes xs hleads
  rw [hdropped] at hpasses
  refine ⟨⟨r⟩, js, ?_, hpasses, ?_⟩
  · rw [settle, hr]
    rfl
  · cases hleads with
    | done => exact .inl ⟨rfl, rfl⟩
    | @step i js hleads =>
      obtain ⟨a, ha⟩ := hpasses.ahead.element i List.mem_cons_self
      exact .inr ⟨i, a, js, rfl, rfl, ha, hmark i rfl⟩

theorem Passes.liveOf_eq_cons {i : NodeId} {a : α} (h : Passes l is [] c' (i :: js))
    (ha : l.Holds i a) : l.liveOf is = a :: l.liveOf js := by
  rw [h.liveOf_eq, liveOf_cons_of_holds js ha]
  rfl

theorem hasNext_spec (h : Ahead l c is) :
    ∃ c' js, c.hasNext l = .ok (!(l.liveOf is).isEmpty, c') ∧ Passes l is [] c' js ∧
      Settled l c' js := by
  obtain ⟨c', js, hsettle, hpasses, hsettled⟩ := settle_spec h
  refine ⟨c', js, ?_, hpasses, hsettled⟩
  obtain ⟨hend, rfl⟩ | ⟨i, a, js', hi, rfl, ha⟩ := hsettled
  · rw [hasNext, hsettle, Checked.ok_bind, hend, hpasses.liveOf_eq]
    rfl
  · have hcons := hpasses.liveOf_eq_cons ha
    rw [hasNext, hsettle, Checked.ok_bind, hi, hcons]
    rfl

/-- A look at the next element moves a cursor over deleted nodes only. -/
theorem peek_spec (h : Ahead l c is) :
    ∃ c' js, c.peek l = .ok ((l.liveOf is).head?, c') ∧ Passes l is [] c' js ∧
      Settled l c' js := by
  obtain ⟨c', js, hsettle, hpasses, hsettled⟩ := settle_spec h
  refine ⟨c', js, ?_, hpasses, hsettled⟩
  obtain ⟨hend, rfl⟩ | ⟨i, a, js', hi, rfl, ha⟩ := hsettled
  · rw [peek, hsettle, Checked.ok_bind, hend, hpasses.liveOf_eq]
    rfl
  · have hcons := hpasses.liveOf_eq_cons ha
    rw [peek, hsettle, Checked.ok_bind, hi, hcons]
    simp only [element_eq_ok_iff.mpr ha.1, Checked.ok_bind]
    rfl

/-- **One element.** A cursor yields the first of the elements ahead, and stands in front of the
others then. -/
theorem next_spec (h : Ahead l c is) :
    ∃ c' js, c.next l = .ok ((l.liveOf is).head?, c') ∧
      Passes l is (l.liveOf is).head?.toList c' js ∧ (l.liveOf is = [] → js = []) := by
  obtain ⟨c₁, js, hsettle, hpasses, ⟨hend, rfl⟩ | ⟨i, a, js', hi, rfl, ha⟩⟩ := settle_spec h
  · -- at the end
    have hnil : l.liveOf is = [] := hpasses.liveOf_eq
    rw [hnil]
    refine ⟨c₁, [], ?_, hpasses, fun _ => rfl⟩
    rw [next, hsettle, Checked.ok_bind, hend]
    rfl
  · -- at a node, and behind it then
    have hcons := hpasses.liveOf_eq_cons ha
    rw [hcons]
    refine ⟨⟨(l.link i).target⟩, js', ?_, ?_, fun hnil => nomatch hnil⟩
    · rw [next, hsettle, Checked.ok_bind, hi]
      simp only [element_eq_ok_iff.mpr ha.1, Checked.ok_bind]
      rfl
    · obtain ⟨js'', heq, hleads⟩ := hpasses.ahead.eq_cons hi
      obtain rfl := (List.cons.inj heq).2
      have hstep : Passes l ([i] ++ js') (l.liveOf [i]) ⟨(l.link i).target⟩ js' :=
        hpasses.ahead.passes [i] hleads
      rw [liveOf_cons_of_holds [] ha] at hstep
      exact hpasses.trans hstep

/-- To demand an element is to ask for the next one. -/
theorem demand_eq {item : Option α} (h : c.next l = .ok (item, c')) :
    c.demand l = .ok (item.elim (.error .noSuchElement) .ok, c') := by
  rw [demand, h]
  cases item <;> rfl

theorem drainWithin_spec {steps : Nat} {items : List α} (h : Ahead l c is)
    (hsteps : (l.liveOf is).length < steps) :
    ∃ c', drainWithin l steps items c = .ok (items.reverse ++ l.liveOf is, c') ∧
      Ahead l c' [] := by
  -- on the steps: each takes one element over, from those ahead to those collected
  induction steps generalizing items c is with
  | zero => exact absurd hsteps (Nat.not_lt_zero _)
  | succ steps ih =>
    obtain ⟨c', js, hnext, hpasses, hend⟩ := next_spec h
    rw [drainWithin, hnext]
    cases hall : l.liveOf is with
    | nil =>
      have hahead := hpasses.ahead
      rw [hend hall] at hahead
      exact ⟨c', by simp, hahead⟩
    | cons a as =>
      have hrest : a :: as = a :: l.liveOf js := by
        have heq := hpasses.liveOf_eq
        rwa [hall] at heq
      obtain rfl := (List.cons.inj hrest).2
      rw [hall, List.length_cons] at hsteps
      obtain ⟨c'', hdrain, hahead⟩ : ∃ c'', drainWithin l steps (a :: items) c' =
          .ok ((a :: items).reverse ++ l.liveOf js, c'') ∧ Ahead l c'' [] :=
        ih hpasses.ahead (Nat.lt_of_succ_lt_succ hsteps)
      refine ⟨c'', ?_, hahead⟩
      simp only [Checked.ok_bind, List.head?_cons]
      rw [hdrain]
      simp

end Cursor

namespace SortedList

variable {α : Type} [Ord α] [Std.TransOrd α] {l : SortedList α}

/-- A cursor at the first element has all linked nodes ahead. -/
theorem Ordered.ahead_cursor (h : l.Ordered) : Cursor.Ahead l l.cursor l.linked where
  leads := h.leads_trail head
  length_lt := h.length_trail_lt head
  element := fun _ hi => h.element_of_mem_linked hi

theorem Ordered.length_live_lt (h : l.Ordered) : l.live.length < l.bound :=
  Nat.lt_of_le_of_lt (length_liveOf_le ..) (h.length_trail_lt head)

/-- **A listing shows what is on the list.** -/
theorem toList_eq (h : l.Ordered) : l.toList = .ok l.live := by
  obtain ⟨c, hdrain, -⟩ : ∃ c, Cursor.drainWithin l l.bound [] l.cursor = .ok (l.live, c) ∧
      Cursor.Ahead l c [] :=
    Cursor.drainWithin_spec h.ahead_cursor h.length_live_lt
  rw [toList, Cursor.drain, hdrain]
  rfl

theorem length_eq (h : l.Ordered) : l.length = .ok l.live.length := by
  rw [length, toList_eq h]
  rfl

theorem isEmpty_eq (h : l.Ordered) : l.isEmpty = .ok l.live.isEmpty := by
  obtain ⟨c, js, hmore, -⟩ := Cursor.hasNext_spec h.ahead_cursor
  rw [isEmpty, hmore, Checked.ok_bind]
  exact congrArg Except.ok (Bool.not_not _)

end SortedList

end SplitOrder
