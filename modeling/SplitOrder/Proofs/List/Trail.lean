import SplitOrder.List.Basic

/-!
# Trails

The nodes met when the links are followed to the end. `SortedList.linkedFrom` computes them within
a number of steps; the relation `Leads` says what they are without one, so that a proof never
counts steps. The two meet in `leads_linkedFrom`: a walk that did not use up its steps has reached
the end. A write to one link changes a way only from that node on, which is `Leads.splice`.
-/

namespace SplitOrder.SortedList

variable {α : Type _}

/-- The way along the links from `o` passes through exactly the nodes `is`, in this order, and then
ends. -/
inductive Leads (l : SortedList α) : Option NodeId → List NodeId → Prop
  /-- At the end there is nothing left. -/
  | done : Leads l none []
  /-- A node, and behind it the way from its target. -/
  | step {i : NodeId} {is : List NodeId} (h : Leads l (l.link i).target is) :
      Leads l (some i) (i :: is)

/-- The nodes behind a node, whether or not it stands on the list itself. -/
def trail (l : SortedList α) (i : NodeId) : List NodeId :=
  l.linkedFrom l.bound (l.link i).target

@[simp] theorem trail_head (l : SortedList α) : l.trail head = l.linked := rfl

variable {l l' : SortedList α} {o : Option NodeId} {i : NodeId} {is js xs ys zs : List NodeId}

theorem trail_of_target_none (ht : (l.link i).target = none) : l.trail i = [] := by
  rw [trail, ht, bound, linkedFrom]

/-- There is only one way along the links. -/
theorem Leads.unique (h : l.Leads o is) (h' : l.Leads o js) : is = js := by
  -- on the first way; the second one can only take the same step
  induction h generalizing js with
  | done => cases h'; rfl
  | step _ ih =>
    cases h' with
    | step h' => rw [ih h']

/-- A way begins at the first of its nodes. -/
theorem Leads.eq_head? (h : l.Leads o is) : o = is.head? := by
  cases h <;> rfl

/-- A walk that stopped before its steps were used up stopped at the end. -/
theorem leads_linkedFrom {n : Nat} (h : (l.linkedFrom n o).length < n) :
    l.Leads o (l.linkedFrom n o) := by
  induction n generalizing o with
  | zero => exact absurd h (Nat.not_lt_zero _)
  | succ n ih =>
    cases o with
    | none => exact .done
    | some i =>
      -- one step is used up, for one node
      rw [linkedFrom, List.length_cons] at h
      exact .step (ih (by omega))

/-- From a node on the way the rest of the way goes on. -/
theorem Leads.suffix (h : l.Leads o (xs ++ i :: ys)) : l.Leads (l.link i).target ys := by
  induction xs generalizing o with
  | nil =>
    cases h with
    | step h => exact h
  | cons x xs ih =>
    cases h with
    | step h => exact ih h

/-- **Splicing.** If the targets in front of a node stay what they were, the way to it stays too,
and goes on wherever the node leads now. -/
theorem Leads.splice (h : l.Leads o (xs ++ i :: ys))
    (same : ∀ j ∈ xs, (l'.link j).target = (l.link j).target)
    (h' : l'.Leads (l'.link i).target zs) : l'.Leads o (xs ++ i :: zs) := by
  induction xs generalizing o with
  | nil =>
    -- the node itself: what was behind it does not matter any more
    cases h with
    | step _ => exact .step h'
  | cons x xs ih =>
    cases h with
    | step h =>
      refine .step ?_
      rw [same x List.mem_cons_self]
      exact ih h fun j hj => same j (List.mem_cons_of_mem x hj)

/-- A way depends on nothing but the targets of its own nodes. -/
theorem Leads.congr (h : l.Leads o is)
    (same : ∀ j ∈ is, (l'.link j).target = (l.link j).target) : l'.Leads o is := by
  induction h with
  | done => exact .done
  | @step i is _ ih =>
    refine .step ?_
    rw [same i List.mem_cons_self]
    exact ih fun j hj => same j (List.mem_cons_of_mem i hj)

/-- If all targets agree, so do all walks. -/
theorem linkedFrom_congr (same : ∀ j, (l'.link j).target = (l.link j).target) (n : Nat)
    (o : Option NodeId) : l'.linkedFrom n o = l.linkedFrom n o := by
  induction n generalizing o with
  | zero => rfl
  | succ n ih =>
    cases o with
    | none => rfl
    | some i => rw [linkedFrom, linkedFrom, same, ih]

end SplitOrder.SortedList
