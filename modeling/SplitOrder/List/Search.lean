import SplitOrder.List.Basic

/-!
# Searching a sorted list

Every operation begins with a search: from a start node, the last node below what is sought and
the first one at or above it. On its way the search unlinks each deleted node that it meets, so
that the two nodes it answers stand next to each other. Unlinking fails if the node in front was
deleted or got a new neighbour meanwhile; the search then begins anew.

What is sought is given by a probe, which tells for an element whether it stands before, at or
after the place. A search for an element compares with that element; a search in a table compares
keys without having a value.

* `SortedList.walk` — one pass of the search.
* `SortedList.search` — passes until one arrives.
* `SortedList.lookupAfter` — the node that holds what is sought.
-/

namespace SplitOrder

/-- Where an element stands relative to what is sought. -/
abbrev Probe (α : Type _) := α → Ordering

/-- The search for an element equal to a given one. -/
def Probe.ofElement [Ord α] (a : α) : Probe α :=
  fun item => compare item a

/-- The search for the end of the list: every element stands before it. -/
def Probe.aboveAll : Probe α :=
  fun _ => .lt

/-- Two neighbours on a list: `pred` stands before what is sought, and `curr`, if there is such a
node, does not. -/
structure Location where
  pred : NodeId
  curr : Option NodeId
deriving DecidableEq, Repr

/-- How a pass of the search ends. -/
inductive Pass where
  | arrived (location : Location)
  /-- At a deleted node that could not be unlinked, because the node in front had changed. -/
  | disturbed
deriving DecidableEq, Repr

namespace SortedList

variable {α : Type _}

/-- One pass of the search, standing between `pred` and `curr`: moves on as long as `curr` is
below what is sought and unlinks it if it is deleted. -/
def walk (probe : Probe α) :
    Nat → SortedList α → NodeId → Option NodeId → Checked (Pass × SortedList α)
  | 0, _, _, _ => .error .endless
  | _ + 1, l, pred, none => .ok (.arrived ⟨pred, none⟩, l)
  | steps + 1, l, pred, some curr =>
    let link := l.link curr
    if link.marked then
      -- a deletion that is not completed: complete it and stay behind `pred`
      match l.unlink pred curr link.target with
      | (true, l) => l.walk probe steps pred link.target
      | (false, l) => .ok (.disturbed, l)
    else do
      let item ← l.element curr
      if probe item = .lt then l.walk probe steps curr link.target
      else return (.arrived ⟨pred, some curr⟩, l)

/-- Passes of the search until one arrives, at most so many. -/
def searchWithin (start : NodeId) (probe : Probe α) :
    Nat → SortedList α → Checked (Location × SortedList α)
  | 0, _ => .error .endless
  | passes + 1, l => do
    match ← l.walk probe l.bound start (l.link start).target with
    | (.arrived location, l) => return (location, l)
    -- what was unlinked so far stays unlinked
    | (.disturbed, l) => l.searchWithin start probe passes

/-- The place of what is sought, searched from the node `start`. All deleted nodes between `start`
and the place are unlinked. -/
def search (l : SortedList α) (start : NodeId) (probe : Probe α) :
    Checked (Location × SortedList α) :=
  l.searchWithin start probe l.bound

def matching? (l : SortedList α) (probe : Probe α) : Option NodeId → Checked (Option NodeId)
  | none => .ok none
  | some i => do
    let item ← l.element i
    return if probe item = .eq then some i else none

/-- The node that holds what is sought, searched from the node `start`. -/
def lookupAfter (l : SortedList α) (start : NodeId) (probe : Probe α) :
    Checked (Option NodeId × SortedList α) := do
  let (location, l) ← l.search start probe
  return (← l.matching? probe location.curr, l)

end SortedList

end SplitOrder
