import SplitOrder.List.Basic

/-!
# Cursors

A cursor walks along the links of a sorted list and steps over deleted nodes. It holds one node,
which it has not yet yielded, and nothing prevents the list from changing under it: the node may
be deleted, unlinked and retired. Its link then still leads on, possibly over other deleted nodes,
and meets the list again further down.

* `SortedList.cursor` — a cursor at the first element.
* `Cursor.settle` — over deleted nodes to the next live one.
* `Cursor.hasNext`, `peek`, `next` — the operations; the first two do move the cursor, over
  deleted nodes only.
-/

namespace SplitOrder

/-- A position on a list. -/
structure Cursor where
  /-- The next candidate, which may be deleted by now; at the end there is none. -/
  candidate : Option NodeId
deriving DecidableEq, Repr

/-- A cursor at the first node. -/
def SortedList.cursor (l : SortedList α) : Cursor :=
  ⟨(l.link head).target⟩

namespace Cursor

variable {α : Type _}

/-- The first node from a candidate on that is not deleted, within the given number of steps. -/
def firstLive (l : SortedList α) : Nat → Option NodeId → Checked (Option NodeId)
  | 0, _ => .error .endless
  | _ + 1, none => .ok none
  | steps + 1, some i =>
    let link := l.link i
    if link.marked then firstLive l steps link.target else .ok (some i)

def settle (c : Cursor) (l : SortedList α) : Checked Cursor := do
  return ⟨← firstLive l l.bound c.candidate⟩

def hasNext (c : Cursor) (l : SortedList α) : Checked (Bool × Cursor) := do
  let c ← c.settle l
  return (c.candidate.isSome, c)

def peek (c : Cursor) (l : SortedList α) : Checked (Option α × Cursor) := do
  let c ← c.settle l
  match c.candidate with
  | none => return (none, c)
  | some i => return (some (← l.element i), c)

def next (c : Cursor) (l : SortedList α) : Checked (Option α × Cursor) := do
  let c ← c.settle l
  match c.candidate with
  | none => return (none, c)
  | some i => return (some (← l.element i), ⟨(l.link i).target⟩)

/-- The next element, or a refusal at the end. -/
def demand (c : Cursor) (l : SortedList α) : Checked (Except Refusal α × Cursor) := do
  match ← c.next l with
  | (some a, c) => return (.ok a, c)
  | (none, c) => return (.error .noSuchElement, c)

/-- A cursor at the end, wherever it was. -/
def close (_ : Cursor) : Cursor :=
  ⟨none⟩

/-- The given elements, the last one first, and behind them all that are left within the given
number of steps, with the cursor at the end. -/
def drainWithin (l : SortedList α) : Nat → List α → Cursor → Checked (List α × Cursor)
  | 0, _, _ => .error .endless
  | steps + 1, items, c => do
    match ← c.next l with
    | (none, c) => return (items.reverse, c)
    | (some a, c) => drainWithin l steps (a :: items) c

/-- All elements that are left, and the cursor behind them. -/
def drain (c : Cursor) (l : SortedList α) : Checked (List α × Cursor) :=
  drainWithin l l.bound [] c

end Cursor

end SplitOrder
