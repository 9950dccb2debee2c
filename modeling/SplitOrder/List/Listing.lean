import SplitOrder.List.Cursor
import SplitOrder.Text.Layout

/-!
# Listing a sorted list

What can be read off a list by walking it once with a cursor, and the end of a list, when its
nodes are given back.

* `SortedList.toList`, `length`, `isEmpty`, `first`.
* `SortedList.idxOf?` and `get?` — from an element to its position and back. Each walk stops as
  soon as the answer is known.
* `SortedList.dispose` — gives back all nodes, the linked ones first.
-/

namespace SplitOrder.SortedList

variable {α : Type _}

def toList (l : SortedList α) : Checked (List α) := do
  let (items, _) ← l.cursor.drain l
  return items

def length (l : SortedList α) : Checked Nat := do
  return (← l.toList).length

def isEmpty (l : SortedList α) : Checked Bool := do
  let (more, _) ← l.cursor.hasNext l
  return !more

/-- The least element, or a refusal if there is none. -/
def first (l : SortedList α) : Checked (Except Refusal α) := do
  let (item, _) ← l.cursor.demand l
  return item

/-- The position of the element equal to `a` among those left to a cursor, counted from `index`.
The walk ends at the first element that is not below `a`. -/
def idxOfWithin [Ord α] (l : SortedList α) (a : α) : Nat → Nat → Cursor → Checked (Option Nat)
  | 0, _, _ => .error .endless
  | steps + 1, index, c => do
    match ← c.next l with
    | (none, _) => return none
    | (some item, c) =>
      match compare item a with
      | .lt => l.idxOfWithin a steps (index + 1) c
      | .eq => return some index
      | .gt => return none

def idxOf? [Ord α] (l : SortedList α) (a : α) : Checked (Option Nat) :=
  l.idxOfWithin a l.bound 0 l.cursor

/-- The element that a cursor yields after so many others. -/
def getWithin (l : SortedList α) : Nat → Cursor → Checked (Option α)
  | 0, c => do
    let (item, _) ← c.next l
    return item
  | index + 1, c => do
    match ← c.next l with
    | (none, _) => return none
    | (some _, c) => l.getWithin index c

def get? (l : SortedList α) (index : Nat) : Checked (Option α) :=
  l.getWithin index l.cursor

def debug [Text.Legible α] (l : SortedList α) (layout : Text.Layout) : Checked String := do
  return layout.sequence (← l.toList)

/-! ### The end of a list -/

/-- The nodes from a node on, within the given number of steps. A deleted node among them is a
fault: it would be given back here and by the reclaimer. -/
def disposeFrom (l : SortedList α) : Nat → Option NodeId → Checked (List NodeId)
  | 0, _ => .error .endless
  | _ + 1, none => .ok []
  | steps + 1, some i => do
    if (l.link i).marked then .error .markedAtDrop
    else return i :: (← l.disposeFrom steps (l.link i).target)

/-- Gives back all nodes: first the head and the linked ones, then the retired ones. Answers them
in that order. -/
def dispose (l : SortedList α) : Checked (List NodeId) := do
  let linked ← l.disposeFrom l.bound (some head)
  match l.reclaimer.releaseAll with
  | .ok r => return linked ++ r.released
  | .error i => .error (.retiredTwice (.ofNat i))

end SplitOrder.SortedList
