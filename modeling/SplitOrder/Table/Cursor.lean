import SplitOrder.List.Cursor
import SplitOrder.Table.Basic

/-!
# Cursors on tables

A cursor on the list of a table that yields entries and passes over sentinels. To yield an entry
takes two steps, each with the list as it then is: `Cursor.park` moves the cursor to an entry, and
`Cursor.take` reads on from there.

* `Cursor.park`, `take`, `takeNext`.
* `Table.toList` — all entries.
* `Table.debug`, `debugKeys` — the text that shows a table, or the set of its keys.
-/

namespace SplitOrder

namespace Cursor

variable {κ ν : Type _}

/-- Passes over sentinels, within the given number of steps, and tells whether an entry comes
next. -/
def parkWithin (l : SortedList (Entry κ ν)) : Nat → Cursor → Checked (Bool × Cursor)
  | 0, _ => .error .endless
  | steps + 1, c => do
    match ← c.peek l with
    | (none, c) => return (false, c)
    | (some (.pair _ _ _), c) => return (true, c)
    | (some (.sentinel _), c) =>
      -- sentinels are never yielded, so the cursor does not come back for this one
      let (_, c) ← c.next l
      parkWithin l steps c

/-- Moves the cursor to the next entry and tells whether there is one. -/
def park (c : Cursor) (l : SortedList (Entry κ ν)) : Checked (Bool × Cursor) :=
  parkWithin l l.bound c

/-- The key and the value of the next element, if there is one and it is no sentinel. -/
def take (c : Cursor) (l : SortedList (Entry κ ν)) : Checked (Option (κ × ν) × Cursor) := do
  let (entry, c) ← c.next l
  return (entry.bind Entry.pair?, c)

def takeNext (c : Cursor) (l : SortedList (Entry κ ν)) : Checked (Option (κ × ν) × Cursor) := do
  match ← c.park l with
  | (false, c) => return (none, c)
  | (true, c) => c.take l

/-- The given entries, the last one first, and behind them all that are left within the given
number of steps, with the cursor at the end. -/
def drainEntriesWithin (l : SortedList (Entry κ ν)) :
    Nat → List (κ × ν) → Cursor → Checked (List (κ × ν) × Cursor)
  | 0, _, _ => .error .endless
  | steps + 1, entries, c => do
    match ← c.takeNext l with
    | (none, c) => return (entries.reverse, c)
    | (some entry, c) => drainEntriesWithin l steps (entry :: entries) c

/-- All entries that are left, and the cursor behind them. -/
def drainEntries (c : Cursor) (l : SortedList (Entry κ ν)) : Checked (List (κ × ν) × Cursor) :=
  drainEntriesWithin l l.bound [] c

end Cursor

namespace Table

variable {κ ν : Type _}

/-- The entries, in split order. -/
def toList (t : Table κ ν) : Checked (List (κ × ν)) := do
  let (entries, _) ← t.list.cursor.drainEntries t.list
  return entries

/-- The keys, in split order. -/
def keys (t : Table κ ν) : Checked (List κ) := do
  return (← t.toList).map Prod.fst

def debug [Text.Legible κ] [Text.Legible ν] (t : Table κ ν) (layout : Text.Layout) :
    Checked String := do
  return layout.mapping (← t.toList)

def debugKeys [Text.Legible κ] (t : Table κ ν) (layout : Text.Layout) : Checked String := do
  return layout.set (← t.keys)

end Table

end SplitOrder
