import SplitOrder.List.Search

/-!
# Inserting into and deleting from a sorted list

An insertion searches the place of the element and links a new node there. A deletion runs in two
steps with an interval between them in which others may work on the list: `claim` searches the
element and marks its node, which decides who deletes it; `settle` takes the node off the chain
and hands it to the reclaimer. What `settle` knows of the neighbourhood is as old as the claim, so
its write may fail; a new search then unlinks the node on its way.

* `SortedList.insertAfter` — insertion, searching from a given node.
* `SortedList.claimAfter`, `settleAfter`, `deleteAfter` — the two steps of a deletion, and both at
  once.
* `SortedList.insert`, `remove`, `delete`, `contains`, … — the same for the whole list.
-/

namespace SplitOrder

/-- How an insertion ends. -/
inductive Insertion where
  | linked (node : NodeId)
  /-- With the node that already holds an equal element; the new one is dropped. -/
  | existing (node : NodeId)
deriving DecidableEq, Repr

def Insertion.isNew : Insertion → Bool
  | .linked _ => true
  | .existing _ => false

/-- A deletion that is decided but not completed: the marked node and its neighbours at that time.
-/
structure Claim where
  pred : NodeId
  node : NodeId
  succ : Option NodeId
deriving DecidableEq, Repr

namespace SortedList

variable {α : Type _}

/-! ### Insertion -/

/-- Attempts of an insertion until one succeeds, at most so many. -/
def insertWithin [Ord α] (start : NodeId) (a : α) :
    Nat → SortedList α → Checked (Insertion × SortedList α)
  | 0, _ => .error .endless
  | attempts + 1, l => do
    let (location, l) ← l.search start (.ofElement a)
    match ← l.matching? (.ofElement a) location.curr with
    | some i => return (.existing i, l)
    | none =>
      -- fails only if the neighbourhood changed after the search
      match l.linkNew location.pred location.curr a with
      | (some i, l) => return (.linked i, l)
      | (none, l) => l.insertWithin start a attempts

/-- Inserts an element behind the node `start`, unless an equal one is there. -/
def insertAfter [Ord α] (l : SortedList α) (start : NodeId) (a : α) :
    Checked (Insertion × SortedList α) :=
  l.insertWithin start a l.bound

/-! ### Deletion -/

/-- Attempts to mark the node that holds what is sought, at most so many. There is nothing to
claim if no node holds it, or if another deletion marks the node first. -/
def claimWithin (start : NodeId) (probe : Probe α) :
    Nat → SortedList α → Checked (Option Claim × SortedList α)
  | 0, _ => .error .endless
  | attempts + 1, l => do
    let (location, l) ← l.search start probe
    match ← l.matching? probe location.curr with
    | none => return (none, l)
    | some i =>
      let link := l.link i
      if link.marked then return (none, l) else
      match l.mark i link.target with
      | (true, l) => return (some ⟨location.pred, i, link.target⟩, l)
      -- another deletion won, or a node was linked right behind this one
      | (false, l) =>
        if (l.link i).marked then return (none, l) else l.claimWithin start probe attempts

/-- The first step of a deletion: marks the node that holds what is sought, searched from the node
`start`. From here on the element counts as deleted. -/
def claimAfter (l : SortedList α) (start : NodeId) (probe : Probe α) :
    Checked (Option Claim × SortedList α) :=
  l.claimWithin start probe l.bound

/-- Takes a marked node off the chain. If the neighbourhood changed since the claim, a search does
it: it unlinks every deleted node in front of its result. -/
def unlinkClaimed (l : SortedList α) (start : NodeId) (probe : Probe α) (c : Claim) :
    Checked (SortedList α) :=
  match l.unlink c.pred c.node c.succ with
  | (true, l) => .ok l
  | (false, l) => do
    let (_, l) ← l.search start probe
    return l

/-- The second step of a deletion: takes the node off the chain and retires it. -/
def settleAfter (l : SortedList α) (start : NodeId) (probe : Probe α) (c : Claim) :
    Checked (SortedList α) := do
  let l ← l.unlinkClaimed start probe c
  return l.retire c.node

/-- Deletes what is sought, searched from the node `start`, and answers the deleted element. -/
def deleteAfter (l : SortedList α) (start : NodeId) (probe : Probe α) :
    Checked (Option α × SortedList α) := do
  match ← l.claimAfter start probe with
  | (none, l) => return (none, l)
  | (some c, l) =>
    let a ← l.element c.node
    return (some a, ← l.settleAfter start probe c)

/-! ### The whole list -/

variable [Ord α]

/-- Inserts an element. Answers whether it was new. -/
def insert (l : SortedList α) (a : α) : Checked (Bool × SortedList α) := do
  let (insertion, l) ← l.insertAfter head a
  return (insertion.isNew, l)

/-- Deletes the element equal to `a` and answers it. -/
def remove (l : SortedList α) (a : α) : Checked (Option α × SortedList α) :=
  l.deleteAfter head (.ofElement a)

/-- Deletes the element equal to `a`. Answers whether there was one. -/
def delete (l : SortedList α) (a : α) : Checked (Bool × SortedList α) := do
  let (removed, l) ← l.remove a
  return (removed.isSome, l)

def lookup (l : SortedList α) (a : α) : Checked (Option NodeId × SortedList α) :=
  l.lookupAfter head (.ofElement a)

def contains (l : SortedList α) (a : α) : Checked (Bool × SortedList α) := do
  let (found, l) ← l.lookup a
  return (found.isSome, l)

def find (l : SortedList α) (a : α) : Checked (Option α × SortedList α) := do
  match ← l.lookup a with
  | (some i, l) => return (some (← l.element i), l)
  | (none, l) => return (none, l)

/-- Marks the node that holds an element equal to `a` and leaves it linked and unretired. Answers
whether there was one. -/
def markOnly (l : SortedList α) (a : α) : Checked (Bool × SortedList α) := do
  match ← l.lookup a with
  | (some i, l) => return l.mark i (l.link i).target
  | (none, l) => return (false, l)

end SortedList

end SplitOrder
