import SplitOrder.Link
import SplitOrder.Reclaimer

/-!
# Sorted lists with marked links

Elements in ascending order on a chain of nodes. Nodes are named by numbers in the order in which
they were first linked and are never forgotten: a node that was taken off the chain keeps its
element and its link, so a reader that stands on it still finds its way back. Node 0 is the head;
it stands in front of all others and carries no element.

A node leaves the list in two steps. First its link is **marked**: from then on the element counts
as deleted. Then the node is **unlinked**: the link in front of it is set to the node behind it.

* `SortedList.compareAndSwap` — the one way in which a link is ever written. It succeeds only if
  the link is what the writer takes it for, and answers whether it did with the list after it.
* `SortedList.linkNew`, `mark`, `unlink` — the three writes that operations are made of: a new
  node behind another one, the delete mark, and a deleted node out of the chain.
* `SortedList.linked`, `chain`, `live` — what stands on the list: all linked nodes, their elements
  with their marks, and the elements that are not deleted.
-/

namespace SplitOrder

/-- The name of a node: its place among all nodes that were ever linked. -/
abbrev NodeId := Nat

def head : NodeId := 0

/-- A node of a sorted list. -/
structure Node (α : Type _) where
  element? : Option α := none
  link : Link (Option NodeId) := ⟨none, false⟩
deriving DecidableEq, Repr

/-- All nodes ever linked, and those that were taken off for good. -/
structure SortedList (α : Type _) where
  nodes : Array (Node α) := #[{}]
  reclaimer : Reclaimer NodeId := {}

namespace SortedList

variable {α : Type _}

instance : EmptyCollection (SortedList α) := ⟨{}⟩

instance : Inhabited (SortedList α) := ⟨∅⟩

/-! ### Reading nodes -/

/-- A node by name. A name that was never given out reads as a node without element and successor.
-/
def node (l : SortedList α) (i : NodeId) : Node α :=
  l.nodes[i]?.getD {}

def link (l : SortedList α) (i : NodeId) : Link (Option NodeId) :=
  (l.node i).link

/-- The element of a node. To ask the head for its element is a fault. -/
def element (l : SortedList α) (i : NodeId) : Checked α :=
  match (l.node i).element? with
  | some a => .ok a
  | none => .error .headWithoutElement

/-- The element of a node, if there is a node and it has one. -/
def elementAt? (l : SortedList α) (i : Option NodeId) : Option α :=
  i.bind fun i => (l.node i).element?

/-- More rounds than any walk along the links makes: it passes each node at most once. -/
def bound (l : SortedList α) : Nat :=
  l.nodes.size + 1

/-! ### Writing links -/

def setLink (l : SortedList α) (i : NodeId) (link : Link (Option NodeId)) : SortedList α :=
  { l with nodes := l.nodes.modify i fun n => { n with link } }

/-- Replaces the link of a node if it is the expected one, and answers whether it was. -/
def compareAndSwap (l : SortedList α) (i : NodeId) (expected desired : Link (Option NodeId)) :
    Bool × SortedList α :=
  match (l.link i).compareAndSwap expected desired with
  | some link => (true, l.setLink i link)
  | none => (false, l)

/-- Sets the delete mark of a node. Fails if it is marked by now or no longer points to `succ`. -/
def mark (l : SortedList α) (i : NodeId) (succ : Option NodeId) : Bool × SortedList α :=
  l.compareAndSwap i ⟨succ, false⟩ ⟨succ, true⟩

/-- Takes the node `curr` out from behind `pred`. Fails if `pred` is marked by now or no longer
points to `curr`. -/
def unlink (l : SortedList α) (pred curr : NodeId) (succ : Option NodeId) : Bool × SortedList α :=
  l.compareAndSwap pred ⟨some curr, false⟩ ⟨succ, false⟩

/-- Links a new node with the element `a` between `pred` and `curr` and answers its name, which is
the next free one. The node points to `curr` before anyone can see it. Fails if `pred` is marked or
no longer points to `curr`. -/
def linkNew (l : SortedList α) (pred : NodeId) (curr : Option NodeId) (a : α) :
    Option NodeId × SortedList α :=
  let i := l.nodes.size
  match l.compareAndSwap pred ⟨curr, false⟩ ⟨some i, false⟩ with
  | (true, l) => (some i, { l with nodes := l.nodes.push ⟨some a, ⟨curr, false⟩⟩ })
  | (false, l) => (none, l)

def retire (l : SortedList α) (i : NodeId) : SortedList α :=
  { l with reclaimer := l.reclaimer.retire i }

/-! ### What stands on the list -/

/-- The nodes met on the way from a node along the links, as far as the given number of steps. -/
def linkedFrom (l : SortedList α) : Nat → Option NodeId → List NodeId
  | 0, _ => []
  | _ + 1, none => []
  | steps + 1, some i => i :: l.linkedFrom steps (l.link i).target

/-- The nodes linked behind the head, deleted ones included. -/
def linked (l : SortedList α) : List NodeId :=
  l.linkedFrom l.bound (l.link head).target

/-- The elements linked behind the head, each with its delete mark. -/
def chain (l : SortedList α) : List (α × Bool) :=
  l.linked.filterMap fun i => (l.node i).element?.map fun a => (a, (l.link i).marked)

def live (l : SortedList α) : List α :=
  (l.chain.filter fun item => !item.2).map Prod.fst

/-! ### Equations -/

theorem link_eq (l : SortedList α) (i : NodeId) : l.link i = (l.node i).link := rfl

theorem element_eq_ok_iff {l : SortedList α} {i : NodeId} {a : α} :
    l.element i = .ok a ↔ (l.node i).element? = some a := by
  simp only [element]
  split <;> simp_all

theorem node_setLink (l : SortedList α) (i j : NodeId) (link : Link (Option NodeId))
    (h : i < l.nodes.size) :
    (l.setLink i link).node j = if i = j then { l.node i with link } else l.node j := by
  simp only [node, setLink, Array.getElem?_modify]
  split
  · subst j
    simp [h]
  · rfl

theorem compareAndSwap_eq (l : SortedList α) (i : NodeId)
    (expected desired : Link (Option NodeId)) :
    l.compareAndSwap i expected desired =
      if l.link i = expected then (true, l.setLink i desired) else (false, l) := by
  simp only [compareAndSwap, Link.compareAndSwap]
  split <;> simp_all

end SortedList

end SplitOrder
