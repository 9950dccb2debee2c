import SplitOrder.Collection
import SplitOrder.PackedLink

/-!
# Sessions on a sorted list

A session is a list in use: the list itself, the cursors that were opened on it, and references to
elements that were found and are held on to. Whoever uses it sends requests and gets a reply to
each.

Two requests have requests inside them. `ListOp.applyWith` runs them while it has a stored element
in its hands. `ListOp.deleteWith` runs them in the middle of a deletion: the node is marked, so
its element is gone for everybody, but it still stands on the chain.

* `ListSession.answer` — a request without others inside.
* `ListSession.step`, `steps` — any operation, and a sequence of them.
* `ListSession.run` — a sequence, with a view of the session after each of its operations.
-/

namespace SplitOrder

/-- What can be asked of a list. A start that is not given is the head. Cursors and held
references are named by numbers, in the order in which they were obtained. -/
inductive ListRequest (α : Type _) where
  | insert (a : α)
  | delete (a : α)
  | remove (a : α)
  | contains (a : α)
  | find (a : α)
  | stored (a : α)
  | hold (a : α)
  | held (i : Nat)
  | bulk (request : BulkRequest α)
  | length
  | isEmpty
  | first
  | position (a : α)
  | get (index : Nat)
  | toList
  | debug (layout : Text.Layout)
  | retired
  | chain
  | openCursor
  | hasNext (i : Nat)
  | next (i : Nat)
  | demand (i : Nat)
  | peek (i : Nat)
  | drain (i : Nat)
  | close (i : Nat)
  /-- The delete mark on a live node, without unlinking or retiring it. -/
  | markOnly (a : α)
  | sweep
  | search (start : Option α) (a : α)
  | lookup (start : Option α) (a : α)
  | insertAfter (start : Option α) (a : α)
  | deleteAfter (start : Option α) (a : α)
  | debugNode (a : Option α)
  | headElement
deriving DecidableEq, Repr

/-- A request, possibly with others that are run in the middle of it. -/
inductive ListOp (α : Type _) where
  | request (r : ListRequest α)
  /-- A deletion that runs others between its two steps. -/
  | deleteWith (a : α) (nested : List (ListOp α))
  /-- A look at a stored element that runs others meanwhile. -/
  | applyWith (a : α) (nested : List (ListOp α))

/-- What a list replies. -/
inductive ListReply (α : Type _) where
  /-- There is nothing to tell: no such element, cursor or reference, or a request without result.
  -/
  | nothing
  | flag (b : Bool)
  | number (n : Nat)
  | item (a : α)
  | items (as : List α)
  | text (s : String)
  | reference (a : α)
  | refused (r : Refusal)
  | chain (items : List (α × Bool))
  /-- Two neighbours. In front there may be the head, behind there may be no node. -/
  | place (pred curr : Option α)
  | inserted (a : α)
  | existing (a : α)
  /-- The start of a search is not a live element below what is sought. -/
  | badStart
  /-- The deleted element, the chain before the nested operations, and their replies. -/
  | deletion (a : α) (chain : List (α × Bool)) (nested : List (ListReply α))
  /-- The stored element and the replies of the nested operations. -/
  | application (a : α) (nested : List (ListReply α))

namespace ListReply

variable {α : Type _}

/-- An element that may be absent. -/
def ofItem? : Option α → ListReply α
  | some a => .item a
  | none => .nothing

/-- A number that may be absent. -/
def ofNumber? : Option Nat → ListReply α
  | some n => .number n
  | none => .nothing

/-- A truth value that may be absent. -/
def ofFlag? : Option Bool → ListReply α
  | some b => .flag b
  | none => .nothing

/-- An element or a refusal. -/
def ofDemand : Except Refusal α → ListReply α
  | .ok a => .item a
  | .error r => .refused r

end ListReply

/-- A list in use. -/
structure ListSession (α : Type _) where
  list : SortedList α := ∅
  cursors : Array Cursor := #[]
  held : Array NodeId := #[]
  protection : Protection := .deferred

namespace ListSession

variable {α : Type _}

def retired? (s : ListSession α) : Option Nat :=
  match s.protection with
  | .deferred => some s.list.reclaimer.count.toNat
  | .epoch => none

/-- Uses a cursor and puts it back where it was taken from. -/
def withCursor (s : ListSession α) (i : Nat) (use : Cursor → Checked (ListReply α × Cursor)) :
    Checked (ListReply α × ListSession α) :=
  match s.cursors[i]? with
  | none => .ok (.nothing, s)
  | some c => do
    let (reply, c) ← use c
    return (reply, { s with cursors := s.cursors.setIfInBounds i c })

/-- The text that shows a node without a successor. The place of a successor in memory is not part
of the list, so other nodes have no such text. -/
def debugNode? [Text.Legible α] (s : ListSession α) (i : NodeId) : Option String :=
  let n := s.list.node i
  if n.link.target.isSome then none
  else some <| Text.record "ListNode"
    [("data", Text.optional (n.element?.map Text.Legible.debug)),
      ("next", PackedLink.debug ⟨n.link.marked.toUInt64⟩)]

variable [Ord α]

/-- The node from which a search for `a` starts: the head, or a live node with an element below
`a`. -/
def anchor? (s : ListSession α) : Option α → α → Checked (Option NodeId × ListSession α)
  | none, _ => .ok (some head, s)
  | some start, a =>
    if compare start a = .lt then do
      let (found, list) ← s.list.lookup start
      return (found, { s with list })
    else .ok (none, s)

/-- Runs an operation of the list from the node that `anchor?` finds. -/
def fromAnchor (s : ListSession α) (start : Option α) (a : α)
    (operation : SortedList α → NodeId → Checked (ListReply α × SortedList α)) :
    Checked (ListReply α × ListSession α) := do
  match ← s.anchor? start a with
  | (none, s) => return (.badStart, s)
  | (some i, s) =>
    let (reply, list) ← operation s.list i
    return (reply, { s with list })

def onList (s : ListSession α) (operation : SortedList α → Checked (ρ × SortedList α))
    (reply : ρ → ListReply α) : Checked (ListReply α × ListSession α) := do
  let (answer, list) ← operation s.list
  return (reply answer, { s with list })

def placeReply (l : SortedList α) (location : Location) : ListReply α :=
  .place (l.elementAt? (some location.pred)) (l.elementAt? location.curr)

def reading (s : ListSession α) (read : SortedList α → Checked ρ) (reply : ρ → ListReply α) :
    Checked (ListReply α × ListSession α) := do
  return (reply (← read s.list), s)

/-- A request without others inside. -/
def answer [Text.Legible α] (s : ListSession α) :
    ListRequest α → Checked (ListReply α × ListSession α)
  | .insert a => s.onList (·.insert a) .flag
  | .delete a => s.onList (·.delete a) .flag
  | .remove a => s.onList (·.remove a) .ofItem?
  | .contains a => s.onList (·.contains a) .flag
  | .find a => s.onList (·.find a) fun found => found.elim .nothing .reference
  | .stored a => s.onList (·.find a) .ofItem?
  | .hold a => do
    match ← s.list.lookup a with
    | (none, list) => return (.nothing, { s with list })
    | (some i, list) => return (.number s.held.size, { s with list, held := s.held.push i })
  | .held i => return ((s.list.elementAt? s.held[i]?).elim .nothing .reference, s)
  | .bulk request => s.onList (KeyCollection.handle · request) .ofFlag?
  | .length => s.reading (·.length) .number
  | .isEmpty => s.reading (·.isEmpty) .flag
  | .first => s.reading (·.first) .ofDemand
  | .position a => s.reading (·.idxOf? a) .ofNumber?
  | .get index => s.reading (·.get? index) .ofItem?
  | .toList => s.reading (·.toList) .items
  | .debug layout => s.reading (·.debug layout) .text
  | .retired => return (.ofNumber? s.retired?, s)
  | .chain => return (.chain s.list.chain, s)
  | .openCursor =>
    return (.number s.cursors.size, { s with cursors := s.cursors.push s.list.cursor })
  | .hasNext i => s.withCursor i fun c => do
    let (more, c) ← c.hasNext s.list
    return (.flag more, c)
  | .next i => s.withCursor i fun c => do
    let (item, c) ← c.next s.list
    return (.ofItem? item, c)
  | .demand i => s.withCursor i fun c => do
    let (item, c) ← c.demand s.list
    return (.ofDemand item, c)
  | .peek i => s.withCursor i fun c => do
    let (item, c) ← c.peek s.list
    return (.ofItem? item, c)
  | .drain i => s.withCursor i fun c => do
    let (items, c) ← c.drain s.list
    return (.items items, c)
  | .close i => s.withCursor i fun c => return (.nothing, c.close)
  | .markOnly a => s.onList (·.markOnly a) .flag
  | .sweep => do
    let (location, list) ← s.list.search head .aboveAll
    return (placeReply list location, { s with list })
  | .search start a => s.fromAnchor start a fun l i => do
    let (location, l) ← l.search i (.ofElement a)
    return (placeReply l location, l)
  | .lookup start a => s.fromAnchor start a fun l i => do
    let (found, l) ← l.lookupAfter i (.ofElement a)
    return (.ofItem? (l.elementAt? found), l)
  | .insertAfter start a => s.fromAnchor start a fun l i => do
    match ← l.insertAfter i a with
    | (.linked node, l) => return (.inserted (← l.element node), l)
    | (.existing node, l) => return (.existing (← l.element node), l)
  | .deleteAfter start a => s.fromAnchor start a fun l i => do
    let (removed, l) ← l.deleteAfter i (.ofElement a)
    return (.ofItem? removed, l)
  | .debugNode none => return ((s.debugNode? head).elim .nothing .text, s)
  | .debugNode (some a) => do
    let (found, list) ← s.list.lookup a
    let s := { s with list }
    return ((found.bind s.debugNode?).elim .nothing .text, s)
  | .headElement => do return (.item (← s.list.element head), s)

variable [Text.Legible α]

mutual

/-- One operation. A deletion with nested operations runs them after its claim and before it is
settled; both steps search from the head. -/
def step (s : ListSession α) : ListOp α → Checked (ListReply α × ListSession α)
  | .request r => s.answer r
  | .deleteWith a nested => do
    match ← s.list.claimAfter head (.ofElement a) with
    | (none, list) => return (.nothing, { s with list })
    | (some claim, list) =>
      let item ← list.element claim.node
      -- the claim is older than whatever the nested operations do
      let (replies, s) ← steps { s with list } nested
      let settled ← s.list.settleAfter head (.ofElement a) claim
      return (.deletion item list.chain replies, { s with list := settled })
  | .applyWith a nested => do
    match ← s.list.lookup a with
    | (none, list) => return (.nothing, { s with list })
    | (some i, list) =>
      let item ← list.element i
      let (replies, s) ← steps { s with list } nested
      return (.application item replies, s)

def steps (s : ListSession α) : List (ListOp α) → Checked (List (ListReply α) × ListSession α)
  | [] => .ok ([], s)
  | op :: ops => do
    let (reply, s) ← step s op
    let (replies, s) ← steps s ops
    return (reply :: replies, s)

end

/-- The replies to a sequence of operations, each with what `view` shows of the session after it,
and the session in the end. -/
def run (view : ListSession α → β) (s : ListSession α) :
    List (ListOp α) → Checked (List (ListReply α × β) × ListSession α)
  | [] => .ok ([], s)
  | op :: ops => do
    let (reply, s) ← s.step op
    let shown := view s
    let (replies, s) ← s.run view ops
    return ((reply, shown) :: replies, s)

end ListSession

end SplitOrder
