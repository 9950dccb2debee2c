import SplitOrder.Key
import SplitOrder.Table.KeySet

/-!
# Sessions on tables and key sets

A table in use: the table, the cursors that were opened on it, and the values that are held on to.
Requests are answered one by one; one kind of operation has others inside, which run while it has
a stored entry in its hands. A session on a key set is a session on its table, with some requests
of its own.

* `Statistics` — the counters of a table and the share of sentinels among its nodes.
* `TableSession.answer`, `step`, `steps`, `run`.
* `SetSession.answer`, `run`.
-/

namespace SplitOrder

/-- The counters of a table. What depends on the hash function, or on when nodes are given back,
is absent where it cannot be told. -/
structure Statistics where
  size : Nat
  bucketCount : Nat
  sentinels? : Option Nat
  sentinelRate? : Option Float
  retired? : Option Nat
deriving Repr

/-- The number of sentinels for each entry; an empty table counts as one with a single entry. -/
def Table.sentinelRate (t : Table κ ν) : Float :=
  (UInt64.ofNat t.sentinels).toFloat / (max t.size 1).toFloat

/-- What can be asked of a table. -/
inductive TableRequest (κ ν : Type _) where
  | insert (key : κ) (value : ν)
  | remove (key : κ)
  | delete (key : κ)
  | contains (key : κ)
  | reference (key : κ)
  | get (key : κ)
  | find (key : κ)
  | hold (key : κ)
  | held (i : Nat)
  | size
  | isEmpty
  | bucketCount
  | statistics
  | toList
  | debug (layout : Text.Layout)
  | insertRange (range : Range)
  | deleteRange (range : Range)
  | containsRange (range : Range)
  | openCursor
  | hasNext (i : Nat)
  | next (i : Nat)
  | drain (i : Nat)
deriving DecidableEq, Repr

/-- A request, possibly with others that are run in the middle of it. -/
inductive TableOp (κ ν : Type _) where
  | request (r : TableRequest κ ν)
  /-- A look at a stored entry that runs others meanwhile. -/
  | applyWith (key : κ) (nested : List (TableOp κ ν))

/-- What a table replies. -/
inductive TableReply (κ ν : Type _) where
  /-- There is nothing to tell: no such key, cursor or reference, or a request without result. -/
  | nothing
  | flag (b : Bool)
  | number (n : Nat)
  | key (key : κ)
  | value (value : ν)
  | entry (key : κ) (value : ν)
  | entries (entries : List (κ × ν))
  | text (s : String)
  | reference (value : ν)
  | refused (r : Refusal)
  | statistics (s : Statistics)
  /-- The stored entry and the replies of the nested operations. -/
  | application (key : κ) (value : ν) (nested : List (TableReply κ ν))

namespace TableReply

variable {κ ν : Type _}

/-- An entry that may be absent. -/
def ofPair? : Option (κ × ν) → TableReply κ ν
  | some (k, v) => .entry k v
  | none => .nothing

/-- A truth value that may be absent. -/
def ofFlag? : Option Bool → TableReply κ ν
  | some b => .flag b
  | none => .nothing

end TableReply

/-- A table in use. -/
structure TableSession (κ ν : Type _) where
  table : Table κ ν
  cursors : Array Cursor := #[]
  held : Array NodeId := #[]
  protection : Protection := .deferred
  /-- Whether the hash function is known. If it is not, listings are sorted by key, and nothing is
  told that depends on it. -/
  hashKnown : Bool := true

namespace TableSession

variable {κ ν : Type _}

/-- The counters of the table, as far as they can be told. -/
def statistics (s : TableSession κ ν) : Statistics where
  size := s.table.size.toNat
  bucketCount := s.table.bucketCount.toNat
  sentinels? := if s.hashKnown then some s.table.sentinels else none
  sentinelRate? := if s.hashKnown then some s.table.sentinelRate else none
  retired? :=
    match s.protection with
    | .deferred => some s.table.list.reclaimer.count.toNat
    | .epoch => none

/-- Uses a cursor and puts it back where it was taken from. -/
def withCursor (s : TableSession κ ν) (i : Nat) (use : Cursor → Checked (TableReply κ ν × Cursor)) :
    Checked (TableReply κ ν × TableSession κ ν) :=
  match s.cursors[i]? with
  | none => .ok (.nothing, s)
  | some c => do
    let (reply, c) ← use c
    return (reply, { s with cursors := s.cursors.setIfInBounds i c })

def onTable (s : TableSession κ ν) (operation : Table κ ν → Checked (ρ × Table κ ν))
    (reply : ρ → TableReply κ ν) : Checked (TableReply κ ν × TableSession κ ν) := do
  let (answer, table) ← operation s.table
  return (reply answer, { s with table })

variable [Ord κ]

/-- All entries: in split order, or by key if the hash function is not known. -/
def listing (s : TableSession κ ν) : Checked (List (κ × ν)) := do
  let entries ← s.table.toList
  return if s.hashKnown then entries else entries.mergeSort fun a b => (compare a.1 b.1).isLE

def heldValue? (s : TableSession κ ν) (i : Nat) : Option ν :=
  (s.table.list.elementAt? s.held[i]?).bind Entry.value?

/-- Inserts the key for a number with the value for it. -/
def insertNumber [Numbered κ] [Numbered ν] (t : Table κ ν) (n : Int64) :
    Checked (Bool × Table κ ν) :=
  t.insert (Numbered.ofNumber n) (Numbered.ofNumber n)

/-- Deletes the key for a number. -/
def deleteNumber [Numbered κ] (t : Table κ ν) (n : Int64) : Checked (Bool × Table κ ν) :=
  t.delete (Numbered.ofNumber n)

/-- Whether the key for a number is there. -/
def containsNumber [Numbered κ] (t : Table κ ν) (n : Int64) : Checked (Bool × Table κ ν) :=
  t.contains (Numbered.ofNumber n)

variable [Numbered κ] [Numbered ν] [Text.Legible κ] [Text.Legible ν]

/-- A request without others inside. -/
def answer (s : TableSession κ ν) : TableRequest κ ν → Checked (TableReply κ ν × TableSession κ ν)
  | .insert key value => s.onTable (·.insert key value) .flag
  | .remove key => s.onTable (·.remove key) fun value => value.elim .nothing .value
  | .delete key => s.onTable (·.delete key) .flag
  | .contains key => s.onTable (·.contains key) .flag
  | .reference key => s.onTable (·.get key) fun value => value.elim .nothing .reference
  | .get key => s.onTable (·.get key) fun value => value.elim .nothing .value
  | .find key => s.onTable (·.find key) .ofPair?
  | .hold key => do
    match ← s.table.lookup key with
    | (none, table) => return (.nothing, { s with table })
    | (some i, table) => return (.number s.held.size, { s with table, held := s.held.push i })
  | .held i => return ((s.heldValue? i).elim .nothing .reference, s)
  | .size => return (.number s.table.size.toNat, s)
  | .isEmpty => return (.flag s.table.isEmpty, s)
  | .bucketCount => return (.number s.table.bucketCount.toNat, s)
  | .statistics => return (.statistics s.statistics, s)
  | .toList => do return (.entries (← s.listing), s)
  | .debug layout => do return (.text (← s.table.debug layout), s)
  | .insertRange range =>
    s.onTable (Checked.countTrue insertNumber · range.numbers) .number
  | .deleteRange range =>
    s.onTable (Checked.countTrue deleteNumber · range.numbers) .number
  | .containsRange range =>
    s.onTable (Checked.countTrue containsNumber · range.numbers) .number
  | .openCursor =>
    return (.number s.cursors.size, { s with cursors := s.cursors.push s.table.list.cursor })
  | .hasNext i => s.withCursor i fun c => do
    let (more, c) ← c.park s.table.list
    return (.flag more, c)
  | .next i => s.withCursor i fun c => do
    let (entry, c) ← c.takeNext s.table.list
    return (.ofPair? entry, c)
  | .drain i => s.withCursor i fun c => do
    let (entries, c) ← c.drainEntries s.table.list
    return (.entries entries, c)

mutual

def step (s : TableSession κ ν) : TableOp κ ν → Checked (TableReply κ ν × TableSession κ ν)
  | .request r => s.answer r
  | .applyWith key nested => do
    match ← s.table.find key with
    | (none, table) => return (.nothing, { s with table })
    | (some (key, value), table) =>
      let (replies, s) ← steps { s with table } nested
      return (.application key value replies, s)

def steps (s : TableSession κ ν) :
    List (TableOp κ ν) → Checked (List (TableReply κ ν) × TableSession κ ν)
  | [] => .ok ([], s)
  | op :: ops => do
    let (reply, s) ← step s op
    let (replies, s) ← steps s ops
    return (reply :: replies, s)

end

/-- The replies to a sequence of operations, each with what `view` shows of the session after it,
and the session in the end. -/
def run (view : TableSession κ ν → β) (s : TableSession κ ν) :
    List (TableOp κ ν) → Checked (List (TableReply κ ν × β) × TableSession κ ν)
  | [] => .ok ([], s)
  | op :: ops => do
    let (reply, s) ← s.step op
    let shown := view s
    let (replies, s) ← s.run view ops
    return ((reply, shown) :: replies, s)

end TableSession

/-! ### Key sets -/

/-- What can be asked of a key set. -/
inductive SetRequest (κ : Type _) where
  /-- A request that makes sense for any table. -/
  | table (r : TableRequest κ Unit)
  | stored (key : κ)
  | debugKeys (layout : Text.Layout)
  /-- The next key of a cursor, or a refusal. -/
  | demand (i : Nat)
  | bulk (request : BulkRequest κ)
deriving DecidableEq, Repr

abbrev SetSession (κ : Type _) := TableSession κ Unit

namespace SetSession

variable {κ : Type _} [Ord κ] [Numbered κ] [Text.Legible κ]

def answer (s : SetSession κ) : SetRequest κ → Checked (TableReply κ Unit × SetSession κ)
  | .table r => TableSession.answer s r
  | .stored key => s.onTable (KeySet.find · key) fun key => key.elim .nothing .key
  | .debugKeys layout => do return (.text (← s.table.debugKeys layout), s)
  | .demand i => s.withCursor i fun c => do
    match ← KeySet.demand s.table c with
    | (.ok key, c) => return (.key key, c)
    | (.error r, c) => return (.refused r, c)
  | .bulk request => s.onTable (KeyCollection.handle · request) .ofFlag?

/-- The replies to a sequence of requests, each with what `view` shows of the session after it,
and the session in the end. -/
def run (view : SetSession κ → β) (s : SetSession κ) :
    List (SetRequest κ) → Checked (List (TableReply κ Unit × β) × SetSession κ)
  | [] => .ok ([], s)
  | r :: rs => do
    let (reply, s) ← SetSession.answer s r
    let shown := view s
    let (replies, s) ← SetSession.run view s rs
    return ((reply, shown) :: replies, s)

end SetSession

end SplitOrder
