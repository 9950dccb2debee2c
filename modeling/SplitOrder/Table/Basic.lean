import SplitOrder.List.Update
import SplitOrder.Table.Sizing
import SplitOrder.Table.Entry

/-!
# Split-ordered tables

A table of keys and values on one sorted list. Its entries are never moved. A bucket is a run of
entries behind a sentinel, and a sentinel is linked when its bucket is first used: it is inserted
behind the sentinel of the bucket it was split from, and its node is entered in the directory. To
double the number of buckets is to change one number. The head of the list is the sentinel of
bucket 0.

* `Table.build`, `ofSizing` — an empty table, with and without looking at the sizing first.
* `Table.sentinel` — the sentinel of a bucket, linked on demand together with those it depends on.
  Its effects on what is shared are `linkSentinel` and `registerSentinel`.
* `Table.insert`, `removeEntry`, `lookup` — the operations. What an insertion does after it linked
  its entry is `countInsertion` and then `doubleIfFull`; a removal ends with `countRemoval`.
* `KeyForm` — keys may be removed and looked up by another form of them that is at hand:
  `removeEntryBy`, `lookupBy` and what goes through these. A key is a form of itself
  (`Table.ownForm`).

**Effects.** Several clients may work on one table. Each of the functions named as an effect is
one indivisible change for them, and so is one operation on the list; between two of these, others
get their turn. That is why the size is counted apart from the change to the list.
-/

namespace SplitOrder

/-- A table of keys and values. -/
structure Table (κ ν : Type _) where
  /-- The entries and the sentinels, in split order. -/
  list : SortedList (Entry κ ν) := ∅
  directory : Directory NodeId := ∅
  /-- The number of entries, counted when an operation has taken effect on the list. -/
  size : UInt64 := 0
  /-- The number of buckets that entries are assigned to, a power of two. -/
  bucketCount : UInt64
  /-- The number of sentinels linked so far, the head left out. -/
  sentinels : Nat := 0
  /-- The number of entries per bucket beyond which the table grows. -/
  maxLoad : UInt64
  /-- The number of buckets that is never exceeded. -/
  maxBuckets : UInt64
  hash : κ → UInt64

/-- A form of keys by which they may be sought: which one a key has, and the hash function for
forms. -/
structure KeyForm (κ β : Type _) where
  of : κ → β
  hash : β → UInt64

namespace Table

variable {κ ν : Type _}

/-- The form in which a table has its keys. -/
def ownForm (t : Table κ ν) : KeyForm κ κ where
  of key := key
  hash := t.hash

/-- An empty table of the given sizing. Bucket 0 has the list head for its sentinel. -/
def ofSizing (sizing : Sizing) (hash : κ → UInt64) : Checked (Table κ ν) := do
  let (_, directory) ← (∅ : Directory NodeId).install 0 head
  return {
    directory
    bucketCount := sizing.initialBuckets
    maxLoad := sizing.maxLoad
    maxBuckets := sizing.maxBuckets
    hash }

/-- An empty table of the given sizing, if the sizing has no flaw. -/
def build (sizing : Sizing) (hash : κ → UInt64) : Checked (Table κ ν) := do
  sizing.check
  ofSizing sizing hash

/-! ### Counting and growing -/

def isEmpty (t : Table κ ν) : Bool :=
  t.size == 0

/-- Counts an entry that was linked, and answers the number of entries including it. -/
def countInsertion (t : Table κ ν) : Checked (UInt64 × Table κ ν) := do
  let size ← Word.checkedAdd t.size 1
  return (size, { t with size := t.size + 1 })

def countRemoval (t : Table κ ν) : Table κ ν :=
  { t with size := t.size - 1 }

/-- Doubles the number of buckets if the given number of entries is more than the buckets take,
unless there may be no more buckets. -/
def doubleIfFull (t : Table κ ν) (size : UInt64) : Checked (Table κ ν) :=
  if t.maxBuckets ≤ t.bucketCount ∨ size ≤ Word.mulSaturating t.maxLoad t.bucketCount then .ok t
  else do return { t with bucketCount := ← Word.checkedMul t.bucketCount 2 }

/-! ### Sentinels -/

/-- Enters the sentinel of a bucket in the directory. Answers the one that is there afterwards. -/
def registerSentinel (t : Table κ ν) (bucket : Bucket) (node : NodeId) :
    Checked (NodeId × Table κ ν) := do
  let (winner, directory) ← t.directory.install bucket node
  return (winner, { t with directory })

/-- The bucket of a hash: as many of its lowest bits as tell the buckets apart. -/
def bucketOf (t : Table κ ν) (hash : UInt64) : Checked Bucket := do
  return hash &&& (← Word.checkedSub t.bucketCount 1)

variable [Ord κ]

/-- Links the sentinel of a bucket behind that of its parent, unless it is linked already, and
counts it if it is new. -/
def linkSentinel (t : Table κ ν) (parent : NodeId) (bucket : Bucket) :
    Checked (NodeId × Table κ ν) := do
  match ← t.list.insertAfter parent (.sentinelOf bucket) with
  | (.linked node, list) => return (node, { t with list, sentinels := t.sentinels + 1 })
  | (.existing node, list) => return (node, { t with list })

/-- The sentinel of a bucket. If none is registered, that of its parent is obtained first, in the
same way, through at most so many generations. -/
def sentinelWithin : Nat → Table κ ν → Bucket → Checked (NodeId × Table κ ν)
  | 0, _, _ => .error .endless
  | generations + 1, t, bucket => do
    match ← t.directory.get bucket with
    | some node => return (node, t)
    | none =>
      let parent ← bucket.parent
      let (parentNode, t) ← t.sentinelWithin generations parent
      let (node, t) ← t.linkSentinel parentNode bucket
      t.registerSentinel bucket node

/-- The sentinel of a bucket. A bucket has at most 64 ancestors, one for each bit of its index. -/
def sentinel (t : Table κ ν) (bucket : Bucket) : Checked (NodeId × Table κ ν) :=
  t.sentinelWithin 65 bucket

def sentinelOfHash (t : Table κ ν) (hash : UInt64) : Checked (NodeId × Table κ ν) := do
  t.sentinel (← t.bucketOf hash)

/-! ### Operations -/

/-- Inserts a key with its value. Answers whether the key was new; if it was not, the stored entry
stays. -/
def insert (t : Table κ ν) (key : κ) (value : ν) : Checked (Bool × Table κ ν) := do
  let hash := t.hash key
  let (start, t) ← t.sentinelOfHash hash
  match ← t.list.insertAfter start (.ofPair hash key value) with
  | (.existing _, list) => return (false, { t with list })
  | (.linked _, list) =>
    -- the entry can be found from here on, though it is not counted yet
    let (size, t) ← { t with list }.countInsertion
    return (true, ← t.doubleIfFull size)

/-! ### Removing and looking up -/

section ByForm

variable {β : Type _} [Ord β]

/-- Removes the entry of the key with the given form and answers it. -/
def removeEntryBy (form : KeyForm κ β) (t : Table κ ν) (key : β) :
    Checked (Option (Entry κ ν) × Table κ ν) := do
  let hash := form.hash key
  let (start, t) ← t.sentinelOfHash hash
  match ← t.list.deleteAfter start ((KeyProbe.ofKey hash key).toProbeBy form.of) with
  | (none, list) => return (none, { t with list })
  | (some entry, list) => return (some entry, { t with list }.countRemoval)

/-- Removes the key with the given form and answers its value. -/
def removeBy (form : KeyForm κ β) (t : Table κ ν) (key : β) :
    Checked (Option ν × Table κ ν) := do
  let (entry, t) ← t.removeEntryBy form key
  return (entry.bind Entry.value?, t)

def deleteBy (form : KeyForm κ β) (t : Table κ ν) (key : β) : Checked (Bool × Table κ ν) := do
  let (entry, t) ← t.removeEntryBy form key
  return (entry.isSome, t)

def lookupBy (form : KeyForm κ β) (t : Table κ ν) (key : β) :
    Checked (Option NodeId × Table κ ν) := do
  let hash := form.hash key
  let (start, t) ← t.sentinelOfHash hash
  let (found, list) ← t.list.lookupAfter start ((KeyProbe.ofKey hash key).toProbeBy form.of)
  return (found, { t with list })

def containsBy (form : KeyForm κ β) (t : Table κ ν) (key : β) : Checked (Bool × Table κ ν) := do
  let (found, t) ← t.lookupBy form key
  return (found.isSome, t)

/-- The stored key with the given form and its value. -/
def findBy (form : KeyForm κ β) (t : Table κ ν) (key : β) :
    Checked (Option (κ × ν) × Table κ ν) := do
  match ← t.lookupBy form key with
  | (some i, t) => return ((← t.list.element i).pair?, t)
  | (none, t) => return (none, t)

def getBy (form : KeyForm κ β) (t : Table κ ν) (key : β) : Checked (Option ν × Table κ ν) := do
  let (pair, t) ← t.findBy form key
  return (pair.map Prod.snd, t)

end ByForm

/-- Removes the entry of a key and answers it. -/
def removeEntry (t : Table κ ν) (key : κ) : Checked (Option (Entry κ ν) × Table κ ν) :=
  t.removeEntryBy t.ownForm key

/-- Removes a key and answers its value. -/
def remove (t : Table κ ν) (key : κ) : Checked (Option ν × Table κ ν) :=
  t.removeBy t.ownForm key

def delete (t : Table κ ν) (key : κ) : Checked (Bool × Table κ ν) :=
  t.deleteBy t.ownForm key

def lookup (t : Table κ ν) (key : κ) : Checked (Option NodeId × Table κ ν) :=
  t.lookupBy t.ownForm key

def contains (t : Table κ ν) (key : κ) : Checked (Bool × Table κ ν) :=
  t.containsBy t.ownForm key

def find (t : Table κ ν) (key : κ) : Checked (Option (κ × ν) × Table κ ν) :=
  t.findBy t.ownForm key

def get (t : Table κ ν) (key : κ) : Checked (Option ν × Table κ ν) :=
  t.getBy t.ownForm key

section Equations

variable (t : Table κ ν) (key : κ)

theorem removeEntry_eq : t.removeEntry key = do
    let (start, t') ← t.sentinelOfHash (t.hash key)
    match ← t'.list.deleteAfter start (KeyProbe.ofKey (t.hash key) key).toProbe with
    | (none, list) => return (none, { t' with list })
    | (some entry, list) => return (some entry, { t' with list }.countRemoval) :=
  rfl

theorem remove_eq : t.remove key = do
    let (entry, t') ← t.removeEntry key
    return (entry.bind Entry.value?, t') :=
  rfl

theorem delete_eq : t.delete key = do
    let (entry, t') ← t.removeEntry key
    return (entry.isSome, t') :=
  rfl

theorem lookup_eq : t.lookup key = do
    let (start, t') ← t.sentinelOfHash (t.hash key)
    let (found, list) ← t'.list.lookupAfter start (KeyProbe.ofKey (t.hash key) key).toProbe
    return (found, { t' with list }) :=
  rfl

theorem contains_eq : t.contains key = do
    let (found, t') ← t.lookup key
    return (found.isSome, t') :=
  rfl

theorem find_eq : t.find key = do
    match ← t.lookup key with
    | (some i, t') => return ((← t'.list.element i).pair?, t')
    | (none, t') => return (none, t') :=
  rfl

theorem get_eq : t.get key = do
    let (pair, t') ← t.find key
    return (pair.map Prod.snd, t') :=
  rfl

end Equations

end Table

end SplitOrder
