import Std.Data.TreeMap
import SplitOrder.OrderKey

/-!
# The bucket directory

Finds the sentinel of a bucket by its index. The directory has room for `2 ^ 32` buckets without
ever moving one: it is divided into segments of doubling length, and a slot stays where it is when
the directory is put to more use. A segment is absent until something is offered for a bucket of
it. A slot is written once: the first node installed there stays.

* `Slot.ofBucket` — where a bucket lives: `[0, 64)` in segment 0, `[64 * 2 ^ (s - 1), 64 * 2 ^ s)`
  in segment `s`.
* `Segment.length`, `Directory.segmentCount` — the shape of the directory.
* `Directory.get`, `install`, `offer` — the operations; a bucket beyond the directory is a fault.
  `ensureSegment` allocates the segment that the latter two write to.
* `Directory.run` — a sequence of operations.
-/

namespace SplitOrder

/-- A place in a directory. -/
@[ext] structure Slot where
  segment : Nat
  offset : Nat
deriving DecidableEq, Repr

/-- The place of a bucket. Beyond the first segment, the highest bit of the index tells the
segment and the bits below it tell the place. -/
def Slot.ofBucket (bucket : Bucket) : Slot :=
  if bucket < 64 then ⟨0, bucket.toNat⟩
  else ⟨bucket.toNat.log2 - 5, bucket.toNat - Nat.pow 2 bucket.toNat.log2⟩

/-- A part of a directory that is allocated. Slots that were never written take no room. -/
abbrev Segment (ι : Type _) := Std.TreeMap Nat ι

/-- The number of slots in a segment: the first two have the same length, each further one has
twice as many as the one before. -/
def Segment.length : Nat → Nat
  | 0 => 64
  | segment + 1 => 64 * Nat.pow 2 segment

def Directory.segmentCount : Nat := 27

def Directory.capacity : UInt64 := 4294967296

/-- The installed nodes by bucket. -/
structure Directory (ι : Type _) where
  /-- The segments that are allocated, from the one of the lowest indices on. -/
  segments : Array (Option (Segment ι)) := Array.replicate Directory.segmentCount none

namespace Directory

variable {ι : Type _}

instance : EmptyCollection (Directory ι) := ⟨{}⟩

instance : Inhabited (Directory ι) := ⟨∅⟩

/-- The place of a bucket, if the directory has room for it. -/
def slot (bucket : Bucket) : Checked Slot :=
  if bucket < capacity then .ok (.ofBucket bucket) else .error .indexBeyondDirectory

/-- The segment of a place that lies within its segment, allocated or not. -/
def segment (d : Directory ι) (s : Slot) : Checked (Option (Segment ι)) :=
  match d.segments[s.segment]? with
  | some segment =>
    if s.offset < Segment.length s.segment then .ok segment else .error .slotBeyondSegment
  | none => .error .slotBeyondSegment

/-- The node installed for a bucket. In a segment that is not allocated there is none. -/
def get (d : Directory ι) (bucket : Bucket) : Checked (Option ι) := do
  let slot ← slot bucket
  match ← d.segment slot with
  | some segment => return segment[slot.offset]?
  | none => return none

/-- The directory with the given segment at an index. -/
def setSegment (d : Directory ι) (i : Nat) (segment : Segment ι) : Directory ι :=
  ⟨d.segments.setIfInBounds i (some segment)⟩

/-- The segment of a place. If it is not allocated, an empty one is put there. -/
def ensureSegment (d : Directory ι) (s : Slot) : Checked (Segment ι × Directory ι) := do
  match ← d.segment s with
  | some segment => return (segment, d)
  | none => return (∅, d.setSegment s.segment ∅)

/-- Installs a node for a bucket, unless one is installed there. Answers the one that is there
afterwards. -/
def install (d : Directory ι) (bucket : Bucket) (node : ι) : Checked (ι × Directory ι) := do
  let slot ← slot bucket
  let (segment, d) ← d.ensureSegment slot
  match segment[slot.offset]? with
  | some winner => return (winner, d)
  | none => return (node, d.setSegment slot.segment (segment.insert slot.offset node))

/-- Installs a node, or the absence of one: an empty slot that takes no node stays empty, though
its segment is allocated. -/
def offer (d : Directory ι) (bucket : Bucket) : Option ι → Checked (Option ι × Directory ι)
  | none => do
    let slot ← slot bucket
    let (segment, d) ← d.ensureSegment slot
    return (segment[slot.offset]?, d)
  | some node => do
    let (winner, d) ← d.install bucket node
    return (some winner, d)

/-! ### Sequences of operations -/

/-- What can be asked of a directory. -/
inductive Request (ι : Type _) where
  | get (bucket : Bucket)
  | offer (bucket : Bucket) (node : Option ι)
deriving DecidableEq, Repr

/-- One request, answered with the node for its bucket afterwards. -/
def handle (d : Directory ι) : Request ι → Checked (Option ι × Directory ι)
  | .get bucket => do return (← d.get bucket, d)
  | .offer bucket node => d.offer bucket node

/-- The answers to a sequence of requests. A request that ends in a fault changes nothing. -/
def run (d : Directory ι) : List (Request ι) → List (Checked (Option ι))
  | [] => []
  | r :: rs =>
    match d.handle r with
    | .ok (node, d) => .ok node :: run d rs
    | .error fault => .error fault :: run d rs

end Directory

end SplitOrder
