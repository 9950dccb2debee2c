import SplitOrder.OrderKey
import SplitOrder.Text.Layout

/-!
# Entries of a table

What stands on the list of a table: the sentinels of its buckets and, between them, its entries,
all sorted by order key. Entries whose hashes agree are sorted by their keys, so two keys that
share a hash are still told apart.

* `Entry.sentinelOf`, `Entry.ofPair` — the sentinel of a bucket, and a key with its value.
* `instance : Ord Entry` — the order of the list. It does not look at values.
* `KeyProbe` — the search for a key, by the key or by a form of it, without a value at hand.
-/

namespace SplitOrder

/-- An element of the list of a table. -/
inductive Entry (κ ν : Type _) where
  | sentinel (orderKey : OrderKey)
  | pair (orderKey : OrderKey) (key : κ) (value : ν)
deriving DecidableEq, Repr

namespace Entry

variable {κ ν : Type _}

def sentinelOf (bucket : Bucket) : Entry κ ν :=
  .sentinel (.ofBucket bucket)

/-- A key with the given hash and its value. -/
def ofPair (hash : UInt64) (key : κ) (value : ν) : Entry κ ν :=
  .pair (.ofHash hash) key value

/-- Where the entry stands in split order. -/
def orderKey : Entry κ ν → OrderKey
  | .sentinel k => k
  | .pair k _ _ => k

def isSentinel : Entry κ ν → Bool
  | .sentinel _ => true
  | .pair _ _ _ => false

def key? : Entry κ ν → Option κ
  | .sentinel _ => none
  | .pair _ key _ => some key

def value? : Entry κ ν → Option ν
  | .sentinel _ => none
  | .pair _ _ value => some value

def pair? : Entry κ ν → Option (κ × ν)
  | .sentinel _ => none
  | .pair _ key value => some (key, value)

/-- Keys that may be absent: an absent one comes first. -/
def compareKeys [Ord κ] : Option κ → Option κ → Ordering
  | some a, some b => compare a b
  | none, none => .eq
  | none, some _ => .lt
  | some _, none => .gt

/-- By order key, then by key. -/
instance [Ord κ] : Ord (Entry κ ν) where
  compare a b := (compare a.orderKey b.orderKey).then (compareKeys a.key? b.key?)

instance [Text.Legible κ] [Text.Legible ν] : Text.Legible (Entry κ ν) where
  debug
    | .sentinel k => "Bucket(0x" ++ Text.hexadecimalPadded 16 k.toNat ++ ")"
    | .pair k key value =>
      "Regular(0x" ++ Text.hexadecimalPadded 16 k.toNat ++ ", " ++ Text.Legible.debug key ++ " => "
        ++ Text.Legible.debug value ++ ")"

end Entry

/-- The search for an entry by its key or by a form of it. -/
structure KeyProbe (β : Type _) where
  /-- Where the entry would stand in split order. -/
  orderKey : OrderKey
  key : β
deriving DecidableEq, Repr

namespace KeyProbe

/-- The search for a key with the given hash. -/
def ofKey (hash : UInt64) (key : β) : KeyProbe β :=
  ⟨.ofHash hash, key⟩

/-- Where an entry stands relative to what is sought, if `form` tells the form of a key. A sentinel
is never it, and with the same order key it stands in front. -/
def toProbeBy [Ord β] (form : κ → β) (p : KeyProbe β) : Entry κ ν → Ordering
  | .sentinel k => (compare k p.orderKey).then .lt
  | .pair k key _ => (compare k p.orderKey).then (compare (form key) p.key)

/-- The same in a search by the key itself. -/
def toProbe [Ord κ] (p : KeyProbe κ) : Entry κ ν → Ordering :=
  p.toProbeBy fun key => key

end KeyProbe

end SplitOrder
