import SplitOrder.Word

/-!
# Split-order keys

The table keeps all its entries on one list. What makes doubling the number of buckets free is the
order: entries are sorted by their hash read from the lowest bit to the highest. The buckets of a
table of `2 ^ m` buckets are told apart by the lowest `m` bits of the hash, so in this order each
bucket is one run of entries, and the next bit splits the run at one point.

* `OrderKey.ofHash`, `OrderKey.ofBucket` — where an entry, and the sentinel in front of a bucket,
  stand. The lowest bit is set in the first and clear in the second, so the two never meet.
* `reverseBits` — a word read from the other end; `toBitVec_reverseBits` tells which bit goes where.
* `Bucket.parent` — the bucket that a bucket was split from: its highest set bit cleared.
* `Bucket.ancestors` — the parents from there down to bucket 0.
-/

namespace SplitOrder

/-- A place in split order. -/
abbrev OrderKey := UInt64

abbrev Bucket := UInt64

/-- Moves bits, one after the other, from the low end of a word to the low end of another one. -/
def moveBits : Nat → (source onto : UInt64) → UInt64
  | 0, _, onto => onto
  | count + 1, source, onto => moveBits count (source >>> 1) (onto <<< 1 ||| source &&& 1)

/-- The bits of a word, the lowest first where the highest was. -/
def reverseBits (n : UInt64) : UInt64 :=
  moveBits 64 n 0

def OrderKey.ofHash (hash : UInt64) : OrderKey :=
  reverseBits hash ||| 1

def OrderKey.ofBucket (bucket : Bucket) : OrderKey :=
  reverseBits bucket &&& ~~~1

def clearHighestBit (n : UInt64) : UInt64 :=
  n - (1 <<< n.log2)

/-- Bits that are moved change their order, and those they are moved onto make room for them. -/
theorem getLsbD_moveBits {count i : Nat} (source onto : UInt64) (h : i < 64) :
    (moveBits count source onto).toBitVec.getLsbD i =
      if i < count then source.toBitVec.getLsbD (count - 1 - i)
      else onto.toBitVec.getLsbD (i - count) := by
  induction count generalizing source onto with
  | zero => simp [moveBits]
  | succ count ih =>
    rw [moveBits, ih]
    rcases Nat.lt_trichotomy i count with hi | hi | hi
    · have : 1 + (count - 1 - i) = count - i := by omega
      simp [hi, Nat.lt_succ_of_lt hi, this]
    · subst hi
      simp
    · have inside : i - count < 64 := by omega
      have notLowest : i - count ≠ 0 := by omega
      have moved : i - count - 1 = i - (count + 1) := by omega
      rw [if_neg (by omega), if_neg (by omega)]
      simp [inside, notLowest, moved, -BitVec.getLsbD_eq_getElem]

/-- On words, `reverseBits` is the reversal of bit vectors. -/
theorem toBitVec_reverseBits (n : UInt64) : (reverseBits n).toBitVec = n.toBitVec.reverse := by
  refine BitVec.eq_of_getLsbD_eq fun i h => ?_
  rw [reverseBits, getLsbD_moveBits n 0 h, if_pos h, BitVec.getLsbD_reverse, BitVec.getMsbD]
  simp [h]

namespace Bucket

/-- The bucket from which a bucket was split. Bucket 0 is the root of the splitting and has none.
-/
def parent (bucket : Bucket) : Checked Bucket :=
  if bucket = 0 then .error .rootWithoutParent else .ok (clearHighestBit bucket)

/-- The parents of a bucket, from the nearest on, as long as there are any and at most so many. -/
def ancestorsWithin : Nat → Bucket → List Bucket
  | 0, _ => []
  | generations + 1, bucket =>
    match parent bucket with
    | .ok above => above :: ancestorsWithin generations above
    | .error _ => []

/-- The parents of a bucket, from the nearest to bucket 0. Each step clears a bit, so 64 are
enough for any bucket. -/
def ancestors (bucket : Bucket) : List Bucket :=
  ancestorsWithin 64 bucket

@[simp] theorem parent_zero : parent 0 = .error .rootWithoutParent := rfl

theorem parent_of_ne_zero {bucket : Bucket} (h : bucket ≠ 0) :
    parent bucket = .ok (clearHighestBit bucket) :=
  if_neg h

end Bucket

end SplitOrder
