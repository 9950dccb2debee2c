import Mathlib.Data.Finset.Card
import Mathlib.Data.Finset.Range
import Mathlib.Data.Nat.ModEq
import SplitOrder.Proofs.Table.Intact
import SplitOrder.Proofs.Table.Placement

/-!
# Buckets and the buckets they were split from

A bucket and its parent differ in the highest bit of the bucket. In split order that bit is the last
one that tells them apart, so what stands between their sentinels agrees with the parent on it and on
all bits below it.

* `Bucket.SplitFrom` — a bucket and its parent: how they are ordered, and that a search for the
  sentinel of the one may start at the other.
* `Bucket.Between` — what stands between the two sentinels.
* `Bucket.Lineage` — the line of parents, down to bucket 0. There is one for each bit that is set
  (`bitCount`).
* `sentinelWithin_eq_of_lt` — obtaining a sentinel goes through no more generations than that.
-/

namespace SplitOrder

namespace Bucket

open OrderKey
open SortedList (Sound Guards Inserts insertAfter_spec)

/-! ### Bits that are set -/

/-- The bits of a bucket that are set. -/
def setBits (bucket : Bucket) : Finset Nat :=
  (Finset.range 64).filter fun i => bucket.toNat.testBit i

/-- The number of bits that are set. -/
def bitCount (bucket : Bucket) : Nat :=
  (setBits bucket).card

variable {bucket above c : Bucket}

theorem bitCount_le (bucket : Bucket) : bitCount bucket ≤ 64 :=
  Nat.le_trans (Finset.card_filter_le _ _) (Nat.le_of_eq (Finset.card_range 64))

/-- The bits of a bucket are those of its parent and its highest bit. -/
theorem setBits_eq_insert (hne : bucket ≠ 0) :
    setBits bucket = insert bucket.toNat.log2 (setBits (clearHighestBit bucket)) := by
  have hne' : bucket.toNat ≠ 0 := fun h => hne (UInt64.toNat_inj.mp h)
  have hlog : bucket.toNat.log2 < 64 := log2_lt_64 bucket
  ext i
  rw [setBits, setBits, Finset.mem_insert, Finset.mem_filter, Finset.mem_filter, Finset.mem_range,
    toNat_clearHighestBit hne, Nat.testBit_mod_two_pow]
  rcases Nat.lt_trichotomy i bucket.toNat.log2 with hi | hi | hi
  · simp [hi, Nat.ne_of_lt hi]
  · simp [hi, hlog, Nat.testBit_log2 hne']
  · -- above the highest bit none is set
    have hclear : bucket.toNat.testBit i = false :=
      Nat.testBit_lt_two_pow ((Nat.log2_lt hne').mp hi)
    simp [hclear, Nat.ne_of_gt hi]

theorem bitCount_eq_add_one (hne : bucket ≠ 0) :
    bitCount bucket = bitCount (clearHighestBit bucket) + 1 := by
  have hnew : bucket.toNat.log2 ∉ setBits (clearHighestBit bucket) := by
    rw [setBits, Finset.mem_filter, toNat_clearHighestBit hne, Nat.testBit_mod_two_pow]
    simp
  rw [bitCount, setBits_eq_insert hne, Finset.card_insert_of_notMem hnew, bitCount]

theorem bitCount_zero : bitCount 0 = 0 := by
  rw [bitCount, setBits, Finset.card_eq_zero, Finset.filter_eq_empty_iff]
  intro i _
  simp

/-! ### A bucket and its parent -/

/-- **A bucket and the one that it was split from.** -/
structure SplitFrom (above bucket : Bucket) : Prop where
  parent : bucket.parent = .ok above
  lt : above < bucket
  behind : ofBucket above < ofBucket bucket
  /-- The sentinel of the bucket can be inserted from that of its parent on. -/
  start : ∀ {κ ν : Type} [Ord κ] [Std.TransOrd κ] {l : SortedList (Entry κ ν)} {i : NodeId},
    l.Sound → l.Guards above i →
    ∃ ins l', l.insertAfter i (.sentinelOf bucket) = .ok (ins, l') ∧
      l.Inserts (.sentinelOf bucket) ins l'

theorem splitFrom_clearHighestBit (hne : bucket ≠ 0) (h : bucket.toNat < 2 ^ 63) :
    SplitFrom (clearHighestBit bucket) bucket where
  parent := parent_of_ne_zero hne
  lt := clearHighestBit_lt_self hne
  behind := ofBucket_clearHighestBit_lt hne h
  start := by
    intro κ ν _ _ l i hl hguards
    exact insertAfter_spec hl (hguards.inFront hl (Entry.compare_sentinelOf_parent hne h))

/-- **What stands between the sentinel of a bucket and that of its parent**: only sentinels and
entries that agree with the parent on all bits up to the highest one of the bucket. -/
structure Between (above bucket : Bucket) : Prop where
  sentinels : ∀ c : Bucket, c.toNat < 2 ^ 63 → ofBucket above < ofBucket c →
    ofBucket c < ofBucket bucket →
    c.toNat ≡ above.toNat [MOD 2 ^ (bucket.toNat.log2 + 1)] ∧ bucket < c
  entries : ∀ hash : UInt64, ofBucket above < ofHash hash → ofHash hash < ofBucket bucket →
    hash.toNat ≡ above.toNat [MOD 2 ^ (bucket.toNat.log2 + 1)]

theorem log2_lt_63 (hne : bucket ≠ 0) (h : bucket.toNat < 2 ^ 63) : bucket.toNat.log2 < 63 :=
  (Nat.log2_lt fun h => hne (UInt64.toNat_inj.mp h)).mpr h

/-- The bits below the highest one are those of the parent. -/
theorem lowBits_log2 (hne : bucket ≠ 0) :
    lowBits bucket.toNat.log2 bucket = clearHighestBit bucket :=
  lowBits_eq_iff.mpr (toNat_clearHighestBit hne).symm

/-- A number that agrees with the parent on these agrees, on one more, with the one or the other. -/
theorem lowBits_succ_log2_cases {n : UInt64} (hne : bucket ≠ 0)
    (h : lowBits bucket.toNat.log2 n = clearHighestBit bucket) :
    lowBits (bucket.toNat.log2 + 1) n = clearHighestBit bucket ∨
      lowBits (bucket.toNat.log2 + 1) n = bucket := by
  have hne' : bucket.toNat ≠ 0 := fun h => hne (UInt64.toNat_inj.mp h)
  have hle : 2 ^ bucket.toNat.log2 ≤ bucket.toNat := Nat.log2_self_le hne'
  have hlt : bucket.toNat < 2 ^ (bucket.toNat.log2 + 1) := Nat.lt_log2_self
  have hself : bucket.toNat % 2 ^ bucket.toNat.log2 + 2 ^ bucket.toNat.log2 = bucket.toNat := by
    rw [Nat.pow_succ] at hlt
    rw [Nat.mod_eq_sub_mod hle, Nat.mod_eq_of_lt (by omega)]
    omega
  have hcases := mod_two_pow_succ_cases n.toNat bucket.toNat.log2
  rw [lowBits_eq_iff.mp h, toNat_clearHighestBit hne, hself] at hcases
  rwa [lowBits_eq_iff, lowBits_eq_iff, toNat_clearHighestBit hne]

/-- **Between the two sentinels**, a key reads the parent. -/
theorem lowBits_eq_of_between {k : OrderKey} {n : UInt64} (hne : bucket ≠ 0)
    (h : bucket.toNat < 2 ^ 63) (hreads : k.Reads n)
    (hbehind : ofBucket (clearHighestBit bucket) ≤ k) (hfront : k < ofBucket bucket) :
    lowBits (bucket.toNat.log2 + 1) n = clearHighestBit bucket := by
  have hlog : bucket.toNat.log2 < 63 := log2_lt_63 hne h
  have hsmall : ∀ n : UInt64, (lowBits bucket.toNat.log2 n).toNat < 2 ^ 63 := by
    intro n
    rw [toNat_lowBits]
    exact Nat.lt_of_lt_of_le (Nat.mod_lt _ (Nat.two_pow_pos _))
      (Nat.pow_le_pow_right (by decide) (Nat.le_of_lt hlog))
  have habove : (clearHighestBit bucket).toNat < 2 ^ bucket.toNat.log2 := by
    rw [toNat_clearHighestBit hne]
    exact Nat.mod_lt _ (Nat.two_pow_pos _)
  -- cut off behind the bits that the two buckets share, all three keys are that of the parent
  have hcut : lowBits bucket.toNat.log2 n = clearHighestBit bucket := by
    refine ofBucket_injective (hsmall n) (lowBits_log2 hne ▸ hsmall bucket)
      (UInt64.toNat_inj.mp ?_)
    rw [← cut_eq_of_reads (by omega) hreads]
    apply Nat.le_antisymm
    · calc k.cut bucket.toNat.log2
          _ ≤ (ofBucket bucket).cut bucket.toNat.log2 := cut_mono _ (UInt64.le_of_lt hfront)
          _ = (ofBucket (clearHighestBit bucket)).toNat := by
            rw [cut_eq_of_reads (by omega) (reads_ofBucket bucket), lowBits_log2 hne]
    · calc (ofBucket (clearHighestBit bucket)).toNat
          _ = (ofBucket (clearHighestBit bucket)).cut bucket.toNat.log2 :=
            (cut_ofBucket (by omega) habove).symm
          _ ≤ k.cut bucket.toNat.log2 := cut_mono _ hbehind
  -- the next bit is not set, or the key would not be in front of the bucket
  refine (lowBits_succ_log2_cases hne hcut).resolve_right fun hset => ?_
  have hle := ofBucket_lowBits_le (m := bucket.toNat.log2 + 1) (by omega) hreads
  rw [hset] at hle
  exact UInt64.not_lt.mpr hle hfront

/-- To agree with the parent on all bits up to the highest one of the bucket is to be congruent to
it. -/
theorem modEq_of_lowBits_eq {n : UInt64} (hne : bucket ≠ 0)
    (h : lowBits (bucket.toNat.log2 + 1) n = clearHighestBit bucket) :
    n.toNat ≡ (clearHighestBit bucket).toNat [MOD 2 ^ (bucket.toNat.log2 + 1)] := by
  have hlt : (clearHighestBit bucket).toNat < 2 ^ (bucket.toNat.log2 + 1) :=
    Nat.lt_trans (UInt64.lt_iff_toNat_lt.mp (clearHighestBit_lt_self hne)) Nat.lt_log2_self
  rw [Nat.ModEq, lowBits_eq_iff.mp h, Nat.mod_eq_of_lt hlt]

theorem between_clearHighestBit (hne : bucket ≠ 0) (h : bucket.toNat < 2 ^ 63) :
    Between (clearHighestBit bucket) bucket where
  sentinels := by
    intro c _ hbehind hfront
    have hlow : lowBits (bucket.toNat.log2 + 1) c = clearHighestBit bucket :=
      lowBits_eq_of_between hne h (reads_ofBucket c) (UInt64.le_of_lt hbehind) hfront
    refine ⟨modEq_of_lowBits_eq hne hlow, ?_⟩
    -- if it had no more bits than the bucket, it would be the parent itself
    have hlarge : ¬ c.toNat < 2 ^ (bucket.toNat.log2 + 1) := by
      intro hlt
      rw [lowBits_of_lt hlt] at hlow
      rw [hlow] at hbehind
      exact UInt64.lt_irrefl _ hbehind
    exact UInt64.lt_iff_toNat_lt.mpr (Nat.lt_of_lt_of_le Nat.lt_log2_self (Nat.not_lt.mp hlarge))
  entries := by
    intro hash hbehind hfront
    exact modEq_of_lowBits_eq hne
      (lowBits_eq_of_between hne h (reads_ofHash hash) (UInt64.le_of_lt hbehind) hfront)

/-! ### The line of parents -/

/-- **The line of a bucket**: one parent after the other, down to bucket 0. -/
structure Lineage (bucket : Bucket) (line : List Bucket) : Prop where
  chain : (bucket :: line).IsChain fun child above => SplitFrom above child
  root : (bucket :: line).getLast? = some 0
  length : line.length = bitCount bucket
  descending : (bucket :: line).Pairwise fun child above => ofBucket above < ofBucket child

theorem lineage_zero : Lineage 0 [] :=
  ⟨.singleton _, rfl, bitCount_zero.symm, List.pairwise_singleton _ _⟩

theorem Lineage.cons {line : List Bucket} (hne : bucket ≠ 0) (hsplit : SplitFrom above bucket)
    (h : Lineage above line) : Lineage bucket (above :: line) where
  chain := .cons_cons hsplit h.chain
  root := by
    rw [List.getLast?_cons_cons]
    exact h.root
  length := by
    have habove : clearHighestBit bucket = above :=
      Except.ok.inj ((parent_of_ne_zero hne).symm.trans hsplit.parent)
    rw [List.length_cons, h.length, bitCount_eq_add_one hne, habove]
  descending := by
    rw [List.pairwise_cons]
    refine ⟨fun b hb => ?_, h.descending⟩
    rcases List.mem_cons.mp hb with rfl | hb
    · exact hsplit.behind
    · exact UInt64.lt_trans ((List.pairwise_cons.mp h.descending).1 b hb) hsplit.behind

/-- As many generations as there are bits lead to bucket 0. -/
theorem lineage_ancestorsWithin {g : Nat} (h : bucket.toNat < 2 ^ 63) (hg : bitCount bucket ≤ g) :
    Lineage bucket (ancestorsWithin g bucket) := by
  induction g generalizing bucket with
  | zero =>
    have hzero : bucket = 0 := by
      by_contra hne
      rw [bitCount_eq_add_one hne] at hg
      omega
    rw [hzero]
    exact lineage_zero
  | succ g ih =>
    rw [ancestorsWithin]
    by_cases hne : bucket = 0
    · rw [hne, parent_zero]
      exact lineage_zero
    · rw [parent_of_ne_zero hne]
      rw [bitCount_eq_add_one hne] at hg
      have hsmall : (clearHighestBit bucket).toNat < 2 ^ 63 :=
        Nat.lt_trans (UInt64.lt_iff_toNat_lt.mp (clearHighestBit_lt_self hne)) h
      exact (ih hsmall (Nat.le_of_succ_le_succ hg)).cons hne (splitFrom_clearHighestBit hne h)

theorem lineage_ancestors (h : bucket.toNat < 2 ^ 63) : Lineage bucket bucket.ancestors :=
  lineage_ancestorsWithin h (bitCount_le bucket)

end Bucket

/-! ### How deep the search for a sentinel goes -/

namespace Table

variable {κ ν : Type} [Ord κ] {t : Table κ ν} {bucket : Bucket}

/-- More generations than there are bits are never needed: each parent has one bit less, and bucket 0
has a sentinel. -/
theorem sentinelWithin_eq_of_lt {node : NodeId} (hroot : t.directory.get 0 = .ok (some node))
    {g g' : Nat} (hg : bucket.bitCount < g) (hg' : bucket.bitCount < g') :
    t.sentinelWithin g bucket = t.sentinelWithin g' bucket := by
  induction g generalizing bucket g' with
  | zero => exact absurd hg (Nat.not_lt_zero _)
  | succ g ih =>
    obtain ⟨g', rfl⟩ := Nat.exists_eq_add_one_of_ne_zero (Nat.ne_zero_of_lt hg')
    rw [sentinelWithin, sentinelWithin]
    by_cases hne : bucket = 0
    · rw [hne, hroot]
      rfl
    · rw [Bucket.bitCount_eq_add_one hne] at hg hg'
      rw [Bucket.parent_of_ne_zero hne]
      simp only [Checked.ok_bind, ih (Nat.lt_of_succ_lt_succ hg) (Nat.lt_of_succ_lt_succ hg')]

end Table

namespace Bucket

/-- **How deep the search for the sentinel of a bucket goes**: through one generation for each bit of
the bucket, and that is enough. -/
structure Depth (bucket : Bucket) : Prop where
  bound : ∀ {κ ν : Type} [Ord κ] {t : Table κ ν} {node : NodeId},
    t.directory.get 0 = .ok (some node) → ∀ g, bitCount bucket < g →
    t.sentinelWithin g bucket = t.sentinel bucket
  enough : ∀ {κ ν : Type} [Ord κ] [Std.TransOrd κ] {t : Table κ ν},
    t.Intact → bucket < Directory.capacity →
    ∃ node t', t.sentinelWithin (bitCount bucket + 1) bucket = .ok (node, t') ∧
      t'.list.Guards bucket node

theorem depth (bucket : Bucket) : Depth bucket := by
  have hbound : ∀ {κ ν : Type} [Ord κ] {t : Table κ ν} {node : NodeId},
      t.directory.get 0 = .ok (some node) → ∀ g, bitCount bucket < g →
      t.sentinelWithin g bucket = t.sentinel bucket := by
    intro κ ν _ t node hroot g hg
    exact Table.sentinelWithin_eq_of_lt hroot hg (Nat.lt_succ_of_le (bitCount_le bucket))
  refine ⟨hbound, ?_⟩
  intro κ ν _ _ t ht hlt
  have hroot : t.directory.get 0 = .ok (some head) := by
    rw [Directory.get_eq ht.directory (by decide), ht.root]
  obtain ⟨node, t', hsentinel, -, -, -, hguards⟩ :=
    Table.sentinelWithin_spec (g := 64) ht hlt (UInt64.toNat_lt _)
  exact ⟨node, t', (hbound hroot _ (Nat.lt_succ_self _)).trans hsentinel, hguards⟩

/-- **A bucket and its ancestors.** The parent is in front of the bucket in both orders, and what
stands between their sentinels agrees with it. The line of parents ends at bucket 0 after as many
steps as the bucket has bits. Each of them is a place from which the sentinel of its child can be
inserted, and no more of them are needed to obtain that of the bucket. -/
theorem splitFrom_between_lineage {bucket : Bucket} (hne : bucket ≠ 0)
    (h : bucket.toNat < 2 ^ 63) :
    (∃ above, SplitFrom above bucket ∧ Between above bucket) ∧
      Lineage bucket bucket.ancestors ∧ Depth bucket :=
  ⟨⟨_, splitFrom_clearHighestBit hne h, between_clearHighestBit hne h⟩, lineage_ancestors h,
    depth bucket⟩

/-- A bucket of 62 bits, two of them set: between its sentinel and that of its parent there are
the sentinel of a bucket of 63 bits, and the entries whose hashes differ from the parent in the
highest bit, which is lost in their keys. -/
theorem splitFrom_between_lineage_of_two_bits :
    (0x2000000000000001 : Bucket) ≠ 0 ∧
      SplitFrom 1 0x2000000000000001 ∧
      (0x4000000000000001 : Bucket).toNat ≡ 1 [MOD 2 ^ 62] ∧
      (0x8000000000000001 : UInt64).toNat ≡ 1 [MOD 2 ^ 62] ∧
      Lineage 0x2000000000000001 [1, 0] := by
  obtain ⟨⟨above, hsplit, hbetween⟩, hline, -⟩ :=
    @splitFrom_between_lineage 0x2000000000000001 (by decide) (by decide)
  obtain rfl : above = 1 := Except.ok.inj (hsplit.parent.symm.trans (by decide))
  refine ⟨by decide, hsplit, ?_, ?_, hline⟩
  · exact (hbetween.sentinels 0x4000000000000001 (by decide) (by decide +kernel)
      (by decide +kernel)).1
  · exact hbetween.entries 0x8000000000000001 (by decide +kernel) (by decide +kernel)

end Bucket

end SplitOrder
