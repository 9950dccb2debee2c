import SplitOrder.Proofs.Checked
import SplitOrder.Proofs.Table.OrderKey
import SplitOrder.Table.Basic

/-!
# Where entries stand among the sentinels

A table of `2 ^ m` buckets reads the lowest `m` bits of a hash, and these come first in split order.
So a key cut off behind its first `m` bits tells the bucket, and is where the sentinel of that bucket
stands: to look for the last sentinel in front of an entry is to cut the key of the entry.

* `OrderKey.Reads` — the key reads the bits of a number from the lowest on, its own lowest bit left
  aside. Keys of entries and keys of sentinels both do.
* `OrderKey.cut` — the key cut off. Cutting keeps the order (`cut_mono`), never takes a key back
  behind another one that is cut (`cut_le`), and leads to a sentinel (`cut_eq_of_reads`).
* `OrderKey.LastBefore` — the last sentinel in front of an entry.
* `OrderKey.SplitAt` — what becomes of the entries of a bucket when the number of buckets doubles.
* `OrderKey.lastBefore_lowBits` — both, whatever the number of buckets.
-/

namespace SplitOrder

/-! ### Low bits -/

/-- The lowest bits of a word, as many as told. -/
def lowBits (m : Nat) (n : UInt64) : UInt64 :=
  .ofNat (n.toNat % 2 ^ m)

@[simp] theorem toNat_lowBits (m : Nat) (n : UInt64) : (lowBits m n).toNat = n.toNat % 2 ^ m :=
  UInt64.toNat_ofNat_of_lt (Nat.lt_of_le_of_lt (Nat.mod_le ..) n.toNat_lt)

theorem lowBits_eq_iff {m : Nat} {n b : UInt64} : lowBits m n = b ↔ n.toNat % 2 ^ m = b.toNat := by
  rw [← UInt64.toNat_inj, toNat_lowBits]

theorem lowBits_of_lt {m : Nat} {n : UInt64} (h : n.toNat < 2 ^ m) : lowBits m n = n :=
  lowBits_eq_iff.mpr (Nat.mod_eq_of_lt h)

/-- One more bit is clear or set. -/
theorem mod_two_pow_succ_cases (n m : Nat) :
    n % 2 ^ (m + 1) = n % 2 ^ m ∨ n % 2 ^ (m + 1) = n % 2 ^ m + 2 ^ m := by
  have hsplit : n % 2 ^ (m + 1) = n % 2 ^ m + 2 ^ m * (n / 2 ^ m % 2) := Nat.mod_pow_succ
  rcases Nat.mod_two_eq_zero_or_one (n / 2 ^ m) with hbit | hbit
  · left
    rw [hsplit, hbit, Nat.mul_zero, Nat.add_zero]
  · right
    rw [hsplit, hbit, Nat.mul_one]

/-- A table reads as many low bits as tell its buckets apart. -/
theorem Table.bucketOf_eq_lowBits {κ ν : Type} {t : Table κ ν} {m : Nat}
    (h : t.bucketCount.toNat = 2 ^ m) (hash : UInt64) : t.bucketOf hash = .ok (lowBits m hash) := by
  have hpos : 1 ≤ t.bucketCount := by
    rw [UInt64.le_iff_toNat_le, h]
    exact Nat.two_pow_pos m
  rw [bucketOf, Word.checkedSub, if_pos hpos, Checked.ok_bind]
  refine congrArg Except.ok (UInt64.toNat_inj.mp ?_)
  rw [UInt64.toNat_and, UInt64.toNat_sub_of_le _ _ hpos, h, toNat_lowBits]
  exact Nat.and_two_pow_sub_one_eq_mod ..

namespace OrderKey

/-! ### Keys cut off -/

/-- The key cut off behind its first `m` bits: the others are cleared. -/
def cut (m : Nat) (k : OrderKey) : Nat :=
  k.toNat / 2 ^ (64 - m) * 2 ^ (64 - m)

theorem testBit_cut (m : Nat) (k : OrderKey) (j : Nat) :
    (k.cut m).testBit j = (decide (64 - m ≤ j) && k.toNat.testBit j) := by
  unfold cut
  rw [Nat.testBit_mul_two_pow]
  by_cases hj : 64 - m ≤ j
  · rw [Nat.testBit_div_two_pow, Nat.sub_add_cancel hj]
  · simp [hj]

theorem cut_le (m : Nat) (k : OrderKey) : k.cut m ≤ k.toNat :=
  Nat.div_mul_le_self ..

theorem cut_mono (m : Nat) {a b : OrderKey} (h : a ≤ b) : a.cut m ≤ b.cut m :=
  Nat.mul_le_mul_right _ (Nat.div_le_div_right (UInt64.le_iff_toNat_le.mp h))

/-! ### Keys that read a number -/

/-- The bits of the key, from the highest on, are those of the number, from the lowest on. Nothing is
said of the lowest bit of the key, which tells entries from sentinels. -/
def Reads (k : OrderKey) (n : UInt64) : Prop :=
  ∀ i, 0 < i → i < 64 → k.toNat.testBit i = n.toNat.testBit (63 - i)

theorem reads_ofHash (hash : UInt64) : (ofHash hash).Reads hash := by
  intro i hpos hi
  rw [testBit_ofHash hash hi]
  simp [Nat.ne_of_gt hpos]

theorem reads_ofBucket (bucket : Bucket) : (ofBucket bucket).Reads bucket := by
  intro i hpos hi
  rw [testBit_ofBucket bucket hi]
  simp [Nat.ne_of_gt hpos]

variable {m : Nat} {k : OrderKey} {n : UInt64}

/-- **To cut a key is to go back to a sentinel**: that of the bucket which the low bits of the number
tell. -/
theorem cut_eq_of_reads (hm : m < 64) (h : k.Reads n) :
    k.cut m = (ofBucket (lowBits m n)).toNat := by
  refine Nat.eq_of_testBit_eq fun j => ?_
  rw [testBit_cut]
  by_cases hj : j < 64
  · rw [testBit_ofBucket _ hj, toNat_lowBits, Nat.testBit_mod_two_pow]
    -- bit `j` of the key is bit `63 - j` of the number, and is kept if that is one of the lowest
    by_cases hkept : 64 - m ≤ j
    · have hpos : 0 < j := by omega
      have hlow : 63 - j < m := by omega
      rw [h j hpos hj]
      simp [hkept, hlow, Nat.ne_of_gt hpos]
    · have hhigh : ¬ 63 - j < m := by omega
      simp [hkept, hhigh]
  · -- neither has so many bits
    have hpow : 2 ^ 64 ≤ 2 ^ j := Nat.pow_le_pow_right (by decide) (Nat.le_of_not_lt hj)
    rw [Nat.testBit_lt_two_pow (Nat.lt_of_lt_of_le k.toNat_lt hpow), Bool.and_false,
      Nat.testBit_lt_two_pow (Nat.lt_of_lt_of_le (ofBucket _).toNat_lt hpow)]

/-- The key of a sentinel is cut off already. -/
theorem cut_ofBucket (hm : m < 64) {bucket : Bucket} (h : bucket.toNat < 2 ^ m) :
    (ofBucket bucket).cut m = (ofBucket bucket).toNat := by
  rw [cut_eq_of_reads hm (reads_ofBucket bucket), lowBits_of_lt h]

/-- The sentinel that a key is cut off to is not behind it. -/
theorem ofBucket_lowBits_le (hm : m < 64) (h : k.Reads n) : ofBucket (lowBits m n) ≤ k := by
  rw [UInt64.le_iff_toNat_le, ← cut_eq_of_reads hm h]
  exact cut_le m k

/-- No other sentinel comes between: whichever is not behind the key is not behind that one. -/
theorem ofBucket_le_ofBucket_lowBits (hm : m < 64) (h : k.Reads n) {c : Bucket}
    (hc : c.toNat < 2 ^ m) (hle : ofBucket c ≤ k) : ofBucket c ≤ ofBucket (lowBits m n) := by
  rw [UInt64.le_iff_toNat_le]
  calc (ofBucket c).toNat
      _ = (ofBucket c).cut m := (cut_ofBucket hm hc).symm
      _ ≤ k.cut m := cut_mono m hle
      _ = (ofBucket (lowBits m n)).toNat := cut_eq_of_reads hm h

/-- An entry never stands where a sentinel does: its key is odd. -/
theorem ofBucket_ne_ofHash (bucket : Bucket) (hash : UInt64) : ofBucket bucket ≠ ofHash hash := by
  intro h
  have hbit := congrArg (fun k : OrderKey => k.toNat.testBit 0) h
  simp only [testBit_ofBucket bucket (show 0 < 64 by decide),
    testBit_ofHash hash (show 0 < 64 by decide)] at hbit
  simp at hbit

theorem ofBucket_lowBits_lt_ofHash (hm : m < 64) (hash : UInt64) :
    ofBucket (lowBits m hash) < ofHash hash :=
  UInt64.lt_of_le_of_ne (ofBucket_lowBits_le hm (reads_ofHash hash)) (ofBucket_ne_ofHash _ _)

/-! ### Entries and sentinels -/

/-- **The last sentinel in front of an entry**, among those of the first `2 ^ m` buckets. -/
structure LastBefore (m : Nat) (own : Bucket) (hash : UInt64) : Prop where
  lt : ofBucket own < ofHash hash
  last : ∀ c : Bucket, c.toNat < 2 ^ m → ofBucket c < ofHash hash → ofBucket c ≤ ofBucket own

/-- The bucket that is split off from `b` when there are `2 ^ m` buckets was not there before, and `b`
is its parent. -/
theorem clearHighestBit_twin {b twin : Bucket} (hb : b.toNat < 2 ^ m)
    (htwin : twin.toNat = b.toNat + 2 ^ m) :
    twin ≠ 0 ∧ twin.toNat < 2 ^ (m + 1) ∧ clearHighestBit twin = b := by
  have hpos : 0 < 2 ^ m := Nat.two_pow_pos m
  have hbelow : twin.toNat < 2 ^ (m + 1) := by
    rw [htwin, Nat.pow_succ]
    omega
  have hne : twin ≠ 0 := by
    rintro rfl
    rw [UInt64.toNat_zero] at htwin
    omega
  have hlog : twin.toNat.log2 = m := by
    rw [Nat.log2_eq_iff (by omega)]
    exact ⟨by omega, hbelow⟩
  refine ⟨hne, hbelow, UInt64.toNat_inj.mp ?_⟩
  rw [toNat_clearHighestBit hne, hlog, htwin, Nat.add_mod_right, Nat.mod_eq_of_lt hb]

/-- **The entries of a bucket are split at one point**, where the sentinel of the new bucket stands
when the number of buckets doubles. -/
structure SplitAt (m : Nat) (own twin : Bucket) (hash : UInt64) : Prop where
  behind : ofBucket own < ofBucket twin
  /-- In front of it stay the entries that stay in their bucket. -/
  stays : ofHash hash < ofBucket twin ↔ lowBits (m + 1) hash = own
  /-- Behind it come those of the new bucket. -/
  moves : ofBucket twin < ofHash hash ↔ lowBits (m + 1) hash = twin

theorem splitAt_lowBits (hm : m < 63) (hash : UInt64) {twin : Bucket}
    (htwin : twin.toNat = (lowBits m hash).toNat + 2 ^ m) :
    SplitAt m (lowBits m hash) twin hash := by
  have hm' : m + 1 < 64 := by omega
  have hown : (lowBits m hash).toNat < 2 ^ m := by
    rw [toNat_lowBits]
    exact Nat.mod_lt _ (Nat.two_pow_pos m)
  obtain ⟨hne, hbelow, hparent⟩ := clearHighestBit_twin hown htwin
  have hsmall : twin.toNat < 2 ^ 63 :=
    Nat.lt_of_lt_of_le hbelow (Nat.pow_le_pow_right (by decide) (by omega))
  have hbehind : ofBucket (lowBits m hash) < ofBucket twin := by
    have hfront := ofBucket_clearHighestBit_lt hne hsmall
    rwa [hparent] at hfront
  -- either the entry is one of the new bucket, which then stands in front of it
  have hmoves : lowBits (m + 1) hash = twin → ofBucket twin < ofHash hash := by
    intro h
    rw [← h]
    exact ofBucket_lowBits_lt_ofHash hm' hash
  -- or it is not, and then the new bucket cannot be the last one in front of it
  have hstays : lowBits (m + 1) hash = lowBits m hash → ofHash hash < ofBucket twin := by
    intro h
    have hback : ¬ ofBucket twin ≤ ofHash hash := by
      intro hle
      have hlast := ofBucket_le_ofBucket_lowBits hm' (reads_ofHash hash) hbelow hle
      rw [h] at hlast
      exact UInt64.not_lt.mpr hlast hbehind
    exact UInt64.not_le.mp hback
  have hcases : lowBits (m + 1) hash = lowBits m hash ∨ lowBits (m + 1) hash = twin := by
    rw [lowBits_eq_iff, lowBits_eq_iff, htwin, toNat_lowBits]
    exact mod_two_pow_succ_cases hash.toNat m
  refine ⟨hbehind, ⟨fun hlt => ?_, hstays⟩, ⟨fun hlt => ?_, hmoves⟩⟩
  · refine hcases.resolve_right fun h => ?_
    exact UInt64.lt_irrefl _ (UInt64.lt_trans hlt (hmoves h))
  · refine hcases.resolve_left fun h => ?_
    exact UInt64.lt_irrefl _ (UInt64.lt_trans hlt (hstays h))

/-- **Placement in split order.** Whatever the number of buckets, the last sentinel in front of an
entry is that of its own bucket, and its own bucket is what the table makes of its hash. When the
number of buckets doubles, the entries of each bucket are split at one point. -/
theorem lastBefore_lowBits (hm : m < 64) (hash : UInt64) :
    LastBefore m (lowBits m hash) hash ∧
      (∀ {κ ν : Type} {t : Table κ ν}, t.bucketCount.toNat = 2 ^ m →
        t.bucketOf hash = .ok (lowBits m hash)) ∧
      (m < 63 → ∀ twin : Bucket, twin.toNat = (lowBits m hash).toNat + 2 ^ m →
        SplitAt m (lowBits m hash) twin hash) := by
  refine ⟨⟨ofBucket_lowBits_lt_ofHash hm hash, fun c hc hlt => ?_⟩,
    fun h => Table.bucketOf_eq_lowBits h hash, fun hm' _ htwin => splitAt_lowBits hm' hash htwin⟩
  exact ofBucket_le_ofBucket_lowBits hm (reads_ofHash hash) hc (UInt64.le_of_lt hlt)

/-- The greatest number of buckets that can be doubled, and a hash whose highest bit is lost in its
key: the entry is in the greatest bucket, and is one of those that move. -/
theorem lastBefore_lowBits_of_highest_bit :
    62 < 64 ∧ LastBefore 62 0x3fffffffffffffff 0xffffffffffffffff ∧
      SplitAt 62 0x3fffffffffffffff 0x7fffffffffffffff 0xffffffffffffffff ∧
      OrderKey.ofBucket 0x7fffffffffffffff < OrderKey.ofHash 0xffffffffffffffff := by
  have hown : lowBits 62 0xffffffffffffffff = 0x3fffffffffffffff := by decide
  obtain ⟨hlast, -, hsplit⟩ := lastBefore_lowBits (m := 62) (by decide) 0xffffffffffffffff
  rw [hown] at hlast hsplit
  have hat := hsplit (by decide) 0x7fffffffffffffff (by decide)
  exact ⟨by decide, hlast, hat, hat.moves.mpr (by decide)⟩

end OrderKey

end SplitOrder
