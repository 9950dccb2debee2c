import Mathlib.Algebra.Group.Nat.Defs
import SplitOrder.OrderKey

/-!
# Sentinels stand in front of what they guard

Facts about split order that the table rests on. They are read off the bits: a word whose bits
are all set in another one is not above it (`lt_of_testBit`).

* `ofBucket_clearHighestBit_lt` — a sentinel stands behind that of the bucket it was split from.
* `ofBucket_and_lt_ofHash` — an entry stands behind the sentinel of its bucket, whatever number of
  low bits of its hash tells the bucket.
* `clearHighestBit_lt` — a bucket of `n + 1` bits was split from one of `n` bits.
* `ofBucket_injective` — the place of a sentinel tells its bucket.
-/

namespace SplitOrder

/-- A word is below another one if its bits are among those of the other one and are not all of
them. -/
theorem lt_of_testBit {a b : UInt64} {i : Nat}
    (hsub : ∀ j < 64, a.toNat.testBit j = true → b.toNat.testBit j = true)
    (ha : a.toNat.testBit i = false) (hb : b.toNat.testBit i = true) : a < b := by
  have hand : a.toNat &&& b.toNat = a.toNat := by
    refine Nat.eq_of_testBit_eq fun j => ?_
    rw [Nat.testBit_and]
    by_cases hj : j < 64
    · cases hbit : a.toNat.testBit j with
      | false => rfl
      | true => rw [hsub j hj hbit]; rfl
    · have hlarge : a.toNat < 2 ^ j :=
        Nat.lt_of_lt_of_le a.toNat_lt (Nat.pow_le_pow_right (by decide) (Nat.le_of_not_lt hj))
      rw [Nat.testBit_lt_two_pow hlarge]
      rfl
  have hle : a.toNat ≤ b.toNat := hand ▸ Nat.and_le_right
  have hne : a.toNat ≠ b.toNat := by
    intro heq
    rw [heq, hb] at ha
    cases ha
  exact UInt64.lt_iff_toNat_lt.mpr (Nat.lt_of_le_of_ne hle hne)

theorem testBit_reverseBits (n : UInt64) {i : Nat} (hi : i < 64) :
    (reverseBits n).toNat.testBit i = n.toNat.testBit (63 - i) := by
  rw [← UInt64.toNat_toBitVec, ← UInt64.toNat_toBitVec, BitVec.testBit_toNat, BitVec.testBit_toNat,
    toBitVec_reverseBits, BitVec.getLsbD_reverse, BitVec.getMsbD]
  simp [hi]

theorem testBit_ofHash (hash : UInt64) {i : Nat} (hi : i < 64) :
    (OrderKey.ofHash hash).toNat.testBit i = (hash.toNat.testBit (63 - i) || decide (i = 0)) := by
  have hone : ∀ i < 64, (1 : UInt64).toNat.testBit i = decide (i = 0) := by decide
  rw [OrderKey.ofHash, UInt64.toNat_or, Nat.testBit_or, testBit_reverseBits hash hi, hone i hi]

theorem testBit_ofBucket (bucket : Bucket) {i : Nat} (hi : i < 64) :
    (OrderKey.ofBucket bucket).toNat.testBit i =
      (bucket.toNat.testBit (63 - i) && decide (i ≠ 0)) := by
  have hmask : ∀ i < 64, (~~~1 : UInt64).toNat.testBit i = decide (i ≠ 0) := by decide
  rw [OrderKey.ofBucket, UInt64.toNat_and, Nat.testBit_and, testBit_reverseBits bucket hi,
    hmask i hi]

/-- **An entry stands behind the sentinel of its bucket.** -/
theorem ofBucket_and_lt_ofHash (hash mask : UInt64) :
    OrderKey.ofBucket (hash &&& mask) < OrderKey.ofHash hash := by
  have hzero : (OrderKey.ofBucket (hash &&& mask)).toNat.testBit 0 = false := by
    rw [testBit_ofBucket _ (by decide)]
    simp
  have hone : (OrderKey.ofHash hash).toNat.testBit 0 = true := by
    rw [testBit_ofHash _ (by decide)]
    simp
  refine lt_of_testBit (fun j hj h => ?_) hzero hone
  rw [testBit_ofBucket _ hj, UInt64.toNat_and, Nat.testBit_and] at h
  rw [testBit_ofHash _ hj]
  simp only [Bool.and_eq_true] at h
  rw [h.1.1, Bool.true_or]

/-! ### Parents -/

theorem toNat_log2 (n : UInt64) : n.log2.toNat = n.toNat.log2 := rfl

theorem log2_lt_64 (n : UInt64) : n.toNat.log2 < 64 := by
  by_cases hn : n.toNat = 0
  · rw [hn]
    decide
  · exact (Nat.log2_lt hn).mpr n.toNat_lt

theorem toNat_one_shiftLeft_log2 (n : UInt64) : (1 <<< n.log2).toNat = 2 ^ n.toNat.log2 := by
  have hlog := log2_lt_64 n
  rw [UInt64.toNat_shiftLeft, toNat_log2, Nat.mod_eq_of_lt hlog, UInt64.toNat_one,
    Nat.one_shiftLeft, Nat.mod_eq_of_lt (Nat.pow_lt_pow_right (by decide) hlog)]

/-- To clear the highest bit is to keep those below it. -/
theorem toNat_clearHighestBit {n : UInt64} (hn : n ≠ 0) :
    (clearHighestBit n).toNat = n.toNat % 2 ^ n.toNat.log2 := by
  have hn : n.toNat ≠ 0 := fun h => hn (UInt64.toNat_inj.mp h)
  have hle : 2 ^ n.toNat.log2 ≤ n.toNat := Nat.log2_self_le hn
  have hlt : n.toNat < 2 ^ (n.toNat.log2 + 1) := Nat.lt_log2_self
  have hshift := toNat_one_shiftLeft_log2 n
  rw [clearHighestBit, UInt64.toNat_sub_of_le _ _ (by rwa [UInt64.le_iff_toNat_le, hshift]), hshift,
    Nat.mod_eq_sub_mod hle, Nat.mod_eq_of_lt]
  rw [Nat.pow_succ] at hlt
  omega

/-- A bucket of `g + 1` bits was split from one of `g` bits. -/
theorem clearHighestBit_lt {n : UInt64} {g : Nat} (hn : n ≠ 0) (h : n.toNat < 2 ^ (g + 1)) :
    (clearHighestBit n).toNat < 2 ^ g := by
  have hne : n.toNat ≠ 0 := fun h => hn (UInt64.toNat_inj.mp h)
  have hlog : n.toNat.log2 ≤ g := Nat.lt_succ_iff.mp ((Nat.log2_lt hne).mpr h)
  rw [toNat_clearHighestBit hn]
  exact Nat.lt_of_lt_of_le (Nat.mod_lt _ (Nat.two_pow_pos _)) (Nat.pow_le_pow_right (by decide) hlog)

theorem clearHighestBit_lt_self {n : UInt64} (hn : n ≠ 0) : clearHighestBit n < n := by
  have hne : n.toNat ≠ 0 := fun h => hn (UInt64.toNat_inj.mp h)
  rw [UInt64.lt_iff_toNat_lt, toNat_clearHighestBit hn]
  calc n.toNat % 2 ^ n.toNat.log2
      _ < 2 ^ n.toNat.log2 := Nat.mod_lt _ (Nat.two_pow_pos _)
      _ ≤ n.toNat := Nat.log2_self_le hne

/-- **No two buckets have their sentinels at the same place.** -/
theorem ofBucket_injective {a b : Bucket} (ha : a.toNat < 2 ^ 63) (hb : b.toNat < 2 ^ 63)
    (h : OrderKey.ofBucket a = OrderKey.ofBucket b) : a = b := by
  refine UInt64.toNat_inj.mp (Nat.eq_of_testBit_eq fun j => ?_)
  by_cases hj : j < 63
  · -- the bit stands at the mirrored place of both
    have hback : 63 - (63 - j) = j := by omega
    have hbit := congrArg (fun k : OrderKey => k.toNat.testBit (63 - j)) h
    simp only [testBit_ofBucket _ (show 63 - j < 64 by omega), hback] at hbit
    simpa [show 63 - j ≠ 0 by omega] using hbit
  · -- neither bucket is that large
    have hpow : 2 ^ 63 ≤ 2 ^ j := Nat.pow_le_pow_right (by decide) (Nat.le_of_not_lt hj)
    rw [Nat.testBit_lt_two_pow (Nat.lt_of_lt_of_le ha hpow),
      Nat.testBit_lt_two_pow (Nat.lt_of_lt_of_le hb hpow)]

/-- **A sentinel stands behind that of the bucket it was split from.** Only the 64th bit of a
bucket would not be told apart, and no directory has room for such a bucket. -/
theorem ofBucket_clearHighestBit_lt {bucket : Bucket} (hne : bucket ≠ 0)
    (h : bucket.toNat < 2 ^ 63) :
    OrderKey.ofBucket (clearHighestBit bucket) < OrderKey.ofBucket bucket := by
  have hne' : bucket.toNat ≠ 0 := fun h => hne (UInt64.toNat_inj.mp h)
  have hlog : bucket.toNat.log2 < 63 := (Nat.log2_lt hne').mpr h
  have hback : 63 - (63 - bucket.toNat.log2) = bucket.toNat.log2 := by omega
  -- the bit that was cleared stands at the mirrored place
  have hcleared : (OrderKey.ofBucket (clearHighestBit bucket)).toNat.testBit
      (63 - bucket.toNat.log2) = false := by
    rw [testBit_ofBucket _ (by omega), hback, toNat_clearHighestBit hne, Nat.testBit_mod_two_pow]
    simp
  have hset : (OrderKey.ofBucket bucket).toNat.testBit (63 - bucket.toNat.log2) = true := by
    rw [testBit_ofBucket _ (by omega), hback, Nat.testBit_log2 hne']
    simp
    omega
  refine lt_of_testBit (fun j hj hbit => ?_) hcleared hset
  rw [testBit_ofBucket _ hj, toNat_clearHighestBit hne, Nat.testBit_mod_two_pow] at hbit
  rw [testBit_ofBucket _ hj]
  simp only [Bool.and_eq_true] at hbit ⊢
  exact ⟨hbit.1.2, hbit.2⟩

end SplitOrder
