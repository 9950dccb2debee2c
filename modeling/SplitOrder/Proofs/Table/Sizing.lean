import Mathlib.Algebra.Group.Nat.Defs
import SplitOrder.Proofs.Checked
import SplitOrder.Table.Sizing

/-!
# The sizing for a capacity

A table that is to hold so many entries without growing gets a sizing without a flaw, whatever the
number. What makes this safe for the greatest words is that the number is halved before it is
rounded up to a power of two, so the power is at most `2 ^ 63`.

* `Word.exists_nextPowerOfTwo` — rounding up ends below `2 ^ 63`.
* `Sizing.exists_ofCapacity` — the sizing exists and passes the check.
-/

namespace SplitOrder

namespace Word

theorem isPowerOfTwo_ofNat_two_pow {k : Nat} (h : k < 64) : IsPowerOfTwo (.ofNat (2 ^ k)) := by
  have hlt : 2 ^ k < 2 ^ 64 := Nat.pow_lt_pow_right (by decide) h
  have hnat : (UInt64.ofNat (2 ^ k)).toNat = 2 ^ k := UInt64.toNat_ofNat_of_lt hlt
  show (UInt64.ofNat (2 ^ k)).toNat = 2 ^ (UInt64.ofNat (2 ^ k)).toNat.log2
  rw [hnat, Nat.log2_two_pow]

/-- **Rounding up** to a power of two is no fault up to the greatest power there is. -/
theorem exists_nextPowerOfTwo {n : UInt64} (h : n.toNat ≤ 2 ^ 63) :
    ∃ p, nextPowerOfTwo n = .ok p ∧ IsPowerOfTwo p ∧ n ≤ p := by
  unfold nextPowerOfTwo
  split
  · next hone => exact ⟨1, rfl, by decide, hone⟩
  · next hone =>
    have hone : ¬ n.toNat ≤ 1 := fun hle => hone (UInt64.le_iff_toNat_le.mpr hle)
    have hlog : (n.toNat - 1).log2 < 63 := (Nat.log2_lt (by omega)).mpr (by omega)
    have hlt : 2 ^ ((n.toNat - 1).log2 + 1) < 2 ^ 64 :=
      Nat.pow_lt_pow_right (by decide) (by omega)
    refine ⟨.ofNat (2 ^ ((n.toNat - 1).log2 + 1)), if_pos hlt,
      isPowerOfTwo_ofNat_two_pow (by omega), ?_⟩
    -- one less has its highest bit below the power
    have hbelow : n.toNat - 1 < 2 ^ ((n.toNat - 1).log2 + 1) := Nat.lt_log2_self
    have hnat : (UInt64.ofNat (2 ^ ((n.toNat - 1).log2 + 1))).toNat =
        2 ^ ((n.toNat - 1).log2 + 1) := UInt64.toNat_ofNat_of_lt hlt
    rw [UInt64.le_iff_toNat_le, hnat]
    omega

/-- Half of a word, rounded up, has its highest bit clear or is `2 ^ 63`. -/
theorem toNat_halfUp (n : UInt64) : (halfUp n).toNat = n.toNat / 2 + n.toNat % 2 := by
  have hlt := n.toNat_lt
  have htwo : (2 : UInt64).toNat = 2 := rfl
  rw [halfUp, UInt64.toNat_add, UInt64.toNat_div, UInt64.toNat_mod, htwo]
  omega

/-- So it can be rounded up to a power of two. -/
theorem toNat_halfUp_le (n : UInt64) : (halfUp n).toNat ≤ 2 ^ 63 := by
  have hlt := n.toNat_lt
  rw [toNat_halfUp]
  omega

end Word

namespace Sizing

/-- Of two powers of two, the lesser and the greater one are powers of two. -/
theorem isPowerOfTwo_min_max {a b : UInt64} (ha : Word.IsPowerOfTwo a) (hb : Word.IsPowerOfTwo b) :
    Word.IsPowerOfTwo (min a b) ∧ Word.IsPowerOfTwo (max a b) := by
  show Word.IsPowerOfTwo (if a ≤ b then a else b) ∧ Word.IsPowerOfTwo (if a ≤ b then b else a)
  split
  · exact ⟨ha, hb⟩
  · exact ⟨hb, ha⟩

theorem max_min_le {a b : UInt64} (h : a ≤ b) (n : UInt64) : max a (min n b) ≤ b := by
  have hmin : min n b ≤ b := by
    show (if n ≤ b then n else b) ≤ b
    split
    · assumption
    · exact UInt64.le_refl b
  show (if a ≤ min n b then min n b else a) ≤ b
  split
  · exact hmin
  · exact h

/-- **Every capacity has a sizing, and the sizing has no flaw.** -/
theorem exists_ofCapacity (capacity : UInt64) :
    ∃ s, ofCapacity capacity = .ok s ∧ s.check = .ok () := by
  obtain ⟨wanted, hwanted, hpower, -⟩ :=
    Word.exists_nextPowerOfTwo (Word.toNat_halfUp_le capacity)
  refine ⟨{ initialBuckets := max 2 (min wanted Directory.capacity) }, ?_, ?_⟩
  · rw [ofCapacity, hwanted]
    rfl
  · have htwo : Word.IsPowerOfTwo 2 := by decide
    have hcapacity : Word.IsPowerOfTwo Directory.capacity := by decide
    refine check_eq_ok_iff.mpr ⟨?_, hcapacity, UInt64.le_refl _, ?_, ?_⟩
    · exact (isPowerOfTwo_min_max htwo (isPowerOfTwo_min_max hpower hcapacity).1).2
    · exact max_min_le (by decide) wanted
    · show (2 : UInt64) ≠ 0
      decide

end Sizing

end SplitOrder
