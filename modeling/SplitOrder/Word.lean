import SplitOrder.Fault

/-!
# Arithmetic on 64-bit words

Counters and bucket counts are machine words. An operation that must not leave the range is
checked and ends in `Fault.overflow`; one that may is written with the wrapping `+` and `-` of
`UInt64`. What the checked operations answer is stated on `toNat`.
-/

namespace SplitOrder.Word

/-- The sum of two words, or a fault if it does not fit. -/
def checkedAdd (a b : UInt64) : Checked UInt64 :=
  if a.toNat + b.toNat < UInt64.size then .ok (a + b) else .error (.overflow .add)

/-- The difference of two words, or a fault if it is negative. -/
def checkedSub (a b : UInt64) : Checked UInt64 :=
  if b ≤ a then .ok (a - b) else .error (.overflow .subtract)

/-- The product of two words, or a fault if it does not fit. -/
def checkedMul (a b : UInt64) : Checked UInt64 :=
  if a.toNat * b.toNat < UInt64.size then .ok (a * b) else .error (.overflow .multiply)

/-- The product of two words, or the greatest word if it does not fit. -/
def mulSaturating (a b : UInt64) : UInt64 :=
  if a.toNat * b.toNat < UInt64.size then a * b else .ofNat (UInt64.size - 1)

def halfUp (n : UInt64) : UInt64 :=
  n / 2 + n % 2

/-- A word with exactly one bit set. Zero is none: its logarithm is taken to be zero. -/
def IsPowerOfTwo (n : UInt64) : Prop :=
  n.toNat = Nat.pow 2 n.toNat.log2

instance (n : UInt64) : Decidable (IsPowerOfTwo n) :=
  inferInstanceAs (Decidable (_ = _))

/-- The least power of two that is at least `n`, or a fault if that is `2 ^ 64`. -/
def nextPowerOfTwo (n : UInt64) : Checked UInt64 :=
  if n ≤ 1 then .ok 1 else
  let power := Nat.pow 2 ((n.toNat - 1).log2 + 1)
  if power < UInt64.size then .ok (.ofNat power) else .error (.overflow .add)

/-! ### Values -/

theorem checkedAdd_eq_ok {a b : UInt64} (h : a.toNat + b.toNat < UInt64.size) :
    checkedAdd a b = .ok (a + b) :=
  if_pos h

theorem checkedMul_eq_ok {a b : UInt64} (h : a.toNat * b.toNat < UInt64.size) :
    checkedMul a b = .ok (a * b) :=
  if_pos h

theorem toNat_of_checkedMul_eq_ok {a b c : UInt64} (h : checkedMul a b = .ok c) :
    c.toNat = a.toNat * b.toNat := by
  simp only [checkedMul] at h
  split at h
  · cases h
    rw [UInt64.toNat_mul, Nat.mod_eq_of_lt]
    assumption
  · cases h

/-- Saturation keeps the order: a word is at most the saturated product exactly when it is at most
the true one. -/
theorem le_mulSaturating_iff {n a b : UInt64} :
    n ≤ mulSaturating a b ↔ n.toNat ≤ a.toNat * b.toNat := by
  simp only [mulSaturating, UInt64.le_iff_toNat_le]
  split
  · rename_i h
    rw [UInt64.toNat_mul, Nat.mod_eq_of_lt h]
  · rename_i h
    have hn := n.toNat_lt
    have hmax : (UInt64.ofNat (UInt64.size - 1)).toNat = UInt64.size - 1 := by decide
    have hsize : UInt64.size = 18446744073709551616 := rfl
    rw [hmax]
    omega

end SplitOrder.Word
