import SplitOrder.Key
import SplitOrder.Proofs.Table.Entry
import SplitOrder.Proofs.Table.Placement

/-!
# Entries are told apart by their keys

Two comparisons decide where an entry belongs: the order of entries, which sorts the list, and the
comparison with a key that is sought, which has no value at hand. If they disagreed on any entry, a
stored key could not be found again. And since the place of a hash does not tell the whole hash, it
is the keys themselves that must keep entries apart.

* `TotallyOrders` — a comparison is a total order, and decides a given equality.
* `Entry.Same` — equal entries, described without a comparison.
* `OrderKey.ofHash_eq_iff` — which hashes share a place: those that differ in the highest bit only.
* `Entry.compare_ofPair_eq_iff` — entries of two keys are equal if their places and keys are.
* `Entry.KeepsKeysApart`, `Entry.keepsKeysApart` — all that is relied on when keys are compared.
-/

namespace SplitOrder

/-! ### Total orders -/

/-- **A total order on a type with its own equality.** Elements that are equal need not be the same
one, but no comparison tells them apart. -/
structure TotallyOrders {α : Type _} (cmp : α → α → Ordering) (same : α → α → Prop) : Prop where
  equivalence : Equivalence same
  eq_iff : ∀ a b, cmp a b = .eq ↔ same a b
  swap : ∀ a b, cmp b a = (cmp a b).swap
  total : ∀ a b, (cmp a b).isLE ∨ (cmp b a).isLE
  antisymm : ∀ a b, (cmp a b).isLE → (cmp b a).isLE → same a b
  trans : ∀ a b c, (cmp a b).isLE → (cmp b c).isLE → (cmp a c).isLE
  /-- Equal elements take each other's place on either side. -/
  congr : ∀ a a' b b', same a a' → same b b' → cmp a b = cmp a' b'

theorem TotallyOrders.of_eq_iff {α : Type _} {cmp : α → α → Ordering} [Std.TransCmp cmp]
    {same : α → α → Prop} (h : ∀ a b, cmp a b = .eq ↔ same a b) : TotallyOrders cmp same where
  equivalence := by
    refine ⟨fun a => (h a a).mp Std.ReflCmp.compare_self, fun {a b} hab => ?_,
      fun {a b c} hab hbc => ?_⟩
    · exact (h b a).mp (Std.OrientedCmp.eq_symm ((h a b).mpr hab))
    · exact (h a c).mp (Std.TransCmp.eq_trans ((h a b).mpr hab) ((h b c).mpr hbc))
  eq_iff := h
  swap := fun _ _ => Std.OrientedCmp.eq_swap
  total := by
    intro a b
    have hswap : cmp b a = (cmp a b).swap := Std.OrientedCmp.eq_swap
    rw [hswap]
    cases cmp a b with
    | lt => exact .inl rfl
    | eq => exact .inl rfl
    | gt => exact .inr rfl
  antisymm := by
    intro a b hab hba
    exact (h a b).mp (Std.OrientedCmp.isLE_antisymm hab hba)
  trans := fun _ _ _ => Std.TransCmp.isLE_trans
  congr := by
    intro a a' b b' haa' hbb'
    calc cmp a b = cmp a' b := Std.TransCmp.congr_left ((h a a').mpr haa')
      _ = cmp a' b' := Std.TransCmp.congr_right ((h b b').mpr hbb')

/-! ### Places -/

/-- **The place of a hash tells all of it but the highest bit**, whose place is taken by the bit
that sets entries apart from sentinels. -/
theorem OrderKey.ofHash_eq_iff {a b : UInt64} :
    ofHash a = ofHash b ↔ a.toNat % 2 ^ 63 = b.toNat % 2 ^ 63 := by
  have hback : ∀ j < 63, 63 - (63 - j) = j := fun j hj => by omega
  constructor
  · intro h
    refine Nat.eq_of_testBit_eq fun j => ?_
    rw [Nat.testBit_mod_two_pow, Nat.testBit_mod_two_pow]
    by_cases hj : j < 63
    · -- the bit stands at the mirrored place, which is not the lowest
      have hbit := congrArg (fun k : OrderKey => k.toNat.testBit (63 - j)) h
      have hne : 63 - j ≠ 0 := by omega
      simpa [testBit_ofHash _ (show 63 - j < 64 by omega), hback j hj, hne, hj] using hbit
    · simp [hj]
  · intro h
    refine UInt64.toNat_inj.mp (Nat.eq_of_testBit_eq fun j => ?_)
    by_cases hj : j < 64
    · rw [testBit_ofHash a hj, testBit_ofHash b hj]
      by_cases hzero : j = 0
      · simp [hzero]
      · have hbit := congrArg (fun n : Nat => n.testBit (63 - j)) h
        simp only [Nat.testBit_mod_two_pow, show 63 - j < 63 by omega, decide_true,
          Bool.true_and] at hbit
        rw [hbit]
    · have hpow : 2 ^ 64 ≤ 2 ^ j := Nat.pow_le_pow_right (by decide) (Nat.le_of_not_lt hj)
      rw [Nat.testBit_lt_two_pow (Nat.lt_of_lt_of_le (ofHash a).toNat_lt hpow),
        Nat.testBit_lt_two_pow (Nat.lt_of_lt_of_le (ofHash b).toNat_lt hpow)]

namespace Entry

variable {κ ν : Type} [Ord κ]

/-! ### Equal entries -/

/-- **Equal entries.** Values do not count. -/
inductive Same : Entry κ ν → Entry κ ν → Prop
  /-- Sentinels at the same place. -/
  | sentinel (k : OrderKey) : Same (.sentinel k) (.sentinel k)
  /-- Pairs at the same place with equal keys. -/
  | pair (k : OrderKey) {key key' : κ} (value value' : ν) (h : compare key key' = .eq) :
      Same (.pair k key value) (.pair k key' value')

theorem compare_eq_iff_same (a b : Entry κ ν) : compare a b = .eq ↔ Same a b := by
  rw [compare_def, Ordering.then_eq_eq, Std.LawfulEqCmp.compare_eq_iff_eq]
  constructor
  · rintro ⟨hplace, hkey⟩
    -- sentinels and pairs are told apart by the missing key
    cases a with
    | sentinel k =>
      cases b with
      | sentinel k' =>
        obtain rfl : k = k' := hplace
        exact .sentinel k
      | pair k' key' value' => cases hkey
    | pair k key value =>
      cases b with
      | sentinel k' => cases hkey
      | pair k' key' value' =>
        obtain rfl : k = k' := hplace
        exact .pair k value value' hkey
  · intro h
    cases h with
    | sentinel k => exact ⟨rfl, rfl⟩
    | pair k value value' h => exact ⟨rfl, h⟩

/-- **Entries of two keys are equal if their keys are**, and stand at the same place. -/
theorem compare_ofPair_eq_iff {hash hash' : UInt64} {key key' : κ} {value value' : ν} :
    compare (ofPair hash key value) (ofPair hash' key' value') = .eq ↔
      OrderKey.ofHash hash = OrderKey.ofHash hash' ∧ compare key key' = .eq := by
  rw [compare_def, Ordering.then_eq_eq, Std.LawfulEqCmp.compare_eq_iff_eq]
  rfl

theorem sentinelOf_inj {a b : Bucket} (ha : a.toNat < 2 ^ 63) (hb : b.toNat < 2 ^ 63)
    (h : compare (sentinelOf a : Entry κ ν) (sentinelOf b) = .eq) : a = b := by
  have heq : (sentinelOf a : Entry κ ν) = sentinelOf b := compare_sentinelOf_eq_iff.mp h
  exact ofBucket_injective ha hb (Entry.sentinel.inj heq)

/-- The 64th bit of a bucket is where the bit of an entry is. -/
example : OrderKey.ofBucket 0x8000000000000000 = OrderKey.ofBucket 0 := by decide +kernel

/-- To search for a key is to compare with a pair that has it, at any place and with any value. -/
theorem toProbe_eq_compare (p : KeyProbe κ) (e : Entry κ ν) (value : ν) :
    p.toProbe e = compare e (.pair p.orderKey p.key value) := by
  cases e <;> rfl

/-! ### What is relied on -/

/-- **Keys are kept apart.** What the table relies on when it compares entries with each other and
with a key. -/
structure KeepsKeysApart (κ ν : Type) [Ord κ] : Prop where
  /-- Entries are totally ordered, at whatever places they stand. -/
  order : TotallyOrders (compare : Entry κ ν → Entry κ ν → Ordering) Same
  /-- Values do not count, on either side. -/
  blind : ∀ (k : OrderKey) (key : κ) (value value' : ν) (e : Entry κ ν),
    compare (.pair k key value) e = compare (.pair k key value') e ∧
    compare e (.pair k key value) = compare e (.pair k key value')
  /-- With the same place a sentinel stands in front of a pair. -/
  sentinel_lt : ∀ (k : OrderKey) (key : κ) (value : ν),
    compare (.sentinel k : Entry κ ν) (.pair k key value) = .lt
  /-- The search for a key compares as a pair with that key does. -/
  probe : ∀ (p : KeyProbe κ) (e : Entry κ ν) (value : ν),
    p.toProbe e = compare e (.pair p.orderKey p.key value)
  /-- If equal keys have equal hashes, entries are equal as their keys are, whichever hashes agree
  or share a place. -/
  ofPair : ∀ hash : κ → UInt64, (∀ a b, compare a b = .eq → hash a = hash b) →
    ∀ key key' (value value' : ν),
      compare (ofPair (hash key) key value) (ofPair (hash key') key' value') = .eq ↔
        compare key key' = .eq
  /-- A sentinel tells its bucket. -/
  sentinelOf : ∀ a b : Bucket, a.toNat < 2 ^ 63 → b.toNat < 2 ^ 63 →
    compare (sentinelOf a : Entry κ ν) (sentinelOf b) = .eq → a = b
  /-- A sentinel is never equal to a pair, and those of a table never share a place. -/
  apart : ∀ (k k' : OrderKey) (key : κ) (value : ν),
    compare (.sentinel k : Entry κ ν) (.pair k' key value) ≠ .eq ∧
    compare (.pair k' key value : Entry κ ν) (.sentinel k) ≠ .eq
  places : ∀ (bucket : Bucket) (hash : UInt64), OrderKey.ofBucket bucket ≠ OrderKey.ofHash hash

/-- **For every total order of keys, keys are kept apart.** -/
theorem keepsKeysApart (κ ν : Type) [Ord κ] [Std.TransOrd κ] : KeepsKeysApart κ ν where
  order := .of_eq_iff compare_eq_iff_same
  blind := fun _ _ _ _ e => by
    cases e with
    | sentinel => exact ⟨rfl, rfl⟩
    | pair => exact ⟨rfl, rfl⟩
  sentinel_lt := fun k _ _ => by
    rw [compare_def, Ordering.then_eq_lt]
    exact .inr ⟨Std.compare_self (a := k), rfl⟩
  probe := toProbe_eq_compare
  ofPair := by
    intro hash respects key key' value value'
    rw [compare_ofPair_eq_iff]
    -- keys that are equal share their hash, so their place as well
    exact ⟨fun h => h.2, fun h => ⟨congrArg OrderKey.ofHash (respects key key' h), h⟩⟩
  sentinelOf := fun _ _ => sentinelOf_inj
  apart := by
    intro k k' key value
    constructor
    · intro h
      cases (compare_eq_iff_same _ _).mp h
    · intro h
      cases (compare_eq_iff_same _ _).mp h
  places := OrderKey.ofBucket_ne_ofHash

end Entry

instance : Std.TransOrd Labelled :=
  inferInstanceAs (Std.TransCmp (compareOn Labelled.key))

namespace Entry

/-- A hash of one bit, the highest. All hashes share a place then, and half of them agree; still the
entries of 1, 2 and 4 are told apart, while two labels of 2 are not. -/
theorem keepsKeysApart_of_shared_places :
    let hash : Labelled → UInt64 := fun n => n.key.toUInt64 <<< 63
    let entry (n : Labelled) (value : UInt64) : Entry Labelled UInt64 := ofPair (hash n) n value
    KeepsKeysApart Labelled UInt64 ∧
      hash ⟨1, 0⟩ ≠ hash ⟨2, 0⟩ ∧ OrderKey.ofHash (hash ⟨1, 0⟩) = OrderKey.ofHash (hash ⟨2, 0⟩) ∧
      hash ⟨2, 0⟩ = hash ⟨4, 0⟩ ∧
      compare (entry ⟨1, 0⟩ 10) (entry ⟨2, 0⟩ 10) ≠ .eq ∧
      compare (entry ⟨2, 0⟩ 10) (entry ⟨4, 0⟩ 10) ≠ .eq ∧
      compare (entry ⟨2, 0⟩ 10) (entry ⟨2, 7⟩ 20) = .eq := by
  intro hash entry
  have h : KeepsKeysApart Labelled UInt64 := keepsKeysApart Labelled UInt64
  have respects : ∀ a b : Labelled, compare a b = .eq → hash a = hash b := by
    intro a b hab
    have hkey : a.key = b.key :=
      Std.LawfulEqCmp.eq_of_compare (show compare a.key b.key = .eq from hab)
    show a.key.toUInt64 <<< 63 = b.key.toUInt64 <<< 63
    rw [hkey]
  have hiff := h.ofPair hash respects
  refine ⟨h, by decide, OrderKey.ofHash_eq_iff.mpr (by decide), by decide, fun heq => ?_,
    fun heq => ?_, ?_⟩
  · exact absurd ((hiff _ _ _ _).mp heq) (by decide)
  · exact absurd ((hiff _ _ _ _).mp heq) (by decide)
  · exact (hiff _ _ _ _).mpr rfl

end Entry

end SplitOrder
