import SplitOrder.Proofs.List.Search
import SplitOrder.Proofs.Table.OrderKey
import SplitOrder.Table.Entry

/-!
# The order of entries

Entries are totally ordered if keys are, and a key can be searched for without a value at hand:
that search is the one for a pair with any value (`KeyProbe.ofElement_ofPair`), so it agrees with
the order. It never stops at a sentinel, and the sentinel of the bucket of a key stands in front of
it. The same goes for a search by a form of the key, if forms are ordered as keys are.
-/

namespace SplitOrder

variable {κ β ν : Type} [Ord κ]

namespace Entry

instance [Std.OrientedOrd κ] : Std.OrientedCmp (compareKeys (κ := κ)) where
  eq_swap {a b} := by
    cases a <;> cases b <;> simp only [compareKeys]
    · rfl
    · rfl
    · rfl
    · exact Std.OrientedCmp.eq_swap

instance [Std.TransOrd κ] : Std.TransCmp (compareKeys (κ := κ)) where
  isLE_trans {a b c} hab hbc := by
    cases a <;> cases b <;> cases c <;> simp only [compareKeys] at *
    all_goals first | exact Std.TransCmp.isLE_trans hab hbc | contradiction | rfl

instance [Std.TransOrd κ] :
    Std.TransCmp fun a b : Entry κ ν => compareKeys a.key? b.key? where
  eq_swap := Std.OrientedCmp.eq_swap
  isLE_trans := Std.TransCmp.isLE_trans

instance [Std.TransOrd κ] : Std.TransOrd (Entry κ ν) :=
  inferInstanceAs <| Std.TransCmp <|
    compareLex (compareOn orderKey) fun a b : Entry κ ν => compareKeys a.key? b.key?

theorem compare_def (a b : Entry κ ν) :
    compare a b = (compare a.orderKey b.orderKey).then (compareKeys a.key? b.key?) := rfl

omit [Ord κ] in
/-- An entry has a value if it has a key with one. -/
theorem bind_value?_eq (entry : Option (Entry κ ν)) :
    entry.bind value? = (entry.bind pair?).map Prod.snd := by
  cases entry with
  | none => rfl
  | some e => cases e <;> rfl

/-- The entry with the form of its key for a key, and without its value. -/
def inForm (form : κ → β) : Entry κ ν → Entry β Unit
  | .sentinel k => .sentinel k
  | .pair k key _ => .pair k (form key) ()

theorem compare_inForm [Ord β] {form : κ → β}
    (hform : ∀ a b, compare (form a) (form b) = compare a b) (a b : Entry κ ν) :
    compare (a.inForm form) (b.inForm form) = compare a b := by
  cases a with
  | sentinel k => cases b <;> rfl
  | pair k key value =>
    cases b with
    | sentinel k' => rfl
    | pair k' key' value' =>
      rw [compare_def, compare_def]
      show (compare k k').then (compare (form key) (form key')) = _
      rw [hform]
      rfl

/-- Nothing else is equal to a sentinel. -/
theorem compare_sentinelOf_eq_iff {e : Entry κ ν} {bucket : Bucket} :
    compare e (sentinelOf bucket) = .eq ↔ e = sentinelOf bucket := by
  rw [compare_def, Ordering.then_eq_eq, Std.LawfulEqCmp.compare_eq_iff_eq]
  cases e with
  | sentinel k => simp [sentinelOf, orderKey, key?, compareKeys]
  | pair k key value => simp [sentinelOf, key?, compareKeys]

/-- A sentinel stands behind that of its parent. -/
theorem compare_sentinelOf_parent {bucket : Bucket} (hne : bucket ≠ 0)
    (h : bucket.toNat < 2 ^ 63) :
    compare (sentinelOf (clearHighestBit bucket) : Entry κ ν) (sentinelOf bucket) = .lt := by
  have hlt := ofBucket_clearHighestBit_lt hne h
  rw [compare_def, Ordering.then_eq_lt]
  exact .inl (Std.compare_eq_lt.mpr hlt)

end Entry

namespace KeyProbe

open Entry

/-- To search for a key is to search for a pair with that key, whatever its value. -/
theorem ofElement_ofPair (hash : UInt64) (key : κ) (value : ν) :
    Probe.ofElement (ofPair hash key value) = (ofKey hash key).toProbe := by
  funext e
  cases e <;> rfl

section ByForm

variable [Ord β] {form : κ → β}

omit [Ord κ] in
/-- A search stops at the entries of keys with the form that is sought. -/
theorem toProbeBy_eq_iff {p : KeyProbe β} {e : Entry κ ν} :
    p.toProbeBy form e = .eq ↔
      ∃ key value, e = .pair p.orderKey key value ∧ compare (form key) p.key = .eq := by
  cases e with
  | sentinel k => simp [toProbeBy]
  | pair k key value =>
    simp only [toProbeBy, Ordering.then_eq_eq, Std.LawfulEqCmp.compare_eq_iff_eq, pair.injEq]
    constructor
    · rintro ⟨rfl, heq⟩
      exact ⟨key, value, ⟨rfl, rfl, rfl⟩, heq⟩
    · rintro ⟨key', value', ⟨rfl, rfl, rfl⟩, heq⟩
      exact ⟨rfl, heq⟩

omit [Ord κ] in
/-- To search by a form is to search by a key where entries have forms for keys. -/
theorem toProbe_inForm (p : KeyProbe β) (e : Entry κ ν) :
    p.toProbe (e.inForm form) = p.toProbeBy form e := by
  cases e <;> rfl

/-- A search by a form agrees with the order of entries, if forms are ordered as keys are. -/
theorem monotone_toProbeBy [Std.TransOrd β]
    (hform : ∀ a b, compare (form a) (form b) = compare a b) (hash : UInt64) (key : β) :
    Probe.Monotone (α := Entry κ ν) ((ofKey hash key).toProbeBy form) := by
  -- neither the order nor the search looks at values, so there may as well be one at hand
  have hunit : Probe.Monotone (α := Entry β Unit) (ofKey hash key).toProbe := by
    rw [← ofElement_ofPair hash key ()]
    exact Probe.monotone_ofElement _
  intro a b hab hb
  rw [← compare_inForm hform] at hab
  rw [← toProbe_inForm] at hb ⊢
  exact hunit _ _ hab hb

omit [Ord κ] in
/-- **The sentinel of a bucket stands in front of its keys**, in whichever form they are sought. -/
theorem toProbeBy_sentinelOf (hash mask : UInt64) (key : β) :
    (ofKey hash key).toProbeBy form (sentinelOf (hash &&& mask) : Entry κ ν) = .lt := by
  have hlt := ofBucket_and_lt_ofHash hash mask
  show (compare _ _).then .lt = .lt
  rw [Ordering.then_eq_lt]
  exact .inl (Std.compare_eq_lt.mpr hlt)

end ByForm

/-- A search for a key stops at the entries with that key. -/
theorem toProbe_eq_iff {p : KeyProbe κ} {e : Entry κ ν} :
    p.toProbe e = .eq ↔
      ∃ key value, e = .pair p.orderKey key value ∧ compare key p.key = .eq :=
  toProbeBy_eq_iff

/-- A search for a key agrees with the order of entries. -/
theorem monotone_toProbe [Std.TransOrd κ] (hash : UInt64) (key : κ) :
    Probe.Monotone (α := Entry κ ν) (ofKey hash key).toProbe :=
  monotone_toProbeBy (fun _ _ => rfl) hash key

theorem toProbe_sentinelOf (hash mask : UInt64) (key : κ) :
    (ofKey hash key).toProbe (sentinelOf (hash &&& mask) : Entry κ ν) = .lt :=
  toProbeBy_sentinelOf hash mask key

end KeyProbe

end SplitOrder
