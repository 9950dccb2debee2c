import Mathlib.Data.List.Perm.Subperm

/-!
# Ordered sets and lists of keys

What is used of `Std.TreeSet` beyond the library. What a set stores is told by `TreeSet.get?`: it
tells equal keys apart, which membership does not, so it can say which of them is stored.

* `mem_toList_treeSet`, `eq_of_pairwise_lt` — the listing of a set.
* `joined`, `without`, `within` — union, difference and intersection of a set with a list of keys,
  in terms of what is stored.
* `get?_insertMany`, `get?_ofList`, `get?_foldl_erase` — insertions make the union, deletions the
  difference.
* `toList_eq_iff_size_eq` — a set within another one is the same as soon as it is as large.
-/

namespace SplitOrder

open Std (TreeSet)

/-- Ascending elements are different ones. -/
theorem nodup_of_pairwise_lt {α : Type _} {cmp : α → α → Ordering} [Std.ReflCmp cmp] {xs : List α}
    (h : xs.Pairwise fun a b => cmp a b = .lt) : xs.Nodup := by
  refine h.imp fun hlt => ?_
  rintro rfl
  exact absurd (Std.ReflCmp.compare_self.symm.trans hlt) (by decide)

variable {α : Type} [Ord α]

/-- Whether a key equals one of a list. -/
def equalsOneOf (keys : List α) (k : α) : Bool :=
  keys.any fun a => compare a k == .eq

theorem equalsOneOf_iff {keys : List α} {k : α} :
    equalsOneOf keys k = true ↔ ∃ a ∈ keys, compare a k = .eq := by
  simp only [equalsOneOf, List.any_eq_true, beq_iff_eq]

/-- The key stored for `k` in the union of a set with a list of keys. What is stored stays, and of
equal keys that are new the first one is stored. -/
def joined (S : TreeSet α) (keys : List α) (k : α) : Option α :=
  (S.get? k).or (keys.find? fun a => compare a k == .eq)

/-- The key stored for `k` in the difference. -/
def without (S : TreeSet α) (keys : List α) (k : α) : Option α :=
  if equalsOneOf keys k then none else S.get? k

/-- The key stored for `k` in the intersection. -/
def within (S : TreeSet α) (keys : List α) (k : α) : Option α :=
  if equalsOneOf keys k then S.get? k else none

variable [Std.TransOrd α] {S T : TreeSet α} {keys : List α} {a b k : α}

theorem equalsOneOf_congr (h : compare a b = .eq) : equalsOneOf keys a = equalsOneOf keys b := by
  unfold equalsOneOf
  refine congrArg keys.any (funext fun c => ?_)
  rw [Std.TransCmp.congr_right h]

/-! ### Listings -/

theorem mem_toList_treeSet (set : TreeSet α) (a : α) : a ∈ set.toList ↔ set.get? a = some a := by
  have hmap := Std.TreeMap.mem_toList_iff_getKey?_eq_some_and_getElem?_eq_some
    (t := set.inner) (k := a) (v := ())
  show a ∈ set.inner.keys ↔ set.inner.getKey? a = some a
  rw [← Std.TreeMap.map_fst_toList_eq_keys]
  constructor
  · intro ha
    obtain ⟨⟨b, u⟩, hb, rfl⟩ := List.mem_map.mp ha
    exact (hmap.mp hb).1
  · intro ha
    have hmem : a ∈ set.inner := TreeSet.mem_of_get?_eq_some (t := set) ha
    refine List.mem_map.mpr ⟨(a, ()), hmap.mpr ⟨ha, ?_⟩, rfl⟩
    rw [Std.TreeMap.getElem?_eq_some_getElem hmem]

/-- The key that is stored for `k` is listed, and equals it. -/
theorem mem_toList_of_get? (h : S.get? k = some b) : b ∈ S.toList ∧ compare b k = .eq := by
  have heq : compare b k = .eq := by
    have hself := TreeSet.compare_getKey?_self (t := S) (k := k)
    rw [h] at hself
    exact of_decide_eq_true hself
  rw [mem_toList_treeSet, TreeSet.get?_congr heq]
  exact ⟨h, heq⟩

/-- There is only one way to list elements in ascending order. -/
theorem eq_of_pairwise_lt {xs ys : List α} (hx : xs.Pairwise fun a b => compare a b = .lt)
    (hy : ys.Pairwise fun a b => compare a b = .lt) (h : ∀ a, a ∈ xs ↔ a ∈ ys) : xs = ys := by
  -- the same members, each once, in the same order
  have hperm : xs.Perm ys :=
    (List.perm_ext_iff_of_nodup (nodup_of_pairwise_lt hx) (nodup_of_pairwise_lt hy)).mpr h
  refine hperm.eq_of_pairwise (fun a b _ _ hab hba => ?_) hx hy
  exact absurd hba (Std.OrientedCmp.not_lt_of_lt hab)

/-- A set within another one is the same as soon as it is as large. -/
theorem toList_eq_iff_size_eq (hsub : ∀ a, S.get? a = some a → T.get? a = some a) :
    S.toList = T.toList ↔ S.size = T.size := by
  constructor
  · intro h
    rw [← TreeSet.length_toList, h, TreeSet.length_toList]
  · intro hsize
    have hsubperm : S.toList.Subperm T.toList := by
      refine (nodup_of_pairwise_lt TreeSet.ordered_toList).subperm fun a ha => ?_
      rw [mem_toList_treeSet] at ha ⊢
      exact hsub a ha
    have hlength : T.toList.length = S.toList.length := by
      rw [TreeSet.length_toList, TreeSet.length_toList, hsize]
    have hperm := hsubperm.perm_of_length_le (Nat.le_of_eq hlength)
    exact eq_of_pairwise_lt TreeSet.ordered_toList TreeSet.ordered_toList fun a => hperm.mem_iff

/-! ### Insertions -/

/-- An insertion counts one exactly if the key is new. -/
theorem size_insert_eq_add (S : TreeSet α) (k : α) :
    (S.insert k).size = S.size + (!S.contains k).toNat := by
  rw [TreeSet.size_insert]
  cases S.contains k <;> rfl

/-- **Insertions make the union.** -/
theorem get?_insertMany (S : TreeSet α) (keys : List α) (k : α) :
    (S.insertMany keys).get? k = joined S keys k := by
  unfold joined
  induction keys generalizing S with
  | nil => simp
  | cons a as ih =>
    rw [TreeSet.insertMany_cons, ih, TreeSet.get?_insert, List.find?_cons]
    by_cases heq : compare a k = .eq
    · by_cases hmem : a ∈ S
      · -- a key that equals `k` is there already, and what is there stays
        have hsome : (S.get? k).isSome = true := by
          rw [← TreeSet.contains_eq_isSome_get?, ← TreeSet.contains_congr heq]
          exact hmem
        obtain ⟨b, hb⟩ := Option.isSome_iff_exists.mp hsome
        simp [hmem, hb]
      · have hnone : S.get? k = none := by
          rw [← TreeSet.get?_congr heq]
          exact TreeSet.get?_eq_none hmem
        simp [heq, hmem, hnone]
    · rw [if_neg fun h => heq h.1, beq_eq_false_iff_ne.mpr heq]

/-- The first of equal keys is stored. -/
theorem get?_ofList (keys : List α) (k : α) :
    (TreeSet.ofList keys).get? k = keys.find? fun a => compare a k == .eq := by
  rw [TreeSet.ofList_eq_insertMany_empty, get?_insertMany, joined, TreeSet.get?_emptyc,
    Option.none_or]

/-! ### Deletions -/

/-- A deletion counts off one exactly if the key is there. -/
theorem size_erase_add_eq (S : TreeSet α) (k : α) :
    (S.erase k).size + (S.contains k).toNat = S.size := by
  rw [TreeSet.size_erase]
  cases hk : S.contains k with
  | false => rfl
  | true =>
    have hpos : S.size ≠ 0 := by
      intro hzero
      have hempty : S.isEmpty = true := by rw [TreeSet.isEmpty_eq_size_eq_zero, hzero]; rfl
      rw [TreeSet.contains_of_isEmpty hempty] at hk
      cases hk
    show S.size - 1 + 1 = S.size
    omega

/-- **Deletions make the difference.** -/
theorem get?_foldl_erase (S : TreeSet α) (keys : List α) (k : α) :
    (keys.foldl .erase S).get? k = without S keys k := by
  unfold without
  induction keys generalizing S with
  | nil => rfl
  | cons a as ih =>
    have hcons : equalsOneOf (a :: as) k = (compare a k == .eq || equalsOneOf as k) := List.any_cons
    rw [List.foldl_cons, ih, TreeSet.get?_erase, hcons]
    by_cases heq : compare a k = .eq
    · simp [heq]
    · simp [heq]

end SplitOrder
