import SplitOrder.Proofs.Collection
import SplitOrder.Proofs.FiniteSet

/-!
# Requests about many keys as set algebra

An insertion of many keys is a union, a deletion of many keys a difference, and to retain keys is an
intersection. This is proved for any kind of collection whose operations on single keys are those of
a set, and nothing else of the collection is used: `KeyCollection.ActsAsSet`.

* `KeyCollection.Shows` — a collection lists the keys of a set, and its size agrees with that.
* `KeyCollection.Yields` — a request leaves the set that is expected, and answers whether that is
  another one.
* `KeyCollection.ObeysSetAlgebra` — the laws of all these requests, `clear` among them.
* `ActsAsSet.obeysSetAlgebra` — they hold where the laws for single keys do.
-/

namespace SplitOrder

open Std (TreeSet)

namespace KeyCollection

open Checked

variable {σ κ : Type} [KeyCollection σ κ] [Ord κ]

/-! ### The laws -/

variable (hasNone : σ → Checked Bool)

/-- **What a collection shows of itself is the set.** It lists each key of the set once, its size is
that of the listing, and it is empty if the listing is, by its size as by the test `hasNone` that
this kind of collection has. -/
def Shows (s : σ) (S : TreeSet κ) : Prop :=
  ∃ keys, toList s = .ok keys ∧ keys.Perm S.toList ∧ length s = .ok keys.length ∧
    isEmpty s = .ok keys.isEmpty ∧ hasNone s = .ok keys.isEmpty

/-- A request to a collection that shows `S` ends. It leaves a set that stores for each key what is
expected, and answers whether that is a set other than `S`. -/
def Yields (outcome : Checked (Bool × σ)) (S : TreeSet κ) (expected : κ → Option κ) : Prop :=
  ∃ changed s' T, outcome = .ok (changed, s') ∧ Shows hasNone s' T ∧ (∀ k, T.get? k = expected k) ∧
    (changed = true ↔ T.toList ≠ S.toList)

/-- **Clearing** a collection that shows the set `S`. The keys that are listed are deleted one by
one, each of these deletions finds its key, and nothing is left for another round. -/
def EmptiesAtOnce (s : σ) (S : TreeSet κ) : Prop :=
  ∃ keys s', toList s = .ok keys ∧
    countTrue KeyCollection.delete s keys = .ok (keys.length, s') ∧ clear s = .ok s' ∧
    (∀ rounds, clearWithin (rounds + 2) s = .ok s') ∧ deletions s .clear = .ok S.size ∧
    Shows hasNone s' ∅

/-- **Set algebra.** The laws of the requests about many keys for a collection that shows the set
`S`, whatever list of keys they are given. Sizes that the collection cannot count are excluded by
`fits`. -/
structure ObeysSetAlgebra (s : σ) (S : TreeSet κ) (fits : Nat → Prop) : Prop where
  shows : Shows hasNone s S
  union : ∀ keys, fits (S.insertMany keys).size →
    Yields hasNone (insertMany s keys) S (joined S keys)
  difference : ∀ keys, Yields hasNone (deleteMany s keys) S (without S keys)
  intersection : ∀ keys, Yields hasNone (retainOnly s keys) S (within S keys)
  inclusion : ∀ keys, ∃ s', containsMany s keys = .ok (keys.all S.contains, s') ∧
    Shows hasNone s' S
  clearing : EmptiesAtOnce hasNone s S

/-- **The operations on single keys are those of a set**, for collections related to it by `R`. A
collection can count sizes that are `fits`. -/
structure ActsAsSet (R : σ → TreeSet κ → Prop) (fits : Nat → Prop) : Prop where
  fits_of_le : ∀ {m n}, m ≤ n → fits n → fits m
  insert : ∀ {s S} (k : κ), R s S → fits (S.insert k).size →
    ∃ s', KeyCollection.insert s k = .ok (!S.contains k, s') ∧ R s' (S.insert k)
  delete : ∀ {s S} (k : κ), R s S →
    ∃ s', KeyCollection.delete s k = .ok (S.contains k, s') ∧ R s' (S.erase k)
  contains : ∀ {s S} (k : κ), R s S →
    ∃ s', KeyCollection.contains s k = .ok (S.contains k, s') ∧ R s' S
  length : ∀ {s S}, R s S → KeyCollection.length s = .ok S.size
  hasNone : ∀ {s S}, R s S → hasNone s = .ok S.isEmpty
  toList : ∀ {s S}, R s S → ∃ keys, KeyCollection.toList s = .ok keys ∧ keys.Perm S.toList

/-! ### From single keys to many -/

variable {hasNone} [Std.TransOrd κ] {R : σ → TreeSet κ → Prop} {fits : Nat → Prop} {s s' : σ}
  {S T : TreeSet κ} {keys : List κ}

theorem ActsAsSet.shows (h : ActsAsSet hasNone R fits) (hs : R s S) : Shows hasNone s S := by
  obtain ⟨keys, hkeys, hperm⟩ := h.toList hs
  have hsize : S.size = keys.length := by rw [hperm.length_eq, TreeSet.length_toList]
  refine ⟨keys, hkeys, hperm, ?_, ?_, ?_⟩
  · rw [h.length hs, hsize]
  · rw [isEmpty, h.length hs, hsize]
    cases keys <;> rfl
  · rw [h.hasNone hs, TreeSet.isEmpty_eq_size_eq_zero, hsize]
    cases keys <;> rfl

/-- **Insertions, one after the other.** -/
theorem ActsAsSet.countTrue_insert (h : ActsAsSet hasNone R fits) (hs : R s S)
    (hfits : fits (S.insertMany keys).size) :
    ∃ n s', countTrue KeyCollection.insert s keys = .ok (n, s') ∧ R s' (S.insertMany keys) ∧
      (S.insertMany keys).size = S.size + n := by
  induction keys generalizing s S with
  | nil => exact ⟨0, s, rfl, hs, rfl⟩
  | cons k ks ih =>
    rw [TreeSet.insertMany_cons] at hfits ⊢
    have hle : (S.insert k).size ≤ ((S.insert k).insertMany ks).size :=
      TreeSet.size_le_size_insertMany_list
    obtain ⟨s₁, hinsert, hs₁⟩ := h.insert k hs (h.fits_of_le hle hfits)
    obtain ⟨n, s', hcount, hs', hsize⟩ := ih hs₁ hfits
    refine ⟨(!S.contains k).toNat + n, s', ?_, hs', ?_⟩
    · rw [countTrue_cons, hinsert, ok_bind]
      simp only [hcount, ok_bind, pure_eq_ok]
    · rw [hsize, size_insert_eq_add, Nat.add_assoc]

/-- **Deletions, one after the other.** -/
theorem ActsAsSet.countTrue_delete (h : ActsAsSet hasNone R fits) (hs : R s S) (keys : List κ) :
    ∃ n s', countTrue KeyCollection.delete s keys = .ok (n, s') ∧ R s' (keys.foldl .erase S) ∧
      (keys.foldl .erase S).size + n = S.size := by
  induction keys generalizing s S with
  | nil => exact ⟨0, s, rfl, hs, rfl⟩
  | cons k ks ih =>
    obtain ⟨s₁, hdelete, hs₁⟩ := h.delete k hs
    obtain ⟨n, s', hcount, hs', hsize⟩ := ih hs₁
    refine ⟨(S.contains k).toNat + n, s', ?_, hs', ?_⟩
    · rw [countTrue_cons, hdelete, ok_bind]
      simp only [hcount, ok_bind, pure_eq_ok]
    · have hone := size_erase_add_eq S k
      rw [List.foldl_cons]
      omega

theorem ActsAsSet.insertMany (h : ActsAsSet hasNone R fits) (hs : R s S) (keys : List κ)
    (hfits : fits (S.insertMany keys).size) :
    Yields hasNone (KeyCollection.insertMany s keys) S (joined S keys) := by
  obtain ⟨n, s', hcount, hs', hsize⟩ := h.countTrue_insert hs hfits
  refine ⟨n != 0, s', S.insertMany keys, ?_, h.shows hs', get?_insertMany S keys, ?_⟩
  · rw [KeyCollection.insertMany, hcount]
    rfl
  · have hsub : ∀ a, S.get? a = some a → (S.insertMany keys).get? a = some a := by
      intro a ha
      rw [get?_insertMany, joined, ha, Option.some_or]
    rw [bne_iff_ne, ne_comm (a := (S.insertMany keys).toList), Ne, Ne,
      toList_eq_iff_size_eq hsub]
    omega

theorem ActsAsSet.deleteMany (h : ActsAsSet hasNone R fits) (hs : R s S) (keys : List κ) :
    Yields hasNone (KeyCollection.deleteMany s keys) S (without S keys) := by
  obtain ⟨n, s', hcount, hs', hsize⟩ := h.countTrue_delete hs keys
  refine ⟨n != 0, s', keys.foldl .erase S, ?_, h.shows hs', get?_foldl_erase S keys, ?_⟩
  · rw [KeyCollection.deleteMany, hcount]
    rfl
  · have hsub : ∀ a, (keys.foldl .erase S).get? a = some a → S.get? a = some a := by
      intro a ha
      rw [get?_foldl_erase, without] at ha
      split at ha
      · cases ha
      · exact ha
    rw [bne_iff_ne, Ne, Ne, toList_eq_iff_size_eq hsub]
    omega

/-- To retain keys is to delete the others that are listed. -/
theorem ActsAsSet.retainOnly (h : ActsAsSet hasNone R fits) (hs : R s S) (keep : List κ) :
    Yields hasNone (KeyCollection.retainOnly s keep) S (within S keep) := by
  obtain ⟨keys, hkeys, hperm⟩ := h.toList hs
  let others : List κ := keys.filter fun k => !equalsOneOf keep k
  have hretain : KeyCollection.retainOnly s keep = KeyCollection.deleteMany s others := by
    rw [KeyCollection.retainOnly, hkeys]
    rfl
  obtain ⟨changed, s', T, hdelete, hshows, hget, hchanged⟩ := h.deleteMany hs others
  refine ⟨changed, s', T, hretain.trans hdelete, hshows, fun k => (hget k).trans ?_, hchanged⟩
  unfold without within
  cases hk : S.get? k with
  | none => rw [ite_self, ite_self]
  | some b =>
    obtain ⟨hmem, heq⟩ := mem_toList_of_get? hk
    -- the stored key is one of the others exactly if no key equal to it is kept
    have hothers : equalsOneOf others k = !equalsOneOf keep k := by
      rw [Bool.eq_iff_iff]
      constructor
      · intro hany
        obtain ⟨a, ha, hak⟩ := equalsOneOf_iff.mp hany
        rw [← equalsOneOf_congr hak]
        exact (List.mem_filter.mp ha).2
      · intro hnot
        rw [← equalsOneOf_congr heq] at hnot
        exact equalsOneOf_iff.mpr ⟨b, List.mem_filter.mpr ⟨hperm.mem_iff.mpr hmem, hnot⟩, heq⟩
    rw [hothers]
    cases equalsOneOf keep k <;> rfl

omit [Std.TransOrd κ] in
/-- The first key that is not there ends the walk. -/
theorem ActsAsSet.containsMany (h : ActsAsSet hasNone R fits) (hs : R s S) (keys : List κ) :
    ∃ s', KeyCollection.containsMany s keys = .ok (keys.all S.contains, s') ∧ R s' S := by
  induction keys generalizing s with
  | nil => exact ⟨s, rfl, hs⟩
  | cons k ks ih =>
    obtain ⟨s₁, hcontains, hs₁⟩ := h.contains k hs
    rw [KeyCollection.containsMany, hcontains, ok_bind, List.all_cons]
    cases S.contains k with
    | true => exact ih hs₁
    | false => exact ⟨s₁, rfl, hs₁⟩

/-- **One round clears.** Every key that is listed is deleted, and then nothing is listed. -/
theorem ActsAsSet.countTrue_delete_listed (h : ActsAsSet hasNone R fits) (hs : R s S)
    (hperm : keys.Perm S.toList) :
    ∃ s', countTrue KeyCollection.delete s keys = .ok (keys.length, s') ∧
      R s' (keys.foldl .erase S) ∧ (keys.foldl .erase S).toList = [] := by
  obtain ⟨n, s', hcount, hs', hsize⟩ := h.countTrue_delete hs keys
  have hnone : ∀ k, (keys.foldl .erase S).get? k = none := by
    intro k
    rw [get?_foldl_erase, without]
    split
    · rfl
    · next hother =>
      -- a key that is stored is listed
      cases hk : S.get? k with
      | none => rfl
      | some b =>
        obtain ⟨hmem, heq⟩ := mem_toList_of_get? hk
        exact absurd (equalsOneOf_iff.mpr ⟨b, hperm.mem_iff.mpr hmem, heq⟩) hother
  have hempty : (keys.foldl .erase S).toList = [] := by
    refine List.eq_nil_iff_forall_not_mem.mpr fun a ha => ?_
    rw [mem_toList_treeSet, hnone] at ha
    cases ha
  have hlength : n = keys.length := by
    have hzero : (keys.foldl .erase S).size = 0 := by
      rw [← TreeSet.length_toList, hempty, List.length_nil]
    rw [hperm.length_eq, TreeSet.length_toList]
    omega
  exact ⟨s', hlength ▸ hcount, hs', hempty⟩

omit [Ord κ] [Std.TransOrd κ] in
/-- As many rounds as there are, once nothing is listed there is no more to do. -/
theorem clearWithin_of_nil (h : toList s = .ok []) (rounds : Nat) :
    clearWithin (rounds + 1) s = .ok s ∧ clearedWithin (rounds + 1) s = .ok 0 := by
  constructor
  · rw [clearWithin, h]
    rfl
  · rw [clearedWithin, h]
    rfl

omit [Ord κ] [Std.TransOrd κ] in
/-- A round after which nothing is listed is the last one that deletes. -/
theorem clearWithin_of_round {n : Nat} (h : toList s = .ok keys)
    (hround : countTrue KeyCollection.delete s keys = .ok (n, s')) (hend : toList s' = .ok [])
    (rounds : Nat) :
    clearWithin (rounds + 2) s = .ok s' ∧ clearedWithin (rounds + 2) s = .ok n := by
  obtain ⟨hclear, hcleared⟩ := clearWithin_of_nil hend rounds
  cases keys with
  | nil =>
    obtain ⟨rfl, rfl⟩ := Prod.mk.inj (Except.ok.inj hround)
    exact clearWithin_of_nil h (rounds + 1)
  | cons k ks =>
    constructor
    · have hdelete : KeyCollection.deleteMany s (k :: ks) = .ok (n != 0, s') := by
        rw [KeyCollection.deleteMany, hround]
        rfl
      rw [clearWithin, h, ok_bind]
      simp only [hdelete, ok_bind, hclear]
    · rw [clearedWithin, h, ok_bind]
      simp only [hround, ok_bind, hcleared]
      rfl

theorem ActsAsSet.clearing (h : ActsAsSet hasNone R fits) (hs : R s S) :
    EmptiesAtOnce hasNone s S := by
  obtain ⟨keys, hkeys, hperm⟩ := h.toList hs
  obtain ⟨s', hround, hs', hempty⟩ := h.countTrue_delete_listed hs hperm
  obtain ⟨left, hleft, hnil, hshows⟩ := h.shows hs'
  rw [hempty, List.perm_nil] at hnil
  subst hnil
  have hrounds := clearWithin_of_round hkeys hround hleft
  have hsize : S.size = keys.length := by rw [hperm.length_eq, TreeSet.length_toList]
  -- the rounds that `clear` allows suffice
  have hbound : clearWithin (keys.length + 1) s = .ok s' ∧
      clearedWithin (keys.length + 1) s = .ok keys.length := by
    cases keys with
    | nil =>
      obtain ⟨-, rfl⟩ := Prod.mk.inj (Except.ok.inj hround)
      exact clearWithin_of_nil hkeys 0
    | cons k ks => exact hrounds ks.length
  refine ⟨keys, s', hkeys, hround, ?_, fun rounds => (hrounds rounds).1, ?_, [], hleft, .refl _,
    hshows⟩
  · rw [clear, hkeys, ok_bind, hbound.1]
  · rw [deletions, hkeys, ok_bind, hbound.2, hsize]

/-- **The laws for single keys give those for many.** -/
theorem ActsAsSet.obeysSetAlgebra (h : ActsAsSet hasNone R fits) (hs : R s S) :
    ObeysSetAlgebra hasNone s S fits where
  shows := h.shows hs
  union := h.insertMany hs
  difference := h.deleteMany hs
  intersection := h.retainOnly hs
  inclusion := by
    intro keys
    obtain ⟨s', hcontains, hs'⟩ := h.containsMany hs keys
    exact ⟨s', hcontains, h.shows hs'⟩
  clearing := h.clearing hs

end KeyCollection

end SplitOrder
