import SplitOrder.Proofs.Table.Listing

/-!
# The contents of a table

A table stores a finite map, given by `Std.TreeMap`: `Table.Represents`. Keys are what their order
tells apart; that the hash function tells no two equal keys apart is part of the relation. Each
operation on a table is one on the map, whichever bucket it starts from and however many sentinels
it has to link first.

* `Represents.insert` — an insertion answers whether the key was new, and an entry that is stored
  stays. It is the one operation with a condition: the counter must be able to count the entry.
* `Represents.removeEntry`, `Represents.find` — the others go through these two.
* `Represents.exists_toList` — a listing of the table is one of the map, in another order.
-/

namespace SplitOrder

open Std (TreeMap)
open SortedList

variable {κ ν : Type} [Ord κ]

/-! ### Stored entries of a map -/

/-- The stored key that equals `key`, with its value. -/
def stored? (m : TreeMap κ ν) (key : κ) : Option (κ × ν) :=
  match m.getKey? key, m[key]? with
  | some k, some v => some (k, v)
  | _, _ => none

section StoredEntry

variable {m : TreeMap κ ν} {key k : κ} {v : ν}

theorem stored?_eq_some_iff :
    stored? m key = some (k, v) ↔ m.getKey? key = some k ∧ m[key]? = some v := by
  rw [stored?]
  cases m.getKey? key <;> cases m[key]? <;> simp

variable [Std.TransOrd κ]

theorem getElem?_eq_map_stored? : m[key]? = (stored? m key).map Prod.snd := by
  have hkey : (m.getKey? key).isSome = m[key]?.isSome := by
    rw [← TreeMap.contains_eq_isSome_getKey?, TreeMap.contains_eq_isSome_getElem?]
  rw [stored?]
  -- a map has a stored key for `key` exactly if it has a value
  cases hk : m.getKey? key <;> cases hv : m[key]? <;> simp_all

theorem contains_eq_isSome_stored? : m.contains key = (stored? m key).isSome := by
  rw [TreeMap.contains_eq_isSome_getElem?, getElem?_eq_map_stored?, Option.isSome_map]

/-- An entry that is stored stays. -/
theorem stored?_insertIfNew :
    stored? (m.insertIfNew k v) key =
      if compare k key = .eq ∧ ¬ k ∈ m then some (k, v) else stored? m key := by
  rw [stored?, TreeMap.getKey?_insertIfNew, TreeMap.getElem?_insertIfNew]
  by_cases hnew : compare k key = .eq ∧ ¬ k ∈ m
  · rw [if_pos hnew, if_pos hnew, if_pos hnew]
  · rw [if_neg hnew, if_neg hnew, if_neg hnew, stored?]

theorem stored?_erase :
    stored? (m.erase k) key = if compare k key = .eq then none else stored? m key := by
  rw [stored?, TreeMap.getKey?_erase, TreeMap.getElem?_erase]
  by_cases heq : compare k key = .eq
  · rw [if_pos heq, if_pos heq, if_pos heq]
  · rw [if_neg heq, if_neg heq, if_neg heq, stored?]

theorem mem_toList_iff_stored? :
    (k, v) ∈ m.toList ↔ stored? m k = some (k, v) := by
  rw [stored?_eq_some_iff, TreeMap.mem_toList_iff_getKey?_eq_some_and_getElem?_eq_some]

end StoredEntry

namespace Table

/-- The table stores the entries of the map. -/
structure Represents (t : Table κ ν) (m : TreeMap κ ν) : Prop where
  intact : t.Intact
  /-- Equal keys have the same hash. -/
  respects : ∀ a b, compare a b = .eq → t.hash a = t.hash b
  size_eq : t.size.toNat = m.size
  stores : ∀ key, t.list.Stores (KeyProbe.ofKey (t.hash key) key).toProbe
    ((stored? m key).map fun e => .ofPair (t.hash e.1) e.1 e.2)

variable {t t' : Table κ ν} {m : TreeMap κ ν} {key : κ} {value : ν}

theorem exists_build {sizing : Sizing} (h : sizing.check = .ok ()) {hash : κ → UInt64}
    (respects : ∀ a b, compare a b = .eq → hash a = hash b) :
    ∃ t : Table κ ν, Table.build sizing hash = .ok t ∧ t.Represents ∅ := by
  obtain ⟨t, hbuild, hintact, hlist, hsize, hhash⟩ := exists_intact_build (ν := ν) h hash
  refine ⟨t, hbuild, hintact, by rw [hhash]; exact respects, ?_, fun key => ?_⟩
  · rw [hsize, TreeMap.size_emptyc]
    rfl
  · have hnone : stored? (∅ : TreeMap κ ν) key = none := by
      rw [stored?, TreeMap.getKey?_emptyc]
    rw [hnone, hlist]
    exact fun i e he => absurd he not_holds_empty

/-- To link and register sentinels is nothing to the map. -/
theorem Represents.prepares (h : t.Represents m) (hprep : t.Prepares t') (h' : t'.Intact) :
    t'.Represents m where
  intact := h'
  respects := by rw [hprep.hash_eq]; exact h.respects
  size_eq := by rw [hprep.size_eq, h.size_eq]
  stores := by
    intro key
    have hstores := h.stores key
    rw [hprep.hash_eq]
    cases hstored : stored? m key with
    | none =>
      rw [hstored] at hstores
      intro i e he heq
      -- the search stops at a pair, and no pair is new
      obtain ⟨key', value', rfl, -⟩ := KeyProbe.toProbe_eq_iff.mp heq
      exact hstores i _ (hprep.pair_iff.mp he) heq
    | some e =>
      rw [hstored] at hstores
      obtain ⟨i, he, heq⟩ := hstores
      exact ⟨i, hprep.pair_iff.mpr he, heq⟩

theorem Represents.isEmpty_eq (h : t.Represents m) : t.isEmpty = m.isEmpty := by
  rw [Table.isEmpty, TreeMap.isEmpty_eq_size_eq_zero, ← h.size_eq, Bool.eq_iff_iff, beq_iff_eq,
    beq_iff_eq, ← UInt64.toNat_inj]
  rfl

variable [Std.TransOrd κ]

/-- Whatever is found for a key is the stored entry. -/
theorem Represents.stored?_eq (h : t.Represents m) {x : Option (Entry κ ν)}
    (hx : t.list.Stores (KeyProbe.ofKey (t.hash key) key).toProbe x) :
    stored? m key = x.bind Entry.pair? := by
  have hunique := (h.stores key).unique h.intact.list (KeyProbe.monotone_toProbe _ _) hx
  rw [← hunique]
  cases stored? m key <;> rfl

theorem Represents.contains_eq_isSome (h : t.Represents m) {x : Option (Entry κ ν)}
    (hx : t.list.Stores (KeyProbe.ofKey (t.hash key) key).toProbe x) :
    m.contains key = x.isSome := by
  rw [contains_eq_isSome_stored?, h.stored?_eq hx]
  cases x with
  | none => rfl
  | some e =>
    -- what a search for a key stops at is a pair
    obtain ⟨i, -, heq⟩ := hx
    obtain ⟨key', value', rfl, -⟩ := KeyProbe.toProbe_eq_iff.mp heq
    rfl

theorem Represents.contains_eq (h : t.Represents m) {found : Option NodeId}
    (hf : t.list.Found (KeyProbe.ofKey (t.hash key) key).toProbe found) :
    m.contains key = found.isSome := by
  obtain ⟨x, hx, hsome⟩ := hf.exists_stores
  rw [h.contains_eq_isSome hx, hsome]

/-! ### Searching -/

/-- **A lookup finds the stored entry.** -/
theorem Represents.lookup (h : t.Represents m) (key : κ) :
    ∃ found t', t.lookup key = .ok (found, t') ∧ t'.Represents m ∧
      t'.list.Found (KeyProbe.ofKey (t'.hash key) key).toProbe found := by
  obtain ⟨start, t₁, hstart, -, hprep, h₁, hfront⟩ := sentinelOfHash_spec h.intact (t.hash key)
  obtain ⟨found, l, hlook, htrims, hfound⟩ :=
    lookupAfter_spec h₁.list (hfront key) (KeyProbe.monotone_toProbe _ _)
  obtain ⟨hprep', h'⟩ := h₁.trims (h₁.list.evolves htrims.evolves).1 htrims
  refine ⟨found, { t₁ with list := l }, ?_, (h.prepares hprep h₁).prepares hprep' h', ?_⟩
  · rw [Table.lookup_eq, hstart, Checked.ok_bind]
    simp only [hlook, Checked.ok_bind]
    rfl
  · show l.Found (KeyProbe.ofKey (t₁.hash key) key).toProbe found
    rw [hprep.hash_eq]
    exact hfound.congr fun _ _ => htrims.holds_iff

theorem Represents.contains (h : t.Represents m) (key : κ) :
    ∃ t', t.contains key = .ok (m.contains key, t') ∧ t'.Represents m := by
  obtain ⟨found, t', hlook, h', hfound⟩ := h.lookup key
  refine ⟨t', ?_, h'⟩
  rw [Table.contains_eq, hlook, h'.contains_eq hfound]
  rfl

theorem Represents.find (h : t.Represents m) (key : κ) :
    ∃ t', t.find key = .ok (stored? m key, t') ∧ t'.Represents m := by
  obtain ⟨found, t', hlook, h', hfound⟩ := h.lookup key
  refine ⟨t', ?_, h'⟩
  rw [Table.find_eq, hlook]
  cases found with
  | none =>
    have hnone : t'.list.Stores (KeyProbe.ofKey (t'.hash key) key).toProbe none := hfound
    rw [h'.stored?_eq hnone]
    rfl
  | some i =>
    obtain ⟨e, he, heq⟩ := hfound
    have hsome : t'.list.Stores (KeyProbe.ofKey (t'.hash key) key).toProbe (some e) := ⟨i, he, heq⟩
    rw [h'.stored?_eq hsome]
    simp only [Checked.ok_bind, element_eq_ok_iff.mpr he.1]
    rfl

theorem Represents.get (h : t.Represents m) (key : κ) :
    ∃ t', t.get key = .ok (m[key]?, t') ∧ t'.Represents m := by
  obtain ⟨t', hfind, h'⟩ := h.find key
  refine ⟨t', ?_, h'⟩
  rw [Table.get_eq, hfind, getElem?_eq_map_stored?]
  rfl

/-! ### Removing -/

/-- Two searches for keys stop at the same entries if the keys are equal, and at different ones if
they are not. -/
theorem toProbe_ofKey_eq_iff (h : t.Represents m) {k : κ} {e : Entry κ ν}
    (he : (KeyProbe.ofKey (t.hash key) key).toProbe e = .eq) :
    (KeyProbe.ofKey (t.hash k) k).toProbe e = .eq ↔ compare k key = .eq := by
  obtain ⟨key', value', rfl, heq⟩ := KeyProbe.toProbe_eq_iff.mp he
  have hkey : compare key' key = .eq := heq
  rw [KeyProbe.toProbe_eq_iff]
  constructor
  · -- both searches stop at the key of the entry
    rintro ⟨key'', value'', hpair, heq'⟩
    obtain ⟨-, rfl, -⟩ := Entry.pair.inj hpair
    have hk : compare key' k = .eq := heq'
    exact Std.TransCmp.eq_trans (Std.OrientedCmp.eq_symm hk) hkey
  · intro hk
    have hk' : compare key' k = .eq := Std.TransCmp.eq_trans hkey (Std.OrientedCmp.eq_symm hk)
    refine ⟨key', value', ?_, hk'⟩
    -- equal keys have equal hashes, hence one place in split order
    simp only [KeyProbe.ofKey, h.respects k key hk]

/-- Without the entry of a key the list stores what the map stores without the key. -/
theorem Represents.stores_erase (h : t.Represents m) {l : SortedList (Entry κ ν)}
    (hrem : t.list.Removes (KeyProbe.ofKey (t.hash key) key).toProbe l) (k : κ) :
    l.Stores (KeyProbe.ofKey (t.hash k) k).toProbe
      ((stored? (m.erase key) k).map fun e => .ofPair (t.hash e.1) e.1 e.2) := by
  rw [stored?_erase]
  split
  · next heq =>
    refine hrem.lacks fun e he => ?_
    exact (toProbe_ofKey_eq_iff h he).mpr heq
  · next hne =>
    refine (h.stores k).removes hrem fun e he heq => hne ?_
    exact (toProbe_ofKey_eq_iff h he).mp heq

theorem Represents.size_countRemoval (h : t.Represents m) (hmem : m.contains key = true) :
    t.countRemoval.size.toNat = (m.erase key).size := by
  -- the key is there, so the counter is not zero
  have hpos : m.size ≠ 0 := by
    intro hzero
    have hempty : m.isEmpty = true := by rw [TreeMap.isEmpty_eq_size_eq_zero, hzero]; rfl
    rw [TreeMap.contains_of_isEmpty hempty] at hmem
    cases hmem
  have hone : (1 : UInt64).toNat = 1 := rfl
  have hle : (1 : UInt64) ≤ t.size := by
    rw [UInt64.le_iff_toNat_le, h.size_eq]
    omega
  show (t.size - 1).toNat = (m.erase key).size
  rw [UInt64.toNat_sub_of_le _ _ hle, h.size_eq, TreeMap.size_erase, if_pos hmem, hone]

/-- **A removal answers the stored entry.** -/
theorem Represents.removeEntry (h : t.Represents m) (key : κ) :
    ∃ entry t', t.removeEntry key = .ok (entry, t') ∧ t'.Represents (m.erase key) ∧
      entry.bind Entry.pair? = stored? m key ∧ entry.isSome = m.contains key := by
  obtain ⟨start, t₁, hstart, -, hprep, h₁, hfront⟩ := sentinelOfHash_spec h.intact (t.hash key)
  have hrep₁ := h.prepares hprep h₁
  have hmono := KeyProbe.monotone_toProbe (ν := ν) (t.hash key) key
  obtain ⟨removed, l, hdel, hends⟩ := deleteAfter_spec h₁.list (hfront key) hmono
  have hl : l.Sound := (h₁.list.evolves hends.evolves).1
  have hrem := hends.removes h₁.list hmono
  have hstored := hends.stores
  -- obtaining the sentinel changed neither the hash function nor the map
  rw [← hprep.hash_eq] at hrem hstored
  have hpair := hrep₁.stored?_eq hstored
  have hsome := hrep₁.contains_eq_isSome hstored
  have hintact := h₁.removes hl hrem
  rw [Table.removeEntry_eq, hstart]
  simp only [Checked.ok_bind, hdel]
  cases removed with
  | none =>
    refine ⟨none, { t₁ with list := l }, rfl,
      ⟨hintact, hrep₁.respects, ?_, hrep₁.stores_erase hrem⟩, hpair.symm, hsome.symm⟩
    have hnot : ¬ m.contains key = true := by simp [hsome]
    rw [TreeMap.size_erase, if_neg hnot]
    exact hrep₁.size_eq
  | some e =>
    exact ⟨some e, countRemoval { t₁ with list := l }, rfl, ⟨hintact.with_size _, hrep₁.respects,
      hrep₁.size_countRemoval hsome, hrep₁.stores_erase hrem⟩, hpair.symm, hsome.symm⟩

theorem Represents.remove (h : t.Represents m) (key : κ) :
    ∃ t', t.remove key = .ok (m[key]?, t') ∧ t'.Represents (m.erase key) := by
  obtain ⟨entry, t', hrem, h', hpair, -⟩ := h.removeEntry key
  refine ⟨t', ?_, h'⟩
  rw [Table.remove_eq, hrem, getElem?_eq_map_stored?, ← hpair, ← Entry.bind_value?_eq]
  rfl

theorem Represents.delete (h : t.Represents m) (key : κ) :
    ∃ t', t.delete key = .ok (m.contains key, t') ∧ t'.Represents (m.erase key) := by
  obtain ⟨entry, t', hrem, h', -, hsome⟩ := h.removeEntry key
  refine ⟨t', ?_, h'⟩
  rw [Table.delete_eq, hrem, ← hsome]
  rfl

/-! ### Inserting -/

/-- With an entry for a new key the list stores what the map stores with the key. -/
theorem Represents.stores_insertIfNew (h : t.Represents m) {l : SortedList (Entry κ ν)}
    {i : NodeId} (hlinks : t.list.Links (.ofPair (t.hash key) key value) i l) (hmem : ¬ key ∈ m)
    (k : κ) :
    l.Stores (KeyProbe.ofKey (t.hash k) k).toProbe
      ((stored? (m.insertIfNew key value) k).map fun e => .ofPair (t.hash e.1) e.1 e.2) := by
  -- a search for `k` stops at the new entry if `k` is the key inserted
  have hprobe : (KeyProbe.ofKey (t.hash k) k).toProbe (.ofPair (t.hash key) key value) = .eq ↔
      compare k key = .eq :=
    toProbe_ofKey_eq_iff h (KeyProbe.toProbe_eq_iff.mpr ⟨key, value, rfl, Std.compare_self⟩)
  rw [stored?_insertIfNew]
  split
  · next heq => exact hlinks.stores (hprobe.mpr (Std.OrientedCmp.eq_symm heq.1))
  · next hne =>
    refine (h.stores k).links hlinks fun heq => hne ⟨?_, hmem⟩
    exact Std.OrientedCmp.eq_symm (hprobe.mp heq)

/-- **An insertion answers whether the key is new.** -/
theorem Represents.insert (h : t.Represents m) (key : κ) (value : ν)
    (hfits : (m.insertIfNew key value).size < 2 ^ 64) :
    ∃ t', t.insert key value = .ok (!m.contains key, t') ∧
      t'.Represents (m.insertIfNew key value) := by
  obtain ⟨start, t₁, hstart, -, hprep, h₁, hfront⟩ := sentinelOfHash_spec h.intact (t.hash key)
  have hrep₁ := h.prepares hprep h₁
  have hfront := hfront key
  rw [← KeyProbe.ofElement_ofPair _ _ value] at hfront
  obtain ⟨ins, l, hins, hspec⟩ := insertAfter_spec h₁.list hfront
  have hl : l.Sound := (h₁.list.evolves hspec.evolves).1
  rw [Table.insert]
  simp only [hstart, Checked.ok_bind, hins]
  cases ins with
  | existing i =>
    -- an equal key is stored: the table is only tidied up, and the map stays
    obtain ⟨htrims, e, he, heq⟩ := hspec
    have hfound : t₁.list.Found (KeyProbe.ofKey (t₁.hash key) key).toProbe (some i) := by
      rw [hprep.hash_eq, ← KeyProbe.ofElement_ofPair _ _ value]
      exact ⟨e, he, heq⟩
    have hcontains : m.contains key = true := hrep₁.contains_eq hfound
    have hmem : key ∈ m := hcontains
    obtain ⟨hprep', h'⟩ := h₁.trims hl htrims
    have hrep' := hrep₁.prepares hprep' h'
    refine ⟨{ t₁ with list := l }, by rw [hcontains]; rfl, h', hrep'.respects, ?_, fun k => ?_⟩
    · rw [hrep'.size_eq, TreeMap.size_insertIfNew, if_pos hmem]
    · rw [stored?_insertIfNew, if_neg fun hn => hn.2 hmem]
      exact hrep'.stores k
  | linked i =>
    -- the key is new: it is counted, and the number of buckets may grow
    have hlinks : t₁.list.Links (.ofPair (t₁.hash key) key value) i l := by
      rw [hprep.hash_eq]
      exact hspec
    have hfound : t₁.list.Found (KeyProbe.ofKey (t₁.hash key) key).toProbe none := by
      rw [← KeyProbe.ofElement_ofPair _ _ value]
      exact hlinks.fresh
    have hcontains : m.contains key = false := hrep₁.contains_eq hfound
    have hmem : ¬ key ∈ m := by
      rw [← TreeMap.contains_iff_mem, hcontains]
      decide
    have hsize := TreeMap.size_insertIfNew (t := m) (k := key) (v := value)
    rw [if_neg hmem] at hsize
    have hone : (1 : UInt64).toNat = 1 := rfl
    have hcount : t₁.size.toNat + (1 : UInt64).toNat < UInt64.size := by
      rw [hrep₁.size_eq, hone, ← hsize]
      exact hfits
    obtain ⟨c, hdouble, h'⟩ :=
      doubleIfFull_spec ((h₁.links hl hlinks).with_size (t₁.size + 1)) (t₁.size + 1)
    refine ⟨{ t₁ with list := l, size := t₁.size + 1, bucketCount := c }, ?_, h', hrep₁.respects,
      ?_, hrep₁.stores_insertIfNew hlinks hmem⟩
    · simp only [countInsertion, Word.checkedAdd_eq_ok hcount, Checked.ok_bind,
        Checked.pure_eq_ok, hdouble, hcontains]
      rfl
    · show (t₁.size + 1).toNat = (m.insertIfNew key value).size
      rw [UInt64.toNat_add, Nat.mod_eq_of_lt hcount, hrep₁.size_eq, hsize, hone]

/-! ### Listing -/

/-- **A listing shows each entry of the map once.** -/
theorem Represents.exists_toList (h : t.Represents m) :
    ∃ entries, t.toList = .ok entries ∧ entries.Perm m.toList := by
  refine ⟨_, toList_eq h.intact, ?_⟩
  have hnodup : m.toList.Nodup := by
    refine TreeMap.distinct_keys_toList.imp fun {a b} hne => ?_
    rintro rfl
    exact hne Std.compare_self
  -- neither has duplicates, so it is enough that they have the same members
  refine (List.perm_ext_iff_of_nodup (nodup_pairs h.intact) hnodup).mpr fun (key, value) => ?_
  rw [mem_pairs_iff h.intact, mem_toList_iff_stored?]
  constructor
  · rintro ⟨i, hi⟩
    have hstores : t.list.Stores (KeyProbe.ofKey (t.hash key) key).toProbe
        (some (.ofPair (t.hash key) key value)) :=
      ⟨i, hi, KeyProbe.toProbe_eq_iff.mpr ⟨key, value, rfl, Std.compare_self⟩⟩
    exact h.stored?_eq hstores
  · intro hstored
    have hstores := h.stores key
    rw [hstored] at hstores
    obtain ⟨i, hi, -⟩ := hstores
    exact ⟨i, hi⟩

end Table

end SplitOrder
