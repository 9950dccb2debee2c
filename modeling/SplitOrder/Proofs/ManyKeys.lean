import SplitOrder.Proofs.List.NestedDeletion
import SplitOrder.Proofs.SetAlgebra
import SplitOrder.Proofs.Table.Contents
import SplitOrder.Proofs.Table.EntryOrder
import SplitOrder.Proofs.Table.Faultless
import SplitOrder.Proofs.Table.HistoryFree

/-!
# Many keys at once, on lists and on key sets

Both kinds of collection act as sets, one key at a time, so requests about many keys obey the laws
of set algebra on both. A list counts its elements by walking over them, a key set keeps a counter;
the laws do not tell the difference, up to the size that a counter can tell.

* `SortedList.actsAsSet`, `KeySet.actsAsSet` — the operations on single keys.
* `KeySet.represents_liveKeys` — a key set stores what it lists, if nothing but its past is known.
* `obeysSetAlgebra_of_runs` — the laws, whatever was done to the collection before.
-/

namespace SplitOrder

open Std (TreeMap TreeSet)
open KeyCollection (ActsAsSet ObeysSetAlgebra Yields)

/-! ### Lists -/

theorem SortedList.actsAsSet {α : Type} [Ord α] [Std.TransOrd α] :
    ActsAsSet SortedList.isEmpty (fun (l : SortedList α) S => l.Sound ∧ l.Represents S)
      fun _ => True where
  fits_of_le := fun _ _ => trivial
  insert := by
    intro l S a hl _
    obtain ⟨l', hins, he, hrep⟩ := hl.2.exists_insert hl.1 a
    exact ⟨l', hins, (hl.1.evolves he).1, hrep⟩
  delete := by
    intro l S a hl
    obtain ⟨l', hdel, he, hrep⟩ := hl.2.exists_delete hl.1 a
    exact ⟨l', hdel, (hl.1.evolves he).1, hrep⟩
  contains := by
    intro l S a hl
    obtain ⟨l', hcon, he, hrep⟩ := hl.2.exists_contains hl.1 a
    exact ⟨l', hcon, (hl.1.evolves he).1, hrep⟩
  length := fun hl => hl.2.length_eq hl.1
  hasNone := fun hl => hl.2.isEmpty_eq hl.1
  toList := fun hl => ⟨_, hl.2.toList_eq hl.1, .refl _⟩

/-! ### Key sets -/

namespace KeySet

variable {κ : Type} [Ord κ] [Std.TransOrd κ]

/-- An entry without a value is a key. -/
theorem stored?_inner (S : TreeSet κ) (key : κ) :
    stored? S.inner key = (S.get? key).map fun k => (k, ()) := by
  have hvalue : (S.inner.getKey? key).isSome = (stored? S.inner key).isSome := by
    rw [← TreeMap.contains_eq_isSome_getKey?, contains_eq_isSome_stored?]
  show stored? S.inner key = (S.inner.getKey? key).map fun k => (k, ())
  cases hk : S.inner.getKey? key with
  | none =>
    rw [hk] at hvalue
    exact Option.not_isSome_iff_eq_none.mp fun hsome => nomatch hvalue.trans hsome
  | some k =>
    rw [hk] at hvalue
    obtain ⟨⟨k', u⟩, hstored⟩ := Option.isSome_iff_exists.mp hvalue.symm
    obtain ⟨hk', -⟩ := stored?_eq_some_iff.mp hstored
    cases hk.symm.trans hk'
    exact hstored

theorem actsAsSet :
    ActsAsSet (fun s => .ok s.isEmpty) (fun (s : KeySet κ) S => Table.Represents s S.inner)
      (· < 2 ^ 64) where
  fits_of_le := fun hle hlt => Nat.lt_of_le_of_lt hle hlt
  insert := fun key hs hfits => hs.insert key () hfits
  delete := fun key hs => hs.delete key
  contains := fun key hs => hs.contains key
  length := fun hs => congrArg Except.ok hs.size_eq
  hasNone := fun hs => congrArg Except.ok hs.isEmpty_eq
  toList := by
    intro s S hs
    obtain ⟨entries, hentries, hperm⟩ := hs.exists_toList
    refine ⟨entries.map Prod.fst, ?_, ?_⟩
    · show Table.keys s = _
      rw [Table.keys, hentries]
      rfl
    · show (entries.map Prod.fst).Perm S.inner.keys
      rw [← TreeMap.map_fst_toList_eq_keys]
      exact hperm.map _

variable {s : KeySet κ}

omit [Std.TransOrd κ] in
theorem mem_liveKeys_iff (h : s.Tidy) {key : κ} :
    key ∈ s.liveKeys ↔ ∃ i, s.list.Holds i (.ofPair (s.hash key) key ()) := by
  rw [← Table.mem_pairs_iff h.toIntact, Table.liveKeys, List.mem_map]
  constructor
  · rintro ⟨⟨key', ⟨⟩⟩, hpair, rfl⟩
    exact hpair
  · intro hpair
    exact ⟨(key, ()), hpair, rfl⟩

/-- Entries with equal keys would stand at the same place. -/
theorem pairwise_liveKeys (h : s.Tidy)
    (respects : ∀ a b, compare a b = .eq → s.hash a = s.hash b) :
    s.liveKeys.Pairwise fun a b => ¬ compare a b = .eq := by
  refine List.pairwise_map.mpr ((Table.pairwise_pairs h.toIntact).imp fun hlt heq => ?_)
  have hsame := Table.keyOrder_eq_iff.mpr ⟨congrArg OrderKey.ofHash (respects _ _ heq), heq⟩
  cases hlt.symm.trans hsame

/-- **A tidy key set stores what it lists**, if equal keys have the same hash. -/
theorem represents_liveKeys (h : s.Tidy)
    (respects : ∀ a b, compare a b = .eq → s.hash a = s.hash b) :
    Table.Represents s (TreeSet.ofList s.liveKeys).inner where
  intact := h.toIntact
  respects := respects
  size_eq := by
    have hsize := TreeSet.size_ofList (pairwise_liveKeys h respects)
    rw [Table.liveKeys, List.length_map, h.length_pairs] at hsize
    exact hsize.symm
  stores := by
    intro key
    rw [stored?_inner, get?_ofList]
    cases hfind : s.liveKeys.find? fun a => compare a key == .eq with
    | none =>
      intro i e he heq
      -- an entry with an equal key would be listed
      obtain ⟨key', ⟨⟩, rfl, heq'⟩ := KeyProbe.toProbe_eq_iff.mp heq
      have hhash := h.hashed he
      have hmem := (mem_liveKeys_iff h).mpr ⟨i, hhash ▸ he⟩
      exact List.find?_eq_none.mp hfind key' hmem (beq_iff_eq.mpr heq')
    | some b =>
      obtain ⟨i, hi⟩ := (mem_liveKeys_iff h).mp (List.mem_of_find?_eq_some hfind)
      have hbeq := List.find?_some hfind
      have heq : compare b key = .eq := beq_iff_eq.mp hbeq
      refine ⟨i, hi, KeyProbe.toProbe_eq_iff.mpr ⟨b, (), ?_, heq⟩⟩
      show Entry.pair (.ofHash (s.hash b)) b () = .pair (.ofHash (s.hash key)) b ()
      rw [respects b key heq]

end KeySet

/-! ### Whatever was done before -/

section Runs

variable {α κ β : Type} [Ord α] [Std.TransOrd α] [Text.Legible α] [Ord κ] [Std.TransOrd κ]

theorem Moment.Reachable.obeysSetAlgebra {m : Moment α} (hm : m.Reachable) :
    ∃ keys, m.list.toList = .ok keys ∧
      ObeysSetAlgebra SortedList.isEmpty m.list (TreeSet.ofList keys) fun _ => True := by
  have hl : m.list.Sound := hm.sound.list
  exact ⟨m.list.live, SortedList.toList_eq hl.toOrdered,
    SortedList.actsAsSet.obeysSetAlgebra ⟨hl, hl.represents⟩⟩

variable [Numbered κ] [Text.Legible κ]

theorem SetSession.obeysSetAlgebra_of_run {sizing : Sizing} {hash : κ → UInt64}
    {s s' : SetSession κ} {view : SetSession κ → β} {rs : List (SetRequest κ)}
    {replies : List (TableReply κ Unit × β)}
    (respects : ∀ a b, compare a b = .eq → hash a = hash b)
    (hbuild : Table.build sizing hash = .ok s.table)
    (h : SetSession.run view s rs = .ok (replies, s')) :
    ∃ keys, s'.table.keys = .ok keys ∧
      ObeysSetAlgebra (fun s => .ok s.isEmpty) s'.table (TreeSet.ofList keys) (· < 2 ^ 64) := by
  obtain ⟨htidy, -, hhash⟩ := Table.tidy_build hbuild
  obtain ⟨n, -, hretires⟩ := run_tracks Table.tracks_retires h
  obtain ⟨htidy', hhash', -⟩ := hretires htidy
  rw [← hhash, ← hhash'] at respects
  exact ⟨_, Table.keys_eq htidy'.toIntact,
    KeySet.actsAsSet.obeysSetAlgebra (KeySet.represents_liveKeys htidy' respects)⟩

/-- **Requests about many keys are set algebra.** This holds of a list at every moment, with
whatever deleted nodes on it, and of a key set of any sizing and with any hash function that gives
equal keys the same hash, after any run. Let the set be that of the keys listed, and let any list of
keys be given, with repeated and with equal ones among them. To insert all of them leaves the union,
to delete all of them the difference, to retain them the intersection, and each of these answers
whether the set has changed; to ask for all of them answers whether they are included; and clearing
ends with no key left, once each key was deleted once. The size and the tests for emptiness agree
with the listing afterwards.

Only a key set that would come to hold `2 ^ 64` keys is left out. -/
theorem obeysSetAlgebra_of_runs :
    (∀ m : Moment α, m.Reachable →
      ∃ keys, m.list.toList = .ok keys ∧
        ObeysSetAlgebra SortedList.isEmpty m.list (TreeSet.ofList keys) fun _ => True) ∧
    ∀ sizing (hash : κ → UInt64) (s₀ s : SetSession κ) (view : SetSession κ → β) rs replies,
      (∀ a b, compare a b = .eq → hash a = hash b) → Table.build sizing hash = .ok s₀.table →
      SetSession.run view s₀ rs = .ok (replies, s) →
        ∃ keys, s.table.keys = .ok keys ∧
          ObeysSetAlgebra (fun s => .ok s.isEmpty) s.table (TreeSet.ofList keys) (· < 2 ^ 64) := by
  refine ⟨fun m hm => hm.obeysSetAlgebra, ?_⟩
  intro sizing hash s₀ s view rs replies respects hbuild h
  exact SetSession.obeysSetAlgebra_of_run respects hbuild h

end Runs

/-- A list with a deleted node on it, into which elements with other labels are inserted, equal to one
that is stored, to the deleted one and to each other; and a key set that has grown and in which keys
collide. -/
theorem obeysSetAlgebra_of_mark_and_collisions :
    let elements : List Labelled := [⟨10, 1⟩, ⟨30, 1⟩]
    let keys : List UInt64 := [5, 9, 13, 7]
    let requests : List (SetRequest UInt64) :=
      [.bulk (.insertMany [5, 6, 7, 13, 9, 5]), .table (.delete 6)]
    (∃ m : Moment Labelled, m.Reachable ∧
      m.list.chain = [(⟨10, 1⟩, false), (⟨20, 1⟩, true), (⟨30, 1⟩, false)] ∧
      ObeysSetAlgebra SortedList.isEmpty m.list (TreeSet.ofList elements) (fun _ => True) ∧
      Yields SortedList.isEmpty (KeyCollection.insertMany m.list [⟨10, 2⟩, ⟨20, 3⟩, ⟨20, 4⟩])
        (TreeSet.ofList elements)
        (joined (TreeSet.ofList elements) [⟨10, 2⟩, ⟨20, 3⟩, ⟨20, 4⟩])) ∧
    ∃ t : KeySet UInt64, ∃ replies s, Table.build {} (· &&& 3) = .ok t ∧
      SetSession.run (fun _ => ()) { table := t } requests = .ok (replies, s) ∧
      s.table.keys = .ok keys ∧
      ObeysSetAlgebra (fun s => .ok s.isEmpty) s.table (TreeSet.ofList keys) (· < 2 ^ 64) ∧
      Yields (fun s => .ok s.isEmpty) (KeyCollection.insertMany s.table [7, 4, 4])
        (TreeSet.ofList keys) (joined (TreeSet.ofList keys) [7, 4, 4]) := by
  intro elements keys requests
  obtain ⟨hlists, hsets⟩ := obeysSetAlgebra_of_runs (α := Labelled) (κ := UInt64) (β := Unit)
  constructor
  · let ops : List (ListOp Labelled) :=
      [.request (.insert ⟨10, 1⟩), .request (.insert ⟨20, 1⟩), .request (.insert ⟨30, 1⟩),
        .request (.markOnly ⟨20, 0⟩)]
    have hcomputed : (do
        let (_, s) ← (ListSession.fresh .deferred).steps ops
        return (s.list.chain, ← s.list.toList)) =
        .ok ([(⟨10, 1⟩, false), (⟨20, 1⟩, true), (⟨30, 1⟩, false)], elements) := by
      decide +kernel
    obtain ⟨⟨replies, s⟩, hsteps, hcomputed⟩ := Checked.bind_eq_ok.mp hcomputed
    obtain ⟨listed, hlisted, hcomputed⟩ := Checked.bind_eq_ok.mp hcomputed
    obtain ⟨hchain, rfl⟩ := Prod.mk.inj (Except.ok.inj hcomputed)
    have hreach : Moment.Reachable ⟨s, []⟩ := Moment.reachable_of_steps hsteps
    obtain ⟨listed', hlisted', hobeys⟩ := hlists _ hreach
    cases hlisted.symm.trans hlisted'
    exact ⟨_, hreach, hchain, hobeys, hobeys.union _ trivial⟩
  · have hcomputed : (do
        let t : KeySet UInt64 ← Table.build {} (· &&& 3)
        let (_, s) ← SetSession.run (fun _ => ()) { table := t } requests
        s.table.keys) = .ok keys := by
      decide +kernel
    obtain ⟨t, hbuild, hcomputed⟩ := Checked.bind_eq_ok.mp hcomputed
    obtain ⟨⟨replies, s⟩, hrun, hkeys⟩ := Checked.bind_eq_ok.mp hcomputed
    have respects : ∀ a b : UInt64, compare a b = .eq → a &&& 3 = b &&& 3 := by
      intro a b hab
      rw [Std.LawfulEqCmp.eq_of_compare hab]
    obtain ⟨listed, hlisted, hobeys⟩ :=
      hsets {} _ { table := t } s _ requests replies respects hbuild hrun
    cases hkeys.symm.trans hlisted
    exact ⟨t, replies, s, hbuild, hrun, hkeys, hobeys, hobeys.union _ (by decide +kernel)⟩

end SplitOrder
