import SplitOrder.Proofs.List.SortedSet
import SplitOrder.Proofs.Table.Frame
import SplitOrder.Proofs.Table.Listing

/-!
# Listings tell nothing of the past

What a table went through shows in its nodes: how many buckets there are, which of them have
sentinels, where marked nodes stand. None of it shows in a listing. The entries come in an order that
is a function of the entries and the hash function, so tables with the same entries have the same
listing.

* `Table.keyOrder`, `listingOrder` — the order: by the place of the hash, and by key where places are
  shared.
* `Table.Has` — what a table has is what it shows when it is looked up.
* `Table.Lists` — a listing is what a table has, in that order. There is only one such listing.
* `HistoryFree`, `listing_history_free` — two tables, of any sizings and after any actions.
-/

namespace SplitOrder

open SortedList

namespace Table

variable {κ ν : Type} [Ord κ]

/-- The order of keys in a table: by the places of their hashes, and then by themselves. -/
def keyOrder (hash : κ → UInt64) : κ → κ → Ordering :=
  compareLex (compareOn fun key => OrderKey.ofHash (hash key)) compare

theorem keyOrder_eq_iff {hash : κ → UInt64} {key key' : κ} : keyOrder hash key key' = .eq ↔
    OrderKey.ofHash (hash key) = OrderKey.ofHash (hash key') ∧ compare key key' = .eq := by
  rw [keyOrder, compareLex, Ordering.then_eq_eq, compareOn, Std.LawfulEqCmp.compare_eq_iff_eq]

instance [Std.TransOrd κ] (hash : κ → UInt64) : Std.TransCmp (keyOrder hash) :=
  inferInstanceAs (Std.TransCmp (compareLex _ _))

/-- The order in which entries are listed. It does not look at values. -/
def listingOrder (hash : κ → UInt64) (p q : κ × ν) : Ordering :=
  keyOrder hash p.1 q.1

instance [Std.TransOrd κ] (hash : κ → UInt64) :
    Std.TransCmp (listingOrder hash : κ × ν → κ × ν → Ordering) where
  eq_swap := by
    intro p q
    show keyOrder hash p.1 q.1 = (keyOrder hash q.1 p.1).swap
    exact Std.OrientedCmp.eq_swap
  isLE_trans := by
    intro p q r hpq hqr
    show (keyOrder hash p.1 r.1).isLE
    exact Std.TransCmp.isLE_trans hpq hqr

/-- The table shows the entry when its key is looked up. -/
def Has (t : Table κ ν) (p : κ × ν) : Prop :=
  ∃ t', t.find p.1 = .ok (some p, t')

/-- **What a listing is**: all that the table has, in ascending order, and nothing else. So it is
what comes of sorting, in whatever order the entries are given. -/
structure Lists (t : Table κ ν) (hash : κ → UInt64) (entries : List (κ × ν)) : Prop where
  toList : t.toList = .ok entries
  mem_iff : ∀ p, p ∈ entries ↔ t.Has p
  ascending : entries.Pairwise fun p q => listingOrder hash p q = .lt
  sorted : ∀ es : List (κ × ν), es.Nodup → (∀ p, p ∈ es ↔ t.Has p) →
    entries = es.mergeSort fun p q => (listingOrder hash p q).isLE

/-- **Two tables forget their past**, whatever was done to them: both list what they have, and if
they have the same, their listings are the same, of entries and of keys. -/
def HistoryFree (t₀ u₀ : Table κ ν) (hash : κ → UInt64) : Prop :=
  ∀ t u, t₀.Calls t → u₀.Calls u →
    (∃ entries, t.Lists hash entries) ∧ (∃ entries, u.Lists hash entries) ∧
    ((∀ p, t.Has p ↔ u.Has p) → t.toList = u.toList ∧ t.keys = u.keys)

variable [Std.TransOrd κ] {t t' : Table κ ν} {key : κ} {p : κ × ν} {hash : κ → UInt64}

/-! ### What a table has -/

/-- To find a key is to learn what is stored for it. -/
theorem exists_find_stores (h : t.Intact) (key : κ) :
    ∃ entry t', t.find key = .ok (entry.bind Entry.pair?, t') ∧
      t.list.Stores (t.probe key) entry := by
  obtain ⟨found, t', hlook, hcourse, hfound⟩ := exists_lookup h key
  rw [find_eq, hlook, Checked.ok_bind]
  -- what is stored after the lookup was stored before
  have hkept : ∀ {x : Option (Entry κ ν)}, t'.list.Stores (t.probe key) x →
      t.list.Stores (t.probe key) x := hcourse.stores_iff_of_kept.mp
  cases found with
  | none => exact ⟨none, t', rfl, hkept (x := none) hfound⟩
  | some i =>
    obtain ⟨e, he, heq⟩ := hfound
    refine ⟨some e, t', ?_, hkept ⟨i, he, heq⟩⟩
    simp only [element_eq_ok_iff.mpr he.1, Checked.ok_bind]
    rfl

theorem has_iff_mem_pairs (h : t.Intact) : t.Has p ↔ p ∈ t.list.live.filterMap Entry.pair? := by
  obtain ⟨key, value⟩ := p
  obtain ⟨entry, t', hfind, hstores⟩ := exists_find_stores h key
  rw [mem_pairs_iff h]
  constructor
  · rintro ⟨t'', hhas⟩
    obtain ⟨hpair, -⟩ := Prod.mk.inj (Except.ok.inj (hfind.symm.trans hhas))
    obtain ⟨e, rfl, he⟩ := Option.bind_eq_some_iff.mp hpair
    obtain ⟨key', value', rfl, -⟩ := exists_eq_pair_of_stores hstores
    cases he
    obtain ⟨i, hi, -⟩ := hstores
    exact ⟨i, hi⟩
  · rintro ⟨i, hi⟩
    have hstores' : t.list.Stores (t.probe key) (some (.ofPair (t.hash key) key value)) :=
      ⟨i, hi, KeyProbe.toProbe_eq_iff.mpr ⟨key, value, rfl, Std.compare_self⟩⟩
    obtain rfl := hstores.unique h.list (KeyProbe.monotone_toProbe _ _) hstores'
    exact ⟨t', hfind⟩

/-! ### Listings -/

/-- **The entries ascend.** What stands between them, sentinels, is left out. -/
theorem pairwise_pairs (h : t.Intact) :
    (t.list.live.filterMap Entry.pair?).Pairwise fun p q => listingOrder t.hash p q = .lt := by
  refine List.pairwise_filterMap.mpr (h.list.pairwise_live.imp_of_mem ?_)
  intro d e hd he hlt p hp q hq
  obtain ⟨i, hi⟩ := h.list.mem_live_iff.mp hd
  obtain ⟨j, hj⟩ := h.list.mem_live_iff.mp he
  cases d with
  | sentinel k => cases hp
  | pair k key value =>
    cases e with
    | sentinel k' => cases hq
    | pair k' key' value' =>
      cases hp
      cases hq
      -- both entries stand at the places of their hashes
      obtain rfl := h.hashed hi
      obtain rfl := h.hashed hj
      exact hlt

omit [Ord κ] [Std.TransOrd κ] in
/-- Members in ascending order are what comes of sorting them. -/
theorem eq_mergeSort_of_pairwise {α : Type} {cmp : α → α → Ordering} [Std.TransCmp cmp]
    {xs es : List α} (hxs : xs.Pairwise fun a b => cmp a b = .lt) (hnodup : xs.Nodup)
    (hes : es.Nodup) (hmem : ∀ a, a ∈ xs ↔ a ∈ es) :
    xs = es.mergeSort fun a b => (cmp a b).isLE := by
  have hperm : xs.Perm (es.mergeSort fun a b => (cmp a b).isLE) :=
    ((List.perm_ext_iff_of_nodup hnodup hes).mpr hmem).trans (List.mergeSort_perm _ _).symm
  -- what was sorted ascends, and no two members are equal, since none are in `xs`
  have htotal : ∀ a b, ((cmp a b).isLE || (cmp b a).isLE) = true := by
    intro a b
    cases hab : cmp a b with
    | lt => rfl
    | eq => rfl
    | gt => rw [Std.OrientedCmp.lt_of_gt hab]; rfl
  have hle : (es.mergeSort fun a b => (cmp a b).isLE).Pairwise fun a b => (cmp a b).isLE :=
    List.pairwise_mergeSort (fun _ _ _ => Std.TransCmp.isLE_trans) htotal es
  have hne : (es.mergeSort fun a b => (cmp a b).isLE).Pairwise fun a b => cmp a b ≠ .eq :=
    hperm.pairwise (hxs.imp fun hlt heq => nomatch hlt.symm.trans heq)
      fun hne heq => hne (Std.OrientedCmp.eq_comm.mp heq)
  have hlt : (es.mergeSort fun a b => (cmp a b).isLE).Pairwise fun a b => cmp a b = .lt :=
    hle.imp₂ (fun _ _ hle hne => (Ordering.isLE_iff_eq_lt_or_eq_eq.mp hle).resolve_right hne) hne
  let : Ord α := ⟨cmp⟩
  have : Std.TransOrd α := ‹Std.TransCmp cmp›
  exact eq_of_pairwise_lt hxs hlt fun a => hperm.mem_iff

theorem lists_pairs (h : t.Intact) : t.Lists t.hash (t.list.live.filterMap Entry.pair?) where
  toList := toList_eq h
  mem_iff := fun _ => (has_iff_mem_pairs h).symm
  ascending := pairwise_pairs h
  sorted := fun _ hes hmem => eq_mergeSort_of_pairwise (pairwise_pairs h) (nodup_pairs h) hes fun p =>
    (has_iff_mem_pairs h).symm.trans (hmem p).symm

/-- **There is only one listing** of what a table has. -/
theorem Lists.unique {u : Table κ ν} {entries entries' : List (κ × ν)} (h : t.Lists hash entries)
    (h' : u.Lists hash entries') (hsame : ∀ p, t.Has p ↔ u.Has p) : entries = entries' := by
  have hnodup : entries'.Nodup := nodup_of_pairwise_lt h'.ascending
  calc entries
      _ = entries'.mergeSort fun p q => (listingOrder hash p q).isLE :=
        h.sorted entries' hnodup fun p => (h'.mem_iff p).trans (hsame p).symm
      _ = entries' := (h'.sorted entries' hnodup h'.mem_iff).symm

/-! ### Runs -/

/-- A table of any sizing lists what it has, whatever was done to it. -/
theorem Calls.exists_lists {t₀ : Table κ ν} {sizing : Sizing}
    (hbuild : Table.build sizing hash = .ok t₀) (h : t₀.Calls t) :
    ∃ entries, t.Lists hash entries := by
  obtain ⟨htidy, -, rfl⟩ := tidy_build hbuild
  rw [← h.hash_eq htidy.toIntact]
  exact ⟨_, lists_pairs (h.tidy htidy).toIntact⟩

theorem historyFree_of_build {t₀ u₀ : Table κ ν} {sizing sizing' : Sizing}
    (ht : Table.build sizing hash = .ok t₀) (hu : Table.build sizing' hash = .ok u₀) :
    t₀.HistoryFree u₀ hash := by
  intro t u htcalls hucalls
  obtain ⟨entries, hlists⟩ := htcalls.exists_lists ht
  obtain ⟨entries', hlists'⟩ := hucalls.exists_lists hu
  refine ⟨⟨entries, hlists⟩, ⟨entries', hlists'⟩, fun hsame => ?_⟩
  have heq : t.toList = u.toList := by
    rw [hlists.toList, hlists'.toList, hlists.unique hlists' hsame]
  refine ⟨heq, ?_⟩
  unfold keys
  rw [heq]

section Sessions

variable [Numbered κ] [Numbered ν] [Text.Legible κ] [Text.Legible ν]

/-- **Listings are free of history.** For every hash function and any two sizings without a flaw, the
tables that are made of them list what they have in an order that depends on nothing else, and so do
sets of keys. Whatever a session asks, what it does to the table is a sequence of actions. Nothing is
assumed of the hash function. -/
theorem listing_history_free {sizing sizing' : Sizing} (hsizing : sizing.check = .ok ())
    (hsizing' : sizing'.check = .ok ()) (hash : κ → UInt64) :
    (∃ t₀ u₀ : Table κ ν, Table.build sizing hash = .ok t₀ ∧ Table.build sizing' hash = .ok u₀ ∧
      t₀.HistoryFree u₀ hash ∧
      ∀ (s : TableSession κ ν) ops replies s', s.steps ops = .ok (replies, s') →
        s.table.Calls s'.table) ∧
    ∃ t₀ u₀ : KeySet κ, Table.build sizing hash = .ok t₀ ∧ Table.build sizing' hash = .ok u₀ ∧
      t₀.HistoryFree u₀ hash ∧
      ∀ (s : SetSession κ) rs replies s',
        SetSession.run (fun _ => ()) s rs = .ok (replies, s') → s.table.Calls s'.table := by
  constructor
  · obtain ⟨t₀, ht, -⟩ := exists_intact_build (ν := ν) hsizing hash
    obtain ⟨u₀, hu, -⟩ := exists_intact_build (ν := ν) hsizing' hash
    exact ⟨t₀, u₀, ht, hu, historyFree_of_build ht hu,
      fun _ _ _ _ hrun => TableSession.calls_of_steps hrun⟩
  · obtain ⟨t₀, ht, -⟩ := exists_intact_build (ν := Unit) hsizing hash
    obtain ⟨u₀, hu, -⟩ := exists_intact_build (ν := Unit) hsizing' hash
    exact ⟨t₀, u₀, ht, hu, historyFree_of_build ht hu,
      fun _ _ _ _ hrun => SetSession.calls_of_run hrun⟩

/-- Two tables of four keys, two of which share a place with two others, since their hashes differ in
the highest bit alone. One table has a single bucket. The other one doubled its buckets, linked a
sentinel, took the keys in another order and lost one that it had. -/
theorem listing_history_free_of_shared_places :
    let hash : UInt64 → UInt64 := fun key => key <<< 62 ||| key &&& 1
    let sizing : Sizing := { initialBuckets := 1, maxLoad := 8, maxBuckets := 1 }
    let sizing' : Sizing := { initialBuckets := 2, maxLoad := 1, maxBuckets := 16 }
    let ops : List (TableOp UInt64 UInt64) :=
      [.request (.insert 3 13), .request (.insert 0 10), .request (.insert 1 11),
        .request (.insert 2 12)]
    let ops' : List (TableOp UInt64 UInt64) :=
      [.request (.insert 2 12), .request (.insert 5 15), .request (.insert 1 11),
        .request (.insert 0 10), .request (.remove 5), .request (.insert 3 13),
        .request (.insert 3 12), .request (.contains 6)]
    sizing.check = .ok () ∧ sizing'.check = .ok () ∧
      ∃ t₀ u₀ replies s replies' s', Table.build sizing hash = .ok t₀ ∧
        Table.build sizing' hash = .ok u₀ ∧
        TableSession.steps { table := t₀ } ops = .ok (replies, s) ∧
        TableSession.steps { table := u₀ } ops' = .ok (replies', s') ∧
        (∀ p, s.table.Has p ↔ s'.table.Has p) ∧ s.table.toList = s'.table.toList ∧
        s.table.bucketCount = 1 ∧ s'.table.bucketCount = 4 := by
  intro hash sizing sizing' ops ops'
  have hsizing : sizing.check = .ok () := by decide
  have hsizing' : sizing'.check = .ok () := by decide
  obtain ⟨⟨t₀, u₀, ht, hu, hfree, hcalls⟩, -⟩ :=
    listing_history_free (κ := UInt64) (ν := UInt64) hsizing hsizing' hash
  have hshown : (do
      let t ← Table.build sizing hash
      let (_, s) ← TableSession.steps { table := t } ops
      return (← s.table.toList, s.table.bucketCount)) =
        .ok ([(0, 10), (2, 12), (1, 11), (3, 13)], 1) := by
    decide +kernel
  have hshown' : (do
      let u ← Table.build sizing' hash
      let (_, s) ← TableSession.steps { table := u } ops'
      return (← s.table.toList, s.table.bucketCount)) =
        .ok ([(0, 10), (2, 12), (1, 11), (3, 13)], 4) := by
    decide +kernel
  rw [ht, Checked.ok_bind] at hshown
  rw [hu, Checked.ok_bind] at hshown'
  obtain ⟨⟨replies, s⟩, hrun, hshown⟩ := Checked.bind_eq_ok.mp hshown
  obtain ⟨⟨replies', s'⟩, hrun', hshown'⟩ := Checked.bind_eq_ok.mp hshown'
  obtain ⟨entries, hlist, hshown⟩ := Checked.bind_eq_ok.mp hshown
  obtain ⟨entries', hlist', hshown'⟩ := Checked.bind_eq_ok.mp hshown'
  obtain ⟨rfl, hbuckets⟩ := Prod.mk.inj (Except.ok.inj hshown)
  obtain ⟨rfl, hbuckets'⟩ := Prod.mk.inj (Except.ok.inj hshown')
  obtain ⟨⟨es, hes⟩, ⟨es', hes'⟩, hforget⟩ := hfree _ _ (hcalls _ _ _ _ hrun) (hcalls _ _ _ _ hrun')
  -- both listings are the same, so both tables have the same
  obtain rfl := Except.ok.inj (hlist.symm.trans hes.toList)
  obtain rfl := Except.ok.inj (hlist'.symm.trans hes'.toList)
  have hsame : ∀ p, s.table.Has p ↔ s'.table.Has p :=
    fun p => (hes.mem_iff p).symm.trans (hes'.mem_iff p)
  exact ⟨hsizing, hsizing', t₀, u₀, replies, s, replies', s', ht, hu, hrun, hrun', hsame,
    (hforget hsame).1, hbuckets, hbuckets'⟩

end Sessions

end Table

end SplitOrder
