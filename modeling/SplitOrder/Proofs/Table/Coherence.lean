import SplitOrder.Proofs.Table.FiniteMap
import SplitOrder.Proofs.Table.Tidy

/-!
# Coherent tables

Between two operations of a single client the parts of a table say the same, whatever was asked
before: `Table.Coherent`. Everything in it is read off the list as one walks along it, the directory
as it answers, and the two counters.

* `Coherent` — what holds between operations: the list is ascending and free of deleted nodes, the
  directory and the sentinels on the list are in one-to-one correspondence, and the counters count
  what stands on the list.
* `Tidy.coherent` — it is what a tidy table looks like from outside.
* `coherent_of_steps` — hence every run on a new table ends in a coherent one, and the operations of
  a map never fail as long as the counter can tell their number.

Neither says anything about a table in the middle of an operation; what holds there is `Intact`.
-/

namespace SplitOrder

open SortedList

variable {κ ν : Type} [Ord κ]

namespace Table

/-- **The list, the directory and the counters say the same.** -/
structure Coherent (t : Table κ ν) : Prop where
  ascending : t.list.chain.Pairwise fun p q => compare p.1 q.1 = .lt
  /-- No deleted node is left on the list. -/
  unmarked : ∀ item ∈ t.list.chain, item.2 = false
  root : t.directory.get 0 = .ok (some head)
  /-- The node registered for any other bucket is on the list and holds its sentinel. The bucket is
  in use, and its parent has a node, too. -/
  registered : ∀ {bucket i}, bucket ≠ 0 → t.directory.get bucket = .ok (some i) →
    i ∈ t.list.linked ∧ (t.list.node i).element? = some (.sentinelOf bucket) ∧
      bucket < t.bucketCount ∧
      ∃ above j, bucket.parent = .ok above ∧ t.directory.get above = .ok (some j)
  /-- Each sentinel on the list is registered, for one bucket. -/
  published : ∀ {i k}, i ∈ t.list.linked → (t.list.node i).element? = some (.sentinel k) →
    ∃! bucket, bucket ≠ 0 ∧ t.directory.get bucket = .ok (some i)
  /-- Entries stand where their hashes tell. -/
  hashed : ∀ {i k key value}, i ∈ t.list.linked →
    (t.list.node i).element? = some (.pair k key value) → k = .ofHash (t.hash key)
  /-- No two keys are equal. -/
  distinct : (t.list.chain.filterMap fun item => item.1.key?).Pairwise fun a b => compare a b ≠ .eq
  sentinels_eq : t.sentinels = t.list.chain.countP fun item => item.1.isSentinel
  size_eq : t.size.toNat = t.list.chain.countP fun item => !item.1.isSentinel
  /-- Whatever holds a sentinel is on the list for good: it is not deleted, unlinked or retired. -/
  kept : ∀ {i k}, (t.list.node i).element? = some (.sentinel k) →
    i ∈ t.list.linked ∧ (t.list.link i).marked = false ∧ i ∉ t.list.reclaimer.retired

variable {t : Table κ ν} {bucket : Bucket} {i : NodeId} {k : OrderKey}

/-! ### Tidy tables from outside -/

/-- The directory answers what is registered. -/
theorem Tidy.get_eq_ok_some_iff (h : t.Tidy) :
    t.directory.get bucket = .ok (some i) ↔ t.directory.installed? bucket = some i := by
  rw [Directory.get_eq_ok_some_iff h.directory, and_iff_right_iff_imp]
  intro hi
  exact h.lt_capacity (h.rooted.within hi)

theorem Tidy.holds_of_mem_linked (h : t.Tidy) {e : Entry κ ν} (hi : i ∈ t.list.linked)
    (he : (t.list.node i).element? = some e) : t.list.Holds i e :=
  ⟨he, h.accounted.unmarked_of_mem_linked hi⟩

/-- One bucket, one node: the node that is registered for a bucket tells the bucket. -/
theorem Tidy.bucket_eq (h : t.Tidy) {a b : Bucket} (ha : a ≠ 0) (hb : b ≠ 0)
    (hai : t.directory.installed? a = some i) (hbi : t.directory.installed? b = some i) : a = b := by
  have hsmall : ∀ {c}, t.directory.installed? c = some i → c.toNat < 2 ^ 63 := fun hc =>
    Directory.toNat_lt_of_lt_capacity (h.lt_capacity (h.rooted.within hc))
  have hplace : (Entry.sentinelOf a : Entry κ ν) = .sentinelOf b :=
    (h.holds_of_installed ha hai).unique (h.holds_of_installed hb hbi).1
  exact ofBucket_injective (hsmall hai) (hsmall hbi) (Entry.sentinel.inj hplace)

variable [Std.TransOrd κ]

/-- Equal keys would stand at the same place. -/
theorem Tidy.distinct (h : t.Tidy) (respects : ∀ a b, compare a b = .eq → t.hash a = t.hash b) :
    (t.list.chain.filterMap fun item => item.1.key?).Pairwise fun a b => compare a b ≠ .eq := by
  refine List.pairwise_filterMap.mpr (h.list.pairwise_chain.imp_of_mem ?_)
  -- two keys on the list, the first in front of the second
  intro p q hp hq hlt a ha b hb heq
  obtain ⟨i, hi, hpi, -⟩ := mem_chain_iff.mp hp
  obtain ⟨j, hj, hqj, -⟩ := mem_chain_iff.mp hq
  obtain ⟨e, m⟩ := p
  obtain ⟨e', m'⟩ := q
  cases e with
  | sentinel k => cases ha
  | pair k key value =>
    cases e' with
    | sentinel k' => cases hb
    | pair k' key' value' =>
      cases ha
      cases hb
      have hk : k = .ofHash (t.hash a) := h.hashed (h.holds_of_mem_linked hi hpi)
      have hk' : k' = .ofHash (t.hash b) := h.hashed (h.holds_of_mem_linked hj hqj)
      -- with the same hash they stand at the same order key, so neither is in front of the other
      rw [respects a b heq] at hk
      rw [Entry.compare_def] at hlt
      simp only [Entry.orderKey, Entry.key?, Entry.compareKeys, hk, hk', Std.compare_self, heq] at hlt
      cases hlt

/-- **A tidy table is coherent.** -/
theorem Tidy.coherent (h : t.Tidy) (respects : ∀ a b, compare a b = .eq → t.hash a = t.hash b) :
    t.Coherent where
  ascending := h.list.pairwise_chain
  unmarked := fun _ hitem => h.accounted.snd_of_mem_chain hitem
  root := h.get_eq_ok_some_iff.mpr h.root
  registered := by
    intro bucket i hne hi
    have hi := h.get_eq_ok_some_iff.mp hi
    have hholds := h.holds_of_installed hne hi
    obtain ⟨j, hj⟩ := h.rooted.parent hne hi
    exact ⟨h.list.mem_linked hholds, hholds.1, h.rooted.within hi, clearHighestBit bucket, j,
      Bucket.parent_of_ne_zero hne, h.get_eq_ok_some_iff.mpr hj⟩
  published := by
    intro i k _ hi
    obtain ⟨bucket, hne, -, hb⟩ := h.published (h.holds_sentinel hi)
    refine ⟨bucket, ⟨hne, h.get_eq_ok_some_iff.mpr hb⟩, fun b hb' => ?_⟩
    exact h.bucket_eq hb'.1 hne (h.get_eq_ok_some_iff.mp hb'.2) hb
  hashed := fun hi he => h.hashed (h.holds_of_mem_linked hi he)
  distinct := h.distinct respects
  sentinels_eq := by
    rw [h.sentinels_eq, h.accounted.live_eq, List.countP_map]
    rfl
  size_eq := by
    rw [h.size_eq, h.accounted.live_eq, List.countP_map]
    rfl
  kept := h.kept

end Table

namespace TableSession

open Table

variable [Std.TransOrd κ] [Numbered κ] [Numbered ν] [Text.Legible κ] [Text.Legible ν]

/-- A run on a tidy table ends in one, with the same hash function. -/
theorem tidy_of_steps {s s' : TableSession κ ν} (h : s.table.Tidy) {ops : List (TableOp κ ν)}
    {replies : List (TableReply κ ν)} (hrun : s.steps ops = .ok (replies, s')) :
    s'.table.Tidy ∧ s'.table.hash = s.table.hash := by
  obtain ⟨n, -, hretires⟩ := steps_tracks tracks_retires ops hrun
  exact ⟨(hretires h).tidy, (hretires h).hash_eq⟩

/-- **A table is coherent between operations.** For every sizing without a flaw and every hash
function that tells no equal keys apart, any run on a new table ends in a coherent one, whatever was
asked in it and whatever was nested. Runs of the operations of a map that never make it hold
`2 ^ 64` entries do end. -/
theorem coherent_of_steps {sizing : Sizing} (hsizing : sizing.check = .ok ()) {hash : κ → UInt64}
    (respects : ∀ a b, compare a b = .eq → hash a = hash b) :
    ∃ t : Table κ ν, Table.build sizing hash = .ok t ∧ ∀ protection hashKnown,
      (∀ (ops : List (TableOp κ ν)) replies s,
        steps { table := t, protection, hashKnown } ops = .ok (replies, s) → s.table.Coherent) ∧
      ∀ ops : List (MapOp κ ν), MapOp.AllFit ∅ ops →
        ∃ replies s, steps { table := t, protection, hashKnown } (MapOp.allOnTable ops) =
          .ok (replies, s) ∧ s.table.Coherent := by
  obtain ⟨t, hbuild, hrep⟩ := Table.exists_build (ν := ν) hsizing respects
  obtain ⟨htidy, -, hhash⟩ := tidy_build hbuild
  have hruns : ∀ protection hashKnown (ops : List (TableOp κ ν)) replies s,
      steps { table := t, protection, hashKnown } ops = .ok (replies, s) → s.table.Coherent := by
    intro protection hashKnown ops replies s hrun
    obtain ⟨hs, hhash'⟩ := tidy_of_steps htidy hrun
    have hhash' : s.table.hash = hash := hhash'.trans hhash
    exact hs.coherent (by rw [hhash']; exact respects)
  refine ⟨t, hbuild, fun protection hashKnown => ⟨hruns protection hashKnown, ?_⟩⟩
  -- a run that fits is simulated on a map, so it ends
  intro ops hfits
  obtain ⟨replies, s, hrun, -⟩ :=
    steps_refines { table := t, protection, hashKnown } ∅ hrep ops hfits
  exact ⟨replies, s, hrun, hruns protection hashKnown _ replies s hrun⟩

/-- A table with one bucket, the keys of which share their hashes in pairs: it grows to four buckets
and links two more sentinels, and a key is deleted and another one inserted while a third is looked
at. -/
theorem coherent_of_shared_hashes :
    let sizing : Sizing := { initialBuckets := 1, maxLoad := 1, maxBuckets := 4 }
    let hash : UInt64 → UInt64 := (· / 2)
    let ops : List (MapOp UInt64 UInt64) :=
      [.insert 1 10, .insert 0 20, .insert 1 30, .insert 6 40, .remove 0,
        .applyWith 1 [.delete 1, .insert 7 50, .find 1]]
    sizing.check = .ok () ∧ (∀ a b, compare a b = .eq → hash a = hash b) ∧ MapOp.AllFit ∅ ops ∧
      ∃ t : Table UInt64 UInt64, Table.build sizing hash = .ok t ∧
        ∃ replies s, steps { table := t } (MapOp.allOnTable ops) = .ok (replies, s) ∧
          s.table.Coherent ∧ s.table.bucketCount = 4 ∧ s.table.sentinels = 2 ∧ s.table.size = 2 := by
  intro sizing hash ops
  have hsizing : sizing.check = .ok () := by decide
  have respects : ∀ a b, compare a b = .eq → hash a = hash b := by
    intro a b h
    rw [Std.LawfulEqCmp.eq_of_compare h]
  have hfits : MapOp.AllFit ∅ ops := by
    simp only [ops, MapOp.AllFit, MapOp.Fits, MapOp.step, and_true, true_and]
    refine ⟨?_, ?_, ?_, ?_⟩
    all_goals decide
  obtain ⟨t, hbuild, hruns⟩ := coherent_of_steps (ν := UInt64) hsizing respects
  obtain ⟨replies, s, hrun, hcoherent⟩ := (hruns .deferred true).2 ops hfits
  refine ⟨hsizing, respects, hfits, t, hbuild, replies, s, hrun, hcoherent, ?_⟩
  have hcounts : (do
      let t ← Table.build sizing hash
      let p ← steps { table := t } (MapOp.allOnTable ops)
      return (p.2.table.bucketCount, p.2.table.sentinels, p.2.table.size)) = .ok (4, 2, 2) := by
    decide +kernel
  rw [hbuild, Checked.ok_bind, hrun] at hcounts
  obtain ⟨hbuckets, hrest⟩ := Prod.mk.inj (Except.ok.inj hcounts)
  exact ⟨hbuckets, Prod.mk.inj hrest⟩
end TableSession

end SplitOrder
