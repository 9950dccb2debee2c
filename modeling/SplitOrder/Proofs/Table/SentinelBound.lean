import Mathlib.Data.Finset.Card
import Mathlib.Data.Finset.Range
import SplitOrder.Proofs.Table.History
import SplitOrder.Proofs.Table.Load
import SplitOrder.Proofs.Table.Materialized

/-!
# How many sentinels there may be

Sentinels stay when entries are removed, and lookups make them without any entry. So no bound on
their number in terms of the entries that there are now can hold. What bounds it is the number of
buckets, which doubles only when there are enough entries, and so the largest number of entries that
there ever were.

* `Table.peak` — the largest size in a history; `peak_le_iff` says that it is the least bound on all
  sizes.
* `Tidy.sentinels_lt_bucketCount` — bucket 0 has no sentinel, and any other one at most.
* `GrownBy` — what holds after every history: the number of buckets is that of the sizing, or at its
  peak the table was more than half full.
* `SentinelBounds` — what follows for the sentinels, and `sentinels_bounded`: every table and every
  set keeps to it, in every session.
-/

namespace SplitOrder

open SortedList

namespace Table

variable {κ ν : Type} {visits : List (Visit κ ν)} {t t' : Table κ ν}

/-! ### The peak -/

/-- **The largest size so far**, that of the table after the history included. -/
def peak (visits : List (Visit κ ν)) (t : Table κ ν) : Nat :=
  visits.foldr (fun v n => max v.table.size.toNat n) t.size.toNat

/-- It is the least bound on all sizes. -/
theorem peak_le_iff {n : Nat} :
    peak visits t ≤ n ↔ (∀ v ∈ visits, v.table.size.toNat ≤ n) ∧ t.size.toNat ≤ n := by
  induction visits with
  | nil => exact ⟨fun h => ⟨fun v hv => (nomatch hv), h⟩, And.right⟩
  | cons v visits ih =>
    show max v.table.size.toNat (peak visits t) ≤ n ↔ _
    rw [Nat.max_le, ih, List.forall_mem_cons, and_assoc]

theorem size_le_peak : t.size.toNat ≤ peak visits t :=
  (peak_le_iff.mp (Nat.le_refl _)).2

/-- As a history goes on, the peak never falls. -/
theorem peak_le_peak_append {key : κ} : peak visits t ≤ peak (visits ++ [⟨key, t⟩]) t' := by
  obtain ⟨hbefore, -⟩ := peak_le_iff.mp (Nat.le_refl (peak (visits ++ [⟨key, t⟩]) t'))
  refine peak_le_iff.mpr ⟨fun v hv => hbefore v (List.mem_append_left _ hv), ?_⟩
  exact hbefore ⟨key, t⟩ (List.mem_append_right _ (List.mem_singleton.mpr rfl))

variable [Ord κ] [Std.TransOrd κ] {sizing : Sizing} {key : κ} {change : Change}

/-! ### Buckets and sentinels -/

/-- **There are fewer sentinels than buckets**: bucket 0 has none. -/
theorem Tidy.sentinels_lt_bucketCount (h : t.Tidy) : t.sentinels < t.bucketCount.toNat := by
  obtain ⟨S, hS⟩ := h.exists_finset
  have hpos : 0 < t.bucketCount.toNat := by
    rw [h.buckets]
    exact Nat.two_pow_pos _
  have hwithin : S.image UInt64.toNat ⊆ Finset.range t.bucketCount.toNat := by
    refine Finset.image_subset_iff.mpr fun b hb => Finset.mem_range.mpr ?_
    exact h.toNat_lt_of_materialized ((hS b).mp hb)
  have hzero : 0 ∉ S.image UInt64.toNat := by
    intro hmem
    obtain ⟨b, hb, heq⟩ := Finset.mem_image.mp hmem
    obtain ⟨hne, -⟩ := h.materialized_iff.mp ((hS b).mp hb)
    exact hne (UInt64.toNat_inj.mp heq)
  calc t.sentinels = S.card := h.sentinels_eq_card hS
    _ = (S.image UInt64.toNat).card :=
      (Finset.card_image_of_injective S fun _ _ => UInt64.toNat_inj.mp).symm
    _ < (Finset.range t.bucketCount.toNat).card := Finset.card_lt_card
      ((Finset.ssubset_iff_of_subset hwithin).mpr ⟨0, Finset.mem_range.mpr hpos, hzero⟩)
    _ = t.bucketCount.toNat := Finset.card_range _

/-- **The invariant of growth.** There are as many buckets as the sizing says, or half of them did
not take the entries that there were at the peak. -/
structure GrownBy (t : Table κ ν) (sizing : Sizing) (peak : Nat) : Prop where
  tidy : t.Tidy
  maxLoad_eq : t.maxLoad = sizing.maxLoad
  maxBuckets_eq : t.maxBuckets = sizing.maxBuckets
  buckets : t.bucketCount = sizing.initialBuckets ∨
    sizing.maxLoad.toNat * t.bucketCount.toNat < 2 * peak

/-- **Step lemma.** -/
theorem GrownBy.course {m n : Nat} (h : t.GrownBy sizing m) (hcourse : t.Course key change t')
    (hle : m ≤ n) (hsize : t'.size.toNat ≤ n) : t'.GrownBy sizing n := by
  obtain ⟨hload, hmax⟩ := hcourse.limits_eq
  refine ⟨hcourse.tidy h.tidy, hload.trans h.maxLoad_eq, hmax.trans h.maxBuckets_eq, ?_⟩
  have hgrows := hcourse.growsBy h.maxLoad_eq h.maxBuckets_eq
  unfold GrowsBy at hgrows
  split at hgrows
  · -- the buckets were full, and there are twice as many now
    next hdouble =>
    obtain ⟨-, -, hfull⟩ := hdouble
    right
    calc sizing.maxLoad.toNat * t'.bucketCount.toNat
      _ = 2 * (sizing.maxLoad.toNat * t.bucketCount.toNat) := by
        rw [hgrows, Nat.mul_left_comm]
      _ < 2 * t'.size.toNat := Nat.mul_lt_mul_of_pos_left hfull Nat.two_pos
      _ ≤ 2 * n := Nat.mul_le_mul_left 2 hsize
  · have hsame : t'.bucketCount = t.bucketCount := UInt64.toNat_inj.mp hgrows
    rw [hsame]
    exact h.buckets.imp_right fun hbound =>
      Nat.lt_of_lt_of_le hbound (Nat.mul_le_mul_left 2 hle)

omit [Std.TransOrd κ] in
/-- A new table has as many buckets as its sizing says. -/
theorem grownBy_of_build {hash : κ → UInt64} {n : Nat}
    (h : Table.build sizing hash = .ok t) : t.GrownBy sizing n := by
  obtain ⟨htidy, -, -⟩ := tidy_build h
  obtain ⟨d, -, rfl⟩ := eq_of_build h
  exact ⟨htidy, rfl, rfl, .inl rfl⟩

/-- **Run lemma.** -/
theorem grownBy_of_performAll {hash : κ → UInt64} {t₀ : Table κ ν}
    (hbuild : Table.build sizing hash = .ok t₀) {actions : List (κ × Action ν)}
    (h : t₀.performAll actions = .ok (visits, t)) : t.GrownBy sizing (peak visits t) := by
  have hrun : t.GrownBy sizing (peak ([] ++ visits) t) := by
    refine performAll_induction (P := fun past t => t.GrownBy sizing (peak past t)) ?_
      (grownBy_of_build hbuild) h
    intro past t key a change t' hgrown hperform
    have hcourse := course_of_perform hgrown.tidy.toIntact hperform
    exact hgrown.course hcourse peak_le_peak_append size_le_peak
  exact hrun

/-! ### Runs -/

/-- **The sentinels are within their bounds.** -/
structure SentinelBounds (t : Table κ ν) (sizing : Sizing) (peak : Nat) : Prop where
  below : t.sentinels < t.bucketCount.toNat
  /-- The product is that of numbers. -/
  buckets : t.bucketCount = sizing.initialBuckets ∨
    sizing.maxLoad.toNat * t.bucketCount.toNat < 2 * peak
  /-- With the default load and the default number of buckets there are fewer sentinels than entries
  at the peak; one there may be in any case. -/
  belowPeak : sizing.maxLoad = ({} : Sizing).maxLoad →
    sizing.initialBuckets = ({} : Sizing).initialBuckets → t.sentinels < max 2 peak
  /-- Hence, while there are at least half as many entries as at the peak, there are at most two
  sentinels for each. -/
  rate : sizing.maxLoad = ({} : Sizing).maxLoad →
    sizing.initialBuckets = ({} : Sizing).initialBuckets → peak ≤ 2 * t.size.toNat →
      t.sentinels ≤ 2 * max t.size.toNat 1

theorem GrownBy.sentinelBounds {n : Nat} (h : t.GrownBy sizing n) :
    t.SentinelBounds sizing n := by
  have hbelow : t.sentinels < t.bucketCount.toNat := h.tidy.sentinels_lt_bucketCount
  have hpeak : sizing.maxLoad = ({} : Sizing).maxLoad →
      sizing.initialBuckets = ({} : Sizing).initialBuckets → t.sentinels < max 2 n := by
    intro hload hinitial
    rcases h.buckets with hbuckets | hbuckets
    · -- two buckets, so at most one sentinel
      rw [hbuckets, hinitial] at hbelow
      exact Nat.lt_of_lt_of_le hbelow (Nat.le_max_left 2 n)
    · rw [hload] at hbuckets
      have hlt : t.bucketCount.toNat < n := Nat.lt_of_mul_lt_mul_left hbuckets
      exact Nat.lt_of_lt_of_le (Nat.lt_trans hbelow hlt) (Nat.le_max_right 2 n)
  refine ⟨hbelow, h.buckets, hpeak, fun hload hinitial hhalf => ?_⟩
  have hpeak := hpeak hload hinitial
  omega

/-- **A new table keeps its sentinels within bounds**, whatever is done to it, and every action
ends if there is room for what it inserts. -/
def BoundsSentinels (t₀ : Table κ ν) (sizing : Sizing) : Prop :=
  ∀ actions visits t, t₀.performAll actions = .ok (visits, t) →
    t.SentinelBounds sizing (peak visits t) ∧
      ∀ (key : κ) (a : Action ν), (∀ value, a = .insert value → t.HasRoom key) →
        ∃ change t', t.perform key a = .ok (change, t')

theorem exists_boundsSentinels (hsizing : sizing.check = .ok ()) (hash : κ → UInt64) :
    ∃ t₀ : Table κ ν, Table.build sizing hash = .ok t₀ ∧ t₀.BoundsSentinels sizing := by
  obtain ⟨d, -, -, hbuild⟩ := exists_build_eq (ν := ν) hsizing hash
  refine ⟨_, hbuild, fun actions visits t hrun => ?_⟩
  have hgrown : t.GrownBy sizing (peak visits t) := grownBy_of_performAll hbuild hrun
  exact ⟨hgrown.sentinelBounds, exists_perform hgrown.tidy.toIntact⟩

variable [Numbered κ] [Numbered ν] [Text.Legible κ] [Text.Legible ν]

/-- **The number of sentinels is bounded by the largest number of entries.** For every sizing
without a flaw and every hash function, new tables and new sets of keys keep their sentinels within
bounds, and a session does nothing to them but a sequence of actions. So the bounds hold at every
moment of a session, with the largest size up to that moment for the peak. -/
theorem sentinels_bounded (hsizing : sizing.check = .ok ()) (hash : κ → UInt64) :
    (∃ t₀ : Table κ ν, Table.build sizing hash = .ok t₀ ∧ t₀.BoundsSentinels sizing ∧
      ∀ protection hashKnown (ops : List (TableOp κ ν)) replies s,
        TableSession.steps { table := t₀, protection, hashKnown } ops = .ok (replies, s) →
          ∃ actions visits, TableSession.actionsAll { table := t₀, protection, hashKnown } ops =
              .ok actions ∧
            t₀.performAll actions = .ok (visits, s.table) ∧
            s.table.SentinelBounds sizing (peak visits s.table)) ∧
    ∃ t₀ : KeySet κ, Table.build sizing hash = .ok t₀ ∧ t₀.BoundsSentinels sizing ∧
      ∀ protection hashKnown (rs : List (SetRequest κ)) replies s,
        SetSession.run (fun _ => ()) { table := t₀, protection, hashKnown } rs = .ok (replies, s) →
          ∃ actions visits, SetSession.actionsAll { table := t₀, protection, hashKnown } rs =
              .ok actions ∧
            t₀.performAll actions = .ok (visits, s.table) ∧
            s.table.SentinelBounds sizing (peak visits s.table) := by
  constructor
  · obtain ⟨t₀, hbuild, hbounds⟩ := exists_boundsSentinels (ν := ν) hsizing hash
    refine ⟨t₀, hbuild, hbounds, fun _ _ ops replies s hrun => ?_⟩
    obtain ⟨actions, hactions, visits, hdoes⟩ := TableSession.does_of_steps ops hrun
    exact ⟨actions, visits, hactions, hdoes, (hbounds actions visits s.table hdoes).1⟩
  · obtain ⟨t₀, hbuild, hbounds⟩ := exists_boundsSentinels (ν := Unit) hsizing hash
    refine ⟨t₀, hbuild, hbounds, fun _ _ rs replies s hrun => ?_⟩
    obtain ⟨actions, hactions, visits, hdoes⟩ := SetSession.does_of_run hrun
    exact ⟨actions, visits, hactions, hdoes, (hbounds actions visits s.table hdoes).1⟩

/-- Nine entries take eight buckets, and looking for eight keys takes all sentinels that these
buckets may have. Five entries are kept, which is more than half of the nine. -/
theorem sentinels_bounded_of_retained_keys :
    let sizing : Sizing := {}
    let rs : List (SetRequest UInt64) :=
      [.table (.insertRange ⟨0, 9, 1⟩), .table (.containsRange ⟨0, 8, 1⟩),
        .bulk (.retainOnly [0, 2, 4, 6, 8])]
    sizing.check = .ok () ∧
      ∃ (t₀ : KeySet UInt64) (replies : _) (s : _) (visits : List (Visit UInt64 Unit)),
        Table.build sizing id = .ok t₀ ∧
        SetSession.run (fun _ => ()) { table := t₀ } rs = .ok (replies, s) ∧
        (∃ actions, t₀.performAll actions = .ok (visits, s.table)) ∧ peak visits s.table = 9 ∧
        s.table.SentinelBounds sizing 9 ∧ s.table.bucketCount = 8 ∧ s.table.size = 5 ∧
        s.table.sentinels = 7 := by
  intro sizing rs
  have hsizing : sizing.check = .ok () := by decide
  obtain ⟨-, t₀, hbuild, -, hsessions⟩ :=
    sentinels_bounded (κ := UInt64) (ν := UInt64) hsizing id
  have hcounts : (do
      let t ← Table.build sizing id
      let (_, s) ← SetSession.run (fun _ => ()) { table := t } rs
      return (s.table.bucketCount, s.table.size, s.table.sentinels)) = .ok (8, 5, 7) := by
    decide +kernel
  have hpeak : (do
      let t ← Table.build sizing id
      let actions ← SetSession.actionsAll { table := t } rs
      let (visits, t) ← t.performAll actions
      return peak visits t) = .ok 9 := by
    decide +kernel
  rw [hbuild, Checked.ok_bind] at hcounts hpeak
  obtain ⟨⟨replies, s⟩, hrun, hcounts⟩ := Checked.bind_eq_ok.mp hcounts
  obtain ⟨hbuckets, hcounts⟩ := Prod.mk.inj (Except.ok.inj hcounts)
  obtain ⟨hsize, hsentinels⟩ := Prod.mk.inj hcounts
  obtain ⟨actions, hactions, hpeak⟩ := Checked.bind_eq_ok.mp hpeak
  obtain ⟨⟨visits, t⟩, hperform, hpeak⟩ := Checked.bind_eq_ok.mp hpeak
  -- the session did these actions, so it led to the same table
  obtain ⟨actions', visits', hactions', hdoes, hbounds⟩ :=
    hsessions .deferred true rs replies s hrun
  cases hactions.symm.trans hactions'
  cases hperform.symm.trans hdoes
  have hpeak : peak visits s.table = 9 := Except.ok.inj hpeak
  rw [hpeak] at hbounds
  exact ⟨hsizing, t₀, replies, s, visits, hbuild, hrun, ⟨actions, hperform⟩, hpeak, hbounds,
    hbuckets, hsize, hsentinels⟩

end Table

end SplitOrder
