import SplitOrder.Proofs.Table.SentinelBound
import SplitOrder.Proofs.Table.Sizing

/-!
# A capacity is enough

A table that was sized for a capacity keeps its number of buckets until there are more entries than
that. The buckets take the entries, or, for the greatest capacities, there are as many buckets as
there may be, and then their number is fixed whatever the load.

* `Sizing.Takes` — so many entries are no reason to grow; `Sizing.takes_of_ofCapacity`: the sizing
  for a capacity takes it.
* `Table.AsBuilt` — the invariant: the limits and the number of buckets are those of the sizing.
* `Table.asBuilt_of_performAll` — it holds all through a history whose peak the sizing takes.
-/

namespace SplitOrder

/-! ### The sizing -/

/-- The initial buckets take so many entries, or there may be no more buckets. -/
def Sizing.Takes (s : Sizing) (entries : Nat) : Prop :=
  s.initialBuckets = s.maxBuckets ∨ entries ≤ s.maxLoad.toNat * s.initialBuckets.toNat

/-- What a clamp answers is the upper bound, or no less than the number. -/
theorem Sizing.max_min_eq_or_le {low high : UInt64} (h : low ≤ high) (n : UInt64) :
    max low (min n high) = high ∨ n ≤ max low (min n high) := by
  by_cases hn : n ≤ high
  · have hmin : min n high = n := if_pos hn
    right
    rw [hmin]
    show n ≤ if low ≤ n then n else low
    split
    · exact UInt64.le_refl n
    · next hlow => exact UInt64.le_of_lt (UInt64.not_le.mp hlow)
  · have hmin : min n high = high := if_neg hn
    left
    rw [hmin]
    exact if_pos h

/-- Twice the half is no less. -/
theorem Word.le_two_mul_halfUp (n : UInt64) : n.toNat ≤ 2 * (halfUp n).toNat := by
  rw [toNat_halfUp]
  omega

/-- **The sizing for a capacity takes it.** -/
theorem Sizing.takes_of_ofCapacity {capacity : UInt64} {s : Sizing}
    (h : ofCapacity capacity = .ok s) : s.Takes capacity.toNat := by
  obtain ⟨wanted, hwanted, h⟩ := Checked.bind_eq_ok.mp h
  cases h
  obtain ⟨power, hpower, -, hle⟩ := Word.exists_nextPowerOfTwo (Word.toNat_halfUp_le capacity)
  cases hwanted.symm.trans hpower
  have htwo : 2 ≤ Directory.capacity := by decide
  refine (max_min_eq_or_le htwo wanted).imp_right fun hbuckets => ?_
  have hbuckets : wanted.toNat ≤ (max 2 (min wanted Directory.capacity)).toNat :=
    UInt64.le_iff_toNat_le.mp hbuckets
  calc capacity.toNat
      _ ≤ 2 * (Word.halfUp capacity).toNat := Word.le_two_mul_halfUp capacity
      _ ≤ 2 * wanted.toNat := Nat.mul_le_mul_left 2 (UInt64.le_iff_toNat_le.mp hle)
      _ ≤ 2 * (max 2 (min wanted Directory.capacity)).toNat := Nat.mul_le_mul_left 2 hbuckets

/-- The greatest capacity is more than the buckets take, and there may be no more of them. -/
example : Sizing.ofCapacity 18446744073709551615 =
    .ok { initialBuckets := Directory.capacity, maxBuckets := Directory.capacity } := by
  decide

namespace Table

variable {κ ν : Type} [Ord κ] [Std.TransOrd κ] {t t' : Table κ ν} {key : κ} {change : Change}
  {sizing : Sizing} {visits : List (Visit κ ν)} {n : Nat}

/-! ### The number of buckets -/

/-- **The invariant.** A table has the limits and the number of buckets that its sizing says. -/
structure AsBuilt (t : Table κ ν) (sizing : Sizing) : Prop where
  tidy : t.Tidy
  maxLoad_eq : t.maxLoad = sizing.maxLoad
  maxBuckets_eq : t.maxBuckets = sizing.maxBuckets
  bucketCount_eq : t.bucketCount = sizing.initialBuckets

omit [Std.TransOrd κ] in
theorem asBuilt_of_build {hash : κ → UInt64} (h : Table.build sizing hash = .ok t) :
    t.AsBuilt sizing := by
  obtain ⟨htidy, -, -⟩ := tidy_build h
  obtain ⟨d, -, rfl⟩ := eq_of_build h
  exact ⟨htidy, rfl, rfl, rfl⟩

/-- **Step lemma.** There is no reason to grow as long as the sizing takes the entries. -/
theorem AsBuilt.course (h : t.AsBuilt sizing) (htakes : sizing.Takes n)
    (hcourse : t.Course key change t') (hsize : t'.size.toNat ≤ n) : t'.AsBuilt sizing := by
  obtain ⟨hload, hmax⟩ := hcourse.limits_eq
  refine ⟨hcourse.tidy h.tidy, hload.trans h.maxLoad_eq, hmax.trans h.maxBuckets_eq, ?_⟩
  have hgrows := hcourse.growsBy h.maxLoad_eq h.maxBuckets_eq
  unfold GrowsBy at hgrows
  rw [if_neg, h.bucketCount_eq] at hgrows
  · exact UInt64.toNat_inj.mp hgrows
  · rintro ⟨-, hbelow, hfull⟩
    rw [h.bucketCount_eq] at hbelow hfull
    rcases htakes with heq | hle
    · rw [heq] at hbelow
      exact UInt64.lt_irrefl _ hbelow
    · exact Nat.not_lt_of_le (Nat.le_trans hsize hle) hfull

/-- **Run lemma.** -/
theorem asBuilt_of_performAll {hash : κ → UInt64} {t₀ : Table κ ν}
    (hbuild : Table.build sizing hash = .ok t₀) (htakes : sizing.Takes n)
    {actions : List (κ × Action ν)} (h : t₀.performAll actions = .ok (visits, t))
    (hpeak : peak visits t ≤ n) : t.AsBuilt sizing ∧ ∀ v ∈ visits, v.table.AsBuilt sizing := by
  have hrun : peak ([] ++ visits) t ≤ n →
      t.AsBuilt sizing ∧ ∀ v ∈ [] ++ visits, v.table.AsBuilt sizing := by
    refine performAll_induction (P := fun past t => peak past t ≤ n →
      t.AsBuilt sizing ∧ ∀ v ∈ past, v.table.AsBuilt sizing) ?_ ?_ h
    · intro past t key a change t' ih hperform hpeak
      obtain ⟨hbuilt, hpast⟩ := ih (Nat.le_trans peak_le_peak_append hpeak)
      have hcourse := course_of_perform hbuilt.tidy.toIntact hperform
      refine ⟨hbuilt.course htakes hcourse (Nat.le_trans size_le_peak hpeak), ?_⟩
      exact List.forall_mem_append.mpr ⟨hpast, List.forall_mem_singleton.mpr hbuilt⟩
    · exact fun _ => ⟨asBuilt_of_build hbuild, fun v hv => (nomatch hv)⟩
  exact hrun hpeak

/-! ### Runs -/

/-- **A new table has room for so many entries**: in no history in which there never are more does
its number of buckets change. -/
def HoldsWithoutGrowing (t₀ : Table κ ν) (entries : Nat) : Prop :=
  ∀ actions visits t, t₀.performAll actions = .ok (visits, t) →
    (∀ v ∈ visits, v.table.size.toNat ≤ entries) → t.size.toNat ≤ entries →
      t.bucketCount = t₀.bucketCount ∧ ∀ v ∈ visits, v.table.bucketCount = t₀.bucketCount

/-- A table that is made for a capacity, with or without a look at its sizing. -/
theorem exists_holdsWithoutGrowing {capacity : UInt64}
    (hcapacity : Sizing.ofCapacity capacity = .ok sizing) (hsizing : sizing.check = .ok ())
    (hash : κ → UInt64) :
    ∃ t₀ : Table κ ν, Table.build sizing hash = .ok t₀ ∧ Table.ofSizing sizing hash = .ok t₀ ∧
      t₀.HoldsWithoutGrowing capacity.toNat := by
  obtain ⟨d, -, -, hbuild⟩ := exists_build_eq (ν := ν) hsizing hash
  have hofSizing := hbuild
  rw [Table.build, hsizing, Checked.ok_bind] at hofSizing
  refine ⟨_, hbuild, hofSizing, fun actions visits t hrun hvisits hsize => ?_⟩
  obtain ⟨hbuilt, hpast⟩ := asBuilt_of_performAll hbuild (Sizing.takes_of_ofCapacity hcapacity)
    hrun (peak_le_iff.mpr ⟨hvisits, hsize⟩)
  exact ⟨hbuilt.bucketCount_eq, fun v hv => (hpast v hv).bucketCount_eq⟩

variable [Numbered κ] [Numbered ν] [Text.Legible κ] [Text.Legible ν]

/-- **A table sized for a capacity does not grow within it.** Every word is a capacity: its sizing
is computed without overflow and has no flaw. For every hash function, new tables and new sets of
keys of this sizing keep their number of buckets as long as there never are more entries than the
capacity; and a session does nothing to them but a sequence of actions. -/
theorem capacity_suffices (capacity : UInt64) (hash : κ → UInt64) :
    ∃ sizing, Sizing.ofCapacity capacity = .ok sizing ∧ sizing.check = .ok () ∧
      (∃ t₀ : Table κ ν, Table.build sizing hash = .ok t₀ ∧ Table.ofSizing sizing hash = .ok t₀ ∧
        t₀.HoldsWithoutGrowing capacity.toNat ∧
        ∀ protection hashKnown (ops : List (TableOp κ ν)) replies s,
          TableSession.steps { table := t₀, protection, hashKnown } ops = .ok (replies, s) →
            ∃ actions, TableSession.actionsAll { table := t₀, protection, hashKnown } ops =
                .ok actions ∧ t₀.Does actions s.table) ∧
      ∃ t₀ : KeySet κ, Table.build sizing hash = .ok t₀ ∧ Table.ofSizing sizing hash = .ok t₀ ∧
        t₀.HoldsWithoutGrowing capacity.toNat ∧
        ∀ protection hashKnown (rs : List (SetRequest κ)) replies s,
          SetSession.run (fun _ => ()) { table := t₀, protection, hashKnown } rs =
              .ok (replies, s) →
            ∃ actions, SetSession.actionsAll { table := t₀, protection, hashKnown } rs =
                .ok actions ∧ t₀.Does actions s.table := by
  obtain ⟨sizing, hcapacity, hsizing⟩ := Sizing.exists_ofCapacity capacity
  refine ⟨sizing, hcapacity, hsizing, ?_, ?_⟩
  · obtain ⟨t₀, hbuild, hofSizing, hholds⟩ :=
      exists_holdsWithoutGrowing (ν := ν) hcapacity hsizing hash
    exact ⟨t₀, hbuild, hofSizing, hholds, fun _ _ ops _ _ hrun =>
      TableSession.does_of_steps ops hrun⟩
  · obtain ⟨t₀, hbuild, hofSizing, hholds⟩ :=
      exists_holdsWithoutGrowing (ν := Unit) hcapacity hsizing hash
    exact ⟨t₀, hbuild, hofSizing, hholds, fun _ _ _ _ _ hrun => SetSession.does_of_run hrun⟩

/-- Nine entries in the eight buckets that a capacity of nine gives. Their number is reached twice,
the second time from within a call that looks at an entry. -/
theorem capacity_suffices_for_nine_entries :
    let ops : List (TableOp UInt64 UInt64) :=
      [.request (.insertRange ⟨0, 9, 1⟩), .request (.remove 4), .request (.insert 3 0),
        .applyWith 7 [.request (.delete 5), .request (.insertRange ⟨20, 2, 16⟩)]]
    ∃ (sizing : Sizing) (t₀ : Table UInt64 UInt64) (replies : _) (s : _)
      (visits : List (Visit UInt64 UInt64)),
      Sizing.ofCapacity 9 = .ok sizing ∧ Table.ofSizing sizing id = .ok t₀ ∧
      TableSession.steps { table := t₀ } ops = .ok (replies, s) ∧
      (∃ actions, t₀.performAll actions = .ok (visits, s.table)) ∧ visits.length = 15 ∧
      peak visits s.table = 9 ∧ s.table.size = 9 ∧
      s.table.bucketCount = 8 ∧ ∀ v ∈ visits, v.table.bucketCount = 8 := by
  intro ops
  obtain ⟨sizing, hcapacity, -, ⟨t₀, -, hofSizing, hholds, hsessions⟩, -⟩ :=
    capacity_suffices (κ := UInt64) (ν := UInt64) 9 id
  have hcounts : (do
      let sizing ← Sizing.ofCapacity 9
      let t ← Table.ofSizing sizing id
      let actions ← TableSession.actionsAll { table := t } ops
      let (_, s) ← TableSession.steps { table := t } ops
      let (visits, t') ← t.performAll actions
      return (t.bucketCount, s.table.size, visits.length, peak visits t')) = .ok (8, 9, 15, 9) := by
    decide +kernel
  rw [hcapacity, Checked.ok_bind, hofSizing, Checked.ok_bind] at hcounts
  obtain ⟨actions, hactions, hcounts⟩ := Checked.bind_eq_ok.mp hcounts
  obtain ⟨⟨replies, s⟩, hrun, hcounts⟩ := Checked.bind_eq_ok.mp hcounts
  obtain ⟨⟨visits, t'⟩, hperform, hcounts⟩ := Checked.bind_eq_ok.mp hcounts
  -- the session did these actions, so it led to the same table
  obtain ⟨actions', hactions', visits', hdoes⟩ := hsessions .deferred true ops replies s hrun
  cases hactions.symm.trans hactions'
  cases hperform.symm.trans hdoes
  obtain ⟨hbuckets, hcounts⟩ := Prod.mk.inj (Except.ok.inj hcounts)
  obtain ⟨hsize, hcounts⟩ := Prod.mk.inj hcounts
  obtain ⟨hlength, hpeak⟩ := Prod.mk.inj hcounts
  have hpeak : peak visits s.table = 9 := hpeak
  obtain ⟨hvisits, hlast⟩ := peak_le_iff.mp (Nat.le_of_eq hpeak)
  have hstays := hholds actions visits s.table hperform hvisits hlast
  rw [hbuckets] at hstays
  exact ⟨sizing, t₀, replies, s, visits, hcapacity, hofSizing, hrun, ⟨actions, hperform⟩, hlength,
    hpeak, hsize, hstays⟩

end Table

end SplitOrder
