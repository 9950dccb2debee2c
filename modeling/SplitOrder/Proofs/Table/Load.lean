import SplitOrder.Proofs.Table.Calls

/-!
# Load and number of buckets

The number of buckets follows the number of entries: an insertion that makes the buckets too full
doubles them, and nothing else changes their number. One doubling is enough, because an entry is
counted one at a time.

* `Change.Counts` — what an action does to the counter; `Course.counts` says that it never leaves
  the range of a word.
* `Course.growsBy` — the number of buckets after an action.
* `Sized` — what holds between actions: the initial number of buckets was doubled so many times, and
  there are as many as allowed or the load is within its bound.
* `load_bounded` — hence every run on a new table keeps to its sizing.
-/

namespace SplitOrder

open SortedList

/-- The number of entries before and after an action. -/
def Change.Counts : Change → Nat → Nat → Prop
  | .kept, n, n' => n' = n
  | .inserted, n, n' => n' = n + 1
  | .removed, n, n' => n = n' + 1

namespace Table

variable {κ ν : Type} [Ord κ] {t t' : Table κ ν} {key : κ} {change : Change} {sizing : Sizing}

/-- **The sizing is kept to.** -/
structure Sized (t : Table κ ν) (sizing : Sizing) : Prop where
  /-- The number of buckets was doubled so many times. -/
  doubled : ∃ j, t.bucketCount.toNat = sizing.initialBuckets.toNat * 2 ^ j
  bounded : t.bucketCount ≤ sizing.maxBuckets
  /-- Unless there may be no more buckets, they take all entries. The product is that of numbers. -/
  load : t.bucketCount = sizing.maxBuckets ∨
    t.size.toNat ≤ sizing.maxLoad.toNat * t.bucketCount.toNat

/-- **The number of buckets after an action.** It doubles if an entry was inserted, the buckets do
not take the entries any more, and there may be more buckets; otherwise it stays. -/
def GrowsBy (t : Table κ ν) (sizing : Sizing) (change : Change) (t' : Table κ ν) : Prop :=
  t'.bucketCount.toNat =
    if change = .inserted ∧ t.bucketCount < sizing.maxBuckets ∧
        sizing.maxLoad.toNat * t.bucketCount.toNat < t'.size.toNat then
      2 * t.bucketCount.toNat
    else t.bucketCount.toNat

variable [Std.TransOrd κ]

/-! ### The counter -/

/-- **An entry is counted on or off**, and the counter never leaves its range. -/
theorem Course.counts (h : t.Course key change t') (ht : t.Tidy) :
    change.Counts t.size.toNat t'.size.toNat := by
  cases h with
  | keeps hb htrims =>
    show _ = _
    rw [← hb.prepares.size_eq]
  | @links t₁ _ value i l hb hlinks hfits hgrows =>
    obtain ⟨c, rfl⟩ := exists_of_doubleIfFull hgrows
    show (t₁.size + 1).toNat = t.size.toNat + 1
    rw [← hb.prepares.size_eq, UInt64.toNat_add, UInt64.toNat_one, Nat.mod_eq_of_lt hfits]
  | @deletes t₁ e i l hb hdeletes =>
    have h₁ : t₁.Tidy := hb.tidies ht
    -- what was deleted is a pair, so there was one to count off
    obtain ⟨key', value', rfl, -⟩ := KeyProbe.toProbe_eq_iff.mp hdeletes.sought
    have hcount := h₁.size_eq
    rw [(hdeletes.live_perm h₁.list).countP_eq, List.countP_cons_of_pos (by rfl)] at hcount
    have hle : (1 : UInt64) ≤ t₁.size := by
      rw [UInt64.le_iff_toNat_le, UInt64.toNat_one]
      omega
    show t.size.toNat = (t₁.size - 1).toNat + 1
    rw [← hb.prepares.size_eq, UInt64.toNat_sub_of_le _ _ hle, UInt64.toNat_one]
    omega

/-! ### The number of buckets -/

omit [Ord κ] [Std.TransOrd κ] in
/-- Doubling, in numbers. -/
theorem bucketCount_of_doubleIfFull {n : UInt64} (h : t.doubleIfFull n = .ok t') :
    t'.bucketCount.toNat =
      if t.bucketCount < t.maxBuckets ∧ t.maxLoad.toNat * t.bucketCount.toNat < n.toNat then
        2 * t.bucketCount.toNat
      else t.bucketCount.toNat := by
  have hfull : (t.maxBuckets ≤ t.bucketCount ∨
      n ≤ Word.mulSaturating t.maxLoad t.bucketCount) ↔
      ¬ (t.bucketCount < t.maxBuckets ∧ t.maxLoad.toNat * t.bucketCount.toNat < n.toNat) := by
    rw [Word.le_mulSaturating_iff, UInt64.le_iff_toNat_le, UInt64.lt_iff_toNat_lt]
    omega
  unfold doubleIfFull at h
  split at h
  · next hkeep =>
    cases h
    rw [if_neg (hfull.mp hkeep)]
  · next hgrow =>
    obtain ⟨c, hc, h⟩ := Checked.bind_eq_ok.mp h
    cases h
    rw [if_pos (Decidable.not_not.mp fun hnot => hgrow (hfull.mpr hnot))]
    show c.toNat = 2 * t.bucketCount.toNat
    rw [Word.toNat_of_checkedMul_eq_ok hc, Nat.mul_comm]
    rfl

omit [Std.TransOrd κ] in
/-- The limits that the sizing gave stay. -/
theorem Course.limits_eq (h : t.Course key change t') :
    t'.maxLoad = t.maxLoad ∧ t'.maxBuckets = t.maxBuckets := by
  cases h with
  | keeps hb htrims => exact ⟨hb.prepares.maxLoad_eq, hb.prepares.maxBuckets_eq⟩
  | links hb hlinks hfits hgrows =>
    obtain ⟨c, rfl⟩ := exists_of_doubleIfFull hgrows
    exact ⟨hb.prepares.maxLoad_eq, hb.prepares.maxBuckets_eq⟩
  | deletes hb hdeletes => exact ⟨hb.prepares.maxLoad_eq, hb.prepares.maxBuckets_eq⟩

omit [Std.TransOrd κ] in
theorem Course.growsBy (h : t.Course key change t') (hload : t.maxLoad = sizing.maxLoad)
    (hmax : t.maxBuckets = sizing.maxBuckets) : t.GrowsBy sizing change t' := by
  unfold GrowsBy
  cases h with
  | keeps hb htrims =>
    rw [if_neg fun h => nomatch h.1]
    exact congrArg UInt64.toNat hb.prepares.bucketCount_eq
  | deletes hb hdeletes =>
    rw [if_neg fun h => nomatch h.1]
    exact congrArg UInt64.toNat hb.prepares.bucketCount_eq
  | @links t₁ _ value i l hb hlinks hfits hgrows =>
    -- it is the number after the insertion that the decision is made on
    have hcount := bucketCount_of_doubleIfFull hgrows
    obtain ⟨c, rfl⟩ := exists_of_doubleIfFull hgrows
    simp only [hb.prepares.bucketCount_eq, hb.prepares.maxBuckets_eq, hb.prepares.maxLoad_eq,
      hload, hmax] at hcount
    simpa only [true_and] using hcount

/-- **Step lemma.** -/
theorem Sized.course (h : t.Sized sizing) (hsizing : sizing.check = .ok ()) (ht : t.Tidy)
    (hload : t.maxLoad = sizing.maxLoad) (hmax : t.maxBuckets = sizing.maxBuckets)
    (hcourse : t.Course key change t') : t'.Sized sizing := by
  have hgrows := hcourse.growsBy hload hmax
  have hcounts := hcourse.counts ht
  have hbounded : t'.bucketCount ≤ sizing.maxBuckets := by
    rw [← hmax, ← hcourse.limits_eq.2]
    exact hcourse.intact.bounded
  obtain ⟨-, -, -, -, hpositive⟩ := Sizing.check_eq_ok_iff.mp hsizing
  have hone : 1 ≤ sizing.maxLoad.toNat := by
    refine Nat.one_le_iff_ne_zero.mpr fun hzero => hpositive (UInt64.toNat_inj.mp hzero)
  obtain ⟨j, hj⟩ := h.doubled
  unfold GrowsBy at hgrows
  split at hgrows
  · -- an entry was inserted, and twice as many buckets take one entry more
    next hdouble =>
    obtain ⟨rfl, hbelow, -⟩ := hdouble
    have hcounts : t'.size.toNat = t.size.toNat + 1 := hcounts
    have hload : t.size.toNat ≤ sizing.maxLoad.toNat * t.bucketCount.toNat := by
      refine h.load.resolve_left fun heq => ?_
      rw [heq] at hbelow
      exact absurd hbelow (UInt64.lt_irrefl _)
    have hproduct : 1 ≤ sizing.maxLoad.toNat * t.bucketCount.toNat := by
      have hbuckets : 1 ≤ t.bucketCount.toNat := by
        rw [ht.buckets]
        exact Nat.one_le_two_pow
      exact Nat.mul_le_mul hone hbuckets
    refine ⟨⟨j + 1, ?_⟩, hbounded, .inr ?_⟩
    · rw [hgrows, hj, Nat.pow_succ, Nat.mul_comm _ 2, Nat.mul_left_comm]
    · calc t'.size.toNat
          _ = t.size.toNat + 1 := hcounts
          _ ≤ sizing.maxLoad.toNat * t.bucketCount.toNat +
              sizing.maxLoad.toNat * t.bucketCount.toNat := Nat.add_le_add hload hproduct
          _ = sizing.maxLoad.toNat * t'.bucketCount.toNat := by
            rw [hgrows, ← Nat.two_mul, Nat.mul_left_comm]
  · next hstay =>
    have hsame : t'.bucketCount = t.bucketCount := UInt64.toNat_inj.mp hgrows
    refine ⟨⟨j, by rw [hgrows, hj]⟩, hbounded, ?_⟩
    rw [hsame]
    by_cases hfull : t.bucketCount = sizing.maxBuckets
    · exact .inl hfull
    · have hload := h.load.resolve_left hfull
      right
      cases change with
      | kept =>
        have hcounts : t'.size.toNat = t.size.toNat := hcounts
        omega
      | removed =>
        have hcounts : t.size.toNat = t'.size.toNat + 1 := hcounts
        omega
      | inserted =>
        -- there was room for more buckets, so the buckets take the new entry as well
        have hbelow : t.bucketCount < sizing.maxBuckets :=
          UInt64.lt_of_le_of_ne h.bounded hfull
        exact Nat.le_of_not_lt fun hover => hstay ⟨rfl, hbelow, hover⟩

/-! ### Runs -/

/-- **A table keeps to a sizing**, whatever is done to it: after any number of actions its number of
buckets and its load are within their bounds, every action ends if there is room for what it
inserts, and the number of buckets grows by the rule. -/
def KeepsTo (t₀ : Table κ ν) (sizing : Sizing) : Prop :=
  ∀ t, t₀.Calls t → t.Sized sizing ∧
    ∀ (key : κ) (a : Action ν),
      ((∀ value, a = .insert value → t.HasRoom key) →
        ∃ change t', t.perform key a = .ok (change, t')) ∧
      ∀ change t', t.perform key a = .ok (change, t') →
        change.Counts t.size.toNat t'.size.toNat ∧ t.GrowsBy sizing change t'

/-- **Run lemma.** -/
theorem keepsTo_of_build (hsizing : sizing.check = .ok ()) (hash : κ → UInt64) :
    ∃ t₀ : Table κ ν, Table.build sizing hash = .ok t₀ ∧ t₀.KeepsTo sizing := by
  obtain ⟨d, -, -, hbuild⟩ := exists_build_eq (ν := ν) hsizing hash
  refine ⟨_, hbuild, fun t hcalls => ?_⟩
  have hempty := (tidy_build hbuild).1
  have htidy : t.Tidy := Calls.tidy hcalls hempty
  -- the limits are part of the induction, since the sizing speaks of them
  have hinv : t.Sized sizing ∧ t.maxLoad = sizing.maxLoad ∧ t.maxBuckets = sizing.maxBuckets := by
    clear htidy
    induction hcalls with
    | refl =>
      obtain ⟨-, -, -, hinitial, -⟩ := Sizing.check_eq_ok_iff.mp hsizing
      exact ⟨⟨⟨0, (Nat.mul_one _).symm⟩, hinitial, .inr (Nat.zero_le _)⟩, rfl, rfl⟩
    | tail hcalls hacts ih =>
      have htidy := Calls.tidy hcalls hempty
      obtain ⟨hsized, hload, hmax⟩ := ih
      obtain ⟨key, a, change, hperform⟩ := hacts
      have hcourse := course_of_perform htidy.toIntact hperform
      exact ⟨hsized.course hsizing htidy hload hmax hcourse, hcourse.limits_eq.1.trans hload,
        hcourse.limits_eq.2.trans hmax⟩
  obtain ⟨hsized, hload, hmax⟩ := hinv
  refine ⟨hsized, fun key a => ⟨exists_perform htidy.toIntact key a, fun change t' hperform => ?_⟩⟩
  have hcourse := course_of_perform htidy.toIntact hperform
  exact ⟨hcourse.counts htidy, hcourse.growsBy hload hmax⟩

section Sessions

variable [Numbered κ] [Numbered ν] [Text.Legible κ] [Text.Legible ν]

/-- **The load stays bounded, and the number of buckets doubles when it has to.** For every sizing
without a flaw and every hash function, a new table keeps to the sizing, as a table of keys and
values and as a set of keys; and whatever a session asks, what it does to the table is a sequence of
actions. Nothing is assumed of the hash function, and the bound on the load is one of numbers, which
may be larger than any word. -/
theorem load_bounded (hsizing : sizing.check = .ok ()) (hash : κ → UInt64) :
    (∃ t₀ : Table κ ν, Table.build sizing hash = .ok t₀ ∧ t₀.KeepsTo sizing ∧
      ∀ protection hashKnown (ops : List (TableOp κ ν)) replies s,
        TableSession.steps { table := t₀, protection, hashKnown } ops = .ok (replies, s) →
          t₀.Calls s.table) ∧
    ∃ t₀ : KeySet κ, Table.build sizing hash = .ok t₀ ∧ t₀.KeepsTo sizing ∧
      ∀ protection hashKnown (rs : List (SetRequest κ)) replies s,
        SetSession.run (fun _ => ()) { table := t₀, protection, hashKnown } rs = .ok (replies, s) →
          t₀.Calls s.table := by
  constructor
  · obtain ⟨t₀, hbuild, hkeeps⟩ := keepsTo_of_build (ν := ν) hsizing hash
    exact ⟨t₀, hbuild, hkeeps, fun _ _ _ _ _ hrun => TableSession.calls_of_steps hrun⟩
  · obtain ⟨t₀, hbuild, hkeeps⟩ := keepsTo_of_build (ν := Unit) hsizing hash
    exact ⟨t₀, hbuild, hkeeps, fun _ _ _ _ _ hrun => SetSession.calls_of_run hrun⟩

/-- Six entries in a table that may have four buckets: the number of buckets doubles twice and then
stays, since there may be no more of them. -/
theorem load_bounded_up_to_four_buckets :
    let sizing : Sizing := { initialBuckets := 1, maxLoad := 1, maxBuckets := 4 }
    let ops : List (TableOp UInt64 UInt64) :=
      [.request (.insert 0 10), .request (.insert 1 11), .request (.insert 2 12),
        .request (.insert 2 13), .request (.remove 1), .request (.insert 5 14),
        .request (.insertRange ⟨6, 3, 1⟩)]
    sizing.check = .ok () ∧
      ∃ t₀ : Table UInt64 UInt64, Table.build sizing id = .ok t₀ ∧ t₀.KeepsTo sizing ∧
        ∃ replies s, TableSession.steps { table := t₀ } ops = .ok (replies, s) ∧
          t₀.Calls s.table ∧ s.table.bucketCount = 4 ∧ s.table.size = 6 := by
  intro sizing ops
  have hsizing : sizing.check = .ok () := by decide
  obtain ⟨⟨t₀, hbuild, hkeeps, hruns⟩, -⟩ :=
    load_bounded (κ := UInt64) (ν := UInt64) hsizing id
  have hcounts : (do
      let t ← Table.build sizing id
      let (_, s) ← TableSession.steps { table := t } ops
      return (s.table.bucketCount, s.table.size)) = .ok (4, 6) := by
    decide +kernel
  rw [hbuild, Checked.ok_bind] at hcounts
  obtain ⟨⟨replies, s⟩, hrun, hcounts⟩ := Checked.bind_eq_ok.mp hcounts
  obtain ⟨hbuckets, hsize⟩ := Prod.mk.inj (Except.ok.inj hcounts)
  exact ⟨hsizing, t₀, hbuild, hkeeps, replies, s, hrun, hruns .deferred true ops replies s hrun,
    hbuckets, hsize⟩

end Sessions

end Table

end SplitOrder
