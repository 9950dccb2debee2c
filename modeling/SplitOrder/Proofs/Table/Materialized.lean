import Mathlib.Data.Finset.Card
import Mathlib.Data.Finset.Range
import SplitOrder.Proofs.Table.Coherence
import SplitOrder.Proofs.Table.Frame
import SplitOrder.Proofs.Table.History
import SplitOrder.Proofs.Table.Placement

/-!
# Which buckets have sentinels

A sentinel is linked when its bucket is first used, together with those of the ancestors that are
missing. So which buckets have sentinels is a matter of the history: every action on a key uses the
bucket that the key had at the time, whether it finds the key or not, and nothing else does.

* `Bucket.Closure` — buckets together with all their ancestors.
* `Table.Materialized` — a bucket has a sentinel of its own. `Tidy.sentinels_eq_card` says that the
  counter counts these buckets.
* `Directory.Covers` — the same for the directory, bucket 0 included. `Tidy.covers_sentinelWithin`
  and `Tidy.covers_perform` say what obtaining a sentinel, and an action, add to it.
* `Table.CoveredBy` — the invariant: the directory covers what the visits of a history used.
* `Table.MaterializedBy` — what a history tells about the sentinels. `materialized_by_history` says
  that it does, for every table and every session.
-/

namespace SplitOrder

open SortedList

/-! ### Buckets with their ancestors -/

/-- **Buckets and their ancestors**: those in the list, and the parent of each one. -/
inductive Bucket.Closure (bs : List Bucket) : Bucket → Prop
  | member {b : Bucket} (h : b ∈ bs) : Closure bs b
  | parent {b above : Bucket} (h : Closure bs b) (hparent : b.parent = .ok above) :
      Closure bs above

namespace Bucket

variable {as bs : List Bucket} {b bucket above : Bucket}

/-- Only bucket 0 has no parent. -/
theorem parent_eq_ok_iff :
    parent bucket = .ok above ↔ bucket ≠ 0 ∧ above = clearHighestBit bucket := by
  by_cases hne : bucket = 0
  · rw [hne, parent_zero]
    simp
  · rw [parent_of_ne_zero hne, Except.ok.injEq, and_iff_right hne, eq_comm]

/-- The closure is the least set that has the buckets and is closed under parents. -/
theorem Closure.induce {P : Bucket → Prop} (h : Closure bs b) (hmem : ∀ c ∈ bs, P c)
    (hparent : ∀ c, c ≠ 0 → P c → P (clearHighestBit c)) : P b := by
  induction h with
  | member h => exact hmem _ h
  | parent _ hb ih =>
    obtain ⟨hne, rfl⟩ := parent_eq_ok_iff.mp hb
    exact hparent _ hne ih

theorem Closure.mono (h : Closure as b) (hsub : as ⊆ bs) : Closure bs b := by
  induction h with
  | member h => exact .member (hsub h)
  | parent _ hb ih => exact ih.parent hb

theorem not_closure_nil : ¬ Closure [] b := fun h =>
  h.induce (P := fun _ => False) (fun _ hc => nomatch hc) fun _ _ hc => hc

theorem closure_append_iff : Closure (as ++ bs) b ↔ Closure as b ∨ Closure bs b := by
  constructor
  · intro h
    induction h with
    | member h => exact (List.mem_append.mp h).imp .member .member
    | parent _ hb ih => exact ih.imp (·.parent hb) (·.parent hb)
  · rintro (h | h)
    · exact h.mono (List.subset_append_left _ _)
    · exact h.mono (List.subset_append_right _ _)

/-- The line of a bucket: itself, and then the line of its parent. -/
theorem closure_singleton_iff (hne : bucket ≠ 0) :
    Closure [bucket] b ↔ b = bucket ∨ Closure [clearHighestBit bucket] b := by
  have hparent : bucket.parent = .ok (clearHighestBit bucket) := parent_of_ne_zero hne
  constructor
  · intro h
    induction h with
    | member h => exact .inl (List.mem_singleton.mp h)
    | @parent c above _ hb ih =>
      right
      rcases ih with rfl | ih
      · cases hparent.symm.trans hb
        exact .member List.mem_cons_self
      · exact ih.parent hb
  · rintro (rfl | h)
    · exact .member List.mem_cons_self
    · refine h.induce (fun c hc => ?_) fun c hne hc => hc.parent (parent_of_ne_zero hne)
      rw [List.mem_singleton.mp hc]
      exact .parent (.member List.mem_cons_self) hparent

end Bucket

/-! ### Buckets with nodes -/

namespace Directory

variable {ι : Type} {d : Directory ι} {b bucket : Bucket} {n : UInt64}

/-- There is a node for the bucket. -/
def Covers (d : Directory ι) (bucket : Bucket) : Prop :=
  ∃ node, d.installed? bucket = some node

/-- With a bucket all its ancestors have nodes. -/
theorem Rooted.covers_closure (h : d.Rooted n) (hd : d.Covers bucket)
    (hb : Bucket.Closure [bucket] b) : d.Covers b := by
  refine hb.induce (fun c hc => ?_) fun c hne hc => ?_
  · rw [List.mem_singleton.mp hc]
    exact hd
  · obtain ⟨node, hnode⟩ := hc
    exact h.parent hne hnode

/-- Hence a bucket that has one adds nothing. -/
theorem Rooted.covers_iff (h : d.Rooted n) (hd : d.Covers bucket) :
    d.Covers b ↔ d.Covers b ∨ Bucket.Closure [bucket] b :=
  ⟨.inl, fun hb => hb.elim id (h.covers_closure hd)⟩

end Directory

namespace Table

variable {κ ν : Type} [Ord κ] {t t' : Table κ ν} {bucket b : Bucket} {key : κ}

/-- **The bucket has a sentinel of its own**: it is on the list, and registered for the bucket. -/
def Materialized (t : Table κ ν) (bucket : Bucket) : Prop :=
  ∃ i ∈ t.list.linked, (t.list.node i).element? = some (.sentinelOf bucket) ∧
    t.directory.get bucket = .ok (some i)

/-- Between operations these are the buckets with nodes, except for bucket 0, which has the head. -/
theorem Tidy.materialized_iff (h : t.Tidy) :
    t.Materialized b ↔ b ≠ 0 ∧ t.directory.Covers b := by
  constructor
  · rintro ⟨i, -, he, hi⟩
    have hi := h.get_eq_ok_some_iff.mp hi
    refine ⟨?_, i, hi⟩
    -- the head carries no sentinel
    rintro rfl
    rw [h.root] at hi
    cases hi
    rw [h.list.head_bare] at he
    cases he
  · rintro ⟨hne, i, hi⟩
    have hholds := h.holds_of_installed hne hi
    exact ⟨i, h.list.mem_linked hholds, hholds.1, h.get_eq_ok_some_iff.mpr hi⟩

/-- A sentinel on the list is that of a bucket that has one. -/
theorem Tidy.exists_materialized (h : t.Tidy) {i : NodeId} {k : OrderKey}
    (he : (t.list.node i).element? = some (.sentinel k)) :
    ∃ b, k = .ofBucket b ∧ t.Materialized b := by
  obtain ⟨b, hne, hk, hb⟩ := h.published (h.holds_sentinel he)
  exact ⟨b, hk, h.materialized_iff.mpr ⟨hne, i, hb⟩⟩

theorem Tidy.toNat_lt_of_materialized (h : t.Tidy) (hb : t.Materialized b) :
    b.toNat < t.bucketCount.toNat := by
  obtain ⟨-, i, hi⟩ := h.materialized_iff.mp hb
  exact UInt64.lt_iff_toNat_lt.mp (h.rooted.within hi)

/-! ### How many there are -/

/-- There are finitely many: they are in use. -/
theorem Tidy.exists_finset (h : t.Tidy) : ∃ S : Finset Bucket, ∀ b, b ∈ S ↔ t.Materialized b := by
  classical
  refine ⟨((Finset.range t.bucketCount.toNat).image UInt64.ofNat).filter t.Materialized,
    fun b => ?_⟩
  rw [Finset.mem_filter, and_iff_right_iff_imp]
  intro hb
  exact Finset.mem_image.mpr ⟨b.toNat, Finset.mem_range.mpr (h.toNat_lt_of_materialized hb),
    UInt64.ofNat_toNat⟩

variable [Std.TransOrd κ]

/-- **The counter counts the buckets that have sentinels.** -/
theorem Tidy.sentinels_eq_card (h : t.Tidy) {S : Finset Bucket}
    (hS : ∀ b, b ∈ S ↔ t.Materialized b) : t.sentinels = S.card := by
  have hcovers : ∀ {b}, b ∈ S → b ≠ 0 ∧ t.directory.Covers b := fun hb =>
    h.materialized_iff.mp ((hS _).mp hb)
  have hsmall : ∀ {b}, b ∈ S → b.toNat < 2 ^ 63 := by
    intro b hb
    obtain ⟨-, i, hi⟩ := hcovers hb
    exact Directory.toNat_lt_of_lt_capacity (h.lt_capacity (h.rooted.within hi))
  -- the sentinels on the list are those of these buckets, each once
  have hperm : (t.list.live.filter Entry.isSentinel).Perm (S.toList.map Entry.sentinelOf) := by
    refine (List.perm_ext_iff_of_nodup (h.list.nodup_live.filter _) ?_).mpr fun e => ?_
    · refine S.nodup_toList.map_on fun a ha b hb heq => ?_
      exact ofBucket_injective (hsmall (Finset.mem_toList.mp ha)) (hsmall (Finset.mem_toList.mp hb))
        (Entry.sentinel.inj heq)
    · rw [List.mem_filter, h.list.mem_live_iff, List.mem_map]
      constructor
      · rintro ⟨⟨i, hi⟩, hsentinel⟩
        cases e with
        | pair k key value => cases hsentinel
        | sentinel k =>
          obtain ⟨b, rfl, hb⟩ := h.exists_materialized hi.1
          exact ⟨b, Finset.mem_toList.mpr ((hS b).mpr hb), rfl⟩
      · rintro ⟨b, hb, rfl⟩
        obtain ⟨hne, i, hi⟩ := hcovers (Finset.mem_toList.mp hb)
        exact ⟨⟨i, h.holds_of_installed hne hi⟩, rfl⟩
  calc t.sentinels = (t.list.live.filter Entry.isSentinel).length := by
        rw [h.sentinels_eq, List.countP_eq_length_filter]
    _ = (S.toList.map (Entry.sentinelOf (κ := κ) (ν := ν))).length := hperm.length_eq
    _ = S.card := by rw [List.length_map, Finset.length_toList]

/-! ### What an action adds -/

omit [Std.TransOrd κ] in
/-- To link a sentinel is nothing to the directory. -/
theorem directory_of_linkSentinel {parent node : NodeId}
    (h : t.linkSentinel parent bucket = .ok (node, t')) : t'.directory = t.directory := by
  obtain ⟨⟨ins, l⟩, -, h⟩ := Checked.bind_eq_ok.mp h
  cases ins with
  | linked i => cases h; rfl
  | existing i => cases h; rfl

omit [Ord κ] [Std.TransOrd κ] in
/-- To register a sentinel covers its bucket. -/
theorem covers_registerSentinel {node winner : NodeId} (hd : t.directory.WellFormed)
    (hlt : bucket < Directory.capacity)
    (h : t.registerSentinel bucket node = .ok (winner, t')) (b : Bucket) :
    t'.directory.Covers b ↔ b = bucket ∨ t.directory.Covers b := by
  obtain ⟨d, rfl, -, -, hinstalled⟩ := registerSentinel_cases hd hlt h
  show (∃ i, d.installed? b = some i) ↔ _
  rw [hinstalled]
  by_cases hb : b = bucket
  · rw [if_pos hb]
    exact ⟨fun _ => .inl hb, fun _ => ⟨winner, rfl⟩⟩
  · rw [if_neg hb, or_iff_right hb]
    exact Iff.rfl

/-- **Obtaining a sentinel** covers its bucket and the ancestors of that, and nothing else. -/
theorem Tidy.covers_sentinelWithin {g : Nat} {node : NodeId} (h : t.Tidy)
    (hlt : bucket < t.bucketCount) (hg : bucket.toNat < 2 ^ g)
    (hop : t.sentinelWithin (g + 1) bucket = .ok (node, t')) (b : Bucket) :
    t'.directory.Covers b ↔ t.directory.Covers b ∨ Bucket.Closure [bucket] b := by
  -- on the generations, as sentinels are obtained: first that of the parent
  induction g generalizing bucket node t' with
  | zero =>
    obtain rfl : bucket = 0 := UInt64.toNat_inj.mp (Nat.lt_one_iff.mp hg)
    rw [Table.sentinelWithin, Directory.get_eq h.directory (h.lt_capacity hlt), h.root] at hop
    cases hop
    exact h.rooted.covers_iff ⟨head, h.root⟩
  | succ g ih =>
    rw [Table.sentinelWithin, Directory.get_eq h.directory (h.lt_capacity hlt),
      Checked.ok_bind] at hop
    cases hold : t.directory.installed? bucket with
    | some i =>
      rw [hold] at hop
      cases hop
      exact h.rooted.covers_iff ⟨_, hold⟩
    | none =>
      have hne : bucket ≠ 0 := by
        rintro rfl
        rw [h.root] at hold
        cases hold
      have hbelow : clearHighestBit bucket < t.bucketCount :=
        UInt64.lt_trans (clearHighestBit_lt_self hne) hlt
      rw [hold] at hop
      simp only [Bucket.parent_of_ne_zero hne, Checked.ok_bind] at hop
      obtain ⟨⟨parent, t₁⟩, hparent, hop⟩ := Checked.bind_eq_ok.mp hop
      obtain ⟨⟨i, t₂⟩, hlink, hregister⟩ := Checked.bind_eq_ok.mp hop
      obtain ⟨parent', t₁', hparent', hretires, -⟩ :=
        h.sentinelWithin hbelow (clearHighestBit_lt hne hg)
      cases hparent.symm.trans hparent'
      -- first the line of the parent was covered, and then the bucket itself
      have hcovers : t₁.directory.Covers b ↔
          t.directory.Covers b ∨ Bucket.Closure [clearHighestBit bucket] b :=
        ih hbelow (clearHighestBit_lt hne hg) hparent
      have hdir : t₂.directory = t₁.directory := directory_of_linkSentinel hlink
      rw [covers_registerSentinel (hdir ▸ hretires.tidy.directory) (h.lt_capacity hlt) hregister,
        hdir, hcovers, Bucket.closure_singleton_iff hne, or_left_comm]

omit [Ord κ] [Std.TransOrd κ] in
/-- The bucket of a hash is its remainder by the number of buckets. -/
theorem bucketOf_eq_mod (hbuckets : Word.IsPowerOfTwo t.bucketCount) (hash : UInt64) :
    t.bucketOf hash = .ok (hash % t.bucketCount) := by
  rw [bucketOf_eq_lowBits hbuckets]
  refine congrArg Except.ok (UInt64.toNat_inj.mp ?_)
  rw [toNat_lowBits, UInt64.toNat_mod]
  exact congrArg _ hbuckets.symm

omit [Std.TransOrd κ] in
/-- **The start of the key was obtained**, and since then the directory was not touched. -/
def Starts (t : Table κ ν) (key : κ) (t' : Table κ ν) : Prop :=
  ∃ start t₁, t.sentinelOfHash (t.hash key) = .ok (start, t₁) ∧ t'.directory = t₁.directory

section Starts

omit [Std.TransOrd κ]

theorem starts_of_lookup {found : Option NodeId} (h : t.lookup key = .ok (found, t')) :
    t.Starts key t' := by
  obtain ⟨⟨start, t₁⟩, hstart, h⟩ := Checked.bind_eq_ok.mp h
  obtain ⟨⟨found, l⟩, -, h⟩ := Checked.bind_eq_ok.mp h
  cases h
  exact ⟨start, t₁, hstart, rfl⟩

theorem starts_of_find {pair : Option (κ × ν)} (h : t.find key = .ok (pair, t')) :
    t.Starts key t' := by
  obtain ⟨⟨found, t₁⟩, hlook, h⟩ := Checked.bind_eq_ok.mp h
  cases found with
  | none =>
    cases h
    exact starts_of_lookup hlook
  | some i =>
    obtain ⟨e, -, h⟩ := Checked.bind_eq_ok.mp h
    cases h
    exact starts_of_lookup hlook

theorem starts_of_removeEntry {entry : Option (Entry κ ν)}
    (h : t.removeEntry key = .ok (entry, t')) : t.Starts key t' := by
  obtain ⟨⟨start, t₁⟩, hstart, h⟩ := Checked.bind_eq_ok.mp h
  obtain ⟨⟨removed, l⟩, -, h⟩ := Checked.bind_eq_ok.mp h
  cases removed with
  | none => cases h; exact ⟨start, t₁, hstart, rfl⟩
  | some e => cases h; exact ⟨start, t₁, hstart, rfl⟩

theorem starts_of_insert {value : ν} {isNew : Bool} (h : t.insert key value = .ok (isNew, t')) :
    t.Starts key t' := by
  obtain ⟨⟨start, t₁⟩, hstart, h⟩ := Checked.bind_eq_ok.mp h
  obtain ⟨⟨ins, l⟩, -, h⟩ := Checked.bind_eq_ok.mp h
  cases ins with
  | existing i =>
    cases h
    exact ⟨start, t₁, hstart, rfl⟩
  | linked i =>
    -- counting and growing write numbers only
    obtain ⟨⟨size, t₂⟩, hcount, h⟩ := Checked.bind_eq_ok.mp h
    obtain ⟨n, -, hcount⟩ := Checked.bind_eq_ok.mp hcount
    obtain ⟨t₃, hgrow, h⟩ := Checked.bind_eq_ok.mp h
    obtain ⟨c, rfl⟩ := exists_of_doubleIfFull hgrow
    cases hcount
    cases h
    exact ⟨start, t₁, hstart, rfl⟩

/-- **Every action obtains the start of its key**, whatever comes of it. -/
theorem starts_of_perform {a : Action ν} {change : Change}
    (h : t.perform key a = .ok (change, t')) : t.Starts key t' := by
  cases a with
  | insert value =>
    obtain ⟨⟨isNew, t₁⟩, hinsert, h⟩ := Checked.bind_eq_ok.mp h
    cases h
    exact starts_of_insert hinsert
  | remove | delete =>
    obtain ⟨⟨x, t₁⟩, hremove, h⟩ := Checked.bind_eq_ok.mp h
    obtain ⟨⟨entry, t₂⟩, hentry, hremove⟩ := Checked.bind_eq_ok.mp hremove
    cases hremove
    cases h
    exact starts_of_removeEntry hentry
  | contains =>
    obtain ⟨⟨x, t₁⟩, hcontains, h⟩ := Checked.bind_eq_ok.mp h
    obtain ⟨⟨found, t₂⟩, hlook, hcontains⟩ := Checked.bind_eq_ok.mp hcontains
    cases hcontains
    cases h
    exact starts_of_lookup hlook
  | get =>
    obtain ⟨⟨x, t₁⟩, hget, h⟩ := Checked.bind_eq_ok.mp h
    obtain ⟨⟨pair, t₂⟩, hfind, hget⟩ := Checked.bind_eq_ok.mp hget
    cases hget
    cases h
    exact starts_of_find hfind
  | find =>
    obtain ⟨⟨pair, t₁⟩, hfind, h⟩ := Checked.bind_eq_ok.mp h
    cases h
    exact starts_of_find hfind
  | lookup =>
    obtain ⟨⟨found, t₁⟩, hlook, h⟩ := Checked.bind_eq_ok.mp h
    cases h
    exact starts_of_lookup hlook

end Starts

/-- **An action** covers the bucket of its key and the ancestors of that, and nothing else. It is
the number of buckets at its beginning that counts, whether or not they double in the end. -/
theorem Tidy.covers_perform {a : Action ν} {change : Change} (h : t.Tidy)
    (hperform : t.perform key a = .ok (change, t')) (b : Bucket) :
    t'.directory.Covers b ↔
      t.directory.Covers b ∨ Bucket.Closure [t.hash key % t.bucketCount] b := by
  obtain ⟨start, t₁, hstart, hdir⟩ := starts_of_perform hperform
  have hbucket : t.bucketOf (t.hash key) = .ok (t.hash key % t.bucketCount) :=
    bucketOf_eq_mod h.buckets _
  have hlt : t.hash key % t.bucketCount < t.bucketCount := by
    obtain ⟨hand, hlt⟩ := bucketOf_spec h.toIntact (t.hash key)
    rwa [Except.ok.inj (hand.symm.trans hbucket)] at hlt
  rw [Table.sentinelOfHash, hbucket, Checked.ok_bind] at hstart
  rw [hdir]
  exact h.covers_sentinelWithin (g := 64) hlt (UInt64.toNat_lt _) hstart b

end Table

/-! ### Histories -/

section Histories

variable {κ ν : Type}

/-- **The bucket that an action used**: that of its key, among the buckets of that time. -/
def Visit.place (hash : κ → UInt64) (v : Visit κ ν) : Bucket :=
  hash v.key % v.table.bucketCount

namespace Table

variable [Ord κ] {t t' : Table κ ν} {hash : κ → UInt64} {visits : List (Visit κ ν)}

/-- **The sentinels are those that the history accounts for**, and one can tell when there will be
more. -/
structure MaterializedBy (t : Table κ ν) (hash : κ → UInt64) (visits : List (Visit κ ν)) :
    Prop where
  /-- Bucket 0 is the list head's. The others that were used have sentinels, and their ancestors. -/
  iff : ∀ b, t.Materialized b ↔ b ≠ 0 ∧ Bucket.Closure (visits.map (Visit.place hash)) b
  /-- There are no sentinels on the list but theirs, -/
  listed : ∀ {i k}, (t.list.node i).element? = some (.sentinel k) →
    ∃ b, k = .ofBucket b ∧ t.Materialized b
  /-- and none in the directory. -/
  registered : ∀ {b i}, b ≠ 0 → t.directory.get b = .ok (some i) → t.Materialized b
  /-- The counter tells how many there are. -/
  count : ∃ S : Finset Bucket,
    (∀ b, b ∈ S ↔ b ≠ 0 ∧ Bucket.Closure (visits.map (Visit.place hash)) b) ∧
      t.sentinels = S.card
  /-- The next action ends, if there is room for what it inserts. -/
  ends : ∀ (key : κ) (a : Action ν), (∀ value, a = .insert value → t.HasRoom key) →
    ∃ change t', t.perform key a = .ok (change, t')
  /-- **It adds none** if an action with the same hash found as many buckets. -/
  repeated : ∀ v ∈ visits, ∀ {key a change t'}, hash key = hash v.key →
    t.bucketCount = v.table.bucketCount → t.perform key a = .ok (change, t') →
      t'.sentinels = t.sentinels ∧ ∀ b, t'.Materialized b ↔ t.Materialized b

/-- **The invariant of histories**: the directory covers bucket 0 and what was used so far. -/
structure CoveredBy (t : Table κ ν) (hash : κ → UInt64) (visits : List (Visit κ ν)) : Prop where
  tidy : t.Tidy
  hash_eq : t.hash = hash
  covers : ∀ b, t.directory.Covers b ↔
    b = 0 ∨ Bucket.Closure (visits.map (Visit.place hash)) b

/-- A new table covers bucket 0 only. -/
theorem coveredBy_of_build {sizing : Sizing} (h : Table.build sizing hash = .ok t) :
    t.CoveredBy hash [] := by
  obtain ⟨htidy, -, hhash⟩ := tidy_build h
  obtain ⟨d, hroot, rfl⟩ := eq_of_build h
  refine ⟨htidy, hhash, fun b => ?_⟩
  rw [List.map_nil, or_iff_left Bucket.not_closure_nil]
  show (∃ node, d.installed? b = some node) ↔ b = 0
  rw [hroot]
  by_cases hb : b = 0
  · rw [if_pos hb]
    exact ⟨fun _ => hb, fun _ => ⟨head, rfl⟩⟩
  · rw [if_neg hb]
    exact ⟨fun ⟨_, hnode⟩ => (nomatch hnode), fun heq => absurd heq hb⟩

/-- What the directory covers tells which sentinels there are. -/
theorem CoveredBy.materialized_iff (h : t.CoveredBy hash visits) {b : Bucket} :
    t.Materialized b ↔ b ≠ 0 ∧ Bucket.Closure (visits.map (Visit.place hash)) b := by
  rw [h.tidy.materialized_iff, h.covers]
  exact and_congr_right fun hne => or_iff_right hne

variable [Std.TransOrd κ]

/-- **Step lemma.** -/
theorem CoveredBy.perform {key : κ} {a : Action ν} {change : Change}
    (h : t.CoveredBy hash visits) (hperform : t.perform key a = .ok (change, t')) :
    t'.CoveredBy hash (visits ++ [⟨key, t⟩]) := by
  have hcourse := course_of_perform h.tidy.toIntact hperform
  refine ⟨hcourse.tidy h.tidy, hcourse.hash_eq.trans h.hash_eq, fun b => ?_⟩
  rw [h.tidy.covers_perform hperform, h.covers, h.hash_eq, List.map_append,
    Bucket.closure_append_iff, or_assoc]
  rfl

/-- An action on a bucket that was used before adds no sentinel. -/
theorem CoveredBy.materialized_repeated (h : t.CoveredBy hash visits) {v : Visit κ ν}
    (hv : v ∈ visits) {key : κ} {a : Action ν} {change : Change} (hsame : hash key = hash v.key)
    (hcount : t.bucketCount = v.table.bucketCount)
    (hperform : t.perform key a = .ok (change, t')) {b : Bucket} :
    t'.Materialized b ↔ t.Materialized b := by
  have h' := h.perform hperform
  rw [h'.materialized_iff, h.materialized_iff, List.map_append, Bucket.closure_append_iff]
  refine and_congr_right fun _ => or_iff_left_of_imp fun hb => hb.mono ?_
  have hplace : Visit.place hash ⟨key, t⟩ = Visit.place hash v := by
    unfold Visit.place
    rw [hsame, hcount]
  rw [List.map_singleton, hplace]
  exact List.cons_subset.mpr ⟨List.mem_map_of_mem hv, List.nil_subset _⟩

theorem CoveredBy.materializedBy (h : t.CoveredBy hash visits) : t.MaterializedBy hash visits := by
  obtain ⟨S, hS⟩ := h.tidy.exists_finset
  have hcard : t.sentinels = S.card := h.tidy.sentinels_eq_card hS
  refine ⟨fun b => h.materialized_iff, h.tidy.exists_materialized, fun hne hi => ?_,
    ⟨S, fun b => (hS b).trans h.materialized_iff, hcard⟩, exists_perform h.tidy.toIntact, ?_⟩
  · exact h.tidy.materialized_iff.mpr ⟨hne, _, h.tidy.get_eq_ok_some_iff.mp hi⟩
  · intro v hv key a change t' hsame hcount hperform
    have hiff : ∀ b, t'.Materialized b ↔ t.Materialized b := fun b =>
      h.materialized_repeated hv hsame hcount hperform
    refine ⟨?_, hiff⟩
    calc t'.sentinels
      _ = S.card :=
        (h.perform hperform).tidy.sentinels_eq_card fun b => (hS b).trans (hiff b).symm
      _ = t.sentinels := hcard.symm

/-- **Run lemma.** Whatever is done to a new table, its history accounts for its sentinels. -/
theorem materializedBy_of_build {sizing : Sizing} {t₀ : Table κ ν}
    (hbuild : Table.build sizing hash = .ok t₀) {actions : List (κ × Action ν)}
    (h : t₀.performAll actions = .ok (visits, t)) : t.MaterializedBy hash visits := by
  have hrun : t.CoveredBy hash ([] ++ visits) :=
    performAll_induction (P := fun past t => t.CoveredBy hash past) CoveredBy.perform
      (coveredBy_of_build hbuild) h
  exact hrun.materializedBy

variable [Numbered κ] [Numbered ν] [Text.Legible κ] [Text.Legible ν]

/-- **Which sentinels there are follows from what was asked for.** For every sizing without a flaw
and every hash function: after any actions on a new table, one visit for each of them, the buckets
with sentinels are those that the actions used, and the ancestors of these, bucket 0 excepted. It
does not matter what was asked about the keys, nor whether they were found; what matters is the
number of buckets that each action found. And a session does nothing but actions to its table. -/
theorem materialized_by_history {sizing : Sizing} (hsizing : sizing.check = .ok ())
    (hash : κ → UInt64) :
    ∃ t₀ : Table κ ν, Table.build sizing hash = .ok t₀ ∧
      (∀ actions visits t, t₀.performAll actions = .ok (visits, t) →
        visits.map Visit.key = actions.map Prod.fst ∧ t.MaterializedBy hash visits) ∧
      ∀ protection hashKnown (ops : List (TableOp κ ν)) replies s,
        TableSession.steps { table := t₀, protection, hashKnown } ops = .ok (replies, s) →
          ∃ actions visits, TableSession.actionsAll { table := t₀, protection, hashKnown } ops =
              .ok actions ∧
            t₀.performAll actions = .ok (visits, s.table) ∧ s.table.MaterializedBy hash visits := by
  obtain ⟨d, -, -, hbuild⟩ := exists_build_eq (ν := ν) hsizing hash
  refine ⟨_, hbuild, fun actions visits t hrun => ?_, fun _ _ ops replies s hrun => ?_⟩
  · exact ⟨map_key_of_performAll hrun, materializedBy_of_build hbuild hrun⟩
  · obtain ⟨actions, hactions, visits, hdoes⟩ := TableSession.does_of_steps ops hrun
    exact ⟨actions, visits, hactions, hdoes, materializedBy_of_build hbuild hdoes⟩

/-- Key 7 is inserted while there are four buckets, which takes the sentinels of 3 and of its parent
1, and key 6, which is not there, is looked for in bucket 2. Then the number of buckets doubles. Key
7 is looked for again, in a bucket of its own; key 6 is not, so bucket 6 has no sentinel. -/
theorem materialized_by_history_of_growth :
    let sizing : Sizing := { initialBuckets := 4, maxLoad := 1 }
    let ops : List (TableOp UInt64 UInt64) :=
      [.request (.insert 7 70), .request (.contains 6), .request (.insertRange ⟨1, 4, 1⟩),
        .request (.get 7)]
    let actions : List (UInt64 × Action UInt64) :=
      [(7, .insert 70), (6, .contains), (1, .insert 1), (2, .insert 2), (3, .insert 3),
        (4, .insert 4), (7, .get)]
    sizing.check = .ok () ∧
      ∃ (t₀ : Table UInt64 UInt64) (replies : _) (s : _) (visits : List (Visit UInt64 UInt64)),
        Table.build sizing id = .ok t₀ ∧
        TableSession.steps { table := t₀ } ops = .ok (replies, s) ∧
        TableSession.actionsAll { table := t₀ } ops = .ok actions ∧
        t₀.performAll actions = .ok (visits, s.table) ∧
        visits.map (Visit.place id) = [3, 2, 1, 2, 3, 0, 7] ∧
        s.table.MaterializedBy id visits ∧ s.table.bucketCount = 8 ∧ s.table.sentinels = 4 ∧
        s.table.Materialized 7 ∧ ¬ s.table.Materialized 6 := by
  intro sizing ops actions
  have hsizing : sizing.check = .ok () := by decide
  obtain ⟨t₀, hbuild, -, hsessions⟩ :=
    materialized_by_history (κ := UInt64) (ν := UInt64) hsizing id
  have hcounts : (do
      let t ← Table.build sizing id
      let (_, s) ← TableSession.steps { table := t } ops
      return (s.table.bucketCount, s.table.sentinels, s.table.directory.get 6)) =
        .ok (8, 4, .ok none) := by
    decide +kernel
  have hplaces : (do
      let t ← Table.build sizing id
      let (visits, _) ← t.performAll actions
      return visits.map (Visit.place id)) = .ok [3, 2, 1, 2, 3, 0, 7] := by
    decide +kernel
  have hactions : (do
      let t ← Table.build sizing id
      TableSession.actionsAll { table := t } ops) = .ok actions := by
    decide +kernel
  rw [hbuild, Checked.ok_bind] at hcounts hplaces hactions
  obtain ⟨⟨replies, s⟩, hrun, hcounts⟩ := Checked.bind_eq_ok.mp hcounts
  obtain ⟨hbuckets, hcounts⟩ := Prod.mk.inj (Except.ok.inj hcounts)
  obtain ⟨hsentinels, hsix⟩ := Prod.mk.inj hcounts
  obtain ⟨⟨visits, t⟩, hperform, hvisited⟩ := Checked.bind_eq_ok.mp hplaces
  -- the session did these actions, so it led to the same table
  obtain ⟨actions', visits', hactions', hdoes, hmaterialized⟩ :=
    hsessions .deferred true ops replies s hrun
  cases hactions.symm.trans hactions'
  cases hperform.symm.trans hdoes
  have hplaces : visits.map (Visit.place id) = [3, 2, 1, 2, 3, 0, 7] := Except.ok.inj hvisited
  refine ⟨hsizing, t₀, replies, s, visits, hbuild, hrun, hactions, hperform, hplaces,
    hmaterialized, hbuckets, hsentinels, ?_, fun ⟨i, _, _, hi⟩ => ?_⟩
  · rw [hmaterialized.iff, hplaces]
    exact ⟨by decide, .member (by decide)⟩
  · cases hsix.symm.trans hi

end Table

end Histories

end SplitOrder
