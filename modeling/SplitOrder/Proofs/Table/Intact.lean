import SplitOrder.Proofs.List.Update
import SplitOrder.Proofs.Table.Directory
import SplitOrder.Proofs.Table.Entry
import SplitOrder.Table.Basic

/-!
# Intact tables

What holds of a table between the steps of an operation, and how a sentinel is obtained.

* `Intact` — the list is sound, an entry stands at the place of its hash, and whatever node is
  registered for a bucket guards that bucket: it is the head for bucket 0 and holds the sentinel of
  the bucket for all others.
* `Prepares` — what obtaining a sentinel does to a table: more sentinels are linked and registered,
  and no entry is touched.
* `SentinelEffect` — the two effects that it consists of.
* `exists_intact_build` — a table that was built is intact, and so is one after each effect on its
  list or its counters.
* `sentinelWithin_spec` — obtaining a sentinel succeeds, by such effects, and prepares the table.
  The induction is on the bits of the bucket, one for each generation of parents.
* `sentinelOfHash_spec` — the node from which an operation on a key starts is in front of that key.
-/

namespace SplitOrder

open SortedList

variable {κ ν : Type}

namespace SortedList

/-- The node from which the keys of a bucket are searched. -/
def Guards (l : SortedList (Entry κ ν)) (bucket : Bucket) (i : NodeId) : Prop :=
  if bucket = 0 then i = head else l.Holds i (.sentinelOf bucket)

theorem guards_zero (l : SortedList (Entry κ ν)) : l.Guards 0 head :=
  rfl

theorem guards_of_ne_zero {l : SortedList (Entry κ ν)} {bucket : Bucket} {i : NodeId}
    (hne : bucket ≠ 0) : l.Guards bucket i ↔ l.Holds i (.sentinelOf bucket) := by
  rw [Guards, if_neg hne]

variable [Ord κ]

/-- A guard stands in front of whatever its sentinel is in front of. -/
theorem Guards.inFront {l : SortedList (Entry κ ν)} {probe : Probe (Entry κ ν)}
    {bucket : Bucket} {i : NodeId}
    (h : l.Guards bucket i) (hl : l.Sound) (hlt : probe (.sentinelOf bucket) = .lt) :
    l.InFront probe i := by
  unfold Guards at h
  split at h
  · rw [h]
    exact hl.inFront_head probe
  · exact Holds.inFront h hlt

end SortedList

namespace Table

variable [Ord κ]

/-- **The invariant of tables.** -/
structure Intact (t : Table κ ν) : Prop where
  list : t.list.Sound
  directory : t.directory.WellFormed
  /-- The list head is registered for bucket 0. -/
  root : t.directory.installed? 0 = some head
  /-- Registered nodes guard their buckets. -/
  registered : ∀ {bucket node}, t.directory.installed? bucket = some node →
    t.list.Guards bucket node
  /-- Entries stand where their hashes tell. -/
  hashed : ∀ {i k key value}, t.list.Holds i (.pair k key value) → k = .ofHash (t.hash key)
  buckets : Word.IsPowerOfTwo t.bucketCount
  maximum : Word.IsPowerOfTwo t.maxBuckets
  bounded : t.bucketCount ≤ t.maxBuckets
  room : t.maxBuckets ≤ Directory.capacity

/-- **More sentinels, the same entries.** -/
structure Prepares (t t' : Table κ ν) : Prop where
  evolves : t.list.Evolves t'.list
  pair_iff : ∀ {i k key value},
    t'.list.Holds i (.pair k key value) ↔ t.list.Holds i (.pair k key value)
  size_eq : t'.size = t.size
  bucketCount_eq : t'.bucketCount = t.bucketCount
  maxLoad_eq : t'.maxLoad = t.maxLoad
  maxBuckets_eq : t'.maxBuckets = t.maxBuckets
  hash_eq : t'.hash = t.hash

/-- **The effects of obtaining a sentinel.** Others may get their turn between any two of them. -/
inductive SentinelEffect : Table κ ν → Table κ ν → Prop
  | link {t t' : Table κ ν} {bucket : Bucket} {parent node : NodeId} (hne : bucket ≠ 0)
      (hlt : bucket < Directory.capacity)
      (hparent : t.list.Guards (clearHighestBit bucket) parent)
      (h : t.linkSentinel parent bucket = .ok (node, t')) : SentinelEffect t t'
  | register {t t' : Table κ ν} {bucket : Bucket} {node winner : NodeId}
      (hlt : bucket < Directory.capacity) (hnode : t.list.Guards bucket node)
      (h : t.registerSentinel bucket node = .ok (winner, t')) : SentinelEffect t t'

/-- Any number of these effects. -/
abbrev Obtains : Table κ ν → Table κ ν → Prop :=
  Relation.ReflTransGen SentinelEffect

variable {t t' t'' : Table κ ν} {bucket : Bucket} {i : NodeId} {key : κ} {value : ν}

theorem Prepares.refl (t : Table κ ν) : t.Prepares t :=
  ⟨.refl, Iff.rfl, rfl, rfl, rfl, rfl, rfl⟩

theorem Prepares.trans (h : t.Prepares t') (h' : t'.Prepares t'') : t.Prepares t'' where
  evolves := h.evolves.trans h'.evolves
  pair_iff := h'.pair_iff.trans h.pair_iff
  size_eq := h'.size_eq.trans h.size_eq
  bucketCount_eq := h'.bucketCount_eq.trans h.bucketCount_eq
  maxLoad_eq := h'.maxLoad_eq.trans h.maxLoad_eq
  maxBuckets_eq := h'.maxBuckets_eq.trans h.maxBuckets_eq
  hash_eq := h'.hash_eq.trans h.hash_eq

/-- Another list in place of that of a table, with all sentinels where they were and all entries
where they belong. -/
theorem Intact.of_list (h : t.Intact) {l : SortedList (Entry κ ν)} {n : Nat} (hl : l.Sound)
    (hsentinel : ∀ i k, t.list.Holds i (.sentinel k) → l.Holds i (.sentinel k))
    (hpair : ∀ i k key value, l.Holds i (.pair k key value) → k = .ofHash (t.hash key)) :
    { t with list := l, sentinels := n }.Intact where
  list := hl
  directory := h.directory
  root := h.root
  registered := by
    intro bucket node hnode
    have hguards := h.registered hnode
    unfold Guards at hguards ⊢
    split
    · next hb => rwa [if_pos hb] at hguards
    · next hb =>
      rw [if_neg hb] at hguards
      exact hsentinel _ _ hguards
  hashed := fun hi => hpair _ _ _ _ hi
  buckets := h.buckets
  maximum := h.maximum
  bounded := h.bounded
  room := h.room

/-! ### Empty tables -/

omit [Ord κ] in
/-- **A sizing without a flaw makes an empty table**, with the list head for its one sentinel. -/
theorem exists_build_eq {sizing : Sizing} (h : sizing.check = .ok ()) (hash : κ → UInt64) :
    ∃ d : Directory NodeId, d.WellFormed ∧
      (∀ bucket, d.installed? bucket = if bucket = 0 then some head else none) ∧
      (Table.build sizing hash : Checked (Table κ ν)) = .ok {
        directory := d
        bucketCount := sizing.initialBuckets
        maxLoad := sizing.maxLoad
        maxBuckets := sizing.maxBuckets
        hash } := by
  have hzero : (0 : Bucket) < Directory.capacity := by decide
  obtain ⟨winner, d, hinstall, hd, hwinner, hinstalled, -⟩ :=
    Directory.install_spec Directory.wellFormed_empty hzero head
  rw [Directory.installed?_empty] at hwinner
  obtain rfl : winner = head := hwinner
  refine ⟨d, hd, fun bucket => ?_, ?_⟩
  · rw [hinstalled, Directory.installed?_empty]
  · rw [Table.build, h, Checked.ok_bind, ofSizing, hinstall]
    rfl

omit [Ord κ] in
/-- Nothing else is made of a sizing. -/
theorem eq_of_build {sizing : Sizing} {hash : κ → UInt64} {t : Table κ ν}
    (h : Table.build sizing hash = .ok t) :
    ∃ d : Directory NodeId,
      (∀ bucket, d.installed? bucket = if bucket = 0 then some head else none) ∧
      t = { directory := d
            bucketCount := sizing.initialBuckets
            maxLoad := sizing.maxLoad
            maxBuckets := sizing.maxBuckets
            hash } := by
  obtain ⟨⟨⟩, hcheck, -⟩ := Checked.bind_eq_ok.mp h
  obtain ⟨d, -, hroot, hbuild⟩ := exists_build_eq (ν := ν) hcheck hash
  exact ⟨d, hroot, Except.ok.inj (h.symm.trans hbuild)⟩

theorem exists_intact_build {sizing : Sizing} (h : sizing.check = .ok ()) (hash : κ → UInt64) :
    ∃ t : Table κ ν, Table.build sizing hash = .ok t ∧ t.Intact ∧ t.list = ∅ ∧ t.size = 0 ∧
      t.hash = hash := by
  obtain ⟨hinitial, hmaximum, hroom, hbounded, -⟩ := Sizing.check_eq_ok_iff.mp h
  obtain ⟨d, hd, hroot, hbuild⟩ := exists_build_eq (ν := ν) h hash
  refine ⟨_, hbuild, ?_, rfl, rfl, rfl⟩
  refine ⟨sound_empty, hd, ?_, fun {bucket node} hnode => ?_,
    fun hi => absurd hi not_holds_empty, hinitial, hmaximum, hbounded, hroom⟩
  · rw [hroot, if_pos rfl]
  · rw [hroot] at hnode
    split at hnode
    · next hb =>
      subst hb
      cases hnode
      exact guards_zero _
    · cases hnode

/-! ### What keeps a table intact -/

/-- The directory has room for the buckets that are in use. -/
theorem Intact.lt_capacity (h : t.Intact) (hb : bucket < t.bucketCount) :
    bucket < Directory.capacity := by
  have hbounded := UInt64.le_iff_toNat_le.mp h.bounded
  have hroom := UInt64.le_iff_toNat_le.mp h.room
  rw [UInt64.lt_iff_toNat_lt] at hb ⊢
  omega

theorem Intact.with_size (h : t.Intact) (n : UInt64) : { t with size := n }.Intact :=
  ⟨h.list, h.directory, h.root, h.registered, h.hashed, h.buckets, h.maximum, h.bounded, h.room⟩

/-- To unlink deleted nodes is nothing to a table. -/
theorem Intact.trims (h : t.Intact) {l : SortedList (Entry κ ν)} (hl : l.Sound)
    (ht : t.list.Trims l) : t.Prepares { t with list := l } ∧ { t with list := l }.Intact := by
  refine ⟨⟨ht.evolves, ht.holds_iff, rfl, rfl, rfl, rfl, rfl⟩, h.of_list hl ?_ ?_⟩
  · exact fun _ _ hi => ht.holds_iff.mpr hi
  · exact fun _ _ _ _ hi => h.hashed (ht.holds_iff.mp hi)

theorem Intact.links (h : t.Intact) {l : SortedList (Entry κ ν)} {i : NodeId} (hl : l.Sound)
    (hlinks : t.list.Links (.ofPair (t.hash key) key value) i l) : { t with list := l }.Intact := by
  refine h.of_list hl (fun _ _ hi => hlinks.holds_iff.mpr (.inl hi)) ?_
  intro j k key' value' hj
  rcases hlinks.holds_iff.mp hj with hj | ⟨-, hpair⟩
  · exact h.hashed hj
  · -- the new entry stands where its hash tells
    obtain ⟨rfl, rfl, -⟩ := Entry.pair.inj hpair
    rfl

theorem Intact.removes (h : t.Intact) {l : SortedList (Entry κ ν)} {hash : UInt64}
    (hl : l.Sound) (hrem : t.list.Removes (KeyProbe.ofKey hash key).toProbe l) :
    { t with list := l }.Intact := by
  refine h.of_list hl (fun i k hi => (hrem i _).mpr ⟨hi, fun heq => ?_⟩)
    fun i k key' value' hi => h.hashed ((hrem i _).mp hi).1
  -- a search for a key does not stop at a sentinel
  obtain ⟨key', value', hsentinel, -⟩ := KeyProbe.toProbe_eq_iff.mp heq
  cases hsentinel

/-- The number of buckets doubles or stays, and stays within its bound. -/
theorem doubleIfFull_spec (h : t.Intact) (n : UInt64) :
    ∃ c, t.doubleIfFull n = .ok { t with bucketCount := c } ∧
      { t with bucketCount := c }.Intact := by
  rw [doubleIfFull]
  split
  · exact ⟨t.bucketCount, rfl, h⟩
  · next hgrow =>
    have hlt : t.bucketCount.toNat < t.maxBuckets.toNat := by
      have hnot : ¬ t.maxBuckets ≤ t.bucketCount := fun hle => hgrow (.inl hle)
      rwa [UInt64.le_iff_toNat_le, Nat.not_le] at hnot
    have hroom : t.maxBuckets.toNat ≤ 2 ^ 32 := UInt64.le_iff_toNat_le.mp h.room
    -- between two powers of two there is room for a doubling
    have hdouble : t.bucketCount.toNat * 2 ≤ t.maxBuckets.toNat := by
      have hbuckets : t.bucketCount.toNat = 2 ^ t.bucketCount.toNat.log2 := h.buckets
      have hmaximum : t.maxBuckets.toNat = 2 ^ t.maxBuckets.toNat.log2 := h.maximum
      rw [hbuckets, hmaximum] at hlt ⊢
      rw [← Nat.pow_succ]
      exact Nat.pow_le_pow_right (by decide) ((Nat.pow_lt_pow_iff_right (by decide)).mp hlt)
    have hsize : UInt64.size = 2 ^ 64 := rfl
    have hfits : t.bucketCount.toNat * (2 : UInt64).toNat < UInt64.size := by
      show t.bucketCount.toNat * 2 < UInt64.size
      omega
    have hnat : (t.bucketCount * 2).toNat = t.bucketCount.toNat * 2 := by
      rw [UInt64.toNat_mul, Nat.mod_eq_of_lt hfits]
      rfl
    refine ⟨t.bucketCount * 2, by rw [Word.checkedMul_eq_ok hfits]; rfl, ?_⟩
    refine ⟨h.list, h.directory, h.root, h.registered, h.hashed, ?_, h.maximum, ?_, h.room⟩
    · show (t.bucketCount * 2).toNat = 2 ^ (t.bucketCount * 2).toNat.log2
      have hbuckets : t.bucketCount.toNat = 2 ^ t.bucketCount.toNat.log2 := h.buckets
      rw [hnat, hbuckets, ← Nat.pow_succ, Nat.log2_two_pow]
    · show t.bucketCount * 2 ≤ t.maxBuckets
      rw [UInt64.le_iff_toNat_le, hnat]
      exact hdouble

omit [Ord κ] in
theorem bucketCount_le_of_doubleIfFull {n : UInt64} (h : t.doubleIfFull n = .ok t') :
    t.bucketCount ≤ t'.bucketCount := by
  rw [doubleIfFull] at h
  split at h
  · cases h
    exact UInt64.le_refl _
  · obtain ⟨c, hc, h⟩ := Checked.bind_eq_ok.mp h
    cases h
    have htwo : (2 : UInt64).toNat = 2 := rfl
    rw [UInt64.le_iff_toNat_le, Word.toNat_of_checkedMul_eq_ok hc, htwo]
    omega

/-! ### Obtaining a sentinel -/

/-- A sentinel that guards its bucket is registered, unless another one is. -/
theorem registerSentinel_spec (h : t.Intact) {node : NodeId} (hb : bucket < Directory.capacity)
    (hnode : t.list.Guards bucket node) :
    ∃ winner t', t.registerSentinel bucket node = .ok (winner, t') ∧ t.Prepares t' ∧ t'.Intact ∧
      t'.list.Guards bucket winner := by
  obtain ⟨winner, d, hinstall, hd, hwinner, hinstalled, -⟩ :=
    Directory.install_spec h.directory hb node
  -- the winner is the node at hand or the one registered before; both guard the bucket
  have hguards : t.list.Guards bucket winner := by
    cases hold : t.directory.installed? bucket with
    | none =>
      rw [hold] at hwinner
      exact hwinner ▸ hnode
    | some old =>
      rw [hold] at hwinner
      exact hwinner ▸ h.registered hold
  refine ⟨winner, { t with directory := d }, ?_, ⟨.refl, Iff.rfl, rfl, rfl, rfl, rfl, rfl⟩, ?_,
    hguards⟩
  · rw [registerSentinel, hinstall]
    rfl
  · refine ⟨h.list, hd, ?_, ?_, h.hashed, h.buckets, h.maximum, h.bounded, h.room⟩
    · show d.installed? 0 = some head
      rw [hinstalled]
      split
      · next hzero =>
        subst hzero
        rw [h.root] at hwinner
        exact congrArg some hwinner
      · exact h.root
    · intro b n hn
      have hn : d.installed? b = some n := hn
      rw [hinstalled] at hn
      split at hn
      · next hb =>
        subst hb
        cases hn
        exact hguards
      · exact h.registered hn

variable [Std.TransOrd κ]

omit [Std.TransOrd κ] in
/-- The sentinel of a bucket belongs behind the guard of its parent. -/
theorem inFront_sentinelOf (h : t.Intact) {parent : NodeId} (hne : bucket ≠ 0)
    (hlt : bucket < Directory.capacity)
    (hparent : t.list.Guards (clearHighestBit bucket) parent) :
    t.list.InFront (.ofElement (.sentinelOf bucket)) parent := by
  have hsmall : bucket.toNat < 2 ^ 63 := Directory.toNat_lt_of_lt_capacity hlt
  exact hparent.inFront h.list (Entry.compare_sentinelOf_parent hne hsmall)

/-- A sentinel is linked behind that of its parent, unless it stands there already. -/
theorem linkSentinel_spec (h : t.Intact) {parent : NodeId} (hne : bucket ≠ 0)
    (hlt : bucket < Directory.capacity)
    (hparent : t.list.Guards (clearHighestBit bucket) parent) :
    ∃ node t', t.linkSentinel parent bucket = .ok (node, t') ∧ t.Prepares t' ∧ t'.Intact ∧
      t'.list.Guards bucket node ∧ t'.directory = t.directory := by
  obtain ⟨ins, l, hins, hspec⟩ := insertAfter_spec h.list (inFront_sentinelOf h hne hlt hparent)
  have hl : l.Sound := (h.list.evolves hspec.evolves).1
  rw [linkSentinel, hins]
  cases ins with
  | existing node =>
    obtain ⟨htrims, e, he, heq⟩ := hspec
    have hintact : { t with list := l }.Intact :=
      h.of_list hl (fun _ _ hi => htrims.holds_iff.mpr hi) fun _ _ _ _ hi =>
        h.hashed (htrims.holds_iff.mp hi)
    -- what equals a sentinel is that sentinel
    obtain rfl : e = .sentinelOf bucket := Entry.compare_sentinelOf_eq_iff.mp heq
    exact ⟨node, { t with list := l }, rfl,
      ⟨htrims.evolves, htrims.holds_iff, rfl, rfl, rfl, rfl, rfl⟩, hintact,
      (guards_of_ne_zero hne).mpr (htrims.holds_iff.mpr he), rfl⟩
  | linked node =>
    -- one more sentinel, and the same pairs
    have hlinks : t.list.Links (.sentinelOf bucket) node l := hspec
    have hpair : ∀ {i k key value},
        l.Holds i (.pair k key value) ↔ t.list.Holds i (.pair k key value) := by
      intro i k key value
      rw [hlinks.holds_iff]
      simp [Entry.sentinelOf]
    have hintact : { t with list := l, sentinels := t.sentinels + 1 }.Intact :=
      h.of_list hl (fun _ _ hi => hlinks.holds_iff.mpr (.inl hi)) fun _ _ _ _ hi =>
        h.hashed (hpair.mp hi)
    exact ⟨node, { t with list := l, sentinels := t.sentinels + 1 }, rfl,
      ⟨hlinks.evolves, hpair, rfl, rfl, rfl, rfl, rfl⟩, hintact,
      (guards_of_ne_zero hne).mpr (hlinks.holds_iff.mpr (.inr ⟨rfl, rfl⟩)), rfl⟩

/-- **Obtaining a sentinel.** A bucket of `g` bits has at most `g` generations of parents. -/
theorem sentinelWithin_spec {g : Nat} (h : t.Intact) (hb : bucket < Directory.capacity)
    (hg : bucket.toNat < 2 ^ g) :
    ∃ node t', t.sentinelWithin (g + 1) bucket = .ok (node, t') ∧ t.Obtains t' ∧ t.Prepares t' ∧
      t'.Intact ∧ t'.list.Guards bucket node := by
  -- on the bits of the bucket: the parent has one bit less, and bucket 0 has a sentinel
  induction g generalizing t bucket with
  | zero =>
    obtain rfl : bucket = 0 := UInt64.toNat_inj.mp (Nat.lt_one_iff.mp hg)
    rw [sentinelWithin, Directory.get_eq h.directory hb, h.root]
    exact ⟨head, t, rfl, .refl, Prepares.refl t, h, guards_zero _⟩
  | succ g ih =>
    rw [sentinelWithin, Directory.get_eq h.directory hb, Checked.ok_bind]
    cases hold : t.directory.installed? bucket with
    | some node => exact ⟨node, t, rfl, .refl, Prepares.refl t, h, h.registered hold⟩
    | none =>
      -- first the parent, then the sentinel behind it, then its registration
      have hne : bucket ≠ 0 := by
        rintro rfl
        rw [h.root] at hold
        cases hold
      have hb' : bucket.toNat < 2 ^ (31 + 1) := UInt64.lt_iff_toNat_lt.mp hb
      have hparentLt : clearHighestBit bucket < Directory.capacity := by
        refine UInt64.lt_iff_toNat_lt.mpr (Nat.lt_trans (clearHighestBit_lt hne hb') ?_)
        decide
      obtain ⟨parent, t₁, hparent, hobtains, hprep₁, h₁, hguards₁⟩ :=
        ih h hparentLt (clearHighestBit_lt hne hg)
      obtain ⟨node, t₂, hlink, hprep₂, h₂, hguards₂, -⟩ :=
        linkSentinel_spec h₁ hne hb hguards₁
      obtain ⟨winner, t₃, hregister, hprep₃, h₃, hguards₃⟩ :=
        registerSentinel_spec h₂ hb hguards₂
      refine ⟨winner, t₃, ?_, (hobtains.tail (.link hne hb hguards₁ hlink)).tail
        (.register hb hguards₂ hregister), (hprep₁.trans hprep₂).trans hprep₃, h₃, hguards₃⟩
      simp only [Bucket.parent_of_ne_zero hne, hparent, hlink, Checked.ok_bind]
      exact hregister

/-! ### Where an operation starts -/

omit [Std.TransOrd κ] in
/-- The bucket of a hash is one of those that are in use. -/
theorem bucketOf_spec (h : t.Intact) (hash : UInt64) :
    t.bucketOf hash = .ok (hash &&& (t.bucketCount - 1)) ∧
      hash &&& (t.bucketCount - 1) < t.bucketCount := by
  have hpos : 1 ≤ t.bucketCount := by
    rw [UInt64.le_iff_toNat_le, h.buckets]
    exact Nat.two_pow_pos _
  constructor
  · rw [bucketOf, Word.checkedSub, if_pos hpos]
    rfl
  · have hpos := UInt64.le_iff_toNat_le.mp hpos
    rw [UInt64.lt_iff_toNat_lt, UInt64.toNat_and]
    have hand : hash.toNat &&& (t.bucketCount - 1).toNat ≤ (t.bucketCount - 1).toNat :=
      Nat.and_le_right
    have hsub : (t.bucketCount - 1).toNat = t.bucketCount.toNat - 1 :=
      UInt64.toNat_sub_of_le _ _ hpos
    have hone : (1 : UInt64).toNat = 1 := rfl
    omega

/-- **The start of an operation.** It guards the bucket of the hash. -/
theorem sentinelOfHash_guards (h : t.Intact) (hash : UInt64) :
    ∃ node t', t.sentinelOfHash hash = .ok (node, t') ∧ t.Obtains t' ∧ t.Prepares t' ∧ t'.Intact ∧
      t'.list.Guards (hash &&& (t.bucketCount - 1)) node := by
  obtain ⟨hbucket, hlt⟩ := bucketOf_spec h hash
  obtain ⟨node, t', hsentinel, hspec⟩ :=
    sentinelWithin_spec (g := 64) h (h.lt_capacity hlt) (UInt64.toNat_lt _)
  refine ⟨node, t', ?_, hspec⟩
  rw [sentinelOfHash, hbucket, Checked.ok_bind]
  exact hsentinel

/-- It is in front of the key. -/
theorem sentinelOfHash_spec (h : t.Intact) (hash : UInt64) :
    ∃ node t', t.sentinelOfHash hash = .ok (node, t') ∧ t.Obtains t' ∧ t.Prepares t' ∧ t'.Intact ∧
      ∀ key : κ, t'.list.InFront (KeyProbe.ofKey hash key).toProbe node := by
  obtain ⟨node, t', hsentinel, hobtains, hprep, h', hguards⟩ := sentinelOfHash_guards h hash
  refine ⟨node, t', hsentinel, hobtains, hprep, h', fun key => ?_⟩
  exact hguards.inFront h'.list (KeyProbe.toProbe_sentinelOf hash _ key)

end Table

end SplitOrder
