import SplitOrder.Proofs.List.Retirement
import SplitOrder.Proofs.Table.Reachable
import SplitOrder.Proofs.Table.Requests

/-!
# Tidy tables

The list, the directory and the two counters of a table say the same as long as no operation is under
way: `Table.Tidy`. Within an operation they do not. A new sentinel is linked first and registered
afterwards, and an entry is linked or deleted before it is counted; so what keeps a table tidy are
not the single effects but the groups of them between which a single client does not look.

* `Tidy` — the invariant. To what `Intact` says it adds what holds only between operations.
* `tidy_build` — an empty table is tidy.
* `Tidy.linksSentinel`, `Tidy.linksPair`, `Tidy.deletesPair`, `Tidy.grows` — the groups of effects.
* `Retires` — what an operation leaves: a tidy table, in which so many more nodes are retired.
* `Tidy.kept` — whatever holds a sentinel is on the list for good.
* `Tidy.sentinelWithin` — obtaining a sentinel, by induction on the bits of its bucket.
* `tracks_retires` — hence every operation on a table leaves it tidy, and retires one node if it
  deletes a key.
-/

namespace SplitOrder

open SortedList

variable {κ ν : Type} [Ord κ]

namespace Table

/-- **The invariant between operations.** -/
structure Tidy (t : Table κ ν) : Prop extends t.Intact where
  /-- Every deleted node is retired. -/
  accounted : t.list.Accounted []
  /-- Only pairs are deleted. -/
  deleted : ∀ {i}, (t.list.link i).marked = true →
    ∃ k key value, (t.list.node i).element? = some (.pair k key value)
  /-- A sentinel is registered for the bucket in front of which it stands. -/
  published : ∀ {i k}, t.list.Holds i (.sentinel k) →
    ∃ bucket, bucket ≠ 0 ∧ k = .ofBucket bucket ∧ t.directory.installed? bucket = some i
  /-- Only buckets in use have sentinels, and each with its parent. -/
  rooted : t.directory.Rooted t.bucketCount
  sentinels_eq : t.sentinels = t.list.live.countP Entry.isSentinel
  size_eq : t.size.toNat = t.list.live.countP (!·.isSentinel)

/-- **What an operation leaves**: a tidy table with the same hash function, in which `n` more nodes
are retired. -/
structure Retires (t : Table κ ν) (n : Nat) (t' : Table κ ν) : Prop where
  tidy : t'.Tidy
  hash_eq : t'.hash = t.hash
  list : t.list.Retires n t'.list

variable {t t' t'' : Table κ ν} {bucket : Bucket} {i : NodeId} {key : κ} {value : ν}
  {l : SortedList (Entry κ ν)}

theorem Tidy.refl (h : t.Tidy) : t.Retires 0 t :=
  ⟨h, rfl, SortedList.Retires.refl _⟩

theorem Retires.trans {m n : Nat} (h : t.Retires m t') (h' : t'.Retires n t'') :
    t.Retires (m + n) t'' :=
  ⟨h'.tidy, h'.hash_eq.trans h.hash_eq, h.list.trans h'.list⟩

/-- An empty table is tidy. -/
theorem tidy_build {sizing : Sizing} {hash : κ → UInt64} (h : Table.build sizing hash = .ok t) :
    t.Tidy ∧ t.list = ∅ ∧ t.hash = hash := by
  obtain ⟨u, hcheck, -⟩ := Checked.bind_eq_ok.mp h
  obtain ⟨t₀, hbuild, hintact, -⟩ := exists_intact_build (ν := ν) hcheck hash
  cases hbuild.symm.trans h
  obtain ⟨d, hroot, rfl⟩ := eq_of_build h
  -- the head is the only node that is registered, for bucket 0
  have hzero : ∀ {bucket i}, d.installed? bucket = some i → bucket = 0 := by
    intro bucket i hi
    rw [hroot] at hi
    split at hi
    · assumption
    · cases hi
  refine ⟨⟨hintact, accounted_empty, fun hm => ?_, fun hi => absurd hi not_holds_empty, ⟨?_, ?_⟩,
    rfl, rfl⟩, rfl, rfl⟩
  · have hretired := accounted_empty.mem_retired_iff.mpr hm
    cases hretired
  · intro bucket i hi
    have hpos : 0 < sizing.initialBuckets := by
      rw [UInt64.lt_iff_toNat_lt, hintact.buckets]
      exact Nat.two_pow_pos _
    rw [hzero hi]
    exact hpos
  · intro bucket i hne hi
    exact absurd (hzero hi) hne

/-! ### Groups of effects -/

/-- Another list and another size for a tidy table, with the same sentinels. -/
theorem Tidy.of_list (h : t.Tidy) {size : UInt64}
    (hintact : { t with list := l, size }.Intact) (hacc : l.Accounted [])
    (hdeleted : ∀ {i}, (l.link i).marked = true →
      ∃ k key value, (l.node i).element? = some (.pair k key value))
    (hholds : ∀ {i k}, l.Holds i (.sentinel k) → t.list.Holds i (.sentinel k))
    (hsentinels : l.live.countP Entry.isSentinel = t.list.live.countP Entry.isSentinel)
    (hsize : size.toNat = l.live.countP (!·.isSentinel)) : { t with list := l, size }.Tidy where
  toIntact := hintact
  accounted := hacc
  deleted := hdeleted
  published := fun hi => h.published (hholds hi)
  rooted := h.rooted
  sentinels_eq := h.sentinels_eq.trans hsentinels.symm
  size_eq := hsize

/-- If no mark is set, it is still only pairs that are deleted. -/
theorem Tidy.deleted_later (h : t.Tidy) (hlater : t.list.Later l)
    (hm : (t.list.link i).marked = true) :
    ∃ k key value, (l.node i).element? = some (.pair k key value) := by
  obtain ⟨k, key, value, he⟩ := h.deleted hm
  exact ⟨k, key, value, (hlater.element (lt_size_of_element he)).trans he⟩

variable [Std.TransOrd κ]

/-- To unlink deleted nodes is nothing to a tidy table. -/
theorem Tidy.trims (h : t.Tidy) (ht : t.list.Trims l) : t.Retires 0 { t with list := l } := by
  have hl : l.Sound := (h.list.evolves ht.evolves).1
  have hretires := ht.retires h.list
  have hperm := ht.live_perm h.list
  refine ⟨?_, rfl, hretires⟩
  refine h.of_list (h.toIntact.trims hl ht).2 (hretires.accounted h.accounted) (fun {i} hm => ?_)
    (fun hi => ht.holds_iff.mp hi) (hperm.countP_eq _) ?_
  · rw [ht.marked_eq] at hm
    exact h.deleted_later (h.list.evolves ht.evolves).2 hm
  · rw [h.size_eq, hperm.countP_eq]

/-- A new pair, linked and counted. -/
theorem Tidy.linksPair (h : t.Tidy) (hlinks : t.list.Links (.ofPair (t.hash key) key value) i l)
    (hsize : t.size.toNat + 1 < UInt64.size) :
    t.Retires 0 { t with list := l, size := t.size + 1 } := by
  have hl : l.Sound := (h.list.evolves hlinks.evolves).1
  have hretires : t.list.Retires 0 l := hlinks.retires h.list
  have hperm := hlinks.live_perm h.list
  refine ⟨?_, rfl, hretires⟩
  refine h.of_list ((h.toIntact.links hl hlinks).with_size _) (hretires.accounted h.accounted)
    (fun {i} hm => ?_) (fun {i k} hi => ?_) ?_ ?_
  · rw [hlinks.marked_eq] at hm
    exact h.deleted_later (h.list.evolves hlinks.evolves).2 hm
  · -- the new node holds no sentinel
    rcases hlinks.holds_iff.mp hi with hi | ⟨-, hpair⟩
    · exact hi
    · cases hpair
  · rw [hperm.countP_eq]
    exact List.countP_cons_of_neg (by simp [Entry.ofPair, Entry.isSentinel])
  · rw [hperm.countP_eq, List.countP_cons_of_pos (by rfl), ← h.size_eq, UInt64.toNat_add,
      UInt64.toNat_one, Nat.mod_eq_of_lt hsize]

/-- A pair that is deleted and counted off. -/
theorem Tidy.deletesPair (h : t.Tidy) {e : Entry κ ν}
    (hdel : t.list.Deletes (KeyProbe.ofKey (t.hash key) key).toProbe e i l) :
    t.Retires 1 { t with list := l, size := t.size - 1 } := by
  have hmono := KeyProbe.monotone_toProbe (ν := ν) (t.hash key) key
  have hl : l.Sound := (h.list.evolves hdel.evolves).1
  have hends : t.list.DeletionEnds (KeyProbe.ofKey (t.hash key) key).toProbe (some e) l := ⟨i, hdel⟩
  have hretires : t.list.Retires 1 l := hends.retires h.list
  have hlater : t.list.Later l := (h.list.evolves hdel.evolves).2
  have hperm := hdel.live_perm h.list
  -- the search stopped at a pair
  obtain ⟨key', value', rfl, -⟩ := KeyProbe.toProbe_eq_iff.mp hdel.sought
  refine ⟨?_, rfl, hretires⟩
  refine h.of_list ((h.toIntact.removes hl (hends.removes h.list hmono)).with_size _)
    (hretires.accounted h.accounted) (fun {j} hm => ?_)
    (fun hi => (hdel.holds_iff.mp hi).1) ?_ ?_
  · by_cases hj : j = i
    · -- the node that was deleted just now
      subst hj
      exact ⟨_, key', value', (hlater.element hdel.held.lt_size).trans hdel.held.1⟩
    · rw [hdel.marked_eq j hj] at hm
      exact h.deleted_later hlater hm
  · rw [hperm.countP_eq]
    exact (List.countP_cons_of_neg (by simp [Entry.isSentinel])).symm
  · have hcount := h.size_eq
    rw [hperm.countP_eq, List.countP_cons_of_pos (by rfl)] at hcount
    have hle : (1 : UInt64) ≤ t.size := by
      rw [UInt64.le_iff_toNat_le, UInt64.toNat_one]
      omega
    rw [UInt64.toNat_sub_of_le _ _ hle, UInt64.toNat_one]
    omega

omit [Std.TransOrd κ] in
/-- More buckets. -/
theorem Tidy.grows (h : t.Tidy) {c : UInt64} (hintact : { t with bucketCount := c }.Intact)
    (hle : t.bucketCount ≤ c) : t.Retires 0 { t with bucketCount := c } where
  tidy := {
    toIntact := hintact
    accounted := h.accounted
    deleted := h.deleted
    published := h.published
    rooted := h.rooted.mono hle
    sentinels_eq := h.sentinels_eq
    size_eq := h.size_eq }
  hash_eq := rfl
  list := SortedList.Retires.refl _

/-! ### Sentinels -/

section Sentinels

omit [Std.TransOrd κ]

/-- A node that is registered for a bucket other than 0 holds its sentinel. -/
theorem Intact.holds_of_installed (h : t.Intact) (hne : bucket ≠ 0)
    (hi : t.directory.installed? bucket = some i) : t.list.Holds i (.sentinelOf bucket) :=
  (guards_of_ne_zero hne).mp (h.registered hi)

/-- A sentinel on the list is registered for its own bucket. -/
theorem Tidy.installed_of_holds (h : t.Tidy) (hlt : bucket < Directory.capacity)
    (hi : t.list.Holds i (.sentinelOf bucket)) : t.directory.installed? bucket = some i := by
  obtain ⟨b, hne, hk, hb⟩ := h.published hi
  -- the place of a sentinel tells its bucket
  have heq : bucket = b :=
    ofBucket_injective (Directory.toNat_lt_of_lt_capacity hlt)
      (Directory.toNat_lt_of_lt_capacity (h.lt_capacity (h.rooted.within hb))) hk
  rw [heq, hb]

/-- Sentinels are never deleted. -/
theorem Tidy.holds_sentinel (h : t.Tidy) {k : OrderKey}
    (hi : (t.list.node i).element? = some (.sentinel k)) : t.list.Holds i (.sentinel k) := by
  refine ⟨hi, ?_⟩
  cases hm : (t.list.link i).marked with
  | false => rfl
  | true =>
    obtain ⟨k', key, value, hpair⟩ := h.deleted hm
    cases hi.symm.trans hpair

/-- What holds a sentinel is on the list for good. -/
theorem Tidy.kept (h : t.Tidy) {k : OrderKey}
    (hi : (t.list.node i).element? = some (.sentinel k)) :
    i ∈ t.list.linked ∧ (t.list.link i).marked = false ∧ i ∉ t.list.reclaimer.retired := by
  have hholds := h.holds_sentinel hi
  refine ⟨h.list.mem_linked hholds, hholds.2, fun hret => ?_⟩
  -- what is retired was deleted
  cases hholds.2.symm.trans (h.accounted.marked hret)

end Sentinels

/-- A sentinel that is linked and registered already. -/
theorem Tidy.findsSentinel (h : t.Tidy) {d : Directory NodeId} (htrims : t.list.Trims l)
    (hold : t.directory.installed? bucket = some i)
    (hinstalled : ∀ b, d.installed? b = if b = bucket then some i else t.directory.installed? b)
    (hintact : { t with list := l, directory := d }.Intact) :
    t.Retires 0 { t with list := l, directory := d } := by
  have htrimmed : t.Retires 0 { t with list := l } := h.trims htrims
  -- the directory answers what it answered
  have same : ∀ b, d.installed? b = t.directory.installed? b := by
    intro b
    rw [hinstalled]
    split
    · next hb => rw [hb, hold]
    · rfl
  refine ⟨⟨hintact, htrimmed.tidy.accounted, htrimmed.tidy.deleted, ?_, h.rooted.congr same,
    htrimmed.tidy.sentinels_eq, htrimmed.tidy.size_eq⟩, rfl, htrimmed.list⟩
  intro j k hj
  obtain ⟨b, hne, hk, hb⟩ := htrimmed.tidy.published hj
  exact ⟨b, hne, hk, (same b).trans hb⟩

/-- A new sentinel, linked, counted and registered. -/
theorem Tidy.addsSentinel (h : t.Tidy) {d : Directory NodeId} {parent : NodeId}
    (hne : bucket ≠ 0) (hlt : bucket < t.bucketCount)
    (hparent : t.directory.installed? (clearHighestBit bucket) = some parent)
    (hlinks : t.list.Links (.sentinelOf bucket) i l)
    (hinstalled : ∀ b, d.installed? b = if b = bucket then some i else t.directory.installed? b)
    (hintact : { t with list := l, directory := d, sentinels := t.sentinels + 1 }.Intact) :
    t.Retires 0 { t with list := l, directory := d, sentinels := t.sentinels + 1 } := by
  have hretires : t.list.Retires 0 l := hlinks.retires h.list
  have hperm := hlinks.live_perm h.list
  refine ⟨⟨hintact, hretires.accounted h.accounted, fun {j} hm => ?_, fun {j k} hj => ?_,
    h.rooted.install hlt hparent hinstalled, ?_, ?_⟩, rfl, hretires⟩
  · have hm : (l.link j).marked = true := hm
    rw [hlinks.marked_eq] at hm
    exact h.deleted_later (h.list.evolves hlinks.evolves).2 hm
  · rcases hlinks.holds_iff.mp hj with hj | ⟨rfl, hk⟩
    · -- a sentinel that was there stands in front of another bucket
      obtain ⟨b, hb, rfl, hinst⟩ := h.published hj
      refine ⟨b, hb, rfl, ?_⟩
      rw [hinstalled, if_neg, hinst]
      rintro rfl
      exact hlinks.fresh j _ hj Std.compare_self
    · refine ⟨bucket, hne, Entry.sentinel.inj hk, ?_⟩
      rw [hinstalled, if_pos rfl]
  · show t.sentinels + 1 = l.live.countP Entry.isSentinel
    rw [hperm.countP_eq, List.countP_cons_of_pos (by rfl), h.sentinels_eq]
  · show t.size.toNat = l.live.countP (!·.isSentinel)
    rw [hperm.countP_eq, h.size_eq]
    exact (List.countP_cons_of_neg (by simp [Entry.sentinelOf, Entry.isSentinel])).symm

/-- **A sentinel is linked and registered**, unless it is there. -/
theorem Tidy.linksSentinel (h : t.Tidy) {parent : NodeId} (hne : bucket ≠ 0)
    (hlt : bucket < t.bucketCount)
    (hparent : t.directory.installed? (clearHighestBit bucket) = some parent) :
    ∃ node t₁ winner t₂, t.linkSentinel parent bucket = .ok (node, t₁) ∧
      t₁.registerSentinel bucket node = .ok (winner, t₂) ∧ t.Retires 0 t₂ ∧
      t₂.bucketCount = t.bucketCount ∧ t₂.directory.installed? bucket = some winner := by
  have hcap : bucket < Directory.capacity := h.lt_capacity hlt
  have hguards := h.registered hparent
  -- both effects succeed and leave an intact table; what is to be shown is the rest
  obtain ⟨node, t₁, hlink, -, h₁, hguards₁, hdir₁⟩ := linkSentinel_spec h.toIntact hne hcap hguards
  obtain ⟨winner, t₂, hregister, -, h₂, -⟩ := registerSentinel_spec h₁ hcap hguards₁
  refine ⟨node, t₁, winner, t₂, hlink, hregister, ?_⟩
  obtain ⟨winner', d, hinstall, -, hwinner, hinstalled, -⟩ :=
    Directory.install_spec h₁.directory hcap node
  rw [registerSentinel, hinstall] at hregister
  cases hregister
  rw [hdir₁] at hwinner hinstalled
  have hself : d.installed? bucket = some winner := by
    rw [hinstalled, if_pos rfl]
  obtain ⟨ins, l, hins, hspec⟩ :=
    insertAfter_spec h.list (inFront_sentinelOf h.toIntact hne hcap hguards)
  rw [linkSentinel, hins] at hlink
  cases ins with
  | existing node =>
    cases hlink
    obtain ⟨htrims, e, he, heq⟩ := hspec
    obtain rfl : e = .sentinelOf bucket := Entry.compare_sentinelOf_eq_iff.mp heq
    -- the sentinel is there, so it is registered, and the directory stays
    have hold : t.directory.installed? bucket = some node := h.installed_of_holds hcap he
    rw [hold] at hwinner
    obtain rfl : winner = node := hwinner
    exact ⟨h.findsSentinel htrims hold hinstalled h₂, rfl, hself⟩
  | linked node =>
    cases hlink
    have hlinks : t.list.Links (.sentinelOf bucket) node l := hspec
    -- the sentinel was not there, so nothing is registered for its bucket
    have hnone : t.directory.installed? bucket = none := by
      cases hold : t.directory.installed? bucket with
      | none => rfl
      | some j => exact absurd Std.compare_self (hlinks.fresh j _ (h.holds_of_installed hne hold))
    rw [hnone] at hwinner
    obtain rfl : winner = node := hwinner
    exact ⟨h.addsSentinel hne hlt hparent hlinks hinstalled h₂, rfl, hself⟩

/-- **Obtaining a sentinel** leaves a tidy table in which it is registered. -/
theorem Tidy.sentinelWithin {g : Nat} (h : t.Tidy) (hlt : bucket < t.bucketCount)
    (hg : bucket.toNat < 2 ^ g) :
    ∃ node t', t.sentinelWithin (g + 1) bucket = .ok (node, t') ∧ t.Retires 0 t' ∧
      t'.bucketCount = t.bucketCount ∧ t'.directory.installed? bucket = some node := by
  -- on the bits of the bucket: the parent has one bit less, and bucket 0 has a sentinel
  induction g generalizing bucket with
  | zero =>
    obtain rfl : bucket = 0 := UInt64.toNat_inj.mp (Nat.lt_one_iff.mp hg)
    rw [Table.sentinelWithin, Directory.get_eq h.directory (h.lt_capacity hlt), h.root]
    exact ⟨head, t, rfl, h.refl, rfl, h.root⟩
  | succ g ih =>
    rw [Table.sentinelWithin, Directory.get_eq h.directory (h.lt_capacity hlt), Checked.ok_bind]
    cases hold : t.directory.installed? bucket with
    | some node => exact ⟨node, t, rfl, h.refl, rfl, hold⟩
    | none =>
      have hne : bucket ≠ 0 := by
        rintro rfl
        rw [h.root] at hold
        cases hold
      have hbelow : clearHighestBit bucket < t.bucketCount :=
        UInt64.lt_trans (clearHighestBit_lt_self hne) hlt
      -- first the parent, then the sentinel behind it
      obtain ⟨parent, t₁, hparent, hretires₁, hcount₁, hinstalled₁⟩ :=
        ih hbelow (clearHighestBit_lt hne hg)
      obtain ⟨node, t₂, winner, t₃, hlink, hregister, hretires₃, hcount₃, hinstalled₃⟩ :=
        hretires₁.tidy.linksSentinel hne (by rw [hcount₁]; exact hlt) hinstalled₁
      refine ⟨winner, t₃, ?_, hretires₁.trans hretires₃, hcount₃.trans hcount₁, hinstalled₃⟩
      simp only [Bucket.parent_of_ne_zero hne, hparent, hlink, Checked.ok_bind]
      exact hregister

/-- **The start of an operation.** -/
theorem Tidy.sentinelOfHash (h : t.Tidy) (hash : UInt64) :
    ∃ node t', t.sentinelOfHash hash = .ok (node, t') ∧ t.Retires 0 t' ∧
      ∀ key : κ, t'.list.InFront (KeyProbe.ofKey hash key).toProbe node := by
  obtain ⟨hbucket, hlt⟩ := bucketOf_spec h.toIntact hash
  obtain ⟨node, t', hsentinel, hretires, -, hinstalled⟩ :=
    h.sentinelWithin (g := 64) hlt (UInt64.toNat_lt _)
  refine ⟨node, t', ?_, hretires, fun key => ?_⟩
  · rw [Table.sentinelOfHash, hbucket, Checked.ok_bind]
    exact hsentinel
  · have hguards := hretires.tidy.registered hinstalled
    exact hguards.inFront hretires.tidy.list (KeyProbe.toProbe_sentinelOf hash _ key)

/-! ### Operations -/

theorem Tidy.lookup (h : t.Tidy) {found : Option NodeId} (hop : t.lookup key = .ok (found, t')) :
    t.Retires 0 t' := by
  obtain ⟨start, t₁, hstart, hretires, hfront⟩ := h.sentinelOfHash (t.hash key)
  obtain ⟨found', l, hlook, htrims, -⟩ :=
    lookupAfter_spec hretires.tidy.list (hfront key) (KeyProbe.monotone_toProbe _ _)
  rw [Table.lookup_eq, hstart] at hop
  simp only [Checked.ok_bind, hlook] at hop
  cases hop
  exact hretires.trans (hretires.tidy.trims htrims)

theorem Tidy.insert (h : t.Tidy) {b : Bool} (hop : t.insert key value = .ok (b, t')) :
    t.Retires 0 t' := by
  obtain ⟨start, t₁, hstart, hretires, hfront⟩ := h.sentinelOfHash (t.hash key)
  have h₁ : t₁.Tidy := hretires.tidy
  have hfront := hfront key
  rw [← KeyProbe.ofElement_ofPair _ _ value] at hfront
  obtain ⟨ins, l, hins, hspec⟩ := insertAfter_spec h₁.list hfront
  rw [Table.insert] at hop
  simp only [hstart, Checked.ok_bind, hins] at hop
  cases ins with
  | existing i =>
    cases hop
    exact hretires.trans (h₁.trims hspec.1)
  | linked i =>
    have hlinks : t₁.list.Links (.ofPair (t₁.hash key) key value) i l := by
      rw [hretires.hash_eq]
      exact hspec
    obtain ⟨⟨size, t₂⟩, hcount, hop⟩ := Checked.bind_eq_ok.mp hop
    obtain ⟨t₃, hdouble, hop⟩ := Checked.bind_eq_ok.mp hop
    cases hop
    -- an entry that is counted without a fault is counted right
    rw [countInsertion_eq] at hcount
    split at hcount
    · next hfits =>
      cases hcount
      have hlinked := h₁.linksPair hlinks hfits
      have hle := bucketCount_le_of_doubleIfFull hdouble
      obtain ⟨c, hc, hgrown⟩ := doubleIfFull_spec hlinked.tidy.toIntact (t₁.size + 1)
      cases hc.symm.trans hdouble
      exact (hretires.trans hlinked).trans (hlinked.tidy.grows hgrown hle)
    · cases hcount

theorem Tidy.removeEntry (h : t.Tidy) {entry : Option (Entry κ ν)}
    (hop : t.removeEntry key = .ok (entry, t')) :
    t.Retires entry.isSome.toNat t' ∧ ∀ e, entry = some e → e.isSentinel = false := by
  obtain ⟨start, t₁, hstart, hretires, hfront⟩ := h.sentinelOfHash (t.hash key)
  have h₁ : t₁.Tidy := hretires.tidy
  obtain ⟨removed, l, hdel, hends⟩ :=
    deleteAfter_spec h₁.list (hfront key) (KeyProbe.monotone_toProbe (t.hash key) key)
  rw [Table.removeEntry_eq] at hop
  simp only [hstart, Checked.ok_bind, hdel] at hop
  cases removed with
  | none =>
    cases hop
    refine ⟨hretires.trans (h₁.trims hends.1), fun e he => ?_⟩
    cases he
  | some e =>
    cases hop
    obtain ⟨i, hdeletes⟩ := hends
    -- the search stopped at a pair
    obtain ⟨key', value', rfl, -⟩ := KeyProbe.toProbe_eq_iff.mp hdeletes.sought
    rw [← hretires.hash_eq] at hdeletes
    refine ⟨?_, fun e he => ?_⟩
    · have hdeleted := hretires.trans (h₁.deletesPair hdeletes)
      rw [Nat.zero_add] at hdeleted
      exact hdeleted
    · cases he
      rfl

theorem Tidy.remove (h : t.Tidy) {v : Option ν} (hop : t.remove key = .ok (v, t')) :
    t.Retires v.isSome.toNat t' := by
  obtain ⟨⟨entry, t₁⟩, hrem, hop⟩ := Checked.bind_eq_ok.mp hop
  cases hop
  obtain ⟨hretires, hpair⟩ := h.removeEntry hrem
  cases entry with
  | none => exact hretires
  | some e =>
    -- a pair has a value
    cases e with
    | sentinel k => cases hpair _ rfl
    | pair k key' value' => exact hretires

theorem Tidy.delete (h : t.Tidy) {b : Bool} (hop : t.delete key = .ok (b, t')) :
    t.Retires b.toNat t' := by
  obtain ⟨⟨entry, t₁⟩, hrem, hop⟩ := Checked.bind_eq_ok.mp hop
  cases hop
  exact (h.removeEntry hrem).1

/-- **Every operation leaves a tidy table**, and retires one node if it deletes a key. -/
theorem tracks_retires : Tracks fun (t : Table κ ν) n t' => t.Tidy → t.Retires n t' where
  refl := fun _ h => h.refl
  trans := fun hm hn h => (hm h).trans (hn (hm h).tidy)
  insert := fun hop h => h.insert hop
  remove := fun hop h => h.remove hop
  delete := fun hop h => h.delete hop
  lookup := fun hop h => h.lookup hop

end Table

end SplitOrder
