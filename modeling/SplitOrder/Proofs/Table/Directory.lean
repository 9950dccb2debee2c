import Mathlib.Algebra.Group.Nat.Defs
import SplitOrder.Proofs.Checked
import SplitOrder.Table.Directory

/-!
# The directory as a partial function

Segments and offsets are an address scheme and nothing else: a directory is a function from buckets
to the nodes installed for them, `Directory.installed?`. No two buckets share a slot
(`Slot.ofBucket_injective`), every bucket within the capacity has one (`segment_lt`, `offset_lt`),
and to allocate a segment is nothing to those who look (`installed?_setSegment`), so `get_eq` and
`install_spec` are all that is needed of the operations.
-/

namespace SplitOrder

/-! ### Slots -/

theorem Slot.ofBucket_of_lt {bucket : Bucket} (h : bucket.toNat < 64) :
    Slot.ofBucket bucket = ⟨0, bucket.toNat⟩ :=
  if_pos (UInt64.lt_iff_toNat_lt.mpr h)

theorem Slot.ofBucket_of_le {bucket : Bucket} (h : 64 ≤ bucket.toNat) :
    Slot.ofBucket bucket =
      ⟨bucket.toNat.log2 - 5, bucket.toNat - 2 ^ bucket.toNat.log2⟩ :=
  if_neg fun hlt => Nat.not_lt_of_le h (UInt64.lt_iff_toNat_lt.mp hlt)

theorem six_le_log2 {n : Nat} (h : 64 ≤ n) : 6 ≤ n.log2 :=
  (Nat.le_log2 (by omega)).mpr h

/-- No two buckets share a slot. -/
theorem Slot.ofBucket_injective {a b : Bucket} (h : Slot.ofBucket a = Slot.ofBucket b) : a = b := by
  refine UInt64.toNat_inj.mp ?_
  rcases Nat.lt_or_ge a.toNat 64 with ha | ha <;> rcases Nat.lt_or_ge b.toNat 64 with hb | hb
  · rw [ofBucket_of_lt ha, ofBucket_of_lt hb] at h
    exact (Slot.mk.inj h).2
  · rw [ofBucket_of_lt ha, ofBucket_of_le hb] at h
    have := (Slot.mk.inj h).1
    have := six_le_log2 hb
    omega
  · rw [ofBucket_of_le ha, ofBucket_of_lt hb] at h
    have := (Slot.mk.inj h).1
    have := six_le_log2 ha
    omega
  · rw [ofBucket_of_le ha, ofBucket_of_le hb] at h
    obtain ⟨hsegment, hoffset⟩ := Slot.mk.inj h
    have hlog : a.toNat.log2 = b.toNat.log2 := by
      have := six_le_log2 ha
      have := six_le_log2 hb
      omega
    -- above the same power of two, by the same amount
    have hale : 2 ^ a.toNat.log2 ≤ a.toNat := Nat.log2_self_le (by omega)
    have hble : 2 ^ b.toNat.log2 ≤ b.toNat := Nat.log2_self_le (by omega)
    rw [hlog] at hale hoffset
    omega

namespace Directory

theorem segment_lt {bucket : Bucket} (h : bucket < capacity) :
    (Slot.ofBucket bucket).segment < segmentCount := by
  have h : bucket.toNat < 2 ^ 32 := UInt64.lt_iff_toNat_lt.mp h
  rcases Nat.lt_or_ge bucket.toNat 64 with hlt | hge
  · rw [Slot.ofBucket_of_lt hlt]
    show 0 < 27
    decide
  · have hlog : bucket.toNat.log2 < 32 := (Nat.log2_lt (by omega)).mpr h
    rw [Slot.ofBucket_of_le hge]
    show bucket.toNat.log2 - 5 < 27
    omega

/-- The highest bit of a bucket within the capacity is clear. -/
theorem toNat_lt_of_lt_capacity {bucket : Bucket} (h : bucket < capacity) :
    bucket.toNat < 2 ^ 63 :=
  Nat.lt_trans (UInt64.lt_iff_toNat_lt.mp h) (by decide)

theorem offset_lt (bucket : Bucket) :
    (Slot.ofBucket bucket).offset < Segment.length (Slot.ofBucket bucket).segment := by
  rcases Nat.lt_or_ge bucket.toNat 64 with hlt | hge
  · rw [Slot.ofBucket_of_lt hlt]
    exact hlt
  · obtain ⟨s, hs⟩ : ∃ s, bucket.toNat.log2 = s + 6 := ⟨_, (Nat.sub_add_cancel (six_le_log2 hge)).symm⟩
    have hlt : bucket.toNat < 2 ^ (bucket.toNat.log2 + 1) := Nat.lt_log2_self
    rw [Slot.ofBucket_of_le hge]
    show bucket.toNat - 2 ^ bucket.toNat.log2 < Segment.length (bucket.toNat.log2 - 5)
    rw [hs] at hlt ⊢
    -- both halves of the range of the highest bit are equally long
    show bucket.toNat - 2 ^ (s + 6) < 64 * 2 ^ s
    have hpow : 2 ^ (s + 6) = 64 * 2 ^ s := by rw [Nat.pow_add]; omega
    rw [Nat.pow_succ, hpow] at hlt
    omega

/-! ### Operations -/

variable {ι : Type}

/-- There is a place for each segment. -/
def WellFormed (d : Directory ι) : Prop :=
  d.segments.size = segmentCount

/-- The segment with an index, if it is allocated. -/
def segment? (d : Directory ι) (i : Nat) : Option (Segment ι) :=
  d.segments[i]?.join

/-- The node installed for a bucket. -/
def installed? (d : Directory ι) (bucket : Bucket) : Option ι :=
  (d.segment? (Slot.ofBucket bucket).segment).bind fun s => s[(Slot.ofBucket bucket).offset]?

theorem wellFormed_empty : (∅ : Directory ι).WellFormed :=
  Array.size_replicate

/-- A new directory has no segments. -/
theorem segment?_empty (i : Nat) : (∅ : Directory ι).segment? i = none := by
  show ((Array.replicate segmentCount (none : Option (Segment ι)))[i]?).join = none
  rw [Array.getElem?_replicate]
  split <;> rfl

theorem installed?_empty (bucket : Bucket) : (∅ : Directory ι).installed? bucket = none := by
  rw [installed?, segment?_empty, Option.bind_none]

variable {d : Directory ι} {bucket : Bucket}

/-! ### Segments -/

theorem slot_eq (hb : bucket < capacity) : slot bucket = .ok (.ofBucket bucket) :=
  if_pos hb

/-- Every bucket within the capacity lies in a segment, allocated or not. -/
theorem segment_eq (hd : d.WellFormed) (hb : bucket < capacity) :
    d.segment (.ofBucket bucket) = .ok (d.segment? (Slot.ofBucket bucket).segment) := by
  have hlt : (Slot.ofBucket bucket).segment < d.segments.size := by
    rw [hd]
    exact segment_lt hb
  rw [segment, segment?, Array.getElem?_eq_getElem hlt]
  exact if_pos (offset_lt bucket)

theorem WellFormed.setSegment (hd : d.WellFormed) (i : Nat) (s : Segment ι) :
    (d.setSegment i s).WellFormed := by
  rw [WellFormed, Directory.setSegment, Array.size_setIfInBounds]
  exact hd

theorem segment?_setSegment (hd : d.WellFormed) {i : Nat} (hi : i < segmentCount)
    (s : Segment ι) (j : Nat) :
    (d.setSegment i s).segment? j = if i = j then some s else d.segment? j := by
  have hsize : i < d.segments.size := by
    rw [hd]
    exact hi
  rw [segment?, setSegment, Array.getElem?_setIfInBounds]
  by_cases hij : i = j
  · rw [if_pos hij, if_pos hij, if_pos hsize]
    rfl
  · rw [if_neg hij, if_neg hij, segment?]

theorem installed?_eq_of_segment? {s : Segment ι}
    (hs : d.segment? (Slot.ofBucket bucket).segment = some s) :
    d.installed? bucket = s[(Slot.ofBucket bucket).offset]? := by
  rw [installed?, hs, Option.bind_some]

/-- To put a segment in place is to write its slots. -/
theorem installed?_setSegment (hd : d.WellFormed) {i : Nat} (hi : i < segmentCount)
    (s : Segment ι) (b : Bucket) :
    (d.setSegment i s).installed? b =
      if i = (Slot.ofBucket b).segment then s[(Slot.ofBucket b).offset]? else d.installed? b := by
  rw [installed?, segment?_setSegment hd hi]
  split
  · rfl
  · rfl

/-- The second directory has the segments of the first and that of the bucket. -/
def Allocates (d : Directory ι) (bucket : Bucket) (d' : Directory ι) : Prop :=
  ∀ i, (d'.segment? i).isSome ↔ (Slot.ofBucket bucket).segment = i ∨ (d.segment? i).isSome

theorem Allocates.setSegment {d' : Directory ι} (h : d.Allocates bucket d') (hd' : d'.WellFormed)
    (hb : bucket < capacity) (s : Segment ι) :
    d.Allocates bucket (d'.setSegment (Slot.ofBucket bucket).segment s) := by
  intro i
  rw [segment?_setSegment hd' (segment_lt hb)]
  split
  · next hi => exact ⟨fun _ => .inl hi, fun _ => rfl⟩
  · exact h i

/-- **To allocate a segment is nothing to those who look.** -/
theorem ensureSegment_spec (hd : d.WellFormed) (hb : bucket < capacity) :
    ∃ s d', d.ensureSegment (.ofBucket bucket) = .ok (s, d') ∧ d'.WellFormed ∧
      d'.segment? (Slot.ofBucket bucket).segment = some s ∧
      (∀ b, d'.installed? b = d.installed? b) ∧ d.Allocates bucket d' := by
  rw [ensureSegment, segment_eq hd hb, Checked.ok_bind]
  cases hold : d.segment? (Slot.ofBucket bucket).segment with
  | some s =>
    refine ⟨s, d, rfl, hd, hold, fun _ => rfl, fun i => ⟨.inr, ?_⟩⟩
    rintro (rfl | hi)
    · rw [hold]
      rfl
    · exact hi
  | none =>
    refine ⟨∅, _, rfl, hd.setSegment _ _, ?_, fun b => ?_, fun i => ?_⟩
    · rw [segment?_setSegment hd (segment_lt hb), if_pos rfl]
    · rw [installed?_setSegment hd (segment_lt hb)]
      split
      · -- an absent segment shows what an empty one shows
        next hsame =>
        rw [installed?, ← hsame, hold, Std.TreeMap.getElem?_emptyc, Option.bind_none]
      · rfl
    · rw [segment?_setSegment hd (segment_lt hb)]
      split
      · next hi => exact ⟨fun _ => .inl hi, fun _ => rfl⟩
      · next hi => exact (or_iff_right hi).symm

/-! ### Looking and installing -/

theorem get_eq (hd : d.WellFormed) (hb : bucket < capacity) :
    d.get bucket = .ok (d.installed? bucket) := by
  rw [get, slot_eq hb, Checked.ok_bind, segment_eq hd hb, Checked.ok_bind, installed?]
  cases d.segment? (Slot.ofBucket bucket).segment <;> rfl

/-- A bucket for which a node is answered is within the capacity. -/
theorem get_eq_ok_some_iff (hd : d.WellFormed) {node : ι} :
    d.get bucket = .ok (some node) ↔ bucket < capacity ∧ d.installed? bucket = some node := by
  by_cases hb : bucket < capacity
  · rw [get_eq hd hb, Except.ok.injEq, and_iff_right hb]
  · have hslot : slot bucket = .error .indexBeyondDirectory := if_neg hb
    rw [get, hslot, Checked.error_bind]
    exact ⟨fun h => (nomatch h), fun h => absurd h.1 hb⟩

/-- Slots are told apart by their buckets: to insert a node in the segment of its bucket writes
that bucket only. -/
theorem installed?_setSegment_insert (hd : d.WellFormed) (hb : bucket < capacity) {s : Segment ι}
    (hs : d.segment? (Slot.ofBucket bucket).segment = some s) (node : ι) (b : Bucket) :
    (d.setSegment (Slot.ofBucket bucket).segment
        (s.insert (Slot.ofBucket bucket).offset node)).installed? b =
      if b = bucket then some node else d.installed? b := by
  rw [installed?_setSegment hd (segment_lt hb)]
  by_cases hsame : (Slot.ofBucket bucket).segment = (Slot.ofBucket b).segment
  · rw [if_pos hsame, Std.TreeMap.getElem?_insert]
    by_cases hoffset : (Slot.ofBucket bucket).offset = (Slot.ofBucket b).offset
    · rw [if_pos (Std.LawfulEqCmp.compare_eq_iff_eq.mpr hoffset),
        if_pos (Slot.ofBucket_injective (Slot.ext hsame.symm hoffset.symm))]
    · have hne : b ≠ bucket := by
        rintro rfl
        exact hoffset rfl
      rw [if_neg fun heq => hoffset (Std.LawfulEqCmp.compare_eq_iff_eq.mp heq), if_neg hne,
        installed?_eq_of_segment? (hsame ▸ hs)]
  · have hne : b ≠ bucket := by
      rintro rfl
      exact hsame rfl
    rw [if_neg hsame, if_neg hne]

/-- **The first node installed stays.** -/
theorem install_spec (hd : d.WellFormed) (hb : bucket < capacity) (node : ι) :
    ∃ winner d', d.install bucket node = .ok (winner, d') ∧ d'.WellFormed ∧
      winner = (d.installed? bucket).getD node ∧
      (∀ b, d'.installed? b = if b = bucket then some winner else d.installed? b) ∧
      d.Allocates bucket d' := by
  obtain ⟨s, d₁, hensure, hd₁, hs, hsame, hallocates⟩ := ensureSegment_spec hd hb
  have hslot := (installed?_eq_of_segment? hs).symm.trans (hsame bucket)
  rw [install, slot_eq hb, Checked.ok_bind, hensure, Checked.ok_bind]
  simp only [hslot]
  cases hold : d.installed? bucket with
  | some winner =>
    refine ⟨winner, d₁, rfl, hd₁, rfl, fun b => ?_, hallocates⟩
    rw [hsame]
    split
    · next hb => rw [hb, hold]
    · rfl
  | none =>
    refine ⟨node, _, rfl, hd₁.setSegment _ _, rfl, fun b => ?_, hallocates.setSegment hd₁ hb _⟩
    rw [installed?_setSegment_insert hd₁ hb hs, hsame]

/-- The same for an offer, which may be one of no node and leaves the slot as it is then. -/
theorem offer_spec (hd : d.WellFormed) (hb : bucket < capacity) (node : Option ι) :
    ∃ d', d.offer bucket node = .ok ((d.installed? bucket).or node, d') ∧ d'.WellFormed ∧
      (∀ b, d'.installed? b =
        if b = bucket then (d.installed? bucket).or node else d.installed? b) ∧
      d.Allocates bucket d' := by
  cases node with
  | none =>
    obtain ⟨s, d', hensure, hd', hs, hsame, hallocates⟩ := ensureSegment_spec hd hb
    have hslot := (installed?_eq_of_segment? hs).symm.trans (hsame bucket)
    rw [Option.or_none]
    refine ⟨d', ?_, hd', fun b => ?_, hallocates⟩
    · rw [offer, slot_eq hb, Checked.ok_bind, hensure, ← hslot]
      rfl
    · rw [hsame]
      split
      · next hb => rw [hb]
      · rfl
  | some node =>
    obtain ⟨winner, d', hinstall, hd', hwinner, hinstalled, hallocates⟩ := install_spec hd hb node
    have hstored : (d.installed? bucket).or (some node) = some winner := by
      rw [hwinner]
      cases d.installed? bucket <;> rfl
    rw [hstored]
    refine ⟨d', ?_, hd', hinstalled, hallocates⟩
    rw [offer, hinstall]
    rfl

/-! ### Parents -/

/-- Only the buckets below `n` have nodes, and with a bucket its parent has one. -/
structure Rooted (d : Directory ι) (n : UInt64) : Prop where
  within : ∀ {bucket node}, d.installed? bucket = some node → bucket < n
  parent : ∀ {bucket node}, bucket ≠ 0 → d.installed? bucket = some node →
    ∃ above, d.installed? (clearHighestBit bucket) = some above

/-- A directory stays rooted when a node is installed for a bucket whose parent has one. -/
theorem Rooted.install {d' : Directory ι} {n : UInt64} {node above : ι} (h : d.Rooted n)
    (hlt : bucket < n) (hparent : d.installed? (clearHighestBit bucket) = some above)
    (hinstalled : ∀ b, d'.installed? b = if b = bucket then some node else d.installed? b) :
    d'.Rooted n := by
  -- a bucket that had a node still has one
  have hkept : ∀ {b other}, d.installed? b = some other → ∃ other', d'.installed? b = some other' := by
    intro b other hother
    rw [hinstalled]
    split
    · exact ⟨node, rfl⟩
    · exact ⟨other, hother⟩
  constructor
  · intro b other hother
    rw [hinstalled] at hother
    split at hother
    · next hb => rw [hb]; exact hlt
    · exact h.within hother
  · intro b other hne hother
    rw [hinstalled] at hother
    split at hother
    · next hb => rw [hb]; exact hkept hparent
    · obtain ⟨above', habove⟩ := h.parent hne hother
      exact hkept habove

theorem Rooted.mono {m n : UInt64} (h : d.Rooted m) (hle : m ≤ n) : d.Rooted n where
  within := fun hnode => UInt64.lt_of_lt_of_le (h.within hnode) hle
  parent := h.parent

theorem Rooted.congr {d' : Directory ι} {n : UInt64} (h : d.Rooted n)
    (same : ∀ b, d'.installed? b = d.installed? b) : d'.Rooted n where
  within := by
    intro b node hnode
    rw [same] at hnode
    exact h.within hnode
  parent := by
    intro b node hne hnode
    rw [same] at hnode ⊢
    exact h.parent hne hnode

end Directory

end SplitOrder
