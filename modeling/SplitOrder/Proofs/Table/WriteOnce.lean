import Mathlib.Data.Set.Function
import SplitOrder.Proofs.Table.Directory

/-!
# A directory is written once

A directory answers as an array with a place for each bucket below its capacity, where what is
written first at a place stays there. The array is given by its history, `firstOffered`: no state
is needed to say what is stored.

* `Slot.bijOn_ofBucket` — buckets within the capacity and slots within the segments correspond.
* `Directory.Records` — the invariant: what is installed was offered first.
* `Directory.Records.turn` — one request: the answer is as the history has it, and the history goes
  on. Hence any run (`Records.run_eq`).
* `Directory.allocated_on_first_touch` — a segment is there once something was offered for a bucket
  of it, and no answer shows which segments are.
-/

namespace SplitOrder

/-! ### Every slot has a bucket -/

/-- The lowest index in a segment. -/
def Segment.start : Nat → Nat
  | 0 => 0
  | segment + 1 => 64 * 2 ^ segment

theorem Segment.start_add_length_le {segment : Nat} (h : segment < Directory.segmentCount) :
    Segment.start segment + Segment.length segment ≤ 2 ^ 32 := by
  cases segment with
  | zero => decide
  | succ s =>
    have hle : s ≤ 25 := Nat.le_of_lt_succ (Nat.lt_of_succ_lt_succ h)
    calc 64 * 2 ^ s + 64 * 2 ^ s
        _ = 128 * 2 ^ s := by rw [← Nat.add_mul]
        _ ≤ 128 * 2 ^ 25 := Nat.mul_le_mul_left 128 (Nat.pow_le_pow_right (by decide) hle)
        _ = 2 ^ 32 := by decide

/-- The indices of a segment are those from its start on, and there are as many as it is long. -/
theorem Slot.ofBucket_eq_of_toNat {bucket : Bucket} {s : Slot}
    (hoffset : s.offset < Segment.length s.segment)
    (h : bucket.toNat = Segment.start s.segment + s.offset) : Slot.ofBucket bucket = s := by
  obtain ⟨segment, offset⟩ := s
  cases segment with
  | zero =>
    have h : bucket.toNat = offset := h.trans (Nat.zero_add offset)
    have hlt : bucket.toNat < 64 := h ▸ hoffset
    rw [ofBucket_of_lt hlt, h]
  | succ s =>
    have hoffset : offset < 64 * 2 ^ s := hoffset
    have h : bucket.toNat = 64 * 2 ^ s + offset := h
    have hpow : 2 ^ (s + 6) = 64 * 2 ^ s := by rw [Nat.pow_add, Nat.mul_comm]
    have hle : 64 * 2 ^ 0 ≤ 64 * 2 ^ s :=
      Nat.mul_le_mul_left 64 (Nat.pow_le_pow_right (by decide) (Nat.zero_le s))
    -- the highest bit of the index is that of the start
    have hlog : bucket.toNat.log2 = s + 6 := by
      refine (Nat.log2_eq_iff (by omega)).mpr ⟨?_, ?_⟩
      · rw [hpow]
        omega
      · rw [Nat.pow_succ, hpow]
        omega
    rw [ofBucket_of_le (by omega), hlog, h, hpow, Nat.add_sub_cancel_left]
    rfl

/-- **Buckets within the capacity correspond one to one to the slots of the segments.** -/
theorem Slot.bijOn_ofBucket :
    Set.BijOn Slot.ofBucket {b | b < Directory.capacity}
      {s | s.segment < Directory.segmentCount ∧ s.offset < Segment.length s.segment} := by
  refine ⟨fun b hb => ⟨Directory.segment_lt hb, Directory.offset_lt b⟩,
    fun a _ b _ h => Slot.ofBucket_injective h, ?_⟩
  rintro s ⟨hsegment, hoffset⟩
  have hlt : Segment.start s.segment + s.offset < 2 ^ 32 :=
    Nat.lt_of_lt_of_le (Nat.add_lt_add_left hoffset _) (Segment.start_add_length_le hsegment)
  have hnat : (UInt64.ofNat (Segment.start s.segment + s.offset)).toNat =
      Segment.start s.segment + s.offset :=
    UInt64.toNat_ofNat_of_lt (Nat.lt_trans hlt (by decide))
  refine ⟨UInt64.ofNat (Segment.start s.segment + s.offset), ?_, ofBucket_eq_of_toNat hoffset hnat⟩
  show _ < Directory.capacity
  rw [UInt64.lt_iff_toNat_lt, hnat]
  exact hlt

namespace Directory

variable {ι : Type}

/-! ### An array that is written once -/

namespace Request

/-- The bucket that a request is about. -/
def bucket : Request ι → Bucket
  | get bucket => bucket
  | offer bucket _ => bucket

/-- The node that a request offers for a bucket. -/
def offers? (bucket : Bucket) : Request ι → Option ι
  | get _ => none
  | offer b node => if b = bucket then node else none

end Request

/-- The first node that was offered for a bucket. The absence of a node is no offer. -/
def firstOffered (past : List (Request ι)) (bucket : Bucket) : Option ι :=
  past.findSome? (·.offers? bucket)

/-- The answer of an array that is written once. An offer is answered with what is stored after
it. -/
def Request.answerAfter (past : List (Request ι)) : Request ι → Checked (Option ι)
  | get bucket =>
    if bucket < capacity then .ok (firstOffered past bucket) else .error .indexBeyondDirectory
  | offer bucket node =>
    if bucket < capacity then .ok ((firstOffered past bucket).or node)
    else .error .indexBeyondDirectory

/-- The answers of an array that is written once, each by what was asked before. -/
def answers (past : List (Request ι)) : List (Request ι) → List (Checked (Option ι))
  | [] => []
  | r :: rs => r.answerAfter past :: answers (past ++ [r]) rs

variable {past : List (Request ι)} {bucket : Bucket}

theorem firstOffered_append (past : List (Request ι)) (r : Request ι) (bucket : Bucket) :
    firstOffered (past ++ [r]) bucket = (firstOffered past bucket).or (r.offers? bucket) := by
  rw [firstOffered, List.findSome?_append, List.findSome?_singleton]
  rfl

/-! ### The directory and the array -/

/-- What a request comes to: the answer, and the directory after it. -/
def turn (d : Directory ι) (r : Request ι) : Checked (Option ι) × Directory ι :=
  match d.handle r with
  | .ok (node, d') => (.ok node, d')
  | .error fault => (.error fault, d)

/-- What is installed was offered first. -/
structure Records (d : Directory ι) (past : List (Request ι)) : Prop where
  wellFormed : d.WellFormed
  installed?_eq : ∀ b < capacity, d.installed? b = firstOffered past b

variable {d : Directory ι} {r : Request ι}

theorem run_cons (d : Directory ι) (r : Request ι) (rs : List (Request ι)) :
    d.run (r :: rs) = (d.turn r).1 :: (d.turn r).2.run rs := by
  rw [run, turn]
  cases d.handle r <;> rfl

theorem turn_of_ok {node : Option ι} {d' : Directory ι} (h : d.handle r = .ok (node, d')) :
    d.turn r = (.ok node, d') := by
  rw [turn, h]

/-- A bucket beyond the directory is a fault. -/
theorem handle_of_beyond (d : Directory ι) (h : ¬ r.bucket < capacity) :
    d.handle r = .error .indexBeyondDirectory := by
  cases r with
  | get bucket =>
    have hslot : slot bucket = .error .indexBeyondDirectory := if_neg h
    rw [handle, get, hslot]
    rfl
  | offer bucket node =>
    have hslot : slot bucket = .error .indexBeyondDirectory := if_neg h
    cases node with
    | none => rw [handle, offer, hslot, Checked.error_bind]
    | some node =>
      rw [handle, offer, install, hslot]
      rfl

theorem turn_of_beyond (d : Directory ι) (h : ¬ r.bucket < capacity) :
    d.turn r = (.error .indexBeyondDirectory, d) := by
  rw [turn, handle_of_beyond d h]

theorem run_of_beyond (d : Directory ι) (h : ¬ r.bucket < capacity) (rs : List (Request ι)) :
    d.run (r :: rs) = .error .indexBeyondDirectory :: d.run rs := by
  rw [run_cons, turn_of_beyond d h]

namespace Records

theorem empty : (∅ : Directory ι).Records [] :=
  ⟨wellFormed_empty, fun b _ => installed?_empty b⟩

/-- A request that offers nothing for a bucket within the capacity changes nothing. -/
theorem of_offers?_eq_none (h : d.Records past)
    (hnone : ∀ b < capacity, r.offers? b = none) : d.Records (past ++ [r]) where
  wellFormed := h.wellFormed
  installed?_eq := by
    intro b hb
    rw [firstOffered_append, hnone b hb, Option.or_none, h.installed?_eq b hb]

/-- What is stored after an offer is what was stored before it, or else the offer. -/
theorem turn_offer (h : d.Records past) (hb : bucket < capacity) (node : Option ι) :
    (d.turn (.offer bucket node)).1 = .ok ((firstOffered past bucket).or node) ∧
      (d.turn (.offer bucket node)).2.Records (past ++ [.offer bucket node]) := by
  obtain ⟨d', hoffer, hd', hinstalled, -⟩ := offer_spec h.wellFormed hb node
  rw [h.installed?_eq bucket hb] at hoffer hinstalled
  have hturn : d.turn (.offer bucket node) = (.ok ((firstOffered past bucket).or node), d') :=
    turn_of_ok hoffer
  rw [hturn]
  refine ⟨rfl, hd', fun b hlt => ?_⟩
  rw [hinstalled, firstOffered_append, Request.offers?]
  -- only the place of the bucket is written
  by_cases heq : b = bucket
  · rw [if_pos heq, if_pos heq.symm, heq]
  · rw [if_neg heq, if_neg (Ne.symm heq), Option.or_none, h.installed?_eq b hlt]

/-- **Step lemma.** -/
theorem turn (h : d.Records past) (r : Request ι) :
    (d.turn r).1 = r.answerAfter past ∧ (d.turn r).2.Records (past ++ [r]) := by
  cases r with
  | get bucket =>
    have hkept : d.Records (past ++ [.get bucket]) := h.of_offers?_eq_none fun _ _ => rfl
    by_cases hb : bucket < capacity
    · have hturn : d.turn (.get bucket) = (.ok (firstOffered past bucket), d) :=
        turn_of_ok (by rw [handle, get_eq h.wellFormed hb, h.installed?_eq bucket hb]; rfl)
      rw [hturn, Request.answerAfter, if_pos hb]
      exact ⟨rfl, hkept⟩
    · have hturn : d.turn (.get bucket) = (.error .indexBeyondDirectory, d) := turn_of_beyond d hb
      rw [hturn, Request.answerAfter, if_neg hb]
      exact ⟨rfl, hkept⟩
  | offer bucket node =>
    by_cases hb : bucket < capacity
    · rw [Request.answerAfter, if_pos hb]
      exact h.turn_offer hb node
    · have hturn : d.turn (.offer bucket node) = (.error .indexBeyondDirectory, d) :=
        turn_of_beyond d hb
      rw [hturn, Request.answerAfter, if_neg hb]
      refine ⟨rfl, h.of_offers?_eq_none fun b hlt => if_neg ?_⟩
      rintro rfl
      exact hb hlt

/-- **Run lemma.** -/
theorem run_eq (h : d.Records past) (rs : List (Request ι)) : d.run rs = answers past rs := by
  induction rs generalizing d past with
  | nil => rfl
  | cons r rs ih =>
    obtain ⟨hanswer, hrecords⟩ := h.turn r
    rw [run_cons, answers, hanswer, ih hrecords]

end Records

/-- **A directory is an array that is written once.** Whatever is asked of it and in which order,
the answers are those of the array; a request for a bucket beyond the capacity ends in a fault and
leaves the directory as it was; and the buckets within the capacity have the slots of the segments
one to one, so that the array has a place for each. -/
theorem run_eq_answers :
    (∀ rs : List (Request ι), (∅ : Directory ι).run rs = answers [] rs) ∧
    (∀ (d : Directory ι) (r : Request ι), ¬ r.bucket < capacity →
      d.handle r = .error .indexBeyondDirectory ∧
        ∀ rs, d.run (r :: rs) = .error .indexBeyondDirectory :: d.run rs) ∧
    Set.BijOn Slot.ofBucket {b | b < capacity}
      {s | s.segment < segmentCount ∧ s.offset < Segment.length s.segment} :=
  ⟨Records.empty.run_eq, fun d _ h => ⟨handle_of_beyond d h, run_of_beyond d h⟩,
    Slot.bijOn_ofBucket⟩

/-- An offer of nothing leaves room for the next one, and a second offer comes too late. Buckets on
either side of the border between two segments are apart, and a bucket just beyond the directory is
in nobody's way. -/
theorem run_eq_answers_of_late_offers :
    let rs : List (Request Nat) :=
      [.offer 63 (some 6), .offer 64 none, .offer 64 (some 7), .offer 64 (some 8), .get 63, .get 64,
        .get 4294967295]
    (∅ : Directory Nat).run rs =
      [.ok (some 6), .ok none, .ok (some 7), .ok (some 7), .ok (some 6), .ok (some 7), .ok none] ∧
    (∅ : Directory Nat).run (.offer 4294967296 (some 9) :: rs) =
      .error .indexBeyondDirectory :: (∅ : Directory Nat).run rs ∧
    ∃ bucket < capacity, Slot.ofBucket bucket = ⟨26, 5⟩ := by
  intro rs
  obtain ⟨hanswers, hbeyond, -, -, hsurj⟩ := run_eq_answers (ι := Nat)
  have harray : answers [] rs =
      [.ok (some 6), .ok none, .ok (some 7), .ok (some 7), .ok (some 6), .ok (some 7),
        .ok none] := by
    decide
  have hbound : ¬ (Request.offer 4294967296 (some 9)).bucket < capacity := by decide
  have hslot : (⟨26, 5⟩ : Slot).segment < segmentCount ∧
      (⟨26, 5⟩ : Slot).offset < Segment.length (⟨26, 5⟩ : Slot).segment := by
    decide
  exact ⟨(hanswers rs).trans harray, (hbeyond ∅ _ hbound).2 rs, hsurj hslot⟩

/-! ### First touch -/

/-- The directory after a sequence of requests. -/
def after (d : Directory ι) (rs : List (Request ι)) : Directory ι :=
  rs.foldl (fun d r => (d.turn r).2) d

/-- An offer touches the segment of its bucket, be it one of no node. A look touches none, nor does
an offer beyond the directory. -/
def Request.Touches (i : Nat) : Request ι → Prop
  | get _ => False
  | offer bucket _ => bucket < capacity ∧ (Slot.ofBucket bucket).segment = i

theorem turn_get (d : Directory ι) (bucket : Bucket) : (d.turn (.get bucket)).2 = d := by
  rw [turn, handle]
  cases d.get bucket <;> rfl

/-- **Step lemma.** -/
theorem allocated_turn_iff (hd : d.WellFormed) (r : Request ι) (i : Nat) :
    ((d.turn r).2.segment? i).isSome ↔ r.Touches i ∨ (d.segment? i).isSome := by
  cases r with
  | get bucket => rw [turn_get, Request.Touches, false_or]
  | offer bucket node =>
    by_cases hb : bucket < capacity
    · obtain ⟨d', hoffer, -, -, hallocates⟩ := offer_spec hd hb node
      have hturn : d.turn (.offer bucket node) = (.ok ((d.installed? bucket).or node), d') :=
        turn_of_ok hoffer
      rw [hturn, Request.Touches, and_iff_right hb]
      exact hallocates i
    · have hturn : d.turn (.offer bucket node) = (.error .indexBeyondDirectory, d) :=
        turn_of_beyond d hb
      rw [hturn, Request.Touches]
      exact (or_iff_right fun h => hb h.1).symm

/-- **Run lemma.** -/
theorem Records.allocated_after_iff (h : d.Records past) (rs : List (Request ι)) (i : Nat) :
    ((d.after rs).segment? i).isSome ↔ (∃ r ∈ rs, r.Touches i) ∨ (d.segment? i).isSome := by
  induction rs generalizing d past with
  | nil => simp [after]
  | cons r rs ih =>
    have hrest := ih (h.turn r).2
    rw [allocated_turn_iff h.wellFormed r i] at hrest
    simp only [List.mem_cons, exists_eq_or_imp]
    exact (hrest.trans or_left_comm).trans or_assoc.symm

theorem Records.after (h : d.Records past) (rs : List (Request ι)) :
    (d.after rs).Records (past ++ rs) := by
  induction rs generalizing d past with
  | nil => rwa [List.append_nil]
  | cons r rs ih =>
    rw [List.append_cons]
    exact ih (h.turn r).2

/-- **Segments are allocated on first touch.** After any sequence of requests on a new directory
those segments are there for which something was offered. The answers from there on depend on the
requests alone: none shows which segments there are. -/
theorem allocated_on_first_touch (rs : List (Request ι)) :
    (∀ i, (((∅ : Directory ι).after rs).segment? i).isSome ↔ ∃ r ∈ rs, r.Touches i) ∧
      ∀ rs', ((∅ : Directory ι).after rs).run rs' = answers rs rs' := by
  refine ⟨fun i => ?_, (Records.empty.after rs).run_eq⟩
  rw [Records.empty.allocated_after_iff, segment?_empty]
  exact or_iff_left Bool.false_ne_true

/-- To look up a bucket allocates nothing, and to offer no node for it does. -/
example :
    (((∅ : Directory Nat).after [.get 70, .offer 64 none]).segment? 1).isSome = true ∧
      (((∅ : Directory Nat).after [.get 70, .offer 64 none]).segment? 0).isSome = false := by
  decide

end Directory

end SplitOrder
