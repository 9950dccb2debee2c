import Mathlib.Algebra.Group.Nat.Even
import SplitOrder.PackedLink
import SplitOrder.Proofs.Checked

/-!
# A word that holds a pair

A packed link behaves as if its address and its mark were kept side by side. Addresses are even, so
a word is the sum of the two (`toNat_target_add_marked`), and the pair can be read off the word and
the word off the pair: a comparison of words is a comparison of pairs.

* `pack_eq_ok_iff` — a word holds a pair exactly if the pair is packed into it. An odd address is
  packed into no word.
* `Link.answer`, `Link.handle`, `Link.run` — a pair that is kept side by side, and what is asked of
  it. Nothing here knows of words.
* `PackedLink.turn_eq` — one request: the answer is that of the pair, and so is what it leaves.
* `PackedLink.map_run` — hence any sequence of requests. Failures among them change nothing
  (`PackedLink.behaves_as_pair`).
-/

namespace SplitOrder

/-! ### Words and pairs -/

theorem and_one_eq_zero_iff (n : UInt64) : n &&& 1 = 0 ↔ Even n.toNat := by
  rw [← UInt64.toNat_inj, UInt64.toNat_and, UInt64.toNat_one, UInt64.toNat_zero, Nat.and_one_is_mod,
    Nat.even_iff]

/-- To clear the lowest bit is to round down to an even number. -/
theorem toNat_and_not_one (n : UInt64) : (n &&& ~~~1).toNat = 2 * (n.toNat / 2) := by
  have hmask : ∀ i < 64, (~~~1 : UInt64).toNat.testBit i = decide (i ≠ 0) := by decide
  have hround : 2 * (n.toNat / 2) ≤ n.toNat := Nat.mul_div_le n.toNat 2
  apply Nat.eq_of_testBit_eq
  intro i
  rw [UInt64.toNat_and, Nat.testBit_and]
  by_cases hi : i < 64
  · rw [hmask i hi]
    cases i with
    | zero => simp
    | succ i => simp [Nat.testBit_succ]
  · -- neither number has a bit there
    have hlarge : n.toNat < 2 ^ i :=
      Nat.lt_of_lt_of_le n.toNat_lt (Nat.pow_le_pow_right (by decide) (Nat.le_of_not_lt hi))
    rw [Nat.testBit_lt_two_pow hlarge, Nat.testBit_lt_two_pow (Nat.lt_of_le_of_lt hround hlarge)]
    rfl

/-- An even number has room for a mark. -/
theorem toNat_or_mark {n : UInt64} (h : Even n.toNat) (mark : Bool) :
    (n ||| mark.toUInt64).toNat = n.toNat + mark.toNat := by
  obtain ⟨k, hk⟩ := h
  have hmark : mark.toUInt64.toNat = mark.toNat := by cases mark <;> rfl
  have hlt : mark.toNat < 2 ^ 1 := by cases mark <;> decide
  calc (n ||| mark.toUInt64).toNat
      _ = 2 ^ 1 * k ||| mark.toNat := by
        rw [UInt64.toNat_or, hmark, hk, Nat.pow_one, Nat.two_mul]
      _ = 2 ^ 1 * k + mark.toNat := (Nat.two_pow_add_eq_or_of_lt hlt k).symm
      _ = n.toNat + mark.toNat := by rw [hk, Nat.pow_one, Nat.two_mul]

/-- **A word is the sum of an even address and its mark.** -/
theorem toNat_target_add_marked (word : UInt64) :
    (unpack word).target.toNat + (unpack word).marked.toNat = word.toNat ∧
      Even (unpack word).target.toNat := by
  have htarget : (unpack word).target.toNat = 2 * (word.toNat / 2) := toNat_and_not_one word
  have hmarked : (unpack word).marked.toNat = word.toNat % 2 := by
    have hiff := and_one_eq_zero_iff word
    rw [Nat.even_iff] at hiff
    show (decide (word &&& 1 ≠ 0)).toNat = word.toNat % 2
    by_cases hzero : word &&& 1 = 0
    · rw [hiff.mp hzero, decide_eq_false (not_not.mpr hzero), Bool.toNat_false]
    · have hodd : word.toNat % 2 = 1 := by
        have := mt hiff.mpr hzero
        omega
      rw [hodd, decide_eq_true hzero, Bool.toNat_true]
  rw [htarget, hmarked]
  exact ⟨Nat.div_add_mod _ 2, Nat.even_iff.mpr (Nat.mul_mod_right 2 _)⟩

/-- Two pairs with even addresses that have the same sum are the same. -/
theorem Link.eq_of_add_eq {l l' : Link UInt64} (h : Even l.target.toNat) (h' : Even l'.target.toNat)
    (hsum : l.target.toNat + l.marked.toNat = l'.target.toNat + l'.marked.toNat) : l = l' := by
  rw [Nat.even_iff] at h h'
  have hle := Bool.toNat_le l.marked
  have hle' := Bool.toNat_le l'.marked
  -- the mark is what is left when the sum is halved
  have htarget : l.target.toNat = l'.target.toNat := by omega
  have hmarked : l.marked.toNat = l'.marked.toNat := by omega
  have hmark : l.marked = l'.marked := by
    cases hl : l.marked <;> cases hl' : l'.marked <;> simp_all
  exact Link.ext (UInt64.toNat_inj.mp htarget) hmark

/-- **A word holds a pair exactly if the pair is packed into it.** -/
theorem pack_eq_ok_iff {target word : UInt64} {mark : Bool} :
    pack target mark = .ok word ↔ Even target.toNat ∧ unpack word = ⟨target, mark⟩ := by
  obtain ⟨hsum, heven⟩ := toNat_target_add_marked word
  unfold pack
  simp only [and_one_eq_zero_iff]
  split
  · next htarget =>
    rw [Except.ok.injEq, and_iff_right htarget, ← UInt64.toNat_inj, toNat_or_mark htarget]
    constructor
    · intro h
      exact Link.eq_of_add_eq heven htarget (hsum.trans h.symm)
    · intro h
      rw [← hsum, h]
  · next htarget => exact ⟨fun h => (nomatch h), fun h => absurd h.1 htarget⟩

theorem pack_of_even {target : UInt64} (h : Even target.toNat) (mark : Bool) :
    ∃ word, pack target mark = .ok word ∧ unpack word = ⟨target, mark⟩ := by
  have hpack : pack target mark = .ok (target ||| mark.toUInt64) :=
    if_pos ((and_one_eq_zero_iff target).mpr h)
  exact ⟨_, hpack, (pack_eq_ok_iff.mp hpack).2⟩

theorem pack_of_not_even {target : UInt64} (h : ¬ Even target.toNat) (mark : Bool) :
    pack target mark = .error .misalignedTarget :=
  if_neg (mt (and_one_eq_zero_iff target).mp h)

/-- **The pair tells the word**: no address is taken for a mark. -/
theorem PackedLink.get_injective : Function.Injective PackedLink.get := by
  rintro ⟨word⟩ ⟨word'⟩ h
  have h : unpack word = unpack word' := h
  have hword : word = word' := by
    rw [← UInt64.toNat_inj, ← (toNat_target_add_marked word).1, h, (toNat_target_add_marked word').1]
  rw [hword]

/-! ### A pair kept side by side -/

namespace PackedLink.Request

/-- The addresses that a request names. -/
def targets : Request → List UInt64
  | .get | .target | .isMarked | .debug => []
  | .retarget address => [address]
  | .compareAndSwap expected desired => [expected.target, desired.target]
  | .mark? address => [address]

/-- No address that the request names is odd. -/
def Aligned (r : Request) : Prop :=
  ∀ address ∈ r.targets, Even address.toNat

instance (r : Request) : Decidable r.Aligned :=
  decidable_of_iff (r.targets.all fun address => address.toNat % 2 == 0) (by
    simp only [List.all_eq_true, beq_iff_eq, Aligned, Nat.even_iff])

theorem aligned_of_targets {r : Request} (h : r.targets = []) : r.Aligned := by
  simp [Aligned, h]

theorem aligned_retarget {address : UInt64} : (retarget address).Aligned ↔ Even address.toNat := by
  simp [Aligned, targets]

theorem aligned_compareAndSwap {expected desired : Link UInt64} :
    (compareAndSwap expected desired).Aligned ↔
      Even expected.target.toNat ∧ Even desired.target.toNat := by
  simp [Aligned, targets]

theorem aligned_mark? {address : UInt64} : (mark? address).Aligned ↔ Even address.toNat := by
  simp [Aligned, targets]

end PackedLink.Request

/-- An answer that tells of a failure. -/
def PackedLink.Failed : Checked PackedLink.Reply → Prop
  | .ok reply => reply = .flag false
  | .error _ => True

namespace Link

open PackedLink

/-- What a pair answers to a request, and the pair after it. -/
def answer (l : Link UInt64) : Request → Reply × Link UInt64
  | .get => (.link l, l)
  | .target => (.address l.target, l)
  | .isMarked => (.flag l.marked, l)
  | .retarget target => (.done, ⟨target, false⟩)
  | .compareAndSwap expected desired =>
    if l = expected then (.flag true, desired) else (.flag false, l)
  | .mark? expected =>
    if l = ⟨expected, false⟩ then (.flag true, ⟨expected, true⟩) else (.flag false, l)
  | .debug =>
    (.text (Text.record "MarkedLink"
      [("target", "0x" ++ Text.hexadecimal l.target.toNat),
        ("deleted", if l.marked then "true" else "false")]), l)

/-- One request. If it names an odd address, it ends in a fault and the pair stays. -/
def handle (l : Link UInt64) (r : Request) : Checked Reply × Link UInt64 :=
  if r.Aligned then (.ok (l.answer r).1, (l.answer r).2)
  else (.error .misalignedTarget, l)

/-- The answers to a sequence of requests, each with the pair after it. -/
def run (l : Link UInt64) : List Request → List (Checked Reply × Link UInt64)
  | [] => []
  | r :: rs => l.handle r :: run (l.handle r).2 rs

variable {l : Link UInt64} {r : Request}

theorem handle_of_aligned (h : r.Aligned) : l.handle r = (.ok (l.answer r).1, (l.answer r).2) :=
  if_pos h

theorem handle_of_not_aligned (h : ¬ r.Aligned) : l.handle r = (.error .misalignedTarget, l) :=
  if_neg h

/-- A swap that does not find what it expects changes nothing. -/
theorem snd_answer_of_fst (h : (l.answer r).1 = .flag false) : (l.answer r).2 = l := by
  cases r with
  | get | target | isMarked | debug => rfl
  | retarget address => cases h
  | compareAndSwap expected desired =>
    simp only [answer] at h ⊢
    by_cases heq : l = expected
    · rw [if_pos heq] at h
      cases h
    · rw [if_neg heq]
  | mark? address =>
    simp only [answer] at h ⊢
    by_cases heq : l = ⟨address, false⟩
    · rw [if_pos heq] at h
      cases h
    · rw [if_neg heq]

/-- What fails changes nothing, be it a fault or a swap. -/
theorem snd_handle_of_failed (h : Failed (l.handle r).1) : (l.handle r).2 = l := by
  by_cases haligned : r.Aligned
  · rw [handle_of_aligned haligned] at h ⊢
    exact snd_answer_of_fst h
  · rw [handle_of_not_aligned haligned]

end Link

/-! ### The word and the pair -/

namespace PackedLink

/-- What a request comes to: the answer, and the link after it. -/
def turn (l : PackedLink) (r : Request) : Checked Reply × PackedLink :=
  match l.handle r with
  | .ok (reply, l') => (.ok reply, l')
  | .error fault => (.error fault, l)

variable {l : PackedLink} {r : Request}

theorem run_cons (l : PackedLink) (r : Request) (rs : List Request) :
    l.run (r :: rs) = l.turn r :: (l.turn r).2.run rs := by
  rw [run, turn]
  cases l.handle r <;> rfl

theorem turn_of_ok {reply : Reply} {l' : PackedLink} (h : l.handle r = .ok (reply, l')) :
    l.turn r = (.ok reply, l') := by
  rw [turn, h]

theorem turn_of_error {fault : Fault} (h : l.handle r = .error fault) :
    l.turn r = (.error fault, l) := by
  rw [turn, h]

/-- A new link is unmarked. -/
theorem map_get_new (target : UInt64) :
    (new target).map get =
      if Even target.toNat then .ok ⟨target, false⟩ else .error .misalignedTarget := by
  split
  · next h =>
    obtain ⟨word, hpack, hword⟩ := pack_of_even h false
    rw [new, hpack]
    exact congrArg Except.ok hword
  · next h =>
    rw [new, pack_of_not_even h]
    rfl

/-- **Compare and swap.** The words are the same exactly if the pairs are. -/
theorem compareAndSwap_of_even {expected desired : Link UInt64}
    (hexpected : Even expected.target.toNat) (hdesired : Even desired.target.toNat) :
    ∃ new : PackedLink, new.get = desired ∧
      l.compareAndSwap expected desired = .ok (if l.get = expected then some new else none) := by
  obtain ⟨old, hold, hunpack⟩ := pack_of_even hexpected expected.marked
  obtain ⟨fresh, hfresh, hget⟩ := pack_of_even hdesired desired.marked
  have hiff : l.word = old ↔ l.get = expected := by
    constructor
    · intro h
      rw [get, h, hunpack]
    · intro h
      have hsame : (⟨l.word⟩ : PackedLink) = ⟨old⟩ := get_injective (h.trans hunpack.symm)
      exact congrArg word hsame
  refine ⟨⟨fresh⟩, hget, ?_⟩
  rw [compareAndSwap, hold, Checked.ok_bind, hfresh, Checked.ok_bind]
  simp only [hiff]
  rfl

/-- Whichever address is odd, nothing is compared. -/
theorem compareAndSwap_of_odd {expected desired : Link UInt64}
    (h : ¬ (Even expected.target.toNat ∧ Even desired.target.toNat)) :
    l.compareAndSwap expected desired = .error .misalignedTarget := by
  by_cases hexpected : Even expected.target.toNat
  · obtain ⟨old, hold, -⟩ := pack_of_even hexpected expected.marked
    have hdesired : ¬ Even desired.target.toNat := fun hdesired => h ⟨hexpected, hdesired⟩
    rw [compareAndSwap, hold, Checked.ok_bind, pack_of_not_even hdesired, Checked.error_bind]
  · rw [compareAndSwap, pack_of_not_even hexpected, Checked.error_bind]

/-- A request that swaps pairs, whatever it is called. -/
theorem turn_of_swap {expected desired : Link UInt64}
    (h : l.handle r = do
      let changed ← l.compareAndSwap expected desired
      return (.flag changed.isSome, changed.getD l)) :
    ((l.turn r).1, (l.turn r).2.get) =
      if Even expected.target.toNat ∧ Even desired.target.toNat then
        if l.get = expected then (.ok (.flag true), desired) else (.ok (.flag false), l.get)
      else (.error .misalignedTarget, l.get) := by
  by_cases heven : Even expected.target.toNat ∧ Even desired.target.toNat
  · obtain ⟨new, hnew, hswap⟩ := compareAndSwap_of_even (l := l) heven.1 heven.2
    rw [hswap, Checked.ok_bind] at h
    rw [turn_of_ok h, if_pos heven]
    by_cases heq : l.get = expected
    · rw [if_pos heq, if_pos heq, ← hnew]
      rfl
    · rw [if_neg heq, if_neg heq]
      rfl
  · rw [compareAndSwap_of_odd heven, Checked.error_bind] at h
    rw [turn_of_error h, if_neg heven]

/-- **Step lemma.** A request is answered as the pair would answer it, and leaves the pair that this
would leave. -/
theorem turn_eq (l : PackedLink) (r : Request) :
    ((l.turn r).1, (l.turn r).2.get) = l.get.handle r := by
  cases r with
  | get | target | isMarked | debug =>
    -- nothing is named, and nothing is written
    rw [Link.handle_of_aligned (Request.aligned_of_targets rfl)]
    rfl
  | retarget address =>
    by_cases heven : Even address.toNat
    · obtain ⟨word, hpack, hword⟩ := pack_of_even heven false
      have hturn : l.handle (.retarget address) = .ok (.done, ⟨word⟩) := by
        rw [handle, retarget, new, hpack]
        rfl
      rw [turn_of_ok hturn, Link.handle_of_aligned (Request.aligned_retarget.mpr heven)]
      exact congrArg (Prod.mk _) hword
    · have hturn : l.handle (.retarget address) = .error .misalignedTarget := by
        rw [handle, retarget, new, pack_of_not_even heven]
        rfl
      rw [turn_of_error hturn, Link.handle_of_not_aligned (mt Request.aligned_retarget.mp heven)]
  | compareAndSwap expected desired =>
    rw [turn_of_swap rfl, Link.handle]
    simp only [Request.aligned_compareAndSwap, Link.answer]
    split
    · split <;> rfl
    · rfl
  | mark? address =>
    -- both pairs have the same address
    rw [turn_of_swap rfl, Link.handle]
    simp only [Request.aligned_mark?, Link.answer, and_self]
    split
    · split <;> rfl
    · rfl

/-- **Run lemma.** -/
theorem map_run (l : PackedLink) (rs : List Request) :
    (l.run rs).map (fun p => (p.1, p.2.get)) = l.get.run rs := by
  induction rs generalizing l with
  | nil => rfl
  | cons r rs ih => rw [run_cons, List.map_cons, ih, Link.run, ← turn_eq]

/-- **A word with a mark in its lowest bit is a pair.** A new link is unmarked and points to its
address, no two words hold the same pair, a request that fails leaves the word as it was, and every
sequence of requests is answered, and changes the link, as if the pair were kept side by side. -/
theorem behaves_as_pair :
    (∀ target, (new target).map get =
      if Even target.toNat then .ok ⟨target, false⟩ else .error .misalignedTarget) ∧
    Function.Injective get ∧
    (∀ (l : PackedLink) (r : Request), Failed (l.turn r).1 → (l.turn r).2 = l) ∧
    ∀ (l : PackedLink) (rs : List Request),
      (l.run rs).map (fun p => (p.1, p.2.get)) = l.get.run rs := by
  refine ⟨map_get_new, get_injective, fun l r hfailed => ?_, map_run⟩
  obtain ⟨hreply, hget⟩ := Prod.mk.inj (turn_eq l r)
  rw [hreply] at hfailed
  exact get_injective (hget.trans (Link.snd_handle_of_failed hfailed))

/-- A mark that is set keeps the address, and a swap that expects the unmarked pair fails then. The
odd number that the marked word looks like is taken for no address at all. -/
theorem behaves_as_pair_of_marked :
    let rs : List Request :=
      [.mark? 8, .compareAndSwap ⟨8, false⟩ ⟨16, false⟩, .mark? 9, .get,
        .compareAndSwap ⟨8, true⟩ ⟨16, true⟩, .isMarked, .retarget 24]
    (new 8).map get = .ok ⟨8, false⟩ ∧
    ((⟨8⟩ : PackedLink).run rs).map (fun p => (p.1, p.2.get)) =
      [(.ok (.flag true), ⟨8, true⟩), (.ok (.flag false), ⟨8, true⟩),
        (.error .misalignedTarget, ⟨8, true⟩), (.ok (.link ⟨8, true⟩), ⟨8, true⟩),
        (.ok (.flag true), ⟨16, true⟩), (.ok (.flag true), ⟨16, true⟩), (.ok .done, ⟨24, false⟩)] ∧
    Failed ((⟨9⟩ : PackedLink).turn (.mark? 9)).1 ∧
    ((⟨9⟩ : PackedLink).turn (.mark? 9)).2 = ⟨9⟩ := by
  intro rs
  obtain ⟨hnew, -, hfailed, hrun⟩ := behaves_as_pair
  have heven : Even (8 : UInt64).toNat := by decide
  have hpair : (⟨8, false⟩ : Link UInt64).run rs =
      [(.ok (.flag true), ⟨8, true⟩), (.ok (.flag false), ⟨8, true⟩),
        (.error .misalignedTarget, ⟨8, true⟩), (.ok (.link ⟨8, true⟩), ⟨8, true⟩),
        (.ok (.flag true), ⟨16, true⟩), (.ok (.flag true), ⟨16, true⟩),
        (.ok .done, ⟨24, false⟩)] := by
    decide
  have hodd : Failed ((⟨9⟩ : PackedLink).turn (.mark? 9)).1 := trivial
  exact ⟨(hnew 8).trans (if_pos heven), (hrun ⟨8⟩ rs).trans hpair, hodd, hfailed ⟨9⟩ (.mark? 9) hodd⟩

end PackedLink

end SplitOrder
