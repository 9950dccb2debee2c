import SplitOrder.Proofs.List.Lag

/-!
# Looks ahead

Whoever asks a cursor whether an element is left, or which one comes next, moves it over deleted
nodes. Nobody can tell: if some of these looks are left out of a run, the cursors lag behind those of
the whole run, and all else is the same.

* `Lags.look` — a look that is left out, `Planned` — a run with looks that may be left out, and
  `fullRun` and `thinRun` — what is done with them and without them.
* `alike_step`, `alike_steps` — the simulation. Deletions with others in the middle of them are
  claimed and settled on the same lists in both runs.
* `ListSession.looks_unobservable` — without the looks all other operations reply what they reply
  with them.
-/

namespace SplitOrder

open SortedList

variable {α : Type}

/-! ### One look -/

/-- A look at what is ahead of a cursor. -/
inductive Look where
  | hasNext (i : Nat)
  | peek (i : Nat)

def Look.request : Look → ListRequest α
  | .hasNext i => .hasNext i
  | .peek i => .peek i

namespace ListSession

variable [Ord α] [Std.TransOrd α] [Text.Legible α] {s s' t : ListSession α}

omit [Std.TransOrd α] [Text.Legible α] in
/-- A cursor settles where nothing happens in the session that lags behind. -/
theorem Lags.settle (h : s'.Lags s) {i : Nat} {c d : Cursor} (hc : s.cursors[i]? = some c)
    (hd : c.settle s.list = .ok d) :
    s'.Lags { s with cursors := s.cursors.setIfInBounds i d } where
  sound := h.sound
  list_eq := h.list_eq
  held_eq := h.held_eq
  protection_eq := h.protection_eq
  size_eq := by simp only [Array.size_setIfInBounds, h.size_eq]
  cursors := by
    intro j
    have hj := h.cursors j
    by_cases hij : i = j
    · subst hij
      have hi : i < s.cursors.size := (Array.getElem?_eq_some_iff.mp hc).1
      rw [hc] at hj
      simp only [Array.getElem?_setIfInBounds_self_of_lt hi]
      generalize s'.cursors[i]? = o' at hj
      cases hj with
      | some hlags => exact .some (hlags.settle hd)
    · simp only [Array.getElem?_setIfInBounds_ne hij]
      exact hj

omit [Std.TransOrd α] [Text.Legible α] in
/-- A call that only settles a cursor is not made in the session that lags behind. -/
theorem Lags.exists_withCursor (h : s'.Lags s) {i : Nat}
    {use : Cursor → Checked (ListReply α × Cursor)}
    (huse : ∀ c is, Cursor.Ahead s.list c is →
      ∃ reply d, use c = .ok (reply, d) ∧ c.settle s.list = .ok d) :
    ∃ reply t, s.withCursor i use = .ok (reply, t) ∧ s'.Lags t := by
  have hi := h.cursors i
  unfold ListSession.withCursor
  cases hc : s.cursors[i]? with
  | none => exact ⟨.nothing, s, rfl, h⟩
  | some c =>
    rw [hc] at hi
    generalize s'.cursors[i]? = o' at hi
    cases hi with
    | some hlags =>
      obtain ⟨is, his⟩ := hlags.ahead_right
      obtain ⟨reply, d, hd, hsettle⟩ := huse c is his
      refine ⟨reply, { s with cursors := s.cursors.setIfInBounds i d }, ?_, h.settle hc hsettle⟩
      simp only [hd]
      rfl

omit [Std.TransOrd α] in
/-- **A look ends**, and the session without it lags behind. -/
theorem Lags.look (h : s'.Lags s) (look : Look) :
    ∃ reply t, s.answer look.request = .ok (reply, t) ∧ s'.Lags t := by
  cases look with
  | hasNext i =>
    refine h.exists_withCursor fun c is his => ?_
    obtain ⟨d, -, hd, -⟩ := Cursor.hasNext_spec his
    exact ⟨_, d, by rw [hd]; rfl, Cursor.settle_of_hasNext hd⟩
  | peek i =>
    refine h.exists_withCursor fun c is his => ?_
    obtain ⟨d, -, hd, -⟩ := Cursor.peek_spec his
    exact ⟨_, d, by rw [hd]; rfl, Cursor.settle_of_peek hd⟩

end ListSession

/-! ### Runs with optional looks -/

/-- An operation of a run in which some of the looks ahead may be left out. -/
inductive Planned (α : Type) where
  | request (r : ListRequest α)
  | deleteWith (a : α) (nested : List (Planned α))
  | applyWith (a : α) (nested : List (Planned α))
  /-- A look that may be left out. -/
  | optional (look : Look)

namespace Planned

def isOptional : Planned α → Bool
  | .optional _ => true
  | _ => false

mutual

/-- The operation with all looks that are nested in it. -/
def full : Planned α → ListOp α
  | .request r => .request r
  | .deleteWith a nested => .deleteWith a (fullRun nested)
  | .applyWith a nested => .applyWith a (fullRun nested)
  | .optional look => .request look.request

/-- The run with all looks. -/
def fullRun : List (Planned α) → List (ListOp α)
  | [] => []
  | p :: ps => p.full :: fullRun ps

end

mutual

/-- The operation without the optional looks that are nested in it. -/
def thin : Planned α → ListOp α
  | .request r => .request r
  | .deleteWith a nested => .deleteWith a (thinRun nested)
  | .applyWith a nested => .applyWith a (thinRun nested)
  | .optional look => .request look.request

/-- The run without the optional looks. -/
def thinRun : List (Planned α) → List (ListOp α)
  | [] => []
  | p :: ps => if p.isOptional then thinRun ps else p.thin :: thinRun ps

end

mutual

/-- A reply without those to optional looks that are nested in the operation. -/
def thinReply : Planned α → ListReply α → ListReply α
  | .deleteWith _ nested, .deletion a chain replies => .deletion a chain (thinReplies nested replies)
  | .applyWith _ nested, .application a replies => .application a (thinReplies nested replies)
  | _, reply => reply

/-- The replies to a run without those to its optional looks. -/
def thinReplies : List (Planned α) → List (ListReply α) → List (ListReply α)
  | p :: ps, reply :: replies =>
    if p.isOptional then thinReplies ps replies else p.thinReply reply :: thinReplies ps replies
  | _, _ => []

end

end Planned

namespace ListSession

open Planned

variable [Ord α] [Text.Legible α] {s s' : ListSession α}

omit [Text.Legible α] in
/-- A write to the list in both sessions. -/
theorem Lags.withList [Std.TransOrd α] (h : s'.Lags s) {l : SortedList α} (he : s.list.Evolves l) :
    Lags { s' with list := l } { s with list := l } := by
  have hlags := h.evolves (t := { s with list := l }) rfl he
  rw [h.eq_with]
  exact hlags

/-- Nested operations only write to the list what may be written. -/
theorem evolves_steps [Std.TransOrd α] {t : ListSession α} {ops : List (ListOp α)}
    {replies : List (ListReply α)} (hs : s.list.Sound) (h : s.steps ops = .ok (replies, t)) :
    s.list.Evolves t.list := by
  have hm : Moment.Sound ⟨s, []⟩ := ⟨hs, fun _ hd => nomatch hd⟩
  exact ((Moment.reaches_steps hm ops h).evolves hm).1

/-- An operation that is not optional, and the rest of a run. -/
theorem alike_cons {p : Planned α} {ps : List (Planned α)}
    (hp : p.isOptional = false) (hfirst : Alike p.thinReply (s'.step p.thin) (s.step p.full))
    (hrest : ∀ t' t : ListSession α, t'.Lags t →
      Alike (thinReplies ps) (t'.steps (thinRun ps)) (t.steps (fullRun ps))) :
    Alike (thinReplies (p :: ps)) (s'.steps (thinRun (p :: ps))) (s.steps (fullRun (p :: ps))) := by
  simp only [thinRun, fullRun, hp, Bool.false_eq_true, if_false, steps]
  refine hfirst.bind fun reply t' t _ ht => ?_
  refine (hrest t' t ht).bind fun replies u' u _ hu => ?_
  exact .ok hu (by simp only [thinReplies, hp, Bool.false_eq_true, if_false])

mutual

/-- **Step lemma.** An operation has one outcome, with the optional looks in it and without. -/
theorem alike_step [Std.TransOrd α] {s s' : ListSession α} (h : s'.Lags s) :
    ∀ p : Planned α, p.isOptional = false → Alike p.thinReply (s'.step p.thin) (s.step p.full)
  | .request r, _ => by
    have hreply : (Planned.request r).thinReply = fun reply : ListReply α => reply := rfl
    rw [hreply]
    exact h.answer r
  | .deleteWith a nested, _ => by
    have hmono := Probe.monotone_ofElement a
    obtain ⟨claim, l₁, hclaim, hends⟩ :=
      claimAfter_spec h.sound (h.sound.inFront_head (.ofElement a)) hmono
    have he := hends.evolves
    simp only [thin, full, step, h.list_eq, hclaim, Checked.ok_bind]
    cases claim with
    | none => exact .ok (h.withList he) rfl
    | some c =>
      have hclaims : s.list.Claims (.ofElement a) c l₁ := hends
      obtain ⟨b, hb, -⟩ := hclaims.held
      have helem : l₁.element c.node = .ok b :=
        element_eq_ok_iff.mpr ((hclaims.element_eq c.node).trans hb.1)
      simp only [helem, Checked.ok_bind]
      refine (alike_steps (h.withList he) nested).bind fun replies t' t hrun ht => ?_
      -- the claim is settled on one list in both runs
      have he' : l₁.Evolves t.list := evolves_steps (h.sound.evolves he).1 hrun
      obtain ⟨l₂, hsettle, hsettles⟩ :=
        hclaims.settles h.sound he' (ht.sound.inFront_head (.ofElement a)) hmono
      simp only [ht.list_eq, hsettle, Checked.ok_bind]
      exact .ok (ht.withList hsettles.evolves) rfl
  | .applyWith a nested, _ => by
    obtain ⟨found, l₁, hlook, htrims, hfound⟩ := lookup_spec h.sound a
    simp only [thin, full, step, h.list_eq, hlook, Checked.ok_bind]
    cases found with
    | none => exact .ok (h.withList htrims.evolves) rfl
    | some i =>
      obtain ⟨b, hb, -⟩ := hfound
      have helem : l₁.element i = .ok b := element_eq_ok_iff.mpr (htrims.holds_iff.mpr hb).1
      simp only [helem, Checked.ok_bind]
      refine (alike_steps (h.withList htrims.evolves) nested).bind fun replies t' t _ ht => ?_
      exact .ok ht rfl

/-- **Run lemma.** So does a run. -/
theorem alike_steps [Std.TransOrd α] {s s' : ListSession α} (h : s'.Lags s) :
    ∀ ps : List (Planned α), Alike (thinReplies ps) (s'.steps (thinRun ps)) (s.steps (fullRun ps))
  | [] => .ok h rfl
  | .optional look :: ps => by
    obtain ⟨reply, t, hlook, ht⟩ := h.look look
    have hrest := alike_steps ht ps
    simp only [thinRun, fullRun, isOptional, if_true, full, steps, step, hlook, Checked.ok_bind]
    -- the reply to the look is the one that is left out
    generalize s'.steps (thinRun ps) = x', t.steps (fullRun ps) = x at hrest
    cases hrest with
    | fault => exact .fault
    | ok hu hb => exact .ok hu hb
  | .request r :: ps => alike_cons rfl (alike_step h (.request r) rfl) fun _ _ ht => alike_steps ht ps
  | .deleteWith a nested :: ps =>
    alike_cons rfl (alike_step h (.deleteWith a nested) rfl) fun _ _ ht => alike_steps ht ps
  | .applyWith a nested :: ps =>
    alike_cons rfl (alike_step h (.applyWith a nested) rfl) fun _ _ ht => alike_steps ht ps

end

omit [Text.Legible α] in
/-- In the beginning no cursor is open. -/
theorem lags_fresh (p : Protection) : (fresh p : ListSession α).Lags (fresh p) where
  sound := sound_empty
  list_eq := rfl
  held_eq := rfl
  protection_eq := rfl
  size_eq := rfl
  cursors := fun _ => .none

/-- **Looks ahead are unobservable.** In a run of requests, bare marks, deletions with others in the
middle of them and calls on any number of cursors, some of the looks ahead may be left out, nested
ones as well. All other operations reply what they reply with them, or end in the same fault, and
the list is the same in the end. -/
theorem looks_unobservable [Std.TransOrd α] (p : Protection) (plan : List (Planned α)) :
    ((fresh p).steps (thinRun plan)).map (fun r => (r.1, r.2.list)) =
      ((fresh p).steps (fullRun plan)).map fun r => (thinReplies plan r.1, r.2.list) :=
  (alike_steps (lags_fresh p) plan).eq_map

/-- The cursor stands at 10, which is deleted and taken off. A look moves it to 20, and without the
look it stays; the element that it yields afterwards is 20 in both runs. -/
theorem looks_unobservable_at_deleted_node :
    let plan : List (Planned UInt64) :=
      [.request (.insert 10), .request (.insert 20), .request .openCursor, .request (.markOnly 10),
        .deleteWith 30 [], .optional (.peek 0)]
    let next : List (Planned UInt64) := plan ++ [.optional (.hasNext 0), .request (.next 0)]
    [thinRun plan, fullRun plan].map (fun ops => ((fresh .deferred).steps ops).map (·.2.cursors)) =
        [.ok #[⟨some 1⟩], .ok #[⟨some 2⟩]] ∧
      ((fresh .deferred).steps (thinRun next)).map (fun r => (r.1, r.2.list)) =
        ((fresh .deferred).steps (fullRun next)).map fun r => (thinReplies next r.1, r.2.list) := by
  intro plan next
  exact ⟨rfl, looks_unobservable .deferred next⟩

end ListSession

end SplitOrder
