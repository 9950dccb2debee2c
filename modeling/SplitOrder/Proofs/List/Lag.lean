import SplitOrder.Proofs.List.Iteration
import SplitOrder.Proofs.List.Reachable

/-!
# Cursors that lag behind

A cursor that was asked what is ahead of it has moved over deleted nodes, for good. A cursor that was
not asked has stayed. The difference is nothing but deleted nodes, whose links are frozen: however
long ago these were taken off, both cursors settle at the same node.

* `Skips` — the way over deleted nodes, and `Skips.later` — which stays once it is there.
* `Cursor.Lags` — one cursor is behind another one by such a way. They meet again
  (`Cursor.Lags.settle_eq`), so every call on them answers the same and leaves them at one node.
* `ListSession.Lags` — two sessions that are the same, except that the cursors of one lag behind.
* `Alike` — two computations with one outcome, in two such sessions.
* `Lags.answer` — a request to both. Requests that use no cursor know nothing of the cursors
  (`answer_setCursors`); the others use two cursors of which one lags behind the other.
-/

namespace SplitOrder

open SortedList

variable {α : Type}

namespace SortedList

variable {l l' : SortedList α} {o o₁ o₂ r r' : Option NodeId} {i : NodeId}

/-- The links lead from `o` to `r` over deleted nodes only. -/
inductive Skips (l : SortedList α) : Option NodeId → Option NodeId → Prop
  | refl {o : Option NodeId} : Skips l o o
  | step {i : NodeId} {o : Option NodeId} (hm : (l.link i).marked = true)
      (h : Skips l (l.link i).target o) : Skips l (some i) o

theorem Skips.trans (h : l.Skips o o₁) (h' : l.Skips o₁ o₂) : l.Skips o o₂ := by
  induction h with
  | refl => exact h'
  | step hm _ ih => exact .step hm (ih h')

/-- The links of deleted nodes are frozen, so a way over them lasts. -/
theorem Skips.later (h : l.Skips o r) (hlater : l.Later l') : l'.Skips o r := by
  induction h with
  | refl => exact .refl
  | @step i o hm _ ih =>
    have hlink : l'.link i = l.link i := hlater.frozen hm
    refine .step (by rw [hlink, hm]) ?_
    rw [hlink]
    exact ih

/-- The end, or a node that is not deleted. -/
def Stops (l : SortedList α) (o : Option NodeId) : Prop :=
  ∀ i, o = some i → (l.link i).marked = false

/-- Over deleted nodes there is one way, and one node where it stops. -/
theorem Skips.unique (h : l.Skips o r) (h' : l.Skips o r') (hr : l.Stops r) (hr' : l.Stops r') :
    r = r' := by
  induction h with
  | @refl o =>
    cases h' with
    | refl => rfl
    | @step i _ hm _ => exact absurd (hm.symm.trans (hr i rfl)) (by decide)
  | @step i o hm _ ih =>
    cases h' with
    | refl => exact absurd (hm.symm.trans (hr' i rfl)) (by decide)
    | step _ h' => exact ih h' hr

theorem skips_of_firstLive {n : Nat} (h : Cursor.firstLive l n o = .ok r) :
    l.Skips o r ∧ l.Stops r := by
  induction n generalizing o with
  | zero => cases h
  | succ n ih =>
    cases o with
    | none =>
      cases h
      exact ⟨.refl, fun i hi => nomatch hi⟩
    | some i =>
      rw [Cursor.firstLive] at h
      cases hm : (l.link i).marked with
      | true =>
        simp only [hm, if_true] at h
        obtain ⟨hskips, hstops⟩ := ih h
        exact ⟨.step hm hskips, hstops⟩
      | false =>
        simp only [hm, Bool.false_eq_true, if_false] at h
        cases h
        refine ⟨.refl, fun j hj => ?_⟩
        obtain rfl : i = j := Option.some.inj hj
        exact hm

end SortedList

/-! ### Two cursors -/

namespace Cursor

variable {l l' : SortedList α} {c c' d : Cursor} {is : List NodeId}

/-- **One cursor behind another.** From `c'` to `c` there are only deleted nodes. -/
structure Lags (l : SortedList α) (c' c : Cursor) : Prop where
  skips : l.Skips c'.candidate c.candidate
  ahead_left : ∃ is, Ahead l c' is
  ahead_right : ∃ is, Ahead l c is

theorem Lags.refl (h : Ahead l c is) : Lags l c c :=
  ⟨.refl, ⟨is, h⟩, ⟨is, h⟩⟩

theorem Lags.evolves [Ord α] [Std.TransOrd α] (h : Lags l c' c) (hl : l.Sound)
    (he : l.Evolves l') : Lags l' c' c := by
  obtain ⟨hskips, ⟨is, his⟩, ⟨js, hjs⟩⟩ := h
  obtain ⟨is', his', -⟩ := his.evolves hl he
  obtain ⟨js', hjs', -⟩ := hjs.evolves hl he
  exact ⟨hskips.later (hl.evolves he).2, ⟨is', his'⟩, ⟨js', hjs'⟩⟩

theorem skips_of_settle (h : c.settle l = .ok d) :
    l.Skips c.candidate d.candidate ∧ l.Stops d.candidate := by
  obtain ⟨r, hr, h⟩ := Checked.bind_eq_ok.mp h
  cases h
  exact skips_of_firstLive hr

/-- To ask whether an element is left settles a cursor and does nothing else to it. -/
theorem settle_of_hasNext {more : Bool} (h : c.hasNext l = .ok (more, d)) :
    c.settle l = .ok d := by
  obtain ⟨d', hd', h⟩ := Checked.bind_eq_ok.mp h
  cases h
  exact hd'

/-- Nor does a look at the next element. -/
theorem settle_of_peek {item : Option α} (h : c.peek l = .ok (item, d)) : c.settle l = .ok d := by
  obtain ⟨d', hd', h⟩ := Checked.bind_eq_ok.mp h
  split at h
  · cases h
    exact hd'
  · obtain ⟨a, -, h⟩ := Checked.bind_eq_ok.mp h
    cases h
    exact hd'

/-- **They meet again**, at the first node that is not deleted. -/
theorem Lags.settle_eq (h : Lags l c' c) : c'.settle l = c.settle l := by
  obtain ⟨hskips, ⟨is, his⟩, ⟨js, hjs⟩⟩ := h
  obtain ⟨d', -, hd', -⟩ := settle_spec his
  obtain ⟨d, -, hd, -⟩ := settle_spec hjs
  obtain ⟨hskips', hstops'⟩ := skips_of_settle hd'
  obtain ⟨hskips₂, hstops⟩ := skips_of_settle hd
  have hmeet : d'.candidate = d.candidate := hskips'.unique (hskips.trans hskips₂) hstops' hstops
  obtain ⟨o⟩ := d'
  obtain rfl : o = d.candidate := hmeet
  rw [hd', hd]

theorem Lags.hasNext_eq (h : Lags l c' c) : c'.hasNext l = c.hasNext l := by
  rw [hasNext, hasNext, h.settle_eq]

theorem Lags.peek_eq (h : Lags l c' c) : c'.peek l = c.peek l := by
  rw [peek, peek, h.settle_eq]

theorem Lags.next_eq (h : Lags l c' c) : c'.next l = c.next l := by
  rw [next, next, h.settle_eq]

theorem Lags.demand_eq (h : Lags l c' c) : c'.demand l = c.demand l := by
  rw [demand, demand, h.next_eq]

theorem Lags.drain_eq (h : Lags l c' c) : c'.drain l = c.drain l := by
  rw [drain, drain, bound, drainWithin, drainWithin, h.next_eq]

/-- The further one settles, and the other one does not. -/
theorem Lags.settle (h : Lags l c' c) (hd : c.settle l = .ok d) : Lags l c' d := by
  obtain ⟨hskips, hleft, ⟨js, hjs⟩⟩ := h
  obtain ⟨d', ks, hd', hpasses, -⟩ := settle_spec hjs
  cases hd.symm.trans hd'
  exact ⟨hskips.trans (skips_of_settle hd).1, hleft, ⟨ks, hpasses.ahead⟩⟩

end Cursor

/-! ### Two sessions -/

/-- The requests that open, use or close a cursor. -/
def ListRequest.usesCursors : ListRequest α → Bool
  | .openCursor | .hasNext _ | .next _ | .demand _ | .peek _ | .drain _ | .close _ => true
  | _ => false

namespace ListSession

variable [Ord α] {ρ σ : Type} {s s' t t' : ListSession α} {reply : ListReply α} {i : Nat}

/-- **The same session, with cursors further back.** -/
structure Lags (s' s : ListSession α) : Prop where
  sound : s.list.Sound
  list_eq : s'.list = s.list
  held_eq : s'.held = s.held
  protection_eq : s'.protection = s.protection
  size_eq : s'.cursors.size = s.cursors.size
  cursors : ∀ i : Nat, Option.Rel (Cursor.Lags s.list) s'.cursors[i]? s.cursors[i]?

theorem Lags.eq_with (h : s'.Lags s) : s' = { s with cursors := s'.cursors } := by
  cases s'
  obtain ⟨-, hlist, hheld, hprotection, -, -⟩ := h
  simp only at hlist hheld hprotection
  rw [hlist, hheld, hprotection]

/-- A cursor is moved, in the session that lags behind to a place further back. -/
theorem Lags.setCursor (h : s'.Lags s) {d' d : Cursor} (hd : Cursor.Lags s.list d' d) :
    Lags { s' with cursors := s'.cursors.setIfInBounds i d' }
      { s with cursors := s.cursors.setIfInBounds i d } where
  sound := h.sound
  list_eq := h.list_eq
  held_eq := h.held_eq
  protection_eq := h.protection_eq
  size_eq := by simp only [Array.size_setIfInBounds, h.size_eq]
  cursors := by
    intro j
    simp only [Array.getElem?_setIfInBounds, h.size_eq]
    split
    · split
      · exact .some hd
      · exact .none
    · exact h.cursors j

/-- A cursor at the first node is opened in both sessions. -/
theorem Lags.push [Std.TransOrd α] (h : s'.Lags s) :
    Lags { s' with cursors := s'.cursors.push s'.list.cursor }
      { s with cursors := s.cursors.push s.list.cursor } where
  sound := h.sound
  list_eq := h.list_eq
  held_eq := h.held_eq
  protection_eq := h.protection_eq
  size_eq := by simp only [Array.size_push, h.size_eq]
  cursors := by
    intro j
    simp only [Array.getElem?_push, h.size_eq, h.list_eq]
    split
    · exact .some (.refl h.sound.ahead_cursor)
    · exact h.cursors j

/-- An operation of the list goes on in both sessions. -/
theorem Lags.evolves [Std.TransOrd α] (h : s'.Lags s) (hcursors : t.cursors = s.cursors)
    (he : s.list.Evolves t.list) : Lags { t with cursors := s'.cursors } t where
  sound := (h.sound.evolves he).1
  list_eq := rfl
  held_eq := rfl
  protection_eq := rfl
  size_eq := by rw [hcursors, h.size_eq]
  cursors := by
    intro i
    have hi := h.cursors i
    simp only [hcursors]
    generalize s'.cursors[i]? = o', s.cursors[i]? = o at hi
    cases hi with
    | none => exact .none
    | some hc => exact .some (hc.evolves h.sound he)

/-! ### Two computations -/

/-- **One outcome.** Both computations end in the same fault, or both in a session, of which one lags
behind the other. What they answer differs by `f`. -/
inductive Alike (f : ρ → ρ) :
    Checked (ρ × ListSession α) → Checked (ρ × ListSession α) → Prop
  | fault {e : Fault} : Alike f (.error e) (.error e)
  | ok {a b : ρ} {t' t : ListSession α} (h : t'.Lags t) (hb : b = f a) :
      Alike f (.ok (b, t')) (.ok (a, t))

variable {f : ρ → ρ} {g : σ → σ} {x x' : Checked (ρ × ListSession α)}

/-- Two sequences have one outcome if their first steps do, and the rest does from whatever sessions
these left. -/
theorem Alike.bind {k k' : ρ × ListSession α → Checked (σ × ListSession α)} (h : Alike f x' x)
    (hk : ∀ a t' t, x = .ok (a, t) → t'.Lags t → Alike g (k' (f a, t')) (k (a, t))) :
    Alike g (x' >>= k') (x >>= k) := by
  cases h with
  | fault => exact .fault
  | ok h hb =>
    subst hb
    exact hk _ _ _ rfl h

/-- The same outcome, as an equation between what is answered and the lists that are left. -/
theorem Alike.eq_map (h : Alike f x' x) :
    x'.map (fun p => (p.1, p.2.list)) = x.map fun p => (f p.1, p.2.list) := by
  cases h with
  | fault => rfl
  | ok h hb => simp only [Except.map, h.list_eq, hb]

/-- A call that moves two cursors to one node. -/
theorem Lags.withCursor (h : s'.Lags s) {use : Cursor → Checked (ListReply α × Cursor)}
    (huse : ∀ c' c, Cursor.Lags s.list c' c → use c' = use c ∧
      ∃ reply d is, use c = .ok (reply, d) ∧ Cursor.Ahead s.list d is) :
    Alike (fun reply => reply) (s'.withCursor i use) (s.withCursor i use) := by
  have hi := h.cursors i
  unfold ListSession.withCursor
  generalize s'.cursors[i]? = o', s.cursors[i]? = o at hi
  cases hi with
  | none => exact .ok h rfl
  | some hlags =>
    obtain ⟨heq, reply, d, is, hd, hahead⟩ := huse _ _ hlags
    simp only [heq, hd]
    exact .ok (h.setCursor (.refl hahead)) rfl

/-! ### Requests that use no cursor -/

section NoCursor

variable {cs : Array Cursor}

omit [Ord α] in
theorem onList_setCursors {operation : SortedList α → Checked (ρ × SortedList α)}
    {toReply : ρ → ListReply α} : { s with cursors := cs }.onList operation toReply = do
      let (reply, t) ← s.onList operation toReply
      return (reply, { t with cursors := cs }) := by
  unfold onList
  cases operation s.list <;> rfl

omit [Ord α] in
theorem reading_setCursors {read : SortedList α → Checked ρ} {toReply : ρ → ListReply α} :
    { s with cursors := cs }.reading read toReply = do
      let (reply, t) ← s.reading read toReply
      return (reply, { t with cursors := cs }) := by
  unfold reading
  cases read s.list <;> rfl

theorem anchor?_setCursors {start : Option α} {a : α} :
    { s with cursors := cs }.anchor? start a = do
      let (found, t) ← s.anchor? start a
      return (found, { t with cursors := cs }) := by
  cases start with
  | none => rfl
  | some b =>
    simp only [anchor?]
    split
    · cases s.list.lookup b <;> rfl
    · rfl

theorem fromAnchor_setCursors {start : Option α} {a : α}
    {operation : SortedList α → NodeId → Checked (ListReply α × SortedList α)} :
    { s with cursors := cs }.fromAnchor start a operation = do
      let (reply, t) ← s.fromAnchor start a operation
      return (reply, { t with cursors := cs }) := by
  rw [fromAnchor, fromAnchor, anchor?_setCursors]
  rcases s.anchor? start a with _ | ⟨_ | i, t⟩
  · rfl
  · rfl
  · simp only [Checked.ok_bind, Checked.pure_eq_ok]
    cases operation t.list i <;> rfl

/-- **The other requests know nothing of the cursors.** -/
theorem answer_setCursors [Text.Legible α] (cs : Array Cursor) {r : ListRequest α}
    (hr : r.usesCursors = false) :
    { s with cursors := cs }.answer r = do
      let (reply, t) ← s.answer r
      return (reply, { t with cursors := cs }) := by
  unfold answer
  cases r with
  | openCursor | hasNext i | next i | demand i | peek i | drain i | close i => cases hr
  | insert a | delete a | remove a | contains a | find a | stored a | bulk request | markOnly a =>
    exact onList_setCursors
  | length | isEmpty | first | position a | get index | toList | debug layout =>
    exact reading_setCursors
  | search start a | lookup start a | insertAfter start a | deleteAfter start a =>
    exact fromAnchor_setCursors
  | held i | retired | chain => rfl
  | hold a =>
    simp only
    rcases s.list.lookup a with _ | ⟨_ | i, l⟩ <;> rfl
  | sweep =>
    simp only
    cases s.list.search head .aboveAll <;> rfl
  | debugNode a =>
    cases a with
    | none => rfl
    | some a =>
      simp only
      rcases s.list.lookup a with _ | ⟨_ | i, l⟩ <;> rfl
  | headElement =>
    simp only
    cases s.list.element head <;> rfl

end NoCursor

/-! ### All requests -/

variable [Std.TransOrd α] [Text.Legible α]

/-- **A request has one outcome.** -/
theorem Lags.answer (h : s'.Lags s) (r : ListRequest α) :
    Alike (fun reply => reply) (s'.answer r) (s.answer r) := by
  cases hr : r.usesCursors with
  | false =>
    rw [h.eq_with, answer_setCursors s'.cursors hr]
    cases hrun : s.answer r with
    | error e => exact .fault
    | ok p =>
      obtain ⟨reply, t⟩ := p
      have hcursors : t.cursors = s.cursors := by
        have hsame := answer_setCursors (s := s) s.cursors hr
        rw [show { s with cursors := s.cursors } = s from rfl, hrun] at hsame
        obtain ⟨-, ht⟩ := Prod.mk.inj (Except.ok.inj hsame)
        rw [ht]
      exact .ok (h.evolves hcursors (answer_evolves h.sound hrun)) rfl
  | true =>
    cases r with
    | openCursor =>
      simp only [ListSession.answer, h.size_eq]
      exact .ok h.push rfl
    | hasNext i =>
      simp only [ListSession.answer, h.list_eq]
      refine h.withCursor fun c' c hc => ⟨by rw [hc.hasNext_eq], ?_⟩
      obtain ⟨is, his⟩ := hc.ahead_right
      obtain ⟨d, js, hd, hpasses, -⟩ := Cursor.hasNext_spec his
      exact ⟨_, d, js, by rw [hd]; rfl, hpasses.ahead⟩
    | next i =>
      simp only [ListSession.answer, h.list_eq]
      refine h.withCursor fun c' c hc => ⟨by rw [hc.next_eq], ?_⟩
      obtain ⟨is, his⟩ := hc.ahead_right
      obtain ⟨d, js, hd, hpasses, -⟩ := Cursor.next_spec his
      exact ⟨_, d, js, by rw [hd]; rfl, hpasses.ahead⟩
    | demand i =>
      simp only [ListSession.answer, h.list_eq]
      refine h.withCursor fun c' c hc => ⟨by rw [hc.demand_eq], ?_⟩
      obtain ⟨is, his⟩ := hc.ahead_right
      obtain ⟨d, js, hd, hpasses, -⟩ := Cursor.next_spec his
      exact ⟨_, d, js, by rw [Cursor.demand_eq hd]; rfl, hpasses.ahead⟩
    | peek i =>
      simp only [ListSession.answer, h.list_eq]
      refine h.withCursor fun c' c hc => ⟨by rw [hc.peek_eq], ?_⟩
      obtain ⟨is, his⟩ := hc.ahead_right
      obtain ⟨d, js, hd, hpasses, -⟩ := Cursor.peek_spec his
      exact ⟨_, d, js, by rw [hd]; rfl, hpasses.ahead⟩
    | drain i =>
      simp only [ListSession.answer, h.list_eq]
      refine h.withCursor fun c' c hc => ⟨by rw [hc.drain_eq], ?_⟩
      obtain ⟨is, his⟩ := hc.ahead_right
      obtain ⟨d, hd, hahead⟩ : ∃ d, Cursor.drainWithin s.list s.list.bound [] c =
          .ok (s.list.liveOf is, d) ∧ Cursor.Ahead s.list d [] :=
        Cursor.drainWithin_spec his (Nat.lt_of_le_of_lt (length_liveOf_le ..) his.length_lt)
      exact ⟨_, d, [], by rw [Cursor.drain, hd]; rfl, hahead⟩
    | close i =>
      refine h.withCursor fun c' c _ => ⟨rfl, .nothing, c.close, [], rfl, ?_⟩
      exact ⟨.done, Nat.succ_pos _, fun _ hj => absurd hj List.not_mem_nil⟩
    | _ => cases hr

end ListSession

end SplitOrder
