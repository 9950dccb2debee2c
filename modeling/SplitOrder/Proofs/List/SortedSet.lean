import SplitOrder.Proofs.List.Reachable

/-!
# Lists as sorted sets

Whoever looks at a list only through its elements sees a sorted set. What a set does is given by
`Std.TreeSet`: an insertion keeps the element that is stored, and a mark alone is a removal. How
many deleted nodes stand on the list, and where, is not seen.

* `SetOp` — the operations that a set has, with those that have others nested in them, and their
  meaning on a set (`SetOp.step`, `steps`).
* `SortedList.Represents` — a list stores what is in a set. Every operation keeps this and answers
  what the set answers (`Represents.exists_insert`, `exists_delete`, …), and a listing of the list is
  one of the set (`Represents.live_eq`).
* `step_refines`, `steps_refines` — the simulation: from a sound list with any deleted nodes on it,
  every operation succeeds, replies what it replies on the set, and leaves a list that represents
  the set left.
-/

namespace SplitOrder

open Std (TreeSet)

/-- What can be asked of a sorted set. -/
inductive SetOp (α : Type) where
  | insert (a : α)
  | delete (a : α)
  | remove (a : α)
  | contains (a : α)
  /-- A reference to the stored element. -/
  | find (a : α)
  /-- The stored element itself. -/
  | stored (a : α)
  | length
  | toList
  /-- On a list, the delete mark without anything else. -/
  | markOnly (a : α)
  /-- A deletion with others run in the middle of it. -/
  | deleteWith (a : α) (nested : List (SetOp α))
  /-- A look at a stored element with others run meanwhile. -/
  | applyWith (a : α) (nested : List (SetOp α))

namespace SetOp

variable {α : Type}

mutual

/-- The same on a list. -/
def onList : SetOp α → ListOp α
  | .insert a => .request (.insert a)
  | .delete a => .request (.delete a)
  | .remove a => .request (.remove a)
  | .contains a => .request (.contains a)
  | .find a => .request (.find a)
  | .stored a => .request (.stored a)
  | .length => .request .length
  | .toList => .request .toList
  | .markOnly a => .request (.markOnly a)
  | .deleteWith a nested => .deleteWith a (allOnList nested)
  | .applyWith a nested => .applyWith a (allOnList nested)

/-- A sequence of operations on a list. -/
def allOnList : List (SetOp α) → List (ListOp α)
  | [] => []
  | op :: ops => onList op :: allOnList ops

end

variable [Ord α]

mutual

/-- What an operation replies and leaves. -/
def step (set : TreeSet α) : SetOp α → ListReply α × TreeSet α
  | .insert a => (.flag (!set.contains a), set.insert a)
  | .delete a => (.flag (set.contains a), set.erase a)
  | .remove a => (.ofItem? (set.get? a), set.erase a)
  | .contains a => (.flag (set.contains a), set)
  | .find a => ((set.get? a).elim .nothing .reference, set)
  | .stored a => (.ofItem? (set.get? a), set)
  | .length => (.number set.size, set)
  | .toList => (.items set.toList, set)
  | .markOnly a => (.flag (set.contains a), set.erase a)
  | .deleteWith a nested =>
    match set.get? a with
    | none => (.nothing, set)
    | some b =>
      -- nothing is in between: the deletion is over when the others begin
      let (replies, set) := steps (set.erase a) nested
      (.deletion b [] replies, set)
  | .applyWith a nested =>
    match set.get? a with
    | none => (.nothing, set)
    | some b =>
      let (replies, set) := steps set nested
      (.application b replies, set)

/-- What a sequence of operations replies and leaves. -/
def steps (set : TreeSet α) : List (SetOp α) → List (ListReply α) × TreeSet α
  | [] => ([], set)
  | op :: ops =>
    let (reply, set) := step set op
    let (replies, set) := steps set ops
    (reply :: replies, set)

end

end SetOp

namespace ListReply

variable {α : Type}

mutual

/-- A reply without the chains of nodes it shows. -/
def forgetChain : ListReply α → ListReply α
  | .deletion a _ nested => .deletion a [] (forgetChains nested)
  | .application a nested => .application a (forgetChains nested)
  | reply => reply

/-- Replies without the chains of nodes they show. -/
def forgetChains : List (ListReply α) → List (ListReply α)
  | [] => []
  | reply :: replies => forgetChain reply :: forgetChains replies

end

end ListReply

namespace SortedList

variable {α : Type} [Ord α]

/-- The list stores what is in the set. -/
def Represents (l : SortedList α) (set : TreeSet α) : Prop :=
  ∀ a, l.Stores (.ofElement a) (set.get? a)

variable {l l' : SortedList α} {set : TreeSet α} {a b : α}

theorem represents_empty : (∅ : SortedList α).Represents ∅ := by
  intro a
  rw [TreeSet.get?_emptyc]
  exact fun i b hb => absurd hb not_holds_empty

/-- Where all nodes hold what they held, nothing has happened to the set. -/
theorem Represents.congr (h : l.Represents set) (hiff : ∀ i b, l'.Holds i b ↔ l.Holds i b) :
    l'.Represents set :=
  fun a => (h a).congr hiff

theorem Represents.trims (h : l.Represents set) (ht : l.Trims l') : l'.Represents set :=
  h.congr fun _ _ => ht.holds_iff

variable [Std.TransOrd α]

/-- Whatever is found on the list is what is in the set. -/
theorem Represents.get?_eq (h : l.Represents set) (hl : l.Sound) {stored : Option α}
    (hs : l.Stores (.ofElement a) stored) : set.get? a = stored :=
  (h a).unique hl (Probe.monotone_ofElement a) hs

theorem Represents.contains_eq (h : l.Represents set) (hl : l.Sound) {found : Option NodeId}
    (hf : l.Found (.ofElement a) found) : set.contains a = found.isSome := by
  obtain ⟨x, hx, hsome⟩ := hf.exists_stores
  rw [TreeSet.contains_eq_isSome_get?, h.get?_eq hl hx, hsome]

/-- An element of the set is held by a node, and the other way round. -/
theorem Represents.holds_iff (h : l.Represents set) (hl : l.Sound) :
    (∃ i, l.Holds i a) ↔ set.get? a = some a := by
  constructor
  · rintro ⟨i, hi⟩
    have hstores : l.Stores (.ofElement a) (some a) := ⟨i, hi, Std.compare_self⟩
    exact h.get?_eq hl hstores
  · intro ha
    have hstores := h a
    rw [ha] at hstores
    obtain ⟨i, hi, -⟩ := hstores
    exact ⟨i, hi⟩

/-- **A listing of the list is one of the set.** -/
theorem Represents.live_eq (h : l.Represents set) (hl : l.Sound) : l.live = set.toList := by
  refine eq_of_pairwise_lt hl.pairwise_live TreeSet.ordered_toList fun a => ?_
  rw [hl.mem_live_iff, h.holds_iff hl, mem_toList_treeSet]

/-- **Insertion.** An equal element that is stored stays, on the list and in the set. -/
theorem Represents.insert (h : l.Represents set) (hl : l.Sound) {ins : Insertion}
    (hins : l.Inserts a ins l') :
    l'.Represents (set.insert a) ∧ set.contains a = !ins.isNew := by
  cases ins with
  | existing i =>
    -- the set has an equal element and keeps it
    obtain ⟨htrims, b, hb, heq⟩ := hins
    have hfound : l.Found (.ofElement a) (some i) := ⟨b, hb, heq⟩
    have hcontains : set.contains a = true := h.contains_eq hl hfound
    refine ⟨fun c => ?_, hcontains⟩
    rw [TreeSet.get?_insert, if_neg fun hn => hn.2 hcontains]
    exact h.trims htrims c
  | linked i =>
    have hlinks : l.Links a i l' := hins
    have hfound : l.Found (.ofElement a) none := hlinks.fresh
    have hcontains : set.contains a = false := h.contains_eq hl hfound
    refine ⟨fun c => ?_, hcontains⟩
    rw [TreeSet.get?_insert]
    split
    · next hac => exact hlinks.stores hac.1
    · next hac =>
      -- the new element is not what is sought, since none equal to it was in the set
      refine (h c).links hlinks fun heq => hac ⟨heq, ?_⟩
      rw [← TreeSet.contains_iff_mem, hcontains]
      decide

/-- **Removal.** -/
theorem Represents.erase (h : l.Represents set) (hrem : l.Removes (.ofElement a) l') :
    l'.Represents (set.erase a) := by
  intro c
  rw [TreeSet.get?_erase]
  split
  · next hac =>
    -- whatever is equal to `c` is equal to `a`
    refine hrem.lacks fun b (hbc : compare b c = .eq) => ?_
    show compare b a = .eq
    exact Std.TransCmp.eq_trans hbc (Std.OrientedCmp.eq_symm hac)
  · next hac =>
    refine (h c).removes hrem fun b (hbc : compare b c = .eq) (hba : compare b a = .eq) => hac ?_
    exact Std.TransCmp.eq_trans (Std.OrientedCmp.eq_symm hba) hbc

/-! ### Operations -/

theorem Represents.exists_insert (h : l.Represents set) (hl : l.Sound) (a : α) :
    ∃ l', l.insert a = .ok (!set.contains a, l') ∧ l.Evolves l' ∧ l'.Represents (set.insert a) := by
  obtain ⟨ins, l', hins, hspec⟩ := insert_spec hl a
  obtain ⟨hrep, hcontains⟩ := h.insert hl hspec
  refine ⟨l', ?_, hspec.evolves, hrep⟩
  rw [hins, hcontains, Bool.not_not]

theorem Represents.exists_remove (h : l.Represents set) (hl : l.Sound) (a : α) :
    ∃ l', l.remove a = .ok (set.get? a, l') ∧ l.Evolves l' ∧ l'.Represents (set.erase a) := by
  obtain ⟨removed, l', hrem, hspec⟩ := remove_spec hl a
  refine ⟨l', ?_, hspec.evolves, h.erase (hspec.removes hl (Probe.monotone_ofElement a))⟩
  rw [hrem, h.get?_eq hl hspec.stores]

theorem Represents.exists_delete (h : l.Represents set) (hl : l.Sound) (a : α) :
    ∃ l', l.delete a = .ok (set.contains a, l') ∧ l.Evolves l' ∧ l'.Represents (set.erase a) := by
  obtain ⟨l', hrem, he, hrep⟩ := h.exists_remove hl a
  refine ⟨l', ?_, he, hrep⟩
  rw [delete, hrem, TreeSet.contains_eq_isSome_get?]
  rfl

theorem Represents.exists_contains (h : l.Represents set) (hl : l.Sound) (a : α) :
    ∃ l', l.contains a = .ok (set.contains a, l') ∧ l.Evolves l' ∧ l'.Represents set := by
  obtain ⟨found, l', hcon, htrims, hfound⟩ := contains_spec hl a
  refine ⟨l', ?_, htrims.evolves, h.trims htrims⟩
  rw [hcon, h.contains_eq hl hfound]

theorem Represents.exists_find (h : l.Represents set) (hl : l.Sound) (a : α) :
    ∃ l', l.find a = .ok (set.get? a, l') ∧ l.Evolves l' ∧ l'.Represents set := by
  obtain ⟨stored, l', hfind, htrims, hstores⟩ := find_spec hl a
  refine ⟨l', ?_, htrims.evolves, h.trims htrims⟩
  rw [hfind, h.get?_eq hl hstores]

theorem Represents.length_eq (h : l.Represents set) (hl : l.Sound) : l.length = .ok set.size := by
  rw [SortedList.length_eq hl.toOrdered, h.live_eq hl, TreeSet.length_toList]

theorem Represents.isEmpty_eq (h : l.Represents set) (hl : l.Sound) :
    l.isEmpty = .ok set.isEmpty := by
  rw [SortedList.isEmpty_eq hl.toOrdered, h.live_eq hl, TreeSet.isEmpty_toList]

theorem Represents.toList_eq (h : l.Represents set) (hl : l.Sound) :
    l.toList = .ok set.toList := by
  rw [SortedList.toList_eq hl.toOrdered, h.live_eq hl]

end SortedList

namespace ListSession

open SortedList

variable {α ρ : Type} [Ord α]

/-- An operation on the list ends with the reply that is expected, apart from what `forget` takes
away, and leaves a list that represents the set expected. -/
def Refines (s : ListSession α) (forget : ρ → ρ) (outcome : Checked (ρ × ListSession α))
    (expected : ρ × TreeSet α) : Prop :=
  ∃ reply t, outcome = .ok (reply, t) ∧ forget reply = expected.1 ∧ s.list.Evolves t.list ∧
    t.list.Represents expected.2

variable {s : ListSession α}

theorem refines_onList {operation : SortedList α → Checked (ρ × SortedList α)} {x : ρ}
    {l' : SortedList α} {reply : ρ → ListReply α} {expected : ListReply α × TreeSet α}
    (hop : operation s.list = .ok (x, l')) (he : s.list.Evolves l')
    (hreply : (reply x).forgetChain = expected.1) (hrep : l'.Represents expected.2) :
    s.Refines .forgetChain (s.onList operation reply) expected := by
  refine ⟨reply x, { s with list := l' }, ?_, hreply, he, hrep⟩
  rw [onList, hop]
  rfl

theorem refines_reading {read : SortedList α → Checked ρ} {x : ρ} {reply : ρ → ListReply α}
    {expected : ListReply α × TreeSet α} (hread : read s.list = .ok x)
    (hreply : (reply x).forgetChain = expected.1) (hrep : s.list.Represents expected.2) :
    s.Refines .forgetChain (s.reading read reply) expected := by
  refine ⟨reply x, s, ?_, hreply, .refl, hrep⟩
  rw [reading, hread]
  rfl

/-! ### The simulation -/

variable [Std.TransOrd α] [Text.Legible α]

/-- A deletion with others in the middle of it, put together from its claim and their run. It is
completed whatever they did. -/
theorem deleteWith_eq {a b : α} {c : Claim} {l₁ : SortedList α} {ops : List (ListOp α)}
    {replies : List (ListReply α)} {t : ListSession α} (hs : s.list.Sound)
    (hclaim : s.list.claimAfter head (.ofElement a) = .ok (some c, l₁))
    (hclaims : s.list.Claims (.ofElement a) c l₁) (hb : s.list.Holds c.node b)
    (hsteps : { s with list := l₁ }.steps ops = .ok (replies, t)) (he : l₁.Evolves t.list) :
    ∃ l₂, s.step (.deleteWith a ops) =
        .ok (.deletion b l₁.chain replies, { t with list := l₂ }) ∧ t.list.Settles c l₂ := by
  have ht : t.list.Sound := (hs.evolves (hclaims.evolves.trans he)).1
  have helem : l₁.element c.node = .ok b :=
    element_eq_ok_iff.mpr ((hclaims.element_eq c.node).trans hb.1)
  obtain ⟨l₂, hsettle, hset⟩ :=
    hclaims.settles hs he (ht.inFront_head _) (Probe.monotone_ofElement a)
  refine ⟨l₂, ?_, hset⟩
  simp only [step, hclaim, helem, hsteps, hsettle, Checked.ok_bind]
  rfl

mutual

/-- **Step lemma.** An operation on a list replies what it replies on the set that the list
represents, and leaves a list that represents the set left. -/
theorem step_refines (s : ListSession α) (set : TreeSet α) (hs : s.list.Sound)
    (h : s.list.Represents set) :
    ∀ op : SetOp α, s.Refines .forgetChain (s.step op.onList) (op.step set)
  | .insert a => by
    obtain ⟨l', hins, he, hrep⟩ := h.exists_insert hs a
    simp only [SetOp.onList, step, answer, SetOp.step]
    exact refines_onList hins he rfl hrep
  | .delete a => by
    obtain ⟨l', hdel, he, hrep⟩ := h.exists_delete hs a
    simp only [SetOp.onList, step, answer, SetOp.step]
    exact refines_onList hdel he rfl hrep
  | .remove a => by
    obtain ⟨l', hrem, he, hrep⟩ := h.exists_remove hs a
    simp only [SetOp.onList, step, answer, SetOp.step]
    refine refines_onList hrem he ?_ hrep
    cases set.get? a <;> rfl
  | .contains a => by
    obtain ⟨l', hcon, he, hrep⟩ := h.exists_contains hs a
    simp only [SetOp.onList, step, answer, SetOp.step]
    exact refines_onList hcon he rfl hrep
  | .find a => by
    obtain ⟨l', hfind, he, hrep⟩ := h.exists_find hs a
    simp only [SetOp.onList, step, answer, SetOp.step]
    refine refines_onList hfind he ?_ hrep
    cases set.get? a <;> rfl
  | .stored a => by
    obtain ⟨l', hfind, he, hrep⟩ := h.exists_find hs a
    simp only [SetOp.onList, step, answer, SetOp.step]
    refine refines_onList hfind he ?_ hrep
    cases set.get? a <;> rfl
  | .length => by
    simp only [SetOp.onList, step, answer, SetOp.step]
    exact refines_reading (h.length_eq hs) rfl h
  | .toList => by
    simp only [SetOp.onList, step, answer, SetOp.step]
    exact refines_reading (h.toList_eq hs) rfl h
  | .markOnly a => by
    obtain ⟨found, l', hmark, he, hfound, hrem⟩ := markOnly_spec hs a
    simp only [SetOp.onList, step, answer, SetOp.step]
    refine refines_onList hmark he ?_ (h.erase hrem)
    rw [h.contains_eq hs hfound]
    rfl
  | .deleteWith a nested => by
    have hmono := Probe.monotone_ofElement a
    obtain ⟨claim, l₁, hclaim, hends⟩ := claimAfter_spec hs (hs.inFront_head (.ofElement a)) hmono
    have hl₁ := (hs.evolves hends.evolves).1
    rw [SetOp.onList, SetOp.step]
    cases claim with
    | none =>
      obtain ⟨htrims, hlacks⟩ := hends
      have hstores : s.list.Stores (.ofElement a) none := hlacks
      rw [h.get?_eq hs hstores, step, hclaim]
      exact ⟨.nothing, { s with list := l₁ }, rfl, rfl, htrims.evolves, h.trims htrims⟩
    | some c =>
      have hclaims : s.list.Claims (.ofElement a) c l₁ := hends
      obtain ⟨b, hb, heq⟩ := hclaims.held
      have hstores : s.list.Stores (.ofElement a) (some b) := ⟨c.node, hb, heq⟩
      rw [h.get?_eq hs hstores]
      -- the claim alone has removed the element; the others run on what is left
      have hrep₁ : l₁.Represents (set.erase a) := h.erase (hclaims.removes hs hmono)
      obtain ⟨replies, t, hsteps, hreplies, he, hrep⟩ :=
        steps_refines { s with list := l₁ } (set.erase a) hl₁ hrep₁ nested
      obtain ⟨l₂, hstep, hset⟩ := deleteWith_eq hs hclaim hclaims hb hsteps he
      refine ⟨_, _, hstep, ?_, (hclaims.evolves.trans he).trans hset.evolves,
        hrep.congr fun _ _ => hset.holds_iff⟩
      rw [ListReply.forgetChain, hreplies]
  | .applyWith a nested => by
    obtain ⟨found, l₁, hlook, htrims, hfound⟩ := lookup_spec hs a
    have hl₁ := (hs.evolves htrims.evolves).1
    simp only [SetOp.onList, step, SetOp.step, hlook, Checked.ok_bind]
    cases found with
    | none =>
      have hstores : s.list.Stores (.ofElement a) none := hfound
      rw [h.get?_eq hs hstores]
      exact ⟨.nothing, { s with list := l₁ }, rfl, rfl, htrims.evolves, h.trims htrims⟩
    | some i =>
      obtain ⟨b, hb, heq⟩ := hfound
      have hstores : s.list.Stores (.ofElement a) (some b) := ⟨i, hb, heq⟩
      rw [h.get?_eq hs hstores]
      obtain ⟨replies, t, hsteps, hreplies, he, hrep⟩ :=
        steps_refines { s with list := l₁ } set hl₁ (h.trims htrims) nested
      have helem : l₁.element i = .ok b := element_eq_ok_iff.mpr (htrims.holds_iff.mpr hb).1
      refine ⟨.application b replies, t, ?_, ?_, htrims.evolves.trans he, hrep⟩
      · simp only [helem, hsteps, Checked.ok_bind]
        rfl
      · rw [ListReply.forgetChain, hreplies]

/-- **Run lemma.** -/
theorem steps_refines (s : ListSession α) (set : TreeSet α) (hs : s.list.Sound)
    (h : s.list.Represents set) :
    ∀ ops : List (SetOp α),
      s.Refines ListReply.forgetChains (s.steps (SetOp.allOnList ops)) (SetOp.steps set ops)
  | [] => ⟨[], s, rfl, rfl, .refl, h⟩
  | op :: ops => by
    obtain ⟨reply, t, hstep, hreply, he, hrep⟩ := step_refines s set hs h op
    obtain ⟨replies, u, hsteps, hreplies, he', hrep'⟩ :=
      steps_refines t (op.step set).2 (hs.evolves he).1 hrep ops
    refine ⟨reply :: replies, u, ?_, ?_, he.trans he', hrep'⟩
    · rw [SetOp.allOnList, steps, hstep]
      simp only [Checked.ok_bind, hsteps]
      rfl
    · rw [ListReply.forgetChains, hreply, hreplies, SetOp.steps]

end

/-- **A list is a sorted set.** Any run that begins with an empty list, deleted nodes left on the
chain or not, replies what it replies on a set, and its elements in the end are those of the set. -/
theorem replies_eq_treeSet (p : Protection) (ops : List (SetOp α)) :
    ∃ replies s, (fresh p).steps (SetOp.allOnList ops) = .ok (replies, s) ∧
      ListReply.forgetChains replies = (SetOp.steps ∅ ops).1 ∧
      s.list.live = (SetOp.steps ∅ ops).2.toList := by
  have hfresh : (fresh p : ListSession α).list.Sound := sound_empty
  obtain ⟨replies, s, hsteps, hreplies, he, hrep⟩ :=
    steps_refines (fresh p) ∅ hfresh represents_empty ops
  exact ⟨replies, s, hsteps, hreplies, hrep.live_eq (hfresh.evolves he).1⟩

/-- Two marks next to each other, the claimed node behind them, and an insertion where one of them
stands. -/
theorem replies_eq_treeSet_of_marks :
    ∃ replies s, (fresh .epoch : ListSession UInt64).steps (SetOp.allOnList
        [.insert 10, .insert 20, .insert 30, .markOnly 20, .markOnly 10,
          .deleteWith 30 [.contains 30, .insert 10, .toList], .remove 20]) = .ok (replies, s) ∧
      ListReply.forgetChains replies =
        [.flag true, .flag true, .flag true, .flag true, .flag true,
          .deletion 30 [] [.flag false, .flag true, .items [10]], .nothing] ∧
      s.list.live = [10] :=
  replies_eq_treeSet .epoch _

end ListSession

end SplitOrder
