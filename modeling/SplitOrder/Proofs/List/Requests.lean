import SplitOrder.List.Session
import SplitOrder.Proofs.Collection
import SplitOrder.Proofs.List.Operations

/-!
# What requests amount to

A session takes many kinds of requests, and few things happen to its list: it is trimmed, an element
is inserted, an element is deleted, or several of these in a row. The case analysis over the requests
is made once, for whatever adds up along these effects (`SortedList.Tracks`); what is to be known of
all requests is then an instance.

* `ListSession.deletionsIn` — how many of the deletions in a request succeed: the number that adds up.
* `ListSession.answer_tracks` — the case analysis.
* `ListSession.answer_evolves` — an instance: a request only writes to the list what `Write` allows.

The one request apart is the bare delete mark, which takes an element away without deleting it.
-/

namespace SplitOrder

namespace SortedList

variable {α : Type} [Ord α]

/-- **Of the effects on a list, deletions are what is counted.** -/
structure Tracks (R : SortedList α → Nat → SortedList α → Prop) : Prop extends AddsUp R where
  trims : ∀ {l l'}, l.Sound → l.Trims l' → R l 0 l'
  inserts : ∀ {l l' a ins}, l.Sound → l.Inserts a ins l' → R l 0 l'
  deletes : ∀ {l l' probe removed}, l.Sound → l.DeletionEnds probe removed l' →
    R l removed.isSome.toNat l'

/-- Evolution is something that adds up, whatever the number. -/
theorem tracks_evolves : Tracks fun (l : SortedList α) _ l' => l.Evolves l' where
  refl := fun _ => .refl
  trans := fun h h' => h.trans h'
  trims := fun _ h => h.evolves
  inserts := fun _ h => h.evolves
  deletes := fun _ h => h.evolves

variable [Std.TransOrd α] {R : SortedList α → Nat → SortedList α → Prop} {l l' : SortedList α}

theorem Tracks.insert (hR : Tracks R) (hl : l.Sound) {a : α} {b : Bool}
    (h : l.insert a = .ok (b, l')) : l'.Sound ∧ R l 0 l' := by
  obtain ⟨ins, l₁, hins, hspec⟩ := insert_spec hl a
  cases hins.symm.trans h
  exact ⟨(hl.evolves hspec.evolves).1, hR.inserts hl hspec⟩

theorem Tracks.remove (hR : Tracks R) (hl : l.Sound) {a : α} {removed : Option α}
    (h : l.remove a = .ok (removed, l')) : R l removed.isSome.toNat l' := by
  obtain ⟨removed', l₁, hrem, hspec⟩ := remove_spec hl a
  cases hrem.symm.trans h
  exact hR.deletes hl hspec

theorem Tracks.delete (hR : Tracks R) (hl : l.Sound) {a : α} {b : Bool}
    (h : l.delete a = .ok (b, l')) : l'.Sound ∧ R l b.toNat l' := by
  obtain ⟨removed, l₁, hdel, hspec⟩ := delete_spec hl a
  cases hdel.symm.trans h
  exact ⟨(hl.evolves hspec.evolves).1, hR.deletes hl hspec⟩

theorem Tracks.contains (hR : Tracks R) (hl : l.Sound) {a : α} {b : Bool}
    (h : l.contains a = .ok (b, l')) : l'.Sound ∧ R l 0 l' := by
  obtain ⟨found, l₁, hlook, htrims, -⟩ := contains_spec hl a
  cases hlook.symm.trans h
  exact ⟨(hl.evolves htrims.evolves).1, hR.trims hl htrims⟩

theorem Tracks.find (hR : Tracks R) (hl : l.Sound) {a : α} {stored : Option α}
    (h : l.find a = .ok (stored, l')) : R l 0 l' := by
  obtain ⟨stored', l₁, hfind, htrims, -⟩ := find_spec hl a
  cases hfind.symm.trans h
  exact hR.trims hl htrims

/-- What adds up along the operations of sound lists adds up along requests about many elements. -/
theorem Tracks.keys (hR : Tracks R) : KeyCollection.Tracks fun (l : SortedList α) n l' =>
    l.Sound → l'.Sound ∧ R l n l' where
  refl := fun l hl => ⟨hl, hR.refl l⟩
  trans := by
    intro l l₁ l₂ m n h h' hl
    obtain ⟨hl₁, hm⟩ := h hl
    obtain ⟨hl₂, hn⟩ := h' hl₁
    exact ⟨hl₂, hR.trans hm hn⟩
  insert := fun h hl => hR.insert hl h
  delete := fun h hl => hR.delete hl h
  contains := fun h hl => hR.contains hl h

end SortedList

namespace ListSession

open SortedList

variable {α ρ : Type} {s t : ListSession α} {reply : ListReply α}

/-! ### Requests -/

theorem reading_eq {read : SortedList α → Checked ρ} {toReply : ρ → ListReply α}
    (h : s.reading read toReply = .ok (reply, t)) : t = s := by
  obtain ⟨x, -, h⟩ := Checked.bind_eq_ok.mp h
  cases h
  rfl

theorem list_withCursor {i : Nat} {use : Cursor → Checked (ListReply α × Cursor)}
    (h : s.withCursor i use = .ok (reply, t)) : t.list = s.list := by
  unfold withCursor at h
  split at h
  · cases h
    rfl
  · obtain ⟨x, -, h⟩ := Checked.bind_eq_ok.mp h
    cases h
    rfl

variable [Ord α]

/-- How many of the deletions in a request succeed. -/
def deletionsIn (s : ListSession α) : ListRequest α → Checked Nat
  | .delete a => do
    let (deleted, _) ← s.list.delete a
    return deleted.toNat
  | .remove a => do
    let (removed, _) ← s.list.remove a
    return removed.isSome.toNat
  | .deleteAfter start a => do
    match ← s.anchor? start a with
    | (none, _) => return 0
    | (some i, s) =>
      let (removed, _) ← s.list.deleteAfter i (.ofElement a)
      return removed.isSome.toNat
  | .bulk request => KeyCollection.deletions s.list request
  | _ => return 0

omit [Ord α] in
/-- The outcome of an operation on the list. -/
theorem exists_onList {operation : SortedList α → Checked (ρ × SortedList α)}
    {toReply : ρ → ListReply α} (h : s.onList operation toReply = .ok (reply, t)) :
    ∃ x, operation s.list = .ok (x, t.list) := by
  obtain ⟨⟨x, l'⟩, h₁, h⟩ := Checked.bind_eq_ok.mp h
  cases h
  exact ⟨x, h₁⟩

variable [Std.TransOrd α] {R : SortedList α → Nat → SortedList α → Prop}

theorem evolves_lookup {l l' : SortedList α} {a : α} {found : Option NodeId} (hl : l.Sound)
    (h : l.lookup a = .ok (found, l')) : l.Trims l' ∧ l.Found (.ofElement a) found := by
  obtain ⟨found', l₁, hlook, hspec⟩ := lookup_spec hl a
  cases hlook.symm.trans h
  exact hspec

/-- The start of an anchored operation is in front of the element it is for. -/
theorem anchor?_spec {start : Option α} {a : α} {found : Option NodeId} (hs : s.list.Sound)
    (h : s.anchor? start a = .ok (found, t)) :
    s.list.Trims t.list ∧ ∀ i, found = some i → t.list.InFront (.ofElement a) i := by
  cases start with
  | none =>
    cases h
    refine ⟨Trims.refl _, fun i hi => ?_⟩
    cases hi
    exact hs.inFront_head _
  | some b =>
    by_cases hlt : compare b a = .lt
    · rw [anchor?, if_pos hlt] at h
      obtain ⟨⟨found', l'⟩, hlook, h⟩ := Checked.bind_eq_ok.mp h
      cases h
      obtain ⟨htrims, hfound⟩ := evolves_lookup hs hlook
      refine ⟨htrims, fun i hi => ?_⟩
      subst hi
      -- the node holds an element equal to `b`, which is below `a`
      obtain ⟨c, hc, heq⟩ := hfound
      have heq : compare c b = .eq := heq
      have hca : compare c a = .lt := Std.TransCmp.lt_of_eq_of_lt heq hlt
      exact htrims.inFront (hc.inFront hca)
    · rw [anchor?, if_neg hlt] at h
      cases h
      exact ⟨Trims.refl _, fun i hi => nomatch hi⟩

/-- An anchored operation adds to the trimming that finds its start. -/
theorem tracks_fromAnchor (hR : Tracks R) {start : Option α} {a : α}
    {operation : SortedList α → NodeId → Checked (ListReply α × SortedList α)}
    (hs : s.list.Sound)
    (hop : ∀ {l i reply l'}, l.Sound → l.InFront (.ofElement a) i →
      operation l i = .ok (reply, l') → R l 0 l')
    (h : s.fromAnchor start a operation = .ok (reply, t)) : R s.list 0 t.list := by
  obtain ⟨⟨found, s₁⟩, hanchor, h⟩ := Checked.bind_eq_ok.mp h
  obtain ⟨htrims, hfront⟩ := anchor?_spec hs hanchor
  cases found with
  | none =>
    cases h
    exact hR.trims hs htrims
  | some i =>
    obtain ⟨⟨reply', l'⟩, hrun, h⟩ := Checked.bind_eq_ok.mp h
    cases h
    exact hR.trans (hR.trims hs htrims)
      (hop (hs.evolves htrims.evolves).1 (hfront i rfl) hrun)

/-- **Step lemma.** A request adds the deletions in it that succeed. -/
theorem answer_tracks [Text.Legible α] (hR : Tracks R) {r : ListRequest α} (hs : s.list.Sound)
    (hmark : ∀ {a b l'}, r = .markOnly a → s.list.markOnly a = .ok (b, l') → R s.list 0 l')
    (h : s.answer r = .ok (reply, t)) : ∃ n, s.deletionsIn r = .ok n ∧ R s.list n t.list := by
  unfold answer at h
  cases r with
  | insert a =>
    obtain ⟨b, hop⟩ := exists_onList h
    exact ⟨0, rfl, (hR.insert hs hop).2⟩
  | delete a =>
    obtain ⟨b, hop⟩ := exists_onList h
    exact ⟨b.toNat, by rw [deletionsIn, hop]; rfl, (hR.delete hs hop).2⟩
  | remove a =>
    obtain ⟨removed, hop⟩ := exists_onList h
    exact ⟨removed.isSome.toNat, by rw [deletionsIn, hop]; rfl, hR.remove hs hop⟩
  | contains a =>
    obtain ⟨b, hop⟩ := exists_onList h
    exact ⟨0, rfl, (hR.contains hs hop).2⟩
  | find a | stored a =>
    obtain ⟨x, hop⟩ := exists_onList h
    exact ⟨0, rfl, hR.find hs hop⟩
  | markOnly a =>
    obtain ⟨b, hop⟩ := exists_onList h
    exact ⟨0, rfl, hmark rfl hop⟩
  | bulk request =>
    obtain ⟨x, hop⟩ := exists_onList h
    obtain ⟨n, hn, htracks⟩ := hR.keys.handle hop
    exact ⟨n, hn, (htracks hs).2⟩
  | length | isEmpty | first | position a | get index | toList | debug layout =>
    rw [reading_eq h]
    exact ⟨0, rfl, hR.refl _⟩
  | hasNext i | next i | demand i | peek i | drain i | close i =>
    rw [list_withCursor h]
    exact ⟨0, rfl, hR.refl _⟩
  | held i | retired | chain | openCursor =>
    cases h
    exact ⟨0, rfl, hR.refl _⟩
  | hold a =>
    obtain ⟨⟨found, l'⟩, hlook, h⟩ := Checked.bind_eq_ok.mp h
    have htrims := hR.trims hs (evolves_lookup hs hlook).1
    cases found with
    | none => cases h; exact ⟨0, rfl, htrims⟩
    | some i => cases h; exact ⟨0, rfl, htrims⟩
  | sweep =>
    obtain ⟨loc, l', hsearch, htrims, -⟩ := search_spec hs (hs.inFront_head .aboveAll)
    simp only [hsearch, Checked.ok_bind] at h
    cases h
    exact ⟨0, rfl, hR.trims hs htrims⟩
  | search start a =>
    refine ⟨0, rfl, tracks_fromAnchor hR hs (fun hl hi h => ?_) h⟩
    obtain ⟨loc, l', hsearch, htrims, -⟩ := search_spec hl hi
    rw [hsearch] at h
    cases h
    exact hR.trims hl htrims
  | lookup start a =>
    refine ⟨0, rfl, tracks_fromAnchor hR hs (fun hl hi h => ?_) h⟩
    obtain ⟨found, l', hlook, htrims, -⟩ := lookupAfter_spec hl hi (Probe.monotone_ofElement a)
    rw [hlook] at h
    cases h
    exact hR.trims hl htrims
  | insertAfter start a =>
    refine ⟨0, rfl, tracks_fromAnchor hR hs (fun hl hi h => ?_) h⟩
    obtain ⟨ins, l', hins, hspec⟩ := insertAfter_spec hl hi
    rw [hins, Checked.ok_bind] at h
    cases ins with
    | linked i | existing i =>
      obtain ⟨b, -, h⟩ := Checked.bind_eq_ok.mp h
      cases h
      exact hR.inserts hl hspec
  | deleteAfter start a =>
    -- the one anchored operation that counts
    obtain ⟨⟨found, s₁⟩, hanchor, h⟩ := Checked.bind_eq_ok.mp h
    obtain ⟨htrims, hfront⟩ := anchor?_spec hs hanchor
    rw [deletionsIn, hanchor, Checked.ok_bind]
    cases found with
    | none =>
      cases h
      exact ⟨0, rfl, hR.trims hs htrims⟩
    | some i =>
      have hs₁ : s₁.list.Sound := (hs.evolves htrims.evolves).1
      obtain ⟨removed, l', hdel, hends⟩ :=
        deleteAfter_spec hs₁ (hfront i rfl) (Probe.monotone_ofElement a)
      simp only [hdel, Checked.ok_bind] at h ⊢
      cases h
      refine ⟨removed.isSome.toNat, rfl, ?_⟩
      rw [← Nat.zero_add removed.isSome.toNat]
      exact hR.trans (hR.trims hs htrims) (hR.deletes hs₁ hends)
  | debugNode a =>
    cases a with
    | none =>
      cases h
      exact ⟨0, rfl, hR.refl _⟩
    | some a =>
      obtain ⟨⟨found, l'⟩, hlook, h⟩ := Checked.bind_eq_ok.mp h
      cases h
      exact ⟨0, rfl, hR.trims hs (evolves_lookup hs hlook).1⟩
  | headElement =>
    obtain ⟨a, -, h⟩ := Checked.bind_eq_ok.mp h
    cases h
    exact ⟨0, rfl, hR.refl _⟩

/-- A request only writes to the list what may be written. -/
theorem answer_evolves [Text.Legible α] {r : ListRequest α} (hs : s.list.Sound)
    (h : s.answer r = .ok (reply, t)) : s.list.Evolves t.list := by
  obtain ⟨n, -, he⟩ := answer_tracks tracks_evolves hs (fun _ hop => evolves_markOnly hs hop) h
  exact he

end ListSession

end SplitOrder
