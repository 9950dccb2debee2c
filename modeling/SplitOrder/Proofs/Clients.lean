import SplitOrder.Proofs.Interleaving
import SplitOrder.Proofs.List.Operations
import SplitOrder.Proofs.List.Reachable
import SplitOrder.Proofs.Table.Faultless
import SplitOrder.Proofs.Table.HistoryFree

/-!
# The order in which clients call does not show

Lists, tables and key sets under clients that keep to their own keys. In the nodes the calls meet:
they share predecessors, unlink what others deleted, link sentinels that others use, and double the
buckets at different times. But what a call replies is read off what is stored for its key, and
what is stored for other keys it leaves as it is.

* `Call`, `Answer` — what all collections have in common. `Call.spec` is the effect of a call on the
  cell of its key.
* `SortedList.Serves` — one call, told by what searches find before and after it; `serve_spec` of lists
  and of tables say that every call is one.
* `clients_confluent` — hence there is one outcome for all orders of the calls.
-/

namespace SplitOrder

/-! ### Calls -/

/-- A call about one key. A list stores the key itself, and no value with it. -/
inductive Call (κ ν : Type) where
  | insert (key : κ) (value : ν)
  | delete (key : κ)
  | remove (key : κ)
  | contains (key : κ)
deriving DecidableEq, Repr

inductive Answer (ω : Type) where
  | flag (b : Bool)
  /-- What was removed, if there was anything. -/
  | removed (item : Option ω)
deriving DecidableEq, Repr

namespace Call

variable {ι κ ν β ω : Type}

def key : Call κ ν → κ
  | .insert key _ | .delete key | .remove key | .contains key => key

def isInsert : Call κ ν → Bool
  | .insert _ _ => true
  | _ => false

/-- What a call replies and what it leaves in the cell of its key. An insertion makes the content of
an empty cell and leaves any other as it is; of what was removed something is shown. -/
def effect (make : κ → ν → β) (shown : β → Option ω) : Call κ ν → Option β → Answer ω × Option β
  | .insert key value, x => (.flag x.isNone, some (x.getD (make key value)))
  | .delete _, x => (.flag x.isSome, none)
  | .remove _, x => (.removed (x.bind shown), none)
  | .contains _, x => (.flag x.isSome, x)

/-- A node is retired by each deletion that succeeds. -/
def retires : Call κ ν → Answer ω → Nat
  | .delete _, .flag deleted => deleted.toNat
  | .remove _, .removed item => item.isSome.toNat
  | _, _ => 0

/-- **Calls as calls that concern one cell.** Keys that compare equal name the same cell. -/
def spec (cmp : κ → κ → Ordering) [Std.TransCmp cmp] (make : κ → ν → β) (shown : β → Option ω) :
    CellSpec (Call κ ν) κ β (Answer ω) where
  key := key
  same := fun a b => cmp a b == .eq
  refl := fun _ => beq_iff_eq.mpr Std.ReflCmp.compare_self
  symm := fun h => beq_iff_eq.mpr (Std.OrientedCmp.eq_symm (beq_iff_eq.mp h))
  trans := fun h h' => beq_iff_eq.mpr (Std.TransCmp.eq_trans (beq_iff_eq.mp h) (beq_iff_eq.mp h'))
  effect := effect make shown
  retires := retires

/-- No key is used by two clients. -/
def Apart [Ord κ] (rows : ι → List (Call κ ν)) : Prop :=
  ∀ i j, i ≠ j → ∀ c ∈ rows i, ∀ d ∈ rows j, compare c.key d.key ≠ .eq

theorem Apart.spec [Ord κ] {rows : ι → List (Call κ ν)} (h : Apart rows)
    {cmp : κ → κ → Ordering} [Std.TransCmp cmp] (hcmp : ∀ a b, cmp a b = .eq → compare a b = .eq)
    {make : κ → ν → β} {shown : β → Option ω} : (Call.spec cmp make shown).Apart rows := by
  intro i j hij c hc d hd
  exact beq_eq_false_iff_ne.mpr fun heq => h i j hij c hc d hd (hcmp _ _ heq)

end Call

/-- What can be seen of a collection: what it lists, how long it says it is, and how many nodes were
retired. -/
structure Summary (α : Type) where
  listing : Checked (List α)
  length : Checked Nat
  retired : UInt64

namespace SortedList

/-! ### Cells of a list -/

section Cells

variable {α γ κ ρ : Type} {l l' : SortedList α} {place : κ → Probe α} {m : κ → Option α}
  {C : CellSpec γ κ α ρ} {c : γ} {r : ρ}

/-- The cells of a list: the cell of a key holds what a search for it finds. -/
def Shows (l : SortedList α) (place : κ → Probe α) (m : κ → Option α) : Prop :=
  ∀ k, l.Stores (place k) (m k)

/-- **A call is served**: what it replies and leaves is read off what a search for its key finds, and
searches for other keys find what they found before. -/
structure Serves (l : SortedList α) (place : κ → Probe α) (C : CellSpec γ κ α ρ) (c : γ) (r : ρ)
    (l' : SortedList α) : Prop where
  own : ∃ x, l.Stores (place (C.key c)) x ∧ r = (C.effect c x).1 ∧
    l'.Stores (place (C.key c)) (C.effect c x).2
  other : ∀ k x, C.same k (C.key c) = false → l.Stores (place k) x → l'.Stores (place k) x

theorem Stores.congr_probe {probe probe' : Probe α} {x : Option α} (h : l.Stores probe x)
    (hiff : ∀ b, probe b = .eq ↔ probe' b = .eq) : l.Stores probe' x := by
  cases x with
  | none => exact fun i b hb heq => h i b hb ((hiff b).mpr heq)
  | some a =>
    obtain ⟨i, ha, heq⟩ := h
    exact ⟨i, ha, (hiff a).mp heq⟩

/-- What is served acts on the cells as the call is meant to. -/
theorem Serves.shows [Ord α] [Std.TransOrd α] (h : l.Serves place C c r l') (hl : l.Sound)
    (hmono : ∀ k, (place k).Monotone)
    (hsame : ∀ k k', C.same k k' = true → ∀ b, place k' b = .eq ↔ place k b = .eq)
    (hm : l.Shows place m) : r = (C.apply m c).1 ∧ l'.Shows place (C.apply m c).2 := by
  obtain ⟨x, hx, hreply, hleft⟩ := h.own
  obtain rfl := hx.unique hl (hmono _) (hm (C.key c))
  refine ⟨hreply, fun k => ?_⟩
  cases hk : C.same k (C.key c) with
  | false =>
    rw [CellSpec.apply_of_not_same hk]
    exact h.other k _ hk (hm k)
  | true =>
    have hcell : (C.apply m c).2 k = (C.effect c (m (C.key c))).2 := if_pos hk
    rw [hcell]
    exact hleft.congr_probe (hsame k _ hk)

end Cells

/-! ### Lists -/

section Lists

variable {α : Type} [Ord α] {l l' : SortedList α} {c : Call α Unit} {r : Answer α}

/-- A list serves a call. -/
def serve (l : SortedList α) : Call α Unit → Checked (Answer α × SortedList α)
  | .insert a _ => do
    let (isNew, l) ← l.insert a
    return (.flag isNew, l)
  | .delete a => do
    let (deleted, l) ← l.delete a
    return (.flag deleted, l)
  | .remove a => do
    let (removed, l) ← l.remove a
    return (.removed removed, l)
  | .contains a => do
    let (found, l) ← l.contains a
    return (.flag found, l)

variable [Std.TransOrd α]

/-- The calls of a list, by what they do to the element equal to theirs. -/
def spec : CellSpec (Call α Unit) α α (Answer α) :=
  Call.spec compare (fun a _ => a) some

omit [Std.TransOrd α] in
/-- A deletion retires a node if it answers an element. -/
theorem DeletionEnds.count_eq {probe : Probe α} {removed : Option α}
    (h : l.DeletionEnds probe removed l') :
    l'.reclaimer.count = l.reclaimer.count + .ofNat removed.isSome.toNat := by
  cases removed with
  | none =>
    rw [h.1.reclaimer_eq]
    exact (UInt64.add_zero _).symm
  | some a =>
    obtain ⟨i, hdeletes⟩ := h
    rw [hdeletes.reclaimer_eq, Reclaimer.count_retire]
    rfl

/-- What equals one of two elements that are not equal does not equal the other one. -/
theorem compare_ne_eq_of_not_same {k a b : α} (hk : spec.same k a = false)
    (hbk : compare b k = .eq) : compare b a ≠ .eq := by
  intro hba
  have hka : compare k a = .eq := Std.TransCmp.eq_trans (Std.OrientedCmp.eq_symm hbk) hba
  exact Bool.false_ne_true (hk.symm.trans (beq_iff_eq.mpr hka))

/-- An insertion keeps an element that is stored, and all others. -/
theorem Inserts.serves {a : α} {ins : Insertion} (h : l.Inserts a ins l') :
    l.Serves Probe.ofElement spec (.insert a ()) (.flag ins.isNew) l' := by
  cases ins with
  | existing i =>
    obtain ⟨htrims, b, hb, heq⟩ := h
    exact ⟨⟨some b, ⟨i, hb, heq⟩, rfl, i, htrims.holds_iff.mpr hb, heq⟩,
      fun k x _ hx => hx.congr fun _ _ => htrims.holds_iff⟩
  | linked i =>
    have hlinks : l.Links a i l' := h
    refine ⟨⟨none, hlinks.fresh, rfl, hlinks.stores Std.compare_self⟩, fun k x hk hx => ?_⟩
    exact hx.links hlinks fun hak => compare_ne_eq_of_not_same hk hak Std.compare_self

/-- A deletion empties the cell of its element and keeps all others. -/
theorem DeletionEnds.serves {removed : Option α} {a : α} (hl : l.Sound)
    (h : l.DeletionEnds (.ofElement a) removed l') :
    l.Serves Probe.ofElement spec (.delete a) (.flag removed.isSome) l' ∧
      l.Serves Probe.ofElement spec (.remove a) (.removed removed) l' := by
  have hremoves : l.Removes (.ofElement a) l' := h.removes hl (Probe.monotone_ofElement a)
  have hempty : l'.Stores (.ofElement a) none := hremoves.lacks fun _ => id
  have hother : ∀ k x, spec.same k a = false → l.Stores (.ofElement k) x →
      l'.Stores (.ofElement k) x :=
    fun k x hk hx => hx.removes hremoves fun b hbk => compare_ne_eq_of_not_same hk hbk
  have hshown : removed = removed.bind some := by simp
  exact ⟨⟨⟨removed, h.stores, rfl, hempty⟩, hother⟩,
    ⟨⟨removed, h.stores, congrArg Answer.removed hshown, hempty⟩, hother⟩⟩

omit [Std.TransOrd α] in
theorem Inserts.count_eq {a : α} {ins : Insertion} (h : l.Inserts a ins l') :
    l'.reclaimer.count = l.reclaimer.count := by
  cases ins with
  | existing i => rw [h.1.reclaimer_eq]
  | linked i => rw [Links.reclaimer_eq h]

/-- **Every call ends**, and the list serves it. -/
theorem serve_spec (hl : l.Sound) (c : Call α Unit) :
    ∃ r l', l.serve c = .ok (r, l') ∧ l'.Sound ∧
      l'.reclaimer.count = l.reclaimer.count + .ofNat (c.retires r) ∧
      l.Serves Probe.ofElement spec c r l' := by
  cases c with
  | insert a _ =>
    obtain ⟨ins, l', hins, hspec⟩ := insert_spec hl a
    refine ⟨.flag ins.isNew, l', by rw [serve, hins]; rfl, (hl.evolves hspec.evolves).1, ?_,
      hspec.serves⟩
    exact hspec.count_eq.trans (UInt64.add_zero _).symm
  | delete a =>
    obtain ⟨removed, l', hdel, hspec⟩ := delete_spec hl a
    exact ⟨.flag removed.isSome, l', by rw [serve, hdel]; rfl, (hl.evolves hspec.evolves).1,
      hspec.count_eq, (hspec.serves hl).1⟩
  | remove a =>
    obtain ⟨removed, l', hrem, hspec⟩ := remove_spec hl a
    exact ⟨.removed removed, l', by rw [serve, hrem]; rfl, (hl.evolves hspec.evolves).1,
      hspec.count_eq, (hspec.serves hl).2⟩
  | contains a =>
    obtain ⟨found, l', hcontains, htrims, hfound⟩ := contains_spec hl a
    obtain ⟨x, hx, hsome⟩ := hfound.exists_stores
    refine ⟨.flag found.isSome, l', by rw [serve, hcontains]; rfl,
      (hl.evolves htrims.evolves).1, ?_, ⟨x, hx, ?_, ?_⟩, fun k y _ hy => ?_⟩
    · rw [htrims.reclaimer_eq]
      exact (UInt64.add_zero _).symm
    · rw [← hsome]
      rfl
    · exact hx.congr fun _ _ => htrims.holds_iff
    · exact hy.congr fun _ _ => htrims.holds_iff

theorem simulates_serve : Simulates (serve : SortedList α → Call α Unit → _) spec
    (fun l m => l.Sound ∧ l.Shows Probe.ofElement m) (·.reclaimer.count) where
  step := by
    rintro l m c r l' ⟨hl, hm⟩ hserve
    obtain ⟨r₁, l₁, hserve₁, hl', hcount, hserves⟩ := serve_spec hl c
    cases hserve₁.symm.trans hserve
    have hsame : ∀ k k' : α, spec.same k k' = true →
        ∀ b, Probe.ofElement k' b = .eq ↔ Probe.ofElement k b = .eq := by
      intro k k' hk b
      have hbk : compare b k = compare b k' := Std.TransCmp.congr_right (beq_iff_eq.mp hk)
      show compare b k' = .eq ↔ compare b k = .eq
      rw [hbk]
    obtain ⟨hreply, hm'⟩ := hserves.shows hl Probe.monotone_ofElement hsame hm
    exact ⟨hreply, ⟨hl', hm'⟩, hcount⟩

/-- What can be seen of a list. -/
def summary (l : SortedList α) : Summary α where
  listing := l.toList
  length := l.length
  retired := l.reclaimer.count

/-- An element is stored if the cell of its key holds it. -/
theorem Shows.mem_live_iff {m : α → Option α} {b : α} (hm : l.Shows Probe.ofElement m)
    (hl : l.Sound) : b ∈ l.live ↔ m b = some b := by
  rw [hl.mem_live_iff]
  constructor
  · rintro ⟨i, hi⟩
    have hb : l.Stores (.ofElement b) (some b) := ⟨i, hi, Std.compare_self⟩
    exact (hm b).unique hl (Probe.monotone_ofElement b) hb
  · intro hb
    have hstores := hm b
    rw [hb] at hstores
    obtain ⟨i, hi, -⟩ := hstores
    exact ⟨i, hi⟩

/-- Lists with the same cells look the same, if as many nodes were retired. -/
theorem summary_eq_of_shows {m : α → Option α} (hl : l.Sound) (hl' : l'.Sound)
    (hm : l.Shows Probe.ofElement m) (hm' : l'.Shows Probe.ofElement m)
    (hcount : l.reclaimer.count = l'.reclaimer.count) : l.summary = l'.summary := by
  have hlive : l.live = l'.live :=
    eq_of_pairwise_lt hl.pairwise_live hl'.pairwise_live fun _ =>
      (hm.mem_live_iff hl).trans (hm'.mem_live_iff hl').symm
  simp only [summary, toList_eq hl.toOrdered, toList_eq hl'.toOrdered, length_eq hl.toOrdered,
    length_eq hl'.toOrdered, hlive, hcount]

/-- **Lists are confluent** under clients with keys of their own. -/
theorem Sound.confluent {ι : Type} [DecidableEq ι] (hl : l.Sound) {rows : ι → List (Call α Unit)}
    (hapart : Call.Apart rows) : Confluent serve summary (fun _ => True) l rows where
  ends := by
    intro w _ _
    refine ends_runSchedule (P := fun l _ => l.Sound) (fun l i c w hl => ?_) hl
    obtain ⟨r, l', hserve, hl', -⟩ := serve_spec hl c
    exact ⟨_, hserve, hl'⟩
  agree := by
    intro w w' log log' l₁ l₂ hw hw' hrun hrun'
    choose m _ _ _ hm using find_spec hl
    refine simulates_serve.agree ?_ (hapart.spec fun _ _ => id) ⟨hl, hm⟩ hw hw' hrun hrun'
    rintro l₁ l₂ m ⟨hl₁, hm₁⟩ ⟨hl₂, hm₂⟩ hcount
    exact summary_eq_of_shows hl₁ hl₂ hm₁ hm₂ hcount

end Lists

end SortedList

/-! ### Tables -/

namespace Table

open SortedList

variable {κ ν : Type} [Ord κ] {t t' : Table κ ν} {hash : κ → UInt64} {key k : κ} {c : Call κ ν}
  {r : Answer ν} {change : Change}

/-- A table serves a call. -/
def serve (t : Table κ ν) : Call κ ν → Checked (Answer ν × Table κ ν)
  | .insert key value => do
    let (isNew, t) ← t.insert key value
    return (.flag isNew, t)
  | .delete key => do
    let (deleted, t) ← t.delete key
    return (.flag deleted, t)
  | .remove key => do
    let (removed, t) ← t.remove key
    return (.removed removed, t)
  | .contains key => do
    let (found, t) ← t.contains key
    return (.flag found, t)

/-- What can be seen of a table. -/
def summary (t : Table κ ν) : Summary (κ × ν) where
  listing := t.toList
  length := .ok t.size.toNat
  retired := t.list.reclaimer.count

/-- The counter has room for the keys that the calls may insert. -/
def HasRoomFor {ι : Type} (t : Table κ ν) (w : List (ι × Call κ ν)) : Prop :=
  t.size.toNat + w.countP (·.2.isInsert) < UInt64.size

/-- The search for a key, if hashes are as told. -/
def place (hash : κ → UInt64) (key : κ) : Probe (Entry κ ν) :=
  (KeyProbe.ofKey (hash key) key).toProbe

variable [Std.TransOrd κ]

/-- The calls of a table, by what they do to the entry with their key. -/
def spec (hash : κ → UInt64) : CellSpec (Call κ ν) κ (Entry κ ν) (Answer ν) :=
  Call.spec (keyOrder hash) (fun key value => .ofPair (hash key) key value) Entry.value?

/-- Searches for keys that name the same cell stop at the same entries. -/
theorem place_eq_iff {key' : κ} (h : (spec (ν := ν) hash).same key key' = true)
    (e : Entry κ ν) : place hash key' e = .eq ↔ place hash key e = .eq := by
  obtain ⟨hplace, heq⟩ := keyOrder_eq_iff.mp (beq_iff_eq.mp h)
  have hcongr : ∀ k : κ, compare k key' = compare k key :=
    fun k => (Std.TransCmp.congr_right heq).symm
  simp only [place, KeyProbe.toProbe_eq_iff, KeyProbe.ofKey, hplace, hcongr]

/-- Searches for other keys stop at other entries. -/
theorem place_ne_eq (h : (spec (ν := ν) hash).same k key = false) (e : Entry κ ν)
    (hk : place hash k e = .eq) : place hash key e ≠ .eq := by
  intro hkey
  obtain ⟨key₁, value₁, rfl, heq₁⟩ := KeyProbe.toProbe_eq_iff.mp hk
  obtain ⟨key₂, value₂, hpair, heq₂⟩ := KeyProbe.toProbe_eq_iff.mp hkey
  obtain ⟨hplace, rfl, -⟩ := Entry.pair.inj hpair
  have heq : compare k key = .eq := Std.TransCmp.eq_trans (Std.OrientedCmp.eq_symm heq₁) heq₂
  exact Bool.false_ne_true (h.symm.trans (beq_iff_eq.mpr (keyOrder_eq_iff.mpr ⟨hplace, heq⟩)))

/-- Whatever is done about a key, the cells of others stay as they are. -/
theorem Course.serves_other (h : t.Course key change t') {x : Option (Entry κ ν)}
    (hk : (spec (ν := ν) t.hash).same k key = false) (hx : t.list.Stores (place t.hash k) x) :
    t'.list.Stores (place t.hash k) x :=
  h.stores_other hx (place_ne_eq hk)

/-- A removal empties the cell of its key. -/
theorem Course.empties {entry : Option (Entry κ ν)} (h : t.Course key (.ofRemoval entry.isSome) t')
    (hstores : t.list.Stores (t.probe key) entry) : t'.list.Stores (t.probe key) none := by
  cases entry with
  | none => exact h.stores_iff_of_kept.mpr hstores
  | some e => exact h.lacks_of_removed

/-- A removal adds no entry. -/
theorem Course.size_le {removed : Bool} (h : t.Course key (.ofRemoval removed) t') (ht : t.Tidy) :
    t'.size.toNat ≤ t.size.toNat := by
  have hcounts := h.counts ht
  cases removed with
  | false => exact Nat.le_of_eq hcounts
  | true => exact Nat.le_of_succ_le (Nat.le_of_eq hcounts.symm)

/-- **A call on a table** ends and is served, unless it is an insertion for which the counter has no
room. -/
theorem serve_spec (h : t.Tidy) (c : Call κ ν) :
    (∃ r t', t.serve c = .ok (r, t') ∧ t.Retires (c.retires r) t' ∧
      t.list.Serves (place t.hash) (spec t.hash) c r t'.list ∧
      t'.size.toNat ≤ t.size.toNat + c.isInsert.toNat) ∨
      (∃ fault, t.serve c = .error fault) ∧ c.isInsert = true ∧
        ¬ t.size.toNat + 1 < UInt64.size := by
  cases c with
  | insert key value =>
    rcases exists_insert h.toIntact key value with
      ⟨isNew, t', hins, hcourse, x, hx, rfl, hx'⟩ | ⟨hfault, hfull⟩
    · refine .inl ⟨.flag x.isNone, t', by rw [serve, hins]; rfl, h.insert hins,
        ⟨⟨x, hx, rfl, hx'⟩, fun k y hk hy => hcourse.serves_other hk hy⟩, ?_⟩
      have hcounts := hcourse.counts h
      cases x with
      | none => exact Nat.le_of_eq hcounts
      | some e => exact Nat.le_succ_of_le (Nat.le_of_eq hcounts)
    · exact .inr ⟨⟨_, by rw [serve, hfault]; rfl⟩, rfl, fun hroom => hfull fun _ => hroom⟩
  | delete key =>
    obtain ⟨entry, t', hrem, hcourse, hstores⟩ := exists_removeEntry h.toIntact key
    have hdel : t.delete key = .ok (entry.isSome, t') := by rw [delete_eq, hrem]; rfl
    refine .inl ⟨.flag entry.isSome, t', by rw [serve, hdel]; rfl, h.delete hdel,
      ⟨⟨entry, hstores, rfl, hcourse.empties hstores⟩, fun k y hk hy => hcourse.serves_other hk hy⟩,
      hcourse.size_le h⟩
  | remove key =>
    obtain ⟨entry, t', hrem, hcourse, hstores⟩ := exists_removeEntry h.toIntact key
    have hremove : t.remove key = .ok (entry.bind Entry.value?, t') := by rw [remove_eq, hrem]; rfl
    refine .inl ⟨.removed (entry.bind Entry.value?), t', by rw [serve, hremove]; rfl,
      h.remove hremove,
      ⟨⟨entry, hstores, rfl, hcourse.empties hstores⟩, fun k y hk hy => hcourse.serves_other hk hy⟩,
      hcourse.size_le h⟩
  | contains key =>
    obtain ⟨found, t', hlook, hcourse, hfound⟩ := exists_lookup h.toIntact key
    obtain ⟨x, hx, hsome⟩ := hfound.exists_stores
    have hcontains : t.contains key = .ok (found.isSome, t') := by rw [contains_eq, hlook]; rfl
    refine .inl ⟨.flag found.isSome, t', by rw [serve, hcontains]; rfl, h.lookup hlook,
      ⟨⟨x, hcourse.stores_iff_of_kept.mp hx, ?_, hx⟩, fun k y hk hy => hcourse.serves_other hk hy⟩,
      Nat.le_of_eq (hcourse.counts h)⟩
    rw [← hsome]
    rfl

omit [Std.TransOrd κ] in
/-- The counter of retired nodes goes with them. -/
theorem Retires.count_eq {n : Nat} (h : t.Retires n t') (ht : t.Tidy) :
    t'.list.reclaimer.count = t.list.reclaimer.count + .ofNat n := by
  refine UInt64.toNat_inj.mp ?_
  rw [UInt64.toNat_add, UInt64.toNat_ofNat', h.tidy.accounted.count_eq, h.list.length_eq,
    ht.accounted.count_eq, Nat.add_mod_mod, Nat.mod_add_mod]

theorem simulates_serve (hash : κ → UInt64) : Simulates (serve : Table κ ν → Call κ ν → _)
    (spec hash) (fun t m => t.Tidy ∧ t.hash = hash ∧ t.list.Shows (place hash) m)
    (·.list.reclaimer.count) where
  step := by
    rintro t m c r t' ⟨ht, rfl, hm⟩ hserve
    rcases serve_spec ht c with ⟨r₁, t₁, hserve₁, hretires, hserves, -⟩ | ⟨⟨fault, hfault⟩, -⟩
    · cases hserve₁.symm.trans hserve
      obtain ⟨hreply, hm'⟩ := hserves.shows ht.list
        (fun k => KeyProbe.monotone_toProbe (t.hash k) k) (fun _ _ => place_eq_iff) hm
      exact ⟨hreply, ⟨hretires.tidy, hretires.hash_eq, hm'⟩, hretires.count_eq ht⟩
    · cases hfault.symm.trans hserve

/-- A table has an entry if the cell of its key holds it. -/
theorem has_iff_of_shows {m : κ → Option (Entry κ ν)} {p : κ × ν} (ht : t.Intact)
    (hm : t.list.Shows (place t.hash) m) :
    t.Has p ↔ m p.1 = some (.ofPair (t.hash p.1) p.1 p.2) := by
  obtain ⟨key, value⟩ := p
  rw [has_iff_mem_pairs ht, mem_pairs_iff ht]
  constructor
  · rintro ⟨i, hi⟩
    have hstores : t.list.Stores (place t.hash key) (some (.ofPair (t.hash key) key value)) :=
      ⟨i, hi, KeyProbe.toProbe_eq_iff.mpr ⟨key, value, rfl, Std.compare_self⟩⟩
    exact (hm key).unique ht.list (KeyProbe.monotone_toProbe _ _) hstores
  · intro hcell
    have hstores := hm key
    rw [hcell] at hstores
    obtain ⟨i, hi, -⟩ := hstores
    exact ⟨i, hi⟩

/-- Tables with the same cells look the same, if as many nodes were retired. -/
theorem summary_eq_of_shows {m : κ → Option (Entry κ ν)} (ht : t.Tidy) (ht' : t'.Tidy)
    (hash_eq : t'.hash = t.hash) (hm : t.list.Shows (place t.hash) m)
    (hm' : t'.list.Shows (place t'.hash) m)
    (hcount : t.list.reclaimer.count = t'.list.reclaimer.count) : t.summary = t'.summary := by
  have hsame : ∀ p, t.Has p ↔ t'.Has p := by
    intro p
    rw [has_iff_of_shows ht.toIntact hm, has_iff_of_shows ht'.toIntact hm', hash_eq]
  have hlists := lists_pairs ht.toIntact
  have hlists' := lists_pairs ht'.toIntact
  rw [hash_eq] at hlists'
  have hpairs : t.list.live.filterMap Entry.pair? = t'.list.live.filterMap Entry.pair? :=
    hlists.unique hlists' hsame
  have hsize : t.size.toNat = t'.size.toNat := by
    rw [← ht.length_pairs, ← ht'.length_pairs, hpairs]
  simp only [summary, hlists.toList, hlists'.toList, hpairs, hsize, hcount]

omit [Ord κ] [Std.TransOrd κ] in
theorem hasRoomFor_cons {ι : Type} {i : ι} {w : List (ι × Call κ ν)} :
    t.HasRoomFor ((i, c) :: w) ↔
      t.size.toNat + c.isInsert.toNat + w.countP (·.2.isInsert) < UInt64.size := by
  have hcount : (if c.isInsert = true then 1 else 0) = c.isInsert.toNat := by
    cases c.isInsert <;> rfl
  rw [HasRoomFor, List.countP_cons, hcount, Nat.add_right_comm, Nat.add_assoc]

/-- **Tables are confluent** under clients with keys of their own. -/
theorem Tidy.confluent {ι : Type} [DecidableEq ι] (ht : t.Tidy) {rows : ι → List (Call κ ν)}
    (hapart : Call.Apart rows) : Confluent serve summary t.HasRoomFor t rows where
  ends := by
    intro w _ hroom
    refine ends_runSchedule (P := fun t w => t.Tidy ∧ t.HasRoomFor w) ?_ ⟨ht, hroom⟩
    rintro t i c w ⟨ht, hroom⟩
    rcases serve_spec ht c with ⟨r, t', hserve, hretires, -, hsize⟩ | ⟨-, hc, hfull⟩
    · rw [hasRoomFor_cons] at hroom
      exact ⟨_, hserve, hretires.tidy, Nat.lt_of_le_of_lt (Nat.add_le_add_right hsize _) hroom⟩
    · rw [hasRoomFor_cons, hc, Bool.toNat_true] at hroom
      omega
  agree := by
    intro w w' log log' t₁ t₂ hw hw' hrun hrun'
    choose m _ _ hm using exists_find_stores ht.toIntact
    have hcmp : ∀ a b, keyOrder t.hash a b = .eq → compare a b = .eq :=
      fun _ _ h => (keyOrder_eq_iff.mp h).2
    refine (simulates_serve t.hash).agree ?_ (hapart.spec hcmp) ⟨ht, rfl, hm⟩ hw hw' hrun hrun'
    rintro t₁ t₂ m ⟨ht₁, hash_eq, hm₁⟩ ⟨ht₂, hash_eq', hm₂⟩ hcount
    rw [← hash_eq] at hm₁
    rw [← hash_eq'] at hm₂
    exact summary_eq_of_shows ht₁ ht₂ (hash_eq'.trans hash_eq.symm) hm₁ hm₂ hcount

end Table

/-! ### Key sets -/

/-- What can be seen of a key set. -/
def KeySet.summary {κ : Type} [Ord κ] (s : KeySet κ) : Summary κ where
  listing := s.keys
  length := .ok s.size.toNat
  retired := s.list.reclaimer.count

/-! ### All collections -/

section Clients

variable {ι κ ν : Type} [DecidableEq ι] [Ord κ] [Std.TransOrd κ] [Text.Legible κ]

/-- **Clients with keys of their own do not see each other.** Take a list at any moment, or a table or
a key set of any sizing without a flaw and any hash function after any actions, and clients of which
no two use the same key. All orders of their calls give every call the same reply and end with the
same listing, length and number of retired nodes. On lists all calls end; on tables they do if the
counter has room for what they insert. -/
theorem clients_confluent {sizing : Sizing} (hsizing : sizing.check = .ok ())
    (hash : κ → UInt64) :
    (∀ (m : Moment κ) (rows : ι → List (Call κ Unit)), m.Reachable → Call.Apart rows →
      Confluent SortedList.serve SortedList.summary (fun _ => True) m.list rows) ∧
    (∃ t₀ : Table κ ν, Table.build sizing hash = .ok t₀ ∧
      ∀ (t : Table κ ν) (rows : ι → List (Call κ ν)), t₀.Calls t → Call.Apart rows →
        Confluent Table.serve Table.summary t.HasRoomFor t rows) ∧
    ∃ s₀ : KeySet κ, Table.build sizing hash = .ok s₀ ∧
      ∀ (s : KeySet κ) (rows : ι → List (Call κ Unit)), s₀.Calls s → Call.Apart rows →
        Confluent Table.serve KeySet.summary s.HasRoomFor s rows := by
  refine ⟨fun m rows hm hapart => hm.sound.list.confluent hapart, ?_, ?_⟩
  · obtain ⟨t₀, hbuild, -⟩ := Table.exists_intact_build (ν := ν) hsizing hash
    refine ⟨t₀, hbuild, fun t rows hcalls hapart => ?_⟩
    exact (hcalls.tidy (Table.tidy_build hbuild).1).confluent hapart
  · obtain ⟨s₀, hbuild, -⟩ := Table.exists_intact_build (ν := Unit) hsizing hash
    refine ⟨s₀, hbuild, fun s rows hcalls hapart => ?_⟩
    have hconfluent := (hcalls.tidy (Table.tidy_build hbuild).1).confluent hapart
    -- what is seen of the keys is part of what is seen of the entries
    refine hconfluent.map (fun shown => ⟨do return (← shown.listing).map Prod.fst, shown.length,
      shown.retired⟩) fun _ => rfl

/-- Two clients of a table, each with two keys. In one order the table holds three entries at a time
and has four buckets in the end, in the other one it never holds more than two, and has two. -/
theorem clients_confluent_of_two_clients :
    let sizing : Sizing := { initialBuckets := 1, maxLoad := 1, maxBuckets := 4 }
    let rows : Bool → List (Call UInt64 UInt64) := fun i =>
      if i then [.insert 1 11, .remove 1, .insert 3 13, .contains 1]
      else [.insert 0 10, .insert 2 12, .delete 0, .insert 2 22]
    let w : List (Bool × Call UInt64 UInt64) :=
      [(false, .insert 0 10), (false, .insert 2 12), (true, .insert 1 11), (true, .remove 1),
        (true, .insert 3 13), (false, .delete 0), (true, .contains 1), (false, .insert 2 22)]
    let w' : List (Bool × Call UInt64 UInt64) :=
      (rows false).map (Prod.mk false) ++ (rows true).map (Prod.mk true)
    sizing.check = .ok () ∧ Call.Apart rows ∧ Interleaves w rows ∧ Interleaves w' rows ∧
      ∃ t₀ log log' t t', Table.build sizing id = .ok t₀ ∧
        runSchedule Table.serve t₀ w = .ok (log, t) ∧
        runSchedule Table.serve t₀ w' = .ok (log', t') ∧
        (∀ i, row i log = row i log') ∧ t.summary = t'.summary ∧
        t.bucketCount = 4 ∧ t'.bucketCount = 2 := by
  intro sizing rows w w'
  have hsizing : sizing.check = .ok () := by decide
  have hapart : Call.Apart rows := by
    unfold Call.Apart
    decide
  have hw : Interleaves w rows := by
    unfold Interleaves
    decide
  have hw' : Interleaves w' rows := by
    unfold Interleaves
    decide
  obtain ⟨-, ⟨t₀, hbuild, hconfluent⟩, -⟩ :=
    clients_confluent (ι := Bool) (κ := UInt64) (ν := UInt64) hsizing id
  have hfour : (do
      let t ← Table.build sizing id
      let (_, t) ← runSchedule Table.serve t w
      return t.bucketCount) = .ok 4 := by
    decide +kernel
  have htwo : (do
      let t ← Table.build sizing id
      let (_, t) ← runSchedule Table.serve t w'
      return t.bucketCount) = .ok 2 := by
    decide +kernel
  rw [hbuild, Checked.ok_bind] at hfour htwo
  obtain ⟨⟨log, t⟩, hrun, hfour⟩ := Checked.bind_eq_ok.mp hfour
  obtain ⟨⟨log', t'⟩, hrun', htwo⟩ := Checked.bind_eq_ok.mp htwo
  obtain ⟨hreplies, hsame⟩ :=
    (hconfluent t₀ rows .refl hapart).agree w w' log log' t t' hw hw' hrun hrun'
  exact ⟨hsizing, hapart, hw, hw', t₀, log, log', t, t', hbuild, hrun, hrun', hreplies, hsame,
    Except.ok.inj hfour, Except.ok.inj htwo⟩

end Clients

end SplitOrder
