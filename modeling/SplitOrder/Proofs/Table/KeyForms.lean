import SplitOrder.Proofs.Table.Calls
import SplitOrder.Proofs.Table.FiniteMap
import SplitOrder.Table.KeySet

/-!
# Keys sought by a form

Whoever removes a key or looks it up need not have a key at hand. A form of it will do, such as the
number of a labelled number, provided that forms are ordered and hashed as keys are. To seek a form
is then to seek any key that has it, effect for effect, so whatever is known of operations by keys
is known of those by forms. A form need not belong to a stored key, nor to any key at all; then
nothing is found.

* `KeyForm.Lawful` — what is relied on. The order of keys is that of their forms.
* `Table.SeeksAs`, `Table.seeksAs` — an operation by a form is the same by a key that has it.
* `storedBy?`, `eraseBy` — a map in which entries are sought by forms.
* `Table.RepresentsBy` — a table represents a map and has a lawful form. Each operation by a form
  is one on the map (`RepresentsBy.findBy`, `RepresentsBy.removeEntryBy`), and so it is on a set of
  keys (`KeySet.answers_by_form`).
* `FormOp` — operations by keys and by forms, with others nested in them. `stepBy_refines` and
  `stepsBy_refines` are the simulation by a map, and `replies_agree_by_form` is what comes of it for
  a new table.
-/

namespace SplitOrder

open Std (TreeMap)
open SortedList

variable {κ β ν : Type}

/-! ### Lawful forms -/

/-- Forms are ordered and hashed as the keys are that have them, and equal forms have the same
hash. -/
structure KeyForm.Lawful [Ord κ] [Ord β] (form : KeyForm κ β) (hash : κ → UInt64) : Prop where
  compare_of : ∀ a b, compare (form.of a) (form.of b) = compare a b
  hash_of : ∀ key, form.hash (form.of key) = hash key
  respects : ∀ a b : β, compare a b = .eq → form.hash a = form.hash b

namespace KeyForm.Lawful

variable [Ord κ] [Ord β] {form : KeyForm κ β} {hash : κ → UInt64} {key : κ} {sought : β}

/-- The order of keys is one if that of forms is. -/
theorem transOrd [Std.TransOrd β] (h : form.Lawful hash) : Std.TransOrd κ where
  eq_swap {a b} := by
    rw [← h.compare_of, ← h.compare_of]
    exact Std.OrientedCmp.eq_swap
  isLE_trans {a b c} hab hbc := by
    rw [← h.compare_of] at hab hbc ⊢
    exact Std.TransCmp.isLE_trans hab hbc

/-- Equal keys have the same hash. -/
theorem respects_keys (h : form.Lawful hash) (a b : κ) (heq : compare a b = .eq) :
    hash a = hash b := by
  rw [← h.compare_of] at heq
  calc hash a = form.hash (form.of a) := (h.hash_of a).symm
    _ = form.hash (form.of b) := h.respects _ _ heq
    _ = hash b := h.hash_of b

theorem hash_eq (h : form.Lawful hash) (heq : compare (form.of key) sought = .eq) :
    form.hash sought = hash key := by
  rw [← h.hash_of, h.respects _ _ heq]

/-- To search for a form is to search for a key that has it. -/
theorem toProbeBy_eq [Std.TransOrd β] (h : form.Lawful hash)
    (heq : compare (form.of key) sought = .eq) :
    (KeyProbe.ofKey (form.hash sought) sought).toProbeBy form.of =
      ((KeyProbe.ofKey (hash key) key).toProbe : Entry κ ν → Ordering) := by
  funext e
  rw [h.hash_eq heq]
  cases e with
  | sentinel k => rfl
  | pair k other value =>
    -- the sought form may be exchanged for the key's own, and forms compare as their keys do
    have hother : compare (form.of other) sought = compare other key := by
      calc compare (form.of other) sought
        _ = compare (form.of other) (form.of key) := (Std.TransCmp.congr_right heq).symm
        _ = compare other key := h.compare_of other key
    show (compare k _).then (compare (form.of other) sought) =
      (compare k _).then (compare other key)
    rw [hother]
    rfl

end KeyForm.Lawful

namespace Table

/-- **Whatever is done by a form is what is done by the key.** -/
structure SeeksAs [Ord κ] [Ord β] (t : Table κ ν) (form : KeyForm κ β) (sought : β) (key : κ) :
    Prop where
  removeEntry : t.removeEntryBy form sought = t.removeEntry key
  remove : t.removeBy form sought = t.remove key
  delete : t.deleteBy form sought = t.delete key
  lookup : t.lookupBy form sought = t.lookup key
  contains : t.containsBy form sought = t.contains key
  find : t.findBy form sought = t.find key
  get : t.getBy form sought = t.get key

/-- **To seek a form is to seek a key that has it**, on every table, in what is answered and in what
is left. -/
theorem seeksAs [Ord κ] [Ord β] [Std.TransOrd β] {t : Table κ ν} {form : KeyForm κ β}
    {sought : β} {key : κ} (hform : form.Lawful t.hash)
    (heq : compare (form.of key) sought = .eq) : t.SeeksAs form sought key := by
  have hremove : t.removeEntryBy form sought = t.removeEntry key := by
    rw [removeEntryBy, removeEntry_eq, hform.toProbeBy_eq heq, hform.hash_eq heq]
  have hlookup : t.lookupBy form sought = t.lookup key := by
    rw [lookupBy, lookup_eq, hform.toProbeBy_eq heq, hform.hash_eq heq]
  have hfind : t.findBy form sought = t.find key := by
    rw [findBy, find_eq, hlookup]
  exact {
    removeEntry := hremove
    remove := by rw [removeBy, remove_eq, hremove]
    delete := by rw [deleteBy, delete_eq, hremove]
    lookup := hlookup
    contains := by rw [containsBy, contains_eq, hlookup]
    find := hfind
    get := by rw [getBy, get_eq, hfind] }

end Table

/-! ### Maps in which entries are sought by forms -/

section FormsInMaps

variable [Ord κ] [Ord β]

/-- The stored entry whose key has the form that is sought. -/
def storedBy? (form : κ → β) (m : TreeMap κ ν) (sought : β) : Option (κ × ν) :=
  m.toList.find? fun e => compare (form e.1) sought == .eq

/-- The map without the key that has the form. -/
def eraseBy (form : κ → β) (m : TreeMap κ ν) (sought : β) : TreeMap κ ν :=
  match storedBy? form m sought with
  | some (key, _) => m.erase key
  | none => m

variable {form : κ → β} {m : TreeMap κ ν} {sought : β} {key : κ} {value : ν}

theorem compare_eq_of_storedBy? (h : storedBy? form m sought = some (key, value)) :
    compare (form key) sought = .eq := by
  have hfound := List.find?_some h
  exact eq_of_beq hfound

theorem stored?_of_storedBy? [Std.TransOrd κ] (h : storedBy? form m sought = some (key, value)) :
    stored? m key = some (key, value) :=
  mem_toList_iff_stored?.mp (List.mem_of_find?_eq_some h)

/-- If no stored key has the form, none compares equal to it. -/
theorem compare_ne_eq_of_stored? [Std.TransOrd κ] (hnone : storedBy? form m sought = none)
    (h : stored? m key = some (key, value)) : compare (form key) sought ≠ .eq := by
  intro heq
  have hmem : (key, value) ∈ m.toList := mem_toList_iff_stored?.mpr h
  exact absurd (beq_iff_eq.mpr heq) (List.find?_eq_none.mp hnone _ hmem)

end FormsInMaps

namespace Table

variable [Ord κ] [Ord β]

/-- The table stores the entries of the map, and the form is lawful for it. -/
structure RepresentsBy (t : Table κ ν) (form : KeyForm κ β) (m : TreeMap κ ν) : Prop extends
    t.Represents m where
  lawful : form.Lawful t.hash

variable [Std.TransOrd κ] [Std.TransOrd β] {t t' : Table κ ν} {form : KeyForm κ β}
  {m m' : TreeMap κ ν}

omit [Std.TransOrd β] in
/-- Whatever is done to a table, its forms stay lawful. -/
theorem RepresentsBy.of_calls (h : t.RepresentsBy form m) (hcalls : t.Calls t')
    (h' : t'.Represents m') : t'.RepresentsBy form m' where
  toRepresents := h'
  lawful := by
    -- no operation changes the hash function
    rw [hcalls.hash_eq h.intact]
    exact h.lawful

omit [Std.TransOrd κ] [Std.TransOrd β] in
theorem RepresentsBy.of_prepares (h : t.RepresentsBy form m) (hprep : t.Prepares t')
    (h' : t'.Intact) : t'.RepresentsBy form m where
  toRepresents := h.toRepresents.prepares hprep h'
  lawful := by
    rw [hprep.hash_eq]
    exact h.lawful

omit [Std.TransOrd β] in
/-- What a search leaves of the list. -/
theorem RepresentsBy.of_trims {l : SortedList (Entry κ ν)} (h : t.RepresentsBy form m)
    (htrims : t.list.Trims l) : RepresentsBy { t with list := l } form m := by
  obtain ⟨hprep, h'⟩ := h.intact.trims (h.intact.list.evolves htrims.evolves).1 htrims
  exact h.of_prepares hprep h'

/-! ### Forms that no stored key has -/

section NotStored

variable {sought : β} (h : t.RepresentsBy form m)
include h

omit [Std.TransOrd β] in
theorem RepresentsBy.lacks (hnone : storedBy? form.of m sought = none) :
    t.list.Lacks ((KeyProbe.ofKey (form.hash sought) sought).toProbeBy form.of) := by
  intro i e he heq
  -- the search would stop at a pair, and that pair is an entry of the map
  obtain ⟨key, value, rfl, hkey⟩ := KeyProbe.toProbeBy_eq_iff.mp heq
  rw [h.intact.hashed he] at he
  have hstores : t.list.Stores (KeyProbe.ofKey (t.hash key) key).toProbe
      (some (.ofPair (t.hash key) key value)) :=
    ⟨i, he, KeyProbe.toProbe_eq_iff.mpr ⟨key, value, rfl, Std.compare_self⟩⟩
  exact compare_ne_eq_of_stored? hnone (h.stored?_eq hstores) hkey

omit [Std.TransOrd β] in
/-- An operation by the form starts in front of whatever has the form. -/
theorem RepresentsBy.exists_start (sought : β) :
    ∃ start t', t.sentinelOfHash (form.hash sought) = .ok (start, t') ∧ t'.RepresentsBy form m ∧
      t'.list.InFront ((KeyProbe.ofKey (form.hash sought) sought).toProbeBy form.of) start := by
  obtain ⟨start, t', hstart, -, hprep, h', hguards⟩ :=
    sentinelOfHash_guards h.intact (form.hash sought)
  refine ⟨start, t', hstart, h.of_prepares hprep h', ?_⟩
  exact hguards.inFront h'.list (KeyProbe.toProbeBy_sentinelOf _ _ sought)

/-- A form that no stored key has is not found. -/
theorem RepresentsBy.lookupBy_of_none (hnone : storedBy? form.of m sought = none) :
    ∃ t', t.lookupBy form sought = .ok (none, t') ∧ t'.RepresentsBy form m := by
  obtain ⟨start, t₁, hstart, h₁, hfront⟩ := h.exists_start sought
  obtain ⟨found, l, hlook, htrims, hfound⟩ := lookupAfter_spec h₁.intact.list hfront
    (KeyProbe.monotone_toProbeBy h.lawful.compare_of _ _)
  cases found with
  | some i =>
    -- the node that was found would hold a stored key with the form
    obtain ⟨e, he, heq⟩ := hfound
    exact absurd heq (h₁.lacks hnone i e he)
  | none =>
    refine ⟨{ t₁ with list := l }, ?_, h₁.of_trims htrims⟩
    rw [lookupBy, hstart, Checked.ok_bind]
    simp only [hlook, Checked.ok_bind]
    rfl

/-- There is nothing to remove for it either. -/
theorem RepresentsBy.removeEntryBy_of_none (hnone : storedBy? form.of m sought = none) :
    ∃ t', t.removeEntryBy form sought = .ok (none, t') ∧ t'.RepresentsBy form m := by
  obtain ⟨start, t₁, hstart, h₁, hfront⟩ := h.exists_start sought
  obtain ⟨removed, l, hdel, hends⟩ := deleteAfter_spec h₁.intact.list hfront
    (KeyProbe.monotone_toProbeBy h.lawful.compare_of _ _)
  cases removed with
  | some e =>
    obtain ⟨i, he, heq⟩ := hends.stores
    exact absurd heq (h₁.lacks hnone i e he)
  | none =>
    refine ⟨{ t₁ with list := l }, ?_, h₁.of_trims hends.1⟩
    rw [removeEntryBy, hstart, Checked.ok_bind]
    simp only [hdel, Checked.ok_bind]
    rfl

end NotStored

/-! ### Operations by forms -/

section Operations

variable (h : t.RepresentsBy form m)
include h

/-- **The case analysis.** A form that is sought either belongs to a stored key, and then it is
that key which is sought, or nothing is found and nothing is removed. -/
theorem RepresentsBy.seeks (sought : β) :
    (∃ key value, storedBy? form.of m sought = some (key, value) ∧
      stored? m key = some (key, value) ∧ t.SeeksAs form sought key) ∨
    (storedBy? form.of m sought = none ∧
      (∃ t', t.lookupBy form sought = .ok (none, t') ∧ t'.RepresentsBy form m) ∧
      ∃ t', t.removeEntryBy form sought = .ok (none, t') ∧ t'.RepresentsBy form m) := by
  cases hstored : storedBy? form.of m sought with
  | none =>
    exact .inr ⟨rfl, h.lookupBy_of_none hstored, h.removeEntryBy_of_none hstored⟩
  | some e =>
    exact .inl ⟨e.1, e.2, rfl, stored?_of_storedBy? hstored,
      seeksAs h.lawful (compare_eq_of_storedBy? hstored)⟩

theorem RepresentsBy.containsBy (sought : β) :
    ∃ t', t.containsBy form sought = .ok ((storedBy? form.of m sought).isSome, t') ∧
      t'.RepresentsBy form m := by
  rcases h.seeks sought with ⟨key, value, hfound, hstored, hseeks⟩ | ⟨hnone, ⟨t', hlook, h'⟩, -⟩
  · obtain ⟨t', hcontains, h'⟩ := h.contains key
    refine ⟨t', ?_, h.of_calls (tracks_calls.contains hcontains) h'⟩
    rw [hseeks.contains, hcontains, contains_eq_isSome_stored?, hstored, hfound]
  · refine ⟨t', ?_, h'⟩
    rw [Table.containsBy, hlook, hnone]
    rfl

/-- **A look at the entry of a form** shows the stored key with its value. -/
theorem RepresentsBy.findBy (sought : β) :
    ∃ t', t.findBy form sought = .ok (storedBy? form.of m sought, t') ∧
      t'.RepresentsBy form m := by
  rcases h.seeks sought with ⟨key, value, hfound, hstored, hseeks⟩ | ⟨hnone, ⟨t', hlook, h'⟩, -⟩
  · obtain ⟨t', hfind, h'⟩ := h.find key
    refine ⟨t', ?_, h.of_calls (tracks_calls.find hfind) h'⟩
    rw [hseeks.find, hfind, hstored, hfound]
  · refine ⟨t', ?_, h'⟩
    rw [Table.findBy, hlook, hnone]
    rfl

theorem RepresentsBy.getBy (sought : β) :
    ∃ t', t.getBy form sought = .ok ((storedBy? form.of m sought).map Prod.snd, t') ∧
      t'.RepresentsBy form m := by
  obtain ⟨t', hfind, h'⟩ := h.findBy sought
  refine ⟨t', ?_, h'⟩
  rw [Table.getBy, hfind]
  rfl

/-- **A removal by a form** answers the stored entry. -/
theorem RepresentsBy.removeEntryBy (sought : β) :
    ∃ entry t', t.removeEntryBy form sought = .ok (entry, t') ∧
      t'.RepresentsBy form (eraseBy form.of m sought) ∧
      entry.bind Entry.pair? = storedBy? form.of m sought ∧
      entry.isSome = (storedBy? form.of m sought).isSome := by
  rcases h.seeks sought with ⟨key, value, hfound, hstored, hseeks⟩ | ⟨hnone, -, t', hremove, h'⟩
  · obtain ⟨entry, t', hremove, h', hpair, hsome⟩ := h.removeEntry key
    have hdelete : t.delete key = .ok (entry.isSome, t') := by
      rw [delete_eq, hremove]
      rfl
    refine ⟨entry, t', hseeks.removeEntry.trans hremove, ?_, ?_, ?_⟩
    · rw [eraseBy, hfound]
      exact h.of_calls (tracks_calls.delete hdelete) h'
    · rw [hpair, hstored, hfound]
    · rw [hsome, contains_eq_isSome_stored?, hstored, hfound]
  · refine ⟨none, t', hremove, ?_, hnone.symm, by rw [hnone]; rfl⟩
    rw [eraseBy, hnone]
    exact h'

theorem RepresentsBy.removeBy (sought : β) :
    ∃ t', t.removeBy form sought = .ok ((storedBy? form.of m sought).map Prod.snd, t') ∧
      t'.RepresentsBy form (eraseBy form.of m sought) := by
  obtain ⟨entry, t', hremove, h', hpair, -⟩ := h.removeEntryBy sought
  refine ⟨t', ?_, h'⟩
  rw [Table.removeBy, hremove, ← hpair, ← Entry.bind_value?_eq]
  rfl

theorem RepresentsBy.deleteBy (sought : β) :
    ∃ t', t.deleteBy form sought = .ok ((storedBy? form.of m sought).isSome, t') ∧
      t'.RepresentsBy form (eraseBy form.of m sought) := by
  obtain ⟨entry, t', hremove, h', -, hsome⟩ := h.removeEntryBy sought
  refine ⟨t', ?_, h'⟩
  rw [Table.deleteBy, hremove, ← hsome]
  rfl

end Operations

end Table

/-- **A set of keys** shows the stored key to whoever seeks it by a form. -/
theorem KeySet.answers_by_form [Ord κ] [Ord β] [Std.TransOrd κ] [Std.TransOrd β] {s : KeySet κ}
    {form : KeyForm κ β} {m : TreeMap κ Unit} (h : Table.RepresentsBy s form m) (sought : β) :
    (∃ s' : KeySet κ, s.containsBy form sought =
        .ok ((storedBy? form.of m sought).isSome, s') ∧ s'.RepresentsBy form m) ∧
    (∃ s' : KeySet κ, s.findBy form sought =
        .ok ((storedBy? form.of m sought).map Prod.fst, s') ∧ s'.RepresentsBy form m) ∧
    ∃ s' : KeySet κ, s.deleteBy form sought =
        .ok ((storedBy? form.of m sought).isSome, s') ∧
      s'.RepresentsBy form (eraseBy form.of m sought) := by
  refine ⟨h.containsBy sought, ?_, h.deleteBy sought⟩
  obtain ⟨s', hfind, h'⟩ := h.findBy sought
  refine ⟨s', ?_, h'⟩
  rw [KeySet.findBy, hfind]
  rfl

/-! ### Sessions -/

/-- What can be asked of a finite map if keys may be sought by a form. -/
inductive FormOp (κ β ν : Type) where
  /-- An operation by a key, or about no key. -/
  | byKey (op : MapOp κ ν)
  | remove (sought : β)
  | delete (sought : β)
  | contains (sought : β)
  /-- A reference to the value. -/
  | reference (sought : β)
  /-- The value itself. -/
  | get (sought : β)
  /-- The stored key with its value. -/
  | find (sought : β)
  /-- A look at a stored entry with others run meanwhile. -/
  | applyWith (sought : β) (nested : List (FormOp κ β ν))

namespace FormOp

variable [Ord κ] [Ord β]

mutual

/-- What an operation replies and leaves. -/
def step (form : κ → β) (m : TreeMap κ ν) : FormOp κ β ν → TableReply κ ν × TreeMap κ ν
  | .byKey op => op.step m
  | .remove sought =>
    (((storedBy? form m sought).map Prod.snd).elim .nothing .value, eraseBy form m sought)
  | .delete sought => (.flag (storedBy? form m sought).isSome, eraseBy form m sought)
  | .contains sought => (.flag (storedBy? form m sought).isSome, m)
  | .reference sought =>
    (((storedBy? form m sought).map Prod.snd).elim .nothing .reference, m)
  | .get sought => (((storedBy? form m sought).map Prod.snd).elim .nothing .value, m)
  | .find sought => (.ofPair? (storedBy? form m sought), m)
  | .applyWith sought nested =>
    match storedBy? form m sought with
    | none => (.nothing, m)
    | some (key, value) =>
      let (replies, m) := steps form m nested
      (.application key value replies, m)

/-- What a sequence of operations replies and leaves. -/
def steps (form : κ → β) (m : TreeMap κ ν) :
    List (FormOp κ β ν) → List (TableReply κ ν) × TreeMap κ ν
  | [] => ([], m)
  | op :: ops =>
    let (reply, m) := step form m op
    let (replies, m) := steps form m ops
    (reply :: replies, m)

end

mutual

/-- The operation never makes the map hold `2 ^ 64` entries. -/
def Fits (form : κ → β) (m : TreeMap κ ν) : FormOp κ β ν → Prop
  | .byKey op => op.Fits m
  | .applyWith sought nested => (storedBy? form m sought).isSome → AllFit form m nested
  | _ => True

/-- The operations never make the map hold `2 ^ 64` entries. -/
def AllFit (form : κ → β) (m : TreeMap κ ν) : List (FormOp κ β ν) → Prop
  | [] => True
  | op :: ops => Fits form m op ∧ AllFit form (step form m op).2 ops

end

end FormOp

namespace TableSession

variable {ρ : Type} [Ord κ] [Ord β] [Numbered κ] [Numbered ν] [Text.Legible κ] [Text.Legible ν]

mutual

/-- The same on a table. -/
def stepBy (form : KeyForm κ β) (s : TableSession κ ν) :
    FormOp κ β ν → Checked (TableReply κ ν × TableSession κ ν)
  | .byKey op => s.step op.onTable
  | .remove sought => s.onTable (·.removeBy form sought) fun value => value.elim .nothing .value
  | .delete sought => s.onTable (·.deleteBy form sought) .flag
  | .contains sought => s.onTable (·.containsBy form sought) .flag
  | .reference sought =>
    s.onTable (·.getBy form sought) fun value => value.elim .nothing .reference
  | .get sought => s.onTable (·.getBy form sought) fun value => value.elim .nothing .value
  | .find sought => s.onTable (·.findBy form sought) .ofPair?
  | .applyWith sought nested => do
    match ← s.table.findBy form sought with
    | (none, table) => return (.nothing, { s with table })
    | (some (key, value), table) =>
      let (replies, s) ← stepsBy form { s with table } nested
      return (.application key value replies, s)

/-- A sequence of operations on a table. -/
def stepsBy (form : KeyForm κ β) (s : TableSession κ ν) :
    List (FormOp κ β ν) → Checked (List (TableReply κ ν) × TableSession κ ν)
  | [] => .ok ([], s)
  | op :: ops => do
    let (reply, s) ← stepBy form s op
    let (replies, s) ← stepsBy form s ops
    return (reply :: replies, s)

end

/-- An operation on the table ends with a reply that agrees with the one expected, and leaves a
table that represents the map expected and has the form. -/
def RefinesBy (form : KeyForm κ β) (agrees : ρ → ρ → Prop)
    (outcome : Checked (ρ × TableSession κ ν)) (expected : ρ × TreeMap κ ν) : Prop :=
  ∃ reply s, outcome = .ok (reply, s) ∧ agrees reply expected.1 ∧
    s.table.RepresentsBy form expected.2

omit [Numbered κ] [Numbered ν] [Text.Legible κ] [Text.Legible ν] in
theorem refinesBy_onTable {form : KeyForm κ β} {s : TableSession κ ν}
    {operation : Table κ ν → Checked (ρ × Table κ ν)} {x : ρ} {reply : ρ → TableReply κ ν}
    {m : TreeMap κ ν}
    (h : ∃ t, operation s.table = .ok (x, t) ∧ t.RepresentsBy form m) :
    RefinesBy form TableReply.Agrees (s.onTable operation reply) (reply x, m) := by
  obtain ⟨t, hop, ht⟩ := h
  refine ⟨reply x, { s with table := t }, ?_, .same _, ht⟩
  rw [onTable, hop]
  rfl

variable {form : KeyForm κ β}

mutual

/-- **Step lemma.** -/
theorem stepBy_refines [Std.TransOrd κ] [Std.TransOrd β] (s : TableSession κ ν) (m : TreeMap κ ν)
    (h : s.table.RepresentsBy form m) :
    ∀ op : FormOp κ β ν, op.Fits form.of m →
      RefinesBy form TableReply.Agrees (s.stepBy form op) (op.step form.of m)
  | .byKey op, hfits => by
    obtain ⟨reply, s', hstep, hagree, hs'⟩ := step_refines s m h.toRepresents op hfits
    obtain ⟨n, -, hcalls⟩ := step_tracks Table.tracks_calls op.onTable hstep
    exact ⟨reply, s', hstep, hagree, h.of_calls hcalls hs'⟩
  | .remove sought, _ => by
    simp only [stepBy, FormOp.step]
    exact refinesBy_onTable (h.removeBy sought)
  | .delete sought, _ => by
    simp only [stepBy, FormOp.step]
    exact refinesBy_onTable (h.deleteBy sought)
  | .contains sought, _ => by
    simp only [stepBy, FormOp.step]
    exact refinesBy_onTable (h.containsBy sought)
  | .reference sought, _ => by
    simp only [stepBy, FormOp.step]
    exact refinesBy_onTable (h.getBy sought)
  | .get sought, _ => by
    simp only [stepBy, FormOp.step]
    exact refinesBy_onTable (h.getBy sought)
  | .find sought, _ => by
    simp only [stepBy, FormOp.step]
    exact refinesBy_onTable (h.findBy sought)
  | .applyWith sought nested, hfits => by
    obtain ⟨t, hfind, ht⟩ := h.findBy sought
    simp only [stepBy, FormOp.step, hfind, Checked.ok_bind]
    cases hstored : storedBy? form.of m sought with
    | none => exact ⟨.nothing, { s with table := t }, rfl, .same _, ht⟩
    | some e =>
      -- the nested operations run, so they are among those that fit
      have hsome : (storedBy? form.of m sought).isSome = true := by
        rw [hstored]
        rfl
      obtain ⟨replies, s', hsteps, hagree, hs'⟩ :=
        stepsBy_refines { s with table := t } m ht nested (hfits hsome)
      refine ⟨.application e.1 e.2 replies, s', ?_, .application hagree, hs'⟩
      simp only [hsteps, Checked.ok_bind]
      rfl

/-- **Run lemma.** -/
theorem stepsBy_refines [Std.TransOrd κ] [Std.TransOrd β] (s : TableSession κ ν) (m : TreeMap κ ν)
    (h : s.table.RepresentsBy form m) :
    ∀ ops : List (FormOp κ β ν), FormOp.AllFit form.of m ops →
      RefinesBy form (List.Forall₂ TableReply.Agrees) (s.stepsBy form ops)
        (FormOp.steps form.of m ops)
  | [], _ => ⟨[], s, rfl, .nil, h⟩
  | op :: ops, hfits => by
    obtain ⟨reply, t, hstep, hagree, ht⟩ := stepBy_refines s m h op hfits.1
    obtain ⟨replies, u, hsteps, hagrees, hu⟩ :=
      stepsBy_refines t (op.step form.of m).2 ht ops hfits.2
    refine ⟨reply :: replies, u, ?_, .cons hagree hagrees, hu⟩
    rw [stepsBy, hstep]
    simp only [Checked.ok_bind, hsteps]
    rfl

end

/-- **A table is a finite map also for those who seek keys by a form.** For every sizing without a
flaw, every hash function and every form that is lawful for it, any run on a new table replies what
it replies on a map whose entries are sought by forms, and the table lists the entries of that map
in the end. -/
theorem replies_agree_by_form [Std.TransOrd β] {sizing : Sizing} (hsizing : sizing.check = .ok ())
    {hash : κ → UInt64} (hform : form.Lawful hash) (protection : Protection) (hashKnown : Bool)
    {ops : List (FormOp κ β ν)} (hfits : FormOp.AllFit form.of ∅ ops) :
    ∃ t : Table κ ν, Table.build sizing hash = .ok t ∧
      ∃ replies s, stepsBy form { table := t, protection, hashKnown } ops = .ok (replies, s) ∧
        List.Forall₂ TableReply.Agrees replies (FormOp.steps form.of ∅ ops).1 ∧
        ∃ entries, s.table.toList = .ok entries ∧
          entries.Perm (FormOp.steps form.of ∅ ops).2.toList := by
  -- the map is ordered as the forms are
  have : Std.TransOrd κ := hform.transOrd
  obtain ⟨t, hbuild, ht⟩ := Table.exists_build (ν := ν) hsizing hform.respects_keys
  obtain ⟨-, -, hhash⟩ := Table.tidy_build hbuild
  have ht : t.RepresentsBy form ∅ := ⟨ht, hhash ▸ hform⟩
  obtain ⟨replies, s, hsteps, hagree, hs⟩ :=
    stepsBy_refines { table := t, protection, hashKnown } ∅ ht ops hfits
  exact ⟨t, hbuild, replies, s, hsteps, hagree, hs.exists_toList⟩

/-- Words may be sought by the numbers they stand for. A number that is too large stands for none. -/
theorem lawful_toNat (hash : UInt64 → UInt64) :
    KeyForm.Lawful ⟨UInt64.toNat, fun n => hash (.ofNat n)⟩ hash where
  compare_of := by
    intro a b
    rcases Nat.lt_trichotomy a.toNat b.toNat with hlt | heq | hgt
    · rw [Std.compare_eq_lt.mpr hlt, Std.compare_eq_lt.mpr (UInt64.lt_iff_toNat_lt.mpr hlt)]
    · rw [UInt64.toNat_inj.mp heq, Std.compare_self, Std.compare_self]
    · rw [Std.compare_eq_gt.mpr hgt, Std.compare_eq_gt.mpr (UInt64.lt_iff_toNat_lt.mpr hgt)]
  hash_of := by
    intro key
    show hash (.ofNat key.toNat) = hash key
    rw [UInt64.ofNat_toNat]
  respects := by
    intro a b heq
    rw [Std.LawfulEqCmp.eq_of_compare heq]

/-- Among the numbers that are sought is `2 ^ 64 + 1`, which is no word and has the hash of 1. -/
theorem replies_agree_by_form_of_large_number :
    let form : KeyForm UInt64 Nat := ⟨UInt64.toNat, fun n => .ofNat n / 2⟩
    let ops : List (FormOp UInt64 Nat UInt64) :=
      [.byKey (.insert 1 10), .byKey (.insert 0 20), .find 1, .find 18446744073709551617,
        .remove 0, .applyWith 1 [.delete 1, .byKey (.insert 7 50), .contains 1], .get 7]
    (FormOp.steps form.of ∅ ops).1 = [.flag true, .flag true, .entry 1 10, .nothing, .value 20,
      .application 1 10 [.flag true, .flag true, .flag false], .value 50] ∧
    ∃ t : Table UInt64 UInt64,
      Table.build { initialBuckets := 1, maxLoad := 1, maxBuckets := 4 } (· / 2) = .ok t ∧
      ∃ replies s, stepsBy form { table := t, protection := .epoch, hashKnown := false } ops =
          .ok (replies, s) ∧
        List.Forall₂ TableReply.Agrees replies (FormOp.steps form.of ∅ ops).1 ∧
        ∃ entries, s.table.toList = .ok entries ∧
          entries.Perm (FormOp.steps form.of ∅ ops).2.toList := by
  intro form ops
  have hfits : FormOp.AllFit form.of ∅ ops := by
    simp only [ops, FormOp.AllFit, FormOp.Fits, FormOp.step, MapOp.Fits, MapOp.step, and_true,
      true_and]
    refine ⟨?_, ?_, ?_⟩
    all_goals decide
  exact ⟨by rfl, replies_agree_by_form (by decide) (lawful_toNat (· / 2)) .epoch false hfits⟩

end TableSession

end SplitOrder
