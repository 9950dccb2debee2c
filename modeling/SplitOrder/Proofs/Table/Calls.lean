import SplitOrder.Proofs.Table.Tidy

/-!
# What is done about one key

Whatever a client asks about a key, the table runs one of three courses behind a start that was
obtained for the key: the list is trimmed and nothing else happens, one new entry is linked and
counted, or one entry is deleted and counted off.

* `Action`, `Table.perform` — the operations on a key, and what each comes to (`Change`).
* `Begins` — what happens before: the start is obtained, by linking and registering sentinels.
* `Course` — the three courses. `course_of_perform` is the case analysis, made once.
* `exists_perform` — every action ends, an insertion provided that the counter has room for it.
* `Calls` — any number of actions; `tracks_calls` says that sessions do nothing else to a table.
-/

namespace SplitOrder

open SortedList

/-- What can be done about one key. -/
inductive Action (ν : Type) where
  | insert (value : ν)
  | remove
  | delete
  | contains
  | get
  /-- A look at the stored key and its value. -/
  | find
  /-- A reference to the node. -/
  | lookup
deriving DecidableEq, Repr

/-- What an action comes to. -/
inductive Change where
  /-- The entries are those of before. -/
  | kept
  | inserted
  | removed
deriving DecidableEq, Repr

def Change.ofInsertion : Bool → Change
  | true => .inserted
  | false => .kept

def Change.ofRemoval : Bool → Change
  | true => .removed
  | false => .kept

namespace Table

variable {κ ν : Type} [Ord κ]

/-- One action. -/
def perform (t : Table κ ν) (key : κ) : Action ν → Checked (Change × Table κ ν)
  | .insert value => do
    let (isNew, t) ← t.insert key value
    return (.ofInsertion isNew, t)
  | .remove => do
    let (value, t) ← t.remove key
    return (.ofRemoval value.isSome, t)
  | .delete => do
    let (deleted, t) ← t.delete key
    return (.ofRemoval deleted, t)
  | .contains => do
    let (_, t) ← t.contains key
    return (.kept, t)
  | .get => do
    let (_, t) ← t.get key
    return (.kept, t)
  | .find => do
    let (_, t) ← t.find key
    return (.kept, t)
  | .lookup => do
    let (_, t) ← t.lookup key
    return (.kept, t)

/-- **The beginning of an action.** Sentinels are linked and registered; no entry is touched. -/
structure Begins (t t₁ : Table κ ν) : Prop where
  obtains : t.Obtains t₁
  prepares : t.Prepares t₁
  intact : t₁.Intact
  tidies : t.Tidy → t₁.Tidy

/-- The search for a key, as the table makes it. -/
abbrev probe (t : Table κ ν) (key : κ) : Probe (Entry κ ν) :=
  (KeyProbe.ofKey (t.hash key) key).toProbe

/-- **The three courses of an action**, from the start on. -/
inductive Course (t : Table κ ν) (key : κ) : Change → Table κ ν → Prop
  | keeps {t₁ : Table κ ν} {l : SortedList (Entry κ ν)} (begins : t.Begins t₁)
      (trims : t₁.list.Trims l) : Course t key .kept { t₁ with list := l }
  | links {t₁ t' : Table κ ν} {value : ν} {i : NodeId} {l : SortedList (Entry κ ν)}
      (begins : t.Begins t₁) (links : t₁.list.Links (.ofPair (t.hash key) key value) i l)
      (fits : t₁.size.toNat + 1 < UInt64.size)
      (grows : doubleIfFull { t₁ with list := l, size := t₁.size + 1 } (t₁.size + 1) = .ok t') :
      Course t key .inserted t'
  | deletes {t₁ : Table κ ν} {e : Entry κ ν} {i : NodeId} {l : SortedList (Entry κ ν)}
      (begins : t.Begins t₁) (deletes : t₁.list.Deletes (t.probe key) e i l) :
      Course t key .removed (countRemoval { t₁ with list := l })

/-- The counter has room for the entry that an insertion would add. -/
def HasRoom (t : Table κ ν) (key : κ) : Prop :=
  t.list.Lacks (t.probe key) → t.size.toNat + 1 < UInt64.size

variable [Std.TransOrd κ] {t t' t₁ : Table κ ν} {key : κ} {value : ν} {a : Action ν}
  {change : Change}

omit [Ord κ] [Std.TransOrd κ] in
/-- Growing writes nothing but the number of buckets. -/
theorem exists_of_doubleIfFull {n : UInt64} (h : t.doubleIfFull n = .ok t') :
    ∃ c, t' = { t with bucketCount := c } := by
  rw [doubleIfFull] at h
  split at h
  · cases h
    exact ⟨t.bucketCount, rfl⟩
  · obtain ⟨c, -, h⟩ := Checked.bind_eq_ok.mp h
    cases h
    exact ⟨c, rfl⟩

/-- Every action begins at a start in front of its key. -/
theorem exists_begins (h : t.Intact) (key : κ) :
    ∃ start t₁, t.sentinelOfHash (t.hash key) = .ok (start, t₁) ∧ t.Begins t₁ ∧
      t₁.list.InFront (t.probe key) start := by
  obtain ⟨start, t₁, hstart, hobtains, hprep, hintact, hfront⟩ :=
    sentinelOfHash_spec h (t.hash key)
  refine ⟨start, t₁, hstart, ⟨hobtains, hprep, hintact, fun htidy => ?_⟩, hfront key⟩
  obtain ⟨start', t₁', hstart', hretires, -⟩ := htidy.sentinelOfHash (t.hash key)
  cases hstart.symm.trans hstart'
  exact hretires.tidy

/-! ### The three operations -/

/-- **A lookup** runs the course that keeps all entries. -/
theorem exists_lookup (h : t.Intact) (key : κ) :
    ∃ found t', t.lookup key = .ok (found, t') ∧ t.Course key .kept t' ∧
      t'.list.Found (t.probe key) found := by
  obtain ⟨start, t₁, hstart, hbegins, hfront⟩ := exists_begins h key
  obtain ⟨found, l, hlook, htrims, hfound⟩ :=
    lookupAfter_spec hbegins.intact.list hfront (KeyProbe.monotone_toProbe _ _)
  refine ⟨found, { t₁ with list := l }, ?_, .keeps hbegins htrims,
    hfound.congr fun _ _ => htrims.holds_iff⟩
  rw [lookup_eq, hstart, Checked.ok_bind]
  simp only [hlook, Checked.ok_bind]
  rfl

omit [Std.TransOrd κ] in
/-- A search for a key stops at pairs only, so it finds the same where the same pairs are held. -/
theorem stores_toProbe_congr {l l' : SortedList (Entry κ ν)} {p : KeyProbe κ}
    {x : Option (Entry κ ν)} (h : l.Stores p.toProbe x)
    (hpair : ∀ {i k key value}, p.toProbe (.pair k key value : Entry κ ν) = .eq →
      (l'.Holds i (.pair k key value) ↔ l.Holds i (.pair k key value))) :
    l'.Stores p.toProbe x := by
  cases x with
  | none =>
    intro i e he heq
    obtain ⟨key', value', rfl, -⟩ := KeyProbe.toProbe_eq_iff.mp heq
    exact h i _ ((hpair heq).mp he) heq
  | some e =>
    obtain ⟨i, he, heq⟩ := h
    obtain ⟨key', value', rfl, -⟩ := KeyProbe.toProbe_eq_iff.mp heq
    exact ⟨i, (hpair heq).mpr he, heq⟩

omit [Std.TransOrd κ] in
/-- Obtaining the start of a key stores nothing for the key. -/
theorem Begins.stores (hb : t.Begins t₁) {x : Option (Entry κ ν)}
    (h : t₁.list.Stores (t.probe key) x) : t.list.Stores (t.probe key) x :=
  stores_toProbe_congr h fun _ => hb.prepares.pair_iff.symm

omit [Std.TransOrd κ] in
/-- What is stored for a key is a pair. -/
theorem exists_eq_pair_of_stores {e : Entry κ ν} (h : t.list.Stores (t.probe key) (some e)) :
    ∃ key' value, e = .ofPair (t.hash key) key' value ∧ compare key' key = .eq := by
  obtain ⟨i, -, heq⟩ := h
  exact KeyProbe.toProbe_eq_iff.mp heq

/-- **A removal** deletes what is stored for the key, if there is anything. -/
theorem exists_removeEntry (h : t.Intact) (key : κ) :
    ∃ entry t', t.removeEntry key = .ok (entry, t') ∧
      t.Course key (.ofRemoval entry.isSome) t' ∧ t.list.Stores (t.probe key) entry := by
  obtain ⟨start, t₁, hstart, hbegins, hfront⟩ := exists_begins h key
  obtain ⟨removed, l, hdel, hends⟩ :=
    deleteAfter_spec hbegins.intact.list hfront (KeyProbe.monotone_toProbe _ _)
  have hstores := hbegins.stores hends.stores
  rw [removeEntry_eq, hstart, Checked.ok_bind]
  simp only [hdel, Checked.ok_bind]
  cases removed with
  | none => exact ⟨none, { t₁ with list := l }, rfl, .keeps hbegins hends.1, hstores⟩
  | some e =>
    obtain ⟨i, hdeletes⟩ := hends
    exact ⟨some e, countRemoval { t₁ with list := l }, rfl, .deletes hbegins hdeletes, hstores⟩

/-- **An insertion** links a new entry or leaves the one that is there, and that is what is stored
for the key afterwards; if the counter has no room, it ends in a fault. -/
theorem exists_insert (h : t.Intact) (key : κ) (value : ν) :
    (∃ isNew t', t.insert key value = .ok (isNew, t') ∧ t.Course key (.ofInsertion isNew) t' ∧
      ∃ x, t.list.Stores (t.probe key) x ∧ isNew = x.isNone ∧
        t'.list.Stores (t.probe key) (some (x.getD (.ofPair (t.hash key) key value)))) ∨
      t.insert key value = .error (.overflow .add) ∧ ¬ t.HasRoom key := by
  obtain ⟨start, t₁, hstart, hbegins, hfront⟩ := exists_begins h key
  rw [probe, ← KeyProbe.ofElement_ofPair _ _ value] at hfront
  obtain ⟨ins, l, hins, hspec⟩ := insertAfter_spec hbegins.intact.list hfront
  rw [Table.insert, hstart, Checked.ok_bind]
  simp only [hins, Checked.ok_bind]
  cases ins with
  | existing i =>
    obtain ⟨htrims, e, he, heq⟩ := hspec
    have hsought : t.probe key e = .eq := by
      rw [probe, ← KeyProbe.ofElement_ofPair _ _ value]
      exact heq
    exact .inl ⟨false, { t₁ with list := l }, rfl, .keeps hbegins htrims, some e,
      hbegins.stores ⟨i, he, hsought⟩, rfl, i, htrims.holds_iff.mpr he, hsought⟩
  | linked i =>
    have hlinks : t₁.list.Links (.ofPair (t.hash key) key value) i l := hspec
    -- the key was not there, and obtaining the sentinel linked no pair
    have hfresh : t.list.Stores (t.probe key) none := by
      apply hbegins.stores
      rw [probe, ← KeyProbe.ofElement_ofPair _ _ value]
      exact hlinks.fresh
    simp only [countInsertion_eq]
    by_cases hfits : t₁.size.toNat + 1 < UInt64.size
    · -- the entry is counted, and then the number of buckets may double
      have hlinked : { t₁ with list := l }.Intact := by
        rw [← hbegins.prepares.hash_eq] at hlinks
        exact hbegins.intact.links (hbegins.intact.list.evolves hlinks.evolves).1 hlinks
      obtain ⟨c, hgrow, -⟩ := doubleIfFull_spec (hlinked.with_size (t₁.size + 1)) (t₁.size + 1)
      have hsought : t.probe key (.ofPair (t.hash key) key value) = .eq :=
        KeyProbe.toProbe_eq_iff.mpr ⟨key, value, rfl, Std.compare_self⟩
      refine .inl ⟨true, _, ?_, .links hbegins hlinks hfits hgrow, none, hfresh, rfl,
        hlinks.stores hsought⟩
      simp only [if_pos hfits, Checked.ok_bind, hgrow]
      rfl
    · refine .inr ⟨by rw [if_neg hfits]; rfl, fun hroom => hfits ?_⟩
      rw [hbegins.prepares.size_eq]
      exact hroom hfresh

/-! ### All actions -/

/-- **The case analysis.** What an action does to an intact table is one of the three courses. -/
theorem course_of_perform (h : t.Intact) (hperform : t.perform key a = .ok (change, t')) :
    t.Course key change t' := by
  -- all but insertions and removals do what a lookup does to the table
  have hkept : ∀ {found : Option NodeId}, t.lookup key = .ok (found, t') →
      t.Course key .kept t' := by
    intro found hlook
    obtain ⟨found', t₁, hlook', hcourse, -⟩ := exists_lookup h key
    cases hlook.symm.trans hlook'
    exact hcourse
  have hfinds : ∀ {pair : Option (κ × ν)}, t.find key = .ok (pair, t') → t.Course key .kept t' := by
    intro pair hfind
    obtain ⟨⟨found, t₁⟩, hlook, hfind⟩ := Checked.bind_eq_ok.mp hfind
    cases found with
    | none =>
      cases hfind
      exact hkept hlook
    | some i =>
      obtain ⟨e, -, hfind⟩ := Checked.bind_eq_ok.mp hfind
      cases hfind
      exact hkept hlook
  cases a with
  | insert value =>
    obtain ⟨⟨isNew, t₁⟩, hins, hperform⟩ := Checked.bind_eq_ok.mp hperform
    cases hperform
    rcases exists_insert h key value with ⟨isNew', t₁, hins', hcourse, -⟩ | ⟨hfault, -⟩
    · cases hins.symm.trans hins'
      exact hcourse
    · cases hins.symm.trans hfault
  | remove =>
    obtain ⟨⟨value, t₁⟩, hrem, hperform⟩ := Checked.bind_eq_ok.mp hperform
    cases hperform
    obtain ⟨⟨entry, t₁⟩, hrem, hvalue⟩ := Checked.bind_eq_ok.mp hrem
    cases hvalue
    obtain ⟨entry', t₁, hrem', hcourse, hstores⟩ := exists_removeEntry h key
    cases hrem.symm.trans hrem'
    cases entry with
    | none => exact hcourse
    | some e =>
      -- a pair has a value
      obtain ⟨key', value, rfl, -⟩ := exists_eq_pair_of_stores hstores
      exact hcourse
  | delete =>
    obtain ⟨⟨deleted, t₁⟩, hdel, hperform⟩ := Checked.bind_eq_ok.mp hperform
    cases hperform
    obtain ⟨⟨entry, t₁⟩, hrem, hdel⟩ := Checked.bind_eq_ok.mp hdel
    cases hdel
    obtain ⟨entry', t₁, hrem', hcourse, -⟩ := exists_removeEntry h key
    cases hrem.symm.trans hrem'
    exact hcourse
  | contains =>
    obtain ⟨⟨b, t₁⟩, hcontains, hperform⟩ := Checked.bind_eq_ok.mp hperform
    cases hperform
    obtain ⟨⟨found, t₁⟩, hlook, hcontains⟩ := Checked.bind_eq_ok.mp hcontains
    cases hcontains
    exact hkept hlook
  | get =>
    obtain ⟨⟨value, t₁⟩, hget, hperform⟩ := Checked.bind_eq_ok.mp hperform
    cases hperform
    obtain ⟨⟨pair, t₁⟩, hfind, hget⟩ := Checked.bind_eq_ok.mp hget
    cases hget
    exact hfinds hfind
  | find =>
    obtain ⟨⟨pair, t₁⟩, hfind, hperform⟩ := Checked.bind_eq_ok.mp hperform
    cases hperform
    exact hfinds hfind
  | lookup =>
    obtain ⟨⟨found, t₁⟩, hlook, hperform⟩ := Checked.bind_eq_ok.mp hperform
    cases hperform
    exact hkept hlook

/-- A look at the entry of a key ends, since what was found has an entry. -/
theorem exists_find (h : t.Intact) (key : κ) :
    ∃ pair t', t.find key = .ok (pair, t') := by
  obtain ⟨found, t', hlook, -, hfound⟩ := exists_lookup h key
  rw [find_eq, hlook, Checked.ok_bind]
  cases found with
  | none => exact ⟨none, t', rfl⟩
  | some i =>
    obtain ⟨e, he, -⟩ := hfound
    refine ⟨e.pair?, t', ?_⟩
    simp only [element_eq_ok_iff.mpr he.1, Checked.ok_bind]
    rfl

/-- **Every action ends.** -/
theorem exists_perform (h : t.Intact) (key : κ) (a : Action ν)
    (hroom : ∀ value, a = .insert value → t.HasRoom key) :
    ∃ change t', t.perform key a = .ok (change, t') := by
  obtain ⟨found, t₁, hlook, -⟩ := exists_lookup h key
  obtain ⟨entry, t₂, hrem, -⟩ := exists_removeEntry h key
  obtain ⟨pair, t₃, hfind⟩ := exists_find h key
  cases a with
  | insert value =>
    rcases exists_insert h key value with ⟨isNew, t', hins, -⟩ | ⟨-, hfull⟩
    · exact ⟨_, t', by rw [perform, hins]; rfl⟩
    · exact absurd (hroom value rfl) hfull
  | remove => exact ⟨_, t₂, by rw [perform, remove_eq, hrem]; rfl⟩
  | delete => exact ⟨_, t₂, by rw [perform, delete_eq, hrem]; rfl⟩
  | contains => exact ⟨_, t₁, by rw [perform, contains_eq, hlook]; rfl⟩
  | get => exact ⟨_, t₃, by rw [perform, get_eq, hfind]; rfl⟩
  | find => exact ⟨_, t₃, by rw [perform, hfind]; rfl⟩
  | lookup => exact ⟨_, t₁, by rw [perform, hlook]; rfl⟩

omit [Std.TransOrd κ] in
theorem Course.hash_eq (h : t.Course key change t') : t'.hash = t.hash := by
  cases h with
  | keeps hb htrims => exact hb.prepares.hash_eq
  | links hb hlinks hfits hgrows =>
    obtain ⟨c, rfl⟩ := exists_of_doubleIfFull hgrows
    exact hb.prepares.hash_eq
  | deletes hb hdeletes => exact hb.prepares.hash_eq

/-- What an action leaves is intact. -/
theorem Course.intact (h : t.Course key change t') : t'.Intact := by
  cases h with
  | keeps hb htrims => exact (hb.intact.trims (hb.intact.list.evolves htrims.evolves).1 htrims).2
  | @links t₁ _ value i l hb hlinks hfits hgrows =>
    rw [← hb.prepares.hash_eq] at hlinks
    have hlinked := hb.intact.links (hb.intact.list.evolves hlinks.evolves).1 hlinks
    obtain ⟨c, hdouble, hintact⟩ :=
      doubleIfFull_spec (hlinked.with_size (t₁.size + 1)) (t₁.size + 1)
    cases hdouble.symm.trans hgrows
    exact hintact
  | @deletes t₁ e i l hb hdeletes =>
    have hends : t₁.list.DeletionEnds (t.probe key) (some e) l := ⟨i, hdeletes⟩
    have hrem := hends.removes hb.intact.list (KeyProbe.monotone_toProbe _ _)
    exact (hb.intact.removes (hb.intact.list.evolves hdeletes.evolves).1 hrem).with_size _

/-- What an action leaves of a tidy table is tidy. -/
theorem Course.tidy (h : t.Course key change t') (ht : t.Tidy) : t'.Tidy := by
  cases h with
  | keeps hb htrims => exact ((hb.tidies ht).trims htrims).tidy
  | @links t₁ _ value i l hb hlinks hfits hgrows =>
    rw [← hb.prepares.hash_eq] at hlinks
    have hlinked := ((hb.tidies ht).linksPair hlinks hfits).tidy
    obtain ⟨c, hdouble, hintact⟩ := doubleIfFull_spec hlinked.toIntact (t₁.size + 1)
    have hle := bucketCount_le_of_doubleIfFull hgrows
    cases hdouble.symm.trans hgrows
    exact (hlinked.grows hintact hle).tidy
  | deletes hb hdeletes =>
    rw [probe, ← hb.prepares.hash_eq] at hdeletes
    exact ((hb.tidies ht).deletesPair hdeletes).tidy

/-! ### Any number of actions -/

omit [Std.TransOrd κ] in
/-- One action on some key. -/
def Acts (t t' : Table κ ν) : Prop :=
  ∃ key a change, t.perform key a = .ok (change, t')

omit [Std.TransOrd κ] in
/-- Any number of actions, one after the other. -/
abbrev Calls : Table κ ν → Table κ ν → Prop :=
  Relation.ReflTransGen Acts

theorem Calls.tidy (h : t.Calls t') (ht : t.Tidy) : t'.Tidy := by
  induction h with
  | refl => exact ht
  | tail _ hacts ih =>
    obtain ⟨key, a, change, hperform⟩ := hacts
    exact (course_of_perform ih.toIntact hperform).tidy ih

theorem Calls.intact (h : t.Calls t') (ht : t.Intact) : t'.Intact := by
  induction h with
  | refl => exact ht
  | tail _ hacts ih =>
    obtain ⟨key, a, change, hperform⟩ := hacts
    exact (course_of_perform ih hperform).intact

/-- No action changes the hash function. -/
theorem Calls.hash_eq (h : t.Calls t') (ht : t.Intact) : t'.hash = t.hash := by
  induction h with
  | refl => rfl
  | tail hcalls hacts ih =>
    obtain ⟨key, a, change, hperform⟩ := hacts
    exact (course_of_perform (Calls.intact hcalls ht) hperform).hash_eq.trans ih

omit [Std.TransOrd κ] in
/-- **Whatever is asked of a table**, in a session or in the requests about many keys, is a sequence
of actions. -/
theorem tracks_calls : Tracks fun (t : Table κ ν) _ t' => t.Calls t' where
  refl := fun _ => .refl
  trans := fun h h' => h.trans h'
  insert := fun {t t' key value b} h =>
    .single ⟨key, .insert value, .ofInsertion b, by rw [perform, h]; rfl⟩
  remove := fun {t t' key value} h =>
    .single ⟨key, .remove, .ofRemoval value.isSome, by rw [perform, h]; rfl⟩
  delete := fun {t t' key b} h => .single ⟨key, .delete, .ofRemoval b, by rw [perform, h]; rfl⟩
  lookup := fun {t t' key found} h => .single ⟨key, .lookup, .kept, by rw [perform, h]; rfl⟩

end Table

namespace TableSession

variable {κ ν : Type} [Ord κ] [Numbered κ] [Numbered ν] [Text.Legible κ] [Text.Legible ν]

theorem calls_of_steps {s s' : TableSession κ ν} {ops : List (TableOp κ ν)}
    {replies : List (TableReply κ ν)} (h : s.steps ops = .ok (replies, s')) :
    s.table.Calls s'.table := by
  obtain ⟨n, -, hcalls⟩ := steps_tracks Table.tracks_calls ops h
  exact hcalls

end TableSession

namespace SetSession

variable {κ β : Type} [Ord κ] [Numbered κ] [Text.Legible κ]

theorem calls_of_run {view : SetSession κ → β} {s s' : SetSession κ} {rs : List (SetRequest κ)}
    {replies : List (TableReply κ Unit × β)} (h : SetSession.run view s rs = .ok (replies, s')) :
    s.table.Calls s'.table := by
  obtain ⟨n, -, hcalls⟩ := run_tracks Table.tracks_calls h
  exact hcalls

end SetSession

end SplitOrder
