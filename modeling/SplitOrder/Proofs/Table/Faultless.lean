import SplitOrder.Proofs.Table.Load
import SplitOrder.Proofs.Table.Sizing
import SplitOrder.Proofs.Table.WeakConsistency

/-!
# No fault is ever met

Faults are broken internal checks, and a table never meets one: whatever a session on a new table is
asked, it ends, as long as no insertion makes the table hold `2 ^ 64` entries. That is the one
condition, and it is one on the entries that are there at the time (`Table.Fits`), not on the number
of insertions.

* `Table.Fits`, `TableSession.AllFit`, `SetSession.AllFit` — the condition, along a run.
* `Table.Unfailing` — what else must not go wrong about a table and is not a fault by itself: what
  is found has a value, and the counter, which wraps around, never does.
* `TableSession.Ready` — the invariant of sessions: the table is tidy, and each cursor has a way
  ahead of it.
* `step_ends`, `steps_ends`, `SetSession.run_ends` — the runs.
* `never_faults` — for each sizing that passes the check, and for each capacity.
-/

namespace SplitOrder

open SortedList Checked

namespace Table

variable {κ ν ρ : Type} [Ord κ]

/-- Fewer than `2 ^ 64` entries are held if the key is inserted. -/
def Fits (t : Table κ ν) (key : κ) : Prop :=
  t.list.Lacks (t.probe key) → t.list.live.countP (!·.isSentinel) + 1 < 2 ^ 64

/-- **Nothing goes wrong with a table.** -/
structure Unfailing (t : Table κ ν) : Prop where
  /-- Every action ends, an insertion if its entry fits. -/
  ends : ∀ (key : κ) (a : Action ν), (∀ value, a = .insert value → t.Fits key) →
    ∃ change t', t.perform key a = .ok (change, t')
  /-- The counter does not leave its range. -/
  counts : ∀ {key : κ} {a : Action ν} {change t'}, t.perform key a = .ok (change, t') →
    change.Counts t.size.toNat t'.size.toNat
  /-- What is found for a key has a key and a value. -/
  found : ∀ {key : κ} {i t'}, t.lookup key = .ok (some i, t') →
    ∃ e pair, t'.list.element i = .ok e ∧ e.pair? = some pair
  /-- What is removed has a value. -/
  removed : ∀ {key : κ} {e t'}, t.removeEntry key = .ok (some e, t') →
    ∃ value, e.value? = some value
  /-- The directory has a slot for every bucket in use. -/
  located : ∀ {bucket : Bucket}, bucket < t.bucketCount → ∃ slot segment,
    Directory.slot bucket = .ok slot ∧ t.directory.segment slot = .ok segment

variable [Std.TransOrd κ] {t t' : Table κ ν} {key : κ} {value : ν} {a : Action ν} {change : Change}

omit [Std.TransOrd κ] in
/-- The counter has room for whatever fits. -/
theorem Tidy.hasRoom (h : t.Tidy) (hfits : t.Fits key) : t.HasRoom key := by
  intro hlacks
  rw [h.size_eq]
  exact hfits hlacks

theorem Tidy.unfailing (h : t.Tidy) : t.Unfailing where
  ends := by
    intro key a hfits
    exact exists_perform h.toIntact key a fun value ha => h.hasRoom (hfits value ha)
  counts := fun hperform => (course_of_perform h.toIntact hperform).counts h
  found := by
    intro key i t' hlook
    obtain ⟨found, t'', hlook', hcourse, hfound⟩ := exists_lookup h.toIntact key
    cases hlook'.symm.trans hlook
    obtain ⟨e, he, heq⟩ := hfound
    obtain ⟨key', value, rfl, -⟩ := KeyProbe.toProbe_eq_iff.mp heq
    exact ⟨_, (key', value), element_eq_ok_iff.mpr he.1, rfl⟩
  removed := by
    intro key e t' hrem
    obtain ⟨entry, t'', hrem', -, hstores⟩ := exists_removeEntry h.toIntact key
    cases hrem'.symm.trans hrem
    obtain ⟨key', value, rfl, -⟩ := exists_eq_pair_of_stores hstores
    exact ⟨value, rfl⟩
  located := by
    intro bucket hlt
    have hcap : bucket < Directory.capacity := h.lt_capacity hlt
    exact ⟨_, _, Directory.slot_eq hcap, Directory.segment_eq h.directory hcap⟩

/-! ### Operations on a table end -/

/-- What a later table keeps of an earlier one for those who read it. -/
def Serves (t t' : Table κ ν) : Prop :=
  t'.Tidy ∧ t.list.Evolves t'.list

omit [Std.TransOrd κ] in
theorem Serves.trans {t'' : Table κ ν} (h : t.Serves t') (h' : t'.Serves t'') : t.Serves t'' :=
  ⟨h'.1, h.2.trans h'.2⟩

omit [Std.TransOrd κ] in
theorem Course.evolves (h : t.Course key change t') : t.list.Evolves t'.list := by
  cases h with
  | keeps hb htrims => exact hb.prepares.evolves.trans htrims.evolves
  | links hb hlinks hfits hgrows =>
    obtain ⟨c, rfl⟩ := exists_of_doubleIfFull hgrows
    exact hb.prepares.evolves.trans hlinks.evolves
  | deletes hb hdeletes => exact hb.prepares.evolves.trans hdeletes.evolves

/-- **An action ends** in a table that serves the readers of the old one. -/
theorem Tidy.perform_ends (h : t.Tidy) (key : κ) (a : Action ν)
    (hfits : ∀ value, a = .insert value → t.Fits key) :
    Ends (fun p => t.Serves p.2) (t.perform key a) := by
  obtain ⟨change, t', hperform⟩ := h.unfailing.ends key a hfits
  have hcourse := course_of_perform h.toIntact hperform
  exact ⟨_, hperform, hcourse.tidy h, hcourse.evolves⟩

omit [Ord κ] [Std.TransOrd κ] in
/-- If an operation ends with a remark on its outcome, it ends without. -/
theorem ends_of_bind {P : Table κ ν → Prop} {outcome : Checked (ρ × Table κ ν)}
    (remark : ρ → Change)
    (h : Ends (fun p => P p.2) (do let (x, t) ← outcome; return (remark x, t))) :
    Ends (fun p => P p.2) outcome := by
  obtain ⟨⟨change, t'⟩, hop, hpost⟩ := h
  obtain ⟨⟨x, t₁⟩, hx, hop⟩ := Checked.bind_eq_ok.mp hop
  cases hop
  exact ⟨(x, t'), hx, hpost⟩

section Operations

variable (h : t.Tidy)
include h

theorem Tidy.insert_ends (value : ν) (hfits : t.Fits key) :
    Ends (fun p => t.Serves p.2) (t.insert key value) :=
  ends_of_bind Change.ofInsertion (h.perform_ends key (.insert value) fun _ _ => hfits)

theorem Tidy.remove_ends (key : κ) : Ends (fun p => t.Serves p.2) (t.remove key) :=
  ends_of_bind (fun value => .ofRemoval value.isSome)
    (h.perform_ends key .remove fun _ ha => nomatch ha)

theorem Tidy.delete_ends (key : κ) : Ends (fun p => t.Serves p.2) (t.delete key) :=
  ends_of_bind Change.ofRemoval (h.perform_ends key .delete fun _ ha => nomatch ha)

theorem Tidy.contains_ends (key : κ) : Ends (fun p => t.Serves p.2) (t.contains key) :=
  ends_of_bind (fun _ => .kept) (h.perform_ends key .contains fun _ ha => nomatch ha)

theorem Tidy.get_ends (key : κ) : Ends (fun p => t.Serves p.2) (t.get key) :=
  ends_of_bind (fun _ => .kept) (h.perform_ends key .get fun _ ha => nomatch ha)

theorem Tidy.find_ends (key : κ) : Ends (fun p => t.Serves p.2) (t.find key) :=
  ends_of_bind (fun _ => .kept) (h.perform_ends key .find fun _ ha => nomatch ha)

theorem Tidy.lookup_ends (key : κ) : Ends (fun p => t.Serves p.2) (t.lookup key) :=
  ends_of_bind (fun _ => .kept) (h.perform_ends key .lookup fun _ ha => nomatch ha)

theorem Tidy.toList_ends : Ends (fun _ => True) t.toList :=
  ⟨_, toList_eq h.toIntact, trivial⟩

end Operations

end Table

/-! ### Calls on cursors end -/

namespace Cursor

variable {κ ν : Type} {l : SortedList (Entry κ ν)} {c c' : Cursor} {is : List NodeId}

/-- The cursor has a way ahead of it, and the way has an end. -/
def OnWay (l : SortedList (Entry κ ν)) (c : Cursor) : Prop :=
  ∃ is, Ahead l c is

theorem OnWay.park_ends (h : OnWay l c) : Ends (fun p => OnWay l p.2) (c.park l) := by
  obtain ⟨is, h⟩ := h
  obtain ⟨b, d, es, js, hpark, hpasses, -⟩ := park_spec h
  exact ⟨_, hpark, js, hpasses.ahead⟩

theorem OnWay.takeNext_ends (h : OnWay l c) : Ends (fun p => OnWay l p.2) (c.takeNext l) := by
  obtain ⟨is, h⟩ := h
  obtain ⟨entry, d, es, js, htake, hpasses, -⟩ := takeNext_spec h
  exact ⟨_, htake, js, hpasses.ahead⟩

theorem drainEntriesWithin_ends {steps : Nat} {entries : List (κ × ν)} (h : Ahead l c is)
    (hsteps : (l.pairsOf is).length < steps) :
    Ends (fun p => OnWay l p.2) (drainEntriesWithin l steps entries c) := by
  -- on the steps: each takes one of the pairs ahead or comes to the end
  induction steps generalizing entries c is with
  | zero => exact absurd hsteps (Nat.not_lt_zero _)
  | succ steps ih =>
    obtain ⟨entry, d, es, js, htake, hpasses, hes, -⟩ := takeNext_spec h
    rw [drainEntriesWithin, htake, Checked.ok_bind]
    cases entry with
    | none => exact ends_ok ⟨js, hpasses.ahead⟩
    | some e =>
      obtain ⟨k, key, value, rfl⟩ := exists_eq_pair hes
      refine ih hpasses.ahead ?_
      rw [hpasses.pairsOf_eq hes, List.length_append] at hsteps
      simp only [Option.bind_some, Entry.pair?, Option.toList_some, List.length_singleton] at hsteps
      omega

theorem OnWay.drainEntries_ends (h : OnWay l c) :
    Ends (fun p => OnWay l p.2) (c.drainEntries l) := by
  obtain ⟨is, h⟩ := h
  refine drainEntriesWithin_ends h (Nat.lt_of_le_of_lt ?_ h.length_lt)
  exact Nat.le_trans (List.length_filterMap_le ..) (length_liveOf_le l is)

/-- **What a cursor is parked at is an entry**, so it has a key and a value when it is taken. -/
theorem OnWay.exists_take (h : OnWay l c) (hpark : c.park l = .ok (true, c')) :
    ∃ pair d, c'.take l = .ok (some pair, d) := by
  obtain ⟨is, h⟩ := h
  obtain ⟨b, c₁, es, js, hpark', hpasses, -, -, htrue⟩ := park_spec h
  cases hpark'.symm.trans hpark
  obtain ⟨i, k, key, value, hi, hholds⟩ := htrue rfl
  obtain ⟨js', rfl, -⟩ := hpasses.ahead.eq_cons hi
  obtain ⟨d, ks, hnext, -⟩ := next_spec hpasses.ahead
  rw [liveOf_cons_of_holds js' hholds] at hnext
  refine ⟨(key, value), d, ?_⟩
  rw [take, hnext]
  rfl

end Cursor

/-! ### Sessions end -/

namespace TableSession

open Table Cursor

variable {κ ν ρ : Type} [Ord κ]

/-- **The invariant of sessions.** -/
structure Ready (s : TableSession κ ν) : Prop where
  tidy : s.table.Tidy
  cursors : ∀ {i : Nat} {c : Cursor}, s.cursors[i]? = some c → OnWay s.table.list c

section Fits

variable [Numbered κ] [Numbered ν] [Text.Legible κ] [Text.Legible ν]

/-- What a request inserts fits. -/
def FitsRequest (s : TableSession κ ν) : TableRequest κ ν → Prop
  | .insert key _ => s.table.Fits key
  | .insertRange range =>
    AllAlong (fun t n => t.Fits (Numbered.ofNumber n)) insertNumber s.table range.numbers
  | _ => True

mutual

/-- What an operation inserts fits, and so does what the operations nested in it insert. -/
def Fits (s : TableSession κ ν) : TableOp κ ν → Prop
  | .request r => s.FitsRequest r
  | .applyWith key nested =>
    ∀ pair t, s.table.find key = .ok (some pair, t) → AllFit { s with table := t } nested

/-- The operations of a run never make the table hold `2 ^ 64` entries. -/
def AllFit (s : TableSession κ ν) : List (TableOp κ ν) → Prop
  | [] => True
  | op :: ops => Fits s op ∧ ∀ reply s', s.step op = .ok (reply, s') → AllFit s' ops

end

end Fits

section Requests

variable [Std.TransOrd κ] {s : TableSession κ ν} {t' : Table κ ν}

/-- Whatever serves the readers of the table serves the session. -/
theorem Ready.withTable (hs : s.Ready) (h : s.table.Serves t') : { s with table := t' }.Ready where
  tidy := h.1
  cursors := by
    intro i c hc
    obtain ⟨is, his⟩ := hs.cursors hc
    obtain ⟨js, hjs, -⟩ := his.evolves hs.tidy.list h.2
    exact ⟨js, hjs⟩

theorem Ready.onTable (hs : s.Ready) {operation : Table κ ν → Checked (ρ × Table κ ν)}
    {reply : ρ → TableReply κ ν} (h : Ends (fun p => s.table.Serves p.2) (operation s.table)) :
    Ends (fun p => p.2.Ready) (s.onTable operation reply) :=
  h.bind fun _ hp => ends_ok (hs.withTable hp)

omit [Std.TransOrd κ] in
theorem Ready.withCursor (hs : s.Ready) {i : Nat} {use : Cursor → Checked (TableReply κ ν × Cursor)}
    (huse : ∀ c, OnWay s.table.list c → Ends (fun p => OnWay s.table.list p.2) (use c)) :
    Ends (fun p => p.2.Ready) (s.withCursor i use) := by
  unfold TableSession.withCursor
  split
  · exact ends_ok hs
  · next c hc =>
    refine (huse c (hs.cursors hc)).bind fun p hp => ends_ok ⟨hs.tidy, fun {j d} hd => ?_⟩
    -- the cursor that was used, or one of the others
    have hd : (s.cursors.setIfInBounds i p.2)[j]? = some d := hd
    rw [Array.getElem?_setIfInBounds] at hd
    split at hd
    · split at hd
      · cases hd
        exact hp
      · cases hd
    · exact hs.cursors hd

/-- **A sequence of numbered operations ends.** -/
theorem Ready.countTrue (hs : s.Ready) {condition : Table κ ν → Int64 → Prop}
    {operation : Table κ ν → Int64 → Checked (Bool × Table κ ν)} {numbers : List Int64}
    {reply : Nat → TableReply κ ν}
    (hop : ∀ t n, t.Tidy → condition t n → Ends (fun p => t.Serves p.2) (operation t n))
    (hall : AllAlong condition operation s.table numbers) :
    Ends (fun p => p.2.Ready) (s.onTable (Checked.countTrue operation · numbers) reply) := by
  refine hs.onTable (ends_countTrue (I := s.table.Serves) (fun t n ht hn => ?_)
    ⟨hs.tidy, .refl⟩ hall)
  exact (hop t n ht.1 hn).mono fun _ hp => ht.trans hp

variable [Numbered κ] [Numbered ν] [Text.Legible κ] [Text.Legible ν]

/-- **A request ends.** -/
theorem answer_ends (hs : s.Ready) {r : TableRequest κ ν} (hfits : s.FitsRequest r) :
    Ends (fun p => p.2.Ready) (s.answer r) := by
  have htidy : s.table.Tidy := hs.tidy
  have always : ∀ {operation : Table κ ν → Int64 → Checked (Bool × Table κ ν)} (numbers),
      AllAlong (fun _ _ => True) operation s.table numbers :=
    fun numbers => allAlong_of_forall (fun _ _ => trivial) s.table numbers
  unfold answer
  cases r with
  | insert key value => exact hs.onTable (htidy.insert_ends value hfits)
  | remove key => exact hs.onTable (htidy.remove_ends key)
  | delete key => exact hs.onTable (htidy.delete_ends key)
  | contains key => exact hs.onTable (htidy.contains_ends key)
  | reference key | get key => exact hs.onTable (htidy.get_ends key)
  | find key => exact hs.onTable (htidy.find_ends key)
  | hold key =>
    refine (htidy.lookup_ends key).bind fun p hp => ?_
    obtain ⟨found, t'⟩ := p
    -- to hold a node is no matter of the table
    cases found with
    | none => exact ends_ok (hs.withTable hp)
    | some i =>
      have hready := hs.withTable hp
      exact ends_ok ⟨hready.tidy, hready.cursors⟩
  | held i | size | isEmpty | bucketCount | statistics => exact ends_ok hs
  | toList =>
    refine Ends.bind (P := fun _ => True) ?_ fun _ _ => ends_ok hs
    exact (htidy.toList_ends).bind fun _ _ => ends_ok trivial
  | debug layout =>
    refine Ends.bind (P := fun _ => True) ?_ fun _ _ => ends_ok hs
    exact (htidy.toList_ends).bind fun _ _ => ends_ok trivial
  | insertRange range =>
    exact hs.countTrue (fun t n ht hn => ht.insert_ends _ hn) hfits
  | deleteRange range =>
    exact hs.countTrue (fun t n ht _ => ht.delete_ends _) (always _)
  | containsRange range =>
    exact hs.countTrue (fun t n ht _ => ht.contains_ends _) (always _)
  | openCursor =>
    refine ends_ok ⟨htidy, fun {i c} hc => ?_⟩
    have hc : (s.cursors.push s.table.list.cursor)[i]? = some c := hc
    rw [Array.getElem?_push] at hc
    split at hc
    · cases hc
      exact ⟨_, htidy.list.toOrdered.ahead_cursor⟩
    · exact hs.cursors hc
  | hasNext i =>
    exact hs.withCursor fun c hc => hc.park_ends.bind fun _ hp => ends_ok hp
  | next i =>
    exact hs.withCursor fun c hc => hc.takeNext_ends.bind fun _ hp => ends_ok hp
  | drain i =>
    exact hs.withCursor fun c hc => hc.drainEntries_ends.bind fun _ hp => ends_ok hp

end Requests

variable [Numbered κ] [Numbered ν] [Text.Legible κ] [Text.Legible ν]

mutual

/-- **Step lemma.** -/
theorem step_ends [Std.TransOrd κ] {s : TableSession κ ν} (hs : s.Ready) :
    ∀ op : TableOp κ ν, s.Fits op → Ends (fun p => p.2.Ready) (s.step op)
  | .request r, hfits => answer_ends hs hfits
  | .applyWith key nested, hfits => by
    obtain ⟨⟨pair, t⟩, hfind, hserves⟩ := hs.tidy.find_ends key
    have ht : { s with table := t }.Ready := hs.withTable hserves
    rw [step, hfind, Checked.ok_bind]
    cases pair with
    | none => exact ends_ok ht
    | some p => exact (steps_ends ht nested (hfits p t hfind)).bind fun _ hp => ends_ok hp

/-- **Run lemma.** -/
theorem steps_ends [Std.TransOrd κ] {s : TableSession κ ν} (hs : s.Ready) :
    ∀ ops : List (TableOp κ ν), s.AllFit ops → Ends (fun p => p.2.Ready) (s.steps ops)
  | [], _ => ends_ok hs
  | op :: ops, hfits => by
    obtain ⟨⟨reply, t⟩, hop, ht⟩ := step_ends hs op hfits.1
    rw [steps, hop, Checked.ok_bind]
    exact (steps_ends ht ops (hfits.2 reply t hop)).bind fun _ hp => ends_ok hp

end

end TableSession

/-! ### Sessions on key sets end -/

namespace Table

variable {κ ν : Type} [Ord κ] [Std.TransOrd κ]

omit [Std.TransOrd κ] in
/-- There are as many pairs as are counted. -/
theorem Tidy.length_pairs {t : Table κ ν} (h : t.Tidy) :
    (t.list.live.filterMap Entry.pair?).length = t.size.toNat := by
  rw [h.size_eq, List.length_filterMap_eq_countP]
  refine List.countP_congr fun e _ => ?_
  cases e <;> simp [Entry.pair?, Entry.isSentinel]

/-- A deletion counts its key off. -/
theorem Tidy.delete_counts {t : Table κ ν} (h : t.Tidy) (key : κ) :
    Ends (fun p => t.Serves p.2 ∧ p.2.size.toNat + p.1.toNat ≤ t.size.toNat) (t.delete key) := by
  obtain ⟨⟨deleted, t'⟩, hdelete, hserves⟩ := h.delete_ends key
  have hperform : t.perform key .delete = .ok (.ofRemoval deleted, t') := by
    rw [perform, hdelete]
    rfl
  have hcounts := h.unfailing.counts hperform
  refine ⟨_, hdelete, hserves, ?_⟩
  cases deleted with
  | true => exact Nat.le_of_eq hcounts.symm
  | false => exact Nat.le_of_eq hcounts

/-- What is listed is found by a deletion. -/
theorem Tidy.delete_listed {t : Table κ ν} (h : t.Tidy) {key : κ} {value : ν}
    (hlisted : (key, value) ∈ t.list.live.filterMap Entry.pair?) {p : Bool × Table κ ν}
    (hdelete : t.delete key = .ok p) : p.1 = true := by
  obtain ⟨i, hi⟩ := (mem_pairs_iff h.toIntact).mp hlisted
  have hstores : t.list.Stores (t.probe key) (some (.ofPair (t.hash key) key value)) :=
    ⟨i, hi, KeyProbe.toProbe_eq_iff.mpr ⟨key, value, rfl, Std.compare_self⟩⟩
  obtain ⟨entry, t', hrem, -, hstores'⟩ := exists_removeEntry h.toIntact key
  -- there is only one answer to the search
  obtain rfl := hstores'.unique h.list (KeyProbe.monotone_toProbe _ _) hstores
  rw [Table.delete_eq, hrem] at hdelete
  cases hdelete
  rfl

/-- **A key set serves its readers** from a time on. -/
theorem serves_keys (t : KeySet κ) :
    KeyCollection.Serves (fun s : KeySet κ => t.Serves s) (fun s => s.size.toNat)
      (fun s key => s.Fits key) where
  insert := fun s key hs hfits => (hs.1.insert_ends () hfits).mono fun _ hp => hs.trans hp
  delete := fun s key hs => (hs.1.delete_counts key).mono fun _ hp => ⟨hs.trans hp.1, hp.2⟩
  contains := fun s key hs => (hs.1.contains_ends key).mono fun _ hp => hs.trans hp
  length := fun s _ => ends_ok trivial
  toList := by
    intro s hs
    refine ⟨s.liveKeys, keys_eq hs.1.toIntact, ?_, fun key hkey p hp => ?_⟩
    · rw [liveKeys, List.length_map, hs.1.length_pairs]
    · obtain ⟨⟨key', value⟩, hlisted, rfl⟩ := List.mem_map.mp hkey
      exact hs.1.delete_listed hlisted hp

end Table

namespace SetSession

open Table TableSession Cursor

variable {κ β : Type} [Ord κ] [Numbered κ]

/-- What a request inserts fits. -/
def FitsRequest (s : SetSession κ) : SetRequest κ → Prop
  | .table r => TableSession.FitsRequest s r
  | .bulk request => KeyCollection.MeetsAlong (fun t key => t.Fits key) s.table request
  | _ => True

variable [Text.Legible κ]

/-- The requests of a run never make the set hold `2 ^ 64` keys. -/
def AllFit (s : SetSession κ) : List (SetRequest κ) → Prop
  | [] => True
  | r :: rs => s.FitsRequest r ∧
    ∀ reply s', SetSession.answer s r = .ok (reply, s') → AllFit s' rs

variable [Std.TransOrd κ] {s : SetSession κ}

/-- **A request ends.** -/
theorem answer_ends (hs : s.Ready) {r : SetRequest κ} (hfits : s.FitsRequest r) :
    Ends (fun p => p.2.Ready) (SetSession.answer s r) := by
  unfold SetSession.answer
  cases r with
  | table r => exact TableSession.answer_ends hs hfits
  | stored key =>
    refine hs.onTable ?_
    exact (hs.tidy.find_ends key).bind fun _ hp => ends_ok hp
  | debugKeys layout =>
    refine Ends.bind (P := fun _ => True) ?_ fun _ _ => ends_ok hs
    refine Ends.bind (P := fun _ => True) ?_ fun _ _ => ends_ok trivial
    exact hs.tidy.toList_ends.bind fun _ _ => ends_ok trivial
  | demand i =>
    refine hs.withCursor fun c hc => ?_
    obtain ⟨⟨pair, d⟩, htake, hd⟩ := hc.takeNext_ends
    rw [KeySet.demand, htake, Checked.ok_bind]
    cases pair with
    | none => exact ends_ok hd
    | some p => exact ends_ok hd
  | bulk request =>
    exact hs.onTable ((serves_keys s.table).handle ⟨hs.tidy, .refl⟩ hfits)

/-- **Run lemma.** -/
theorem run_ends (view : SetSession κ → β) (hs : s.Ready) {rs : List (SetRequest κ)}
    (hfits : s.AllFit rs) : Ends (fun p => p.2.Ready) (SetSession.run view s rs) := by
  induction rs generalizing s with
  | nil => exact ends_ok hs
  | cons r rs ih =>
    obtain ⟨⟨reply, t⟩, hr, ht⟩ := answer_ends hs hfits.1
    rw [SetSession.run, hr, Checked.ok_bind]
    exact (ih ht (hfits.2 reply t hr)).bind fun _ hp => ends_ok hp

end SetSession

/-! ### All runs -/

namespace TableSession

open Table Cursor

/-- **Nothing goes wrong with a session**: not with its table, and whatever its cursors are parked
at is an entry. -/
structure Unfailing {κ ν : Type} [Ord κ] (s : TableSession κ ν) : Prop where
  table : s.table.Unfailing
  taken : ∀ {i : Nat} {c c' : Cursor}, s.cursors[i]? = some c →
    c.park s.table.list = .ok (true, c') → ∃ pair d, c'.take s.table.list = .ok (some pair, d)

variable {κ ν β : Type} [Ord κ] [Std.TransOrd κ]

theorem Ready.unfailing {s : TableSession κ ν} (hs : s.Ready) : s.Unfailing where
  table := hs.tidy.unfailing
  taken := fun hc hpark => (hs.cursors hc).exists_take hpark

omit [Std.TransOrd κ] in
theorem ready_of_build {sizing : Sizing} {hash : κ → UInt64} {t : Table κ ν}
    (h : Table.build sizing hash = .ok t) (protection : Protection) (hashKnown : Bool) :
    Ready { table := t, protection, hashKnown } where
  tidy := (tidy_build h).1
  cursors := fun hc => nomatch hc

variable [Numbered κ] [Numbered ν] [Text.Legible κ] [Text.Legible ν]

/-- **No fault is ever met.** There is a sizing for every capacity, and it passes the check. For
every sizing that passes the check and every hash function there is an empty table, and every run of
a session on it ends, whatever is asked in it about keys, ranges of keys and cursors and whatever is
nested, if only the table never comes to hold `2 ^ 64` entries; and so does every run of a session
on an empty key set. Nothing is wrong with the session that is left. -/
theorem never_faults (hash : κ → UInt64) (protection : Protection) (hashKnown : Bool)
    (view : SetSession κ → β) :
    (∀ capacity, ∃ sizing, Sizing.ofCapacity capacity = .ok sizing ∧ sizing.check = .ok ()) ∧
      ∀ sizing : Sizing, sizing.check = .ok () →
        (∃ t : Table κ ν, Table.build sizing hash = .ok t ∧ ∀ ops : List (TableOp κ ν),
          AllFit { table := t, protection, hashKnown } ops →
            ∃ replies s, steps { table := t, protection, hashKnown } ops = .ok (replies, s) ∧
              s.Unfailing) ∧
        ∃ t : KeySet κ, Table.build sizing hash = .ok t ∧ ∀ rs : List (SetRequest κ),
          SetSession.AllFit { table := t, protection, hashKnown } rs →
            ∃ replies s, SetSession.run view { table := t, protection, hashKnown } rs =
              .ok (replies, s) ∧ s.Unfailing := by
  refine ⟨Sizing.exists_ofCapacity, fun sizing hsizing => ⟨?_, ?_⟩⟩
  · obtain ⟨t, hbuild, -⟩ := exists_intact_build (ν := ν) hsizing hash
    refine ⟨t, hbuild, fun ops hfits => ?_⟩
    obtain ⟨⟨replies, s⟩, hrun, hs⟩ :=
      steps_ends (ready_of_build hbuild protection hashKnown) ops hfits
    exact ⟨replies, s, hrun, hs.unfailing⟩
  · obtain ⟨t, hbuild, -⟩ := exists_intact_build (ν := Unit) hsizing hash
    refine ⟨t, hbuild, fun rs hfits => ?_⟩
    obtain ⟨⟨replies, s⟩, hrun, hs⟩ :=
      SetSession.run_ends view (ready_of_build hbuild protection hashKnown) hfits
    exact ⟨replies, s, hrun, hs.unfailing⟩

/-- A run on a table of two buckets: a cursor passes over a sentinel and is parked at the one entry,
which is deleted in the middle of a look at it, so that the cursor finds nothing to yield. -/
theorem never_faults_with_deletion_under_cursor :
    let sizing : Sizing := { initialBuckets := 2, maxLoad := 1, maxBuckets := 4 }
    let ops : List (TableOp UInt64 UInt64) :=
      [.request (.insert 1 10), .request .openCursor, .request (.hasNext 0),
        .applyWith 1 [.request (.remove 1), .request (.containsRange ⟨0, 4, 1⟩)],
        .request (.next 0), .request (.drain 0)]
    sizing.check = .ok () ∧ ∃ t : Table UInt64 UInt64, Table.build sizing id = .ok t ∧
      AllFit { table := t } ops ∧ ∃ replies s, steps { table := t } ops = .ok (replies, s) ∧
        s.Unfailing ∧ s.table.sentinels = 1 ∧ s.table.size = 0 ∧ s.cursors = #[⟨none⟩] := by
  intro sizing ops
  have hsizing : sizing.check = .ok () := by decide
  obtain ⟨⟨t, hbuild, hruns⟩, -⟩ :=
    (never_faults (κ := UInt64) (ν := UInt64) id .deferred true fun _ => ()).2 sizing hsizing
  -- only the first operation inserts, and it does so into an empty table
  have hfits : AllFit { table := t } ops := by
    refine ⟨fun _ => ?_, fun _ _ _ => ⟨trivial, fun _ _ _ => ⟨trivial, fun _ _ _ => ⟨?_, ?_⟩⟩⟩⟩
    · show t.list.live.countP (!·.isSentinel) + 1 < 2 ^ 64
      rw [(tidy_build hbuild).2.1]
      decide
    · exact fun _ _ _ => ⟨trivial, fun _ _ _ => ⟨trivial, fun _ _ _ => trivial⟩⟩
    · exact fun _ _ _ => ⟨trivial, fun _ _ _ => ⟨trivial, fun _ _ _ => trivial⟩⟩
  obtain ⟨replies, s, hrun, hunfailing⟩ := hruns ops hfits
  have hvalues : (do
      let t ← Table.build sizing id
      let (_, s) ← steps { table := t } ops
      return (s.table.sentinels, s.table.size, s.cursors)) = .ok (1, 0, #[⟨none⟩]) := by
    decide +kernel
  rw [hbuild, Checked.ok_bind, hrun] at hvalues
  obtain ⟨hsentinels, hvalues⟩ := Prod.mk.inj (Except.ok.inj hvalues)
  exact ⟨hsizing, t, hbuild, hfits, replies, s, hrun, hunfailing, hsentinels, Prod.mk.inj hvalues⟩

end TableSession

end SplitOrder
