import SplitOrder.Proofs.Collection
import SplitOrder.Table.Session

/-!
# What requests to a table amount to

Whatever a session on a table is asked, it inserts keys, deletes keys, looks for keys, or only reads.
As for lists, the case analysis is made once, for whatever adds up along these operations
(`Table.Tracks`), and the number that adds up is that of the deletions that succeed.

* `TableSession.deletionsIn`, `deletions`, `deletionsAll` — that number, for a request, an operation
  with those nested in it, and a sequence of operations.
* `TableSession.step_tracks`, `steps_tracks` — the case analysis, and from it the runs.
* `SetSession.deletionsIn`, `deletionsAll`, `run_tracks` — the same for sessions on key sets, whose
  requests may be about many keys at once.
-/

namespace SplitOrder

namespace Table

variable {κ ν : Type} [Ord κ]

/-- **Of the operations on a table, deletions are what is counted.** -/
structure Tracks (R : Table κ ν → Nat → Table κ ν → Prop) : Prop extends AddsUp R where
  insert : ∀ {t t' : Table κ ν} {key value b}, t.insert key value = .ok (b, t') → R t 0 t'
  remove : ∀ {t t' : Table κ ν} {key value}, t.remove key = .ok (value, t') →
    R t value.isSome.toNat t'
  delete : ∀ {t t' : Table κ ν} {key b}, t.delete key = .ok (b, t') → R t b.toNat t'
  lookup : ∀ {t t' : Table κ ν} {key found}, t.lookup key = .ok (found, t') → R t 0 t'

variable {R : Table κ ν → Nat → Table κ ν → Prop} {t t' : Table κ ν} {key : κ}

theorem Tracks.contains (hR : Tracks R) {b : Bool} (h : t.contains key = .ok (b, t')) :
    R t 0 t' := by
  obtain ⟨⟨found, t₁⟩, hlook, h⟩ := Checked.bind_eq_ok.mp h
  cases h
  exact hR.lookup hlook

theorem Tracks.find (hR : Tracks R) {pair : Option (κ × ν)} (h : t.find key = .ok (pair, t')) :
    R t 0 t' := by
  obtain ⟨⟨found, t₁⟩, hlook, h⟩ := Checked.bind_eq_ok.mp h
  cases found with
  | none =>
    cases h
    exact hR.lookup hlook
  | some i =>
    obtain ⟨e, -, h⟩ := Checked.bind_eq_ok.mp h
    cases h
    exact hR.lookup hlook

theorem Tracks.get (hR : Tracks R) {value : Option ν} (h : t.get key = .ok (value, t')) :
    R t 0 t' := by
  obtain ⟨⟨pair, t₁⟩, hfind, h⟩ := Checked.bind_eq_ok.mp h
  cases h
  exact hR.find hfind

/-- What adds up along the operations of tables adds up along requests about many keys. -/
theorem Tracks.keys {R : KeySet κ → Nat → KeySet κ → Prop} (hR : Tracks R) :
    KeyCollection.Tracks R where
  refl := hR.refl
  trans := hR.trans
  insert := hR.insert
  delete := hR.delete
  contains := hR.contains

end Table

namespace TableSession

open Table

variable {κ ν ρ : Type} {s t : TableSession κ ν} {reply : TableReply κ ν}

theorem table_withCursor {i : Nat} {use : Cursor → Checked (TableReply κ ν × Cursor)}
    (h : s.withCursor i use = .ok (reply, t)) : t.table = s.table := by
  unfold withCursor at h
  split at h
  · cases h
    rfl
  · obtain ⟨x, -, h⟩ := Checked.bind_eq_ok.mp h
    cases h
    rfl

/-- The outcome of an operation on the table. -/
theorem exists_onTable {operation : Table κ ν → Checked (ρ × Table κ ν)}
    {toReply : ρ → TableReply κ ν} (h : s.onTable operation toReply = .ok (reply, t)) :
    ∃ x, operation s.table = .ok (x, t.table) := by
  obtain ⟨⟨x, t'⟩, h₁, h⟩ := Checked.bind_eq_ok.mp h
  cases h
  exact ⟨x, h₁⟩

variable [Ord κ] [Numbered κ] [Numbered ν]

/-! ### How many deletions succeed -/

/-- How many of the deletions in a request succeed. -/
def deletionsIn (s : TableSession κ ν) : TableRequest κ ν → Checked Nat
  | .remove key => do
    let (value, _) ← s.table.remove key
    return value.isSome.toNat
  | .delete key => do
    let (deleted, _) ← s.table.delete key
    return deleted.toNat
  | .deleteRange range => do
    let (count, _) ← Checked.countTrue deleteNumber s.table range.numbers
    return count
  | _ => return 0

variable [Text.Legible κ] [Text.Legible ν]

mutual

/-- How many of the deletions in an operation succeed, those nested in it included. -/
def deletions (s : TableSession κ ν) : TableOp κ ν → Checked Nat
  | .request r => s.deletionsIn r
  | .applyWith key nested => do
    match ← s.table.find key with
    | (none, _) => return 0
    | (some _, table) => deletionsAll { s with table } nested

/-- How many of the deletions in a sequence of operations succeed. -/
def deletionsAll (s : TableSession κ ν) : List (TableOp κ ν) → Checked Nat
  | [] => return 0
  | op :: ops => do
    let n ← deletions s op
    let (_, s) ← s.step op
    return n + (← deletionsAll s ops)

end

/-! ### What they amount to -/

variable {R : Table κ ν → Nat → Table κ ν → Prop}

/-- **A request** adds the deletions in it that succeed. -/
theorem answer_tracks (hR : Tracks R) {r : TableRequest κ ν} (h : s.answer r = .ok (reply, t)) :
    ∃ n, s.deletionsIn r = .ok n ∧ R s.table n t.table := by
  unfold answer at h
  cases r with
  | insert key value =>
    obtain ⟨b, hop⟩ := exists_onTable h
    exact ⟨0, rfl, hR.insert hop⟩
  | remove key =>
    obtain ⟨value, hop⟩ := exists_onTable h
    exact ⟨value.isSome.toNat, by rw [deletionsIn, hop]; rfl, hR.remove hop⟩
  | delete key =>
    obtain ⟨b, hop⟩ := exists_onTable h
    exact ⟨b.toNat, by rw [deletionsIn, hop]; rfl, hR.delete hop⟩
  | contains key =>
    obtain ⟨b, hop⟩ := exists_onTable h
    exact ⟨0, rfl, hR.contains hop⟩
  | reference key | get key =>
    obtain ⟨value, hop⟩ := exists_onTable h
    exact ⟨0, rfl, hR.get hop⟩
  | find key =>
    obtain ⟨pair, hop⟩ := exists_onTable h
    exact ⟨0, rfl, hR.find hop⟩
  | hold key =>
    obtain ⟨⟨found, t₁⟩, hlook, h⟩ := Checked.bind_eq_ok.mp h
    cases found with
    | none => cases h; exact ⟨0, rfl, hR.lookup hlook⟩
    | some i => cases h; exact ⟨0, rfl, hR.lookup hlook⟩
  | held i | size | isEmpty | bucketCount | statistics | openCursor =>
    cases h
    exact ⟨0, rfl, hR.refl _⟩
  | toList | debug layout =>
    obtain ⟨x, -, h⟩ := Checked.bind_eq_ok.mp h
    cases h
    exact ⟨0, rfl, hR.refl _⟩
  | insertRange range =>
    obtain ⟨n, hop⟩ := exists_onTable h
    refine ⟨0, rfl, ?_⟩
    rw [← Nat.zero_mul n]
    refine hR.countTrue (fun hinsert => ?_) hop
    rw [Nat.zero_mul]
    exact hR.insert hinsert
  | deleteRange range =>
    obtain ⟨n, hop⟩ := exists_onTable h
    refine ⟨n, by rw [deletionsIn, hop]; rfl, ?_⟩
    rw [← Nat.one_mul n]
    refine hR.countTrue (fun hdelete => ?_) hop
    rw [Nat.one_mul]
    exact hR.delete hdelete
  | containsRange range =>
    obtain ⟨n, hop⟩ := exists_onTable h
    refine ⟨0, rfl, ?_⟩
    rw [← Nat.zero_mul n]
    refine hR.countTrue (fun hcontains => ?_) hop
    rw [Nat.zero_mul]
    exact hR.contains hcontains
  | hasNext i | next i | drain i =>
    rw [table_withCursor h]
    exact ⟨0, rfl, hR.refl _⟩

mutual

/-- **Step lemma.** -/
theorem step_tracks {s t : TableSession κ ν} {reply : TableReply κ ν} (hR : Tracks R) :
    ∀ op : TableOp κ ν, s.step op = .ok (reply, t) →
      ∃ n, s.deletions op = .ok n ∧ R s.table n t.table
  | .request r, h => answer_tracks hR h
  | .applyWith key nested, h => by
    obtain ⟨⟨pair, t₁⟩, hfind, h⟩ := Checked.bind_eq_ok.mp h
    rw [deletions, hfind, Checked.ok_bind]
    cases pair with
    | none =>
      cases h
      exact ⟨0, rfl, hR.find hfind⟩
    | some p =>
      -- the search, and then whatever is nested
      obtain ⟨⟨replies, u⟩, hnested, h⟩ := Checked.bind_eq_ok.mp h
      cases h
      obtain ⟨n, hn, htracks⟩ := steps_tracks hR nested hnested
      refine ⟨n, hn, ?_⟩
      rw [← Nat.zero_add n]
      exact hR.trans (hR.find hfind) htracks

/-- **Run lemma.** -/
theorem steps_tracks {s t : TableSession κ ν} {replies : List (TableReply κ ν)} (hR : Tracks R) :
    ∀ ops : List (TableOp κ ν), s.steps ops = .ok (replies, t) →
      ∃ n, s.deletionsAll ops = .ok n ∧ R s.table n t.table
  | [], h => by
    cases h
    exact ⟨0, rfl, hR.refl _⟩
  | op :: ops, h => by
    obtain ⟨⟨reply, u⟩, hop, h⟩ := Checked.bind_eq_ok.mp h
    obtain ⟨⟨rest, v⟩, hops, h⟩ := Checked.bind_eq_ok.mp h
    cases h
    obtain ⟨m, hm, hfirst⟩ := step_tracks hR op hop
    obtain ⟨n, hn, hrest⟩ := steps_tracks hR ops hops
    refine ⟨m + n, ?_, hR.trans hfirst hrest⟩
    rw [deletionsAll, hm, Checked.ok_bind]
    simp only [hop, Checked.ok_bind, hn]
    rfl

end

end TableSession

namespace SetSession

open Table TableSession

variable {κ β : Type} [Ord κ] [Numbered κ] {s t : SetSession κ}
  {reply : TableReply κ Unit}

/-- How many of the deletions in a request succeed. -/
def deletionsIn (s : SetSession κ) : SetRequest κ → Checked Nat
  | .table r => TableSession.deletionsIn s r
  | .bulk request => KeyCollection.deletions s.table request
  | .stored _ | .debugKeys _ | .demand _ => return 0

variable [Text.Legible κ]

/-- How many of the deletions in a sequence of requests succeed. -/
def deletionsAll (s : SetSession κ) : List (SetRequest κ) → Checked Nat
  | [] => return 0
  | r :: rs => do
    let n ← SetSession.deletionsIn s r
    let (_, s) ← SetSession.answer s r
    return n + (← SetSession.deletionsAll s rs)

variable {R : KeySet κ → Nat → KeySet κ → Prop}

/-- **Step lemma.** -/
theorem answer_tracks (hR : Tracks R) {r : SetRequest κ}
    (h : SetSession.answer s r = .ok (reply, t)) :
    ∃ n, SetSession.deletionsIn s r = .ok n ∧ R s.table n t.table := by
  unfold answer at h
  cases r with
  | table r => exact TableSession.answer_tracks hR h
  | stored key =>
    obtain ⟨x, hop⟩ := exists_onTable h
    obtain ⟨⟨pair, t₁⟩, hfind, hop⟩ := Checked.bind_eq_ok.mp hop
    cases hop
    exact ⟨0, rfl, hR.find hfind⟩
  | debugKeys layout =>
    obtain ⟨x, -, h⟩ := Checked.bind_eq_ok.mp h
    cases h
    exact ⟨0, rfl, hR.refl _⟩
  | demand i =>
    rw [table_withCursor h]
    exact ⟨0, rfl, hR.refl _⟩
  | bulk request =>
    obtain ⟨x, hop⟩ := exists_onTable h
    exact hR.keys.handle hop

/-- **Run lemma.** -/
theorem run_tracks {view : SetSession κ → β} {rs : List (SetRequest κ)}
    {replies : List (TableReply κ Unit × β)} (hR : Tracks R)
    (h : SetSession.run view s rs = .ok (replies, t)) :
    ∃ n, SetSession.deletionsAll s rs = .ok n ∧ R s.table n t.table := by
  induction rs generalizing s replies with
  | nil =>
    cases h
    exact ⟨0, rfl, hR.refl _⟩
  | cons r rs ih =>
    obtain ⟨⟨reply, u⟩, hr, h⟩ := Checked.bind_eq_ok.mp h
    obtain ⟨⟨rest, v⟩, hrs, h⟩ := Checked.bind_eq_ok.mp h
    cases h
    obtain ⟨m, hm, hfirst⟩ := answer_tracks hR hr
    obtain ⟨n, hn, hrest⟩ := ih hrs
    refine ⟨m + n, ?_, hR.trans hfirst hrest⟩
    rw [deletionsAll, hm, Checked.ok_bind]
    simp only [hr, Checked.ok_bind, hn]
    rfl

end SetSession

end SplitOrder
