import SplitOrder.Proofs.Table.WeakConsistency

/-!
# The two steps of an iteration over a table

To ask a cursor on a table for the next pair takes two steps: the cursor is parked at a pair, and
then the next element is taken. When others get a turn in between, the pair at which the cursor is
parked may be removed, and the next element may be a sentinel. Then the cursor answers that there is
no pair, although there is.

* `Cursor.HalfCalls` — the two steps as calls of their own. The answer that there is no pair is not
  taken for the end when it comes from the second step.
* `TableMoment.take_of_parked` — what the second step answers, at whatever moment it is taken: it is
  the next pair unless a sentinel comes first, and a sentinel comes first only if the pair at which
  the cursor was parked is gone.
* `exists_parked_in_front_of_sentinel` — that this happens.
-/

namespace SplitOrder

open SortedList

namespace SortedList

variable {α : Type} {l : SortedList α} {o : Option NodeId} {is : List NodeId}

/-- A walk with steps to spare passes the whole way. -/
theorem Leads.linkedFrom_eq (h : l.Leads o is) {n : Nat} (hn : is.length < n) :
    l.linkedFrom n o = is := by
  induction h generalizing n with
  | done =>
    obtain ⟨n, rfl⟩ : ∃ m, n = m + 1 := ⟨n - 1, by omega⟩
    rfl
  | @step i is _ ih =>
    rw [List.length_cons] at hn
    obtain ⟨n, rfl⟩ : ∃ m, n = m + 1 := ⟨n - 1, by omega⟩
    rw [linkedFrom, ih (by omega)]

end SortedList

/-! ### The first element and the first pair -/

namespace Entry

variable {κ ν : Type} {es : List (Entry κ ν)}

theorem head?_filterMap_pair? {pair : κ × ν} (h : es.head?.bind pair? = some pair) :
    (es.filterMap pair?).head? = some pair := by
  cases es with
  | nil => cases h
  | cons e es =>
    cases e with
    | sentinel k => cases h
    | pair k key value => exact h

/-- The first element is no pair, although there is one, if it is a sentinel in front of one. -/
theorem head?_bind_pair?_eq_none_iff :
    (es.head?.bind pair? = none ∧ es.filterMap pair? ≠ []) ↔
      ∃ k es', es = .sentinel k :: es' ∧ es'.filterMap pair? ≠ [] := by
  constructor
  · rintro ⟨hnone, hpairs⟩
    cases es with
    | nil => exact absurd rfl hpairs
    | cons e es =>
      cases e with
      | sentinel k => exact ⟨k, es, rfl, hpairs⟩
      | pair k key value => cases hnone
  · rintro ⟨k, es', rfl, hpairs⟩
    exact ⟨rfl, hpairs⟩

end Entry

/-! ### Half calls -/

namespace Cursor

variable {α : Type}

/-- The elements ahead of a cursor that are not deleted. -/
def remaining (c : Cursor) (l : SortedList α) : List α :=
  l.liveOf (l.linkedFrom l.bound c.candidate)

theorem Ahead.remaining_eq {l : SortedList α} {c : Cursor} {is : List NodeId} (h : Ahead l c is) :
    c.remaining l = l.liveOf is := by
  rw [remaining, h.leads.linkedFrom_eq h.length_lt]

variable {κ ν : Type}

/-- The pairs ahead of a cursor that are not removed. -/
def pairsRemaining (c : Cursor) (l : SortedList (Entry κ ν)) : List (κ × ν) :=
  (c.remaining l).filterMap Entry.pair?

/-- **The steps of the calls on a cursor over a table.** -/
inductive HalfCalls (t : Table κ ν) (c : Cursor) : Sight (Entry κ ν) → Cursor → Prop
  | park {more : Bool} {c' : Cursor} (h : c.park t.list = .ok (more, c')) :
      HalfCalls t c (.ofFlag more) c'
  | take {pair : Option (κ × ν)} {c' : Cursor} (h : c.take t.list = .ok (pair, c')) :
      HalfCalls t c (pair.elim .nothing fun p => .yielded (t.entryOf p)) c'

variable {t : Table κ ν} {c c' : Cursor} {is : List NodeId}

/-- The second step passes one element, whatever it is, and answers it if it is a pair. -/
theorem take_spec {l : SortedList (Entry κ ν)} (h : Ahead l c is) :
    ∃ c' js, c.take l = .ok ((l.liveOf is).head?.bind Entry.pair?, c') ∧
      Passes l is (l.liveOf is).head?.toList c' js := by
  obtain ⟨c', js, hnext, hpasses, -⟩ := next_spec h
  refine ⟨c', js, ?_, hpasses⟩
  rw [take, hnext]
  rfl

variable [Ord κ]

/-- **A step shows what it passes.** A sentinel that is passed is not seen. -/
theorem HalfCalls.shows {sight : Sight (Entry κ ν)} (hcall : HalfCalls t c sight c')
    (ht : t.Intact) (h : Ahead t.list c is) : Shows (!·.isSentinel) t.list is sight c' := by
  cases hcall with
  | park hcall => exact MapCalls.shows (.hasNext hcall) ht h
  | take hcall =>
    obtain ⟨d, js, htake, hpasses⟩ := take_spec h
    generalize (t.list.liveOf is).head? = item at htake hpasses
    cases htake.symm.trans hcall
    cases item with
    | none => exact ⟨_, js, hpasses, rfl, fun hsight => nomatch hsight⟩
    | some e =>
      cases e with
      | sentinel k => exact ⟨_, js, hpasses, rfl, fun hsight => nomatch hsight⟩
      | pair k key value =>
        have hentry : some (Entry.pair k key value) = some (t.entryOf (key, value)) :=
          hpasses.eq_entryOf ht rfl
        refine ⟨_, js, hpasses, ?_, fun hsight => nomatch hsight⟩
        exact congrArg Option.toList hentry

end Cursor

namespace TableMoment

open Cursor

variable {κ ν : Type} [Ord κ] [Std.TransOrd κ] {m₀ m m' : TableMoment κ ν}

theorem disciplined_halfCalls :
    Disciplined (list (κ := κ) (ν := ν)) Reaches (fun m => HalfCalls m.table) (!·.isSentinel)
      (·.table.Intact) :=
  disciplined fun ht h hcall => hcall.shows ht h

/-- On 0 and 1, with the sentinel of bucket 1 in between, the cursor is parked at 0. Then 0 is
removed, and the cursor is left in front of the sentinel. -/
theorem exists_parked_in_front_of_sentinel :
    ∃ (m m' : TableMoment UInt64 UInt64) (c₁ c₂ : Cursor), m.Reachable ∧ m.Reaches m' ∧
      m.list.cursor.park m.list = .ok (true, c₁) ∧ c₁.take m'.list = .ok (none, c₂) ∧
      m.list.live = [.ofPair 0 0 10, .sentinelOf 1, .ofPair 1 1 11] ∧
      c₁.remaining m'.list = [.sentinelOf 1, .ofPair 1 1 11] := by
  have hall : (do
      let t ← Table.build { initialBuckets := 2, maxBuckets := 4 } id
      let (_, t) ← t.insert (0 : UInt64) (10 : UInt64)
      let (_, t) ← t.insert 1 11
      let parked ← t.list.cursor.park t.list
      let (_, u) ← t.removeEntry 0
      let (answer, _) ← parked.2.take u.list
      return (t.list.live, parked.2.remaining u.list, parked.1, answer)) =
      (.ok ([.ofPair 0 0 10, .sentinelOf 1, .ofPair 1 1 11],
        [.sentinelOf 1, .ofPair 1 1 11], true, none) : Checked _) := by cbv
  obtain ⟨t₀, hbuild, hall⟩ := Checked.bind_eq_ok.mp hall
  obtain ⟨⟨_, t₁⟩, hzero, hall⟩ := Checked.bind_eq_ok.mp hall
  obtain ⟨⟨_, t⟩, hone, hall⟩ := Checked.bind_eq_ok.mp hall
  obtain ⟨⟨more, c₁⟩, hpark, hall⟩ := Checked.bind_eq_ok.mp hall
  obtain ⟨⟨_, u⟩, hremove, hall⟩ := Checked.bind_eq_ok.mp hall
  obtain ⟨⟨answer, c₂⟩, htake, hall⟩ := Checked.bind_eq_ok.mp hall
  obtain ⟨hlive, hremaining, rfl, rfl⟩ := by
    simpa only [Checked.pure_eq_ok, Except.ok.injEq, Prod.mk.injEq] using hall
  have ht₀ := (Table.intact_of_build hbuild).1
  have hfirst : Reaches ⟨t₀, [], 0⟩ ⟨t₁, [], 1⟩ := reaches_insert ht₀ hzero
  have hbefore : Reaches ⟨t₀, [], 0⟩ ⟨t, [], 2⟩ :=
    hfirst.trans (reaches_insert (hfirst.evolves ht₀).2 hone)
  have hmeanwhile : Reaches ⟨t, [], 2⟩ ⟨u, [], 3⟩ :=
    reaches_removeEntry (hbefore.evolves ht₀).2 hremove
  exact ⟨⟨t, [], 2⟩, ⟨u, [], 3⟩, c₁, c₂, ⟨_, _, t₀, hbuild, hbefore⟩, hmeanwhile, hpark, htake,
    hlive, hremaining⟩

/-- **The second step.** Take a cursor that was opened some time and used since, step by step, and
that has just been parked at a pair. At any later moment, whatever happened to the table meanwhile,
the second step ends. It answers that pair as long as it is there, and the first of the pairs that
remain if it answers one. It wrongly answers that there is none exactly if a sentinel comes first
and a pair remains behind it, for which the pair it was parked at must have been removed. Apart from
such answers the iteration is weakly consistent. -/
theorem take_of_parked {run : List (Observation (Entry κ ν))} {c c₁ : Cursor} (hm : m₀.Reachable)
    (hrun : Iterates HalfCalls m₀ m₀.list.cursor run m c)
    (hpark : c.park m.list = .ok (true, c₁)) (hreach : m.Reaches m') :
    WeaklyConsistent (!·.isSentinel) m₀.list run ∧
      ∃ i k key value answer c₂, c₁.candidate = some i ∧ m.list.Holds i (.pair k key value) ∧
        c₁.take m'.list = .ok (answer, c₂) ∧
        (m'.list.Holds i (.pair k key value) → answer = some (key, value)) ∧
        (∀ pair, answer = some pair → (c₁.pairsRemaining m'.list).head? = some pair) ∧
        ((answer = none ∧ c₁.pairsRemaining m'.list ≠ []) ↔
          ∃ k' es, c₁.remaining m'.list = .sentinel k' :: es ∧ es.filterMap Entry.pair? ≠ []) := by
  obtain ⟨hweak, hintact, is, h⟩ := hrun.weaklyConsistent_run disciplined_halfCalls hm.intact
  refine ⟨hweak, ?_⟩
  obtain ⟨b, d, es, js, hpark', hpasses, -, -, htrue⟩ := park_spec h
  cases hpark'.symm.trans hpark
  obtain ⟨i, k, key, value, hi, hholds⟩ := htrue rfl
  -- the cursor is the same at the later moment, and has a way ahead there
  obtain ⟨ks, hks, -⟩ := hpasses.ahead.evolves hintact.list (hreach.evolves hintact).1
  obtain ⟨c₂, -, htake, -⟩ := take_spec hks
  refine ⟨i, k, key, value, _, c₂, hi, hholds, htake, fun hstays => ?_, fun pair hpair => ?_, ?_⟩
  · obtain ⟨ks', rfl, -⟩ := hks.eq_cons hi
    rw [liveOf_cons_of_holds ks' hstays]
    rfl
  · rw [pairsRemaining, hks.remaining_eq]
    exact Entry.head?_filterMap_pair? hpair
  · rw [pairsRemaining, hks.remaining_eq]
    exact Entry.head?_bind_pair?_eq_none_iff

/-- What the theorem says in that case: nothing is answered, although the pair of 1 remains. -/
theorem take_of_parked_in_front_of_sentinel :
    ∃ (m m' : TableMoment UInt64 UInt64) (c₁ : Cursor), m.Reachable ∧ m.Reaches m' ∧
      m.list.cursor.park m.list = .ok (true, c₁) ∧
      c₁.remaining m'.list = [.sentinelOf 1, .ofPair 1 1 11] ∧
      WeaklyConsistent (!·.isSentinel) m.list [] ∧
      ∃ i k key value answer c₂, c₁.candidate = some i ∧ m.list.Holds i (.pair k key value) ∧
        c₁.take m'.list = .ok (answer, c₂) ∧
        (m'.list.Holds i (.pair k key value) → answer = some (key, value)) ∧
        (∀ pair, answer = some pair → (c₁.pairsRemaining m'.list).head? = some pair) ∧
        ((answer = none ∧ c₁.pairsRemaining m'.list ≠ []) ↔
          ∃ k' es, c₁.remaining m'.list = .sentinel k' :: es ∧
            es.filterMap Entry.pair? ≠ []) := by
  obtain ⟨m, m', c₁, c₂, hm, hreach, hpark, htake, -, hremaining⟩ :=
    exists_parked_in_front_of_sentinel
  exact ⟨m, m', c₁, hm, hreach, hpark, hremaining, take_of_parked hm .nil hpark hreach⟩

/-- **A pair may be missed.** It is not true that there is no pair left when the second step answers
that there is none. -/
theorem not_pairsRemaining_eq_nil_of_take_eq_none :
    ¬ ∀ (m m' : TableMoment UInt64 UInt64) (c₁ c₂ : Cursor), m.Reachable →
      m.list.cursor.park m.list = .ok (true, c₁) → m.Reaches m' →
      c₁.take m'.list = .ok (none, c₂) → c₁.pairsRemaining m'.list = [] := by
  intro hnever
  obtain ⟨m, m', c₁, c₂, hm, hreach, hpark, htake, -, hremaining⟩ :=
    exists_parked_in_front_of_sentinel
  have hnil := hnever m m' c₁ c₂ hm hpark hreach htake
  rw [pairsRemaining, hremaining] at hnil
  cases hnil

end TableMoment

end SplitOrder
