import Mathlib.Data.List.Permutation
import SplitOrder.Proofs.List.WeakConsistency
import SplitOrder.Proofs.Table.Listing
import SplitOrder.Proofs.Table.Reachable
import SplitOrder.Table.KeySet

/-!
# Iterating over a table

The iterations of `SplitOrder.Proofs.List.Iteration` on a table. Its list holds sentinels as well,
which are never yielded, and more of them come in while buckets are used for the first time. What is
to be yielded are the pairs.

* `Cursor.MapCalls`, `SetCalls` — the calls on a cursor over a table, and over a set of keys. What
  such a cursor yields is seen as the entry that the table stores it as, so that it has its place in
  split order.
* `takeNext_shows` — a call shows what it passes: one pair, or only sentinels.
* `TableMoment.weaklyConsistent_entries` — an iteration that begins at any moment of any run is
  weakly consistent, as long as each call is one step. `SplitOrder.Proofs.Table.TwoSteps` tells what
  becomes of it when others get a turn in the middle of a call.
-/

namespace SplitOrder

open SortedList

variable {κ ν : Type}

/-- What a key with its value is stored as. -/
def Table.entryOf (t : Table κ ν) (pair : κ × ν) : Entry κ ν :=
  .ofPair (t.hash pair.1) pair.1 pair.2

namespace Cursor

/-- **The calls on a cursor over a table.** -/
inductive MapCalls (t : Table κ ν) (c : Cursor) : Sight (Entry κ ν) → Cursor → Prop
  | hasNext {more : Bool} {c' : Cursor} (h : c.park t.list = .ok (more, c')) :
      MapCalls t c (.ofFlag more) c'
  | next {pair : Option (κ × ν)} {c' : Cursor} (h : c.takeNext t.list = .ok (pair, c')) :
      MapCalls t c (.ofItem? (pair.map t.entryOf)) c'

/-- **The calls on a cursor over a set of keys.** -/
inductive SetCalls (s : KeySet κ) (c : Cursor) : Sight (Entry κ Unit) → Cursor → Prop
  | ofMap {sight : Sight (Entry κ Unit)} {c' : Cursor} (h : MapCalls s c sight c') :
      SetCalls s c sight c'
  | demand {item : Except Refusal κ} {c' : Cursor} (h : KeySet.demand s c = .ok (item, c')) :
      SetCalls s c (.ofItem? (item.toOption.map fun key => s.entryOf (key, ()))) c'

/-- To demand a key is to ask for the next pair. -/
theorem demand_keySet_eq {s : KeySet κ} {c c' : Cursor} {pair : Option (κ × Unit)}
    (h : c.takeNext s.list = .ok (pair, c')) :
    KeySet.demand s c = .ok (pair.elim (.error .noSuchElement) fun p => .ok p.1, c') := by
  rw [KeySet.demand, h]
  cases pair <;> rfl

variable [Ord κ] {t : Table κ ν} {c c' : Cursor} {is : List NodeId}

/-- An entry that is passed is stored where its hash tells. -/
theorem Passes.eq_entryOf (ht : t.Intact) {es : List (Entry κ ν)} {js : List NodeId}
    {e : Entry κ ν} (hpasses : Passes t.list is es c' js)
    (hes : es.filter (!·.isSentinel) = (some e).toList) : some e = e.pair?.map t.entryOf := by
  obtain ⟨k, key, value, rfl⟩ := exists_eq_pair hes
  obtain ⟨xs, rfl, rfl⟩ := hpasses.passed
  have hmem : Entry.pair k key value ∈ (t.list.liveOf xs).filter (!·.isSentinel) :=
    hes ▸ List.mem_singleton_self _
  obtain ⟨i, -, hi⟩ := mem_liveOf_iff.mp (List.mem_filter.mp hmem).1
  rw [ht.hashed hi]
  rfl

/-- **A call for the next pair shows what it passes.** -/
theorem takeNext_shows (ht : t.Intact) {pair : Option (κ × ν)} (h : Ahead t.list c is)
    (hcall : c.takeNext t.list = .ok (pair, c')) :
    Shows (!·.isSentinel) t.list is (.ofItem? (pair.map t.entryOf)) c' := by
  obtain ⟨entry, d, es, js, htake, hpasses, hes, hend⟩ := takeNext_spec h
  cases htake.symm.trans hcall
  have hentry : (entry.bind Entry.pair?).map t.entryOf = entry := by
    cases entry with
    | none => rfl
    | some e => exact (hpasses.eq_entryOf ht hes).symm
  rw [hentry]
  exact ⟨es, js, hpasses, by rw [hes, Sight.elements_ofItem?],
    fun hsight => hend (Sight.ofItem?_eq_exhausted_iff.mp hsight)⟩

theorem MapCalls.shows {sight : Sight (Entry κ ν)} (hcall : MapCalls t c sight c')
    (ht : t.Intact) (h : Ahead t.list c is) : Shows (!·.isSentinel) t.list is sight c' := by
  cases hcall with
  | @hasNext more c' hcall =>
    obtain ⟨b, d, es, js, hpark, hpasses, hsentinels, hend, -⟩ := park_spec h
    cases hpark.symm.trans hcall
    refine ⟨es, js, hpasses, ?_, fun hsight => hend (Sight.ofFlag_eq_exhausted_iff.mp hsight)⟩
    rw [Sight.elements_ofFlag]
    exact List.filter_eq_nil_iff.mpr fun e he => by simp [hsentinels e he]
  | next hcall => exact takeNext_shows ht h hcall

theorem SetCalls.shows {s : KeySet κ} {sight : Sight (Entry κ Unit)}
    (hcall : SetCalls s c sight c') (hs : s.Intact) (h : Ahead s.list c is) :
    Shows (!·.isSentinel) s.list is sight c' := by
  cases hcall with
  | ofMap hcall => exact hcall.shows hs h
  | @demand item c' hcall =>
    obtain ⟨entry, d, -, -, htake, -⟩ := takeNext_spec h
    cases (demand_keySet_eq htake).symm.trans hcall
    have hshows := takeNext_shows hs h htake
    cases hpair : entry.bind Entry.pair? with
    | none => rwa [hpair] at hshows
    | some pair => rwa [hpair] at hshows

omit [Ord κ] in
/-- No call on a cursor over a table ends in a fault. -/
theorem Ahead.answersPairs {l : SortedList (Entry κ ν)} (h : Ahead l c is) :
    (∃ more d, c.park l = .ok (more, d)) ∧ ∃ pair d, c.takeNext l = .ok (pair, d) := by
  obtain ⟨more, d, -, -, hpark, -⟩ := park_spec h
  obtain ⟨entry, d', -, -, htake, -⟩ := takeNext_spec h
  exact ⟨⟨more, d, hpark⟩, _, d', htake⟩

end Cursor

namespace TableMoment

open Cursor

variable [Ord κ] [Std.TransOrd κ]

/-- Runs with calls on one cursor in between. -/
abbrev Iterates (call : Table κ ν → Cursor → Sight (Entry κ ν) → Cursor → Prop) :
    TableMoment κ ν → Cursor → List (Observation (Entry κ ν)) → TableMoment κ ν → Cursor → Prop :=
  Iteration list Reaches fun m => call m.table

theorem disciplined {call : Table κ ν → Cursor → Sight (Entry κ ν) → Cursor → Prop}
    (hcall : ∀ {t c is sight c'}, t.Intact → Ahead t.list c is → call t c sight c' →
      Shows (!·.isSentinel) t.list is sight c') :
    Disciplined (list (κ := κ) (ν := ν)) Reaches (fun m => call m.table) (!·.isSentinel)
      (·.table.Intact) where
  sound := Table.Intact.list
  step := fun hm hreach => hreach.evolves hm
  call := hcall

/-- **Weakly consistent iteration over tables and sets.** A cursor that is opened at any moment of
any run yields pairs in ascending split order, each of them live at that time; it yields every pair
once that stays live until the cursor is seen behind it. It can be called at any time. -/
theorem weaklyConsistent_entries :
    (∀ {ν : Type} {m m' : TableMoment κ ν} {run : List (Observation (Entry κ ν))} {c : Cursor},
      m.Reachable → Iterates MapCalls m m.list.cursor run m' c →
        WeaklyConsistent (!·.isSentinel) m.list run ∧
          (∃ more d, c.park m'.list = .ok (more, d)) ∧
          ∃ pair d, c.takeNext m'.list = .ok (pair, d)) ∧
    ∀ {m m' : TableMoment κ Unit} {run : List (Observation (Entry κ Unit))} {c : Cursor},
      m.Reachable → Iterates SetCalls m m.list.cursor run m' c →
        WeaklyConsistent (!·.isSentinel) m.list run ∧
          (∃ more d, c.park m'.list = .ok (more, d)) ∧
          (∃ pair d, c.takeNext m'.list = .ok (pair, d)) ∧
          ∃ item d, KeySet.demand m'.table c = .ok (item, d) := by
  constructor
  · intro ν m m' run c hm hrun
    have D : Disciplined list Reaches (fun m : TableMoment κ ν => MapCalls m.table)
        (!·.isSentinel) (·.table.Intact) := disciplined fun ht h hcall => hcall.shows ht h
    obtain ⟨hweak, -, js, h⟩ := hrun.weaklyConsistent_run D hm.intact
    exact ⟨hweak, h.answersPairs⟩
  · intro m m' run c hm hrun
    have D : Disciplined list Reaches (fun m : TableMoment κ Unit => SetCalls m.table)
        (!·.isSentinel) (·.table.Intact) := disciplined fun hs h hcall => hcall.shows hs h
    obtain ⟨hweak, -, js, h⟩ := hrun.weaklyConsistent_run D hm.intact
    obtain ⟨hpark, pair, d, htake⟩ := h.answersPairs
    exact ⟨hweak, hpark, ⟨pair, d, htake⟩, _, d, demand_keySet_eq htake⟩

/-- The cursor is opened on 0 and 1 and stands at 0 when 0 is removed. Meanwhile 2 is inserted in
front of it and 3 behind it, which doubles the buckets, and the sentinel of 3 comes in between. -/
theorem weaklyConsistent_entries_at_removed_key :
    ∃ (m m' : TableMoment UInt64 Unit) (run : List (Observation (Entry UInt64 Unit)))
      (c : Cursor),
      m.list.live = [.ofPair 0 0 (), .sentinelOf 1, .ofPair 1 1 ()] ∧
      m'.list.live =
        [.ofPair 2 2 (), .sentinelOf 1, .ofPair 1 1 (), .sentinelOf 3, .ofPair 3 3 ()] ∧
      (m.table.bucketCount, m'.table.bucketCount) = (2, 4) ∧
      yields run = [.ofPair 1 1 (), .ofPair 3 3 ()] ∧
      (run.map Observation.sight).getLast? = some .exhausted ∧
      WeaklyConsistent (!·.isSentinel) m.list run ∧
      (∃ more d, c.park m'.list = .ok (more, d)) ∧
      (∃ pair d, c.takeNext m'.list = .ok (pair, d)) ∧
      ∃ item d, KeySet.demand m'.table c = .ok (item, d) := by
  have hall : (do
      let t ← Table.build { initialBuckets := 2, maxLoad := 1, maxBuckets := 4 } id
      let (_, t) ← t.insert (0 : UInt64) ()
      let (_, t) ← t.insert 1 ()
      let parked ← t.list.cursor.park t.list
      let (_, u) ← t.removeEntry 0
      let (_, u) ← u.insert 2 ()
      let (_, u) ← u.insert 3 ()
      let (_, u) ← u.lookup 3
      let (first, c) ← KeySet.demand u parked.2
      let (second, c) ← KeySet.demand u c
      let (third, _) ← KeySet.demand u c
      return (t.list.live, u.list.live, (t.bucketCount, u.bucketCount), (u.hash 1, u.hash 3),
        parked.1, first, second, third)) =
      (.ok ([.ofPair 0 0 (), .sentinelOf 1, .ofPair 1 1 ()],
        [.ofPair 2 2 (), .sentinelOf 1, .ofPair 1 1 (), .sentinelOf 3, .ofPair 3 3 ()],
        (2, 4), (1, 3), true, .ok 1, .ok 3, .error .noSuchElement) : Checked _) := by cbv
  obtain ⟨t₀, hbuild, hall⟩ := Checked.bind_eq_ok.mp hall
  obtain ⟨⟨_, t₁⟩, hzero, hall⟩ := Checked.bind_eq_ok.mp hall
  obtain ⟨⟨_, t⟩, hone, hall⟩ := Checked.bind_eq_ok.mp hall
  obtain ⟨⟨more, c₁⟩, hpark, hall⟩ := Checked.bind_eq_ok.mp hall
  obtain ⟨⟨_, u₁⟩, hremove, hall⟩ := Checked.bind_eq_ok.mp hall
  obtain ⟨⟨_, u₂⟩, htwo, hall⟩ := Checked.bind_eq_ok.mp hall
  obtain ⟨⟨_, u₃⟩, hthree, hall⟩ := Checked.bind_eq_ok.mp hall
  obtain ⟨⟨_, u⟩, hlook, hall⟩ := Checked.bind_eq_ok.mp hall
  obtain ⟨⟨first, c₂⟩, hfirst, hall⟩ := Checked.bind_eq_ok.mp hall
  obtain ⟨⟨second, c₃⟩, hsecond, hall⟩ := Checked.bind_eq_ok.mp hall
  obtain ⟨⟨third, c₄⟩, hthird, hall⟩ := Checked.bind_eq_ok.mp hall
  obtain ⟨hlive, hlive', hbuckets, hhash, rfl, rfl, rfl, rfl⟩ := by
    simpa only [Checked.pure_eq_ok, Except.ok.injEq, Prod.mk.injEq] using hall
  have ht₀ := (Table.intact_of_build hbuild).1
  have hbefore : Reaches ⟨t₀, [], 0⟩ ⟨t, [], 2⟩ := by
    have hfirst : Reaches ⟨t₀, [], 0⟩ ⟨t₁, [], 1⟩ := reaches_insert ht₀ hzero
    exact hfirst.trans (reaches_insert (hfirst.evolves ht₀).2 hone)
  have ht : t.Intact := (hbefore.evolves ht₀).2
  have hmeanwhile : Reaches ⟨t, [], 2⟩ ⟨u, [], 5⟩ := by
    have h₁ : Reaches ⟨t, [], 2⟩ ⟨u₁, [], 3⟩ := reaches_removeEntry ht hremove
    have h₂ : Reaches ⟨t, [], 2⟩ ⟨u₂, [], 4⟩ := h₁.trans (reaches_insert (h₁.evolves ht).2 htwo)
    have h₃ : Reaches ⟨t, [], 2⟩ ⟨u₃, [], 5⟩ := h₂.trans (reaches_insert (h₂.evolves ht).2 hthree)
    exact h₃.trans (reaches_lookup (h₃.evolves ht).2 hlook)
  have hrun : Iterates SetCalls ⟨t, [], 2⟩ t.list.cursor _ ⟨u, [], 5⟩ c₄ :=
    .call (.ofMap (.hasNext hpark)) <| .step hmeanwhile <| .call (.demand hfirst) <|
    .call (.demand hsecond) <| .call (.demand hthird) .nil
  have hm : Reachable ⟨t, [], 2⟩ := ⟨_, _, t₀, hbuild, hbefore⟩
  have hweak := weaklyConsistent_entries.2 hm hrun
  refine ⟨⟨t, [], 2⟩, ⟨u, [], 5⟩, _, c₄, hlive, hlive', Prod.ext hbuckets.1 hbuckets.2, ?_, ?_,
    hweak⟩
  · show [Entry.ofPair (u.hash 1) 1 (), Entry.ofPair (u.hash 3) 3 ()] = _
    rw [hhash.1, hhash.2]
  · rfl

end TableMoment

end SplitOrder
