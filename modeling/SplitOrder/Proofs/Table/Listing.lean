import SplitOrder.Proofs.List.Listing
import SplitOrder.Proofs.Table.Intact
import SplitOrder.Table.Cursor

/-!
# What a walk over the entries of a table yields

A cursor on a table passes over sentinels as it passes over deleted nodes. What is ahead of it are
the pairs among the elements ahead, `SortedList.pairsOf`, and a listing of an intact table shows all
its pairs (`Table.toList_eq`), each once (`Table.nodup_pairs`), or their keys (`Table.liveKeys`).
-/

namespace SplitOrder

namespace SortedList

variable {κ ν : Type}

/-- The keys and values at the given nodes, those of deleted nodes left out. -/
def pairsOf (l : SortedList (Entry κ ν)) (is : List NodeId) : List (κ × ν) :=
  (l.liveOf is).filterMap Entry.pair?

end SortedList

namespace Cursor

open SortedList

variable {κ ν : Type} {l : SortedList (Entry κ ν)} {c : Cursor} {is : List NodeId}

/-- **Parking drops no entry.** The cursor passes sentinels only, up to a pair or to the end. -/
theorem parkWithin_spec {steps : Nat} (h : Ahead l c is) (hsteps : (l.liveOf is).length < steps) :
    ∃ b c' es js, parkWithin l steps c = .ok (b, c') ∧ Passes l is es c' js ∧
      (∀ e ∈ es, e.isSentinel = true) ∧ (b = false → js = []) ∧
      (b = true → ∃ i k key value, c'.candidate = some i ∧ l.Holds i (.pair k key value)) := by
  -- on the steps: each passes over one sentinel or stops
  induction steps generalizing c is with
  | zero => exact absurd hsteps (Nat.not_lt_zero _)
  | succ steps ih =>
    obtain ⟨c', js, hpeek, hpasses, hsettled⟩ := peek_spec h
    have hlive : l.liveOf is = l.liveOf js := hpasses.liveOf_eq
    rw [parkWithin, hpeek, Checked.ok_bind]
    cases hall : l.liveOf is with
    | nil =>
      rw [hlive] at hall
      exact ⟨false, c', [], js, rfl, hpasses, fun _ he => (nomatch he),
        fun _ => hsettled.eq_nil hall, fun hb => nomatch hb⟩
    | cons e es =>
      rw [hlive] at hall
      cases e with
      | pair k key value =>
        obtain ⟨i, hi, hholds⟩ := hsettled.exists_holds hall
        exact ⟨true, c', [], js, rfl, hpasses, fun _ he => (nomatch he), fun hb => (nomatch hb),
          fun _ => ⟨i, k, key, value, hi, hholds⟩⟩
      | sentinel k =>
        obtain ⟨c'', ks, hnext, hpasses', -⟩ := next_spec hpasses.ahead
        have hshort : (l.liveOf ks).length < steps := by
          have hlen := congrArg List.length hpasses'.liveOf_eq
          rw [hall, List.head?_cons, Option.toList_some, List.length_append] at hlen
          rw [hlive, hall] at hsteps
          simp only [List.length_cons, List.length_nil] at hlen hsteps
          omega
        obtain ⟨b, c₃, es', js', hpark, hpasses₃, hsentinels, hrest⟩ := ih hpasses'.ahead hshort
        rw [hall] at hpasses'
        refine ⟨b, c₃, _, js', ?_, (hpasses.trans hpasses').trans hpasses₃, ?_, hrest⟩
        · simp only [List.head?_cons, hnext, Checked.ok_bind]
          exact hpark
        · intro e he
          rcases List.mem_cons.mp he with rfl | he
          · rfl
          · exact hsentinels e he

theorem park_spec (h : Ahead l c is) :
    ∃ b c' es js, c.park l = .ok (b, c') ∧ Passes l is es c' js ∧
      (∀ e ∈ es, e.isSentinel = true) ∧ (b = false → js = []) ∧
      (b = true → ∃ i k key value, c'.candidate = some i ∧ l.Holds i (.pair k key value)) :=
  parkWithin_spec h (Nat.lt_of_le_of_lt (length_liveOf_le l is) h.length_lt)

/-- **One entry.** Of the entries that are no sentinels a cursor passes one, which it yields, or all
are sentinels and it comes to the end. -/
theorem takeNext_spec (h : Ahead l c is) :
    ∃ entry c' es js, c.takeNext l = .ok (entry.bind Entry.pair?, c') ∧ Passes l is es c' js ∧
      es.filter (!·.isSentinel) = entry.toList ∧ (entry = none → js = []) := by
  obtain ⟨b, c₁, es, js, hpark, hpasses, hsentinels, hfalse, htrue⟩ := park_spec h
  have hnone : es.filter (!·.isSentinel) = [] := by
    refine List.filter_eq_nil_iff.mpr fun e he => ?_
    simp [hsentinels e he]
  rw [takeNext, hpark, Checked.ok_bind]
  cases b with
  | false => exact ⟨none, c₁, es, js, rfl, hpasses, hnone, fun _ => hfalse rfl⟩
  | true =>
    obtain ⟨i, k, key, value, hi, hholds⟩ := htrue rfl
    obtain ⟨js', rfl, -⟩ := hpasses.ahead.eq_cons hi
    obtain ⟨c₂, ks, hnext, hpasses₂, -⟩ := next_spec hpasses.ahead
    rw [liveOf_cons_of_holds js' hholds] at hnext hpasses₂
    refine ⟨some (.pair k key value), c₂, _, ks, ?_, hpasses.trans hpasses₂, ?_,
      fun hentry => nomatch hentry⟩
    · simp only [Cursor.take, hnext, Checked.ok_bind]
      rfl
    · rw [List.filter_append, hnone]
      rfl

/-- What is yielded is a pair. -/
theorem exists_eq_pair {es : List (Entry κ ν)} {e : Entry κ ν}
    (hes : es.filter (!·.isSentinel) = (some e).toList) :
    ∃ k key value, e = .pair k key value := by
  have he : e ∈ es.filter (!·.isSentinel) := hes ▸ List.mem_singleton_self e
  cases e with
  | sentinel k => simp [Entry.isSentinel] at he
  | pair k key value => exact ⟨k, key, value, rfl⟩

/-- The pairs ahead, before and after one of them was yielded. -/
theorem Passes.pairsOf_eq {c' : Cursor} {es : List (Entry κ ν)} {js : List NodeId}
    {entry : Option (Entry κ ν)} (h : Passes l is es c' js)
    (hes : es.filter (!·.isSentinel) = entry.toList) :
    l.pairsOf is = (entry.bind Entry.pair?).toList ++ l.pairsOf js := by
  -- sentinels are no pairs, so they may be left out first
  have hpairs : es.filterMap Entry.pair? = (es.filter (!·.isSentinel)).filterMap Entry.pair? := by
    rw [List.filterMap_filter]
    refine congrArg (List.filterMap · es) (funext fun e => ?_)
    cases e <;> rfl
  rw [pairsOf, h.liveOf_eq, List.filterMap_append, hpairs, hes, pairsOf]
  cases entry with
  | none => rfl
  | some e => cases e <;> rfl

theorem drainEntriesWithin_spec {steps : Nat} {entries : List (κ × ν)} (h : Ahead l c is)
    (hsteps : (l.pairsOf is).length < steps) :
    ∃ c', drainEntriesWithin l steps entries c = .ok (entries.reverse ++ l.pairsOf is, c') := by
  induction steps generalizing entries c is with
  | zero => exact absurd hsteps (Nat.not_lt_zero _)
  | succ steps ih =>
    obtain ⟨entry, c', es, js, hnext, hpasses, hes, hend⟩ := takeNext_spec h
    have hpairs := hpasses.pairsOf_eq hes
    rw [drainEntriesWithin, hnext]
    cases entry with
    | none =>
      obtain rfl := hend rfl
      exact ⟨c', by rw [hpairs]; simp [pairsOf, liveOf]⟩
    | some e =>
      obtain ⟨k, key, value, rfl⟩ := exists_eq_pair hes
      have hshort : (l.pairsOf js).length < steps := by
        rw [hpairs, List.length_append] at hsteps
        simp only [Option.bind_some, Entry.pair?, Option.toList_some, List.length_singleton]
          at hsteps
        omega
      obtain ⟨c'', hdrain⟩ : ∃ c'', drainEntriesWithin l steps ((key, value) :: entries) c' =
          .ok (((key, value) :: entries).reverse ++ l.pairsOf js, c'') :=
        ih hpasses.ahead hshort
      refine ⟨c'', ?_⟩
      simp only [Checked.ok_bind, Option.bind_some, Entry.pair?]
      rw [hdrain, hpairs]
      simp [Entry.pair?]

end Cursor

namespace Table

open SortedList

variable {κ ν : Type} [Ord κ] {t : Table κ ν} {key : κ} {value : ν}

/-- The keys at the nodes that are not deleted, in split order. -/
def liveKeys (t : Table κ ν) : List κ :=
  (t.list.live.filterMap Entry.pair?).map Prod.fst

/-- The pairs of a table are those that its nodes hold. -/
theorem mem_pairs_iff (h : t.Intact) :
    (key, value) ∈ t.list.live.filterMap Entry.pair? ↔
      ∃ i, t.list.Holds i (.ofPair (t.hash key) key value) := by
  simp only [List.mem_filterMap, h.list.mem_live_iff]
  constructor
  · rintro ⟨e, ⟨i, hi⟩, he⟩
    cases e with
    | sentinel k => cases he
    | pair k key' value' =>
      cases he
      obtain rfl := h.hashed hi
      exact ⟨i, hi⟩
  · rintro ⟨i, hi⟩
    exact ⟨_, ⟨i, hi⟩, rfl⟩

variable [Std.TransOrd κ]

/-- **A listing shows the pairs of the table.** -/
theorem toList_eq (h : t.Intact) : t.toList = .ok (t.list.live.filterMap Entry.pair?) := by
  have hord := h.list.toOrdered
  have hshort : (t.list.pairsOf t.list.linked).length < t.list.bound :=
    Nat.lt_of_le_of_lt (List.length_filterMap_le ..) hord.length_live_lt
  obtain ⟨c, hdrain⟩ : ∃ c, Cursor.drainEntriesWithin t.list t.list.bound [] t.list.cursor =
      .ok (t.list.pairsOf t.list.linked, c) :=
    Cursor.drainEntriesWithin_spec hord.ahead_cursor hshort
  rw [toList, Cursor.drainEntries, hdrain]
  rfl

theorem keys_eq (h : t.Intact) : t.keys = .ok t.liveKeys := by
  rw [keys, toList_eq h]
  rfl

/-- Each pair is listed once. -/
theorem nodup_pairs (h : t.Intact) : (t.list.live.filterMap Entry.pair?).Nodup := by
  refine List.pairwise_filterMap.mpr ?_
  have hlive := h.list.pairwise_live
  refine hlive.imp_of_mem fun {d e} hd he hlt p hp q hq => ?_
  rintro rfl
  -- two entries with the same pair stand at the same place
  obtain ⟨i, hi⟩ := h.list.mem_live_iff.mp hd
  obtain ⟨j, hj⟩ := h.list.mem_live_iff.mp he
  cases d with
  | sentinel k => cases hp
  | pair k key value =>
    cases e with
    | sentinel k' => cases hq
    | pair k' key' value' =>
      cases hp
      cases hq
      obtain rfl := h.hashed hi
      obtain rfl := h.hashed hj
      exact absurd (Std.compare_self.symm.trans hlt) (by decide)

end Table

end SplitOrder
