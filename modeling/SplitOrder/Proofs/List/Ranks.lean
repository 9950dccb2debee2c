import Mathlib.Data.List.Count
import SplitOrder.Proofs.List.Reachable

/-!
# Ranks

Two walks with a cursor are inverse to each other. One goes from an element to its position and ends
at the first element that is not in front of it; the other one goes from a position to its element.
Deleted nodes may stand anywhere on the way, and neither walk sees them.

* `rank` — how many elements are smaller. In an ascending list the element at a position is the one
  whose rank that is (`getElem?_eq_some_iff_rank`).
* `idxOf?_eq`, `get?_eq` — what the walks answer, by induction on their steps.
* `first_eq` — the first element, without going to the end of the list.
* `Ranked` — all of it in terms of the live elements, and `Moment.Reachable.ranked` — at any moment
  of a run.
-/

namespace SplitOrder

namespace SortedList

variable {α : Type} [Ord α]

/-- How many of the elements are smaller than `a`. -/
def rank (as : List α) (a : α) : Nat :=
  as.countP fun b => compare b a == .lt

/-- The rank of `a`, if an equal element is there. -/
def position? (as : List α) (a : α) : Option Nat :=
  if as.any fun b => compare b a == .eq then some (rank as a) else none

variable {l : SortedList α} {a b : α} {as : List α} {i : Nat} {c : Cursor} {is : List NodeId}

/-! ### Ranks in ascending lists -/

theorem rank_cons_of_lt (as : List α) (h : compare b a = .lt) :
    rank (b :: as) a = rank as a + 1 :=
  List.countP_cons_of_pos (by rw [h]; rfl)

theorem rank_cons_of_ne (as : List α) (h : compare b a ≠ .lt) : rank (b :: as) a = rank as a :=
  List.countP_cons_of_neg (by simpa using h)

theorem position?_eq_some_iff :
    position? as a = some i ↔ (∃ b ∈ as, compare b a = .eq) ∧ rank as a = i := by
  have hany : (as.any fun b => compare b a == .eq) = true ↔ ∃ b ∈ as, compare b a = .eq := by
    simp only [List.any_eq_true, beq_iff_eq]
  rw [position?, ← hany]
  split <;> simp_all

variable [Std.TransOrd α]

/-- Nothing is smaller than `a` if all elements are greater. -/
theorem rank_eq_zero (h : ∀ b ∈ as, compare a b = .lt) : rank as a = 0 := by
  refine List.countP_eq_zero.mpr fun b hb => ?_
  rw [Std.OrientedCmp.gt_of_lt (h b hb)]
  decide

/-- Equal elements have one rank. -/
theorem rank_congr (as : List α) (h : compare b a = .eq) : rank as b = rank as a := by
  have hcompare : (fun d => compare d b == .lt) = fun d => compare d a == .lt := by
    funext d
    rw [Std.TransCmp.congr_right h]
  rw [rank, rank, hcompare]

/-! The position of `a`, as the first element has it. -/

omit [Std.TransOrd α] in
theorem position?_cons_of_lt (as : List α) (h : compare b a = .lt) :
    position? (b :: as) a = (position? as a).map (· + 1) := by
  rw [position?, position?, List.any_cons, rank_cons_of_lt as h, h]
  simp only [show (Ordering.lt == .eq) = false from rfl, Bool.false_or]
  split <;> rfl

theorem position?_cons_of_eq (hb : ∀ d ∈ as, compare b d = .lt) (h : compare b a = .eq) :
    position? (b :: as) a = some 0 := by
  have hab : compare a b = .eq := Std.OrientedCmp.eq_symm h
  have hgreater : ∀ d ∈ as, compare a d = .lt := fun d hd => Std.TransCmp.lt_of_eq_of_lt hab (hb d hd)
  have hne : compare b a ≠ .lt := by
    rw [h]
    decide
  rw [position?, List.any_cons, h, rank_cons_of_ne as hne, rank_eq_zero hgreater]
  rfl

theorem position?_cons_of_gt (hb : ∀ d ∈ as, compare b d = .lt) (h : compare b a = .gt) :
    position? (b :: as) a = none := by
  have hab : compare a b = .lt := Std.OrientedCmp.lt_of_gt h
  have hgreater : ∀ d ∈ b :: as, compare a d = .lt := by
    intro d hd
    rcases List.mem_cons.mp hd with rfl | hd
    · exact hab
    · exact Std.TransCmp.lt_trans hab (hb d hd)
  have hany : ¬ ((b :: as).any fun d => compare d a == .eq) = true := by
    intro hany
    obtain ⟨d, hd, heq⟩ := List.any_eq_true.mp hany
    have hda : compare d a = .gt := Std.OrientedCmp.gt_of_lt (hgreater d hd)
    rw [hda] at heq
    cases heq
  rw [position?, if_neg hany]

/-- **Selection by rank.** In an ascending list the element at a position is the one with so many
smaller ones. -/
theorem rank_of_getElem? (h : as.Pairwise fun a b => compare a b = .lt) (hi : as[i]? = some a) :
    rank as a = i := by
  induction as generalizing i with
  | nil => cases hi
  | cons b as ih =>
    obtain ⟨hb, has⟩ := List.pairwise_cons.mp h
    cases i with
    | zero =>
      -- the first element, and none of the others is smaller
      obtain rfl : b = a := Option.some.inj hi
      have hself : compare b b ≠ .lt := by
        rw [Std.compare_self]
        decide
      rw [rank_cons_of_ne as hself, rank_eq_zero hb]
    | succ i =>
      have hi : as[i]? = some a := hi
      rw [rank_cons_of_lt as (hb a (List.mem_of_getElem? hi)), ih has hi]

theorem getElem?_eq_some_iff_rank (h : as.Pairwise fun a b => compare a b = .lt) :
    as[i]? = some a ↔ a ∈ as ∧ rank as a = i := by
  constructor
  · intro hi
    exact ⟨List.mem_of_getElem? hi, rank_of_getElem? h hi⟩
  · rintro ⟨hmem, rfl⟩
    obtain ⟨j, hj⟩ := List.mem_iff_getElem?.mp hmem
    rw [rank_of_getElem? h hj, hj]

/-! ### The walks -/

/-- **From an element to its position.** The walk counts the elements in front of `a` and ends at the
first one that is not. -/
theorem idxOfWithin_spec {steps : Nat} (index : Nat) (h : Cursor.Ahead l c is)
    (hlt : (l.liveOf is).Pairwise fun a b => compare a b = .lt)
    (hsteps : (l.liveOf is).length < steps) :
    l.idxOfWithin a steps index c =
      .ok ((position? (l.liveOf is) a).map fun i => index + i) := by
  -- on the steps, each of which passes the first of the elements ahead
  induction steps generalizing index c is with
  | zero => exact absurd hsteps (Nat.not_lt_zero _)
  | succ steps ih =>
    obtain ⟨c', js, hnext, hpasses, -⟩ := Cursor.next_spec h
    have hlive := hpasses.liveOf_eq
    rw [idxOfWithin, hnext]
    cases hall : l.liveOf is with
    | nil => rfl
    | cons b bs =>
      rw [hall] at hlt hsteps hlive
      obtain rfl : bs = l.liveOf js := (List.cons.inj hlive).2
      obtain ⟨hb, hbs⟩ := List.pairwise_cons.mp hlt
      simp only [List.head?_cons, Checked.ok_bind]
      -- from here on as the walk goes: past an element in front of `a`, or to the end
      cases hba : compare b a with
      | lt =>
        have hrest := ih (index + 1) hpasses.ahead hbs (Nat.lt_of_succ_lt_succ hsteps)
        simp only [hrest, position?_cons_of_lt _ hba, Option.map_map]
        congr 2
        funext i
        exact Nat.succ_add_eq_add_succ index i
      | eq =>
        rw [position?_cons_of_eq hb hba]
        rfl
      | gt =>
        rw [position?_cons_of_gt hb hba]
        rfl

omit [Ord α] [Std.TransOrd α] in
/-- **From a position to its element.** The walk passes so many elements. -/
theorem getWithin_spec (h : Cursor.Ahead l c is) (i : Nat) :
    l.getWithin i c = .ok (l.liveOf is)[i]? := by
  induction i generalizing c is with
  | zero =>
    obtain ⟨c', js, hnext, -⟩ := Cursor.next_spec h
    rw [getWithin, hnext, List.head?_eq_getElem?]
    rfl
  | succ i ih =>
    obtain ⟨c', js, hnext, hpasses, -⟩ := Cursor.next_spec h
    have hlive := hpasses.liveOf_eq
    rw [getWithin, hnext]
    cases hall : l.liveOf is with
    | nil => rfl
    | cons b bs =>
      rw [hall] at hlive
      obtain rfl : bs = l.liveOf js := (List.cons.inj hlive).2
      exact ih hpasses.ahead

theorem idxOf?_eq (h : l.Ordered) (a : α) : l.idxOf? a = .ok (position? l.live a) := by
  have hwalk : l.idxOfWithin a l.bound 0 l.cursor =
      .ok ((position? l.live a).map fun i => 0 + i) :=
    idxOfWithin_spec 0 h.ahead_cursor h.pairwise_live h.length_live_lt
  rw [idxOf?, hwalk]
  simp

theorem get?_eq (h : l.Ordered) (i : Nat) : l.get? i = .ok l.live[i]? :=
  getWithin_spec h.ahead_cursor i

theorem first_eq (h : l.Ordered) :
    l.first = .ok (l.live[0]?.elim (.error .noSuchElement) .ok) := by
  obtain ⟨c, js, hnext, -⟩ := Cursor.next_spec h.ahead_cursor
  have hnext : l.cursor.next l = .ok (l.live[0]?, c) := by
    rw [← List.head?_eq_getElem?]
    exact hnext
  rw [first, Cursor.demand_eq hnext]
  rfl

/-! ### Ranks and positions of a list -/

/-- **Rank and selection agree**, and so do the sizes. -/
structure Ranked (l : SortedList α) : Prop where
  /-- The position of `a` is its rank, if an equal element is live. -/
  position_iff : ∀ a i, l.idxOf? a = .ok (some i) ↔
    (∃ b ∈ l.live, compare b a = .eq) ∧ rank l.live a = i
  /-- It is none otherwise. -/
  position_none_iff : ∀ a, l.idxOf? a = .ok none ↔ ∀ b ∈ l.live, compare b a ≠ .eq
  /-- At each position there is what stands there among the live elements, in ascending order. -/
  get_eq : ∀ i, l.get? i = .ok l.live[i]?
  /-- This is the live element of this rank. -/
  get_iff : ∀ i a, l.get? i = .ok (some a) ↔ a ∈ l.live ∧ rank l.live a = i
  /-- There is none from the length on. -/
  get_none_iff : ∀ i, l.get? i = .ok none ↔ l.live.length ≤ i
  position_of_get : ∀ i a, l.get? i = .ok (some a) → l.idxOf? a = .ok (some i)
  get_of_position : ∀ a i, l.idxOf? a = .ok (some i) →
    ∃ b, l.get? i = .ok (some b) ∧ compare b a = .eq
  length_eq : l.length = .ok l.live.length
  isEmpty_iff : ∃ b, l.isEmpty = .ok b ∧ (b = true ↔ l.length = .ok 0)
  first_eq : ∃ item, l.get? 0 = .ok item ∧
    l.first = .ok (item.elim (.error .noSuchElement) .ok)

theorem Ordered.ranked_live (h : l.Ordered) : l.Ranked := by
  have hlt := h.pairwise_live
  have hposition : ∀ a i, l.idxOf? a = .ok (some i) ↔
      (∃ b ∈ l.live, compare b a = .eq) ∧ rank l.live a = i := by
    intro a i
    rw [idxOf?_eq h, Except.ok.injEq, position?_eq_some_iff]
  have hget : ∀ i a, l.get? i = .ok (some a) ↔ a ∈ l.live ∧ rank l.live a = i := by
    intro i a
    rw [get?_eq h, Except.ok.injEq, getElem?_eq_some_iff_rank hlt]
  refine ⟨hposition, fun a => ?_, get?_eq h, hget, fun i => ?_, fun i a hi => ?_, fun a i ha => ?_,
    SortedList.length_eq h, ⟨_, isEmpty_eq h, ?_⟩, _, get?_eq h 0, SortedList.first_eq h⟩
  · rw [idxOf?_eq h, Except.ok.injEq, position?]
    simp
  · rw [get?_eq h, Except.ok.injEq, List.getElem?_eq_none_iff]
  · obtain ⟨hmem, hrank⟩ := (hget i a).mp hi
    exact (hposition a i).mpr ⟨⟨a, hmem, Std.compare_self⟩, hrank⟩
  · -- the element that is there has the rank of `a`
    obtain ⟨⟨b, hb, heq⟩, hrank⟩ := (hposition a i).mp ha
    exact ⟨b, (hget i b).mpr ⟨hb, (rank_congr _ heq).trans hrank⟩, heq⟩
  · rw [SortedList.length_eq h, Except.ok.injEq, List.isEmpty_iff, List.length_eq_zero_iff]

end SortedList

namespace Moment

open SortedList

variable {α : Type} [Ord α] [Std.TransOrd α] [Text.Legible α] {m : Moment α}

/-- **Ranks at any moment.** Whatever deleted nodes stand on the list, for every element, stored or
not, and for every position. -/
theorem Reachable.ranked (hm : m.Reachable) : m.list.Ranked :=
  hm.sound.list.ranked_live

/-- Of two live elements 50 is the second. Deleted nodes stand in front of the first one, between the
two and behind them. -/
theorem Reachable.ranked_of_deleted_runs :
    ∃ m : Moment UInt64, m.Reachable ∧
      m.list.chain = [(10, true), (20, false), (30, true), (40, true), (50, false), (60, true)] ∧
      m.list.Ranked ∧ m.list.idxOf? 50 = .ok (some 1) ∧ m.list.get? 1 = .ok (some 50) ∧
      m.list.idxOf? 40 = .ok none ∧ m.list.get? 2 = .ok none := by
  -- the marks are set from the end of the list on, so that no search unlinks an earlier one
  let ops : List (ListOp UInt64) :=
    [10, 20, 30, 40, 50, 60].map (fun a => .request (.insert a)) ++
      [60, 40, 30, 10].map fun a => .request (.markOnly a)
  have hcomputed : (do
      let (_, s) ← (ListSession.fresh .deferred).steps ops
      return s.list.chain) = .ok
        [(10, true), (20, false), (30, true), (40, true), (50, false), (60, true)] := by
    decide +kernel
  obtain ⟨⟨replies, s⟩, hsteps, hcomputed⟩ := Checked.bind_eq_ok.mp hcomputed
  have hchain : s.list.chain = _ := Except.ok.inj hcomputed
  have hlive : s.list.live = [20, 50] := by
    rw [live, hchain]
    rfl
  have hm : Reachable ⟨s, []⟩ := reachable_of_steps hsteps
  have hranked := hm.ranked
  refine ⟨_, hm, hchain, hranked, (hranked.position_iff 50 1).mpr ?_, ?_,
    (hranked.position_none_iff 40).mpr ?_, (hranked.get_none_iff 2).mpr ?_⟩
  · rw [hlive]
    decide
  · rw [hranked.get_eq, hlive]
    rfl
  · intro b hb
    rw [hlive, List.mem_cons, List.mem_singleton] at hb
    rcases hb with rfl | rfl
    · decide
    · decide
  · exact Nat.le_of_eq (congrArg List.length hlive)

end Moment

end SplitOrder
