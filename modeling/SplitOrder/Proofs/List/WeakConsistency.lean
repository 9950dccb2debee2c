import SplitOrder.Proofs.List.Iteration
import SplitOrder.Proofs.List.Reachable

/-!
# Iterating over a list

The iterations of `SplitOrder.Proofs.List.Iteration` on a sorted list: between the calls on the
cursor anything may happen that can happen at a moment, so deletions may be half done, nested in
each other or interleaved, and other cursors may be in use.

* `Cursor.Calls` — the calls, with what is seen of the cursor in them.
* `Calls.shows` — a call shows what it passes, `Moment.disciplined` — so runs are disciplined.
* `Moment.Reachable.weaklyConsistent` — an iteration that begins at any moment of any run is weakly
  consistent, and no call in it ends in a fault.
-/

namespace SplitOrder

open SortedList

variable {α : Type}

/-- The report whether an element is left. -/
def Sight.ofFlag : Bool → Sight α
  | true => .nothing
  | false => .exhausted

@[simp] theorem Sight.elements_ofFlag (more : Bool) : (ofFlag more : Sight α).elements = [] := by
  cases more <;> rfl

@[simp] theorem Sight.ofFlag_eq_exhausted_iff {more : Bool} :
    (ofFlag more : Sight α) = .exhausted ↔ more = false := by
  cases more <;> simp [ofFlag]

namespace Cursor

/-- **The calls on a cursor.** -/
inductive Calls (l : SortedList α) (c : Cursor) : Sight α → Cursor → Prop
  | hasNext {more : Bool} {c' : Cursor} (h : c.hasNext l = .ok (more, c')) :
      Calls l c (.ofFlag more) c'
  | peek {item : Option α} {c' : Cursor} (h : c.peek l = .ok (item, c')) :
      Calls l c (.ofFlag item.isSome) c'
  | next {item : Option α} {c' : Cursor} (h : c.next l = .ok (item, c')) :
      Calls l c (.ofItem? item) c'
  | demand {item : Except Refusal α} {c' : Cursor} (h : c.demand l = .ok (item, c')) :
      Calls l c (.ofItem? item.toOption) c'

variable {l : SortedList α} {c c' : Cursor} {is : List NodeId} {sight : Sight α}

/-- No call on a cursor ends in a fault. -/
theorem Ahead.answers (h : Ahead l c is) :
    (∃ more d, c.hasNext l = .ok (more, d)) ∧ (∃ item d, c.next l = .ok (item, d)) ∧
      ∃ item d, c.demand l = .ok (item, d) := by
  obtain ⟨d, -, hhas, -⟩ := hasNext_spec h
  obtain ⟨d', -, hnext, -⟩ := next_spec h
  exact ⟨⟨_, d, hhas⟩, ⟨_, d', hnext⟩, ⟨_, d', demand_eq hnext⟩⟩

/-- **A call shows what it passes**: one element if it yields one, and none otherwise. -/
theorem Calls.shows (hcall : Calls l c sight c') (h : Ahead l c is) :
    Shows (fun _ => true) l is sight c' := by
  cases hcall with
  | @hasNext more c' hcall =>
    obtain ⟨d, js, hhas, hpasses, hsettled⟩ := hasNext_spec h
    cases hhas.symm.trans hcall
    refine ⟨[], js, hpasses, by simp, fun hend => hsettled.eq_nil ?_⟩
    rw [Sight.ofFlag_eq_exhausted_iff, Bool.not_eq_false', List.isEmpty_iff] at hend
    rw [← hend, hpasses.liveOf_eq, List.nil_append]
  | @peek item c' hcall =>
    obtain ⟨d, js, hpeek, hpasses, hsettled⟩ := peek_spec h
    cases hpeek.symm.trans hcall
    refine ⟨[], js, hpasses, by simp, fun hend => hsettled.eq_nil ?_⟩
    rw [Sight.ofFlag_eq_exhausted_iff, Option.isSome_eq_false_iff, Option.isNone_iff_eq_none,
      List.head?_eq_none_iff] at hend
    rw [← hend, hpasses.liveOf_eq, List.nil_append]
  | @next item c' hcall =>
    obtain ⟨d, js, hnext, hpasses, hend⟩ := next_spec h
    cases hnext.symm.trans hcall
    refine ⟨_, js, hpasses, by simp, fun hsight => hend ?_⟩
    rwa [Sight.ofItem?_eq_exhausted_iff, List.head?_eq_none_iff] at hsight
  | @demand item c' hcall =>
    obtain ⟨d, js, hnext, hpasses, hend⟩ := next_spec h
    cases (demand_eq hnext).symm.trans hcall
    have hitem : ((l.liveOf is).head?.elim (.error Refusal.noSuchElement) Except.ok).toOption =
        (l.liveOf is).head? := by
      cases (l.liveOf is).head? <;> rfl
    rw [hitem]
    refine ⟨_, js, hpasses, by simp, fun hsight => hend ?_⟩
    rwa [Sight.ofItem?_eq_exhausted_iff, List.head?_eq_none_iff] at hsight

end Cursor

namespace Moment

open Cursor

variable [Ord α] [Std.TransOrd α] [Text.Legible α] {m m' : Moment α}

/-- Runs with calls on one cursor in between. -/
abbrev Iterates : Moment α → Cursor → List (Observation α) → Moment α → Cursor → Prop :=
  Iteration list Reaches fun m => Calls m.list

theorem disciplined :
    Disciplined (list (α := α)) Reaches (fun m => Calls m.list) (fun _ => true) Sound where
  sound := Sound.list
  step := fun hm hreach => hreach.evolves hm
  call := fun _ h hcall => hcall.shows h

/-- **Weakly consistent iteration.** A cursor that is opened at any moment of any run yields
ascending elements, each of them live at that time; it yields every element once that stays live
until it is seen behind it, and nothing after it has reported the end. It can be called at any
time. -/
theorem Reachable.weaklyConsistent (hm : m.Reachable) {run : List (Observation α)} {c : Cursor}
    (hrun : Iterates m m.list.cursor run m' c) :
    WeaklyConsistent (fun _ => true) m.list run ∧
      (∃ more d, c.hasNext m'.list = .ok (more, d)) ∧
      (∃ item d, c.next m'.list = .ok (item, d)) ∧
      ∃ item d, c.demand m'.list = .ok (item, d) := by
  obtain ⟨hweak, -, js, h⟩ := hrun.weaklyConsistent_run disciplined hm.sound
  exact ⟨hweak, h.answers⟩

/-- The cursor stands at 20 while 20 is being deleted. Meanwhile 30, which is next, is deleted too,
and 25 comes in between. The links of the deleted nodes lead the cursor to 40. -/
theorem Reachable.weaklyConsistent_at_deleted_node :
    ∃ (m m' : Moment UInt64) (run : List (Observation UInt64)) (c : Cursor),
      m.list.live = [10, 20, 30, 40, 50] ∧ m'.list.live = [10, 25, 40, 50] ∧
      m'.list.reclaimer.count = 2 ∧ yields run = [10, 40, 50] ∧
      (run.map Observation.sight).getLast? = some .exhausted ∧
      WeaklyConsistent (fun _ => true) m.list run ∧
      (∃ more d, c.hasNext m'.list = .ok (more, d)) ∧
      (∃ item d, c.next m'.list = .ok (item, d)) ∧
      ∃ item d, c.demand m'.list = .ok (item, d) := by
  let l₀ : SortedList UInt64 :=
    { nodes := #[⟨none, ⟨some 1, false⟩⟩, ⟨some 10, ⟨some 2, false⟩⟩, ⟨some 20, ⟨some 3, false⟩⟩,
        ⟨some 30, ⟨some 4, false⟩⟩, ⟨some 40, ⟨some 5, false⟩⟩, ⟨some 50, ⟨none, false⟩⟩] }
  have hm : Reachable ⟨{ list := l₀ }, []⟩ := reachable_of_steps
    (show (ListSession.fresh .deferred).steps
      ([10, 20, 30, 40, 50].map fun a => .request (.insert a)) = .ok (_, _) from rfl)
  -- 20 is marked, and its deletion pending
  let l₁ : SortedList UInt64 := l₀.setLink 2 ⟨some 3, true⟩
  let d : Deletion UInt64 := ⟨head, .ofElement 20, ⟨1, 2, some 3⟩⟩
  have hclaim : Step ⟨{ list := l₀ }, []⟩ ⟨{ list := l₁ }, [d]⟩ :=
    .claim (Probe.monotone_ofElement 20) (hm.sound.list.inFront_head _) rfl
  -- the search for 30 takes 20 off as well
  let l₂ : SortedList UInt64 :=
    { nodes := #[⟨none, ⟨some 1, false⟩⟩, ⟨some 10, ⟨some 6, false⟩⟩, ⟨some 20, ⟨some 3, true⟩⟩,
        ⟨some 30, ⟨some 4, true⟩⟩, ⟨some 40, ⟨some 5, false⟩⟩, ⟨some 50, ⟨none, false⟩⟩,
        ⟨some 25, ⟨some 4, false⟩⟩]
      reclaimer := .retire {} 3 }
  have hmeanwhile : Reaches ⟨{ list := l₁ }, [d]⟩ ⟨{ list := l₂ }, [d]⟩ :=
    reaches_steps (hclaim.evolves hm.sound).2 [.request (.delete 30), .request (.insert 25)] rfl
  have hsettle : Step ⟨{ list := l₂ }, [] ++ d :: []⟩ ⟨{ list := l₂.retire 2 }, [] ++ []⟩ :=
    .settle rfl
  have h₁ : Calls l₀ l₀.cursor (.ofItem? (some 10)) ⟨some 2⟩ := .next rfl
  have h₂ : Calls (l₂.retire 2) ⟨some 2⟩ (.ofItem? (some 40)) ⟨some 5⟩ := .next rfl
  have h₃ : Calls (l₂.retire 2) ⟨some 5⟩ (.ofItem? (some 50)) ⟨none⟩ := .next rfl
  have h₄ : Calls (l₂.retire 2) ⟨none⟩ (.ofItem? none) ⟨none⟩ :=
    have hend : (⟨none⟩ : Cursor).demand (l₂.retire 2) = .ok (.error .noSuchElement, ⟨none⟩) := rfl
    .demand hend
  have hrun : Iterates ⟨{ list := l₀ }, []⟩ l₀.cursor _ ⟨{ list := l₂.retire 2 }, []⟩ ⟨none⟩ :=
    .call h₁ <| .step ((hmeanwhile.head hclaim).tail hsettle) <| .call h₂ <| .call h₃ <|
    .call h₄ .nil
  exact ⟨_, _, _, _, by decide, by decide, by decide, by decide, by decide,
    hm.weaklyConsistent hrun⟩

end Moment

end SplitOrder
