import SplitOrder.Proofs.List.OnePass
import SplitOrder.Proofs.Table.Shortcut
import SplitOrder.Proofs.Table.WeakConsistency

/-!
# Lists and tables do not try twice

`SplitOrder.Proofs.List.OnePass` at all moments of all runs, those on tables among them, and for all
cursors that are opened and used in the course of a run. A run may have deletions half done, and
operations that began in the middle of others.

* `Cursor.Parks` — the loop that passes over sentinels ends.
* `never_retries` — the loops of lists and of tables.
-/

namespace SplitOrder

open SortedList

namespace Cursor

variable {κ ν : Type} {l : SortedList (Entry κ ν)} {c : Cursor} {is : List NodeId}

/-- **The loop that passes over sentinels ends**, with the same outcome however many steps it may
make. -/
def Parks (l : SortedList (Entry κ ν)) (c : Cursor) : Prop :=
  ∃ more d, ∀ steps, l.bound ≤ steps → parkWithin l steps c = .ok (more, d)

/-- More steps make no difference. -/
theorem parkWithin_mono {m n : Nat} {p : Bool × Cursor} (h : parkWithin l m c = .ok p)
    (hle : m ≤ n) : parkWithin l n c = .ok p := by
  induction m generalizing n c with
  | zero => cases h
  | succ m ih =>
    obtain ⟨n, rfl⟩ : ∃ k, n = k + 1 := ⟨n - 1, by omega⟩
    rw [parkWithin] at h ⊢
    obtain ⟨⟨entry, c₁⟩, hpeek, h⟩ := Checked.bind_eq_ok.mp h
    rw [hpeek, Checked.ok_bind]
    cases entry with
    | none => exact h
    | some entry =>
      cases entry with
      | pair k key value => exact h
      | sentinel k =>
        obtain ⟨⟨passed, c₂⟩, hnext, h⟩ := Checked.bind_eq_ok.mp h
        simp only [hnext, Checked.ok_bind]
        exact ih h (by omega)

theorem Ahead.parks (h : Ahead l c is) : Parks l c := by
  obtain ⟨more, d, -, -, hpark, -⟩ := park_spec h
  exact ⟨more, d, fun steps hsteps => parkWithin_mono hpark hsteps⟩

end Cursor

open Cursor

/-! ### Runs -/

section Runs

variable {α : Type} [Ord α] [Std.TransOrd α] [Text.Legible α] {m m' : Moment α} {c : Cursor}
  {run : List (Observation α)}

omit [Std.TransOrd α] in
/-- A run goes on as a run. -/
theorem Moment.Reachable.reaches (hm : m.Reachable) (h : m.Reaches m') : m'.Reachable := by
  obtain ⟨p, hm⟩ := hm
  exact ⟨p, hm.trans h⟩

/-- A cursor that was opened in a run stands on a node later in the run. -/
theorem Moment.Reachable.onNode (hm : m.Reachable)
    (hrun : Moment.Iterates m m.list.cursor run m' c) : m'.Reachable ∧ c.OnNode m'.list :=
  hrun.onNode (Moment.disciplined.restrict Moment.Reachable.sound Moment.Reachable.reaches) hm

end Runs

section TableRuns

variable {κ ν : Type} [Ord κ] [Std.TransOrd κ] {m m' : TableMoment κ ν} {c : Cursor}
  {run : List (Observation (Entry κ ν))}

omit [Std.TransOrd κ] in
theorem TableMoment.Reachable.reaches (hm : m.Reachable) (h : m.Reaches m') : m'.Reachable := by
  obtain ⟨sizing, hash, t, hbuild, hm⟩ := hm
  exact ⟨sizing, hash, t, hbuild, hm.trans h⟩

/-- So does a cursor on a table or a set, whatever the calls are, if they show what they pass. -/
theorem TableMoment.Reachable.onNode (hm : m.Reachable)
    {call : Table κ ν → Cursor → Sight (Entry κ ν) → Cursor → Prop}
    (hcall : ∀ {t c is sight c'}, t.Intact → Ahead t.list c is → call t c sight c' →
      Shows (!·.isSentinel) t.list is sight c')
    (hrun : TableMoment.Iterates call m m.list.cursor run m' c) :
    m'.Reachable ∧ c.OnNode m'.list :=
  hrun.onNode ((TableMoment.disciplined hcall).restrict TableMoment.Reachable.intact
    TableMoment.Reachable.reaches) hm

end TableRuns

/-! ### At every moment -/

variable {α κ ν : Type} [Ord α] [Std.TransOrd α] [Text.Legible α] [Ord κ] [Std.TransOrd κ]

/-- **The retry paths are dead.** At every moment of every run on a list or a table no loop goes
round in vain: a search from any live node in front of any place is one pass in which every unlinking
succeeds, an insertion links its node and a deletion sets its mark at the first attempt, and cursors
come to an end from any node that was ever linked. These are the nodes that cursors stand on, in every
iteration over a list, a table or a set of keys. -/
theorem never_retries :
    (∀ m : Moment α, m.Reachable → m.list.NeverRetries ∧
      ∀ run m' c, Moment.Iterates m m.list.cursor run m' c → m'.Reachable ∧ c.OnNode m'.list) ∧
    (∀ m : TableMoment κ ν, m.Reachable → m.list.NeverRetries ∧
      (∀ c : Cursor, c.OnNode m.list → Parks m.list c) ∧
      ∀ run m' c, TableMoment.Iterates MapCalls m m.list.cursor run m' c →
        m'.Reachable ∧ c.OnNode m'.list) ∧
    ∀ m : TableMoment κ Unit, m.Reachable →
      ∀ run m' c, TableMoment.Iterates SetCalls m m.list.cursor run m' c →
        m'.Reachable ∧ c.OnNode m'.list := by
  refine ⟨fun m hm => ⟨hm.sound.list.neverRetries, fun run m' c hrun => hm.onNode hrun⟩,
    fun m hm => ⟨hm.intact.list.neverRetries, fun c hc => ?_, fun run m' c hrun => ?_⟩,
    fun m hm run m' c hrun => ?_⟩
  · obtain ⟨is, his⟩ := hc.exists_ahead hm.intact.list.toOrdered
    exact his.parks
  · exact hm.onNode (fun ht h hcall => hcall.shows ht h) hrun
  · exact hm.onNode (fun ht h hcall => hcall.shows ht h) hrun

/-- A list on which two deletions are in progress, of 30 and of 20, so that two deleted nodes stand
next to each other; a cursor that was opened at 10, which is deleted and handed over since. And a
table whose cursor stands at the first of two removed entries, with a sentinel behind the second. -/
theorem never_retries_past_deleted_nodes :
    ∃ (m : Moment UInt64) (c : Cursor) (t : TableMoment UInt64 UInt64) (d : Cursor),
      m.Reachable ∧ m.pending.length = 2 ∧ m.list.linked = [2, 3, 4] ∧
      (m.list.link 2).marked = true ∧ (m.list.link 3).marked = true ∧
      m.list.SearchesOnce (.ofElement 40) head ∧ m.list.InsertsOnce 35 head ∧
      m.list.ClaimsOnce (.ofElement 40) head ∧
      c.candidate = some 1 ∧ 1 ∈ m.list.reclaimer.retired ∧
      (∃ o, ∀ steps, m.list.bound ≤ steps → firstLive m.list steps c.candidate = .ok o) ∧
      t.Reachable ∧ d.candidate = some 4 ∧ 4 ∈ t.list.reclaimer.retired ∧ Parks t.list d := by
  obtain ⟨hlists, htables, -⟩ := never_retries (α := UInt64) (κ := UInt64) (ν := UInt64)
  let l₀ : SortedList UInt64 :=
    { nodes := #[⟨none, ⟨some 1, false⟩⟩, ⟨some 10, ⟨some 2, false⟩⟩, ⟨some 20, ⟨some 3, false⟩⟩,
        ⟨some 30, ⟨some 4, false⟩⟩, ⟨some 40, ⟨none, false⟩⟩] }
  have hm₀ : Moment.Reachable ⟨{ list := l₀ }, []⟩ := Moment.reachable_of_steps
    (show (ListSession.fresh .deferred).steps
      ([10, 20, 30, 40].map fun a => .request (.insert a)) = .ok (_, _) from rfl)
  -- 10 is deleted, and then the deletions of 30 and of 20 begin
  let l₁ : SortedList UInt64 := ((l₀.setLink 1 ⟨some 2, true⟩).setLink 0 ⟨some 2, false⟩).retire 1
  let l₂ : SortedList UInt64 := l₁.setLink 3 ⟨some 4, true⟩
  let l₃ : SortedList UInt64 := l₂.setLink 2 ⟨some 3, true⟩
  let d₁ : Deletion UInt64 := ⟨head, .ofElement 30, ⟨2, 3, some 4⟩⟩
  let d₂ : Deletion UInt64 := ⟨head, .ofElement 20, ⟨0, 2, some 3⟩⟩
  have hfirst : Moment.Step ⟨{ list := l₀ }, []⟩ ⟨{ list := l₁ }, []⟩ :=
    .request (show ListSession.answer { list := l₀ } (.delete 10) = .ok (_, _) from rfl)
  have hm₁ : Moment.Reachable ⟨{ list := l₁ }, []⟩ := hm₀.reaches (.single hfirst)
  have hsecond : Moment.Step ⟨{ list := l₁ }, []⟩ ⟨{ list := l₂ }, [d₁]⟩ :=
    .claim (Probe.monotone_ofElement 30) (hm₁.sound.list.inFront_head _) rfl
  have hm₂ : Moment.Reachable ⟨{ list := l₂ }, [d₁]⟩ := hm₁.reaches (.single hsecond)
  have hthird : Moment.Step ⟨{ list := l₂ }, [d₁]⟩ ⟨{ list := l₃ }, [d₂, d₁]⟩ :=
    .claim (Probe.monotone_ofElement 20) (hm₂.sound.list.inFront_head _) rfl
  have hm : Moment.Reachable ⟨{ list := l₃ }, [d₂, d₁]⟩ := hm₂.reaches (.single hthird)
  have hrun : Moment.Iterates ⟨{ list := l₀ }, []⟩ l₀.cursor _ ⟨{ list := l₃ }, [d₂, d₁]⟩
      l₀.cursor :=
    .step (((Relation.ReflTransGen.single hfirst).tail hsecond).tail hthird) .nil
  obtain ⟨-, hc⟩ := (hlists _ hm₀).2 _ _ _ hrun
  have hnever := (hlists _ hm).1
  have hhead : ∀ probe, l₃.InFront probe head := hm.sound.list.inFront_head
  obtain ⟨o, hends, -⟩ := hnever.settle _ hc
  -- the table
  have hvalues : (do
      let t ← Table.build {} id
      let (_, s) ← TableSession.steps { table := t } [.request (.insert (2 : UInt64) (12 : UInt64)),
        .request (.insert 1 11), .request (.insert 4 14)]
      let (_, t₁) ← s.table.removeEntry 4
      let (_, t₂) ← t₁.removeEntry 2
      return (s.table.list.cursor.candidate, t₂.list.reclaimer.retired)) = .ok (some 4, [1, 4]) := by
    decide +kernel
  obtain ⟨t, hbuild, hvalues⟩ := Checked.bind_eq_ok.mp hvalues
  obtain ⟨⟨replies, s⟩, hsteps, hvalues⟩ := Checked.bind_eq_ok.mp hvalues
  obtain ⟨⟨e₁, t₁⟩, hrem₁, hvalues⟩ := Checked.bind_eq_ok.mp hvalues
  obtain ⟨⟨e₂, t₂⟩, hrem₂, hvalues⟩ := Checked.bind_eq_ok.mp hvalues
  obtain ⟨hcursor, hretired⟩ := Prod.mk.inj (Except.ok.inj hvalues)
  obtain ⟨n, ht⟩ := TableMoment.reachable_of_steps (s := { table := t }) hbuild hsteps
  have hreach₁ : TableMoment.Reaches ⟨s.table, [], n⟩ ⟨t₁, [], n + 1⟩ :=
    TableMoment.reaches_removeEntry ht.intact hrem₁
  have hreach₂ : TableMoment.Reaches ⟨t₁, [], n + 1⟩ ⟨t₂, [], n + 2⟩ :=
    TableMoment.reaches_removeEntry (ht.reaches hreach₁).intact hrem₂
  have hrun' : TableMoment.Iterates MapCalls ⟨s.table, [], n⟩ s.table.list.cursor _ ⟨t₂, [], n + 2⟩
      s.table.list.cursor := .step (hreach₁.trans hreach₂) .nil
  obtain ⟨ht₂, hd⟩ := (htables _ ht).2.2 _ _ _ hrun'
  have hmem : 4 ∈ t₂.list.reclaimer.retired := by
    rw [hretired]
    decide
  exact ⟨_, _, _, _, hm, rfl, by decide, by decide, by decide, hnever.search _ _ (hhead _),
    hnever.insert _ _ (hhead _), hnever.claim _ _ (hhead _), by decide, by decide, ⟨o, hends⟩, ht₂,
    hcursor, hmem, (htables _ ht₂).2.1 _ hd⟩

end SplitOrder
