import SplitOrder.Proofs.Table.Tidy

/-!
# To give up a collection gives back every node once

Lists, tables and key sets keep their nodes in one way, so what holds of the nodes of a list that was
used by itself holds of the list inside a table as well: `SortedList.Reclaimable`. For a table there
is more to say, because some of its nodes are sentinels, and these are never given to the reclaimer.

* `Table.Retires.reclaimable` — a table on which operations were made since it was built.
* `TableSession.reclaimable_of_steps`, `SetSession.reclaimable_of_run` — what the sessions do are such
  operations.
* `reclaimable_of_runs` — the three kinds of collection together.
-/

namespace SplitOrder

open SortedList

variable {α κ ν β : Type} [Ord α] [Std.TransOrd α] [Text.Legible α] [Ord κ] [Std.TransOrd κ]

/-- No node with a sentinel is retired. -/
def Table.SentinelsKept (t : Table κ ν) : Prop :=
  ∀ i k, (t.list.node i).element? = some (.sentinel k) → i ∉ t.list.reclaimer.retired

omit [Std.TransOrd κ] in
theorem Table.Tidy.sentinelsKept {t : Table κ ν} (h : t.Tidy) : t.SentinelsKept :=
  fun _ _ hi => (h.kept hi).2.2

/-- The nodes of a table that was built and on which `n` deletions succeeded. -/
theorem Table.Retires.reclaimable {t t' : Table κ ν} {n : Nat} (h : t.Retires n t')
    (hempty : t.list = ∅) : t'.list.Reclaimable n ∧ t'.SentinelsKept := by
  have hlist : (∅ : SortedList (Entry κ ν)).Retires n t'.list := hempty ▸ h.list
  exact ⟨hlist.reclaimable, h.tidy.sentinelsKept⟩

variable [Numbered κ] [Numbered ν] [Text.Legible κ] [Text.Legible ν]

theorem TableSession.reclaimable_of_steps {sizing : Sizing} {hash : κ → UInt64}
    {s s' : TableSession κ ν} {ops : List (TableOp κ ν)} {replies : List (TableReply κ ν)}
    (hbuild : Table.build sizing hash = .ok s.table) (h : s.steps ops = .ok (replies, s')) :
    ∃ n, s.deletionsAll ops = .ok n ∧ s'.table.list.Reclaimable n ∧ s'.table.SentinelsKept := by
  obtain ⟨htidy, hempty, -⟩ := Table.tidy_build hbuild
  obtain ⟨n, hn, hretires⟩ := steps_tracks Table.tracks_retires ops h
  exact ⟨n, hn, (hretires htidy).reclaimable hempty⟩

theorem SetSession.reclaimable_of_run {sizing : Sizing} {hash : κ → UInt64} {s s' : SetSession κ}
    {view : SetSession κ → β} {rs : List (SetRequest κ)} {replies : List (TableReply κ Unit × β)}
    (hbuild : Table.build sizing hash = .ok s.table)
    (h : SetSession.run view s rs = .ok (replies, s')) :
    ∃ n, SetSession.deletionsAll s rs = .ok n ∧ s'.table.list.Reclaimable n ∧
      s'.table.SentinelsKept := by
  obtain ⟨htidy, hempty, -⟩ := Table.tidy_build hbuild
  obtain ⟨n, hn, hretires⟩ := run_tracks Table.tracks_retires h
  exact ⟨n, hn, (hretires htidy).reclaimable hempty⟩

/-- **Every node is given back once.** After any run on a new list in which no bare mark is set, and
after any run on a new table or key set, each node is on the list and not deleted or was retired
once, as many were retired as deletions succeeded, and to give up the collection gives back each node
once. The head and the sentinels are never retired. -/
theorem reclaimable_of_runs :
    (∀ (ops : List (ListOp α)) replies s, ListOp.AllMarkFree ops →
      (ListSession.fresh .deferred).steps ops = .ok (replies, s) →
        ∃ n, (ListSession.fresh .deferred).deletionsAll ops = .ok n ∧ s.list.Reclaimable n) ∧
    (∀ sizing hash hashKnown (t : Table κ ν) ops replies s, Table.build sizing hash = .ok t →
      TableSession.steps { table := t, hashKnown } ops = .ok (replies, s) →
        ∃ n, TableSession.deletionsAll { table := t, hashKnown } ops = .ok n ∧
          s.table.list.Reclaimable n ∧ s.table.SentinelsKept) ∧
    ∀ sizing hash hashKnown (t : Table κ Unit) (view : SetSession κ → β) rs replies s,
      Table.build sizing hash = .ok t →
      SetSession.run view { table := t, hashKnown } rs = .ok (replies, s) →
        ∃ n, SetSession.deletionsAll { table := t, hashKnown } rs = .ok n ∧
          s.table.list.Reclaimable n ∧ s.table.SentinelsKept := by
  refine ⟨?_, ?_, ?_⟩
  · intro ops replies s hfree h
    exact ListSession.reclaimable_of_steps hfree h
  · intro sizing hash hashKnown t ops replies s hbuild h
    exact TableSession.reclaimable_of_steps hbuild h
  · intro sizing hash hashKnown t view rs replies s hbuild h
    exact SetSession.reclaimable_of_run hbuild h

/-- A list on which a deletion is overtaken by another deletion, an insertion and a search that takes
its node off the list; a table whose key is deleted while it is looked at; and a key set all keys of
which but one are deleted at once. -/
theorem reclaimable_of_overtaken_deletion :
    let ops : List (ListOp UInt64) :=
      [.request (.insert 1), .request (.insert 2), .request (.insert 3), .request (.insert 4),
        .deleteWith 3 [.request (.delete 2), .request (.insert 3),
          .deleteWith 4 [.request (.contains 5)]],
        .request (.bulk (.deleteMany [1, 9]))]
    let tableOps : List (TableOp UInt64 UInt64) :=
      [.request (.insert 1 10), .request (.insert 2 20), .request (.insert 3 30),
        .applyWith 1 [.request (.delete 1), .request (.insert 1 11)], .request (.remove 2)]
    let requests : List (SetRequest UInt64) :=
      [.bulk (.insertMany [5, 6, 7]), .bulk (.retainOnly [6]), .table (.delete 5)]
    ListOp.AllMarkFree ops ∧
      (∃ replies s, (ListSession.fresh .deferred).steps ops = .ok (replies, s) ∧
        s.list.Reclaimable 4) ∧
      (∃ t : Table UInt64 UInt64, ∃ replies s, Table.build {} id = .ok t ∧
        TableSession.steps { table := t } tableOps = .ok (replies, s) ∧
          s.table.list.Reclaimable 2 ∧ s.table.SentinelsKept) ∧
      ∃ t : KeySet UInt64, ∃ replies s, Table.build {} id = .ok t ∧
        SetSession.run (fun _ => ()) { table := t } requests = .ok (replies, s) ∧
          s.table.list.Reclaimable 2 ∧ s.table.SentinelsKept := by
  intro ops tableOps requests
  obtain ⟨hlists, htables, hsets⟩ :=
    reclaimable_of_runs (α := UInt64) (κ := UInt64) (ν := UInt64) (β := Unit)
  have hfree : ListOp.AllMarkFree ops := by
    simp only [ops, ListOp.AllMarkFree, ListOp.MarkFree, and_self]
  refine ⟨hfree, ?_, ?_, ?_⟩
  · have hrun : (do
        let (_, s) ← (ListSession.fresh .deferred).steps ops
        return s.list.nodes.size) = .ok 6 := by
      decide +kernel
    have hdeletions : (ListSession.fresh .deferred).deletionsAll ops = .ok 4 := by decide +kernel
    obtain ⟨⟨replies, s⟩, hrun, -⟩ := Checked.bind_eq_ok.mp hrun
    obtain ⟨n, hn, hs⟩ := hlists ops replies s hfree hrun
    cases hdeletions.symm.trans hn
    exact ⟨replies, s, hrun, hs⟩
  · have hrun : (do
        let t ← Table.build {} id
        let (_, s) ← TableSession.steps { table := t } tableOps
        return (s.table.list.nodes.size, ← TableSession.deletionsAll { table := t } tableOps)) =
        .ok (6, 2) := by
      decide +kernel
    obtain ⟨t, hbuild, hrun⟩ := Checked.bind_eq_ok.mp hrun
    obtain ⟨⟨replies, s⟩, hrun, hdeletions⟩ := Checked.bind_eq_ok.mp hrun
    obtain ⟨n, hn, hdeletions⟩ := Checked.bind_eq_ok.mp hdeletions
    obtain ⟨-, rfl⟩ := Prod.mk.inj (Except.ok.inj hdeletions)
    obtain ⟨n, hn', hs⟩ := htables {} id true t tableOps replies s hbuild hrun
    cases hn.symm.trans hn'
    exact ⟨t, replies, s, hbuild, hrun, hs⟩
  · have hrun : (do
        let t : KeySet UInt64 ← Table.build {} id
        let (_, s) ← SetSession.run (fun _ => ()) { table := t } requests
        return (s.table.list.nodes.size, ← SetSession.deletionsAll { table := t } requests)) =
        .ok (5, 2) := by
      decide +kernel
    obtain ⟨t, hbuild, hrun⟩ := Checked.bind_eq_ok.mp hrun
    obtain ⟨⟨replies, s⟩, hrun, hdeletions⟩ := Checked.bind_eq_ok.mp hrun
    obtain ⟨n, hn, hdeletions⟩ := Checked.bind_eq_ok.mp hdeletions
    obtain ⟨-, rfl⟩ := Prod.mk.inj (Except.ok.inj hdeletions)
    obtain ⟨n, hn', hs⟩ := hsets {} id true t (fun _ => ()) requests replies s hbuild hrun
    cases hn.symm.trans hn'
    exact ⟨t, replies, s, hbuild, hrun, hs⟩

end SplitOrder
