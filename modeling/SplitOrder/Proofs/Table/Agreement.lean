import SplitOrder.Proofs.Table.Crowd

/-!
# What calls for sentinels agree about

Any number of calls for sentinels overlap in any way, and at each moment it is as if the sentinels
had been made one after another: one node for each bucket, which all calls for that bucket answer,
and which stays registered for it; and nothing but sentinels is new.

* `CountsSentinels` — the counter of sentinels is exact. It is so at every moment of every run
  (`Reachable.sentinels_eq`), since a sentinel is linked and counted in one effect.
* `Crowd.Agrees` — the outcome of a schedule, as far as it can be seen.
* `Reachable.crowd_agrees` — that is the outcome of every schedule on every table of a run.
-/

namespace SplitOrder

open SortedList

variable {κ ν : Type}

/-! ### The counter of sentinels -/

namespace Table

variable [Ord κ] {t t' : Table κ ν} {l : SortedList (Entry κ ν)}

/-- The counter counts the sentinels on the list. -/
def CountsSentinels (t : Table κ ν) : Prop :=
  t.sentinels = t.list.live.countP Entry.isSentinel

omit [Ord κ] in
/-- What else is on the list does not matter. -/
theorem CountsSentinels.of_countP (h : t.CountsSentinels)
    (heq : l.live.countP Entry.isSentinel = t.list.live.countP Entry.isSentinel) :
    { t with list := l }.CountsSentinels :=
  h.trans heq.symm

variable [Std.TransOrd κ]

theorem CountsSentinels.trims (h : t.CountsSentinels) (ht : t.Intact) (htrims : t.list.Trims l) :
    { t with list := l }.CountsSentinels :=
  h.of_countP ((htrims.live_perm ht.list).countP_eq _)

/-- **Step lemma.** -/
theorem SentinelEffect.countsSentinels (h : t.SentinelEffect t') (ht : t.Intact)
    (hcounts : t.CountsSentinels) : t'.CountsSentinels := by
  cases h with
  | link hne hlt hparent h =>
    rcases linkSentinel_cases ht hne hlt hparent h with ⟨l, htrims, -, rfl⟩ | ⟨l, hlinks, rfl⟩
    · exact hcounts.trims ht htrims
    · show t.sentinels + 1 = l.live.countP Entry.isSentinel
      rw [(hlinks.live_perm ht.list).countP_eq, List.countP_cons_of_pos (by rfl), hcounts]
  | register hlt hnode h =>
    obtain ⟨d, rfl, -⟩ := registerSentinel_cases ht.directory hlt h
    exact hcounts

end Table

namespace TableMoment

variable [Ord κ] [Std.TransOrd κ] {m m' : TableMoment κ ν}

/-- **Step lemma.** -/
theorem Step.countsSentinels (h : m.Step m') (hm : m.table.Intact)
    (hcounts : m.table.CountsSentinels) : m'.table.CountsSentinels := by
  cases h with
  | sentinel h => exact h.countsSentinels hm hcounts
  | lookup hi h => exact hcounts.trims hm (hm.lookups hi h).1
  | @insert t ds n start key value ins l hi h =>
    have hspec := (hm.inserts hi h).1
    cases ins with
    | existing i => exact hcounts.trims hm hspec.1
    | linked i =>
      have hlinks : t.list.Links (.ofPair (t.hash key) key value) i l := hspec
      refine hcounts.of_countP ?_
      rw [(hlinks.live_perm hm.list).countP_eq]
      exact List.countP_cons_of_neg (by simp [Entry.ofPair, Entry.isSentinel])
  | @remove t ds n start key removed l hi h =>
    have hends := (hm.deletes hi h).1
    cases removed with
    | none => exact hcounts.trims hm hends.1
    | some e =>
      obtain ⟨i, hdeletes⟩ := hends
      -- the search stopped at a pair
      obtain ⟨key', value', rfl, -⟩ := KeyProbe.toProbe_eq_iff.mp hdeletes.sought
      refine hcounts.of_countP ?_
      rw [(hdeletes.live_perm hm.list).countP_eq]
      exact (List.countP_cons_of_neg (by simp [Entry.isSentinel])).symm
  | count h =>
    obtain ⟨-, rfl⟩ := Table.countInsertion_eq_ok h
    exact hcounts
  | overflow h => exact hcounts
  | grow h =>
    obtain ⟨c, rfl⟩ := Table.exists_of_doubleIfFull h
    exact hcounts
  | discount => exact hcounts

/-- **Run lemma.** -/
theorem Reaches.countsSentinels (h : m.Reaches m') (hm : m.table.Intact)
    (hcounts : m.table.CountsSentinels) : m'.table.CountsSentinels := by
  induction h with
  | refl => exact hcounts
  | tail hreach hstep ih => exact hstep.countsSentinels (Reaches.evolves hreach hm).2 ih

/-- At every moment of every run, the counter of sentinels is exact. -/
theorem Reachable.sentinels_eq (hm : m.Reachable) :
    m.table.sentinels = m.list.chain.countP fun item => item.1.isSentinel := by
  have hacc := hm.accounted
  obtain ⟨sizing, hash, t, hbuild, hrun⟩ := hm
  obtain ⟨htidy, -⟩ := Table.tidy_build hbuild
  have hcounts : m.table.sentinels = m.list.live.countP Entry.isSentinel :=
    Reaches.countsSentinels hrun htidy.toIntact htidy.sentinels_eq
  rw [hcounts, hacc.live_eq, List.countP_map]
  rfl

end TableMoment

/-! ### What all see -/

/-- **The outcome of a crowd** on a table that was `t₀` in the beginning. -/
structure Crowd.Agrees [Ord κ] (t₀ : Table κ ν) (c : Crowd κ ν) : Prop where
  /-- All calls for one bucket answer the same node. -/
  one_answer : ∀ {bucket i j}, (bucket, i) ∈ c.answers → (bucket, j) ∈ c.answers → i = j
  /-- The node that is answered is the one that is registered. -/
  answered : ∀ {bucket i}, (bucket, i) ∈ c.answers → c.table.directory.get bucket = .ok (some i)
  /-- No two sentinels on the list are those of the same bucket. -/
  one_node : ((c.table.list.chain.map Prod.fst).filter Entry.isSentinel).Nodup
  /-- A slot is empty, or the head is registered for bucket 0, or a node on the list is registered
  which is the sentinel of the bucket. -/
  registered : ∀ {bucket i}, c.table.directory.get bucket = .ok (some i) →
    bucket = 0 ∧ i = head ∨ bucket ≠ 0 ∧ ⟨i, .sentinelOf bucket, false⟩ ∈ c.table.list.standing
  /-- A slot that is filled stays as it is, whatever calls are made and go on. -/
  stays : ∀ {bucket i}, c.table.directory.get bucket = .ok (some i) →
    ∀ moves, (c.run moves).table.directory.get bucket = .ok (some i)
  /-- The counter of sentinels is exact. -/
  counted : c.table.sentinels = c.table.list.chain.countP fun item => item.1.isSentinel
  /-- The entries, their number and the buckets are as they were, and nothing was retired. -/
  rests : t₀.Rests c.table
  /-- A call for a bucket which the directory has room for returns after so many turns of its own,
  however many others have theirs in between. -/
  returns : ∀ {bucket}, bucket < Directory.capacity → ∀ {moves : List Move},
    3 * 32 + 1 ≤ moves.count (.turn c.errands.length) →
    let c' := (c.move (.call bucket)).run moves
    c'.errands[c.errands.length]? = some none ∧ ∃ node, (bucket, node) ∈ c'.answers

namespace TableMoment

variable [Ord κ] [Std.TransOrd κ] {m : TableMoment κ ν}

/-- **Sentinels made at once.** Any number of calls for the sentinels of any buckets, made at any
moment of any run and overlapping in any way, agree about the node of each bucket, and leave all
else as it was. -/
theorem Reachable.crowd_agrees (hm : m.Reachable) (moves : List Move) :
    (Crowd.run { table := m.table } moves).Agrees m.table := by
  obtain ⟨hobtains, hlawful⟩ := (Crowd.lawful_start m.table).run hm.intact moves
  generalize Crowd.run { table := m.table } moves = c at hobtains hlawful
  -- to obtain sentinels is a run like any other, so what holds at every moment holds now
  have hc : Reachable ⟨c.table, m.duties, m.calls⟩ := by
    obtain ⟨sizing, hash, t, hbuild, hrun⟩ := hm
    exact ⟨sizing, hash, t, hbuild, hrun.trans (Reaches.of_obtains hobtains)⟩
  have hintact : c.table.Intact := hc.intact
  have hacc : c.table.list.Accounted [] := hc.accounted
  refine ⟨fun {b i j} hi hj => ?_, hlawful.answered, ?_, fun {b i} hi => ?_, fun hi ms => ?_,
    hc.sentinels_eq, Table.Obtains.rests hobtains hm.intact hm.accounted,
    fun hlt => hlawful.returns hm.intact hlt⟩
  · -- both were registered for the bucket
    exact Option.some.inj (Except.ok.inj ((hlawful.answered hi).symm.trans (hlawful.answered hj)))
  · rw [← hacc.live_eq]
    exact hintact.list.nodup_live.filter _
  · obtain ⟨-, hi⟩ := (Directory.get_eq_ok_some_iff hintact.directory).mp hi
    have hguards := hintact.registered hi
    by_cases hzero : b = 0
    · subst hzero
      exact .inl ⟨rfl, Option.some.inj (hi.symm.trans hintact.root)⟩
    · rw [guards_of_ne_zero hzero] at hguards
      exact .inr ⟨hzero, (hintact.list.mem_standing_iff_holds
        fun _ => hacc.unmarked_of_mem_linked).mpr ⟨hguards, rfl⟩⟩
  · exact Table.Obtains.registered (hlawful.run hm.intact ms).1 hintact hi

/-- Two calls for bucket 7 overlap, and one for bucket 3, its parent, joins them. Each of the three
finds no sentinel registered for bucket 3: the first call links one, the second registers it, and
the third finds it linked already. The second call also links and registers that of bucket 7. -/
theorem Reachable.crowd_agrees_of_overlapping_calls :
    ∃ (m : TableMoment UInt64 UInt64) (moves : List Move) (c : Crowd UInt64 UInt64),
      m.Reachable ∧ Crowd.run { table := m.table } moves = c ∧ c.Agrees m.table ∧
        c.errands = [none, none, none] ∧
        c.table.list.linked = [1, 2, 3, 4, 5] ∧
        c.answers = [(7, 5), (7, 5), (3, 4), (3, 4), (3, 4), (1, 1), (1, 1), (1, 1)] := by
  -- only the kernel is to look into the schedule
  obtain ⟨moves, hmoves⟩ : ∃ moves : List Move, moves =
      [.call 7, .call 7, .turn 0, .turn 1, .turn 0, .turn 1, .turn 0, .turn 1, .turn 0, .turn 1,
        .call 3, .turn 2, .turn 2, .turn 1, .turn 2, .turn 0, .turn 2, .turn 1, .turn 0, .turn 1,
        .turn 0] := ⟨_, rfl⟩
  have hvalues : (do
      let t ← Table.build { initialBuckets := 8, maxLoad := 1, maxBuckets := 8 } id
      let (_, s) ← TableSession.steps { table := t } [.request (.insert (5 : UInt64) (50 : UInt64))]
      let c := Crowd.run { table := s.table } moves
      return ((c.errands, c.table.list.linked), c.answers)) =
        .ok (([none, none, none], [1, 2, 3, 4, 5]),
          [(7, 5), (7, 5), (3, 4), (3, 4), (3, 4), (1, 1), (1, 1), (1, 1)]) := by
    rw [hmoves]
    decide +kernel
  obtain ⟨t, hbuild, hvalues⟩ := Checked.bind_eq_ok.mp hvalues
  obtain ⟨⟨replies, s⟩, hrun, hvalues⟩ := Checked.bind_eq_ok.mp hvalues
  obtain ⟨hlists, hanswers⟩ := Prod.mk.inj (Except.ok.inj hvalues)
  obtain ⟨herrands, hnodes⟩ := Prod.mk.inj hlists
  obtain ⟨n, hm⟩ := reachable_of_steps (s := { table := t }) hbuild hrun
  have hagrees := hm.crowd_agrees moves
  exact ⟨_, moves, _, hm, rfl, hagrees, herrands, hnodes, hanswers⟩

end TableMoment

end SplitOrder
