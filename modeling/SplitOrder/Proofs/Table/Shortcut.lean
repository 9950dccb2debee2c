import SplitOrder.Proofs.List.Retirement
import SplitOrder.Proofs.List.Starts
import SplitOrder.Proofs.Table.Reachable
import SplitOrder.Proofs.Table.Requests

/-!
# The bucket is only a shortcut

A key belongs to a bucket for every number of low bits of its hash, and an operation on the key may
start from any of these buckets that has a sentinel: the one for the present number of buckets, for
an earlier number, or for one that another client has read meanwhile. It does what it would do from
the head of the list.

* `Reachable.clean` — at no moment of a run is a deleted node on the list, since every effect pays
  what it owes to the reclaimer.
* `reachable_of_steps` — the runs of sessions are among these runs.
* `and_self_eq_of_mod` — the bucket of a hash has no bits but those of the hash, so its sentinel
  stands in front of the key.
* `Reachable.from_sentinel_eq_from_head` — hence the shortcut agrees with the plain search.
-/

namespace SplitOrder

open SortedList

variable {κ ν : Type} [Ord κ] [Std.TransOrd κ]

/-! ### No deleted node is on the list -/

theorem Table.SentinelEffect.retires {t t' : Table κ ν} (h : t.SentinelEffect t') (ht : t.Intact) :
    t.list.Retires 0 t'.list := by
  cases h with
  | link hne hlt hparent h =>
    obtain ⟨ins, l, hins, hspec⟩ := insertAfter_spec ht.list (inFront_sentinelOf ht hne hlt hparent)
    have hretires : t.list.Retires 0 l := hspec.retires ht.list
    rw [linkSentinel, hins] at h
    cases ins with
    | existing i => cases h; exact hretires
    | linked i => cases h; exact hretires
  | register hlt hnode h =>
    obtain ⟨x, -, h⟩ := Checked.bind_eq_ok.mp h
    cases h
    exact SortedList.Retires.refl _

namespace TableMoment

variable {m m' : TableMoment κ ν}

/-- Every effect on a table balances its account. -/
theorem Step.retires (h : m.Step m') (hm : m.table.Intact) : ∃ n, m.list.Retires n m'.list := by
  cases h with
  | sentinel h => exact ⟨0, h.retires hm⟩
  | lookup hi h => exact ⟨0, (hm.lookups hi h).1.retires hm.list⟩
  | insert hi h => exact ⟨0, (hm.inserts hi h).1.retires hm.list⟩
  | remove hi h => exact ⟨_, (hm.deletes hi h).1.retires hm.list⟩
  | count h =>
    obtain ⟨-, rfl⟩ := Table.countInsertion_eq_ok h
    exact ⟨0, SortedList.Retires.refl _⟩
  | @grow t t' ds ds' n size h =>
    obtain ⟨c, hdouble, -⟩ := Table.doubleIfFull_spec hm size
    cases hdouble.symm.trans h
    exact ⟨0, SortedList.Retires.refl _⟩
  | overflow | discount => exact ⟨0, SortedList.Retires.refl _⟩

theorem Reaches.accounted (h : m.Reaches m') (hm : m.table.Intact) (hacc : m.list.Accounted []) :
    m'.list.Accounted [] := by
  induction h with
  | refl => exact hacc
  | tail hrun hstep ih =>
    obtain ⟨n, hretires⟩ := hstep.retires (Reaches.evolves hrun hm).2
    exact hretires.accounted ih

/-- **At no moment is a deleted node on the list.** -/
theorem Reachable.clean (hm : m.Reachable) : m.list.Clean := by
  obtain ⟨sizing, hash, t, hbuild, hrun⟩ := hm
  obtain ⟨hintact, hlist, -⟩ := Table.intact_of_build hbuild
  have hempty : t.list.Accounted [] := hlist ▸ accounted_empty
  -- nothing was owed in the beginning, so nothing is owed at the moment
  intro i hi
  exact (Reaches.accounted hrun hintact hempty).unmarked_of_mem_linked hi

/-! ### Sessions -/

/-- What an operation of a table leaves is reached from what it found. -/
theorem tracks_reaches : Table.Tracks fun (t : Table κ ν) _ t' => t.Intact →
    ∀ n, ∃ n', Reaches ⟨t, [], n⟩ ⟨t', [], n'⟩ where
  refl := fun _ _ n => ⟨n, .refl⟩
  trans := by
    intro _ _ _ _ _ hfirst hsecond h n
    obtain ⟨n₁, hrun₁⟩ := hfirst h n
    obtain ⟨n₂, hrun₂⟩ := hsecond (hrun₁.evolves h).2 n₁
    exact ⟨n₂, hrun₁.trans hrun₂⟩
  insert := fun hop h n => ⟨n + 1, reaches_insert h hop⟩
  remove := by
    intro _ _ _ _ hop h n
    obtain ⟨⟨entry, t₁⟩, hrem, hop⟩ := Checked.bind_eq_ok.mp hop
    cases hop
    exact ⟨n + 1, reaches_removeEntry h hrem⟩
  delete := by
    intro _ _ _ _ hop h n
    obtain ⟨⟨entry, t₁⟩, hrem, hop⟩ := Checked.bind_eq_ok.mp hop
    cases hop
    exact ⟨n + 1, reaches_removeEntry h hrem⟩
  lookup := fun hop h n => ⟨n, reaches_lookup h hop⟩

/-- **Between the operations of a session** the table is at a moment of some run, and nothing is owed
to its counters. -/
theorem reachable_of_steps [Numbered κ] [Numbered ν] [Text.Legible κ] [Text.Legible ν]
    {sizing : Sizing} {hash : κ → UInt64} {s s' : TableSession κ ν} {ops : List (TableOp κ ν)}
    {replies : List (TableReply κ ν)} (hbuild : Table.build sizing hash = .ok s.table)
    (hrun : s.steps ops = .ok (replies, s')) : ∃ n, Reachable ⟨s'.table, [], n⟩ := by
  obtain ⟨-, -, hreach⟩ := TableSession.steps_tracks tracks_reaches ops hrun
  obtain ⟨n, hreach⟩ := hreach (Table.intact_of_build hbuild).1 0
  exact ⟨n, sizing, hash, s.table, hbuild, hreach⟩

/-! ### Sentinels as starts -/

omit [Ord κ] [Std.TransOrd κ] in
/-- The lowest bits of a hash are bits of the hash. -/
theorem and_self_eq_of_mod {hash : UInt64} {bucket : Bucket} {k : Nat}
    (h : bucket.toNat = hash.toNat % 2 ^ k) : hash &&& bucket = bucket := by
  refine UInt64.toNat_inj.mp (Nat.eq_of_testBit_eq fun j => ?_)
  rw [UInt64.toNat_and, Nat.testBit_and, h, Nat.testBit_mod_two_pow]
  cases hash.toNat.testBit j <;> simp

/-- The node registered for a bucket of a key stands in front of the key. -/
theorem Reachable.inFront (hm : m.Reachable) {key : κ} {bucket : Bucket} {start : NodeId} {k : Nat}
    (hbucket : bucket.toNat = (m.table.hash key).toNat % 2 ^ k)
    (hstart : m.table.directory.get bucket = .ok (some start)) :
    m.list.InFront (KeyProbe.ofKey (m.table.hash key) key).toProbe start := by
  have hintact := hm.intact
  have hinstalled := (Directory.get_eq_ok_some_iff hintact.directory).mp hstart
  -- a node guards the bucket for which it is registered, at this moment as at any other
  refine (hintact.registered hinstalled.2).inFront hintact.list ?_
  rw [← and_self_eq_of_mod hbucket]
  exact KeyProbe.toProbe_sentinelOf _ _ key

/-- **The bucket is only a shortcut.** Whatever number of low bits of its hash tells the bucket of a
key, and whoever registered a node for that bucket: an operation that starts from the node ends, and
its answer and the list it leaves are those of the operation from the head. -/
theorem Reachable.from_sentinel_eq_from_head (hm : m.Reachable) {key : κ} {bucket : Bucket}
    {start : NodeId} {k : Nat} (hbucket : bucket.toNat = (m.table.hash key).toNat % 2 ^ k)
    (hstart : m.table.directory.get bucket = .ok (some start)) :
    let probe : Probe (Entry κ ν) := (KeyProbe.ofKey (m.table.hash key) key).toProbe
    (∃ found l, m.list.lookupAfter start probe = .ok (found, l) ∧
      m.list.lookupAfter head probe = .ok (found, l)) ∧
    (∀ value : ν, ∃ ins l,
      m.list.insertAfter start (.ofPair (m.table.hash key) key value) = .ok (ins, l) ∧
      m.list.insertAfter head (.ofPair (m.table.hash key) key value) = .ok (ins, l)) ∧
    ∃ removed l, m.list.deleteAfter start probe = .ok (removed, l) ∧
      m.list.deleteAfter head probe = .ok (removed, l) := by
  intro probe
  have hl : m.list.Sound := hm.intact.list
  have hp : probe.Monotone := KeyProbe.monotone_toProbe _ _
  have hfront : m.list.InFront probe start := hm.inFront hbucket hstart
  have hhead : m.list.InFront probe head := hl.inFront_head probe
  -- each operation ends when it starts from the sentinel, and the head is as good a start
  refine ⟨?_, fun value => ?_, ?_⟩
  · obtain ⟨found, l, hlook, -⟩ := lookupAfter_spec hl hfront hp
    exact ⟨found, l, hlook, lookupAfter_congr hl hm.clean hp hfront hhead ▸ hlook⟩
  · -- to search for the pair is to search for its key
    have hprobe : Probe.ofElement (Entry.ofPair (m.table.hash key) key value) = probe :=
      KeyProbe.ofElement_ofPair _ _ value
    rw [← hprobe] at hfront hhead
    obtain ⟨ins, l, hins, -⟩ := insertAfter_spec hl hfront
    exact ⟨ins, l, hins, insertAfter_congr hl hm.clean hfront hhead ▸ hins⟩
  · obtain ⟨removed, l, hdel, -⟩ := deleteAfter_spec hl hfront hp
    exact ⟨removed, l, hdel, deleteAfter_congr hl hm.clean hp hfront hhead ▸ hdel⟩

/-- Key 7 in a table of eight buckets, started from the sentinel of the bucket that it had when there
were four: the entries of that bucket are gone, and the sentinel of bucket 7 stands between the start
and the entry. -/
theorem Reachable.from_sentinel_eq_from_head_of_earlier_bucket :
    ∃ m : TableMoment UInt64 UInt64, m.Reachable ∧ m.table.bucketCount = 8 ∧
      (3 : Bucket).toNat = (m.table.hash 7).toNat % 2 ^ 2 ∧
      m.table.directory.get 3 = .ok (some 5) ∧
      ∃ l, m.list.deleteAfter 5 (KeyProbe.ofKey (m.table.hash 7) 7).toProbe =
          .ok (some (.ofPair 7 7 20), l) ∧
        m.list.deleteAfter head (KeyProbe.ofKey (m.table.hash 7) 7).toProbe =
          .ok (some (.ofPair 7 7 20), l) := by
  let ops : List (TableOp UInt64 UInt64) :=
    [.request (.insert 0 10), .request (.insert 1 11), .request (.insert 2 12),
      .request (.insert 3 13), .request (.insert 5 15), .request (.insert 7 20),
      .request (.remove 3), .request (.contains 6)]
  have hvalues : (do
      let t ← Table.build { initialBuckets := 1, maxLoad := 1, maxBuckets := 8 } id
      let (_, s) ← TableSession.steps { table := t } ops
      let (removed, _) ← s.table.list.deleteAfter 5 (KeyProbe.ofKey 7 (7 : UInt64)).toProbe
      return (s.table.bucketCount, s.table.hash 7, ← s.table.directory.get 3, removed)) =
      .ok (8, 7, some 5, some (.ofPair 7 7 20)) := by
    decide +kernel
  obtain ⟨t, hbuild, hvalues⟩ := Checked.bind_eq_ok.mp hvalues
  obtain ⟨⟨replies, s⟩, hrun, hvalues⟩ := Checked.bind_eq_ok.mp hvalues
  obtain ⟨⟨removed, l⟩, hdel, hvalues⟩ := Checked.bind_eq_ok.mp hvalues
  obtain ⟨start, hstart, hvalues⟩ := Checked.bind_eq_ok.mp hvalues
  obtain ⟨hbuckets, hvalues⟩ := Prod.mk.inj (Except.ok.inj hvalues)
  obtain ⟨hhash, hvalues⟩ := Prod.mk.inj hvalues
  obtain ⟨rfl, rfl⟩ := Prod.mk.inj hvalues
  obtain ⟨n, hm⟩ := reachable_of_steps (s := { table := t }) hbuild hrun
  have hbucket : (3 : Bucket).toNat = (s.table.hash 7).toNat % 2 ^ 2 := by
    rw [hhash]
    rfl
  obtain ⟨-, -, removed, l', hstart', hhead⟩ := hm.from_sentinel_eq_from_head hbucket hstart
  have hdel : s.table.list.deleteAfter 5 (KeyProbe.ofKey (s.table.hash 7) 7).toProbe =
      .ok (some (.ofPair 7 7 20), l) := by
    rw [hhash]
    exact hdel
  cases hdel.symm.trans hstart'
  exact ⟨_, hm, hbuckets, hbucket, hstart, l, hdel, hhead⟩

end TableMoment

end SplitOrder
