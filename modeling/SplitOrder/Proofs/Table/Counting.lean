import Mathlib.Algebra.Group.Int.Defs
import Mathlib.Data.List.Permutation
import SplitOrder.Proofs.Table.Listing
import SplitOrder.Proofs.Table.Reachable

/-!
# The counter of a table

An insertion links its entry first and counts it afterwards, and in between the entry can be removed
and counted off. So the counter may be ahead of the entries or behind them, by what is still owed to
it. It is a word, and what is behind zero wraps around.

* `Account` — what matters to the counter, and `Account.Step` — what an effect does to it. Its
  `balance` is the number of entries, with those that are yet to be counted off and without those
  that are yet to be counted.
* `Account.Counted` — the counter stands at the balance, modulo `2 ^ 64`, and the balance is bounded
  by the number of calls. Every effect keeps that.
* `Table.StandsAt` — what follows for a counter: which of its answers are wrapped.
* `TableMoment.CarefullyReachable` — runs in which no entry is removed while all that are stored
  wait to be counted.
* `TableMoment.Reachable.counter` — hence the counter is right exactly at the moments when the
  balance is not negative, and nothing ever wraps in a run with care.
* `exists_wrapped` — that without it all of its uses may wrap.
-/

namespace SplitOrder

open SortedList

/-! ### The number of entries -/

namespace Table

variable {κ ν : Type} [Ord κ] [Std.TransOrd κ] {t t' : Table κ ν} {key : κ} {value : ν}
  {i : NodeId} {l : SortedList (Entry κ ν)}

/-- The pairs of a table, in order. -/
abbrev pairs (t : Table κ ν) : List (κ × ν) :=
  t.list.live.filterMap Entry.pair?

/-- The number of pairs that are linked and not removed. -/
def stored (t : Table κ ν) : Nat :=
  t.pairs.length

theorem Prepares.stored_eq (hprep : t.Prepares t') (h : t.Intact) (h' : t'.Intact) :
    t'.stored = t.stored := by
  refine ((List.perm_ext_iff_of_nodup (nodup_pairs h') (nodup_pairs h)).mpr ?_).length_eq
  rintro ⟨key, value⟩
  rw [mem_pairs_iff h', mem_pairs_iff h, hprep.hash_eq]
  exact exists_congr fun i => hprep.pair_iff

/-- **To link a pair is to store one more.** -/
theorem Intact.stored_links (h : t.Intact)
    (hlinks : t.list.Links (.ofPair (t.hash key) key value) i l) :
    { t with list := l }.stored = t.stored + 1 :=
  ((hlinks.live_perm h.list).filterMap Entry.pair?).length_eq

/-- **To delete a pair is to store one less.** -/
theorem Intact.stored_deletes (h : t.Intact) {e : Entry κ ν}
    (hdel : t.list.Deletes (KeyProbe.ofKey (t.hash key) key).toProbe e i l) :
    t.stored = { t with list := l }.stored + 1 := by
  -- what the search stopped at is a pair
  obtain ⟨key', value', rfl, -⟩ := KeyProbe.toProbe_eq_iff.mp hdel.sought
  exact ((hdel.live_perm h.list).filterMap Entry.pair?).length_eq

end Table

/-! ### Keeping account -/

/-- What matters to the counter. -/
structure Account where
  /-- The entries that are linked and not removed. -/
  stored : Nat
  /-- How many entries were linked and are yet to be counted. -/
  uncounted : Nat
  /-- How many entries were removed and are yet to be counted off. -/
  undiscounted : Nat
  size : UInt64
  calls : Nat

namespace Account

/-- **What an effect does to the account.** -/
inductive Step : Account → Account → Prop
  | idle {s u d n n' : Nat} {z : UInt64} (h : n ≤ n') : Step ⟨s, u, d, z, n⟩ ⟨s, u, d, z, n'⟩
  | link {s u d n : Nat} {z : UInt64} : Step ⟨s, u, d, z, n⟩ ⟨s + 1, u + 1, d, z, n + 1⟩
  | remove {s u d n : Nat} {z : UInt64} : Step ⟨s + 1, u, d, z, n⟩ ⟨s, u, d + 1, z, n + 1⟩
  | count {s u d n : Nat} {z : UInt64} : Step ⟨s, u + 1, d, z, n⟩ ⟨s, u, d, z + 1, n⟩
  | discount {s u d n : Nat} {z : UInt64} : Step ⟨s, u, d + 1, z, n⟩ ⟨s, u, d, z - 1, n⟩

/-- Where the counter would stand if it could stand below zero. -/
def balance (a : Account) : Int :=
  a.stored + a.undiscounted - a.uncounted

/-- The account with one duty more. -/
def owes (a : Account) : Duty → Account
  | .count => { a with uncounted := a.uncounted + 1 }
  | .discount => { a with undiscounted := a.undiscounted + 1 }
  | .grow _ => a

/-- **The invariant of the counter.** It stands at the balance as far as a word can, and nothing is
stored or owed that did not come from a call. -/
structure Counted (a : Account) : Prop where
  size_eq : (a.size.toNat : Int) = a.balance % 2 ^ 64
  stored_le : a.stored + a.undiscounted ≤ a.calls
  uncounted_le : a.uncounted ≤ a.calls

theorem toNat_add_one (z : UInt64) : ((z + 1).toNat : Int) = ((z.toNat : Int) + 1) % 2 ^ 64 := by
  have hone : (1 : UInt64).toNat = 1 := rfl
  rw [UInt64.toNat_add]
  omega

theorem toNat_sub_one (z : UInt64) : ((z - 1).toNat : Int) = ((z.toNat : Int) - 1) % 2 ^ 64 := by
  have hone : (1 : UInt64).toNat = 1 := rfl
  have hlt := z.toNat_lt
  rw [UInt64.toNat_sub]
  omega

variable {a a' : Account}

/-- **Step lemma.** -/
theorem Step.counted (h : a.Step a') (ha : a.Counted) : a'.Counted := by
  obtain ⟨hsize, hstored, huncounted⟩ := ha
  cases h with simp only [balance] at hsize hstored huncounted
  | idle h => exact ⟨hsize, Nat.le_trans hstored h, Nat.le_trans huncounted h⟩
  | link => refine ⟨?_, ?_, ?_⟩ <;> simp only [balance] <;> omega
  | remove => refine ⟨?_, ?_, ?_⟩ <;> simp only [balance] <;> omega
  | @count s u d n z =>
    have hraised := toNat_add_one z
    refine ⟨?_, ?_, ?_⟩ <;> simp only [balance] <;> omega
  | @discount s u d n z =>
    have hlowered := toNat_sub_one z
    refine ⟨?_, ?_, ?_⟩ <;> simp only [balance] <;> omega

theorem Step.calls_le (h : a.Step a') : a.calls ≤ a'.calls := by
  cases h with
  | idle h => exact h
  | link => exact Nat.le_succ _
  | remove => exact Nat.le_succ _
  | count => exact Nat.le_refl _
  | discount => exact Nat.le_refl _

/-- An entry that waits to be counted is stored, or another one is in its place, unless entries are
removed while all of them wait. -/
theorem Step.uncounted_le_stored (h : a.Step a')
    (hcare : a'.stored < a.stored → a.uncounted < a.stored) (ha : a.uncounted ≤ a.stored) :
    a'.uncounted ≤ a'.stored := by
  cases h with
  | idle => exact ha
  | link => exact Nat.succ_le_succ ha
  | @remove s u d n z =>
    have hlt : u < s + 1 := hcare (Nat.lt_succ_self s)
    exact Nat.le_of_lt_succ hlt
  | count => exact Nat.le_of_succ_le ha
  | discount => exact ha

theorem undiscounted_le_balance (h : a.uncounted ≤ a.stored) : a.undiscounted ≤ a.balance := by
  unfold balance
  omega

theorem Counted.bounded (ha : a.Counted) (hcalls : a.calls < 2 ^ 63) :
    -2 ^ 63 < a.balance ∧ a.balance < 2 ^ 63 := by
  have hstored := ha.stored_le
  have huncounted := ha.uncounted_le
  unfold balance
  omega

end Account

/-! ### Wrapped answers -/

namespace Table

variable {κ ν : Type} {t t' : Table κ ν} {b : Int} {size : UInt64}

/-- **A counter at a number**, as far as a word can stand at it. -/
structure StandsAt (t : Table κ ν) (b : Int) : Prop where
  size_eq : (t.size.toNat : Int) = b % 2 ^ 64
  bounded : -2 ^ 63 < b ∧ b < 2 ^ 63

theorem StandsAt.size_eq_iff (h : t.StandsAt b) : (t.size.toNat : Int) = b ↔ 0 ≤ b := by
  have hsize := h.size_eq
  have hbounded := h.bounded
  omega

/-- Counting off at zero or below wraps. -/
theorem StandsAt.countRemoval_iff (h : t.StandsAt b) :
    (t.countRemoval.size.toNat : Int) = b - 1 ↔ 0 < b := by
  have hsize := h.size_eq
  have hbounded := h.bounded
  have hlowered : (t.countRemoval.size.toNat : Int) = ((t.size.toNat : Int) - 1) % 2 ^ 64 :=
    Account.toNat_sub_one t.size
  omega

/-- Counting ends in a fault one below zero. -/
theorem StandsAt.countInsertion_eq_error_iff (h : t.StandsAt b) :
    t.countInsertion = .error (.overflow .add) ↔ b = -1 := by
  have hsize := h.size_eq
  have hbounded := h.bounded
  have hword : UInt64.size = 2 ^ 64 := rfl
  rw [countInsertion_eq]
  split
  · next hfits =>
    refine ⟨nofun, fun hb => ?_⟩
    omega
  · next hfits =>
    refine ⟨fun _ => ?_, fun _ => rfl⟩
    have hlt := t.size.toNat_lt
    omega

/-- What counting answers is wrapped below that. -/
theorem StandsAt.countInsertion_eq_ok_iff (h : t.StandsAt b) :
    (∃ size t', t.countInsertion = .ok (size, t') ∧ (size.toNat : Int) = b + 1) ↔ 0 ≤ b := by
  have hsize := h.size_eq
  have hbounded := h.bounded
  have hraised := Account.toNat_add_one t.size
  have hword : UInt64.size = 2 ^ 64 := rfl
  constructor
  · rintro ⟨size, t', hcount, heq⟩
    -- one below zero the sum would be right, but there it is not answered
    rw [countInsertion_eq] at hcount
    split at hcount
    · cases hcount
      omega
    · cases hcount
  · intro hb
    have hfits : t.size.toNat + 1 < UInt64.size := by omega
    have hanswer : ((t.size + 1).toNat : Int) = b + 1 := by omega
    exact ⟨t.size + 1, _, by rw [countInsertion_eq, if_pos hfits], hanswer⟩

end Table

namespace TableMoment

variable {κ ν : Type} [Ord κ] {m m' : TableMoment κ ν}

/-- The account at a moment. -/
def account (m : TableMoment κ ν) : Account where
  stored := m.table.stored
  uncounted := m.duties.count .count
  undiscounted := m.duties.count .discount
  size := m.table.size
  calls := m.calls

omit [Ord κ] in
theorem account_owes (t : Table κ ν) (ds ds' : List Duty) (d : Duty) (n : Nat) :
    account ⟨t, ds ++ d :: ds', n⟩ = (account ⟨t, ds ++ ds', n⟩).owes d := by
  cases d <;> simp [account, Account.owes, Nat.add_assoc]

variable [Std.TransOrd κ]

/-- An effect that leaves the pairs, the counter and what is owed as they are. -/
theorem account_step_of_prepares {t t' : Table κ ν} {ds : List Duty} {n n' : Nat}
    (hprep : t.Prepares t') (ht : t.Intact) (ht' : t'.Intact) (h : n ≤ n') :
    (account ⟨t, ds, n⟩).Step (account ⟨t', ds, n'⟩) := by
  simp only [account, hprep.stored_eq ht ht', hprep.size_eq]
  exact .idle h

/-- **An effect is entered in the account.** -/
theorem Step.accounts (h : m.Step m') (hm : m.table.Intact) : m.account.Step m'.account := by
  have hm' := (h.evolves hm).2
  cases h with
  | sentinel h => exact account_step_of_prepares (h.prepares hm).1 hm hm' (Nat.le_refl _)
  | lookup hi h =>
    exact account_step_of_prepares (hm.trims hm'.list (hm.lookups hi h).1).1 hm hm' (Nat.le_refl _)
  | @insert t ds n start key value ins l hi h =>
    have hspec := (hm.inserts hi h).1
    cases ins with
    | existing i =>
      exact account_step_of_prepares (hm.trims hm'.list hspec.1).1 hm hm' (Nat.le_succ n)
    | linked i =>
      have hstored : { t with list := l }.stored = t.stored + 1 := hm.stored_links hspec
      show (account ⟨t, ds, n⟩).Step (account ⟨_, [] ++ .count :: ds, n + 1⟩)
      rw [account_owes]
      simp only [account, hstored]
      exact .link
  | @remove t ds n start key removed l hi h =>
    have hends := (hm.deletes hi h).1
    cases removed with
    | none => exact account_step_of_prepares (hm.trims hm'.list hends.1).1 hm hm' (Nat.le_succ n)
    | some e =>
      obtain ⟨i, hdel⟩ := hends
      have hstored : t.stored = { t with list := l }.stored + 1 := hm.stored_deletes hdel
      show (account ⟨t, ds, n⟩).Step (account ⟨_, [] ++ .discount :: ds, n + 1⟩)
      rw [account_owes]
      simp only [account, hstored]
      exact .remove
  | @count t t' ds ds' n size h =>
    obtain ⟨-, rfl⟩ := Table.countInsertion_eq_ok h
    rw [account_owes, account_owes]
    exact .count
  | @overflow t ds ds' n fault h =>
    rw [account_owes]
    exact .count
  | @grow t t' ds ds' n size h =>
    obtain ⟨c, hdouble, -⟩ := Table.doubleIfFull_spec hm size
    cases hdouble.symm.trans h
    rw [account_owes]
    exact .idle (Nat.le_refl _)
  | @discount t ds ds' n =>
    rw [account_owes]
    exact .discount

omit [Std.TransOrd κ] in
/-- The number on which growing decides is one that counting answered. -/
theorem Step.grow_mem {size : UInt64} (h : m.Step m') (hgrow : .grow size ∈ m'.duties) :
    .grow size ∈ m.duties ∨
      .count ∈ m.duties ∧ ∃ t', m.table.countInsertion = .ok (size, t') := by
  cases h with
  | sentinel h => exact .inl hgrow
  | lookup hi h => exact .inl hgrow
  | @insert t ds n start key value ins l hi h =>
    cases ins with
    | existing i => exact .inl hgrow
    | linked i => exact .inl ((List.mem_cons.mp hgrow).resolve_left nofun)
  | @remove t ds n start key removed l hi h =>
    cases removed with
    | none => exact .inl hgrow
    | some e => exact .inl ((List.mem_cons.mp hgrow).resolve_left nofun)
  | @count t t' ds ds' n size' h =>
    by_cases hsize : size = size'
    · subst hsize
      exact .inr ⟨List.mem_append_right _ (List.mem_cons_self ..), t', h⟩
    · left
      simpa [hsize] using hgrow
  | @overflow t ds ds' =>
    exact .inl (((List.sublist_cons_self _ ds').append_left ds).subset hgrow)
  | @grow t t' ds ds' =>
    exact .inl (((List.sublist_cons_self _ ds').append_left ds).subset hgrow)
  | @discount t ds ds' =>
    exact .inl (((List.sublist_cons_self _ ds').append_left ds).subset hgrow)

omit [Std.TransOrd κ] in
theorem account_of_build {sizing : Sizing} {hash : κ → UInt64} {t : Table κ ν}
    (h : Table.build sizing hash = .ok t) : account ⟨t, [], 0⟩ = ⟨0, 0, 0, 0, 0⟩ := by
  obtain ⟨-, hlist, hsize⟩ := Table.intact_of_build h
  simp only [account, Table.stored, Table.pairs, hlist, hsize]
  rfl

/-- **Run lemma.** -/
theorem Reaches.counted (h : m.Reaches m') (hm : m.table.Intact) (hc : m.account.Counted) :
    m'.account.Counted := by
  induction h with
  | refl => exact hc
  | tail hreach hstep ih => exact (hstep.accounts (Reaches.evolves hreach hm).2).counted ih

theorem Reachable.counted (hm : m.Reachable) : m.account.Counted := by
  obtain ⟨sizing, hash, t, hbuild, hreach⟩ := hm
  refine hreach.counted (Table.intact_of_build hbuild).1 ?_
  rw [account_of_build hbuild]
  exact ⟨rfl, Nat.le_refl 0, Nat.le_refl 0⟩

theorem Reachable.standsAt (hm : m.Reachable) (hcalls : m.calls < 2 ^ 63) :
    m.table.StandsAt m.account.balance :=
  ⟨hm.counted.size_eq, hm.counted.bounded hcalls⟩

/-! ### Runs with care -/

/-- A step that does not remove an entry while all that are stored wait to be counted. -/
def CarefulStep (m m' : TableMoment κ ν) : Prop :=
  m.Step m' ∧ (m'.table.stored < m.table.stored → m.account.uncounted < m.table.stored)

/-- A moment of some run with care. -/
def CarefullyReachable (m : TableMoment κ ν) : Prop :=
  ∃ sizing hash t, Table.build sizing hash = .ok t ∧
    Relation.ReflTransGen CarefulStep ⟨t, [], 0⟩ m

omit [Std.TransOrd κ] in
theorem CarefullyReachable.reachable (h : m.CarefullyReachable) : m.Reachable := by
  obtain ⟨sizing, hash, t, hbuild, hreach⟩ := h
  exact ⟨sizing, hash, t, hbuild, Relation.ReflTransGen.mono (fun _ _ hstep => hstep.1) _ _ hreach⟩

/-- With care the balance is not negative. -/
theorem CarefullyReachable.uncounted_le_stored (h : m.CarefullyReachable) :
    m.account.uncounted ≤ m.account.stored := by
  obtain ⟨sizing, hash, t, hbuild, hreach⟩ := h
  -- on the run: only a removal could leave fewer entries than wait, and that is the one excluded
  induction hreach with
  | refl => exact account_of_build hbuild ▸ Nat.le_refl 0
  | tail hreach hstep ih =>
    have hm := CarefullyReachable.reachable ⟨sizing, hash, t, hbuild, hreach⟩
    exact (hstep.1.accounts hm.intact).uncounted_le_stored hstep.2 ih

/-- With care counting answers how many entries there are, and no more than there were calls. -/
theorem CarefullyReachable.countInsertion_le (h : m.CarefullyReachable) (hcalls : m.calls < 2 ^ 63)
    (hcount : .count ∈ m.duties) :
    ∃ size t', m.table.countInsertion = .ok (size, t') ∧ size.toNat ≤ m.calls := by
  have hstands := h.reachable.standsAt hcalls
  have hbalance := Account.undiscounted_le_balance h.uncounted_le_stored
  obtain ⟨size, t', hanswer, hsize⟩ := hstands.countInsertion_eq_ok_iff.mpr (by omega)
  refine ⟨size, t', hanswer, ?_⟩
  -- the entry that is to be counted is among those that are stored
  have howed : 0 < m.account.uncounted := List.count_pos_iff.mpr hcount
  have hstored : m.account.stored + m.account.undiscounted ≤ m.calls :=
    h.reachable.counted.stored_le
  unfold Account.balance at hsize
  omega

theorem CarefullyReachable.grow_le (h : m.CarefullyReachable) (hcalls : m.calls < 2 ^ 63)
    {size : UInt64} (hgrow : .grow size ∈ m.duties) : size.toNat ≤ m.calls := by
  obtain ⟨sizing, hash, t, hbuild, hreach⟩ := h
  -- on the run: the number was answered at an earlier moment, when there were no more calls
  induction hreach with
  | refl => cases hgrow
  | @tail m m' hreach hstep ih =>
    have hcareful : m.CarefullyReachable := ⟨sizing, hash, t, hbuild, hreach⟩
    have hle : m.calls ≤ m'.calls := (hstep.1.accounts hcareful.reachable.intact).calls_le
    have hcalls' : m.calls < 2 ^ 63 := Nat.lt_of_le_of_lt hle hcalls
    rcases hstep.1.grow_mem hgrow with hbefore | ⟨hcount, t', hanswer⟩
    · exact Nat.le_trans (ih hcalls' hbefore) hle
    · obtain ⟨size', t'', hanswer', hbound⟩ := hcareful.countInsertion_le hcalls' hcount
      cases hanswer.symm.trans hanswer'
      exact Nat.le_trans hbound hle

/-! ### Two runs -/

section

variable {t : Table κ ν} {ds : List Duty} {n : Nat} {key : κ} {l : SortedList (Entry κ ν)}

omit [Std.TransOrd κ] in
theorem Reachable.tail (hm : m.Reachable) (h : m.Step m') : m'.Reachable := by
  obtain ⟨sizing, hash, t, hbuild, hreach⟩ := hm
  exact ⟨sizing, hash, t, hbuild, hreach.tail h⟩

theorem Reachable.insert_head {value : ν} {ins : Insertion} (hm : Reachable ⟨t, ds, n⟩)
    (h : t.list.insertAfter head (.ofPair (t.hash key) key value) = .ok (ins, l)) :
    Reachable ⟨{ t with list := l }, ins.duties ++ ds, n + 1⟩ :=
  hm.tail (.insert (hm.intact.list.inFront_head _) h)

theorem Reachable.remove_head {removed : Option (Entry κ ν)} (hm : Reachable ⟨t, ds, n⟩)
    (h : t.list.deleteAfter head (KeyProbe.ofKey (t.hash key) key).toProbe = .ok (removed, l)) :
    Reachable ⟨{ t with list := l }, removalDuties removed ++ ds, n + 1⟩ :=
  hm.tail (.remove (hm.intact.list.inFront_head _) h)

omit [Std.TransOrd κ] in
theorem Reachable.discount_first (hm : Reachable ⟨t, .discount :: ds, n⟩) :
    Reachable ⟨t.countRemoval, ds, n⟩ :=
  have hstep : Step ⟨t, [] ++ .discount :: ds, n⟩ ⟨t.countRemoval, [] ++ ds, n⟩ := .discount
  hm.tail hstep

omit [Std.TransOrd κ] in
theorem Reachable.count_first {t' : Table κ ν} {size : UInt64} (hm : Reachable ⟨t, .count :: ds, n⟩)
    (h : t.countInsertion = .ok (size, t')) : Reachable ⟨t', .grow size :: ds, n⟩ :=
  have hstep : Step ⟨t, [] ++ .count :: ds, n⟩ ⟨t', [] ++ .grow size :: ds, n⟩ := .count h
  hm.tail hstep

end

/-- The table on which the runs below begin. Every key is its own hash. -/
theorem exists_build_two_buckets :
    ∃ d : Directory NodeId, Table.build { initialBuckets := 2, maxBuckets := 4 } id =
      .ok (⟨∅, d, 0, 2, 0, 2, 4, id⟩ : Table UInt64 UInt64) :=
  ⟨_, rfl⟩

/-- Two entries are linked and removed one after the other, and both are counted off before the
first of them is counted. -/
theorem exists_wrapped :
    ∃ m₁ m₂ m₃ : TableMoment UInt64 UInt64,
      (m₁.Reachable ∧ m₁.calls = 2 ∧ .discount ∈ m₁.duties ∧ m₁.table.size.toNat = 0) ∧
      (m₂.Reachable ∧ m₂.calls = 2 ∧ .count ∈ m₂.duties ∧
        m₂.table.countInsertion = .error (.overflow .add)) ∧
      (m₃.Reachable ∧ m₃.calls = 4 ∧ .grow (.ofNat (2 ^ 64 - 1)) ∈ m₃.duties ∧
        m₃.table.pairs = [] ∧ ∃ t', m₃.table.doubleIfFull (.ofNat (2 ^ 64 - 1)) = .ok t' ∧
          m₃.table.bucketCount < t'.bucketCount) := by
  obtain ⟨d, hbuild⟩ := exists_build_two_buckets
  have hlists : (do
      let (ins₁, l₁) ← (∅ : SortedList (Entry UInt64 UInt64)).insertAfter head (.ofPair 0 0 10)
      let (removed₁, l₂) ← l₁.deleteAfter head (KeyProbe.ofKey 0 0).toProbe
      let (ins₂, l₃) ← l₂.insertAfter head (.ofPair 0 0 11)
      let (removed₂, l₄) ← l₃.deleteAfter head (KeyProbe.ofKey 0 0).toProbe
      return (ins₁, removed₁, ins₂, removed₂, l₄.live)) =
      (.ok (.linked 1, some (.ofPair 0 0 10), .linked 2, some (.ofPair 0 0 11), []) :
        Checked _) := by cbv
  obtain ⟨⟨ins₁, l₁⟩, hins₁, hlists⟩ := Checked.bind_eq_ok.mp hlists
  obtain ⟨⟨removed₁, l₂⟩, hrem₁, hlists⟩ := Checked.bind_eq_ok.mp hlists
  obtain ⟨⟨ins₂, l₃⟩, hins₂, hlists⟩ := Checked.bind_eq_ok.mp hlists
  obtain ⟨⟨removed₂, l₄⟩, hrem₂, hlists⟩ := Checked.bind_eq_ok.mp hlists
  obtain ⟨rfl, rfl, rfl, rfl, hlive⟩ := by
    simpa only [Checked.pure_eq_ok, Except.ok.injEq, Prod.mk.injEq] using hlists
  -- the first entry is linked, removed and counted off, which takes the counter below zero
  have h₀ : Reachable ⟨⟨∅, d, 0, 2, 0, 2, 4, id⟩, [], 0⟩ := ⟨_, _, _, hbuild, .refl⟩
  have h₁ : Reachable ⟨⟨l₁, d, 0, 2, 0, 2, 4, id⟩, [.count], 1⟩ := h₀.insert_head hins₁
  have h₂ : Reachable ⟨⟨l₂, d, 0, 2, 0, 2, 4, id⟩, [.discount, .count], 2⟩ :=
    h₁.remove_head hrem₁
  have h₃ : Reachable ⟨⟨l₂, d, 0 - 1, 2, 0, 2, 4, id⟩, [.count], 2⟩ := h₂.discount_first
  -- so is the second, and then one of them is counted
  have h₄ : Reachable ⟨⟨l₃, d, 0 - 1, 2, 0, 2, 4, id⟩, [.count, .count], 3⟩ :=
    h₃.insert_head hins₂
  have h₅ : Reachable ⟨⟨l₄, d, 0 - 1, 2, 0, 2, 4, id⟩, [.discount, .count, .count], 4⟩ :=
    h₄.remove_head hrem₂
  have h₆ : Reachable ⟨⟨l₄, d, 0 - 1 - 1, 2, 0, 2, 4, id⟩, [.count, .count], 4⟩ :=
    h₅.discount_first
  have h₇ : Reachable
      ⟨⟨l₄, d, 0 - 1 - 1 + 1, 2, 0, 2, 4, id⟩, [.grow (0 - 1 - 1 + 1), .count], 4⟩ :=
    h₆.count_first rfl
  refine ⟨_, _, _, ⟨h₂, rfl, List.mem_cons_self .., rfl⟩, ⟨h₃, rfl, List.mem_cons_self .., rfl⟩,
    h₇, rfl, List.mem_cons_self .., ?_, _, rfl, ?_⟩
  · rw [Table.pairs, hlive]
    rfl
  · show (2 : UInt64) < 2 * 2
    decide

/-- With care: the entry is counted before it is removed. -/
theorem exists_carefullyReachable :
    ∃ m : TableMoment UInt64 UInt64, m.CarefullyReachable ∧ m.calls = 2 ∧
      .discount ∈ m.duties ∧ .grow 1 ∈ m.duties := by
  obtain ⟨d, hbuild⟩ := exists_build_two_buckets
  have hlists : (do
      let (ins, l₁) ← (∅ : SortedList (Entry UInt64 UInt64)).insertAfter head (.ofPair 0 0 10)
      let (removed, l₂) ← l₁.deleteAfter head (KeyProbe.ofKey 0 0).toProbe
      return (ins, removed, l₁.live)) =
      (.ok (.linked 1, some (.ofPair 0 0 10), [.ofPair 0 0 10]) : Checked _) := by cbv
  obtain ⟨⟨ins, l₁⟩, hins, hlists⟩ := Checked.bind_eq_ok.mp hlists
  obtain ⟨⟨removed, l₂⟩, hrem, hlists⟩ := Checked.bind_eq_ok.mp hlists
  obtain ⟨rfl, rfl, hlive⟩ := by
    simpa only [Checked.pure_eq_ok, Except.ok.injEq, Prod.mk.injEq] using hlists
  let t₀ : Table UInt64 UInt64 := ⟨∅, d, 0, 2, 0, 2, 4, id⟩
  let t₁ : Table UInt64 UInt64 := ⟨l₁, d, 1, 2, 0, 2, 4, id⟩
  have hstored : t₁.stored = 1 := by
    rw [Table.stored, Table.pairs, hlive]
    rfl
  have ht₀ : t₀.Intact := (Table.intact_of_build hbuild).1
  have hlink : CarefulStep ⟨t₀, [], 0⟩ ⟨{ t₀ with list := l₁ }, [.count], 1⟩ :=
    ⟨.insert (ht₀.list.inFront_head _) hins, fun hless => absurd hless (Nat.not_lt_zero _)⟩
  have hcount : CarefulStep ⟨{ t₀ with list := l₁ }, [] ++ .count :: [], 1⟩
      ⟨t₁, [] ++ .grow 1 :: [], 1⟩ := ⟨.count rfl, fun hless => absurd hless (Nat.lt_irrefl _)⟩
  have hbefore := (Relation.ReflTransGen.single hlink).tail hcount
  have ht₁ : t₁.Intact := (CarefullyReachable.reachable ⟨_, _, _, hbuild, hbefore⟩).intact
  have hremove : CarefulStep ⟨t₁, [.grow 1], 1⟩ ⟨{ t₁ with list := l₂ }, [.discount, .grow 1], 2⟩ :=
    ⟨.remove (ht₁.list.inFront_head _) hrem, fun _ => hstored ▸ Nat.zero_lt_one⟩
  exact ⟨_, ⟨_, _, _, hbuild, hbefore.tail hremove⟩, rfl, List.mem_cons_self ..,
    List.mem_cons_of_mem _ (List.mem_cons_self ..)⟩

/-! ### The counter at a moment -/

/-- **Nothing wraps.** The counter is above zero if there is an entry to be counted off, the sum
fits if there is one to be counted, and growing decides on a number of entries that there may be. -/
structure Unwrapped (m : TableMoment κ ν) : Prop where
  discount : .discount ∈ m.duties → 0 < m.table.size.toNat
  count : .count ∈ m.duties → ∃ answer, m.table.countInsertion = .ok answer
  grow : ∀ size, .grow size ∈ m.duties → size.toNat ≤ m.calls

theorem CarefullyReachable.unwrapped (h : m.CarefullyReachable) (hcalls : m.calls < 2 ^ 63) :
    m.Unwrapped where
  discount hdiscount := by
    have hbalance := Account.undiscounted_le_balance h.uncounted_le_stored
    have howed : 0 < m.account.undiscounted := List.count_pos_iff.mpr hdiscount
    have hsize := (h.reachable.standsAt hcalls).size_eq_iff.mpr (by omega)
    omega
  count hcount := by
    obtain ⟨size, t', hanswer, -⟩ := h.countInsertion_le hcalls hcount
    exact ⟨_, hanswer⟩
  grow size hgrow := h.grow_le hcalls hgrow

/-- **The counter.** At any moment of a run of fewer than `2 ^ 63` insertions and removals, whatever
the order of their effects, the counter stands at the balance. It is right where the balance is not
negative, and is lowered rightly where the balance is positive. Counting answers rightly where the
balance is not negative, ends in a fault where it is -1, and answers a wrapped number below that. If
no entry was removed while all that were stored waited to be counted, nothing ever wraps. -/
theorem Reachable.counter (hm : m.Reachable) (hcalls : m.calls < 2 ^ 63) :
    m.table.StandsAt m.account.balance ∧
      ((m.table.size.toNat : Int) = m.account.balance ↔ 0 ≤ m.account.balance) ∧
      ((m.table.countRemoval.size.toNat : Int) = m.account.balance - 1 ↔ 0 < m.account.balance) ∧
      (m.table.countInsertion = .error (.overflow .add) ↔ m.account.balance = -1) ∧
      ((∃ size t', m.table.countInsertion = .ok (size, t') ∧
        (size.toNat : Int) = m.account.balance + 1) ↔ 0 ≤ m.account.balance) ∧
      (m.CarefullyReachable → m.Unwrapped) :=
  have hstands := hm.standsAt hcalls
  ⟨hstands, hstands.size_eq_iff, hstands.countRemoval_iff, hstands.countInsertion_eq_error_iff,
    hstands.countInsertion_eq_ok_iff, fun hcareful => hcareful.unwrapped hcalls⟩

/-- What the theorem says where the one entry was removed before it was counted, and where it was
counted before. -/
theorem Reachable.counter_of_early_removal :
    ∃ m m' : TableMoment UInt64 UInt64,
      (m.Reachable ∧ .count ∈ m.duties ∧ m.account.balance = -1 ∧ m.table.StandsAt (-1)) ∧
      (m'.CarefullyReachable ∧ .discount ∈ m'.duties ∧ m'.Unwrapped) := by
  obtain ⟨-, m, -, -, ⟨hm, hcalls, hcount, herror⟩, -⟩ := exists_wrapped
  obtain ⟨m', hcareful, hcalls', hdiscount, -⟩ := exists_carefullyReachable
  obtain ⟨hstands, -, -, hiff, -⟩ := hm.counter (by rw [hcalls]; decide)
  obtain ⟨-, -, -, -, -, hunwrapped⟩ := hcareful.reachable.counter (by rw [hcalls']; decide)
  have hbalance := hiff.mp herror
  exact ⟨m, m', ⟨hm, hcount, hbalance, hbalance ▸ hstands⟩, hcareful, hdiscount,
    hunwrapped hcareful⟩

/-- **The counter may wrap.** Of what is to hold at every moment nothing does. -/
theorem not_unwrapped_of_reachable :
    (¬ ∀ m : TableMoment UInt64 UInt64, m.Reachable → m.calls < 2 ^ 63 →
      .discount ∈ m.duties → 0 < m.table.size.toNat) ∧
    (¬ ∀ m : TableMoment UInt64 UInt64, m.Reachable → m.calls < 2 ^ 63 →
      .count ∈ m.duties → ∃ answer, m.table.countInsertion = .ok answer) ∧
    (¬ ∀ m : TableMoment UInt64 UInt64, m.Reachable → m.calls < 2 ^ 63 →
      ∀ size, .grow size ∈ m.duties → size.toNat ≤ m.calls) := by
  obtain ⟨m₁, m₂, m₃, ⟨hm₁, hcalls₁, hdiscount, hsize⟩, ⟨hm₂, hcalls₂, hcount, herror⟩,
    hm₃, hcalls₃, hgrow, -⟩ := exists_wrapped
  refine ⟨fun hall => ?_, fun hall => ?_, fun hall => ?_⟩
  · have hpos := hall m₁ hm₁ (by rw [hcalls₁]; decide) hdiscount
    rw [hsize] at hpos
    exact absurd hpos (Nat.lt_irrefl 0)
  · obtain ⟨answer, hanswer⟩ := hall m₂ hm₂ (by rw [hcalls₂]; decide) hcount
    cases herror.symm.trans hanswer
  · have hle := hall m₃ hm₃ (by rw [hcalls₃]; decide) _ hgrow
    rw [hcalls₃] at hle
    exact absurd hle (by decide)

end TableMoment

end SplitOrder
