import SplitOrder.Proofs.Table.Intact

/-!
# Tables at work

A run of any number of clients on one table, effect by effect. An operation changes the list by one
effect and the counters by others, and in between the rest of them gets its turn. So at a moment
there are operations that have changed the list and still owe something to the counters: their
duties. Each duty may be done next, in any order.

* `TableMoment` — a moment: the table, what is still owed, and how many calls there were.
* `TableMoment.Step` — the effects, each with what makes it safe: it starts from a sentinel that
  guards its bucket or from any live node in front of its key.
* `Step.evolves` — an effect does to the list what may be done, and keeps the table intact.
* `reaches_insert`, `reaches_removeEntry`, `reaches_lookup` — the operations of a table are
  sequences of these effects, so whatever holds at every moment holds before and after each of them.
-/

namespace SplitOrder

open SortedList

/-- What an operation owes to the counters after it has changed the list. -/
inductive Duty where
  /-- To count the entry that was linked. -/
  | count
  /-- To double the number of buckets if so many entries are too many for them. -/
  | grow (size : UInt64)
  /-- To count off the entry that was removed. -/
  | discount
deriving DecidableEq, Repr

/-- A linked entry is to be counted. -/
def Insertion.duties : Insertion → List Duty
  | .linked _ => [.count]
  | .existing _ => []

/-- A removed entry is to be counted off. -/
def removalDuties {ε : Type} : Option ε → List Duty
  | some _ => [.discount]
  | none => []

/-- A moment of a run. -/
structure TableMoment (κ ν : Type) where
  table : Table κ ν
  /-- What the operations at work still owe. -/
  duties : List Duty := []
  /-- The number of insertions and removals that have had their effect on the list. -/
  calls : Nat := 0

namespace TableMoment

variable {κ ν : Type}

/-- The list at a moment. -/
abbrev list (m : TableMoment κ ν) : SortedList (Entry κ ν) :=
  m.table.list

variable [Ord κ]

/-- **What may happen next.** -/
inductive Step : TableMoment κ ν → TableMoment κ ν → Prop
  | sentinel {t t' : Table κ ν} {ds : List Duty} {n : Nat} (h : t.SentinelEffect t') :
      Step ⟨t, ds, n⟩ ⟨t', ds, n⟩
  | lookup {t : Table κ ν} {ds : List Duty} {n : Nat} {start : NodeId} {key : κ}
      {found : Option NodeId} {l : SortedList (Entry κ ν)}
      (hi : t.list.InFront (KeyProbe.ofKey (t.hash key) key).toProbe start)
      (h : t.list.lookupAfter start (KeyProbe.ofKey (t.hash key) key).toProbe = .ok (found, l)) :
      Step ⟨t, ds, n⟩ ⟨{ t with list := l }, ds, n⟩
  | insert {t : Table κ ν} {ds : List Duty} {n : Nat} {start : NodeId} {key : κ} {value : ν}
      {ins : Insertion} {l : SortedList (Entry κ ν)}
      (hi : t.list.InFront (KeyProbe.ofKey (t.hash key) key).toProbe start)
      (h : t.list.insertAfter start (.ofPair (t.hash key) key value) = .ok (ins, l)) :
      Step ⟨t, ds, n⟩ ⟨{ t with list := l }, ins.duties ++ ds, n + 1⟩
  | remove {t : Table κ ν} {ds : List Duty} {n : Nat} {start : NodeId} {key : κ}
      {removed : Option (Entry κ ν)} {l : SortedList (Entry κ ν)}
      (hi : t.list.InFront (KeyProbe.ofKey (t.hash key) key).toProbe start)
      (h : t.list.deleteAfter start (KeyProbe.ofKey (t.hash key) key).toProbe = .ok (removed, l)) :
      Step ⟨t, ds, n⟩ ⟨{ t with list := l }, removalDuties removed ++ ds, n + 1⟩
  | count {t t' : Table κ ν} {ds ds' : List Duty} {n : Nat} {size : UInt64}
      (h : t.countInsertion = .ok (size, t')) :
      Step ⟨t, ds ++ .count :: ds', n⟩ ⟨t', ds ++ .grow size :: ds', n⟩
  /-- The counter is raised before the sum is looked at, so it is raised also where the sum does not
  fit. The insertion ends there. -/
  | overflow {t : Table κ ν} {ds ds' : List Duty} {n : Nat} {fault : Fault}
      (h : t.countInsertion = .error fault) :
      Step ⟨t, ds ++ .count :: ds', n⟩ ⟨{ t with size := t.size + 1 }, ds ++ ds', n⟩
  | grow {t t' : Table κ ν} {ds ds' : List Duty} {n : Nat} {size : UInt64}
      (h : t.doubleIfFull size = .ok t') :
      Step ⟨t, ds ++ .grow size :: ds', n⟩ ⟨t', ds ++ ds', n⟩
  | discount {t : Table κ ν} {ds ds' : List Duty} {n : Nat} :
      Step ⟨t, ds ++ .discount :: ds', n⟩ ⟨t.countRemoval, ds ++ ds', n⟩

/-- Any number of effects. -/
abbrev Reaches : TableMoment κ ν → TableMoment κ ν → Prop :=
  Relation.ReflTransGen Step

/-- A moment of some run on a table that was empty in the beginning. -/
def Reachable (m : TableMoment κ ν) : Prop :=
  ∃ sizing hash t, Table.build sizing hash = .ok t ∧ Reaches ⟨t, [], 0⟩ m

end TableMoment

namespace Table

variable {κ ν : Type} [Ord κ] {t t' : Table κ ν} {key : κ} {value : ν} {start : NodeId}
  {l : SortedList (Entry κ ν)}

/-- A table that was built is intact and empty. -/
theorem intact_of_build {sizing : Sizing} {hash : κ → UInt64}
    (h : Table.build sizing hash = .ok t) : t.Intact ∧ t.list = ∅ ∧ t.size = 0 := by
  obtain ⟨u, hcheck, -⟩ := Checked.bind_eq_ok.mp h
  obtain ⟨t₀, hbuild, hintact, hlist, hsize, -⟩ := exists_intact_build (ν := ν) hcheck hash
  cases hbuild.symm.trans h
  exact ⟨hintact, hlist, hsize⟩

omit [Ord κ] in
theorem countInsertion_eq (t : Table κ ν) : t.countInsertion =
    if t.size.toNat + 1 < UInt64.size then .ok (t.size + 1, { t with size := t.size + 1 })
    else .error (.overflow .add) := by
  have hone : (1 : UInt64).toNat = 1 := rfl
  rw [countInsertion, Word.checkedAdd, hone]
  split <;> rfl

omit [Ord κ] in
theorem countInsertion_eq_ok {size : UInt64} (h : t.countInsertion = .ok (size, t')) :
    size = t.size + 1 ∧ t' = { t with size := t.size + 1 } := by
  rw [countInsertion_eq] at h
  split at h
  · cases h
    exact ⟨rfl, rfl⟩
  · cases h

variable [Std.TransOrd κ]

theorem SentinelEffect.prepares (h : t.SentinelEffect t') (ht : t.Intact) :
    t.Prepares t' ∧ t'.Intact := by
  cases h with
  | link hne hlt hparent h =>
    obtain ⟨node, t₁, hlink, hprep, h₁, -⟩ := linkSentinel_spec ht hne hlt hparent
    cases hlink.symm.trans h
    exact ⟨hprep, h₁⟩
  | register hlt hnode h =>
    obtain ⟨winner, t₁, hregister, hprep, h₁, -⟩ := registerSentinel_spec ht hlt hnode
    cases hregister.symm.trans h
    exact ⟨hprep, h₁⟩

/-- An insertion of a pair from a node in front of its key. -/
theorem Intact.inserts (ht : t.Intact) {ins : Insertion}
    (hi : t.list.InFront (KeyProbe.ofKey (t.hash key) key).toProbe start)
    (h : t.list.insertAfter start (.ofPair (t.hash key) key value) = .ok (ins, l)) :
    t.list.Inserts (.ofPair (t.hash key) key value) ins l ∧ { t with list := l }.Intact := by
  rw [← KeyProbe.ofElement_ofPair _ _ value] at hi
  obtain ⟨ins', l', hins, hspec⟩ := insertAfter_spec ht.list hi
  cases hins.symm.trans h
  have hl : l.Sound := (ht.list.evolves hspec.evolves).1
  cases ins with
  | linked i => exact ⟨hspec, ht.links hl hspec⟩
  | existing i => exact ⟨hspec, (ht.trims hl hspec.1).2⟩

/-- A removal of a pair from a node in front of its key. -/
theorem Intact.deletes (ht : t.Intact) {removed : Option (Entry κ ν)}
    (hi : t.list.InFront (KeyProbe.ofKey (t.hash key) key).toProbe start)
    (h : t.list.deleteAfter start (KeyProbe.ofKey (t.hash key) key).toProbe = .ok (removed, l)) :
    t.list.DeletionEnds (KeyProbe.ofKey (t.hash key) key).toProbe removed l ∧
      { t with list := l }.Intact := by
  have hmono := KeyProbe.monotone_toProbe (ν := ν) (t.hash key) key
  obtain ⟨removed', l', hdel, hends⟩ := deleteAfter_spec ht.list hi hmono
  cases hdel.symm.trans h
  have hl : l.Sound := (ht.list.evolves hends.evolves).1
  exact ⟨hends, ht.removes hl (hends.removes ht.list hmono)⟩

theorem Intact.lookups (ht : t.Intact) {found : Option NodeId}
    (hi : t.list.InFront (KeyProbe.ofKey (t.hash key) key).toProbe start)
    (h : t.list.lookupAfter start (KeyProbe.ofKey (t.hash key) key).toProbe = .ok (found, l)) :
    t.list.Trims l ∧ { t with list := l }.Intact := by
  obtain ⟨found', l', hlook, htrims, -⟩ :=
    lookupAfter_spec ht.list hi (KeyProbe.monotone_toProbe (t.hash key) key)
  cases hlook.symm.trans h
  exact ⟨htrims, (ht.trims (ht.list.evolves htrims.evolves).1 htrims).2⟩

end Table

namespace TableMoment

variable {κ ν : Type} [Ord κ] {m m' : TableMoment κ ν} {t t' : Table κ ν} {ds : List Duty}
  {n : Nat}

theorem Reaches.of_obtains (h : t.Obtains t') : Reaches ⟨t, ds, n⟩ ⟨t', ds, n⟩ := by
  induction h with
  | refl => exact .refl
  | tail _ heffect ih => exact ih.tail (.sentinel heffect)

variable [Std.TransOrd κ]

/-- **Step lemma.** -/
theorem Step.evolves (h : m.Step m') (hm : m.table.Intact) :
    m.list.Evolves m'.list ∧ m'.table.Intact := by
  cases h with
  | sentinel h =>
    obtain ⟨hprep, h'⟩ := h.prepares hm
    exact ⟨hprep.evolves, h'⟩
  | lookup hi h =>
    obtain ⟨htrims, h'⟩ := hm.lookups hi h
    exact ⟨htrims.evolves, h'⟩
  | insert hi h =>
    obtain ⟨hspec, h'⟩ := hm.inserts hi h
    exact ⟨hspec.evolves, h'⟩
  | remove hi h =>
    obtain ⟨hends, h'⟩ := hm.deletes hi h
    exact ⟨hends.evolves, h'⟩
  | count h =>
    obtain ⟨-, rfl⟩ := Table.countInsertion_eq_ok h
    exact ⟨.refl, hm.with_size _⟩
  | overflow h => exact ⟨.refl, hm.with_size _⟩
  | @grow t t' ds ds' n size h =>
    obtain ⟨c, hdouble, h'⟩ := Table.doubleIfFull_spec hm size
    cases hdouble.symm.trans h
    exact ⟨.refl, h'⟩
  | discount => exact ⟨.refl, hm.with_size _⟩

/-- **Run lemma.** -/
theorem Reaches.evolves (h : m.Reaches m') (hm : m.table.Intact) :
    m.list.Evolves m'.list ∧ m'.table.Intact := by
  induction h with
  | refl => exact ⟨.refl, hm⟩
  | tail _ hstep ih =>
    obtain ⟨he, hintact⟩ := hstep.evolves ih.2
    exact ⟨ih.1.trans he, hintact⟩

theorem Reachable.intact (h : m.Reachable) : m.table.Intact := by
  obtain ⟨sizing, hash, t, hbuild, h⟩ := h
  exact (h.evolves (Table.intact_of_build hbuild).1).2

/-! ### The operations of a table -/

/-- Every operation on a key begins at a sentinel in front of it, which may have to be obtained. -/
theorem exists_start (ds : List Duty) (n : Nat) (ht : t.Intact) (key : κ) :
    ∃ start t₁, t.sentinelOfHash (t.hash key) = .ok (start, t₁) ∧
      Reaches ⟨t, ds, n⟩ ⟨t₁, ds, n⟩ ∧ t₁.hash = t.hash ∧
      t₁.list.InFront (KeyProbe.ofKey (t₁.hash key) key).toProbe start := by
  obtain ⟨start, t₁, hstart, hobtains, hprep, -, hfront⟩ :=
    Table.sentinelOfHash_spec ht (t.hash key)
  exact ⟨start, t₁, hstart, .of_obtains hobtains, hprep.hash_eq, hprep.hash_eq ▸ hfront key⟩

/-- **An insertion is a run**: the sentinel of the bucket, the entry, and then the counters. -/
theorem reaches_insert {key : κ} {value : ν} {b : Bool} (ht : t.Intact)
    (h : t.insert key value = .ok (b, t')) : Reaches ⟨t, ds, n⟩ ⟨t', ds, n + 1⟩ := by
  obtain ⟨start, t₁, hstart, hreach, hhash, hfront⟩ := exists_start ds n ht key
  rw [Table.insert] at h
  simp only [hstart, Checked.ok_bind] at h
  rw [← hhash] at h
  obtain ⟨⟨ins, l⟩, hins, h⟩ := Checked.bind_eq_ok.mp h
  have hfirst : Reaches ⟨t, ds, n⟩ ⟨{ t₁ with list := l }, ins.duties ++ ds, n + 1⟩ :=
    hreach.tail (.insert hfront hins)
  cases ins with
  | existing i =>
    cases h
    exact hfirst
  | linked i =>
    obtain ⟨⟨size, t₂⟩, hcount, h⟩ := Checked.bind_eq_ok.mp h
    obtain ⟨t₃, hgrow, h⟩ := Checked.bind_eq_ok.mp h
    cases h
    have hcounted : Step ⟨{ t₁ with list := l }, [] ++ .count :: ds, n + 1⟩
        ⟨t₂, [] ++ .grow size :: ds, n + 1⟩ := .count hcount
    have hgrown : Step ⟨t₂, [] ++ .grow size :: ds, n + 1⟩ ⟨t', [] ++ ds, n + 1⟩ := .grow hgrow
    exact (hfirst.tail hcounted).tail hgrown

/-- **A removal is a run.** -/
theorem reaches_removeEntry {key : κ} {entry : Option (Entry κ ν)} (ht : t.Intact)
    (h : t.removeEntry key = .ok (entry, t')) : Reaches ⟨t, ds, n⟩ ⟨t', ds, n + 1⟩ := by
  obtain ⟨start, t₁, hstart, hreach, hhash, hfront⟩ := exists_start ds n ht key
  rw [Table.removeEntry_eq] at h
  simp only [hstart, Checked.ok_bind] at h
  rw [← hhash] at h
  obtain ⟨⟨removed, l⟩, hdel, h⟩ := Checked.bind_eq_ok.mp h
  have hfirst : Reaches ⟨t, ds, n⟩ ⟨{ t₁ with list := l }, removalDuties removed ++ ds, n + 1⟩ :=
    hreach.tail (.remove hfront hdel)
  cases removed with
  | none =>
    cases h
    exact hfirst
  | some e =>
    cases h
    have hlast : Step ⟨{ t₁ with list := l }, [] ++ .discount :: ds, n + 1⟩
        ⟨Table.countRemoval { t₁ with list := l }, [] ++ ds, n + 1⟩ := .discount
    exact hfirst.tail hlast

/-- **A lookup is a run.** -/
theorem reaches_lookup {key : κ} {found : Option NodeId} (ht : t.Intact)
    (h : t.lookup key = .ok (found, t')) : Reaches ⟨t, ds, n⟩ ⟨t', ds, n⟩ := by
  obtain ⟨start, t₁, hstart, hreach, hhash, hfront⟩ := exists_start ds n ht key
  rw [Table.lookup_eq] at h
  simp only [hstart, Checked.ok_bind] at h
  rw [← hhash] at h
  obtain ⟨⟨found', l⟩, hlook, h⟩ := Checked.bind_eq_ok.mp h
  cases h
  exact hreach.tail (.lookup hfront hlook)

end TableMoment

end SplitOrder
