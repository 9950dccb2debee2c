import Mathlib.Data.List.Forall2
import SplitOrder.Proofs.Table.Contents
import SplitOrder.Table.Session

/-!
# Tables as finite maps

Whoever uses a table sees a finite map. What a map does is given by `Std.TreeMap`; neither the hash
function nor the sizing has a part in it.

* `MapOp` — the operations that a map has, with those that have others nested in them, and their
  meaning on a map (`MapOp.step`, `steps`).
* `TableReply.Agrees` — replies that say the same. A table lists its entries in split order, so two
  listings say the same if one is a permutation of the other.
* `MapOp.AllFit` — no insertion makes the map larger than the counter of a table can tell.
* `step_refines`, `steps_refines` — the simulation: an operation on a table that represents a map
  succeeds, replies what it replies on the map, and leaves a table that represents the map left.
-/

namespace SplitOrder

open Std (TreeMap)
open SortedList

/-- What can be asked of a finite map. -/
inductive MapOp (κ ν : Type) where
  | insert (key : κ) (value : ν)
  | remove (key : κ)
  | delete (key : κ)
  | contains (key : κ)
  /-- A reference to the value. -/
  | reference (key : κ)
  /-- The value itself. -/
  | get (key : κ)
  /-- The stored key with its value. -/
  | find (key : κ)
  | size
  | isEmpty
  | toList
  /-- A look at a stored entry with others run meanwhile. -/
  | applyWith (key : κ) (nested : List (MapOp κ ν))

namespace MapOp

variable {κ ν : Type}

mutual

/-- The same on a table. -/
def onTable : MapOp κ ν → TableOp κ ν
  | .insert key value => .request (.insert key value)
  | .remove key => .request (.remove key)
  | .delete key => .request (.delete key)
  | .contains key => .request (.contains key)
  | .reference key => .request (.reference key)
  | .get key => .request (.get key)
  | .find key => .request (.find key)
  | .size => .request .size
  | .isEmpty => .request .isEmpty
  | .toList => .request .toList
  | .applyWith key nested => .applyWith key (allOnTable nested)

/-- A sequence of operations on a table. -/
def allOnTable : List (MapOp κ ν) → List (TableOp κ ν)
  | [] => []
  | op :: ops => onTable op :: allOnTable ops

end

variable [Ord κ]

mutual

/-- What an operation replies and leaves. -/
def step (m : TreeMap κ ν) : MapOp κ ν → TableReply κ ν × TreeMap κ ν
  | .insert key value => (.flag (!m.contains key), m.insertIfNew key value)
  | .remove key => (m[key]?.elim .nothing .value, m.erase key)
  | .delete key => (.flag (m.contains key), m.erase key)
  | .contains key => (.flag (m.contains key), m)
  | .reference key => (m[key]?.elim .nothing .reference, m)
  | .get key => (m[key]?.elim .nothing .value, m)
  | .find key => (.ofPair? (stored? m key), m)
  | .size => (.number m.size, m)
  | .isEmpty => (.flag m.isEmpty, m)
  | .toList => (.entries m.toList, m)
  | .applyWith key nested =>
    match stored? m key with
    | none => (.nothing, m)
    | some (k, v) =>
      let (replies, m) := steps m nested
      (.application k v replies, m)

/-- What a sequence of operations replies and leaves. -/
def steps (m : TreeMap κ ν) : List (MapOp κ ν) → List (TableReply κ ν) × TreeMap κ ν
  | [] => ([], m)
  | op :: ops =>
    let (reply, m) := step m op
    let (replies, m) := steps m ops
    (reply :: replies, m)

end

mutual

/-- The operation never makes the map hold `2 ^ 64` entries. -/
def Fits (m : TreeMap κ ν) : MapOp κ ν → Prop
  | .insert key value => (m.insertIfNew key value).size < 2 ^ 64
  | .applyWith key nested => m.contains key → AllFit m nested
  | _ => True

/-- The operations never make the map hold `2 ^ 64` entries. -/
def AllFit (m : TreeMap κ ν) : List (MapOp κ ν) → Prop
  | [] => True
  | op :: ops => Fits m op ∧ AllFit (step m op).2 ops

end

end MapOp

/-- Replies that say the same. -/
inductive TableReply.Agrees {κ ν : Type} : TableReply κ ν → TableReply κ ν → Prop
  | same (reply : TableReply κ ν) : Agrees reply reply
  /-- The same entries, each as often. -/
  | entries {as bs : List (κ × ν)} (h : as.Perm bs) : Agrees (.entries as) (.entries bs)
  | application {key : κ} {value : ν} {replies replies' : List (TableReply κ ν)}
      (h : List.Forall₂ Agrees replies replies') :
      Agrees (.application key value replies) (.application key value replies')

namespace TableSession

variable {κ ν ρ : Type} [Ord κ] {s : TableSession κ ν} {m : TreeMap κ ν}

/-- An operation on the table ends with a reply that agrees with the one expected, and leaves a
table that represents the map expected. -/
def Refines (agrees : ρ → ρ → Prop) (outcome : Checked (ρ × TableSession κ ν))
    (expected : ρ × TreeMap κ ν) : Prop :=
  ∃ reply s, outcome = .ok (reply, s) ∧ agrees reply expected.1 ∧ s.table.Represents expected.2

theorem refines_onTable {operation : Table κ ν → Checked (ρ × Table κ ν)} {x : ρ}
    {t : Table κ ν} {reply : ρ → TableReply κ ν} {expected : TableReply κ ν × TreeMap κ ν}
    (hop : operation s.table = .ok (x, t)) (hreply : reply x = expected.1)
    (hrep : t.Represents expected.2) :
    Refines TableReply.Agrees (s.onTable operation reply) expected := by
  refine ⟨reply x, { s with table := t }, ?_, hreply ▸ .same _, hrep⟩
  rw [onTable, hop]
  rfl

/-- Sorted by key or not, a listing shows the entries of the map. -/
theorem exists_listing [Std.TransOrd κ] (h : s.table.Represents m) :
    ∃ entries, s.listing = .ok entries ∧ entries.Perm m.toList := by
  obtain ⟨entries, hlist, hperm⟩ := h.exists_toList
  rw [listing, hlist, Checked.ok_bind]
  split
  · exact ⟨entries, rfl, hperm⟩
  · exact ⟨_, rfl, (List.mergeSort_perm ..).trans hperm⟩

variable [Numbered κ] [Numbered ν] [Text.Legible κ] [Text.Legible ν]

mutual

/-- **Step lemma.** -/
theorem step_refines [Std.TransOrd κ] (s : TableSession κ ν) (m : TreeMap κ ν)
    (h : s.table.Represents m) :
    ∀ op : MapOp κ ν, op.Fits m → Refines TableReply.Agrees (s.step op.onTable) (op.step m)
  | .insert key value, hfits => by
    obtain ⟨t, hins, ht⟩ := h.insert key value hfits
    simp only [MapOp.onTable, step, answer, MapOp.step]
    exact refines_onTable hins rfl ht
  | .remove key, _ => by
    obtain ⟨t, hrem, ht⟩ := h.remove key
    simp only [MapOp.onTable, step, answer, MapOp.step]
    exact refines_onTable hrem rfl ht
  | .delete key, _ => by
    obtain ⟨t, hdel, ht⟩ := h.delete key
    simp only [MapOp.onTable, step, answer, MapOp.step]
    exact refines_onTable hdel rfl ht
  | .contains key, _ => by
    obtain ⟨t, hcon, ht⟩ := h.contains key
    simp only [MapOp.onTable, step, answer, MapOp.step]
    exact refines_onTable hcon rfl ht
  | .reference key, _ => by
    obtain ⟨t, hget, ht⟩ := h.get key
    simp only [MapOp.onTable, step, answer, MapOp.step]
    exact refines_onTable hget rfl ht
  | .get key, _ => by
    obtain ⟨t, hget, ht⟩ := h.get key
    simp only [MapOp.onTable, step, answer, MapOp.step]
    exact refines_onTable hget rfl ht
  | .find key, _ => by
    obtain ⟨t, hfind, ht⟩ := h.find key
    simp only [MapOp.onTable, step, answer, MapOp.step]
    exact refines_onTable hfind rfl ht
  | .size, _ => by
    simp only [MapOp.onTable, step, answer, MapOp.step]
    exact ⟨_, s, rfl, h.size_eq ▸ .same _, h⟩
  | .isEmpty, _ => by
    simp only [MapOp.onTable, step, answer, MapOp.step]
    exact ⟨_, s, rfl, h.isEmpty_eq ▸ .same _, h⟩
  | .toList, _ => by
    obtain ⟨entries, hlist, hperm⟩ := exists_listing h
    simp only [MapOp.onTable, step, answer, MapOp.step]
    exact ⟨.entries entries, s, by rw [hlist]; rfl, .entries hperm, h⟩
  | .applyWith key nested, hfits => by
    obtain ⟨t, hfind, ht⟩ := h.find key
    simp only [MapOp.onTable, step, MapOp.step, hfind, Checked.ok_bind]
    cases hstored : stored? m key with
    | none => exact ⟨.nothing, { s with table := t }, rfl, .same _, ht⟩
    | some e =>
      -- the nested operations run, so they are among those that fit
      have hcontains : m.contains key = true := by
        rw [contains_eq_isSome_stored?, hstored]
        rfl
      obtain ⟨replies, s', hsteps, hagree, hs'⟩ :=
        steps_refines { s with table := t } m ht nested (hfits hcontains)
      refine ⟨.application e.1 e.2 replies, s', ?_, .application hagree, hs'⟩
      simp only [hsteps, Checked.ok_bind]
      rfl

/-- **Run lemma.** -/
theorem steps_refines [Std.TransOrd κ] (s : TableSession κ ν) (m : TreeMap κ ν)
    (h : s.table.Represents m) :
    ∀ ops : List (MapOp κ ν), MapOp.AllFit m ops →
      Refines (List.Forall₂ TableReply.Agrees) (s.steps (MapOp.allOnTable ops)) (MapOp.steps m ops)
  | [], _ => ⟨[], s, rfl, .nil, h⟩
  | op :: ops, hfits => by
    obtain ⟨reply, t, hstep, hagree, ht⟩ := step_refines s m h op hfits.1
    obtain ⟨replies, u, hsteps, hagrees, hu⟩ := steps_refines t (op.step m).2 ht ops hfits.2
    refine ⟨reply :: replies, u, ?_, .cons hagree hagrees, hu⟩
    rw [MapOp.allOnTable, steps, hstep]
    simp only [Checked.ok_bind, hsteps]
    rfl

end

/-- **A table is a finite map.** For every sizing without a flaw and every hash function that tells
no equal keys apart, any run on a new table replies what it replies on a map, and the table lists
the entries of that map in the end. -/
theorem replies_agree_treeMap [Std.TransOrd κ] {sizing : Sizing} (hsizing : sizing.check = .ok ())
    {hash : κ → UInt64} (respects : ∀ a b, compare a b = .eq → hash a = hash b)
    (protection : Protection) (hashKnown : Bool) {ops : List (MapOp κ ν)}
    (hfits : MapOp.AllFit ∅ ops) :
    ∃ t : Table κ ν, Table.build sizing hash = .ok t ∧
      ∃ replies s, steps { table := t, protection, hashKnown } (MapOp.allOnTable ops) =
          .ok (replies, s) ∧
        List.Forall₂ TableReply.Agrees replies (MapOp.steps ∅ ops).1 ∧
        ∃ entries, s.table.toList = .ok entries ∧ entries.Perm (MapOp.steps ∅ ops).2.toList := by
  obtain ⟨t, hbuild, ht⟩ := Table.exists_build (ν := ν) hsizing respects
  obtain ⟨replies, s, hsteps, hagree, hs⟩ :=
    steps_refines { table := t, protection, hashKnown } ∅ ht ops hfits
  exact ⟨t, hbuild, replies, s, hsteps, hagree, hs.exists_toList⟩

/-- Keys that share their hash in pairs, in a table that starts with one bucket and has to grow. -/
theorem replies_agree_treeMap_of_shared_hashes :
    let ops : List (MapOp UInt64 UInt64) :=
      [.insert 1 10, .insert 0 20, .insert 1 30, .insert 6 40, .remove 0,
        .applyWith 1 [.delete 1, .insert 7 50, .find 1], .get 7, .toList]
    ∃ t : Table UInt64 UInt64,
      Table.build { initialBuckets := 1, maxLoad := 1, maxBuckets := 4 } (· / 2) = .ok t ∧
      ∃ replies s, steps { table := t, protection := .epoch, hashKnown := false }
            (MapOp.allOnTable ops) = .ok (replies, s) ∧
        List.Forall₂ TableReply.Agrees replies (MapOp.steps ∅ ops).1 ∧
        ∃ entries, s.table.toList = .ok entries ∧ entries.Perm (MapOp.steps ∅ ops).2.toList := by
  intro ops
  have hfits : MapOp.AllFit ∅ ops := by
    simp only [ops, MapOp.AllFit, MapOp.Fits, MapOp.step, and_true, true_and]
    refine ⟨?_, ?_, ?_, ?_, ?_⟩
    all_goals decide
  refine replies_agree_treeMap (by decide) (fun a b h => ?_) .epoch false hfits
  rw [Std.LawfulEqCmp.eq_of_compare h]

end TableSession

end SplitOrder
