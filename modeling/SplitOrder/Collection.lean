import SplitOrder.List.Update
import SplitOrder.List.Listing

/-!
# Collections of keys

What sorted lists and key sets have in common, and the operations on many keys that follow from
it. Each of these is a sequence of operations on single keys, in order.

* `KeyCollection` — insertion, deletion, membership, size and a listing.
* `KeyCollection.insertMany`, `deleteMany`, `retainOnly`, `containsMany`, `clear`.
* `BulkRequest` — these operations as data.
-/

namespace SplitOrder

/-- Types whose values hold keys. An operation answers with the collection that it leaves. -/
class KeyCollection (σ : Type _) (κ : outParam (Type _)) where
  /-- Inserts a key and answers whether it was new. -/
  insert : σ → κ → Checked (Bool × σ)
  /-- Deletes a key and answers whether it was there. -/
  delete : σ → κ → Checked (Bool × σ)
  contains : σ → κ → Checked (Bool × σ)
  length : σ → Checked Nat
  /-- The keys, in the order of the collection. -/
  toList : σ → Checked (List κ)

instance [Ord α] : KeyCollection (SortedList α) α where
  insert := SortedList.insert
  delete := SortedList.delete
  contains := SortedList.contains
  length := SortedList.length
  toList := SortedList.toList

namespace KeyCollection

variable {σ κ : Type _} [KeyCollection σ κ]

def isEmpty (s : σ) : Checked Bool := do
  return (← length s) == 0

/-- Inserts all keys and answers whether one of them was new. -/
def insertMany (s : σ) (keys : List κ) : Checked (Bool × σ) := do
  let (count, s) ← Checked.countTrue insert s keys
  return (count != 0, s)

/-- Deletes all keys and answers whether one of them was there. -/
def deleteMany (s : σ) (keys : List κ) : Checked (Bool × σ) := do
  let (count, s) ← Checked.countTrue delete s keys
  return (count != 0, s)

/-- Whether all keys are there. The first one that is not settles the answer. -/
def containsMany (s : σ) : List κ → Checked (Bool × σ)
  | [] => .ok (true, s)
  | k :: ks => do
    match ← contains s k with
    | (true, s) => containsMany s ks
    | (false, s) => return (false, s)

/-- Deletes every key that equals none of the given ones, and answers whether there was one. -/
def retainOnly [Ord κ] (s : σ) (keep : List κ) : Checked (Bool × σ) := do
  let keys ← toList s
  deleteMany s (keys.filter fun k => !keep.any fun kept => compare kept k == .eq)

/-- Rounds of deleting all keys that are listed, until none is, at most so many. -/
def clearWithin : Nat → σ → Checked σ
  | 0, _ => .error .endless
  | rounds + 1, s => do
    match ← toList s with
    | [] => return s
    | keys =>
      let (_, s) ← deleteMany s keys
      clearWithin rounds s

/-- Deletes all keys. Each round takes at least one of those that are there. -/
def clear (s : σ) : Checked σ := do
  clearWithin ((← toList s).length + 1) s

end KeyCollection

/-- What can be asked of a collection about many keys at once. -/
inductive BulkRequest (κ : Type _) where
  | isEmpty
  | clear
  | insertMany (keys : List κ)
  | deleteMany (keys : List κ)
  | retainOnly (keys : List κ)
  | containsMany (keys : List κ)
deriving DecidableEq, Repr

/-- One request, answered by a truth value where there is one. -/
def KeyCollection.handle [KeyCollection σ κ] [Ord κ] (s : σ) :
    BulkRequest κ → Checked (Option Bool × σ)
  | .isEmpty => do return (some (← isEmpty s), s)
  | .clear => do return (none, ← clear s)
  | .insertMany keys => do
    let (changed, s) ← insertMany s keys
    return (some changed, s)
  | .deleteMany keys => do
    let (changed, s) ← deleteMany s keys
    return (some changed, s)
  | .retainOnly keys => do
    let (changed, s) ← retainOnly s keys
    return (some changed, s)
  | .containsMany keys => do
    let (all, s) ← containsMany s keys
    return (some all, s)

end SplitOrder
