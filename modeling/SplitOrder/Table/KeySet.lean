import SplitOrder.Collection
import SplitOrder.Table.Cursor

/-!
# Key sets

A set of keys is a table whose values carry nothing.

* `KeySet.insert`, `delete`, `contains`, `find` — the operations, the last three also by a form of
  the key.
* `instance : KeyCollection (KeySet κ) κ` — and with it the operations on many keys.
-/

namespace SplitOrder

abbrev KeySet (κ : Type _) := Table κ Unit

namespace KeySet

variable {κ : Type _} [Ord κ]

/-- Inserts a key. Answers whether it was new. -/
def insert (s : KeySet κ) (key : κ) : Checked (Bool × KeySet κ) :=
  Table.insert s key ()

section ByForm

variable {β : Type _} [Ord β]

/-- Deletes the key with the given form. -/
def deleteBy (form : KeyForm κ β) (s : KeySet κ) (key : β) : Checked (Bool × KeySet κ) :=
  Table.deleteBy form s key

def containsBy (form : KeyForm κ β) (s : KeySet κ) (key : β) : Checked (Bool × KeySet κ) :=
  Table.containsBy form s key

/-- The stored key with the given form. -/
def findBy (form : KeyForm κ β) (s : KeySet κ) (key : β) : Checked (Option κ × KeySet κ) := do
  let (pair, s) ← Table.findBy form s key
  return (pair.map Prod.fst, s)

end ByForm

def delete (s : KeySet κ) (key : κ) : Checked (Bool × KeySet κ) :=
  s.deleteBy s.ownForm key

def contains (s : KeySet κ) (key : κ) : Checked (Bool × KeySet κ) :=
  s.containsBy s.ownForm key

def find (s : KeySet κ) (key : κ) : Checked (Option κ × KeySet κ) :=
  s.findBy s.ownForm key

/-- The next key of a cursor, or a refusal at the end. -/
def demand (s : KeySet κ) (c : Cursor) : Checked (Except Refusal κ × Cursor) := do
  match ← c.takeNext s.list with
  | (some (key, _), c) => return (.ok key, c)
  | (none, c) => return (.error .noSuchElement, c)

instance : KeyCollection (KeySet κ) κ where
  insert := insert
  delete := delete
  contains := contains
  length s := .ok s.size.toNat
  toList := Table.keys

end KeySet

end SplitOrder
