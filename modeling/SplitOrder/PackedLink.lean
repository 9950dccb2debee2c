import SplitOrder.Fault
import SplitOrder.Link
import SplitOrder.Text.Layout

/-!
# Links packed into a word

A link to a 64-bit address in a single word: addresses are even, so the lowest bit is free for the
mark. `PackedLink` offers what `Link` offers. An odd address would be taken for a mark and is
refused before anything is read or written.

* `pack`, `unpack` — between the pair and the word.
* `PackedLink.get`, `retarget`, `compareAndSwap`, `mark?` — the operations.
* `PackedLink.run` — a sequence of operations, each answered with the link it left behind.
-/

namespace SplitOrder

/-- The word that holds an address and a mark. -/
def pack (target : UInt64) (mark : Bool) : Checked UInt64 :=
  if target &&& 1 = 0 then .ok (target ||| mark.toUInt64) else .error .misalignedTarget

/-- The address and the mark that a word holds. -/
def unpack (word : UInt64) : Link UInt64 :=
  ⟨word &&& ~~~1, word &&& 1 ≠ 0⟩

/-- A link in a word: the address in the upper 63 bits, the mark in the lowest. -/
structure PackedLink where
  word : UInt64
deriving DecidableEq, Repr

namespace PackedLink

def new (target : UInt64) : Checked PackedLink := do
  return ⟨← pack target false⟩

def get (l : PackedLink) : Link UInt64 :=
  unpack l.word

/-- The link to another address, unmarked whatever it was. -/
def retarget (_ : PackedLink) (target : UInt64) : Checked PackedLink :=
  new target

/-- The new link if the present word is the expected one, or nothing if it is not. Both addresses
are examined first, the expected one before the new one. -/
def compareAndSwap (l : PackedLink) (expected desired : Link UInt64) :
    Checked (Option PackedLink) := do
  let old ← pack expected.target expected.marked
  let fresh ← pack desired.target desired.marked
  return if l.word = old then some ⟨fresh⟩ else none

/-- The link with its mark set, if it is unmarked and points to the expected address. -/
def mark? (l : PackedLink) (expected : UInt64) : Checked (Option PackedLink) :=
  l.compareAndSwap ⟨expected, false⟩ ⟨expected, true⟩

def debug (l : PackedLink) : String :=
  Text.record "MarkedLink"
    [("target", "0x" ++ Text.hexadecimal l.get.target.toNat),
      ("deleted", if l.get.marked then "true" else "false")]

/-! ### Sequences of operations -/

/-- What can be asked of a link. -/
inductive Request where
  | get
  | target
  | isMarked
  /-- An unmarked link to this address in place of the present one. -/
  | retarget (target : UInt64)
  /-- The second link in place of the first, if that is the present one. -/
  | compareAndSwap (expected desired : Link UInt64)
  /-- The mark, if the link is unmarked and points to this address. -/
  | mark? (expected : UInt64)
  | debug
deriving DecidableEq, Repr

/-- What a link answers. -/
inductive Reply where
  | link (l : Link UInt64)
  | address (target : UInt64)
  | flag (b : Bool)
  | text (s : String)
  | done
deriving DecidableEq, Repr

/-- One request. A request that ends in a fault leaves the link as it was. -/
def handle (l : PackedLink) : Request → Checked (Reply × PackedLink)
  | .get => return (.link l.get, l)
  | .target => return (.address l.get.target, l)
  | .isMarked => return (.flag l.get.marked, l)
  | .retarget target => return (.done, ← l.retarget target)
  | .compareAndSwap expected desired => do
    let changed ← l.compareAndSwap expected desired
    return (.flag changed.isSome, changed.getD l)
  | .mark? expected => do
    let changed ← l.mark? expected
    return (.flag changed.isSome, changed.getD l)
  | .debug => return (.text l.debug, l)

/-- The answers to a sequence of requests, each with the link after it. -/
def run (l : PackedLink) : List Request → List (Checked Reply × PackedLink)
  | [] => []
  | r :: rs =>
    match l.handle r with
    | .ok (reply, l) => (.ok reply, l) :: run l rs
    | .error fault => (.error fault, l) :: run l rs

end PackedLink

end SplitOrder
