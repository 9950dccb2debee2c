import SplitOrder.OrderKey
import SplitOrder.Text.Layout

/-!
# Keys

The kinds of keys that tables are used with, what a hash function makes of them, and sequences of
numbered keys.

* `CaseFolded` — text in which upper and lower case do not differ.
* `Labelled` — numbers with a label, so that equal ones can be told apart.
* `Digest` — the 64 bits of a key that a hash starts from.
* `Mixing` — simple hash functions on these bits, among them ones that let keys collide.
* `Numbered`, `Range` — the key for a number, and evenly spaced numbers.
-/

namespace SplitOrder

/-! ### Text without case -/

/-- A text that equals every text with the same letters, whether upper or lower case. Only the
letters of the Latin alphabet without marks have a case here. -/
structure CaseFolded where
  text : String
deriving Repr

namespace CaseFolded

def folded (k : CaseFolded) : String :=
  k.text.toLower

instance : Ord CaseFolded where
  compare a b := compare a.folded b.folded

instance : Text.Legible CaseFolded where
  debug k := Text.quoted k.text
  display k := k.text

end CaseFolded

/-! ### Labelled numbers -/

/-- A number with a label that does not count when numbers are compared. -/
structure Labelled where
  key : Int64
  label : Int64
deriving DecidableEq, Repr

namespace Labelled

instance : Ord Labelled where
  compare a b := compare a.key b.key

instance : Text.Legible Labelled where
  debug a := toString a.key.toInt ++ "/" ++ toString a.label.toInt

end Labelled

/-! ### Hashing -/

/-- The hash of a sequence of bytes that takes in one byte after the other: exclusive or with the
byte, then multiplication by a fixed prime. -/
def hashBytes (bytes : ByteArray) : UInt64 :=
  bytes.foldl (fun h b => (h ^^^ b.toUInt64) * 0x100000001b3) 0xcbf29ce484222325

/-- Keys with 64 bits that a hash starts from. Equal keys have equal bits. -/
class Digest (κ : Type _) where
  digest : κ → UInt64

instance : Digest UInt64 where
  digest n := n

instance : Digest Int64 where
  digest n := n.toUInt64

instance : Digest String where
  digest s := hashBytes s.toUTF8

instance : Digest CaseFolded where
  digest k := hashBytes k.folded.toUTF8

/-- Ways to make a hash of the bits of a key. -/
inductive Mixing where
  | identity
  | const (word : UInt64)
  | and (mask : UInt64)
  | or (mask : UInt64)
  | mul (factor : UInt64)
  | shl (places : UInt64)
  | reverse
deriving DecidableEq, Repr

def Mixing.apply : Mixing → UInt64 → UInt64
  | .identity, h => h
  | .const word, _ => word
  | .and mask, h => h &&& mask
  | .or mask, h => h ||| mask
  | .mul factor, h => h * factor
  | .shl places, h => h <<< (places &&& 63)
  | .reverse, h => reverseBits h

def Mixing.hash [Digest κ] (m : Mixing) (key : κ) : UInt64 :=
  m.apply (Digest.digest key)

/-! ### Numbered keys -/

/-- Types with a value for every number. -/
class Numbered (κ : Type _) where
  /-- The value for a number. -/
  ofNumber : Int64 → κ

instance : Numbered Int64 where
  ofNumber n := n

instance : Numbered UInt64 where
  ofNumber n := n.toUInt64

instance : Numbered String where
  ofNumber n := "k" ++ toString n.toInt

instance : Numbered CaseFolded where
  ofNumber n := ⟨"k" ++ toString n.toInt⟩

instance : Numbered Unit where
  ofNumber _ := ()

/-- Evenly spaced numbers, modulo `2 ^ 64`. -/
structure Range where
  start : Int64
  count : Nat
  step : Int64
deriving DecidableEq, Repr

/-- The numbers of a range, the first one first. -/
def Range.numbers (r : Range) : List Int64 :=
  (List.range r.count).map fun i => r.start + .ofNat i * r.step

end SplitOrder
