/-!
# Faults

Two things can stop an operation. A **refusal** answers a mistake of the caller: a configuration
that makes no sense, or a request for an element that is not there. A **fault** is a broken
internal check: an operation that meets its own preconditions never ends in one.

* `Refusal`, `Fault` — the causes, one constructor each.
* `Refusal.message`, `Fault.message` — the wording, kept in one place.
* `Checked` — a computation that may end in a fault. Operations on a structure take the structure
  and return the new one beside their answer, inside `Checked`.
* `Checked.countTrue` — one operation for each member of a list, in order.
-/

namespace SplitOrder

/-- Why a caller's request is turned down. -/
inductive Refusal where
  /-- The argument is outside what the operation accepts, for the given reason. -/
  | invalidArgument (reason : String)
  | noSuchElement
deriving DecidableEq, Repr

def Refusal.message : Refusal → String
  | .invalidArgument reason => "invalid argument: " ++ reason
  | .noSuchElement => "no such element"

/-- The word operations whose result may fall outside 64 bits. -/
inductive Arithmetic where
  | add
  | subtract
  | multiply
deriving DecidableEq, Repr

def Arithmetic.verb : Arithmetic → String
  | .add => "add"
  | .subtract => "subtract"
  | .multiply => "multiply"

/-- Why an operation cannot go on. -/
inductive Fault where
  /-- The request itself was turned down. -/
  | refused (r : Refusal)
  | rootWithoutParent
  /-- A bucket index lies beyond the directory. -/
  | indexBeyondDirectory
  | slotBeyondSegment
  /-- A link target has its lowest bit set. -/
  | misalignedTarget
  /-- The node at this address was handed over for release more than once. -/
  | retiredTwice (address : UInt64)
  | headWithoutElement
  /-- A list was given up while a deleted node was still linked. -/
  | markedAtDrop
  /-- A word operation left the range of 64 bits. -/
  | overflow (operation : Arithmetic)
  /-- A loop went on longer than the structure it walks allows. -/
  | endless
deriving DecidableEq, Repr

def Fault.message : Fault → String
  | .refused r => r.message
  | .rootWithoutParent => "bucket 0 has no parent"
  | .indexBeyondDirectory => "assertion failed: index < MAX_BUCKETS"
  | .slotBeyondSegment => "directory slot outside its segment"
  | .misalignedTarget =>
      "assertion \x60left == right\x60 failed: misaligned link target\n  left: 1\n right: 0"
  | .retiredTwice address =>
      "node 0x" ++ String.ofList (Nat.toDigits 16 address.toNat) ++ " retired twice"
  | .headWithoutElement =>
      "internal error: entered unreachable code: list head carries no element"
  | .markedAtDrop => "marked node still linked at drop"
  | .overflow operation => "attempt to " ++ operation.verb ++ " with overflow"
  | .endless => "the operation does not end"

/-- A computation that yields a value or ends in a fault. -/
abbrev Checked (ρ : Type _) := Except Fault ρ

namespace Checked

variable {σ ι : Type _}

/-- Runs an operation for one more member of a list and goes on from a count. -/
def countStep (operation : σ → ι → Checked (Bool × σ)) (state : Nat × σ) (x : ι) :
    Checked (Nat × σ) := do
  let (b, s) ← operation state.2 x
  return (state.1 + b.toNat, s)

/-- Runs an operation for each member of a list and counts how often it answers with true. -/
def countTrue (operation : σ → ι → Checked (Bool × σ)) (s : σ) (members : List ι) :
    Checked (Nat × σ) :=
  members.foldlM (countStep operation) (0, s)

/-- To go on from a count adds to it, and to nothing else. -/
theorem foldlM_countStep (operation : σ → ι → Checked (Bool × σ)) (count : Nat) (s : σ)
    (members : List ι) :
    members.foldlM (countStep operation) (count, s) =
      (countTrue operation s members).map fun r => (count + r.1, r.2) := by
  simp only [countTrue]
  induction members generalizing count s with
  | nil => rfl
  | cons x xs ih =>
    simp only [List.foldlM_cons, countStep]
    cases operation s x with
    | error e => rfl
    | ok r =>
      change xs.foldlM (countStep operation) (count + r.1.toNat, r.2) =
        (xs.foldlM (countStep operation) (0 + r.1.toNat, r.2)).map _
      rw [ih, ih (0 + _)]
      cases xs.foldlM (countStep operation) (0, r.2) <;> simp [Except.map, Nat.add_assoc]

theorem countTrue_cons (operation : σ → ι → Checked (Bool × σ)) (s : σ) (x : ι) (xs : List ι) :
    countTrue operation s (x :: xs) = do
      let (b, s) ← operation s x
      let (count, s) ← countTrue operation s xs
      return (b.toNat + count, s) := by
  rw [countTrue, List.foldlM_cons, countStep]
  cases operation s x with
  | error e => rfl
  | ok r =>
    change xs.foldlM (countStep operation) (0 + r.1.toNat, r.2) = _
    rw [foldlM_countStep, Nat.zero_add]
    change _ = (countTrue operation r.2 xs >>= fun p => pure (r.1.toNat + p.1, p.2))
    cases countTrue operation r.2 xs <;> rfl

end Checked

end SplitOrder
