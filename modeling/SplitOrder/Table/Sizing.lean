import SplitOrder.Word
import SplitOrder.Table.Directory
import SplitOrder.Text.Layout

/-!
# Sizing of a table

How many buckets a table starts with, how full it may get before their number doubles, and how
many buckets it may have at most.

* `Sizing.check` — what makes a sizing usable; `Sizing.Flaw` has a constructor for each rule, in
  the order in which they are examined.
* `Sizing.ofCapacity` — the sizing for a table that is to hold so many entries without growing.
-/

namespace SplitOrder

/-- The number of buckets and the load of a table. -/
structure Sizing where
  initialBuckets : UInt64 := 2
  /-- The number of entries per bucket, on average, beyond which the table grows. -/
  maxLoad : UInt64 := 2
  /-- The number of buckets that is never exceeded. -/
  maxBuckets : UInt64 := Directory.capacity
deriving DecidableEq, Repr

namespace Sizing

instance : Inhabited Sizing := ⟨{}⟩

/-- Why a sizing is not usable. -/
inductive Flaw where
  /-- The initial number of buckets is not a power of two. -/
  | initialBuckets
  /-- The greatest number of buckets is not a power of two within the directory. -/
  | maxBuckets
  /-- The greatest number of buckets is below the initial one. -/
  | belowInitial
  /-- A bucket may hold no entry at all. -/
  | maxLoad
deriving DecidableEq, Repr

def Flaw.reason : Flaw → String
  | .initialBuckets => "initial bucket count must be a non-zero power of two"
  | .maxBuckets => "max bucket count must be a power of two no larger than 2^32"
  | .belowInitial => "max bucket count is below the initial bucket count"
  | .maxLoad => "max load must be positive"

def flaw? (s : Sizing) : Option Flaw :=
  if ¬ Word.IsPowerOfTwo s.initialBuckets then some .initialBuckets
  else if ¬ Word.IsPowerOfTwo s.maxBuckets ∨ Directory.capacity < s.maxBuckets then
    some .maxBuckets
  else if s.maxBuckets < s.initialBuckets then some .belowInitial
  else if s.maxLoad = 0 then some .maxLoad
  else none

/-- Turns down a sizing that has a flaw, for the reason of its first one. -/
def check (s : Sizing) : Checked Unit :=
  match s.flaw? with
  | some flaw => .error (.refused (.invalidArgument flaw.reason))
  | none => .ok ()

/-- The sizing whose initial buckets hold the given number of entries at the default load. The
number of buckets stays between the default and the room of the directory. -/
def ofCapacity (capacity : UInt64) : Checked Sizing := do
  let wanted ← Word.nextPowerOfTwo (Word.halfUp capacity)
  return { initialBuckets := max 2 (min wanted Directory.capacity) }

instance : Text.Legible Sizing where
  debug s :=
    Text.record "SplitOrderedConfig"
      [("initial_buckets", Text.Legible.debug s.initialBuckets),
        ("max_load", Text.Legible.debug s.maxLoad),
        ("max_buckets", Text.Legible.debug s.maxBuckets)]

theorem check_eq_ok_iff {s : Sizing} :
    s.check = .ok () ↔
      Word.IsPowerOfTwo s.initialBuckets ∧ Word.IsPowerOfTwo s.maxBuckets ∧
        s.maxBuckets ≤ Directory.capacity ∧ s.initialBuckets ≤ s.maxBuckets ∧ s.maxLoad ≠ 0 := by
  simp only [check, flaw?]
  split <;> rename_i h
  all_goals
    simp only [UInt64.lt_iff_toNat_lt] at h
    simp only [UInt64.le_iff_toNat_le]
    grind

end Sizing

end SplitOrder
