import Std.Data.TreeSet
import SplitOrder.Text.Layout

/-!
# Deferred release

A node that was taken off a list may still be under the eyes of a reader, so it is not given back
at once. It is **retired**: handed to a reclaimer, which keeps it until the whole list is given up
and then **releases** it. The reclaimer is a stack, and the last node retired is released first.

* `Reclaimer.retire` — one more node.
* `Reclaimer.releaseAll` — the end. A node that was retired twice would be given back twice, so
  the whole stack is examined before the first node is released.
* `firstRepeated?` — what the examination finds.
-/

namespace SplitOrder

/-- The first member of a list that occurs among the members before it, or among those already
seen. -/
def firstRepeatedAfter? [Ord ι] (seen : Std.TreeSet ι) : List ι → Option ι
  | [] => none
  | x :: xs => if x ∈ seen then some x else firstRepeatedAfter? (seen.insert x) xs

/-- The first member of a list that repeats an earlier one. -/
def firstRepeated? [Ord ι] (l : List ι) : Option ι :=
  firstRepeatedAfter? ∅ l

/-- The nodes that were handed over, and those that were given back. -/
structure Reclaimer (ι : Type _) where
  /-- The retired nodes, the last one first. -/
  retired : List ι := []
  count : UInt64 := 0
  /-- The released nodes, in the order of their release. -/
  released : List ι := []
deriving DecidableEq, Repr

namespace Reclaimer

variable {ι : Type _}

instance : Inhabited (Reclaimer ι) := ⟨{}⟩

def retire (r : Reclaimer ι) (node : ι) : Reclaimer ι :=
  { r with retired := node :: r.retired, count := r.count + 1 }

@[simp] theorem retired_retire (r : Reclaimer ι) (node : ι) :
    (r.retire node).retired = node :: r.retired := rfl

@[simp] theorem count_retire (r : Reclaimer ι) (node : ι) :
    (r.retire node).count = r.count + 1 := rfl

@[simp] theorem released_retire (r : Reclaimer ι) (node : ι) :
    (r.retire node).released = r.released := rfl

/-- Gives back every retired node, the last one first. If a node was retired more than once, it is
named in place of a result, and nothing is given back. -/
def releaseAll [Ord ι] (r : Reclaimer ι) : Except ι (Reclaimer ι) :=
  match firstRepeated? r.retired with
  | some node => .error node
  | none => .ok { r with retired := [], released := r.released ++ r.retired }

/-- The states of a reclaimer that takes over the given nodes, one after the other. -/
def retireAll (r : Reclaimer ι) : List ι → List (Reclaimer ι)
  | [] => []
  | node :: nodes => r.retire node :: retireAll (r.retire node) nodes

end Reclaimer

/-- The ways to keep removed nodes alive. They differ in what can be seen of them: a deferring
reclaimer counts what it holds, while one that works in epochs gives nodes back as its readers
leave, at moments that no operation determines. -/
inductive Protection where
  /-- Every retired node is kept until the end. -/
  | deferred
  /-- A retired node is kept as long as a reader of its time is left. -/
  | epoch
deriving DecidableEq, Repr

/-- The name under which a reference to a protected element shows itself. -/
def Protection.referenceName : Protection → String
  | .deferred => "DeferredRef"
  | .epoch => "EpochRef"

/-- The text that shows a reference: its name, and the whole element in parentheses. -/
def Protection.debugReference [Text.Legible α] (p : Protection) (a : α) : String :=
  p.referenceName ++ "(" ++ Text.Legible.debug a ++ ")"

end SplitOrder
