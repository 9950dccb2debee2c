/-!
# Marked links

A link holds where a node points to together with the delete mark of the node that owns it. The
two are one value: they are read together, and a write replaces both or neither. That is what lets
an operation rest on a link it read some time ago: if the link changed since, in its target or in
its mark, the write fails and says so.

`Link.compareAndSwap` is the only write on a link that others can see. To set the mark is to write
the same target with it.

The targets are of any type; lists use names of nodes, and `SplitOrder.PackedLink` keeps a link to
an address in one word.
-/

namespace SplitOrder

/-- A target with a delete mark. -/
@[ext] structure Link (τ : Type _) where
  target : τ
  marked : Bool := false
deriving DecidableEq, Repr

namespace Link

variable {τ : Type _} [DecidableEq τ]

/-- The new link if the present one is as expected, or nothing if it is not. -/
def compareAndSwap (l expected desired : Link τ) : Option (Link τ) :=
  if l = expected then some desired else none

end Link

end SplitOrder
