import SplitOrder.Fault
import SplitOrder.Text.Quoted

/-!
# Layout of listings

How a value is written for reading. Each kind of value has two texts (`Legible`): one that shows
all of it unambiguously, and one for display. A listing of several values stands between brackets,
on one line or with a line for each item (`Layout`).
-/

namespace SplitOrder.Text

/-- Values that can be written for reading. -/
class Legible (α : Type _) where
  /-- The text that shows the whole value; a string stands between quotes. -/
  debug : α → String
  /-- The text for display; a string stands for itself. -/
  display : α → String := debug

instance : Legible Int64 where
  debug n := toString n.toInt

instance : Legible UInt64 where
  debug n := toString n.toNat

instance : Legible String where
  debug := quoted
  display s := s

instance : Legible Unit where
  debug _ := "()"

instance : Legible Refusal where
  debug
    | .invalidArgument reason => "InvalidArgument(" ++ quoted reason ++ ")"
    | .noSuchElement => "NoSuchElement"
  display := Refusal.message

/-- How the items of a listing are set. -/
inductive Layout where
  | compact
  /-- Each on a line of its own, indented and closed by a comma. -/
  | spread
deriving DecidableEq, Repr

/-- The items between two brackets. A listing without items is the bare brackets in any layout. -/
def Layout.enclose : Layout → (left right : String) → (items : List String) → String
  | .compact, left, right, items => left ++ ", ".intercalate items ++ right
  | .spread, left, right, [] => left ++ right
  | .spread, left, right, items =>
      left ++ "\n" ++ String.join (items.map fun item => "    " ++ item ++ ",\n") ++ right

def Layout.sequence [Legible α] (layout : Layout) (items : List α) : String :=
  layout.enclose "[" "]" (items.map Legible.debug)

def Layout.set [Legible α] (layout : Layout) (items : List α) : String :=
  layout.enclose "\x7b" "\x7d" (items.map Legible.debug)

/-- A mapping, between braces, each key before its value. -/
def Layout.mapping [Legible κ] [Legible ν] (layout : Layout) (items : List (κ × ν)) : String :=
  layout.enclose "\x7b" "\x7d"
    (items.map fun item => Legible.debug item.1 ++ ": " ++ Legible.debug item.2)

/-- A record on one line: its name, then its fields between braces. -/
def record (name : String) (fields : List (String × String)) : String :=
  name ++ " \x7b " ++ ", ".intercalate (fields.map fun f => f.1 ++ ": " ++ f.2) ++ " \x7d"

/-- An optional value: its text inside `Some`, or `None`. -/
def optional : Option String → String
  | some text => "Some(" ++ text ++ ")"
  | none => "None"

end SplitOrder.Text
