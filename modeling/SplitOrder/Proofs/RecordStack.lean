import SplitOrder.Fault
import SplitOrder.Proofs.Checked
import SplitOrder.Proofs.Reclaimer

/-!
# A reclaimer in memory

In memory a reclaimer is a stack of records. A record names a retired node and the record of the
node that was retired before, and the reclaimer names the record on top. To retire a node is to make
a record, to point it at the top, and to put it there by an exchange, which may fail for no reason
and is tried again then. To give up the reclaimer is to walk down the stack twice: the first walk
reads the records and looks for a node that occurs again, the second one gives back each node and
its record.

* `RecordStack.retire`, `retireAll` — nodes that are handed over.
* `Ending.step`, `RecordStack.endAfter` — the two walks, one round after the other, and where they
  stand after so many rounds.
* `RecordStack.Keeps` — what is on the stack. `Keeps.retire` is the step, `Keeps.retireAll` the run.
* `Ending.Follows` — the invariant of the walks: the first one is still to find what it would find
  in the whole stack, and the second one has not touched what is still ahead of it. `Follows.step`
  is the step, `Keeps.follows` the run.
* `RecordStack.releases_all_or_nothing` — what a `Reclaimer` answers, and what becomes of the stack.
-/

namespace SplitOrder

variable {ι δ : Type _}

/-! ### Records -/

/-- The name of a record: its place among all records that were ever made. -/
abbrev RecordId := Nat

/-- A node that is handed over, and the way in which it is to be given back. -/
structure Retired (ι δ : Type _) where
  node : ι
  disposal : δ
deriving DecidableEq, Repr

structure Record (ι δ : Type _) extends Retired ι δ where
  /-- The record of the node that was retired before. -/
  next : Option RecordId := none
deriving DecidableEq, Repr

/-- A request to retire a node. -/
structure Retirement (ι δ : Type _) extends Retired ι δ where
  /-- How often the exchange of the top fails for no reason. -/
  failures : Nat := 0
deriving DecidableEq, Repr

/-- All records by name, without those that were given back. -/
structure RecordStack (ι δ : Type _) where
  records : Array (Option (Record ι δ)) := #[]
  top : Option RecordId := none
  count : UInt64 := 0
  /-- What was given back, in the order in which it was. -/
  released : List (Retired ι δ) := []
deriving DecidableEq, Repr

namespace RecordStack

instance : EmptyCollection (RecordStack ι δ) := ⟨{}⟩

variable {s t : RecordStack ι δ} {i : RecordId}

/-- The record of this name, if it was made and not yet given back. -/
def record? (s : RecordStack ι δ) (i : RecordId) : Option (Record ι δ) :=
  s.records[i]?.join

/-- Makes a record that is not yet on the stack. -/
def make (s : RecordStack ι δ) (r : Retired ι δ) : RecordStack ι δ :=
  { s with records := s.records.push (some ⟨r, none⟩) }

def setNext (s : RecordStack ι δ) (i : RecordId) (next : Option RecordId) : RecordStack ι δ :=
  { s with records := s.records.modify i (·.map ({ · with next })) }

/-- Gives back a node, and its record. -/
def giveBack (s : RecordStack ι δ) (i : RecordId) (r : Retired ι δ) : RecordStack ι δ :=
  { s with records := s.records.setIfInBounds i none, released := s.released ++ [r] }

theorem record?_make (s : RecordStack ι δ) (r : Retired ι δ) (j : RecordId) :
    (s.make r).record? j = if j = s.records.size then some ⟨r, none⟩ else s.record? j := by
  rw [record?, make, Array.getElem?_push]
  split <;> rfl

theorem record?_setNext (s : RecordStack ι δ) (i : RecordId) (next : Option RecordId)
    (j : RecordId) :
    (s.setNext i next).record? j =
      if i = j then (s.record? j).map ({ · with next }) else s.record? j := by
  rw [record?, setNext, Array.getElem?_modify]
  split
  · rw [record?]
    cases s.records[j]? <;> rfl
  · rfl

theorem record?_giveBack (s : RecordStack ι δ) (i : RecordId) (r : Retired ι δ) (j : RecordId) :
    (s.giveBack i r).record? j = if i = j then none else s.record? j := by
  rw [record?, giveBack, Array.getElem?_setIfInBounds]
  split
  · split <;> rfl
  · rfl

theorem record?_of_size_le (h : s.records.size ≤ i) : s.record? i = none := by
  rw [record?, Array.getElem?_eq_none h]
  rfl

/-! ### Retiring nodes -/

/-- Puts a record on the stack: points it at the record that is taken to be on top, and exchanges
this one for it. All rounds but the last one fail for no reason. Whenever a round fails, the top that
it met is what the next one expects. -/
def linkWithin (i : RecordId) :
    Nat → RecordStack ι δ → Option RecordId → Checked (RecordStack ι δ)
  | 0, _, _ => .error .endless
  | rounds + 1, s, expected =>
    let s := s.setNext i expected
    if s.top = expected ∧ rounds = 0 then .ok { s with top := some i }
    else linkWithin i rounds s s.top

def retire (s : RecordStack ι δ) (r : Retirement ι δ) : Checked (RecordStack ι δ) := do
  let s ← (s.make r.toRetired).linkWithin s.records.size (r.failures + 1) s.top
  return { s with count := s.count + 1 }

/-- The states of a stack that takes over the given nodes, one after the other. -/
def retireAll (s : RecordStack ι δ) : List (Retirement ι δ) → Checked (List (RecordStack ι δ))
  | [] => .ok []
  | r :: rs => do
    let s ← s.retire r
    return s :: (← s.retireAll rs)

/-- **However often the exchange fails for no reason, the record comes to be on top**, and points to
the one that was. -/
theorem linkWithin_spec (s : RecordStack ι δ) (i : RecordId) (failures : Nat) :
    ∃ t, s.linkWithin i (failures + 1) s.top = .ok t ∧ t.top = some i ∧
      t.records.size = s.records.size ∧ t.count = s.count ∧ t.released = s.released ∧
      ∀ j, t.record? j = (s.setNext i s.top).record? j := by
  induction failures generalizing s with
  | zero => exact ⟨_, if_pos ⟨rfl, rfl⟩, rfl, Array.size_modify, rfl, rfl, fun j => rfl⟩
  | succ failures ih =>
    obtain ⟨t, hlink, htop, hsize, hcount, hreleased, hrecord⟩ := ih (s.setNext i s.top)
    refine ⟨t, ?_, htop, hsize.trans Array.size_modify, hcount, hreleased, fun j => ?_⟩
    · rw [linkWithin]
      exact (if_neg fun h => nomatch h.2).trans hlink
    · -- it was pointed there before
      rw [hrecord, record?_setNext, record?_setNext]
      split
      · cases s.record? j <;> rfl
      · rfl

/-! ### What is on the stack -/

/-- The name of the record on top of these: as many are below it as were made before. -/
def topOf : List (Retired ι δ) → Option RecordId
  | [] => none
  | _ :: below => some below.length

/-- The records of these nodes, each pointing at the one below it. -/
def Linked (s : RecordStack ι δ) : List (Retired ι δ) → Prop
  | [] => True
  | r :: below => s.record? below.length = some ⟨r, topOf below⟩ ∧ s.Linked below

/-- Records that are made or given back further up make no difference. -/
theorem Linked.of_same {l : List (Retired ι δ)} (h : s.Linked l)
    (hsame : ∀ j < l.length, t.record? j = s.record? j) : t.Linked l := by
  induction l with
  | nil => trivial
  | cons r below ih =>
    obtain ⟨hrecord, hbelow⟩ := h
    rw [List.length_cons] at hsame
    exact ⟨(hsame _ (by omega)).trans hrecord, ih hbelow fun j hj => hsame j (by omega)⟩

variable {x : Retired ι δ} {below : List (Retired ι δ)}

theorem Linked.giveBack (h : s.Linked (x :: below)) : (s.giveBack below.length x).Linked below :=
  h.2.of_same fun j hj => by rw [record?_giveBack, if_neg (Nat.ne_of_gt hj)]

/-- If nothing is left above a record, nothing is left from there on when it is given back. -/
theorem record?_giveBack_of_le (h : ∀ j, below.length + 1 ≤ j → s.record? j = none) {j : RecordId}
    (hj : below.length ≤ j) : (s.giveBack below.length x).record? j = none := by
  rw [record?_giveBack]
  rcases Nat.eq_or_lt_of_le hj with hj | hj
  · exact if_pos hj
  · exact (if_neg (Nat.ne_of_lt hj)).trans (h j hj)

/-- The stack holds what the reclaimer says, the last node on top. -/
structure Keeps (s : RecordStack ι δ) (r : Reclaimer (Retired ι δ)) : Prop where
  size_eq : s.records.size = r.retired.length
  top_eq : s.top = topOf r.retired
  linked : s.Linked r.retired
  count_eq : s.count = r.count
  released_eq : s.released = r.released

theorem keeps_empty : (∅ : RecordStack ι δ).Keeps {} :=
  ⟨rfl, rfl, trivial, rfl, rfl⟩

variable {r : Reclaimer (Retired ι δ)}

/-- **Step lemma.** A node that is retired lies on top. -/
theorem Keeps.retire (h : s.Keeps r) (x : Retirement ι δ) :
    ∃ t, s.retire x = .ok t ∧ t.Keeps (r.retire x.toRetired) := by
  obtain ⟨t, hlink, htop, hsize, hcount, hreleased, hrecord⟩ :=
    linkWithin_spec (s.make x.toRetired) s.records.size x.failures
  have hretire : s.retire x = .ok { t with count := t.count + 1 } := by
    have hlink : (s.make x.toRetired).linkWithin s.records.size (x.failures + 1) s.top = .ok t :=
      hlink
    rw [RecordStack.retire, hlink]
    rfl
  refine ⟨_, hretire, ?_, ?_, ?_, ?_, ?_⟩
  · exact hsize.trans ((Array.size_push _).trans (congrArg (· + 1) h.size_eq))
  · exact htop.trans (congrArg some h.size_eq)
  · have hnew : t.record? r.retired.length = some ⟨x.toRetired, topOf r.retired⟩ := by
      rw [hrecord, record?_setNext, record?_make, if_pos h.size_eq, if_pos h.size_eq.symm,
        ← h.top_eq]
      rfl
    refine ⟨hnew, h.linked.of_same fun j hj => ?_⟩
    have hne : s.records.size ≠ j := by
      rw [h.size_eq]
      omega
    exact (hrecord j).trans (by
      rw [record?_setNext, if_neg hne, record?_make, if_neg hne.symm])
  · exact congrArg (· + 1) (hcount.trans h.count_eq)
  · exact hreleased.trans h.released_eq

/-- **Run lemma.** Nodes that are retired one after the other are counted and kept as a reclaimer
counts and keeps them. -/
theorem Keeps.retireAll (h : s.Keeps r) (xs : List (Retirement ι δ)) :
    ∃ states, s.retireAll xs = .ok states ∧
      states.map (fun t => (t.count.toNat, t.released)) =
        (r.retireAll (xs.map (·.toRetired))).map (fun r => (r.count.toNat, r.released)) ∧
      (states.getLast?.getD s).Keeps ((r.retireAll (xs.map (·.toRetired))).getLast?.getD r) := by
  induction xs generalizing s r with
  | nil => exact ⟨[], rfl, rfl, h⟩
  | cons x xs ih =>
    obtain ⟨t, ht, hkeeps⟩ := h.retire x
    obtain ⟨states, hstates, hmap, hlast⟩ := ih hkeeps
    refine ⟨t :: states, ?_, ?_, ?_⟩
    · rw [RecordStack.retireAll, ht, Checked.ok_bind, hstates]
      rfl
    · rw [List.map_cons, List.map_cons, Reclaimer.retireAll, List.map_cons, hmap, hkeeps.count_eq,
        hkeeps.released_eq]
    · rw [List.map_cons, Reclaimer.retireAll, List.getLast?_cons, List.getLast?_cons]
      exact hlast

end RecordStack

/-! ### The end of a stack -/

/-- Where the end of a stack stands. -/
inductive Phase (ι : Type _) [Ord ι] where
  /-- The records are examined. This one is next, and these nodes were seen. -/
  | examining (next : Option RecordId) (seen : Std.TreeSet ι)
  /-- The nodes are given back. The one of this record is next. -/
  | releasing (next : Option RecordId)
  /-- All nodes were given back. -/
  | finished
  /-- This node was met a second time. -/
  | stopped (node : ι)
  /-- A record was asked for that is not there. -/
  | lost

/-- A stack that is given up. -/
structure Ending (ι δ : Type _) [Ord ι] where
  phase : Phase ι
  stack : RecordStack ι δ

variable [Ord ι]

/-- One round of the walk that is under way. -/
def Ending.step : Ending ι δ → Ending ι δ
  | ⟨.examining none _, s⟩ => ⟨.releasing s.top, s⟩
  | ⟨.examining (some i) seen, s⟩ =>
    match s.record? i with
    | none => ⟨.lost, s⟩
    | some r =>
      if r.node ∈ seen then ⟨.stopped r.node, s⟩
      else ⟨.examining r.next (seen.insert r.node), s⟩
  | ⟨.releasing none, s⟩ => ⟨.finished, s⟩
  | ⟨.releasing (some i), s⟩ =>
    match s.record? i with
    | none => ⟨.lost, s⟩
    | some r => ⟨.releasing r.next, s.giveBack i r.toRetired⟩
  | e => e -- the end is reached

/-- Where the end of a stack stands after so many rounds. -/
def RecordStack.endAfter (s : RecordStack ι δ) : Nat → Ending ι δ
  | 0 => ⟨.examining s.top ∅, s⟩
  | n + 1 => (s.endAfter n).step

namespace Ending

open RecordStack

variable {s t : RecordStack ι δ} {seen : Std.TreeSet ι} {i : RecordId} {record : Record ι δ}

theorem step_examining_of_mem (h : s.record? i = some record) (hseen : record.node ∈ seen) :
    step ⟨.examining (some i) seen, s⟩ = ⟨.stopped record.node, s⟩ := by
  simp only [step, h, if_pos hseen]

theorem step_examining_of_not_mem (h : s.record? i = some record) (hseen : record.node ∉ seen) :
    step ⟨.examining (some i) seen, s⟩ =
      ⟨.examining record.next (seen.insert record.node), s⟩ := by
  simp only [step, h, if_neg hseen]

theorem step_releasing (h : s.record? i = some record) :
    step ⟨.releasing (some i), s⟩ = ⟨.releasing record.next, s.giveBack i record.toRetired⟩ := by
  simp only [step, h]

/-- The end of a stack `s` with the nodes `l` is under way, and `n` rounds are enough for the rest
of it. -/
inductive Follows (s : RecordStack ι δ) (l : List (Retired ι δ)) (n : Nat) : Ending ι δ → Prop
  /-- The examination finds in the rest of the stack what it would find in the whole one. -/
  | examining {rest : List (Retired ι δ)} {seen : Std.TreeSet ι} (hrest : s.Linked rest)
      (hfound : firstRepeatedAfter? seen (rest.map (·.node)) = firstRepeated? (l.map (·.node)))
      (henough : rest.length + l.length + 2 ≤ n) : Follows s l n ⟨.examining (topOf rest) seen, s⟩
  /-- The examination found nothing, and all records are given back but those of the rest. -/
  | releasing {rest : List (Retired ι δ)} {t : RecordStack ι δ}
      (hfound : firstRepeated? (l.map (·.node)) = none) (hrest : t.Linked rest)
      (hreleased : t.released ++ rest = l) (hgone : ∀ i, rest.length ≤ i → t.record? i = none)
      (henough : rest.length + 1 ≤ n) : Follows s l n ⟨.releasing (topOf rest), t⟩
  | finished {t : RecordStack ι δ} (hfound : firstRepeated? (l.map (·.node)) = none)
      (hreleased : t.released = l) (hgone : ∀ i, t.record? i = none) : Follows s l n ⟨.finished, t⟩
  | stopped {a : ι} (hfound : firstRepeated? (l.map (·.node)) = some a) :
      Follows s l n ⟨.stopped a, s⟩

variable {r : Reclaimer (Retired ι δ)} {n : Nat} {e : Ending ι δ}

/-- **Step lemma.** A round of either walk keeps to the invariant, and one round less is left. -/
theorem Follows.step (hs : s.Keeps r) (hr : r.released = []) (h : Follows s r.retired n e) :
    Follows s r.retired (n - 1) e.step := by
  cases h with
  | @examining rest seen hrest hfound henough =>
    cases rest with
    | nil =>
      -- the first walk is over, and the second one begins at the top
      have hgone : ∀ i, r.retired.length ≤ i → s.record? i = none := fun i hi =>
        record?_of_size_le (hs.size_eq ▸ hi)
      rw [List.length_nil] at henough
      show Follows s r.retired (n - 1) ⟨.releasing s.top, s⟩
      rw [hs.top_eq]
      exact .releasing hfound.symm hs.linked (by rw [hs.released_eq, hr]; rfl) hgone (by omega)
    | cons x below =>
      obtain ⟨hrecord, hbelow⟩ := hrest
      rw [List.map_cons, firstRepeatedAfter?] at hfound
      rw [List.length_cons] at henough
      -- the walk and what it is to find go on in the same way
      by_cases hx : x.node ∈ seen
      · rw [if_pos hx] at hfound
        rw [topOf, step_examining_of_mem hrecord hx]
        exact .stopped hfound.symm
      · rw [if_neg hx] at hfound
        rw [topOf, step_examining_of_not_mem hrecord hx]
        exact .examining hbelow hfound (by omega)
  | @releasing rest t hfound hrest hreleased hgone henough =>
    cases rest with
    | nil =>
      rw [List.append_nil] at hreleased
      exact .finished hfound hreleased fun i => hgone i (Nat.zero_le i)
    | cons x below =>
      rw [List.length_cons] at hgone henough
      have hgiven : (t.giveBack below.length x).released ++ below = r.retired := by
        rw [← hreleased]
        exact List.append_assoc t.released [x] below
      rw [topOf, step_releasing hrest.1]
      exact .releasing hfound hrest.giveBack hgiven (fun j hj => record?_giveBack_of_le hgone hj)
        (by omega)
  | finished hfound hreleased hgone => exact .finished hfound hreleased hgone
  | stopped hfound => exact .stopped hfound

/-- Every record that is asked for is there. -/
theorem Follows.phase_ne_lost {l : List (Retired ι δ)} (h : Follows s l n e) : e.phase ≠ .lost := by
  cases h <;> exact fun hlost => nomatch hlost

/-- Nodes are given back from the top. -/
theorem Follows.released_isPrefix {l : List (Retired ι δ)} (hs : s.released = [])
    (h : Follows s l n e) : e.stack.released <+: l := by
  cases h with
  | examining | stopped =>
    show s.released <+: l
    rw [hs]
    exact List.nil_prefix
  | releasing hfound hrest hreleased => exact ⟨_, hreleased⟩
  | finished hfound hreleased => exact hreleased ▸ List.prefix_rfl

/-- When no round is left, one of the two ends is reached. -/
theorem Follows.ends {l : List (Retired ι δ)} (h : Follows s l 0 e) :
    (firstRepeated? (l.map (·.node)) = none ∧
      ∃ t, e = ⟨.finished, t⟩ ∧ t.released = l ∧ ∀ i, t.record? i = none) ∨
    ∃ a, firstRepeated? (l.map (·.node)) = some a ∧ e = ⟨.stopped a, s⟩ := by
  cases h with
  | examining hrest hfound henough => cases henough
  | releasing hfound hrest hreleased hgone henough => cases henough
  | finished hfound hreleased hgone => exact .inl ⟨hfound, _, rfl, hreleased, hgone⟩
  | stopped hfound => exact .inr ⟨_, hfound, rfl⟩

variable [Std.TransOrd ι] [Std.LawfulEqOrd ι]

/-- Nothing is touched unless the examination is over and has found nothing. -/
theorem Follows.stack_eq_or_nodup {l : List (Retired ι δ)} (h : Follows s l n e) :
    e.stack = s ∨ (l.map (·.node)).Nodup := by
  cases h with
  | examining | stopped => exact .inl rfl
  | releasing hfound | finished hfound => exact .inr (firstRepeated?_eq_none_iff.mp hfound)

end Ending

namespace RecordStack

open Ending

variable {s : RecordStack ι δ} {r : Reclaimer (Retired ι δ)}

/-- **Run lemma.** So do any number of rounds, from the examination of the whole stack on. -/
theorem Keeps.follows (hs : s.Keeps r) (hr : r.released = []) (n : Nat) :
    Follows s r.retired (2 * r.retired.length + 2 - n) (s.endAfter n) := by
  induction n with
  | zero =>
    -- each walk makes a round for each record, and one at the bottom
    rw [endAfter, hs.top_eq]
    exact .examining hs.linked rfl (by omega)
  | succ n ih => exact ih.step hs hr

/-- The nodes `l` are given back all or none, each with its record. -/
structure ReleasesAllOrNothing (s : RecordStack ι δ) (l : List (Retired ι δ)) : Prop where
  /-- At no moment is a record asked for that is not there. -/
  found : ∀ n, (s.endAfter n).phase ≠ .lost
  /-- At no moment is anything touched, unless all nodes are different. -/
  examined_first : ∀ n, (s.endAfter n).stack = s ∨ (l.map (·.node)).Nodup
  /-- At every moment those that were given back are the first ones. -/
  in_order : ∀ n, (s.endAfter n).stack.released <+: l
  /-- If all nodes are different, all are given back in the end, and no record is left. -/
  all : (l.map (·.node)).Nodup → ∀ n, 2 * l.length + 2 ≤ n →
    ∃ t, s.endAfter n = ⟨.finished, t⟩ ∧ t.released = l ∧ ∀ i, t.record? i = none
  /-- If one repeats another, the first one that does is named in the end, and the stack is as it
  was. -/
  nothing : ∀ a, FirstRepeat a (l.map (·.node)) → ∀ n, 2 * l.length + 2 ≤ n →
    s.endAfter n = ⟨.stopped a, s⟩

variable [Std.TransOrd ι] [Std.LawfulEqOrd ι]

theorem Keeps.releasesAllOrNothing (hs : s.Keeps r) (hr : r.released = []) :
    s.ReleasesAllOrNothing r.retired where
  found n := (hs.follows hr n).phase_ne_lost
  examined_first n := (hs.follows hr n).stack_eq_or_nodup
  in_order n := (hs.follows hr n).released_isPrefix (hs.released_eq.trans hr)
  all hnodup n hn := by
    have h := hs.follows hr n
    rw [Nat.sub_eq_zero_of_le hn] at h
    obtain ⟨-, hend⟩ | ⟨a, ha, -⟩ := h.ends
    · exact hend
    · cases ha.symm.trans (firstRepeated?_eq_none_iff.mpr hnodup)
  nothing a ha n hn := by
    have h := hs.follows hr n
    rw [Nat.sub_eq_zero_of_le hn] at h
    obtain ⟨hnone, -⟩ | ⟨b, hb, hend⟩ := h.ends
    · cases hnone.symm.trans (firstRepeated?_eq_some_iff.mpr ha)
    · cases hb.symm.trans (firstRepeated?_eq_some_iff.mpr ha)
      exact hend

/-- Nodes that are handed over to a new stack are counted, and are given back all or none. -/
theorem exists_retireAll (rs : List (Retirement ι δ)) (h : rs.length < 2 ^ 64) :
    ∃ states, (∅ : RecordStack ι δ).retireAll rs = .ok states ∧
      states.map (fun s => (s.count.toNat, s.released)) = (List.range' 1 rs.length).map (·, []) ∧
      (states.getLast?.getD ∅).ReleasesAllOrNothing (rs.map (·.toRetired)).reverse := by
  obtain ⟨states, hstates, hmap, hkeeps⟩ := keeps_empty.retireAll rs
  obtain ⟨hretired, hreleased⟩ := Reclaimer.last_retireAll {} (rs.map (·.toRetired))
  have hcounts := Reclaimer.map_retireAll_empty (rs.map (·.toRetired)) (by rwa [List.length_map])
  have hall := hkeeps.releasesAllOrNothing hreleased
  rw [List.length_map] at hcounts
  rw [hretired, List.append_nil] at hall
  exact ⟨states, hstates, hmap.trans hcounts, hall⟩

/-- **All or nothing.** After each node that is retired, the counter tells how many were, and none
was given back. If all are different, each is given back in the end, the last one first. If one is
not, none is given back, and the first one that is met again on the way down is named. This holds of
the `Reclaimer`, and of the stack of records at every moment of its end, however often an exchange
failed for no reason. -/
theorem releases_all_or_nothing {δ : Type _} (rs : List (Retirement UInt64 δ))
    (h : rs.length < 2 ^ 64) :
    let nodes := rs.map (·.node)
    let reclaimers := ({} : Reclaimer UInt64).retireAll nodes
    let last := reclaimers.getLast?.getD {}
    reclaimers.map (fun r => (r.count.toNat, r.released)) =
      (List.range' 1 rs.length).map (·, []) ∧
    (nodes.Nodup → ∃ r, last.releaseAll = .ok r ∧ r.released = nodes.reverse) ∧
    (¬ nodes.Nodup → ∃ a, FirstRepeat a nodes.reverse ∧ last.releaseAll = .error a ∧
      ∀ b, (Fault.retiredTwice b).message = (Fault.retiredTwice a).message → b = a) ∧
    ∃ states, (∅ : RecordStack UInt64 δ).retireAll rs = .ok states ∧
      states.map (fun s => (s.count.toNat, s.released)) = (List.range' 1 rs.length).map (·, []) ∧
      (states.getLast?.getD ∅).ReleasesAllOrNothing (rs.map (·.toRetired)).reverse := by
  intro nodes reclaimers last
  have hlength : nodes.length = rs.length := List.length_map _
  refine ⟨?_, Reclaimer.releaseAll_last_of_nodup, fun hnodup => ?_, exists_retireAll rs h⟩
  · rw [← hlength]
    exact Reclaimer.map_retireAll_empty nodes (hlength ▸ h)
  · obtain ⟨a, ha⟩ := exists_firstRepeat (mt (List.reverse_perm nodes).nodup_iff.mp hnodup)
    exact ⟨a, ha, Reclaimer.releaseAll_last_of_firstRepeat ha,
      fun b hb => Fault.message_retiredTwice_injective hb⟩

/-- Three nodes, the second of which is put on the stack at the third attempt only; and five, the
last two of which were retired before. It is the last one that is named. -/
theorem releases_all_or_nothing_of_two_doubled :
    let once : List (Retirement UInt64 Bool) :=
      [⟨⟨8, true⟩, 0⟩, ⟨⟨0, false⟩, 2⟩, ⟨⟨16, true⟩, 0⟩]
    let twice : List (Retirement UInt64 Bool) :=
      [⟨⟨9, true⟩, 0⟩, ⟨⟨10, true⟩, 1⟩, ⟨⟨11, false⟩, 0⟩, ⟨⟨9, true⟩, 0⟩, ⟨⟨11, false⟩, 0⟩]
    (∃ states, (∅ : RecordStack UInt64 Bool).retireAll once = .ok states ∧
      ∀ n, 8 ≤ n → ∃ t, (states.getLast?.getD ∅).endAfter n = ⟨.finished, t⟩ ∧
        t.released = [⟨16, true⟩, ⟨0, false⟩, ⟨8, true⟩]) ∧
    (∃ states, (∅ : RecordStack UInt64 Bool).retireAll twice = .ok states ∧
      states.map (fun s => (s.count.toNat, s.released)) =
        [(1, []), (2, []), (3, []), (4, []), (5, [])] ∧
      ∀ n, 12 ≤ n →
        (states.getLast?.getD ∅).endAfter n = ⟨.stopped 11, states.getLast?.getD ∅⟩) ∧
    ((({} : Reclaimer UInt64).retireAll [9, 10, 11, 9, 11]).getLast?.getD {}).releaseAll =
      .error 11 ∧
    (Fault.retiredTwice 11).message = "node 0xb retired twice" := by
  intro once twice
  obtain ⟨-, -, -, states, hstates, -, hend⟩ := releases_all_or_nothing once (by decide)
  obtain ⟨-, -, hdoubled, states', hstates', hcounts, hend'⟩ :=
    releases_all_or_nothing twice (by decide)
  have hrepeat : FirstRepeat (11 : UInt64) [11, 9, 11, 10, 9] :=
    ⟨[11, 9], [10, 9], rfl, by decide, by decide⟩
  obtain ⟨a, ha, hrelease, -⟩ := hdoubled (by decide)
  cases ha.unique hrepeat
  refine ⟨⟨states, hstates, fun n hn => ?_⟩,
    ⟨states', hstates', hcounts, fun n hn => hend'.nothing 11 hrepeat n hn⟩, hrelease, by decide⟩
  obtain ⟨t, hfinished, hreleased, -⟩ := hend.all (by decide) n hn
  exact ⟨t, hfinished, hreleased⟩

end RecordStack

end SplitOrder
