import SplitOrder.Proofs.List.Listing
import SplitOrder.Proofs.List.Write

/-!
# Iterations

A cursor walks along a list while others work on it. What it yields in the end is not the contents
of the list at any one moment, and yet it is not arbitrary. `WeaklyConsistent` says what can be
relied on, for a run that is given by what was seen of the cursor in each step and by the list after
it.

* `Ahead.evolves` — what the nodes ahead of a cursor are worth when the list has changed: the cursor
  may stand on a node that was taken off, but no node ahead is lost to it unless it was deleted.
* `Iteration` — a run of steps by others and calls on one cursor, and `Disciplined`, the two things
  that are asked of them: that others only do to the list what may be done, and that a call shows
  what it passes.
* `Track` — such a run with the nodes that are ahead of the cursor in each step, and
  `Iteration.exists_ahead` — that they can be followed through it. Whatever else is said of the run
  is an induction over that.
* `Iteration.weaklyConsistent_run` — the run lemma.
-/

namespace SplitOrder

open SortedList

variable {α : Type}

/-! ### What is seen of an iteration -/

/-- What is seen of a cursor in one step. -/
inductive Sight (α : Type) where
  /-- Neither an element nor the end. -/
  | nothing
  | yielded (a : α)
  /-- The report that no element is left. -/
  | exhausted
deriving DecidableEq, Repr

namespace Sight

/-- An element, or the end in its place. -/
def ofItem? : Option α → Sight α
  | some a => .yielded a
  | none => .exhausted

def elements : Sight α → List α
  | .yielded a => [a]
  | .nothing | .exhausted => []

@[simp] theorem elements_ofItem? (item : Option α) : (ofItem? item).elements = item.toList := by
  cases item <;> rfl

@[simp] theorem ofItem?_eq_exhausted_iff {item : Option α} :
    ofItem? item = .exhausted ↔ item = none := by
  cases item <;> simp [ofItem?]

theorem elements_eq_of_mem {sight : Sight α} {a : α} (h : a ∈ sight.elements) :
    sight.elements = [a] := by
  cases sight with
  | nothing | exhausted => cases h
  | yielded b => rw [List.mem_singleton.mp h, elements]

/-- The cursor is seen behind `a`: it yields a greater element, or it is at the end. -/
def Behind [Ord α] (a : α) : Sight α → Prop
  | .nothing => False
  | .yielded b => compare a b = .lt
  | .exhausted => True

end Sight

/-- One step of a run: what is seen of the cursor, and the list after the step. -/
structure Observation (α : Type) where
  sight : Sight α
  list : SortedList α

/-- All that is yielded in a run. -/
def yields (run : List (Observation α)) : List α :=
  run.flatMap (·.sight.elements)

theorem yields_append (run run' : List (Observation α)) :
    yields (run ++ run') = yields run ++ yields run' :=
  List.flatMap_append

@[simp] theorem yields_cons (o : Observation α) (run : List (Observation α)) :
    yields (o :: run) = o.sight.elements ++ yields run := rfl

/-- The element `a` is not deleted in a run: the node that holds it in the beginning holds it after
every step. If it were deleted and inserted again, another node would hold it then. -/
def StaysLive (start : SortedList α) (run : List (Observation α)) (a : α) : Prop :=
  ∃ i, start.Holds i a ∧ ∀ o ∈ run, o.list.Holds i a

/-- **Weak consistency.** What can be relied on in an iteration that began on the list `start`, if
the elements to be yielded are those that are visible. -/
structure WeaklyConsistent [Ord α] (visible : α → Bool) (start : SortedList α)
    (run : List (Observation α)) : Prop where
  /-- What is yielded is strictly ascending. -/
  ascending : (yields run).Pairwise fun a b => compare a b = .lt
  shown : ∀ a ∈ yields run, visible a = true
  /-- An element is live when it is yielded. -/
  live : ∀ o ∈ run, ∀ a, o.sight = .yielded a → a ∈ o.list.live
  /-- When the cursor is seen behind an element that has been live all the time, that element has
  been yielded, once. -/
  complete : ∀ before o after, run = before ++ o :: after → ∀ a, visible a = true →
    StaysLive start before a → o.sight.Behind a →
      (yields before).filter (compare · a == .eq) = [a]
  /-- Nothing is yielded any more when the end has been reported. -/
  ended : ∀ before o after, run = before ++ o :: after → o.sight = .exhausted → yields after = []

/-! ### Ways that change -/

namespace SortedList

variable [Ord α] {l l' : SortedList α} {o : Option NodeId} {is : List NodeId}

/-- **A write under a way.** The way from the same node on ends too, and only deleted nodes are lost
from it. -/
theorem Write.leads (hw : l.Write l') (h : l.Leads o is) (hlt : ∀ i ∈ is, i < l.nodes.size) :
    ∃ js, l'.Leads o js ∧ ∀ i ∈ is, (l'.link i).marked = false → i ∈ js := by
  -- on the way; what is asked is whether the node at its beginning is the one written
  induction h with
  | done => exact ⟨[], .done, fun _ hi => nomatch hi⟩
  | @step i is h ih =>
    obtain ⟨js, hjs, hkept⟩ := ih fun j hj => hlt j (List.mem_cons_of_mem i hj)
    have hi : i < l.nodes.size := hlt i List.mem_cons_self
    -- where the target is the old one, the node is put in front again
    have same : (l'.link i).target = (l.link i).target →
        ∃ ks, l'.Leads (some i) ks ∧ ∀ j ∈ i :: is, (l'.link j).marked = false → j ∈ ks := by
      intro ht
      refine ⟨i :: js, .step (ht ▸ hjs), fun j hj hm => ?_⟩
      rcases List.mem_cons.mp hj with rfl | hj
      · exact List.mem_cons_self
      · exact List.mem_cons_of_mem i (hkept j hj hm)
    cases hw with
    | @link pred curr a here inRange above below =>
      by_cases hip : i = pred
      · -- the new node comes in between
        subst hip
        rw [here] at hjs
        refine ⟨i :: l.nodes.size :: js, .step ?_, fun j hj hm => ?_⟩
        · rw [link_withNode_pred inRange]
          refine .step ?_
          rw [link_withNode_new]
          exact hjs
        · rcases List.mem_cons.mp hj with rfl | hj
          · exact List.mem_cons_self
          · exact List.mem_cons_of_mem _ (List.mem_cons_of_mem _ (hkept j hj hm))
      · exact same (by rw [link_withNode_of_ne inRange (Nat.ne_of_lt hi) hip])
    | @mark k succ here inRange ne_head =>
      refine same ?_
      by_cases hik : i = k
      · subst hik
        rw [link_setLink_self inRange, here]
      · rw [link_setLink_of_ne inRange hik]
    | @unlink pred curr succ here frozen =>
      have hp : pred < l.nodes.size := lt_size_of_target (by rw [here])
      have hcurr : (l.setLink pred ⟨succ, false⟩).link curr = ⟨succ, true⟩ := by
        rw [link_setLink_of_ne hp, frozen]
        rintro rfl
        rw [here] at frozen
        cases frozen
      by_cases hip : i = pred
      · -- the node that is left out is a deleted one
        subst hip
        rw [here] at hjs
        cases hjs with
        | @step _ js hjs =>
          rw [hcurr] at hjs
          refine ⟨i :: js, .step (by rw [link_setLink_self hp]; exact hjs), fun j hj hm => ?_⟩
          rcases List.mem_cons.mp hj with rfl | hj
          · exact List.mem_cons_self
          · rcases List.mem_cons.mp (hkept j hj hm) with rfl | hj
            · rw [hcurr] at hm
              cases hm
            · exact List.mem_cons_of_mem i hj
      · exact same (by rw [link_setLink_of_ne hp hip])
    | retire marked unlinked => exact same rfl

end SortedList

namespace Cursor

variable {l l' : SortedList α} {c c' : Cursor} {is js : List NodeId} {as : List α} {a : α}

theorem Ahead.lt_size (h : Ahead l c is) {i : NodeId} (hi : i ∈ is) : i < l.nodes.size := by
  obtain ⟨a, ha⟩ := h.element i hi
  exact lt_size_of_element ha

variable [Ord α] [Std.TransOrd α]

omit [Ord α] [Std.TransOrd α] in
/-- A cursor has nothing ahead when it stands at no node. -/
theorem Ahead.candidate_eq_none_iff (h : Ahead l c is) : c.candidate = none ↔ is = [] := by
  have hleads := h.leads
  constructor
  · intro hc
    rw [hc] at hleads
    cases hleads
    rfl
  · rintro rfl
    cases hc : c.candidate with
    | none => rfl
    | some i => rw [hc] at hleads; cases hleads

/-- The nodes ahead carry ascending elements. -/
theorem Ahead.pairwise (h : Ahead l c is) (hl : l.Ordered) : is.Pairwise l.Before := by
  cases hc : c.candidate with
  | none =>
    have hleads := h.leads
    rw [hc] at hleads
    cases hleads
    exact .nil
  | some i =>
    obtain ⟨js, rfl, hleads⟩ := h.eq_cons hc
    rw [← hl.trail_eq hleads]
    exact hl.pairwise_cons_trail i

/-- On an ordered list any way that begins at a node with an element is one for a cursor. -/
theorem ahead_of_leads (hl : l.Ordered) (hleads : l.Leads c.candidate is)
    (hc : ∀ i, c.candidate = some i → ∃ a, (l.node i).element? = some a) : Ahead l c is := by
  cases hi : c.candidate with
  | none =>
    rw [hi] at hleads
    cases hleads
    exact ⟨by rw [hi]; exact .done, Nat.succ_pos _, fun _ hj => nomatch hj⟩
  | some i =>
    obtain ⟨a, ha⟩ := hc i hi
    have his : is = i :: l.trail i := by
      rw [hi] at hleads
      exact hleads.unique (.step (hl.leads_trail i))
    subst his
    have helem : ∀ j ∈ i :: l.trail i, ∃ b, (l.node j).element? = some b := by
      intro j hj
      rcases List.mem_cons.mp hj with rfl | hj
      · exact ⟨a, ha⟩
      · obtain ⟨b, hb, -⟩ := hl.before_of_mem_trail hj
        exact ⟨b, hb⟩
    refine ⟨hleads, ?_, helem⟩
    -- distinct nodes, all of which were linked some time
    have hsub : i :: l.trail i ⊆ List.range l.nodes.size := by
      intro j hj
      obtain ⟨b, hb⟩ := helem j hj
      exact List.mem_range.mpr (lt_size_of_element hb)
    have hle := (hl.nodup_cons_trail i).length_le_of_subset hsub
    rw [List.length_range] at hle
    exact Nat.lt_succ_of_le hle

/-- **What is ahead when the list has changed.** Only deleted nodes are lost. -/
theorem Ahead.evolves (h : Ahead l c is) (hl : l.Sound) (he : l.Evolves l') :
    ∃ js, Ahead l' c js ∧ ∀ i ∈ is, (l'.link i).marked = false → i ∈ js := by
  induction he with
  | refl => exact ⟨is, h, fun _ hi _ => hi⟩
  | @tail l₁ l₂ he hw ih =>
    obtain ⟨js, hjs, hkept⟩ := ih
    have hl₁ : l₁.Sound := (hl.evolves he).1
    have hlater : l₁.Later l₂ := hw.later hl₁
    obtain ⟨ks, hks, hkept'⟩ := hw.leads hjs.leads fun i hi => hjs.lt_size hi
    refine ⟨ks, ahead_of_leads (hw.sound hl₁).toOrdered hks fun i hi => ?_, fun i hi hm => ?_⟩
    · -- the node that the cursor stands at keeps its element
      obtain ⟨js', rfl, -⟩ := hjs.eq_cons hi
      obtain ⟨a, ha⟩ := hjs.element i List.mem_cons_self
      exact ⟨a, (hlater.element (lt_size_of_element ha)).trans ha⟩
    · -- a node that is not deleted now was not deleted before
      refine hkept' i (hkept i hi ?_) hm
      cases hm₁ : (l₁.link i).marked with
      | false => rfl
      | true => rw [hlater.frozen hm₁, hm₁] at hm; cases hm

/-- All nodes of a way carry elements greater than `a`. -/
def Beyond (l : SortedList α) (a : α) (is : List NodeId) : Prop :=
  ∀ i ∈ is, ∀ b, (l.node i).element? = some b → compare a b = .lt

/-- The cursor still has greater elements ahead, since it stands at the node it stood at. -/
theorem Beyond.evolves (hb : Beyond l a is) (h : Ahead l c is) (h' : Ahead l' c js)
    (hl' : l'.Ordered) (hlater : l.Later l') : Beyond l' a js := by
  intro j hj b hjb
  cases hc : c.candidate with
  | none =>
    have hleads := h'.leads
    rw [hc] at hleads
    cases hleads
    cases hj
  | some i =>
    obtain ⟨is', rfl, -⟩ := h.eq_cons hc
    obtain ⟨js', rfl, -⟩ := h'.eq_cons hc
    obtain ⟨d, hd⟩ := h.element i List.mem_cons_self
    have had : compare a d = .lt := hb i List.mem_cons_self d hd
    have hd' : (l'.node i).element? = some d :=
      (hlater.element (lt_size_of_element hd)).trans hd
    rcases List.mem_cons.mp hj with rfl | hj
    · rw [hd'] at hjb
      cases hjb
      exact had
    · have hij : l'.Before i j := List.rel_of_pairwise_cons (h'.pairwise hl') hj
      exact Std.TransCmp.lt_trans had (hij.compare_eq hd' hjb)

omit [Std.TransOrd α] in
/-- What is left ahead is greater than what was passed. -/
theorem Passes.beyond (h : Passes l is as c' js) (hlt : is.Pairwise l.Before) (ha : a ∈ as) :
    Beyond l a js := by
  obtain ⟨xs, rfl, rfl⟩ := h.passed
  obtain ⟨i, hi, hia⟩ := mem_liveOf_iff.mp ha
  intro j hj b hb
  exact ((List.pairwise_append.mp hlt).2.2 i hi j hj).compare_eq hia.1 hb

omit [Std.TransOrd α] in
/-- What is passed is greater than whatever all nodes ahead were beyond. -/
theorem Beyond.passes (hb : Beyond l a is) (h : Passes l is as c' js) :
    (∀ b ∈ as, compare a b = .lt) ∧ Beyond l a js := by
  obtain ⟨xs, rfl, rfl⟩ := h.passed
  refine ⟨fun b hmem => ?_, fun j hj => hb j (List.mem_append_right xs hj)⟩
  obtain ⟨i, hi, hib⟩ := mem_liveOf_iff.mp hmem
  exact hb i (List.mem_append_left js hi) b hib.1

end Cursor

/-! ### Runs with a cursor -/

open Cursor

variable {σ : Type} {list : σ → SortedList α} {step : σ → σ → Prop}
  {call : σ → Cursor → Sight α → Cursor → Prop}

/-- **Runs.** Steps of others and calls on one cursor, in any order, from one state to another. -/
inductive Iteration (list : σ → SortedList α) (step : σ → σ → Prop)
    (call : σ → Cursor → Sight α → Cursor → Prop) :
    σ → Cursor → List (Observation α) → σ → Cursor → Prop
  | nil {s : σ} {c : Cursor} : Iteration list step call s c [] s c
  | step {s s' t : σ} {c d : Cursor} {run : List (Observation α)} (h : step s s')
      (rest : Iteration list step call s' c run t d) :
      Iteration list step call s c (⟨.nothing, list s'⟩ :: run) t d
  | call {s t : σ} {c c' d : Cursor} {sight : Sight α} {run : List (Observation α)}
      (h : call s c sight c') (rest : Iteration list step call s c' run t d) :
      Iteration list step call s c (⟨sight, list s⟩ :: run) t d

variable [Ord α]

/-- A call shows what it passes: the cursor is seen to yield the visible elements among those that
it passes, and nothing is ahead any more when the end is reported. -/
def Shows (visible : α → Bool) (l : SortedList α) (is : List NodeId) (sight : Sight α)
    (c' : Cursor) : Prop :=
  ∃ as js, Passes l is as c' js ∧ as.filter visible = sight.elements ∧
    (sight = .exhausted → js = [])

/-- **What is asked of a run.** Under an invariant others only do to the list what may be done, and
every call shows what it passes. -/
structure Disciplined (list : σ → SortedList α) (step : σ → σ → Prop)
    (call : σ → Cursor → Sight α → Cursor → Prop) (visible : α → Bool) (inv : σ → Prop) :
    Prop where
  sound : ∀ {s}, inv s → (list s).Sound
  step : ∀ {s s'}, inv s → step s s' → (list s).Evolves (list s') ∧ inv s'
  call : ∀ {s c is sight c'}, inv s → Ahead (list s) c is → call s c sight c' →
    Shows visible (list s) is sight c'

/-- **A run with the nodes ahead.** When others had their turn only deleted nodes are lost from
them, and a call takes those away that it passes. -/
inductive Track (visible : α → Bool) :
    SortedList α → Cursor → List NodeId → List (Observation α) → Prop
  | nil {l : SortedList α} {c : Cursor} {is : List NodeId} : Track visible l c is []
  | step {l l' : SortedList α} {c : Cursor} {is js : List NodeId} {run : List (Observation α)}
      (hl : l.Sound) (h : Ahead l c is) (he : l.Evolves l') (h' : Ahead l' c js)
      (hkept : ∀ i ∈ is, (l'.link i).marked = false → i ∈ js)
      (rest : Track visible l' c js run) : Track visible l c is (⟨.nothing, l'⟩ :: run)
  | call {l : SortedList α} {c c' : Cursor} {is js : List NodeId} {as : List α} {sight : Sight α}
      {run : List (Observation α)} (hl : l.Sound) (h : Ahead l c is)
      (hpasses : Passes l is as c' js) (hshown : as.filter visible = sight.elements)
      (hend : sight = .exhausted → js = []) (rest : Track visible l c' js run) :
      Track visible l c is (⟨sight, l⟩ :: run)

variable [Std.TransOrd α] {visible : α → Bool} {inv : σ → Prop} {s t : σ} {c d : Cursor}
  {run : List (Observation α)} {is : List NodeId}

/-- **Simulation.** The nodes ahead can be followed through a disciplined run, to its end. -/
theorem Iteration.exists_ahead (D : Disciplined list step call visible inv)
    (hrun : Iteration list step call s c run t d) (hs : inv s) (h : Ahead (list s) c is) :
    inv t ∧ (∃ js, Ahead (list t) d js) ∧ Track visible (list s) c is run := by
  -- on the run: the invariant makes the list of each state sound, so what is ahead can be followed
  induction hrun generalizing is with
  | nil => exact ⟨hs, ⟨is, h⟩, .nil⟩
  | step hstep _ ih =>
    obtain ⟨he, hs'⟩ := D.step hs hstep
    obtain ⟨js, hjs, hkept⟩ := h.evolves (D.sound hs) he
    obtain ⟨ht, hahead, htrack⟩ := ih hs' hjs
    exact ⟨ht, hahead, .step (D.sound hs) h he hjs hkept htrack⟩
  | call hcall _ ih =>
    obtain ⟨as, js, hpasses, hshown, hend⟩ := D.call hs h hcall
    obtain ⟨ht, hahead, htrack⟩ := ih hs hpasses.ahead
    exact ⟨ht, hahead, .call (D.sound hs) h hpasses hshown hend htrack⟩

/-! ### What follows -/

namespace Track

variable {l : SortedList α} {a : α}

/-- Whatever all nodes ahead are beyond, all that is yielded is greater. -/
theorem lt_of_mem_yields (ht : Track visible l c is run) (hb : Beyond l a is) :
    ∀ b ∈ yields run, compare a b = .lt := by
  -- on the run: the nodes ahead stay beyond `a`, whether they change or are passed
  induction ht with
  | nil => exact fun b hb => nomatch hb
  | step hl h he h' _ _ ih =>
    obtain ⟨hl', hlater⟩ := hl.evolves he
    exact ih (hb.evolves h h' hl'.toOrdered hlater)
  | call _ _ hpasses hshown _ _ ih =>
    obtain ⟨has, hjs⟩ := hb.passes hpasses
    intro b hmem
    rw [yields_cons, ← hshown] at hmem
    rcases List.mem_append.mp hmem with hmem | hmem
    · exact has b (List.mem_filter.mp hmem).1
    · exact ih hjs b hmem

/-- What a call shows is less than all that comes later. -/
theorem lt_of_shown {sight : Sight α} {c' : Cursor} {as : List α} {js : List NodeId}
    (ht : Track visible l c' js run) (hl : l.Sound) (h : Ahead l c is)
    (hpasses : Passes l is as c' js) (hshown : as.filter visible = sight.elements)
    (ha : a ∈ sight.elements) : ∀ b ∈ yields run, compare a b = .lt := by
  rw [← hshown] at ha
  refine ht.lt_of_mem_yields ?_
  exact hpasses.beyond (h.pairwise hl.toOrdered) (List.mem_filter.mp ha).1

theorem pairwise_yields (ht : Track visible l c is run) :
    (yields run).Pairwise fun a b => compare a b = .lt := by
  induction ht with
  | nil => exact .nil
  | step _ _ _ _ _ _ ih => exact ih
  | @call l c c' is js as sight run hl h hpasses hshown _ rest ih =>
    refine List.pairwise_append.mpr ⟨?_, ih, fun a ha => ?_⟩
    · cases sight <;> simp [Sight.elements]
    · exact rest.lt_of_shown hl h hpasses hshown ha

omit [Std.TransOrd α] in
theorem visible_of_mem_yields (ht : Track visible l c is run) :
    ∀ a ∈ yields run, visible a = true := by
  induction ht with
  | nil => exact fun a ha => nomatch ha
  | step _ _ _ _ _ _ ih => exact ih
  | call _ _ _ hshown _ _ ih =>
    intro a ha
    rw [yields_cons, ← hshown] at ha
    rcases List.mem_append.mp ha with ha | ha
    · exact (List.mem_filter.mp ha).2
    · exact ih a ha

omit [Std.TransOrd α] in
theorem mem_live_of_yielded (ht : Track visible l c is run) :
    ∀ o ∈ run, ∀ a, o.sight = .yielded a → a ∈ o.list.live := by
  induction ht with
  | nil => exact fun o ho => nomatch ho
  | step _ _ _ _ _ _ ih =>
    intro o ho a ha
    rcases List.mem_cons.mp ho with rfl | ho
    · cases ha
    · exact ih o ho a ha
  | @call l c c' is js as sight run hl _ hpasses hshown _ _ ih =>
    intro o ho a ha
    rcases List.mem_cons.mp ho with rfl | ho
    · -- the element is held by a node that was passed
      obtain rfl : sight = .yielded a := ha
      have hmem : a ∈ as.filter visible := hshown ▸ List.mem_singleton_self a
      obtain ⟨xs, -, rfl⟩ := hpasses.passed
      obtain ⟨i, -, hi⟩ := mem_liveOf_iff.mp (List.mem_filter.mp hmem).1
      exact hl.mem_live_iff.mpr ⟨i, hi⟩
    · exact ih o ho a ha

omit [Std.TransOrd α] in
/-- With nothing ahead there is nothing to yield, whatever is linked later. -/
theorem yields_eq_nil (ht : Track visible l c is run) (his : is = []) : yields run = [] := by
  induction ht with
  | nil => rfl
  | step _ h _ h' _ _ ih =>
    -- the cursor stands at no node, so it has no way ahead on the other list either
    exact ih (h'.candidate_eq_none_iff.mp (h.candidate_eq_none_iff.mpr his))
  | @call l c c' is js as sight run _ _ hpasses hshown _ _ ih =>
    obtain ⟨xs, hxs, rfl⟩ := hpasses.passed
    obtain ⟨rfl, rfl⟩ := List.append_eq_nil_iff.mp (hxs.symm.trans his)
    have hnone : sight.elements = [] := hshown.symm
    rw [yields_cons, ih rfl, hnone]
    rfl

omit [Std.TransOrd α] in
theorem yields_eq_nil_of_exhausted (ht : Track visible l c is run)
    {before after : List (Observation α)} {o : Observation α} (heq : run = before ++ o :: after)
    (ho : o.sight = .exhausted) : yields after = [] := by
  induction ht generalizing before with
  | nil => exact absurd heq.symm (by simp)
  | step _ _ _ _ _ _ ih =>
    cases before with
    | nil =>
      obtain ⟨rfl, -⟩ := List.cons.inj heq
      cases ho
    | cons p before => exact ih (List.cons.inj heq).2
  | call _ _ _ _ hend rest ih =>
    cases before with
    | nil =>
      -- this is the call that reports the end, and nothing is ahead any more
      obtain ⟨rfl, rfl⟩ := List.cons.inj heq
      exact rest.yields_eq_nil (hend ho)
    | cons p before => exact ih (List.cons.inj heq).2

end Track

/-- A cursor is never seen behind an element that a node ahead of it holds. -/
theorem not_behind_of_mem {l : SortedList α} {a : α} {sight : Sight α} {as : List α}
    {js : List NodeId} {c' : Cursor} (hl : l.Sound) (h : Ahead l c is)
    (hpasses : Passes l is as c' js) (hshown : as.filter visible = sight.elements)
    (hend : sight = .exhausted → js = []) {i : NodeId} (hi : i ∈ is) (ha : l.Holds i a)
    (hv : visible a = true) : ¬ sight.Behind a := by
  have hlt := h.pairwise hl.toOrdered
  have hbeyond : ∀ b ∈ as, Beyond l b js := fun b hb => hpasses.beyond hlt hb
  obtain ⟨xs, rfl, rfl⟩ := hpasses.passed
  intro hbehind
  rcases List.mem_append.mp hi with hi | hi
  · -- it is passed now, so it is what the call yields
    have hmem : a ∈ sight.elements := by
      rw [← hshown]
      exact List.mem_filter.mpr ⟨mem_liveOf_iff.mpr ⟨i, hi, ha⟩, hv⟩
    cases sight with
    | nothing | exhausted => cases hmem
    | yielded b =>
      rw [← List.mem_singleton.mp hmem] at hbehind
      exact absurd (Std.compare_self.symm.trans hbehind) (by decide)
  · -- it is still ahead, so what the call yields is less
    cases sight with
    | nothing => exact hbehind
    | exhausted => rw [hend rfl] at hi; cases hi
    | yielded b =>
      have hmem : b ∈ l.liveOf xs := by
        have hb : b ∈ (l.liveOf xs).filter visible := hshown ▸ List.mem_singleton_self b
        exact (List.mem_filter.mp hb).1
      exact Std.OrientedCmp.not_lt_of_lt hbehind (hbeyond b hmem i hi a ha.1)

/-- **No element is missed or repeated.** An element ahead that is not deleted has been yielded
once when the cursor is seen behind it. -/
theorem Track.filter_yields_eq {l : SortedList α} {a : α} (ht : Track visible l c is run)
    {i : NodeId} (hi : i ∈ is) (ha : l.Holds i a) (hv : visible a = true)
    {before after : List (Observation α)} {o : Observation α} (heq : run = before ++ o :: after)
    (hstays : ∀ p ∈ before, p.list.Holds i a) (ho : o.sight.Behind a) :
    (yields before).filter (compare · a == .eq) = [a] := by
  -- on the run: the element stays ahead until the call that passes its node, which yields it
  induction ht generalizing before with
  | nil => exact absurd heq.symm (by simp)
  | step _ _ _ _ hkept _ ih =>
    cases before with
    | nil =>
      obtain ⟨rfl, -⟩ := List.cons.inj heq
      exact ho.elim
    | cons p before =>
      obtain ⟨rfl, hrest⟩ := List.cons.inj heq
      have ha' := hstays _ List.mem_cons_self
      show (yields before).filter (compare · a == .eq) = [a]
      exact ih (hkept i hi ha'.2) ha' hrest fun p hp => hstays p (List.mem_cons_of_mem _ hp)
  | @call l c c' is js as sight run hl h hpasses hshown hend rest ih =>
    cases before with
    | nil =>
      -- the cursor would be seen behind an element that is still ahead
      obtain ⟨rfl, -⟩ := List.cons.inj heq
      exact absurd ho (not_behind_of_mem hl h hpasses hshown hend hi ha hv)
    | cons p before =>
      obtain ⟨rfl, rfl⟩ := List.cons.inj heq
      have hlater := fun b hb => rest.lt_of_shown (a := b) hl h hpasses hshown hb
      have hlt := h.pairwise hl.toOrdered
      have hbeyond : ∀ b ∈ as, Beyond l b js := fun b hb => hpasses.beyond hlt hb
      have hbefore : yields before ⊆ yields (before ++ o :: after) := by
        rw [yields_append]
        exact List.subset_append_left _ _
      obtain ⟨xs, rfl, rfl⟩ := hpasses.passed
      rw [yields_cons, List.filter_append]
      rcases List.mem_append.mp hi with hi | hi
      · -- it is yielded now, and all that comes later is greater
        have hmem : a ∈ sight.elements := by
          rw [← hshown]
          exact List.mem_filter.mpr ⟨mem_liveOf_iff.mpr ⟨i, hi, ha⟩, hv⟩
        have hnone : (yields before).filter (compare · a == .eq) = [] := by
          refine List.filter_eq_nil_iff.mpr fun b hb => ?_
          have hab := hlater a hmem b (hbefore hb)
          simp [Std.OrientedCmp.gt_of_lt hab]
        rw [Sight.elements_eq_of_mem hmem, hnone]
        simp
      · -- it is still ahead, and what is yielded now is less
        have hnone : sight.elements.filter (compare · a == .eq) = [] := by
          refine List.filter_eq_nil_iff.mpr fun b hb => ?_
          rw [← hshown] at hb
          simp [hbeyond b (List.mem_filter.mp hb).1 i hi a ha.1]
        rw [hnone, List.nil_append]
        exact ih hi ha rfl fun p hp => hstays p (List.mem_cons_of_mem _ hp)

/-- **Run lemma.** A run with a cursor that begins at the first node is weakly consistent, and in
its end the cursor has a way ahead. -/
theorem Iteration.weaklyConsistent_run (D : Disciplined list step call visible inv)
    (hrun : Iteration list step call s (list s).cursor run t d) (hs : inv s) :
    WeaklyConsistent visible (list s) run ∧ inv t ∧ ∃ js, Ahead (list t) d js := by
  have hl : (list s).Sound := D.sound hs
  obtain ⟨ht, hahead, htrack⟩ := hrun.exists_ahead D hs hl.toOrdered.ahead_cursor
  refine ⟨⟨htrack.pairwise_yields, htrack.visible_of_mem_yields, htrack.mem_live_of_yielded, ?_,
    fun before o after heq ho => htrack.yields_eq_nil_of_exhausted heq ho⟩, ht, hahead⟩
  rintro before o after heq a hv ⟨i, ha, hstays⟩ ho
  exact htrack.filter_yields_eq (hl.mem_linked ha) ha hv heq hstays ho

end SplitOrder
