import SplitOrder.Proofs.List.Iteration
import SplitOrder.Proofs.List.Update

/-!
# One pass, one attempt

The loops of searches, insertions and deletions go round again when a write fails, and the loops of
cursors go round as long as they meet deleted nodes. On a sound list, and from a live node in front
of the place, no write fails, so nothing is done twice; and every cursor comes to an end.

Nothing is asked of the probe. A probe that does not agree with the order of the elements may lead a
search to any place, but it leads it there in one pass.

* `Smooth` — a pass in which every unlinking succeeds, with the nodes that it leaves behind, one in
  each step. `walk_eq_ok_arrived_iff`: such passes are the ones that arrive.
* `Smooth.met_isPrefix` — the nodes that it leaves behind are the first ones behind the start.
* `SearchesOnce`, `InsertsOnce`, `ClaimsOnce` — the loops are over when they have been gone through
  once, however often they might be.
* `Cursor.OnNode` — the cursors that there can be, `OnNode.exists_firstLive` — their loops end.
* `Sound.neverRetries` — all this holds of every sound list.
-/

namespace SplitOrder

namespace SortedList

variable {α : Type}

/-- **A pass that is not disturbed**, standing between two nodes. In each step it leaves one of the
nodes `met` behind, and every deleted node that it meets is unlinked. -/
inductive Smooth (probe : Probe α) : SortedList α → NodeId → Option NodeId → List NodeId →
    Location → SortedList α → Prop
  | done {l : SortedList α} {pred : NodeId} : Smooth probe l pred none [] ⟨pred, none⟩ l
  /-- A live node that is not in front of the place. -/
  | stop {l : SortedList α} {pred c : NodeId} {a : α} (unmarked : (l.link c).marked = false)
      (element : l.element c = .ok a) (ge : probe a ≠ .lt) :
      Smooth probe l pred (some c) [] ⟨pred, some c⟩ l
  /-- A live node that is in front of it. -/
  | pass {l l' : SortedList α} {pred c : NodeId} {a : α} {met : List NodeId} {loc : Location}
      (unmarked : (l.link c).marked = false) (element : l.element c = .ok a) (lt : probe a = .lt)
      (rest : Smooth probe l c (l.link c).target met loc l') :
      Smooth probe l pred (some c) (c :: met) loc l'
  | unlink {l l₁ l' : SortedList α} {pred c : NodeId} {met : List NodeId} {loc : Location}
      (marked : (l.link c).marked = true)
      (succeeds : l.unlink pred c (l.link c).target = (true, l₁))
      (rest : Smooth probe l₁ pred (l.link c).target met loc l') :
      Smooth probe l pred (some c) (c :: met) loc l'

variable {l l' l₁ : SortedList α} {probe : Probe α} {pred start : NodeId} {curr : Option NodeId}
  {met : List NodeId} {loc : Location}

/-! ### Passes with and without a bound -/

/-- A pass that is not disturbed arrives as soon as it has more steps than nodes to leave behind. -/
theorem Smooth.walk_eq (h : Smooth probe l pred curr met loc l') {steps : Nat}
    (hsteps : met.length < steps) : l.walk probe steps pred curr = .ok (.arrived loc, l') := by
  induction h generalizing steps with
  | done =>
    obtain ⟨n, rfl⟩ : ∃ n, steps = n + 1 := ⟨steps - 1, by omega⟩
    rfl
  | stop unmarked element ge =>
    obtain ⟨n, rfl⟩ : ∃ n, steps = n + 1 := ⟨steps - 1, by omega⟩
    simp only [walk, unmarked, Bool.false_eq_true, if_false, element, Checked.ok_bind, if_neg ge]
    rfl
  | pass unmarked element lt _ ih =>
    rw [List.length_cons] at hsteps
    obtain ⟨n, rfl⟩ : ∃ n, steps = n + 1 := ⟨steps - 1, by omega⟩
    simp only [walk, unmarked, Bool.false_eq_true, if_false, element, Checked.ok_bind, if_pos lt]
    exact ih (by omega)
  | unlink marked succeeds _ ih =>
    rw [List.length_cons] at hsteps
    obtain ⟨n, rfl⟩ : ∃ n, steps = n + 1 := ⟨steps - 1, by omega⟩
    simp only [walk, marked, if_true, succeeds]
    exact ih (by omega)

/-- A pass that arrived was not disturbed. -/
theorem exists_smooth_of_walk {steps : Nat}
    (h : l.walk probe steps pred curr = .ok (.arrived loc, l')) :
    ∃ met, met.length < steps ∧ Smooth probe l pred curr met loc l' := by
  -- on the steps, as the pass itself goes
  induction steps generalizing l pred curr with
  | zero => cases h
  | succ steps ih =>
    cases curr with
    | none =>
      cases h
      exact ⟨[], Nat.succ_pos _, .done⟩
    | some c =>
      rw [walk] at h
      cases hmark : (l.link c).marked with
      | true =>
        simp only [hmark, if_true] at h
        cases hunlink : l.unlink pred c (l.link c).target with
        | mk succeeded l₁ =>
          rw [hunlink] at h
          cases succeeded with
          | false => cases h
          | true =>
            obtain ⟨met, hlt, hrest⟩ := ih h
            exact ⟨c :: met, Nat.succ_lt_succ hlt, .unlink hmark hunlink hrest⟩
      | false =>
        simp only [hmark, Bool.false_eq_true, if_false] at h
        obtain ⟨a, ha, h⟩ := Checked.bind_eq_ok.mp h
        split at h
        · next hlt =>
          obtain ⟨met, hmet, hrest⟩ := ih h
          exact ⟨c :: met, Nat.succ_lt_succ hmet, .pass hmark ha hlt hrest⟩
        · next hge =>
          cases h
          exact ⟨[], Nat.succ_pos _, .stop hmark ha hge⟩

/-- **A pass arrives exactly if nothing disturbs it** and it has steps enough. -/
theorem walk_eq_ok_arrived_iff {steps : Nat} :
    l.walk probe steps pred curr = .ok (.arrived loc, l') ↔
      ∃ met, met.length < steps ∧ Smooth probe l pred curr met loc l' := by
  constructor
  · exact exists_smooth_of_walk
  · rintro ⟨met, hlt, h⟩
    exact h.walk_eq hlt

/-! ### Loops that are gone through once -/

/-- **A search is one pass.** The pass is not disturbed, and each of its steps leaves another one of
the nodes behind the start, so it needs no more steps than there are such nodes. The search ends with
it, whatever number of passes it may make. -/
def SearchesOnce (l : SortedList α) (probe : Probe α) (start : NodeId) : Prop :=
  ∃ met loc l', Smooth probe l start (l.link start).target met loc l' ∧ met <+: l.trail start ∧
    (∀ steps, met.length < steps →
      l.walk probe steps start (l.link start).target = .ok (.arrived loc, l')) ∧
    ∀ passes, l.searchWithin start probe (passes + 1) = .ok (loc, l')

/-- **A deletion is decided at once.** The node that the search found is live, and the mark is set;
this is the end, whatever number of attempts may be made. -/
def ClaimsOnce (l : SortedList α) (probe : Probe α) (start : NodeId) : Prop :=
  ∃ loc l₁ found, l.search start probe = .ok (loc, l₁) ∧
    l₁.matching? probe loc.curr = .ok found ∧
    (∀ i, found = some i → (l₁.link i).marked = false ∧ (l₁.mark i (l₁.link i).target).1 = true) ∧
    ∃ claim l', ∀ attempts, l.claimWithin start probe (attempts + 1) = .ok (claim, l')

variable [Ord α]

/-- **An insertion is made at once.** If no equal element is found, the new node is linked; this is
the end, whatever number of attempts may be made. -/
def InsertsOnce (l : SortedList α) (a : α) (start : NodeId) : Prop :=
  ∃ loc l₁ found, l.search start (.ofElement a) = .ok (loc, l₁) ∧
    l₁.matching? (.ofElement a) loc.curr = .ok found ∧
    (found = none → (l₁.linkNew loc.pred loc.curr a).1 = some l₁.nodes.size) ∧
    ∃ ins l', ∀ attempts, l.insertWithin start a (attempts + 1) = .ok (ins, l')

variable [Std.TransOrd α]

/-- **The nodes left behind** are the first ones behind the start, in their order. -/
theorem Smooth.met_isPrefix (h : Smooth probe l pred curr met loc l') (hl : l.Sound)
    (hpred : l.InFront probe pred) (hcurr : (l.link pred).target = curr) :
    met <+: l.trail pred := by
  induction h with
  | done | stop => exact List.nil_prefix
  | @pass l l' pred c a met loc unmarked element lt _ ih =>
    have hc : l.Holds c a := ⟨element_eq_ok_iff.mp element, unmarked⟩
    rw [hl.trail_of_target_some hcurr]
    exact List.cons_prefix_cons.mpr ⟨rfl, ih hl (hc.inFront lt) rfl⟩
  | @unlink l l₁ l' pred c met loc marked succeeds _ ih =>
    have here : l.link pred = ⟨some c, false⟩ := hpred.link_eq hcurr
    have frozen : l.link c = ⟨(l.link c).target, true⟩ := Link.ext rfl marked
    rw [SortedList.unlink, compareAndSwap_eq, if_pos here] at succeeds
    cases succeeds
    -- what is ahead of the pass then was ahead of the node that is left out
    have hrest := ih (hl.setLink_unlink here frozen) ((trims_unlink here frozen).inFront hpred)
      (by rw [link_setLink_self hpred.lt_size])
    rw [hl.trail_unlink here frozen] at hrest
    rw [hl.trail_of_target_some hcurr]
    exact List.cons_prefix_cons.mpr ⟨rfl, hrest⟩

theorem Sound.searchesOnce (hl : l.Sound) (hi : l.InFront probe start) :
    l.SearchesOnce probe start := by
  obtain ⟨loc, l', hwalk, -⟩ := walk_spec hl hi rfl (hl.length_trail_lt start)
  obtain ⟨met, -, hsmooth⟩ := walk_eq_ok_arrived_iff.mp hwalk
  refine ⟨met, loc, l', hsmooth, hsmooth.met_isPrefix hl hi rfl, fun steps hsteps => ?_,
    fun passes => ?_⟩
  · exact walk_eq_ok_arrived_iff.mpr ⟨met, hsteps, hsmooth⟩
  · rw [searchWithin, hwalk]
    rfl

omit [Ord α] [Std.TransOrd α] in
/-- What is found is the node behind the place, and it holds what is sought. -/
theorem matching?_eq_ok_some {i : NodeId}
    (h : l.matching? probe curr = .ok (some i)) :
    curr = some i ∧ ∃ a, l.element i = .ok a ∧ probe a = .eq := by
  cases curr with
  | none => cases h
  | some c =>
    obtain ⟨a, ha, h⟩ := Checked.bind_eq_ok.mp h
    split at h
    · next heq =>
      cases h
      exact ⟨rfl, a, ha, heq⟩
    · cases h

omit [Ord α] [Std.TransOrd α] in
/-- To look at the node behind the place is no fault. -/
theorem Located.exists_matching? (h : l.Located probe loc) :
    ∃ found, l.matching? probe loc.curr = .ok found := by
  cases hcurr : loc.curr with
  | none => exact ⟨none, rfl⟩
  | some c =>
    obtain ⟨a, ha, -⟩ := h.curr c hcurr
    rw [matching?, element_eq_ok_iff.mpr ha.1, Checked.ok_bind]
    exact ⟨_, rfl⟩

theorem Sound.claimsOnce (hl : l.Sound) (hi : l.InFront probe start) :
    l.ClaimsOnce probe start := by
  obtain ⟨loc, l₁, hsearch, -, hloc⟩ := search_spec hl hi
  obtain ⟨found, hmatch⟩ := hloc.exists_matching?
  have hmark : ∀ i, found = some i → (l₁.link i).marked = false ∧
      l₁.mark i (l₁.link i).target = (true, l₁.setLink i ⟨(l₁.link i).target, true⟩) := by
    rintro i rfl
    obtain ⟨hcurr, -⟩ := matching?_eq_ok_some hmatch
    obtain ⟨a, ha, -⟩ := hloc.curr i hcurr
    have here : l₁.link i = ⟨(l₁.link i).target, false⟩ := Link.ext rfl ha.2
    exact ⟨ha.2, by rw [mark, compareAndSwap_eq, if_pos here]⟩
  refine ⟨loc, l₁, found, hsearch, hmatch, fun i h => ?_, ?_⟩
  · obtain ⟨hlive, hset⟩ := hmark i h
    exact ⟨hlive, by rw [hset]⟩
  · cases found with
    | none =>
      refine ⟨none, l₁, fun attempts => ?_⟩
      simp only [claimWithin, hsearch, hmatch, Checked.ok_bind]
      rfl
    | some i =>
      obtain ⟨hlive, hset⟩ := hmark i rfl
      refine ⟨some ⟨loc.pred, i, (l₁.link i).target⟩, l₁.setLink i ⟨(l₁.link i).target, true⟩,
        fun attempts => ?_⟩
      simp only [claimWithin, hsearch, hmatch, Checked.ok_bind, hlive, Bool.false_eq_true, if_false,
        hset]
      rfl

theorem Sound.insertsOnce {a : α} (hl : l.Sound) (hi : l.InFront (.ofElement a) start) :
    l.InsertsOnce a start := by
  obtain ⟨loc, l₁, hsearch, -, hloc⟩ := search_spec hl hi
  obtain ⟨found, hmatch⟩ := hloc.exists_matching?
  -- nobody came between the search and the write
  have here : l₁.link loc.pred = ⟨loc.curr, false⟩ := hloc.pred.link_eq hloc.adjacent
  have hlink : l₁.linkNew loc.pred loc.curr a =
      (some l₁.nodes.size, l₁.withNode loc.pred loc.curr a) := by
    rw [linkNew_eq, if_pos here]
  refine ⟨loc, l₁, found, hsearch, hmatch, fun _ => by rw [hlink], ?_⟩
  cases found with
  | some i =>
    refine ⟨.existing i, l₁, fun attempts => ?_⟩
    simp only [insertWithin, hsearch, hmatch, Checked.ok_bind]
    rfl
  | none =>
    refine ⟨.linked l₁.nodes.size, l₁.withNode loc.pred loc.curr a, fun attempts => ?_⟩
    simp only [insertWithin, hsearch, hmatch, Checked.ok_bind, hlink]
    rfl

end SortedList

/-! ### Cursors -/

namespace Cursor

open SortedList

variable {α : Type} {l : SortedList α} {c : Cursor} {is : List NodeId}

/-- **The cursors that there can be**: at the end, or at a node other than the head, whatever has
become of the node. -/
def OnNode (l : SortedList α) (c : Cursor) : Prop :=
  ∀ i, c.candidate = some i → i < l.nodes.size ∧ i ≠ head

/-- More steps make no difference. -/
theorem firstLive_mono {m n : Nat} {o r : Option NodeId} (h : firstLive l m o = .ok r)
    (hle : m ≤ n) : firstLive l n o = .ok r := by
  induction m generalizing n o with
  | zero => cases h
  | succ m ih =>
    obtain ⟨n, rfl⟩ : ∃ k, n = k + 1 := ⟨n - 1, by omega⟩
    cases o with
    | none => exact h
    | some i =>
      rw [firstLive] at h ⊢
      split at h
      · next hm =>
        rw [if_pos hm]
        exact ih h (by omega)
      · next hm =>
        rw [if_neg hm]
        exact h

/-- The loop over deleted nodes ends, at a live node or at the end. -/
theorem Ahead.exists_firstLive (h : Ahead l c is) :
    ∃ o, (∀ steps, l.bound ≤ steps → firstLive l steps c.candidate = .ok o) ∧
      ∀ i, o = some i → (l.link i).marked = false := by
  obtain ⟨o, -, -, hfirst, -, -, -, hlive⟩ := firstLive_spec h.leads h.length_lt
  exact ⟨o, fun steps hsteps => firstLive_mono hfirst hsteps, hlive⟩

variable [Ord α]

theorem Ahead.onNode (h : Ahead l c is) (hl : l.Ordered) : c.OnNode l := by
  intro i hi
  obtain ⟨js, rfl, -⟩ := h.eq_cons hi
  obtain ⟨a, ha⟩ := h.element i List.mem_cons_self
  exact ⟨lt_size_of_element ha, hl.ne_head_of_element ha⟩

variable [Std.TransOrd α]

/-- From wherever a cursor is, the links lead to the end. -/
theorem OnNode.exists_ahead (h : c.OnNode l) (hl : l.Ordered) : ∃ is, Ahead l c is := by
  have helem : ∀ i, c.candidate = some i → ∃ a, (l.node i).element? = some a := by
    intro i hi
    obtain ⟨hlt, hne⟩ := h i hi
    exact hl.element hlt hne
  cases hi : c.candidate with
  | none => exact ⟨[], ahead_of_leads hl (by rw [hi]; exact .done) helem⟩
  | some i => exact ⟨_, ahead_of_leads hl (by rw [hi]; exact .step (hl.leads_trail i)) helem⟩

theorem OnNode.exists_firstLive (h : c.OnNode l) (hl : l.Ordered) :
    ∃ o, (∀ steps, l.bound ≤ steps → firstLive l steps c.candidate = .ok o) ∧
      ∀ i, o = some i → (l.link i).marked = false := by
  obtain ⟨is, his⟩ := h.exists_ahead hl
  exact his.exists_firstLive

end Cursor

/-- A narrower invariant does as well, if others keep it. -/
theorem Disciplined.restrict {α σ : Type} [Ord α] {list : σ → SortedList α} {step : σ → σ → Prop}
    {call : σ → Cursor → Sight α → Cursor → Prop} {visible : α → Bool} {inv inv' : σ → Prop}
    (D : Disciplined list step call visible inv) (himp : ∀ {s}, inv' s → inv s)
    (hkeep : ∀ {s s'}, inv' s → step s s' → inv' s') :
    Disciplined list step call visible inv' where
  sound := fun hs => D.sound (himp hs)
  step := fun hs hstep => ⟨(D.step (himp hs) hstep).1, hkeep hs hstep⟩
  call := fun hs h hcall => D.call (himp hs) h hcall

/-- **A cursor stays on a node**, however it is called and whatever others do. -/
theorem Iteration.onNode {α σ : Type} [Ord α] [Std.TransOrd α] {list : σ → SortedList α}
    {step : σ → σ → Prop} {call : σ → Cursor → Sight α → Cursor → Prop} {visible : α → Bool}
    {inv : σ → Prop} {s t : σ} {c : Cursor} {run : List (Observation α)}
    (hrun : Iteration list step call s (list s).cursor run t c)
    (D : Disciplined list step call visible inv) (hs : inv s) : inv t ∧ c.OnNode (list t) := by
  obtain ⟨ht, ⟨js, hahead⟩, -⟩ := hrun.exists_ahead D hs (D.sound hs).ahead_cursor
  exact ⟨ht, hahead.onNode (D.sound ht).toOrdered⟩

namespace SortedList

variable {α : Type} [Ord α] {l : SortedList α}

/-- **No loop goes round in vain.** Every search, insertion and deletion from a live node in front of
its place is done when it has been tried once, and every cursor comes to a live node or to the end. -/
structure NeverRetries (l : SortedList α) : Prop where
  search : ∀ probe start, l.InFront probe start → l.SearchesOnce probe start
  insert : ∀ a start, l.InFront (.ofElement a) start → l.InsertsOnce a start
  claim : ∀ probe start, l.InFront probe start → l.ClaimsOnce probe start
  settle : ∀ c : Cursor, c.OnNode l →
    ∃ o, (∀ steps, l.bound ≤ steps → Cursor.firstLive l steps c.candidate = .ok o) ∧
      ∀ i, o = some i → (l.link i).marked = false

theorem Sound.neverRetries [Std.TransOrd α] (hl : l.Sound) : l.NeverRetries where
  search := fun _ _ => hl.searchesOnce
  insert := fun _ _ => hl.insertsOnce
  claim := fun _ _ => hl.claimsOnce
  settle := fun _ hc => hc.exists_firstLive hl.toOrdered

end SortedList

end SplitOrder
