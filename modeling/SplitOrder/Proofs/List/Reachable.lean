import SplitOrder.Proofs.List.Requests
import SplitOrder.Proofs.List.Stale

/-!
# What holds at every moment

A run is requests to a session, single operations that begin at some live node, and deletions with
whatever else happens between their two steps. `Moment` is a state of a run: the session, and the
deletions that are decided but not completed. Any of them may be completed next, so they may be
nested in each other or interleaved in any way.

* `Moment.Step.evolves` — the step: all that can happen at a moment only writes to the list what
  `Write` allows. A pending deletion carries with it the state in which it was decided
  (`Deletion.Decided`).
* `Moment.Reachable.wellLinked_and_later` — the run: what this says about all nodes that were ever
  linked.
* `reaches_step`, `reaches_steps` — the operations of a session, with those nested in them, are
  such runs.

`WellLinked` is the invariant without its proof-internal form: it speaks of linked and unlinked
nodes and of what is met behind either.
-/

namespace SplitOrder

namespace SortedList

variable {α : Type} [Ord α]

/-- **What is seen of the links at any moment.** -/
structure WellLinked (l : SortedList α) : Prop where
  /-- The linked nodes carry strictly ascending elements, deleted ones included. -/
  ascending : (head :: l.linked).Pairwise l.Before
  head_unmarked : (l.link head).marked = false
  /-- Every other node carries an element. -/
  element : ∀ i, i < l.nodes.size → i ≠ head → ∃ a, (l.node i).element? = some a
  /-- A node that is not deleted is linked. -/
  kept : ∀ i, i < l.nodes.size → i ≠ head → (l.link i).marked = false → i ∈ l.linked
  /-- The links lead from every node to the end, linked or not. -/
  ends : ∀ i, i < l.nodes.size → l.Leads (some i) (i :: l.trail i)
  /-- Elements grow on the way from every node. -/
  grows : ∀ i, i < l.nodes.size → (i :: l.trail i).Pairwise l.Before
  /-- A way that meets a linked node goes on like the list itself. -/
  rejoins : ∀ i j, i < l.nodes.size → j ∈ i :: l.trail i → j ∈ l.linked →
    ∃ xs ys zs, i :: l.trail i = xs ++ j :: zs ∧ l.linked = ys ++ j :: zs

variable [Std.TransOrd α] {l : SortedList α}

theorem Sound.wellLinked (h : l.Sound) : l.WellLinked where
  ascending := h.pairwise_cons_trail head
  head_unmarked := h.head_unmarked
  element := fun _ hi hne => h.element hi hne
  kept := fun _ hi hne hm => h.linked hi hne hm
  ends := fun i _ => .step (h.leads_trail i)
  grows := fun i _ => h.pairwise_cons_trail i
  rejoins := by
    intro i j _ hij hj
    obtain ⟨ys, hys⟩ := h.exists_trail_eq_append (i := head) hj
    -- both continue with the trail of `j`
    rcases List.mem_cons.mp hij with rfl | hij
    · exact ⟨[], ys, l.trail j, rfl, hys⟩
    · obtain ⟨xs, hxs⟩ := h.exists_trail_eq_append hij
      exact ⟨i :: xs, ys, l.trail j, by rw [hxs]; rfl, hys⟩

end SortedList

/-- A session on an empty list. -/
def ListSession.fresh {α : Type} (p : Protection) : ListSession α :=
  { protection := p }

/-! ### Moments -/

/-- A deletion in progress: its node is marked, and not yet taken off. -/
structure Deletion (α : Type _) where
  /-- The node from which the deletion searches. -/
  start : NodeId
  /-- What it deletes. -/
  probe : Probe α
  /-- What it saw when it marked the node. -/
  claim : Claim

/-- A moment of a run. -/
structure Moment (α : Type _) where
  session : ListSession α
  /-- The deletions in progress, the latest first. -/
  pending : List (Deletion α) := []

open SortedList

variable {α : Type} [Ord α]

/-- The deletion was decided at an earlier time, from a start that was live then and in front of
what is deleted. -/
def Deletion.Decided (d : Deletion α) (l : SortedList α) : Prop :=
  ∃ l₀ l₁ : SortedList α, l₀.Sound ∧ d.probe.Monotone ∧ l₀.InFront d.probe d.start ∧
    l₀.Claims d.probe d.claim l₁ ∧ l₁.Evolves l

theorem Deletion.Decided.evolves {d : Deletion α} {l l' : SortedList α} (h : d.Decided l)
    (he : l.Evolves l') : d.Decided l' := by
  obtain ⟨l₀, l₁, hl₀, hp, hi, hclaims, he₁⟩ := h
  exact ⟨l₀, l₁, hl₀, hp, hi, hclaims, he₁.trans he⟩

namespace Moment

/-- The list at a moment. -/
abbrev list (m : Moment α) : SortedList α :=
  m.session.list

/-- The moment at which nothing has happened yet. -/
def fresh (p : Protection) : Moment α where
  session := .fresh p

/-- **What may happen next.** A request to the session, an operation of the list from any live node
in front of its place, or either step of a deletion. -/
inductive Step [Text.Legible α] : Moment α → Moment α → Prop
  | request {s t : ListSession α} {ds : List (Deletion α)} {r : ListRequest α}
      {reply : ListReply α} (h : s.answer r = .ok (reply, t)) : Step ⟨s, ds⟩ ⟨t, ds⟩
  | search {s : ListSession α} {ds : List (Deletion α)} {i : NodeId} {probe : Probe α}
      {loc : Location} {l : SortedList α} (hi : s.list.InFront probe i)
      (h : s.list.search i probe = .ok (loc, l)) : Step ⟨s, ds⟩ ⟨{ s with list := l }, ds⟩
  | insert {s : ListSession α} {ds : List (Deletion α)} {i : NodeId} {a : α} {ins : Insertion}
      {l : SortedList α} (hi : s.list.InFront (.ofElement a) i)
      (h : s.list.insertAfter i a = .ok (ins, l)) : Step ⟨s, ds⟩ ⟨{ s with list := l }, ds⟩
  /-- There is nothing to delete. -/
  | miss {s : ListSession α} {ds : List (Deletion α)} {i : NodeId} {probe : Probe α}
      {l : SortedList α} (hp : probe.Monotone) (hi : s.list.InFront probe i)
      (h : s.list.claimAfter i probe = .ok (none, l)) : Step ⟨s, ds⟩ ⟨{ s with list := l }, ds⟩
  /-- A deletion begins. -/
  | claim {s : ListSession α} {ds : List (Deletion α)} {i : NodeId} {probe : Probe α} {c : Claim}
      {l : SortedList α} (hp : probe.Monotone) (hi : s.list.InFront probe i)
      (h : s.list.claimAfter i probe = .ok (some c, l)) :
      Step ⟨s, ds⟩ ⟨{ s with list := l }, ⟨i, probe, c⟩ :: ds⟩
  /-- A deletion ends. Its start may be deleted by now. -/
  | settle {s : ListSession α} {ds ds' : List (Deletion α)} {d : Deletion α} {l : SortedList α}
      (h : s.list.settleAfter d.start d.probe d.claim = .ok l) :
      Step ⟨s, ds ++ d :: ds'⟩ ⟨{ s with list := l }, ds ++ ds'⟩

/-- **The invariant of a run.** -/
structure Sound (m : Moment α) : Prop where
  list : m.list.Sound
  decided : ∀ d ∈ m.pending, d.Decided m.list

variable {m m' : Moment α} {s t : ListSession α} {ds : List (Deletion α)}

theorem sound_fresh (p : Protection) : (fresh p : Moment α).Sound where
  list := sound_empty
  decided := fun _ hd => nomatch hd

variable [Std.TransOrd α]

/-- Writes keep the invariant. -/
theorem Sound.evolves (h : m.Sound) (he : m.list.Evolves t.list) (hds : ds ⊆ m.pending) :
    Sound ⟨t, ds⟩ where
  list := (h.list.evolves he).1
  decided := fun d hd => (h.decided d (hds hd)).evolves he

variable [Text.Legible α]

/-- **Step lemma.** -/
theorem Step.evolves (hm : m.Sound) (h : m.Step m') : m.list.Evolves m'.list ∧ m'.Sound := by
  -- every operation of the list ends in one way only, so the outcome at hand is the one that its
  -- specification speaks of
  cases h with
  | request h =>
    have he := ListSession.answer_evolves hm.list h
    exact ⟨he, hm.evolves he fun _ => id⟩
  | search hi h =>
    obtain ⟨loc', l', hsearch, htrims, -⟩ := search_spec hm.list hi
    cases hsearch.symm.trans h
    exact ⟨htrims.evolves, hm.evolves htrims.evolves fun _ => id⟩
  | insert hi h =>
    obtain ⟨ins', l', hins, hspec⟩ := insertAfter_spec hm.list hi
    cases hins.symm.trans h
    exact ⟨hspec.evolves, hm.evolves hspec.evolves fun _ => id⟩
  | miss hp hi h =>
    obtain ⟨claim, l', hclaim, hends⟩ := claimAfter_spec hm.list hi hp
    cases hclaim.symm.trans h
    exact ⟨hends.evolves, hm.evolves hends.evolves fun _ => id⟩
  | claim hp hi h =>
    obtain ⟨claim, l', hclaim, hends⟩ := claimAfter_spec hm.list hi hp
    cases hclaim.symm.trans h
    have he := hends.evolves
    refine ⟨he, (hm.list.evolves he).1, fun d hd => ?_⟩
    rcases List.mem_cons.mp hd with rfl | hd
    · -- the deletion that begins: it is decided right now
      exact ⟨_, _, hm.list, hp, hi, hends, .refl⟩
    · exact (hm.decided d hd).evolves he
  | @settle s ds ds' d l h =>
    obtain ⟨l₀, l₁, hl₀, hp, hi, hclaims, he₁⟩ :=
      hm.decided d (List.mem_append_right ds List.mem_cons_self)
    -- whatever happened since, its start may be off the list by now
    have he := hclaims.evolves_settleAfter hl₀ hi hp he₁ h
    refine ⟨he, hm.evolves he fun d' hd' => ?_⟩
    simp only [List.mem_append, List.mem_cons] at hd' ⊢
    exact hd'.imp_right .inr

/-- Any number of steps. -/
abbrev Reaches : Moment α → Moment α → Prop :=
  Relation.ReflTransGen Step

/-- A moment of some run. -/
def Reachable (m : Moment α) : Prop :=
  ∃ p, (fresh p).Reaches m

/-- **Run lemma.** -/
theorem Reaches.evolves (hm : m.Sound) (h : m.Reaches m') :
    m.list.Evolves m'.list ∧ m'.Sound := by
  induction h with
  | refl => exact ⟨.refl, hm⟩
  | tail _ hstep ih =>
    obtain ⟨he, hsound⟩ := hstep.evolves ih.2
    exact ⟨ih.1.trans he, hsound⟩

theorem Reachable.sound (h : m.Reachable) : m.Sound := by
  obtain ⟨p, h⟩ := h
  exact (h.evolves (sound_fresh p)).2

/-! ### The operations of a session -/

omit [Std.TransOrd α] in
theorem reaches_lookup {a : α} {found : Option NodeId} {l : SortedList α}
    (hm : Sound ⟨s, ds⟩) (h : s.list.lookup a = .ok (found, l)) :
    Reaches ⟨s, ds⟩ ⟨{ s with list := l }, ds⟩ := by
  obtain ⟨⟨loc, l'⟩, hsearch, h⟩ := Checked.bind_eq_ok.mp h
  obtain ⟨found', -, h⟩ := Checked.bind_eq_ok.mp h
  cases h
  exact .single (.search (hm.list.inFront_head _) hsearch)

mutual

/-- **Every operation is a run**, with all that is nested in it. -/
theorem reaches_step {s t : ListSession α} {ds : List (Deletion α)} {reply : ListReply α}
    (hm : Sound ⟨s, ds⟩) :
    ∀ op : ListOp α, s.step op = .ok (reply, t) → Reaches ⟨s, ds⟩ ⟨t, ds⟩
  | .request r, h => .single (.request h)
  | .deleteWith a nested, h => by
    have hp := Probe.monotone_ofElement a
    have hi : s.list.InFront (.ofElement a) head := hm.list.inFront_head _
    obtain ⟨⟨claim, l₁⟩, hclaim, h⟩ := Checked.bind_eq_ok.mp h
    cases claim with
    | none =>
      cases h
      exact .single (.miss hp hi hclaim)
    | some c =>
      obtain ⟨item, -, h⟩ := Checked.bind_eq_ok.mp h
      obtain ⟨⟨replies, u⟩, hnested, h⟩ := Checked.bind_eq_ok.mp h
      obtain ⟨l₂, hsettle, h⟩ := Checked.bind_eq_ok.mp h
      cases h
      -- the deletion is pending while the nested operations run
      have hstep : Step ⟨s, ds⟩ ⟨{ s with list := l₁ }, ⟨head, .ofElement a, c⟩ :: ds⟩ :=
        .claim hp hi hclaim
      have hrest := reaches_steps (hstep.evolves hm).2 nested hnested
      have hlast : Step ⟨u, [] ++ ⟨head, .ofElement a, c⟩ :: ds⟩ ⟨{ u with list := l₂ }, [] ++ ds⟩ :=
        .settle hsettle
      exact (hrest.head hstep).tail hlast
  | .applyWith a nested, h => by
    obtain ⟨⟨found, l₁⟩, hlook, h⟩ := Checked.bind_eq_ok.mp h
    have hfirst := reaches_lookup hm hlook
    cases found with
    | none =>
      cases h
      exact hfirst
    | some i =>
      obtain ⟨item, -, h⟩ := Checked.bind_eq_ok.mp h
      obtain ⟨⟨replies, u⟩, hnested, h⟩ := Checked.bind_eq_ok.mp h
      cases h
      exact hfirst.trans (reaches_steps (hfirst.evolves hm).2 nested hnested)

/-- **Every sequence of operations is a run.** -/
theorem reaches_steps {s t : ListSession α} {ds : List (Deletion α)}
    {replies : List (ListReply α)} (hm : Sound ⟨s, ds⟩) :
    ∀ ops : List (ListOp α), s.steps ops = .ok (replies, t) → Reaches ⟨s, ds⟩ ⟨t, ds⟩
  | [], h => by
    cases h
    exact .refl
  | op :: ops, h => by
    obtain ⟨⟨reply, u⟩, hop, h⟩ := Checked.bind_eq_ok.mp h
    obtain ⟨⟨rest, v⟩, hops, h⟩ := Checked.bind_eq_ok.mp h
    cases h
    have hfirst := reaches_step hm op hop
    exact hfirst.trans (reaches_steps (hfirst.evolves hm).2 ops hops)

end

theorem reachable_of_steps {p : Protection} {ops : List (ListOp α)}
    {replies : List (ListReply α)} (h : (ListSession.fresh p).steps ops = .ok (replies, s)) :
    Reachable ⟨s, []⟩ :=
  ⟨p, reaches_steps (sound_fresh p) ops h⟩

/-! ### At every moment -/

/-- **The links at every moment, and what lasts.** Whatever has happened so far, the list is well
linked, and whatever happens later, a deleted node stays deleted and keeps its successor, and a
node that was taken off stays off. -/
theorem Reachable.wellLinked_and_later (h : m.Reachable) :
    m.list.WellLinked ∧ ∀ m', m.Reaches m' → m.list.Later m'.list := by
  refine ⟨h.sound.list.wellLinked, fun m' h' => ?_⟩
  exact (h.sound.list.evolves (h'.evolves h.sound).1).2

/-- A deletion of 30 that begins at 10, while 10 itself is deleted and 25 is inserted where 30 was
linked. -/
theorem Reachable.wellLinked_and_later_of_deleted_start :
    ∃ m m' : Moment UInt64, m.pending.length = 1 ∧ 1 ∉ m.list.linked ∧ m.Reaches m' ∧
      m'.pending.length = 0 ∧ m'.list.live = [20, 25, 40] ∧
      m.list.WellLinked ∧ m.list.Later m'.list := by
  let l₀ : SortedList UInt64 :=
    { nodes := #[⟨none, ⟨some 1, false⟩⟩, ⟨some 10, ⟨some 2, false⟩⟩, ⟨some 20, ⟨some 3, false⟩⟩,
        ⟨some 30, ⟨some 4, false⟩⟩, ⟨some 40, ⟨none, false⟩⟩] }
  let l₁ : SortedList UInt64 := l₀.setLink 3 ⟨some 4, true⟩
  let d : Deletion UInt64 := ⟨1, .ofElement 30, ⟨2, 3, some 4⟩⟩
  obtain ⟨p, hinserts⟩ : Reachable ⟨{ list := l₀ }, []⟩ := reachable_of_steps
    (show (ListSession.fresh .deferred).steps
      ([10, 20, 30, 40].map fun a => .request (.insert a)) = .ok (_, _) from rfl)
  have hfront : l₀.InFront (.ofElement 30) 1 := ⟨by decide, by decide, fun a ha => by
    cases ha
    rfl⟩
  have hclaim : Step ⟨{ list := l₀ }, []⟩ ⟨{ list := l₁ }, [d]⟩ :=
    .claim (Probe.monotone_ofElement 30) hfront rfl
  have hfirst : Reachable ⟨{ list := l₁ }, [d]⟩ := ⟨p, hinserts.tail hclaim⟩
  -- 30 was taken off when 25 was inserted
  let l₂ : SortedList UInt64 :=
    { nodes := #[⟨none, ⟨some 2, false⟩⟩, ⟨some 10, ⟨some 2, true⟩⟩, ⟨some 20, ⟨some 5, false⟩⟩,
        ⟨some 30, ⟨some 4, true⟩⟩, ⟨some 40, ⟨none, false⟩⟩, ⟨some 25, ⟨some 4, false⟩⟩]
      reclaimer := .retire {} 1 }
  have hmeanwhile : Reaches ⟨{ list := l₁ }, [d]⟩ ⟨{ list := l₂ }, [d]⟩ :=
    reaches_steps hfirst.sound [.request (.delete 10), .request (.insert 25)] rfl
  have hreach : Reachable ⟨{ list := l₂ }, [d]⟩ := ⟨p, (hinserts.tail hclaim).trans hmeanwhile⟩
  have hlast : Step ⟨{ list := l₂ }, [] ++ d :: []⟩ ⟨{ list := l₂.retire 3 }, [] ++ []⟩ :=
    .settle rfl
  exact ⟨_, _, rfl, by decide, .single hlast, rfl, by decide, hreach.wellLinked_and_later.1,
    hreach.wellLinked_and_later.2 _ (.single hlast)⟩

end Moment

end SplitOrder
