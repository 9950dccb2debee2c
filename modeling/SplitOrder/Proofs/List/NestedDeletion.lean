import SplitOrder.Proofs.List.SortedSet

/-!
# Deletions with others in the middle

The claim of a deletion is the moment at which the element goes; settling it later is nothing that
could be seen in the elements. So a deletion that others were run in the middle of is the same as a
deletion that was over before they began (`deletesFirst_deleteWith`). This holds from every state
that a run can reach, with whatever deleted nodes on the chain, and whatever the others did to the
neighbours of the claimed node.
-/

namespace SplitOrder

open Std (TreeSet)

namespace SortedList

variable {α : Type} [Ord α] [Std.TransOrd α] {l : SortedList α}

omit [Std.TransOrd α] in
/-- What is sought is among the live elements, or nowhere. -/
theorem Sound.stores_find? (hl : l.Sound) (a : α) :
    l.Stores (.ofElement a) (l.live.find? fun b => compare b a == .eq) := by
  cases hfind : l.live.find? fun b => compare b a == .eq with
  | none =>
    intro i b hb heq
    have hne := List.find?_eq_none.mp hfind b (hl.mem_live_iff.mpr ⟨i, hb⟩)
    exact hne (beq_iff_eq.mpr heq)
  | some b =>
    obtain ⟨i, hi⟩ := hl.mem_live_iff.mp (List.mem_of_find?_eq_some hfind)
    have heq := List.find?_some hfind
    exact ⟨i, hi, beq_iff_eq.mp heq⟩

/-- A sound list represents the set of its elements. -/
theorem Sound.represents (hl : l.Sound) : l.Represents (TreeSet.ofList l.live) := by
  intro a
  rw [get?_ofList]
  exact hl.stores_find? a

end SortedList

namespace ListSession

open SortedList

variable {α : Type} [Ord α] [Text.Legible α]

/-- **Deletion first.** What a deletion of `a` with others in the middle of it comes to, depending
on the stored element that equals `a`. If there is none, nothing happens and the others are not
run. If there is one, its node is claimed and the others run; they reply what they reply after a
deletion that is over, and leave the same elements. The claimed node is off the chain then, and
whatever element the others left is still where they left it. -/
def DeletesFirst (s : ListSession α) (a : α) (nested : List (SetOp α)) : Option α → Prop
  | none => ∃ t, s.step (.deleteWith a (SetOp.allOnList nested)) = .ok (.nothing, t) ∧
      t.list.live = s.list.live
  | some b => ∃ c l₁ replies w t u replies' v,
      s.list.claimAfter head (.ofElement a) = .ok (some c, l₁) ∧ s.list.Holds c.node b ∧
      { s with list := l₁ }.steps (SetOp.allOnList nested) = .ok (replies, w) ∧
      s.step (.deleteWith a (SetOp.allOnList nested)) = .ok (.deletion b l₁.chain replies, t) ∧
      s.step (.request (.remove a)) = .ok (.item b, u) ∧
      u.steps (SetOp.allOnList nested) = .ok (replies', v) ∧
      ListReply.forgetChains replies = ListReply.forgetChains replies' ∧
      t.list.live = v.list.live ∧ c.node ∉ t.list.linked ∧
      ∀ i b, t.list.Holds i b ↔ w.list.Holds i b

variable [Std.TransOrd α]

/-- **A deletion is over with its claim.** -/
theorem deletesFirst_deleteWith {m : Moment α} (hm : m.Reachable) (a : α)
    (nested : List (SetOp α)) :
    m.session.DeletesFirst a nested (m.list.live.find? fun b => compare b a == .eq) := by
  obtain ⟨s, ds⟩ := m
  have hl : s.list.Sound := hm.sound.list
  have hmono := Probe.monotone_ofElement a
  have hfind := hl.stores_find? a
  obtain ⟨claim, l₁, hclaim, hends⟩ := claimAfter_spec hl (hl.inFront_head (.ofElement a)) hmono
  cases claim with
  | none =>
    obtain ⟨htrims, hlacks⟩ := hends
    have hnone : s.list.Stores (.ofElement a) none := hlacks
    rw [hfind.unique hl hmono hnone]
    refine ⟨{ s with list := l₁ }, by rw [step, hclaim]; rfl, ?_⟩
    have hset₁ : l₁.Represents _ := hl.represents.trims htrims
    exact (hset₁.live_eq (hl.evolves htrims.evolves).1).trans (hl.represents.live_eq hl).symm
  | some c =>
    have hclaims : s.list.Claims (.ofElement a) c l₁ := hends
    obtain ⟨b, hb, heq⟩ := hclaims.held
    have hsome : s.list.Stores (.ofElement a) (some b) := ⟨c.node, hb, heq⟩
    rw [hfind.unique hl hmono hsome]
    have hl₁ := (hl.evolves hclaims.evolves).1
    have hset := hl.represents
    -- after the claim and after the whole deletion the list represents the same set
    have hset₁ : l₁.Represents _ := hset.erase (hclaims.removes hl hmono)
    obtain ⟨replies, w, hsteps, hreplies, he, hw⟩ :=
      steps_refines { s with list := l₁ } _ hl₁ hset₁ nested
    obtain ⟨l₂, hstep, hsettles⟩ := deleteWith_eq hl hclaim hclaims hb hsteps he
    obtain ⟨removed, l', hrem, hremoved⟩ := remove_spec hl a
    obtain rfl : removed = some b := hremoved.stores.unique hl hmono hsome
    have hl' := (hl.evolves hremoved.evolves).1
    have hset' : l'.Represents _ := hset.erase (hremoved.removes hl hmono)
    obtain ⟨replies', v, hsteps', hreplies', he', hv⟩ :=
      steps_refines { s with list := l' } _ hl' hset' nested
    refine ⟨c, l₁, replies, w, { w with list := l₂ }, { s with list := l' }, replies', v, hclaim, hb,
      hsteps, hstep, ?_, hsteps', hreplies.trans hreplies'.symm, ?_, hsettles.unlinked,
      fun _ _ => hsettles.holds_iff⟩
    · rw [step, answer, onList, hrem]
      rfl
    · have hw₂ : l₂.Represents _ := hw.congr fun _ _ => hsettles.holds_iff
      have hw' := (hl₁.evolves he).1
      rw [hw₂.live_eq (hw'.evolves hsettles.evolves).1, hv.live_eq (hl'.evolves he').1]

/-- The neighbours of the claimed node are deleted meanwhile, the one in front by a mark only, as a
node further in front was before, and an equal element is inserted. -/
theorem deletesFirst_between_deleted :
    ∃ m : Moment UInt64, m.Reachable ∧
      m.list.chain = [(10, true), (20, false), (30, false), (40, false)] ∧
      m.session.DeletesFirst 30
        [.markOnly 20, .deleteWith 40 [.contains 30, .insert 30], .toList] (some 30) := by
  let l : SortedList UInt64 :=
    { nodes := #[⟨none, ⟨some 1, false⟩⟩, ⟨some 10, ⟨some 2, true⟩⟩, ⟨some 20, ⟨some 3, false⟩⟩,
        ⟨some 30, ⟨some 4, false⟩⟩, ⟨some 40, ⟨none, false⟩⟩] }
  have hreach : Moment.Reachable ⟨{ list := l }, []⟩ := Moment.reachable_of_steps
    (show (fresh .deferred).steps
      [.request (.insert 10), .request (.insert 20), .request (.insert 30), .request (.insert 40),
        .request (.markOnly 10)] = .ok (_, _) from rfl)
  exact ⟨_, hreach, rfl, deletesFirst_deleteWith hreach 30 _⟩

end ListSession

end SplitOrder
