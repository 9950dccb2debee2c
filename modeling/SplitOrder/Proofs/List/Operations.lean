import SplitOrder.Proofs.List.Listing
import SplitOrder.Proofs.List.Update

/-!
# Operations on a whole list

The operations that search from the head. On a sound list each of them ends; the statements
`insert_spec`, `remove_spec`, … say how.
-/

namespace SplitOrder.SortedList

variable {α : Type} [Ord α] [Std.TransOrd α] {l l' : SortedList α} {a : α}

theorem insert_spec (hl : l.Sound) (a : α) :
    ∃ ins l', l.insert a = .ok (ins.isNew, l') ∧ l.Inserts a ins l' := by
  obtain ⟨ins, l', hins, hspec⟩ := insertAfter_spec hl (hl.inFront_head (.ofElement a))
  refine ⟨ins, l', ?_, hspec⟩
  rw [insert, hins]
  rfl

theorem remove_spec (hl : l.Sound) (a : α) :
    ∃ removed l', l.remove a = .ok (removed, l') ∧ l.DeletionEnds (.ofElement a) removed l' :=
  deleteAfter_spec hl (hl.inFront_head _) (Probe.monotone_ofElement a)

theorem delete_spec (hl : l.Sound) (a : α) :
    ∃ removed l', l.delete a = .ok (removed.isSome, l') ∧
      l.DeletionEnds (.ofElement a) removed l' := by
  obtain ⟨removed, l', hrem, hspec⟩ := remove_spec hl a
  refine ⟨removed, l', ?_, hspec⟩
  rw [delete, hrem]
  rfl

theorem lookup_spec (hl : l.Sound) (a : α) :
    ∃ found l', l.lookup a = .ok (found, l') ∧ l.Trims l' ∧ l.Found (.ofElement a) found :=
  lookupAfter_spec hl (hl.inFront_head _) (Probe.monotone_ofElement a)

theorem contains_spec (hl : l.Sound) (a : α) :
    ∃ found l', l.contains a = .ok (found.isSome, l') ∧ l.Trims l' ∧
      l.Found (.ofElement a) found := by
  obtain ⟨found, l', hlook, hspec⟩ := lookup_spec hl a
  refine ⟨found, l', ?_, hspec⟩
  rw [contains, hlook]
  rfl

theorem find_spec (hl : l.Sound) (a : α) :
    ∃ stored l', l.find a = .ok (stored, l') ∧ l.Trims l' ∧ l.Stores (.ofElement a) stored := by
  obtain ⟨found, l', hlook, htrims, hfound⟩ := lookup_spec hl a
  rw [find, hlook]
  cases found with
  | none => exact ⟨none, l', rfl, htrims, hfound⟩
  | some i =>
    obtain ⟨b, hb, heq⟩ := hfound
    refine ⟨some b, l', ?_, htrims, i, hb, heq⟩
    simp only [Checked.ok_bind, element_eq_ok_iff.mpr (htrims.holds_iff.mpr hb).1]
    rfl

/-- A bare mark takes an element away and leaves its node where it is. -/
theorem markOnly_spec (hl : l.Sound) (a : α) :
    ∃ found l', l.markOnly a = .ok (found.isSome, l') ∧ l.Evolves l' ∧
      l.Found (.ofElement a) found ∧ l.Removes (.ofElement a) l' := by
  obtain ⟨found, l₁, hlook, htrims, hfound⟩ := lookup_spec hl a
  rw [markOnly, hlook]
  cases found with
  | none => exact ⟨none, l₁, rfl, htrims.evolves, hfound, htrims.removes hfound⟩
  | some i =>
    -- the node that was found is live, so the mark is set
    obtain ⟨b, hb, heq⟩ := hfound
    have hb₁ := htrims.holds_iff.mpr hb
    have here : l₁.link i = ⟨(l₁.link i).target, false⟩ := Link.ext rfl hb₁.2
    have hi : i < l₁.nodes.size := hb₁.lt_size
    have hne : i ≠ head := hl.ne_head_of_element hb.1
    refine ⟨some i, l₁.setLink i ⟨(l₁.link i).target, true⟩, ?_,
      htrims.evolves.tail (.mark here hi hne), ⟨b, hb, heq⟩, ?_⟩
    · simp only [Checked.ok_bind, mark, compareAndSwap_eq, if_pos here]
      rfl
    · refine hl.removes (Probe.monotone_ofElement a) hb heq fun j c => ?_
      rw [holds_setLink_mark_iff hi, htrims.holds_iff]

theorem evolves_markOnly (hl : l.Sound) {b : Bool} (h : l.markOnly a = .ok (b, l')) :
    l.Evolves l' := by
  obtain ⟨found, l₁, hmark, he, -⟩ := markOnly_spec hl a
  cases hmark.symm.trans h
  exact he

end SplitOrder.SortedList
