import Mathlib.Data.List.Perm.Lattice
import SplitOrder.Proofs.List.Reachable
import SplitOrder.Proofs.Reclaimer

/-!
# Every node is given back once

A deleted node is unlinked by its own deletion, by another operation that passes by, or by the search
that its deletion makes when it comes too late. Whoever unlinks it, only its own deletion retires it,
and does so once.

The account of it is kept while deletions are under way: each deleted node is either retired or still
owed to the reclaimer by the deletion that marked it.

* `Accounted` — the account, with the nodes that are owed. A claim adds one (`Claims.accounted`), the
  end of the deletion pays it (`Settles.accounted`), and nothing else changes it.
* `Retires` — what an operation does to every account: it owes in the end what it owed in the
  beginning, and has retired as many nodes as deletions succeeded. All requests do that
  (`tracks_retires`), and so do sequences of operations with others nested in them
  (`ListSession.steps_retires`).
* `Reclaimable` — where nothing is owed, each node is on the list or retired, and to give up the list
  gives back each of them once.

A bare delete mark would leave a node that nobody owes, so runs are free of these here.
-/

namespace SplitOrder

namespace SortedList

variable {α : Type} {l l' l'' : SortedList α} {i : NodeId} {is js owed : List NodeId}

/-! ### The deleted nodes -/

/-- The nodes `is` are the deleted ones, each once. -/
def Deleted (l : SortedList α) (is : List NodeId) : Prop :=
  is.Nodup ∧ ∀ i, i ∈ is ↔ (l.link i).marked = true

/-- Where no mark is set, the deleted nodes are the same, in any order. -/
theorem Deleted.congr (h : l.Deleted is) (hperm : js.Perm is)
    (same : ∀ i, (l'.link i).marked = (l.link i).marked) : l'.Deleted js := by
  refine ⟨hperm.nodup_iff.mpr h.1, fun i => ?_⟩
  rw [hperm.mem_iff, h.2, same]

/-- Where one mark is set, there is one deleted node more. -/
theorem Deleted.cons (h : l.Deleted is) (unmarked : (l.link i).marked = false)
    (marked : (l'.link i).marked = true)
    (same : ∀ j, j ≠ i → (l'.link j).marked = (l.link j).marked) : l'.Deleted (i :: is) := by
  constructor
  · -- it was not deleted before
    refine List.nodup_cons.mpr ⟨fun hmem => ?_, h.1⟩
    rw [h.2, unmarked] at hmem
    cases hmem
  · intro j
    rw [List.mem_cons]
    by_cases hj : j = i
    · subst hj
      simp [marked]
    · rw [same j hj, ← h.2]
      simp [hj]

/-- **The account.** Each deleted node is retired or owed, once, and what is retired is off the list.
-/
structure Accounted (l : SortedList α) (owed : List NodeId) : Prop where
  deleted : l.Deleted (l.reclaimer.retired ++ owed)
  unlinked : ∀ i ∈ l.reclaimer.retired, i ∉ l.linked
  count_eq : l.reclaimer.count.toNat = l.reclaimer.retired.length % 2 ^ 64
  /-- Nothing is given back as long as the list is in use. -/
  released_eq : l.reclaimer.released = []

theorem accounted_empty : (∅ : SortedList α).Accounted [] where
  deleted := by
    refine ⟨List.nodup_nil, fun i => ⟨fun hi => (nomatch hi), fun hi => ?_⟩⟩
    obtain rfl : i = 0 := Nat.lt_one_iff.mp (lt_size_of_marked hi)
    cases hi
  unlinked := fun _ hi => nomatch hi
  count_eq := rfl
  released_eq := rfl

/-- What is retired was deleted. -/
theorem Accounted.marked (h : l.Accounted owed) (hi : i ∈ l.reclaimer.retired) :
    (l.link i).marked = true :=
  (h.deleted.2 i).mp (List.mem_append_left _ hi)

/-- What is retired stays off the list. -/
theorem Accounted.unlinked_later (h : l.Accounted owed) (hlater : l.Later l')
    (hi : i ∈ l.reclaimer.retired) : i ∉ l'.linked :=
  hlater.unlinked (lt_size_of_marked (h.marked hi)) (h.unlinked i hi)

/-- Where nothing is owed, the retired nodes are the deleted ones, each once. -/
theorem Accounted.nodup_retired (h : l.Accounted []) : l.reclaimer.retired.Nodup := by
  rw [← List.append_nil l.reclaimer.retired]
  exact h.deleted.1

theorem Accounted.mem_retired_iff (h : l.Accounted []) :
    i ∈ l.reclaimer.retired ↔ (l.link i).marked = true := by
  rw [← h.deleted.2, List.append_nil]

/-- Where nothing is owed, no deleted node is on the list. -/
theorem Accounted.unmarked_of_mem_linked (h : l.Accounted []) (hi : i ∈ l.linked) :
    (l.link i).marked = false := by
  cases hm : (l.link i).marked with
  | false => rfl
  | true => exact absurd hi (h.unlinked i (h.mem_retired_iff.mpr hm))

/-- Where nothing is owed, what stands on the list is not deleted. -/
theorem Accounted.snd_of_mem_chain (h : l.Accounted []) {item : α × Bool} (hi : item ∈ l.chain) :
    item.2 = false := by
  obtain ⟨i, hi, -, hm⟩ := mem_chain_iff.mp hi
  rw [← hm, h.unmarked_of_mem_linked hi]

theorem Accounted.live_eq (h : l.Accounted []) : l.live = l.chain.map Prod.fst := by
  rw [live, List.filter_eq_self.mpr fun item hi => ?_]
  rw [h.snd_of_mem_chain hi]
  rfl

variable [Ord α] [Std.TransOrd α] {probe : Probe α} {a : α} {c : Claim}

/-! ### What the effects do to an account -/

/-- Where no mark is set and nothing is retired, the account stays. -/
theorem Accounted.keep (h : l.Accounted owed) (hl : l.Sound) (he : l.Evolves l')
    (same : ∀ i, (l'.link i).marked = (l.link i).marked) (hrec : l'.reclaimer = l.reclaimer) :
    l'.Accounted owed where
  deleted := by
    rw [hrec]
    exact h.deleted.congr (.refl _) same
  unlinked := by
    intro i hi
    rw [hrec] at hi
    exact h.unlinked_later (hl.evolves he).2 hi
  count_eq := by rw [hrec, h.count_eq]
  released_eq := by rw [hrec, h.released_eq]

/-- A claim owes its node. -/
theorem Claims.accounted (hc : l.Claims probe c l') (hl : l.Sound) (h : l.Accounted owed) :
    l'.Accounted (c.node :: owed) where
  deleted := by
    obtain ⟨b, hb, -⟩ := hc.held
    have hmark : (l'.link c.node).marked = true := by rw [hc.frozen]
    rw [hc.reclaimer_eq]
    exact (h.deleted.cons hb.2 hmark hc.marked_eq).congr List.perm_middle fun _ => rfl
  unlinked := by
    intro i hi
    rw [hc.reclaimer_eq] at hi
    exact h.unlinked_later (hl.evolves hc.evolves).2 hi
  count_eq := by rw [hc.reclaimer_eq, h.count_eq]
  released_eq := by rw [hc.reclaimer_eq, h.released_eq]

/-- A retired node more, and the counter with it. -/
theorem Accounted.retire (h : l.Accounted owed) (hl : l.Sound) (he : l.Evolves l')
    (hrec : l'.reclaimer = l.reclaimer.retire i) (unlinked : i ∉ l'.linked)
    (deleted : l'.Deleted (l'.reclaimer.retired ++ js)) : l'.Accounted js where
  deleted := deleted
  unlinked := by
    intro j hj
    rw [hrec, Reclaimer.retired_retire] at hj
    rcases List.mem_cons.mp hj with rfl | hj
    · exact unlinked
    · exact h.unlinked_later (hl.evolves he).2 hj
  count_eq := by
    rw [hrec]
    exact Reclaimer.toNat_count_retire h.count_eq i
  released_eq := by rw [hrec, Reclaimer.released_retire, h.released_eq]

/-- The end of a deletion pays what its claim owed. -/
theorem Settles.accounted (hs : l.Settles c l') (hl : l.Sound)
    (h : l.Accounted (c.node :: owed)) : l'.Accounted owed := by
  refine h.retire hl hs.evolves hs.reclaimer_eq hs.unlinked ?_
  rw [hs.reclaimer_eq]
  exact h.deleted.congr List.perm_middle.symm hs.marked_eq

/-- A deletion in one go owes nothing. -/
theorem Deletes.accounted (hd : l.Deletes probe a i l') (hl : l.Sound) (h : l.Accounted owed) :
    l'.Accounted owed := by
  refine h.retire hl hd.evolves hd.reclaimer_eq hd.unlinked ?_
  rw [hd.reclaimer_eq]
  exact h.deleted.cons hd.held.2 hd.marked hd.marked_eq

/-! ### What operations do to an account -/

/-- **Accounts balance.** Whatever is owed before is owed after, and `n` nodes were retired between.
-/
structure Retires (l : SortedList α) (n : Nat) (l' : SortedList α) : Prop where
  evolves : l.Evolves l'
  accounted : ∀ {owed}, l.Accounted owed → l'.Accounted owed
  length_eq : l'.reclaimer.retired.length = l.reclaimer.retired.length + n

omit [Std.TransOrd α] in
theorem Retires.refl (l : SortedList α) : l.Retires 0 l :=
  ⟨.refl, id, rfl⟩

omit [Std.TransOrd α] in
theorem Retires.trans {m n : Nat} (h : l.Retires m l') (h' : l'.Retires n l'') :
    l.Retires (m + n) l'' where
  evolves := h.evolves.trans h'.evolves
  accounted := fun hacc => h'.accounted (h.accounted hacc)
  length_eq := by rw [h'.length_eq, h.length_eq, Nat.add_assoc]

theorem Trims.retires (h : l.Trims l') (hl : l.Sound) : l.Retires 0 l' where
  evolves := h.evolves
  accounted := fun hacc => hacc.keep hl h.evolves h.marked_eq h.reclaimer_eq
  length_eq := by rw [h.reclaimer_eq]; rfl

theorem Links.retires (h : l.Links a i l') (hl : l.Sound) : l.Retires 0 l' where
  evolves := h.evolves
  accounted := fun hacc => hacc.keep hl h.evolves h.marked_eq h.reclaimer_eq
  length_eq := by rw [h.reclaimer_eq]; rfl

theorem Inserts.retires {ins : Insertion} (h : l.Inserts a ins l') (hl : l.Sound) :
    l.Retires 0 l' := by
  cases ins with
  | existing i => exact h.1.retires hl
  | linked i => exact Links.retires h hl

theorem DeletionEnds.retires {removed : Option α} (h : l.DeletionEnds probe removed l')
    (hl : l.Sound) : l.Retires removed.isSome.toNat l' := by
  cases removed with
  | none => exact h.1.retires hl
  | some a =>
    obtain ⟨i, hdel⟩ := h
    refine ⟨hdel.evolves, fun hacc => hdel.accounted hl hacc, ?_⟩
    rw [hdel.reclaimer_eq, Reclaimer.retired_retire, List.length_cons]
    rfl

/-- **As many nodes are retired as deletions succeed.** -/
theorem tracks_retires : Tracks (Retires (α := α)) where
  refl := Retires.refl
  trans := Retires.trans
  trims := fun hl h => h.retires hl
  inserts := fun hl h => h.retires hl
  deletes := fun hl h => h.retires hl

/-- A deletion with whatever happens between its two steps. -/
theorem Retires.between {l₁ l₂ : SortedList α} {n : Nat} (hl : l.Sound) (hc : l.Claims probe c l₁)
    (h : l₁.Retires n l₂) (hs : l₂.Settles c l') : l.Retires (n + 1) l' where
  evolves := (hc.evolves.trans h.evolves).trans hs.evolves
  accounted := by
    intro owed hacc
    have hl₂ : l₂.Sound := (hl.evolves (hc.evolves.trans h.evolves)).1
    exact hs.accounted hl₂ (h.accounted (hc.accounted hl hacc))
  length_eq := by
    rw [hs.reclaimer_eq, Reclaimer.retired_retire, List.length_cons, h.length_eq, hc.reclaimer_eq]
    rfl

/-! ### The end of a list -/

omit [Ord α] [Std.TransOrd α] in
/-- Nodes that are not deleted are given back as they come. -/
theorem disposeFrom_eq {n : Nat} {o : Option NodeId} (h : l.Leads o is) (hn : is.length < n)
    (unmarked : ∀ i ∈ is, (l.link i).marked = false) : l.disposeFrom n o = .ok is := by
  induction h generalizing n with
  | done =>
    cases n with
    | zero => exact absurd hn (Nat.not_lt_zero _)
    | succ n => rfl
  | @step i is _ ih =>
    cases n with
    | zero => exact absurd hn (Nat.not_lt_zero _)
    | succ n =>
      rw [List.length_cons] at hn
      have hrest : l.disposeFrom n (l.link i).target = .ok is :=
        ih (by omega) fun j hj => unmarked j (List.mem_cons_of_mem _ hj)
      rw [disposeFrom, unmarked i List.mem_cons_self, hrest]
      rfl

/-- **All nodes are accounted for**, after so many deletions that succeeded. -/
structure Reclaimable (l : SortedList α) (deletions : Nat) : Prop where
  /-- Each node is on the list and not deleted, or is retired once. -/
  placed : ∀ i, i < l.nodes.size →
    i ∈ head :: l.linked ∧ (l.link i).marked = false ∧ i ∉ l.reclaimer.retired ∨
      i ∉ head :: l.linked ∧ l.reclaimer.retired.count i = 1
  head_kept : head ∉ l.reclaimer.retired
  length_eq : l.reclaimer.retired.length = deletions
  count_eq : l.reclaimer.count.toNat = deletions % 2 ^ 64
  /-- To give up the list gives back each node once, and no check fails on the way. -/
  disposal : ∃ is, l.dispose = .ok is ∧ is.Perm (List.range l.nodes.size)

/-- What is on the list and what is retired are all nodes, each once. -/
theorem Accounted.perm_range (h : l.Accounted []) (hl : l.Sound) :
    (head :: l.linked ++ l.reclaimer.retired).Perm (List.range l.nodes.size) := by
  -- a node that is on the list is not deleted, and one that is retired is
  have hdisjoint : ∀ i ∈ head :: l.linked, i ∉ l.reclaimer.retired := by
    intro i hi hret
    have hmark : (l.link i).marked = true := h.marked hret
    rcases List.mem_cons.mp hi with rfl | hi
    · rw [hl.head_unmarked] at hmark
      cases hmark
    · exact h.unlinked i hret hi
  refine (List.perm_ext_iff_of_nodup ?_ List.nodup_range).mpr fun i => ?_
  · refine List.nodup_append.mpr ⟨hl.nodup_cons_trail head, h.nodup_retired, fun i hi j hj => ?_⟩
    rintro rfl
    exact hdisjoint i hi hj
  · rw [List.mem_append, List.mem_range]
    constructor
    · rintro (hi | hi)
      · rcases List.mem_cons.mp hi with rfl | hi
        · exact hl.head_lt
        · exact hl.lt_size_of_mem_linked hi
      · exact lt_size_of_marked (h.marked hi)
    · intro hi
      cases hm : (l.link i).marked with
      | false => exact .inl (hl.mem_cons_linked hi hm)
      | true => exact .inr (h.mem_retired_iff.mpr hm)

/-- To give up a list on which nothing is owed gives back the linked nodes, and then the retired
ones. -/
theorem Accounted.dispose_eq (h : l.Accounted []) (hl : l.Sound) :
    l.dispose = .ok (head :: l.linked ++ l.reclaimer.retired) := by
  have hunmarked : ∀ i ∈ head :: l.linked, (l.link i).marked = false := by
    intro i hi
    rcases List.mem_cons.mp hi with rfl | hi
    · exact hl.head_unmarked
    · exact h.unmarked_of_mem_linked hi
  -- there are no more nodes on the list than there are nodes
  have hlength : (head :: l.linked).length < l.bound := by
    have hle := (h.perm_range hl).length_eq
    rw [List.length_append, List.length_range] at hle
    rw [bound]
    omega
  rw [dispose, disposeFrom_eq (.step (hl.leads_trail head)) hlength hunmarked, Checked.ok_bind,
    Reclaimer.releaseAll_eq h.nodup_retired, h.released_eq]
  rfl

theorem Accounted.reclaimable (h : l.Accounted []) (hl : l.Sound) :
    l.Reclaimable l.reclaimer.retired.length where
  placed := by
    intro i hi
    have hnodup := (h.perm_range hl).nodup_iff.mpr List.nodup_range
    have hmem := (h.perm_range hl).mem_iff.mpr (List.mem_range.mpr hi)
    obtain ⟨-, hretired, hdisjoint⟩ := List.nodup_append.mp hnodup
    rcases List.mem_append.mp hmem with hon | hret
    · refine .inl ⟨hon, ?_, fun hret => hdisjoint i hon i hret rfl⟩
      rcases List.mem_cons.mp hon with rfl | hon
      · exact hl.head_unmarked
      · exact h.unmarked_of_mem_linked hon
    · refine .inr ⟨fun hon => hdisjoint i hon i hret rfl, ?_⟩
      exact List.count_eq_one_of_mem hretired hret
  head_kept := by
    intro hret
    have hmark := h.marked hret
    rw [hl.head_unmarked] at hmark
    cases hmark
  length_eq := rfl
  count_eq := h.count_eq
  disposal := ⟨_, h.dispose_eq hl, h.perm_range hl⟩

/-- After operations on an empty list, as many nodes are retired as deletions succeeded. -/
theorem Retires.reclaimable {n : Nat} (h : (∅ : SortedList α).Retires n l) : l.Reclaimable n := by
  have hsound : l.Sound := (sound_empty.evolves h.evolves).1
  have hlength : l.reclaimer.retired.length = n := by
    rw [h.length_eq]
    exact Nat.zero_add n
  rw [← hlength]
  exact (h.accounted accounted_empty).reclaimable hsound

end SortedList

/-! ### Runs -/

namespace ListOp

variable {α : Type}

mutual

/-- No bare delete mark is set, neither by the operation nor by those nested in it. -/
def MarkFree : ListOp α → Prop
  | .request (.markOnly _) => False
  | .request _ => True
  | .deleteWith _ nested => AllMarkFree nested
  | .applyWith _ nested => AllMarkFree nested

def AllMarkFree : List (ListOp α) → Prop
  | [] => True
  | op :: ops => MarkFree op ∧ AllMarkFree ops

end

end ListOp

namespace ListSession

open SortedList

variable {α : Type} [Ord α] [Text.Legible α]

mutual

/-- How many of the deletions in an operation succeed, those nested in it included. -/
def deletions (s : ListSession α) : ListOp α → Checked Nat
  | .request r => s.deletionsIn r
  | .deleteWith a nested => do
    match ← s.list.claimAfter head (.ofElement a) with
    | (none, _) => return 0
    | (some _, list) => return (← deletionsAll { s with list } nested) + 1
  | .applyWith a nested => do
    match ← s.list.lookup a with
    | (none, _) => return 0
    | (some _, list) => deletionsAll { s with list } nested

/-- How many of the deletions in a sequence of operations succeed. -/
def deletionsAll (s : ListSession α) : List (ListOp α) → Checked Nat
  | [] => return 0
  | op :: ops => do
    let n ← deletions s op
    let (_, s) ← s.step op
    return n + (← deletionsAll s ops)

end

variable [Std.TransOrd α]

mutual

/-- **Step lemma.** An operation retires a node for each deletion in it that succeeds. -/
theorem step_retires {s t : ListSession α} {reply : ListReply α} (hs : s.list.Sound) :
    ∀ op : ListOp α, op.MarkFree → s.step op = .ok (reply, t) →
      ∃ n, s.deletions op = .ok n ∧ s.list.Retires n t.list
  | .request r, hfree, h => by
    refine answer_tracks tracks_retires hs (fun hr _ => ?_) h
    subst hr
    exact hfree.elim
  | .deleteWith a nested, hfree, h => by
    have hp := Probe.monotone_ofElement a
    obtain ⟨claim, l₁, hclaim, hends⟩ := claimAfter_spec hs (hs.inFront_head _) hp
    have hl₁ : l₁.Sound := (hs.evolves hends.evolves).1
    rw [deletions, hclaim, Checked.ok_bind]
    rw [step, hclaim, Checked.ok_bind] at h
    cases claim with
    | none =>
      cases h
      exact ⟨0, rfl, hends.1.retires hs⟩
    | some c =>
      have hclaims : s.list.Claims (.ofElement a) c l₁ := hends
      obtain ⟨item, -, h⟩ := Checked.bind_eq_ok.mp h
      obtain ⟨⟨replies, u⟩, hnested, h⟩ := Checked.bind_eq_ok.mp h
      obtain ⟨n, hn, hretires⟩ := steps_retires hl₁ nested hfree hnested
      -- the claim is still good, whatever the nested operations did
      have hu : u.list.Sound := (hl₁.evolves hretires.evolves).1
      obtain ⟨l₂, hsettle, hsettles⟩ :=
        hclaims.settles hs hretires.evolves (hu.inFront_head _) hp
      simp only [hsettle, Checked.ok_bind] at h
      cases h
      refine ⟨n + 1, ?_, hretires.between hs hclaims hsettles⟩
      simp only [hn, Checked.ok_bind]
      rfl
  | .applyWith a nested, hfree, h => by
    obtain ⟨found, l₁, hlook, htrims, -⟩ := lookup_spec hs a
    have hl₁ : l₁.Sound := (hs.evolves htrims.evolves).1
    rw [deletions, hlook, Checked.ok_bind]
    rw [step, hlook, Checked.ok_bind] at h
    cases found with
    | none =>
      cases h
      exact ⟨0, rfl, htrims.retires hs⟩
    | some i =>
      obtain ⟨item, -, h⟩ := Checked.bind_eq_ok.mp h
      obtain ⟨⟨replies, u⟩, hnested, h⟩ := Checked.bind_eq_ok.mp h
      obtain ⟨n, hn, hretires⟩ := steps_retires hl₁ nested hfree hnested
      cases h
      refine ⟨n, hn, ?_⟩
      rw [← Nat.zero_add n]
      exact (htrims.retires hs).trans hretires

/-- **Run lemma.** -/
theorem steps_retires {s t : ListSession α} {replies : List (ListReply α)} (hs : s.list.Sound) :
    ∀ ops : List (ListOp α), ListOp.AllMarkFree ops → s.steps ops = .ok (replies, t) →
      ∃ n, s.deletionsAll ops = .ok n ∧ s.list.Retires n t.list
  | [], _, h => by
    cases h
    exact ⟨0, rfl, Retires.refl _⟩
  | op :: ops, hfree, h => by
    obtain ⟨⟨reply, u⟩, hop, h⟩ := Checked.bind_eq_ok.mp h
    obtain ⟨⟨rest, v⟩, hops, h⟩ := Checked.bind_eq_ok.mp h
    cases h
    obtain ⟨m, hm, hfirst⟩ := step_retires hs op hfree.1 hop
    obtain ⟨n, hn, hrest⟩ := steps_retires (hs.evolves hfirst.evolves).1 ops hfree.2 hops
    refine ⟨m + n, ?_, hfirst.trans hrest⟩
    rw [deletionsAll, hm, Checked.ok_bind]
    simp only [hop, Checked.ok_bind, hn]
    rfl

end

/-- **At the end of a run** each node is on the list or retired, and no deletion is left unpaid. -/
theorem reclaimable_of_steps {p : Protection} {s : ListSession α} {ops : List (ListOp α)}
    {replies : List (ListReply α)} (hfree : ListOp.AllMarkFree ops)
    (h : (fresh p).steps ops = .ok (replies, s)) :
    ∃ n, (fresh p : ListSession α).deletionsAll ops = .ok n ∧ s.list.Reclaimable n := by
  obtain ⟨n, hn, hretires⟩ := steps_retires (s := fresh p) sound_empty ops hfree h
  exact ⟨n, hn, Retires.reclaimable hretires⟩

end ListSession

end SplitOrder
