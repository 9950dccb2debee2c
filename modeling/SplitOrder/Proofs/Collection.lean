import Mathlib.Algebra.Group.Nat.Defs
import SplitOrder.Collection
import SplitOrder.Proofs.Checked

/-!
# What bulk requests amount to

A request about many keys is a sequence of operations on single ones, so whatever these do step by
step, it does in sum. That is said once, for a relation between two states with a number that adds
up along the way.

* `AddsUp` — such a relation. `AddsUp.countTrue` takes it along one operation for each member of a
  list.
* `KeyCollection.Tracks` — the relation holds of the operations on single keys, and the number is
  that of the deletions that succeed.
* `KeyCollection.deletions` — the same number for a request about many keys, and `Tracks.handle`:
  the relation holds of that request as well.

Whether a request ends at all is a question of its own.

* `Checked.AllAlong` — a condition on the steps of a sequence, each in the state in which it is
  taken.
* `KeyCollection.Serves` — the operations on single keys end, and a listing shows what can be
  deleted. `Serves.handle` says that requests about many keys end, too; `clear` because each round
  deletes at least one key.
-/

namespace SplitOrder

variable {σ ι : Type _}

/-- A relation between two states, with a number that adds up along the way. -/
structure AddsUp (R : σ → Nat → σ → Prop) : Prop where
  refl : ∀ s, R s 0 s
  trans : ∀ {s s' s'' m n}, R s m s' → R s' n s'' → R s (m + n) s''

/-- If each answer true counts `weight`, all of them count `weight` times their number. -/
theorem AddsUp.countTrue {R : σ → Nat → σ → Prop} (hR : AddsUp R)
    {operation : σ → ι → Checked (Bool × σ)} {weight : Nat}
    (hop : ∀ {s s' x b}, operation s x = .ok (b, s') → R s (weight * b.toNat) s')
    {s s' : σ} {xs : List ι} {n : Nat} (h : Checked.countTrue operation s xs = .ok (n, s')) :
    R s (weight * n) s' := by
  induction xs generalizing s n with
  | nil =>
    cases h
    exact hR.refl _
  | cons x xs ih =>
    rw [Checked.countTrue_cons] at h
    obtain ⟨⟨b, s₁⟩, h₁, h⟩ := Checked.bind_eq_ok.mp h
    obtain ⟨⟨m, s₂⟩, h₂, h⟩ := Checked.bind_eq_ok.mp h
    cases h
    rw [Nat.mul_add]
    exact hR.trans (hop h₁) (ih h₂)

namespace KeyCollection

variable {κ : Type _} [KeyCollection σ κ]

/-! ### How many deletions succeed -/

/-- How many of the given keys are found and deleted. -/
def deletedOf (s : σ) (keys : List κ) : Checked Nat := do
  let (count, _) ← Checked.countTrue delete s keys
  return count

/-- How many keys are deleted in the rounds of `clearWithin`. -/
def clearedWithin : Nat → σ → Checked Nat
  | 0, _ => .error .endless
  | rounds + 1, s => do
    match ← toList s with
    | [] => return 0
    | keys =>
      let (count, s) ← Checked.countTrue delete s keys
      return count + (← clearedWithin rounds s)

/-- How many of the deletions that a request consists of succeed. -/
def deletions [Ord κ] (s : σ) : BulkRequest κ → Checked Nat
  | .clear => do clearedWithin ((← toList s).length + 1) s
  | .deleteMany keys => deletedOf s keys
  | .retainOnly keep => do
    let keys ← toList s
    deletedOf s (keys.filter fun k => !keep.any fun kept => compare kept k == .eq)
  | .isEmpty | .insertMany _ | .containsMany _ => return 0

/-! ### What they amount to -/

/-- **Deletions are what is counted.** Of the operations on single keys, a deletion that finds its
key counts one, and everything else counts nothing. -/
structure Tracks (R : σ → Nat → σ → Prop) : Prop extends AddsUp R where
  insert : ∀ {s s' : σ} {k : κ} {b}, KeyCollection.insert s k = .ok (b, s') → R s 0 s'
  delete : ∀ {s s' : σ} {k : κ} {b}, KeyCollection.delete s k = .ok (b, s') → R s b.toNat s'
  contains : ∀ {s s' : σ} {k : κ} {b}, KeyCollection.contains s k = .ok (b, s') → R s 0 s'

variable {R : σ → Nat → σ → Prop} {s s' : σ} {b : Bool}

theorem Tracks.insertMany (hR : Tracks R) {keys : List κ}
    (h : KeyCollection.insertMany s keys = .ok (b, s')) : R s 0 s' := by
  obtain ⟨⟨n, s₁⟩, hcount, h⟩ := Checked.bind_eq_ok.mp h
  cases h
  rw [← Nat.zero_mul n]
  refine hR.countTrue (fun h => ?_) hcount
  rw [Nat.zero_mul]
  exact hR.insert h

theorem Tracks.countTrue_delete (hR : Tracks R) {keys : List κ} {n : Nat}
    (h : Checked.countTrue KeyCollection.delete s keys = .ok (n, s')) : R s n s' := by
  rw [← Nat.one_mul n]
  refine hR.countTrue (fun h => ?_) h
  rw [Nat.one_mul]
  exact hR.delete h

theorem Tracks.deleteMany (hR : Tracks R) {keys : List κ}
    (h : KeyCollection.deleteMany s keys = .ok (b, s')) :
    ∃ n, deletedOf s keys = .ok n ∧ R s n s' := by
  obtain ⟨⟨n, s₁⟩, hcount, h⟩ := Checked.bind_eq_ok.mp h
  cases h
  exact ⟨n, by rw [deletedOf, hcount]; rfl, hR.countTrue_delete hcount⟩

theorem Tracks.containsMany (hR : Tracks R) {keys : List κ}
    (h : KeyCollection.containsMany s keys = .ok (b, s')) : R s 0 s' := by
  induction keys generalizing s with
  | nil =>
    cases h
    exact hR.refl _
  | cons k ks ih =>
    obtain ⟨⟨found, s₁⟩, hfound, h⟩ := Checked.bind_eq_ok.mp h
    cases found with
    | true => exact hR.trans (hR.contains hfound) (ih h)
    | false =>
      -- the first key that is not there ends the walk
      cases h
      exact hR.contains hfound

theorem Tracks.clearWithin (hR : Tracks R) {rounds : Nat}
    (h : KeyCollection.clearWithin rounds s = .ok s') :
    ∃ n, clearedWithin rounds s = .ok n ∧ R s n s' := by
  induction rounds generalizing s with
  | zero => cases h
  | succ rounds ih =>
    obtain ⟨keys, hkeys, h⟩ := Checked.bind_eq_ok.mp h
    cases keys with
    | nil =>
      cases h
      exact ⟨0, by rw [clearedWithin, hkeys]; rfl, hR.refl _⟩
    | cons k ks =>
      -- one round, and then the others
      obtain ⟨⟨b, s₁⟩, hdelete, h⟩ := Checked.bind_eq_ok.mp h
      obtain ⟨⟨m, s₂⟩, hcount, hdelete⟩ := Checked.bind_eq_ok.mp hdelete
      cases hdelete
      obtain ⟨n, hrest, hlater⟩ := ih h
      refine ⟨m + n, ?_, hR.trans (hR.countTrue_delete hcount) hlater⟩
      rw [clearedWithin, hkeys, Checked.ok_bind]
      simp only [hcount, Checked.ok_bind, hrest]
      rfl

/-- **A request about many keys** does nothing that operations on single keys do not. -/
theorem Tracks.handle [Ord κ] (hR : Tracks R) {request : BulkRequest κ} {answer : Option Bool}
    (h : KeyCollection.handle s request = .ok (answer, s')) :
    ∃ n, deletions s request = .ok n ∧ R s n s' := by
  cases request with
  | isEmpty =>
    obtain ⟨b, -, h⟩ := Checked.bind_eq_ok.mp h
    cases h
    exact ⟨0, rfl, hR.refl _⟩
  | clear =>
    obtain ⟨s₁, hclear, h⟩ := Checked.bind_eq_ok.mp h
    cases h
    obtain ⟨keys, hkeys, hclear⟩ := Checked.bind_eq_ok.mp hclear
    obtain ⟨n, hcleared, hn⟩ := hR.clearWithin hclear
    exact ⟨n, by rw [deletions, hkeys, Checked.ok_bind, hcleared], hn⟩
  | insertMany keys =>
    obtain ⟨⟨b, s₁⟩, hinsert, h⟩ := Checked.bind_eq_ok.mp h
    cases h
    exact ⟨0, rfl, hR.insertMany hinsert⟩
  | deleteMany keys =>
    obtain ⟨⟨b, s₁⟩, hdelete, h⟩ := Checked.bind_eq_ok.mp h
    cases h
    exact hR.deleteMany hdelete
  | retainOnly keep =>
    obtain ⟨⟨b, s₁⟩, hretain, h⟩ := Checked.bind_eq_ok.mp h
    cases h
    obtain ⟨keys, hkeys, hretain⟩ := Checked.bind_eq_ok.mp hretain
    obtain ⟨n, hdeleted, hn⟩ := hR.deleteMany hretain
    exact ⟨n, by rw [deletions, hkeys, Checked.ok_bind, hdeleted], hn⟩
  | containsMany keys =>
    obtain ⟨⟨b, s₁⟩, hcontains, h⟩ := Checked.bind_eq_ok.mp h
    cases h
    exact ⟨0, rfl, hR.containsMany hcontains⟩

end KeyCollection

/-! ### Requests end -/

namespace Checked

variable {I : σ → Prop} {C : σ → ι → Prop} {operation : σ → ι → Checked (Bool × σ)}

/-- A condition on each step of a sequence, in the state in which the step is taken. -/
def AllAlong (C : σ → ι → Prop) (operation : σ → ι → Checked (Bool × σ)) :
    σ → List ι → Prop
  | _, [] => True
  | s, x :: xs =>
    C s x ∧ ∀ b s', operation s x = .ok (b, s') → AllAlong C operation s' xs

theorem allAlong_of_forall (h : ∀ s x, C s x) (s : σ) (xs : List ι) :
    AllAlong C operation s xs := by
  induction xs generalizing s with
  | nil => trivial
  | cons x xs ih => exact ⟨h s x, fun _ s' _ => ih s'⟩

/-- **A sequence of operations ends** if each of them does and keeps what the next one needs. -/
theorem ends_countTrue (hop : ∀ s x, I s → C s x → Ends (fun p => I p.2) (operation s x))
    {s : σ} {xs : List ι} (hs : I s) (hall : AllAlong C operation s xs) :
    Ends (fun p => I p.2) (countTrue operation s xs) := by
  induction xs generalizing s with
  | nil => exact ends_ok hs
  | cons x xs ih =>
    obtain ⟨⟨b, s₁⟩, hfirst, hs₁⟩ := hop s x hs hall.1
    rw [countTrue_cons, hfirst, ok_bind]
    exact (ih hs₁ (hall.2 b s₁ hfirst)).bind fun _ hrest => ends_ok hrest

end Checked

namespace KeyCollection

open Checked

variable {κ : Type _} [KeyCollection σ κ] {I : σ → Prop} {weight : σ → Nat}
  {C : σ → κ → Prop} {s : σ}

/-- **The operations on single keys end.** The weight of a collection is the number of its keys. -/
structure Serves (I : σ → Prop) (weight : σ → Nat) (C : σ → κ → Prop) : Prop where
  insert : ∀ s k, I s → C s k → Ends (fun p => I p.2) (KeyCollection.insert s k)
  delete : ∀ s (k : κ), I s →
    Ends (fun p => I p.2 ∧ weight p.2 + p.1.toNat ≤ weight s) (KeyCollection.delete s k)
  contains : ∀ s (k : κ), I s → Ends (fun p => I p.2) (KeyCollection.contains s k)
  length : ∀ s, I s → Ends (fun _ => True) (KeyCollection.length s)
  /-- What is listed can be deleted. -/
  toList : ∀ s, I s → Ends (fun keys : List κ => keys.length = weight s ∧
    ∀ k ∈ keys, ∀ p, KeyCollection.delete s k = .ok p → p.1 = true) (KeyCollection.toList s)

theorem Serves.countTrue_delete (h : Serves I weight C) (hs : I s) (keys : List κ) :
    Ends (fun p => I p.2 ∧ weight p.2 ≤ weight s) (countTrue KeyCollection.delete s keys) := by
  refine ends_countTrue (I := fun s' => I s' ∧ weight s' ≤ weight s) (fun s' k hs' _ => ?_)
    ⟨hs, Nat.le_refl _⟩ (allAlong_of_forall (C := fun _ _ => True) (fun _ _ => trivial) s keys)
  refine (h.delete s' k hs'.1).mono fun p hp => ⟨hp.1, ?_⟩
  have hle := hp.2
  omega

theorem Serves.deleteMany (h : Serves I weight C) (hs : I s) (keys : List κ) :
    Ends (fun p => I p.2) (KeyCollection.deleteMany s keys) :=
  (h.countTrue_delete hs keys).bind fun _ hp => ends_ok hp.1

theorem Serves.containsMany (h : Serves I weight C) (hs : I s) (keys : List κ) :
    Ends (fun p => I p.2) (KeyCollection.containsMany s keys) := by
  induction keys generalizing s with
  | nil => exact ends_ok hs
  | cons k ks ih =>
    refine (h.contains s k hs).bind fun p hp => ?_
    obtain ⟨found, s₁⟩ := p
    cases found with
    | true => exact ih hp
    | false => exact ends_ok hp

/-- **Clearing ends.** On the rounds: what is listed can be deleted, so the first deletion of a
round takes a key away, and the others add none. -/
theorem Serves.clearWithin (h : Serves I weight C) {rounds : Nat} (hs : I s)
    (hrounds : weight s < rounds) : Ends I (KeyCollection.clearWithin rounds s) := by
  induction rounds generalizing s with
  | zero => exact absurd hrounds (Nat.not_lt_zero _)
  | succ rounds ih =>
    refine (h.toList s hs).bind fun keys hkeys => ?_
    cases keys with
    | nil => exact ends_ok hs
    | cons k ks =>
      -- the deletion of the first key succeeds
      obtain ⟨⟨b, s₁⟩, hfirst, hs₁, hweight⟩ := h.delete s k hs
      obtain rfl : b = true := hkeys.2 k List.mem_cons_self _ hfirst
      have hweight : weight s₁ + 1 ≤ weight s := hweight
      have hround : Ends (fun p => I p.2 ∧ weight p.2 < weight s)
          (KeyCollection.deleteMany s (k :: ks)) := by
        rw [KeyCollection.deleteMany, countTrue_cons, hfirst, ok_bind]
        refine Ends.bind (P := fun p => I p.2 ∧ weight p.2 < weight s) ?_
          fun _ hp => ends_ok hp
        refine (h.countTrue_delete hs₁ ks).bind fun p hp => ends_ok ⟨hp.1, ?_⟩
        have hle : weight p.2 ≤ weight s₁ := hp.2
        show weight p.2 < weight s
        omega
      refine hround.bind fun p hp => ih hp.1 ?_
      have hlt := hp.2
      omega

/-- The insertions that a request asks for meet a condition. -/
def MeetsAlong (C : σ → κ → Prop) (s : σ) : BulkRequest κ → Prop
  | .insertMany keys => AllAlong C KeyCollection.insert s keys
  | _ => True

/-- **A request about many keys ends.** -/
theorem Serves.handle [Ord κ] (h : Serves I weight C) (hs : I s)
    {request : BulkRequest κ} (hmeets : MeetsAlong C s request) :
    Ends (fun p => I p.2) (KeyCollection.handle s request) := by
  cases request with
  | isEmpty =>
    refine Ends.bind (P := fun _ => True) ?_ fun _ _ => ends_ok hs
    exact (h.length s hs).bind fun _ _ => ends_ok trivial
  | clear =>
    refine Ends.bind (P := I) ?_ fun _ hs' => ends_ok hs'
    refine (h.toList s hs).bind fun keys hkeys => h.clearWithin hs ?_
    rw [hkeys.1]
    exact Nat.lt_succ_self _
  | insertMany keys =>
    refine Ends.bind (P := fun p => I p.2) ?_ fun _ hp => ends_ok hp
    exact (ends_countTrue h.insert hs hmeets).bind fun _ hp => ends_ok hp
  | deleteMany keys => exact (h.deleteMany hs keys).bind fun _ hp => ends_ok hp
  | retainOnly keep =>
    refine Ends.bind (P := fun p => I p.2) ?_ fun _ hp => ends_ok hp
    exact (h.toList s hs).bind fun keys _ => h.deleteMany hs _
  | containsMany keys => exact (h.containsMany hs keys).bind fun _ hp => ends_ok hp

end KeyCollection

end SplitOrder
