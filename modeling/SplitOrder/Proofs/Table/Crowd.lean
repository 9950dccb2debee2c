import Mathlib.Data.Nat.Size
import SplitOrder.Proofs.Table.Frame

/-!
# Sentinels made at once

Several clients obtain sentinels on one table at the same time. A call for the sentinel of a bucket
looks the bucket up, and if there is none, obtains the sentinel of the parent in the same way, links
its own behind that one, and registers it. Each look, each insertion and each registration is one
effect, and between any two of them others have theirs: a sentinel may be linked and not yet
registered while other calls go through its descendants or find it as a duplicate.

* `Errand` — where a call stands; `Errand.step` is its next effect.
* `Crowd`, `Crowd.run` — a table with any number of calls under way, and a schedule: which call is
  made or has its next effect, in any order.
* `Errand.Fit` — the invariant of a call: the buckets that wait are each split from the one before,
  and a node at hand guards its bucket. `Errand.step_spec` is the step, `Crowd.Lawful.run` the run.
* `Crowd.Lawful.returns` — a call returns when it has had so many turns, whatever others do.
* `Crowd.exists_run_sentinel` — left alone, a call is what `Table.sentinel` does.
-/

namespace SplitOrder

open SortedList

variable {κ ν : Type}

/-! ### Calls under way -/

/-- A call for the sentinel of a bucket, between two effects. Each waiting bucket is a call that
waits for the one before it. -/
inductive Errand where
  /-- The bucket is to be looked up. -/
  | look (bucket : Bucket) (waiting : List Bucket)
  /-- The sentinel of the bucket is to be linked behind that of its parent. -/
  | link (bucket : Bucket) (parent : NodeId) (waiting : List Bucket)
  /-- The node of the bucket is to be registered. -/
  | publish (bucket : Bucket) (node : NodeId) (waiting : List Bucket)
deriving DecidableEq, Repr

namespace Errand

/-- A call has returned a node: the call that waited for it goes on. -/
def resume (node : NodeId) : List Bucket → Option Errand
  | [] => none
  | bucket :: waiting => some (.link bucket node waiting)

/-- The bucket that is being dealt with. -/
def bucket : Errand → Bucket
  | .look bucket _ | .link bucket _ _ | .publish bucket _ _ => bucket

def waiting : Errand → List Bucket
  | .look _ waiting | .link _ _ waiting | .publish _ _ waiting => waiting

/-- The bucket for which the call was made. -/
def root (e : Errand) : Bucket :=
  e.waiting.getLastD e.bucket

variable [Ord κ]

/-- **The next effect of a call.** It may answer with the node of a bucket, and the call may be over
then. -/
def step (t : Table κ ν) : Errand → Checked (Table κ ν × Option (Bucket × NodeId) × Option Errand)
  | .look bucket waiting => do
    match ← t.directory.get bucket with
    | some node => return (t, some (bucket, node), resume node waiting)
    | none => return (t, none, some (.look (← bucket.parent) (bucket :: waiting)))
  | .link bucket parent waiting => do
    let (node, t) ← t.linkSentinel parent bucket
    return (t, none, some (.publish bucket node waiting))
  | .publish bucket node waiting => do
    let (winner, t) ← t.registerSentinel bucket node
    return (t, some (bucket, winner), resume winner waiting)

variable {t t' : Table κ ν} {bucket parent : Bucket} {node node' : NodeId} {waiting : List Bucket}

theorem step_look_of_some (h : t.directory.get bucket = .ok (some node)) :
    (look bucket waiting).step t = .ok (t, some (bucket, node), resume node waiting) := by
  rw [step, h]
  rfl

theorem step_look_of_none (h : t.directory.get bucket = .ok none)
    (hparent : bucket.parent = .ok parent) :
    (look bucket waiting).step t = .ok (t, none, some (.look parent (bucket :: waiting))) := by
  rw [step, h, Checked.ok_bind]
  simp only [hparent, Checked.ok_bind]
  rfl

theorem step_link (h : t.linkSentinel node' bucket = .ok (node, t')) :
    (link bucket node' waiting).step t = .ok (t', none, some (.publish bucket node waiting)) := by
  rw [step, h]
  rfl

theorem step_publish (h : t.registerSentinel bucket node = .ok (node', t')) :
    (publish bucket node waiting).step t =
      .ok (t', some (bucket, node'), resume node' waiting) := by
  rw [step, h]
  rfl

end Errand

/-- A table with calls under way. -/
structure Crowd (κ ν : Type) where
  table : Table κ ν
  /-- The calls by the order in which they were made, as long as they are not over. -/
  errands : List (Option Errand) := []
  /-- What was answered for which bucket, also by calls that were made on behalf of others. -/
  answers : List (Bucket × NodeId) := []

/-- What may happen next. -/
inductive Move where
  /-- A call is made. -/
  | call (bucket : Bucket)
  /-- A call has its next effect. -/
  | turn (i : Nat)
deriving DecidableEq, Repr

namespace Crowd

variable [Ord κ]

/-- A call has its next effect. One that meets a fault is over. -/
def turn (c : Crowd κ ν) (i : Nat) (e : Errand) : Crowd κ ν :=
  match e.step c.table with
  | .ok (table, answer, next) =>
    { table, errands := c.errands.set i next, answers := answer.toList ++ c.answers }
  | .error _ => { c with errands := c.errands.set i none }

def move (c : Crowd κ ν) : Move → Crowd κ ν
  | .call bucket => { c with errands := c.errands ++ [some (.look bucket [])] }
  | .turn i =>
    match c.errands[i]? with
    | some (some e) => c.turn i e
    | _ => c

/-- A schedule. -/
def run (c : Crowd κ ν) (moves : List Move) : Crowd κ ν :=
  moves.foldl move c

variable {c : Crowd κ ν} {m : Move} {i j : Nat} {e : Errand} {x : Option Errand}

/-- A turn is that of a call which is not over, or nothing happens. -/
theorem move_turn_cases (c : Crowd κ ν) (j : Nat) :
    (∃ e, c.errands[j]? = some (some e) ∧ c.move (.turn j) = c.turn j e) ∨
      (∀ e, c.errands[j]? ≠ some (some e)) ∧ c.move (.turn j) = c := by
  rcases hj : c.errands[j]? with _ | _ | e
  · exact .inr ⟨fun e => nofun, by simp only [move, hj]⟩
  · exact .inr ⟨fun e => nofun, by simp only [move, hj]⟩
  · exact .inl ⟨e, rfl, by simp only [move, hj]⟩

theorem move_turn_of_step {t : Table κ ν} {answer : Option (Bucket × NodeId)}
    (hi : c.errands[i]? = some (some e)) (hstep : e.step c.table = .ok (t, answer, x)) :
    c.move (.turn i) = ⟨t, c.errands.set i x, answer.toList ++ c.answers⟩ := by
  simp only [move, hi, turn, hstep]

theorem errands_turn_of_ne (hne : j ≠ i) : (c.turn j e).errands[i]? = c.errands[i]? := by
  unfold turn
  split <;> exact List.getElem?_set_ne hne

theorem run_cons (c : Crowd κ ν) (m : Move) (ms : List Move) :
    c.run (m :: ms) = (c.move m).run ms := rfl

theorem run_append (c : Crowd κ ν) (ms ms' : List Move) :
    c.run (ms ++ ms') = (c.run ms).run ms' :=
  List.foldl_append ..

end Crowd

/-! ### One effect -/

/-- The parent of a bucket has fewer bits. -/
theorem size_clearHighestBit_lt {bucket : Bucket} (hne : bucket ≠ 0) :
    (clearHighestBit bucket).toNat.size < bucket.toNat.size := by
  have hpos : 0 < bucket.toNat.size :=
    Nat.size_pos.mpr (Nat.pos_of_ne_zero fun h => hne (UInt64.toNat_inj.mp h))
  obtain ⟨g, hg⟩ := Nat.exists_eq_add_one_of_ne_zero hpos.ne'
  have hlt : bucket.toNat < 2 ^ (g + 1) := hg ▸ Nat.lt_size_self _
  rw [hg]
  exact Nat.lt_succ_of_le (Nat.size_le.mpr (clearHighestBit_lt hne hlt))

/-- Each bucket was split from the one before, and the directory has room for it. -/
def Descend : Bucket → List Bucket → Prop
  | _, [] => True
  | parent, bucket :: waiting => bucket ≠ 0 ∧ bucket < Directory.capacity ∧
    clearHighestBit bucket = parent ∧ Descend bucket waiting

namespace Errand

/-- **The invariant of a call.** -/
def Fit (t : Table κ ν) : Errand → Prop
  | .look bucket waiting => Descend bucket waiting
  | .link bucket parent waiting => bucket ≠ 0 ∧ bucket < Directory.capacity ∧
    t.list.Guards (clearHighestBit bucket) parent ∧ Descend bucket waiting
  | .publish bucket node waiting => bucket < Directory.capacity ∧
    t.list.Guards bucket node ∧ Descend bucket waiting

/-- At least the number of effects that a call is still to have: three for each generation, but two
for a bucket that waits, since it has been looked up. -/
def weight : Errand → Nat
  | .look bucket waiting => 3 * bucket.toNat.size + 2 * waiting.length + 1
  | .link _ _ waiting => 2 * waiting.length + 2
  | .publish _ _ waiting => 2 * waiting.length + 1

theorem weight_pos (e : Errand) : 0 < e.weight := by
  cases e <;> exact Nat.succ_pos _

/-- The call goes on with less to do and is still the same call, or it is over with an answer. -/
def Proceeds (e : Errand) (answer : Option (Bucket × NodeId)) : Option Errand → Prop
  | some e' => e'.weight < e.weight ∧ e'.root = e.root ∧ e'.bucket < Directory.capacity
  | none => ∃ node, answer = some (e.root, node)

end Errand

theorem SortedList.Guards.keeps {t t' : Table κ ν} {bucket : Bucket} {node : NodeId}
    (h : t.list.Guards bucket node) (hkeeps : t.Keeps t') : t'.list.Guards bucket node := by
  unfold Guards at h ⊢
  split
  · next hzero => rwa [if_pos hzero] at h
  · next hzero =>
    rw [if_neg hzero] at h
    exact hkeeps.sentinel h

theorem Errand.Fit.keeps {t t' : Table κ ν} {e : Errand} (h : e.Fit t) (hkeeps : t.Keeps t') :
    e.Fit t' := by
  cases e with
  | look bucket waiting => exact h
  | link bucket parent waiting => exact ⟨h.1, h.2.1, h.2.2.1.keeps hkeeps, h.2.2.2⟩
  | publish bucket node waiting => exact ⟨h.1, h.2.1.keeps hkeeps, h.2.2⟩

namespace Errand

variable [Ord κ] {t t' : Table κ ν} {e : Errand} {bucket : Bucket} {node : NodeId}
  {waiting : List Bucket}

omit [Ord κ] in
/-- A call that waited for a node which guards its bucket goes on from there. -/
theorem fit_resume (hguards : t.list.Guards bucket node) (hdescend : Descend bucket waiting) :
    ∀ e', resume node waiting = some e' → e'.Fit t := by
  intro e' he'
  cases waiting with
  | nil => cases he'
  | cons b waiting =>
    cases he'
    obtain ⟨hne, hlt, hparent, hrest⟩ := hdescend
    exact ⟨hne, hlt, hparent ▸ hguards, hrest⟩

theorem proceeds_resume (hdescend : Descend bucket waiting) {e : Errand}
    (hweight : 2 * waiting.length < e.weight) (hroot : e.root = waiting.getLastD bucket) :
    e.Proceeds (some (bucket, node)) (resume node waiting) := by
  cases waiting with
  | nil => exact ⟨node, by rw [hroot]; rfl⟩
  | cons b waiting =>
    refine ⟨?_, ?_, hdescend.2.1⟩
    · rw [List.length_cons] at hweight
      show 2 * waiting.length + 2 < e.weight
      omega
    · rw [hroot, List.getLastD_cons]
      rfl

variable [Std.TransOrd κ]

/-- **Step lemma.** If there is room for its bucket, the next effect of a call is no fault. It is
one of the effects of obtaining a sentinel, or none; what it answers is registered; and the call has
less to do then. -/
theorem step_spec (ht : t.Intact) (hfit : e.Fit t) (hlt : e.bucket < Directory.capacity) :
    ∃ t' answer next, e.step t = .ok (t', answer, next) ∧ t.Obtains t' ∧
      (∀ b i, answer = some (b, i) → t'.directory.get b = .ok (some i)) ∧
      (∀ e', next = some e' → e'.Fit t') ∧ e.Proceeds answer next := by
  cases e with
  | look bucket waiting =>
    have hdescend : Descend bucket waiting := hfit
    have hlt : bucket < Directory.capacity := hlt
    have hget := Directory.get_eq ht.directory hlt
    cases hold : t.directory.installed? bucket with
    | some node =>
      -- the bucket is registered, and the call returns
      rw [hold] at hget
      refine ⟨t, some (bucket, node), resume node waiting, step_look_of_some hget, .refl, ?_,
        fit_resume (ht.registered hold) hdescend, proceeds_resume hdescend ?_ rfl⟩
      · rintro _ _ ⟨⟩
        exact hget
      · show 2 * waiting.length < 3 * bucket.toNat.size + 2 * waiting.length + 1
        omega
    | none =>
      -- it is not, and the parent has to be looked up
      rw [hold] at hget
      have hne : bucket ≠ 0 := by
        rintro rfl
        rw [ht.root] at hold
        cases hold
      refine ⟨t, none, _, step_look_of_none hget (Bucket.parent_of_ne_zero hne), .refl,
        fun b i hanswer => (nomatch hanswer), ?_, ?_, ?_, ?_⟩
      · rintro _ ⟨⟩
        exact ⟨hne, hlt, rfl, hdescend⟩
      · have hsize := size_clearHighestBit_lt hne
        show 3 * (clearHighestBit bucket).toNat.size + 2 * (waiting.length + 1) + 1 <
          3 * bucket.toNat.size + 2 * waiting.length + 1
        omega
      · exact List.getLastD_cons ..
      · exact UInt64.lt_trans (clearHighestBit_lt_self hne) hlt
  | link bucket parent waiting =>
    obtain ⟨hne, hlt, hguards, hdescend⟩ := hfit
    obtain ⟨node, t', hlink, -, -, hnode, -⟩ := Table.linkSentinel_spec ht hne hlt hguards
    refine ⟨t', none, _, step_link hlink, .single (.link hne hlt hguards hlink),
      fun b i hanswer => (nomatch hanswer), ?_, ?_, rfl, hlt⟩
    · rintro _ ⟨⟩
      exact ⟨hlt, hnode, hdescend⟩
    · show 2 * waiting.length + 1 < 2 * waiting.length + 2
      omega
  | publish bucket node waiting =>
    obtain ⟨hlt, hguards, hdescend⟩ := hfit
    obtain ⟨winner, t', hregister, -, ht', hwinner⟩ :=
      Table.registerSentinel_spec ht hlt hguards
    refine ⟨t', _, _, step_publish hregister, .single (.register hlt hguards hregister), ?_,
      fit_resume hwinner hdescend, proceeds_resume hdescend ?_ rfl⟩
    · rintro _ _ ⟨⟩
      obtain ⟨d, rfl, hd, -, hinstalled⟩ :=
        Table.registerSentinel_cases ht.directory hlt hregister
      show d.get bucket = _
      rw [Directory.get_eq hd hlt, hinstalled, if_pos rfl]
    · show 2 * waiting.length < 2 * waiting.length + 1
      omega

end Errand

/-! ### Schedules -/

namespace Crowd

variable [Ord κ] {t₀ : Table κ ν} {c : Crowd κ ν} {m : Move} {i : Nat} {e : Errand}
  {x : Option Errand}

/-- **The invariant of a crowd** on a table that was `t₀` in the beginning. -/
structure Lawful (t₀ : Table κ ν) (c : Crowd κ ν) : Prop where
  obtains : t₀.Obtains c.table
  fit : ∀ {i : Nat} {e : Errand}, c.errands[i]? = some (some e) → e.Fit c.table
  answered : ∀ {b i}, (b, i) ∈ c.answers → c.table.directory.get b = .ok (some i)

theorem lawful_start (t : Table κ ν) : Lawful t { table := t } where
  obtains := .refl
  fit := fun hi => nomatch hi
  answered := fun hi => nomatch hi

/-- What a client does not do leaves its call alone, and a call that is over stays so. -/
theorem errands_move (hi : c.errands[i]? = some x) (hm : m = .turn i → x = none) :
    (c.move m).errands[i]? = some x := by
  cases m with
  | call b =>
    show (c.errands ++ [some (.look b [])])[i]? = some x
    rw [List.getElem?_append_left (List.getElem?_eq_some_iff.mp hi).1]
    exact hi
  | turn j =>
    rcases c.move_turn_cases j with ⟨e, hj, hmove⟩ | ⟨-, hmove⟩
    · have hne : j ≠ i := by
        rintro rfl
        rw [hm rfl] at hi
        cases hi.symm.trans hj
      rw [hmove, errands_turn_of_ne hne]
      exact hi
    · rw [hmove]
      exact hi

/-- Answers are never taken back. -/
theorem mem_answers_move {a : Bucket × NodeId} (ha : a ∈ c.answers) : a ∈ (c.move m).answers := by
  cases m with
  | call b => exact ha
  | turn j =>
    rcases c.move_turn_cases j with ⟨e, -, hmove⟩ | ⟨-, hmove⟩
    · rw [hmove, turn]
      split
      · exact List.mem_append_right _ ha
      · exact ha
    · rw [hmove]
      exact ha

/-- A call that is over stays so, and so do the answers. -/
theorem over_run (hi : c.errands[i]? = some none) {a : Bucket × NodeId} (ha : a ∈ c.answers)
    (ms : List Move) : (c.run ms).errands[i]? = some none ∧ a ∈ (c.run ms).answers := by
  induction ms generalizing c with
  | nil => exact ⟨hi, ha⟩
  | cons m ms ih => exact ih (errands_move hi fun _ => rfl) (mem_answers_move ha)

variable [Std.TransOrd κ]

theorem Lawful.intact (h : c.Lawful t₀) (ht₀ : t₀.Intact) : c.table.Intact :=
  (Table.Obtains.keeps h.obtains ht₀).2.1

end Crowd

/-- The first effect of a call for a bucket beyond the directory is a fault, so a call that gets
further is not of that kind. -/
theorem Errand.Fit.lt_capacity [Ord κ] {t : Table κ ν} {e : Errand} (h : e.Fit t)
    {r : Table κ ν × Option (Bucket × NodeId) × Option Errand} (hstep : e.step t = .ok r) :
    e.bucket < Directory.capacity := by
  cases e with
  | look bucket waiting =>
    refine Decidable.byContradiction fun hge => ?_
    have hslot : Directory.slot bucket = .error .indexBeyondDirectory := if_neg hge
    rw [Errand.step, Directory.get, hslot] at hstep
    cases hstep
  | link bucket parent waiting => exact h.2.1
  | publish bucket node waiting => exact h.1

namespace Crowd

variable [Ord κ] [Std.TransOrd κ] {t₀ : Table κ ν} {c : Crowd κ ν} {i : Nat} {e : Errand}

/-- A crowd stays lawful when one of its calls has an effect. -/
theorem Lawful.turn (h : c.Lawful t₀) (ht₀ : t₀.Intact) (hi : c.errands[i]? = some (some e)) :
    c.table.Obtains (c.turn i e).table ∧ (c.turn i e).Lawful t₀ := by
  have ht : c.table.Intact := h.intact ht₀
  unfold Crowd.turn
  split
  · next table answer next hstep =>
    have hfit := h.fit hi
    obtain ⟨t', answer', next', hstep', hobtains, hanswer, hnext, -⟩ :=
      Errand.step_spec ht hfit (hfit.lt_capacity hstep)
    cases hstep'.symm.trans hstep
    have hkeeps : c.table.Keeps table := (Table.Obtains.keeps hobtains ht).1
    refine ⟨hobtains, h.obtains.trans hobtains, fun {j e'} hj => ?_, fun {b n} hmem => ?_⟩
    · have hj : (c.errands.set i next)[j]? = some (some e') := hj
      rw [List.getElem?_set] at hj
      split at hj
      · -- the call that had its turn
        split at hj
        · exact hnext e' (Option.some.inj hj)
        · cases hj
      · -- the others hold nodes that are still where they were
        exact (h.fit hj).keeps hkeeps
    · rcases List.mem_append.mp hmem with hnew | hold
      · exact hanswer b n (Option.mem_toList.mp hnew)
      · exact Table.Obtains.registered hobtains ht (h.answered hold)
  · -- a fault changes nothing but that the call is over
    refine ⟨.refl, h.obtains, fun {j e'} hj => ?_, h.answered⟩
    have hj : (c.errands.set i none)[j]? = some (some e') := hj
    rw [List.getElem?_set] at hj
    split at hj
    · split at hj <;> cases hj
    · exact h.fit hj

/-- **Step lemma.** -/
theorem Lawful.move (h : c.Lawful t₀) (ht₀ : t₀.Intact) (m : Move) :
    c.table.Obtains (c.move m).table ∧ (c.move m).Lawful t₀ := by
  cases m with
  | call b =>
    refine ⟨.refl, h.obtains, fun {j e} hj => ?_, h.answered⟩
    have hj : (c.errands ++ [some (.look b [])])[j]? = some (some e) := hj
    rcases List.mem_append.mp (List.mem_of_getElem? hj) with hmem | hmem
    · obtain ⟨k, hk⟩ := List.getElem?_of_mem hmem
      exact h.fit hk
    · -- the new call waits for nothing
      cases Option.some.inj (List.mem_singleton.mp hmem)
      exact True.intro
  | turn j =>
    rcases c.move_turn_cases j with ⟨e, hj, hmove⟩ | ⟨-, hmove⟩
    · rw [hmove]
      exact h.turn ht₀ hj
    · rw [hmove]
      exact ⟨.refl, h⟩

/-- **Run lemma.** -/
theorem Lawful.run (h : c.Lawful t₀) (ht₀ : t₀.Intact) (ms : List Move) :
    c.table.Obtains (c.run ms).table ∧ (c.run ms).Lawful t₀ := by
  induction ms generalizing c with
  | nil => exact ⟨.refl, h⟩
  | cons m ms ih =>
    obtain ⟨hfirst, hlawful⟩ := h.move ht₀ m
    obtain ⟨hrest, hlawful'⟩ := ih hlawful
    exact ⟨hfirst.trans hrest, hlawful'⟩

/-! ### Calls return -/

/-- A call has less to do after each of its turns, whatever others do in between. -/
theorem Lawful.goes_on (h : c.Lawful t₀) (ht₀ : t₀.Intact) (hi : c.errands[i]? = some (some e))
    (hlt : e.bucket < Directory.capacity) (ms : List Move) :
    (∃ node, (c.run ms).errands[i]? = some none ∧ (e.root, node) ∈ (c.run ms).answers) ∨
      ∃ e', (c.run ms).errands[i]? = some (some e') ∧
        e'.weight + ms.count (.turn i) ≤ e.weight := by
  -- on the schedule, for whatever call it has become: what is left to do pays for each turn
  induction ms generalizing c e with
  | nil => exact .inr ⟨e, hi, Nat.le_refl _⟩
  | cons m ms ih =>
    have hlawful := (h.move ht₀ m).2
    rw [run_cons]
    by_cases hm : m = .turn i
    · -- its own turn
      subst hm
      obtain ⟨t', answer, next, hstep, -, -, -, hproceeds⟩ :=
        Errand.step_spec (h.intact ht₀) (h.fit hi) hlt
      have hmove := move_turn_of_step hi hstep
      have hlength : i < c.errands.length := (List.getElem?_eq_some_iff.mp hi).1
      have hi' : (c.move (.turn i)).errands[i]? = some next := by
        rw [hmove]
        exact List.getElem?_set_self hlength
      cases next with
      | none =>
        obtain ⟨node, rfl⟩ := hproceeds
        have hmem : (e.root, node) ∈ (c.move (.turn i)).answers := by
          rw [hmove]
          exact List.mem_cons_self
        obtain ⟨hover, hans⟩ := over_run hi' hmem ms
        exact .inl ⟨node, hover, hans⟩
      | some e₁ =>
        obtain ⟨hweight, hroot, hlt₁⟩ := hproceeds
        rcases ih hlawful hi' hlt₁ with ⟨node, hover, hans⟩ | ⟨e', he', hle⟩
        · exact .inl ⟨node, hover, hroot ▸ hans⟩
        · refine .inr ⟨e', he', ?_⟩
          rw [List.count_cons_self]
          omega
    · -- a move of others, which leaves the call where it stands
      rcases ih hlawful (errands_move hi fun h => absurd h hm) hlt with hover | ⟨e', he', hle⟩
      · exact .inl hover
      · refine .inr ⟨e', he', ?_⟩
        rwa [List.count_cons_of_ne hm]

/-- A call that is made returns when it has had three turns for each generation and one more. -/
theorem Lawful.returns (h : c.Lawful t₀) (ht₀ : t₀.Intact) {b : Bucket}
    (hlt : b < Directory.capacity) {ms : List Move}
    (hcount : 3 * 32 + 1 ≤ ms.count (.turn c.errands.length)) :
    let c' := (c.move (.call b)).run ms
    c'.errands[c.errands.length]? = some none ∧ ∃ node, (b, node) ∈ c'.answers := by
  have hi : (c.move (.call b)).errands[c.errands.length]? = some (some (.look b [])) :=
    List.getElem?_concat_length
  rcases (h.move ht₀ (.call b)).2.goes_on ht₀ hi hlt ms with ⟨node, hover, hans⟩ | ⟨e', -, hle⟩
  · exact ⟨hover, node, hans⟩
  · -- there is nothing left to do
    have hsize : b.toNat.size ≤ 32 := Nat.size_le.mpr (UInt64.lt_iff_toNat_lt.mp hlt)
    have hweight : e'.weight + ms.count (.turn c.errands.length) ≤ 3 * b.toNat.size + 1 := hle
    have hpos := e'.weight_pos
    omega

/-! ### A call alone -/

omit [Std.TransOrd κ] in
/-- With all turns to itself, a call goes through what `Table.sentinelWithin` goes through. -/
theorem exists_run_sentinelWithin {g : Nat} {b : Bucket} {w : List Bucket} {node : NodeId}
    {t : Table κ ν} (hi : c.errands[i]? = some (some (.look b w)))
    (h : c.table.sentinelWithin g b = .ok (node, t)) :
    ∃ n as, c.run (.replicate n (.turn i)) =
      ⟨t, c.errands.set i (Errand.resume node w), (b, node) :: (as ++ c.answers)⟩ := by
  -- on the generations; `as` are the answers for the ancestors
  induction g generalizing c b w node t with
  | zero => cases h
  | succ g ih =>
    have hlength : i < c.errands.length := (List.getElem?_eq_some_iff.mp hi).1
    rw [Table.sentinelWithin] at h
    obtain ⟨found, hget, h⟩ := Checked.bind_eq_ok.mp h
    cases found with
    | some j =>
      cases h
      exact ⟨1, [], move_turn_of_step hi (Errand.step_look_of_some hget)⟩
    | none =>
      obtain ⟨p, hparent, h⟩ := Checked.bind_eq_ok.mp h
      obtain ⟨⟨parent, t₁⟩, hwithin, h⟩ := Checked.bind_eq_ok.mp h
      obtain ⟨⟨node', t₂⟩, hlink, hregister⟩ := Checked.bind_eq_ok.mp h
      -- one turn to look, those of the parent, one to link and one to register
      have hlook := move_turn_of_step hi (Errand.step_look_of_none hget hparent)
      have hi₁ : (c.move (.turn i)).errands[i]? = some (some (.look p (b :: w))) := by
        rw [hlook]
        exact List.getElem?_set_self hlength
      obtain ⟨n, as, hrun⟩ := ih hi₁ (by rwa [hlook])
      rw [hlook, List.set_set] at hrun
      have hlinked := move_turn_of_step
        (c := ⟨t₁, c.errands.set i (some (.link b parent w)), (p, parent) :: (as ++ c.answers)⟩)
        (List.getElem?_set_self hlength) (Errand.step_link hlink)
      rw [List.set_set] at hlinked
      have hpublished := move_turn_of_step
        (c := ⟨t₂, c.errands.set i (some (.publish b node' w)), (p, parent) :: (as ++ c.answers)⟩)
        (List.getElem?_set_self hlength) (Errand.step_publish hregister)
      rw [List.set_set] at hpublished
      refine ⟨1 + (n + 2), (p, parent) :: as, ?_⟩
      rw [List.replicate_add, run_append, List.replicate_add, run_append]
      calc move (move ((c.move (.turn i)).run (.replicate n (.turn i))) (.turn i)) (.turn i)
          _ = move (move ⟨t₁, c.errands.set i (some (.link b parent w)),
                (p, parent) :: (as ++ c.answers)⟩ (.turn i)) (.turn i) := by
              rw [hlook, hrun]
              rfl
          _ = move ⟨t₂, c.errands.set i (some (.publish b node' w)),
                (p, parent) :: (as ++ c.answers)⟩ (.turn i) := congrArg (move · (.turn i)) hlinked
          _ = ⟨t, c.errands.set i (Errand.resume node w),
                (b, node) :: ((p, parent) :: as ++ c.answers)⟩ := hpublished

omit [Std.TransOrd κ] in
/-- A call that is made and then has all turns comes to what `Table.sentinel` comes to. -/
theorem exists_run_sentinel {b : Bucket} {node : NodeId} {t : Table κ ν}
    (h : c.table.sentinel b = .ok (node, t)) :
    ∃ n as, c.run (.call b :: .replicate n (.turn c.errands.length)) =
      ⟨t, c.errands ++ [none], (b, node) :: (as ++ c.answers)⟩ := by
  have hi : (c.move (.call b)).errands[c.errands.length]? = some (some (.look b [])) :=
    List.getElem?_concat_length
  obtain ⟨n, as, hrun⟩ := exists_run_sentinelWithin hi h
  refine ⟨n, as, hrun.trans ?_⟩
  show (⟨t, (c.errands ++ [some (Errand.look b [])]).set c.errands.length none, _⟩ : Crowd κ ν) = _
  rw [List.set_append_right _ _ (Nat.le_refl _), Nat.sub_self]
  rfl

end Crowd

end SplitOrder
