import Mathlib.Algebra.Group.Nat.Defs
import SplitOrder.Fault
import SplitOrder.Reclaimer

/-!
# When a reclaimer lets go

A reclaimer examines its stack before it gives back the first node. The examination stops at nothing
exactly if no node was retired twice (`firstRepeated?_eq_none_iff`), and then every retired node is
given back (`Reclaimer.releaseAll_eq`). Otherwise it stops at the first member that repeats an
earlier one (`firstRepeated?_eq_some_iff`), nothing is given back
(`Reclaimer.releaseAll_of_firstRepeat`), and the text of the fault tells which node it is
(`Fault.message_retiredTwice_injective`). The counter tells the height of the stack as far as a word
can (`Reclaimer.toNat_count_retire`).
-/

namespace SplitOrder

variable {ι : Type _}

/-! ### Taking nodes over -/

namespace Reclaimer

theorem toNat_count_retire {r : Reclaimer ι}
    (h : r.count.toNat = r.retired.length % 2 ^ 64) (node : ι) :
    (r.retire node).count.toNat = (r.retire node).retired.length % 2 ^ 64 := by
  rw [count_retire, retired_retire, UInt64.toNat_add, UInt64.toNat_one, List.length_cons]
  omega

/-- After each node that is taken over, the counter tells how many nodes are kept, and nothing more
was given back. -/
theorem map_retireAll {r : Reclaimer ι} (nodes : List ι)
    (h : r.count.toNat = r.retired.length) (hfit : r.retired.length + nodes.length < 2 ^ 64) :
    (r.retireAll nodes).map (fun r => (r.count.toNat, r.released)) =
      (List.range' (r.retired.length + 1) nodes.length).map (·, r.released) := by
  induction nodes generalizing r with
  | nil => rfl
  | cons node nodes ih =>
    rw [List.length_cons] at hfit
    have hcount : (r.retire node).count.toNat = (r.retire node).retired.length := by
      rw [toNat_count_retire (by rw [h, Nat.mod_eq_of_lt]; omega), retired_retire, List.length_cons,
        Nat.mod_eq_of_lt]
      omega
    have hrest := ih hcount (by rw [retired_retire, List.length_cons]; omega)
    rw [retireAll, List.map_cons, hrest, hcount, retired_retire, List.length_cons, released_retire,
      List.length_cons, List.range'_succ, List.map_cons]

theorem map_retireAll_empty (nodes : List ι) (h : nodes.length < 2 ^ 64) :
    (({} : Reclaimer ι).retireAll nodes).map (fun r => (r.count.toNat, r.released)) =
      (List.range' 1 nodes.length).map (·, []) :=
  map_retireAll nodes rfl (by rwa [List.length_nil, Nat.zero_add])

/-- The last node that was taken over lies on top. -/
theorem last_retireAll (r : Reclaimer ι) (nodes : List ι) :
    ((r.retireAll nodes).getLast?.getD r).retired = nodes.reverse ++ r.retired ∧
      ((r.retireAll nodes).getLast?.getD r).released = r.released := by
  induction nodes generalizing r with
  | nil => exact ⟨rfl, rfl⟩
  | cons node nodes ih =>
    obtain ⟨hretired, hreleased⟩ := ih (r.retire node)
    rw [retireAll, List.getLast?_cons, Option.getD_some, hretired, hreleased]
    simp

end Reclaimer

/-! ### The examination -/

/-- A member of a list that repeats an earlier one, while no two before it are the same. -/
def FirstRepeat (a : ι) (l : List ι) : Prop :=
  ∃ before after, l = before ++ a :: after ∧ before.Nodup ∧ a ∈ before

variable [Ord ι] [Std.TransOrd ι] [Std.LawfulEqOrd ι]

theorem firstRepeatedAfter?_eq_none_iff {seen : Std.TreeSet ι} {l : List ι} :
    firstRepeatedAfter? seen l = none ↔ l.Nodup ∧ ∀ x ∈ l, x ∉ seen := by
  -- on the list; what was seen grows with each member that is passed
  induction l generalizing seen with
  | nil => simp [firstRepeatedAfter?]
  | cons x xs ih =>
    rw [firstRepeatedAfter?]
    by_cases hx : x ∈ seen
    · simp [hx]
    · rw [if_neg hx, ih]
      simp only [List.nodup_cons, List.forall_mem_cons, Std.TreeSet.mem_insert,
        Std.LawfulEqCmp.compare_eq_iff_eq, not_or]
      constructor
      · rintro ⟨hnodup, hxs⟩
        exact ⟨⟨fun hmem => (hxs x hmem).1 rfl, hnodup⟩, hx, fun y hy => (hxs y hy).2⟩
      · rintro ⟨⟨hmem, hnodup⟩, -, hxs⟩
        refine ⟨hnodup, fun y hy => ⟨?_, hxs y hy⟩⟩
        rintro rfl
        exact hmem hy

/-- Nothing repeats an earlier member exactly if there are no duplicates. -/
theorem firstRepeated?_eq_none_iff {l : List ι} : firstRepeated? l = none ↔ l.Nodup := by
  rw [firstRepeated?, firstRepeatedAfter?_eq_none_iff]
  simp

/-- A member that is found repeats one before it, or one that was seen, and none before it does. -/
theorem exists_of_firstRepeatedAfter? {seen : Std.TreeSet ι} {l : List ι} {a : ι}
    (h : firstRepeatedAfter? seen l = some a) : ∃ before after, l = before ++ a :: after ∧
      before.Nodup ∧ (∀ x ∈ before, x ∉ seen) ∧ (a ∈ seen ∨ a ∈ before) := by
  induction l generalizing seen with
  | nil => cases h
  | cons x xs ih =>
    rw [firstRepeatedAfter?] at h
    by_cases hx : x ∈ seen
    · rw [if_pos hx] at h
      cases h
      exact ⟨[], xs, rfl, List.nodup_nil, by simp, .inl hx⟩
    · rw [if_neg hx] at h
      obtain ⟨before, after, rfl, hnodup, hbefore, ha⟩ := ih h
      simp only [Std.TreeSet.mem_insert, Std.LawfulEqCmp.compare_eq_iff_eq, not_or] at hbefore ha
      have hmem : x ∉ before := fun hmem => (hbefore x hmem).1 rfl
      refine ⟨x :: before, after, rfl, List.nodup_cons.mpr ⟨hmem, hnodup⟩,
        List.forall_mem_cons.mpr ⟨hx, fun y hy => (hbefore y hy).2⟩, ?_⟩
      rw [or_assoc, or_left_comm] at ha
      rwa [List.mem_cons, eq_comm (a := a)]

/-- What is passed on the way makes no difference to what is found. -/
theorem firstRepeatedAfter?_append_cons {seen : Std.TreeSet ι} {before : List ι} {a : ι}
    (hnodup : before.Nodup) (hbefore : ∀ x ∈ before, x ∉ seen) (ha : a ∈ seen ∨ a ∈ before)
    (after : List ι) : firstRepeatedAfter? seen (before ++ a :: after) = some a := by
  induction before generalizing seen with
  | nil => exact if_pos (ha.resolve_right List.not_mem_nil)
  | cons x xs ih =>
    obtain ⟨hmem, hnodup⟩ := List.nodup_cons.mp hnodup
    obtain ⟨hx, hxs⟩ := List.forall_mem_cons.mp hbefore
    rw [List.cons_append, firstRepeatedAfter?, if_neg hx]
    apply ih hnodup
    · intro y hy
      rw [Std.TreeSet.mem_insert, Std.LawfulEqCmp.compare_eq_iff_eq]
      rintro (rfl | hseen)
      · exact hmem hy
      · exact hxs y hy hseen
    · rw [List.mem_cons, eq_comm (a := a)] at ha
      rwa [Std.TreeSet.mem_insert, Std.LawfulEqCmp.compare_eq_iff_eq, or_assoc, or_left_comm]

/-- The member that is found is the first that repeats an earlier one. -/
theorem firstRepeated?_eq_some_iff {l : List ι} {a : ι} :
    firstRepeated? l = some a ↔ FirstRepeat a l := by
  constructor
  · intro h
    obtain ⟨before, after, hl, hnodup, -, ha⟩ := exists_of_firstRepeatedAfter? h
    exact ⟨before, after, hl, hnodup, ha.resolve_left Std.TreeSet.not_mem_emptyc⟩
  · rintro ⟨before, after, rfl, hnodup, ha⟩
    exact firstRepeatedAfter?_append_cons hnodup (fun _ _ => Std.TreeSet.not_mem_emptyc) (.inr ha)
      after

theorem FirstRepeat.unique {l : List ι} {a b : ι} (ha : FirstRepeat a l) (hb : FirstRepeat b l) :
    a = b := by
  rw [← firstRepeated?_eq_some_iff] at ha hb
  exact Option.some.inj (ha.symm.trans hb)

theorem exists_firstRepeat {l : List ι} (h : ¬ l.Nodup) : ∃ a, FirstRepeat a l := by
  obtain ⟨a, ha⟩ := Option.ne_none_iff_exists'.mp (mt firstRepeated?_eq_none_iff.mp h)
  exact ⟨a, firstRepeated?_eq_some_iff.mp ha⟩

/-! ### Giving nodes back -/

namespace Reclaimer

/-- **Nodes that were retired once are given back**, the last one first. -/
theorem releaseAll_eq {r : Reclaimer ι} (h : r.retired.Nodup) :
    r.releaseAll = .ok { r with retired := [], released := r.released ++ r.retired } := by
  rw [releaseAll, firstRepeated?_eq_none_iff.mpr h]

/-- **If a node was retired twice, none is given back**, and the first one that occurs again on the
way down is named. -/
theorem releaseAll_of_firstRepeat {r : Reclaimer ι} {a : ι} (h : FirstRepeat a r.retired) :
    r.releaseAll = .error a := by
  rw [releaseAll, firstRepeated?_eq_some_iff.mpr h]

variable {nodes : List ι}

theorem releaseAll_last_of_nodup (h : nodes.Nodup) :
    ∃ r, ((({} : Reclaimer ι).retireAll nodes).getLast?.getD {}).releaseAll = .ok r ∧
      r.released = nodes.reverse := by
  obtain ⟨hretired, hreleased⟩ := last_retireAll {} nodes
  rw [List.append_nil] at hretired
  refine ⟨_, releaseAll_eq (hretired ▸ (List.reverse_perm nodes).nodup_iff.mpr h), ?_⟩
  rw [hretired, hreleased]
  rfl

theorem releaseAll_last_of_firstRepeat {a : ι} (h : FirstRepeat a nodes.reverse) :
    ((({} : Reclaimer ι).retireAll nodes).getLast?.getD {}).releaseAll = .error a := by
  obtain ⟨hretired, -⟩ := last_retireAll {} nodes
  rw [List.append_nil] at hretired
  exact releaseAll_of_firstRepeat (hretired ▸ h)

end Reclaimer

/-! ### Naming a node -/

omit [Ord ι] [Std.TransOrd ι] [Std.LawfulEqOrd ι]

/-- Different numbers are written with different digits. -/
theorem toDigits_sixteen_injective : Function.Injective (Nat.toDigits 16) := by
  have hdigit : ∀ i < 16, ∀ j < 16, Nat.digitChar i = Nat.digitChar j → i = j := by decide
  intro m n h
  induction m using Nat.strongRecOn generalizing n with
  | ind m ih =>
    have hlength := congrArg List.length h
    rcases Nat.lt_or_ge m 16 with hm | hm <;> rcases Nat.lt_or_ge n 16 with hn | hn
    · rw [Nat.toDigits_of_lt_base hm, Nat.toDigits_of_lt_base hn] at h
      exact hdigit m hm n hn (List.singleton_inj.mp h)
    · have hpos : 0 < (Nat.toDigits 16 (n / 16)).length := Nat.length_toDigits_pos
      rw [Nat.toDigits_of_lt_base hm, Nat.toDigits_of_base_le (by decide) hn, List.length_append,
        List.length_singleton, List.length_singleton] at hlength
      omega
    · have hpos : 0 < (Nat.toDigits 16 (m / 16)).length := Nat.length_toDigits_pos
      rw [Nat.toDigits_of_lt_base hn, Nat.toDigits_of_base_le (by decide) hm, List.length_append,
        List.length_singleton, List.length_singleton] at hlength
      omega
    · -- the last digits agree, and so do the digits in front of them
      rw [Nat.toDigits_of_base_le (by decide) hm, Nat.toDigits_of_base_le (by decide) hn] at h
      obtain ⟨hhigh, hlow⟩ := List.append_inj' h rfl
      have hdiv : m / 16 = n / 16 := ih _ (by omega) hhigh
      have hmod : m % 16 = n % 16 := hdigit _ (Nat.mod_lt _ (by decide)) _
        (Nat.mod_lt _ (by decide)) (List.singleton_inj.mp hlow)
      omega

/-- The text tells the node. -/
theorem Fault.message_retiredTwice_injective :
    Function.Injective fun address => (Fault.retiredTwice address).message := by
  intro a b h
  have hlist := congrArg String.toList h
  simp only [Fault.message, String.toList_append, String.toList_ofList, List.append_cancel_right_eq,
    List.append_cancel_left_eq] at hlist
  exact UInt64.toNat_inj.mp (toDigits_sixteen_injective hlist)

end SplitOrder
