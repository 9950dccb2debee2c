import Mathlib.Data.List.Perm.Basic
import SplitOrder.Proofs.Checked

/-!
# Clients that keep to their own keys

Many clients call one collection, each its own fixed sequence of calls, and the calls come in any
order that keeps these sequences. If no two clients use the same key, the order does not show.

* `row`, `Interleaves` — the calls of one client, and the orders of the calls of all.
* `CellSpec` — calls that concern one cell each: what a call replies and leaves in its cell is read
  off what the cell held. `CellSpec.run_client` is what keeps clients apart: to leave out the calls of
  all others changes nothing for a client and its cells.
* `Simulates` — a collection whose calls go like that. It may have whatever else it has.
* `Confluent`, `Simulates.agree` — one outcome for all orders: the same replies to each client,
  and the same to be seen in the end.
-/

namespace SplitOrder

variable {ι γ ρ σ κ β V : Type}

/-! ### Orders of calls -/

section Rows

variable [DecidableEq ι]

/-- What concerns one client, in its order. -/
def row (i : ι) (w : List (ι × γ)) : List γ :=
  (w.filter (·.1 = i)).map Prod.snd

/-- All calls in one order, in which each client makes its calls one after the other. -/
def Interleaves (w : List (ι × γ)) (rows : ι → List γ) : Prop :=
  ∀ i, row i w = rows i

theorem filter_eq_map_row (i : ι) (w : List (ι × γ)) :
    w.filter (·.1 = i) = (row i w).map (Prod.mk i) := by
  rw [row, List.map_map]
  conv_lhs => rw [← List.map_id (w.filter _)]
  refine List.map_congr_left fun e he => ?_
  have hi : e.1 = i := of_decide_eq_true (List.mem_filter.mp he).2
  exact Prod.ext hi rfl

theorem Interleaves.mem {w : List (ι × γ)} {rows : ι → List γ} (h : Interleaves w rows)
    {e : ι × γ} (he : e ∈ w) : e.2 ∈ rows e.1 := by
  rw [← h e.1]
  exact List.mem_map_of_mem (List.mem_filter.mpr ⟨he, decide_eq_true rfl⟩)

/-- Where each client has the same, all have the same, in another order. -/
theorem perm_of_row_eq {w w' : List (ι × γ)} (h : ∀ i, row i w = row i w') : w.Perm w' := by
  classical
  refine List.perm_iff_count.mpr fun ⟨i, c⟩ => ?_
  have hcount : ∀ v : List (ι × γ), v.count (i, c) = (v.filter (·.1 = i)).count (i, c) := by
    intro v
    rw [List.count_filter (by simp)]
  rw [hcount w, hcount w', filter_eq_map_row, filter_eq_map_row, h]

end Rows

/-- Makes the calls one after the other. Each reply is noted with its client and its call. -/
def runSchedule (step : σ → γ → Checked (ρ × σ)) (s : σ) :
    List (ι × γ) → Checked (List (ι × γ × ρ) × σ)
  | [] => .ok ([], s)
  | (i, c) :: w => do
    let (r, s) ← step s c
    let (log, s) ← runSchedule step s w
    return ((i, c, r) :: log, s)

/-! ### Calls that concern one cell each -/

/-- **Calls that concern one cell each.** -/
structure CellSpec (γ κ β ρ : Type) where
  key : γ → κ
  /-- The keys name the same cell. -/
  same : κ → κ → Bool
  refl : ∀ a, same a a = true
  symm : ∀ {a b}, same a b = true → same b a = true
  trans : ∀ {a b c}, same a b = true → same b c = true → same a c = true
  /-- The reply to a call and what it leaves in its cell, which may be empty. -/
  effect : γ → Option β → ρ × Option β
  /-- How many nodes the call retires if that is the reply. -/
  retires : γ → ρ → Nat

namespace CellSpec

variable (C : CellSpec γ κ β ρ)

/-- One call. All cells but its own stay as they are. -/
def apply (m : κ → Option β) (c : γ) : ρ × (κ → Option β) :=
  let (r, x) := C.effect c (m (C.key c))
  (r, fun k => if C.same k (C.key c) then x else m k)

/-- The log of the calls, and the cells after them. -/
def run (m : κ → Option β) : List (ι × γ) → List (ι × γ × ρ) × (κ → Option β)
  | [] => ([], m)
  | (i, c) :: w =>
    let (r, m) := C.apply m c
    let (log, m) := run m w
    ((i, c, r) :: log, m)

/-- How many nodes the calls of a log retire. -/
def retired : List (ι × γ × ρ) → Nat
  | [] => 0
  | (_, c, r) :: log => C.retires c r + retired log

/-- No two clients use the same cell. -/
def Apart (rows : ι → List γ) : Prop :=
  ∀ i j, i ≠ j → ∀ c ∈ rows i, ∀ d ∈ rows j, C.same (C.key c) (C.key d) = false

variable {C} {m m' : κ → Option β} {w w' : List (ι × γ)} {rows : ι → List γ} {k : κ}

theorem retired_eq_of_perm {log log' : List (ι × γ × ρ)} (h : log.Perm log') :
    C.retired log = C.retired log' := by
  induction h with
  | nil => rfl
  | cons e _ ih => simp only [retired, ih]
  | swap e f log => simp only [retired]; omega
  | trans _ _ ih₁ ih₂ => exact ih₁.trans ih₂

theorem apply_of_not_same {c : γ} (h : C.same k (C.key c) = false) : (C.apply m c).2 k = m k := by
  simp [apply, h]

/-- A cell that no call concerns stays as it is. -/
theorem run_of_not_same (h : ∀ e ∈ w, C.same k (C.key e.2) = false) : (C.run m w).2 k = m k := by
  induction w generalizing m with
  | nil => rfl
  | cons e w ih =>
    obtain ⟨i, c⟩ := e
    calc (C.run m ((i, c) :: w)).2 k
        _ = (C.run (C.apply m c).2 w).2 k := rfl
        _ = (C.apply m c).2 k := ih fun e he => h e (List.mem_cons_of_mem _ he)
        _ = m k := apply_of_not_same (h (i, c) List.mem_cons_self)

variable [DecidableEq ι]

/-- **Others do not matter.** Let `own` be cells of which the calls of all other clients keep off,
while those of client `i` keep to them. To leave the calls of the others out, and to change what all
other cells hold, changes neither the replies to the client nor these cells. -/
theorem run_client {i : ι} {own : κ → Prop} (hkeep : ∀ c, (i, c) ∈ w → own (C.key c))
    (hoff : ∀ e ∈ w, e.1 ≠ i → ∀ k, own k → C.same k (C.key e.2) = false)
    (hagree : ∀ k, own k → m k = m' k) :
    (C.run m w).1.filter (·.1 = i) = (C.run m' (w.filter (·.1 = i))).1 ∧
      ∀ k, own k → (C.run m w).2 k = (C.run m' (w.filter (·.1 = i))).2 k := by
  -- along the calls: those of the client do the same to both, the others do nothing to its cells
  induction w generalizing m m' with
  | nil => exact ⟨rfl, hagree⟩
  | cons e w ih =>
    obtain ⟨j, c⟩ := e
    have hkeep' : ∀ c, (i, c) ∈ w → own (C.key c) :=
      fun c hc => hkeep c (List.mem_cons_of_mem _ hc)
    have hoff' : ∀ e ∈ w, e.1 ≠ i → ∀ k, own k → C.same k (C.key e.2) = false :=
      fun e he => hoff e (List.mem_cons_of_mem _ he)
    by_cases hj : j = i
    · subst hj
      have hcell : m (C.key c) = m' (C.key c) := hagree _ (hkeep c List.mem_cons_self)
      have hagree' : ∀ k, own k → (C.apply m c).2 k = (C.apply m' c).2 k := by
        intro k hk
        simp only [apply, hcell, hagree k hk]
      obtain ⟨hlog, hcells⟩ := ih hkeep' hoff' hagree'
      rw [List.filter_cons_of_pos (by simp)]
      refine ⟨?_, hcells⟩
      have hreply : (C.apply m c).1 = (C.apply m' c).1 := by
        simp only [apply, hcell]
      simp only [run, List.filter_cons, decide_true, if_true, hreply, hlog]
    · have hagree' : ∀ k, own k → (C.apply m c).2 k = m' k := by
        intro k hk
        rw [apply_of_not_same (hoff (j, c) List.mem_cons_self hj k hk), hagree k hk]
      obtain ⟨hlog, hcells⟩ := ih hkeep' hoff' hagree'
      rw [List.filter_cons_of_neg (by simpa using hj)]
      refine ⟨?_, hcells⟩
      simp only [run, List.filter_cons, hj, decide_false, hlog]
      rfl

/-- What a client does to its cells, whatever the others do meanwhile. -/
theorem run_client_of_apart (hapart : C.Apart rows) (hw : Interleaves w rows) (i : ι) :
    (C.run m w).1.filter (·.1 = i) = (C.run m (w.filter (·.1 = i))).1 ∧
      ∀ k, (∃ c ∈ rows i, C.same k (C.key c) = true) →
        (C.run m w).2 k = (C.run m (w.filter (·.1 = i))).2 k := by
  refine run_client (fun c hc => ⟨c, hw.mem hc, C.refl _⟩) ?_ fun _ _ => rfl
  rintro ⟨j, d⟩ hd hj k ⟨c, hc, hsame⟩
  -- a cell of both clients would be one that both use
  by_contra hboth
  have hcd : C.same (C.key c) (C.key d) = true :=
    C.trans (C.symm hsame) (Bool.not_eq_false _ ▸ hboth)
  exact Bool.false_ne_true ((hapart i j (Ne.symm hj) c hc d (hw.mem hd)).symm.trans hcd)

/-- **One outcome for all orders**, of cells. -/
theorem run_eq_of_interleaves (hapart : C.Apart rows) (hw : Interleaves w rows)
    (hw' : Interleaves w' rows) :
    (∀ i, row i (C.run m w).1 = row i (C.run m w').1) ∧ (C.run m w).2 = (C.run m w').2 := by
  -- what is left of both orders for a client is its sequence of calls
  have hclient : ∀ i, w.filter (·.1 = i) = w'.filter (·.1 = i) := by
    intro i
    rw [filter_eq_map_row, filter_eq_map_row, hw i, hw' i]
  constructor
  · intro i
    unfold row
    rw [(run_client_of_apart hapart hw i).1, (run_client_of_apart hapart hw' i).1, hclient]
  · funext k
    by_cases hused : ∃ i, ∃ c ∈ rows i, C.same k (C.key c) = true
    · obtain ⟨i, hi⟩ := hused
      rw [(run_client_of_apart hapart hw i).2 k hi, (run_client_of_apart hapart hw' i).2 k hi,
        hclient]
    · have hunused : ∀ {v : List (ι × γ)}, Interleaves v rows →
          ∀ e ∈ v, C.same k (C.key e.2) = false := by
        intro v hv e he
        by_contra hsame
        exact hused ⟨e.1, e.2, hv.mem he, Bool.not_eq_false _ ▸ hsame⟩
      rw [run_of_not_same (hunused hw), run_of_not_same (hunused hw')]

end CellSpec

/-! ### Collections -/

/-- **A collection whose calls concern one cell each.** What it has besides shows neither in the
replies nor in the count of retired nodes. -/
structure Simulates (step : σ → γ → Checked (ρ × σ)) (C : CellSpec γ κ β ρ)
    (shows : σ → (κ → Option β) → Prop) (count : σ → UInt64) : Prop where
  step : ∀ {s m c r s'}, shows s m → step s c = .ok (r, s') →
    r = (C.apply m c).1 ∧ shows s' (C.apply m c).2 ∧ count s' = count s + .ofNat (C.retires c r)

variable {step : σ → γ → Checked (ρ × σ)} {C : CellSpec γ κ β ρ}
  {shows : σ → (κ → Option β) → Prop} {count : σ → UInt64} {s s' : σ} {m : κ → Option β}
  {w : List (ι × γ)} {log : List (ι × γ × ρ)}

/-- **Run lemma.** -/
theorem Simulates.run (h : Simulates step C shows count) (hs : shows s m)
    (hrun : runSchedule step s w = .ok (log, s')) :
    log = (C.run m w).1 ∧ shows s' (C.run m w).2 ∧
      count s' = count s + .ofNat (C.retired log) := by
  induction w generalizing s m log with
  | nil =>
    cases hrun
    exact ⟨rfl, hs, (UInt64.add_zero _).symm⟩
  | cons e w ih =>
    obtain ⟨i, c⟩ := e
    obtain ⟨⟨r, s₁⟩, hstep, hrest⟩ := Checked.bind_eq_ok.mp hrun
    obtain ⟨⟨log₁, s₂⟩, htail, hlog⟩ := Checked.bind_eq_ok.mp hrest
    cases hlog
    obtain ⟨rfl, hs₁, hcount₁⟩ := h.step hs hstep
    obtain ⟨rfl, hs₂, hcount₂⟩ := ih hs₁ htail
    refine ⟨rfl, hs₂, ?_⟩
    rw [hcount₂, hcount₁, CellSpec.retired, UInt64.ofNat_add, UInt64.add_assoc]

/-- Calls that end one by one end in a row. -/
theorem ends_runSchedule {P : σ → List (ι × γ) → Prop}
    (hstep : ∀ s i c w, P s ((i, c) :: w) → Checked.Ends (fun p => P p.2 w) (step s c))
    (h : P s w) : ∃ log s', runSchedule step s w = .ok (log, s') := by
  induction w generalizing s with
  | nil => exact ⟨[], s, rfl⟩
  | cons e w ih =>
    obtain ⟨i, c⟩ := e
    obtain ⟨⟨r, s₁⟩, hone, h₁⟩ := hstep s i c w h
    obtain ⟨log, s', hrun⟩ := ih h₁
    refine ⟨(i, c, r) :: log, s', ?_⟩
    simp only [runSchedule, hone, Checked.ok_bind, hrun]
    rfl

variable [DecidableEq ι]

/-- **The order of the calls does not show.** Whoever makes the calls of all clients one after the
other, in whatever order, sees every call replied to in the same way, and sees the same in the
end. -/
structure Confluent (step : σ → γ → Checked (ρ × σ)) (view : σ → V) (room : List (ι × γ) → Prop)
    (s : σ) (rows : ι → List γ) : Prop where
  ends : ∀ w, Interleaves w rows → room w → ∃ log s', runSchedule step s w = .ok (log, s')
  agree : ∀ w w' log log' s₁ s₂, Interleaves w rows → Interleaves w' rows →
    runSchedule step s w = .ok (log, s₁) → runSchedule step s w' = .ok (log', s₂) →
    (∀ i, row i log = row i log') ∧ view s₁ = view s₂

/-- Who sees less sees no more of the order. -/
theorem Confluent.map {V' : Type} {view : σ → V} {view' : σ → V'} {room : List (ι × γ) → Prop}
    {rows : ι → List γ} (h : Confluent step view room s rows) (f : V → V')
    (hview : ∀ s, view' s = f (view s)) : Confluent step view' room s rows where
  ends := h.ends
  agree := by
    intro w w' log log' s₁ s₂ hw hw' hrun hrun'
    obtain ⟨hreplies, hsame⟩ := h.agree w w' log log' s₁ s₂ hw hw' hrun hrun'
    exact ⟨hreplies, by rw [hview, hview, hsame]⟩

/-- **What concerns one cell each is confluent**, if all there is to see is in the cells and in the
count of retired nodes. -/
theorem Simulates.agree (h : Simulates step C shows count) {view : σ → V}
    (hview : ∀ {s s' m}, shows s m → shows s' m → count s = count s' → view s = view s')
    {rows : ι → List γ} (hapart : C.Apart rows) (hs : shows s m) {w' : List (ι × γ)}
    {log' : List (ι × γ × ρ)} {s₁ s₂ : σ} (hw : Interleaves w rows) (hw' : Interleaves w' rows)
    (hrun : runSchedule step s w = .ok (log, s₁)) (hrun' : runSchedule step s w' = .ok (log', s₂)) :
    (∀ i, row i log = row i log') ∧ view s₁ = view s₂ := by
  obtain ⟨hlog, hs₁, hcount₁⟩ := h.run hs hrun
  obtain ⟨hlog', hs₂, hcount₂⟩ := h.run hs hrun'
  obtain ⟨hreplies, hcells⟩ := CellSpec.run_eq_of_interleaves (m := m) hapart hw hw'
  rw [← hlog, ← hlog'] at hreplies
  refine ⟨hreplies, hview hs₁ (hcells ▸ hs₂) ?_⟩
  -- the logs are the same in another order, so as many nodes were retired
  have hretired : C.retired log = C.retired log' :=
    CellSpec.retired_eq_of_perm (perm_of_row_eq hreplies)
  rw [hcount₁, hcount₂, hretired]

end SplitOrder
