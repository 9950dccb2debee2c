import SplitOrder.Proofs.Table.Calls

/-!
# Histories

What a table is like after a run may depend on everything that was done to it: which keys were asked
for, how many buckets there were at the time, how many entries. A history keeps this. It has one
visit for each action of the run, with the table as the action found it.

* `Visit` — an action on a key, and the table that it found.
* `Table.performAll` — actions one after the other, with their visits. `performAll_induction` proves
  what holds of a history and the table it led to, one visit after the other.
* `TableSession.actionsAll` — the actions that a sequence of operations consists of, those in the
  ranges and those nested in it included; `SetSession.actionsAll` — the same for requests to a key
  set.
* `TableSession.does_of_steps`, `SetSession.does_of_run` — a session does these to its table, and
  nothing else.
-/

namespace SplitOrder

/-- An action on a key, as it began. -/
structure Visit (κ ν : Type) where
  key : κ
  /-- The table that it found. -/
  table : Table κ ν

namespace Table

variable {κ ν : Type} [Ord κ]

/-- Actions, one after the other. Answers their visits and the table after the last one. -/
def performAll (t : Table κ ν) :
    List (κ × Action ν) → Checked (List (Visit κ ν) × Table κ ν)
  | [] => .ok ([], t)
  | (key, a) :: actions => do
    let (_, t') ← t.perform key a
    let (visits, t'') ← t'.performAll actions
    return (⟨key, t⟩ :: visits, t'')

/-- The actions lead from one table to the other. -/
def Does (t : Table κ ν) (actions : List (κ × Action ν)) (t' : Table κ ν) : Prop :=
  ∃ visits, t.performAll actions = .ok (visits, t')

variable {t t' t'' : Table κ ν} {key : κ} {a : Action ν} {change : Change}
  {actions as bs : List (κ × Action ν)} {visits : List (Visit κ ν)}

theorem performAll_cons_eq_ok (h : t.performAll ((key, a) :: actions) = .ok (visits, t'')) :
    ∃ change t' rest, t.perform key a = .ok (change, t') ∧
      t'.performAll actions = .ok (rest, t'') ∧ visits = ⟨key, t⟩ :: rest := by
  obtain ⟨⟨change, t'⟩, hfirst, h⟩ := Checked.bind_eq_ok.mp h
  obtain ⟨⟨rest, u⟩, hrest, h⟩ := Checked.bind_eq_ok.mp h
  cases h
  exact ⟨change, t', rest, hfirst, hrest, rfl⟩

/-- There is one visit for each action. -/
theorem map_key_of_performAll (h : t.performAll actions = .ok (visits, t')) :
    visits.map Visit.key = actions.map Prod.fst := by
  induction actions generalizing t visits with
  | nil =>
    cases h
    rfl
  | cons first actions ih =>
    obtain ⟨key, a⟩ := first
    obtain ⟨change, t₁, rest, -, hrest, rfl⟩ := performAll_cons_eq_ok h
    rw [List.map_cons, List.map_cons, ih hrest]

theorem Does.refl (t : Table κ ν) : t.Does [] t :=
  ⟨[], rfl⟩

theorem Does.append (h : t.Does as t') (h' : t'.Does bs t'') : t.Does (as ++ bs) t'' := by
  -- on the actions of the first part
  induction as generalizing t with
  | nil =>
    obtain ⟨visits, h⟩ := h
    cases h
    exact h'
  | cons first as ih =>
    obtain ⟨key, a⟩ := first
    obtain ⟨visits, h⟩ := h
    obtain ⟨change, t₁, rest, hfirst, hrest, -⟩ := performAll_cons_eq_ok h
    obtain ⟨later, hlater⟩ := ih ⟨rest, hrest⟩
    refine ⟨⟨key, t⟩ :: later, ?_⟩
    rw [List.cons_append, performAll, hfirst]
    simp only [Checked.ok_bind, hlater]
    rfl

/-- **Induction on a history.** What holds at the start and is kept by every action, when its visit
is added, holds after all of them. -/
theorem performAll_induction {P : List (Visit κ ν) → Table κ ν → Prop}
    (step : ∀ {past t key a change t'}, P past t → t.perform key a = .ok (change, t') →
      P (past ++ [⟨key, t⟩]) t')
    {past : List (Visit κ ν)} (h₀ : P past t) (h : t.performAll actions = .ok (visits, t')) :
    P (past ++ visits) t' := by
  induction actions generalizing t past visits with
  | nil =>
    cases h
    rwa [List.append_nil]
  | cons first actions ih =>
    obtain ⟨key, a⟩ := first
    obtain ⟨change, t₁, rest, hfirst, hrest, rfl⟩ := performAll_cons_eq_ok h
    have hlater : P ((past ++ [⟨key, t⟩]) ++ rest) t' := ih (step h₀ hfirst) hrest
    rwa [List.append_assoc] at hlater

/-- One operation for each member of a list. -/
theorem Does.countTrue {ι : Type} {operation : Table κ ν → ι → Checked (Bool × Table κ ν)}
    {action : ι → κ × Action ν}
    (hop : ∀ {t t' x b}, operation t x = .ok (b, t') → t.Does [action x] t')
    {xs : List ι} {n : Nat} (h : Checked.countTrue operation t xs = .ok (n, t')) :
    t.Does (xs.map action) t' := by
  induction xs generalizing t n with
  | nil =>
    cases h
    exact .refl _
  | cons x xs ih =>
    rw [Checked.countTrue_cons] at h
    obtain ⟨⟨b, t₁⟩, hfirst, h⟩ := Checked.bind_eq_ok.mp h
    obtain ⟨⟨m, t₂⟩, hrest, h⟩ := Checked.bind_eq_ok.mp h
    cases h
    exact (hop hfirst).append (ih hrest)

/-! ### The operations as actions -/

theorem does_of_perform (h : t.perform key a = .ok (change, t')) : t.Does [(key, a)] t' :=
  ⟨[⟨key, t⟩], by rw [performAll, h]; rfl⟩

theorem does_insert {value : ν} {b : Bool} (h : t.insert key value = .ok (b, t')) :
    t.Does [(key, .insert value)] t' :=
  does_of_perform (by rw [perform, h]; rfl)

theorem does_remove {value : Option ν} (h : t.remove key = .ok (value, t')) :
    t.Does [(key, .remove)] t' :=
  does_of_perform (by rw [perform, h]; rfl)

theorem does_delete {b : Bool} (h : t.delete key = .ok (b, t')) : t.Does [(key, .delete)] t' :=
  does_of_perform (by rw [perform, h]; rfl)

theorem does_contains {b : Bool} (h : t.contains key = .ok (b, t')) :
    t.Does [(key, .contains)] t' :=
  does_of_perform (by rw [perform, h]; rfl)

theorem does_get {value : Option ν} (h : t.get key = .ok (value, t')) : t.Does [(key, .get)] t' :=
  does_of_perform (by rw [perform, h]; rfl)

theorem does_find {pair : Option (κ × ν)} (h : t.find key = .ok (pair, t')) :
    t.Does [(key, .find)] t' :=
  does_of_perform (by rw [perform, h]; rfl)

theorem does_lookup {found : Option NodeId} (h : t.lookup key = .ok (found, t')) :
    t.Does [(key, .lookup)] t' :=
  does_of_perform (by rw [perform, h]; rfl)

end Table

/-! ### Sessions on tables -/

section Actions

variable {κ ν : Type} [Numbered κ] [Numbered ν]

/-- The actions that a request consists of. What only reads the table or a cursor has none. -/
def TableRequest.actions : TableRequest κ ν → List (κ × Action ν)
  | .insert key value => [(key, .insert value)]
  | .remove key => [(key, .remove)]
  | .delete key => [(key, .delete)]
  | .contains key => [(key, .contains)]
  | .reference key | .get key => [(key, .get)]
  | .find key => [(key, .find)]
  | .hold key => [(key, .lookup)]
  | .insertRange range =>
    range.numbers.map fun n => (Numbered.ofNumber n, .insert (Numbered.ofNumber n))
  | .deleteRange range => range.numbers.map fun n => (Numbered.ofNumber n, .delete)
  | .containsRange range => range.numbers.map fun n => (Numbered.ofNumber n, .contains)
  | .held _ | .size | .isEmpty | .bucketCount | .statistics | .toList | .debug _ => []
  | .openCursor | .hasNext _ | .next _ | .drain _ => []

end Actions

namespace TableSession

open Table

variable {κ ν : Type} [Ord κ] [Numbered κ] [Numbered ν] [Text.Legible κ] [Text.Legible ν]
  {s t : TableSession κ ν} {reply : TableReply κ ν}

mutual

/-- The actions that an operation consists of, those nested in it included. -/
def actions (s : TableSession κ ν) : TableOp κ ν → Checked (List (κ × Action ν))
  | .request r => return r.actions
  | .applyWith key nested => do
    match ← s.table.find key with
    | (none, _) => return [(key, .find)]
    | (some _, table) => return (key, .find) :: (← actionsAll { s with table } nested)

/-- The actions that a sequence of operations consists of. -/
def actionsAll (s : TableSession κ ν) : List (TableOp κ ν) → Checked (List (κ × Action ν))
  | [] => return []
  | op :: ops => do
    let first ← actions s op
    let (_, s) ← s.step op
    return first ++ (← actionsAll s ops)

end

/-- **A request** does its actions to the table. -/
theorem does_of_answer {r : TableRequest κ ν} (h : s.answer r = .ok (reply, t)) :
    s.table.Does r.actions t.table := by
  unfold answer at h
  cases r with
  | insert key value =>
    obtain ⟨b, hop⟩ := exists_onTable h
    exact does_insert hop
  | remove key =>
    obtain ⟨value, hop⟩ := exists_onTable h
    exact does_remove hop
  | delete key =>
    obtain ⟨b, hop⟩ := exists_onTable h
    exact does_delete hop
  | contains key =>
    obtain ⟨b, hop⟩ := exists_onTable h
    exact does_contains hop
  | reference key | get key =>
    obtain ⟨value, hop⟩ := exists_onTable h
    exact does_get hop
  | find key =>
    obtain ⟨pair, hop⟩ := exists_onTable h
    exact does_find hop
  | hold key =>
    obtain ⟨⟨found, t₁⟩, hlook, h⟩ := Checked.bind_eq_ok.mp h
    cases found with
    | none => cases h; exact does_lookup hlook
    | some i => cases h; exact does_lookup hlook
  | held i | size | isEmpty | bucketCount | statistics | openCursor =>
    cases h
    exact .refl _
  | toList | debug layout =>
    obtain ⟨x, -, h⟩ := Checked.bind_eq_ok.mp h
    cases h
    exact .refl _
  | insertRange range =>
    obtain ⟨n, hop⟩ := exists_onTable h
    exact .countTrue (fun hinsert => does_insert hinsert) hop
  | deleteRange range =>
    obtain ⟨n, hop⟩ := exists_onTable h
    exact .countTrue (fun hdelete => does_delete hdelete) hop
  | containsRange range =>
    obtain ⟨n, hop⟩ := exists_onTable h
    exact .countTrue (fun hcontains => does_contains hcontains) hop
  | hasNext i | next i | drain i =>
    rw [table_withCursor h]
    exact .refl _

mutual

/-- **Step lemma.** -/
theorem does_of_step {s t : TableSession κ ν} {reply : TableReply κ ν} :
    ∀ op : TableOp κ ν, s.step op = .ok (reply, t) →
      ∃ as, s.actions op = .ok as ∧ s.table.Does as t.table
  | .request r, h => ⟨r.actions, rfl, does_of_answer h⟩
  | .applyWith key nested, h => by
    obtain ⟨⟨pair, t₁⟩, hfind, h⟩ := Checked.bind_eq_ok.mp h
    rw [actions, hfind, Checked.ok_bind]
    cases pair with
    | none =>
      cases h
      exact ⟨_, rfl, does_find hfind⟩
    | some p =>
      -- the search, and then whatever is nested
      obtain ⟨⟨replies, u⟩, hnested, h⟩ := Checked.bind_eq_ok.mp h
      cases h
      obtain ⟨as, has, hdoes⟩ := does_of_steps nested hnested
      exact ⟨(key, .find) :: as, by simp only [has]; rfl, (does_find hfind).append hdoes⟩

/-- **Run lemma.** A session does to its table the actions that its operations consist of. -/
theorem does_of_steps {s t : TableSession κ ν} {replies : List (TableReply κ ν)} :
    ∀ ops : List (TableOp κ ν), s.steps ops = .ok (replies, t) →
      ∃ as, s.actionsAll ops = .ok as ∧ s.table.Does as t.table
  | [], h => by
    cases h
    exact ⟨[], rfl, .refl _⟩
  | op :: ops, h => by
    obtain ⟨⟨reply, u⟩, hop, h⟩ := Checked.bind_eq_ok.mp h
    obtain ⟨⟨rest, v⟩, hops, h⟩ := Checked.bind_eq_ok.mp h
    cases h
    obtain ⟨as, has, hfirst⟩ := does_of_step op hop
    obtain ⟨bs, hbs, hrest⟩ := does_of_steps ops hops
    refine ⟨as ++ bs, ?_, hfirst.append hrest⟩
    rw [actionsAll, has, Checked.ok_bind]
    simp only [hop, Checked.ok_bind, hbs]
    rfl

end

end TableSession

/-! ### Sessions on key sets -/

namespace KeySet

open Table

variable {κ : Type} [Ord κ]

/-- The lookups of a request whether all keys are there, up to the first one that is not. -/
def containsActions (s : KeySet κ) : List κ → Checked (List (κ × Action Unit))
  | [] => return []
  | k :: ks => do
    match ← s.contains k with
    | (true, s) => return (k, .contains) :: (← containsActions s ks)
    | (false, _) => return [(k, .contains)]

/-- The deletions in the rounds that clear a set. -/
def clearActions : Nat → KeySet κ → Checked (List (κ × Action Unit))
  | 0, _ => .error .endless
  | rounds + 1, s => do
    match ← Table.keys s with
    | [] => return []
    | keys =>
      let (_, s) ← KeyCollection.deleteMany s keys
      return keys.map (·, .delete) ++ (← clearActions rounds s)

/-- The actions that a request about many keys consists of. -/
def bulkActions (s : KeySet κ) : BulkRequest κ → Checked (List (κ × Action Unit))
  | .isEmpty => return []
  | .clear => do clearActions ((← Table.keys s).length + 1) s
  | .insertMany keys => return keys.map (·, .insert ())
  | .deleteMany keys => return keys.map (·, .delete)
  | .retainOnly keep => do
    let keys ← Table.keys s
    return (keys.filter fun k => !keep.any fun kept => compare kept k == .eq).map (·, .delete)
  | .containsMany keys => containsActions s keys

variable {s s' : KeySet κ} {b : Bool}

theorem does_insertMany {keys : List κ} (h : KeyCollection.insertMany s keys = .ok (b, s')) :
    s.Does (keys.map (·, .insert ())) s' := by
  obtain ⟨⟨n, s₁⟩, hcount, h⟩ := Checked.bind_eq_ok.mp h
  cases h
  exact .countTrue (fun hinsert => does_insert hinsert) hcount

theorem does_deleteMany {keys : List κ} (h : KeyCollection.deleteMany s keys = .ok (b, s')) :
    s.Does (keys.map (·, .delete)) s' := by
  obtain ⟨⟨n, s₁⟩, hcount, h⟩ := Checked.bind_eq_ok.mp h
  cases h
  exact .countTrue (fun hdelete => does_delete hdelete) hcount

theorem does_containsMany {keys : List κ} (h : KeyCollection.containsMany s keys = .ok (b, s')) :
    ∃ as, s.containsActions keys = .ok as ∧ s.Does as s' := by
  induction keys generalizing s with
  | nil =>
    cases h
    exact ⟨[], rfl, .refl _⟩
  | cons k ks ih =>
    obtain ⟨⟨found, s₁⟩, hfound, h⟩ := Checked.bind_eq_ok.mp h
    have hfound : s.contains k = .ok (found, s₁) := hfound
    rw [containsActions, hfound, Checked.ok_bind]
    cases found with
    | true =>
      obtain ⟨as, has, hrest⟩ := ih h
      exact ⟨(k, .contains) :: as, by simp only [has]; rfl, (does_contains hfound).append hrest⟩
    | false =>
      -- the first key that is not there ends the walk
      cases h
      exact ⟨_, rfl, does_contains hfound⟩

theorem does_clearWithin {rounds : Nat} (h : KeyCollection.clearWithin rounds s = .ok s') :
    ∃ as, clearActions rounds s = .ok as ∧ s.Does as s' := by
  induction rounds generalizing s with
  | zero => cases h
  | succ rounds ih =>
    obtain ⟨keys, hkeys, h⟩ := Checked.bind_eq_ok.mp h
    have hkeys : Table.keys s = .ok keys := hkeys
    rw [clearActions, hkeys, Checked.ok_bind]
    cases keys with
    | nil =>
      cases h
      exact ⟨[], rfl, .refl _⟩
    | cons k ks =>
      -- one round, and then the others
      obtain ⟨⟨b, s₁⟩, hdelete, h⟩ := Checked.bind_eq_ok.mp h
      obtain ⟨as, has, hrest⟩ := ih h
      refine ⟨(k :: ks).map (·, .delete) ++ as, ?_, (does_deleteMany hdelete).append hrest⟩
      simp only [hdelete, Checked.ok_bind, has]
      rfl

/-- **A request about many keys** does its actions to the set. -/
theorem does_handle {request : BulkRequest κ} {answer : Option Bool}
    (h : KeyCollection.handle s request = .ok (answer, s')) :
    ∃ as, s.bulkActions request = .ok as ∧ s.Does as s' := by
  cases request with
  | isEmpty =>
    obtain ⟨b, -, h⟩ := Checked.bind_eq_ok.mp h
    cases h
    exact ⟨[], rfl, .refl _⟩
  | clear =>
    obtain ⟨s₁, hclear, h⟩ := Checked.bind_eq_ok.mp h
    cases h
    obtain ⟨keys, hkeys, hclear⟩ := Checked.bind_eq_ok.mp hclear
    have hkeys : Table.keys s = .ok keys := hkeys
    obtain ⟨as, has, hdoes⟩ := does_clearWithin hclear
    exact ⟨as, by rw [bulkActions, hkeys, Checked.ok_bind, has], hdoes⟩
  | insertMany keys =>
    obtain ⟨⟨b, s₁⟩, hinsert, h⟩ := Checked.bind_eq_ok.mp h
    cases h
    exact ⟨_, rfl, does_insertMany hinsert⟩
  | deleteMany keys =>
    obtain ⟨⟨b, s₁⟩, hdelete, h⟩ := Checked.bind_eq_ok.mp h
    cases h
    exact ⟨_, rfl, does_deleteMany hdelete⟩
  | retainOnly keep =>
    obtain ⟨⟨b, s₁⟩, hretain, h⟩ := Checked.bind_eq_ok.mp h
    cases h
    obtain ⟨keys, hkeys, hretain⟩ := Checked.bind_eq_ok.mp hretain
    have hkeys : Table.keys s = .ok keys := hkeys
    exact ⟨_, by rw [bulkActions, hkeys]; rfl, does_deleteMany hretain⟩
  | containsMany keys =>
    obtain ⟨⟨b, s₁⟩, hcontains, h⟩ := Checked.bind_eq_ok.mp h
    cases h
    exact does_containsMany hcontains

end KeySet

namespace SetSession

open Table TableSession

variable {κ β : Type} [Ord κ] [Numbered κ] {s t : SetSession κ} {reply : TableReply κ Unit}

/-- The actions that a request consists of. -/
def actions (s : SetSession κ) : SetRequest κ → Checked (List (κ × Action Unit))
  | .table r => return r.actions
  | .stored key => return [(key, .find)]
  | .bulk request => KeySet.bulkActions s.table request
  | .debugKeys _ | .demand _ => return []

variable [Text.Legible κ]

/-- The actions that a sequence of requests consists of. -/
def actionsAll (s : SetSession κ) : List (SetRequest κ) → Checked (List (κ × Action Unit))
  | [] => return []
  | r :: rs => do
    let first ← SetSession.actions s r
    let (_, s) ← SetSession.answer s r
    return first ++ (← SetSession.actionsAll s rs)

/-- **Step lemma.** -/
theorem does_of_answer {r : SetRequest κ} (h : SetSession.answer s r = .ok (reply, t)) :
    ∃ as, SetSession.actions s r = .ok as ∧ s.table.Does as t.table := by
  unfold answer at h
  cases r with
  | table r => exact ⟨r.actions, rfl, TableSession.does_of_answer h⟩
  | stored key =>
    obtain ⟨x, hop⟩ := exists_onTable h
    obtain ⟨⟨pair, t₁⟩, hfind, hop⟩ := Checked.bind_eq_ok.mp hop
    cases hop
    exact ⟨_, rfl, does_find hfind⟩
  | debugKeys layout =>
    obtain ⟨x, -, h⟩ := Checked.bind_eq_ok.mp h
    cases h
    exact ⟨[], rfl, .refl _⟩
  | demand i =>
    rw [table_withCursor h]
    exact ⟨[], rfl, .refl _⟩
  | bulk request =>
    obtain ⟨x, hop⟩ := exists_onTable h
    exact KeySet.does_handle hop

/-- **Run lemma.** -/
theorem does_of_run {view : SetSession κ → β} {rs : List (SetRequest κ)}
    {replies : List (TableReply κ Unit × β)}
    (h : SetSession.run view s rs = .ok (replies, t)) :
    ∃ as, SetSession.actionsAll s rs = .ok as ∧ s.table.Does as t.table := by
  induction rs generalizing s replies with
  | nil =>
    cases h
    exact ⟨[], rfl, .refl _⟩
  | cons r rs ih =>
    obtain ⟨⟨reply, u⟩, hr, h⟩ := Checked.bind_eq_ok.mp h
    obtain ⟨⟨rest, v⟩, hrs, h⟩ := Checked.bind_eq_ok.mp h
    cases h
    obtain ⟨as, has, hfirst⟩ := does_of_answer hr
    obtain ⟨bs, hbs, hrest⟩ := ih hrs
    refine ⟨as ++ bs, ?_, hfirst.append hrest⟩
    rw [actionsAll, has, Checked.ok_bind]
    simp only [hr, Checked.ok_bind, hbs]
    rfl

end SetSession

end SplitOrder
