import Mathlib.Data.List.Sort
import SplitOrder.Proofs.Table.Calls
import SplitOrder.Proofs.Table.Shortcut

/-!
# What an action leaves alone

To double the number of buckets moves no entry, and neither does anything else. An action on a key
may link any number of sentinels, at several places of the list, and it may link or delete the entry
of its key; all other nodes stand where they stood.

* `SortedList.standing` — the nodes on a list in their order, each with its element and mark.
* `linkSentinel_cases`, `registerSentinel_cases` — what the two effects of obtaining a sentinel do.
* `Keeps` — sentinels stay where they are, registrations stay, and nothing is retired.
  `Obtains.keeps` is the induction over the effects.
* `Spares`, `Rests` — the frame of an action, and that of an action which comes to nothing.
* `Reachable.spares_others` — every action on every table of a run has that frame.

Both sides of the frame are listings in ascending order, so it is enough to compare their members.
-/

namespace SplitOrder

open SortedList

/-- A node on a list. -/
structure Standing (α : Type) where
  node : NodeId
  element : α
  marked : Bool
deriving DecidableEq, Repr

namespace SortedList

variable {α : Type}

/-- The nodes behind the head, in the order in which they are linked. -/
def standing (l : SortedList α) : List (Standing α) :=
  l.linked.filterMap fun i => (l.node i).element?.map fun a => ⟨i, a, (l.link i).marked⟩

variable {l : SortedList α} {x : Standing α}

theorem mem_standing_iff : x ∈ l.standing ↔
    x.node ∈ l.linked ∧ (l.node x.node).element? = some x.element ∧
      (l.link x.node).marked = x.marked := by
  obtain ⟨i, a, m⟩ := x
  rw [standing, List.mem_filterMap]
  constructor
  · rintro ⟨j, hj, hx⟩
    obtain ⟨b, hb, hx⟩ := Option.map_eq_some_iff.mp hx
    cases hx
    exact ⟨hj, hb, rfl⟩
  · rintro ⟨hi, ha, hm⟩
    exact ⟨i, hi, Option.map_eq_some_iff.mpr ⟨a, ha, by rw [hm]⟩⟩

variable [Ord α]

/-- Where no deleted node is linked, the nodes on the list are those that hold elements. -/
theorem Sound.mem_standing_iff_holds (h : l.Sound) (hclean : l.Clean) :
    x ∈ l.standing ↔ l.Holds x.node x.element ∧ x.marked = false := by
  rw [mem_standing_iff]
  constructor
  · rintro ⟨hi, ha, hm⟩
    have hunmarked := hclean _ hi
    exact ⟨⟨ha, hunmarked⟩, hm.symm.trans hunmarked⟩
  · rintro ⟨ha, hm⟩
    exact ⟨h.mem_linked ha, ha.1, by rw [ha.2, hm]⟩

end SortedList

/-- The first node holds the lesser element. -/
def Standing.Ascends {α : Type} [Ord α] (x y : Standing α) : Prop :=
  compare x.element y.element = .lt

namespace Standing

variable {α : Type} [Ord α] [Std.TransOrd α]

instance : Std.Irrefl (Ascends (α := α)) where
  irrefl _ h := absurd (Std.compare_self.symm.trans h) (by decide)

instance : Std.Antisymm (Ascends (α := α)) where
  antisymm _ _ h h' := absurd h' (Std.OrientedCmp.not_lt_of_lt h)

end Standing

theorem SortedList.Ordered.pairwise_standing {α : Type} [Ord α] [Std.TransOrd α]
    {l : SortedList α} (h : l.Ordered) : l.standing.Pairwise Standing.Ascends := by
  rw [standing, List.pairwise_filterMap]
  refine h.pairwise_linked.imp fun {i j} hij x hx y hy => ?_
  obtain ⟨a, ha, rfl⟩ := Option.map_eq_some_iff.mp hx
  obtain ⟨b, hb, rfl⟩ := Option.map_eq_some_iff.mp hy
  exact hij.compare_eq ha hb

namespace Table

variable {κ ν : Type} [Ord κ] {t t' t'' : Table κ ν} {bucket : Bucket}
  {parent node winner i : NodeId} {key : κ} {k : OrderKey} {change : Change}

/-! ### The nodes of a table -/

/-- The nodes on the list, that of the key left out. There is at most one to be left out
(`Intact.eq_of_sought`). -/
def aside (t : Table κ ν) (key : κ) : List (Standing (Entry κ ν)) :=
  t.list.standing.filter fun x => decide (t.probe key x.element ≠ .eq)

/-- The entries but that of the key. -/
def others (t : Table κ ν) (key : κ) : List (Standing (Entry κ ν)) :=
  (t.aside key).filter fun x => !x.element.isSentinel

omit [Ord κ] in
/-- The entries. -/
def entries (t : Table κ ν) : List (Standing (Entry κ ν)) :=
  t.list.standing.filter fun x => !x.element.isSentinel

/-- **The frame of an action on a key.** -/
structure Spares (t : Table κ ν) (key : κ) (t' : Table κ ν) : Prop where
  /-- The other entries are the same nodes with the same keys and values, in the same order. -/
  others_eq : t'.others key = t.others key
  /-- With the sentinels among them they are in the same order, too; there may be more sentinels. -/
  sublist : (t.aside key).Sublist (t'.aside key)
  /-- What is registered stays registered. -/
  registered : ∀ {bucket i}, t.directory.get bucket = .ok (some i) →
    t'.directory.get bucket = .ok (some i)

omit [Ord κ] in
/-- **The frame of an action that comes to nothing.** The entry of the key stays as well, nothing is
counted, and nothing is retired. -/
structure Rests (t t' : Table κ ν) : Prop where
  entries_eq : t'.entries = t.entries
  size_eq : t'.size = t.size
  bucketCount_eq : t'.bucketCount = t.bucketCount
  reclaimer_eq : t'.list.reclaimer = t.list.reclaimer

variable [Std.TransOrd κ]

/-! ### Obtaining a sentinel -/

/-- **To link a sentinel** trims the list or adds one node to it. -/
theorem linkSentinel_cases (ht : t.Intact) (hne : bucket ≠ 0) (hlt : bucket < Directory.capacity)
    (hparent : t.list.Guards (clearHighestBit bucket) parent)
    (h : t.linkSentinel parent bucket = .ok (node, t')) :
    (∃ l, t.list.Trims l ∧ t.list.Holds node (.sentinelOf bucket) ∧ t' = { t with list := l }) ∨
      ∃ l, t.list.Links (.sentinelOf bucket) node l ∧
        t' = { t with list := l, sentinels := t.sentinels + 1 } := by
  obtain ⟨ins, l, hins, hspec⟩ := insertAfter_spec ht.list (inFront_sentinelOf ht hne hlt hparent)
  rw [linkSentinel, hins] at h
  cases ins with
  | existing j =>
    cases h
    obtain ⟨htrims, e, he, heq⟩ := hspec
    obtain rfl : e = .sentinelOf bucket := Entry.compare_sentinelOf_eq_iff.mp heq
    exact .inl ⟨l, htrims, he, rfl⟩
  | linked j =>
    cases h
    exact .inr ⟨l, hspec, rfl⟩

omit [Ord κ] [Std.TransOrd κ] in
/-- **To register a sentinel** fills an empty slot or leaves all as they are. -/
theorem registerSentinel_cases (ht : t.directory.WellFormed) (hlt : bucket < Directory.capacity)
    (h : t.registerSentinel bucket node = .ok (winner, t')) :
    ∃ d, t' = { t with directory := d } ∧ d.WellFormed ∧
      winner = (t.directory.installed? bucket).getD node ∧
      ∀ b, d.installed? b = if b = bucket then some winner else t.directory.installed? b := by
  obtain ⟨winner', d, hinstall, hd, hwinner, hinstalled, -⟩ := Directory.install_spec ht hlt node
  rw [registerSentinel, hinstall] at h
  cases h
  exact ⟨d, rfl, hd, hwinner, hinstalled⟩

/-- **What obtaining a sentinel leaves alone**, besides the entries. -/
structure Keeps (t t' : Table κ ν) : Prop where
  sentinel : ∀ {i k}, t.list.Holds i (.sentinel k) → t'.list.Holds i (.sentinel k)
  installed : ∀ {bucket i}, t.directory.installed? bucket = some i →
    t'.directory.installed? bucket = some i
  reclaimer_eq : t'.list.reclaimer = t.list.reclaimer

omit [Ord κ] [Std.TransOrd κ] in
theorem Keeps.refl (t : Table κ ν) : t.Keeps t :=
  ⟨fun h => h, fun h => h, rfl⟩

omit [Ord κ] [Std.TransOrd κ] in
theorem Keeps.trans (h : t.Keeps t') (h' : t'.Keeps t'') : t.Keeps t'' where
  sentinel := fun hi => h'.sentinel (h.sentinel hi)
  installed := fun hi => h'.installed (h.installed hi)
  reclaimer_eq := h'.reclaimer_eq.trans h.reclaimer_eq

/-- **Step lemma.** -/
theorem SentinelEffect.keeps (h : t.SentinelEffect t') (ht : t.Intact) : t.Keeps t' := by
  cases h with
  | link hne hlt hparent h =>
    rcases linkSentinel_cases ht hne hlt hparent h with ⟨l, htrims, -, rfl⟩ | ⟨l, hlinks, rfl⟩
    · exact ⟨htrims.holds_iff.mpr, fun hi => hi, htrims.reclaimer_eq⟩
    · exact ⟨fun hi => hlinks.holds_iff.mpr (.inl hi), fun hi => hi, hlinks.reclaimer_eq⟩
  | register hlt hnode h =>
    obtain ⟨d, rfl, -, hwinner, hinstalled⟩ := registerSentinel_cases ht.directory hlt h
    refine ⟨fun hi => hi, fun {b i} hi => ?_, rfl⟩
    show d.installed? b = some i
    rw [hinstalled]
    split
    · -- the slot was taken, so its node won
      next hb =>
      subst hb
      rw [hwinner, hi]
      rfl
    · exact hi

/-- **Run lemma.** -/
theorem Obtains.keeps (h : t.Obtains t') (ht : t.Intact) :
    t.Keeps t' ∧ t'.Intact ∧ t.list.Retires 0 t'.list := by
  induction h with
  | refl => exact ⟨.refl t, ht, SortedList.Retires.refl _⟩
  | tail _ heffect ih =>
    obtain ⟨hkeeps, hintact, hretires⟩ := ih
    exact ⟨hkeeps.trans (heffect.keeps hintact), (heffect.prepares hintact).2,
      hretires.trans (heffect.retires hintact)⟩

theorem Obtains.prepares (h : t.Obtains t') (ht : t.Intact) : t.Prepares t' := by
  induction h with
  | refl => exact .refl t
  | tail hobtains heffect ih =>
    exact ih.trans (heffect.prepares (Obtains.keeps hobtains ht).2.1).1

/-- What is registered stays registered. -/
theorem Obtains.registered (h : t.Obtains t') (ht : t.Intact)
    (hi : t.directory.get bucket = .ok (some i)) : t'.directory.get bucket = .ok (some i) := by
  obtain ⟨hkeeps, ht', -⟩ := Obtains.keeps h ht
  rw [Directory.get_eq_ok_some_iff ht.directory] at hi
  rw [Directory.get_eq_ok_some_iff ht'.directory]
  exact ⟨hi.1, hkeeps.installed hi.2⟩

/-! ### The three courses -/

/-- An action balances the account of the list. -/
theorem Course.accounted (h : t.Course key change t') (ht : t.Intact)
    (hacc : t.list.Accounted []) : t'.list.Accounted [] := by
  cases h with
  | keeps hb htrims =>
    have hacc₁ := (hb.obtains.keeps ht).2.2.accounted hacc
    exact (htrims.retires hb.intact.list).accounted hacc₁
  | links hb hlinks hfits hgrows =>
    have hacc₁ := (hb.obtains.keeps ht).2.2.accounted hacc
    obtain ⟨c, rfl⟩ := exists_of_doubleIfFull hgrows
    exact (hlinks.retires hb.intact.list).accounted hacc₁
  | deletes hb hdeletes =>
    have hacc₁ := (hb.obtains.keeps ht).2.2.accounted hacc
    exact hdeletes.accounted hb.intact.list hacc₁

/-- An action keeps sentinels and registrations. -/
theorem Course.holds_sentinel (h : t.Course key change t') (ht : t.Intact)
    (hi : t.list.Holds i (.sentinel k)) : t'.list.Holds i (.sentinel k) := by
  cases h with
  | keeps hb htrims => exact htrims.holds_iff.mpr ((hb.obtains.keeps ht).1.sentinel hi)
  | links hb hlinks hfits hgrows =>
    obtain ⟨c, rfl⟩ := exists_of_doubleIfFull hgrows
    exact hlinks.holds_iff.mpr (.inl ((hb.obtains.keeps ht).1.sentinel hi))
  | deletes hb hdeletes =>
    have hi₁ := (hb.obtains.keeps ht).1.sentinel hi
    refine hdeletes.holds_iff.mpr ⟨hi₁, ?_⟩
    rintro rfl
    -- the node that was deleted held a pair
    obtain ⟨key', value', rfl, -⟩ := KeyProbe.toProbe_eq_iff.mp hdeletes.sought
    cases hdeletes.held.unique hi₁.1

theorem Course.installed (h : t.Course key change t') (ht : t.Intact)
    (hi : t.directory.installed? bucket = some i) : t'.directory.installed? bucket = some i := by
  cases h with
  | keeps hb htrims => exact (hb.obtains.keeps ht).1.installed hi
  | links hb hlinks hfits hgrows =>
    obtain ⟨c, rfl⟩ := exists_of_doubleIfFull hgrows
    exact (hb.obtains.keeps ht).1.installed hi
  | deletes hb hdeletes => exact (hb.obtains.keeps ht).1.installed hi

/-- An action keeps the entries of all other keys, and adds none. -/
theorem Course.holds_pair_iff (h : t.Course key change t') {key' : κ} {value : ν}
    (hother : t.probe key (.pair k key' value) ≠ .eq) :
    t'.list.Holds i (.pair k key' value) ↔ t.list.Holds i (.pair k key' value) := by
  cases h with
  | keeps hb htrims => exact htrims.holds_iff.trans hb.prepares.pair_iff
  | links hb hlinks hfits hgrows =>
    obtain ⟨c, rfl⟩ := exists_of_doubleIfFull hgrows
    refine (hlinks.holds_iff.trans ⟨fun hi => ?_, .inl⟩).trans hb.prepares.pair_iff
    rcases hi with hi | ⟨-, hpair⟩
    · exact hi
    · -- the search for the key stops at the entry that was added
      rw [hpair] at hother
      exact absurd (KeyProbe.toProbe_eq_iff.mpr ⟨_, _, rfl, Std.compare_self⟩) hother
  | deletes hb hdeletes =>
    refine (hdeletes.holds_iff.trans ⟨And.left, fun hi => ⟨hi, ?_⟩⟩).trans hb.prepares.pair_iff
    rintro rfl
    rw [← hdeletes.held.unique hi.1] at hother
    exact hother hdeletes.sought

omit [Std.TransOrd κ] in
/-- Where the entries are kept, every search for a key finds what it found before. -/
theorem Course.stores_iff_of_kept (h : t.Course key .kept t') {p : KeyProbe κ}
    {x : Option (Entry κ ν)} : t'.list.Stores p.toProbe x ↔ t.list.Stores p.toProbe x := by
  cases h with
  | @keeps t₁ l hb htrims =>
    have hpair : ∀ {i k key value},
        l.Holds i (.pair k key value) ↔ t.list.Holds i (.pair k key value) :=
      htrims.holds_iff.trans hb.prepares.pair_iff
    exact ⟨fun hs => stores_toProbe_congr hs fun _ => hpair.symm,
      fun hs => stores_toProbe_congr hs fun _ => hpair⟩

/-- A search for another key finds what it found before, whatever was done. -/
theorem Course.stores_other (h : t.Course key change t') {p : KeyProbe κ}
    {x : Option (Entry κ ν)} (hs : t.list.Stores p.toProbe x)
    (hother : ∀ e : Entry κ ν, p.toProbe e = .eq → t.probe key e ≠ .eq) :
    t'.list.Stores p.toProbe x :=
  stores_toProbe_congr hs fun heq => h.holds_pair_iff (hother _ heq)

/-- Where an entry was removed, nothing is stored for its key. -/
theorem Course.lacks_of_removed (h : t.Course key .removed t') : t'.list.Lacks (t.probe key) := by
  cases h with
  | @deletes _ e i l hb hdeletes =>
    have hends : DeletionEnds _ (t.probe key) (some e) l := ⟨i, hdeletes⟩
    exact (hends.removes hb.intact.list (KeyProbe.monotone_toProbe _ _)).lacks fun _ => id

/-! ### The frame -/

/-- **Nothing moves.** -/
theorem Course.spares (h : t.Course key change t') (ht : t.Intact) (hacc : t.list.Accounted []) :
    t.Spares key t' := by
  have ht' : t'.Intact := h.intact
  have hacc' := h.accounted ht hacc
  have hmem : ∀ x, x ∈ t.list.standing ↔ t.list.Holds x.node x.element ∧ x.marked = false :=
    fun _ => ht.list.mem_standing_iff_holds fun _ => hacc.unmarked_of_mem_linked
  have hmem' : ∀ x, x ∈ t'.list.standing ↔ t'.list.Holds x.node x.element ∧ x.marked = false :=
    fun _ => ht'.list.mem_standing_iff_holds fun _ => hacc'.unmarked_of_mem_linked
  have hprobe : t'.probe key = t.probe key := by
    rw [probe, h.hash_eq]
  -- both listings ascend
  have hasc : (t.aside key).Pairwise Standing.Ascends := ht.list.pairwise_standing.filter _
  have hasc' : (t'.aside key).Pairwise Standing.Ascends := ht'.list.pairwise_standing.filter _
  refine ⟨(hasc'.filter _).eq_of_mem_iff (hasc.filter _) fun x => ?_,
    List.sublist_of_subperm_of_pairwise (List.subperm_of_subset hasc.nodup fun x hx => ?_) hasc
      hasc', fun {bucket i} hi => ?_⟩
  · obtain ⟨i, e, m⟩ := x
    simp only [others, aside, List.mem_filter, hmem, hmem', hprobe, decide_eq_true_iff]
    cases e with
    | sentinel k => simp [Entry.isSentinel]
    | pair k key' value =>
      refine and_congr_left fun _ => and_congr_left fun hother => and_congr_left fun _ => ?_
      exact h.holds_pair_iff hother
  · obtain ⟨i, e, m⟩ := x
    simp only [aside, List.mem_filter, hmem, hmem', hprobe, decide_eq_true_iff] at hx ⊢
    obtain ⟨⟨hholds, hm⟩, hother⟩ := hx
    refine ⟨⟨?_, hm⟩, hother⟩
    cases e with
    | sentinel k => exact h.holds_sentinel ht hholds
    | pair k key' value => exact (h.holds_pair_iff hother).mpr hholds
  · rw [Directory.get_eq_ok_some_iff ht.directory] at hi
    rw [Directory.get_eq_ok_some_iff ht'.directory]
    exact ⟨hi.1, h.installed ht hi.2⟩

/-- The entries are the same nodes if the same nodes hold the same pairs. -/
theorem entries_eq_of_holds (ht : t.Intact) (ht' : t'.Intact) (hacc : t.list.Accounted [])
    (hacc' : t'.list.Accounted [])
    (hpair : ∀ {i k key value}, t'.list.Holds i (.pair k key value) ↔
      t.list.Holds i (.pair k key value)) : t'.entries = t.entries := by
  refine (ht'.list.pairwise_standing.filter _).eq_of_mem_iff (ht.list.pairwise_standing.filter _)
    fun ⟨i, e, m⟩ => ?_
  rw [entries, List.mem_filter, List.mem_filter,
    ht.list.mem_standing_iff_holds fun _ => hacc.unmarked_of_mem_linked,
    ht'.list.mem_standing_iff_holds fun _ => hacc'.unmarked_of_mem_linked]
  cases e with
  | sentinel k => simp [Entry.isSentinel]
  | pair k key value => exact and_congr_left fun _ => and_congr_left fun _ => hpair

/-- **Obtaining a sentinel comes to nothing** as far as entries go. -/
theorem Obtains.rests (h : t.Obtains t') (ht : t.Intact) (hacc : t.list.Accounted []) :
    t.Rests t' := by
  obtain ⟨hkeeps, ht', hretires⟩ := Obtains.keeps h ht
  have hprep := Obtains.prepares h ht
  exact ⟨entries_eq_of_holds ht ht' hacc (hretires.accounted hacc) hprep.pair_iff, hprep.size_eq,
    hprep.bucketCount_eq, hkeeps.reclaimer_eq⟩

theorem Course.rests (h : t.Course key .kept t') (ht : t.Intact) (hacc : t.list.Accounted []) :
    t.Rests t' := by
  have ht' : t'.Intact := h.intact
  have hacc' := h.accounted ht hacc
  cases h with
  | keeps hb htrims =>
    exact ⟨entries_eq_of_holds ht ht' hacc hacc' (htrims.holds_iff.trans hb.prepares.pair_iff),
      hb.prepares.size_eq, hb.prepares.bucketCount_eq,
      htrims.reclaimer_eq.trans (hb.obtains.keeps ht).1.reclaimer_eq⟩

/-- A table has at most one entry for a key. -/
theorem Intact.eq_of_sought (ht : t.Intact) {e e' : Entry κ ν} {j : NodeId}
    (hi : t.list.Holds i e) (hj : t.list.Holds j e') (he : t.probe key e = .eq)
    (he' : t.probe key e' = .eq) : i = j :=
  ht.list.eq_of_sought (KeyProbe.monotone_toProbe _ _) hi hj he he'

end Table

namespace TableMoment

variable {κ ν : Type} [Ord κ] [Std.TransOrd κ] {m : TableMoment κ ν}

theorem Reachable.accounted (hm : m.Reachable) : m.list.Accounted [] := by
  obtain ⟨sizing, hash, t, hbuild, hrun⟩ := hm
  obtain ⟨hintact, hlist, -⟩ := Table.intact_of_build hbuild
  have hempty : t.list.Accounted [] := hlist ▸ accounted_empty
  exact Reaches.accounted hrun hintact hempty

/-- **Growing never moves an entry.** At every moment of every run, an action on a key ends, an
insertion provided that the counter has room; and whatever it comes to, however many sentinels it
links and whether or not the number of buckets doubles, it leaves all other entries, all sentinels
and all registrations as they are. If it comes to nothing, it leaves the entry of the key, the
counters and the retired nodes, too. -/
theorem Reachable.spares_others (hm : m.Reachable) (key : κ) (a : Action ν) :
    ((∀ value, a = .insert value → m.table.HasRoom key) →
        ∃ change t', m.table.perform key a = .ok (change, t')) ∧
      ∀ change t', m.table.perform key a = .ok (change, t') →
        m.table.Spares key t' ∧ (change = .kept → m.table.Rests t') := by
  refine ⟨Table.exists_perform hm.intact key a, fun change t' hperform => ?_⟩
  have hcourse := Table.course_of_perform hm.intact hperform
  refine ⟨hcourse.spares hm.intact hm.accounted, ?_⟩
  rintro rfl
  exact hcourse.rests hm.intact hm.accounted

/-- An insertion that finds its bucket and the parent of it without sentinels, and makes the table
grow: two nodes are linked among the entries and one more for the key, and the four entries that
were there are the nodes 1 to 4 before and after. -/
theorem Reachable.spares_others_of_two_new_sentinels :
    ∃ m : TableMoment UInt64 UInt64, m.Reachable ∧ m.table.bucketCount = 4 ∧
      m.table.sentinels = 0 ∧ ∃ t', m.table.perform 7 (.insert 70) = .ok (.inserted, t') ∧
        m.table.Spares 7 t' ∧ t'.bucketCount = 8 ∧ t'.sentinels = 2 ∧
        (t'.others 7).map Standing.node = [1, 3, 2, 4] := by
  let ops : List (TableOp UInt64 UInt64) :=
    [.request (.insert 0 10), .request (.insert 4 14), .request (.insert 8 18),
      .request (.insert 12 22)]
  have hvalues : (do
      let t ← Table.build { initialBuckets := 1, maxLoad := 1, maxBuckets := 8 } id
      let (_, s) ← TableSession.steps { table := t } ops
      let (change, t) ← s.table.perform 7 (.insert 70)
      let before := (s.table.bucketCount, s.table.sentinels)
      let after := (t.bucketCount, t.sentinels, (t.others 7).map Standing.node)
      return (before, change, after)) = .ok ((4, 0), .inserted, (8, 2, [1, 3, 2, 4])) := by
    decide +kernel
  obtain ⟨t, hbuild, hvalues⟩ := Checked.bind_eq_ok.mp hvalues
  obtain ⟨⟨replies, s⟩, hrun, hvalues⟩ := Checked.bind_eq_ok.mp hvalues
  obtain ⟨⟨change, t'⟩, hperform, hvalues⟩ := Checked.bind_eq_ok.mp hvalues
  obtain ⟨hbefore, hvalues⟩ := Prod.mk.inj (Except.ok.inj hvalues)
  obtain ⟨rfl, hafter⟩ := Prod.mk.inj hvalues
  obtain ⟨hbuckets, hsentinels⟩ := Prod.mk.inj hbefore
  obtain ⟨hbuckets', hafter⟩ := Prod.mk.inj hafter
  obtain ⟨hsentinels', hnodes⟩ := Prod.mk.inj hafter
  obtain ⟨n, hm⟩ := reachable_of_steps (s := { table := t }) hbuild hrun
  have hspares := ((hm.spares_others 7 (.insert 70)).2 _ _ hperform).1
  exact ⟨_, hm, hbuckets, hsentinels, t', hperform, hspares, hbuckets', hsentinels', hnodes⟩

end TableMoment

end SplitOrder
