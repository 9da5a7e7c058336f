import Eden.UndoTables

/-!
What the undo states of a table record: the nodes older than a session are the table at its start.
-/

namespace Eden.UndoSessions

open Eden.SortedTable
open Eden.UndoTables

variable {α κ : Type} {oid : α → Nat} [DecidableEq κ] {keys : List (α → κ)}
variable {x y : UndoIndex oid} {t : Rows oid} {s : UndoState α}

/-- A node in the table or removed in the session. -/
def Present (t : Rows oid) (s : UndoState α) (n : Node α) : Prop :=
  n ∈ t.rows ∨ n ∈ s.removedValues

/-- A node that is older than the session, in the table or recorded. -/
def Older (t : Rows oid) (s : UndoState α) (n : Node α) : Prop :=
  n.mtime < s.ctime ∧ (n ∈ s.oldValues ∨ Present t s n)

/-- Nodes with different ids that the indices keep apart. -/
def Compatible (keys : List (α → κ)) (oid : α → Nat) (a b : Node α) : Prop :=
  oid a.item ≠ oid b.item → sameKey keys a.item b.item = false

/-- The last undo state records the table at the start of its session. -/
structure Recorded (keys : List (α → κ)) (t : Rows oid) (s : UndoState α) : Prop where
  apart : ∀ m ∈ s.removedValues, t.find? (oid m.item) = none
  distinct : (s.removedValues.map fun m => oid m.item).Nodup
  single : ∀ {a b}, Older t s a → Older t s b → oid a.item = oid b.item → a = b
  placed : ∀ {a}, Older t s a → oid a.item < s.oldNextId ∧
    ∃ m, Present t s m ∧ oid m.item = oid a.item
  covered : ∀ {m}, Present t s m → oid m.item < s.oldNextId →
    ∃ a, Older t s a ∧ oid a.item = oid m.item
  unique : ∀ {a b}, Older t s a → Older t s b → Compatible keys oid a b

theorem sameKey_comm (a b : α) : sameKey keys a b = sameKey keys b a := by
  simp only [sameKey]
  congr 1
  funext key
  exact decide_eq_decide.mpr eq_comm

theorem Compatible.symm {a b : Node α} (h : Compatible keys oid a b) : Compatible keys oid b a := by
  intro hne
  rw [sameKey_comm]
  exact h hne.symm

theorem clashes_eq_false {item : α} :
    clashes keys t item = false ↔
      ∀ n ∈ t.rows, oid n.item ≠ oid item → sameKey keys n.item item = false := by
  simp only [clashes, List.any_eq_false, Bool.and_eq_true, decide_eq_true_eq, not_and,
    Bool.not_eq_true]

theorem insertImpl_eq_some {u : Rows oid} {n : Node α} :
    insertImpl keys t n = some u ↔ clashes keys t n.item = false ∧ t.emplace? n = some u := by
  unfold insertImpl
  split
  · rename_i hclash
    simp [hclash]
  · rename_i hfree
    simp [hfree]

/-- A node goes in when its id is new and no other object has one of its keys. -/
theorem insertImpl_isSome (keys : List (α → κ)) {n : Node α} (hnew : t.find? (oid n.item) = none)
    (hfree : ∀ m ∈ t.rows, Compatible keys oid m n) :
    ∃ u, insertImpl keys t n = some u := by
  obtain ⟨u, hu⟩ := Table.emplace?_isSome hnew
  exact ⟨u, insertImpl_eq_some.mpr ⟨clashes_eq_false.mpr hfree, hu⟩⟩

theorem mem_beforeId {i : Nat} {n : Node α} :
    n ∈ (beforeId t i).rows ↔ n ∈ t.rows ∧ oid n.item < i := by
  simp [beforeId]

/-! ### The table that `undo` restores -/

/-- What the old values of a session make of a node. -/
def rewritten (oid : α → Nat) (ctime : Nat) (oldValues : List (Node α)) (n : Node α) : Node α :=
  oldValues.foldl (fun n v => if v.mtime < ctime then restore oid v n else n) n

theorem oid_restore (oid : α → Nat) (v n : Node α) : oid (restore oid v n).item = oid n.item := by
  unfold restore
  split
  · rename_i heq
    exact heq.symm
  · rfl

theorem oid_rewritten (oid : α → Nat) (ctime : Nat) (oldValues : List (Node α)) (n : Node α) :
    oid (rewritten oid ctime oldValues n).item = oid n.item := by
  induction oldValues generalizing n with
  | nil => rfl
  | cons v rest ih =>
      rw [rewritten, List.foldl_cons]
      refine (ih _).trans ?_
      split
      · exact oid_restore oid v n
      · rfl

theorem restoreOld_eq (ctime : Nat) (oldValues removed : List (Node α)) (t : Rows oid) :
    restoreOld ctime oldValues t removed =
      (t.update (rewritten oid ctime oldValues) (oid_rewritten oid ctime oldValues),
        removed.map (rewritten oid ctime oldValues)) := by
  induction oldValues generalizing t removed with
  | nil =>
      apply Prod.ext
      · apply Table.ext_rows
        exact (List.map_id _).symm
      · exact (List.map_id _).symm
  | cons v rest ih =>
      have hstep : ∀ n, rewritten oid ctime (v :: rest) n =
          rewritten oid ctime rest (if v.mtime < ctime then restore oid v n else n) :=
        fun _ => rfl
      by_cases hold : v.mtime < ctime
      · have hfold : restoreOld ctime (v :: rest) t removed =
            restoreOld ctime rest (t.replace v) (removed.map (restore oid v)) := by
          rw [restoreOld, List.foldl_cons, if_pos hold]
          rfl
        simp only [if_pos hold] at hstep
        rw [hfold, ih]
        apply Prod.ext
        · apply Table.ext_rows
          simp only [Table.update, Table.replace, List.map_map]
          exact List.map_congr_left fun n _ => (hstep n).symm
        · rw [List.map_map]
          exact List.map_congr_left fun n _ => (hstep n).symm
      · have hfold : restoreOld ctime (v :: rest) t removed =
            restoreOld ctime rest t removed := by
          rw [restoreOld, List.foldl_cons, if_neg hold]
          rfl
        simp only [if_neg hold] at hstep
        rw [hfold, ih]
        apply Prod.ext
        · apply Table.ext_rows
          exact List.map_congr_left fun n _ => (hstep n).symm
        · exact List.map_congr_left fun n _ => (hstep n).symm

/-- A node keeps its value, or gets one from before the session. -/
theorem rewritten_cases (oid : α → Nat) (ctime : Nat) (oldValues : List (Node α)) (n : Node α) :
    (rewritten oid ctime oldValues n = n ∧
      ∀ v ∈ oldValues, v.mtime < ctime → oid v.item ≠ oid n.item) ∨
    (rewritten oid ctime oldValues n ∈ oldValues ∧
      (rewritten oid ctime oldValues n).mtime < ctime) := by
  induction oldValues generalizing n with
  | nil => exact .inl ⟨rfl, by simp⟩
  | cons v rest ih =>
      have hstep : rewritten oid ctime (v :: rest) n =
          rewritten oid ctime rest (if v.mtime < ctime then restore oid v n else n) := rfl
      rw [hstep]
      by_cases hold : v.mtime < ctime ∧ oid n.item = oid v.item
      · have hv : restore oid v n = v := if_pos hold.2
        rw [if_pos hold.1, hv]
        rcases ih v with ⟨hsame, -⟩ | ⟨hmem, hlt⟩
        · rw [hsame]
          exact .inr ⟨List.mem_cons_self, hold.1⟩
        · exact .inr ⟨List.mem_cons_of_mem v hmem, hlt⟩
      · have hn : (if v.mtime < ctime then restore oid v n else n) = n := by
          split
          · rename_i hlt
            exact if_neg fun heq => hold ⟨hlt, heq⟩
          · rfl
        rw [hn]
        rcases ih n with ⟨hsame, hnone⟩ | ⟨hmem, hlt⟩
        · refine .inl ⟨hsame, ?_⟩
          intro w hw hwlt
          rcases List.mem_cons.mp hw with rfl | hw
          · exact fun heq => hold ⟨hwlt, heq.symm⟩
          · exact hnone w hw hwlt
        · exact .inr ⟨List.mem_cons_of_mem v hmem, hlt⟩

/-- Nodes of different ids that fit together all go back to the table. -/
theorem mem_reinsert {i : Nat} {removed : List (Node α)}
    (hnodup : (removed.map fun m => oid m.item).Nodup)
    (hapart : ∀ m ∈ removed, t.find? (oid m.item) = none)
    (hunique : ∀ a b, (a ∈ t.rows ∨ a ∈ removed) → (b ∈ t.rows ∨ b ∈ removed) →
      oid a.item < i → oid b.item < i → Compatible keys oid a b)
    (hbelow : ∀ n ∈ t.rows, oid n.item < i) {n : Node α} :
    n ∈ (reinsert keys i removed t).rows ↔ n ∈ t.rows ∨ n ∈ removed ∧ oid n.item < i := by
  induction removed generalizing t with
  | nil =>
      rw [reinsert, List.foldl_nil]
      simp
  | cons m rest ih =>
      rw [reinsert, List.foldl_cons]
      rw [List.map_cons, List.nodup_cons] at hnodup
      by_cases hlt : oid m.item < i
      · obtain ⟨u, hu⟩ := insertImpl_isSome keys (hapart m List.mem_cons_self)
          fun a ha => hunique a m (.inl ha) (.inr List.mem_cons_self) (hbelow a ha) hlt
        rw [if_pos hlt, hu, Option.getD_some]
        have hmem : ∀ a, a ∈ u.rows ↔ a = m ∨ a ∈ t.rows := fun a =>
          Table.mem_emplace? (insertImpl_eq_some.mp hu).2
        refine (ih hnodup.2 ?_ ?_ ?_).trans ?_
        · intro a ha
          rw [Table.find?_emplace? (insertImpl_eq_some.mp hu).2, if_neg]
          · exact hapart a (List.mem_cons_of_mem m ha)
          · intro heq
            exact hnodup.1 (heq ▸ List.mem_map_of_mem ha)
        · intro a b ha hb
          refine hunique a b ?_ ?_
          · rcases ha with ha | ha
            · rcases (hmem a).mp ha with rfl | ha
              · exact .inr List.mem_cons_self
              · exact .inl ha
            · exact .inr (List.mem_cons_of_mem m ha)
          · rcases hb with hb | hb
            · rcases (hmem b).mp hb with rfl | hb
              · exact .inr List.mem_cons_self
              · exact .inl hb
            · exact .inr (List.mem_cons_of_mem m hb)
        · intro a ha
          rcases (hmem a).mp ha with rfl | ha
          · exact hlt
          · exact hbelow a ha
        · rw [hmem, List.mem_cons]
          constructor
          · rintro ((rfl | hn) | ⟨hn, hni⟩)
            · exact .inr ⟨.inl rfl, hlt⟩
            · exact .inl hn
            · exact .inr ⟨.inr hn, hni⟩
          · rintro (hn | ⟨rfl | hn, hni⟩)
            · exact .inl (.inr hn)
            · exact .inl (.inl rfl)
            · exact .inr ⟨hn, hni⟩
      · rw [if_neg hlt]
        refine (ih hnodup.2 (fun a ha => hapart a (List.mem_cons_of_mem m ha)) ?_ hbelow).trans ?_
        · intro a b ha hb
          exact hunique a b (ha.imp_right (List.mem_cons_of_mem m))
            (hb.imp_right (List.mem_cons_of_mem m))
        · rw [List.mem_cons]
          constructor
          · rintro (hn | ⟨hn, hni⟩)
            · exact .inl hn
            · exact .inr ⟨.inr hn, hni⟩
          · rintro (hn | ⟨rfl | hn, hni⟩)
            · exact .inl hn
            · exact absurd hni hlt
            · exact .inr ⟨hn, hni⟩

namespace Recorded

variable (h : Recorded keys t s)
include h

theorem present_inj {m n : Node α} (hm : Present t s m) (hn : Present t s n)
    (heq : oid m.item = oid n.item) : m = n := by
  have hout : ∀ {a b : Node α}, a ∈ t.rows → b ∈ s.removedValues → oid a.item ≠ oid b.item := by
    intro a b ha hb
    exact Table.find?_eq_none.mp (h.apart b hb) a ha
  rcases hm with hm | hm
  · rcases hn with hn | hn
    · exact Table.eq_of_key_eq hm hn heq
    · exact absurd heq (hout hm hn)
  · rcases hn with hn | hn
    · exact absurd heq.symm (hout hn hm)
    · exact List.inj_on_of_nodup_map h.distinct hm hn heq

/-- The old values of the session take a node back to what it was before. -/
theorem older_rewritten {m : Node α} (hm : Present t s m) (hlt : oid m.item < s.oldNextId) :
    Older t s (rewritten oid s.ctime s.oldValues m) := by
  rcases rewritten_cases oid s.ctime s.oldValues m with ⟨hsame, hnone⟩ | ⟨hmem, hold⟩
  · rw [hsame]
    obtain ⟨a, ha, heq⟩ := h.covered hm hlt
    have ha' := ha
    obtain ⟨hold, hv | hpresent⟩ := ha'
    · exact absurd heq (hnone a hv hold)
    · rw [h.present_inj hm hpresent heq.symm]
      exact ha
  · exact ⟨hold, .inl hmem⟩

/-- Undoing a session gives the nodes older than it. -/
theorem mem_restored {n : Node α} :
    n ∈ (reinsert keys s.oldNextId
        (restoreOld s.ctime s.oldValues (beforeId t s.oldNextId) s.removedValues).2
        (restoreOld s.ctime s.oldValues (beforeId t s.oldNextId) s.removedValues).1).rows ↔
      Older t s n := by
  rw [restoreOld_eq]
  have hrows : ∀ {a}, a ∈ ((beforeId t s.oldNextId).update (rewritten oid s.ctime s.oldValues)
      (oid_rewritten oid s.ctime s.oldValues)).rows →
      ∃ m ∈ t.rows, oid m.item < s.oldNextId ∧ rewritten oid s.ctime s.oldValues m = a := by
    intro a ha
    obtain ⟨m, hm, rfl⟩ := Table.mem_update.mp ha
    obtain ⟨hm, hlt⟩ := mem_beforeId.mp hm
    exact ⟨m, hm, hlt, rfl⟩
  have holder : ∀ {a}, (a ∈ ((beforeId t s.oldNextId).update (rewritten oid s.ctime s.oldValues)
      (oid_rewritten oid s.ctime s.oldValues)).rows ∨
      a ∈ s.removedValues.map (rewritten oid s.ctime s.oldValues)) → oid a.item < s.oldNextId →
      Older t s a := by
    rintro a (ha | ha) hlt
    · obtain ⟨m, hm, hmlt, rfl⟩ := hrows ha
      exact h.older_rewritten (.inl hm) hmlt
    · obtain ⟨m, hm, rfl⟩ := List.mem_map.mp ha
      rw [oid_rewritten oid] at hlt
      exact h.older_rewritten (.inr hm) hlt
  have hbelow : ∀ a ∈ ((beforeId t s.oldNextId).update (rewritten oid s.ctime s.oldValues)
      (oid_rewritten oid s.ctime s.oldValues)).rows, oid a.item < s.oldNextId := by
    intro a ha
    obtain ⟨m, -, hlt, rfl⟩ := hrows ha
    rw [oid_rewritten oid]
    exact hlt
  refine (mem_reinsert ?_ ?_ ?_ hbelow).trans ?_
  · rw [List.map_map]
    have hsame : ((fun m : Node α => oid m.item) ∘ rewritten oid s.ctime s.oldValues) =
        fun m => oid m.item := by
      funext m
      exact oid_rewritten oid s.ctime s.oldValues m
    rw [hsame]
    exact h.distinct
  · intro a ha
    obtain ⟨m, hm, rfl⟩ := List.mem_map.mp ha
    rw [Table.find?_eq_none]
    intro b hb
    obtain ⟨r, hr, -, rfl⟩ := hrows hb
    rw [oid_rewritten oid, oid_rewritten oid]
    exact Table.find?_eq_none.mp (h.apart m hm) r hr
  · intro a b ha hb halt hblt
    exact h.unique (holder ha halt) (holder hb hblt)
  · constructor
    · rintro (hn | ⟨hn, hlt⟩)
      · exact holder (.inl hn) (hbelow n hn)
      · exact holder (.inr hn) hlt
    · intro hn
      obtain ⟨hlt, m, hm, heq⟩ := h.placed hn
      have hsame : rewritten oid s.ctime s.oldValues m = n := by
        refine h.single (h.older_rewritten hm (heq ▸ hlt)) hn ?_
        rw [oid_rewritten oid, heq]
      rcases hm with hm | hm
      · exact .inl (Table.mem_update.mpr ⟨m, mem_beforeId.mpr ⟨hm, heq ▸ hlt⟩, hsame⟩)
      · exact .inr ⟨List.mem_map.mpr ⟨m, hm, hsame⟩, hlt⟩

end Recorded

/-- What a session records stays when the older nodes are the same, whatever happened to the newer
ones. -/
theorem Recorded.change {u : Rows oid} {r : UndoState α} (h : Recorded keys t s)
    (holder : ∀ n, Older u r n ↔ Older t s n) (hid : r.oldNextId = s.oldNextId)
    (hpresent : ∀ i < s.oldNextId,
      (∃ m, Present u r m ∧ oid m.item = i) ↔ ∃ m, Present t s m ∧ oid m.item = i)
    (hapart : ∀ m ∈ r.removedValues, u.find? (oid m.item) = none)
    (hdistinct : (r.removedValues.map fun m => oid m.item).Nodup) : Recorded keys u r where
  apart := hapart
  distinct := hdistinct
  single := fun ha hb => h.single ((holder _).mp ha) ((holder _).mp hb)
  placed := by
    intro a ha
    obtain ⟨hlt, m, hm, heq⟩ := h.placed ((holder a).mp ha)
    rw [hid]
    exact ⟨hlt, (hpresent _ hlt).mpr ⟨m, hm, heq⟩⟩
  covered := by
    intro m hm hlt
    rw [hid] at hlt
    obtain ⟨m', hm', heq⟩ := (hpresent _ hlt).mp ⟨m, hm, rfl⟩
    obtain ⟨a, ha, haeq⟩ := h.covered hm' (heq ▸ hlt)
    exact ⟨a, (holder a).mpr ha, haeq.trans heq⟩
  unique := fun ha hb => h.unique ((holder _).mp ha) ((holder _).mp hb)

/-! ### Tables all of whose sessions are recorded -/

/-- Ids, revisions and keys of the nodes of a table. -/
structure Fit (keys : List (α → κ)) (x : UndoIndex oid) : Prop where
  below : ∀ n ∈ x.indices.rows, oid n.item < x.nextId
  past : ∀ n ∈ x.indices.rows, n.mtime ≤ x.monotonicRevision
  unique : ∀ a ∈ x.indices.rows, ∀ b ∈ x.indices.rows, Compatible keys oid a b
  revised : x.undoStack.length ≤ x.revision

/-- Where the last undo state stands among the ids and the revisions. -/
structure Within (x : UndoIndex oid) (s : UndoState α) (rest : List (UndoState α)) : Prop where
  begun : s.ctime ≤ x.monotonicRevision
  started : s.oldNextId ≤ x.nextId
  removed : ∀ m ∈ s.removedValues, oid m.item < x.nextId
  nested : ∀ u ∈ rest, u.ctime ≤ s.ctime

/-- The last session is recorded, and so are the others in the table that `undo` gives. -/
inductive Sound (keys : List (α → κ)) : UndoIndex oid → Prop
  | flat {x : UndoIndex oid} (hstack : x.undoStack = []) (hfit : Fit keys x) : Sound keys x
  | nested {x : UndoIndex oid} {s : UndoState α} {rest : List (UndoState α)}
      (hstack : x.undoStack = s :: rest) (hfit : Fit keys x)
      (hrecorded : Recorded keys x.indices s) (hwithin : Within x s rest)
      (hundo : Sound keys (undo keys x)) : Sound keys x

theorem Sound.fit (h : Sound keys x) : Fit keys x := by
  cases h with
  | flat _ hfit => exact hfit
  | nested _ hfit => exact hfit

/-- What a sound table with a session has. -/
theorem Sound.session {rest : List (UndoState α)} (h : Sound keys x)
    (hstack : x.undoStack = s :: rest) :
    Recorded keys x.indices s ∧ Within x s rest ∧ Sound keys (undo keys x) := by
  cases h with
  | flat hnil =>
      rw [hnil] at hstack
      exact absurd hstack (by simp)
  | nested hcons hfit hrecorded hwithin hundo =>
      rw [hcons, List.cons.injEq] at hstack
      obtain ⟨rfl, rfl⟩ := hstack
      exact ⟨hrecorded, hwithin, hundo⟩

theorem mem_undo {rest : List (UndoState α)} (hstack : x.undoStack = s :: rest)
    (h : Recorded keys x.indices s) {n : Node α} :
    n ∈ (undo keys x).indices.rows ↔ Older x.indices s n := by
  simp only [undo, hstack]
  exact h.mem_restored

theorem undo_undoStack {rest : List (UndoState α)} (hstack : x.undoStack = s :: rest) :
    (undo keys x).undoStack = rest := by
  simp only [undo, hstack]

theorem undo_nextId {rest : List (UndoState α)} (hstack : x.undoStack = s :: rest) :
    (undo keys x).nextId = s.oldNextId := by
  simp only [undo, hstack]

/-- Tables with the same older nodes go back to the same table. -/
theorem undo_congr {r : UndoState α} {rest : List (UndoState α)}
    (hx : x.undoStack = s :: rest) (hy : y.undoStack = r :: rest)
    (hrecordedx : Recorded keys x.indices s) (hrecordedy : Recorded keys y.indices r)
    (holder : ∀ n, Older y.indices r n ↔ Older x.indices s n)
    (hid : r.oldNextId = s.oldNextId) (hrevision : y.revision = x.revision)
    (hmonotonic : y.monotonicRevision = x.monotonicRevision) : undo keys y = undo keys x := by
  have hrows : (undo keys y).indices = (undo keys x).indices := by
    apply Table.eq_of_mem_iff
    intro n
    rw [mem_undo hy hrecordedy, mem_undo hx hrecordedx]
    exact holder n
  simp only [undo, hx, hy] at hrows ⊢
  rw [hrows, hid, hrevision, hmonotonic]

/-- A change after which the table is sound, and which `undo` takes back. -/
structure Keeps (keys : List (α → κ)) (x y : UndoIndex oid) : Prop where
  sound : Sound keys y
  length : y.undoStack.length = x.undoStack.length
  revision : y.revision = x.revision
  undone : x.undoStack ≠ [] → undo keys y = undo keys x

theorem Keeps.refl (h : Sound keys x) : Keeps keys x x := ⟨h, rfl, rfl, fun _ => rfl⟩

theorem Keeps.flat (hx : x.undoStack = []) (hy : y.undoStack = []) (hfit : Fit keys y)
    (hrevision : y.revision = x.revision) : Keeps keys x y :=
  ⟨.flat hy hfit, by rw [hx, hy], hrevision, fun hne => absurd hx hne⟩

/-- A change within a session that leaves the older nodes. -/
theorem Sound.change {r : UndoState α} {rest : List (UndoState α)} (h : Sound keys x)
    (hx : x.undoStack = s :: rest) (hy : y.undoStack = r :: rest) (hfit : Fit keys y)
    (holder : ∀ n, Older y.indices r n ↔ Older x.indices s n)
    (hpresent : ∀ i < s.oldNextId,
      (∃ m, Present y.indices r m ∧ oid m.item = i) ↔ ∃ m, Present x.indices s m ∧ oid m.item = i)
    (hapart : ∀ m ∈ r.removedValues, y.indices.find? (oid m.item) = none)
    (hdistinct : (r.removedValues.map fun m => oid m.item).Nodup)
    (hremoved : ∀ m ∈ r.removedValues, oid m.item < y.nextId) (hid : r.oldNextId = s.oldNextId)
    (hctime : r.ctime = s.ctime) (hnextId : x.nextId ≤ y.nextId)
    (hrevision : y.revision = x.revision)
    (hmonotonic : y.monotonicRevision = x.monotonicRevision) : Keeps keys x y := by
  obtain ⟨hrecorded, hwithin, hundo⟩ := h.session hx
  have hrecordedy : Recorded keys y.indices r :=
    hrecorded.change holder hid hpresent hapart hdistinct
  have hsame : undo keys y = undo keys x :=
    undo_congr hx hy hrecorded hrecordedy holder hid hrevision hmonotonic
  refine ⟨?_, ?_, hrevision, fun _ => hsame⟩
  · refine .nested hy hfit hrecordedy ?_ (hsame ▸ hundo)
    refine ⟨?_, ?_, hremoved, ?_⟩
    · rw [hctime, hmonotonic]
      exact hwithin.begun
    · rw [hid]
      exact hwithin.started.trans hnextId
    · rw [hctime]
      exact hwithin.nested
  · rw [hx, hy, List.length_cons, List.length_cons]

/-! ### Changes of objects -/

/-- An object is inserted behind all others. -/
theorem emplace_rows {c : Constructor oid} (hfit : Fit keys x) (h : emplace keys x c = some y) :
    ∃ mtime, y.indices.rows = x.indices.rows ++ [⟨c.make x.nextId, mtime⟩] ∧
      (x.undoStack ≠ [] → mtime = x.monotonicRevision) ∧ mtime ≤ x.monotonicRevision ∧
      clashes keys x.indices (c.make x.nextId) = false ∧ y.undoStack = x.undoStack ∧
      y.nextId = x.nextId + 1 ∧ y.revision = x.revision ∧
      y.monotonicRevision = x.monotonicRevision := by
  simp only [emplace, Option.bind_eq_bind, Option.bind_eq_some_iff, Option.pure_def,
    Option.some.injEq] at h
  obtain ⟨u, hu, rfl⟩ := h
  obtain ⟨hfree, hemplace⟩ := insertImpl_eq_some.mp hu
  refine ⟨if x.undoStack = [] then 0 else x.monotonicRevision, ?_, ?_, ?_, hfree, rfl, rfl, rfl,
    rfl⟩
  · have hperm := (Table.emplace?_perm hemplace).trans (List.perm_append_singleton _ _).symm
    refine List.Perm.eq_of_pairwise ?_ u.sorted ?_ hperm
    · intro a b _ _ hab hba
      exact absurd (hab.trans hba) (lt_irrefl _)
    · rw [List.pairwise_append]
      refine ⟨x.indices.sorted, List.pairwise_singleton _ _, ?_⟩
      intro a ha b hb
      rw [List.mem_singleton.mp hb, c.keeps]
      exact hfit.below a ha
  · intro hne
    rw [if_neg hne]
  · split
    · exact Nat.zero_le _
    · exact le_refl _

theorem emplace_keeps {c : Constructor oid} (hsound : Sound keys x)
    (h : emplace keys x c = some y) : Keeps keys x y := by
  obtain ⟨mtime, hrows, hmtime, hpast, hfree, hstack, hnextId, hrevision, hmonotonic⟩ :=
    emplace_rows hsound.fit h
  have hmem : ∀ n, n ∈ y.indices.rows ↔ n ∈ x.indices.rows ∨ n = ⟨c.make x.nextId, mtime⟩ := by
    intro n
    rw [hrows, List.mem_append, List.mem_singleton]
  have hnew : ∀ a ∈ x.indices.rows, Compatible keys oid a ⟨c.make x.nextId, mtime⟩ := fun a ha =>
    clashes_eq_false.mp hfree a ha
  have hfit : Fit keys y := by
    refine ⟨?_, ?_, ?_, ?_⟩
    · intro n hn
      rw [hnextId]
      rcases (hmem n).mp hn with hn | rfl
      · exact (hsound.fit.below n hn).trans (Nat.lt_succ_self _)
      · exact (c.keeps x.nextId).symm ▸ Nat.lt_succ_self _
    · intro n hn
      rw [hmonotonic]
      rcases (hmem n).mp hn with hn | rfl
      · exact hsound.fit.past n hn
      · exact hpast
    · intro a ha b hb
      rcases (hmem a).mp ha with ha | rfl
      · rcases (hmem b).mp hb with hb | rfl
        · exact hsound.fit.unique a ha b hb
        · exact hnew a ha
      · rcases (hmem b).mp hb with hb | rfl
        · exact (hnew b hb).symm
        · exact fun hne => absurd rfl hne
    · rw [hstack, hrevision]
      exact hsound.fit.revised
  cases hx : x.undoStack with
  | nil => exact .flat hx (hstack.trans hx) hfit hrevision
  | cons s rest =>
      obtain ⟨hrecorded, hwithin, -⟩ := hsound.session hx
      have htime : mtime = x.monotonicRevision := hmtime (by simp [hx])
      have hpresent : ∀ n, Present y.indices s n ↔
          Present x.indices s n ∨ n = ⟨c.make x.nextId, mtime⟩ := by
        intro n
        rw [Present, Present, hmem, or_right_comm]
      refine hsound.change hx (hstack.trans hx) hfit ?_ ?_ ?_ hrecorded.distinct ?_ rfl rfl
        (by omega) hrevision hmonotonic
      · intro n
        have hold : n.mtime < s.ctime → n ≠ ⟨c.make x.nextId, mtime⟩ := by
          rintro hlt rfl
          exact absurd hwithin.begun (not_le.mpr (htime ▸ hlt))
        simp only [Older, hpresent]
        constructor
        · rintro ⟨hlt, hv | hp | rfl⟩
          · exact ⟨hlt, .inl hv⟩
          · exact ⟨hlt, .inr hp⟩
          · exact absurd rfl (hold hlt)
        · rintro ⟨hlt, hv | hp⟩
          · exact ⟨hlt, .inl hv⟩
          · exact ⟨hlt, .inr (.inl hp)⟩
      · intro i hi
        simp only [hpresent]
        constructor
        · rintro ⟨m, hm | rfl, heq⟩
          · exact ⟨m, hm, heq⟩
          · have hid : oid (c.make x.nextId) = x.nextId := c.keeps x.nextId
            have hstarted := hwithin.started
            change oid (c.make x.nextId) = i at heq
            omega
        · rintro ⟨m, hm, heq⟩
          exact ⟨m, .inl hm, heq⟩
      · intro m hm
        rw [Table.find?_eq_none]
        intro n hn
        rcases (hmem n).mp hn with hn | rfl
        · exact Table.find?_eq_none.mp (hrecorded.apart m hm) n hn
        · have hid : oid (c.make x.nextId) = x.nextId := c.keeps x.nextId
          have hlt := hwithin.removed m hm
          change oid (c.make x.nextId) ≠ oid m.item
          omega
      · intro m hm
        rw [hnextId]
        exact (hwithin.removed m hm).trans (Nat.lt_succ_self _)

end Eden.UndoSessions
