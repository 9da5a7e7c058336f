import Eden.UndoSessions

/-!
Each operation of a table with an undo stack: the sessions stay recorded, and `undo` gives what it
gave before.
-/

namespace Eden.UndoSteps

open Eden.SortedTable
open Eden.UndoTables
open Eden.UndoSessions

variable {α κ : Type} {oid : α → Nat} [DecidableEq κ] {keys : List (α → κ)}
variable {x y : UndoIndex oid} {t : Rows oid} {s : UndoState α}

/-! ### Removed objects -/

/-- A node is removed, as it is in the table or with a value of its session. -/
theorem remove_keeps {n r : Node α} (hsound : Sound keys x) (hr : r ∈ x.indices.rows)
    (hid : oid n.item = oid r.item) (hmtime : n.mtime = r.mtime)
    (hsame : ∀ u ∈ x.undoStack.head?, n.mtime < u.ctime → n = r) :
    Keeps keys x (remove x n) := by
  have hmem : ∀ m, m ∈ (x.indices.erase (oid n.item)).rows ↔
      m ∈ x.indices.rows ∧ oid m.item ≠ oid n.item := fun m => Table.mem_erase
  have hlength : (onRemove x.undoStack oid n).length = x.undoStack.length := by
    unfold onRemove
    split
    · rename_i hnil
      rw [hnil]
    · rename_i hcons
      rw [hcons]
      split
      · rfl
      · rfl
  have hfit : Fit keys (remove x n) := by
    refine ⟨?_, ?_, ?_, ?_⟩
    · exact fun m hm => hsound.fit.below m ((hmem m).mp hm).1
    · exact fun m hm => hsound.fit.past m ((hmem m).mp hm).1
    · exact fun a ha b hb => hsound.fit.unique a ((hmem a).mp ha).1 b ((hmem b).mp hb).1
    · exact hlength.le.trans hsound.fit.revised
  cases hx : x.undoStack with
  | nil =>
      refine .flat hx ?_ hfit rfl
      simp only [remove, onRemove, hx]
  | cons s rest =>
      obtain ⟨hrecorded, hwithin, -⟩ := hsound.session hx
      have hnr : n.mtime < s.ctime → n = r := hsame s (by rw [hx]; rfl)
      by_cases hnew : s.oldNextId ≤ oid n.item
      · have hy : (remove x n).undoStack = s :: rest := by
          simp only [remove, onRemove, hx, if_pos hnew]
        have hother : ∀ m, Older x.indices s m → oid m.item ≠ oid n.item := by
          intro m hm
          have hlt := (hrecorded.placed hm).1
          omega
        refine hsound.change hx hy hfit ?_ ?_ ?_ hrecorded.distinct hwithin.removed rfl rfl
          (le_refl _) rfl rfl
        · intro m
          constructor
          · rintro ⟨hlt, hv | hp | hp⟩
            · exact ⟨hlt, .inl hv⟩
            · exact ⟨hlt, .inr (.inl ((hmem m).mp hp).1)⟩
            · exact ⟨hlt, .inr (.inr hp)⟩
          · intro hm
            have hne := hother m hm
            obtain ⟨hlt, hv | hp | hp⟩ := hm
            · exact ⟨hlt, .inl hv⟩
            · exact ⟨hlt, .inr (.inl ((hmem m).mpr ⟨hp, hne⟩))⟩
            · exact ⟨hlt, .inr (.inr hp)⟩
        · intro i hi
          constructor
          · rintro ⟨m, hp | hp, heq⟩
            · exact ⟨m, .inl ((hmem m).mp hp).1, heq⟩
            · exact ⟨m, .inr hp, heq⟩
          · rintro ⟨m, hp | hp, heq⟩
            · exact ⟨m, .inl ((hmem m).mpr ⟨hp, by omega⟩), heq⟩
            · exact ⟨m, .inr hp, heq⟩
        · intro m hm
          rw [Table.find?_eq_none]
          intro a ha
          exact Table.find?_eq_none.mp (hrecorded.apart m hm) a ((hmem a).mp ha).1
      · have hy : (remove x n).undoStack =
            { s with removedValues := n :: s.removedValues } :: rest := by
          simp only [remove, onRemove, hx, if_neg hnew]
        have hapart : ∀ m ∈ s.removedValues, oid r.item ≠ oid m.item := fun m hm =>
          Table.find?_eq_none.mp (hrecorded.apart m hm) r hr
        refine hsound.change hx hy hfit ?_ ?_ ?_ ?_ ?_ rfl rfl (le_refl _) rfl rfl
        · intro m
          constructor
          · rintro ⟨hlt, hv | hp | hp⟩
            · exact ⟨hlt, .inl hv⟩
            · exact ⟨hlt, .inr (.inl ((hmem m).mp hp).1)⟩
            · rcases List.mem_cons.mp hp with rfl | hp
              · exact ⟨hlt, .inr (.inl (hnr hlt ▸ hr))⟩
              · exact ⟨hlt, .inr (.inr hp)⟩
          · rintro ⟨hlt, hv | hp | hp⟩
            · exact ⟨hlt, .inl hv⟩
            · by_cases heq : oid m.item = oid n.item
              · have hm : m = r := Table.eq_of_key_eq hp hr (heq.trans hid)
                have hn : n = r := hnr (by rw [hmtime, ← hm]; exact hlt)
                exact ⟨hlt, .inr (.inr (by rw [hm, ← hn]; exact List.mem_cons_self))⟩
              · exact ⟨hlt, .inr (.inl ((hmem m).mpr ⟨hp, heq⟩))⟩
            · exact ⟨hlt, .inr (.inr (List.mem_cons_of_mem n hp))⟩
        · intro i hi
          constructor
          · rintro ⟨m, hp | hp, heq⟩
            · exact ⟨m, .inl ((hmem m).mp hp).1, heq⟩
            · rcases List.mem_cons.mp hp with rfl | hp
              · exact ⟨r, .inl hr, hid.symm.trans heq⟩
              · exact ⟨m, .inr hp, heq⟩
          · rintro ⟨m, hp | hp, heq⟩
            · by_cases hmn : oid m.item = oid n.item
              · exact ⟨n, .inr List.mem_cons_self, hmn.symm.trans heq⟩
              · exact ⟨m, .inl ((hmem m).mpr ⟨hp, hmn⟩), heq⟩
            · exact ⟨m, .inr (List.mem_cons_of_mem n hp), heq⟩
        · intro m hm
          rw [Table.find?_eq_none]
          intro a ha
          obtain ⟨ha, hne⟩ := (hmem a).mp ha
          rcases List.mem_cons.mp hm with rfl | hm
          · exact hne
          · exact Table.find?_eq_none.mp (hrecorded.apart m hm) a ha
        · rw [List.map_cons, List.nodup_cons]
          refine ⟨?_, hrecorded.distinct⟩
          intro hmem
          obtain ⟨m, hm, heq⟩ := List.mem_map.mp hmem
          exact hapart m hm (heq.trans hid).symm
        · intro m hm
          rcases List.mem_cons.mp hm with rfl | hm
          · exact hid ▸ hsound.fit.below r hr
          · exact hwithin.removed m hm

theorem removeObject_eq_some {i : Nat} (h : removeObject x i = some y) :
    ∃ n, x.indices.find? i = some n ∧ y = remove x n := by
  simp only [removeObject, Option.bind_eq_bind, Option.bind_eq_some_iff, Option.pure_def,
    Option.some.injEq] at h
  obtain ⟨n, hn, rfl⟩ := h
  exact ⟨n, hn, rfl⟩

theorem removeObject_keeps {i : Nat} (hsound : Sound keys x) (h : removeObject x i = some y) :
    Keeps keys x y := by
  obtain ⟨n, hn, rfl⟩ := removeObject_eq_some h
  exact remove_keeps hsound (Table.mem_of_find? hn) rfl rfl fun _ _ _ => rfl

/-! ### Modified objects -/

/-- Another object with the same id is in the place of a node. -/
theorem fit_replaced {n : Node α} (hfit : Fit keys x) (hold : ∃ m ∈ x.indices.rows,
      oid m.item = oid n.item)
    (hmem : ∀ m, m ∈ y.indices.rows ↔
      (m ∈ x.indices.rows ∧ oid m.item ≠ oid n.item) ∨ m = n)
    (hfree : clashes keys x.indices n.item = false) (hpast : n.mtime ≤ x.monotonicRevision)
    (hlength : y.undoStack.length = x.undoStack.length) (hnextId : y.nextId = x.nextId)
    (hrevision : y.revision = x.revision) (hmonotonic : y.monotonicRevision = x.monotonicRevision) :
    Fit keys y := by
  have hnew : ∀ a ∈ x.indices.rows, Compatible keys oid a n := fun a ha =>
    clashes_eq_false.mp hfree a ha
  refine ⟨?_, ?_, ?_, ?_⟩
  · intro m hm
    rw [hnextId]
    rcases (hmem m).mp hm with ⟨hm, -⟩ | rfl
    · exact hfit.below m hm
    · obtain ⟨r, hr, heq⟩ := hold
      exact heq ▸ hfit.below r hr
  · intro m hm
    rw [hmonotonic]
    rcases (hmem m).mp hm with ⟨hm, -⟩ | rfl
    · exact hfit.past m hm
    · exact hpast
  · intro a ha b hb
    rcases (hmem a).mp ha with ⟨ha, -⟩ | rfl
    · rcases (hmem b).mp hb with ⟨hb, -⟩ | rfl
      · exact hfit.unique a ha b hb
      · exact hnew a ha
    · rcases (hmem b).mp hb with ⟨hb, -⟩ | rfl
      · exact (hnew b hb).symm
      · exact fun hne => absurd rfl hne
  · rw [hlength, hrevision]
    exact hfit.revised

theorem replace_replace {a b : Node α} (h : oid a.item = oid b.item) :
    (t.replace a).replace b = t.replace b := by
  apply Table.ext_rows
  simp only [Table.replace, Table.update, List.map_map]
  apply List.map_congr_left
  intro n _
  by_cases hn : oid n.item = oid b.item
  · simp [hn, h]
  · simp [hn, h]

section Replaced

variable {n : Node α} {item : α} {mtime : Nat}

theorem mem_replaced (hrow : n ∈ t.rows) (hid : oid item = oid n.item) {a : Node α} :
    a ∈ (t.replace ⟨item, mtime⟩).rows ↔
      (a ∈ t.rows ∧ oid a.item ≠ oid item) ∨ a = ⟨item, mtime⟩ := by
  rw [Table.mem_replace]
  refine or_congr Iff.rfl ⟨And.left, fun ha => ⟨ha, n, ?_⟩⟩
  exact Table.find?_eq_some.mpr ⟨hrow, hid.symm⟩

theorem present_replaced {r : UndoState α} (hrow : n ∈ t.rows) (hid : oid item = oid n.item)
    (hremoved : r.removedValues = s.removedValues) (i : Nat) :
    (∃ m, Present (t.replace ⟨item, mtime⟩) r m ∧ oid m.item = i) ↔
      ∃ m, Present t s m ∧ oid m.item = i := by
  constructor
  · rintro ⟨m, hm | hm, heq⟩
    · rcases (mem_replaced hrow hid).mp hm with ⟨hm, -⟩ | rfl
      · exact ⟨m, .inl hm, heq⟩
      · exact ⟨n, .inl hrow, hid.symm.trans heq⟩
    · exact ⟨m, .inr (hremoved ▸ hm), heq⟩
  · rintro ⟨m, hm | hm, heq⟩
    · by_cases hsame : oid m.item = oid item
      · exact ⟨⟨item, mtime⟩, .inl ((mem_replaced hrow hid).mpr (.inr rfl)), hsame.symm.trans heq⟩
      · exact ⟨m, .inl ((mem_replaced hrow hid).mpr (.inl ⟨hm, hsame⟩)), heq⟩
    · exact ⟨m, .inr (hremoved ▸ hm), heq⟩

theorem apart_replaced (h : Recorded keys t s) {m : Node α}
    (hm : m ∈ s.removedValues) : (t.replace ⟨item, mtime⟩).find? (oid m.item) = none := by
  rw [Table.find?_replace, h.apart m hm]
  simp

end Replaced

/-- What `modify` does to the table when it succeeds: it makes a backup of a node that is older than
the last session. -/
inductive Modified (x y : UndoIndex oid) (n : Node α) (item : α) : Prop
  | backed {s : UndoState α} {rest : List (UndoState α)} (hx : x.undoStack = s :: rest)
      (hold : n.mtime < s.ctime)
      (hy : y = { x with
        indices := x.indices.replace ⟨item, x.monotonicRevision⟩
        undoStack := { s with oldValues := n :: s.oldValues } :: rest })
  | noted (hnew : ∀ u ∈ x.undoStack.head?, u.ctime ≤ n.mtime)
      (hy : y = { x with indices := x.indices.replace ⟨item, n.mtime⟩ })

theorem modify_eq_true {i : Nat} {m : Modifier oid}
    (h : UndoTables.modify keys x i m = (y, true)) :
    ∃ n, x.indices.find? i = some n ∧ clashes keys x.indices (m.apply n.item) = false ∧
      Modified x y n (m.apply n.item) := by
  unfold UndoTables.modify at h
  split at h
  · simp at h
  · rename_i n hn
    have hid : oid (m.apply n.item) = oid n.item := m.keeps n.item
    simp only [onModify] at h
    cases hx : x.undoStack with
    | nil =>
        simp only [hx] at h
        split at h
        · simp at h
        · rename_i hfree
          refine ⟨n, hn, by simpa using hfree, .noted (by simp [hx]) ?_⟩
          rw [hx]
          exact (Prod.mk.inj h).1.symm
    | cons s rest =>
        by_cases hnew : s.ctime ≤ n.mtime
        · simp only [hx, if_pos hnew] at h
          split at h
          · simp at h
          · rename_i hfree
            refine ⟨n, hn, by simpa using hfree, .noted ?_ ?_⟩
            · rw [hx]
              rintro u hu
              rwa [← Option.some.inj hu]
            · rw [hx]
              exact (Prod.mk.inj h).1.symm
        · simp only [hx, if_neg hnew] at h
          split at h
          · simp at h
          · rename_i hfree
            refine ⟨n, hn, by simpa using hfree, .backed hx (not_le.mp hnew) ?_⟩
            have hreplaced : (x.indices.replace { n with mtime := x.monotonicRevision }).replace
                ⟨m.apply n.item, x.monotonicRevision⟩ =
                x.indices.replace ⟨m.apply n.item, x.monotonicRevision⟩ :=
              replace_replace hid.symm
            rw [hreplaced] at h
            exact (Prod.mk.inj h).1.symm

theorem modify_snd {i : Nat} {n : Node α} (hn : x.indices.find? i = some n) (m : Modifier oid) :
    (UndoTables.modify keys x i m).2 = !clashes keys x.indices (m.apply n.item) := by
  simp only [UndoTables.modify, hn]
  cases onModify x n with
  | none =>
      cases clashes keys x.indices (m.apply n.item) with
      | false => rfl
      | true => rfl
  | some y =>
      cases clashes keys x.indices (m.apply n.item) with
      | false => rfl
      | true => rfl

theorem Modified.keeps {n : Node α} {item : α} (hsound : Sound keys x) (hrow : n ∈ x.indices.rows)
    (hid : oid item = oid n.item) (hfree : clashes keys x.indices item = false)
    (h : Modified x y n item) : Keeps keys x y := by
  have hself : ∀ a ∈ x.indices.rows, oid a.item = oid item → a = n := fun a ha heq =>
    Table.eq_of_key_eq ha hrow (heq.trans hid)
  have hfit : ∀ mtime ≤ x.monotonicRevision, y.indices = x.indices.replace ⟨item, mtime⟩ →
      y.undoStack.length = x.undoStack.length → y.nextId = x.nextId → y.revision = x.revision →
      y.monotonicRevision = x.monotonicRevision → Fit keys y := by
    intro mtime hpast hindices
    refine fit_replaced (n := ⟨item, mtime⟩) hsound.fit ⟨n, hrow, hid.symm⟩ ?_ hfree hpast
    intro a
    rw [hindices]
    exact mem_replaced hrow hid
  cases h with
  | @backed s rest hx hold hy =>
      obtain ⟨hrecorded, hwithin, -⟩ := hsound.session hx
      have hystack : y.undoStack = { s with oldValues := n :: s.oldValues } :: rest := by rw [hy]
      have hindices : y.indices = x.indices.replace ⟨item, x.monotonicRevision⟩ := by rw [hy]
      have hmem : ∀ a, a ∈ y.indices.rows ↔
          (a ∈ x.indices.rows ∧ oid a.item ≠ oid item) ∨ a = ⟨item, x.monotonicRevision⟩ := by
        intro a
        rw [hindices]
        exact mem_replaced hrow hid
      refine hsound.change hx hystack ?_ ?_ ?_ ?_ hrecorded.distinct ?_ rfl rfl (by rw [hy])
        (by rw [hy]) (by rw [hy])
      · refine hfit x.monotonicRevision (le_refl _) hindices ?_ (by rw [hy]) (by rw [hy])
          (by rw [hy])
        rw [hystack, hx, List.length_cons, List.length_cons]
      · intro a
        constructor
        · rintro ⟨hlt, hv | hp | hp⟩
          · rcases List.mem_cons.mp hv with rfl | hv
            · exact ⟨hlt, .inr (.inl hrow)⟩
            · exact ⟨hlt, .inl hv⟩
          · rcases (hmem a).mp hp with ⟨hp, -⟩ | rfl
            · exact ⟨hlt, .inr (.inl hp)⟩
            · exact absurd hwithin.begun (not_le.mpr hlt)
          · exact ⟨hlt, .inr (.inr hp)⟩
        · rintro ⟨hlt, hv | hp | hp⟩
          · exact ⟨hlt, .inl (List.mem_cons_of_mem n hv)⟩
          · by_cases heq : oid a.item = oid item
            · exact ⟨hlt, .inl (hself a hp heq ▸ List.mem_cons_self)⟩
            · exact ⟨hlt, .inr (.inl ((hmem a).mpr (.inl ⟨hp, heq⟩)))⟩
          · exact ⟨hlt, .inr (.inr hp)⟩
      · intro i _
        rw [hindices]
        exact present_replaced hrow hid rfl i
      · intro a ha
        rw [hindices]
        exact apart_replaced hrecorded ha
      · rw [hy]
        exact hwithin.removed
  | noted hnew hy =>
      have hindices : y.indices = x.indices.replace ⟨item, n.mtime⟩ := by rw [hy]
      have hystack : y.undoStack = x.undoStack := by rw [hy]
      have hfity : Fit keys y := hfit n.mtime (hsound.fit.past n hrow) hindices
        (by rw [hy]) (by rw [hy]) (by rw [hy]) (by rw [hy])
      have hmem : ∀ a, a ∈ y.indices.rows ↔
          (a ∈ x.indices.rows ∧ oid a.item ≠ oid item) ∨ a = ⟨item, n.mtime⟩ := by
        intro a
        rw [hindices]
        exact mem_replaced hrow hid
      cases hx : x.undoStack with
      | nil => exact .flat hx (hystack.trans hx) hfity (by rw [hy])
      | cons s rest =>
          obtain ⟨hrecorded, hwithin, -⟩ := hsound.session hx
          have hlater : s.ctime ≤ n.mtime := hnew s (by rw [hx]; rfl)
          refine hsound.change hx (hystack.trans hx) hfity ?_ ?_ ?_ hrecorded.distinct ?_ rfl rfl
            (by rw [hy]) (by rw [hy]) (by rw [hy])
          · intro a
            constructor
            · rintro ⟨hlt, hv | hp | hp⟩
              · exact ⟨hlt, .inl hv⟩
              · rcases (hmem a).mp hp with ⟨hp, -⟩ | rfl
                · exact ⟨hlt, .inr (.inl hp)⟩
                · exact absurd hlater (not_le.mpr hlt)
              · exact ⟨hlt, .inr (.inr hp)⟩
            · rintro ⟨hlt, hv | hp | hp⟩
              · exact ⟨hlt, .inl hv⟩
              · by_cases heq : oid a.item = oid item
                · exact absurd hlater (not_le.mpr (hself a hp heq ▸ hlt))
                · exact ⟨hlt, .inr (.inl ((hmem a).mpr (.inl ⟨hp, heq⟩)))⟩
              · exact ⟨hlt, .inr (.inr hp)⟩
          · intro i _
            rw [hindices]
            exact present_replaced hrow hid rfl i
          · intro a ha
            rw [hindices]
            exact apart_replaced hrecorded ha
          · rw [hy]
            exact hwithin.removed

theorem modify_keeps {i : Nat} {m : Modifier oid} (hsound : Sound keys x)
    (h : UndoTables.modify keys x i m = (y, true)) : Keeps keys x y := by
  obtain ⟨n, hn, hfree, hmodified⟩ := modify_eq_true h
  exact hmodified.keeps hsound (Table.mem_of_find? hn) (m.keeps n.item) hfree

theorem Modified.rows {n : Node α} {item : α} (h : Modified x y n item) :
    (∃ mtime, y.indices = x.indices.replace ⟨item, mtime⟩) ∧ y.nextId = x.nextId := by
  cases h with
  | backed _ _ hy =>
      subst hy
      exact ⟨⟨_, rfl⟩, rfl⟩
  | noted _ hy =>
      subst hy
      exact ⟨⟨_, rfl⟩, rfl⟩

/-! ### Sessions -/

theorem Sound.later {m : Nat} (h : Sound keys x) (hle : x.monotonicRevision ≤ m) :
    Sound keys { x with monotonicRevision := m } := by
  induction h with
  | @flat x hstack hfit =>
      exact .flat hstack ⟨hfit.below, fun n hn => (hfit.past n hn).trans hle, hfit.unique,
        hfit.revised⟩
  | @nested x s rest hstack hfit hrecorded hwithin _ ih =>
      refine .nested hstack ⟨hfit.below, fun n hn => (hfit.past n hn).trans hle, hfit.unique,
        hfit.revised⟩ hrecorded ⟨hwithin.begun.trans hle, hwithin.started, hwithin.removed,
        hwithin.nested⟩ ?_
      have hundo : undo keys { x with monotonicRevision := m } =
          { undo keys x with monotonicRevision := m } := by
        simp only [undo, hstack]
      rw [hundo]
      refine ih ?_
      simp only [undo, hstack]
      exact hle

theorem older_addSession (hfit : Fit keys x) {n : Node α} :
    Older x.indices { oldNextId := x.nextId, ctime := x.monotonicRevision + 1 } n ↔
      n ∈ x.indices.rows := by
  constructor
  · rintro ⟨-, hv | hp | hp⟩
    · exact absurd hv List.not_mem_nil
    · exact hp
    · exact absurd hp List.not_mem_nil
  · intro hn
    exact ⟨Nat.lt_succ_of_le (hfit.past n hn), .inr (.inl hn)⟩

theorem recorded_addSession (hfit : Fit keys x) :
    Recorded keys x.indices { oldNextId := x.nextId, ctime := x.monotonicRevision + 1 } := by
  have holder := fun n => older_addSession hfit (n := n)
  refine ⟨?_, List.nodup_nil, ?_, ?_, ?_, ?_⟩
  · intro m hm
    exact absurd hm List.not_mem_nil
  · intro a b ha hb
    exact Table.eq_of_key_eq ((holder a).mp ha) ((holder b).mp hb)
  · intro a ha
    exact ⟨hfit.below a ((holder a).mp ha), a, .inl ((holder a).mp ha), rfl⟩
  · rintro m (hm | hm) _
    · exact ⟨m, (holder m).mpr hm, rfl⟩
    · exact absurd hm List.not_mem_nil
  · intro a b ha hb
    exact hfit.unique a ((holder a).mp ha) b ((holder b).mp hb)

/-- Undoing a session in which nothing happened gives the table as it was. -/
theorem undo_addSession (hsound : Sound keys x) :
    undo keys (addSession x) = { x with monotonicRevision := x.monotonicRevision + 1 } := by
  have hrows : (undo keys (addSession x)).indices = x.indices := by
    apply Table.eq_of_mem_iff
    intro n
    rw [mem_undo (x := addSession x) rfl (recorded_addSession hsound.fit)]
    exact older_addSession hsound.fit
  simp only [undo, addSession, Nat.add_sub_cancel] at hrows ⊢
  rw [hrows]

theorem addSession_sound (hsound : Sound keys x) : Sound keys (addSession x) := by
  have hfit := hsound.fit
  refine .nested rfl ?_ (recorded_addSession hfit) ?_ ?_
  · exact ⟨hfit.below, fun n hn => (hfit.past n hn).trans (Nat.le_succ _), hfit.unique,
      Nat.succ_le_succ hfit.revised⟩
  · refine ⟨le_refl _, le_refl _, fun m hm => absurd hm List.not_mem_nil, ?_⟩
    intro u hu
    cases hsound with
    | flat hnil =>
        rw [hnil] at hu
        exact absurd hu List.not_mem_nil
    | nested hcons _ _ hwithin =>
        rw [hcons] at hu
        rcases List.mem_cons.mp hu with rfl | hu
        · exact hwithin.begun.trans (Nat.le_succ _)
        · exact ((hwithin.nested u hu).trans hwithin.begun).trans (Nat.le_succ _)
  · rw [undo_addSession hsound]
    exact Sound.later hsound (Nat.le_succ _)

theorem undo_sound (hsound : Sound keys x) : Sound keys (undo keys x) := by
  cases hx : x.undoStack with
  | nil =>
      have hsame : undo keys x = x := by
        simp only [undo, hx]
      rw [hsame]
      exact hsound
  | cons s rest => exact (hsound.session hx).2.2

theorem undoTimes_sound (hsound : Sound keys x) (n : Nat) : Sound keys (undoTimes keys x n) := by
  induction n generalizing x with
  | zero => exact hsound
  | succ n ih => exact ih (undo_sound hsound)

/-- A table may give up its first undo states. -/
theorem Sound.take (hsound : Sound keys x) (n : Nat) :
    Sound keys { x with undoStack := x.undoStack.take n } := by
  induction hsound generalizing n with
  | @flat x hstack hfit =>
      refine .flat ?_ ⟨hfit.below, hfit.past, hfit.unique, ?_⟩
      · rw [hstack, List.take_nil]
      · rw [hstack, List.take_nil]
        exact Nat.zero_le _
  | @nested x s rest hstack hfit hrecorded hwithin _ ih =>
      have hfit' : Fit keys { x with undoStack := x.undoStack.take n } :=
        ⟨hfit.below, hfit.past, hfit.unique, (List.length_take_le' n _).trans hfit.revised⟩
      cases n with
      | zero => exact .flat rfl hfit'
      | succ n =>
          have htake : x.undoStack.take (n + 1) = s :: rest.take n := by
            rw [hstack, List.take_succ_cons]
          refine .nested htake hfit' hrecorded ⟨hwithin.begun, hwithin.started, hwithin.removed,
            fun u hu => hwithin.nested u (List.mem_of_mem_take hu)⟩ ?_
          have hundo : undo keys { x with undoStack := x.undoStack.take (n + 1) } =
              { undo keys x with undoStack := (undo keys x).undoStack.take n } := by
            simp only [undo, hstack, List.take_succ_cons]
          rw [hundo]
          exact ih n

theorem commit_eq (x : UndoIndex oid) (revision : Nat) :
    commit x revision =
      { x with undoStack := x.undoStack.take (x.revision - min revision x.revision) } := by
  unfold commit
  simp only
  split
  · rename_i heq
    rw [heq, Nat.sub_self, List.take_zero]
  · split
    · rfl
    · rename_i hle
      rw [List.take_of_length_le (not_lt.mp hle)]

theorem commit_sound (hsound : Sound keys x) (revision : Nat) :
    Sound keys (commit x revision) := by
  rw [commit_eq]
  exact Sound.take hsound _

/-! ### Squashed sessions -/

/-- A state that records the nodes older than `ctime` as another one does, of the ids below
`oldNextId`. -/
structure Compressed (t : Rows oid) (ctime oldNextId : Nat) (s r : UndoState α) : Prop where
  older : ∀ n, n.mtime < ctime →
    (n ∈ r.oldValues ∨ Present t r n ↔ n ∈ s.oldValues ∨ Present t s n)
  present : ∀ i < oldNextId,
    (∃ m, Present t r m ∧ oid m.item = i) ↔ ∃ m, Present t s m ∧ oid m.item = i
  removed : ∀ m ∈ r.removedValues, ∃ n ∈ s.removedValues, oid n.item = oid m.item
  distinct : (r.removedValues.map fun m => oid m.item).Nodup

theorem Compressed.refl (h : Recorded keys t s) (ctime oldNextId : Nat) :
    Compressed t ctime oldNextId s s :=
  ⟨fun _ _ => Iff.rfl, fun _ _ => Iff.rfl, fun m hm => ⟨m, hm, rfl⟩, h.distinct⟩

theorem foldl_restore (oid : α → Nat) (ctime : Nat) (oldValues removed : List (Node α)) :
    (oldValues.foldl (fun removed v =>
        if v.mtime < ctime then removed.map (restore oid v) else removed) removed) =
      removed.map (rewritten oid ctime oldValues) := by
  induction oldValues generalizing removed with
  | nil => exact (List.map_id _).symm
  | cons v rest ih =>
      rw [List.foldl_cons, ih]
      by_cases hold : v.mtime < ctime
      · rw [if_pos hold, List.map_map]
        apply List.map_congr_left
        intro n _
        change rewritten oid ctime rest (restore oid v n) =
          rewritten oid ctime rest (if v.mtime < ctime then restore oid v n else n)
        rw [if_pos hold]
      · rw [if_neg hold]
        apply List.map_congr_left
        intro n _
        change rewritten oid ctime rest n =
          rewritten oid ctime rest (if v.mtime < ctime then restore oid v n else n)
        rw [if_neg hold]

/-- Compressing loses nothing that is older than `ctime`. -/
theorem compressed_compressState {ctime oldNextId : Nat} (h : Recorded keys t s)
    (hle : ctime ≤ s.ctime)
    (hplaced : ∀ n, n.mtime < ctime → (n ∈ s.oldValues ∨ Present t s n) →
      oid n.item < oldNextId) :
    Compressed t ctime oldNextId s (compressState oid ctime oldNextId s) := by
  have hold : ∀ n, n ∈ (compressState oid ctime oldNextId s).oldValues ↔
      n ∈ s.oldValues ∧ n.mtime < ctime ∧ isRemoved oid s n = false := by
    intro n
    simp [compressState]
  have hremoved : (compressState oid ctime oldNextId s).removedValues =
      (s.removedValues.map (rewritten oid ctime s.oldValues)).filter
        fun n => oid n.item < oldNextId := by
    simp only [compressState, foldl_restore]
  have hmem : ∀ n, n ∈ (compressState oid ctime oldNextId s).removedValues ↔
      (∃ m ∈ s.removedValues, rewritten oid ctime s.oldValues m = n) ∧
        oid n.item < oldNextId := by
    intro n
    rw [hremoved, List.mem_filter, List.mem_map, decide_eq_true_eq]
  have holder : ∀ {n}, n.mtime < ctime → (n ∈ s.oldValues ∨ Present t s n) → Older t s n :=
    fun hlt hn => ⟨hlt.trans_le hle, hn⟩
  -- a removed node with an older value takes this value
  have htakes : ∀ {m n}, m ∈ s.removedValues → n.mtime < ctime →
      (n ∈ s.oldValues ∨ n ∈ s.removedValues) → oid n.item = oid m.item →
      rewritten oid ctime s.oldValues m = n := by
    intro m n hm hlt hn heq
    have hn' : Older t s n := holder hlt (hn.imp_right .inr)
    rcases rewritten_cases oid ctime s.oldValues m with ⟨hsame, hnone⟩ | ⟨hv, hvlt⟩
    · rw [hsame]
      rcases hn with hn | hn
      · exact absurd heq (hnone n hn hlt)
      · exact h.present_inj (.inr hm) (.inr hn) heq.symm
    · refine h.single (holder hvlt (.inl hv)) hn' ?_
      rw [oid_rewritten oid, heq]
  refine ⟨?_, ?_, ?_, ?_⟩
  · intro n hlt
    constructor
    · rintro (hn | hn | hn)
      · exact .inl ((hold n).mp hn).1
      · exact .inr (.inl hn)
      · obtain ⟨⟨m, hm, rfl⟩, -⟩ := (hmem n).mp hn
        rcases rewritten_cases oid ctime s.oldValues m with ⟨hsame, -⟩ | ⟨hv, -⟩
        · rw [hsame]
          exact .inr (.inr hm)
        · exact .inl hv
    · intro hn
      have hid := hplaced n hlt hn
      rcases hn with hn | hn | hn
      · cases hflag : isRemoved oid s n with
        | false => exact .inl ((hold n).mpr ⟨hn, hlt, hflag⟩)
        | true =>
            simp only [isRemoved, List.any_eq_true, decide_eq_true_eq] at hflag
            obtain ⟨m, hm, heq⟩ := hflag
            exact .inr (.inr ((hmem n).mpr ⟨⟨m, hm, htakes hm hlt (.inl hn) heq.symm⟩, hid⟩))
      · exact .inr (.inl hn)
      · exact .inr (.inr ((hmem n).mpr ⟨⟨n, hn, htakes hn hlt (.inr hn) rfl⟩, hid⟩))
  · intro i hi
    constructor
    · rintro ⟨m, hm | hm, heq⟩
      · exact ⟨m, .inl hm, heq⟩
      · obtain ⟨⟨n, hn, rfl⟩, -⟩ := (hmem m).mp hm
        rw [oid_rewritten oid] at heq
        exact ⟨n, .inr hn, heq⟩
    · rintro ⟨m, hm | hm, heq⟩
      · exact ⟨m, .inl hm, heq⟩
      · refine ⟨rewritten oid ctime s.oldValues m, .inr ((hmem _).mpr ⟨⟨m, hm, rfl⟩, ?_⟩), ?_⟩
        · rw [oid_rewritten oid]
          exact heq ▸ hi
        · rw [oid_rewritten oid]
          exact heq
  · intro m hm
    obtain ⟨⟨n, hn, rfl⟩, -⟩ := (hmem m).mp hm
    exact ⟨n, hn, (oid_rewritten oid _ _ _).symm⟩
  · rw [hremoved]
    refine List.Nodup.sublist (List.filter_sublist.map _) ?_
    rw [List.map_map]
    have hsame : ((fun m : Node α => oid m.item) ∘ rewritten oid ctime s.oldValues) =
        fun m => oid m.item := by
      funext m
      exact oid_rewritten oid ctime s.oldValues m
    rw [hsame]
    exact h.distinct

/-- Compressing the last session changes nothing that can be seen. -/
theorem compress_keeps (hsound : Sound keys x) : Keeps keys x (compressLastUndoSession x) := by
  unfold compressLastUndoSession
  split
  · exact .refl hsound
  · rename_i s rest hx
    obtain ⟨hrecorded, hwithin, -⟩ := hsound.session hx
    have hcompressed : Compressed x.indices s.ctime s.oldNextId s
        (compressState oid s.ctime s.oldNextId s) :=
      compressed_compressState hrecorded (le_refl s.ctime) fun n hlt hn =>
        (hrecorded.placed ⟨hlt, hn⟩).1
    have hfit := hsound.fit
    refine hsound.change hx rfl ?_ ?_ hcompressed.present ?_ hcompressed.distinct ?_ rfl rfl
      (le_refl _) rfl rfl
    · refine ⟨hfit.below, hfit.past, hfit.unique, ?_⟩
      have hrevised := hfit.revised
      rw [hx] at hrevised
      exact hrevised
    · intro n
      constructor
      · rintro ⟨hlt, hn⟩
        exact ⟨hlt, (hcompressed.older n hlt).mp hn⟩
      · rintro ⟨hlt, hn⟩
        exact ⟨hlt, (hcompressed.older n hlt).mpr hn⟩
    · intro m hm
      obtain ⟨n, hn, heq⟩ := hcompressed.removed m hm
      exact heq ▸ hrecorded.apart n hn
    · intro m hm
      obtain ⟨n, hn, heq⟩ := hcompressed.removed m hm
      exact heq ▸ hwithin.removed n hn

/-- The last two sessions as one. -/
def merged (s r : UndoState α) : UndoState α :=
  { r with
    oldValues := s.oldValues ++ r.oldValues
    removedValues := s.removedValues ++ r.removedValues }

/-- Undoing the session that two sessions are squashed into is undoing both. -/
theorem squashed_sound {r s' : UndoState α} {rest : List (UndoState α)} (hsound : Sound keys x)
    (hx : x.undoStack = s :: r :: rest)
    (hcompressed : Compressed x.indices r.ctime r.oldNextId s s')
    (hy : y = { x with undoStack := merged s' r :: rest, revision := x.revision - 1 }) :
    Sound keys y ∧ undo keys y = undo keys (undo keys x) := by
  obtain ⟨hrecorded, hwithin, hundo⟩ := hsound.session hx
  have hu : (undo keys x).undoStack = r :: rest := undo_undoStack hx
  obtain ⟨hrecordedu, hwithinu, hundou⟩ := hundo.session hu
  have hbefore : ∀ {n}, n ∈ (undo keys x).indices.rows ↔ Older x.indices s n :=
    mem_undo hx hrecorded
  have hnextId : (undo keys x).nextId = s.oldNextId := undo_nextId hx
  have hctime : r.ctime ≤ s.ctime := hwithin.nested r List.mem_cons_self
  have hstarted : r.oldNextId ≤ s.oldNextId := hnextId ▸ hwithinu.started
  have holder : ∀ n, Older x.indices (merged s' r) n ↔ Older (undo keys x).indices r n := by
    intro n
    constructor
    · rintro ⟨hlt, hn⟩
      refine ⟨hlt, ?_⟩
      have hlast : n ∈ s'.oldValues ∨ Present x.indices s' n → n ∈ r.oldValues ∨
          Present (undo keys x).indices r n := by
        intro hn
        refine .inr (.inl (hbefore.mpr ⟨hlt.trans_le hctime, ?_⟩))
        exact (hcompressed.older n hlt).mp hn
      rcases hn with hn | hn | hn
      · rcases List.mem_append.mp hn with hn | hn
        · exact hlast (.inl hn)
        · exact .inl hn
      · exact hlast (.inr (.inl hn))
      · rcases List.mem_append.mp hn with hn | hn
        · exact hlast (.inr (.inr hn))
        · exact .inr (.inr hn)
    · rintro ⟨hlt, hn | hn | hn⟩
      · exact ⟨hlt, .inl (List.mem_append_right _ hn)⟩
      · rcases (hcompressed.older n hlt).mpr (hbefore.mp hn).2 with hn | hn | hn
        · exact ⟨hlt, .inl (List.mem_append_left _ hn)⟩
        · exact ⟨hlt, .inr (.inl hn)⟩
        · exact ⟨hlt, .inr (.inr (List.mem_append_left _ hn))⟩
      · exact ⟨hlt, .inr (.inr (List.mem_append_right _ hn))⟩
  have hlastIds : ∀ i < r.oldNextId, (∃ m, Present x.indices s' m ∧ oid m.item = i) ↔
      ∃ m ∈ (undo keys x).indices.rows, oid m.item = i := by
    intro i hi
    rw [hcompressed.present i hi]
    constructor
    · rintro ⟨m, hm, rfl⟩
      obtain ⟨a, ha, heq⟩ := hrecorded.covered hm (hi.trans_le hstarted)
      exact ⟨a, hbefore.mpr ha, heq⟩
    · rintro ⟨a, ha, rfl⟩
      obtain ⟨-, m, hm, heq⟩ := hrecorded.placed (hbefore.mp ha)
      exact ⟨m, hm, heq⟩
  -- what the earlier session has removed is neither in the table nor removed once more
  have hgone : ∀ m ∈ r.removedValues, ∀ n, Present x.indices s n → oid n.item ≠ oid m.item := by
    intro m hm n hn heq
    have hlt : oid n.item < s.oldNextId := by
      rw [heq, ← hnextId]
      exact hwithinu.removed m hm
    obtain ⟨a, ha, haeq⟩ := hrecorded.covered hn hlt
    exact Table.find?_eq_none.mp (hrecordedu.apart m hm) a (hbefore.mpr ha) (haeq.trans heq)
  have hrecordedy : Recorded keys x.indices (merged s' r) := by
    refine hrecordedu.change holder rfl ?_ ?_ ?_
    · intro i hi
      constructor
      · rintro ⟨m, hm | hm, heq⟩
        · obtain ⟨a, ha, haeq⟩ := (hlastIds i hi).mp ⟨m, .inl hm, heq⟩
          exact ⟨a, .inl ha, haeq⟩
        · rcases List.mem_append.mp hm with hm | hm
          · obtain ⟨a, ha, haeq⟩ := (hlastIds i hi).mp ⟨m, .inr hm, heq⟩
            exact ⟨a, .inl ha, haeq⟩
          · exact ⟨m, .inr hm, heq⟩
      · rintro ⟨m, hm | hm, heq⟩
        · obtain ⟨a, ha | ha, haeq⟩ := (hlastIds i hi).mpr ⟨m, hm, heq⟩
          · exact ⟨a, .inl ha, haeq⟩
          · exact ⟨a, .inr (List.mem_append_left _ ha), haeq⟩
        · exact ⟨m, .inr (List.mem_append_right _ hm), heq⟩
    · intro m hm
      rw [Table.find?_eq_none]
      intro a ha
      rcases List.mem_append.mp hm with hm | hm
      · obtain ⟨n, hn, heq⟩ := hcompressed.removed m hm
        rw [← heq]
        exact Table.find?_eq_none.mp (hrecorded.apart n hn) a ha
      · exact hgone m hm a (.inl ha)
    · change ((s'.removedValues ++ r.removedValues).map fun m => oid m.item).Nodup
      rw [List.map_append, List.nodup_append]
      refine ⟨hcompressed.distinct, hrecordedu.distinct, ?_⟩
      intro i hi j hj hij
      obtain ⟨m, hm, rfl⟩ := List.mem_map.mp hi
      obtain ⟨m', hm', rfl⟩ := List.mem_map.mp hj
      obtain ⟨n, hn, heq⟩ := hcompressed.removed m hm
      exact hgone m' hm' n (.inr hn) (heq.trans hij)
  have hystack : y.undoStack = merged s' r :: rest := by rw [hy]
  have hyindices : y.indices = x.indices := by rw [hy]
  have hsame : undo keys y = undo keys (undo keys x) := by
    have hrows : (undo keys y).indices = (undo keys (undo keys x)).indices := by
      apply Table.eq_of_mem_iff
      intro n
      rw [mem_undo hystack (hyindices ▸ hrecordedy), mem_undo hu hrecordedu, hyindices]
      exact holder n
    have hfields : ∀ z : UndoIndex oid, z.undoStack ≠ [] →
        (undo keys z).revision = z.revision - 1 ∧
          (undo keys z).monotonicRevision = z.monotonicRevision := by
      intro z hz
      cases hcons : z.undoStack with
      | nil => exact absurd hcons hz
      | cons u rest => simp [undo, hcons]
    have hy1 := hfields y (by simp [hystack])
    have hx1 := hfields x (by simp [hx])
    have hx2 := hfields (undo keys x) (by simp [hu])
    have hext : ∀ a b : UndoIndex oid, a.indices = b.indices → a.undoStack = b.undoStack →
        a.nextId = b.nextId → a.revision = b.revision →
        a.monotonicRevision = b.monotonicRevision → a = b := by
      intro a b h₁ h₂ h₃ h₄ h₅
      cases a
      cases b
      simp_all
    refine hext _ _ hrows ?_ ?_ ?_ ?_
    · rw [undo_undoStack hystack, undo_undoStack hu]
    · rw [undo_nextId hystack, undo_nextId hu]
      rfl
    · rw [hy1.1, hx2.1, hx1.1, hy]
    · rw [hy1.2, hx2.2, hx1.2, hy]
  refine ⟨?_, hsame⟩
  have hfit := hsound.fit
  refine .nested hystack ?_ (hyindices ▸ hrecordedy) ?_ (hsame ▸ hundou)
  · subst hy
    refine ⟨hfit.below, hfit.past, hfit.unique, ?_⟩
    have hrevised := hfit.revised
    rw [hx] at hrevised
    simp only [List.length_cons] at hrevised ⊢
    omega
  · subst hy
    refine ⟨?_, ?_, ?_, ?_⟩
    · exact hctime.trans hwithin.begun
    · exact hstarted.trans hwithin.started
    · intro m hm
      rcases List.mem_append.mp hm with hm | hm
      · obtain ⟨n, hn, heq⟩ := hcompressed.removed m hm
        exact heq ▸ hwithin.removed n hn
      · have hlt := hwithinu.removed m hm
        rw [hnextId] at hlt
        exact hlt.trans_le hwithin.started
    · exact hwithinu.nested

end Eden.UndoSteps
