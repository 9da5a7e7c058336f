import Eden.ExceptReasoning

/-!
Tables of rows in the order of a primary key, with at most one row for each key.
The order is a field of the table, so every operation returns an ordered table.
-/

namespace Eden.SortedTable

/-- A table whose rows are strictly increasing in their primary key. -/
structure Table {α κ : Type} [LinearOrder κ] (key : α → κ) where
  rows : List α
  sorted : rows.Pairwise fun a b => key a < key b

namespace Table

variable {α κ : Type} [LinearOrder κ] {key : α → κ}

theorem ext_rows {t u : Table key} (h : t.rows = u.rows) : t = u := by
  cases t
  cases u
  cases h
  rfl

instance [DecidableEq α] : DecidableEq (Table key) := fun t u =>
  decidable_of_iff (t.rows = u.rows) ⟨ext_rows, fun h => h ▸ rfl⟩

/-- The table without rows. -/
def empty : Table key := ⟨[], .nil⟩

instance : Inhabited (Table key) := ⟨empty⟩

@[simp] theorem rows_empty : (empty : Table key).rows = [] := rfl

/-- The row of a key. -/
def find? (t : Table key) (k : κ) : Option α := t.rows.find? fun a => key a = k

/-- The rows whose key is greater than `k`, in order. -/
def above (t : Table key) (k : κ) : List α := t.rows.filter fun a => k < key a

/-- Insert a row whose key is new. -/
def insert (t : Table key) (a : α) (hnew : t.find? (key a) = none) : Table key where
  rows := t.rows.orderedInsert (fun b c => key b ≤ key c) a
  sorted := by
    have hle : (t.rows.orderedInsert (fun b c => key b ≤ key c) a).Pairwise
        fun b c => key b ≤ key c := by
      have : Std.Total (fun b c : α => key b ≤ key c) := ⟨fun b c => le_total _ _⟩
      have : IsTrans α (fun b c : α => key b ≤ key c) := ⟨fun _ _ _ => le_trans⟩
      exact (t.sorted.imp fun h => le_of_lt h).orderedInsert a t.rows
    have hnodup : ((t.rows.orderedInsert (fun b c => key b ≤ key c) a).map key).Nodup := by
      have hperm := (List.perm_orderedInsert (fun b c => key b ≤ key c) a t.rows).map key
      rw [hperm.nodup_iff, List.map_cons, List.nodup_cons]
      refine ⟨?_, ?_⟩
      · simp only [find?, List.find?_eq_none, decide_eq_true_eq] at hnew
        rintro hmem
        obtain ⟨b, hb, hkey⟩ := List.mem_map.mp hmem
        exact hnew b hb hkey
      · rw [List.Nodup, List.pairwise_map]
        exact t.sorted.imp fun h => ne_of_lt h
    rw [List.Nodup, List.pairwise_map] at hnodup
    exact (hle.and hnodup).imp fun h => lt_of_le_of_ne h.1 h.2

/-- Store a new row; a row with the same key must not exist. -/
def emplace? (t : Table key) (a : α) : Option (Table key) :=
  if hnew : t.find? (key a) = none then some (t.insert a hnew) else none

/-- Remove the row of a key, if there is one. -/
def erase (t : Table key) (k : κ) : Table key where
  rows := t.rows.filter fun a => key a ≠ k
  sorted := t.sorted.filter _

/-- Apply a key-preserving function to every row. -/
def update (t : Table key) (f : α → α) (hf : ∀ a, key (f a) = key a) : Table key where
  rows := t.rows.map f
  sorted := by
    rw [List.pairwise_map]
    exact t.sorted.imp fun h => by rwa [hf, hf]

/-- Apply a key-preserving function to the row of a key. -/
def modify (t : Table key) (k : κ) (f : α → α) (hf : ∀ a, key (f a) = key a) : Table key :=
  t.update (fun a => if key a = k then f a else a) fun a => by split <;> simp [hf]

/-- Store a row in the place of the row with its key, if there is one. -/
def replace (t : Table key) (a : α) : Table key :=
  t.update (fun b => if key b = key a then a else b) fun b => by
    split
    · rename_i h
      exact h.symm
    · rfl

/-- The rows in the order of a secondary key, equal ones in the order of the primary key. -/
def index {σ : Type} [LinearOrder σ] (t : Table key) (secondary : α → σ) : List α :=
  t.rows.insertionSort fun a b => secondary a ≤ secondary b

/-- Sum of a quantity over all rows. -/
def total {M : Type} [AddCommMonoid M] (t : Table key) (f : α → M) : M := (t.rows.map f).sum

/-- Number of rows with a property. -/
def count (t : Table key) (p : α → Bool) : Nat := t.rows.countP p

/-! ### Lookup -/

theorem find?_eq_some {t : Table key} {k : κ} {a : α} :
    t.find? k = some a ↔ a ∈ t.rows ∧ key a = k := by
  constructor
  · intro h
    exact ⟨List.mem_of_find?_eq_some h, by simpa using List.find?_some h⟩
  · rintro ⟨hmem, hkey⟩
    cases hfound : t.find? k with
    | none =>
        simp only [find?, List.find?_eq_none, decide_eq_true_eq] at hfound
        exact absurd hkey (hfound a hmem)
    | some b =>
        have hb : b ∈ t.rows ∧ key b = k :=
          ⟨List.mem_of_find?_eq_some hfound, by simpa using List.find?_some hfound⟩
        have hinj : ∀ x ∈ t.rows, ∀ y ∈ t.rows, key x = key y → x = y := by
          have hnodup : (t.rows.map key).Nodup := by
            rw [List.Nodup, List.pairwise_map]
            exact t.sorted.imp fun h => ne_of_lt h
          intro x hx y hy hxy
          exact List.inj_on_of_nodup_map hnodup hx hy hxy
        exact congrArg some (hinj b hb.1 a hmem (hb.2.trans hkey.symm))

theorem find?_eq_none {t : Table key} {k : κ} :
    t.find? k = none ↔ ∀ a ∈ t.rows, key a ≠ k := by
  simp [find?, List.find?_eq_none]

theorem mem_of_find? {t : Table key} {k : κ} {a : α} (h : t.find? k = some a) : a ∈ t.rows :=
  (find?_eq_some.mp h).1

theorem key_of_find? {t : Table key} {k : κ} {a : α} (h : t.find? k = some a) : key a = k :=
  (find?_eq_some.mp h).2

theorem find?_of_mem {t : Table key} {a : α} (h : a ∈ t.rows) : t.find? (key a) = some a :=
  find?_eq_some.mpr ⟨h, rfl⟩

theorem eq_of_key_eq {t : Table key} {a b : α} (ha : a ∈ t.rows) (hb : b ∈ t.rows)
    (h : key a = key b) : a = b := by
  have hfound := find?_of_mem ha
  rw [h, find?_of_mem hb, Option.some.injEq] at hfound
  exact hfound.symm

theorem nodup_rows (t : Table key) : t.rows.Nodup :=
  t.sorted.imp fun h hab => absurd h (by rw [hab]; exact lt_irrefl _)

theorem nodup_keys (t : Table key) : (t.rows.map key).Nodup := by
  rw [List.Nodup, List.pairwise_map]
  exact t.sorted.imp fun h => ne_of_lt h

/-! ### Storing a row -/

theorem emplace?_eq_some {t t' : Table key} {a : α} :
    t.emplace? a = some t' ↔ ∃ hnew : t.find? (key a) = none, t' = t.insert a hnew := by
  unfold emplace?
  split
  · rename_i hnew
    simp [hnew, eq_comm]
  · rename_i hold
    simp [hold]

theorem emplace?_new {t t' : Table key} {a : α} (h : t.emplace? a = some t') :
    t.find? (key a) = none := (emplace?_eq_some.mp h).1

theorem emplace?_perm {t t' : Table key} {a : α} (h : t.emplace? a = some t') :
    t'.rows.Perm (a :: t.rows) := by
  obtain ⟨hnew, rfl⟩ := emplace?_eq_some.mp h
  exact List.perm_orderedInsert _ a t.rows

theorem emplace?_isSome {t : Table key} {a : α} (hnew : t.find? (key a) = none) :
    ∃ t', t.emplace? a = some t' := ⟨_, emplace?_eq_some.mpr ⟨hnew, rfl⟩⟩

theorem mem_emplace? {t t' : Table key} {a b : α} (h : t.emplace? a = some t') :
    b ∈ t'.rows ↔ b = a ∨ b ∈ t.rows := by
  rw [(emplace?_perm h).mem_iff, List.mem_cons]

theorem find?_emplace? {t t' : Table key} {a : α} (h : t.emplace? a = some t') (k : κ) :
    t'.find? k = if key a = k then some a else t.find? k := by
  split
  · rename_i hk
    exact find?_eq_some.mpr ⟨(mem_emplace? h).mpr (.inl rfl), hk⟩
  · rename_i hk
    cases hfound : t.find? k with
    | none =>
        rw [find?_eq_none] at hfound ⊢
        intro b hb
        rcases (mem_emplace? h).mp hb with rfl | hb
        · exact hk
        · exact hfound b hb
    | some b =>
        rw [find?_eq_some] at hfound ⊢
        exact ⟨(mem_emplace? h).mpr (.inr hfound.1), hfound.2⟩

/-! ### Erasing a row -/

@[simp] theorem mem_erase {t : Table key} {k : κ} {a : α} :
    a ∈ (t.erase k).rows ↔ a ∈ t.rows ∧ key a ≠ k := by
  simp [erase]

theorem find?_erase (t : Table key) (k k' : κ) :
    (t.erase k).find? k' = if k = k' then none else t.find? k' := by
  split
  · rename_i hk
    subst hk
    exact find?_eq_none.mpr fun a ha => (mem_erase.mp ha).2
  · rename_i hk
    cases hfound : t.find? k' with
    | none =>
        rw [find?_eq_none] at hfound ⊢
        exact fun a ha => hfound a (mem_erase.mp ha).1
    | some b =>
        rw [find?_eq_some] at hfound ⊢
        exact ⟨mem_erase.mpr ⟨hfound.1, fun hb => hk (hb.symm.trans hfound.2)⟩, hfound.2⟩

theorem erase_perm {t : Table key} {k : κ} {a : α} (h : t.find? k = some a) :
    t.rows.Perm (a :: (t.erase k).rows) := by
  rw [List.perm_ext_iff_of_nodup t.nodup_rows]
  · intro b
    rw [List.mem_cons, mem_erase]
    constructor
    · intro hb
      by_cases hkey : key b = k
      · exact .inl (eq_of_key_eq hb (mem_of_find? h) (hkey.trans (key_of_find? h).symm))
      · exact .inr ⟨hb, hkey⟩
    · rintro (rfl | ⟨hb, -⟩)
      · exact mem_of_find? h
      · exact hb
  · rw [List.nodup_cons]
    exact ⟨fun ha => (mem_erase.mp ha).2 (key_of_find? h), (t.erase k).nodup_rows⟩

/-! ### Changing rows in place -/

theorem mem_update {t : Table key} {f : α → α} {hf : ∀ a, key (f a) = key a} {b : α} :
    b ∈ (t.update f hf).rows ↔ ∃ a ∈ t.rows, f a = b := by
  simp [update]

theorem find?_update (t : Table key) (f : α → α) (hf : ∀ a, key (f a) = key a) (k : κ) :
    (t.update f hf).find? k = (t.find? k).map f := by
  cases hfound : t.find? k with
  | none =>
      rw [find?_eq_none] at hfound
      rw [Option.map_none, find?_eq_none]
      intro b hb
      obtain ⟨a, ha, rfl⟩ := mem_update.mp hb
      rw [hf]
      exact hfound a ha
  | some a =>
      rw [find?_eq_some] at hfound
      rw [Option.map_some, find?_eq_some]
      exact ⟨mem_update.mpr ⟨a, hfound.1, rfl⟩, (hf a).trans hfound.2⟩

theorem find?_modify (t : Table key) (k : κ) (f : α → α) (hf : ∀ a, key (f a) = key a) (k' : κ) :
    (t.modify k f hf).find? k' =
      if k = k' then (t.find? k').map f else t.find? k' := by
  rw [modify, find?_update]
  cases hfound : t.find? k' with
  | none => simp
  | some a =>
      have hkey := key_of_find? hfound
      by_cases hk : k = k'
      · subst hk
        simp [hkey]
      · simp [hk, hkey, Ne.symm hk]

theorem mem_modify {t : Table key} {k : κ} {f : α → α} {hf : ∀ a, key (f a) = key a} {b : α} :
    b ∈ (t.modify k f hf).rows ↔
      (b ∈ t.rows ∧ key b ≠ k) ∨ ∃ a, t.find? k = some a ∧ f a = b := by
  rw [modify, mem_update]
  constructor
  · rintro ⟨a, ha, rfl⟩
    split
    · rename_i hk
      exact .inr ⟨a, find?_eq_some.mpr ⟨ha, hk⟩, rfl⟩
    · rename_i hk
      exact .inl ⟨ha, hk⟩
  · rintro (⟨hb, hk⟩ | ⟨a, ha, rfl⟩)
    · exact ⟨b, hb, if_neg hk⟩
    · exact ⟨a, mem_of_find? ha, if_pos (key_of_find? ha)⟩

theorem modify_perm {t : Table key} {k : κ} {f : α → α} {hf : ∀ a, key (f a) = key a} {a : α}
    (h : t.find? k = some a) : (t.modify k f hf).rows.Perm (f a :: (t.erase k).rows) := by
  have hsame : ((t.erase k).rows.map fun b => if key b = k then f b else b) = (t.erase k).rows := by
    conv_rhs => rw [← List.map_id (t.erase k).rows]
    apply List.map_congr_left
    intro b hb
    exact if_neg (mem_erase.mp hb).2
  have hperm := (erase_perm h).map fun b => if key b = k then f b else b
  rw [List.map_cons, if_pos (key_of_find? h), hsame] at hperm
  exact hperm

theorem find?_replace (t : Table key) (a : α) (k : κ) :
    (t.replace a).find? k = if key a = k then (t.find? k).map fun _ => a else t.find? k := by
  rw [replace, find?_update]
  cases hfound : t.find? k with
  | none => simp
  | some b =>
      have hkey := key_of_find? hfound
      by_cases hk : key a = k
      · simp [hk, hkey]
      · simp [hk, hkey, Ne.symm hk]

theorem mem_replace {t : Table key} {a b : α} :
    b ∈ (t.replace a).rows ↔
      (b ∈ t.rows ∧ key b ≠ key a) ∨ (b = a ∧ ∃ c, t.find? (key a) = some c) := by
  rw [replace, mem_update]
  constructor
  · rintro ⟨c, hc, rfl⟩
    split
    · rename_i hk
      exact .inr ⟨rfl, c, find?_eq_some.mpr ⟨hc, hk⟩⟩
    · rename_i hk
      exact .inl ⟨hc, hk⟩
  · rintro (⟨hb, hk⟩ | ⟨rfl, c, hc⟩)
    · exact ⟨b, hb, if_neg hk⟩
    · exact ⟨c, mem_of_find? hc, if_pos (key_of_find? hc)⟩

theorem replace_perm {t : Table key} {a b : α} (h : t.find? (key a) = some b) :
    (t.replace a).rows.Perm (a :: (t.erase (key a)).rows) := by
  have hsame : ((t.erase (key a)).rows.map fun c => if key c = key a then a else c) =
      (t.erase (key a)).rows := by
    conv_rhs => rw [← List.map_id (t.erase (key a)).rows]
    apply List.map_congr_left
    intro c hc
    exact if_neg (mem_erase.mp hc).2
  have hperm := (erase_perm h).map fun c => if key c = key a then a else c
  rw [List.map_cons, if_pos (key_of_find? h), hsame] at hperm
  exact hperm

/-- A row that is replaced by one with the same image. -/
theorem map_replace {β : Type} {t : Table key} {a b : α} {f : α → β}
    (h : t.find? (key a) = some b) (hf : f a = f b) :
    (t.replace a).rows.map f = t.rows.map f := by
  simp only [replace, update, List.map_map]
  apply List.map_congr_left
  intro c hc
  simp only [Function.comp_apply]
  split
  · rename_i hk
    rw [eq_of_key_eq hc (mem_of_find? h) (hk.trans (key_of_find? h).symm), hf]
  · rfl

/-! ### Rows above a key -/

@[simp] theorem mem_above {t : Table key} {k : κ} {a : α} :
    a ∈ t.above k ↔ a ∈ t.rows ∧ k < key a := by
  simp [above]

/-- The rows above the first row above a key are the others. -/
theorem above_of_above_cons {t : Table key} {k : κ} {a : α} {l : List α}
    (h : t.above k = a :: l) : t.above (key a) = l := by
  have ha : k < key a := by
    have hmem : a ∈ t.above k := by simp [h]
    exact (mem_above.mp hmem).2
  have hsorted : (a :: l).Pairwise fun b c => key b < key c := h ▸ t.sorted.filter _
  have htwice : t.above (key a) = (t.above k).filter fun b => key a < key b := by
    rw [above, above, List.filter_filter]
    apply List.filter_congr
    intro b _
    by_cases hb : key a < key b
    · simp [hb, ha.trans hb]
    · simp [hb]
  rw [htwice, h, List.filter_cons_of_neg (by simp), List.filter_eq_self]
  intro b hb
  simpa using (List.pairwise_cons.mp hsorted).1 b hb

theorem above_modify_self (t : Table key) (k : κ) (f : α → α) (hf : ∀ a, key (f a) = key a) :
    (t.modify k f hf).above k = t.above k := by
  simp only [above, modify, update, List.filter_map]
  conv_rhs => rw [← List.map_id (t.rows.filter fun a => decide (k < key a))]
  have hkeys : (t.rows.filter ((fun a => decide (k < key a)) ∘
      fun a => if key a = k then f a else a)) = t.rows.filter fun a => decide (k < key a) := by
    apply List.filter_congr
    intro a _
    simp only [Function.comp_apply]
    split
    · rw [hf]
    · rfl
  rw [hkeys]
  apply List.map_congr_left
  intro a ha
  have hlt : k < key a := by simpa using (List.mem_filter.mp ha).2
  simp [hlt.ne']

/-- The rows of a table are determined by their set. -/
theorem eq_of_mem_iff {t u : Table key} (h : ∀ a, a ∈ t.rows ↔ a ∈ u.rows) : t = u := by
  have hperm : t.rows.Perm u.rows :=
    (List.perm_ext_iff_of_nodup t.nodup_rows u.nodup_rows).mpr h
  refine ext_rows (hperm.eq_of_pairwise ?_ t.sorted u.sorted)
  intro a b _ _ hab hba
  exact absurd (hab.trans hba) (lt_irrefl _)

theorem modify_of_find?_none {t : Table key} {k : κ} {f : α → α} {hf : ∀ a, key (f a) = key a}
    (h : t.find? k = none) : t.modify k f hf = t := by
  apply eq_of_mem_iff
  intro a
  rw [mem_modify]
  constructor
  · rintro (⟨ha, -⟩ | ⟨b, hb, -⟩)
    · exact ha
    · rw [h] at hb
      exact absurd hb (by simp)
  · intro ha
    exact .inl ⟨ha, find?_eq_none.mp h a ha⟩

/-! ### Sums and counts -/

section Totals

variable {M : Type} [AddCommMonoid M]

@[simp] theorem total_empty (f : α → M) : (empty : Table key).total f = 0 := by
  simp [total, empty]

theorem total_emplace? {t t' : Table key} {a : α} (h : t.emplace? a = some t') (f : α → M) :
    t'.total f = f a + t.total f := by
  have hsum := ((emplace?_perm h).map f).sum_eq
  simpa [total] using hsum

theorem total_erase {t : Table key} {k : κ} {a : α} (h : t.find? k = some a) (f : α → M) :
    t.total f = f a + (t.erase k).total f := by
  have hsum := ((erase_perm h).map f).sum_eq
  simpa [total] using hsum

theorem total_modify {t : Table key} {k : κ} {g : α → α} {hg : ∀ a, key (g a) = key a} {a : α}
    (h : t.find? k = some a) (f : α → M) :
    (t.modify k g hg).total f = f (g a) + (t.erase k).total f := by
  have hperm : (t.modify k g hg).rows.Perm (g a :: (t.erase k).rows) := modify_perm h
  have hsum := (hperm.map f).sum_eq
  simpa [total] using hsum

theorem total_replace {t : Table key} {a b : α} (h : t.find? (key a) = some b) (f : α → M) :
    (t.replace a).total f = f a + (t.erase (key a)).total f := by
  have hsum := ((replace_perm h).map f).sum_eq
  simpa [total] using hsum

theorem total_update (t : Table key) (g : α → α) (hg : ∀ a, key (g a) = key a) (f : α → M) :
    (t.update g hg).total f = t.total fun a => f (g a) := by
  simp [total, update, Function.comp_def]

theorem total_congr {t : Table key} {f g : α → M} (h : ∀ a ∈ t.rows, f a = g a) :
    t.total f = t.total g := congrArg List.sum (List.map_congr_left h)

end Totals

theorem count_eq_total (t : Table key) (p : α → Bool) :
    t.count p = t.total fun a => if p a then 1 else 0 := by
  unfold count total
  induction t.rows with
  | nil => rfl
  | cons a l ih =>
      by_cases hp : p a <;> simp [hp, ih, Nat.add_comm]

@[simp] theorem count_empty (p : α → Bool) : (empty : Table key).count p = 0 := rfl

theorem count_emplace? {t t' : Table key} {a : α} (h : t.emplace? a = some t') (p : α → Bool) :
    t'.count p = t.count p + if p a then 1 else 0 := by
  rw [count, (emplace?_perm h).countP_eq, List.countP_cons, count]

theorem count_erase {t : Table key} {k : κ} {a : α} (h : t.find? k = some a) (p : α → Bool) :
    t.count p = (t.erase k).count p + if p a then 1 else 0 := by
  rw [count, (erase_perm h).countP_eq, List.countP_cons, count]

theorem count_modify {t : Table key} {k : κ} {g : α → α} {hg : ∀ a, key (g a) = key a} {a : α}
    (h : t.find? k = some a) (p : α → Bool) :
    (t.modify k g hg).count p = (t.erase k).count p + if p (g a) then 1 else 0 := by
  rw [count, (modify_perm h).countP_eq, List.countP_cons, count]

/-! ### Secondary indices -/

section Index

variable {σ : Type} [LinearOrder σ]

theorem index_perm (t : Table key) (secondary : α → σ) : (t.index secondary).Perm t.rows :=
  List.perm_insertionSort _ _

@[simp] theorem mem_index {t : Table key} {secondary : α → σ} {a : α} :
    a ∈ t.index secondary ↔ a ∈ t.rows := (t.index_perm secondary).mem_iff

theorem index_pairwise (t : Table key) (secondary : α → σ) :
    (t.index secondary).Pairwise fun a b => secondary a ≤ secondary b := by
  have : Std.Total (fun a b : α => secondary a ≤ secondary b) := ⟨fun a b => le_total _ _⟩
  have : IsTrans α (fun a b : α => secondary a ≤ secondary b) := ⟨fun _ _ _ => le_trans⟩
  exact List.pairwise_insertionSort _ _

/-- A list of all rows in strictly increasing secondary order is the index. -/
theorem index_eq_of_perm {t : Table key} {secondary : α → σ} {l : List α}
    (hperm : l.Perm t.rows) (hsorted : l.Pairwise fun a b => secondary a < secondary b) :
    t.index secondary = l := by
  have hboth : (t.index secondary).Perm l := (t.index_perm secondary).trans hperm.symm
  have hinj : ∀ a ∈ l, ∀ b ∈ l, secondary a = secondary b → a = b := by
    have hnodup : (l.map secondary).Nodup := by
      rw [List.Nodup, List.pairwise_map]
      exact hsorted.imp fun h => ne_of_lt h
    exact fun a ha b hb hab => List.inj_on_of_nodup_map hnodup ha hb hab
  refine hboth.eq_of_pairwise ?_ (t.index_pairwise secondary) (hsorted.imp fun h => le_of_lt h)
  intro a b ha hb hab hba
  exact hinj a (hboth.mem_iff.mp ha) b hb (le_antisymm hab hba)

end Index

end Table

end Eden.SortedTable
