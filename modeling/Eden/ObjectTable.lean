import Mathlib

/-!
Tables of an object database: rows in the order of their creation, with a key that is unique. A
change of rows fails when it would make two keys equal.
-/

namespace Eden.ObjectTable

variable {α κ : Type} {key : α → κ}

/-- Rows with different keys, in the order of their creation. -/
structure Objects (key : α → κ) where
  rows : List α
  nodup : (rows.map key).Nodup

namespace Objects

theorem ext_rows {t u : Objects key} (h : t.rows = u.rows) : t = u := by
  cases t
  cases u
  congr

def empty : Objects key := ⟨[], List.nodup_nil⟩

instance : EmptyCollection (Objects key) := ⟨empty⟩

@[simp] theorem rows_empty : (∅ : Objects key).rows = [] := rfl

theorem eq_of_key_eq {t : Objects key} {a b : α} (ha : a ∈ t.rows) (hb : b ∈ t.rows)
    (h : key a = key b) : a = b := List.inj_on_of_nodup_map t.nodup ha hb h

variable [DecidableEq κ]

instance [DecidableEq α] : DecidableEq (Objects key) := fun t u =>
  decidable_of_iff (t.rows = u.rows) ⟨ext_rows, congrArg rows⟩

def find? (t : Objects key) (k : κ) : Option α := t.rows.find? fun a => key a = k

/-- A table of given rows, if their keys are different. -/
def ofRows? (rows : List α) : Option (Objects key) :=
  if h : (rows.map key).Nodup then some ⟨rows, h⟩ else none

/-- A new row, unless there is one with its key. -/
def emplace? (t : Objects key) (a : α) : Option (Objects key) := ofRows? (t.rows ++ [a])

/-- The rows that satisfy a predicate. -/
def filter (t : Objects key) (p : α → Bool) : Objects key where
  rows := t.rows.filter p
  nodup := t.nodup.sublist (List.filter_sublist.map key)

def erase (t : Objects key) (k : κ) : Objects key := t.filter fun a => key a ≠ k

/-- Change rows that keep their keys. -/
def modifyAll (t : Objects key) (f : α → α) (hf : ∀ a, key (f a) = key a) : Objects key where
  rows := t.rows.map f
  nodup := by
    have hsame : key ∘ f = key := funext hf
    rw [List.map_map, hsame]
    exact t.nodup

/-- Change the row of a key, which it keeps. -/
def modify (t : Objects key) (k : κ) (f : α → α) (hf : ∀ a, key (f a) = key a) : Objects key :=
  t.modifyAll (fun a => if key a = k then f a else a) fun a => by
    split
    · exact hf a
    · rfl

/-- Change the row of a key, unless another one has the new key. -/
def alter? (t : Objects key) (k : κ) (f : α → α) : Option (Objects key) :=
  ofRows? (t.rows.map fun a => if key a = k then f a else a)

/-- Change all rows, one after the other. -/
def alterEach? (t : Objects key) (f : α → α) : Option (Objects key) :=
  t.rows.foldlM (fun u a => u.alter? (key a) f) t

theorem find?_eq_some {t : Objects key} {k : κ} {a : α} :
    t.find? k = some a ↔ a ∈ t.rows ∧ key a = k := by
  constructor
  · intro h
    exact ⟨List.mem_of_find?_eq_some h, by simpa using List.find?_some h⟩
  · rintro ⟨ha, rfl⟩
    cases h : t.find? (key a) with
    | none =>
        rw [find?, List.find?_eq_none] at h
        exact absurd (h a ha) (by simp)
    | some b =>
        have hb := List.mem_of_find?_eq_some h
        have hkey : key b = key a := by simpa using List.find?_some h
        rw [eq_of_key_eq hb ha hkey]

theorem find?_eq_none {t : Objects key} {k : κ} :
    t.find? k = none ↔ ∀ a ∈ t.rows, key a ≠ k := by
  simp [find?]

theorem ofRows?_eq_some {rows : List α} {t : Objects key} :
    ofRows? rows = some t ↔ t.rows = rows := by
  unfold ofRows?
  constructor
  · intro h
    split at h
    · rw [← Option.some.inj h]
    · exact absurd h (by simp)
  · rintro rfl
    rw [dif_pos t.nodup]

theorem ofRows?_eq_none {rows : List α} :
    (ofRows? rows : Option (Objects key)) = none ↔ ¬ (rows.map key).Nodup := by
  simp [ofRows?]

theorem emplace?_eq_some {t t' : Objects key} {a : α} :
    t.emplace? a = some t' ↔ t'.rows = t.rows ++ [a] := ofRows?_eq_some

theorem find?_emplace? {t t' : Objects key} {a : α} (h : t.emplace? a = some t') (k : κ) :
    t'.find? k = if key a = k then some a else t.find? k := by
  rw [find?, emplace?_eq_some.mp h, List.find?_append, List.find?_singleton]
  by_cases hk : key a = k
  · have hnew : t.find? k = none := by
      rw [find?_eq_none]
      intro b hb heq
      have hnodup := t'.nodup
      rw [emplace?_eq_some.mp h, List.map_append, List.nodup_append] at hnodup
      exact hnodup.2.2 (key b) (List.mem_map_of_mem hb) (key a) (by simp) (heq.trans hk.symm)
    rw [find?] at hnew
    simp [hk, hnew]
  · simp [hk, find?]

theorem find?_modify (t : Objects key) (k : κ) (f : α → α) (hf : ∀ a, key (f a) = key a)
    (k' : κ) : (t.modify k f hf).find? k' = (t.find? k').map fun a => if k' = k then f a else a := by
  rw [find?, find?, modify, modifyAll, List.find?_map]
  have hsame : ((fun a => decide (key a = k')) ∘ fun a => if key a = k then f a else a) =
      fun a => decide (key a = k') := by
    funext a
    simp only [Function.comp_apply]
    split
    · rw [hf]
    · rfl
  rw [hsame]
  cases hfound : t.rows.find? fun a => key a = k' with
  | none => rfl
  | some a =>
      have hkey : key a = k' := by simpa using List.find?_some hfound
      simp [hkey]

theorem emplace?_eq_none {t : Objects key} {a : α} :
    t.emplace? a = none ↔ ∃ b ∈ t.rows, key b = key a := by
  rw [emplace?, ofRows?_eq_none, List.map_append, List.map_cons, List.map_nil,
    List.nodup_append_comm, List.singleton_append, List.nodup_cons, not_and_or, not_not,
    List.mem_map]
  exact or_iff_left (not_not.mpr t.nodup)

omit [DecidableEq κ] in
@[simp] theorem rows_filter (t : Objects key) (p : α → Bool) :
    (t.filter p).rows = t.rows.filter p := rfl

@[simp] theorem rows_erase (t : Objects key) (k : κ) :
    (t.erase k).rows = t.rows.filter fun a => key a ≠ k := rfl

@[simp] theorem rows_modify (t : Objects key) (k : κ) (f : α → α)
    (hf : ∀ a, key (f a) = key a) :
    (t.modify k f hf).rows = t.rows.map fun a => if key a = k then f a else a := rfl

theorem map_eq_self {l : List α} {f : α → α} (h : ∀ a ∈ l, f a = a) : l.map f = l :=
  (List.map_congr_left h).trans (List.map_id' l)

theorem map_if_key {l : List α} {k : κ} {f : α → α} (h : ∀ a ∈ l, key a ≠ k) :
    (l.map fun a => if key a = k then f a else a) = l :=
  map_eq_self fun a ha => if_neg (h a ha)

/-- Changing the row of a key changes one row in its place. -/
theorem split_of_find? {t : Objects key} {k : κ} {a : α} (h : t.find? k = some a) (f : α → α) :
    ∃ l₁ l₂, t.rows = l₁ ++ a :: l₂ ∧ (∀ b ∈ l₁ ++ l₂, key b ≠ k) ∧
      (t.rows.map fun b => if key b = k then f b else b) = l₁ ++ f a :: l₂ := by
  obtain ⟨ha, rfl⟩ := find?_eq_some.mp h
  obtain ⟨l₁, l₂, hrows⟩ := List.append_of_mem ha
  have hnodup := t.nodup
  rw [hrows, List.map_append, List.map_cons, List.nodup_middle, List.nodup_cons,
    ← List.map_append] at hnodup
  have hothers : ∀ b ∈ l₁ ++ l₂, key b ≠ key a :=
    fun b hb heq => hnodup.1 (heq ▸ List.mem_map_of_mem hb)
  refine ⟨l₁, l₂, hrows, hothers, ?_⟩
  rw [hrows, List.map_append, List.map_cons, if_pos rfl,
    map_if_key fun b hb => hothers b (List.mem_append_left _ hb),
    map_if_key fun b hb => hothers b (List.mem_append_right _ hb)]

/-- Changing rows one after the other fails exactly when it does at once, as long as no row loses
a key that another one takes. -/
theorem alterEach?_eq {t : Objects key} {f : α → α}
    (hf : ∀ a ∈ t.rows, ∀ b ∈ t.rows, key (f a) = key b → key (f b) = key b) :
    t.alterEach? f = ofRows? (t.rows.map f) := by
  have hloop : ∀ (todo done : List α) (u : Objects key), t.rows = done ++ todo →
      u.rows = done.map f ++ todo →
      todo.foldlM (fun u a => u.alter? (key a) f) u = ofRows? (t.rows.map f) := by
    intro todo
    induction todo with
    | nil =>
        intro done u ht hu
        rw [List.append_nil] at ht hu
        rw [List.foldlM_nil, eq_comm, ht, ← hu]
        exact ofRows?_eq_some.mpr rfl
    | cons a todo ih =>
        intro done u ht hu
        have hnodup := u.nodup
        rw [hu, List.map_append, List.nodup_append, List.map_cons, List.nodup_cons] at hnodup
        have hrows : (u.rows.map fun b => if key b = key a then f b else b) =
            (done ++ [a]).map f ++ todo := by
          rw [hu, List.map_append, List.map_cons, if_pos rfl, List.map_append, List.append_assoc]
          congr 1
          · refine map_eq_self fun b hb => if_neg fun heq => ?_
            exact hnodup.2.2 (key b) (List.mem_map_of_mem hb) (key a) List.mem_cons_self heq
          · rw [List.map_cons, List.map_nil, List.singleton_append]
            congr 1
            refine map_eq_self fun b hb => if_neg fun heq => ?_
            exact hnodup.2.1.1 (heq ▸ List.mem_map_of_mem hb)
        have happend : t.rows = (done ++ [a]) ++ todo := by
          rw [ht, List.append_assoc, List.singleton_append]
        rw [List.foldlM_cons]
        cases hstep : u.alter? (key a) f with
        | some u' =>
            exact ih (done ++ [a]) u' happend ((ofRows?_eq_some.mp hstep).trans hrows)
        | none =>
            -- A key that is taken now is taken in the end.
            rw [alter?, hrows, ofRows?_eq_none] at hstep
            refine (ofRows?_eq_none.mpr fun hall => hstep ?_).symm
            rw [happend, List.map_append, List.map_append, List.nodup_append] at hall
            rw [List.map_append, List.nodup_append]
            refine ⟨hall.1, hnodup.2.1.2, ?_⟩
            rintro _ hk _ hk' rfl
            obtain ⟨b, hb, hkb⟩ := List.mem_map.mp hk'
            obtain ⟨_, hfd, hkd⟩ := List.mem_map.mp hk
            obtain ⟨d, hd, rfl⟩ := List.mem_map.mp hfd
            have hkeep := hf d (happend ▸ List.mem_append_left _ hd) b
              (happend ▸ List.mem_append_right _ hb) (hkd.trans hkb.symm)
            exact hall.2.2 _ hk _ (List.mem_map_of_mem (List.mem_map_of_mem hb))
              (hkb.symm.trans hkeep.symm)
  exact hloop t.rows [] t rfl (List.nil_append _)

section Renaming

variable {ν ρ : Type} [DecidableEq ν] {account : α → ν} {rest : α → ρ} {oldAccount newAccount : ν}

/-- No row of one account has what is left of the key of a row of another. -/
def Apart (t : Objects key) (account : α → ν) (rest : α → ρ) (oldAccount newAccount : ν) : Prop :=
  ∀ a ∈ t.rows, ∀ b ∈ t.rows, account a = oldAccount → account b = newAccount → rest a ≠ rest b

omit [DecidableEq κ] in
/-- When an account is part of the key, giving it another name keeps the keys different exactly
when no row of its own meets one of the other name. -/
theorem nodup_renamed_iff {t : Objects key} {f : α → α} (hne : oldAccount ≠ newAccount)
    (hkey : ∀ a b, key a = key b ↔ account a = account b ∧ rest a = rest b)
    (haccount : ∀ a, account (f a) = if account a = oldAccount then newAccount else account a)
    (hrest : ∀ a, rest (f a) = rest a) :
    ((t.rows.map f).map key).Nodup ↔ t.Apart account rest oldAccount newAccount := by
  rw [List.map_map, List.nodup_map_iff_inj_on (List.Nodup.of_map key t.nodup)]
  simp only [Function.comp_apply, hkey, haccount, hrest]
  constructor
  · intro h a ha b hb hold hnew hsame
    have hab : a = b := by
      apply h a ha b hb
      rw [if_pos hold, if_neg (hnew.trans_ne hne.symm)]
      exact ⟨hnew.symm, hsame⟩
    exact hne (hold.symm.trans ((congrArg account hab).trans hnew))
  · rintro h a ha b hb ⟨hsame, hrests⟩
    have hof : account a = account b → a = b :=
      fun heq => eq_of_key_eq ha hb ((hkey a b).mpr ⟨heq, hrests⟩)
    split at hsame
    · rename_i hold
      split at hsame
      · rename_i hold'
        exact hof (hold.trans hold'.symm)
      · exact absurd hrests (h a ha b hb hold hsame.symm)
    · split at hsame
      · rename_i hold'
        exact absurd hrests.symm (h b hb a ha hold' hsame)
      · exact hof hsame

theorem alterEach?_renamed {t : Objects key} {f : α → α} (hne : oldAccount ≠ newAccount)
    (hkey : ∀ a b, key a = key b ↔ account a = account b ∧ rest a = rest b)
    (haccount : ∀ a, account (f a) = if account a = oldAccount then newAccount else account a)
    (hrest : ∀ a, rest (f a) = rest a) :
    (∃ u, t.alterEach? f = some u) ↔ t.Apart account rest oldAccount newAccount := by
  have hkeep : ∀ a ∈ t.rows, ∀ b ∈ t.rows, key (f a) = key b → key (f b) = key b := by
    intro a _ b _ heq
    have hb : account b ≠ oldAccount := by
      rw [← ((hkey _ _).mp heq).1, haccount]
      split
      · exact hne.symm
      · assumption
    rw [hkey, haccount, hrest, if_neg hb]
    exact ⟨rfl, rfl⟩
  rw [alterEach?_eq hkeep, ← nodup_renamed_iff hne hkey haccount hrest]
  simp [ofRows?]

theorem alter?_renamed {t : Objects key} {f : α → α} (hne : oldAccount ≠ newAccount)
    (hkey : ∀ a b, key a = key b ↔ account a = account b ∧ rest a = rest b) {k : κ}
    (hk : ∀ a, key a = k ↔ account a = oldAccount) (haccount : ∀ a, account (f a) = newAccount)
    (hrest : ∀ a, rest (f a) = rest a) :
    (∃ u, t.alter? k f = some u) ↔ t.Apart account rest oldAccount newAccount := by
  rw [← nodup_renamed_iff (f := fun a => if key a = k then f a else a) hne hkey]
  · simp [alter?, ofRows?]
  · intro a
    by_cases h : account a = oldAccount
    · rw [if_pos ((hk a).mpr h), if_pos h]
      exact haccount a
    · rw [if_neg fun heq => h ((hk a).mp heq), if_neg h]
  · intro a
    split
    · exact hrest a
    · rfl

end Renaming

end Objects

end Eden.ObjectTable
