import Eden.ObjectTable

/-!
Rows that post an amount to an account each, as a function from accounts to amounts: what such a
function says of an account, of all accounts, and of accounts that get other names.
-/

namespace Eden.Postings

open Eden.ObjectTable

variable {α κ M : Type} [AddCommMonoid M] {account : α → κ} {amount : α → M}

/-- What the rows post to each account. -/
noncomputable def posted (account : α → κ) (amount : α → M) (rows : List α) : κ →₀ M :=
  (rows.map fun a => Finsupp.single (account a) (amount a)).sum

/-- The amounts of all accounts together. -/
noncomputable def total (book : κ →₀ M) : M := book.sum fun _ m => m

@[simp] theorem posted_nil : posted account amount [] = 0 := rfl

@[simp] theorem posted_cons (a : α) (rows : List α) :
    posted account amount (a :: rows) =
      Finsupp.single (account a) (amount a) + posted account amount rows := by
  simp [posted]

@[simp] theorem posted_append (rows more : List α) :
    posted account amount (rows ++ more) =
      posted account amount rows + posted account amount more := by
  simp [posted]

/-- Renaming the accounts of the rows renames those of the book. -/
theorem posted_map {f : α → α} {rename : κ → κ} {rows : List α}
    (haccount : ∀ a ∈ rows, account (f a) = rename (account a))
    (hamount : ∀ a ∈ rows, amount (f a) = amount a) :
    posted account amount (rows.map f) =
      (posted account amount rows).mapDomain rename := by
  induction rows with
  | nil => simp
  | cons a rows ih =>
      have hrest := ih (fun b hb => haccount b (List.mem_cons_of_mem _ hb))
        (fun b hb => hamount b (List.mem_cons_of_mem _ hb))
      rw [List.map_cons, posted_cons, posted_cons, Finsupp.mapDomain_add,
        Finsupp.mapDomain_single, hrest, haccount a List.mem_cons_self,
        hamount a List.mem_cons_self]

theorem posted_apply [DecidableEq κ] (rows : List α) (k : κ) :
    posted account amount rows k =
      ((rows.filter fun a => account a = k).map amount).sum := by
  induction rows with
  | nil => rfl
  | cons a rows ih =>
      rw [posted_cons, Finsupp.add_apply, ih, Finsupp.single_apply, List.filter_cons]
      by_cases h : account a = k
      · simp [h]
      · simp [h]

theorem total_posted (rows : List α) :
    total (posted account amount rows) = (rows.map amount).sum := by
  classical
  induction rows with
  | nil => rfl
  | cons a rows ih =>
      have hsplit : total (posted account amount (a :: rows)) =
          total (Finsupp.single (account a) (amount a)) +
            total (posted account amount rows) := by
        rw [posted_cons]
        exact Finsupp.sum_add_index' (fun _ => rfl) fun _ _ _ => rfl
      rw [hsplit, ih, List.map_cons, List.sum_cons]
      congr 1
      exact Finsupp.sum_single_index rfl

section Objects

variable [DecidableEq κ] {t t' : Objects account}

/-- A table with one row for an account posts the amount of that row. -/
theorem posted_find? (t : Objects account) (k : κ) :
    posted account amount t.rows k = ((t.find? k).map amount).getD 0 := by
  rw [posted_apply]
  cases h : t.find? k with
  | none =>
      have hempty : (t.rows.filter fun a => account a = k) = [] := by
        simpa [List.filter_eq_nil_iff] using Objects.find?_eq_none.mp h
      rw [hempty]
      rfl
  | some a =>
      obtain ⟨l₁, l₂, hrows, hothers, -⟩ := Objects.split_of_find? h id
      have haccount := (Objects.find?_eq_some.mp h).2
      have hnone : ∀ l : List α, (∀ b ∈ l, b ∈ l₁ ++ l₂) →
          (l.filter fun b => account b = k) = [] := by
        intro l hl
        simpa [List.filter_eq_nil_iff] using fun b hb => hothers b (hl b hb)
      rw [hrows, List.filter_append, List.filter_cons, if_pos (by simpa using haccount),
        hnone l₁ fun b hb => List.mem_append_left _ hb,
        hnone l₂ fun b hb => List.mem_append_right _ hb]
      simp

/-- Changing the amount of an account's row by a difference posts the difference. -/
theorem posted_modify {f : α → α} (hf : ∀ a, account (f a) = account a) {k : κ} {a : α} {d : M}
    (h : t.find? k = some a) (hd : amount (f a) = amount a + d) :
    posted account amount (t.modify k f hf).rows =
      posted account amount t.rows + Finsupp.single k d := by
  obtain ⟨l₁, l₂, hrows, -, hchanged⟩ := Objects.split_of_find? h f
  have haccount := (Objects.find?_eq_some.mp h).2
  rw [Objects.rows_modify, hchanged, hrows]
  simp only [posted_append, posted_cons, hf, hd, haccount, Finsupp.single_add]
  abel

theorem posted_emplace? {a : α} (h : t.emplace? a = some t') :
    posted account amount t'.rows =
      posted account amount t.rows + Finsupp.single (account a) (amount a) := by
  rw [Objects.emplace?_eq_some.mp h]
  simp

end Objects

end Eden.Postings
