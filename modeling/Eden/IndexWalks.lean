import Eden.SortedTable

/-!
Walks through a secondary index of a table that changes on the way. The walk moves to the next row
before it handles the one it leaves, as a loop with an iterator does.
-/

namespace Eden.IndexWalks

open Eden.ExceptReasoning
open Eden.SortedTable

variable {α κ τ σ ε : Type} [LinearOrder κ] [LinearOrder τ] {key : α → κ}

/-! ### The order of an index -/

/-- The order of a secondary index. Rows with the same secondary key are in the order of their
primary keys. -/
def Precedes (key : α → κ) (secondary : α → τ) (a b : α) : Prop :=
  secondary a < secondary b ∨ (secondary a = secondary b ∧ key a < key b)

instance (secondary : α → τ) (a b : α) : Decidable (Precedes key secondary a b) :=
  inferInstanceAs (Decidable (_ ∨ _))

section Order

variable {secondary : α → τ} {a b c : α}

theorem Precedes.trans (hab : Precedes key secondary a b) (hbc : Precedes key secondary b c) :
    Precedes key secondary a c := by
  rcases hab with hab | ⟨hab, hkey⟩
  · rcases hbc with hbc | ⟨hbc, -⟩
    · exact .inl (hab.trans hbc)
    · exact .inl (hab.trans_eq hbc)
  · rcases hbc with hbc | ⟨hbc, hkey'⟩
    · exact .inl (hab.trans_lt hbc)
    · exact .inr ⟨hab.trans hbc, hkey.trans hkey'⟩

theorem Precedes.irrefl (a : α) : ¬ Precedes key secondary a a := by
  rintro (h | ⟨-, h⟩)
  · exact lt_irrefl _ h
  · exact lt_irrefl _ h

theorem Precedes.asymm (hab : Precedes key secondary a b) : ¬ Precedes key secondary b a :=
  fun hba => Precedes.irrefl a (hab.trans hba)

theorem Precedes.le (h : Precedes key secondary a b) : secondary a ≤ secondary b := by
  rcases h with h | ⟨h, -⟩
  · exact h.le
  · exact h.le

theorem orderedInsert_precedes {l : List α} (hl : l.Pairwise (Precedes key secondary))
    (ha : ∀ b ∈ l, key a < key b) :
    (l.orderedInsert (fun b c => secondary b ≤ secondary c) a).Pairwise
      (Precedes key secondary) := by
  induction l with
  | nil => exact List.pairwise_singleton _ _
  | cons b l ih =>
      obtain ⟨hb, hrest⟩ := List.pairwise_cons.mp hl
      have hkey : key a < key b := ha b List.mem_cons_self
      rw [List.orderedInsert_cons]
      split
      · rename_i hle
        have hab : Precedes key secondary a b :=
          hle.lt_or_eq.imp_right fun heq => ⟨heq, hkey⟩
        refine List.pairwise_cons.mpr ⟨fun c hc => ?_, hl⟩
        rcases List.mem_cons.mp hc with rfl | hc
        · exact hab
        · exact hab.trans (hb c hc)
      · rename_i hnot
        have hba : Precedes key secondary b a := .inl (not_le.mp hnot)
        refine List.pairwise_cons.mpr
          ⟨fun c hc => ?_, ih hrest fun c hc => ha c (List.mem_cons_of_mem b hc)⟩
        rcases (List.mem_orderedInsert _).mp hc with rfl | hc
        · exact hba
        · exact hb c hc

/-- The sort of an index is stable, and the rows of a table are in the order of their keys. -/
theorem index_precedes (t : Table key) (secondary : α → τ) :
    (t.index secondary).Pairwise (Precedes key secondary) := by
  have hsort : ∀ rows : List α, rows.Pairwise (fun a b => key a < key b) →
      (rows.insertionSort fun a b => secondary a ≤ secondary b).Pairwise
        (Precedes key secondary) := by
    intro rows hrows
    induction rows with
    | nil => exact .nil
    | cons a rows ih =>
        obtain ⟨ha, hrest⟩ := List.pairwise_cons.mp hrows
        exact orderedInsert_precedes (ih hrest) fun b hb => ha b ((List.mem_insertionSort _).mp hb)
  exact hsort t.rows t.sorted

/-- Lists in this order that have the same elements are the same. -/
theorem eq_of_precedes {l l' : List α} (hl : l.Pairwise (Precedes key secondary))
    (hl' : l'.Pairwise (Precedes key secondary)) (h : ∀ a, a ∈ l ↔ a ∈ l') : l = l' := by
  have hnodup : ∀ l : List α, l.Pairwise (Precedes key secondary) → l.Nodup := fun l hl =>
    hl.imp fun hab => by
      rintro rfl
      exact Precedes.irrefl _ hab
  have hperm : l.Perm l' := (List.perm_ext_iff_of_nodup (hnodup l hl) (hnodup l' hl')).mpr h
  exact hperm.eq_of_pairwise (fun a b _ _ hab hba => absurd hba hab.asymm) hl hl'

end Order

/-! ### Walks -/

/-- The row after another one in a secondary index. -/
def next (t : Table key) (secondary : α → τ) (a : α) : Option α :=
  (t.index secondary).find? fun b => Precedes key secondary a b

/-- Handle rows in the order of an index for some number of steps, up to the first row that is not
due. The iterator names a row; to look at a row that has been erased is an error. -/
def walk (table : σ → Table key) (secondary : α → τ) (due : α → Bool)
    (step : σ → α → Except ε σ) (erased : ε) : (maxSteps : Nat) → (iter : Option κ) → σ →
    Except ε (Nat × σ)
  | 0, _, s => return (0, s)
  | maxSteps + 1, none, s => return (maxSteps + 1, s)
  | maxSteps + 1, some k, s => do
      let a ← expect ((table s).find? k) erased
      if due a then
        walk table secondary due step erased maxSteps ((next (table s) secondary a).map key)
          (← step s a)
      else return (maxSteps + 1, s)

/-- A row is erased from a table, or takes a place among those that are not due. -/
structure Retires (due : α → Bool) (a : α) (t t' : Table key) : Prop where
  kept : ∀ b ∈ t.rows, b ≠ a → b ∈ t'.rows
  due_old : ∀ b ∈ t'.rows, due b = true → b ∈ t.rows ∧ b ≠ a

/-- The rows of a table that are due, in the order of an index. -/
def dueRows (t : Table key) (secondary : α → τ) (due : α → Bool) : List α :=
  (t.index secondary).filter due

section Walks

variable {secondary : α → τ} {due : α → Bool} {a : α} {t t' : Table key}

theorem mem_dueRows : a ∈ dueRows t secondary due ↔ a ∈ t.rows ∧ due a = true := by
  rw [dueRows, List.mem_filter, Table.mem_index]

theorem dueRows_precedes (t : Table key) (secondary : α → τ) (due : α → Bool) :
    (dueRows t secondary due).Pairwise (Precedes key secondary) :=
  (index_precedes t secondary).filter due

theorem Retires.due_rest (h : Retires due a t t') {rest : List α}
    (hrows : dueRows t secondary due = a :: rest) : dueRows t' secondary due = rest := by
  have hsorted := dueRows_precedes t secondary due
  rw [hrows] at hsorted
  obtain ⟨ha, hrest⟩ := List.pairwise_cons.mp hsorted
  have hnew : a ∉ rest := fun hmem => Precedes.irrefl a (ha a hmem)
  refine eq_of_precedes (dueRows_precedes t' secondary due) hrest fun b => ?_
  have hold : b ∈ t.rows ∧ due b = true ↔ b = a ∨ b ∈ rest := by
    have hmem : b ∈ dueRows t secondary due ↔ b ∈ t.rows ∧ due b = true := mem_dueRows
    rw [← hmem, hrows, List.mem_cons]
  rw [mem_dueRows]
  constructor
  · rintro ⟨hb, hdue⟩
    obtain ⟨hb, hne⟩ := h.due_old b hb hdue
    exact (hold.mp ⟨hb, hdue⟩).resolve_left hne
  · intro hb
    obtain ⟨hmem, hdue⟩ := hold.mpr (.inr hb)
    exact ⟨h.kept b hmem fun hsame => hnew (hsame ▸ hb), hdue⟩

/-- The iterator is at the first row that is due, or past all of them. -/
def AtFirst (t : Table key) (secondary : α → τ) (due : α → Bool) (iter : Option κ) : Prop :=
  match dueRows t secondary due with
  | a :: _ => iter = some (key a)
  | [] => ∀ k, iter = some k → ∃ b ∈ t.rows, key b = k ∧ due b = false

/-- What precedes a row that is due is due. -/
def Initial (secondary : α → τ) (due : α → Bool) : Prop :=
  ∀ a b, secondary a ≤ secondary b → due b = true → due a = true

theorem atFirst_head (hdue : Initial secondary due) (t : Table key) :
    AtFirst t secondary due ((t.index secondary).head?.map key) := by
  unfold AtFirst
  split
  · rename_i a rest hrows
    have hmem : a ∈ t.index secondary ∧ due a = true :=
      List.mem_filter.mp (hrows ▸ List.mem_cons_self : a ∈ dueRows t secondary due)
    have hsorted := index_precedes t secondary
    cases hindex : t.index secondary with
    | nil =>
        rw [hindex] at hmem
        cases hmem.1
    | cons b l =>
        rw [hindex] at hmem hsorted
        have hb : due b = true := by
          rcases List.mem_cons.mp hmem.1 with rfl | ha
          · exact hmem.2
          · exact hdue b a ((List.pairwise_cons.mp hsorted).1 a ha).le hmem.2
        rw [dueRows, hindex, List.filter_cons_of_pos hb] at hrows
        obtain ⟨rfl, -⟩ := List.cons.inj hrows
        rfl
  · rename_i hrows
    intro k hk
    obtain ⟨b, hb, rfl⟩ := Option.map_eq_some_iff.mp hk
    have hmem : b ∈ t.rows := Table.mem_index.mp (List.mem_of_head? hb)
    refine ⟨b, hmem, rfl, ?_⟩
    by_contra hne
    have hnone : b ∈ dueRows t secondary due := mem_dueRows.mpr ⟨hmem, by simpa using hne⟩
    rw [hrows] at hnone
    cases hnone

/-- The iterator moves to the next row before the row that it leaves is handled. -/
theorem atFirst_next (hdue : Initial secondary due) (h : Retires due a t t') {rest : List α}
    (hrows : dueRows t secondary due = a :: rest) :
    AtFirst t' secondary due ((next t secondary a).map key) := by
  have hsorted := dueRows_precedes t secondary due
  rw [hrows] at hsorted
  obtain ⟨ha, hrest⟩ := List.pairwise_cons.mp hsorted
  have hnext : ∀ b, next t secondary a = some b →
      b ∈ t.rows ∧ Precedes key secondary a b ∧
        ∀ c ∈ t.rows, Precedes key secondary a c → ¬ Precedes key secondary c b := by
    intro b hb
    obtain ⟨hab, before, later, hindex, hbefore⟩ := List.find?_eq_some_iff_append.mp hb
    have hmem : ∀ c, c ∈ t.rows ↔ c ∈ before ++ b :: later := fun c => by
      rw [← hindex, Table.mem_index]
    refine ⟨(hmem b).mpr (by simp), of_decide_eq_true hab, fun c hc hac hcb => ?_⟩
    have hpairs := index_precedes t secondary
    rw [hindex, List.pairwise_append, List.pairwise_cons] at hpairs
    rcases List.mem_append.mp ((hmem c).mp hc) with hc | hc
    · have hnot := hbefore c hc
      simp only [Bool.not_eq_true', decide_eq_false_iff_not] at hnot
      exact hnot hac
    · rcases List.mem_cons.mp hc with rfl | hc
      · exact Precedes.irrefl c hcb
      · exact (hpairs.2.1.1 c hc).asymm hcb
  unfold AtFirst
  rw [h.due_rest hrows]
  cases rest with
  | nil =>
      simp only
      intro k hk
      obtain ⟨b, hb, rfl⟩ := Option.map_eq_some_iff.mp hk
      obtain ⟨hmem, hab, -⟩ := hnext b hb
      have hne : b ≠ a := by
        rintro rfl
        exact Precedes.irrefl b hab
      refine ⟨b, h.kept b hmem hne, rfl, ?_⟩
      by_contra hdueb
      have honly : b ∈ dueRows t secondary due := mem_dueRows.mpr ⟨hmem, by simpa using hdueb⟩
      rw [hrows, List.mem_singleton] at honly
      exact hne honly
  | cons c rest =>
      simp only
      have hc : c ∈ t.rows ∧ due c = true :=
        mem_dueRows.mp (hrows ▸ List.mem_cons_of_mem a List.mem_cons_self)
      have hac : Precedes key secondary a c := ha c List.mem_cons_self
      cases hb : next t secondary a with
      | none =>
          have hnone := List.find?_eq_none.mp hb c (Table.mem_index.mpr hc.1)
          exact absurd (decide_eq_true hac) hnone
      | some b =>
          obtain ⟨hmem, hab, hleast⟩ := hnext b hb
          -- the next row is due, so it is among the rows that are
          have hnotcb : ¬ Precedes key secondary c b := hleast c hc.1 hac
          have hbc : secondary b ≤ secondary c := not_lt.mp fun hlt => hnotcb (.inl hlt)
          have hdueb : b ∈ dueRows t secondary due :=
            mem_dueRows.mpr ⟨hmem, hdue b c hbc hc.2⟩
          rw [hrows] at hdueb
          rcases List.mem_cons.mp hdueb with rfl | hdueb
          · exact absurd hab (Precedes.irrefl b)
          · rcases List.mem_cons.mp hdueb with rfl | hdueb
            · rfl
            · exact absurd ((List.pairwise_cons.mp hrest).1 b hdueb) hnotcb

variable {table : σ → Table key} {step : σ → α → Except ε σ}

/-- When each step retires the row it handles, a walk handles the rows that were due at first, each
of them once and in order. -/
theorem walk_eq (hdue : Initial secondary due) (erased : ε) (Inv : σ → Prop)
    (hstep : ∀ s a s', Inv s → a ∈ (table s).rows → step s a = .ok s' →
      Inv s' ∧ Retires due a (table s) (table s'))
    (maxSteps : Nat) {iter : Option κ} {s : σ} (hs : Inv s)
    (hiter : AtFirst (table s) secondary due iter) :
    walk table secondary due step erased maxSteps iter s =
      ((dueRows (table s) secondary due).take maxSteps).foldlM step s >>= fun s' =>
        pure (maxSteps - ((dueRows (table s) secondary due).take maxSteps).length, s') := by
  induction maxSteps generalizing iter s with
  | zero => rfl
  | succ n ih =>
      unfold AtFirst at hiter
      split at hiter
      · rename_i a rest hrows
        subst hiter
        have ha : a ∈ (table s).rows ∧ due a = true :=
          mem_dueRows.mp (hrows ▸ List.mem_cons_self)
        rw [hrows, List.take_succ_cons, List.foldlM_cons]
        have hwalk : walk table secondary due step erased (n + 1) (some (key a)) s =
            step s a >>= fun s' => walk table secondary due step erased n
              ((next (table s) secondary a).map key) s' := by
          rw [walk, Table.find?_of_mem ha.1]
          exact if_pos ha.2
        rw [hwalk]
        cases hok : step s a with
        | error e => rfl
        | ok s' =>
            obtain ⟨hs', hretires⟩ := hstep s a s' hs ha.1 hok
            have hlater := ih hs' (atFirst_next hdue hretires hrows)
            rw [hretires.due_rest hrows] at hlater
            change walk table secondary due step erased n _ s' = _
            rw [hlater, List.length_cons, Nat.succ_sub_succ]
            rfl
      · rename_i hrows
        rw [hrows, List.take_nil, List.foldlM_nil, pure_bind]
        cases iter with
        | none => rfl
        | some k =>
            obtain ⟨b, hb, rfl, hnot⟩ := hiter k rfl
            rw [walk, Table.find?_of_mem hb]
            exact if_neg (by simp [hnot])

end Walks

end Eden.IndexWalks
