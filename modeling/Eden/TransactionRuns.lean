import Eden.ExceptReasoning

/-!
Machines that execute transactions. A transaction has a header and a list of inputs; it changes
the state only when all of its inputs succeed.
-/

namespace Eden.TransactionRuns

open Eden.ExceptReasoning

/-- A machine with states `σ`, transaction headers `η`, inputs `ι` and errors `ε`. -/
structure Machine (σ η ι ε : Type) where
  /-- The state in which the inputs of a transaction start. -/
  enter : σ → η → σ
  /-- Headers that may follow a state. -/
  admits : σ → η → Prop
  step : σ → ι → Except ε σ

namespace Machine

variable {σ η ι ε : Type} (M : Machine σ η ι ε)

/-- The result of a transaction. -/
def run (s : σ) (header : η) (inputs : List ι) : Except ε σ :=
  inputs.foldlM M.step (M.enter s header)

/-- Each input that is executed is allowed in the state it finds. -/
def Allows (allowed : σ → ι → Prop) : σ → List ι → Prop
  | _, [] => True
  | s, i :: inputs => allowed s i ∧ ∀ t, M.step s i = .ok t → Allows allowed t inputs

/-- States after any number of complete transactions of allowed inputs. -/
inductive Reachable (first : σ → Prop) (allowed : σ → ι → Prop) : σ → Prop
  | first {s : σ} : first s → Reachable first allowed s
  | run {s s' : σ} {header : η} {inputs : List ι} : Reachable first allowed s →
      M.admits s header → M.Allows allowed (M.enter s header) inputs →
      M.run s header inputs = .ok s' → Reachable first allowed s'

/-- The header of a transaction or one of its inputs. -/
inductive Move (allowed : σ → ι → Prop) : σ → σ → Prop
  | enter {s : σ} {header : η} : M.admits s header → Move allowed s (M.enter s header)
  | step {s s' : σ} {i : ι} : allowed s i → M.step s i = .ok s' → Move allowed s s'

/-- An input that has been executed, with the states before and after it. -/
structure Entry (σ ι : Type) where
  before : σ
  input : ι
  after : σ

/-- The entries of allowed inputs, executed one after the other. -/
inductive Traced (allowed : σ → ι → Prop) : σ → List (Entry σ ι) → σ → Prop
  | nil {s : σ} : Traced allowed s [] s
  | cons {s t u : σ} {i : ι} {es : List (Entry σ ι)} : allowed s i → M.step s i = .ok t →
      Traced allowed t es u → Traced allowed s (⟨s, i, t⟩ :: es) u

/-- The entries of all complete transactions from a first state to another. -/
inductive History (first : σ → Prop) (allowed : σ → ι → Prop) : List (Entry σ ι) → σ → Prop
  | first {s : σ} : first s → History first allowed [] s
  | run {s s' : σ} {header : η} {es es' : List (Entry σ ι)} : History first allowed es s →
      M.admits s header → M.Traced allowed (M.enter s header) es' s' →
      History first allowed (es ++ es') s'

variable {M} {first : σ → Prop} {allowed : σ → ι → Prop}

/-- What holds at first, and is kept by every header and every executed input, holds of every
history. -/
theorem History.invariant (Inv : List (Entry σ ι) → σ → Prop) {es : List (Entry σ ι)} {s : σ}
    (h : M.History first allowed es s) (hfirst : ∀ t, first t → Inv [] t)
    (henter : ∀ es t header, M.admits t header → Inv es t → Inv es (M.enter t header))
    (hstep : ∀ es t i t', allowed t i → M.step t i = .ok t' → Inv es t →
      Inv (es ++ [⟨t, i, t'⟩]) t') : Inv es s := by
  have htraced : ∀ {t es' t'}, M.Traced allowed t es' t' → ∀ es, Inv es t → Inv (es ++ es') t' := by
    intro t es' t' htraced
    induction htraced with
    | nil =>
        intro es hes
        rwa [List.append_nil]
    | cons hallowed hok _ ih =>
        intro es hes
        have hrest := ih _ (hstep es _ _ _ hallowed hok hes)
        rwa [List.append_assoc, List.singleton_append] at hrest
  induction h with
  | first h => exact hfirst _ h
  | run _ hadmits hentries ih => exact htraced hentries _ (henter _ _ _ hadmits ih)

/-- What every header brings about and every executed input keeps holds before every input. -/
theorem History.before (Inv P : σ → Prop) {es : List (Entry σ ι)} {s : σ}
    (h : M.History first allowed es s) (hfirst : ∀ t, first t → Inv t)
    (henter : ∀ t header, M.admits t header → Inv t → Inv (M.enter t header) ∧
      P (M.enter t header))
    (hstep : ∀ t i t', allowed t i → M.step t i = .ok t' → Inv t → P t → Inv t' ∧ P t') :
    ∀ e ∈ es, P e.before := by
  have htraced : ∀ {t es' t'}, M.Traced allowed t es' t' → Inv t ∧ P t →
      Inv t' ∧ ∀ e ∈ es', P e.before := by
    intro t es' t' htraced
    induction htraced with
    | nil => exact fun ht => ⟨ht.1, by simp⟩
    | cons hallowed hok _ ih =>
        intro ht
        obtain ⟨hinv, hrest⟩ := ih (hstep _ _ _ hallowed hok ht.1 ht.2)
        exact ⟨hinv, List.forall_mem_cons.mpr ⟨ht.2, hrest⟩⟩
  have hall : Inv s ∧ ∀ e ∈ es, P e.before := by
    induction h with
    | first h => exact ⟨hfirst _ h, by simp⟩
    | run _ hadmits hentries ih =>
        obtain ⟨hinv, hlast⟩ := htraced hentries (henter _ _ hadmits ih.1)
        exact ⟨hinv, List.forall_mem_append.mpr ⟨ih.2, hlast⟩⟩
  exact hall.2

theorem append_singleton_eq_append_cons {α : Type} {l l₁ l₂ : List α} {x y : α}
    (h : l ++ [x] = l₁ ++ y :: l₂) : (l = l₁ ∧ x = y) ∨ ∃ l₃, l = l₁ ++ y :: l₃ := by
  rcases List.eq_nil_or_concat l₂ with rfl | ⟨l₃, z, rfl⟩
  · obtain ⟨rfl, hxy⟩ := List.append_inj' h rfl
    exact .inl ⟨rfl, List.singleton_inj.mp hxy⟩
  · rw [List.concat_eq_append, ← List.cons_append, ← List.append_assoc] at h
    exact .inr ⟨l₃, (List.append_inj' h rfl).1⟩

/-- What holds at first, and is kept by every header and every executed input, holds after every
input of a history. -/
theorem History.after (Inv : List (Entry σ ι) → σ → Prop) {es es₁ es₂ : List (Entry σ ι)} {s : σ}
    {e : Entry σ ι} (h : M.History first allowed es s) (hes : es = es₁ ++ e :: es₂)
    (hfirst : ∀ t, first t → Inv [] t)
    (henter : ∀ es t header, M.admits t header → Inv es t → Inv es (M.enter t header))
    (hstep : ∀ es t i t', allowed t i → M.step t i = .ok t' → Inv es t →
      Inv (es ++ [⟨t, i, t'⟩]) t') : Inv (es₁ ++ [e]) e.after := by
  have hall : Inv es s ∧ ∀ es₁ e es₂, es = es₁ ++ e :: es₂ → Inv (es₁ ++ [e]) e.after := by
    refine History.invariant (fun es s =>
      Inv es s ∧ ∀ es₁ e es₂, es = es₁ ++ e :: es₂ → Inv (es₁ ++ [e]) e.after) h ?_ ?_ ?_
    · exact fun t ht => ⟨hfirst t ht, fun es₁ e es₂ hnil => by simp at hnil⟩
    · exact fun es t header hadmits ht => ⟨henter es t header hadmits ht.1, ht.2⟩
    · rintro es t i t' hallowed hok ⟨ht, hbefore⟩
      have hlast := hstep es t i t' hallowed hok ht
      refine ⟨hlast, fun es₁ e es₂ hsplit => ?_⟩
      rcases append_singleton_eq_append_cons hsplit with ⟨rfl, rfl⟩ | ⟨es₃, hsplit⟩
      · exact hlast
      · exact hbefore es₁ e es₃ hsplit
  exact hall.2 es₁ e es₂ hes

theorem moves_of_foldlM {inputs : List ι} {s s' : σ} (hinputs : M.Allows allowed s inputs)
    (h : inputs.foldlM M.step s = .ok s') : Relation.ReflTransGen (M.Move allowed) s s' := by
  induction inputs generalizing s with
  | nil =>
      simp only [List.foldlM_nil, pure_eq_ok] at h
      rw [h]
  | cons i inputs ih =>
      rw [List.foldlM_cons, bind_eq_ok] at h
      obtain ⟨t, ht, hrest⟩ := h
      have hfirst : M.Move allowed s t := .step hinputs.1 ht
      exact .head hfirst (ih (hinputs.2 t ht) hrest)

theorem moves_of_run {s s' : σ} {header : η} {inputs : List ι} (hadmits : M.admits s header)
    (hinputs : M.Allows allowed (M.enter s header) inputs)
    (h : M.run s header inputs = .ok s') : Relation.ReflTransGen (M.Move allowed) s s' :=
  .head (.enter hadmits) (moves_of_foldlM hinputs h)

/-- What every move keeps holds after any number of moves. -/
theorem moves_preserve (Inv : σ → Prop) {s s' : σ}
    (hmove : ∀ t t', M.Move allowed t t' → Inv t → Inv t')
    (h : Relation.ReflTransGen (M.Move allowed) s s') (hs : Inv s) : Inv s' := by
  induction h with
  | refl => exact hs
  | tail _ hlast ih => exact hmove _ _ hlast ih

/-- What holds at first and is kept by every move holds in every reachable state. -/
theorem Reachable.invariant (Inv : σ → Prop) {s : σ} (h : M.Reachable first allowed s)
    (hfirst : ∀ t, first t → Inv t) (hmove : ∀ t t', M.Move allowed t t' → Inv t → Inv t') :
    Inv s := by
  induction h with
  | first h => exact hfirst _ h
  | run _ hadmits hinputs hrun ih =>
      exact moves_preserve Inv hmove (moves_of_run hadmits hinputs hrun) ih

end Machine

end Eden.TransactionRuns
