import Mathlib.Data.List.Induction
import Mathlib.Data.List.TakeDrop

/-!
A database with a stack of undo states, and when it follows a list of changes that may be taken
back.
-/

namespace Eden.UndoStack

variable {δ β : Type}

/-- The current state, the states to which `undo` leads one after the other, and the revision. -/
structure Stack (δ : Type) where
  current : δ
  saved : List δ := []
  revision : Nat := 0

namespace Stack

/-- A session that is pushed leaves its undo state on the stack. -/
def startUndoSession (s : Stack δ) (enabled : Bool) : Stack δ :=
  if enabled then { s with saved := s.current :: s.saved, revision := s.revision + 1 } else s

def undo (s : Stack δ) : Stack δ :=
  match s.saved with
  | [] => s
  | state :: saved => { current := state, saved, revision := s.revision - 1 }

def undoTimes (s : Stack δ) : Nat → Stack δ
  | 0 => s
  | n + 1 => s.undo.undoTimes n

/-- The undo states up to a revision are given up. -/
def commit (s : Stack δ) (revision : Nat) : Stack δ :=
  { s with saved := s.saved.take (s.revision - min revision s.revision) }

def setRevision (s : Stack δ) (revision : Nat) : Option (Stack δ) :=
  if s.saved ≠ [] ∨ revision < s.revision then none else some { s with revision }

@[simp] theorem commit_current (s : Stack δ) (revision : Nat) :
    (s.commit revision).current = s.current := rfl

@[simp] theorem startUndoSession_current (s : Stack δ) (enabled : Bool) :
    (s.startUndoSession enabled).current = s.current := by
  cases enabled with
  | false => rfl
  | true => rfl

end Stack

/-- The current state comes from all changes, and each undo state from those before it. -/
structure Tracks (apply : δ → β → Option δ) (first : δ) (changes : List β) (s : Stack δ) :
    Prop where
  current : changes.foldlM apply first = some s.current
  revision : s.revision = changes.length
  saved : ∀ i state, s.saved[i]? = some state → i < changes.length ∧
    (changes.take (changes.length - 1 - i)).foldlM apply first = some state

variable {apply : δ → β → Option δ} {first : δ} {changes rest : List β} {s : Stack δ}

theorem Tracks.empty : Tracks apply first [] { current := first } :=
  ⟨rfl, rfl, by simp⟩

theorem foldlM_concat (changes : List β) (change : β) (first : δ) :
    (changes ++ [change]).foldlM apply first =
      changes.foldlM apply first >>= fun state => apply state change := by
  rw [List.foldlM_append]
  simp only [List.foldlM_cons, List.foldlM_nil, bind_pure]

theorem Tracks.undo {change : β} (h : Tracks apply first (changes ++ [change]) s)
    (hsaved : s.saved ≠ []) : Tracks apply first changes s.undo := by
  obtain ⟨state, saved, hcons⟩ := List.exists_cons_of_ne_nil hsaved
  have hundo : s.undo = { current := state, saved, revision := s.revision - 1 } := by
    rw [Stack.undo, hcons]
  have hstates := h.saved
  simp only [hcons, List.length_append, List.length_singleton] at hstates
  rw [hundo]
  refine ⟨?_, ?_, ?_⟩
  · have htop := (hstates 0 state rfl).2
    rwa [Nat.add_sub_cancel, Nat.sub_zero, List.take_left] at htop
  · rw [h.revision, List.length_append, List.length_singleton, Nat.add_sub_cancel]
  · intro i below hi
    obtain ⟨hlt, hbelow⟩ := hstates (i + 1) below hi
    refine ⟨by omega, ?_⟩
    rw [List.take_append_of_le_length (by omega)] at hbelow
    rwa [Nat.add_sub_cancel, Nat.add_comm i 1, ← Nat.sub_sub] at hbelow

theorem undo_saved (s : Stack δ) : s.undo.saved = s.saved.tail := by
  unfold Stack.undo
  split
  · rename_i hnil
    rw [hnil, List.tail_nil]
  · rename_i hcons
    rw [hcons, List.tail_cons]

/-- As many changes can be taken back as there are undo states. -/
theorem Tracks.undoTimes (h : Tracks apply first (changes ++ rest) s)
    (hsaved : rest.length ≤ s.saved.length) :
    Tracks apply first changes (s.undoTimes rest.length) ∧
      (s.undoTimes rest.length).saved.length + rest.length = s.saved.length := by
  induction rest using List.reverseRecOn generalizing s with
  | nil =>
      rw [List.append_nil] at h
      exact ⟨h, rfl⟩
  | append_singleton rest change ih =>
      rw [List.length_append, List.length_singleton] at hsaved ⊢
      rw [← List.append_assoc] at h
      have hne : s.saved ≠ [] := by
        intro hnil
        rw [hnil, List.length_nil] at hsaved
        omega
      have htail : s.undo.saved.length = s.saved.length - 1 := by
        rw [undo_saved, List.length_tail]
      obtain ⟨htracks, hlength⟩ := ih (h.undo hne) (by omega)
      rw [Stack.undoTimes]
      exact ⟨htracks, by omega⟩

theorem Tracks.commit (h : Tracks apply first changes s) (revision : Nat) :
    Tracks apply first changes (s.commit revision) := by
  refine ⟨h.current, h.revision, ?_⟩
  intro i state hi
  rw [Stack.commit, List.getElem?_take] at hi
  split at hi
  · exact h.saved i state hi
  · simp at hi

theorem commit_saved_length (h : s.saved.length + revision = s.revision) {later : Nat}
    (hle : revision ≤ later) :
    (s.commit later).saved.length = s.revision - min later s.revision := by
  rw [Stack.commit, List.length_take]
  omega

/-- A change within a session can be taken back. -/
theorem Tracks.session {change : β} {state : δ} (h : Tracks apply first changes s)
    (happly : apply s.current change = some state) :
    Tracks apply first (changes ++ [change])
      { s.startUndoSession true with current := state } := by
  refine ⟨?_, ?_, ?_⟩
  · rw [foldlM_concat, h.current]
    exact happly
  · rw [List.length_append, List.length_singleton, ← h.revision]
    rfl
  · intro i below hi
    rw [List.length_append, List.length_singleton, Nat.add_sub_cancel]
    cases i with
    | zero =>
        have hbelow : s.current = below := Option.some.inj hi
        rw [Nat.sub_zero, List.take_left, ← hbelow]
        exact ⟨by omega, h.current⟩
    | succ i =>
        obtain ⟨hlt, hbelow⟩ := h.saved i below hi
        refine ⟨by omega, ?_⟩
        rw [List.take_append_of_le_length (by omega), Nat.add_comm i 1, ← Nat.sub_sub]
        exact hbelow

/-- A change outside of a session needs an empty stack, and cannot be taken back. -/
theorem Tracks.outside {change : β} {state : δ} (h : Tracks apply first changes s)
    (hsaved : s.saved = []) (happly : apply s.current change = some state) {revision : Nat}
    (hrevision : revision = changes.length + 1) :
    ∃ t, Stack.setRevision { s.startUndoSession false with current := state } revision = some t ∧
      t.saved = [] ∧ Tracks apply first (changes ++ [change]) t := by
  have hlt : ¬ revision < s.revision := by
    rw [h.revision]
    omega
  refine ⟨{ current := state, saved := s.saved, revision }, ?_, hsaved, ?_, ?_, ?_⟩
  · have hnot : ¬ (s.saved ≠ [] ∨ revision < s.revision) := by
      rintro (hne | hlt')
      · exact hne hsaved
      · exact hlt hlt'
    exact if_neg hnot
  · rw [foldlM_concat, h.current]
    exact happly
  · rw [List.length_append, List.length_singleton]
    exact hrevision
  · intro i below hi
    simp [hsaved] at hi

end Eden.UndoStack
