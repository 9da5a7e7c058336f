import Mathlib.Data.Fintype.Basic
import Eden.UndoRuns

/-!
Several tables with undo stacks that move together: a stack of states of the whole database.
-/

namespace Eden.UndoDatabase

open Eden.UndoStack
open Eden.UndoTables
open Eden.UndoSessions
open Eden.UndoSteps
open Eden.UndoRuns

variable {n : Nat} {α κ : Fin (n + 1) → Type} [∀ i, DecidableEq (κ i)]
variable {oid : ∀ i, α i → Nat} {keys : ∀ i, List (α i → κ i)}

/-- `chainbase::database`: its tables in the order in which they were added. -/
abbrev Database (oid : ∀ i, α i → Nat) := ∀ i : Fin (n + 1), UndoIndex (oid i)

namespace Database

/-- `revision` is that of the first table. -/
def revision (d : Database oid) : Nat := (d 0).revision

/-- `undo_stack_revision_range` of the first table -/
def undoStackRevisionRange (d : Database oid) : Nat × Nat := UndoTables.undoStackRevisionRange (d 0)

/-- One command for all tables; `none` when a check of one of them fails. -/
def command (keys : ∀ i, List (α i → κ i)) (d : Database oid) (c : Command) :
    Option (Database oid) :=
  if h : ∀ i, (c.apply (keys i) (d i)).isSome = true then
    some fun i => (c.apply (keys i) (d i)).get (h i)
  else none

/-- A change of one table. -/
def change (keys : ∀ i, List (α i → κ i)) (d : Database oid) (i : Fin (n + 1))
    (c : Change (oid i)) : Option (Database oid) := do
  let x ← c.apply (keys i) (d i)
  return Function.update d i x

end Database

inductive Operation (oid : ∀ i, α i → Nat) where
  | change (i : Fin (n + 1)) (c : Change (oid i))
  | command (c : Command)

def Operation.apply (keys : ∀ i, List (α i → κ i)) (d : Database oid) :
    Operation oid → Option (Database oid)
  | .change i c => d.change keys i c
  | .command c => d.command keys c

/-- The objects of all tables. -/
abbrev Whole (α : Fin (n + 1) → Type) := ∀ i, Contents (α i)

def Operation.specified (keys : ∀ i, List (α i → κ i)) (s : Stack (Whole α)) :
    Operation oid → Option (Stack (Whole α))
  | .change i c => do
      let objects ← c.specified (keys i) (s.current i)
      return { s with current := Function.update s.current i objects }
  | .command c => c.specified s

/-! ### The stack of one table -/

/-- What a stack of whole states says about one table. -/
def tableOf (s : Stack (Whole α)) (i : Fin (n + 1)) : Stack (Contents (α i)) where
  current := s.current i
  saved := s.saved.map fun w => w i
  revision := s.revision

theorem stack_ext {s t : Stack (Whole α)} (h : ∀ i, tableOf s i = tableOf t i) : s = t := by
  have hcurrent : s.current = t.current := by
    funext i
    exact congrArg Stack.current (h i)
  have hsaved : s.saved = t.saved := by
    have hmap : ∀ i, (s.saved.map fun w => w i) = t.saved.map fun w => w i := fun i =>
      congrArg Stack.saved (h i)
    have hlength : s.saved.length = t.saved.length := by
      have hzero := congrArg List.length (hmap 0)
      rwa [List.length_map, List.length_map] at hzero
    refine List.ext_getElem hlength ?_
    intro k hk hk'
    funext i
    have hget : (s.saved.map fun w => w i)[k]? = (t.saved.map fun w => w i)[k]? := by
      rw [hmap i]
    rw [List.getElem?_map, List.getElem?_map, List.getElem?_eq_getElem hk,
      List.getElem?_eq_getElem hk'] at hget
    exact Option.some.inj hget
  have hrevision : s.revision = t.revision := by
    have hzero := congrArg Stack.revision (h 0)
    exact hzero
  cases s
  cases t
  simp only at hcurrent hsaved hrevision
  rw [hcurrent, hsaved, hrevision]

theorem at_undo (s : Stack (Whole α)) (i : Fin (n + 1)) : tableOf s.undo i = (tableOf s i).undo := by
  cases hs : s.saved with
  | nil => simp [Stack.undo, tableOf, hs]
  | cons w saved => simp [Stack.undo, tableOf, hs]

theorem at_undoTimes (s : Stack (Whole α)) (k : Nat) (i : Fin (n + 1)) :
    tableOf (s.undoTimes k) i = (tableOf s i).undoTimes k := by
  induction k generalizing s with
  | zero => rfl
  | succ k ih => rw [Stack.undoTimes, ih, at_undo, Stack.undoTimes]

/-- A command on the whole is the command on each table. -/
theorem at_specified (s : Stack (Whole α)) (c : Command) (i : Fin (n + 1)) :
    (c.specified s).map (fun t => tableOf t i) = c.specified (tableOf s i) := by
  cases c with
  | startUndoSession enabled =>
      cases enabled with
      | false => rfl
      | true => rfl
  | undo => exact congrArg some (at_undo s i)
  | undoAll =>
      have hlength : (tableOf s i).saved.length = s.saved.length := List.length_map _
      simp only [Command.specified, hlength, Option.map_some]
      exact congrArg some (at_undoTimes s _ i)
  | squash =>
      cases hs : s.saved with
      | nil => simp [Command.specified, squashed, tableOf, hs]
      | cons w saved => simp [Command.specified, squashed, tableOf, hs]
  | squashFast =>
      cases hs : s.saved with
      | nil => simp [Command.specified, squashed, tableOf, hs]
      | cons w saved => simp [Command.specified, squashed, tableOf, hs]
  | lastUndoSession => rfl
  | commit revision => simp [Command.specified, Stack.commit, tableOf, List.map_take]
  | setRevision revision =>
      have hnil : (tableOf s i).saved = [] ↔ s.saved = [] := by simp [tableOf]
      have hsame : (tableOf s i).revision = s.revision := rfl
      by_cases hhigh : 2 ^ 63 ≤ revision
      · simp only [Command.specified, if_pos hhigh, Option.map_none]
      · by_cases hbad : s.saved ≠ [] ∨ revision < s.revision
        · have hbad' : (tableOf s i).saved ≠ [] ∨ revision < (tableOf s i).revision :=
            hbad.imp_left (mt hnil.mp)
          simp only [Command.specified, if_neg hhigh, Stack.setRevision, if_pos hbad, if_pos hbad',
            Option.map_none]
        · have hbad' : ¬ ((tableOf s i).saved ≠ [] ∨ revision < (tableOf s i).revision) :=
            fun h => hbad (h.imp_left (mt hnil.mpr))
          simp only [Command.specified, if_neg hhigh, Stack.setRevision, if_neg hbad,
            if_neg hbad', Option.map_some]
          rfl

/-! ### The stack of a database -/

def savedFrom (keys : ∀ i, List (α i → κ i)) : Nat → Database oid → List (Whole α)
  | 0, _ => []
  | k + 1, d =>
      (fun i => contents (undo (keys i) (d i))) ::
        savedFrom keys k fun i => undo (keys i) (d i)

/-- What `undo` of the database leads to, one time after the other. -/
def stackOf (keys : ∀ i, List (α i → κ i)) (d : Database oid) : Stack (Whole α) where
  current := fun i => contents (d i)
  saved := savedFrom keys (d 0).undoStack.length d
  revision := d.revision

/-- All tables are sound, and have as many sessions and the same revision. -/
structure Level (keys : ∀ i, List (α i → κ i)) (d : Database oid) : Prop where
  sound : ∀ i, Sound (keys i) (d i)
  length : ∀ i, (d i).undoStack.length = (d 0).undoStack.length
  revision : ∀ i, (d i).revision = (d 0).revision

theorem map_savedFrom (k : Nat) (d : Database oid) (i : Fin (n + 1)) :
    ((savedFrom keys k d).map fun w => w i) = UndoRuns.savedFrom (keys i) k (d i) := by
  induction k generalizing d with
  | zero => rfl
  | succ k ih => rw [savedFrom, List.map_cons, ih, UndoRuns.savedFrom]

theorem Level.at_stackOf {d : Database oid} (h : Level keys d) (i : Fin (n + 1)) :
    tableOf (stackOf keys d) i = UndoRuns.stackOf (keys i) (d i) := by
  simp only [tableOf, stackOf, UndoRuns.stackOf, map_savedFrom, h.length i, Database.revision,
    h.revision i]

theorem level_empty : Level keys (fun _ => .empty : Database oid) := by
  refine ⟨?_, fun _ => rfl, fun _ => rfl⟩
  intro i
  refine .flat rfl ⟨?_, ?_, ?_, le_refl _⟩
  · exact fun m hm => absurd hm List.not_mem_nil
  · exact fun m hm => absurd hm List.not_mem_nil
  · exact fun m hm => absurd hm List.not_mem_nil

theorem command_refines {d : Database oid} (h : Level keys d) (c : Command) :
    (d.command keys c).map (stackOf keys) = c.specified (stackOf keys d) ∧
      ∀ e, d.command keys c = some e → Level keys e := by
  have htables : ∀ i, (c.specified (stackOf keys d)).map (fun t => tableOf t i) =
      (c.apply (keys i) (d i)).map (UndoRuns.stackOf (keys i)) := by
    intro i
    rw [at_specified, h.at_stackOf, (UndoRuns.command_refines (h.sound i) c).1]
  by_cases hall : ∀ i, (c.apply (keys i) (d i)).isSome = true
  · have hcommand : d.command keys c = some fun i => (c.apply (keys i) (d i)).get (hall i) :=
      dif_pos hall
    have hget : ∀ i, c.apply (keys i) (d i) = some ((c.apply (keys i) (d i)).get (hall i)) :=
      fun i => (Option.some_get (hall i)).symm
    rw [hcommand]
    generalize hd : (fun i => (c.apply (keys i) (d i)).get (hall i)) = e
    have happly : ∀ i, c.apply (keys i) (d i) = some (e i) := by
      intro i
      rw [hget i, ← hd]
    obtain ⟨T, hT, hzero⟩ : ∃ T, c.specified (stackOf keys d) = some T ∧
        tableOf T 0 = UndoRuns.stackOf (keys 0) (e 0) := by
      have hzero := htables 0
      rw [happly 0, Option.map_some, Option.map_eq_some_iff] at hzero
      exact hzero
    have hparts : ∀ i, tableOf T i = UndoRuns.stackOf (keys i) (e i) := by
      intro i
      have hi := htables i
      rw [hT, happly i, Option.map_some, Option.map_some] at hi
      exact Option.some.inj hi
    have hlength : ∀ i, (e i).undoStack.length = T.saved.length := by
      intro i
      have hi := congrArg (fun s => s.saved.length) (hparts i)
      simp only [tableOf, List.length_map, UndoRuns.stackOf, length_savedFrom] at hi
      exact hi.symm
    have hrevision : ∀ i, (e i).revision = T.revision := fun i =>
      (congrArg Stack.revision (hparts i)).symm
    have hlevel : Level keys e := by
      refine ⟨?_, ?_, ?_⟩
      · exact fun i => (UndoRuns.command_refines (h.sound i) c).2 (e i) (happly i)
      · exact fun i => (hlength i).trans (hlength 0).symm
      · exact fun i => (hrevision i).trans (hrevision 0).symm
    refine ⟨?_, fun e' he' => Option.some.inj he' ▸ hlevel⟩
    rw [hT, Option.map_some]
    refine congrArg some (stack_ext fun i => ?_)
    rw [hlevel.at_stackOf, hparts]
  · have hcommand : d.command keys c = none := dif_neg hall
    obtain ⟨i, hi⟩ := not_forall.mp hall
    have hnone : c.apply (keys i) (d i) = none := by simpa using hi
    have hspec := htables i
    rw [hnone, Option.map_none, Option.map_eq_none_iff] at hspec
    rw [hcommand, hspec]
    exact ⟨rfl, fun e he => absurd he (by simp)⟩

theorem change_refines {d : Database oid} (h : Level keys d) (i : Fin (n + 1))
    (c : Change (oid i)) :
    (d.change keys i c).map (stackOf keys) =
        (Operation.change i c).specified keys (stackOf keys d) ∧
      ∀ e, d.change keys i c = some e → Level keys e := by
  obtain ⟨hcontents, hkeeps⟩ := UndoRuns.change_refines (h.sound i) c
  have hspec : (Operation.change i c).specified keys (stackOf keys d) =
      ((c.apply (keys i) (d i)).map contents).bind fun objects =>
        some { stackOf keys d with
          current := Function.update (stackOf keys d).current i objects } := by
    rw [hcontents]
    rfl
  rw [hspec]
  cases happly : c.apply (keys i) (d i) with
  | none => simp [Database.change, happly]
  | some x =>
      have hx : Keeps (keys i) (d i) x := hkeeps x happly
      have hchange : d.change keys i c = some (Function.update d i x) := by
        simp [Database.change, happly]
      have hsame : ∀ j, (Function.update d i x j).undoStack.length = (d j).undoStack.length ∧
          (Function.update d i x j).revision = (d j).revision ∧
          Sound (keys j) (Function.update d i x j) := by
        intro j
        by_cases hj : j = i
        · subst hj
          rw [Function.update_self]
          exact ⟨hx.length, hx.revision, hx.sound⟩
        · rw [Function.update_of_ne hj]
          exact ⟨rfl, rfl, h.sound j⟩
      have hlevel : Level keys (Function.update d i x) := by
        refine ⟨fun j => (hsame j).2.2, ?_, ?_⟩
        · intro j
          rw [(hsame j).1, (hsame 0).1, h.length j]
        · intro j
          rw [(hsame j).2.1, (hsame 0).2.1, h.revision j]
      rw [hchange]
      refine ⟨?_, fun e he => Option.some.inj he ▸ hlevel⟩
      simp only [Option.map_some, Option.bind_some]
      refine congrArg some (stack_ext fun j => ?_)
      rw [hlevel.at_stackOf]
      have hbefore := h.at_stackOf j
      by_cases hj : j = i
      · subst hj
        rw [Function.update_self, stackOf_of_keeps hx, ← hbefore]
        simp [tableOf]
      · rw [Function.update_of_ne hj, ← hbefore]
        simp [tableOf, Function.update_of_ne hj]

theorem step_refines {d : Database oid} (h : Level keys d) (op : Operation oid) :
    (op.apply keys d).map (stackOf keys) = op.specified keys (stackOf keys d) ∧
      ∀ e, op.apply keys d = some e → Level keys e := by
  cases op with
  | change i c => exact change_refines h i c
  | command c => exact command_refines h c

theorem run_refines {d : Database oid} (h : Level keys d) (operations : List (Operation oid)) :
    (operations.foldlM (Operation.apply keys) d).map (stackOf keys) =
        operations.foldlM (Operation.specified keys) (stackOf keys d) ∧
      ∀ e, operations.foldlM (Operation.apply keys) d = some e → Level keys e := by
  induction operations generalizing d with
  | nil =>
      refine ⟨rfl, ?_⟩
      intro e he
      exact Option.some.inj he ▸ h
  | cons op rest ih =>
      obtain ⟨hstep, hlevel⟩ := step_refines h op
      rw [List.foldlM_cons, List.foldlM_cons, ← hstep]
      cases happly : op.apply keys d with
      | none => exact ⟨rfl, fun e he => absurd he (by simp)⟩
      | some d₁ => exact ih (hlevel d₁ happly)

/-- Every run of a database of tables with undo stacks is the run of one stack of whole states. -/
theorem database_is_a_stack (keys : ∀ i, List (α i → κ i)) (operations : List (Operation oid)) :
    (operations.foldlM (Operation.apply keys) fun _ => .empty).map (stackOf keys) =
      operations.foldlM (Operation.specified keys) { current := fun _ => {} } :=
  (run_refines level_empty operations).1

/-- In every run the table at the start of a session consists of the nodes older than it, which are
in the table or recorded; an old value belongs to a node that exists, a removed node is not in the
table, and no two objects have a key in common. -/
theorem undo_restores_all {operations : List (Operation oid)} {d : Database oid}
    (h : (operations.foldlM (Operation.apply keys) fun _ => .empty) = some d) {i : Fin (n + 1)}
    {s : UndoState (α i)} {rest : List (UndoState (α i))} (hs : (d i).undoStack = s :: rest) :
    (∀ m, m ∈ (undo (keys i) (d i)).indices.rows ↔
      m.mtime < s.ctime ∧
        (m ∈ s.oldValues ∨ m ∈ (d i).indices.rows ∨ m ∈ s.removedValues)) ∧
    (∀ v ∈ s.oldValues, v.mtime < s.ctime → ∃ m,
      (m ∈ (d i).indices.rows ∨ m ∈ s.removedValues) ∧ oid i m.item = oid i v.item) ∧
    (∀ m ∈ s.removedValues, (d i).indices.find? (oid i m.item) = none) ∧
    (∀ a ∈ (d i).indices.rows, ∀ b ∈ (d i).indices.rows, oid i a.item ≠ oid i b.item →
      sameKey (keys i) a.item b.item = false) := by
  have hlevel := (run_refines level_empty operations).2 d h
  have hsound := hlevel.sound i
  obtain ⟨hrecorded, -, -⟩ := hsound.session hs
  refine ⟨fun m => mem_undo hs hrecorded, ?_, hrecorded.apart, hsound.fit.unique⟩
  intro v hv hlt
  exact (hrecorded.placed ⟨hlt, .inl hv⟩).2

/-- A pair of an id and a key. -/
def put (key : Nat) : Constructor (Prod.fst : Nat × Nat → Nat) :=
  ⟨fun id => (id, key), fun _ => rfl⟩

def rekey (key : Nat) : Modifier (Prod.fst : Nat × Nat → Nat) :=
  ⟨fun p => (p.1, key), fun _ => rfl⟩

/-- Two sessions become one, in which one pair has changed its key and another one is removed. -/
def pairOperations : List (Operation fun _ : Fin 1 => (Prod.fst : Nat × Nat → Nat)) :=
  [.change 0 (.emplace (put 5)), .change 0 (.emplace (put 6)), .change 0 (.emplace (put 7)),
    .command (.startUndoSession true), .change 0 (.modify 0 (rekey 8)), .change 0 (.remove 1),
    .command (.startUndoSession true), .change 0 (.modify 0 (rekey 6)),
    .change 0 (.emplace (put 5)), .command .squash]

theorem pairOperations_restored :
    ∃ (d : Database fun _ : Fin 1 => (Prod.fst : Nat × Nat → Nat)) (s : UndoState (Nat × Nat))
      (rest : List (UndoState (Nat × Nat))),
      (pairOperations.foldlM (Operation.apply fun _ => [Prod.snd]) fun _ => .empty) = some d ∧
        (d 0).undoStack = s :: rest ∧
        (undo [Prod.snd] (d 0)).indices.rows = [⟨(0, 5), 0⟩, ⟨(1, 6), 0⟩, ⟨(2, 7), 0⟩] ∧
        ∀ m, m ∈ (undo [Prod.snd] (d 0)).indices.rows ↔
          m.mtime < s.ctime ∧
            (m ∈ s.oldValues ∨ m ∈ (d 0).indices.rows ∨ m ∈ s.removedValues) := by
  have hrun : (pairOperations.foldlM (Operation.apply fun _ : Fin 1 => [Prod.snd])
      fun _ => .empty).any (fun d => (d 0).undoStack ≠ [] ∧
        (undo [Prod.snd] (d 0)).indices.rows = [⟨(0, 5), 0⟩, ⟨(1, 6), 0⟩, ⟨(2, 7), 0⟩]) =
        true := by
    decide +kernel
  obtain ⟨d, hd, hstate⟩ := (Option.any_eq_true _ _).mp hrun
  obtain ⟨hne, hrows⟩ := of_decide_eq_true hstate
  obtain ⟨s, rest, hs⟩ := List.exists_cons_of_ne_nil hne
  exact ⟨d, s, rest, hd, hs, hrows, (undo_restores_all hd hs).1⟩

end Eden.UndoDatabase
