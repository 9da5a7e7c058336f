import Eden.UndoSteps

/-!
A table with an undo stack against a stack of whole tables: every run of operations gives the same.
-/

namespace Eden.UndoRuns

open Eden.SortedTable
open Eden.UndoStack
open Eden.UndoTables
open Eden.UndoSessions
open Eden.UndoSteps

variable {α κ : Type} {oid : α → Nat} [DecidableEq κ] {keys : List (α → κ)}
variable {x y : UndoIndex oid}

/-! ### The specification -/

/-- What can be seen of a table: its objects in the order of their ids, and the next id. -/
structure Contents (α : Type) where
  objects : List α := []
  nextId : Nat := 0
  deriving DecidableEq, Repr

namespace Contents

/-- Whether another object has a key of an object. -/
def clashes (keys : List (α → κ)) (oid : α → Nat) (c : Contents α) (item : α) : Bool :=
  c.objects.any fun a => oid a ≠ oid item && sameKey keys a item

def emplace (keys : List (α → κ)) (c : Contents α) (k : Constructor oid) : Option (Contents α) :=
  if c.clashes keys oid (k.make c.nextId) then none
  else some ⟨c.objects ++ [k.make c.nextId], c.nextId + 1⟩

def modify (keys : List (α → κ)) (c : Contents α) (i : Nat) (m : Modifier oid) :
    Option (Contents α) := do
  let a ← c.objects.find? fun a => oid a = i
  if c.clashes keys oid (m.apply a) then none
  else some { c with objects := c.objects.map fun a => if oid a = i then m.apply a else a }

def remove (oid : α → Nat) (c : Contents α) (i : Nat) : Option (Contents α) := do
  let _ ← c.objects.find? fun a => oid a = i
  return { c with objects := c.objects.filter fun a => oid a ≠ i }

end Contents

/-- The last session becomes a part of the one before. -/
def squashed {δ : Type} (s : Stack δ) : Stack δ :=
  match s.saved with
  | [] => s
  | _ :: saved => { s with saved, revision := s.revision - 1 }

/-- A change of the objects of a table. -/
inductive Change (oid : α → Nat) where
  | emplace (c : Constructor oid)
  | modify (i : Nat) (m : Modifier oid)
  | remove (i : Nat)

/-- An operation on the undo stack. -/
inductive Command where
  | startUndoSession (enabled : Bool)
  | undo
  | undoAll
  | squash
  | squashFast
  | lastUndoSession
  | commit (revision : Nat)
  | setRevision (revision : Nat)

def Change.apply (keys : List (α → κ)) (x : UndoIndex oid) : Change oid → Option (UndoIndex oid)
  | .emplace c => UndoTables.emplace keys x c
  | .modify i m => if (UndoTables.modify keys x i m).2 then some (UndoTables.modify keys x i m).1
      else none
  | .remove i => removeObject x i

def Change.specified (keys : List (α → κ)) (c : Contents α) : Change oid → Option (Contents α)
  | .emplace k => c.emplace keys k
  | .modify i m => c.modify keys i m
  | .remove i => c.remove oid i

def Command.apply (keys : List (α → κ)) (x : UndoIndex oid) : Command → Option (UndoIndex oid)
  | .startUndoSession enabled => some (UndoTables.startUndoSession x enabled)
  | .undo => some (UndoTables.undo keys x)
  | .undoAll => some (UndoTables.undoAll keys x)
  | .squash => some (UndoTables.squash x)
  | .squashFast => some (UndoTables.squashFast x)
  | .lastUndoSession => some (compressLastUndoSession x)
  | .commit revision => some (UndoTables.commit x revision)
  | .setRevision revision => UndoTables.setRevision x revision

def Command.specified {δ : Type} (s : Stack δ) : Command → Option (Stack δ)
  | .startUndoSession enabled => some (s.startUndoSession enabled)
  | .undo => some s.undo
  | .undoAll => some (s.undoTimes s.saved.length)
  | .squash => some (squashed s)
  | .squashFast => some (squashed s)
  | .lastUndoSession => some s
  | .commit revision => some (s.commit revision)
  | .setRevision revision => if 2 ^ 63 ≤ revision then none else s.setRevision revision

/-! ### The stack that a table stands for -/

def contents (x : UndoIndex oid) : Contents α := ⟨x.indices.rows.map Node.item, x.nextId⟩

/-- What `undo` leads to, one time after the other. -/
def savedFrom (keys : List (α → κ)) : Nat → UndoIndex oid → List (Contents α)
  | 0, _ => []
  | n + 1, x => contents (undo keys x) :: savedFrom keys n (undo keys x)

def stackOf (keys : List (α → κ)) (x : UndoIndex oid) : Stack (Contents α) where
  current := contents x
  saved := savedFrom keys x.undoStack.length x
  revision := x.revision

theorem length_savedFrom (n : Nat) (x : UndoIndex oid) : (savedFrom keys n x).length = n := by
  induction n generalizing x with
  | zero => rfl
  | succ n ih => rw [savedFrom, List.length_cons, ih]

theorem saved_eq_nil : (stackOf keys x).saved = [] ↔ x.undoStack = [] := by
  rw [← List.length_eq_zero_iff, ← List.length_eq_zero_iff, stackOf, length_savedFrom]

/-- A change is one of the current table only. -/
theorem stackOf_of_keeps (h : Keeps keys x y) :
    stackOf keys y = { stackOf keys x with current := contents y } := by
  have hsaved : savedFrom keys y.undoStack.length y = savedFrom keys x.undoStack.length x := by
    rw [h.length]
    cases hlength : x.undoStack.length with
    | zero => rfl
    | succ n =>
        have hne : x.undoStack ≠ [] := by
          intro hnil
          rw [hnil] at hlength
          exact absurd hlength (by simp)
        rw [savedFrom, savedFrom, h.undone hne]
  simp only [stackOf, hsaved, h.revision]

/-! ### Changes -/

theorem clashes_contents (x : UndoIndex oid) (item : α) :
    (contents x).clashes keys oid item = UndoTables.clashes keys x.indices item := by
  simp only [Contents.clashes, UndoTables.clashes, contents, List.any_map]
  rfl

theorem find?_contents (x : UndoIndex oid) (i : Nat) :
    (contents x).objects.find? (fun a => oid a = i) = (x.indices.find? i).map Node.item := by
  simp only [contents, Table.find?, List.find?_map]
  rfl

theorem contents_emplace (hsound : Sound keys x) (c : Constructor oid) :
    (UndoTables.emplace keys x c).map contents = (contents x).emplace keys c := by
  have hnew : x.indices.find? (oid (c.make x.nextId)) = none := by
    rw [Table.find?_eq_none]
    intro n hn
    have hlt := hsound.fit.below n hn
    have hid : oid (c.make x.nextId) = x.nextId := c.keeps x.nextId
    omega
  cases hclash : UndoTables.clashes keys x.indices (c.make x.nextId) with
  | true =>
      have hspec : (contents x).clashes keys oid (c.make (contents x).nextId) = true :=
        (clashes_contents x _).trans hclash
      rw [Contents.emplace, if_pos hspec]
      simp [UndoTables.emplace, insertImpl, hclash]
  | false =>
      have hspec : ¬ (contents x).clashes keys oid (c.make (contents x).nextId) = true := by
        rw [clashes_contents]
        exact Bool.not_eq_true _ ▸ hclash
      obtain ⟨y, hy⟩ : ∃ y, UndoTables.emplace keys x c = some y := by
        have hfree := clashes_eq_false.mp hclash
        obtain ⟨u, hu⟩ := insertImpl_isSome keys
          (n := ⟨c.make x.nextId, if x.undoStack = [] then 0 else x.monotonicRevision⟩) hnew hfree
        refine ⟨{ x with indices := u, nextId := x.nextId + 1 }, ?_⟩
        simp [UndoTables.emplace, hu]
      obtain ⟨mtime, hrows, -, -, -, -, hnextId, -⟩ := emplace_rows hsound.fit hy
      rw [Contents.emplace, if_neg hspec, hy, Option.map_some, contents, hrows, hnextId,
        List.map_append, List.map_singleton]
      rfl

theorem contents_remove (x : UndoIndex oid) (i : Nat) :
    (removeObject x i).map contents = (contents x).remove oid i := by
  rw [Contents.remove, find?_contents]
  cases hn : x.indices.find? i with
  | none => simp [removeObject, hn]
  | some n =>
      simp only [removeObject, hn, Option.map_some, Option.bind_eq_bind, Option.bind_some,
        Option.pure_def, Option.some.injEq, contents, UndoTables.remove, Table.erase,
        Table.key_of_find? hn, List.filter_map, Contents.mk.injEq, and_true]
      rfl

theorem contents_modify (x : UndoIndex oid) (i : Nat) (m : Modifier oid) :
    ((Change.modify i m).apply keys x).map contents = (contents x).modify keys i m := by
  rw [Contents.modify, find?_contents, Change.apply]
  cases hn : x.indices.find? i with
  | none => simp [UndoTables.modify, hn]
  | some n =>
      simp only [Option.map_some, Option.bind_eq_bind, Option.bind_some, clashes_contents,
        modify_snd hn]
      cases hclash : UndoTables.clashes keys x.indices (m.apply n.item) with
      | true => rfl
      | false =>
          have hsnd : (UndoTables.modify keys x i m).2 = true := by
            rw [modify_snd hn, hclash]
            rfl
          obtain ⟨n', hn', -, hmodified⟩ := modify_eq_true
            (Prod.ext rfl hsnd : UndoTables.modify keys x i m = (_, true))
          obtain rfl : n = n' := Option.some.inj (hn.symm.trans hn')
          obtain ⟨⟨mtime, hindices⟩, hnextId⟩ := hmodified.rows
          simp only [Bool.not_false, if_true, Option.map_some, Option.some.injEq, contents,
            hindices, hnextId, Bool.false_eq_true, if_false, Contents.mk.injEq, and_true]
          simp only [Table.replace, Table.update, List.map_map]
          apply List.map_congr_left
          intro a ha
          have hkey : oid n.item = i := (Table.find?_eq_some.mp hn).2
          have hid : oid (m.apply n.item) = i := (m.keeps n.item).trans hkey
          simp only [Function.comp_apply, hid]
          by_cases heq : oid a.item = i
          · have han : a = n :=
              Table.eq_of_key_eq ha (Table.mem_of_find? hn) (heq.trans hkey.symm)
            rw [if_pos heq, if_pos heq, han]
          · rw [if_neg heq, if_neg heq]

/-- A change of a sound table is the change of its contents, and the stack below stays. -/
theorem change_refines (hsound : Sound keys x) (c : Change oid) :
    (c.apply keys x).map contents = c.specified keys (contents x) ∧
      ∀ y, c.apply keys x = some y → Keeps keys x y := by
  cases c with
  | emplace k => exact ⟨contents_emplace hsound k, fun y hy => emplace_keeps hsound hy⟩
  | modify i m =>
      refine ⟨contents_modify x i m, ?_⟩
      intro y hy
      rw [Change.apply] at hy
      split at hy
      · rename_i hsnd
        rw [← Option.some.inj hy]
        exact modify_keeps hsound (Prod.ext rfl hsnd : UndoTables.modify keys x i m = (_, true))
      · exact absurd hy (by simp)
  | remove i => exact ⟨contents_remove x i, fun y hy => removeObject_keeps hsound hy⟩

/-! ### Commands -/

theorem undo_later (m : Nat) (x : UndoIndex oid) :
    UndoTables.undo keys { x with monotonicRevision := m } =
      { UndoTables.undo keys x with monotonicRevision := m } := by
  cases hx : x.undoStack with
  | nil => simp [UndoTables.undo, hx]
  | cons s rest => simp [UndoTables.undo, hx]

theorem savedFrom_later (n m : Nat) (x : UndoIndex oid) :
    savedFrom keys n { x with monotonicRevision := m } = savedFrom keys n x := by
  induction n generalizing x with
  | zero => rfl
  | succ n ih =>
      rw [savedFrom, savedFrom, undo_later]
      exact congrArg (contents (UndoTables.undo keys x) :: ·) (ih (UndoTables.undo keys x))

/-- Undo states that are given up are not missed before their turn. -/
theorem savedFrom_take (k n : Nat) (x : UndoIndex oid) (hk : k ≤ n) :
    savedFrom keys k { x with undoStack := x.undoStack.take k } =
      (savedFrom keys n x).take k := by
  induction k generalizing n x with
  | zero => rfl
  | succ k ih =>
      cases n with
      | zero => exact absurd hk (by simp)
      | succ n =>
          have hundo : UndoTables.undo keys { x with undoStack := x.undoStack.take (k + 1) } =
              { UndoTables.undo keys x with
                undoStack := (UndoTables.undo keys x).undoStack.take k } := by
            cases hx : x.undoStack with
            | nil => simp [UndoTables.undo, hx]
            | cons s rest => simp [UndoTables.undo, hx]
          rw [savedFrom, savedFrom, List.take_succ_cons, hundo]
          exact congrArg (contents (UndoTables.undo keys x) :: ·)
            (ih n (UndoTables.undo keys x) (Nat.le_of_succ_le_succ hk))

theorem stackOf_startUndoSession (hsound : Sound keys x) (enabled : Bool) :
    stackOf keys (UndoTables.startUndoSession x enabled) =
      (stackOf keys x).startUndoSession enabled := by
  cases enabled with
  | false => rfl
  | true =>
      have hundo := undo_addSession hsound
      have hsaved : savedFrom keys (x.undoStack.length + 1) (addSession x) =
          contents x :: savedFrom keys x.undoStack.length x := by
        rw [savedFrom, hundo, savedFrom_later]
        rfl
      simp only [UndoTables.startUndoSession, if_true, stackOf, Stack.startUndoSession]
      exact congrArg (fun saved => (⟨contents x, saved, x.revision + 1⟩ : Stack (Contents α)))
        hsaved

theorem stackOf_undo (x : UndoIndex oid) :
    stackOf keys (UndoTables.undo keys x) = (stackOf keys x).undo := by
  cases hx : x.undoStack with
  | nil =>
      have hsame : UndoTables.undo keys x = x := by
        simp only [UndoTables.undo, hx]
      rw [hsame]
      simp [Stack.undo, stackOf, hx, savedFrom]
  | cons s rest =>
      have hlength : (UndoTables.undo keys x).undoStack.length = rest.length := by
        rw [undo_undoStack hx]
      have hrevision : (UndoTables.undo keys x).revision = x.revision - 1 := by
        simp [UndoTables.undo, hx]
      simp only [stackOf, Stack.undo, hlength, hrevision, hx, List.length_cons, savedFrom]

theorem stackOf_undoTimes (x : UndoIndex oid) (n : Nat) :
    stackOf keys (UndoTables.undoTimes keys x n) = (stackOf keys x).undoTimes n := by
  induction n generalizing x with
  | zero => rfl
  | succ n ih => rw [UndoTables.undoTimes, ih, stackOf_undo, Stack.undoTimes]

theorem stackOf_commit (x : UndoIndex oid) (revision : Nat) :
    stackOf keys (UndoTables.commit x revision) = (stackOf keys x).commit revision := by
  rw [commit_eq]
  simp only [stackOf, Stack.commit, List.length_take]
  have hmin : min (x.revision - min revision x.revision) x.undoStack.length ≤
      x.undoStack.length := min_le_right _ _
  have htake : ∀ k, x.undoStack.take k = x.undoStack.take (min k x.undoStack.length) := by
    intro k
    rcases le_total k x.undoStack.length with hle | hle
    · rw [min_eq_left hle]
    · rw [min_eq_right hle, List.take_of_length_le hle, List.take_length]
  have hsaved : ∀ k, (savedFrom keys x.undoStack.length x).take k =
      (savedFrom keys x.undoStack.length x).take (min k x.undoStack.length) := by
    intro k
    rcases le_total k x.undoStack.length with hle | hle
    · rw [min_eq_left hle]
    · rw [min_eq_right hle, List.take_of_length_le (by rwa [length_savedFrom]),
        List.take_of_length_le (by rw [length_savedFrom])]
  rw [htake, hsaved, savedFrom_take _ _ x hmin]
  rfl

/-- Both ways to squash give the table with one session less. -/
theorem squash_refines (hsound : Sound keys x) {y : UndoIndex oid}
    (hy : y = UndoTables.squash x ∨ y = UndoTables.squashFast x) :
    Sound keys y ∧ stackOf keys y = squashed (stackOf keys x) := by
  cases hx : x.undoStack with
  | nil =>
      have hsame : y = x := by
        rcases hy with rfl | rfl
        · simp only [UndoTables.squash, UndoTables.squashFast, hx]
        · simp only [UndoTables.squashFast, hx]
      subst hsame
      refine ⟨hsound, ?_⟩
      simp [squashed, stackOf, hx, savedFrom]
  | cons s rest =>
      cases rest with
      | nil =>
          have hsame : y = { x with undoStack := [], revision := x.revision - 1 } := by
            rcases hy with rfl | rfl
            · simp only [UndoTables.squash, UndoTables.squashFast, hx]
            · simp only [UndoTables.squashFast, hx]
          subst hsame
          have hfit := hsound.fit
          refine ⟨.flat rfl ⟨hfit.below, hfit.past, hfit.unique, Nat.zero_le _⟩, ?_⟩
          simp [squashed, stackOf, hx, savedFrom, contents]
      | cons r rest =>
          obtain ⟨hrecorded, hwithin, hundo⟩ := hsound.session hx
          have hu : (UndoTables.undo keys x).undoStack = r :: rest := undo_undoStack hx
          obtain ⟨hrecordedu, -, -⟩ := hundo.session hu
          have hctime : r.ctime ≤ s.ctime := hwithin.nested r List.mem_cons_self
          obtain ⟨s', hcompressed, hyeq⟩ : ∃ s',
              Compressed x.indices r.ctime r.oldNextId s s' ∧
                y = { x with undoStack := merged s' r :: rest, revision := x.revision - 1 } := by
            rcases hy with rfl | rfl
            · refine ⟨compressState oid r.ctime r.oldNextId s, ?_, ?_⟩
              · refine compressed_compressState hrecorded hctime ?_
                intro n hlt hn
                have hmem := (mem_undo hx hrecorded).mpr ⟨hlt.trans_le hctime, hn⟩
                exact (hrecordedu.placed ⟨hlt, .inr (.inl hmem)⟩).1
              · simp only [UndoTables.squash, UndoTables.squashFast, hx, merged]
            · refine ⟨s, .refl hrecorded _ _, ?_⟩
              simp only [UndoTables.squashFast, hx, merged]
          obtain ⟨hsoundy, hsame⟩ := squashed_sound hsound hx hcompressed hyeq
          refine ⟨hsoundy, ?_⟩
          have hlength : y.undoStack.length = rest.length + 1 := by
            rw [hyeq, List.length_cons]
          have hcontents : contents y = contents x := by
            rw [hyeq]
            rfl
          have hrevision : y.revision = x.revision - 1 := by rw [hyeq]
          simp only [squashed, stackOf, hlength, hx, List.length_cons, savedFrom, hsame, hcontents,
            hrevision]

theorem setRevision_refines (hsound : Sound keys x) (revision : Nat) :
    (UndoTables.setRevision x revision).map (stackOf keys) =
        (Command.setRevision revision).specified (stackOf keys x) ∧
      ∀ y, UndoTables.setRevision x revision = some y → Sound keys y := by
  have hnil : (stackOf keys x).saved ≠ [] ↔ x.undoStack ≠ [] := not_congr saved_eq_nil
  by_cases hhigh : 2 ^ 63 ≤ revision
  · have hcode : x.undoStack ≠ [] ∨ 2 ^ 63 ≤ revision ∨ revision < x.revision :=
      .inr (.inl hhigh)
    rw [UndoTables.setRevision, if_pos hcode, Command.specified, if_pos hhigh]
    exact ⟨rfl, fun y hy => absurd hy (by simp)⟩
  · by_cases hbad : x.undoStack ≠ [] ∨ revision < x.revision
    · have hspec : (stackOf keys x).saved ≠ [] ∨ revision < (stackOf keys x).revision :=
        hbad.imp_left hnil.mpr
      have hcode : x.undoStack ≠ [] ∨ 2 ^ 63 ≤ revision ∨ revision < x.revision :=
        hbad.imp_right .inr
      rw [UndoTables.setRevision, if_pos hcode, Command.specified, if_neg hhigh,
        Stack.setRevision, if_pos hspec]
      exact ⟨rfl, fun y hy => absurd hy (by simp)⟩
    · have hspec : ¬ ((stackOf keys x).saved ≠ [] ∨ revision < (stackOf keys x).revision) := by
        rintro (hne | hlt)
        · exact hbad (.inl (hnil.mp hne))
        · exact hbad (.inr hlt)
      have hcode : ¬ (x.undoStack ≠ [] ∨ 2 ^ 63 ≤ revision ∨ revision < x.revision) := by
        rintro (hne | hle | hlt)
        · exact hbad (.inl hne)
        · exact hhigh hle
        · exact hbad (.inr hlt)
      rw [UndoTables.setRevision, if_neg hcode, Command.specified, if_neg hhigh,
        Stack.setRevision, if_neg hspec]
      have hflat : x.undoStack = [] := by
        by_contra hne
        exact hbad (.inl hne)
      refine ⟨?_, ?_⟩
      · simp [stackOf, hflat, savedFrom, contents]
      · intro y hy
        rw [← Option.some.inj hy]
        have hfit := hsound.fit
        refine .flat hflat ⟨hfit.below, hfit.past, hfit.unique, ?_⟩
        rw [hflat]
        exact Nat.zero_le _

/-- A command on a sound table is the command on the stack of its states. -/
theorem command_refines (hsound : Sound keys x) (c : Command) :
    (c.apply keys x).map (stackOf keys) = c.specified (stackOf keys x) ∧
      ∀ y, c.apply keys x = some y → Sound keys y := by
  cases c with
  | startUndoSession enabled =>
      refine ⟨congrArg some (stackOf_startUndoSession hsound enabled), ?_⟩
      intro y hy
      rw [← Option.some.inj hy]
      cases enabled with
      | false => exact hsound
      | true => exact addSession_sound hsound
  | undo =>
      refine ⟨congrArg some (stackOf_undo x), ?_⟩
      intro y hy
      rw [← Option.some.inj hy]
      exact undo_sound hsound
  | undoAll =>
      refine ⟨?_, ?_⟩
      · have hlength : (stackOf keys x).saved.length = x.undoStack.length :=
          length_savedFrom _ _
        rw [Command.specified, hlength]
        exact congrArg some (stackOf_undoTimes x _)
      · intro y hy
        rw [← Option.some.inj hy, UndoTables.undoAll]
        exact undoTimes_sound hsound _
  | squash =>
      obtain ⟨hsoundy, hstack⟩ := squash_refines hsound (.inl rfl)
      refine ⟨congrArg some hstack, ?_⟩
      intro y hy
      rw [← Option.some.inj hy]
      exact hsoundy
  | squashFast =>
      obtain ⟨hsoundy, hstack⟩ := squash_refines hsound (.inr rfl)
      refine ⟨congrArg some hstack, ?_⟩
      intro y hy
      rw [← Option.some.inj hy]
      exact hsoundy
  | lastUndoSession =>
      have hkeeps : Keeps keys x (compressLastUndoSession x) := compress_keeps hsound
      have hcontents : contents (compressLastUndoSession x) = contents x := by
        unfold compressLastUndoSession
        split
        · rfl
        · rfl
      refine ⟨?_, ?_⟩
      · rw [Command.apply, Option.map_some, stackOf_of_keeps hkeeps, hcontents]
        rfl
      · intro y hy
        rw [← Option.some.inj hy]
        exact hkeeps.sound
  | commit revision =>
      refine ⟨congrArg some (stackOf_commit x revision), ?_⟩
      intro y hy
      rw [← Option.some.inj hy]
      exact commit_sound hsound revision
  | setRevision revision => exact setRevision_refines hsound revision

end Eden.UndoRuns
