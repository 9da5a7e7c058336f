import Eden.SortedTable
import Eden.UndoStack

/-!
A table of objects with an undo stack. A node carries the revision when its object was last changed;
a session records the old values of nodes older than itself and the nodes removed in it.
-/

namespace Eden.UndoTables

open Eden.SortedTable

variable {α κ : Type} {oid : α → Nat}

/-- `node` and `old_node`: an object, and `_monotonic_revision` when it was last changed. -/
structure Node (α : Type) where
  item : α
  mtime : Nat := 0
  deriving DecidableEq, Repr

/-- The indices; the objects are in the order of their ids. -/
abbrev Rows (oid : α → Nat) := Table fun n : Node α => oid n.item

/-- `undo_state`, with the old and the removed values that were added since it was made, newest
first. An old value belongs to the node with its id (`_current`). -/
structure UndoState (α : Type) where
  oldValues : List (Node α) := []
  removedValues : List (Node α) := []
  oldNextId : Nat
  ctime : Nat
  deriving DecidableEq, Repr

/-- `undo_index`; the last undo state comes first. -/
structure UndoIndex (oid : α → Nat) where
  indices : Rows oid
  undoStack : List (UndoState α) := []
  nextId : Nat := 0
  revision : Nat := 0
  monotonicRevision : Nat := 0

/-- What `emplace` is given: it fills in an object with a new id. -/
structure Constructor (oid : α → Nat) where
  make : Nat → α
  keeps : ∀ n, oid (make n) = n

/-- What `modify` is given: the id cannot be modified. -/
structure Modifier (oid : α → Nat) where
  apply : α → α
  keeps : ∀ a, oid (apply a) = oid a

def UndoIndex.empty : UndoIndex oid := { indices := .empty }

instance : Inhabited (UndoIndex oid) := ⟨.empty⟩

/-! ### Changes of objects -/

section Changes

variable [DecidableEq κ] (keys : List (α → κ))

/-- Two objects with the same key in one of the indices. -/
def sameKey (a b : α) : Bool := keys.any fun key => key a = key b

/-- Whether an object cannot be in the indices beside the objects with other ids. -/
def clashes (t : Rows oid) (item : α) : Bool :=
  t.rows.any fun n => oid n.item ≠ oid item && sameKey keys n.item item

/-- `insert_impl` -/
def insertImpl (t : Rows oid) (n : Node α) : Option (Rows oid) :=
  if clashes keys t n.item then none else t.emplace? n

/-- `emplace`; `none` when its check fails. -/
def emplace (x : UndoIndex oid) (c : Constructor oid) : Option (UndoIndex oid) := do
  let mtime := if x.undoStack = [] then 0 else x.monotonicRevision
  let indices ← insertImpl keys x.indices ⟨c.make x.nextId, mtime⟩
  return { x with indices, nextId := x.nextId + 1 }

/-- `on_modify`: a backup of a node that the last session has not changed. -/
def onModify (x : UndoIndex oid) (n : Node α) : Option (UndoIndex oid) :=
  match x.undoStack with
  | [] => none
  | s :: rest =>
      if s.ctime ≤ n.mtime then none
      else some { x with
        indices := x.indices.replace { n with mtime := x.monotonicRevision }
        undoStack := { s with oldValues := n :: s.oldValues } :: rest }

/-- `on_remove` -/
def onRemove (stack : List (UndoState α)) (oid : α → Nat) (n : Node α) : List (UndoState α) :=
  match stack with
  | [] => []
  | s :: rest =>
      if s.oldNextId ≤ oid n.item then s :: rest
      else { s with removedValues := n :: s.removedValues } :: rest

def remove (x : UndoIndex oid) (n : Node α) : UndoIndex oid :=
  { x with
    indices := x.indices.erase (oid n.item)
    undoStack := onRemove x.undoStack oid n }

/-- `remove_object`; `none` when its check fails. -/
def removeObject (x : UndoIndex oid) (i : Nat) : Option (UndoIndex oid) := do
  let n ← x.indices.find? i
  return remove x n

/-- `modify` of the object with an id, and whether it succeeds. A modification that conflicts with
another object is reverted when there is a backup, and otherwise the object is removed. -/
def modify (x : UndoIndex oid) (i : Nat) (m : Modifier oid) : UndoIndex oid × Bool :=
  match x.indices.find? i with
  | none => (x, false)
  | some n =>
      let item := m.apply n.item
      match onModify x n with
      | some y =>
          if clashes keys x.indices item then
            ({ x with indices := x.indices.replace { n with mtime := x.monotonicRevision } }, false)
          else ({ y with indices := y.indices.replace ⟨item, x.monotonicRevision⟩ }, true)
      | none =>
          if clashes keys x.indices item then (remove x { n with item }, false)
          else ({ x with indices := x.indices.replace { n with item } }, true)

end Changes

/-! ### Sessions -/

/-- `add_session` -/
def addSession (x : UndoIndex oid) : UndoIndex oid :=
  { x with
    undoStack :=
      { oldNextId := x.nextId, ctime := x.monotonicRevision + 1 } :: x.undoStack
    revision := x.revision + 1
    monotonicRevision := x.monotonicRevision + 1 }

/-- A session that is pushed leaves its undo state on the stack. -/
def startUndoSession (x : UndoIndex oid) (enabled : Bool) : UndoIndex oid :=
  if enabled then addSession x else x

/-- Write an old value into the node with its id. -/
def restore (oid : α → Nat) (v n : Node α) : Node α := if oid n.item = oid v.item then v else n

/-- The nodes of a table without those that a session has made. -/
def beforeId (t : Rows oid) (nextId : Nat) : Rows oid where
  rows := t.rows.filter fun n => oid n.item < nextId
  sorted := t.sorted.filter _

/-- The first part of `undo`: an old value goes back to its node, in the table or removed, unless
the session had changed the node before. -/
def restoreOld (ctime : Nat) (oldValues : List (Node α)) (t : Rows oid)
    (removed : List (Node α)) : Rows oid × List (Node α) :=
  oldValues.foldl (fun rows v =>
    if v.mtime < ctime then (rows.1.replace v, rows.2.map (restore oid v)) else rows) (t, removed)

/-- The second part of `undo`: a removed node goes back to the table, unless it was new. -/
def reinsert [DecidableEq κ] (keys : List (α → κ)) (oldNextId : Nat) (removed : List (Node α))
    (t : Rows oid) : Rows oid :=
  removed.foldl (fun t n =>
    if oid n.item < oldNextId then (insertImpl keys t n).getD t else t) t

section Undo

variable [DecidableEq κ] (keys : List (α → κ))

def undo (x : UndoIndex oid) : UndoIndex oid :=
  match x.undoStack with
  | [] => x
  | s :: rest =>
      let restored := restoreOld s.ctime s.oldValues (beforeId x.indices s.oldNextId)
        s.removedValues
      { x with
        indices := reinsert keys s.oldNextId restored.2 restored.1
        undoStack := rest
        nextId := s.oldNextId
        revision := x.revision - 1 }

def undoTimes (x : UndoIndex oid) : Nat → UndoIndex oid
  | 0 => x
  | n + 1 => undoTimes (undo keys x) n

def undoAll (x : UndoIndex oid) : UndoIndex oid := undoTimes keys x x.undoStack.length

end Undo

/-- Without a second undo state nothing is left to undo. -/
def squashFast (x : UndoIndex oid) : UndoIndex oid :=
  match x.undoStack with
  | [] => x
  | [_] => { x with undoStack := [], revision := x.revision - 1 }
  | s :: t :: rest =>
      { x with
        undoStack := { t with
          oldValues := s.oldValues ++ t.oldValues
          removedValues := s.removedValues ++ t.removedValues } :: rest
        revision := x.revision - 1 }

/-- Whether a node has the flag of removed nodes; only the last session can have removed a node that
it has an old value of. -/
def isRemoved (oid : α → Nat) (s : UndoState α) (n : Node α) : Bool :=
  s.removedValues.any fun m => oid m.item = oid n.item

/-- `compress_impl` for the last undo state: what would be redundant if it were squashed into a
session that began at `ctime` with `oldNextId`. -/
def compressState (oid : α → Nat) (ctime oldNextId : Nat) (s : UndoState α) : UndoState α :=
  let removed := s.oldValues.foldl (fun removed v =>
    if v.mtime < ctime then removed.map (restore oid v) else removed) s.removedValues
  { s with
    oldValues := s.oldValues.filter fun v => v.mtime < ctime && !isRemoved oid s v
    removedValues := removed.filter fun n => oid n.item < oldNextId }

def compressLastUndoSession (x : UndoIndex oid) : UndoIndex oid :=
  match x.undoStack with
  | [] => x
  | s :: rest => { x with undoStack := compressState oid s.ctime s.oldNextId s :: rest }

/-- `squash_and_compress` -/
def squash (x : UndoIndex oid) : UndoIndex oid :=
  match x.undoStack with
  | s :: t :: rest =>
      squashFast { x with undoStack := compressState oid t.ctime t.oldNextId s :: t :: rest }
  | _ => squashFast x

/-- `commit`; the undo states of the revisions after the given one are kept. -/
def commit (x : UndoIndex oid) (revision : Nat) : UndoIndex oid :=
  let revision := min revision x.revision
  if revision = x.revision then { x with undoStack := [] }
  else if x.revision - revision < x.undoStack.length then
    { x with undoStack := x.undoStack.take (x.revision - revision) }
  else x

/-- `set_revision`; `none` when a check fails. -/
def setRevision (x : UndoIndex oid) (revision : Nat) : Option (UndoIndex oid) :=
  if x.undoStack ≠ [] ∨ 2 ^ 63 ≤ revision ∨ revision < x.revision then none
  else some { x with revision }

/-- `undo_stack_revision_range` -/
def undoStackRevisionRange (x : UndoIndex oid) : Nat × Nat :=
  (x.revision - x.undoStack.length, x.revision)

end Eden.UndoTables
