import Eden.UndoDatabase
import Eden.MirrorForks

/-!
The micro chain with its tables: what forks, undos and irreversible blocks leave of the objects.
-/

namespace Eden.DatabaseForks

open Eden.ChainPrimitives
open Eden.BlockLog
open Eden.BlockLog.Log
open Eden.LinkedBlocks
open Eden.UndoStack
open Eden.UndoTables
open Eden.UndoRuns
open Eden.UndoDatabase
open Eden.MirrorForks

variable {n : Nat} {α κ : Fin (n + 1) → Type} [∀ i, DecidableEq (κ i)]
variable {oid : ∀ i, α i → Nat}

/-- The log of the blocks, and the tables. -/
structure MicroChain (oid : ∀ i, α i → Nat) where
  log : Log := {}
  db : Database oid := fun _ => .empty

/-- Changes of tables, one after the other. -/
def applyAll (keys : ∀ i, List (α i → κ i)) (d : Database oid)
    (changes : List (Σ i, Change (oid i))) : Option (Database oid) :=
  changes.foldlM (fun db c => Database.change keys db c.1 c.2) d

/-- What the changes make of the objects. -/
def specifyAll (keys : ∀ i, List (α i → κ i)) (w : Whole α)
    (changes : List (Σ i, Change (oid i))) : Option (Whole α) :=
  changes.foldlM (fun w c => do
    let objects ← c.2.specified (keys c.1) (w c.1)
    return Function.update w c.1 objects) w

section Calls

variable (keys : ∀ i, List (α i → κ i))

-- The changes that `filter_block` makes, if it does not abort before.
variable (changesOf : Whole α → EosioBlock → Option (List (Σ i, Change (oid i))))

variable (sha256 : Block → Checksum)

def filterBlock (db : Database oid) (block : EosioBlock) : Option (Database oid) := do
  applyAll keys db (← changesOf (fun i => contents (db i)) block)

/-- `forked_n_blocks` -/
def forkedNBlocks (db : Database oid) : Nat → Database oid
  | 0 => db
  | k + 1 => forkedNBlocks (fun i => undo (keys i) (db i)) k

/-- The part of `add_block` that comes after the log has changed. -/
def filterInSession (log : Log) (db : Database oid) (block : BlockWithId) :
    Option (Database oid) := do
  let db ← db.command keys (.commit log.irreversible)
  let needUndo := decide (block.num > log.irreversible)
  let db ← db.command keys (.startUndoSession needUndo)
  let db ← filterBlock keys changesOf db block.eosioBlock
  if needUndo then some db else db.command keys (.setRevision block.num)

def MicroChain.addBlock (m : MicroChain oid) (block : BlockWithId) (eosioIrreversible : Nat) :
    Option (MicroChain oid) :=
  match m.log.push block eosioIrreversible with
  | (.appended, numForked, log) => do
      let db ← filterInSession keys changesOf log (forkedNBlocks keys m.db numForked) block
      return { log, db }
  | (_, _, _) => some m

def MicroChain.call (m : MicroChain oid) : BlockLog.Operation → Option (MicroChain oid)
  | .addBlock eosioBlock eosioIrreversible =>
      m.addBlock keys changesOf (edenBlock sha256 m.log eosioBlock) eosioIrreversible
  | .undoBlockNum blockNum =>
      let (removed, log) := m.log.undo blockNum
      some { log, db := forkedNBlocks keys m.db removed }
  | .undoEosioNum eosioNum =>
      let (removed, log) := m.log.undoEosio eosioNum
      some { log, db := forkedNBlocks keys m.db removed }
  | .setIrreversible irreversible => do
      let log := m.log.setIrreversible irreversible
      let db ← m.db.command keys (.commit log.irreversible)
      return { log, db }
  | .trimBlocks => some { m with log := m.log.trim }

/-- The micro chain after calls that do not abort. -/
def MicroChain.run (operations : List BlockLog.Operation) : Option (MicroChain oid) :=
  operations.foldlM (MicroChain.call keys changesOf sha256) {}

/-- What `filter_block` makes of the objects. -/
def filtered (w : Whole α) (block : EosioBlock) : Option (Whole α) := do
  specifyAll keys w (← changesOf w block)

end Calls

variable {keys : ∀ i, List (α i → κ i)} {sha256 : Block → Checksum}
variable (changesOf : Whole α → EosioBlock → Option (List (Σ i, Change (oid i))))
variable {m m' : MicroChain oid} {d e : Database oid}

/-- What the micro chain stands for: the log, and a stack of states of the objects. -/
def mirrorOf (keys : ∀ i, List (α i → κ i)) (m : MicroChain oid) : Mirror (Whole α) where
  log := m.log
  db := stackOf keys m.db

theorem applyAll_refines (h : Level keys d) (changes : List (Σ i, Change (oid i))) :
    (applyAll keys d changes).map (stackOf keys) =
        (specifyAll keys (stackOf keys d).current changes).map
          (fun current => { stackOf keys d with current }) ∧
      ∀ e, applyAll keys d changes = some e → Level keys e := by
  induction changes generalizing d with
  | nil => exact ⟨rfl, fun e he => Option.some.inj he ▸ h⟩
  | cons c rest ih =>
      obtain ⟨hchange, hlevel⟩ := change_refines h c.1 c.2
      simp only [applyAll, specifyAll, List.foldlM_cons] at ih ⊢
      simp only [Operation.specified] at hchange
      cases hspec : c.2.specified (keys c.1) ((stackOf keys d).current c.1) with
      | none =>
          rw [hspec] at hchange
          have hnone : Database.change keys d c.1 c.2 = none := by simpa using hchange
          rw [hnone]
          exact ⟨rfl, fun e he => absurd he (by simp)⟩
      | some objects =>
          rw [hspec] at hchange
          simp only [Option.bind_eq_bind, Option.bind_some, Option.pure_def,
            Option.map_eq_some_iff] at hchange
          obtain ⟨d₁, hd₁, hstack⟩ := hchange
          obtain ⟨hrest, hrestLevel⟩ := ih (hlevel d₁ hd₁)
          rw [hd₁]
          refine ⟨?_, hrestLevel⟩
          simp only [Option.bind_eq_bind, Option.bind_some, Option.pure_def]
          rw [hstack] at hrest
          exact hrest

theorem filterBlock_refines (h : Level keys d) (block : EosioBlock) :
    (filterBlock keys changesOf d block).map (stackOf keys) =
        (filtered keys changesOf (stackOf keys d).current block).map
          (fun current => { stackOf keys d with current }) ∧
      ∀ e, filterBlock keys changesOf d block = some e → Level keys e := by
  unfold filterBlock filtered
  have hcurrent : (fun i => contents (d i)) = (stackOf keys d).current := rfl
  rw [hcurrent]
  cases changesOf (stackOf keys d).current block with
  | none => exact ⟨rfl, fun e he => absurd he (by simp)⟩
  | some changes => exact applyAll_refines h changes

theorem forkedNBlocks_refines (h : Level keys d) (k : Nat) :
    stackOf keys (forkedNBlocks keys d k) = (stackOf keys d).undoTimes k ∧
      Level keys (forkedNBlocks keys d k) := by
  induction k generalizing d with
  | zero => exact ⟨rfl, h⟩
  | succ k ih =>
      have hcommand : d.command keys .undo = some fun i => undo (keys i) (d i) :=
        dif_pos fun _ => rfl
      obtain ⟨hstack, hlevel⟩ := command_refines h .undo
      rw [hcommand] at hstack
      obtain ⟨hrest, hrestLevel⟩ := ih (hlevel _ hcommand)
      refine ⟨?_, hrestLevel⟩
      rw [forkedNBlocks, hrest, Stack.undoTimes]
      exact congrArg (Stack.undoTimes · k) (Option.some.inj hstack)

/-- A command that succeeds on the stack succeeds on the tables. -/
theorem command_succeeds (h : Level keys d) {c : Command} {s : Stack (Whole α)}
    (hs : c.specified (stackOf keys d) = some s) :
    ∃ e, d.command keys c = some e ∧ stackOf keys e = s ∧ Level keys e := by
  obtain ⟨hcommand, hlevel⟩ := command_refines h c
  rw [hs, Option.map_eq_some_iff] at hcommand
  obtain ⟨e, he, hstack⟩ := hcommand
  exact ⟨e, he, hstack, hlevel e he⟩

theorem filterInSession_refines (h : Level keys d) (log : Log) {block : BlockWithId}
    (hnum : block.num < 2 ^ 63) :
    (filterInSession keys changesOf log d block).map (stackOf keys) =
        MirrorForks.filterInSession (filtered keys changesOf) log (stackOf keys d) block ∧
      ∀ e, filterInSession keys changesOf log d block = some e → Level keys e := by
  obtain ⟨d₁, hcommit, hstack₁, hlevel₁⟩ :=
    command_succeeds h (c := .commit log.irreversible) rfl
  obtain ⟨d₂, hstart, hstack₂, hlevel₂⟩ :=
    command_succeeds hlevel₁ (c := .startUndoSession (decide (block.num > log.irreversible))) rfl
  obtain ⟨hfilter, hfiltered⟩ := filterBlock_refines changesOf hlevel₂
    block.eosioBlock
  have hsession : stackOf keys d₂ = ((stackOf keys d).commit log.irreversible).startUndoSession
      (decide (block.num > log.irreversible)) := by
    rw [hstack₂, hstack₁]
  rw [hsession] at hfilter
  unfold filterInSession MirrorForks.filterInSession
  simp only [hcommit, hstart, Option.bind_eq_bind, Option.bind_some]
  cases hspec : filtered keys changesOf (((stackOf keys d).commit log.irreversible).startUndoSession
      (decide (block.num > log.irreversible))).current block.eosioBlock with
  | none =>
      rw [hspec] at hfilter
      have hnone : filterBlock keys changesOf d₂ block.eosioBlock = none := by simpa using hfilter
      rw [hnone]
      exact ⟨rfl, fun e he => absurd he (by simp)⟩
  | some current =>
      rw [hspec, Option.map_some, Option.map_eq_some_iff] at hfilter
      obtain ⟨d₃, hd₃, hstack₃⟩ := hfilter
      have hlevel₃ := hfiltered d₃ hd₃
      rw [hd₃]
      simp only [Option.bind_some]
      by_cases hundo : decide (block.num > log.irreversible) = true
      · rw [if_pos hundo, if_pos hundo, Option.map_some, hstack₃]
        exact ⟨rfl, fun e he => Option.some.inj he ▸ hlevel₃⟩
      · rw [if_neg hundo, if_neg hundo]
        obtain ⟨hset, hlevel⟩ := command_refines hlevel₃ (.setRevision block.num)
        refine ⟨?_, hlevel⟩
        rw [hset, Command.specified, if_neg (not_le.mpr hnum), hstack₃]

theorem num_edenBlock_lt (sha256 : Block → Checksum) (log : Log) (eosioBlock : EosioBlock) :
    (edenBlock sha256 log eosioBlock).num < 2 ^ 63 := by
  have hnext : ∀ k, next k < 2 ^ 63 := by
    intro k
    have hlt : next k < 2 ^ 32 := Nat.mod_lt _ (by decide)
    exact hlt.trans (by decide)
  unfold edenBlock
  cases log.blockBeforeEosioNum eosioBlock.num with
  | none => exact Nat.lt_of_lt_of_le (by decide : 1 < 2) (by decide)
  | some edenPrev => exact hnext edenPrev.num

/-- A call changes the tables as it changes the stack of their states. -/
theorem call_refines (sha256 : Block → Checksum) (h : Level keys m.db) (operation : BlockLog.Operation) :
    (m.call keys changesOf sha256 operation).map (mirrorOf keys) =
        (mirrorOf keys m).call (filtered keys changesOf) sha256 operation ∧
      ∀ m', m.call keys changesOf sha256 operation = some m' → Level keys m'.db := by
  cases operation with
  | addBlock eosioBlock eosioIrreversible =>
      have hnum := num_edenBlock_lt sha256 m.log eosioBlock
      simp only [MicroChain.call, Mirror.call, MicroChain.addBlock, Mirror.addBlock, mirrorOf]
      generalize edenBlock sha256 m.log eosioBlock = block at hnum
      rcases m.log.push block eosioIrreversible with ⟨status, numForked, log⟩
      cases status with
      | appended =>
          obtain ⟨hforked, hlevel⟩ := forkedNBlocks_refines h numForked
          obtain ⟨hsession, hlevels⟩ := filterInSession_refines changesOf hlevel log
            hnum
          rw [hforked] at hsession
          simp only [MirrorForks.forkedNBlocks, ← hsession]
          cases hdb : filterInSession keys changesOf log (forkedNBlocks keys m.db numForked) block with
          | none => exact ⟨rfl, fun m' hm' => absurd hm' (by simp)⟩
          | some e =>
              refine ⟨rfl, ?_⟩
              intro m' hm'
              rw [← Option.some.inj hm']
              exact hlevels e hdb
      | duplicate => exact ⟨rfl, fun m' hm' => Option.some.inj hm' ▸ h⟩
      | unlinkable => exact ⟨rfl, fun m' hm' => Option.some.inj hm' ▸ h⟩
  | undoBlockNum blockNum =>
      obtain ⟨hforked, hlevel⟩ := forkedNBlocks_refines h (m.log.undo blockNum).1
      refine ⟨?_, fun m' hm' => Option.some.inj hm' ▸ hlevel⟩
      simp only [MicroChain.call, Mirror.call, Option.map_some, mirrorOf, hforked,
        MirrorForks.forkedNBlocks]
  | undoEosioNum eosioNum =>
      obtain ⟨hforked, hlevel⟩ := forkedNBlocks_refines h (m.log.undoEosio eosioNum).1
      refine ⟨?_, fun m' hm' => Option.some.inj hm' ▸ hlevel⟩
      simp only [MicroChain.call, Mirror.call, Option.map_some, mirrorOf, hforked,
        MirrorForks.forkedNBlocks]
  | setIrreversible irreversible =>
      obtain ⟨e, he, hstack, hlevel⟩ := command_succeeds h
        (c := .commit (m.log.setIrreversible irreversible).irreversible) rfl
      simp only [MicroChain.call, Mirror.call, he, mirrorOf]
      refine ⟨?_, fun m' hm' => Option.some.inj hm' ▸ hlevel⟩
      simp only [Option.bind_eq_bind, Option.bind_some, Option.pure_def, Option.map_some, mirrorOf,
        hstack]
  | trimBlocks => exact ⟨rfl, fun m' hm' => Option.some.inj hm' ▸ h⟩

variable {changesOf}

/-- A run of the micro chain is one of the mirror. -/
theorem run_refines {operations : List BlockLog.Operation}
    (h : MicroChain.run keys changesOf sha256 operations = some m) :
    Level keys m.db ∧ ∃ t : Trimmed (Whole α),
      Trimmed.run (filtered keys changesOf) sha256 (fun _ => {}) operations = some t ∧
        t.mirror = mirrorOf keys m := by
  induction operations using List.reverseRecOn generalizing m with
  | nil =>
      rw [← Option.some.inj h]
      exact ⟨level_empty, _, rfl, rfl⟩
  | append_singleton operations operation ih =>
      rw [MicroChain.run, foldlM_concat, Option.bind_eq_bind, Option.bind_eq_some_iff] at h
      obtain ⟨before, hbefore, hcall⟩ := h
      obtain ⟨hlevel, t, ht, hmirror⟩ := ih hbefore
      obtain ⟨hrefines, hlevels⟩ := call_refines changesOf sha256 hlevel operation
      refine ⟨hlevels m hcall, ⟨t.trimmed ++ t.mirror.trims operation, mirrorOf keys m⟩, ?_, rfl⟩
      rw [hcall, Option.map_some, ← hmirror] at hrefines
      rw [Trimmed.run, foldlM_concat]
      have hrun : operations.foldlM (Trimmed.call (filtered keys changesOf) sha256)
          { mirror := { db := { current := fun _ => {} } } } = some t := ht
      rw [hrun]
      simp only [Option.bind_eq_bind, Option.bind_some, Trimmed.call, ← hrefines, Option.pure_def]

theorem getElem?_savedFrom {k j : Nat} (hj : j < k) (d : Database oid) :
    (savedFrom keys k d)[j]? = some fun i => contents (forkedNBlocks keys d (j + 1) i) := by
  induction j generalizing k d with
  | zero =>
      cases k with
      | zero => exact absurd hj (lt_irrefl 0)
      | succ k => rfl
  | succ j ih =>
      cases k with
      | zero => exact absurd hj (Nat.not_lt_zero _)
      | succ k =>
          rw [UndoDatabase.savedFrom, List.getElem?_cons_succ, ih (Nat.lt_of_succ_lt_succ hj)]
          rfl

/-- After any calls that do not abort, the objects in the tables are those that `filter_block` makes
of the blocks of the chain from empty tables, and each undo leads to what it makes of one block
less. -/
theorem tables_follow_chain {operations : List BlockLog.Operation}
    (h : MicroChain.run keys changesOf sha256 operations = some m) :
    ∃ trimmed : List BlockWithId,
      (∀ b ∈ trimmed, b.num < m.log.irreversible) ∧
      (trimmed ++ m.log.blocks).IsChain Follows ∧
      ((trimmed ++ m.log.blocks).map (·.eosioBlock)).foldlM (filtered keys changesOf)
        (fun _ => {}) = some (fun i => contents (m.db i)) ∧
      (∀ i, (m.db i).undoStack.length + m.log.irreversible =
        (trimmed ++ m.log.blocks).length) ∧
      ∀ k, k ≤ (m.db 0).undoStack.length →
        (((trimmed ++ m.log.blocks).take ((trimmed ++ m.log.blocks).length - k)).map
          (·.eosioBlock)).foldlM (filtered keys changesOf) (fun _ => {}) =
            some fun i => contents (forkedNBlocks keys m.db k i) := by
  obtain ⟨hlevel, t, ht, hmirror⟩ := run_refines h
  have hm := run_mirrored ht
  have hchain : t.chain = t.trimmed ++ m.log.blocks := by
    rw [Trimmed.chain, hmirror]
    rfl
  have hcurrent := hm.tracks.current
  have hsaved := hm.saved
  have hstates := hm.tracks.saved
  have hfollows := hm.follows
  have hbelow := hm.irreversible
  rw [hchain] at hcurrent hsaved hfollows hstates
  rw [hmirror] at hcurrent hsaved hbelow hstates
  have hlength : ∀ i, (m.db i).undoStack.length = (mirrorOf keys m).db.saved.length := by
    intro i
    rw [hlevel.length i]
    have hmap : ((UndoDatabase.savedFrom keys (m.db 0).undoStack.length m.db).map fun w => w 0).length =
        (m.db 0).undoStack.length := by
      rw [map_savedFrom, length_savedFrom]
    rw [List.length_map] at hmap
    exact hmap.symm
  refine ⟨t.trimmed, hbelow, hfollows, hcurrent, ?_, ?_⟩
  · intro i
    rw [hlength i]
    exact hsaved
  · intro k hk
    cases k with
    | zero =>
        rw [Nat.sub_zero, List.take_length]
        exact hcurrent
    | succ k =>
        obtain ⟨-, hstate⟩ := hstates k _ (getElem?_savedFrom (Nat.lt_of_succ_le hk) m.db)
        rw [List.length_map, ← List.map_take] at hstate
        rw [← hstate, Nat.sub_sub, Nat.add_comm 1 k]

structure Record where
  id : Nat
  value : Checksum
  deriving DecidableEq, Repr

def record (value : Checksum) : Constructor Record.id := ⟨fun id => ⟨id, value⟩, fun _ => rfl⟩

def setValue (value : Checksum) : Modifier Record.id :=
  ⟨fun r => { r with value }, fun _ => rfl⟩

/-- One table has the ids of all blocks, and another one that of the last block. -/
def recordBlock (w : Whole fun _ : Fin 2 => Record) (block : EosioBlock) :
    Option (List (Σ _ : Fin 2, Change Record.id)) :=
  let last : Change Record.id :=
    match (w 1).objects with
    | [] => .emplace (record block.id)
    | r :: _ => .modify r.id (setValue block.id)
  some [⟨0, .emplace (record block.id)⟩, ⟨1, last⟩]

/-- The third block is replaced, and the fourth one is undone. -/
def recordCalls : List BlockLog.Operation :=
  [.addBlock (emptyBlock 10 [1]) 10, .addBlock (emptyBlock 11 [2]) 10,
    .addBlock (emptyBlock 12 [3]) 10, .addBlock (emptyBlock 12 [4]) 11,
    .addBlock (emptyBlock 13 [5]) 11, .undoEosioNum 13]

theorem recordCalls_follow_chain : ∃ m : MicroChain fun _ : Fin 2 => Record.id,
    MicroChain.run (fun _ => [Record.value]) recordBlock (·.eosioBlock.id) recordCalls = some m ∧
      (contents (m.db 0)).objects = [⟨0, [1]⟩, ⟨1, [2]⟩, ⟨2, [4]⟩] ∧
      (contents (m.db 1)).objects = [⟨0, [4]⟩] ∧
      ∃ trimmed : List BlockWithId,
        ((trimmed ++ m.log.blocks).map (·.eosioBlock)).foldlM
          (filtered (fun _ => [Record.value]) recordBlock) (fun _ => {}) =
            some fun i => contents (m.db i) := by
  have hrun : (MicroChain.run (fun _ : Fin 2 => [Record.value]) recordBlock (·.eosioBlock.id)
      recordCalls).any (fun m =>
        (contents (m.db 0)).objects = [⟨0, [1]⟩, ⟨1, [2]⟩, ⟨2, [4]⟩] ∧
          (contents (m.db 1)).objects = [⟨0, [4]⟩]) = true := by decide +kernel
  obtain ⟨m, hm, hobjects⟩ := (Option.any_eq_true _ _).mp hrun
  obtain ⟨hzero, hone⟩ := of_decide_eq_true hobjects
  obtain ⟨trimmed, -, -, hcurrent, -⟩ := tables_follow_chain hm
  exact ⟨m, hm, hzero, hone, trimmed, hcurrent⟩

end Eden.DatabaseForks
