import Eden.LinkedBlocks
import Eden.UndoStack

/-!
The micro chain's database follows the block log through forks and undos.
-/

namespace Eden.MirrorForks

open Eden.LowerBound
open Eden.ChainPrimitives
open Eden.BlockLog
open Eden.BlockLog.Log
open Eden.LinkedBlocks
open Eden.UndoStack
open Eden.UndoStack.Stack

variable {δ : Type}

structure Mirror (δ : Type) where
  log : Log := {}
  db : Stack δ

section Calls

variable (filterBlock : δ → EosioBlock → Option δ) (sha256 : Block → Checksum)

def forkedNBlocks (db : Stack δ) (n : Nat) : Stack δ :=
  db.undoTimes n

/-- The part of `add_block` that comes after the log has changed. It has no result when
`filter_block` or the database aborts. -/
def filterInSession (log : Log) (db : Stack δ) (block : BlockWithId) : Option (Stack δ) := do
  let db := db.commit log.irreversible
  let needUndo := decide (block.num > log.irreversible)
  let session := db.startUndoSession needUndo
  let current ← filterBlock session.current block.eosioBlock
  let db := { session with current }
  if needUndo then some db else db.setRevision block.num

def Mirror.addBlock (m : Mirror δ) (block : BlockWithId) (eosioIrreversible : Nat) :
    Option (Mirror δ) :=
  match m.log.push block eosioIrreversible with
  | (.appended, numForked, log) => do
      let db ← filterInSession filterBlock log (forkedNBlocks m.db numForked) block
      return { log, db }
  | (_, _, _) => some m

def Mirror.call (m : Mirror δ) : Operation → Option (Mirror δ)
  | .addBlock eosioBlock eosioIrreversible =>
      m.addBlock filterBlock (edenBlock sha256 m.log eosioBlock) eosioIrreversible
  | .undoBlockNum blockNum =>
      let (removed, log) := m.log.undo blockNum
      some { log, db := forkedNBlocks m.db removed }
  | .undoEosioNum eosioNum =>
      let (removed, log) := m.log.undoEosio eosioNum
      some { log, db := forkedNBlocks m.db removed }
  | .setIrreversible irreversible =>
      let log := m.log.setIrreversible irreversible
      some { log, db := m.db.commit log.irreversible }
  | .trimBlocks => some { m with log := m.log.trim }

/-- How many blocks a call undoes. -/
def Mirror.undone (m : Mirror δ) : Operation → Nat
  | .addBlock eosioBlock eosioIrreversible =>
      (m.log.push (edenBlock sha256 m.log eosioBlock) eosioIrreversible).2.1
  | .undoBlockNum blockNum => (m.log.undo blockNum).1
  | .undoEosioNum eosioNum => (m.log.undoEosio eosioNum).1
  | .setIrreversible _ => 0
  | .trimBlocks => 0

/-- The blocks that a call trims. -/
def Mirror.trims (m : Mirror δ) : Operation → List BlockWithId
  | .trimBlocks => m.log.blocks.take (m.log.lowerBoundByNum m.log.irreversible)
  | _ => []

/-- A mirror, and the blocks that have been trimmed from its log. -/
structure Trimmed (δ : Type) where
  trimmed : List BlockWithId := []
  mirror : Mirror δ

/-- All blocks of the current chain. -/
def Trimmed.chain (t : Trimmed δ) : List BlockWithId :=
  t.trimmed ++ t.mirror.log.blocks

def Trimmed.call (t : Trimmed δ) (operation : Operation) : Option (Trimmed δ) := do
  let mirror ← t.mirror.call filterBlock sha256 operation
  return { trimmed := t.trimmed ++ t.mirror.trims operation, mirror }

/-- The mirror after calls that do not abort, from an empty database on. -/
def Trimmed.run (emptyDb : δ) (operations : List Operation) : Option (Trimmed δ) :=
  operations.foldlM (Trimmed.call filterBlock sha256) { mirror := { db := { current := emptyDb } } }

end Calls

/-! ### The mirror and its chain -/

variable {filterBlock : δ → EosioBlock → Option δ} {sha256 : Block → Checksum} {emptyDb : δ}

/-- The database comes from the blocks of the chain, and the blocks above the irreversible one
can be undone. -/
structure Mirrored (filterBlock : δ → EosioBlock → Option δ) (emptyDb : δ) (t : Trimmed δ) :
    Prop where
  linked : Linked t.mirror.log
  follows : t.chain.IsChain Follows
  first : ∀ b ∈ t.chain.head?, b.num = 1
  irreversible : ∀ b ∈ t.trimmed, b.num < t.mirror.log.irreversible
  tracks : Tracks filterBlock emptyDb (t.chain.map (·.eosioBlock)) t.mirror.db
  saved : t.mirror.db.saved.length + t.mirror.log.irreversible = t.chain.length

variable {t : Trimmed δ} {chain l r : List BlockWithId}

theorem Mirrored.keeps_irreversible (h : Mirrored filterBlock emptyDb t)
    (hblocks : t.mirror.log.blocks = l ++ r)
    (hr : ∀ b ∈ r, t.mirror.log.irreversible < b.num) :
    t.chain = (t.trimmed ++ l) ++ r ∧
      t.mirror.log.irreversible ≤ (t.trimmed ++ l).length := by
  have hchain : t.chain = (t.trimmed ++ l) ++ r := by
    rw [Trimmed.chain, hblocks, List.append_assoc]
  refine ⟨hchain, ?_⟩
  have hsaved := h.saved
  rw [hchain, List.length_append] at hsaved
  cases r with
  | nil =>
      rw [List.length_nil] at hsaved
      omega
  | cons b r =>
      have hget : t.chain[(t.trimmed ++ l).length]? = some b := by
        rw [hchain, List.getElem?_append_right le_rfl, Nat.sub_self, List.getElem?_cons_zero]
      have hnum := num_eq_of_first h.follows h.first hget
      have hlt := hr b List.mem_cons_self
      omega

/-- The blocks that a fork or an undo removes have their undo states. -/
theorem Mirrored.undoTimes (h : Mirrored filterBlock emptyDb t)
    (hblocks : t.mirror.log.blocks = l ++ r)
    (hr : ∀ b ∈ r, t.mirror.log.irreversible < b.num) :
    r.length ≤ t.mirror.db.saved.length ∧
      Mirrored filterBlock emptyDb
        { t with mirror :=
          { log := { t.mirror.log with blocks := l }, db := forkedNBlocks t.mirror.db r.length } }
    := by
  obtain ⟨hchain, hle⟩ := h.keeps_irreversible hblocks hr
  have hsaved := h.saved
  have htracks := h.tracks
  have hfollows := h.follows
  rw [hchain] at hsaved htracks hfollows
  rw [List.length_append] at hsaved
  rw [List.map_append] at htracks
  have hlength : r.length ≤ t.mirror.db.saved.length := by omega
  have hmap : (r.map (·.eosioBlock)).length = r.length := List.length_map _
  obtain ⟨hundone, hrest⟩ := htracks.undoTimes (hmap.trans_le hlength)
  rw [hmap] at hundone hrest
  refine ⟨hlength, h.linked.keep hblocks hr, hfollows.left_of_append, ?_, h.irreversible,
    hundone, ?_⟩
  · intro b hb
    apply h.first
    rw [hchain]
    cases hkept : t.trimmed ++ l with
    | nil =>
        rw [Trimmed.chain] at hb
        simp only [hkept] at hb
        simp at hb
    | cons a kept =>
        rw [Trimmed.chain] at hb
        simp only [hkept] at hb
        exact hb
  · have hkept : (Trimmed.chain { t with mirror :=
        { log := { t.mirror.log with blocks := l },
          db := forkedNBlocks t.mirror.db r.length } }).length = (t.trimmed ++ l).length := rfl
    rw [hkept]
    simp only [forkedNBlocks]
    omega

theorem Mirrored.getLast?_chain (h : Mirrored filterBlock emptyDb t) :
    t.chain.getLast? = t.mirror.log.blocks.getLast? := by
  rcases h.linked.held with hzero | ⟨held, hheld, _⟩
  · have htrimmed : t.trimmed = [] := by
      rw [List.eq_nil_iff_forall_not_mem]
      intro b hb
      have hlt := h.irreversible b hb
      omega
    rw [Trimmed.chain, htrimmed, List.nil_append]
  · have hne := List.ne_nil_of_mem hheld
    rw [Trimmed.chain, List.getLast?_append_of_ne_nil _ hne]

/-- A block behind the end of the chain, whose number is counted on. -/
theorem Mirrored.num_of_linksTo (h : Mirrored filterBlock emptyDb t) {block : BlockWithId}
    (hlinks : LinksTo t.mirror.log.blocks block)
    (hbefore : ∀ b ∈ t.mirror.log.blocks, b.num < block.num) :
    block.num = t.chain.length + 1 := by
  have hlast := h.getLast?_chain
  cases hprev : t.mirror.log.blocks.getLast? with
  | none =>
      rw [hprev, List.getLast?_eq_none_iff] at hlast
      rw [hlast, hlinks.1 (List.getLast?_eq_none_iff.mp hprev)]
      rfl
  | some prev =>
      have hnum := num_getLast h.follows h.first (hlast.trans hprev)
      have hnext := next_eq (hlinks.2 prev hprev).1.symm
        (hbefore prev (List.mem_of_getLast? hprev))
      omega

theorem Mirrored.chain_num_le (h : Mirrored filterBlock emptyDb t) {b : BlockWithId}
    (hb : b ∈ t.chain) : b.num ≤ t.chain.length := by
  obtain ⟨i, hi⟩ := List.getElem?_of_mem hb
  have hnum := num_eq_of_first h.follows h.first hi
  have hlt := (List.getElem?_eq_some_iff.mp hi).1
  omega

/-- The irreversible number may rise to a block of the chain, together with the database. -/
theorem Mirrored.commit (h : Mirrored filterBlock emptyDb t) {found : Option BlockWithId}
    (hfound : ∀ b ∈ found, b ∈ t.mirror.log.blocks) :
    Mirrored filterBlock emptyDb
      { t with mirror :=
        { log := t.mirror.log.advance found,
          db := t.mirror.db.commit (t.mirror.log.advance found).irreversible } } := by
  have hchain : Trimmed.chain { t with mirror :=
      { log := t.mirror.log.advance found,
        db := t.mirror.db.commit (t.mirror.log.advance found).irreversible } } = t.chain := by
    simp only [Trimmed.chain, advance_blocks]
  have hle := le_advance t.mirror.log found
  have hrevision := h.tracks.revision
  rw [List.length_map] at hrevision
  have hsaved := h.saved
  have hbound : (t.mirror.log.advance found).irreversible ≤ t.chain.length := by
    cases found with
    | none =>
        simp only [Log.advance]
        omega
    | some block =>
        have hnum := h.chain_num_le (List.mem_append_right t.trimmed (hfound block rfl))
        simp only [Log.advance]
        omega
  refine ⟨h.linked.advance hfound, ?_, ?_, ?_, ?_, ?_⟩
  · rw [hchain]
    exact h.follows
  · rw [hchain]
    exact h.first
  · intro b hb
    exact (h.irreversible b hb).trans_le hle
  · rw [hchain]
    exact h.tracks.commit _
  · rw [hchain]
    have hlength := commit_saved_length (s := t.mirror.db) (by omega) hle
    rw [Nat.min_eq_left (by omega)] at hlength
    simp only [hlength]
    omega

/-- A block behind the end of the chain, filtered into the database. -/
theorem Mirrored.append (h : Mirrored filterBlock emptyDb t) {block : BlockWithId} {log : Log}
    (hlinks : LinksTo t.mirror.log.blocks block)
    (hbefore : ∀ b ∈ t.mirror.log.blocks, b.num < block.num)
    (hlog : log = { t.mirror.log with blocks := t.mirror.log.blocks ++ [block] })
    (hlinked : Linked log) {found : Option BlockWithId} (hfound : ∀ b ∈ found, b ∈ log.blocks)
    {state : δ} (hfilter : filterBlock t.mirror.db.current block.eosioBlock = some state) :
    ∃ db, filterInSession filterBlock (log.advance found) t.mirror.db block = some db ∧
      Mirrored filterBlock emptyDb { t with mirror := { log := log.advance found, db } } := by
  have hnum := h.num_of_linksTo hlinks hbefore
  have hblocks : log.blocks = t.mirror.log.blocks ++ [block] := by rw [hlog]
  have hirreversible : log.irreversible = t.mirror.log.irreversible := by rw [hlog]
  have hchain : ∀ db : Stack δ, Trimmed.chain { t with mirror :=
      { log := log.advance found, db } } = t.chain ++ [block] := by
    intro db
    simp only [Trimmed.chain, advance_blocks, hblocks, List.append_assoc]
  have hle : t.mirror.log.irreversible ≤ (log.advance found).irreversible :=
    hirreversible.ge.trans (le_advance log found)
  have hsaved := h.saved
  have hrevision := h.tracks.revision
  rw [List.length_map] at hrevision
  have hbound : (log.advance found).irreversible ≤ t.chain.length + 1 := by
    cases found with
    | none =>
        simp only [Log.advance]
        omega
    | some b =>
        have hmem := hfound b rfl
        rw [hblocks, List.mem_append, List.mem_singleton] at hmem
        have hb : b.num ≤ t.chain.length + 1 := by
          rcases hmem with hmem | rfl
          · exact (h.chain_num_le (List.mem_append_right t.trimmed hmem)).trans (Nat.le_succ _)
          · exact hnum.le
        simp only [Log.advance]
        omega
  have hlength := commit_saved_length (s := t.mirror.db) (by omega) hle
  have htracks := h.tracks.commit (log.advance found).irreversible
  have hmirrored : ∀ db, Tracks filterBlock emptyDb
        (t.chain.map (·.eosioBlock) ++ [block.eosioBlock]) db →
      db.saved.length + (log.advance found).irreversible = t.chain.length + 1 →
      Mirrored filterBlock emptyDb { t with mirror := { log := log.advance found, db } } := by
    intro db hdb hcount
    refine ⟨hlinked.advance hfound, ?_, ?_, ?_, ?_, ?_⟩
    · rw [hchain, List.isChain_append, h.getLast?_chain]
      have hfollows := hlinked.follows
      rw [hblocks, List.isChain_append] at hfollows
      exact ⟨h.follows, hfollows.2⟩
    · intro b hb
      rw [hchain, List.head?_append] at hb
      cases hfront : t.chain.head? with
      | none =>
          rw [List.head?_eq_none_iff] at hfront
          rw [hfront, List.head?_nil, Option.none_or, List.head?_cons,
            Option.mem_some_iff] at hb
          rw [← hb, hnum, hfront]
          rfl
      | some front =>
          rw [hfront, Option.some_or, Option.mem_some_iff] at hb
          exact hb ▸ h.first front hfront
    · intro b hb
      exact (h.irreversible b hb).trans_le hle
    · rw [hchain, List.map_append, List.map_singleton]
      exact hdb
    · rw [hchain, List.length_append, List.length_singleton]
      exact hcount
  by_cases hneed : block.num > (log.advance found).irreversible
  · rw [Nat.min_eq_left (by omega)] at hlength
    refine ⟨_, ?_, hmirrored _ (htracks.session hfilter) ?_⟩
    · simp only [filterInSession, hneed, decide_true, startUndoSession_current, commit_current,
        hfilter, Option.bind_eq_bind, Option.bind_some, if_true]
    · simp only [startUndoSession, if_true, List.length_cons, hlength]
      omega
  · rw [Nat.min_eq_right (by omega)] at hlength
    have hempty := List.length_eq_zero_iff.mp (hlength.trans (Nat.sub_self _))
    have hcount : block.num = (t.chain.map (·.eosioBlock)).length + 1 := by
      rw [List.length_map]
      exact hnum
    obtain ⟨db, hset, hnone, hdb⟩ := htracks.outside hempty hfilter hcount
    refine ⟨db, ?_, hmirrored _ hdb ?_⟩
    · simp only [filterInSession, hneed, decide_false, startUndoSession_current, commit_current,
        hfilter, Option.bind_eq_bind, Option.bind_some, Bool.false_eq_true, if_false]
      exact hset
    · rw [hnone, List.length_nil]
      omega

/-! ### Sequences of calls -/

theorem Mirrored.undo (h : Mirrored filterBlock emptyDb t) {removed : Nat} {log : Log}
    (hblocks : t.mirror.log.blocks = l ++ r)
    (hr : ∀ b ∈ r, t.mirror.log.irreversible < b.num)
    (hundo : (removed, log) = (r.length, { t.mirror.log with blocks := l })) :
    removed ≤ t.mirror.db.saved.length ∧ Mirrored filterBlock emptyDb
      { t with mirror := { log, db := forkedNBlocks t.mirror.db removed } } := by
  obtain ⟨rfl, rfl⟩ := Prod.mk.inj hundo
  exact h.undoTimes hblocks hr

theorem Mirrored.trim (h : Mirrored filterBlock emptyDb t) :
    Mirrored filterBlock emptyDb
      { trimmed := t.trimmed ++ t.mirror.trims .trimBlocks,
        mirror := { t.mirror with log := t.mirror.log.trim } } := by
  obtain ⟨l, r, hcut⟩ := exists_cut (pairwise_num h.linked.follows) t.mirror.log.irreversible
  have htrims : t.mirror.trims .trimBlocks = l := by
    rw [Mirror.trims, lowerBoundByNum_eq h.linked.follows hcut, hcut.append, List.take_left]
  have hchain : Trimmed.chain
      { trimmed := t.trimmed ++ t.mirror.trims .trimBlocks,
        mirror := { t.mirror with log := t.mirror.log.trim } } = t.chain := by
    rw [Trimmed.chain, Trimmed.chain, htrims, trim_eq h.linked.follows hcut, hcut.append,
      List.append_assoc]
  refine ⟨h.linked.trim, ?_, ?_, ?_, ?_, ?_⟩
  · rw [hchain]
    exact h.follows
  · rw [hchain]
    exact h.first
  · intro b hb
    rw [htrims, List.mem_append] at hb
    rcases hb with hb | hb
    · exact h.irreversible b hb
    · exact hcut.left b hb
  · rw [hchain]
    exact h.tracks
  · rw [hchain]
    exact h.saved

theorem call_eq_some {operation : Operation} {t' : Trimmed δ} :
    t.call filterBlock sha256 operation = some t' ↔
      ∃ m, t.mirror.call filterBlock sha256 operation = some m ∧
        { trimmed := t.trimmed ++ t.mirror.trims operation, mirror := m } = t' := by
  simp only [Trimmed.call, Option.bind_eq_bind, Option.bind_eq_some_iff, Option.pure_def,
    Option.some.injEq]

theorem filterBlock_of_filterInSession {log : Log} {db db' : Stack δ} {block : BlockWithId}
    (h : filterInSession filterBlock log db block = some db') :
    ∃ state, filterBlock db.current block.eosioBlock = some state := by
  unfold filterInSession at h
  rw [Option.bind_eq_bind, Option.bind_eq_some_iff] at h
  obtain ⟨state, hstate, _⟩ := h
  rw [startUndoSession_current, commit_current] at hstate
  exact ⟨state, hstate⟩

/-- A call other than `trimBlocks` trims nothing. -/
theorem Mirrored.of_call {operation : Operation} {m : Mirror δ} {t' : Trimmed δ}
    (hm : Mirrored filterBlock emptyDb { t with mirror := m })
    (htrims : t.mirror.trims operation = [])
    (hmirror : t.mirror.call filterBlock sha256 operation = some m)
    (hcall : t.call filterBlock sha256 operation = some t') :
    Mirrored filterBlock emptyDb t' := by
  obtain ⟨m', hm', rfl⟩ := call_eq_some.mp hcall
  rw [hmirror, Option.some.injEq] at hm'
  rw [htrims, List.append_nil, ← hm']
  exact hm

/-- A call undoes no more blocks than there are undo states, and keeps the database in step with
the chain unless `filter_block` aborts. -/
theorem Mirrored.call (h : Mirrored filterBlock emptyDb t) (operation : Operation) :
    t.mirror.undone sha256 operation ≤ t.mirror.db.saved.length ∧
      ∀ t', t.call filterBlock sha256 operation = some t' →
        Mirrored filterBlock emptyDb t' := by
  cases operation with
  | addBlock eosioBlock eosioIrreversible =>
      rcases push_edenBlock_eq sha256 h.linked eosioBlock eosioIrreversible with
        ⟨status, hstatus, hpush⟩ |
        ⟨l, r, log', hblocks, hr, hlinks, hbefore, hlog', hlinked, hpush⟩
      · refine ⟨?_, ?_⟩
        · rw [Mirror.undone, hpush]
          exact Nat.zero_le _
        · intro t' hcall
          have hmirror : t.mirror.call filterBlock sha256
              (.addBlock eosioBlock eosioIrreversible) = some t.mirror := by
            rw [Mirror.call, Mirror.addBlock, hpush]
            cases status with
            | appended => exact absurd rfl hstatus
            | duplicate => rfl
            | unlinkable => rfl
          exact h.of_call rfl hmirror hcall
      · obtain ⟨hlength, hundone⟩ := h.undoTimes hblocks hr
        refine ⟨?_, ?_⟩
        · rw [Mirror.undone, hpush]
          exact hlength
        · intro t' hcall
          obtain ⟨m, hm, rfl⟩ := call_eq_some.mp hcall
          rw [Mirror.call, Mirror.addBlock, hpush] at hm
          simp only [Option.bind_eq_bind, Option.bind_eq_some_iff, Option.pure_def,
            Option.some.injEq] at hm
          obtain ⟨db, hdb, rfl⟩ := hm
          obtain ⟨state, hstate⟩ := filterBlock_of_filterInSession hdb
          have hfound : ∀ b ∈ log'.blockBeforeEosioNum (next eosioIrreversible),
              b ∈ log'.blocks := fun b => mem_of_mem_blockBefore
          obtain ⟨db', hdb', hmirrored⟩ := hundone.append hlinks hbefore hlog' hlinked hfound
            hstate
          rw [hdb, Option.some.injEq] at hdb'
          have htrims : t.mirror.trims (.addBlock eosioBlock eosioIrreversible) = [] := rfl
          rw [htrims, List.append_nil, hdb']
          exact hmirrored
  | undoBlockNum blockNum =>
      obtain ⟨l, r, hblocks, hr, hundo⟩ := undo_eq h.linked.follows blockNum
      obtain ⟨hlength, hmirrored⟩ := h.undo hblocks hr hundo
      exact ⟨hlength, fun t' hcall => hmirrored.of_call rfl rfl hcall⟩
  | undoEosioNum eosioNum =>
      obtain ⟨l, r, hblocks, hr, hundo⟩ := undoEosio_eq h.linked.follows eosioNum
      obtain ⟨hlength, hmirrored⟩ := h.undo hblocks hr hundo
      exact ⟨hlength, fun t' hcall => hmirrored.of_call rfl rfl hcall⟩
  | setIrreversible irreversible =>
      have hfound : ∀ b ∈ t.mirror.log.blockBeforeNum (next irreversible),
          b ∈ t.mirror.log.blocks := fun b => mem_of_mem_blockBefore
      exact ⟨Nat.zero_le _, fun t' hcall => (h.commit hfound).of_call rfl rfl hcall⟩
  | trimBlocks =>
      refine ⟨Nat.zero_le _, ?_⟩
      intro t' hcall
      obtain ⟨m, hm, rfl⟩ := call_eq_some.mp hcall
      rw [← Option.some.inj hm]
      exact h.trim

theorem Mirrored.empty : Mirrored filterBlock emptyDb { mirror := { db := { current := emptyDb } } }
    where
  linked := .empty
  follows := List.isChain_nil
  first b hb := by simp [Trimmed.chain] at hb
  irreversible b hb := by simp at hb
  tracks := .empty
  saved := rfl

theorem run_mirrored {operations : List Operation} {t : Trimmed δ}
    (h : Trimmed.run filterBlock sha256 emptyDb operations = some t) :
    Mirrored filterBlock emptyDb t := by
  induction operations using List.reverseRecOn generalizing t with
  | nil =>
      rw [← Option.some.inj h]
      exact .empty
  | append_singleton operations operation ih =>
      rw [Trimmed.run, foldlM_concat, Option.bind_eq_bind, Option.bind_eq_some_iff] at h
      obtain ⟨before, hbefore, hcall⟩ := h
      exact ((ih hbefore).call operation).2 t hcall

/-- After any calls that do not abort, the database is that of the current chain, its revision is
the number of the head, and every block that the next call undoes has its undo state. -/
theorem mirror_follows_chain {operations : List Operation} {t : Trimmed δ}
    (h : Trimmed.run filterBlock sha256 emptyDb operations = some t) :
    (t.chain.map (·.eosioBlock)).foldlM filterBlock emptyDb = some t.mirror.db.current ∧
      t.chain.IsChain Follows ∧ (∀ b ∈ t.chain.head?, b.num = 1) ∧
      t.mirror.db.revision = (t.mirror.log.head.map (·.num)).getD 0 ∧
      ∀ operation, ∀ i < t.mirror.undone sha256 operation, ∃ state,
        t.mirror.db.saved[i]? = some state ∧
          ((t.chain.take (t.chain.length - 1 - i)).map (·.eosioBlock)).foldlM filterBlock emptyDb =
            some state := by
  have hm := run_mirrored h
  refine ⟨hm.tracks.current, hm.follows, hm.first, ?_, ?_⟩
  · have hrevision := hm.tracks.revision
    rw [List.length_map] at hrevision
    rw [hrevision, Log.head, ← hm.getLast?_chain]
    cases hlast : t.chain.getLast? with
    | none =>
        rw [List.getLast?_eq_none_iff.mp hlast]
        rfl
    | some b => exact (num_getLast hm.follows hm.first hlast).symm
  · intro operation i hi
    have hlt := hi.trans_le (hm.call operation).1
    have hget := List.getElem?_eq_getElem hlt
    obtain ⟨_, hstate⟩ := hm.tracks.saved i _ hget
    refine ⟨_, hget, ?_⟩
    rwa [List.length_map, ← List.map_take] at hstate

def collectIds (ids : List Checksum) (block : EosioBlock) : Option (List Checksum) :=
  some (ids ++ [block.id])

def emptyBlock (num : Nat) (id : Checksum) : EosioBlock :=
  { num, id, previous := noChecksum, timestamp := 0, transactions := [] }

/-- The third block is replaced after the first one has been trimmed, and is undone later on. -/
def forkCalls : List Operation :=
  [.addBlock (emptyBlock 10 [1]) 9, .addBlock (emptyBlock 11 [2]) 10,
    .addBlock (emptyBlock 12 [3]) 11, .trimBlocks, .addBlock (emptyBlock 12 [4]) 11,
    .addBlock (emptyBlock 12 [4]) 11, .addBlock (emptyBlock 13 [5]) 11, .undoEosioNum 13]

theorem forkCalls_follow_chain : ∃ t,
    Trimmed.run collectIds (·.eosioBlock.id) [] forkCalls = some t ∧
      t.trimmed.length = 1 ∧ t.mirror.db.current = [[1], [2], [4]] ∧
      (t.chain.map (·.eosioBlock)).foldlM collectIds [] = some t.mirror.db.current := by
  have hrun : (Trimmed.run collectIds (·.eosioBlock.id) [] forkCalls).any (fun t =>
      t.trimmed.length = 1 ∧ t.mirror.db.current = [[1], [2], [4]]) = true := by decide +kernel
  obtain ⟨t, ht, hcurrent⟩ := (Option.any_eq_true _ _).mp hrun
  obtain ⟨htrimmed, hcurrent⟩ := of_decide_eq_true hcurrent
  exact ⟨t, ht, htrimmed, hcurrent, (mirror_follows_chain ht).1⟩

end Eden.MirrorForks
