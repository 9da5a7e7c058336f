import Eden.ChainPrimitives
import Eden.LowerBound

/-!
The block log of the micro chain: blocks that link to each other, some of which may be undone.
-/

namespace Eden.BlockLog

open Eden.LowerBound
open Eden.ChainPrimitives

/-- `checksum256()` -/
def noChecksum : Checksum := List.replicate 32 0

structure CreatorAction where
  seq : Nat
  receiver : Name
  deriving DecidableEq, Repr

structure TraceAction where
  seq : Nat := 0
  firstReceiver : Name
  receiver : Name
  name : Name
  creatorAction : Option CreatorAction := none
  hexData : Bytes
  deriving DecidableEq, Repr

structure TraceTransaction where
  id : Checksum
  actions : List TraceAction
  deriving DecidableEq, Repr

structure EosioBlock where
  num : Nat := 0
  id : Checksum
  previous : Checksum
  timestamp : Nat
  transactions : List TraceTransaction
  deriving DecidableEq, Repr

structure Block where
  num : Nat := 0
  previous : Checksum := noChecksum
  eosioBlock : EosioBlock
  deriving DecidableEq, Repr

structure BlockWithId extends Block where
  id : Checksum
  deriving DecidableEq, Repr

inductive Status
  | appended
  | duplicate
  | unlinkable
  deriving DecidableEq, Repr

structure Log where
  blocks : List BlockWithId := []
  irreversible : Nat := 0
  deriving DecidableEq, Repr

/-- The successor of a `uint32_t`. -/
def next (num : Nat) : Nat :=
  (num + 1) % 2 ^ 32

namespace Log

/-- Positions stand for iterators; the end of the log is its length. -/
def lowerBoundByNum (log : Log) (num : Nat) : Nat :=
  match log.blocks with
  | [] => log.blocks.length
  | front :: _ =>
      let head := front.num
      if num ≤ head then 0
      else if num - head < log.blocks.length then num - head
      else log.blocks.length

def head (log : Log) : Option BlockWithId :=
  log.blocks.getLast?

/-- The block at a position, if it is the one that is looked for. -/
def blockAt (log : Log) (position : Nat) (wanted : BlockWithId → Bool) : Option BlockWithId :=
  log.blocks[position]?.filter wanted

/-- The block in front of a position. -/
def blockBefore (log : Log) (position : Nat) : Option BlockWithId :=
  if position ≠ 0 then log.blocks[position - 1]? else none

def blockByNum (log : Log) (num : Nat) : Option BlockWithId :=
  log.blockAt (log.lowerBoundByNum num) (·.num = num)

def lowerBoundByEosioNum (log : Log) (num : Nat) : Nat :=
  lowerBound (fun block => decide (block.eosioBlock.num < num)) log.blocks

def blockByEosioNum (log : Log) (num : Nat) : Option BlockWithId :=
  log.blockAt (log.lowerBoundByEosioNum num) (·.eosioBlock.num = num)

def blockBeforeNum (log : Log) (num : Nat) : Option BlockWithId :=
  log.blockBefore (log.lowerBoundByNum num)

def blockBeforeEosioNum (log : Log) (num : Nat) : Option BlockWithId :=
  log.blockBefore (log.lowerBoundByEosioNum num)

/-- `block_log::add_block`: the status, how many blocks a fork has removed, and the log. -/
def addBlock (log : Log) (block : BlockWithId) : Status × Nat × Log :=
  let it := log.lowerBoundByNum block.num
  if (log.blocks[it]?).any (·.id = block.id) then (.duplicate, 0, log)
  else if it = 0 ∧ block.num ≠ 1 then (.unlinkable, 0, log)
  else if it ≠ 0 ∧ ¬ (log.blocks[it - 1]?).any
      (fun prev => block.previous = prev.id ∧ block.num = next prev.num) then
    (.unlinkable, 0, log)
  else if (log.blocks[it]?).any (·.num ≤ log.irreversible) then (.unlinkable, 0, log)
  else (.appended, log.blocks.length - it,
    { log with blocks := log.blocks.take it ++ [block] })

/-- `block_log::undo`: how many blocks it has removed, and the log. -/
def undo (log : Log) (blockNum : Nat) : Nat × Log :=
  if blockNum ≤ log.irreversible then (0, log)
  else
    let it := log.lowerBoundByNum blockNum
    if (log.blocks[it]?).any (·.num = blockNum) then
      (log.blocks.length - it, { log with blocks := log.blocks.take it })
    else (0, log)

/-- Keep only 1 irreversible block. -/
def trim (log : Log) : Log :=
  { log with blocks := log.blocks.drop (log.lowerBoundByNum log.irreversible) }

/-- The irreversible number rises to the number of a block that was found. -/
def advance (log : Log) (found : Option BlockWithId) : Log :=
  match found with
  | some block => { log with irreversible := max log.irreversible block.num }
  | none => log

end Log

section MicroChain

-- The hash of a serialized block.
variable (sha256 : Block → Checksum)

/-- The block that `add_block` makes of an eosio block. -/
def edenBlock (log : Log) (eosioBlock : EosioBlock) : BlockWithId :=
  let block : Block :=
    match log.blockBeforeEosioNum eosioBlock.num with
    | some edenPrev => { num := next edenPrev.num, previous := edenPrev.id, eosioBlock }
    | none => { num := 1, eosioBlock }
  { block with id := sha256 block }

/-- What `add_block` does to the log: add a block and advance the irreversible number. -/
def Log.push (log : Log) (block : BlockWithId) (eosioIrreversible : Nat) : Status × Nat × Log :=
  match log.addBlock block with
  | (.appended, numForked, log) =>
      (.appended, numForked, log.advance (log.blockBeforeEosioNum (next eosioIrreversible)))
  | (status, _, _) => (status, 0, log)

/-- What `undoEosioNum` does to the log. -/
def Log.undoEosio (log : Log) (eosioNum : Nat) : Nat × Log :=
  match log.blockByEosioNum eosioNum with
  | some block => log.undo block.num
  | none => (0, log)

/-- What `setIrreversible` does to the log. -/
def Log.setIrreversible (log : Log) (irreversible : Nat) : Log :=
  log.advance (log.blockBeforeNum (next irreversible))

/-- The calls that change the log. -/
inductive Operation
  | addBlock (eosioBlock : EosioBlock) (eosioIrreversible : Nat)
  | undoBlockNum (blockNum : Nat)
  | undoEosioNum (eosioNum : Nat)
  | setIrreversible (irreversible : Nat)
  | trimBlocks
  deriving DecidableEq, Repr

def Log.step (log : Log) : Operation → Log
  | .addBlock eosioBlock eosioIrreversible =>
      (log.push (edenBlock sha256 log eosioBlock) eosioIrreversible).2.2
  | .undoBlockNum blockNum => (log.undo blockNum).2
  | .undoEosioNum eosioNum => (log.undoEosio eosioNum).2
  | .setIrreversible irreversible => log.setIrreversible irreversible
  | .trimBlocks => log.trim

/-- The log after a sequence of calls. -/
def Log.run (log : Log) (operations : List Operation) : Log :=
  operations.foldl (Log.step sha256) log

end MicroChain

end Eden.BlockLog
