import Eden.BlockLog

/-!
A server sends the blocks of its log to a client over a websocket, and corrects what it knows about
the client's log when its own log changes.
-/

namespace Eden.Synchronisation

open Eden.ChainPrimitives
open Eden.BlockLog
open Eden.BlockLog.Log

structure BlockInfo where
  num : Nat
  id : Checksum
  deriving DecidableEq, Repr

structure ClientStatus where
  maxBlocksToSend : Nat
  irreversible : Nat
  blocks : List BlockInfo
  deriving DecidableEq, Repr

/-- A block, or one of the kinds of `ServerMessage`. -/
inductive Message
  | block (block : BlockWithId)
  | setHead (head : Nat)
  | setIrreversible (irreversible : Nat)
  | sendStatus
  deriving DecidableEq, Repr

def blockInfo (block : BlockWithId) : BlockInfo :=
  { num := block.num, id := block.id }

/-- `EdenSubchain.getIrreversible` -/
def getIrreversible (log : Log) : Nat :=
  ((log.blockByNum log.irreversible).map (·.num)).getD 0

/-! ### Server -/

/-- The number of the last block, as `Storage.changed` remembers it. -/
def storageHead (storage : Log) : Nat :=
  (storage.head.map (·.num)).getD 0

/-- `Storage.idForNum`, which throws when there is no block. -/
def idForNum (storage : Log) (num : Nat) : Option Checksum :=
  (storage.blockByNum num).map (·.id)

/-- `ConnectionState.head` -/
def headOf (blocks : List BlockInfo) : Nat :=
  (blocks.getLast?.map (·.num)).getD 0

/-- The first loop of `ConnectionState.update`, over the reversed `status.blocks`: the blocks that
remain, and whether a block has been popped. -/
def popBlocks (storage : Log) (needHeadUpdate : Bool) :
    List BlockInfo → Option (List BlockInfo × Bool)
  | [] => some ([], needHeadUpdate)
  | b :: blocks =>
      if b.num > storageHead storage then popBlocks storage true blocks
      else do
        let id ← idForNum storage b.num
        if b.id ≠ id then popBlocks storage true blocks
        else return (b :: blocks, needHeadUpdate)

/-- The status of a client while messages are sent to it. -/
structure Sending where
  irreversible : Nat
  blocks : List BlockInfo
  needHeadUpdate : Bool
  sent : List Message := []

/-- One turn of the second loop of `ConnectionState.update`. -/
def sendBlock (storage : Log) (s : Sending) : Option Sending := do
  let needBlock := headOf s.blocks + 1
  let block ← storage.blockByNum needBlock
  let id ← idForNum storage needBlock
  let blocks := s.blocks ++ [{ num := needBlock, id }]
  let irreversible := min (getIrreversible storage) (headOf blocks)
  if irreversible > s.irreversible then
    return { irreversible, blocks, needHeadUpdate := false,
             sent := s.sent ++ [.block block, .setIrreversible irreversible] }
  else return { s with blocks, needHeadUpdate := false, sent := s.sent ++ [.block block] }

/-- The second loop of `ConnectionState.update`, with what remains of `maxBlocksToSend`. -/
def sendBlocks (storage : Log) : Nat → Sending → Option (Nat × Sending)
  | 0, s => some (0, s)
  | maxBlocksToSend + 1, s =>
      if headOf s.blocks + 1 > storageHead storage then some (maxBlocksToSend + 1, s)
      else do
        let s ← sendBlock storage s
        sendBlocks storage maxBlocksToSend s

/-- `ConnectionState.update` with a status: the status afterwards and the messages, unless it
throws and closes the connection. -/
def update (storage : Log) (status : ClientStatus) :
    Option (Option ClientStatus × List Message) := do
  let (blocks, needHeadUpdate) ← popBlocks storage false status.blocks.reverse
  let (maxBlocksToSend, s) ← sendBlocks storage status.maxBlocksToSend
    { irreversible := status.irreversible, blocks := blocks.reverse, needHeadUpdate }
  let sent := if s.needHeadUpdate then s.sent ++ [.setHead (headOf s.blocks)] else s.sent
  if maxBlocksToSend = 0 then return (none, sent ++ [.sendStatus])
  else return (some { maxBlocksToSend, irreversible := s.irreversible, blocks := s.blocks }, sent)

/-! ### Client -/

/-- `SubchainClient.sendStatus` -/
def sendStatus (slowmo : Bool) (log : Log) : ClientStatus :=
  let irreversible := getIrreversible log
  { maxBlocksToSend := if slowmo then 1 else 1000,
    irreversible,
    blocks := (log.blocks.drop (log.lowerBoundByNum irreversible)).map blockInfo }

/-- What `SubchainClient.processQueue` does to the log for a message. -/
def process (log : Log) : Message → Log
  | .block block => (log.push block 0).2.2
  | .setHead head => (log.undo (next head)).2
  | .setIrreversible irreversible => (log.setIrreversible irreversible).trim
  | .sendStatus => log

/-! ### Server, client and the messages between them -/

structure Net where
  storage : Log
  /-- The status that the server keeps, unless it waits for one. -/
  status : Option ClientStatus := none
  toClient : List Message := []
  toServer : List ClientStatus
  client : Log
  /-- The connection has been closed by an exception. -/
  closed : Bool := false
  /-- The server's log at its last update. -/
  updated : Log := {}
  /-- Whether the client has appended the blocks sent to it. -/
  results : List BlockLog.Status := []
  /-- The blocks that the server or the client has held. -/
  held : List BlockWithId

inductive Event
  /-- A change of the server's log, which is not trimmed. -/
  | change (operation : Operation)
  | update
  | receiveStatus
  | receiveMessage
  deriving DecidableEq, Repr

/-- The server updates a status. -/
def Net.update (net : Net) (status : ClientStatus) : Net :=
  match Synchronisation.update net.storage status with
  | some (status, messages) =>
      { net with status, toClient := net.toClient ++ messages, updated := net.storage }
  | none => { net with status := none, closed := true }

def Net.step (sha256 : Block → Checksum) (slowmo : Bool) (net : Net) : Event → Option Net
  | .change operation =>
      if operation = .trimBlocks then none
      else
        let storage := net.storage.step sha256 operation
        some { net with storage, held := net.held ++ storage.blocks }
  | .update =>
      match net.status with
      | some status => some (net.update status)
      | none => none
  | .receiveStatus =>
      match net.toServer with
      | status :: toServer => some (Net.update { net with toServer } status)
      | [] => none
  | .receiveMessage =>
      match net.toClient with
      | message :: toClient =>
          let results :=
            match message with
            | .block block => net.results ++ [(net.client.push block 0).1]
            | _ => net.results
          let toServer :=
            match message with
            | .sendStatus => net.toServer ++ [sendStatus slowmo net.client]
            | _ => net.toServer
          some { net with toClient, toServer, results, client := process net.client message }
      | [] => none

/-- A client connects and sends its status. -/
def Net.connect (slowmo : Bool) (storage client : Log) : Net :=
  { storage, client, toServer := [sendStatus slowmo client],
    held := storage.blocks ++ client.blocks }

end Eden.Synchronisation
