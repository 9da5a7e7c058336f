import Eden.MirrorTables

/-!
The handlers of the micro chain: what it does for each action, notification and event of a block.
-/

namespace Eden.MirrorHandlers

open Eden.ExceptReasoning
open Eden.ObjectTable
open Eden.ObjectTable.Objects
open Eden.ChainPrimitives
open Eden.ContractState
open Eden.Runtime
open Eden.AccountTables
open Eden.MirrorTables

/-- A database while a block is filtered, with the flags of `block_state`. -/
structure Filter where
  db : Database
  inWithdraw : Bool := false
  inManualTransfer : Bool := false

/-- `clearall`: all objects are removed, and ids go on. -/
def clearall (db : Database) : Database := { nextGroupId := db.nextGroupId }

/-! ### Funds -/

def notifyTransfer (p : Platform) (tokenAccount : Name) (time : Nat) (f : Filter)
    (sender receiver : Name) (quantity : Asset) : Outcome Filter :=
  if receiver = p.self then do
    let db ← transferFunds f.db time tokenAccount sender quantity .deposit
    if isPossibleDepositAccount p sender then return { f with db := db }
    else do
      let db ← transferFunds db time sender masterPool quantity .fund
      return { f with db := db }
  else if f.inWithdraw then do
    let db ← transferFunds f.db time receiver tokenAccount quantity .withdraw
    return { f with db := db, inWithdraw := false }
  else do
    let db ← transferFunds f.db time masterPool receiver quantity
      (if f.inManualTransfer then .manualTransfer else .externalSpend)
    let db ← transferFunds db time receiver tokenAccount quantity .withdraw
    return { f with db := db, inManualTransfer := false }

def checkTransferOrder (f : Filter) : Outcome Unit :=
  check (!f.inWithdraw && !f.inManualTransfer) "transfer notifications have incorrect order"

def withdraw (f : Filter) : Outcome Filter := do
  checkTransferOrder f
  return { f with inWithdraw := true }

def transfer (f : Filter) : Outcome Filter := do
  checkTransferOrder f
  return { f with inManualTransfer := true }

/-- Take an amount from the current balance of a fund. -/
def spendFund (db : Database) (owner : Name) (distributionTime rank : Nat) (amount : Asset) :
    Outcome Database := do
  let fund ← get db.distributionFunds (owner, distributionTime, rank)
  let balance ← fund.currentBalance.sub amount
  let funds ← modify db.distributionFunds (owner, distributionTime, rank)
    (fun fund => { fund with currentBalance := balance }) fun _ => rfl
  return { db with distributionFunds := funds }

def fundtransfer (p : Platform) (time : Nat) (db : Database) (sender : Name)
    (distributionTime rank : Nat) (receiver : Name) (amount : Asset) : Outcome Database := do
  let db ← transferFunds db time (distributionFund p) receiver amount .fundTransfer
  spendFund db sender distributionTime rank amount

/-! ### Inductions -/

def addGenesisMember (p : Platform) (status : Status) (inductions : Objects InductionObject.id)
    (member : Name) : Outcome (Objects InductionObject.id) :=
  emplace inductions
    { id := availablePk inductions 1
      inviter := (p.self, false)
      invitee := member
      witnesses := (status.initialMembers.filter (· ≠ member)).map fun witness => (witness, false) }

def genesis (p : Platform) (db : Database) (status : Status) : Outcome Database := do
  check db.status.isNone "duplicate genesis action"
  let inductions ← status.initialMembers.foldlM (addGenesisMember p status) db.inductions
  return { db with status := some status, inductions := inductions }

def addtogenesis (p : Platform) (db : Database) (newGenesisMember : Name) : Outcome Database := do
  let status ← getStatus db
  let status := { status with initialMembers := status.initialMembers ++ [newGenesisMember] }
  let inductions := db.inductions.modifyAll
    (fun o => { o with witnesses := o.witnesses ++ [(newGenesisMember, false)] }) fun _ => rfl
  let inductions ← addGenesisMember p status inductions newGenesisMember
  return { db with status := some status, inductions := inductions }

def inductinit (time : Nat) (db : Database) (id : Nat) (inviter invitee : Name)
    (witnesses : List Name) : Outcome Database := do
  let status ← getStatus db
  let inductions ← emplace (db.inductions.erase id)
    { id := id
      inviter := (inviter, false)
      invitee := invitee
      witnesses := witnesses.map fun witness => (witness, false)
      createdAt := time }
  return { db with status := some { status with active := true }, inductions := inductions }

/-- `inductprofil` and `inductvideo` reset the endorsements. -/
def resetEndorsements (o : InductionObject) : InductionObject :=
  { o with
    inviter := (o.inviter.1, false)
    witnesses := o.witnesses.map fun witness => (witness.1, false) }

def inductprofil (db : Database) (id : Nat) (profile : NewMemberProfile) : Outcome Database := do
  let inductions ← modify db.inductions id
    (fun o => resetEndorsements { o with profile := profile }) fun _ => rfl
  return { db with inductions := inductions }

def inductvideo (db : Database) (id : Nat) (video : Text) : Outcome Database := do
  let inductions ← modify db.inductions id
    (fun o => resetEndorsements { o with video := video }) fun _ => rfl
  return { db with inductions := inductions }

def inductcancel (db : Database) (id : Nat) : Database :=
  { db with inductions := db.inductions.erase id }

def inductdonate (time : Nat) (db : Database) (payer : Name) (id : Nat) (quantity : Asset) :
    Outcome Database := do
  let induction ← get db.inductions id
  let video ← (if induction.video = [] then do
      let status ← getStatus db
      return status.genesisVideo
    else return induction.video : Outcome Text)
  let members ← emplace db.members
    { account := induction.invitee
      inviter := induction.inviter.1
      inductionWitnesses := induction.witnesses.map Prod.fst
      profile := induction.profile
      inductionVideo := video
      createdAt := time }
  let db ← transferFunds { db with members := members } time payer masterPool quantity .inductdonate
  return { db with inductions := db.inductions.filter fun o => o.invitee ≠ induction.invitee }

/-- Mark the first witness with a name. -/
def markWitness (account : Name) : List InductionEndorser → List InductionEndorser
  | [] => []
  | w :: rest => if w.1 = account then (w.1, true) :: rest else w :: markWitness account rest

def endorse (account : Name) (o : InductionObject) : InductionObject :=
  if account = o.inviter.1 then { o with inviter := (o.inviter.1, true) }
  else { o with witnesses := markWitness account o.witnesses }

theorem id_endorse (account : Name) (o : InductionObject) : (endorse account o).id = o.id := by
  unfold endorse
  split <;> rfl

def inductendors (db : Database) (account : Name) (id : Nat) : Outcome Database := do
  let inductions ← modify db.inductions id (endorse account) (id_endorse account)
  return { db with inductions := inductions }

/-! ### Members -/

def resign (db : Database) (account : Name) : Database :=
  { db with members := db.members.erase account }

/-- Change all rows of a table, one after the other. -/
def alterEach {α κ : Type} [DecidableEq κ] {key : α → κ} (t : Objects key) (f : α → α) :
    Outcome (Objects key) := expect (t.alterEach? f) modifyError

section Rename

variable (oldAccount newAccount : Name)

/-- `update` of `rename` -/
def renamed (account : Name) : Name := if account = oldAccount then newAccount else account

def renameHistory (o : BalanceHistoryObject) : BalanceHistoryObject :=
  { o with
    account := renamed oldAccount newAccount o.account
    otherAccount := renamed oldAccount newAccount o.otherAccount }

def renameInduction (o : InductionObject) : InductionObject :=
  { o with
    inviter := (renamed oldAccount newAccount o.inviter.1, o.inviter.2)
    witnesses := o.witnesses.map fun w => (renamed oldAccount newAccount w.1, w.2) }

def renameMember (o : MemberObject) : MemberObject :=
  { o with
    account := renamed oldAccount newAccount o.account
    inviter := renamed oldAccount newAccount o.inviter
    inductionWitnesses := o.inductionWitnesses.map (renamed oldAccount newAccount) }

def renameVote (o : VoteObject) : VoteObject :=
  { o with
    voter := renamed oldAccount newAccount o.voter
    candidate := renamed oldAccount newAccount o.candidate }

def renameFund (o : DistributionFundObject) : DistributionFundObject :=
  { o with owner := renamed oldAccount newAccount o.owner }

def renameNft (o : NftObject) : NftObject :=
  { o with
    member := renamed oldAccount newAccount o.member
    owner := renamed oldAccount newAccount o.owner }

def rename (db : Database) : Outcome Database := do
  let status ← getStatus db
  let balances ← expect (db.balances.alter? oldAccount fun o => { o with account := newAccount })
    modifyError
  let encryptionKeys ← expect
    (db.encryptionKeys.alter? oldAccount fun o => { o with account := newAccount }) modifyError
  let members ← alterEach db.members (renameMember oldAccount newAccount)
  let votes ← alterEach db.votes (renameVote oldAccount newAccount)
  let funds ← alterEach db.distributionFunds (renameFund oldAccount newAccount)
  return { db with
    status := some
      { status with initialMembers := status.initialMembers.map (renamed oldAccount newAccount) }
    balances := balances
    balanceHistory := db.balanceHistory.map (renameHistory oldAccount newAccount)
    encryptionKeys := encryptionKeys
    inductions := db.inductions.modifyAll (renameInduction oldAccount newAccount) fun _ => rfl
    members := members
    electionGroups := db.electionGroups.modifyAll
      (fun o => { o with winner := renamed oldAccount newAccount o.winner }) fun _ => rfl
    votes := votes
    distributionFunds := funds
    nfts := db.nfts.modifyAll (renameNft oldAccount newAccount) fun _ => rfl }

end Rename

def setencpubkey (db : Database) (member : Name) (key : PublicKey) : Outcome Database := do
  let keys ← (if (db.encryptionKeys.find? member).isSome then
      .ok (db.encryptionKeys.modify member (fun o => { o with encryptionKey := key }) fun _ => rfl)
    else emplace db.encryptionKeys ⟨member, key⟩ : Outcome (Objects EncryptionKeyObject.account))
  return { db with encryptionKeys := keys }

/-! ### Elections -/

def clearParticipating (db : Database) : Outcome Database := do
  let status ← getStatus db
  return { db with
    members := db.members.modifyAll (fun o => { o with participating := false }) fun _ => rfl
    status := some { status with numElectionParticipants := 0 } }

/-- The counter has 16 bits. -/
def electopt (db : Database) (voter : Name) (participating : Bool) : Outcome Database := do
  let members ← modify db.members voter (fun o => { o with participating := participating })
    fun _ => rfl
  let status ← getStatus db
  let change := if participating then 1 else 2 ^ 16 - 1
  return { db with
    members := members
    status := some { status with
      numElectionParticipants := (status.numElectionParticipants + change) % 2 ^ 16 } }

/-- The last election. -/
def lastElection (db : Database) : Option ElectionObject :=
  db.elections.rows.argmax ElectionObject.time

def electvote (db : Database) (round : Nat) (voter candidate : Name) : Outcome Database := do
  let election ← expect (lastElection db) (.check "electvote without any elections")
  let votes ← modify db.votes (voter, election.time, round)
    (fun o => { o with candidate := candidate }) fun _ => rfl
  return { db with votes := votes }

def electvideo (db : Database) (round : Nat) (voter : Name) (video : Text) : Database :=
  match lastElection db with
  | none => db
  | some election =>
      let votes := db.votes.modify (voter, election.time, round)
        (fun o => { o with video := video }) fun _ => rfl
      { db with votes := votes }

/-! ### Assets -/

/-- The alternatives of `attribute_value` that the handlers tell apart. -/
inductive AttributeValue
  | string (value : Text)
  | other
  deriving DecidableEq, Repr

/-- `attribute_map` -/
abbrev AttributeMap := List (Text × AttributeValue)

/-- What `logmint` notifies of. -/
structure Mint where
  assetId : Nat
  authorizedMinter : Name
  collectionName : Name
  schemaName : Name
  templateId : Int
  newAssetOwner : Name
  immutableData : AttributeMap
  immutableTemplateData : AttributeMap
  deriving DecidableEq, Repr

/-- `"account"` -/
def accountKey : Text := ['a', 'c', 'c', 'o', 'u', 'n', 't']

/-- `std::find_if(immutable_template_data.begin(), immutable_data.end(), …)`. Without the attribute,
the search goes on past the end of the template's data, unless both lists are empty. -/
def findAccount (m : Mint) : Outcome (Option AttributeValue) :=
  match m.immutableTemplateData.find? fun a => a.1 = accountKey with
  | some a => return some a.2
  | none =>
      if m.immutableTemplateData = [] ∧ m.immutableData = [] then return none
      else .error (.undefined "find_if past the end")

/-- `std::get<std::string>` -/
def getString : AttributeValue → Outcome Text
  | .string value => return value
  | .other => .error (.check "bad_variant_access")

/-- The table lives in 32-bit memory, so a count of its rows fits in `templateMint`. -/
def logmint (p : Platform) (time : Nat) (db : Database) (m : Mint) : Outcome Database :=
  if m.authorizedMinter ≠ p.self ∨ m.collectionName ≠ p.self ∨ m.schemaName ≠ p.schemaName then
    return db
  else do
    match ← findAccount m with
    | none => return db
    | some value =>
        let member ← nameOfText (← getString value)
        let nfts ← emplace db.nfts
          { member := member
            owner := m.newAssetOwner
            templateId := m.templateId
            assetId := m.assetId
            templateMint := db.nfts.rows.countP fun o => o.member = member
            createdAt := time }
        return { db with nfts := nfts }

def logtransfer (p : Platform) (db : Database) (collectionName receiver : Name)
    (assetIds : List Nat) : Database :=
  if collectionName ≠ p.self then db
  else
    let nfts := assetIds.foldl
      (fun nfts id => nfts.modify id (fun o => { o with owner := receiver }) fun _ => rfl) db.nfts
    { db with nfts := nfts }

/-! ### Events -/

/-- The groups of a round. -/
def groupsOf (db : Database) (electionTime round : Nat) : List ElectionGroupObject :=
  db.electionGroups.rows.filter fun o => o.electionTime = electionTime && o.round = round

def createGroup (db : Database) (electionTime round : Nat) (voters : List Name) :
    Outcome Database := do
  let firstMember ← expect voters.min? (.check "group has no voters")
  let groups ← emplace db.electionGroups ⟨db.nextGroupId, electionTime, round, firstMember, emptyName⟩
  let votes ← voters.foldlM
    (fun votes voter => emplace votes { electionTime, round, groupId := db.nextGroupId, voter })
    db.votes
  return { db with electionGroups := groups, nextGroupId := db.nextGroupId + 1, votes := votes }

def reportGroup (db : Database) (electionTime round : Nat) (winner : Name)
    (reports : List VoteReport) : Outcome Database := do
  let firstMember ← expect (reports.map VoteReport.voter).min? (.check "group has no votes")
  let groups ← modify db.electionGroups (electionTime, round, firstMember)
    (fun o => { o with winner := winner }) fun _ => rfl
  let votes ← reports.foldlM
    (fun votes v => modify votes (v.voter, electionTime, round)
      (fun o => { o with candidate := v.candidate }) fun _ => rfl) db.votes
  return { db with electionGroups := groups, votes := votes }

/-- The final group is looked up in the last round that was announced. -/
def endElection (db : Database) (electionTime : Nat) : Outcome Database := do
  let election ← get db.elections electionTime
  let finalGroup := election.numRounds.bind fun numRounds =>
    if numRounds = 0 then none
    else (groupsOf db electionTime (numRounds - 1)).argmin ElectionGroupObject.firstMember
  let elections := db.elections.modify electionTime
    (fun o => { o with
      resultsAvailable := true
      finalGroupId := (finalGroup.map ElectionGroupObject.id).or o.finalGroupId }) fun _ => rfl
  clearParticipating { db with elections := elections }

def modifyElection (db : Database) (electionTime : Nat) (f : ElectionObject → ElectionObject)
    (hf : ∀ o, (f o).time = o.time) : Outcome Database := do
  let elections ← modify db.elections electionTime f hf
  return { db with elections := elections }

def modifyRound (db : Database) (electionTime round : Nat)
    (f : ElectionRoundObject → ElectionRoundObject) (hf : ∀ o, (f o).byRound = o.byRound) :
    Outcome Database := do
  let rounds ← modify db.electionRounds (electionTime, round) f hf
  return { db with electionRounds := rounds }

def handleEvent (p : Platform) (time : Nat) (db : Database) : Event → Outcome Database
  | .migration index => do
      let status ← getStatus db
      return { db with status := some { status with migrationIndex := index } }
  | .electionSchedule electionTime electionThreshold => do
      let status ← getStatus db
      return { db with
        status := some
          { status with nextElection := electionTime, electionThreshold := electionThreshold }
        members := db.members.modifyAll (fun o => { o with participating := false }) fun _ => rfl }
  | .electionBegin electionTime => do
      let elections ← emplace db.elections { time := electionTime }
      return { db with elections := elections }
  | .electionSeeding electionTime startTime endTime seed =>
      modifyElection db electionTime (fun o => { o with
        seeding := true
        seedingStartTime := some startTime
        seedingEndTime := some endTime
        seed := some seed }) fun _ => rfl
  | .electionEndSeeding electionTime =>
      modifyElection db electionTime (fun o => { o with
        seeding := false
        seedingStartTime := none
        seedingEndTime := none }) fun _ => rfl
  | .electionConfigSummary electionTime numRounds numParticipants =>
      modifyElection db electionTime (fun o => { o with
        numRounds := some numRounds
        numParticipants := some numParticipants }) fun _ => rfl
  | .electionCreateRound electionTime round requiresVoting numParticipants numGroups => do
      let rounds ← emplace db.electionRounds
        { electionTime, round, numParticipants, numGroups, requiresVoting }
      return { db with electionRounds := rounds }
  | .electionCreateGroup electionTime round voters => createGroup db electionTime round voters
  | .electionBeginRoundVoting electionTime round votingBegin votingEnd =>
      modifyRound db electionTime round (fun o => { o with
        groupsAvailable := true
        votingStarted := true
        votingBegin := some votingBegin
        votingEnd := some votingEnd }) fun _ => rfl
  | .electionEndRoundVoting electionTime round =>
      modifyRound db electionTime round (fun o => { o with votingFinished := true }) fun _ => rfl
  | .electionReportGroup electionTime round winner votes =>
      reportGroup db electionTime round winner votes
  | .electionEndRound electionTime round =>
      modifyRound db electionTime round (fun o => { o with resultsAvailable := true }) fun _ => rfl
  | .electionEnd electionTime => endElection db electionTime
  | .distributionSchedule distributionTime => do
      let distributions ← emplace db.distributions { time := distributionTime }
      return { db with distributions := distributions }
  | .distributionReserve distributionTime pool targetAmount => do
      let distributions ← modify db.distributions distributionTime
        (fun o => { o with targetAmount := some targetAmount }) fun _ => rfl
      let db ← transferFunds db time (poolAccount pool) (distributionFund p) targetAmount
        .reserveDistribution
      return { db with distributions := distributions }
  | .distributionBegin distributionTime rankDistribution => do
      let distributions ← modify db.distributions distributionTime (fun o => { o with
        started := true
        targetRankDistribution := some rankDistribution }) fun _ => rfl
      return { db with distributions := distributions }
  | .distributionReturnExcess _ pool amount =>
      transferFunds db time (distributionFund p) (poolAccount pool) amount .returnExcessDistribution
  | .distributionReturn owner distributionTime rank amount pool => do
      let db ← transferFunds db time (distributionFund p) (poolAccount pool) amount
        .returnDistribution
      spendFund db owner distributionTime rank amount
  | .distributionFund owner distributionTime rank balance => do
      let funds ← emplace db.distributionFunds
        ⟨owner, distributionTime, rank, balance, balance⟩
      return { db with distributionFunds := funds }
  | .sessionNew edenAccount key expiration description => do
      let sessions ← emplace db.sessions ⟨edenAccount, key, expiration, description⟩
      return { db with sessions := sessions }
  | .sessionDel edenAccount key =>
      return { db with sessions := db.sessions.erase (edenAccount, key) }
  | .setPool .. | .distributionEnd _ => return db

/-! ### Blocks -/

/-- `dispatch`, for the actions of the contract. -/
def dispatch (p : Platform) (time : Nat) (f : Filter) (a : Action) : Outcome Filter :=
  let lift (db : Outcome Database) : Outcome Filter := db.map fun db => { f with db := db }
  match a with
  | .withdraw _ _ => withdraw f
  | .donate payer quantity => lift (transferFunds f.db time payer masterPool quantity .donate)
  | .fundtransfer sender distributionTime rank receiver amount _ =>
      lift (fundtransfer p time f.db sender distributionTime rank receiver amount)
  | .usertransfer sender receiver amount _ =>
      lift (transferFunds f.db time sender receiver amount .userTransfer)
  | .genesis community communitySymbol minimumDonation initialMembers genesisVideo
      auctionStartingBid auctionDuration _ _ =>
      lift (genesis p f.db
        { community := community
          communitySymbol := communitySymbol
          minimumDonation := minimumDonation
          initialMembers := initialMembers
          genesisVideo := genesisVideo
          auctionStartingBid := auctionStartingBid
          auctionDuration := auctionDuration })
  | .addtogenesis newmember _ => lift (addtogenesis p f.db newmember)
  | .clearall => return { f with db := clearall f.db }
  | .inductinit id inviter invitee witnesses =>
      lift (inductinit time f.db id inviter invitee witnesses)
  | .inductprofil id profile => lift (inductprofil f.db id profile)
  | .inductvideo _ id video => lift (inductvideo f.db id video)
  | .inductcancel _ id => return { f with db := inductcancel f.db id }
  | .inductdonate payer id quantity => lift (inductdonate time f.db payer id quantity)
  | .inductendors account id _ => lift (inductendors f.db account id)
  | .resign account => return { f with db := resign f.db account }
  | .rename account newAccount => lift (rename account newAccount f.db)
  | .electopt voter participating => lift (electopt f.db voter participating)
  | .electvote round voter candidate => lift (electvote f.db round voter candidate)
  | .electvideo round voter video => return { f with db := electvideo f.db round voter video }
  | .setencpubkey member key => lift (setencpubkey f.db member key)
  | _ => return f

/-- An action of a transaction, as `filter_block` tells them apart. -/
inductive Trace
  | executed (e : Executed)
  /-- The verbs of `run`. -/
  | run (verbs : List Action)
  /-- `transfer`, an action that sends general funds. -/
  | manualTransfer
  | logmint (m : Mint)
  | logtransfer (collectionName receiver : Name) (assetIds : List Nat)

def handle (p : Platform) (tokenAccount : Name) (time : Nat) (f : Filter) :
    Trace → Outcome Filter
  | .executed (.action a) => dispatch p time f a
  | .executed (.transfer sender receiver quantity _) =>
      notifyTransfer p tokenAccount time f sender receiver quantity
  | .executed (.events batch) => do
      let db ← batch.foldlM (handleEvent p time) f.db
      return { f with db := db }
  | .executed (.external _) => return f
  | .run verbs => verbs.foldlM (dispatch p time) f
  | .manualTransfer => transfer f
  | .logmint m => do
      let db ← logmint p time f.db m
      return { f with db := db }
  | .logtransfer collectionName receiver assetIds =>
      return { f with db := logtransfer p f.db collectionName receiver assetIds }

def filterTransaction (p : Platform) (tokenAccount : Name) (time : Nat) (f : Filter)
    (actions : List Trace) : Outcome Filter := do
  let f ← actions.foldlM (handle p tokenAccount time) f
  check (!f.inWithdraw && !f.inManualTransfer) "missing transfer notification"
  return f

/-- A block of the chain: its time, and the actions of its transactions. -/
structure Block where
  timestamp : Nat
  transactions : List (List Trace)

def filterBlock (p : Platform) (tokenAccount : Name) (db : Database) (block : Block) :
    Outcome Database := do
  let f ← block.transactions.foldlM (filterTransaction p tokenAccount block.timestamp) { db := db }
  return f.db

/-- The micro chain after some blocks. -/
def filterBlocks (p : Platform) (tokenAccount : Name) (db : Database) (blocks : List Block) :
    Outcome Database := blocks.foldlM (filterBlock p tokenAccount) db

end Eden.MirrorHandlers
