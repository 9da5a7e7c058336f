import Eden.Maintenance

/-!
The actions of the contract and the notifications it listens to, with the inline actions that come
back to it.
-/

namespace Eden.ContractActions

open Eden.ExceptReasoning
open Eden.SortedTable
open Eden.ChainPrimitives
open Eden.ElectionPlan
open Eden.ContractState
open Eden.Runtime
open Eden.AccountTables
open Eden.MemberTable
open Eden.DistributionTables
open Eden.BylawsRules
open Eden.ElectionPhases
open Eden.InductionTables
open Eden.Maintenance

/-- Record what is executed next. -/
def record (s : State) (e : Executed) : State :=
  { s with output := { s.output with executed := s.output.executed ++ [e] } }

/-- `eosio::check(quantity.symbol == globals.default_token(), …)` -/
def checkToken (g : Globals) (quantity : Asset) : Outcome Unit :=
  check (quantity.symbol = g.defaultToken) "token must be a valid default token"

/-- Donate to the master pool. -/
def donateToMaster (p : Platform) (s : State) (quantity : Asset) : Outcome State := do
  let f ← addToPool p (calendar s) (treasury s) masterName quantity
  return withTreasury s f

/-! ### Accounts -/

/-- `"donate"` -/
def donateMemo : Text := ['d', 'o', 'n', 'a', 't', 'e']

def notifyTransfer (p : Platform) (s : State) (sender receiver : Name) (quantity : Asset)
    (memo : Text) : Outcome State :=
  if sender = p.self then do
    let _ ← getGlobals s
    let owner ← (if receiver = edenDelegate then nameOfText memo else .ok receiver : Outcome Name)
    let outgoing ← subBalance s.accounts.outgoing owner quantity
    return { s with accounts := { s.accounts with outgoing := outgoing } }
  else if receiver ≠ p.self then return s
  else do
    let g ← getGlobals s
    checkToken g quantity
    if isPossibleDepositAccount p sender ∧ memo ≠ donateMemo then do
      let user ← addBalance s.accounts.user sender quantity true
      let migration ← adjustBalance s.migration sender quantity
      return { s with accounts := { s.accounts with user := user }, migration := migration }
    else if isAccountMigrated s.migration then donateToMaster p s quantity
    else return s

/-- `eosio.token::transfer` with the contract on one side: the balances change, then the contract
is notified. -/
def tokenTransfer (p : Platform) (env : Env) (s : State) (sender receiver : Name)
    (quantity : Asset) (memo : Text) : Outcome State := do
  check (sender ≠ receiver) "cannot transfer to self"
  check (env.isAccount receiver) "to account does not exist"
  check (quantity.symbol.isValid && -maxAmount ≤ quantity.amount && quantity.amount ≤ maxAmount)
    "invalid quantity"
  check (0 < quantity.amount) "must transfer positive quantity"
  check (memo.length ≤ 256) "memo has more than 256 bytes"
  let tokens ← (if sender = p.self then tokenSub s.tokens quantity else .ok s.tokens :
    Outcome TokenTable)
  let tokens ← (if receiver = p.self then tokenAdd tokens quantity else .ok tokens :
    Outcome TokenTable)
  let s := record { s with tokens := tokens } (.transfer sender receiver quantity memo)
  let s ← notifyTransfer p s sender receiver quantity memo
  return { s with output := sendEvents s.output }

/-- `withdraw`, and then the inline transfer it sends. -/
def withdraw (p : Platform) (env : Env) (s : State) (owner : Name) (quantity : Asset) :
    Outcome State := do
  requireAuth env owner
  let g ← getGlobals s
  checkToken g quantity
  let user ← subBalance s.accounts.user owner quantity
  let migration ← adjustBalance s.migration owner quantity.neg
  let outgoing ← addBalance s.accounts.outgoing owner quantity false
  let s := { s with
    accounts := { s.accounts with user := user, outgoing := outgoing }
    migration := migration }
  tokenTransfer p env s p.self edenDelegate quantity (nameToText owner)

def donate (p : Platform) (env : Env) (s : State) (owner : Name) (quantity : Asset) :
    Outcome State := do
  requireAuth env owner
  let g ← getGlobals s
  checkToken g quantity
  check (0 < quantity.amount) "Donation must be positive"
  check (isAccountMigrated s.migration) "Tables must be migrated to enable donations"
  let user ← subBalance s.accounts.user owner quantity
  donateToMaster p { s with accounts := { s.accounts with user := user } } quantity

def distribute (p : Platform) (s : State) (maxSteps : Nat) : Outcome State := do
  let _ ← getGlobals s
  let (remaining, f) ← distributeMonthly p (calendar s) s.members.table maxSteps (treasury s)
  check (remaining ≠ maxSteps) "Nothing to do"
  return withTreasury s f

/-- The checks that `fundtransfer` and `usertransfer` share. -/
def checkTransfer (env : Env) (s : State) (sender receiver : Name) (amount : Asset)
    (memo : Text) : Outcome Unit := do
  check (0 < amount.amount) "amount must be positive"
  check (memo.length ≤ 256) "Memo has more than 256 bytes"
  requireAuth env sender
  let _ ← getGlobals s
  checkActiveMember s.members sender
  checkActiveMember s.members receiver

def fundtransfer (env : Env) (s : State) (sender : Name) (distributionTime rank : Nat)
    (receiver : Name) (amount : Asset) (memo : Text) : Outcome State := do
  checkTransfer env s sender receiver amount memo
  let accounts ← subAccount s.distributions.accounts sender distributionTime rank amount
  let user ← addBalance s.accounts.user receiver amount false
  return { s with
    distributions := { s.distributions with accounts := accounts }
    accounts := { s.accounts with user := user } }

def usertransfer (env : Env) (s : State) (sender receiver : Name) (amount : Asset)
    (memo : Text) : Outcome State := do
  checkTransfer env s sender receiver amount memo
  let user ← subBalance s.accounts.user sender amount
  let user ← addBalance user receiver amount false
  return { s with accounts := { s.accounts with user := user } }

/-! ### Genesis -/

/-- Create the induction of an initial member, endorsed by the others. -/
def createGenesisMember (p : Platform) (initialMembers : List Name) (genesisVideo : Text)
    (acc : State × Nat) (invitee : Name) : Outcome (State × Nat) := do
  let (s, inductionId) := acc
  let members ← create s.members invitee
  let endorsements := (initialMembers.length + (2 ^ 32 - 1)) % 2 ^ 32
  let inductions ← createInduction s.inductions s.now inductionId p.self invitee endorsements
    genesisVideo
  let inductions ← createEndorsements inductions p.self invitee inductionId
    (initialMembers.filter (· ≠ invitee))
  return ({ s with members := members, inductions := inductions }, inductionId + 1)

def genesis (p : Platform) (env : Env) (s : State) (community : Text) (communitySymbol : Symbol)
    (minimumDonation : Asset) (initialMembers : List Name) (genesisVideo : Text)
    (auctionStartingBid : Asset) (auctionDuration electionDay : Nat) (electionTime : Text) :
    Outcome State := do
  requireAuth env p.self
  check (communitySymbol = minimumDonation.symbol)
    "community symbol does not match minimum donation"
  check (communitySymbol = auctionStartingBid.symbol)
    "community symbol does not match auction starting bid"
  let s := emit p { s with migration := some .fixInductdonateExpirationCheck } (.migration 5)
  check s.globals.isNone "Singleton is already initialized"
  let g : Globals :=
    { community, minimumDonation, auctionStartingBid, auctionDuration, stage := .genesis }
  let s := { s with globals := some g }
  let f ← emplaceMasterPool p (treasury s)
  let s := withTreasury s f
  let owned ← (match s.tokens.find? minimumDonation.symbol.code with
    | some balance => addBalance s.accounts.owned masterName balance false
    | none => .ok s.accounts.owned : Outcome AccountTable)
  let s := { s with accounts := { s.accounts with owned := owned } }
  let s ← setTime p s electionDay electionTime
  let s := perform (setBoardPermission p s []) .linkauth
  let (s, _) ← initialMembers.foldlM (createGenesisMember p initialMembers genesisVideo) (s, 1)
  return perform s .initCollection

def gensetexpire (p : Platform) (env : Env) (s : State) (inductionId : Nat)
    (newExpiration : Int) : Outcome State := do
  requireAuth env p.self
  let g ← getGlobals s
  let induction ← getInduction s.inductions inductionId
  check (g.stage = .genesis) "Not in genesis"
  let inductions ← updateExpiration s.inductions s.now induction newExpiration
  return { s with inductions := inductions }

/-- Mint an asset of an active member for a new genesis member, unless its supply is locked. -/
def mintForMember (p : Platform) (env : Env) (newmember : Name) (s : State)
    (member : Member × Nat) : Outcome State :=
  if member.1.status = .activeMember then do
    let locked ← expect (env.isLocked member.1.nftTemplateId)
      (.check "fail to read template id")
    let account := nameToText member.1.account
    if locked then return s
    else mintNft p s member.1.nftTemplateId account (env.assetId + member.2) newmember
  else return s

def addtogenesis (p : Platform) (env : Env) (s : State) (newmember : Name) (expiration : Int) :
    Outcome State := do
  requireAuth env p.self
  let g ← getGlobals s
  check (g.stage = .genesis) "Not in genesis"
  let initialMembers := s.members.table.rows.map Member.account
  let rows := s.members.table.rows
  let members ← create s.members newmember
  let t ← s.inductions.inductions.rows.foldlM
    (fun t induction => addEndorsement t induction newmember true) s.inductions
  let inductionId := (t.inductions.rows.getLast?.map fun i => i.id + 1).getD 0
  let first ← expect t.inductions.rows.head? (.check "No inductions")
  let t ← createInduction t s.now inductionId p.self newmember (initialMembers.length % 2 ^ 32)
    first.video
  let induction ← getInduction t inductionId
  let t ← updateExpiration t s.now induction expiration
  let t ← createEndorsements t p.self newmember inductionId
    (initialMembers.filter (· ≠ newmember))
  rows.zipIdx.foldlM (mintForMember p env newmember) { s with members := members, inductions := t }

/-- `clearall`. It clears the default scope of the accounts only. -/
def clearall (p : Platform) (env : Env) (s : State) : Outcome State := do
  requireAuth env p.self
  let _ ← getGlobals s
  return { s with
    globals := none
    accounts := { s.accounts with user := .empty }
    members := { s.members with table := .empty, stats := {} }
    inductions := { s.inductions with
      inductions := .empty
      endorsements := .empty
      encrypted := .empty }
    auctions := .empty
    migration := none
    distributions := {}
    elections := { current := none, results := none, votes := .empty, encrypted := .empty }
    bylaws := {}
    sessions := .empty }

/-! ### Inductions -/

def inductinit (env : Env) (s : State) (id : Nat) (inviter invitee : Name)
    (witnesses : List Name) : Outcome State := do
  requireAuth env inviter
  let g ← getGlobals s
  check (g.stage = .active) "Contract not active"
  checkActiveMember s.members inviter
  witnesses.forM (checkActiveMember s.members)
  let members ← (if isNewMember s.members invitee then create s.members invitee
    else do
      checkPendingMember s.members invitee
      return s.members : Outcome Members)
  let inductions ← initializeInduction env s.inductions s.now id inviter invitee witnesses
  return { s with members := members, inductions := inductions }

def inductmeetin (env : Env) (s : State) (account : Name) (id : Nat) (keys : List EncryptedKey)
    (data : Bytes) (oldData : Option Bytes) : Outcome State := do
  requireAuth env account
  let g ← getGlobals s
  check (g.stage = .active) "Contract not active"
  check (isEndorser s.inductions id account) "Cannot create this meeting"
  let induction ← getInduction s.inductions id
  checkKeys s.members (getEndorsers s.inductions id ++ [induction.invitee]) keys
  let encrypted ← setEncrypted s.inductions.encrypted id keys data oldData
  return { s with inductions := { s.inductions with encrypted := encrypted } }

def inductprofil (p : Platform) (env : Env) (s : State) (id : Nat)
    (newMemberProfile : NewMemberProfile) : Outcome State := do
  let g ← getGlobals s
  let induction ← getInduction s.inductions id
  requireAuth env induction.invitee
  checkPendingMember s.members induction.invitee
  let t ← updateProfile p s.inductions s.now induction newMemberProfile
  return { s with inductions := if g.stage = .genesis then endorseAll t id else t }

def inductvideo (p : Platform) (env : Env) (s : State) (account : Name) (id : Nat)
    (video : Text) : Outcome State := do
  requireAuth env account
  let g ← getGlobals s
  let induction ← getInduction s.inductions id
  check (g.stage = .active) "Contract not active"
  checkPendingMember s.members induction.invitee
  check (isEndorser s.inductions id account) "Video can only be set by inviter or a witness"
  let t ← updateVideo p s.inductions s.now induction video
  return { s with inductions := t }

def inductendors (p : Platform) (env : Env) (s : State) (account : Name) (id : Nat)
    (inductionDataHash : Checksum) : Outcome State := do
  requireAuth env account
  let _ ← getGlobals s
  let induction ← getInduction s.inductions id
  checkPendingMember s.members induction.invitee
  check (isEndorser s.inductions id account)
    "Induction can only be endorsed by inviter or a witness"
  checkActiveMember s.members account
  let t ← endorse p s.inductions s.now induction account inductionDataHash
  return { s with inductions := t }

/-- The election is moved forward when the number of members has reached the threshold. -/
def checkThreshold (p : Platform) (s : State) : Outcome State :=
  match s.elections.current with
  | some (.registration _ threshold _) =>
      if threshold ≤ s.members.stats.activeMembers then triggerElection p s else return s
  | _ => return s

def inducted (p : Platform) (env : Env) (s : State) (inductee : Name) : Outcome State := do
  requireAuth env p.self
  let _ ← getGlobals s
  let induction ← getEndorsedInduction s.inductions inductee
  let members ← setActive s.members inductee induction.newMemberProfile.name
  let t := eraseInduction s.inductions induction
  let (limit, t) := eraseByInductee t inductee maxGcOnInduction
  let t ← (if limit = 0 then queueGc t inductee else .ok t : Outcome Inductions)
  let s ← maybeActivateContract { s with members := members, inductions := t }
  checkThreshold p s

/-- The authorisations of an inline action of the contract. -/
def inlineEnv (p : Platform) (env : Env) : Env :=
  { env with
    auths := [p.self]
    auths_valid := fun a ha => by
      rw [List.mem_singleton.mp ha]
      exact p.self_valid }

/-- The inline actions of `create_nft`: the template, the assets, and `inducted`. The events that
`inductdonate` has not sent yet follow after them. -/
def createNft (p : Platform) (env : Env) (g : Globals) (s : State) (induction : Induction) :
    Outcome State := do
  let inductions ← endorseInduction s.inductions induction
  let pending := s.output.serializedEvents
  let s := { s with
    inductions := inductions
    output := { s.output with serializedEvents := [] } }
  let s ← createTemplate p env g s induction
  let s ← inducted p (inlineEnv p env) (record s (.action (.inducted induction.invitee)))
    induction.invitee
  return { s with output := { sendEvents s.output with serializedEvents := pending } }

def inductdonate (p : Platform) (env : Env) (s : State) (payer : Name) (id : Nat)
    (quantity : Asset) : Outcome State := do
  requireAuth env payer
  let g ← getGlobals s
  let induction ← getInduction s.inductions id
  checkValidInduction s.now induction
  check (payer = induction.invitee) "only inductee may donate using this action"
  check (← quantity.eq g.minimumDonation) "incorrect donation"
  let user ← subBalance s.accounts.user payer quantity
  let migration ← adjustBalance s.migration payer quantity.neg
  let s := { s with accounts := { s.accounts with user := user }, migration := migration }
  let s ← (if isAccountMigrated s.migration then donateToMaster p s quantity else .ok s :
    Outcome State)
  createNft p env g s induction

def gc (p : Platform) (env : Env) (s : State) (limit : Nat) : Outcome State := do
  let _ ← getGlobals s
  let (remaining, removed, t) := gcInductions s.inductions s.now limit
  let s := { s with inductions := t }
  let (remaining, s) ← finishAuctions p env s remaining
  let (remaining, s) := gcSessions p remaining s
  check (remaining ≠ limit) "Nothing to do."
  if removed = [] then return s
  else do
    let s ← removed.foldlM (removeIfPending p) s
    maybeActivateContract s

def inductcancel (p : Platform) (env : Env) (s : State) (account : Name) (id : Nat) :
    Outcome State := do
  requireAuth env account
  let g ← getGlobals s
  let allowed ← (if g.stage = .genesis then .ok (account = p.self)
    else do
      let invitee ← isInvitee s.inductions id account
      return invitee || isEndorser s.inductions id account : Outcome Bool)
  check allowed (if g.stage = .genesis then "Only an admin can cancel genesis inductions"
    else "Induction can only be canceled by an endorser or the invitee itself")
  let induction ← getInduction s.inductions id
  let t := eraseInduction s.inductions induction
  let s := { s with inductions := t }
  if hasInduction t induction.invitee then return s
  else do
    let s ← removeIfPending p s induction.invitee
    if g.stage = .genesis then do
      let t ← eraseEndorser s.inductions induction.invitee
      maybeActivateContract { s with inductions := t }
    else return s

def resign (p : Platform) (env : Env) (s : State) (account : Name) : Outcome State := do
  requireAuth env account
  let _ ← getGlobals s
  checkActiveMember s.members account
  let member ← getMember s.members account
  let f ← onResign p (calendar s) (treasury s) member
  let s ← electionsOnResign p (withTreasury s f) account
  let s ← remove p s account
  return { s with bylaws := withdrawApprovals s.bylaws account }

def renameAccount (p : Platform) (env : Env) (s : State) (account newAccount : Name) :
    Outcome State := do
  requireAuth env newAccount
  ensure env.boardMajor (.missingAuthority p.self)
  let _ ← getGlobals s
  let user ← AccountTables.onRename s.accounts.user account newAccount
  let s := { s with accounts := { s.accounts with user := user } }
  checkActiveMember s.members account
  let f ← DistributionTables.onRename p (calendar s) (treasury s) account newAccount
  let s ← electionsOnRename p (withTreasury s f) account newAccount
  let t ← renameEndorser s.inductions account newAccount
  let s ← MemberTable.rename p { s with inductions := t } account newAccount
  checkNoMigration s.migration
  return { s with bylaws := renameApprovals s.bylaws account newAccount }

/-! ### Elections -/

def electsettime (p : Platform) (env : Env) (s : State) (electionTime : Nat) : Outcome State := do
  requireAuth env p.self
  let _ ← getGlobals s
  setNextElectionTime p s (timePointOfSec electionTime)

def electconfig (p : Platform) (env : Env) (s : State) (electionDay : Nat) (electionTime : Text)
    (roundDuration : Nat) : Outcome State := do
  requireAuth env p.self
  let s ← setTime p s electionDay electionTime
  let g ← getGlobals s
  return { s with globals := some { g with electionRoundTimeSec := roundDuration } }

def electopt (env : Env) (s : State) (voter : Name) (participating : Bool) : Outcome State := do
  requireAuth env voter
  let _ ← getGlobals s
  let members ← electionOpt s.members s.now (getNextElectionTime s.elections.current)
    (electionScheduleVersion s.elections.current) voter participating
  return { s with members := members }

def electmeeting (env : Env) (s : State) (account : Name) (round : Nat)
    (keys : List EncryptedKey) (data : Bytes) (oldData : Option Bytes) : Outcome State := do
  requireAuth env account
  let _ ← getGlobals s
  let groupId ← getGroupId s account round
  let group ← getGroupMembers s groupId
  checkKeys s.members group keys
  let encrypted ← setEncrypted s.elections.encrypted groupId keys data oldData
  return { s with elections := { s.elections with encrypted := encrypted } }

def electvideo (p : Platform) (env : Env) (s : State) (round : Nat) (voter : Name)
    (video : Text) : Outcome State := do
  requireAuth env voter
  let _ ← getGlobals s
  let decided ← canUploadVideo s round voter
  check (decided.getD (memberCanUploadVideo s.members round voter))
    "Cannot upload video for this election round"
  validateIpfs p video
  return s

def electprocess (p : Platform) (s : State) (maxSteps : Nat) : Outcome State := do
  let _ ← getGlobals s
  let (s, remaining) ← prepareElection p s maxSteps
  let (s, remaining) ← finishRound p s remaining
  check (remaining ≠ maxSteps) "Nothing to do"
  return s

def finishelect (p : Platform) (env : Env) (s : State) (electionTime : Nat) : Outcome State := do
  requireAuth env p.self
  let _ ← getGlobals s
  finishCurrElection p s (timePointOfSec electionTime)

/-- `changerank`; the tables of another account cannot be changed. -/
def changerank (p : Platform) (env : Env) (s : State) (contract : Name) (ranks : List Nat) :
    Outcome State := do
  requireAuth env p.self
  let _ ← getGlobals s
  check (contract = p.self) "cannot modify objects in table of another contract"
  return { s with members := setRanks s.members ranks }

def clearrank (p : Platform) (env : Env) (s : State) (contract : Name) : Outcome State := do
  requireAuth env p.self
  let _ ← getGlobals s
  check (contract = p.self) "cannot modify objects in table of another contract"
  return { s with members := clearRanks s.members }

/-! ### Bylaws -/

def bylawspropose (env : Env) (s : State) (proposer : Name) (text : Text) : Outcome State := do
  requireAuth env proposer
  let t ← setProposed s.bylaws s.now s.elections.results proposer text
  return { s with bylaws := t }

/-- `bylawsapprove` and `bylawsratify`, by the types of bylaws they move between. -/
def approveBylaws (p : Platform) (env : Env) (s : State) (currentState nextState : BylawsType)
    (approver : Name) (bylawsHash : Checksum) : Outcome State := do
  requireAuth env approver
  let t ← approve p s.bylaws s.now s.elections.results (getNextElectionTime s.elections.current)
    currentState nextState approver bylawsHash
  return { s with bylaws := t }

/-! ### Dispatching -/

def migrate (p : Platform) (env : Env) (s : State) (maxSteps : Nat) : Outcome State := do
  let (remaining, s) ← migrateSome p env s maxSteps
  check (remaining ≠ maxSteps) "Nothing to do"
  return s

def unmigrate (p : Platform) (env : Env) (s : State) : Outcome State := do
  requireAuth env p.self
  let _ ← getGlobals s
  let table := s.members.table.update (fun m => { m with inByRep := false }) fun _ => rfl
  return { s with
    migration := none
    auctions := .empty
    accounts := { s.accounts with owned := .empty }
    members := { s.members with table := table } }

/-- Run the handler of an action. -/
def dispatch (p : Platform) (env : Env) (s : State) : Action → Outcome State
  | .withdraw owner quantity => withdraw p env s owner quantity
  | .donate owner quantity => donate p env s owner quantity
  | .fundtransfer sender distributionTime rank receiver amount memo =>
      fundtransfer env s sender distributionTime rank receiver amount memo
  | .usertransfer sender receiver amount memo => usertransfer env s sender receiver amount memo
  | .genesis community communitySymbol minimumDonation initialMembers genesisVideo
        auctionStartingBid auctionDuration electionDay electionTime =>
      genesis p env s community communitySymbol minimumDonation initialMembers genesisVideo
        auctionStartingBid auctionDuration electionDay electionTime
  | .addtogenesis newmember expiration => addtogenesis p env s newmember expiration
  | .gensetexpire inductionId newExpiration => gensetexpire p env s inductionId newExpiration
  | .clearall => clearall p env s
  | .inductinit id inviter invitee witnesses => inductinit env s id inviter invitee witnesses
  | .inductmeetin account id keys data oldData => inductmeetin env s account id keys data oldData
  | .inductprofil id newMemberProfile => inductprofil p env s id newMemberProfile
  | .inductvideo account id video => inductvideo p env s account id video
  | .inductendors account id inductionDataHash => inductendors p env s account id inductionDataHash
  | .setencpubkey member key => do
      requireAuth env member
      let _ ← getGlobals s
      let members ← setKey s.members member key
      return { s with members := members }
  | .electsettime electionTime => electsettime p env s electionTime
  | .electconfig electionDay electionTime roundDuration =>
      electconfig p env s electionDay electionTime roundDuration
  | .electopt voter participating => electopt env s voter participating
  | .electseed btcHeader => do
      let _ ← getGlobals s
      seed p s btcHeader
  | .electmeeting account round keys data oldData =>
      electmeeting env s account round keys data oldData
  | .electvote round voter candidate => do
      requireAuth env voter
      let _ ← getGlobals s
      vote s round voter candidate
  | .electvideo round voter video => electvideo p env s round voter video
  | .electprocess maxSteps => electprocess p s maxSteps
  | .finishelect electionTime => finishelect p env s electionTime
  | .changerank contract ranks => changerank p env s contract ranks
  | .clearrank contract _ => clearrank p env s contract
  | .bylawspropose proposer text => bylawspropose env s proposer text
  | .bylawsapprove approver bylawsHash =>
      approveBylaws p env s .proposed .pending approver bylawsHash
  | .bylawsratify approver bylawsHash =>
      approveBylaws p env s .pending .ratified approver bylawsHash
  | .distribute maxSteps => distribute p s maxSteps
  | .inductdonate payer id quantity => inductdonate p env s payer id quantity
  | .inductcancel account id => inductcancel p env s account id
  | .inducted inductee => inducted p env s inductee
  | .resign account => resign p env s account
  | .rename account newAccount => renameAccount p env s account newAccount
  | .gc limit => gc p env s limit
  | .migrate maxSteps => migrate p env s maxSteps
  | .unmigrate => unmigrate p env s

/-- `apply`: the handler runs with no events left, and sends its events at the end. -/
def applyAction (p : Platform) (env : Env) (s : State) (a : Action) : Outcome State := do
  let s ← dispatch p env (record s (.action a)) a
  return { s with output := sendEvents s.output }

end Eden.ContractActions
