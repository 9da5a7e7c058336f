import Eden.ElectionPlan
import Eden.SortedTable

/-!
The tables and singletons of the contract, the events and inline actions it sends and the
surroundings in which an action runs.
-/

namespace Eden.ContractState

open Eden.ExceptReasoning
open Eden.SortedTable
open Eden.ChainPrimitives
open Eden.ElectionPlan

/-! ### Constants -/

def maxActiveMembers : Nat := 10000

def inductionExpirationSecs : Nat := 7 * 24 * 60 * 60

def maxGcOnInduction : Nat := 32

def electionSeedingWindow : Nat := 24 * 60 * 60

def electionFinalSeedingWindow : Nat := 30 * 60

def minElectionThreshold : Nat := 1000

/-- The value of `election_start_time` before it is configured. -/
def unsetStartTime : Nat := 0xffffffff

/-! ### Rows -/

inductive ContractStage
  | genesis
  | active
  deriving DecidableEq, Repr

structure Globals where
  community : Text
  minimumDonation : Asset
  auctionStartingBid : Asset
  auctionDuration : Nat
  stage : ContractStage
  electionStartTime : Nat := unsetStartTime
  electionRoundTimeSec : Nat := 60 * 60
  deriving DecidableEq, Repr

def Globals.defaultToken (g : Globals) : Symbol := g.minimumDonation.symbol

structure Account where
  owner : Name
  balance : Asset
  deriving DecidableEq, Repr

abbrev AccountTable := Table Account.owner

structure Pool where
  name : Name
  monthlyDistributionPct : Nat
  deriving DecidableEq, Repr

inductive Distribution
  | next (distributionTime : Nat)
  | election (distributionTime : Nat) (amount : Asset)
  | current (distributionTime : Nat) (lastProcessed : Name) (rankDistribution : List Asset)
  deriving DecidableEq, Repr

def Distribution.distributionTime : Distribution → Nat
  | .next t => t
  | .election t _ => t
  | .current t _ _ => t

/-- `distribution_account_key` -/
def distributionAccountKey (owner : Name) (distributionTime rank : Nat) : Nat :=
  owner * 2 ^ 64 + distributionTime * 2 ^ 32 + rank

structure DistributionAccount where
  id : Nat
  owner : Name
  distributionTime : Nat
  rank : Nat
  balance : Asset
  deriving DecidableEq, Repr

def DistributionAccount.byOwner (a : DistributionAccount) : Nat :=
  distributionAccountKey a.owner a.distributionTime a.rank

inductive MemberStatus
  | pendingMembership
  | activeMember
  deriving DecidableEq, Repr

structure Member where
  account : Name
  name : Text := []
  status : MemberStatus := .pendingMembership
  nftTemplateId : Int := 0
  electionParticipationStatus : Nat := 0
  electionRank : Nat := 0
  representative : Name := invalidName
  encryptionKey : Option PublicKey := none
  /-- Whether the row has an entry in the secondary index `byrep`. -/
  inByRep : Bool := true
  deriving DecidableEq, Repr

structure MemberStats where
  activeMembers : Nat := 0
  pendingMembers : Nat := 0
  ranks : List Nat := []
  deriving DecidableEq, Repr

/-- A step in the history of the members in elections. -/
inductive RankStep
  /-- `start_election` clears the ranks. -/
  | start
  /-- `randomize_voters` comes to an active member. -/
  | visit (member : Name)
  /-- `randomize_voters` enrols a member as a voter. -/
  | enrol (member : Name)
  /-- `set_rank` gives a member its rank. -/
  | rank (member : Name)
  deriving DecidableEq, Repr

structure ElectionResults where
  leadRepresentative : Name := emptyName
  board : List Name := []
  lastElectionTime : Nat := 0
  deriving DecidableEq, Repr

structure Vote where
  member : Name
  round : Nat
  index : Nat
  candidate : Name := emptyName
  deriving DecidableEq, Repr

/-- `round << 16 | index` -/
def Vote.byIndex (v : Vote) : Nat := v.round * 2 ^ 16 + v.index

structure InitVoters where
  nextMemberIdx : Nat
  rng : ElectionRng
  lastProcessed : Name
  nextReportIndex : Nat
  electionScheduleVersion : Nat
  deriving DecidableEq, Repr

structure ActiveRound where
  round : Nat
  config : RoundConfig
  savedSeed : Checksum
  roundEnd : Nat
  deriving DecidableEq, Repr

structure PostRound where
  rng : ElectionRng
  prevRound : Nat
  prevConfig : RoundConfig
  nextInputIndex : Nat
  nextOutputIndex : Nat
  nextReportIndex : Nat
  deriving DecidableEq, Repr

/-- `current_election_state` -/
inductive ElectionState
  | pendingDate
  | registration (startTime electionThreshold electionScheduleVersion : Nat)
  | seeding (seed : ElectionSeeder) (electionScheduleVersion : Nat)
  | initVoters (data : InitVoters)
  | active (data : ActiveRound)
  | postRound (data : PostRound)
  | final (seed : ElectionSeeder)
  deriving DecidableEq, Repr

structure NewMemberProfile where
  name : Text := []
  img : Text := []
  bio : Text := []
  social : Text := []
  attributions : Text := []
  deriving DecidableEq, Repr

structure Induction where
  id : Nat
  inviter : Name
  invitee : Name
  endorsements : Nat
  createdAt : Nat
  video : Text
  newMemberProfile : NewMemberProfile := {}
  deriving DecidableEq, Repr

/-- `combine_names` -/
def combineNames (a b : Name) : Nat := a * 2 ^ 64 + b

structure Endorsement where
  id : Nat
  inviter : Name
  invitee : Name
  endorser : Name
  inductionId : Nat
  endorsed : Bool
  deriving DecidableEq, Repr

structure EndorsedInduction where
  invitee : Name
  inductionId : Nat
  deriving DecidableEq, Repr

structure EncryptedKey where
  senderKey : PublicKey
  recipientKey : PublicKey
  key : Bytes
  deriving DecidableEq, Repr

structure EncryptedData where
  id : Nat
  keys : List EncryptedKey
  data : Bytes
  deriving DecidableEq, Repr

abbrev EncryptedTable := Table EncryptedData.id

inductive BylawsType
  | proposed
  | pending
  | ratified
  deriving DecidableEq, Repr

structure Bylaws where
  text : Text
  time : Nat
  approvals : List Name := []
  deriving DecidableEq, Repr

structure BylawsTable where
  proposed : Option Bylaws := none
  pending : Option Bylaws := none
  ratified : Option Bylaws := none
  deriving DecidableEq, Repr

structure Auction where
  assetId : Nat
  lastKnownEndTime : Nat
  deriving DecidableEq, Repr

structure Session where
  key : PublicKey
  expiration : Nat
  description : Text
  sequences : List Nat
  deriving DecidableEq, Repr

structure SessionContainer where
  edenAccount : Name
  earliestExpiration : Nat
  sessions : List Session
  deriving DecidableEq, Repr

/-- `migration_variant`, in the order of its alternatives. -/
inductive Migration
  | auction (lastAuctionId : Nat)
  | account (lastVisited : Name) (userTotal : Asset)
  | none0
  | member (nextPrimaryKey : Nat)
  | none1
  | fixInductdonateExpirationCheck
  deriving DecidableEq, Repr

/-! ### Events and inline actions -/

structure VoteReport where
  voter : Name
  candidate : Name
  deriving DecidableEq, Repr

inductive Event
  | electionSchedule (electionTime electionThreshold : Nat)
  | electionBegin (electionTime : Nat)
  | electionSeeding (electionTime startTime endTime : Nat) (seed : Checksum)
  | electionEndSeeding (electionTime : Nat)
  | electionConfigSummary (electionTime numRounds numParticipants : Nat)
  | electionCreateRound (electionTime round : Nat) (requiresVoting : Bool)
      (numParticipants numGroups : Nat)
  | electionCreateGroup (electionTime round : Nat) (voters : List Name)
  | electionBeginRoundVoting (electionTime round votingBegin votingEnd : Nat)
  | electionEndRoundVoting (electionTime round : Nat)
  | electionReportGroup (electionTime round : Nat) (winner : Name) (votes : List VoteReport)
  | electionEndRound (electionTime round : Nat)
  | electionEnd (electionTime : Nat)
  | setPool (pool : Name) (monthlyDistributionPct : Nat)
  | distributionSchedule (distributionTime : Nat)
  | distributionReserve (distributionTime : Nat) (pool : Name) (targetAmount : Asset)
  | distributionBegin (distributionTime : Nat) (rankDistribution : List Asset)
  | distributionReturnExcess (distributionTime : Nat) (pool : Name) (amount : Asset)
  | distributionFund (owner : Name) (distributionTime rank : Nat) (balance : Asset)
  | distributionEnd (distributionTime : Nat)
  | distributionReturn (owner : Name) (distributionTime rank : Nat) (amount : Asset) (pool : Name)
  | migration (index : Nat)
  | sessionNew (edenAccount : Name) (key : PublicKey) (expiration : Nat) (description : Text)
  | sessionDel (edenAccount : Name) (key : PublicKey)
  deriving DecidableEq, Repr

/-- Actions of the contract that can be pushed on the chain. -/
inductive Action
  | withdraw (owner : Name) (quantity : Asset)
  | donate (owner : Name) (quantity : Asset)
  | fundtransfer (sender : Name) (distributionTime rank : Nat) (receiver : Name) (amount : Asset)
      (memo : Text)
  | usertransfer (sender receiver : Name) (amount : Asset) (memo : Text)
  | genesis (community : Text) (communitySymbol : Symbol) (minimumDonation : Asset)
      (initialMembers : List Name) (genesisVideo : Text) (auctionStartingBid : Asset)
      (auctionDuration electionDay : Nat) (electionTime : Text)
  | addtogenesis (newmember : Name) (expiration : Int)
  | gensetexpire (inductionId : Nat) (newExpiration : Int)
  | clearall
  | inductinit (id : Nat) (inviter invitee : Name) (witnesses : List Name)
  | inductmeetin (account : Name) (id : Nat) (keys : List EncryptedKey) (data : Bytes)
      (oldData : Option Bytes)
  | inductprofil (id : Nat) (newMemberProfile : NewMemberProfile)
  | inductvideo (account : Name) (id : Nat) (video : Text)
  | inductendors (account : Name) (id : Nat) (inductionDataHash : Checksum)
  | setencpubkey (member : Name) (key : PublicKey)
  | electsettime (electionTime : Nat)
  | electconfig (electionDay : Nat) (electionTime : Text) (roundDuration : Nat)
  | electopt (voter : Name) (participating : Bool)
  | electseed (btcHeader : Bytes)
  | electmeeting (account : Name) (round : Nat) (keys : List EncryptedKey) (data : Bytes)
      (oldData : Option Bytes)
  | electvote (round : Nat) (voter candidate : Name)
  | electvideo (round : Nat) (voter : Name) (video : Text)
  | electprocess (maxSteps : Nat)
  | finishelect (electionTime : Nat)
  | changerank (contract : Name) (ranks : List Nat)
  | clearrank (contract : Name) (ranks : List Nat)
  | bylawspropose (proposer : Name) (bylaws : Text)
  | bylawsapprove (approver : Name) (bylawsHash : Checksum)
  | bylawsratify (approver : Name) (bylawsHash : Checksum)
  | distribute (maxSteps : Nat)
  | inductdonate (payer : Name) (id : Nat) (quantity : Asset)
  | inductcancel (account : Name) (id : Nat)
  | inducted (inductee : Name)
  | resign (account : Name)
  | rename (account newAccount : Name)
  | gc (limit : Nat)
  | migrate (maxSteps : Nat)
  | unmigrate
  deriving DecidableEq, Repr

/-- Inline actions that other contracts execute. -/
inductive External
  | updateauth (permission : String) (threshold : Nat) (accounts : List Name)
  | linkauth
  | initCollection
  | createtempl (maxSupply : Nat) (account : Text)
  | mintasset (templateId : Int) (newAssetOwner : Name)
  | locktemplate (templateId : Int)
  | announceauct (assetId : Nat) (startingBid : Asset) (duration : Nat)
  | transferAsset (assetId : Nat)
  | auctclaimsel (auctionId : Nat)
  | cancelauct (auctionId : Nat)
  deriving DecidableEq, Repr

/-- What a transaction executes, in the order of execution. -/
inductive Executed
  | action (a : Action)
  /-- `eosio.token`'s transfer from or to the contract. -/
  | transfer (sender receiver : Name) (quantity : Asset) (memo : Text)
  /-- `eosio.null::eden.events`. -/
  | events (batch : List Event)
  | external (a : External)
  deriving DecidableEq, Repr

/-- The events not yet sent, and what has been executed up to now. -/
structure Output where
  serializedEvents : List Event := []
  executed : List Executed := []
  deriving DecidableEq, Repr

/-! ### State -/

structure Accounts where
  user : AccountTable := .empty
  owned : AccountTable := .empty
  outgoing : AccountTable := .empty
  deriving DecidableEq

structure Distributions where
  pools : Table Pool.name := .empty
  table : Table Distribution.distributionTime := .empty
  accounts : Table DistributionAccount.id := .empty
  deriving DecidableEq

structure Members where
  table : Table Member.account := .empty
  stats : MemberStats := {}
  /-- The history of the ranks. The program does not store it. -/
  rankHistory : List RankStep := []
  deriving DecidableEq

structure Elections where
  current : Option ElectionState := none
  results : Option ElectionResults := none
  votes : Table Vote.member := .empty
  encrypted : EncryptedTable := .empty
  deriving DecidableEq

structure Inductions where
  inductions : Table Induction.id := .empty
  endorsements : Table Endorsement.id := .empty
  endorsed : Table EndorsedInduction.invitee := .empty
  gc : Table (fun invitee : Name => invitee) := .empty
  encrypted : EncryptedTable := .empty
  deriving DecidableEq

structure State where
  /-- `current_block_time()` -/
  now : Nat := 0
  globals : Option Globals := none
  accounts : Accounts := {}
  distributions : Distributions := {}
  members : Members := {}
  elections : Elections := {}
  inductions : Inductions := {}
  bylaws : BylawsTable := {}
  auctions : Table Auction.assetId := .empty
  sessions : Table SessionContainer.edenAccount := .empty
  migration : Option Migration := none
  /-- The balances of the contract in `eosio.token`, by symbol code. -/
  tokens : Table (fun a : Asset => a.symbol.code) := .empty
  output : Output := {}
  deriving DecidableEq

end Eden.ContractState
