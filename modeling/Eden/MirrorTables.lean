import Eden.AccountTables
import Eden.ObjectTable

/-!
The database of the micro chain, and the helpers its handlers share.
-/

namespace Eden.MirrorTables

open Eden.ExceptReasoning
open Eden.ObjectTable
open Eden.ChainPrimitives
open Eden.ContractState
open Eden.Runtime

/-! ### Objects -/

structure Status where
  active : Bool := false
  community : Text
  communitySymbol : Symbol
  minimumDonation : Asset
  initialMembers : List Name
  genesisVideo : Text
  auctionStartingBid : Asset
  auctionDuration : Nat
  nextElection : Nat := 0
  electionThreshold : Nat := 0
  numElectionParticipants : Nat := 0
  migrationIndex : Nat := 0
  deriving DecidableEq, Repr

structure BalanceObject where
  account : Name
  amount : Asset
  deriving DecidableEq, Repr

inductive HistoryDesc
  | deposit
  | withdraw
  | externalSpend
  | manualTransfer
  | fundTransfer
  | userTransfer
  | fund
  | donate
  | inductdonate
  | reserveDistribution
  | returnExcessDistribution
  | returnDistribution
  deriving DecidableEq, Repr

structure BalanceHistoryObject where
  time : Nat
  account : Name
  delta : Asset
  newAmount : Asset
  otherAccount : Name
  description : HistoryDesc
  deriving DecidableEq, Repr

structure EncryptionKeyObject where
  account : Name
  encryptionKey : PublicKey
  deriving DecidableEq, Repr

/-- An account that may endorse, and whether it has. -/
abbrev InductionEndorser := Name × Bool

structure InductionObject where
  id : Nat
  inviter : InductionEndorser
  invitee : Name
  witnesses : List InductionEndorser := []
  profile : NewMemberProfile := {}
  video : Text := []
  createdAt : Nat := 0
  deriving DecidableEq, Repr

structure MemberObject where
  account : Name
  inviter : Name
  inductionWitnesses : List Name
  profile : NewMemberProfile
  inductionVideo : Text
  participating : Bool := false
  createdAt : Nat
  deriving DecidableEq, Repr

structure SessionObject where
  edenAccount : Name
  key : PublicKey
  expiration : Nat
  description : Text
  deriving DecidableEq, Repr

def SessionObject.byPk (o : SessionObject) : Name × PublicKey := (o.edenAccount, o.key)

structure ElectionObject where
  time : Nat
  seeding : Bool := false
  resultsAvailable : Bool := false
  seedingStartTime : Option Nat := none
  seedingEndTime : Option Nat := none
  seed : Option Checksum := none
  numRounds : Option Nat := none
  numParticipants : Option Nat := none
  finalGroupId : Option Nat := none
  deriving DecidableEq, Repr

structure ElectionRoundObject where
  electionTime : Nat
  round : Nat
  numParticipants : Nat
  numGroups : Nat
  requiresVoting : Bool
  groupsAvailable : Bool := false
  votingStarted : Bool := false
  votingFinished : Bool := false
  resultsAvailable : Bool := false
  votingBegin : Option Nat := none
  votingEnd : Option Nat := none
  deriving DecidableEq, Repr

def ElectionRoundObject.byRound (o : ElectionRoundObject) : Nat × Nat := (o.electionTime, o.round)

structure ElectionGroupObject where
  id : Nat
  electionTime : Nat
  round : Nat
  firstMember : Name
  winner : Name := emptyName
  deriving DecidableEq, Repr

def ElectionGroupObject.byPk (o : ElectionGroupObject) : Nat × Nat × Name :=
  (o.electionTime, o.round, o.firstMember)

structure VoteObject where
  electionTime : Nat
  round : Nat
  groupId : Nat
  voter : Name
  candidate : Name := emptyName
  video : Text := []
  deriving DecidableEq, Repr

def VoteObject.byPk (o : VoteObject) : Name × Nat × Nat := (o.voter, o.electionTime, o.round)

structure DistributionObject where
  time : Nat
  started : Bool := false
  targetAmount : Option Asset := none
  targetRankDistribution : Option (List Asset) := none
  deriving DecidableEq, Repr

structure DistributionFundObject where
  owner : Name
  distributionTime : Nat
  rank : Nat
  initialBalance : Asset
  currentBalance : Asset
  deriving DecidableEq, Repr

def DistributionFundObject.byPk (o : DistributionFundObject) : Name × Nat × Nat :=
  (o.owner, o.distributionTime, o.rank)

structure NftObject where
  member : Name
  owner : Name
  templateId : Int
  assetId : Nat
  templateMint : Nat
  createdAt : Nat
  deriving DecidableEq, Repr

structure Database where
  status : Option Status := none
  balances : Objects BalanceObject.account := ∅
  balanceHistory : List BalanceHistoryObject := []
  encryptionKeys : Objects EncryptionKeyObject.account := ∅
  inductions : Objects InductionObject.id := ∅
  members : Objects MemberObject.account := ∅
  sessions : Objects SessionObject.byPk := ∅
  elections : Objects ElectionObject.time := ∅
  electionRounds : Objects ElectionRoundObject.byRound := ∅
  electionGroups : Objects ElectionGroupObject.byPk := ∅
  /-- The id of the next group: ids are not used twice. -/
  nextGroupId : Nat := 0
  votes : Objects VoteObject.byPk := ∅
  distributions : Objects DistributionObject.time := ∅
  distributionFunds : Objects DistributionFundObject.byPk := ∅
  nfts : Objects NftObject.assetId := ∅

/-! ### Helpers -/

section Helpers

variable {α κ : Type} [DecidableEq κ] {key : α → κ}

def insertError : Abort :=
  .check "could not insert object, most likely a uniqueness constraint was violated"

def modifyError : Abort :=
  .check "could not modify object, most likely a uniqueness constraint was violated"

def emplace (t : Objects key) (a : α) : Outcome (Objects key) := expect (t.emplace? a) insertError

/-- `modify<by_pk>`, for a function that keeps the key. -/
def modify (t : Objects key) (k : κ) (f : α → α) (hf : ∀ a, key (f a) = key a) :
    Outcome (Objects key) := do
  let _ ← expect (t.find? k) (.check "missing record")
  return t.modify k f hf

/-- `get<by_pk>` -/
def get (t : Objects key) (k : κ) : Outcome α := expect (t.find? k) (.check "missing record")

/-- `available_pk` -/
def availablePk {key : α → Nat} (t : Objects key) (first : Nat) : Nat :=
  ((t.rows.map key).max?.map fun k => (k + 1) % 2 ^ 64).getD first

end Helpers

def getStatus (db : Database) : Outcome Status :=
  expect db.status (.check "missing genesis action")

/-- `pool_account`: the name of a pool, with its last four bits set. -/
def poolAccount (pool : Name) : Name := pool ||| 0x0f

def masterPool : Name := poolAccount masterName

/-- `distribution_fund` -/
def distributionFund (p : Platform) : Name := p.self + 1

/-! ### Funds -/

def addBalance (db : Database) (account : Name) (delta : Asset) : Outcome (Asset × Database) :=
  match db.balances.find? account with
  | some row => do
      let amount ← row.amount.add delta
      let balances := db.balances.modify account (fun row => { row with amount := amount })
        fun _ => rfl
      return (amount, { db with balances := balances })
  | none => do
      let balances ← emplace db.balances ⟨account, delta⟩
      return (delta, { db with balances := balances })

def transferFunds (db : Database) (time : Nat) (sender receiver : Name) (amount : Asset)
    (description : HistoryDesc) : Outcome Database := do
  let (newSender, db) ← addBalance db sender amount.neg
  let (newReceiver, db) ← addBalance db receiver amount
  return { db with
    balanceHistory := db.balanceHistory ++
      [⟨time, sender, amount.neg, newSender, receiver, description⟩,
        ⟨time, receiver, amount, newReceiver, sender, description⟩] }

end Eden.MirrorTables
