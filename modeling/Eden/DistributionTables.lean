import Eden.MemberTable

/-!
Monthly distributions: a share of the pools is reserved, divided by the ranks of the members and
paid out to their distribution accounts in steps.
-/

namespace Eden.DistributionTables

open Eden.ExceptReasoning
open Eden.SortedTable
open Eden.ChainPrimitives
open Eden.ContractState
open Eden.Runtime
open Eden.AccountTables
open Eden.MemberTable

/-- The part of the state that distributions change. -/
structure Treasury where
  owned : AccountTable
  distributions : Distributions
  output : Output

/-- What distributions read from the rest of the state. -/
structure Calendar where
  now : Nat
  ranks : List Nat
  nextElectionTime : Option Nat

/-- `dist_accounts.available_primary_key()` -/
def availablePrimaryKey (accounts : Table DistributionAccount.id) : Nat :=
  match accounts.rows.getLast? with
  | none => 0
  | some last => last.id + 1

/-- The first account with a key in the index `byowner`. -/
def findByOwner (accounts : Table DistributionAccount.id) (key : Nat) :
    Option DistributionAccount :=
  (accounts.index DistributionAccount.byOwner).find? fun a => a.byOwner = key

/-- The accounts of an owner, in the order of the index `byowner`. -/
def accountsOf (accounts : Table DistributionAccount.id) (owner : Name) :
    List DistributionAccount :=
  (accounts.index DistributionAccount.byOwner).filter fun a => a.owner = owner

def emplaceAccount (accounts : Table DistributionAccount.id) (owner : Name)
    (distributionTime rank : Nat) (balance : Asset) : Outcome (Table DistributionAccount.id) :=
  expect (accounts.emplace?
    ⟨availablePrimaryKey accounts, owner, distributionTime, rank, balance⟩) .duplicateKey

/-! ### Shares -/

/-- The loop of `make_distribution` over the ranks from the highest one down, `position` counting
from the highest. The shares come out in the order of the ranks. -/
def shareRanks (perRank : Asset) : (position : Nat) → List Nat → (total : Nat) → (used : Asset) →
    (shares : List Asset) → Outcome (Asset × List Asset)
  | _, [], _, used, shares => return (used, shares)
  | position, count :: rest, total, used, shares =>
      let total := (total + count) % 2 ^ 16
      if total = 0 then shareRanks perRank (position + 1) rest total used shares
      else if position = 0 then do
        let initData ← asset 0 perRank.symbol
        shareRanks perRank (position + 1) rest total used (initData :: shares)
      else do
        let base ← (if position = 1 then perRank.mul 2 else .ok perRank : Outcome Asset)
        let thisRank ← base.div total
        let spent ← thisRank.mul total
        let used ← used.add spent
        shareRanks perRank (position + 1) rest total used (thisRank :: shares)

/-- The last share, with an amount added. -/
def addToLast : List Asset → Asset → Outcome (List Asset)
  | [], _ => .error (.undefined "rank_distribution.back()")
  | [share], amount => do return [← share.add amount]
  | share :: rest, amount => do return share :: (← addToLast rest amount)

/-- `make_distribution`: the shares of the ranks, and the amount that they use up. -/
def makeDistribution (ranks : List Nat) (amount : Asset) : Outcome (List Asset × Asset) := do
  ensure (ranks ≠ []) (.undefined "ranks.end() - 1")
  let perRank ← amount.div (ranks.length - 1)
  let used ← asset 0 amount.symbol
  let (used, shares) ← shareRanks perRank 0 ranks.tail.reverse 0 used []
  if ranks.getLast? ≠ some 0 then do
    let shares ← addToLast shares (← amount.sub used)
    return (shares, amount)
  else return (shares, used)

/-! ### Setting up -/

/-- `init_pools`, and the same in `setup_distribution`. -/
def emplaceMasterPool (p : Platform) (f : Treasury) : Outcome Treasury := do
  let pools ← expect (f.distributions.pools.emplace? ⟨masterName, 5⟩) .duplicateKey
  return { f with
    output := pushEvent p f.output (.setPool masterName 5)
    distributions := { f.distributions with pools := pools } }

/-- The low 64 bits of a number, as a signed number. -/
def toInt64 (n : Int) : Int :=
  if n % 2 ^ 64 < 2 ^ 63 then n % 2 ^ 64 else n % 2 ^ 64 - 2 ^ 64

/-- `prorate_den` -/
def prorateDen : Int := 30 * 24 * 60 * 60 * 100

/-- `*prorate_num * pct * amount / prorate_den`, in unsigned 128 bits. -/
def proratedAmount (prorateNum pct : Nat) (amount : Int) : Int :=
  toInt64 ((prorateNum * pct * amount) % 2 ^ 128 / prorateDen)

/-- The amount that a pool gives to a distribution. -/
def poolShare (prorateNum : Option Nat) (pct : Nat) (balance : Asset) : Outcome Asset :=
  match prorateNum with
  | some num => asset (proratedAmount num pct balance.amount) balance.symbol
  | none => do
      let product ← balance.mul pct
      product.div 100

/-- Reserve the share of one pool; `total` is the amount reserved up to now. -/
def reservePool (p : Platform) (distributionTime : Nat) (prorateNum : Option Nat)
    (acc : Treasury × Asset) (pool : Pool) : Outcome (Treasury × Asset) :=
  match acc.1.owned.find? pool.name with
  | none => return acc
  | some account => do
      let amount ← poolShare prorateNum pool.monthlyDistributionPct account.balance
      let output := pushEvent p acc.1.output
        (.distributionReserve distributionTime pool.name amount)
      let owned ← subBalance acc.1.owned pool.name amount
      let total ← (if acc.2.amount = 0 then .ok amount else acc.2.add amount : Outcome Asset)
      return ({ acc.1 with owned := owned, output := output }, total)

/-- When the distribution after this one takes place, and the seconds up to it when an election
shortens the month. -/
def nextDistribution (c : Calendar) (distributionTime : Nat) : Nat × Option Nat :=
  let nextTime := ofTimePoint (toTimePoint distributionTime + days 30)
  match c.nextElectionTime with
  | none => (nextTime, none)
  | some e =>
      if e < nextTime ∧ distributionTime < e then (e, some ((e - distributionTime) / 2))
      else (nextTime, none)

/-- Whether the next election lies after a distribution. -/
def electionAfter (c : Calendar) (distributionTime : Nat) : Bool :=
  c.nextElectionTime.any fun e => distributionTime < e

/-- The row that a distribution with a reserved amount becomes, and the amount it uses. -/
def openDistribution (p : Platform) (c : Calendar) (f : Treasury) (distributionTime : Nat)
    (total : Asset) : Outcome (Treasury × Asset) :=
  if electionAfter c distributionTime then do
    let (shares, used) ← makeDistribution c.ranks total
    return ({ f with
      output := pushEvent p f.output (.distributionBegin distributionTime shares)
      distributions := { f.distributions with
        table := f.distributions.table.replace (.current distributionTime emptyName shares) } },
      used)
  else return ({ f with distributions := { f.distributions with
    table := f.distributions.table.replace (.election distributionTime total) } }, total)

/-- Put back into the master pool what a distribution does not use. -/
def returnExcess (p : Platform) (f : Treasury) (distributionTime : Nat) (total used : Asset) :
    Outcome Treasury := do
  if ← used.eq total then return f
  else do
    let excess ← total.sub used
    let owned ← addBalance f.owned masterName excess false
    return { f with
      output := pushEvent p f.output (.distributionReturnExcess distributionTime masterName excess)
      owned := owned }

/-- The end of a turn of `setup_distribution`: the row of the distribution is rewritten or
erased. -/
def fundDistribution (p : Platform) (c : Calendar) (f : Treasury) (distributionTime : Nat)
    (total : Asset) : Outcome Treasury :=
  if total.amount ≠ 0 then do
    let (f, used) ← openDistribution p c f distributionTime total
    let f ← returnExcess p f distributionTime total used
    let accounts ← emplaceAccount f.distributions.accounts p.self distributionTime 0 used
    return { f with distributions := { f.distributions with accounts := accounts } }
  else
    let output := pushEvent p f.output (.distributionBegin distributionTime [])
    return { f with
      output := pushEvent p output (.distributionEnd distributionTime)
      distributions := { f.distributions with
        table := f.distributions.table.erase distributionTime } }

/-- Store the row of the next distribution. -/
def scheduleDistribution (p : Platform) (f : Treasury) (distributionTime : Nat) :
    Outcome Treasury := do
  let table ← expect (f.distributions.table.emplace? (.next distributionTime)) .duplicateKey
  return { f with
    output := pushEvent p f.output (.distributionSchedule distributionTime)
    distributions := { f.distributions with table := table } }

/-- One turn of the loop of `setup_distribution`. -/
def startDistribution (p : Platform) (c : Calendar) (f : Treasury) (distributionTime : Nat) :
    Outcome Treasury := do
  let (nextTime, prorateNum) := nextDistribution c distributionTime
  let f ← (if f.distributions.pools.rows = [] then emplaceMasterPool p f else .ok f :
    Outcome Treasury)
  let (f, total) ← f.distributions.pools.rows.foldlM
    (reservePool p distributionTime prorateNum) (f, ⟨0, ⟨0, 0⟩⟩)
  let f ← fundDistribution p c f distributionTime total
  scheduleDistribution p f nextTime

/-- The loop of `setup_distribution`, at the last row of the table. Each turn ends with a later
row, so `now + 1` turns are enough unless the 32 bits of a block time wrap. -/
def setupFrom (p : Platform) (c : Calendar) : (fuel : Nat) → Treasury → Distribution →
    (result : Bool) → Outcome (Treasury × Bool)
  | 0, _, _, _ => .error .timeout
  | fuel + 1, f, row, result =>
      match row with
      | .next distributionTime =>
          if c.now < distributionTime then return (f, result)
          else do
            let f ← startDistribution p c f distributionTime
            setupFrom p c fuel f (.next (nextDistribution c distributionTime).1) true
      | _ => .error (.check "Invariant failure: no next distribution")

/-- `setup_distribution`; `init` is 0 when it is not given. -/
def setupDistribution (p : Platform) (c : Calendar) (f : Treasury) (init : Nat) :
    Outcome (Treasury × Bool) := do
  let c := if init = 0 then c else { c with nextElectionTime := some init }
  match f.distributions.table.rows.getLast? with
  | some last => setupFrom p c (c.now + 1) f last false
  | none =>
      if init = 0 then return (f, false)
      else do
        let f ← scheduleDistribution p f init
        setupFrom p c (c.now + 1) f (.next init) false

def addToPool (p : Platform) (c : Calendar) (f : Treasury) (pool : Name) (amount : Asset) :
    Outcome Treasury := do
  let (f, _) ← setupDistribution p c f 0
  let owned ← addBalance f.owned pool amount false
  return { f with owned := owned }

/-! ### Paying out -/

/-- Take an amount out of the account of a distribution, if it still exists. -/
def drawFrom (accounts : Table DistributionAccount.id) (pool : Option Nat) (amount : Asset) :
    Outcome (Table DistributionAccount.id) :=
  match pool.bind accounts.find? with
  | some row => do
      let balance ← row.balance.sub amount
      return accounts.replace { row with balance := balance }
  | none => do
      check (amount.amount = 0) "Overdrawn balance"
      return accounts

/-- Give a member its share of one rank. -/
def fundRank (p : Platform) (distributionTime : Nat) (pool : Option Nat) (owner : Name)
    (f : Treasury) (share : Nat × Asset) : Outcome Treasury := do
  let accounts ← emplaceAccount f.distributions.accounts owner distributionTime (share.1 + 1)
    share.2
  let accounts ← drawFrom accounts pool share.2
  return { f with
    output := pushEvent p f.output
      (.distributionFund owner distributionTime (share.1 + 1) share.2)
    distributions := { f.distributions with accounts := accounts } }

/-- The shares of the ranks below a member's rank, with their positions. -/
def sharesBelow (rankDistribution : List Asset) (rank : Nat) : List (Nat × Asset) :=
  (List.range rank).zip (rankDistribution.take rank)

/-- Pay out to the members of a list while steps remain. -/
def fundMembers (p : Platform) (distributionTime : Nat) (rankDistribution : List Asset)
    (pool : Option Nat) : (maxSteps : Nat) → List Member → (lastProcessed : Name) → Treasury →
    Outcome (Nat × Name × Treasury)
  | 0, _, lastProcessed, f => return (0, lastProcessed, f)
  | maxSteps + 1, [], lastProcessed, f => return (maxSteps + 1, lastProcessed, f)
  | maxSteps + 1, member :: rest, _, f => do
      check (member.electionRank ≤ rankDistribution.length) "Invariant failure: rank too high"
      let f ← (sharesBelow rankDistribution member.electionRank).foldlM
        (fundRank p distributionTime pool member.account) f
      fundMembers p distributionTime rankDistribution pool maxSteps rest member.account f

/-- Erase the account of a distribution when nothing is left in it. -/
def closePool (f : Treasury) (pool : Option Nat) : Outcome Treasury :=
  match pool.bind f.distributions.accounts.find? with
  | none => return f
  | some row => do
      check (0 ≤ row.balance.amount) "Overdrawn balance"
      if row.balance.amount = 0 then
        return { f with distributions := { f.distributions with
          accounts := f.distributions.accounts.erase row.id } }
      else return f

/-- `distribute_monthly` for one distribution: the steps left, the last member paid, and the
treasury. -/
def distributeCurrent (p : Platform) (members : Table Member.account) (maxSteps : Nat)
    (distributionTime : Nat) (lastProcessed : Name) (rankDistribution : List Asset)
    (f : Treasury) : Outcome (Nat × Name × Treasury) := do
  let pool := (findByOwner f.distributions.accounts
    (distributionAccountKey p.self distributionTime 0)).map DistributionAccount.id
  let (maxSteps, lastProcessed, f) ← fundMembers p distributionTime rankDistribution pool maxSteps
    (members.above lastProcessed) lastProcessed f
  let f ← closePool f pool
  return (maxSteps, lastProcessed, f)

/-- The loop of `distribute_monthly` over the distributions. -/
def distributeRows (p : Platform) (members : Table Member.account) :
    List Distribution → (maxSteps : Nat) → Treasury → Outcome (Nat × Treasury)
  | [], maxSteps, f => return (maxSteps, f)
  | row :: rest, maxSteps, f =>
      if maxSteps = 0 then return (maxSteps, f)
      else
        match row with
        | .current t lastProcessed shares => do
            let (maxSteps, lastProcessed, f) ←
              distributeCurrent p members maxSteps t lastProcessed shares f
            if maxSteps = 0 then
              return (0, { f with distributions := { f.distributions with
                table := f.distributions.table.replace (.current t lastProcessed shares) } })
            else
              distributeRows p members rest (maxSteps - 1) { f with
                output := pushEvent p f.output (.distributionEnd t)
                distributions := { f.distributions with
                  table := f.distributions.table.erase t } }
        | .next _ => return (maxSteps, f)
        | .election _ _ => return (maxSteps, f)

/-- `distribute_monthly`: the steps left, and the treasury. -/
def distributeMonthly (p : Platform) (c : Calendar) (members : Table Member.account)
    (maxSteps : Nat) (f : Treasury) : Outcome (Nat × Treasury) :=
  if maxSteps = 0 then return (0, f)
  else do
    let (f, started) ← setupDistribution p c f 0
    let maxSteps := if started then maxSteps - 1 else maxSteps
    distributeRows p members f.distributions.table.rows maxSteps f

/-- Turn an election distribution into a current one. -/
def beginElectionDistribution (p : Platform) (ranks : List Nat) (f : Treasury)
    (distributionTime : Nat) (amount : Asset) : Outcome Treasury := do
  let (shares, used) ← makeDistribution ranks amount
  check (← used.eq amount)
    "Invariant failure: post-election distribution should not be missing a satoshi"
  return { f with
    output := pushEvent p f.output (.distributionBegin distributionTime shares)
    distributions := { f.distributions with
      table := f.distributions.table.replace (.current distributionTime emptyName shares) } }

/-- The loop of `process_election_distribution`. -/
def processElectionRows (p : Platform) (ranks : List Nat) :
    List Distribution → Treasury → Outcome Treasury
  | [], f => return f
  | .election t amount :: rest, f => do
      processElectionRows p ranks rest (← beginElectionDistribution p ranks f t amount)
  | .current _ _ _ :: rest, f => processElectionRows p ranks rest f
  | .next _ :: _, f => return f

def processElectionDistribution (p : Platform) (ranks : List Nat) (f : Treasury) :
    Outcome Treasury :=
  processElectionRows p ranks f.distributions.table.rows f

/-! ### `distributions` -/

/-- `distributions::sub_balance` -/
def subAccount (accounts : Table DistributionAccount.id) (sender : Name)
    (distributionTime rank : Nat) (amount : Asset) : Outcome (Table DistributionAccount.id) := do
  let row ← getRow
    (findByOwner accounts (distributionAccountKey sender distributionTime rank))
    "unable to find secondary key"
  check (← row.balance.ge amount) "insufficient balance"
  if ← row.balance.eq amount then return accounts.erase row.id
  else do
    let balance ← row.balance.sub amount
    return accounts.replace { row with balance := balance }

/-- Return an account of a member to the master pool. -/
def returnAccount (p : Platform) (f : Treasury) (row : DistributionAccount) : Outcome Treasury := do
  let owned ← addBalance f.owned masterName row.balance false
  return { f with
    output := pushEvent p f.output
      (.distributionReturn row.owner row.distributionTime row.rank row.balance masterName)
    owned := owned
    distributions := { f.distributions with
      accounts := f.distributions.accounts.erase row.id } }

/-- The sum of the first shares, which starts from the first one. -/
def sumShares : List Asset → Outcome Asset
  | [] => .error (.undefined "rank_distribution.front()")
  | share :: rest => rest.foldlM Asset.add share

/-- Return what a distribution in progress still owes to a member. -/
def returnShare (p : Platform) (f : Treasury) (member : Member) (distributionTime : Nat)
    (rankDistribution : List Asset) : Outcome Treasury := do
  check (member.electionRank ≤ rankDistribution.length) "Invariant failure: rank too high"
  let amount ← sumShares (rankDistribution.take member.electionRank)
  let accounts ← (match findByOwner f.distributions.accounts
      (distributionAccountKey p.self distributionTime 0) with
    | some row => do
        check (← row.balance.ge amount) "insufficient balance"
        if ← row.balance.eq amount then return f.distributions.accounts.erase row.id
        else do
          let balance ← row.balance.sub amount
          return f.distributions.accounts.replace { row with balance := balance }
    | none => do
        check (amount.amount = 0) "insufficient balance"
        return f.distributions.accounts : Outcome (Table DistributionAccount.id))
  let owned ← addBalance f.owned masterName amount false
  return { f with
    output := pushEvent p f.output (.distributionReturnExcess distributionTime masterName amount)
    owned := owned
    distributions := { f.distributions with accounts := accounts } }

/-- The loop of `distributions::on_resign` over the distributions. -/
def returnShares (p : Platform) (member : Member) :
    List Distribution → Treasury → Outcome Treasury
  | .current t lastProcessed shares :: rest, f =>
      if lastProcessed < member.account ∧ 0 < member.electionRank then do
        returnShares p member rest (← returnShare p f member t shares)
      else returnShares p member rest f
  | _, f => return f

/-- `distributions::on_resign` -/
def onResign (p : Platform) (c : Calendar) (f : Treasury) (member : Member) :
    Outcome Treasury := do
  let (f, _) ← setupDistribution p c f 0
  let f ← (accountsOf f.distributions.accounts member.account).foldlM (returnAccount p) f
  returnShares p member f.distributions.table.rows f

/-- `distributions::on_rename` -/
def onRename (p : Platform) (c : Calendar) (f : Treasury) (oldAccount newAccount : Name) :
    Outcome Treasury := do
  check (match f.distributions.table.rows with | .current _ _ _ :: _ => false | _ => true)
    "Cannot rename member while a distribution is in progress"
  let (f, _) ← setupDistribution p c f 0
  return { f with distributions := { f.distributions with
    accounts := f.distributions.accounts.update
      (fun a => if a.owner = oldAccount then { a with owner := newAccount } else a)
      fun a => by split <;> rfl } }

end Eden.DistributionTables
