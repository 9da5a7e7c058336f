import Eden.Transactions

/-!
The steps that calls of the contract are made of. Every call is a sequence of steps, so what each
step keeps is kept by every run.
-/

namespace Eden.ContractSteps

open Eden.ExceptReasoning
open Eden.SortedTable
open Eden.TransactionRuns
open Eden.ChainPrimitives
open Eden.ElectionPlan
open Eden.ContractState
open Eden.Runtime
open Eden.AccountTables
open Eden.MemberTable
open Eden.DistributionTables
open Eden.BylawsRules
open Eden.ElectionRounds
open Eden.ElectionPhases
open Eden.InductionTables
open Eden.Maintenance
open Eden.ContractActions
open Eden.Transactions

/-- The fields of a member that elections and distributions read. -/
def core (m : Member) : Member :=
  { account := m.account
    status := m.status
    electionParticipationStatus := m.electionParticipationStatus
    electionRank := m.electionRank
    representative := m.representative }

/-- Calls that work on inductions. -/
def handlesInductions : Call → Bool
  | .action (.genesis ..) => true
  | .action (.addtogenesis ..) => true
  | .action (.gensetexpire ..) => true
  | .action (.inductinit ..) => true
  | .action (.inductprofil ..) => true
  | .action (.inductvideo ..) => true
  | .action (.inductendors ..) => true
  | .action (.inductdonate ..) => true
  | .action (.inductcancel ..) => true
  | .action (.inducted ..) => true
  | .action (.gc ..) => true
  | _ => false

/-- Calls that may give the next election another date. -/
def reschedules : Call → Bool
  | .action (.genesis ..) => true
  | .action (.electsettime ..) => true
  | .action (.electconfig ..) => true
  | .action (.inductdonate ..) => true
  | .action (.inducted ..) => true
  | .action (.resign ..) => true
  | _ => false

/-- Calls between users and the contract, which keep its tokens and accounts in step. -/
def settles : Call → Bool
  | .action (.withdraw ..) => true
  | .action (.inductdonate ..) => true
  | .transfer .. => true
  | _ => false

def isMigrate : Call → Bool
  | .action (.migrate _) => true
  | _ => false

/-- Two states that agree on funds, inductions and bylaws, on what elections read of the members
and on the election. -/
structure Aside (s s' : State) : Prop where
  now : s'.now = s.now
  accounts : s'.accounts = s.accounts
  distributions : s'.distributions = s.distributions
  tokens : s'.tokens = s.tokens
  migration : s'.migration = s.migration
  stats : s'.members.stats = s.members.stats
  history : s'.members.rankHistory = s.members.rankHistory
  rows : s'.members.table.rows.map core = s.members.table.rows.map core
  current : s'.elections.current = s.elections.current
  votes : s'.elections.votes = s.elections.votes
  results : s'.elections.results = s.elections.results
  bylaws : s'.bylaws = s.bylaws
  inductions : s'.inductions.inductions = s.inductions.inductions
  endorsements : s'.inductions.endorsements = s.inductions.endorsements
  endorsed : s'.inductions.endorsed = s.inductions.endorsed
  queue : s'.inductions.gc = s.inductions.gc
  donation : s'.globals.map Globals.minimumDonation = s.globals.map Globals.minimumDonation
  stage : s'.globals.map Globals.stage = s.globals.map Globals.stage
  start : ∀ g', s'.globals = some g' → g'.electionStartTime = unsetStartTime →
    ∃ g, s.globals = some g ∧ g.electionStartTime = unsetStartTime
  output : Quiet s.output s'.output

theorem Aside.refl (s : State) : Aside s s where
  now := rfl
  accounts := rfl
  distributions := rfl
  tokens := rfl
  migration := rfl
  stats := rfl
  history := rfl
  rows := rfl
  current := rfl
  votes := rfl
  results := rfl
  bylaws := rfl
  inductions := rfl
  endorsements := rfl
  endorsed := rfl
  queue := rfl
  donation := rfl
  stage := rfl
  start := fun g hg hunset => ⟨g, hg, hunset⟩
  output := Quiet.refl _

/-- The move to a next stage of the schedule of an election: at first, by a new date before the
start, or by a date earlier than the one it had. -/
def Reschedules (s : State) (startTime version : Nat) : Prop :=
  (s.elections.current = none ∧ version = 1) ∨
    ∃ startTime₀ threshold₀ version₀,
      s.elections.current = some (.registration startTime₀ threshold₀ version₀) ∧
      version = (version₀ + 1) % 2 ^ 8 ∧ version ≠ 0 ∧
      ((∃ g, s.globals = some g ∧ startTime = triggeredStart g s.now ∧ startTime < startTime₀) ∨
        toTimePoint s.now + days 1 ≤ toTimePoint startTime₀)

/-- The election is in its last round: all members have been visited and there is one group, or
the seed of the sortition is known. -/
def InLastRound (s : State) : Prop :=
  (∃ data configs, s.elections.current = some (.initVoters data) ∧
      s.members.table.above data.lastProcessed = [] ∧ 0 < data.nextMemberIdx ∧
      makeElectionConfig data.nextMemberIdx = .ok configs ∧ configs.length = 1) ∨
    ∃ seeder, s.elections.current = some (.final seeder)

/-- The table with the entry of a member removed, and the statistics without it. -/
def withoutMember (m : Members) (account : Name) (stats : MemberStats) : Members :=
  { m with table := m.table.erase account, stats := stats }

/-- The statistics with one pending member less. -/
def onePendingLess (stats : MemberStats) : MemberStats :=
  { stats with pendingMembers := stats.pendingMembers - 1 }

def withUser (s : State) (user : AccountTable) : State :=
  { s with accounts := { s.accounts with user := user } }

/-- One step of a call. -/
inductive Step (p : Platform) : Call → State → State → Prop
  | aside {call : Call} {s s' : State} : Aside s s' → Step p call s s'
  /-- `members::create` -/
  | enters {call : Call} {s : State} {account : Name} {m : Members} :
      handlesInductions call = true → create s.members account = .ok m → Step p call s { s with members := m }
  /-- `members::set_active` -/
  | activates {call : Call} {s : State} {row : EndorsedInduction} {name : Text} {m : Members} :
      handlesInductions call = true → row ∈ s.inductions.endorsed.rows →
      setActive s.members row.invitee name = .ok m →
      Step p call s { s with members := m }
  /-- `members::remove_if_pending` -/
  | drops {call : Call} {s : State} {member : Member} :
      handlesInductions call = true → s.members.table.find? member.account = some member →
      member.status = .pendingMembership → s.members.stats.pendingMembers ≠ 0 →
      Step p call s { s with
        members := withoutMember s.members member.account (onePendingLess s.members.stats) }
  /-- `members::election_opt` -/
  | opts {s : State} {account : Name} {participating : Bool} {m : Members} :
      electionOpt s.members s.now (getNextElectionTime s.elections.current)
        (electionScheduleVersion s.elections.current) account participating = .ok m →
      Step p (.action (.electopt account participating)) s { s with members := m }
  /-- Inductions change. -/
  | inducts {call : Call} {s : State} {t : Inductions} :
      handlesInductions call = true →
      (∀ row ∈ t.endorsed.rows,
        row ∈ s.inductions.endorsed.rows ∨ isAccountName row.invitee = true) →
      Step p call s { s with inductions := t }
  /-- `members::maybe_activate_contract` -/
  | establishes {call : Call} {s : State} {g : Globals} {stage : ContractStage} :
      handlesInductions call = true → s.globals = some g →
      Step p call s { s with globals := some { g with stage := stage } }
  /-- `resign` up to the election that it may trigger. -/
  | resigns {s : State} {member : Member} {f : Treasury} {stats : MemberStats} :
      isElectionRunning s = false → s.members.table.find? member.account = some member →
      member.status = .activeMember → onResign p (calendar s) (treasury s) member = .ok f →
      uncount s.members.stats member = .ok stats →
      Step p (.action (.resign member.account)) s { withTreasury s f with
        members := withoutMember s.members member.account stats
        elections := { s.elections with
          results := s.elections.results.map (boardWithout member.account) }
        bylaws := withdrawApprovals s.bylaws member.account }
  /-- `rename` -/
  | renames {s : State} {member : Member} {newAccount : Name} {user : AccountTable}
      {f : Treasury} {table : Table Member.account} {t : Inductions} :
      isElectionRunning s = false → isAccountName newAccount = true →
      s.members.table.find? member.account = some member → member.status = .activeMember →
      AccountTables.onRename s.accounts.user member.account newAccount = .ok user →
      DistributionTables.onRename p (calendar s)
        (treasury (record s (.action (.rename member.account newAccount)))) member.account
          newAccount = .ok f →
      renameEndorser s.inductions member.account newAccount = .ok t →
      s.members.table.emplace? { member with account := newAccount, inByRep := true } =
        some table →
      Step p (.action (.rename member.account newAccount)) s { withTreasury (withUser s user) f with
        members := { s.members with
          table := renameRows table member.account newAccount member.electionRank }
        elections := { s.elections with
          results := s.elections.results.map (boardRenamed member.account newAccount) }
        inductions := t
        bylaws := renameApprovals s.bylaws member.account newAccount }
  /-- `bylaws::set_proposed` -/
  | proposes {s : State} {proposer : Name} {text : Text} {t : BylawsTable} :
      setProposed s.bylaws s.now s.elections.results proposer text = .ok t →
      Step p (.action (.bylawspropose proposer text)) s { s with bylaws := t }
  /-- `bylaws::approve` of the proposed bylaws. -/
  | approves {s : State} {approver : Name} {bylawsHash : Checksum} {t : BylawsTable} :
      approve p s.bylaws s.now s.elections.results (getNextElectionTime s.elections.current)
        .proposed .pending approver bylawsHash = .ok t →
      Step p (.action (.bylawsapprove approver bylawsHash)) s { s with bylaws := t }
  /-- `bylaws::approve` of the pending bylaws. -/
  | ratifies {s : State} {approver : Name} {bylawsHash : Checksum} {t : BylawsTable} :
      approve p s.bylaws s.now s.elections.results (getNextElectionTime s.elections.current)
        .pending .ratified approver bylawsHash = .ok t →
      Step p (.action (.bylawsratify approver bylawsHash)) s { s with bylaws := t }
  /-- The election gets a date. -/
  | schedules {call : Call} {s : State} {o : Output} {startTime threshold version : Nat} :
      reschedules call = true → Quiet s.output o → Reschedules s startTime version →
      Step p call s (withCurrent s o (.registration startTime threshold version))
  /-- The election loses its date. -/
  | unschedules {call : Call} {s : State} {o : Output} {g : Globals} :
      reschedules call = true → Quiet s.output o → s.globals = some g →
      g.electionStartTime = unsetStartTime → Step p call s (withCurrent s o .pendingDate)
  /-- `finishelect` -/
  | aborts {s : State} {o : Output} {startTime threshold electionTime : Nat} : Quiet s.output o →
      Step p (.action (.finishelect electionTime)) s
        (withCurrent s o (.registration startTime threshold 1))
  /-- `elections::seed` -/
  | seeds {s s' : State} {btcHeader : Bytes} : seed p s btcHeader = .ok s' →
      Step p (.action (.electseed btcHeader)) s s'
  /-- `elections::start_election` -/
  | starts {s s' : State} {seeder : ElectionSeeder} {version maxSteps : Nat} {data : InitVoters} :
      s.elections.current = some (.seeding seeder version) →
      startElection p s seeder version = .ok (s', data) → 0 < maxSteps →
      Step p (.action (.electprocess maxSteps)) s s'
  /-- A turn of `elections::randomize_voters`. -/
  | visits {n : Nat} {s : State} {data data' : InitVoters} {member : Member}
      {rest : List Member} {b : Ballot} :
      s.elections.current = some (.initVoters data) →
      s.members.table.above data.lastProcessed = member :: rest →
      visitMember p (ballot s) data member = .ok (b, data') →
      Step p (.action (.electprocess n)) s (withCurrent (withBallot s b) b.output (.initVoters data'))
  /-- Groups of the first round are reported. -/
  | reports {n : Nat} {s : State} {data : InitVoters} {o : Output} {next : Nat} :
      s.elections.current = some (.initVoters data) → Quiet s.output o →
      Step p (.action (.electprocess n)) s
        (withCurrent s o (.initVoters { data with nextReportIndex := next }))
  /-- The first round begins. -/
  | opens {n : Nat} {s : State} {data : InitVoters} {o : Output} {configs : ElectionConfig}
      {config : RoundConfig} {roundEnd : Nat} :
      s.elections.current = some (.initVoters data) →
      s.members.table.above data.lastProcessed = [] → 0 < data.nextMemberIdx →
      makeElectionConfig data.nextMemberIdx = .ok configs → configs.head? = some config →
      configs.length ≠ 1 → Quiet s.output o →
      Step p (.action (.electprocess n)) s
        (withCurrent s o (.active ⟨0, config, data.rng.seed, roundEnd⟩))
  /-- `elections::vote` -/
  | votes {s s' : State} {round : Nat} {voter candidate : Name} :
      vote s round voter candidate = .ok s' →
      Step p (.action (.electvote round voter candidate)) s s'
  /-- A round is over. -/
  | closes {n : Nat} {s : State} {round : ActiveRound} {o : Output} {rng : ElectionRng} :
      s.elections.current = some (.active round) → round.roundEnd ≤ s.now → Quiet s.output o →
      Step p (.action (.electprocess n)) s
        (withCurrent s o (.postRound ⟨rng, round.round, round.config, 0, 0, 0⟩))
  /-- Groups of `elections::finish_round`. -/
  | groups {n : Nat} {s : State} {data data' : PostRound} {b : Ballot}
      {electionTime maxSteps remaining : Nat} :
      s.elections.current = some (.postRound data) →
      finishGroups p electionTime maxSteps (remainingVotes s.elections.votes data) (ballot s) data =
        .ok (remaining, b, data') →
      Step p (.action (.electprocess n)) s (withCurrent (withBallot s b) b.output (.postRound data'))
  /-- Groups of the next round are reported. -/
  | rereports {n : Nat} {s : State} {data : PostRound} {o : Output} {next : Nat} :
      s.elections.current = some (.postRound data) → Quiet s.output o →
      Step p (.action (.electprocess n)) s
        (withCurrent s o (.postRound { data with nextReportIndex := next }))
  /-- The last groups of a round, and the next round begins. -/
  | advances {n : Nat} {s : State} {data data' : PostRound} {b : Ballot} {o : Output}
      {electionTime maxSteps remaining : Nat} {configs : ElectionConfig} {config : RoundConfig}
      {next : ElectionState} :
      s.elections.current = some (.postRound data) →
      finishGroups p electionTime maxSteps (remainingVotes s.elections.votes data) (ballot s) data =
        .ok (remaining, b, data') →
      remaining ≠ 0 → makeElectionConfig data'.nextOutputIndex = .ok configs →
      configs.head? = some config →
      ((configs.length ≠ 1 ∧ ∃ seed roundEnd,
          next = .active ⟨data'.prevRound + 1, config, seed, roundEnd⟩) ∨
        (configs.length = 1 ∧ ∃ seeder, next = .final seeder)) →
      Quiet b.output o → Step p (.action (.electprocess n)) s (withCurrent (withBallot s b) o next)
  /-- `elections::finish_election` -/
  | concludes {n : Nat} {s : State} {board : List Name} {winner : Name} {members : Members}
      {f : Treasury} {o : Output} {g : Globals} {results : ElectionResults} {threshold : Nat} :
      s.globals = some g → s.elections.results = some results → InLastRound s → board = (s.elections.votes.index Vote.byIndex).map Vote.member →
      board.length < 12 → winner ∈ board →
      rankBoard s.members board winner (boardRank s.members) = .ok members →
      processElectionDistribution p members.stats.ranks (treasury s) = .ok f →
      Quiet f.output o →
      Step p (.action (.electprocess n)) s
        (concluded { s with elections := { s.elections with votes := .empty } } f o members
          { results with leadRepresentative := winner, board := board }
          (.registration (defaultStart g (secOfTimePoint (toTimePoint results.lastElectionTime)))
            threshold 1))
  /-- `distribute_monthly` -/
  | distributes {call : Call} {s : State} {f : Treasury} {maxSteps remaining : Nat} :
      distributeMonthly p (calendar s) s.members.table maxSteps (treasury s) = .ok (remaining, f) →
      Step p call s (withTreasury s f)

  /-- `withdraw` and its transfer, between migrations. -/
  | withdraws {s : State} {g : Globals} {owner : Name} {quantity : Asset}
      {user outgoing : AccountTable} {tokens : TokenTable} {o : Output} :
      s.globals = some g → quantity.symbol = g.defaultToken → 0 < quantity.amount →
      subBalance s.accounts.user owner quantity = .ok user →
      tokenSub s.tokens quantity = .ok tokens →
      (s.accounts.outgoing = .empty → outgoing = .empty) →
      fundTrace o = fundTrace s.output ++ [.action (.withdraw owner quantity),
        .transfer p.self edenDelegate quantity (nameToText owner)] →
      Step p (.action (.withdraw owner quantity)) s { s with
        accounts := { s.accounts with user := user, outgoing := outgoing }
        tokens := tokens
        output := o }
  /-- A transfer that the contract authorises itself. -/
  | sends {s : State} {receiver owner : Name} {quantity : Asset} {memo : Text}
      {outgoing : AccountTable} {tokens : TokenTable} {o : Output} :
      subBalance s.accounts.outgoing owner quantity = .ok outgoing →
      Step p (.transfer p.self receiver quantity memo) s { s with
        accounts := { s.accounts with outgoing := outgoing }
        tokens := tokens
        output := o }
  /-- A deposit. -/
  | deposits {s : State} {g : Globals} {sender : Name} {quantity : Asset} {memo : Text}
      {user : AccountTable} {tokens : TokenTable} {o : Output} :
      sender ≠ p.self → s.globals = some g → quantity.symbol = g.defaultToken →
      0 < quantity.amount → isPossibleDepositAccount p sender = true → memo ≠ donateMemo →
      addBalance s.accounts.user sender quantity true = .ok user →
      tokenAdd s.tokens quantity = .ok tokens →
      fundTrace o = fundTrace s.output ++ [.transfer sender p.self quantity memo] →
      Step p (.transfer sender p.self quantity memo) s { withUser s user with
        tokens := tokens
        output := o }
  /-- A transfer to the master pool. -/
  | receives {s : State} {g : Globals} {sender : Name} {quantity : Asset} {memo : Text}
      {tokens : TokenTable} {f : Treasury} {o : Output} :
      sender ≠ p.self → s.globals = some g → quantity.symbol = g.defaultToken →
      0 < quantity.amount → (isPossibleDepositAccount p sender = false ∨ memo = donateMemo) →
      tokenAdd s.tokens quantity = .ok tokens →
      addToPool p (calendar s)
        (treasury (record s (.transfer sender p.self quantity memo))) masterName quantity =
        .ok f →
      Quiet f.output o →
      Step p (.transfer sender p.self quantity memo) s { withTreasury s f with
        tokens := tokens
        output := o }
  /-- `donate`, or what a new member pays. -/
  | donates {s : State} {a : Action} {owner : Name} {quantity : Asset} {user : AccountTable}
      {f : Treasury} :
      ((a = .donate owner quantity ∧ 0 < quantity.amount) ∨
        ∃ id g, a = .inductdonate owner id quantity ∧ s.globals = some g ∧
          quantity.amount = g.minimumDonation.amount) →
      subBalance s.accounts.user owner quantity = .ok user →
      addToPool p (calendar s) (treasury (record s (.action a))) masterName quantity = .ok f →
      Step p (.action a) s (withTreasury (withUser s user) f)
  | fundtransfers {s : State} {sender receiver : Name} {member : Member}
      {distributionTime rank : Nat} {amount : Asset} {memo : Text} {user : AccountTable}
      {accounts : Table DistributionAccount.id} {o : Output} :
      0 < amount.amount → s.members.table.find? sender = some member →
      subAccount s.distributions.accounts sender distributionTime rank amount = .ok accounts →
      addBalance s.accounts.user receiver amount false = .ok user →
      fundTrace o = fundTrace s.output ++
        [.action (.fundtransfer sender distributionTime rank receiver amount memo)] →
      Step p (.action (.fundtransfer sender distributionTime rank receiver amount memo)) s
        { withUser s user with
          distributions := { s.distributions with accounts := accounts }
          output := o }
  | usertransfers {s : State} {sender receiver : Name} {amount : Asset} {memo : Text}
      {user user' : AccountTable} {o : Output} :
      0 < amount.amount → subBalance s.accounts.user sender amount = .ok user →
      addBalance user receiver amount false = .ok user' →
      fundTrace o = fundTrace s.output ++ [.action (.usertransfer sender receiver amount memo)] →
      Step p (.action (.usertransfer sender receiver amount memo)) s
        { withUser s user' with output := o }
  /-- A change of accounts before the accounts are migrated. -/
  | unsettled {call : Call} {s : State} {user outgoing : AccountTable} {tokens : TokenTable}
      {migration : Option Migration} {o : Output} :
      s.globals ≠ none → isAccountMigrated s.migration = false → settles call = true →
      Step p call s { s with
        accounts := { s.accounts with user := user, outgoing := outgoing }
        tokens := tokens
        migration := migration
        output := o }
  /-- `migrate` while a migration is left, or `unmigrate`. -/
  | migrates {call : Call} {s : State} {owned : AccountTable} {table : Table Member.account}
      {auctions : Table Auction.assetId} {migration : Option Migration} {o : Output} :
      (call = .action .unmigrate ∨ (isMigrate call = true ∧
        s.migration ≠ some .fixInductdonateExpirationCheck)) →
      (s.globals = none → owned = s.accounts.owned) →
      (∀ row ∈ owned.rows, row ∈ s.accounts.owned.rows ∨
        (0 ≤ row.balance.amount ∧ row.balance.amount ≤ maxAmount)) →
      table.rows.map core = s.members.table.rows.map core → Quiet s.output o →
      Step p call s { s with
        accounts := { s.accounts with owned := owned }
        members := { s.members with table := table }
        auctions := auctions
        migration := migration
        output := o }
  /-- `genesis` without the schedule and the members. -/
  | founds {s : State} {community : Text} {communitySymbol : Symbol} {minimumDonation : Asset}
      {initialMembers : List Name} {genesisVideo : Text} {auctionStartingBid : Asset}
      {auctionDuration electionDay : Nat} {electionTime : Text} {g : Globals}
      {pools : Table Pool.name} {owned : AccountTable} {o : Output} :
      s.globals = none → g.minimumDonation = minimumDonation → g.stage = .genesis →
      g.electionStartTime ≠ unsetStartTime →
      s.distributions.pools.emplace? ⟨masterName, 5⟩ = some pools →
      ((∃ balance, s.tokens.find? minimumDonation.symbol.code = some balance ∧
          addBalance s.accounts.owned masterName balance false = .ok owned) ∨
        (s.tokens.find? minimumDonation.symbol.code = none ∧ owned = s.accounts.owned)) →
      Quiet s.output o →
      Step p (.action (.genesis community communitySymbol minimumDonation initialMembers
          genesisVideo auctionStartingBid auctionDuration electionDay electionTime)) s
        { s with
          globals := some g
          accounts := { s.accounts with owned := owned }
          distributions := { s.distributions with pools := pools }
          migration := some .fixInductdonateExpirationCheck
          output := o }
  /-- `clearall` -/
  | clears {s s' : State} {env : Env} : clearall p env (record s (.action .clearall)) = .ok s' →
      Step p (.action .clearall) s s'
  /-- `changerank` -/
  | extends {s : State} {contract : Name} {ranks ranks' : List Nat} :
      Step p (.action (.changerank contract ranks')) s
        { s with members := setRanks s.members ranks }
  /-- `clearrank` -/
  | empties {s : State} {contract : Name} {ranks : List Nat} :
      Step p (.action (.clearrank contract ranks)) s { s with members := clearRanks s.members }

/-- A sequence of steps of one call. -/
abbrev Steps (p : Platform) (call : Call) : State → State → Prop :=
  Relation.ReflTransGen (Step p call)

/-! ### Steps aside -/

theorem Aside.steps {p : Platform} {call : Call} {s s' : State} (h : Aside s s') :
    Steps p call s s' := .single (.aside h)

theorem quiet_record (s : State) {e : Executed} (h : concernsFunds e = false) :
    Quiet s.output (record s e).output := by
  simp only [Quiet, fundTrace, trace, record, List.flatMap_append, List.filter_append,
    List.flatMap_cons, List.flatMap_nil, List.append_nil]
  have hnone : (unbatched e).filter concernsFunds = [] := by
    cases e with
    | action a => simp [unbatched, h]
    | transfer => simp [concernsFunds] at h
    | external => rfl
    | events batch =>
        simp only [concernsFunds, List.any_eq_false] at h
        simp only [unbatched, List.filter_eq_nil_iff, List.mem_map]
        rintro _ ⟨e, he, rfl⟩
        simpa [concernsFunds] using h e he
  simp [hnone]

/-- A change of tables that nothing else depends on. -/
theorem aside_tables (s : State) {o : Output} (a : Table Auction.assetId)
    (ss : Table SessionContainer.edenAccount) (e : EncryptedTable)
    (hquiet : Quiet s.output o) :
    Aside s { s with
      output := o
      auctions := a
      sessions := ss
      elections := { s.elections with encrypted := e } } :=
  { Aside.refl s with output := hquiet }

theorem aside_output (s : State) {o : Output} (hquiet : Quiet s.output o) :
    Aside s { s with output := o } := { Aside.refl s with output := hquiet }

theorem aside_withCurrent (s : State) {o o' : Output} {state : ElectionState}
    (hquiet : Quiet o o') : Aside (withCurrent s o state) (withCurrent s o' state) :=
  aside_output (withCurrent s o state) hquiet

/-- A change of the meetings of inductions. -/
theorem aside_meetings (s : State) (e : EncryptedTable) :
    Aside s { s with inductions := { s.inductions with encrypted := e } } :=
  { Aside.refl s with }

theorem noneEndorsed_steps {p : Platform} {call : Call} {s : State} {t : Inductions}
    (hcall : handlesInductions call = true) (h : NoneEndorsed s.inductions t) :
    Steps p call s { s with inductions := t } :=
  .single (.inducts hcall fun row hrow => .inl (h row hrow))

theorem aside_rows (s : State) {table : Table Member.account}
    (hrows : table.rows.map core = s.members.table.rows.map core) :
    Aside s { s with members := { s.members with table := table } } :=
  { Aside.refl s with rows := hrows }

/-- Globals with another start of the elections or length of rounds. -/
theorem aside_globals (s : State) {g g' : Globals} (hg : s.globals = some g)
    (hdonation : g'.minimumDonation = g.minimumDonation) (hstage : g'.stage = g.stage)
    (hstart : g'.electionStartTime = unsetStartTime → g.electionStartTime = unsetStartTime) :
    Aside s { s with globals := some g' } :=
  { Aside.refl s with
    donation := by simp [hg, hdonation]
    stage := by simp [hg, hstage]
    start := by
      intro g'' hg'' hunset
      simp only [Option.some.injEq] at hg''
      subst hg''
      exact ⟨g, hg, hstart hunset⟩ }

theorem map_core_modify (t : Table Member.account) (account : Name) (f : Member → Member)
    (hf : ∀ m, (f m).account = m.account) (hcore : ∀ m, core (f m) = core m) :
    (t.modify account f hf).rows.map core = t.rows.map core := by
  simp only [Table.modify, Table.update, List.map_map]
  apply List.map_congr_left
  intro m _
  simp only [Function.comp_apply]
  split
  · exact hcore m
  · rfl

/-- A change of a member's row that keeps what elections read of it. -/
theorem aside_modifyMember (s : State) (account : Name) {f : Member → Member}
    (hcore : ∀ m, core { f m with account := m.account } = core m) :
    Aside s { s with members := modifyMember s.members account f } :=
  aside_rows s (map_core_modify _ _ _ _ fun m => hcore m)

end Eden.ContractSteps
