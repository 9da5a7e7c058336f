import Eden.ElectionRounds

/-!
The phases of an election: it is scheduled, seeded, its voters are enrolled, and round after round
is voted on and finished until the board and the lead representative are known.
-/

namespace Eden.ElectionPhases

open Eden.ExceptReasoning
open Eden.SortedTable
open Eden.ChainPrimitives
open Eden.ElectionPlan
open Eden.ContractState
open Eden.Runtime
open Eden.MemberTable
open Eden.DistributionTables
open Eden.BylawsRules
open Eden.ElectionRounds

/-! ### Parts of the state -/

/-- `elections::get_next_election_time` -/
def getNextElectionTime : Option ElectionState → Option Nat
  | some (.registration startTime _ _) => some startTime
  | some (.seeding seed _) => some seed.endTime
  | _ => none

def electionScheduleVersion : Option ElectionState → Nat
  | some (.registration _ _ version) => version
  | some (.seeding _ version) => version
  | some (.initVoters data) => data.electionScheduleVersion
  | _ => 1

def treasury (s : State) : Treasury := ⟨s.accounts.owned, s.distributions, s.output⟩

def withTreasury (s : State) (f : Treasury) : State :=
  { s with
    accounts := { s.accounts with owned := f.owned }
    distributions := f.distributions
    output := f.output }

def calendar (s : State) : Calendar :=
  ⟨s.now, s.members.stats.ranks, getNextElectionTime s.elections.current⟩

def ballot (s : State) : Ballot :=
  ⟨s.elections.votes, s.elections.encrypted, s.members, s.output⟩

def withBallot (s : State) (b : Ballot) : State :=
  { s with
    elections := { s.elections with votes := b.votes, encrypted := b.encrypted }
    members := b.members
    output := b.output }

/-- The event that announces a new state. -/
def stateEvent (results : Option ElectionResults) : ElectionState → Outcome (Option Event)
  | .registration startTime threshold _ => return some (.electionSchedule startTime threshold)
  | .seeding seed _ =>
      return some (.electionSeeding seed.endTime seed.startTime seed.endTime seed.current)
  | .final seed => do
      let results ← getSingleton results
      return some (.electionSeeding results.lastElectionTime seed.startTime seed.endTime
        seed.current)
  | _ => return none

/-- `elections::set_state_sing` -/
def setStateSing (p : Platform) (s : State) (newValue : ElectionState) : Outcome State :=
  if s.elections.current = some newValue then return s
  else do
    let event ← stateEvent s.elections.results newValue
    let s := match event with
      | some e => emit p s e
      | none => s
    return { s with elections := { s.elections with current := some newValue } }

/-! ### Scheduling -/

/-- `get_election_time`: times in seconds, days counted from Sunday. A `weekday` has 8 bits. -/
def getElectionTime (electionStartTime baseTime : Nat) : Nat :=
  let startDay := (baseTime / 86400 + 4) % 7
  let targetDay := electionStartTime / 86400 % 2 ^ 8 % 7
  let dayDifference := (targetDay + 7 - startDay) % 7
  let advance : Int :=
    dayDifference * 86400 + ((electionStartTime % 86400 : Nat) - (baseTime % 86400 : Nat))
  let advance := if advance < 0 then advance + 7 * 86400 else advance
  ((baseTime + advance) % 2 ^ 32).toNat

/-- `elections::set_default_election`, with the origin in seconds. -/
def setDefaultElection (p : Platform) (s : State) (originTime : Nat) : Outcome State := do
  let g ← getGlobals s
  let activeMembers := s.members.stats.activeMembers
  let newThreshold := (activeMembers + (activeMembers + 9) / 10) % 2 ^ 16
  let newThreshold := max minElectionThreshold (min newThreshold maxActiveMembers)
  let baseTime := secOfTimePoint (timePointOfSec originTime + days 3)
  setStateSing p s
    (.registration (ofSec (getElectionTime g.electionStartTime baseTime)) newThreshold 1)

/-- The schedule version after one more change, in 8 bits. -/
def nextSequence (version : Nat) : Outcome Nat := do
  let sequence := (version + 1) % 2 ^ 8
  check (sequence ≠ 0) "Integer overflow: election rescheduled too many times"
  return sequence

def triggerElection (p : Platform) (s : State) : Outcome State := do
  let g ← getGlobals s
  if g.electionStartTime = unsetStartTime then setStateSing p s .pendingDate
  else do
    let state ← expect s.elections.current (.check "Invariant failure: missing election state")
    match state with
    | .registration startTime _ version =>
        let now := secOfTimePoint (toTimePoint s.now)
        let baseTime := secOfTimePoint (timePointOfSec now + days 30)
        let newStartTime := ofSec (getElectionTime g.electionStartTime baseTime)
        if newStartTime < startTime then do
          let sequence ← nextSequence version
          setStateSing p s (.registration newStartTime (maxActiveMembers + 1) sequence)
        else return s
    | _ => return s

/-- `elections::set_next_election_time` -/
def setNextElectionTime (p : Platform) (s : State) (electionTime : Int) : Outcome State := do
  let lockTime := toTimePoint s.now + days 1
  check (lockTime ≤ electionTime) "New election time is too close!"
  let sequence ← (match s.elections.current with
    | none => .ok 1
    | some (.registration startTime _ version) => do
        let sequence ← nextSequence version
        check (lockTime ≤ toTimePoint startTime) "Election cannot be rescheduled"
        return sequence
    | some _ => .error (.check "Election cannot be rescheduled") : Outcome Nat)
  setStateSing p s (.registration (ofTimePoint electionTime) (maxActiveMembers + 1) sequence)

/-- `elections::finish_curr_election` -/
def finishCurrElection (p : Platform) (s : State) (electionTime : Int) : Outcome State :=
  setStateSing p s (.registration (ofTimePoint electionTime) (maxActiveMembers + 1) 1)

def getDigit (c : Char) : Outcome Nat := do
  check ('0' ≤ c && c ≤ '9') "Expected HH:MM"
  return c.toNat - '0'.toNat

/-- `HH:MM` -/
def parseTime : Text → Outcome (Nat × Nat)
  | [a, b, ':', c, d] => do
      let hours := (← getDigit a) * 10 + (← getDigit b)
      let minutes := (← getDigit c) * 10 + (← getDigit d)
      return (hours, minutes)
  | _ => .error (.check "Expected HH:MM")

/-- `elections::set_time` -/
def setTime (p : Platform) (s : State) (day : Nat) (time : Text) : Outcome State := do
  let g ← getGlobals s
  let (hours, minutes) ← parseTime time
  check (day < 7) "days out of range"
  check (hours < 24) "hours out of range"
  check (minutes < 60) "minutes out of range"
  let startTime := ((24 * day + hours) * 60 + minutes) * 60
  let s := { s with globals := some { g with electionStartTime := startTime } }
  match s.elections.current with
  | none => setDefaultElection p s (secOfTimePoint (toTimePoint s.now))
  | some .pendingDate => triggerElection p s
  | some _ => return s

/-! ### Seeding and starting -/

/-- `elections::seed` -/
def seed (p : Platform) (s : State) (btcHeader : Bytes) : Outcome State := do
  check (btcHeader.length = 80) "Wrong size for BTC block header"
  let state ← getSingleton s.elections.current
  match state with
  | .registration startTime _ version => do
      let seedingStart := ofTimePoint (toTimePoint startTime - seconds electionSeedingWindow)
      check (seedingStart ≤ s.now) "Cannot start seeding yet"
      let s := emit p s (.electionBegin startTime)
      let seeder ← (ElectionSeeder.new seedingStart startTime).update p.sha256 btcHeader
      setStateSing p s (.seeding seeder version)
  | .seeding seeder version => do
      let seeder ← seeder.update p.sha256 btcHeader
      setStateSing p s (.seeding seeder version)
  | .final seeder => do
      let seeder ← seeder.update p.sha256 btcHeader
      setStateSing p s (.final seeder)
  | _ => .error (.check "Cannot seed election now")

/-- `elections::start_election`, for the seeding state that is stored. -/
def startElection (p : Platform) (s : State) (seeder : ElectionSeeder) (version : Nat) :
    Outcome (State × InitVoters) := do
  check (seeder.endTime ≤ s.now) "Seeding window is still open"
  let data : InitVoters := ⟨0, ElectionRng.ofSeed seeder.current, emptyName, 0, version⟩
  let s ← setStateSing p s (.initVoters data)
  let s := emit p s (.electionEndSeeding seeder.endTime)
  let (f, _) ← setupDistribution p (calendar s) (treasury s) seeder.endTime
  let s := withTreasury s f
  let results := s.elections.results.getD {}
  let results := { results with lastElectionTime := seeder.endTime }
  let members := clearRanks s.members
  return ({ s with
    elections := { s.elections with results := some results }
    members := { members with rankHistory := members.rankHistory ++ [.start] }
    bylaws := newBoard s.bylaws }, data)

/-! ### Finishing an election -/

/-- `elections::set_board_permission` -/
def setBoardPermission (p : Platform) (s : State) (board : List Name) : State :=
  let threshold := board.length * 2 / 3 + 1
  let accounts := (if board = [] then [p.self] else board).insertionSort (· ≤ ·)
  let s := perform s (.updateauth "board.major" threshold accounts)
  perform s (.updateauth "board.minor" (accounts.length + 1 - threshold) accounts)

/-- `elections::extract_board`: the voters in the order of the index, and the empty table. -/
def extractBoard (s : State) : Outcome (State × List Name) := do
  let board := (s.elections.votes.index Vote.byIndex).map Vote.member
  check (board.length < 12) "Too many board members"
  check (board ≠ []) "No board members"
  return ({ s with elections := { s.elections with votes := .empty } }, board)

/-- The ranks of the board: all but the winner get `round`, the winner the one above. -/
def rankBoard (m : Members) (board : List Name) (winner : Name) (round : Nat) :
    Outcome Members := do
  let m ← setRanksOf m (board.filter (· ≠ winner)) round winner
  setRank m winner (round + 1) winner

/-- The events at the end of an election. -/
def endEvents (electionTime round : Nat) (board : List Name) (winner : Name) : List Event :=
  (if round = 0 then [] else [.electionEndSeeding electionTime]) ++
    [.electionEndRoundVoting electionTime round,
      .electionReportGroup electionTime round winner
        (board.map fun member => ⟨member, emptyName⟩),
      .electionEndRound electionTime round,
      .electionEnd electionTime]

/-- `elections::finish_election` -/
def finishElection (p : Platform) (s : State) (board : List Name) (winner : Name) :
    Outcome State := do
  let results ← getSingleton s.elections.results
  let round := s.members.stats.ranks.length % 2 ^ 8
  let members ← rankBoard s.members board winner round
  let results := { results with leadRepresentative := winner, board := board }
  let s := { s with members := members, elections := { s.elections with results := some results } }
  let f ← processElectionDistribution p s.members.stats.ranks (treasury s)
  let s := setBoardPermission p (withTreasury s f) board
  let s := (endEvents results.lastElectionTime round board winner).foldl (emit p) s
  setDefaultElection p s (secOfTimePoint (toTimePoint results.lastElectionTime))

/-! ### Enrolling voters -/

/-- `configs.front()` -/
def frontConfig (configs : ElectionConfig) : Outcome RoundConfig :=
  expect configs.head? (.undefined "config.front()")

/-- Report the rest of a round's groups to the state: the steps left and the next index. -/
def reportRound (p : Platform) (s : State) (electionTime round : Nat) (config : RoundConfig)
    (maxSteps nextReportIndex : Nat) : Outcome (Nat × Nat × State) := do
  let (maxSteps, nextReportIndex, output) ← reportGroups p electionTime round config maxSteps
    (votesFrom s.elections.votes round nextReportIndex) nextReportIndex s.output
  return (maxSteps, nextReportIndex, { s with output := output })

/-- The events that announce round 0. -/
def announceElection (p : Platform) (s : State) (electionTime numRounds : Nat)
    (config : RoundConfig) : State :=
  let s := emit p s (.electionConfigSummary electionTime (numRounds % 2 ^ 8)
    config.numParticipants)
  emit p s (.electionCreateRound electionTime 0 (1 < numRounds) config.numParticipants
    config.numGroups)

/-- The end of a voting period that begins now. -/
def votingEnd (s : State) (duration : Nat) : Nat :=
  ofTimePoint (toTimePoint s.now + seconds duration)

/-- The end of `elections::prepare_election`, when all members have been visited and steps are
left: groups are reported and the first round begins. -/
def beginElection (p : Platform) (s : State) (data : InitVoters) (maxSteps : Nat) :
    Outcome (State × Nat) := do
  check (0 < data.nextMemberIdx) "No voters"
  let results ← getSingleton s.elections.results
  let g ← getGlobals s
  let configs ← makeElectionConfig data.nextMemberIdx
  let config ← frontConfig configs
  let s := if data.nextReportIndex = 0 then
      announceElection p s results.lastElectionTime configs.length config
    else s
  let (maxSteps, nextReportIndex, s) ← reportRound p s results.lastElectionTime 0 config maxSteps
    data.nextReportIndex
  if maxSteps = 0 then do
    let s ← setStateSing p s (.initVoters { data with nextReportIndex := nextReportIndex })
    return (s, 0)
  else do
    let duration := if 1 < configs.length then g.electionRoundTimeSec else 0
    let s := emit p s
      (.electionBeginRoundVoting results.lastElectionTime 0 s.now (votingEnd s duration))
    if configs.length = 1 then do
      let (s, board) ← extractBoard s
      let winner ← expect board.head? (.undefined "board.front()")
      let s ← finishElection p s board winner
      return (s, maxSteps - 1)
    else do
      let s ← setStateSing p s (.active ⟨0, config, data.rng.seed, votingEnd s duration⟩)
      return (s, maxSteps - 1)

/-- The voter initialisation part of `elections::prepare_election`. -/
def initVoters (p : Platform) (s : State) (data : InitVoters) (maxSteps : Nat) :
    Outcome (State × Nat) := do
  let (maxSteps, f) ← distributeMonthly p (calendar s) s.members.table maxSteps (treasury s)
  let s := withTreasury s f
  if maxSteps = 0 then return (s, 0)
  else do
    let (maxSteps, b, data) ← randomizeVoters p maxSteps (ballot s) data
    let s := withBallot s b
    if maxSteps = 0 then do
      let s ← setStateSing p s (.initVoters data)
      return (s, 0)
    else beginElection p s data maxSteps

def prepareElection (p : Platform) (s : State) (maxSteps : Nat) : Outcome (State × Nat) := do
  let state ← getSingleton s.elections.current
  match state with
  | .seeding seeder version =>
      if maxSteps = 0 then return (s, 0)
      else do
        let (s, data) ← startElection p s seeder version
        initVoters p s data (maxSteps - 1)
  | .initVoters data => initVoters p s data maxSteps
  | _ => return (s, maxSteps)

/-! ### Finishing a round -/

/-- `adjust_seed` -/
def adjustSeed (p : Platform) (now : Nat) (seed : Checksum) : Checksum :=
  p.sha256 (seed.take 32 ++ littleEndianBytes 4 now)

/-- The events that end a round and announce the next one. -/
def announceRound (p : Platform) (s : State) (electionTime prevRound : Nat)
    (configs : ElectionConfig) (config : RoundConfig) : State :=
  let s := emit p s (.electionEndRound electionTime prevRound)
  emit p s (.electionCreateRound electionTime (prevRound + 1) (1 < configs.length)
    config.numParticipants config.numGroups)

/-- The end of `elections::finish_round`, when all groups are finished and steps are left: the
groups of the next round are reported and it begins. -/
def beginRound (p : Platform) (s : State) (electionTime : Nat) (data : PostRound)
    (maxSteps : Nat) : Outcome (State × Nat) := do
  let g ← getGlobals s
  let configs ← makeElectionConfig data.nextOutputIndex
  let config ← frontConfig configs
  let s := if data.nextReportIndex = 0 then
      announceRound p s electionTime data.prevRound configs config
    else s
  let (maxSteps, nextReportIndex, s) ← reportRound p s electionTime (data.prevRound + 1) config
    maxSteps data.nextReportIndex
  if maxSteps = 0 then do
    let s ← setStateSing p s (.postRound { data with nextReportIndex := nextReportIndex })
    return (s, 0)
  else do
    let duration :=
      if configs.length = 1 then electionFinalSeedingWindow else g.electionRoundTimeSec
    let s := emit p s (.electionBeginRoundVoting electionTime (data.prevRound + 1) s.now
      (votingEnd s duration))
    let next := if configs.length = 1 then
        ElectionState.final (ElectionSeeder.new s.now (votingEnd s duration))
      else .active ⟨data.prevRound + 1, config, data.rng.seed, votingEnd s duration⟩
    let s ← setStateSing p s next
    return (s, maxSteps - 1)

/-- `elections::finish_round` in a state after a round. -/
def finishPostRound (p : Platform) (s : State) (electionTime : Nat) (data : PostRound)
    (maxSteps : Nat) : Outcome (State × Nat) := do
  let (maxSteps, b, data) ← finishGroups p electionTime maxSteps
    (remainingVotes s.elections.votes data) (ballot s) data
  let s := withBallot s b
  if maxSteps = 0 then do
    let s ← setStateSing p s (.postRound data)
    return (s, 0)
  else beginRound p s electionTime data maxSteps

/-- The end of the final round: the winner is drawn from the board. -/
def finishFinal (p : Platform) (s : State) (seeder : ElectionSeeder) : Outcome State := do
  let (s, board) ← extractBoard s
  let (pos, _) := p.uniformInt 32 (board.length - 1) (ElectionRng.ofSeed seeder.current)
  let winner ← expect board[pos]? (.undefined "board[dist(rng)]")
  finishElection p s board winner

def finishRound (p : Platform) (s : State) (maxSteps : Nat) : Outcome (State × Nat) :=
  match s.elections.current with
  | none => return (s, maxSteps)
  | some state => do
      let results ← getSingleton s.elections.results
      match state with
      | .active round =>
          if s.now < round.roundEnd then return (s, maxSteps)
          else
            let s := emit p s (.electionEndRoundVoting results.lastElectionTime round.round)
            let rng := ElectionRng.ofSeed (adjustSeed p s.now round.savedSeed)
            finishPostRound p s results.lastElectionTime
              ⟨rng, round.round, round.config, 0, 0, 0⟩ maxSteps
      | .final seeder =>
          if 0 < maxSteps ∧ seeder.endTime ≤ s.now then do
            let s ← finishFinal p s seeder
            return (s, maxSteps - 1)
          else return (s, maxSteps)
      | .postRound data => finishPostRound p s results.lastElectionTime data maxSteps
      | _ => return (s, maxSteps)

/-! ### Voting -/

/-- `elections::check_active` -/
def checkActiveRound (s : State) : Outcome ActiveRound := do
  let state ← expect s.elections.current (.check "No election is running")
  match state with
  | .active round => do
      check (s.now < round.roundEnd) "Voting period for this round has closed"
      return round
  | _ => .error (.check "The election is not ready for voting")

/-- The vote of a member in a round. -/
def voteIn (votes : VoteTable) (round : Nat) (member : Name) : Outcome Vote :=
  expect ((votes.find? member).filter fun v => v.round = round)
    (.check (nameString member ++ " is not in round " ++ toString round))

/-- `elections::vote` -/
def vote (s : State) (round : Nat) (voter candidate : Name) : Outcome State := do
  let state ← checkActiveRound s
  check (state.round = round) ("Round " ++ toString round ++ " is not running (in round " ++
    toString state.round ++ ")")
  let own ← voteIn s.elections.votes round voter
  let other ← voteIn s.elections.votes round candidate
  check (state.config.memberIndexToGroup own.index = state.config.memberIndexToGroup other.index)
    (nameString voter ++ " and " ++ nameString candidate ++ " are not in the same group.")
  return { s with elections := { s.elections with
    votes := s.elections.votes.replace { own with candidate := candidate } } }

/-- Whether a member may upload a video of a round; `none` when its rank decides. -/
def canUploadVideo (s : State) (round : Nat) (voter : Name) : Outcome (Option Bool) :=
  match s.elections.votes.find? voter with
  | some v => return some (round ≤ v.round)
  | none => do
      let state ← getSingleton s.elections.current
      let validState := match state with
        | .initVoters _ => false
        | _ => true
      let results ← getSingleton s.elections.results
      let endTime := toTimePoint results.lastElectionTime + days 14
      return if validState && toTimePoint s.now ≤ endTime then none else some false

/-- `elections::get_group_id` -/
def getGroupId (s : State) (voter : Name) (round : Nat) : Outcome Nat := do
  let state ← checkActiveRound s
  check (round = state.round) "Wrong round"
  let v ← getRow (s.elections.votes.find? voter) "unable to find key"
  check (v.round = state.round) "Invariant failure: round mismatch"
  return round * 2 ^ 16 + state.config.memberIndexToGroup v.index

/-- `elections::get_group_members` -/
def getGroupMembers (s : State) (groupId : Nat) : Outcome (List Name) := do
  let state ← checkActiveRound s
  let group := groupId % 2 ^ 16
  let rows := votesFrom s.elections.votes (groupId / 2 ^ 16)
    (state.config.groupToFirstMemberIndex group)
  return (rows.takeWhile fun v => state.config.memberIndexToGroup v.index = group).map Vote.member

/-! ### Members who leave or change their account -/

/-- `is_election_running` -/
def isElectionRunning (s : State) : Bool :=
  match s.elections.current with
  | none => false
  | some .pendingDate => false
  | some (.registration startTime _ _) => startTime ≤ s.now
  | some _ => true

/-- `elections::remove_from_board`: whether the member was the lead representative, which stays
stored. -/
def removeFromBoard (p : Platform) (s : State) (member : Name) : State × Bool :=
  match s.elections.results with
  | none => (s, false)
  | some results =>
      let lead : Bool := member = results.leadRepresentative
      if member ∈ results.board then
        let board := results.board.erase member
        let s := { s with elections := { s.elections with
          results := some { results with board := board } } }
        (setBoardPermission p s board, lead)
      else (s, lead)

/-- `elections::on_resign` -/
def electionsOnResign (p : Platform) (s : State) (member : Name) : Outcome State := do
  check (!isElectionRunning s) "Cannot resign during an election"
  let (s, lead) := removeFromBoard p s member
  if lead then triggerElection p s else return s

/-- `elections::on_rename` -/
def electionsOnRename (p : Platform) (s : State) (oldAccount newAccount : Name) :
    Outcome State := do
  check (!isElectionRunning s) "Cannot rename account during an election"
  match s.elections.results with
  | none => return s
  | some results =>
      let board := results.board.replace oldAccount newAccount
      let lead :=
        if oldAccount = results.leadRepresentative then newAccount else results.leadRepresentative
      let renamed := { s with elections := { s.elections with
        results := some { results with board := board, leadRepresentative := lead } } }
      return if oldAccount ∈ results.board then setBoardPermission p renamed board else renamed

/-! ### What the functions change -/

/-- The state with another current state of the election. -/
def withCurrent (s : State) (o : Output) (current : ElectionState) : State :=
  { s with output := o, elections := { s.elections with current := some current } }

theorem setStateSing_eq_ok {p : Platform} {s s' : State} {newValue : ElectionState}
    (h : setStateSing p s newValue = .ok s') :
    ∃ o, Quiet s.output o ∧ s' = withCurrent s o newValue := by
  unfold setStateSing at h
  split at h
  · rename_i hsame
    simp only [pure_eq_ok] at h
    refine ⟨s.output, Quiet.refl _, ?_⟩
    rw [← h, withCurrent, ← hsame]
  · simp only [bind_eq_ok, pure_eq_ok] at h
    obtain ⟨event, hevent, rfl⟩ := h
    cases event with
    | none => exact ⟨s.output, Quiet.refl _, rfl⟩
    | some e =>
        refine ⟨_, Quiet.pushEvent p s.output ?_, rfl⟩
        unfold stateEvent at hevent
        split at hevent
        · simp only [pure_eq_ok, Option.some.injEq] at hevent
          rw [← hevent]
          rfl
        · simp only [pure_eq_ok, Option.some.injEq] at hevent
          rw [← hevent]
          rfl
        · simp only [bind_eq_ok, pure_eq_ok, Option.some.injEq] at hevent
          obtain ⟨_, _, rfl⟩ := hevent
          rfl
        · simp at hevent

/-- The start of the election that `set_default_election` schedules. -/
def defaultStart (g : Globals) (originTime : Nat) : Nat :=
  ofSec (getElectionTime g.electionStartTime (secOfTimePoint (timePointOfSec originTime + days 3)))

theorem setDefaultElection_eq_ok {p : Platform} {s s' : State} {originTime : Nat}
    (h : setDefaultElection p s originTime = .ok s') :
    ∃ g threshold o, s.globals = some g ∧ Quiet s.output o ∧
      s' = withCurrent s o (.registration (defaultStart g originTime) threshold 1) := by
  simp only [setDefaultElection, bind_eq_ok, getGlobals_eq_ok] at h
  obtain ⟨g, hg, h⟩ := h
  obtain ⟨o, hquiet, rfl⟩ := setStateSing_eq_ok h
  exact ⟨g, _, o, hg, hquiet, rfl⟩

theorem nextSequence_eq_ok {version sequence : Nat} :
    nextSequence version = .ok sequence ↔
      (version + 1) % 2 ^ 8 ≠ 0 ∧ (version + 1) % 2 ^ 8 = sequence := by
  simp only [nextSequence, bind_eq_ok, check_eq_ok, exists_const, pure_eq_ok, decide_eq_true_eq,
    ne_eq]

/-- The start of an election that is triggered at a block time. -/
def triggeredStart (g : Globals) (now : Nat) : Nat :=
  ofSec (getElectionTime g.electionStartTime
    (secOfTimePoint (timePointOfSec (secOfTimePoint (toTimePoint now)) + days 30)))

theorem triggerElection_eq_ok {p : Platform} {s s' : State}
    (h : triggerElection p s = .ok s') :
    ∃ g, s.globals = some g ∧
      ((g.electionStartTime = unsetStartTime ∧
          ∃ o, Quiet s.output o ∧ s' = withCurrent s o .pendingDate) ∨
        (g.electionStartTime ≠ unsetStartTime ∧ s' = s) ∨
        (g.electionStartTime ≠ unsetStartTime ∧ ∃ startTime threshold version o,
          s.elections.current = some (.registration startTime threshold version) ∧
          triggeredStart g s.now < startTime ∧ (version + 1) % 2 ^ 8 ≠ 0 ∧ Quiet s.output o ∧
          s' = withCurrent s o (.registration (triggeredStart g s.now) (maxActiveMembers + 1)
            ((version + 1) % 2 ^ 8)))) := by
  simp only [triggerElection, bind_eq_ok, getGlobals_eq_ok] at h
  obtain ⟨g, hg, h⟩ := h
  refine ⟨g, hg, ?_⟩
  split at h
  · rename_i hunset
    exact .inl ⟨hunset, setStateSing_eq_ok h⟩
  · rename_i hset
    simp only [bind_eq_ok, expect_eq_ok] at h
    obtain ⟨state, hstate, h⟩ := h
    split at h
    · rename_i startTime threshold version
      split at h
      · rename_i hlt
        simp only [bind_eq_ok, nextSequence_eq_ok] at h
        obtain ⟨sequence, ⟨hne, rfl⟩, h⟩ := h
        obtain ⟨o, hquiet, rfl⟩ := setStateSing_eq_ok h
        exact .inr (.inr ⟨hset, startTime, threshold, version, o, hstate, hlt, hne, hquiet, rfl⟩)
      · simp only [pure_eq_ok] at h
        exact .inr (.inl ⟨hset, h.symm⟩)
    · simp only [pure_eq_ok] at h
      exact .inr (.inl ⟨hset, h.symm⟩)

theorem setNextElectionTime_eq_ok {p : Platform} {s s' : State} {electionTime : Int}
    (h : setNextElectionTime p s electionTime = .ok s') :
    ∃ sequence o, toTimePoint s.now + days 1 ≤ electionTime ∧ Quiet s.output o ∧
      s' = withCurrent s o
        (.registration (ofTimePoint electionTime) (maxActiveMembers + 1) sequence) ∧
      ((s.elections.current = none ∧ sequence = 1) ∨
        ∃ startTime threshold version,
          s.elections.current = some (.registration startTime threshold version) ∧
          toTimePoint s.now + days 1 ≤ toTimePoint startTime ∧ (version + 1) % 2 ^ 8 ≠ 0 ∧
          sequence = (version + 1) % 2 ^ 8) := by
  simp only [setNextElectionTime, bind_eq_ok, check_eq_ok, exists_const, decide_eq_true_eq] at h
  obtain ⟨hlock, sequence, hsequence, h⟩ := h
  obtain ⟨o, hquiet, rfl⟩ := setStateSing_eq_ok h
  refine ⟨sequence, o, hlock, hquiet, rfl, ?_⟩
  split at hsequence
  · rename_i hnone
    simp only [Except.ok.injEq] at hsequence
    exact .inl ⟨hnone, hsequence.symm⟩
  · rename_i startTime threshold version hcurrent
    simp only [bind_eq_ok, nextSequence_eq_ok, check_eq_ok, exists_const, decide_eq_true_eq,
      pure_eq_ok] at hsequence
    obtain ⟨_, ⟨hne, rfl⟩, hstart, rfl⟩ := hsequence
    exact .inr ⟨startTime, threshold, version, hcurrent, hstart, hne, rfl⟩
  · simp at hsequence

theorem finishCurrElection_eq_ok {p : Platform} {s s' : State} {electionTime : Int}
    (h : finishCurrElection p s electionTime = .ok s') :
    ∃ o, Quiet s.output o ∧ s' = withCurrent s o
      (.registration (ofTimePoint electionTime) (maxActiveMembers + 1) 1) := setStateSing_eq_ok h

theorem setTime_eq_ok {p : Platform} {s s' : State} {day : Nat} {time : Text}
    (h : setTime p s day time = .ok s') :
    ∃ g startTime, s.globals = some g ∧ startTime < 7 * 86400 ∧
      ((s.elections.current = none ∧
          setDefaultElection p { s with globals := some { g with electionStartTime := startTime } }
            (secOfTimePoint (toTimePoint s.now)) = .ok s') ∨
        (s.elections.current = some .pendingDate ∧
          triggerElection p { s with globals := some { g with electionStartTime := startTime } } =
            .ok s') ∨
        (s.elections.current ≠ none ∧ s.elections.current ≠ some .pendingDate ∧
          s' = { s with globals := some { g with electionStartTime := startTime } })) := by
  simp only [setTime, bind_eq_ok, getGlobals_eq_ok, check_eq_ok, exists_const,
    decide_eq_true_eq] at h
  obtain ⟨g, hg, ⟨hours, minutes⟩, _, hday, hhours, hminutes, h⟩ := h
  refine ⟨g, ((24 * day + hours) * 60 + minutes) * 60, hg, by omega, ?_⟩
  split at h
  · rename_i hnone
    exact .inl ⟨hnone, h⟩
  · rename_i hpending
    exact .inr (.inl ⟨hpending, h⟩)
  · rename_i state hne hstate
    simp only [pure_eq_ok] at h
    refine .inr (.inr ⟨?_, ?_, h.symm⟩)
    · intro hnone
      have : s.elections.current = some state := hstate
      rw [hnone] at this
      exact absurd this (by simp)
    · intro hpending
      have : s.elections.current = some state := hstate
      rw [hpending, Option.some.injEq] at this
      exact hne this.symm

theorem seed_eq_ok {p : Platform} {s s' : State} {btcHeader : Bytes}
    (h : seed p s btcHeader = .ok s') :
    (∃ startTime threshold version seeder o,
        s.elections.current = some (.registration startTime threshold version) ∧
        ofTimePoint (toTimePoint startTime - seconds electionSeedingWindow) ≤ s.now ∧
        seeder.endTime = startTime ∧ Quiet s.output o ∧
        s' = withCurrent s o (.seeding seeder version)) ∨
      (∃ seeder seeder' version o, s.elections.current = some (.seeding seeder version) ∧
        seeder'.endTime = seeder.endTime ∧ Quiet s.output o ∧
        s' = withCurrent s o (.seeding seeder' version)) ∨
      ∃ seeder seeder' o, s.elections.current = some (.final seeder) ∧
        seeder'.endTime = seeder.endTime ∧ Quiet s.output o ∧
        s' = withCurrent s o (.final seeder') := by
  have hupdate : ∀ {seeder seeder' : ElectionSeeder}, seeder.update p.sha256 btcHeader =
      .ok seeder' → seeder'.endTime = seeder.endTime := by
    intro seeder seeder' h
    simp only [ElectionSeeder.update, bind_eq_ok, check_eq_ok, exists_const, pure_eq_ok] at h
    obtain ⟨_, _, _, _, rfl⟩ := h
    rfl
  simp only [seed, bind_eq_ok, check_eq_ok, exists_const, getSingleton_eq_ok] at h
  obtain ⟨_, state, hstate, h⟩ := h
  split at h
  · rename_i startTime threshold version
    simp only [bind_eq_ok, check_eq_ok, exists_const, decide_eq_true_eq] at h
    obtain ⟨hwindow, seeder, hseeder, h⟩ := h
    obtain ⟨o, hquiet, rfl⟩ := setStateSing_eq_ok h
    have hbegin : Quiet s.output (pushEvent p s.output (.electionBegin startTime)) :=
      Quiet.pushEvent p s.output rfl
    exact .inl ⟨startTime, threshold, version, seeder, o, hstate, hwindow, hupdate hseeder,
      hbegin.trans hquiet, rfl⟩
  · rename_i seeder version
    simp only [bind_eq_ok] at h
    obtain ⟨seeder', hseeder, h⟩ := h
    obtain ⟨o, hquiet, rfl⟩ := setStateSing_eq_ok h
    exact .inr (.inl ⟨seeder, seeder', version, o, hstate, hupdate hseeder, hquiet, rfl⟩)
  · rename_i seeder
    simp only [bind_eq_ok] at h
    obtain ⟨seeder', hseeder, h⟩ := h
    obtain ⟨o, hquiet, rfl⟩ := setStateSing_eq_ok h
    exact .inr (.inr ⟨seeder, seeder', o, hstate, hupdate hseeder, hquiet, rfl⟩)
  · simp at h

theorem setBoardPermission_eq (p : Platform) (s : State) (board : List Name) :
    ∃ o, Quiet s.output o ∧ setBoardPermission p s board = { s with output := o } :=
  ⟨_, (Quiet.sendAction s.output _).trans (Quiet.sendAction _ _), rfl⟩

/-- The state with other results of the last election. -/
def withResults (s : State) (o : Output) (results : Option ElectionResults) : State :=
  { s with output := o, elections := { s.elections with results := results } }

/-- The results without a member on the board. -/
def boardWithout (member : Name) (results : ElectionResults) : ElectionResults :=
  { results with board := results.board.erase member }

/-- The results with another account in place of a renamed one. -/
def boardRenamed (oldAccount newAccount : Name) (results : ElectionResults) : ElectionResults :=
  { results with
    board := results.board.replace oldAccount newAccount
    leadRepresentative :=
      if oldAccount = results.leadRepresentative then newAccount else results.leadRepresentative }

/-- Whether a member is the stored lead representative. -/
def isLead (results : Option ElectionResults) (member : Name) : Bool :=
  results.any fun r => member = r.leadRepresentative

theorem removeFromBoard_eq (p : Platform) (s : State) (member : Name) :
    ∃ o, Quiet s.output o ∧ removeFromBoard p s member =
      (withResults s o (s.elections.results.map (boardWithout member)),
        isLead s.elections.results member) := by
  unfold removeFromBoard
  split
  · rename_i hnone
    refine ⟨s.output, Quiet.refl _, ?_⟩
    simp [withResults, isLead, hnone]
    rw [← hnone]
  · rename_i results hresults
    split
    · rw [hresults]
      exact ⟨_, (Quiet.sendAction s.output _).trans (Quiet.sendAction _ _), rfl⟩
    · rename_i hmember
      refine ⟨s.output, Quiet.refl _, ?_⟩
      have hsame : boardWithout member results = results := by
        rw [boardWithout, List.erase_of_not_mem hmember]
      simp only [withResults, isLead, hresults, Option.map_some, hsame, Option.any_some]
      rw [← hresults]

theorem electionsOnResign_eq_ok {p : Platform} {s s' : State} {member : Name}
    (h : electionsOnResign p s member = .ok s') :
    isElectionRunning s = false ∧ ∃ o, Quiet s.output o ∧
      ((isLead s.elections.results member = false ∧
          s' = withResults s o (s.elections.results.map (boardWithout member))) ∨
        (isLead s.elections.results member = true ∧ triggerElection p
          (withResults s o (s.elections.results.map (boardWithout member))) = .ok s')) := by
  obtain ⟨o, hquiet, heq⟩ := removeFromBoard_eq p s member
  simp only [electionsOnResign, bind_eq_ok, check_eq_ok, exists_const, heq, Bool.not_eq_true'] at h
  obtain ⟨hrunning, h⟩ := h
  refine ⟨hrunning, o, hquiet, ?_⟩
  split at h
  · rename_i hlead
    exact .inr ⟨hlead, h⟩
  · rename_i hlead
    rw [pure_eq_ok] at h
    exact .inl ⟨by simpa using hlead, h.symm⟩

theorem electionsOnRename_eq_ok {p : Platform} {s s' : State} {oldAccount newAccount : Name}
    (h : electionsOnRename p s oldAccount newAccount = .ok s') :
    isElectionRunning s = false ∧ ∃ o, Quiet s.output o ∧
      s' = withResults s o (s.elections.results.map (boardRenamed oldAccount newAccount)) := by
  simp only [electionsOnRename, bind_eq_ok, check_eq_ok, exists_const, Bool.not_eq_true'] at h
  obtain ⟨hrunning, h⟩ := h
  refine ⟨hrunning, ?_⟩
  split at h
  · rename_i hnone
    rw [pure_eq_ok] at h
    refine ⟨s.output, Quiet.refl _, ?_⟩
    rw [← h]
    simp only [withResults, hnone, Option.map_none]
    rw [← hnone]
  · rename_i results hresults
    rw [pure_eq_ok] at h
    split at h
    · rw [← h, hresults]
      exact ⟨_, (Quiet.sendAction s.output _).trans (Quiet.sendAction _ _), rfl⟩
    · rw [← h, hresults]
      exact ⟨s.output, Quiet.refl _, rfl⟩

theorem checkActiveRound_eq_ok {s : State} {round : ActiveRound} :
    checkActiveRound s = .ok round ↔
      s.elections.current = some (.active round) ∧ s.now < round.roundEnd := by
  simp only [checkActiveRound, bind_eq_ok, expect_eq_ok]
  constructor
  · rintro ⟨state, hstate, h⟩
    split at h
    · simp only [bind_eq_ok, check_eq_ok, exists_const, decide_eq_true_eq, pure_eq_ok] at h
      obtain ⟨hend, rfl⟩ := h
      exact ⟨hstate, hend⟩
    · simp at h
  · rintro ⟨hstate, hend⟩
    refine ⟨_, hstate, ?_⟩
    simp [check, hend]

theorem vote_eq_ok {s s' : State} {round : Nat} {voter candidate : Name}
    (h : vote s round voter candidate = .ok s') :
    ∃ state own other, s.elections.current = some (.active state) ∧ s.now < state.roundEnd ∧
      state.round = round ∧ s.elections.votes.find? voter = some own ∧ own.round = round ∧
      s.elections.votes.find? candidate = some other ∧ other.round = round ∧
      state.config.memberIndexToGroup own.index = state.config.memberIndexToGroup other.index ∧
      s' = { s with elections := { s.elections with
        votes := s.elections.votes.replace { own with candidate := candidate } } } := by
  simp only [vote, voteIn, bind_eq_ok, checkActiveRound_eq_ok, check_eq_ok, exists_const,
    expect_eq_ok, decide_eq_true_eq, pure_eq_ok, Option.filter_eq_some_iff] at h
  obtain ⟨state, ⟨hstate, hend⟩, hround, own, ⟨hown, hownRound⟩, other, ⟨hother, hotherRound⟩,
    hgroup, rfl⟩ := h
  exact ⟨state, own, other, hstate, hend, hround, hown, hownRound, hother, hotherRound, hgroup, rfl⟩

/-- The members at the start of an election. -/
def startRanks (m : Members) : Members :=
  { clearRanks m with rankHistory := m.rankHistory ++ [.start] }

theorem startElection_eq_ok {p : Platform} {s s' : State} {seeder : ElectionSeeder} {version : Nat}
    {data : InitVoters} (h : startElection p s seeder version = .ok (s', data)) :
    seeder.endTime ≤ s.now ∧
      data = ⟨0, ElectionRng.ofSeed seeder.current, emptyName, 0, version⟩ ∧
      ∃ o f started, Quiet s.output o ∧
        setupDistribution p ⟨s.now, s.members.stats.ranks, none⟩ { treasury s with output := o }
          seeder.endTime = .ok (f, started) ∧
        s' = { withTreasury s f with
          elections := { s.elections with
            current := some (.initVoters data)
            results := some { s.elections.results.getD {} with
              lastElectionTime := seeder.endTime } }
          members := startRanks s.members
          bylaws := newBoard s.bylaws } := by
  simp only [startElection, bind_eq_ok, check_eq_ok, exists_const, decide_eq_true_eq,
    pure_eq_ok] at h
  obtain ⟨hend, t, hstate, ⟨f, started⟩, hsetup, h⟩ := h
  obtain ⟨o, hquiet, rfl⟩ := setStateSing_eq_ok hstate
  rw [Prod.mk.injEq] at h
  obtain ⟨rfl, rfl⟩ := h
  exact ⟨hend, rfl, _, f, started, hquiet.trans (Quiet.pushEvent p o rfl), hsetup, rfl⟩

theorem extractBoard_eq_ok {s s' : State} {board : List Name}
    (h : extractBoard s = .ok (s', board)) :
    board = (s.elections.votes.index Vote.byIndex).map Vote.member ∧ board.length < 12 ∧
      board ≠ [] ∧ s' = { s with elections := { s.elections with votes := .empty } } := by
  simp only [extractBoard, bind_eq_ok, check_eq_ok, exists_const, decide_eq_true_eq,
    pure_eq_ok, Prod.mk.injEq] at h
  obtain ⟨hlength, hne, rfl, rfl⟩ := h
  exact ⟨rfl, hlength, hne, rfl⟩

/-- Emitting events that move no funds changes nothing but the output. -/
theorem foldl_emit_eq (p : Platform) (es : List Event) (s : State)
    (hes : ∀ e ∈ es, movesFunds e = false) :
    ∃ o, Quiet s.output o ∧ es.foldl (emit p) s = { s with output := o } := by
  induction es generalizing s with
  | nil => exact ⟨s.output, Quiet.refl _, rfl⟩
  | cons e es ih =>
      obtain ⟨o, hquiet, heq⟩ := ih (emit p s e) fun e' he' => hes e' (List.mem_cons_of_mem _ he')
      refine ⟨o, Quiet.trans ?_ hquiet, heq⟩
      exact Quiet.pushEvent p s.output (hes e List.mem_cons_self)

/-- The rank of the board without its winner. -/
def boardRank (m : Members) : Nat := m.stats.ranks.length % 2 ^ 8

/-- The state when an election is over. -/
def concluded (s : State) (f : Treasury) (o : Output) (members : Members)
    (results : ElectionResults) (next : ElectionState) : State :=
  { withTreasury s f with
    output := o
    members := members
    elections := { s.elections with current := some next, results := some results } }

theorem finishElection_eq_ok {p : Platform} {s s' : State} {board : List Name} {winner : Name}
    (h : finishElection p s board winner = .ok s') :
    ∃ results members f g threshold o, s.elections.results = some results ∧
      rankBoard s.members board winner (boardRank s.members) = .ok members ∧
      processElectionDistribution p members.stats.ranks (treasury s) = .ok f ∧
      s.globals = some g ∧ Quiet f.output o ∧
      s' = concluded s f o members { results with leadRepresentative := winner, board := board }
        (.registration (defaultStart g (secOfTimePoint (toTimePoint results.lastElectionTime)))
          threshold 1) := by
  simp only [finishElection, bind_eq_ok, getSingleton_eq_ok] at h
  obtain ⟨results, hresults, members, hmembers, f, hf, h⟩ := h
  obtain ⟨o₁, hquiet₁, heq₁⟩ := setBoardPermission_eq p
    (withTreasury { s with
      members := members
      elections := { s.elections with
        results := some { results with leadRepresentative := winner, board := board } } } f) board
  obtain ⟨o₂, hquiet₂, heq₂⟩ := foldl_emit_eq p
    (endEvents results.lastElectionTime (boardRank s.members) board winner)
    { withTreasury { s with
        members := members
        elections := { s.elections with
          results := some { results with leadRepresentative := winner, board := board } } } f with
      output := o₁ } (by
      intro e he
      unfold endEvents at he
      split at he <;> simp at he <;> rcases he with rfl | rfl | rfl | rfl | rfl <;> rfl)
  rw [heq₁] at h
  change setDefaultElection p (List.foldl (emit p) _ _) _ = _ at h
  rw [boardRank] at heq₂
  rw [heq₂] at h
  obtain ⟨g, threshold, o, hg, hquiet, rfl⟩ := setDefaultElection_eq_ok h
  exact ⟨results, members, f, g, threshold, o, hresults, hmembers, hf, hg,
    (hquiet₁.trans hquiet₂).trans hquiet, rfl⟩

theorem reportGroups_quiet {p : Platform} {electionTime round : Nat} {config : RoundConfig}
    {maxSteps : Nat} {votes : List Vote} {next : Nat} {o : Output} {result : Nat × Nat × Output}
    (h : reportGroups p electionTime round config maxSteps votes next o = .ok result) :
    Quiet o result.2.2 := by
  fun_induction reportGroups p electionTime round config maxSteps votes next o with
  | case1 votes next o =>
      simp only [pure_eq_ok] at h
      rw [← h]
      exact Quiet.refl o
  | case2 maxSteps next o =>
      simp only [pure_eq_ok] at h
      rw [← h]
      exact Quiet.refl o
  | case3 maxSteps v rest next o groupSize ih =>
      simp only [bind_eq_ok, ensure_eq_ok, exists_const] at h
      exact (Quiet.pushEvent p o rfl).trans (ih h.2)

theorem reportRound_eq_ok {p : Platform} {s s' : State} {electionTime round : Nat}
    {config : RoundConfig} {maxSteps steps next next' : Nat}
    (h : reportRound p s electionTime round config maxSteps next = .ok (steps, next', s')) :
    ∃ o, Quiet s.output o ∧ s' = { s with output := o } := by
  simp only [reportRound, bind_eq_ok, pure_eq_ok, Prod.mk.injEq] at h
  obtain ⟨⟨steps', next'', o⟩, hreport, -, -, rfl⟩ := h
  exact ⟨o, reportGroups_quiet hreport, rfl⟩

/-- What the end of `prepare_election` leads to: groups are still to be reported, the first round
begins, or the only round is over at once. -/
theorem beginElection_eq_ok {p : Platform} {s s' : State} {data : InitVoters}
    {maxSteps remaining : Nat} (h : beginElection p s data maxSteps = .ok (s', remaining)) :
    0 < data.nextMemberIdx ∧
      ∃ configs config o, makeElectionConfig data.nextMemberIdx = .ok configs ∧
        configs.head? = some config ∧ Quiet s.output o ∧
        ((∃ next, s' = withCurrent s o (.initVoters { data with nextReportIndex := next })) ∨
          (configs.length ≠ 1 ∧ ∃ roundEnd,
            s' = withCurrent s o (.active ⟨0, config, data.rng.seed, roundEnd⟩)) ∨
          (configs.length = 1 ∧ ∃ board winner,
            board = (s.elections.votes.index Vote.byIndex).map Vote.member ∧ board.length < 12 ∧
            board.head? = some winner ∧
            finishElection p { s with
              output := o
              elections := { s.elections with votes := .empty } } board winner = .ok s')) := by
  simp only [beginElection, bind_eq_ok, check_eq_ok, exists_const, decide_eq_true_eq,
    getSingleton_eq_ok, getGlobals_eq_ok, frontConfig, expect_eq_ok] at h
  obtain ⟨hvoters, results, _, g, _, configs, hconfigs, config, hconfig, ⟨steps, next, t⟩,
    hreport, h⟩ := h
  have hannounce : ∃ o, Quiet s.output o ∧ (if data.nextReportIndex = 0 then
      announceElection p s results.lastElectionTime configs.length config else s) =
        { s with output := o } := by
    split
    · exact ⟨_, (Quiet.pushEvent p s.output rfl).trans (Quiet.pushEvent p _ rfl), rfl⟩
    · exact ⟨s.output, Quiet.refl _, rfl⟩
  obtain ⟨o₁, hquiet₁, heq₁⟩ := hannounce
  rw [heq₁] at hreport
  obtain ⟨o₂, hquiet₂, rfl⟩ := reportRound_eq_ok hreport
  have hquiet₂' : Quiet s.output o₂ := hquiet₁.trans hquiet₂
  refine ⟨hvoters, configs, config, ?_⟩
  split at h
  · simp only [bind_eq_ok, pure_eq_ok, Prod.mk.injEq] at h
    obtain ⟨u, hstate, rfl, -⟩ := h
    obtain ⟨o, hquiet, rfl⟩ := setStateSing_eq_ok hstate
    exact ⟨o, hconfigs, hconfig, hquiet₂'.trans hquiet, .inl ⟨next, rfl⟩⟩
  · split at h
    · rename_i hlength
      simp only [bind_eq_ok, expect_eq_ok, pure_eq_ok, Prod.mk.injEq] at h
      obtain ⟨⟨u, board⟩, hboard, winner, hwinner, v, hfinish, rfl, -⟩ := h
      obtain ⟨hrows, hshort, _, rfl⟩ := extractBoard_eq_ok hboard
      refine ⟨_, hconfigs, hconfig, hquiet₂'.trans (Quiet.pushEvent p o₂ rfl), .inr (.inr ⟨hlength,
        board, winner, hrows, hshort, hwinner, hfinish⟩)⟩
    · rename_i hlength
      simp only [bind_eq_ok, pure_eq_ok, Prod.mk.injEq] at h
      obtain ⟨u, hstate, rfl, -⟩ := h
      obtain ⟨o, hquiet, rfl⟩ := setStateSing_eq_ok hstate
      exact ⟨o, hconfigs, hconfig, (hquiet₂'.trans (Quiet.pushEvent p o₂ rfl)).trans hquiet,
        .inr (.inl ⟨hlength, _, rfl⟩)⟩

/-- What the end of `finish_round` leads to: groups are still to be reported, or the next round
begins. -/
theorem beginRound_eq_ok {p : Platform} {s s' : State} {electionTime : Nat} {data : PostRound}
    {maxSteps remaining : Nat}
    (h : beginRound p s electionTime data maxSteps = .ok (s', remaining)) :
    ∃ configs config o, makeElectionConfig data.nextOutputIndex = .ok configs ∧
      configs.head? = some config ∧ Quiet s.output o ∧
      ((∃ next, s' = withCurrent s o (.postRound { data with nextReportIndex := next })) ∨
        (configs.length ≠ 1 ∧ ∃ roundEnd, s' = withCurrent s o
          (.active ⟨data.prevRound + 1, config, data.rng.seed, roundEnd⟩)) ∨
        (configs.length = 1 ∧ ∃ endTime, s' = withCurrent s o
          (.final (ElectionSeeder.new s.now endTime)))) := by
  simp only [beginRound, bind_eq_ok, getGlobals_eq_ok, frontConfig, expect_eq_ok] at h
  obtain ⟨g, _, configs, hconfigs, config, hconfig, ⟨steps, next, t⟩, hreport, h⟩ := h
  have hannounce : ∃ o, Quiet s.output o ∧ (if data.nextReportIndex = 0 then
      announceRound p s electionTime data.prevRound configs config else s) =
        { s with output := o } := by
    split
    · exact ⟨_, (Quiet.pushEvent p s.output rfl).trans (Quiet.pushEvent p _ rfl), rfl⟩
    · exact ⟨s.output, Quiet.refl _, rfl⟩
  obtain ⟨o₁, hquiet₁, heq₁⟩ := hannounce
  rw [heq₁] at hreport
  obtain ⟨o₂, hquiet₂, rfl⟩ := reportRound_eq_ok hreport
  have hquiet₂' : Quiet s.output o₂ := hquiet₁.trans hquiet₂
  refine ⟨configs, config, ?_⟩
  split at h
  · simp only [bind_eq_ok, pure_eq_ok, Prod.mk.injEq] at h
    obtain ⟨u, hstate, rfl, -⟩ := h
    obtain ⟨o, hquiet, rfl⟩ := setStateSing_eq_ok hstate
    exact ⟨o, hconfigs, hconfig, hquiet₂'.trans hquiet, .inl ⟨next, rfl⟩⟩
  · simp only [bind_eq_ok, pure_eq_ok, Prod.mk.injEq] at h
    obtain ⟨u, hstate, rfl, -⟩ := h
    by_cases hlength : configs.length = 1
    · simp only [if_pos hlength] at hstate
      obtain ⟨o, hquiet, rfl⟩ := setStateSing_eq_ok hstate
      exact ⟨o, hconfigs, hconfig, (hquiet₂'.trans (Quiet.pushEvent p o₂ rfl)).trans hquiet,
        .inr (.inr ⟨hlength, _, rfl⟩)⟩
    · simp only [if_neg hlength] at hstate
      obtain ⟨o, hquiet, rfl⟩ := setStateSing_eq_ok hstate
      exact ⟨o, hconfigs, hconfig, (hquiet₂'.trans (Quiet.pushEvent p o₂ rfl)).trans hquiet,
        .inr (.inl ⟨hlength, _, rfl⟩)⟩

end Eden.ElectionPhases
