import Eden.VotePositions
import Eden.PlannedRounds

/-!
The vote table from the first voter to the last round. Its positions are those of the voters
enrolled so far, then of a round, then of what is left of a round and of the winners, and at last
of the board.
-/

namespace Eden.VoteShape

open Eden.ExceptReasoning
open Eden.SortedTable
open Eden.ChainPrimitives
open Eden.ElectionPlan
open Eden.ContractState
open Eden.Runtime
open Eden.MemberTable
open Eden.ElectionRounds
open Eden.ElectionPhases
open Eden.InductionTables
open Eden.ContractActions
open Eden.Transactions
open Eden.HostFunctions
open Eden.ContractSteps
open Eden.ActionSteps
open Eden.Electorate
open Eden.MemberStatistics
open Eden.GroupPartition
open Eden.PlannedRounds
open Eden.VotePositions

variable {p : Platform} {call : Call}

/-! ### How many there can be -/

def Capped (m : Members) : Prop := m.stats.activeMembers ≤ maxActiveMembers

theorem Capped.of_same {m m' : Members} (h : Capped m) (hsame : SameCounts m m') : Capped m' := by
  unfold Capped
  rw [hsame.active]
  exact h

theorem step_capped {s s' : State} (h : Step p call s s') (hs : Capped s.members) :
    Capped s'.members := by
  cases h with
  | aside haside =>
      unfold Capped
      rw [haside.stats]
      exact hs
  | enters _ hcreate =>
      simp only [create, bind_eq_ok, check_eq_ok, exists_const, expect_eq_ok, pure_eq_ok]
        at hcreate
      obtain ⟨_, _, _, rfl⟩ := hcreate
      exact hs
  | activates _ _ hactive =>
      simp only [setActive, bind_eq_ok, check_eq_ok, exists_const, decide_eq_true_eq, pure_eq_ok]
        at hactive
      obtain ⟨_, hless, _, _, rfl⟩ := hactive
      exact hless
  | drops => exact hs
  | opts hopt => exact hs.of_same (sameCounts_electionOpt hopt)
  | @resigns _ member _ stats _ _ hactive _ hstats =>
      simp only [uncount, hactive, bind_eq_ok, check_eq_ok, exists_const, pure_eq_ok] at hstats
      obtain ⟨_, _, _, rfl⟩ := hstats
      exact (Nat.sub_le _ _).trans hs
  | renames => exact hs
  | seeds hseed =>
      rcases seed_eq_ok hseed with ⟨_, _, _, _, _, _, _, _, _, rfl⟩ | ⟨_, _, _, _, _, _, _, rfl⟩ |
        ⟨_, _, _, _, _, _, rfl⟩
      · exact hs
      · exact hs
      · exact hs
  | starts _ hstart _ =>
      obtain ⟨_, _, _, _, _, _, _, rfl⟩ := startElection_eq_ok hstart
      exact hs
  | visits _ _ hvisit => exact hs.of_same (sameCounts_visitMember hvisit)
  | votes hvote =>
      obtain ⟨_, _, _, _, _, _, _, _, _, _, _, rfl⟩ := vote_eq_ok hvote
      exact hs
  | groups _ hgroups => exact hs.of_same (sameCounts_finishGroups hgroups)
  | advances _ hgroups _ _ _ _ _ => exact hs.of_same (sameCounts_finishGroups hgroups)
  | concludes _ _ _ _ _ _ hranks _ _ => exact hs.of_same (sameCounts_rankBoard hranks)
  | clears hclear =>
      simp only [clearall, bind_eq_ok, pure_eq_ok] at hclear
      obtain ⟨_, _, _, _, rfl⟩ := hclear
      exact Nat.zero_le _
  | _ => exact hs

/-- Voters are active members, so there are no more of them. -/
theorem voters_le {s : State} (henrolled : Enrolled s) (hcounted : Counted s.members) :
    s.elections.votes.rows.length ≤ s.members.stats.activeMembers := by
  have hsubset : s.elections.votes.rows.map Vote.member ⊆
      (s.members.table.rows.filter (hasStatus .activeMember)).map Member.account := by
    intro account haccount
    obtain ⟨v, hv, rfl⟩ := List.mem_map.mp haccount
    obtain ⟨m, hm, haccount, hactive⟩ := isActive_iff_mem.mp (henrolled.voters v hv).1
    exact List.mem_map.mpr ⟨m, List.mem_filter.mpr ⟨hm, decide_eq_true hactive⟩, haccount⟩
  have hle := (s.elections.votes.nodup_keys.subperm hsubset).length_le
  rw [List.length_map, List.length_map, ← List.countP_eq_length_filter] at hle
  rw [hcounted.active]
  exact hle

/-! ### The table in each state of an election -/

/-- The vote table fits the state of the election. -/
def Placed (votes : VoteTable) : Option ElectionState → Prop
  | some (.initVoters data) => OfRound votes 0 ∧ Filled votes 0 0 data.nextMemberIdx
  | some (.active round) =>
      OfRound votes round.round ∧ Filled votes round.round 0 round.config.numParticipants
  | some (.postRound data) => Handed votes data
  | some (.final _) => ∃ round k, 1 ≤ k ∧ k ≤ 11 ∧ OfRound votes round ∧ Filled votes round 0 k
  | _ => True

/-- What is known of the votes at any time. -/
structure Arranged (s : State) : Prop where
  enrolled : Enrolled s
  counted : Counted s.members
  capped : Capped s.members
  placed : Placed s.elections.votes s.elections.current

theorem Arranged.length_lt {s : State} (h : Arranged s) :
    s.elections.votes.rows.length + 1 < 2 ^ 16 := by
  have hle := voters_le h.enrolled h.counted
  have hcapped : s.members.stats.activeMembers ≤ 10000 := h.capped
  omega

/-- All positions below the number of rows fit in 16 bits. -/
theorem Arranged.narrow {s : State} (h : Arranged s) {round high : Nat}
    (hround : OfRound s.elections.votes round) (hfilled : Filled s.elections.votes round 0 high) :
    Narrow s.elections.votes ∧ high + 1 < 2 ^ 16 := by
  have hlength := h.length_lt
  rw [hfilled.length_eq hround] at hlength
  refine ⟨fun v hv => ?_, hlength⟩
  have hbounds := hfilled.within v hv (hround v hv)
  omega

/-- The first round of a plan has all participants, and it is the only one for fewer than
twelve. -/
theorem frontConfig_eq {participants : Nat} {configs : ElectionConfig} {config : RoundConfig}
    (hsmall : participants < 2 ^ 16) (hconfigs : makeElectionConfig participants = .ok configs)
    (hconfig : configs.head? = some config) :
    0 < participants ∧ config.numParticipants = participants ∧ Divisible config ∧
      (configs.length = 1 ↔ participants < 12) := by
  have hpos : 0 < participants := by
    rcases Nat.eq_zero_or_pos participants with rfl | hpos
    · rw [makeElectionConfig, if_pos rfl, pure_eq_ok] at hconfigs
      rw [← hconfigs] at hconfig
      exact absurd hconfig (by simp)
    · exact hpos
  obtain ⟨plan, hplan, hwell⟩ := makeElectionConfig_wellPlanned hpos hsmall
  rw [hconfigs, Except.ok.injEq] at hplan
  subst hplan
  have hfirst := hwell.first
  rw [hconfig, Option.map_some, Option.some.injEq] at hfirst
  exact ⟨hpos, hfirst, hwell.divisible config (List.mem_of_head? hconfig), hwell.single⟩

theorem placed_visitMember {s : State} (hs : Arranged s) {b : Ballot} {data data' : InitVoters}
    {member : Member} (hcurrent : s.elections.current = some (.initVoters data))
    (h : visitMember p (ballot s) data member = .ok (b, data')) :
    Placed b.votes (some (.initVoters data')) := by
  have hplaced := hs.placed
  rw [hcurrent] at hplaced
  obtain ⟨hround, hfilled⟩ := hplaced
  obtain ⟨hnarrow, hlt⟩ := hs.narrow hround hfilled
  unfold visitMember at h
  split at h
  · split at h
    · simp only [bind_eq_ok, pure_eq_ok, Prod.mk.injEq] at h
      obtain ⟨⟨votes, rng⟩, hadd, rfl, rfl⟩ := h
      have hsmall : data.nextMemberIdx < 2 ^ 16 := by omega
      refine ⟨rounds_addVoter hadd (· = 0) rfl hround, ?_⟩
      dsimp only
      rw [Nat.mod_eq_of_lt hlt]
      exact filled_addVoter hadd hnarrow hsmall hfilled
    · simp only [bind_eq_ok, pure_eq_ok, Prod.mk.injEq] at h
      obtain ⟨_, _, rfl, rfl⟩ := h
      exact ⟨hround, hfilled⟩
  · simp only [pure_eq_ok, Prod.mk.injEq] at h
    obtain ⟨rfl, rfl⟩ := h
    exact ⟨hround, hfilled⟩

/-- The round is over, and no group of it has been finished yet. -/
theorem handed_closes {s : State} (hs : Arranged s) {round : ActiveRound} (rng : ElectionRng)
    (hcurrent : s.elections.current = some (.active round)) :
    Handed s.elections.votes ⟨rng, round.round, round.config, 0, 0, 0⟩ := by
  have hplaced := hs.placed
  rw [hcurrent] at hplaced
  obtain ⟨hround, hfilled⟩ := hplaced
  obtain ⟨hnarrow, hlt⟩ := hs.narrow hround hfilled
  refine ⟨hnarrow, fun v hv => .inl (hround v hv), hfilled, ?_, Nat.le_refl 0, Nat.zero_le _, ?_⟩
  · refine filled_empty fun v hv => ?_
    rw [hround v hv]
    exact (Nat.lt_succ_self _).ne
  · dsimp only
    omega

/-- After the last group all rows belong to the next round. -/
theorem Handed.handed_on {votes : VoteTable} {data : PostRound} (h : Handed votes data)
    (hlast : data.nextInputIndex = data.prevConfig.numParticipants) :
    OfRound votes (data.prevRound + 1) := by
  intro v hv
  rcases h.rounds v hv with hround | hround
  · have hbounds := h.input.within v hv hround
    omega
  · exact hround

theorem placed_advances {s : State} (hs : Arranged s) {b : Ballot} {data data' : PostRound}
    {electionTime maxSteps remaining : Nat} {configs : ElectionConfig} {config : RoundConfig}
    {next : ElectionState} (hcurrent : s.elections.current = some (.postRound data))
    (h : finishGroups p electionTime maxSteps (remainingVotes s.elections.votes data) (ballot s)
      data = .ok (remaining, b, data'))
    (hsteps : remaining ≠ 0) (hconfigs : makeElectionConfig data'.nextOutputIndex = .ok configs)
    (hconfig : configs.head? = some config)
    (hnext : (configs.length ≠ 1 ∧ ∃ seed roundEnd,
        next = .active ⟨data'.prevRound + 1, config, seed, roundEnd⟩) ∨
      (configs.length = 1 ∧ ∃ seeder, next = .final seeder)) :
    Placed b.votes (some next) := by
  have hplaced := hs.placed
  rw [hcurrent] at hplaced
  obtain ⟨hhanded, hlast⟩ := handed_finishGroups (b := ballot s) h hplaced
  have hround := Handed.handed_on hhanded (hlast hsteps)
  have hbound := hhanded.bound
  have horder := hhanded.order
  have hinside := hhanded.inside
  obtain ⟨hpos, hparticipants, _, hsingle⟩ :=
    frontConfig_eq (by omega) hconfigs hconfig
  rcases hnext with ⟨_, _, _, rfl⟩ | ⟨hone, _, rfl⟩
  · refine ⟨hround, ?_⟩
    dsimp only
    rw [hparticipants]
    exact hhanded.output
  · have hless := hsingle.mp hone
    exact ⟨data'.prevRound + 1, data'.nextOutputIndex, hpos, by omega, hround, hhanded.output⟩

theorem placed_votes {votes : VoteTable} {current : Option ElectionState} {own new : Vote}
    {round : ActiveRound} (h : Placed votes current) (hcurrent : current = some (.active round))
    (hown : own ∈ votes.rows) (hmember : new.member = own.member) (hround : new.round = own.round)
    (hindex : new.index = own.index) : Placed (votes.replace new) current := by
  rw [hcurrent] at h ⊢
  exact ⟨h.1.replace hown hround, h.2.replace hown hmember hround hindex⟩

theorem step_arranged {s s' : State} (h : Step p call s s') (hcall : uninterrupted call = true)
    (hs : Arranged s) : Arranged s' := by
  refine ⟨?_, step_counted h hs.counted, step_capped h hs.capped, ?_⟩
  · refine step_enrolled h ?_ hs.enrolled
    rintro t rfl
    exact absurd hcall (by simp [uninterrupted])
  cases h with
  | aside haside =>
      rw [haside.votes, haside.current]
      exact hs.placed
  | schedules => exact trivial
  | unschedules => exact trivial
  | aborts => exact trivial
  | clears => exact absurd hcall (by simp [uninterrupted])
  | seeds hseed =>
      rcases seed_eq_ok hseed with ⟨_, _, _, _, _, _, _, _, _, rfl⟩ |
        ⟨_, _, _, _, _, _, _, rfl⟩ | ⟨seeder, _, _, hcurrent, _, _, rfl⟩
      · exact trivial
      · exact trivial
      · have hplaced := hs.placed
        rw [hcurrent] at hplaced
        exact hplaced
  | starts hcurrent hstart _ =>
      obtain ⟨_, rfl, _, _, _, _, _, rfl⟩ := startElection_eq_ok hstart
      have hempty : s.elections.votes = .empty := by
        refine hs.enrolled.idle ?_
        rw [hcurrent]
        rfl
      have hnone : ∀ v, v ∉ s.elections.votes.rows := by
        rw [hempty]
        exact fun v => List.not_mem_nil
      exact ⟨fun v hv => absurd hv (hnone v), filled_empty fun v hv => absurd hv (hnone v)⟩
  | visits hcurrent _ hvisit => exact placed_visitMember hs hcurrent hvisit
  | reports hcurrent _ =>
      have hplaced := hs.placed
      rw [hcurrent] at hplaced
      exact hplaced
  | opens hcurrent _ _ hconfigs hconfig _ _ =>
      have hplaced := hs.placed
      rw [hcurrent] at hplaced
      obtain ⟨hround, hfilled⟩ := hplaced
      have hlt := (hs.narrow hround hfilled).2
      refine ⟨hround, ?_⟩
      dsimp only
      rw [(frontConfig_eq (by omega) hconfigs hconfig).2.1]
      exact hfilled
  | votes hvote =>
      obtain ⟨round, own, other, hcurrent, _, _, hown, _, _, _, _, rfl⟩ := vote_eq_ok hvote
      exact placed_votes hs.placed hcurrent (Table.mem_of_find? hown) rfl rfl rfl
  | closes hcurrent _ _ => exact handed_closes hs _ hcurrent
  | groups hcurrent hgroups =>
      have hplaced := hs.placed
      rw [hcurrent] at hplaced
      exact (handed_finishGroups (b := ballot s) hgroups hplaced).1
  | rereports hcurrent _ =>
      have hplaced := hs.placed
      rw [hcurrent] at hplaced
      exact { hplaced with }
  | advances hcurrent hgroups hsteps hconfigs hconfig hnext _ =>
      exact placed_advances hs hcurrent hgroups hsteps hconfigs hconfig hnext
  | concludes => exact trivial
  | _ => exact hs.placed

theorem untouched_arranged {s : State} (h : Untouched s) : Arranged s where
  enrolled := untouched_enrolled h
  counted := untouched_counted h
  capped := by
    rw [h.1]
    exact Nat.zero_le _
  placed := by
    rw [h.1]
    exact trivial

theorem Arranged.at_time {s : State} (h : Arranged s) (now : Nat) :
    Arranged { s with now := now } where
  enrolled := h.enrolled.of_members (h.enrolled.toNamed.of_members rfl rfl fun _ ha => ha)
    (fun _ ha => ha) id rfl
  counted := h.counted
  capped := h.capped
  placed := h.placed

theorem reachable_arranged {s : State}
    (h : Reachable p (fun _ call => uninterrupted call = true) s) : Arranged s :=
  reachable_of_steps Arranged h (fun _ hs => untouched_arranged hs)
    (fun _ now _ _ hs => hs.at_time now)
    fun _ _ _ hcall hstep hs => step_arranged hstep hcall hs

/-! ### The shape of the table -/

/-- The shape of the vote table in each state of an election. -/
def Shaped (votes : VoteTable) : Option ElectionState → Prop
  | some (.initVoters data) => OfRound votes 0 ∧ Filled votes 0 0 data.nextMemberIdx
  | some (.active round) =>
      OfRound votes round.round ∧ Filled votes round.round 0 round.config.numParticipants
  | some (.postRound data) =>
      (∀ v ∈ votes.rows, v.round = data.prevRound ∨ v.round = data.prevRound + 1) ∧
        Filled votes data.prevRound data.nextInputIndex data.prevConfig.numParticipants ∧
        Filled votes (data.prevRound + 1) 0 data.nextOutputIndex
  | some (.final _) => ∃ round k, 1 ≤ k ∧ k ≤ 11 ∧ OfRound votes round ∧ Filled votes round 0 k
  | _ => votes = .empty

theorem Arranged.shaped {s : State} (h : Arranged s) :
    Shaped s.elections.votes s.elections.current := by
  have hplaced := h.placed
  have hidle := h.enrolled.idle
  rcases hcurrent : s.elections.current with _ | state
  · rw [hcurrent] at hidle
    exact hidle rfl
  · rw [hcurrent] at hplaced hidle
    cases state with
    | pendingDate => exact hidle rfl
    | registration => exact hidle rfl
    | seeding => exact hidle rfl
    | initVoters => exact hplaced
    | active => exact hplaced
    | postRound => exact ⟨hplaced.rounds, hplaced.input, hplaced.output⟩
    | final => exact hplaced

/-- In every run no member has two rows, and the rows of the vote table hold just the positions
that the state of the election names. -/
theorem vote_table_shaped (p : Platform) (s : State)
    (h : Reachable p (fun _ call => uninterrupted call = true) s) :
    (s.elections.votes.rows.map Vote.member).Nodup ∧
      Shaped s.elections.votes s.elections.current :=
  ⟨s.elections.votes.nodup_keys, (reachable_arranged h).shaped⟩

/-- Alice and bob are enrolled for the first election, and no group has been reported. -/
def firstVoters : List Transaction :=
  foundation ++
    [(1000050, [(signedBy alice, .action (.electopt alice.name true)),
        (signedBy bob, .action (.electopt bob.name true))]),
      (1900000, [(signedBy alice, .action (.electseed (headerAt 947600000)))]),
      (1987200, [(signedBy alice, .action (.electprocess 3))])]

theorem firstVoters_shaped :
    ∃ s, runFromGenesis host (fun _ call => uninterrupted call = true) firstVoters = some s ∧
      s.elections.votes.rows.length = 2 ∧ Shaped s.elections.votes s.elections.current := by
  have hrun : (runFromGenesis host (fun _ call => uninterrupted call = true) firstVoters).any
      (fun s => s.elections.votes.rows.length = 2) = true := by decide +kernel
  obtain ⟨s, hs, htwo⟩ := (Option.any_eq_true _ _).mp hrun
  exact ⟨s, hs, of_decide_eq_true htwo, (vote_table_shaped host s (reachable_of_run hs)).2⟩

end Eden.VoteShape
