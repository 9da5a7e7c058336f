import Eden.MemberShares
import Eden.RankHistogram

/-!
The levels of the ranks. A round of an election leaves at most a quarter of its participants, so
that few ranks are given, and one member has the highest one.
-/

namespace Eden.RankLevels

open Eden.ExceptReasoning
open Eden.SortedTable
open Eden.ChainPrimitives
open Eden.ElectionPlan
open Eden.ContractState
open Eden.Runtime
open Eden.MemberTable
open Eden.DistributionTables
open Eden.ElectionRounds
open Eden.ElectionPhases
open Eden.ContractActions
open Eden.Transactions
open Eden.HostFunctions
open Eden.ContractSteps
open Eden.ActionSteps
open Eden.Electorate
open Eden.MemberStatistics
open Eden.GroupPartition
open Eden.PlannedRounds
open Eden.VotePositions
open Eden.VoteShape
open Eden.RoundProgress
open Eden.RankHistogram
open Eden.MemberShares

variable {p : Platform} {call : Call} {m m' : Members}

/-! ### Members with a rank -/

/-- Only active members with a representative have a rank above the lowest one. -/
structure Graded (row : Member) : Prop where
  small : row.electionRank < 2 ^ 8
  above : 0 < row.electionRank →
    row.status = .activeMember ∧ row.representative ≠ invalidName

theorem graded_of_zero {row : Member} (h : row.electionRank = 0) : Graded row where
  small := h ▸ Nat.two_pow_pos 8
  above := fun hpos => absurd h hpos.ne'

theorem graded_core {row : Member} (h : Graded (core row)) : Graded row := ⟨h.small, h.above⟩

abbrev AllGraded (m : Members) : Prop := ∀ row ∈ m.table.rows, Graded row

theorem graded_of_core (h : AllGraded m)
    (hrows : m'.table.rows.map core = m.table.rows.map core) : AllGraded m' := by
  intro row hrow
  have hmem : core row ∈ m.table.rows.map core := hrows ▸ List.mem_map_of_mem hrow
  obtain ⟨old, hold, heq⟩ := List.mem_map.mp hmem
  refine graded_core (heq ▸ ?_)
  exact ⟨(h old hold).small, (h old hold).above⟩

theorem graded_setRank {account representative : Name} {rank : Nat} (h : AllGraded m)
    (hrank : setRank m account rank representative = .ok m')
    (hactive : 0 < rank % 2 ^ 8 →
      isActive m.table account = true ∧ representative ≠ invalidName) : AllGraded m' := by
  intro row hrow
  rcases mem_setRank hrank hrow with ⟨hrow, -⟩ | ⟨old, hold, rfl⟩
  · exact h row hrow
  · refine ⟨Nat.mod_lt _ (Nat.two_pow_pos 8), fun hpos => ?_⟩
    obtain ⟨hactive, hvalid⟩ := hactive hpos
    obtain ⟨row', hrow', hstatus⟩ := isActive_iff.mp hactive
    rw [hold, Option.some.injEq] at hrow'
    subst hrow'
    exact ⟨hstatus, hvalid⟩

theorem graded_setRanksOf {voters : List Name} {representative : Name} {rank : Nat}
    (h : AllGraded m) (hranks : setRanksOf m voters rank representative = .ok m')
    (hactive : ∀ a ∈ voters, isActive m.table a = true) (hvalid : representative ≠ invalidName) :
    AllGraded m' := by
  induction voters generalizing m with
  | nil =>
      rw [setRanksOf, List.foldlM_nil, pure_eq_ok] at hranks
      exact hranks ▸ h
  | cons voter voters ih =>
      rw [setRanksOf, List.foldlM_cons, bind_eq_ok] at hranks
      obtain ⟨m₁, hfirst, hrest⟩ := hranks
      have hnext := graded_setRank h hfirst fun _ => ⟨hactive voter List.mem_cons_self, hvalid⟩
      refine ih hnext hrest fun a ha => ?_
      rw [isActive_of_status (statusOf_setRank hfirst a)]
      exact hactive a (List.mem_cons_of_mem voter ha)

/-- What a group decides for is the name of a member, or the complement of one. -/
theorem groupWinner_valid {group : List Vote} (hgroup : group ≠ [])
    (hnames : ∀ v ∈ group, isAccountName v.member = true ∧
      (v.candidate ≠ emptyName → isAccountName v.candidate = true)) :
    groupWinner group ≠ invalidName := by
  obtain ⟨first, rest, rfl⟩ := List.exists_cons_of_ne_nil hgroup
  have hnone : complementName first.member ≠ invalidName := by
    have hfirst := (hnames first List.mem_cons_self).1
    simp only [isAccountName, Bool.and_eq_true, decide_eq_true_eq] at hfirst
    have hcomplement : ∀ n : Nat, n ≠ 0 → n < 2 ^ 64 → 2 ^ 64 - 1 - n ≠ 2 ^ 64 - 1 := by omega
    exact hcomplement first.member hfirst.1.1 hfirst.1.2
  unfold groupWinner
  cases hbest : bestCandidate (first :: rest) with
  | none => exact hnone
  | some best =>
      simp only [List.head?_cons, Option.map_some, Option.getD_some]
      split
      · obtain ⟨v, hv, rfl, hne⟩ := bestCandidate_mem hbest
        exact invalid_not_account ((hnames v hv).2 hne)
      · exact hnone

/-! ### The length of the histogram -/

theorem length_incrementRank (ranks : List Nat) (rank : Nat) :
    (incrementRank ranks rank).length = max ranks.length (rank + 1) := by
  rw [incrementRank, List.length_modify, List.length_append, List.length_replicate]
  omega

theorem ranks_setRank {account representative : Name} {rank : Nat}
    (h : setRank m account rank representative = .ok m') :
    m'.stats.ranks = countRank m.stats.ranks (rank % 2 ^ 8) representative := by
  obtain ⟨_, _, rfl⟩ := setRank_eq_ok h
  rfl

theorem length_countRank_le (ranks : List Nat) (rank : Nat) (representative : Name) :
    (countRank ranks rank representative).length ≤ max ranks.length (rank + 1) := by
  unfold countRank
  split
  · exact le_max_left _ _
  · exact (length_incrementRank ranks rank).le

theorem length_setRanksOf {voters : List Name} {representative : Name} {rank : Nat}
    (h : setRanksOf m voters rank representative = .ok m') :
    m'.stats.ranks.length ≤ max m.stats.ranks.length (rank + 1) := by
  induction voters generalizing m with
  | nil =>
      rw [setRanksOf, List.foldlM_nil, pure_eq_ok] at h
      exact h ▸ le_max_left _ _
  | cons voter voters ih =>
      rw [setRanksOf, List.foldlM_cons, bind_eq_ok] at h
      obtain ⟨m₁, hfirst, hrest⟩ := h
      have hlength := length_countRank_le m.stats.ranks (rank % 2 ^ 8) representative
      rw [← ranks_setRank hfirst] at hlength
      have hmod := Nat.mod_le rank (2 ^ 8)
      have hnext := ih hrest
      omega

/-- At most one member has the highest rank. -/
def OnTop (ranks : List Nat) : Prop := ∀ top, ranks.getLast? = some top → top ≤ 1

/-- The board gets the next two ranks, and the highest one is for its winner. -/
theorem onTop_rankBoard {board : List Name} {winner : Name}
    (hlength : m.stats.ranks.length + 1 < 2 ^ 8) (hwinner : winner ≠ invalidName)
    (h : rankBoard m board winner (boardRank m) = .ok m') : OnTop m'.stats.ranks := by
  simp only [rankBoard, bind_eq_ok] at h
  obtain ⟨m₁, hothers, hlast⟩ := h
  have hboard : boardRank m = m.stats.ranks.length := Nat.mod_eq_of_lt (by omega)
  rw [hboard] at hothers hlast
  have hle := length_setRanksOf hothers
  have hranks := ranks_setRank hlast
  rw [countRank, if_neg hwinner, Nat.mod_eq_of_lt hlength] at hranks
  intro top htop
  have hnew : (incrementRank m₁.stats.ranks (m.stats.ranks.length + 1)).length =
      m.stats.ranks.length + 2 := by
    rw [length_incrementRank]
    omega
  have hget := getD_incrementRank m₁.stats.ranks (m.stats.ranks.length + 1)
    (m.stats.ranks.length + 1)
  have hbeyond : m₁.stats.ranks.getD (m.stats.ranks.length + 1) 0 = 0 :=
    List.getD_eq_default _ _ (by omega)
  rw [if_pos rfl, hbeyond, List.getD_eq_getElem?_getD] at hget
  rw [hranks, List.getLast?_eq_getElem?, hnew] at htop
  change (incrementRank m₁.stats.ranks (m.stats.ranks.length + 1))[m.stats.ranks.length + 1]? =
    some top at htop
  rw [htop] at hget
  exact hget.le

/-! ### The number of rounds -/

/-- Every group of a round has at least four members. -/
def Wide (c : RoundConfig) : Prop := ∀ g < c.numGroups, 4 ≤ groupSize c g

/-- A round that others follow has no small groups. -/
theorem wide_of_plan {participants : Nat} {configs : ElectionConfig} {config : RoundConfig}
    (hsmall : participants < 2 ^ 16) (hconfigs : makeElectionConfig participants = .ok configs)
    (hconfig : configs.head? = some config) (hmany : configs.length ≠ 1) : Wide config := by
  have hpos := (frontConfig_eq hsmall hconfigs hconfig).1
  obtain ⟨plan, hplan, hwell⟩ := makeElectionConfig_wellPlanned hpos hsmall
  rw [hconfigs, Except.ok.injEq] at hplan
  subst hplan
  have hdivisible := hwell.divisible config (List.mem_of_head? hconfig)
  have hfront : config ∈ configs.dropLast := by
    rcases configs with _ | ⟨first, _ | ⟨second, rest⟩⟩
    · cases hconfig
    · exact absurd rfl hmany
    · rw [List.head?_cons, Option.some.injEq] at hconfig
      rw [List.dropLast_cons_of_ne_nil (List.cons_ne_nil second rest), hconfig]
      exact List.mem_cons_self
  obtain ⟨z, hz, hsizes⟩ := hwell.sizes
  intro g hg
  have hsize := hsizes config hfront g hg
  rw [card_positions hdivisible hg] at hsize
  omega

/-- The participants of a round, when each round before has left at most a quarter. -/
def Quartered (round participants : Nat) : Prop := participants * 4 ^ round ≤ 4 ^ 7

theorem Quartered.round_le {round participants : Nat} (h : Quartered round participants)
    (hpos : 0 < participants) : round ≤ 7 := by
  have hle : 4 ^ round ≤ 4 ^ 7 := (Nat.le_mul_of_pos_left _ hpos).trans h
  exact (Nat.pow_le_pow_iff_right (by decide)).mp hle

theorem Quartered.next {round participants winners : Nat} (h : Quartered round participants)
    (hle : 4 * winners ≤ participants) : Quartered (round + 1) winners := by
  unfold Quartered at h ⊢
  calc winners * 4 ^ (round + 1) = 4 * winners * 4 ^ round := by ring
    _ ≤ participants * 4 ^ round := Nat.mul_le_mul_right _ hle
    _ ≤ 4 ^ 7 := h

/-- The histogram has no more levels than the rounds that are over, so that the two ranks of the
board come next. -/
def Leveled (ranks : List Nat) : Option ElectionState → Prop
  | some (.initVoters _) => ranks = []
  | some (.active round) => ranks.length ≤ round.round ∧
      Quartered round.round round.config.numParticipants ∧ Wide round.config
  | some (.postRound data) => ranks.length ≤ data.prevRound + 1 ∧
      Quartered data.prevRound data.prevConfig.numParticipants ∧ Wide data.prevConfig ∧
      4 * data.nextOutputIndex ≤ data.nextInputIndex
  | some (.final _) => ranks.length ≤ 8
  | _ => OnTop ranks

/-- What holds at each turn of the loop over the groups. -/
structure Thinning (P : Name → Prop) (rest : List Vote) (b : Ballot) (data : PostRound) : Prop where
  turning : Turning P rest b data
  active : ∀ a, P a → isActive b.members.table a = true
  graded : AllGraded b.members
  levels : b.members.stats.ranks.length ≤ data.prevRound + 1
  wide : Wide data.prevConfig
  quarter : 4 * data.nextOutputIndex ≤ data.nextInputIndex

theorem Thinning.next {P : Name → Prop} (hP : ∀ a, P a → isAccountName a = true)
    {rest : List Vote} {b b' : Ballot} {data data' : PostRound} {electionTime k : Nat}
    (h : Thinning P rest b data) (hpos : 0 < k) (hk : k ≤ rest.length)
    (hsize : k = data.prevConfig.groupSizeAt data.nextInputIndex)
    (hgroup : finishGroup p electionTime b data (rest.take k) = .ok (b', data')) :
    Thinning P (rest.drop k) b' data' := by
  have hrest : rest ≠ [] := by
    rintro rfl
    exact absurd (hpos.trans_le hk) (lt_irrefl 0)
  have htake : (rest.take k).length = k := by rw [List.length_take, Nat.min_eq_left hk]
  have hne : rest.take k ≠ [] := by
    apply List.ne_nil_of_length_pos
    rw [htake]
    exact hpos
  have hvoters : ∀ v ∈ rest.take k, P v.member ∧ (v.candidate ≠ emptyName → P v.candidate) :=
    fun v hv => h.turning.voters v ((h.turning.order.mem v).mp (List.mem_of_mem_take hv)).1
  obtain ⟨rng, hranks, hcases⟩ := finishGroup_eq_ok hgroup
  have hvalid := groupWinner_valid hne fun v hv =>
    ⟨hP _ (hvoters v hv).1, fun hne => hP _ ((hvoters v hv).2 hne)⟩
  have hgraded : AllGraded b'.members := by
    refine graded_setRanksOf h.graded hranks (fun a ha => ?_) hvalid
    obtain ⟨v, hv, rfl⟩ := mem_rankOrder.mp (List.mem_of_mem_filter ha)
    exact h.active _ (hvoters v hv).1
  have hactive : ∀ a, P a → isActive b'.members.table a = true := by
    intro a ha
    rw [isActive_of_status (statusOf_setRanksOf hranks a)]
    exact h.active a ha
  have hlevels : b'.members.stats.ranks.length ≤ data.prevRound + 1 := by
    have hlength := length_setRanksOf hranks
    have hbefore := h.levels
    omega
  -- the group has at least four members, and at most one of them goes on
  have hfour : 4 ≤ k := by
    obtain ⟨g, hg, _, hsizeAt, _, _⟩ := h.turning.group hrest
    rw [hsize, hsizeAt]
    exact h.wide g hg
  have hinput : (data.nextInputIndex + (rest.take k).length) % 2 ^ 16 = data.nextInputIndex + k := by
    have hlength := h.turning.order.length_eq
    have hbound := h.turning.handed.bound
    rw [htake]
    exact Nat.mod_eq_of_lt (by omega)
  have hquarter := h.quarter
  have hturning := h.turning.next hP hpos hk hsize hgroup
  rcases hcases with ⟨_, _, rfl⟩ | ⟨_, _, rfl⟩
  · refine ⟨hturning, hactive, hgraded, hlevels, h.wide, ?_⟩
    have houtput := Nat.mod_le (data.nextOutputIndex + 1) (2 ^ 16)
    dsimp only
    rw [hinput]
    omega
  · refine ⟨hturning, hactive, hgraded, hlevels, h.wide, ?_⟩
    dsimp only
    rw [hinput]
    omega

/-! ### From step to step -/

/-- What is known of the levels at any time. -/
structure Levels (s : State) : Prop extends Histogram s where
  graded : AllGraded s.members
  leveled : Leveled s.members.stats.ranks s.elections.current

theorem Levels.thinning {s : State} (hs : Levels s) {data : PostRound}
    (hcurrent : s.elections.current = some (.postRound data)) :
    Thinning (fun a => isActive s.members.table a = true)
      (remainingVotes s.elections.votes data) (ballot s) data := by
  have hleveled := hs.leveled
  rw [hcurrent] at hleveled
  obtain ⟨hlevels, _, hwide, hquarter⟩ := hleveled
  exact ⟨hs.turning hcurrent, fun _ ha => ha, hs.graded, hlevels, hwide, hquarter⟩

theorem thinning_finishGroups {s : State} (hs : Levels s) {electionTime maxSteps remaining : Nat}
    {b : Ballot} {data data' : PostRound}
    (hcurrent : s.elections.current = some (.postRound data))
    (h : finishGroups p electionTime maxSteps (remainingVotes s.elections.votes data) (ballot s)
      data = .ok (remaining, b, data')) :
    ∃ rest, Thinning (fun a => isActive s.members.table a = true) rest b data' ∧
      data'.prevRound = data.prevRound ∧ data'.prevConfig = data.prevConfig := by
  obtain ⟨rest, ⟨hthinning, hround, hconfig⟩, _⟩ := finishGroups_preserves
    (fun rest b data₁ => Thinning (fun a => isActive s.members.table a = true) rest b data₁ ∧
      data₁.prevRound = data.prevRound ∧ data₁.prevConfig = data.prevConfig) (by
      rintro rest k b data₁ b' data₂ hpos hk hsize hgroup ⟨ht, hround, hconfig⟩
      refine ⟨ht.next hs.enrolled.named hpos hk hsize hgroup, ?_⟩
      obtain ⟨_, _, ⟨_, _, rfl⟩ | ⟨_, _, rfl⟩⟩ := finishGroup_eq_ok hgroup
      · exact ⟨hround, hconfig⟩
      · exact ⟨hround, hconfig⟩) h ⟨hs.thinning hcurrent, rfl, rfl⟩
  exact ⟨rest, hthinning, hround, hconfig⟩

theorem graded_visitMember {s : State} (hs : AllGraded s.members) {b : Ballot}
    {data data' : InitVoters} {member : Member}
    (h : visitMember p (ballot s) data member = .ok (b, data')) :
    AllGraded b.members ∧ b.members.stats.ranks = s.members.stats.ranks := by
  unfold visitMember at h
  split at h
  · split at h
    · simp only [bind_eq_ok, pure_eq_ok, Prod.mk.injEq] at h
      obtain ⟨⟨votes, rng⟩, hadd, rfl, rfl⟩ := h
      exact ⟨hs, rfl⟩
    · simp only [bind_eq_ok, pure_eq_ok, Prod.mk.injEq] at h
      obtain ⟨members, hrank, rfl, rfl⟩ := h
      have hvisited : AllGraded { s.members with
          rankHistory := s.members.rankHistory ++ [.visit member.account] } := hs
      refine ⟨graded_setRank hvisited hrank fun hpos => ?_, ?_⟩
      · exact absurd hpos (lt_irrefl 0)
      · exact ranks_setRank hrank
  · simp only [pure_eq_ok, Prod.mk.injEq] at h
    obtain ⟨rfl, rfl⟩ := h
    exact ⟨hs, rfl⟩

theorem graded_rankBoard {s : State} (hs : Levels s) {board : List Name} {winner : Name}
    {members : Members} (hactive : ∀ a ∈ board, isActive s.members.table a = true)
    (hwinner : winner ∈ board)
    (h : rankBoard s.members board winner (boardRank s.members) = .ok members) :
    AllGraded members := by
  simp only [rankBoard, bind_eq_ok] at h
  obtain ⟨m, hothers, hlast⟩ := h
  have hvalid := invalid_not_account (hs.enrolled.named _ (hactive winner hwinner))
  have hgraded := graded_setRanksOf hs.graded hothers
    (fun a ha => hactive a (List.mem_of_mem_filter ha)) hvalid
  refine graded_setRank hgraded hlast fun _ => ⟨?_, hvalid⟩
  rw [isActive_of_status (statusOf_setRanksOf hothers winner)]
  exact hactive winner hwinner

/-- The rows of the vote table are active members. -/
theorem active_board {s : State} (hs : Enrolled s) :
    ∀ a ∈ (s.elections.votes.index Vote.byIndex).map Vote.member,
      isActive s.members.table a = true := by
  intro a ha
  obtain ⟨v, hv, rfl⟩ := List.mem_map.mp ha
  exact (hs.voters v (Table.mem_index.mp hv)).1

/-- In the last round there are few levels. -/
theorem Levels.short {s : State} (hs : Levels s) (hround : InLastRound s) :
    s.members.stats.ranks.length ≤ 8 := by
  have hleveled := hs.leveled
  rcases hround with ⟨data, _, hcurrent, _⟩ | ⟨seeder, hcurrent⟩
  · rw [hcurrent] at hleveled
    rw [show s.members.stats.ranks = [] from hleveled]
    exact Nat.zero_le _
  · rw [hcurrent] at hleveled
    exact hleveled

/-- A histogram of the same levels with no greater counts. -/
theorem OnTop.of_le {ranks ranks' : List Nat} (h : OnTop ranks)
    (hlength : ranks'.length = ranks.length) (hle : ∀ k, ranks'.getD k 0 ≤ ranks.getD k 0) :
    OnTop ranks' := by
  intro top htop
  rw [List.getLast?_eq_getElem?, hlength] at htop
  have hlast := hle (ranks.length - 1)
  rw [List.getD_eq_getElem?_getD, htop, List.getD_eq_getElem?_getD, ← List.getLast?_eq_getElem?]
    at hlast
  cases hget : ranks.getLast? with
  | none =>
      rw [hget] at hlast
      exact hlast.trans (Nat.zero_le 1)
  | some old =>
      rw [hget] at hlast
      exact hlast.trans (h old hget)

theorem length_uncount {stats stats' : MemberStats} {member : Member}
    (hactive : member.status = .activeMember) (h : uncount stats member = .ok stats') :
    stats'.ranks.length = stats.ranks.length := by
  simp only [uncount, hactive, bind_eq_ok, check_eq_ok, exists_const, pure_eq_ok] at h
  obtain ⟨_, ranks, hranks, rfl⟩ := h
  split at hranks
  · rw [Except.ok.injEq] at hranks
    exact hranks ▸ rfl
  · simp only [decrementRank, bind_eq_ok, ensure_eq_ok, exists_const, pure_eq_ok] at hranks
    obtain ⟨_, rfl⟩ := hranks
    exact List.length_modify _ _ _

theorem leveled_idle {ranks : List Nat} {current : Option ElectionState}
    (h : isIdle current = true) : Leveled ranks current ↔ OnTop ranks := by
  unfold isIdle at h
  split at h
  all_goals first | exact Iff.rfl | cases h

theorem graded_modifyMember {account : Name} {f : Member → Member} (h : AllGraded m)
    (hf : ∀ row, m.table.find? account = some row → Graded (f row)) :
    AllGraded (modifyMember m account f) := by
  intro row hrow
  have hmem := @Table.mem_modify _ _ _ _ m.table account
    (fun row => reindexed row { f row with account := row.account }) (fun _ => rfl) row
  rcases hmem.mp hrow with ⟨hother, -⟩ | ⟨old, hold, rfl⟩
  · exact h row hother
  · exact ⟨(hf old hold).small, (hf old hold).above⟩

theorem graded_renameRows {member : Member} {newAccount : Name} {table : Table Member.account}
    (h : AllGraded m) (hmember : m.table.find? member.account = some member)
    (htable : m.table.emplace? { member with account := newAccount, inByRep := true } = some table)
    (hvalid : newAccount ≠ invalidName) (rank : Nat) :
    ∀ row ∈ (renameRows table member.account newAccount rank).rows, Graded row := by
  intro row hrow
  obtain ⟨old, hold, rfl⟩ := Table.mem_update.mp hrow
  have hgraded : Graded old := by
    rcases (Table.mem_emplace? htable).mp (Table.mem_erase.mp hold).1 with rfl | hold
    · have hrow := h member (Table.mem_of_find? hmember)
      exact ⟨hrow.small, hrow.above⟩
    · exact h old hold
  unfold renameRepresentative
  split
  · exact ⟨hgraded.small, fun hpos => ⟨(hgraded.above hpos).1, hvalid⟩⟩
  · exact hgraded

theorem step_graded {s s' : State} (h : Step p call s s') (hcall : unforced call = true)
    (hs : Levels s) : AllGraded s'.members := by
  cases h with
  | aside haside => exact graded_of_core hs.graded haside.rows
  | migrates _ _ _ hrows _ => exact graded_of_core hs.graded hrows
  | enters _ hcreate =>
      simp only [create, bind_eq_ok, check_eq_ok, exists_const, expect_eq_ok, pure_eq_ok]
        at hcreate
      obtain ⟨_, table, htable, rfl⟩ := hcreate
      intro row hrow
      rcases (Table.mem_emplace? htable).mp hrow with rfl | hrow
      · exact graded_of_zero rfl
      · exact hs.graded row hrow
  | activates _ _ hactive =>
      simp only [setActive, bind_eq_ok, check_eq_ok, exists_const, checkPendingMember_eq_ok,
        decide_eq_true_eq, pure_eq_ok] at hactive
      obtain ⟨_, _, _, rfl⟩ := hactive
      exact graded_modifyMember hs.graded fun row _ => graded_of_zero rfl
  | drops _ _ _ _ => exact fun row hrow => hs.graded row (Table.mem_erase.mp hrow).1
  | opts hopt =>
      simp only [electionOpt, bind_eq_ok, check_eq_ok, exists_const, pure_eq_ok, getMember_eq_ok]
        at hopt
      obtain ⟨row, hrow, _, _, _, _, rfl⟩ := hopt
      refine graded_modifyMember hs.graded fun old hold => ?_
      have hgraded := hs.graded old (Table.mem_of_find? hold)
      exact ⟨hgraded.small, hgraded.above⟩
  | resigns _ _ _ _ _ => exact fun row hrow => hs.graded row (Table.mem_erase.mp hrow).1
  | renames _ hnew hmember _ _ _ _ htable =>
      exact graded_renameRows hs.graded hmember htable (invalid_not_account hnew) _
  | starts _ hstart _ =>
      obtain ⟨_, rfl, _, _, _, _, _, rfl⟩ := startElection_eq_ok hstart
      exact hs.graded
  | visits _ _ hvisit => exact (graded_visitMember hs.graded hvisit).1
  | groups hcurrent hgroups =>
      obtain ⟨_, hthinning, _⟩ := thinning_finishGroups hs hcurrent hgroups
      exact hthinning.graded
  | advances hcurrent hgroups _ _ _ _ _ =>
      obtain ⟨_, hthinning, _⟩ := thinning_finishGroups hs hcurrent hgroups
      exact hthinning.graded
  | concludes _ _ _ hboard _ hwinner hranks _ _ =>
      subst hboard
      exact graded_rankBoard hs (active_board hs.enrolled) hwinner hranks
  | seeds hseed =>
      rcases seed_eq_ok hseed with ⟨_, _, _, _, _, _, _, _, _, rfl⟩ |
        ⟨_, _, _, _, _, _, _, rfl⟩ | ⟨_, _, _, _, _, _, rfl⟩
      · exact hs.graded
      · exact hs.graded
      · exact hs.graded
  | votes hvote =>
      obtain ⟨_, _, _, _, _, _, _, _, _, _, _, rfl⟩ := vote_eq_ok hvote
      exact hs.graded
  | clears => exact absurd hcall (by simp [unforced, uninterrupted])
  | _ => exact hs.graded

/-- The next round has at most a quarter of the participants, and there are at most eight rounds. -/
theorem leveled_advances {s : State} (hs : Levels s) {electionTime maxSteps remaining : Nat}
    {b : Ballot} {data data' : PostRound} {configs : ElectionConfig} {config : RoundConfig}
    {next : ElectionState} (hcurrent : s.elections.current = some (.postRound data))
    (h : finishGroups p electionTime maxSteps (remainingVotes s.elections.votes data) (ballot s)
      data = .ok (remaining, b, data'))
    (hconfigs : makeElectionConfig data'.nextOutputIndex = .ok configs)
    (hconfig : configs.head? = some config)
    (hnext : (configs.length ≠ 1 ∧ ∃ seed roundEnd,
        next = .active ⟨data'.prevRound + 1, config, seed, roundEnd⟩) ∨
      (configs.length = 1 ∧ ∃ seeder, next = .final seeder)) :
    Leveled b.members.stats.ranks (some next) := by
  obtain ⟨_, hthinning, hround, hsame⟩ := thinning_finishGroups hs hcurrent h
  have hleveled := hs.leveled
  rw [hcurrent] at hleveled
  have hquartered := hleveled.2.1
  rw [← hround, ← hsame] at hquartered
  have hquarter := hthinning.quarter
  have hinside := hthinning.turning.handed.inside
  have hbound := hthinning.turning.handed.bound
  have hsmall : data'.nextOutputIndex < 2 ^ 16 := by omega
  obtain ⟨hpos, hparticipants, _, _⟩ := frontConfig_eq hsmall hconfigs hconfig
  rcases hnext with ⟨hmany, _, _, rfl⟩ | ⟨_, _, rfl⟩
  · refine ⟨hthinning.levels, ?_, wide_of_plan hsmall hconfigs hconfig hmany⟩
    dsimp only
    rw [hparticipants]
    exact hquartered.next (by omega)
  · have hrounds := hquartered.round_le (by omega)
    have hlevels := hthinning.levels
    exact hlevels.trans (by omega)

theorem step_levels {s s' : State} (h : Step p call s s') (hcall : unforced call = true)
    (hs : Levels s) : Levels s' := by
  have hnext := step_histogram h hcall hs.toHistogram
  refine ⟨hnext, step_graded h hcall hs, ?_⟩
  have hleveled := hs.leveled
  cases h with
  | aside haside =>
      rw [haside.current, haside.stats]
      exact hleveled
  | enters _ hcreate =>
      simp only [create, bind_eq_ok, check_eq_ok, exists_const, expect_eq_ok, pure_eq_ok]
        at hcreate
      obtain ⟨_, table, htable, rfl⟩ := hcreate
      exact hleveled
  | activates _ _ hactive =>
      simp only [setActive, bind_eq_ok, check_eq_ok, exists_const, checkPendingMember_eq_ok,
        decide_eq_true_eq, pure_eq_ok] at hactive
      obtain ⟨_, _, _, rfl⟩ := hactive
      exact hleveled
  | opts hopt =>
      simp only [electionOpt, bind_eq_ok, check_eq_ok, exists_const, pure_eq_ok, getMember_eq_ok]
        at hopt
      obtain ⟨row, hrow, _, _, _, _, rfl⟩ := hopt
      exact hleveled
  | @resigns _ member _ _ hrunning hmember hactive _ hstats =>
      have hidle := isIdle_of_not_running hrunning
      have htop := (leveled_idle hidle).mp hleveled
      refine (leveled_idle hidle).mpr (htop.of_le (length_uncount hactive hstats) fun k => ?_)
      have hbefore := hs.ranked.ranks k
      have hafter := hnext.ranked.ranks k
      have hle : ∀ q, (s.members.table.erase member.account).count q ≤ s.members.table.count q := by
        intro q
        rw [Table.count_erase hmember q]
        exact Nat.le_add_right _ _
      exact hafter.le.trans ((hle _).trans hbefore.ge)
  | schedules _ _ hreschedules =>
      rcases hreschedules with ⟨hnone, _⟩ | ⟨_, _, _, hregistration, _⟩
      · rw [hnone] at hleveled
        exact hleveled
      · rw [hregistration] at hleveled
        exact hleveled
  | unschedules _ _ hg hunset => exact absurd hunset (hs.enrolled.started _ hg)
  | aborts => exact absurd hcall (by simp [unforced, uninterrupted])
  | clears => exact absurd hcall (by simp [unforced, uninterrupted])
  | «extends» => exact absurd hcall (by simp [unforced])
  | empties => exact absurd hcall (by simp [unforced])
  | seeds hseed =>
      rcases seed_eq_ok hseed with ⟨_, _, _, _, _, hcurrent, _, _, _, rfl⟩ |
        ⟨_, _, _, _, hcurrent, _, _, rfl⟩ | ⟨_, _, _, hcurrent, _, _, rfl⟩
      · rw [hcurrent] at hleveled
        exact hleveled
      · rw [hcurrent] at hleveled
        exact hleveled
      · rw [hcurrent] at hleveled
        exact hleveled
  | starts _ hstart _ =>
      obtain ⟨_, rfl, _, _, _, _, _, rfl⟩ := startElection_eq_ok hstart
      exact rfl
  | visits hcurrent _ hvisit =>
      rw [hcurrent] at hleveled
      exact (graded_visitMember hs.graded hvisit).2.trans hleveled
  | reports hcurrent _ =>
      rw [hcurrent] at hleveled
      exact hleveled
  | opens hcurrent _ _ hconfigs hconfig hmany _ =>
      rw [hcurrent] at hleveled
      have hplaced := hs.placed
      rw [hcurrent] at hplaced
      have hlength := hplaced.2.length_eq hplaced.1
      have hvoters := voters_le hs.enrolled hs.counted
      have hcapped : s.members.stats.activeMembers ≤ 10000 := hs.capped
      obtain ⟨_, hparticipants, _, _⟩ := frontConfig_eq (by omega) hconfigs hconfig
      refine ⟨?_, ?_, wide_of_plan (by omega) hconfigs hconfig hmany⟩
      · have hnone : s.members.stats.ranks = [] := hleveled
        exact (congrArg List.length hnone).le
      · dsimp only
        rw [hparticipants, Quartered]
        omega
  | votes hvote =>
      obtain ⟨_, _, _, _, _, _, _, _, _, _, _, rfl⟩ := vote_eq_ok hvote
      exact hleveled
  | closes hcurrent _ _ =>
      rw [hcurrent] at hleveled
      exact ⟨hleveled.1.trans (Nat.le_succ _), hleveled.2.1, hleveled.2.2, Nat.zero_le _⟩
  | groups hcurrent hgroups =>
      rw [hcurrent] at hleveled
      obtain ⟨_, hthinning, hround, hconfig⟩ := thinning_finishGroups hs hcurrent hgroups
      refine ⟨hthinning.levels, ?_, hthinning.wide, hthinning.quarter⟩
      rw [hround, hconfig]
      exact hleveled.2.1
  | rereports hcurrent _ =>
      rw [hcurrent] at hleveled
      exact hleveled
  | advances hcurrent hgroups _ hconfigs hconfig hcases _ =>
      exact leveled_advances hs hcurrent hgroups hconfigs hconfig hcases
  | concludes _ _ hround hboard _ hwinner hranks _ _ =>
      subst hboard
      have hshort := hs.short hround
      have hname := hs.enrolled.named _ (active_board hs.enrolled _ hwinner)
      exact onTop_rankBoard (by omega) (invalid_not_account hname) hranks
  | _ => exact hleveled

theorem untouched_levels {s : State} (h : Untouched s) : Levels s := by
  refine ⟨untouched_histogram h, ?_, ?_⟩
  · rw [h.1]
    exact fun _ hrow => absurd hrow List.not_mem_nil
  · rw [h.1]
    exact fun _ htop => absurd htop (Option.not_mem_none _)

theorem Levels.at_time {s : State} (h : Levels s) (now : Nat) : Levels { s with now := now } :=
  { h.toHistogram.at_time now with
    graded := h.graded
    leveled := h.leveled }

/-! ### What a distribution finds -/

/-- An exact histogram, short enough to be added up, with at most one member on top. -/
structure Exact (members : Members) : Prop where
  counts : CountsRanks members.stats.ranks (members.table.rows.map Member.electionRank)
  top : OnTop members.stats.ranks
  small : members.stats.ranks.sum < 2 ^ 16

theorem count_electionRank {rows : List Member} (h : ∀ row ∈ rows, Graded row) {rank : Nat}
    (hpos : 0 < rank) : (rows.map Member.electionRank).count rank = rows.countP (hasRank rank) := by
  rw [List.count, List.countP_map]
  refine List.countP_congr fun row hrow => ?_
  simp only [hasRank, Function.comp_apply, beq_iff_eq, Bool.and_eq_true, decide_eq_true_eq]
  constructor
  · rintro rfl
    obtain ⟨hactive, hvalid⟩ := (h row hrow).above hpos
    exact ⟨⟨hactive, rfl⟩, hvalid⟩
  · exact fun h => h.1.2

theorem countP_ranks_le {rows : List Member} (h : ∀ row ∈ rows, Graded row) :
    rows.countP (hasRank 0) + (rows.map Member.electionRank).countP (fun rank => 0 < rank) ≤
      rows.countP (hasStatus .activeMember) := by
  rw [List.countP_map]
  induction rows with
  | nil => exact le_rfl
  | cons row rows ih =>
      rw [List.forall_mem_cons] at h
      have hrest := ih h.2
      have hrow : (if hasRank 0 row = true then 1 else 0) +
          (if 0 < row.electionRank then 1 else 0) ≤
            if hasStatus .activeMember row = true then 1 else 0 := by
        simp only [hasRank, hasStatus, Bool.and_eq_true, decide_eq_true_eq]
        have habove := h.1.above
        split_ifs <;> first | omega | tauto
      simp only [List.countP_cons, Function.comp_apply, decide_eq_true_eq]
      omega

theorem exact_of_ranked {members : Members} (hgraded : AllGraded members)
    (hranked : Ranked members fun _ => false) (htop : OnTop members.stats.ranks) :
    Exact members := by
  have hranks : ∀ rank, members.stats.ranks.getD rank 0 =
      members.table.rows.countP (hasRank rank) := by
    intro rank
    rw [hranked.ranks]
    refine count_congr fun row _ => ?_
    exact Bool.and_true _
  have hcounts : CountsRanks members.stats.ranks (members.table.rows.map Member.electionRank) := by
    intro rank hpos
    rw [hranks, count_electionRank hgraded hpos]
  refine ⟨hcounts, htop, ?_⟩
  have htail := sum_drop_tail hcounts 0
  have hfirst := hranks 0
  have hle := countP_ranks_le hgraded
  have hbound : members.table.rows.countP (hasStatus .activeMember) < 2 ^ 16 := hranked.bound
  cases hlist : members.stats.ranks with
  | nil => exact Nat.two_pow_pos 16
  | cons first counts =>
      rw [hlist] at htail hfirst
      rw [List.tail_cons, List.drop_zero] at htail
      rw [List.getD_cons_zero] at hfirst
      rw [List.sum_cons]
      omega

theorem Levels.exact {s : State} (hs : Levels s) (hidle : isIdle s.elections.current = true) :
    Exact s.members := by
  refine exact_of_ranked hs.graded ?_ ((leveled_idle hidle).mp hs.leveled)
  exact hs.ranked.congr fun row _ _ _ => (waiting_idle hs.enrolled hidle _).symm

/-- When an election is over, its ranks are ready for a distribution. -/
theorem exact_rankBoard {s : State} (hs : Levels s) {winner : Name} {members : Members}
    (hround : InLastRound s)
    (hwinner : winner ∈ (s.elections.votes.index Vote.byIndex).map Vote.member)
    (h : rankBoard s.members ((s.elections.votes.index Vote.byIndex).map Vote.member) winner
      (boardRank s.members) = .ok members) : Exact members := by
  have hactive := active_board hs.enrolled
  have hshort := hs.short hround
  have hname := hs.enrolled.named _ (hactive _ hwinner)
  exact exact_of_ranked (graded_rankBoard hs hactive hwinner h)
    (ranked_rankBoard hs.toHistogram hround hwinner h)
    (onTop_rankBoard (by omega) (invalid_not_account hname) h)

/-- A distribution gives all members together what it uses, and no rank is too high for it. -/
theorem Exact.shared {members : Members} (h : Exact members) {total used : Asset}
    {shares : List Asset}
    (hshares : makeDistribution members.stats.ranks total = .ok (shares, used)) :
    (∀ row ∈ members.table.rows, row.electionRank ≤ shares.length) ∧
      (members.table.rows.map fun row => owed shares row.electionRank).sum = used.amount := by
  have hspread := makeDistribution_spread h.top h.small hshares
  obtain ⟨hbound, hsum⟩ := hspread.members h.counts
  rw [List.map_map] at hsum
  exact ⟨fun row hrow => hbound _ (List.mem_map_of_mem hrow), hsum⟩

theorem reachable_levels {s : State}
    (h : Reachable p (fun _ call => unforced call = true) s) : Levels s :=
  reachable_of_steps Levels h (fun _ hs => untouched_levels hs)
    (fun _ now _ _ hs => hs.at_time now)
    fun _ _ _ hcall hstep hs => step_levels hstep hcall hs

/-- No two members have the highest rank. -/
theorem Exact.unique {members : Members} (h : Exact members) {a b : Member}
    (ha : a ∈ members.table.rows) (hb : b ∈ members.table.rows) (hpos : 0 < a.electionRank)
    (hatop : a.electionRank + 1 = members.stats.ranks.length)
    (hsame : b.electionRank = a.electionRank) : a = b := by
  by_contra hne
  have hlt : a.electionRank < members.stats.ranks.length := by omega
  have hlast : members.stats.ranks.getLast? =
      some (members.stats.ranks.getD a.electionRank 0) := by
    rw [List.getLast?_eq_getElem?, ← hatop, Nat.add_sub_cancel, List.getElem?_eq_getElem hlt,
      List.getD_eq_getElem _ _ hlt]
  have hone := h.top _ hlast
  have hpair : [a, b].Subperm members.table.rows := by
    refine List.subperm_of_subset ?_ ?_
    · exact List.nodup_cons.mpr ⟨fun hmem => hne (List.mem_singleton.mp hmem),
        List.nodup_singleton b⟩
    · rintro row hrow
      rcases List.mem_pair.mp hrow with rfl | rfl
      · exact ha
      · exact hb
  obtain ⟨rows, hperm, hsub⟩ := hpair
  have htwo := (hsub.map Member.electionRank).count_le a.electionRank
  rw [(hperm.map Member.electionRank).count_eq, ← h.counts _ hpos, List.map_cons, List.map_singleton, hsame, List.count_cons_self,
    List.count_singleton_self] at htwo
  omega

/-- In every run, while no election is in progress, a distribution by the ranks of the statistics
gives all members together exactly what it uses, no member has a rank beyond its shares, and one
member at most has the highest rank. -/
theorem distributions_shared (p : Platform) (s : State)
    (h : Reachable p (fun _ call => unforced call = true) s)
    (hidle : isIdle s.elections.current = true) :
    (∀ total shares used, makeDistribution s.members.stats.ranks total = .ok (shares, used) →
      (∀ row ∈ s.members.table.rows, row.electionRank ≤ shares.length) ∧
      (s.members.table.rows.map fun row => owed shares row.electionRank).sum = used.amount) ∧
    ∀ a ∈ s.members.table.rows, ∀ b ∈ s.members.table.rows, 0 < a.electionRank →
      a.electionRank + 1 = s.members.stats.ranks.length → b.electionRank = a.electionRank →
      a = b := by
  have hexact := (reachable_levels h).exact hidle
  refine ⟨fun total shares used hshares => hexact.shared hshares, ?_⟩
  intro a ha b hb hpos hatop hsame
  exact hexact.unique ha hb hpos hatop hsame

/-- After the first election its winner gets all of a distribution. -/
theorem firstElection_shared :
    ∃ s, runFromGenesis host (fun _ call => unforced call = true) firstElection = some s ∧
      s.members.stats.ranks = [1, 1] ∧
      (s.members.table.rows.map fun row => owed [eos 200] row.electionRank).sum = 200 := by
  have hrun : (runFromGenesis host (fun _ call => unforced call = true) firstElection).any
      (fun s => isIdle s.elections.current && s.members.stats.ranks = [1, 1]) = true := by
    decide +kernel
  obtain ⟨s, hs, hstate⟩ := (Option.any_eq_true _ _).mp hrun
  rw [Bool.and_eq_true, decide_eq_true_eq] at hstate
  obtain ⟨hidle, hranks⟩ := hstate
  have hshared := (distributions_shared host s (reachable_of_run hs) hidle).1
  refine ⟨s, hs, hranks, (hshared (eos 200) [eos 200] (eos 200) ?_).2⟩
  rw [hranks]
  rfl

end Eden.RankLevels
