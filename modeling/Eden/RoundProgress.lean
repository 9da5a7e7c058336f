import Eden.VoteShape

/-!
The loops of an election go through. Voters are enrolled and groups are finished without an abort,
in any state that an election reaches and for any number of steps.
-/

namespace Eden.RoundProgress

open Eden.ExceptReasoning
open Eden.SortedTable
open Eden.ChainPrimitives
open Eden.ElectionPlan
open Eden.ContractState
open Eden.Runtime
open Eden.MemberTable
open Eden.ElectionRounds
open Eden.ElectionPhases
open Eden.ContractActions
open Eden.Transactions
open Eden.HostFunctions
open Eden.ContractSteps
open Eden.ActionSteps
open Eden.Electorate
open Eden.MemberStatistics
open Eden.GroupPartition
open Eden.PlannedRounds
open Eden.VotePositions
open Eden.VoteShape

variable {p : Platform} {call : Call}

/-! ### What the parts of a turn need -/

/-- A member without a row can be entered at the next position. -/
theorem addVoter_isOk (rng : ElectionRng) {votes : VoteTable} {round next : Nat} {member : Name}
    (hfilled : Filled votes round 0 next) (hnew : votes.find? member = none) :
    ∃ result, addVoter p votes rng round next member = .ok result := by
  have hle := p.uniformInt_le 16 next rng
  simp only [addVoter]
  by_cases hpos : (p.uniformInt 16 next rng).1 = next
  · obtain ⟨votes', hemplace⟩ := Table.emplace?_isSome
      (a := (⟨member, round, (p.uniformInt 16 next rng).1, emptyName⟩ : Vote)) hnew
    rw [if_pos hpos, ok_bind, hemplace]
    exact ⟨_, rfl⟩
  · obtain ⟨v, hv, hround, hindex⟩ := hfilled.full _ (Nat.zero_le _) (lt_of_le_of_ne hle hpos)
    have hkey : v.byIndex = round * 2 ^ 16 + (p.uniformInt 16 next rng).1 := by
      rw [Vote.byIndex, hround, hindex]
    have hsome : (voteAt votes round (p.uniformInt 16 next rng).1).isSome = true := by
      rw [voteAt, List.find?_isSome]
      exact ⟨v, Table.mem_index.mpr hv, decide_eq_true hkey⟩
    obtain ⟨old, hold⟩ := Option.isSome_iff_exists.mp hsome
    have hnew' : (votes.replace { old with index := next }).find? member = none := by
      rw [Table.find?_replace, hnew]
      simp
    obtain ⟨votes', hemplace⟩ := Table.emplace?_isSome
      (a := (⟨member, round, (p.uniformInt 16 next rng).1, emptyName⟩ : Vote)) hnew'
    rw [if_neg hpos, getRow, hold, expect_some, ok_bind, pure_bind, hemplace]
    exact ⟨_, rfl⟩

/-- Members who have a row can be given a rank. -/
theorem setRank_isOk (rank : Nat) (representative : Name) {m : Members} {account : Name}
    (h : statusOf m.table account ≠ none) :
    ∃ m', setRank m account rank representative = .ok m' := by
  rw [Ne, statusOf_eq_none] at h
  obtain ⟨row, hrow⟩ := Option.ne_none_iff_exists'.mp h
  rw [setRank, hrow, getRow, expect_some]
  exact ⟨_, rfl⟩

theorem setRanksOf_isOk (rank : Nat) (representative : Name) {voters : List Name} {m : Members}
    (h : ∀ voter ∈ voters, statusOf m.table voter ≠ none) :
    ∃ m', setRanksOf m voters rank representative = .ok m' := by
  induction voters generalizing m with
  | nil => exact ⟨m, rfl⟩
  | cons voter voters ih =>
      obtain ⟨m₁, hrank⟩ := setRank_isOk rank representative (h voter List.mem_cons_self)
      have hrest : ∀ v ∈ voters, statusOf m₁.table v ≠ none := by
        intro v hv
        rw [statusOf_setRank hrank]
        exact h v (List.mem_cons_of_mem voter hv)
      obtain ⟨m', hranks⟩ := ih hrest
      refine ⟨m', ?_⟩
      rw [setRanksOf, List.foldlM_cons, hrank]
      exact hranks

/-! ### Votes stay in their group -/

/-- Whoever is voted for in a round is in the group of the voter. -/
def Cast (votes : VoteTable) (round : Nat) (config : RoundConfig) : Prop :=
  ∀ v ∈ votes.rows, v.round = round → v.candidate ≠ emptyName →
    ∃ w ∈ votes.rows, w.round = round ∧ w.member = v.candidate ∧
      config.memberIndexToGroup w.index = config.memberIndexToGroup v.index

/-- Nobody has voted in a round. -/
def Uncast (votes : VoteTable) (round : Nat) : Prop :=
  ∀ v ∈ votes.rows, v.round = round → v.candidate = emptyName

theorem Uncast.cast {votes : VoteTable} {round : Nat} (h : Uncast votes round)
    (config : RoundConfig) : Cast votes round config :=
  fun v hv hround hne => absurd (h v hv hround) hne

theorem uncast_addVoter {votes votes' : VoteTable} {rng rng' : ElectionRng} {round next : Nat}
    {member : Name} (h : addVoter p votes rng round next member = .ok (votes', rng'))
    (hvotes : Uncast votes round) : Uncast votes' round := by
  intro v hv hround
  rcases addVoter_eq_ok h with hemplace | ⟨old, pos, _, hold, _, hemplace⟩
  · rcases (Table.mem_emplace? hemplace).mp hv with rfl | hv
    · rfl
    · exact hvotes v hv hround
  · rcases (Table.mem_emplace? hemplace).mp hv with rfl | hv
    · rfl
    · rcases Table.mem_replace.mp hv with ⟨hv, _⟩ | ⟨rfl, _⟩
      · exact hvotes v hv hround
      · exact hvotes old hold hround

theorem Cast.congr {votes votes' : VoteTable} {round : Nat} {config : RoundConfig}
    (h : Cast votes round config)
    (hrows : ∀ v : Vote, v.round = round → (v ∈ votes'.rows ↔ v ∈ votes.rows)) :
    Cast votes' round config := by
  intro v hv hround hne
  obtain ⟨w, hw, hw', hmember, hgroup⟩ := h v ((hrows v hround).mp hv) hround hne
  exact ⟨w, (hrows w hw').mpr hw, hw', hmember, hgroup⟩

/-- A vote for a member of the own group. -/
theorem cast_replace {votes : VoteTable} {round : Nat} {config : RoundConfig} {own other : Vote}
    (h : Cast votes round config) (hown : own ∈ votes.rows) (hother : other ∈ votes.rows)
    (hround : other.round = round)
    (hgroup : config.memberIndexToGroup own.index = config.memberIndexToGroup other.index) :
    Cast (votes.replace { own with candidate := other.member }) round config := by
  -- every row of the old table has one with the same member and position in the new one
  have hkept : ∀ u ∈ votes.rows, ∃ w ∈ (votes.replace { own with candidate := other.member }).rows,
      w.round = u.round ∧ w.member = u.member ∧ w.index = u.index := by
    intro u hu
    by_cases hkey : u.member = own.member
    · have hsame : u = own := Table.eq_of_key_eq hu hown hkey
      refine ⟨{ own with candidate := other.member }, ?_, ?_⟩
      · exact Table.mem_replace.mpr (.inr ⟨rfl, own, Table.find?_of_mem hown⟩)
      · rw [hsame]
        exact ⟨rfl, rfl, rfl⟩
    · exact ⟨u, Table.mem_replace.mpr (.inl ⟨hu, hkey⟩), rfl, rfl, rfl⟩
  intro v hv hv' hne
  rcases Table.mem_replace.mp hv with ⟨hv, _⟩ | ⟨rfl, _⟩
  · obtain ⟨u, hu, hu', humember, hugroup⟩ := h v hv hv' hne
    obtain ⟨w, hw, hw', hwmember, hwindex⟩ := hkept u hu
    exact ⟨w, hw, hw'.trans hu', hwmember.trans humember, by rw [hwindex, hugroup]⟩
  · obtain ⟨w, hw, hw', hwmember, hwindex⟩ := hkept other hother
    exact ⟨w, hw, hw'.trans hround, hwmember, by rw [hwindex, ← hgroup]⟩

/-! ### The group at the front -/

section Front

variable {votes : VoteTable} {round low high k : Nat} {rest : List Vote}

/-- The first rows are those with the least positions. -/
theorem mem_take_iff (h : InOrder votes round low high rest) {v : Vote} :
    v ∈ rest.take k ↔ v ∈ rest ∧ v.index < low + k := by
  have hindices := h.indices
  have htake : ∀ v ∈ rest.take k, v.index < low + k := by
    intro v hv
    have hmem := List.mem_map_of_mem (f := Vote.index) hv
    rw [List.map_take, hindices] at hmem
    rcases le_total k (high - low) with hle | hge
    · rw [List.take_range'_of_length_ge hle, List.mem_range'_1] at hmem
      exact hmem.2
    · rw [List.take_range'_of_length_le hge, List.mem_range'_1] at hmem
      omega
  have hdrop : ∀ v ∈ rest.drop k, low + k ≤ v.index := by
    intro v hv
    have hmem := List.mem_map_of_mem (f := Vote.index) hv
    rw [List.map_drop, hindices, List.drop_range', List.mem_range'_1] at hmem
    omega
  constructor
  · exact fun hv => ⟨List.mem_of_mem_take hv, htake v hv⟩
  · rintro ⟨hv, hlt⟩
    rw [← List.take_append_drop k rest, List.mem_append] at hv
    rcases hv with hv | hv
    · exact hv
    · exact absurd (hdrop v hv) (not_le.mpr hlt)

variable {c : RoundConfig} {g : Nat}

/-- The rows at the front of a round, from the first position of a group on, are the group. -/
theorem mem_group_iff (hc : Divisible c)
    (h : InOrder votes round (c.groupToFirstMemberIndex g) c.numParticipants rest) {v : Vote} :
    v ∈ rest.take (groupSize c g) ↔ v ∈ rest ∧ c.memberIndexToGroup v.index = g := by
  rw [mem_take_iff h, ← groupToFirstMemberIndex_succ]
  refine and_congr_right fun hv => ?_
  obtain ⟨hrow, hround⟩ := (h.mem v).mp hv
  have hbounds := h.filled.within v hrow hround
  rw [memberIndexToGroup_eq_iff hc hbounds.2]
  exact ⟨fun hlt => ⟨hbounds.1, hlt⟩, fun hboth => hboth.2⟩

theorem cast_eraseVotes (hc : Divisible c)
    (h : InOrder votes round (c.groupToFirstMemberIndex g) c.numParticipants rest)
    (hcast : Cast votes round c) :
    Cast (eraseVotes votes (rest.take (groupSize c g))) round c := by
  intro v hv hround hne
  obtain ⟨hrow, hother⟩ := mem_eraseVotes.mp hv
  obtain ⟨w, hw, hw', hmember, hgroup⟩ := hcast v hrow hround hne
  refine ⟨w, mem_eraseVotes.mpr ⟨hw, ?_⟩, hw', hmember, hgroup⟩
  -- a group is taken out as a whole
  intro u hu heq
  obtain ⟨hurest, hugroup⟩ := (mem_group_iff hc h).mp hu
  have hsame : w = u := Table.eq_of_key_eq hw ((h.mem u).mp hurest).1 heq
  rw [← hsame, hgroup] at hugroup
  exact hother v ((mem_group_iff hc h).mpr ⟨(h.mem v).mpr ⟨hrow, hround⟩, hugroup⟩) rfl

/-- The winner of a group is one of its members, and no row of it is left. -/
theorem winner_mem (hc : Divisible c)
    (h : InOrder votes round (c.groupToFirstMemberIndex g) c.numParticipants rest)
    (hcast : Cast votes round c) (hnames : ∀ v ∈ votes.rows, isAccountName v.member = true)
    (hne : rest.take (groupSize c g) ≠ [])
    (hgoes : goesOn (groupWinner (rest.take (groupSize c g)))) :
    ∃ w ∈ rest.take (groupSize c g), w.member = groupWinner (rest.take (groupSize c g)) := by
  have hrows : ∀ v ∈ rest.take (groupSize c g), v ∈ votes.rows ∧ v.round = round :=
    fun v hv => (h.mem v).mp (List.mem_of_mem_take hv)
  obtain ⟨v, hv, hcandidate, hwinner⟩ := groupWinner_mem hne
    (fun v hv => hnames v (hrows v hv).1) hgoes
  rw [← hcandidate] at hwinner ⊢
  obtain ⟨hrow, hround⟩ := hrows v hv
  obtain ⟨w, hw, hw', hmember, hgroup⟩ := hcast v hrow hround hwinner
  refine ⟨w, (mem_group_iff hc h).mpr ⟨(h.mem w).mpr ⟨hw, hw'⟩, ?_⟩, hmember⟩
  rw [hgroup]
  exact ((mem_group_iff hc h).mp hv).2

theorem find?_eraseVotes {group : List Vote} {w : Vote} (hw : w ∈ group) :
    (eraseVotes votes group).find? w.member = none := by
  rw [Table.find?_eq_none]
  intro v hv heq
  exact (mem_eraseVotes.mp hv).2 w hw heq

end Front

/-! ### A round is finished -/

/-- What the loop over the groups relies on, beside the positions. -/
structure Settled (votes : VoteTable) (data : PostRound) : Prop where
  divisible : Divisible data.prevConfig
  boundary : ∃ g ≤ data.prevConfig.numGroups,
    data.nextInputIndex = data.prevConfig.groupToFirstMemberIndex g
  cast : Cast votes data.prevRound data.prevConfig
  uncast : Uncast votes (data.prevRound + 1)

/-- What holds at each turn of the loop: the rows still to be read, the voters and their rows. -/
structure Turning (P : Name → Prop) (rest : List Vote) (b : Ballot) (data : PostRound) : Prop where
  handed : Handed b.votes data
  order : InOrder b.votes data.prevRound data.nextInputIndex data.prevConfig.numParticipants rest
  settled : Settled b.votes data
  voters : Voters P b.votes
  rows : ∀ a, P a → statusOf b.members.table a ≠ none

section Turns

variable {P : Name → Prop} {rest : List Vote} {b b' : Ballot} {data data' : PostRound}

/-- The next group starts at the next index and is not empty. -/
theorem Turning.group (h : Turning P rest b data) (hrest : rest ≠ []) :
    ∃ g < data.prevConfig.numGroups,
      data.nextInputIndex = data.prevConfig.groupToFirstMemberIndex g ∧
      data.prevConfig.groupSizeAt data.nextInputIndex = groupSize data.prevConfig g ∧
      0 < groupSize data.prevConfig g ∧ groupSize data.prevConfig g ≤ rest.length := by
  have hc := h.settled.divisible
  obtain ⟨g, hg, hindex⟩ := h.settled.boundary
  have hlength := h.order.length_eq
  have hlast := groupToFirstMemberIndex_numGroups hc
  have hlt : g < data.prevConfig.numGroups := by
    refine lt_of_le_of_ne hg ?_
    rintro rfl
    rw [hindex, hlast, Nat.sub_self, List.length_eq_zero_iff] at hlength
    exact hrest hlength
  have hnext := first_succ_le data.prevConfig hlt
  rw [hlast, groupToFirstMemberIndex_succ] at hnext
  refine ⟨g, hlt, hindex, ?_, groupSize_pos hc hlt, by omega⟩
  rw [hindex]
  exact groupSizeAt_first hc g

theorem Turning.next (hP : ∀ a, P a → isAccountName a = true) {electionTime k : Nat}
    (h : Turning P rest b data) (hpos : 0 < k) (hk : k ≤ rest.length)
    (hsize : k = data.prevConfig.groupSizeAt data.nextInputIndex)
    (hgroup : finishGroup p electionTime b data (rest.take k) = .ok (b', data')) :
    Turning P (rest.drop k) b' data' := by
  have hrest : rest ≠ [] := by
    rintro rfl
    exact absurd (hpos.trans_le hk) (lt_irrefl 0)
  have hc := h.settled.divisible
  obtain ⟨g, hg, hindex, hsizeAt, _, _⟩ := h.group hrest
  rw [hsizeAt] at hsize
  obtain ⟨hhanded, horder⟩ := handed_finishGroup hpos hk hgroup h.handed h.order
  have hrows : ∀ v ∈ rest.take k, v ∈ b.votes.rows ∧ v.round = data.prevRound :=
    fun v hv => (h.order.mem v).mp (List.mem_of_mem_take hv)
  have hvoters : Voters P b'.votes := by
    refine voters_finishGroup hP hgroup ?_ ?_ h.voters
    · intro hnil
      have hlength := congrArg List.length hnil
      rw [List.length_take, List.length_nil] at hlength
      omega
    · exact fun v hv => h.voters v (hrows v hv).1
  have hcast : Cast (eraseVotes b.votes (rest.take k)) data.prevRound data.prevConfig := by
    have horder := h.order
    rw [hindex] at horder
    rw [hsize]
    exact cast_eraseVotes hc horder h.settled.cast
  have huncast : Uncast (eraseVotes b.votes (rest.take k)) (data.prevRound + 1) :=
    fun v hv => h.settled.uncast v (mem_eraseVotes.mp hv).1
  have hnarrow := narrow_eraseVotes (rest.take k) h.handed.narrow
  have hbound := h.handed.bound
  have houtput := h.handed.order
  have hinside := h.handed.inside
  have hstatus : ∀ a, P a → statusOf b'.members.table a ≠ none := by
    obtain ⟨_, hranks, _⟩ := finishGroup_eq_ok hgroup
    intro a ha
    rw [statusOf_setRanksOf hranks]
    exact h.rows a ha
  have hnext : (data.nextInputIndex + (rest.take k).length) % 2 ^ 16 =
      data.prevConfig.groupToFirstMemberIndex (g + 1) := by
    rw [List.length_take, Nat.min_eq_left hk, hindex, hsize]
    exact next_position hc hbound hg
  refine ⟨hhanded, horder, ?_, hvoters, hstatus⟩
  obtain ⟨rng, _, ⟨_, hadd, rfl⟩ | ⟨_, hvotes, rfl⟩⟩ := finishGroup_eq_ok hgroup
  · refine ⟨hc, ⟨g + 1, hg, hnext⟩, ?_, uncast_addVoter hadd huncast⟩
    refine hcast.congr fun v hv => addVoter_other hadd hnarrow (by omega) ?_
    rw [hv]
    exact (Nat.lt_succ_self _).ne
  · rw [hvotes]
    exact ⟨hc, ⟨g + 1, hg, hnext⟩, hcast, huncast⟩

theorem Turning.finishGroup_isOk (hP : ∀ a, P a → isAccountName a = true) (h : Turning P rest b data)
    (hrest : rest ≠ []) (electionTime : Nat) :
    ∃ result, finishGroup p electionTime b data
      (rest.take (data.prevConfig.groupSizeAt data.nextInputIndex)) = .ok result := by
  have hc := h.settled.divisible
  obtain ⟨g, hg, hindex, hsizeAt, hpos, hsize⟩ := h.group hrest
  rw [hsizeAt]
  have horder := h.order
  rw [hindex] at horder
  have hrows : ∀ v ∈ rest.take (groupSize data.prevConfig g),
      v ∈ b.votes.rows ∧ v.round = data.prevRound :=
    fun v hv => (h.order.mem v).mp (List.mem_of_mem_take hv)
  have hne : rest.take (groupSize data.prevConfig g) ≠ [] := by
    intro hnil
    have hlength := congrArg List.length hnil
    rw [List.length_take, List.length_nil] at hlength
    omega
  have hranks : ∀ voter ∈ (rankOrder (rest.take (groupSize data.prevConfig g))).filter
      (· ≠ groupWinner (rest.take (groupSize data.prevConfig g))),
      statusOf b.members.table voter ≠ none := by
    intro voter hvoter
    have hmem := List.mem_of_mem_filter hvoter
    simp only [rankOrder, List.map_append, List.mem_append, List.mem_map, List.mem_filter] at hmem
    obtain ⟨v, ⟨hv, _⟩, rfl⟩ | ⟨v, ⟨hv, _⟩, rfl⟩ := hmem
    · exact h.rows _ (h.voters v (hrows v hv).1).1
    · exact h.rows _ (h.voters v (hrows v hv).1).1
  obtain ⟨m, hm⟩ := setRanksOf_isOk data.prevRound
    (groupWinner (rest.take (groupSize data.prevConfig g))) hranks
  simp only [finishGroup, hm]
  by_cases hgoes : groupWinner (rest.take (groupSize data.prevConfig g)) % 16 = 0
  · obtain ⟨w, hw, hmember⟩ := winner_mem hc horder h.settled.cast
      (fun v hv => hP _ (h.voters v hv).1) hne hgoes
    have hnew : (eraseVotes b.votes (rest.take (groupSize data.prevConfig g))).find?
        w.member = none :=
      find?_eraseVotes hw
    rw [hmember] at hnew
    have houtput : Filled (eraseVotes b.votes (rest.take (groupSize data.prevConfig g)))
        (data.prevRound + 1) 0 data.nextOutputIndex := by
      refine h.handed.output.congr fun v hv => mem_eraseVotes_other hrows ?_
      rw [hv]
      exact (Nat.lt_succ_self _).ne'
    obtain ⟨result, hadd⟩ := addVoter_isOk (p := p) data.rng houtput hnew
    simp only [if_pos hgoes, hadd, ok_bind]
    exact ⟨_, rfl⟩
  · simp only [if_neg hgoes, ok_bind]
    exact ⟨_, rfl⟩

/-- The loop over the groups goes through. -/
theorem Turning.finishGroups_isOk (hP : ∀ a, P a → isAccountName a = true) (electionTime : Nat)
    (maxSteps : Nat) (h : Turning P rest b data) :
    ∃ result, finishGroups p electionTime maxSteps rest b data = .ok result := by
  induction maxSteps generalizing rest b data with
  | zero => exact ⟨_, rfl⟩
  | succ maxSteps ih =>
      cases rest with
      | nil => exact ⟨_, rfl⟩
      | cons v rest =>
          have hne : v :: rest ≠ [] := List.cons_ne_nil v rest
          obtain ⟨g, _, _, hsizeAt, hpos, hsize⟩ := h.group hne
          obtain ⟨⟨b₁, data₁⟩, hgroup⟩ := h.finishGroup_isOk (p := p) hP hne electionTime
          have hstep := h.next hP (hsizeAt ▸ hpos) (hsizeAt ▸ hsize) rfl hgroup
          obtain ⟨result, hresult⟩ := ih hstep
          refine ⟨result, ?_⟩
          rw [finishGroups, hsizeAt, decide_eq_true ⟨hpos, hsize⟩, ensure_true, ok_bind,
            ← hsizeAt, hgroup, ok_bind]
          exact hresult

end Turns

/-! ### From step to step -/

/-- The votes are ready for the next loop. -/
def Ready (votes : VoteTable) : Option ElectionState → Prop
  | some (.initVoters data) => Uncast votes 0 ∧ ∀ v ∈ votes.rows, v.member ≤ data.lastProcessed
  | some (.active round) => Divisible round.config ∧ Cast votes round.round round.config
  | some (.postRound data) => Settled votes data
  | _ => True

/-- What is known of the votes and their groups at any time. -/
structure Progressing (s : State) : Prop extends Arranged s where
  ready : Ready s.elections.votes s.elections.current

/-- The loop over the groups can start. -/
theorem Progressing.turning {s : State} (h : Progressing s) {data : PostRound}
    (hcurrent : s.elections.current = some (.postRound data)) :
    Turning (fun a => isActive s.members.table a = true)
      (remainingVotes s.elections.votes data) (ballot s) data := by
  have hplaced := h.placed
  have hready := h.ready
  rw [hcurrent] at hplaced hready
  have hhanded : Handed s.elections.votes data := hplaced
  refine ⟨hhanded, hhanded.inOrder, hready, h.enrolled.voters, ?_⟩
  intro a ha
  rw [isActive_iff_status] at ha
  change statusOf s.members.table a ≠ none
  rw [ha]
  simp

theorem settled_finishGroups {s : State} (hs : Progressing s) {electionTime maxSteps remaining : Nat}
    {b : Ballot} {data data' : PostRound}
    (hcurrent : s.elections.current = some (.postRound data))
    (h : finishGroups p electionTime maxSteps (remainingVotes s.elections.votes data) (ballot s)
      data = .ok (remaining, b, data')) : Settled b.votes data' := by
  obtain ⟨_, hturning, _⟩ := finishGroups_preserves
    (Turning fun a => isActive s.members.table a = true)
    (fun _ _ _ _ _ _ hpos hk hsize hgroup ht => ht.next hs.enrolled.named hpos hk hsize hgroup) h
    (hs.turning hcurrent)
  exact hturning.settled

theorem ready_visitMember {s : State} (hs : Progressing s) {b : Ballot} {data data' : InitVoters}
    {member : Member} {rest : List Member}
    (hcurrent : s.elections.current = some (.initVoters data))
    (habove : s.members.table.above data.lastProcessed = member :: rest)
    (h : visitMember p (ballot s) data member = .ok (b, data')) :
    Ready b.votes (some (.initVoters data')) := by
  have hready := hs.ready
  rw [hcurrent] at hready
  obtain ⟨huncast, hbehind⟩ := hready
  have hlater : data.lastProcessed < member.account :=
    (Table.mem_above.mp (habove ▸ List.mem_cons_self)).2
  have hkept : ∀ v ∈ s.elections.votes.rows, v.member ≤ member.account :=
    fun v hv => (hbehind v hv).trans hlater.le
  unfold visitMember at h
  split at h
  · split at h
    · simp only [bind_eq_ok, pure_eq_ok, Prod.mk.injEq] at h
      obtain ⟨⟨votes, rng⟩, hadd, rfl, rfl⟩ := h
      refine ⟨uncast_addVoter hadd huncast, ?_⟩
      intro v hv
      rcases addVoter_eq_ok hadd with hemplace | ⟨old, pos, _, hold, _, hemplace⟩
      · rcases (Table.mem_emplace? hemplace).mp hv with rfl | hv
        · exact le_rfl
        · exact hkept v hv
      · rcases (Table.mem_emplace? hemplace).mp hv with rfl | hv
        · exact le_rfl
        · rcases Table.mem_replace.mp hv with ⟨hv, _⟩ | ⟨rfl, _⟩
          · exact hkept v hv
          · exact hkept old hold
    · simp only [bind_eq_ok, pure_eq_ok, Prod.mk.injEq] at h
      obtain ⟨_, _, rfl, rfl⟩ := h
      exact ⟨huncast, hkept⟩
  · simp only [pure_eq_ok, Prod.mk.injEq] at h
    obtain ⟨rfl, rfl⟩ := h
    exact ⟨huncast, hkept⟩

theorem settled_closes {s : State} (hs : Progressing s) {round : ActiveRound} (rng : ElectionRng)
    (hcurrent : s.elections.current = some (.active round)) :
    Settled s.elections.votes ⟨rng, round.round, round.config, 0, 0, 0⟩ := by
  have hplaced := hs.placed
  have hready := hs.ready
  rw [hcurrent] at hplaced hready
  refine ⟨hready.1, ⟨0, Nat.zero_le _, (groupToFirstMemberIndex_zero _).symm⟩, hready.2, ?_⟩
  intro v hv hround
  rw [hplaced.1 v hv] at hround
  exact absurd hround (Nat.lt_succ_self _).ne

theorem step_progressing {s s' : State} (h : Step p call s s') (hcall : uninterrupted call = true)
    (hs : Progressing s) : Progressing s' := by
  refine ⟨step_arranged h hcall hs.toArranged, ?_⟩
  cases h with
  | aside haside =>
      rw [haside.votes, haside.current]
      exact hs.ready
  | schedules => exact trivial
  | unschedules => exact trivial
  | aborts => exact trivial
  | clears => exact absurd hcall (by simp [uninterrupted])
  | seeds hseed =>
      rcases seed_eq_ok hseed with ⟨_, _, _, _, _, _, _, _, _, rfl⟩ | ⟨_, _, _, _, _, _, _, rfl⟩ |
        ⟨_, _, _, _, _, _, rfl⟩
      · exact trivial
      · exact trivial
      · exact trivial
  | starts hcurrent hstart _ =>
      obtain ⟨_, rfl, _, _, _, _, _, rfl⟩ := startElection_eq_ok hstart
      have hempty : s.elections.votes = .empty := by
        refine hs.enrolled.idle ?_
        rw [hcurrent]
        rfl
      have hnone : ∀ v, v ∉ s.elections.votes.rows := by
        rw [hempty]
        exact fun v => List.not_mem_nil
      exact ⟨fun v hv => absurd hv (hnone v), fun v hv => absurd hv (hnone v)⟩
  | visits hcurrent habove hvisit => exact ready_visitMember hs hcurrent habove hvisit
  | reports hcurrent _ =>
      have hready := hs.ready
      rw [hcurrent] at hready
      exact hready
  | opens hcurrent _ _ hconfigs hconfig _ _ =>
      have hplaced := hs.placed
      have hready := hs.ready
      rw [hcurrent] at hplaced hready
      have hlt := (hs.narrow hplaced.1 hplaced.2).2
      exact ⟨(frontConfig_eq (by omega) hconfigs hconfig).2.2.1, hready.1.cast _⟩
  | votes hvote =>
      obtain ⟨round, own, other, hcurrent, _, hround, hown, _, hother, hotherRound, hgroup, rfl⟩ :=
        vote_eq_ok hvote
      have hready := hs.ready
      rw [hcurrent] at hready
      have hcast := cast_replace hready.2 (Table.mem_of_find? hown) (Table.mem_of_find? hother)
        (hotherRound.trans hround.symm) hgroup
      rw [Table.key_of_find? hother] at hcast
      change Ready _ s.elections.current
      rw [hcurrent]
      exact ⟨hready.1, hcast⟩
  | closes hcurrent _ _ => exact settled_closes hs _ hcurrent
  | groups hcurrent hgroups => exact settled_finishGroups hs hcurrent hgroups
  | rereports hcurrent _ =>
      have hready := hs.ready
      rw [hcurrent] at hready
      exact { hready with }
  | advances hcurrent hgroups hsteps hconfigs hconfig hnext _ =>
      have hplaced := hs.placed
      rw [hcurrent] at hplaced
      have hhanded := (handed_finishGroups (b := ballot s) hgroups hplaced).1
      have hsettled := settled_finishGroups hs hcurrent hgroups
      have hbound := hhanded.bound
      have horder := hhanded.order
      have hinside := hhanded.inside
      rcases hnext with ⟨_, _, _, rfl⟩ | ⟨_, _, rfl⟩
      · exact ⟨(frontConfig_eq (by omega) hconfigs hconfig).2.2.1, hsettled.uncast.cast _⟩
      · exact trivial
  | concludes => exact trivial
  | _ => exact hs.ready

theorem reachable_progressing {s : State}
    (h : Reachable p (fun _ call => uninterrupted call = true) s) : Progressing s := by
  refine reachable_of_steps Progressing h ?_ ?_
    fun _ _ _ hcall hstep hs => step_progressing hstep hcall hs
  · intro s hs
    refine ⟨untouched_arranged hs, ?_⟩
    rw [hs.1]
    exact trivial
  · exact fun s now _ _ hs => ⟨hs.toArranged.at_time now, hs.ready⟩

/-! ### No loop aborts -/

theorem visitMember_isOk {s : State} (hs : Progressing s) {data : InitVoters} {member : Member}
    {rest : List Member} (hcurrent : s.elections.current = some (.initVoters data))
    (habove : s.members.table.above data.lastProcessed = member :: rest) :
    ∃ result, visitMember p (ballot s) data member = .ok result := by
  have hplaced := hs.placed
  have hready := hs.ready
  rw [hcurrent] at hplaced hready
  obtain ⟨hrow, hlater⟩ := Table.mem_above.mp (habove ▸ List.mem_cons_self)
  unfold visitMember
  split
  · split
    · -- whoever has a row in the vote table has been visited before
      have hnew : s.elections.votes.find? member.account = none := by
        rw [Table.find?_eq_none]
        intro v hv heq
        have hbehind := hready.2 v hv
        rw [heq] at hbehind
        exact absurd hlater (not_lt.mpr hbehind)
      obtain ⟨result, hadd⟩ := addVoter_isOk (p := p) data.rng hplaced.2 hnew
      exact ⟨_, bind_eq_ok.mpr ⟨result, hadd, rfl⟩⟩
    · have hstatus : statusOf s.members.table member.account ≠ none := by
        rw [Ne, statusOf_eq_none, Table.find?_of_mem hrow]
        simp
      obtain ⟨m, hrank⟩ := setRank_isOk 0 invalidName
        (m := { s.members with
          rankHistory := s.members.rankHistory ++ [.visit member.account] }) hstatus
      exact ⟨_, bind_eq_ok.mpr ⟨m, hrank, rfl⟩⟩
  · exact ⟨_, rfl⟩

/-- The members left are visited one after the other, each in a state of a run. -/
theorem visitMembers_isOk {s : State} {rows : List Member} (maxSteps : Nat) {b : Ballot}
    {data : InitVoters}
    (hs : Progressing (withCurrent (withBallot s b) b.output (.initVoters data)))
    (hrows : b.members.table.above data.lastProcessed = rows) :
    ∃ result, visitMembers p rows maxSteps b data = .ok result := by
  induction maxSteps generalizing rows b data with
  | zero => cases rows with
    | nil => exact ⟨_, rfl⟩
    | cons member rest => exact ⟨_, rfl⟩
  | succ maxSteps ih =>
      cases rows with
      | nil => exact ⟨_, rfl⟩
      | cons member rest =>
          obtain ⟨⟨b₁, data₁⟩, hvisit⟩ := visitMember_isOk (p := p) hs rfl hrows
          have hvisits : Step p (.action (.electprocess 0)) _ _ := .visits rfl hrows hvisit
          have hstep := step_progressing hvisits rfl hs
          obtain ⟨hlast, habove⟩ := above_visitMember hvisit
          have hrest : b₁.members.table.above data₁.lastProcessed = rest := by
            rw [hlast, habove]
            exact Table.above_of_above_cons hrows
          obtain ⟨result, hresult⟩ := ih hstep hrest
          refine ⟨result, ?_⟩
          have hvisit' : visitMember p b data member = .ok (b₁, data₁) := hvisit
          rw [visitMembers, hvisit', ok_bind]
          exact hresult

/-- In every run voters can be enrolled, and groups of a round that is over can be finished, in any
number of steps. -/
theorem loops_go_through (p : Platform) (s : State)
    (h : Reachable p (fun _ call => uninterrupted call = true) s) :
    (∀ data maxSteps, s.elections.current = some (.initVoters data) →
      ∃ result, randomizeVoters p maxSteps (ballot s) data = .ok result) ∧
    (∀ data electionTime maxSteps, s.elections.current = some (.postRound data) →
      ∃ result, finishGroups p electionTime maxSteps (remainingVotes s.elections.votes data)
        (ballot s) data = .ok result) ∧
    (∀ round rng electionTime maxSteps, s.elections.current = some (.active round) →
      round.roundEnd ≤ s.now → ∃ result, finishGroups p electionTime maxSteps
        (remainingVotes s.elections.votes ⟨rng, round.round, round.config, 0, 0, 0⟩) (ballot s)
        ⟨rng, round.round, round.config, 0, 0, 0⟩ = .ok result) := by
  have hs := reachable_progressing h
  refine ⟨?_, ?_, ?_⟩
  · intro data maxSteps hcurrent
    refine visitMembers_isOk (s := s) maxSteps ?_ rfl
    have hsame : withCurrent (withBallot s (ballot s)) (ballot s).output (.initVoters data) = s :=
      withCurrent_self hcurrent
    rw [hsame]
    exact hs
  · intro data electionTime maxSteps hcurrent
    exact (hs.turning hcurrent).finishGroups_isOk hs.enrolled.named electionTime maxSteps
  · intro round rng electionTime maxSteps hcurrent hend
    have hcloses : Step p (.action (.electprocess 0)) s (withCurrent (withBallot s (ballot s))
        (ballot s).output (.postRound ⟨rng, round.round, round.config, 0, 0, 0⟩)) :=
      .closes hcurrent hend (Quiet.refl s.output)
    have hstep := step_progressing hcloses rfl hs
    exact (hstep.turning rfl).finishGroups_isOk hs.enrolled.named electionTime maxSteps

/-- Twelve accounts. -/
def founder (i : Fin 12) : Signer where
  name := nameOf ['m', Char.ofNat (97 + i)]
  valid := by revert i; decide

def founders : List (Fin 12) := List.finRange 12

/-- Twelve members take part in the first election, and the first group agrees on one of them. -/
def twelveVoters : List Transaction :=
  [(1000000, [(signedBy contractSigner, .action (.genesis ['E', 'd', 'e', 'n'] eosSymbol (eos 100)
      (founders.map fun i => (founder i).name) ['Q', 'm'] (eos 1) 3600 3
      ['1', '2', ':', '0', '0']))]),
    (1000010, founders.map fun i =>
      (signedBy (founder i), .transfer (founder i).name host.self (eos 1000) [])),
    (1000020, founders.map fun i =>
      (signedBy (founder i), .action (.inductprofil (i + 1) sampleProfile))),
    (1000030, founders.map fun i => ({ signedBy (founder i) with assetId := 100 * i + 1 },
      .action (.inductdonate (founder i).name (i + 1) (eos 100)))),
    (1000050, founders.map fun i =>
      (signedBy (founder i), .action (.electopt (founder i).name true))),
    (1900000, [(signedBy (founder 0), .action (.electseed (headerAt 947600000)))]),
    (1987200, [(signedBy (founder 0), .action (.electprocess 100))]),
    (1990000, [8, 1, 7, 0].map fun i =>
      (signedBy (founder i), .action (.electvote 0 (founder i).name (founder 0).name)))]

/-- The round is over, and its first group is finished. -/
def firstGroup : List Transaction :=
  twelveVoters ++ [(1994400, [(signedBy (founder 0), .action (.electprocess 1))])]

/-- The round that is being finished. -/
def roundOver : Option ElectionState → Option PostRound
  | some (.postRound data) => some data
  | _ => none

theorem roundOver_eq_some {current : Option ElectionState} {data : PostRound}
    (h : roundOver current = some data) : current = some (.postRound data) := by
  unfold roundOver at h
  split at h
  · rw [Option.some.inj h]
  · exact absurd h (by simp)

theorem firstGroup_runs :
    ∃ s data, runFromGenesis host (fun _ call => uninterrupted call = true) firstGroup = some s ∧
      s.elections.current = some (.postRound data) ∧ data.nextOutputIndex = 1 := by
  have hrun : (runFromGenesis host (fun _ call => uninterrupted call = true) firstGroup).any
      (fun s => (roundOver s.elections.current).any fun data => data.nextOutputIndex = 1) =
        true := by decide +kernel
  obtain ⟨s, hs, hover⟩ := (Option.any_eq_true _ _).mp hrun
  obtain ⟨data, hdata, hone⟩ := (Option.any_eq_true _ _).mp hover
  exact ⟨s, data, hs, roundOver_eq_some hdata, of_decide_eq_true hone⟩

theorem firstGroup_goes_through :
    ∃ s data, runFromGenesis host (fun _ call => uninterrupted call = true) firstGroup = some s ∧
      s.elections.current = some (.postRound data) ∧
      ∀ electionTime maxSteps, ∃ result, finishGroups host electionTime maxSteps
        (remainingVotes s.elections.votes data) (ballot s) data = .ok result := by
  obtain ⟨s, data, hs, hcurrent, _⟩ := firstGroup_runs
  exact ⟨s, data, hs, hcurrent, fun electionTime maxSteps =>
    (loops_go_through host s (reachable_of_run hs)).2.1 data electionTime maxSteps hcurrent⟩

end Eden.RoundProgress
