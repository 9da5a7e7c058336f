import Eden.RoundProgress

/-!
The groups of a round in a run: who is in a group, whom one can vote for, and who goes on to the
next round.
-/

namespace Eden.RoundGroups

open Eden.ExceptReasoning
open Eden.SortedTable
open Eden.ChainPrimitives
open Eden.ElectionPlan
open Eden.ContractState
open Eden.Runtime
open Eden.MemberTable
open Eden.ElectionRounds
open Eden.ElectionPhases
open Eden.Transactions
open Eden.HostFunctions
open Eden.Electorate
open Eden.GroupPartition
open Eden.VotePositions
open Eden.VoteShape
open Eden.RoundProgress

variable {p : Platform}

/-! ### A round that is voted on -/

section Voting

variable {s : State} {round : ActiveRound}

/-- The members of a group in the order of the index. -/
def groupMembers (s : State) (c : RoundConfig) (g : Nat) : List Name :=
  (groupOf c (s.elections.votes.index Vote.byIndex) g).map Vote.member

theorem mem_groupMembers {c : RoundConfig} {g : Nat} {member : Name} :
    member ∈ groupMembers s c g ↔
      ∃ v ∈ s.elections.votes.rows, v.member = member ∧ c.memberIndexToGroup v.index = g := by
  simp only [groupMembers, groupOf, List.mem_map, List.mem_filter, Table.mem_index,
    decide_eq_true_eq]
  constructor
  · rintro ⟨v, ⟨hv, hgroup⟩, hmember⟩
    exact ⟨v, hv, hmember, hgroup⟩
  · rintro ⟨v, hv, hmember, hgroup⟩
    exact ⟨v, ⟨hv, hgroup⟩, hmember⟩

/-- What is known of a round that is voted on. -/
structure Voted (s : State) (round : ActiveRound) : Prop where
  seated : Seated s.elections.votes round.round round.config
  filled : Filled s.elections.votes round.round 0 round.config.numParticipants
  divisible : Divisible round.config
  small : round.config.numParticipants < 2 ^ 16

theorem Progressing.voted (h : Progressing s)
    (hcurrent : s.elections.current = some (.active round)) : Voted s round := by
  have hplaced := h.placed
  have hready := h.ready
  rw [hcurrent] at hplaced hready
  obtain ⟨hround, hfilled⟩ := hplaced
  have hlt := (h.toArranged.narrow hround hfilled).2
  refine ⟨fun v hv => ⟨hround v hv, ?_⟩, hfilled, hready.1, by omega⟩
  exact (hfilled.within v hv (hround v hv)).2

theorem Voted.getGroupMembers (h : Voted s round) (hround : checkActiveRound s = .ok round)
    {g : Nat} (hg : g < round.config.numGroups) :
    getGroupMembers s (round.round * 2 ^ 16 + g) = .ok (groupMembers s round.config g) :=
  getGroupMembers_eq hround h.divisible h.small h.seated hg

theorem Voted.getGroupId (h : Voted s round) (hround : checkActiveRound s = .ok round) {v : Vote}
    (hv : v ∈ s.elections.votes.rows) :
    getGroupId s v.member round.round =
      .ok (round.round * 2 ^ 16 + round.config.memberIndexToGroup v.index) := by
  simp only [ElectionPhases.getGroupId, hround, ok_bind, check, getRow, Table.find?_of_mem hv,
    expect_some, (h.seated v hv).1, decide_true, ensure_true]
  rfl

/-- The rows in the order of the index, position by position. -/
theorem Voted.indices (h : Voted s round) :
    (s.elections.votes.index Vote.byIndex).map Vote.index =
      List.range round.config.numParticipants := by
  have horder := h.filled.inOrder.indices
  rw [Nat.sub_zero, ← List.range_eq_range', List.filter_eq_self.mpr] at horder
  · exact horder
  · intro v hv
    exact decide_eq_true (h.seated v (Table.mem_index.mp hv)).1

theorem Voted.length_groupMembers (h : Voted s round) {g : Nat}
    (hg : g < round.config.numGroups) :
    (groupMembers s round.config g).length = groupSize round.config g := by
  rw [groupMembers, List.length_map]
  exact length_groupOf h.divisible h.indices hg

theorem nodup_groupMembers (s : State) (c : RoundConfig) (g : Nat) :
    (groupMembers s c g).Nodup := by
  refine List.Nodup.sublist (List.filter_sublist.map Vote.member) ?_
  exact ((s.elections.votes.index_perm Vote.byIndex).map Vote.member).nodup_iff.mpr
    s.elections.votes.nodup_keys

/-- A vote is accepted within a group only. -/
theorem Voted.vote_isOk_iff (h : Voted s round) (hround : checkActiveRound s = .ok round)
    {voter candidate : Name} :
    (∃ s', vote s round.round voter candidate = .ok s') ↔
      ∃ g, voter ∈ groupMembers s round.config g ∧ candidate ∈ groupMembers s round.config g := by
  simp only [mem_groupMembers]
  constructor
  · rintro ⟨s', hvote⟩
    obtain ⟨round', own, other, hcurrent, _, _, hown, _, hother, _, hgroup, _⟩ := vote_eq_ok hvote
    rw [(checkActiveRound_eq_ok.mp hround).1, Option.some.injEq, ElectionState.active.injEq]
      at hcurrent
    subst hcurrent
    exact ⟨_, ⟨own, Table.mem_of_find? hown, Table.key_of_find? hown, rfl⟩,
      ⟨other, Table.mem_of_find? hother, Table.key_of_find? hother, hgroup.symm⟩⟩
  · rintro ⟨g, ⟨own, hown, rfl, hown'⟩, ⟨other, hother, rfl, hother'⟩⟩
    have hvoteIn : ∀ v ∈ s.elections.votes.rows,
        voteIn s.elections.votes round.round v.member = .ok v := by
      intro v hv
      simp only [voteIn, Table.find?_of_mem hv, Option.filter, (h.seated v hv).1, decide_true,
        if_true, expect_some]
    have hgroup : round.config.memberIndexToGroup own.index =
        round.config.memberIndexToGroup other.index := hown'.trans hother'.symm
    simp only [vote, hround, ok_bind, hvoteIn own hown, hvoteIn other hother, check, hgroup,
      decide_true, ensure_true]
    exact ⟨_, rfl⟩

end Voting

/-- The round that is voted on. -/
def roundOpen (s : State) : Option ActiveRound := (checkActiveRound s).toOption

/-- A member has a row in a round. -/
def Enters (votes : VoteTable) (round : Nat) (member : Name) : Prop :=
  ∃ v ∈ votes.rows, v.round = round ∧ v.member = member

/-- A group of a list of votes decides for a member. -/
def Decides (c : RoundConfig) (votes : List Vote) (g : Nat) (member : Name) : Prop :=
  goesOn (groupWinner (groupOf c votes g)) ∧ groupWinner (groupOf c votes g) = member

theorem enters_addVoter {votes votes' : VoteTable} {rng rng' : ElectionRng} {round next : Nat}
    {member : Name} (h : addVoter p votes rng round next member = .ok (votes', rng'))
    (hnarrow : Narrow votes) (hnext : next < 2 ^ 16) (a : Name) :
    Enters votes' round a ↔ Enters votes round a ∨ a = member := by
  unfold Enters
  rcases addVoter_eq_ok h with hemplace | ⟨old, pos, hpos, hold, hkey, hemplace⟩
  · simp only [Table.mem_emplace? hemplace]
    constructor
    · rintro ⟨v, rfl | hv, hround, rfl⟩
      · exact .inr rfl
      · exact .inl ⟨v, hv, hround, rfl⟩
    · rintro (⟨v, hv, hround, rfl⟩ | rfl)
      · exact ⟨v, .inr hv, hround, rfl⟩
      · exact ⟨_, .inl rfl, rfl, rfl⟩
  · have hplace := (byIndex_eq_iff (hnarrow old hold) (hpos.trans hnext)).mp hkey
    have hfind : ∃ c, votes.find? old.member = some c := ⟨old, Table.find?_of_mem hold⟩
    simp only [Table.mem_emplace? hemplace, Table.mem_replace]
    constructor
    · rintro ⟨v, rfl | ⟨hv, _⟩ | ⟨rfl, _⟩, hround, rfl⟩
      · exact .inr rfl
      · exact .inl ⟨v, hv, hround, rfl⟩
      · exact .inl ⟨old, hold, hround, rfl⟩
    · rintro (⟨v, hv, hround, rfl⟩ | rfl)
      · by_cases hmember : v.member = old.member
        · exact ⟨_, .inr (.inr ⟨rfl, hfind⟩), hplace.1, hmember.symm⟩
        · exact ⟨v, .inr (.inl ⟨hv, hmember⟩), hround, rfl⟩
      · exact ⟨_, .inl rfl, rfl, rfl⟩

section Finishing

variable {votes : VoteTable} {round : Nat} {c : RoundConfig} {rest : List Vote} {g : Nat}

/-- The rows at the front of a round are those of its first group, in the same order. -/
theorem take_eq_groupOf (hc : Divisible c)
    (h : InOrder votes round (c.groupToFirstMemberIndex g) c.numParticipants rest) :
    rest.take (groupSize c g) = groupOf c rest g := by
  have hnodup : rest.Nodup := by
    have hindices : (rest.map Vote.index).Nodup := by
      rw [h.indices]
      exact List.nodup_range'
    exact hindices.of_map
  have hfront : (rest.take (groupSize c g)).filter (fun v => c.memberIndexToGroup v.index = g) =
      rest.take (groupSize c g) := by
    rw [List.filter_eq_self]
    exact fun v hv => decide_eq_true ((mem_group_iff hc h).mp hv).2
  have hback : (rest.drop (groupSize c g)).filter (fun v => c.memberIndexToGroup v.index = g) =
      [] := by
    rw [List.filter_eq_nil_iff]
    intro v hv hgroup
    rw [decide_eq_true_eq] at hgroup
    have htake := (mem_group_iff hc h).mpr ⟨List.mem_of_mem_drop hv, hgroup⟩
    rw [← List.take_append_drop (groupSize c g) rest, List.nodup_append] at hnodup
    exact hnodup.2.2 v htake v hv rfl
  unfold groupOf
  conv_rhs => rw [← List.take_append_drop (groupSize c g) rest]
  rw [List.filter_append, hfront, hback, List.append_nil]

/-- The groups behind a boundary are those of the rows behind it. -/
theorem groupOf_drop {g₀ : Nat} (hc : Divisible c)
    (h : InOrder votes round (c.groupToFirstMemberIndex g₀) c.numParticipants rest) (hle : g₀ ≤ g) :
    groupOf c (rest.drop (c.groupToFirstMemberIndex g - c.groupToFirstMemberIndex g₀)) g =
      groupOf c rest g := by
  have hmono := groupToFirstMemberIndex_mono c hle
  have hfront : (rest.take (c.groupToFirstMemberIndex g - c.groupToFirstMemberIndex g₀)).filter
      (fun v => c.memberIndexToGroup v.index = g) = [] := by
    rw [List.filter_eq_nil_iff]
    intro v hv hgroup
    obtain ⟨hrest, hlt⟩ := (mem_take_iff h).mp hv
    have hrow := (h.mem v).mp hrest
    have hbounds := h.filled.within v hrow.1 hrow.2
    rw [decide_eq_true_eq, memberIndexToGroup_eq_iff hc hbounds.2] at hgroup
    omega
  unfold groupOf
  conv_rhs => rw [← List.take_append_drop
    (c.groupToFirstMemberIndex g - c.groupToFirstMemberIndex g₀) rest]
  rw [List.filter_append, hfront, List.nil_append]

end Finishing

/-- What the loop over the groups has done since it stood before group `g₀`. -/
structure Gathered (P : Name → Prop) (votes : VoteTable) (data₀ : PostRound) (g₀ : Nat)
    (rest : List Vote) (b : Ballot) (data : PostRound) : Prop where
  turning : Turning P rest b data
  round : data.prevRound = data₀.prevRound
  config : data.prevConfig = data₀.prevConfig
  entered : ∃ g, g₀ ≤ g ∧ g ≤ data₀.prevConfig.numGroups ∧
    data.nextInputIndex = data₀.prevConfig.groupToFirstMemberIndex g ∧
    rest = (remainingVotes votes data₀).drop
      (data₀.prevConfig.groupToFirstMemberIndex g - data₀.prevConfig.groupToFirstMemberIndex g₀) ∧
    ∀ a, Enters b.votes (data₀.prevRound + 1) a ↔ Enters votes (data₀.prevRound + 1) a ∨
      ∃ k, g₀ ≤ k ∧ k < g ∧ Decides data₀.prevConfig (remainingVotes votes data₀) k a

section Gathering

variable {P : Name → Prop} {votes : VoteTable} {data₀ data data' : PostRound} {g₀ k : Nat}
  {rest : List Vote} {b b' : Ballot} {electionTime : Nat}

theorem Gathered.next (hP : ∀ a, P a → isAccountName a = true) (h₀ : Handed votes data₀)
    (hg₀ : data₀.nextInputIndex = data₀.prevConfig.groupToFirstMemberIndex g₀)
    (h : Gathered P votes data₀ g₀ rest b data) (hpos : 0 < k) (hk : k ≤ rest.length)
    (hsize : k = data.prevConfig.groupSizeAt data.nextInputIndex)
    (hgroup : finishGroup p electionTime b data (rest.take k) = .ok (b', data')) :
    Gathered P votes data₀ g₀ (rest.drop k) b' data' := by
  have hnext := h.turning.next hP hpos hk hsize hgroup
  have hrest : rest ≠ [] := by
    rintro rfl
    exact absurd (hpos.trans_le hk) (lt_irrefl 0)
  have hc := h.turning.settled.divisible
  obtain ⟨g, hg, hindex, hsizeAt, _, _⟩ := h.turning.group hrest
  obtain ⟨g', hle, _, hindex', hdrop, hentered⟩ := h.entered
  have hround := h.round
  have hconfig := h.config
  rw [hsizeAt] at hsize
  rw [hconfig] at hc hg hindex hsize
  -- both describe the group that comes next
  have hsame : g' = g := by
    rw [hindex'] at hindex
    rcases Nat.lt_trichotomy g' g with hlt | heq | hgt
    · have hmono := first_succ_le data₀.prevConfig hlt
      have hgrows := groupSize_pos hc (hlt.trans hg)
      rw [groupToFirstMemberIndex_succ] at hmono
      omega
    · exact heq
    · have hmono := first_succ_le data₀.prevConfig hgt
      have hgrows := groupSize_pos hc hg
      rw [groupToFirstMemberIndex_succ] at hmono
      omega
  subst hsame
  have horder := h.turning.order
  rw [hindex', hconfig] at horder
  have horder₀ := h₀.inOrder
  rw [hg₀] at horder₀
  have htaken : rest.take k = groupOf data₀.prevConfig (remainingVotes votes data₀) g' := by
    rw [hsize, take_eq_groupOf hc horder, hdrop, groupOf_drop hc horder₀ hle]
  have hnarrow := narrow_eraseVotes (rest.take k) h.turning.handed.narrow
  have hbound := h.turning.handed.bound
  have hout := h.turning.handed.order
  have hinside := h.turning.handed.inside
  have hrows : ∀ v ∈ rest.take k, v ∈ b.votes.rows ∧ v.round = data.prevRound :=
    fun v hv => (h.turning.order.mem v).mp (List.mem_of_mem_take hv)
  have herased : ∀ a, Enters (eraseVotes b.votes (rest.take k)) (data₀.prevRound + 1) a ↔
      Enters b.votes (data₀.prevRound + 1) a := by
    intro a
    have hother : ∀ v : Vote, v.round = data₀.prevRound + 1 →
        (v ∈ (eraseVotes b.votes (rest.take k)).rows ↔ v ∈ b.votes.rows) := by
      intro v hv
      refine mem_eraseVotes_other hrows ?_
      rw [hv, hround]
      exact (Nat.lt_succ_self _).ne'
    constructor
    · rintro ⟨v, hv, hvround, hmember⟩
      exact ⟨v, (hother v hvround).mp hv, hvround, hmember⟩
    · rintro ⟨v, hv, hvround, hmember⟩
      exact ⟨v, (hother v hvround).mpr hv, hvround, hmember⟩
  have hposition : (data.nextInputIndex + (rest.take k).length) % 2 ^ 16 =
      data₀.prevConfig.groupToFirstMemberIndex (g' + 1) := by
    rw [hconfig] at hbound
    rw [List.length_take, Nat.min_eq_left hk, hindex', hsize]
    exact next_position hc hbound hg
  have hlater : rest.drop k = (remainingVotes votes data₀).drop
      (data₀.prevConfig.groupToFirstMemberIndex (g' + 1) -
        data₀.prevConfig.groupToFirstMemberIndex g₀) := by
    have hmono := groupToFirstMemberIndex_mono data₀.prevConfig hle
    rw [hdrop, List.drop_drop, groupToFirstMemberIndex_succ, hsize]
    congr 1
    omega
  have hsplit : ∀ a, (∃ j, g₀ ≤ j ∧ j < g' + 1 ∧
      Decides data₀.prevConfig (remainingVotes votes data₀) j a) ↔
        (∃ j, g₀ ≤ j ∧ j < g' ∧ Decides data₀.prevConfig (remainingVotes votes data₀) j a) ∨
          Decides data₀.prevConfig (remainingVotes votes data₀) g' a := by
    intro a
    constructor
    · rintro ⟨j, hj, hlt, hdecides⟩
      rcases Nat.lt_succ_iff_lt_or_eq.mp hlt with hlt | rfl
      · exact .inl ⟨j, hj, hlt, hdecides⟩
      · exact .inr hdecides
    · rintro (⟨j, hj, hlt, hdecides⟩ | hdecides)
      · exact ⟨j, hj, hlt.trans (Nat.lt_succ_self _), hdecides⟩
      · exact ⟨g', hle, Nat.lt_succ_self _, hdecides⟩
  obtain ⟨rng, _, ⟨hgoes, hadd, rfl⟩ | ⟨hnot, hvotes, rfl⟩⟩ := finishGroup_eq_ok hgroup
  · refine ⟨hnext, hround, hconfig, g' + 1, hle.trans (Nat.le_succ _), hg, hposition, hlater, ?_⟩
    intro a
    rw [hround] at hadd
    rw [enters_addVoter hadd hnarrow (by omega), herased, hentered, hsplit, or_assoc]
    refine or_congr_right (or_congr_right ?_)
    rw [htaken] at hgoes ⊢
    exact ⟨fun heq => ⟨hgoes, heq.symm⟩, fun hdecides => hdecides.2.symm⟩
  · refine ⟨hnext, hround, hconfig, g' + 1, hle.trans (Nat.le_succ _), hg, hposition, hlater, ?_⟩
    intro a
    rw [hvotes, herased, hentered, hsplit]
    refine or_congr_right ⟨.inl, fun hboth => hboth.resolve_right ?_⟩
    intro hdecides
    rw [htaken] at hnot
    exact hnot hdecides.1

end Gathering

end Eden.RoundGroups
