import Eden.BylawsRules

/-!
The vote table of an election: voters are shuffled into it, reported in groups, and taken out
group by group when a round is over.
-/

namespace Eden.ElectionRounds

open Eden.ExceptReasoning
open Eden.SortedTable
open Eden.ChainPrimitives
open Eden.ElectionPlan
open Eden.ContractState
open Eden.Runtime
open Eden.MemberTable

abbrev VoteTable := Table Vote.member

/-- The part of the state that the rounds of an election change. -/
structure Ballot where
  votes : VoteTable
  encrypted : EncryptedTable
  members : Members
  output : Output

/-- The index `bygroup` from a round and a position on. -/
def votesFrom (votes : VoteTable) (round index : Nat) : List Vote :=
  (votes.index Vote.byIndex).dropWhile fun v => v.byIndex < round * 2 ^ 16 + index

/-- The row of a position in a round. -/
def voteAt (votes : VoteTable) (round index : Nat) : Option Vote :=
  (votes.index Vote.byIndex).find? fun v => v.byIndex = round * 2 ^ 16 + index

/-! ### Shuffling -/

/-- `elections::add_voter`: the table and the generator with one more voter. The voter takes a
random position up to `nextIndex`, and who held it moves to `nextIndex`. -/
def addVoter (p : Platform) (votes : VoteTable) (rng : ElectionRng) (round nextIndex : Nat)
    (member : Name) : Outcome (VoteTable × ElectionRng) := do
  let (pos, rng) := p.uniformInt 16 nextIndex rng
  let votes ← (if pos = nextIndex then .ok votes
    else do
      let old ← getRow (voteAt votes round pos) "unable to find secondary key"
      return votes.replace { old with index := nextIndex } : Outcome VoteTable)
  let votes ← expect (votes.emplace? { member := member, round := round, index := pos })
    .duplicateKey
  return (votes, rng)

/-- Come to a member: enrol it as a voter, or leave it without a rank. -/
def visitMember (p : Platform) (b : Ballot) (data : InitVoters) (member : Member) :
    Outcome (Ballot × InitVoters) :=
  if member.status = .activeMember then
    let visited := { b.members with
      rankHistory := b.members.rankHistory ++ [.visit member.account] }
    if member.electionParticipationStatus = data.electionScheduleVersion then do
      let (votes, rng) ← addVoter p b.votes data.rng 0 data.nextMemberIdx member.account
      let enrolled := { visited with
        rankHistory := visited.rankHistory ++ [.enrol member.account] }
      return ({ b with votes := votes, members := enrolled },
        { data with
          rng := rng
          nextMemberIdx := (data.nextMemberIdx + 1) % 2 ^ 16
          lastProcessed := member.account })
    else do
      let members ← setRank visited member.account 0 invalidName
      return ({ b with members := members }, { data with lastProcessed := member.account })
  else return (b, { data with lastProcessed := member.account })

/-- The loop of `elections::randomize_voters` over the members not yet visited. -/
def visitMembers (p : Platform) : List Member → (maxSteps : Nat) → Ballot → InitVoters →
    Outcome (Nat × Ballot × InitVoters)
  | [], maxSteps, b, data => return (maxSteps, b, data)
  | _ :: _, 0, b, data => return (0, b, data)
  | member :: rest, maxSteps + 1, b, data => do
      let (b, data) ← visitMember p b data member
      visitMembers p rest maxSteps b data

def randomizeVoters (p : Platform) (maxSteps : Nat) (b : Ballot) (data : InitVoters) :
    Outcome (Nat × Ballot × InitVoters) :=
  visitMembers p (b.members.table.above data.lastProcessed) maxSteps b data

/-! ### Reporting groups -/

/-- Report the groups of a list of voters while steps remain: the steps left, the index of the
next group and the output. -/
def reportGroups (p : Platform) (electionTime round : Nat) (config : RoundConfig) :
    (maxSteps : Nat) → List Vote → (nextReportIndex : Nat) → Output →
    Outcome (Nat × Nat × Output)
  | 0, _, nextReportIndex, out => return (0, nextReportIndex, out)
  | maxSteps + 1, [], nextReportIndex, out => return (maxSteps + 1, nextReportIndex, out)
  | maxSteps + 1, v :: rest, nextReportIndex, out => do
      let groupSize := config.groupSizeAt nextReportIndex
      ensure (groupSize ≤ (v :: rest).length) (.undefined "iterator past the end of bygroup")
      let voters := ((v :: rest).take groupSize).map Vote.member
      reportGroups p electionTime round config maxSteps ((v :: rest).drop groupSize)
        ((nextReportIndex + groupSize) % 2 ^ 16)
        (pushEvent p out (.electionCreateGroup electionTime round voters))

/-! ### Finishing groups -/

/-- `votes_by_candidate`, in 8 bits: a vote for oneself counts for the whole group. -/
def votesFor (group : List Vote) (candidate : Name) : Nat :=
  ((group.filter fun v => v.candidate = candidate).map fun v =>
    if v.candidate = v.member then group.length + 1 else 1).sum % 2 ^ 8

/-- The keys of `votes_by_candidate`, in the order of the map. -/
def candidates (group : List Vote) : List Name :=
  ((group.map Vote.candidate).filter fun c => c ≠ emptyName).dedup.insertionSort (· ≤ ·)

/-- `std::max_element` by the number of votes: the first of the greatest. -/
def bestCandidate (group : List Vote) : Option Name :=
  (candidates group).foldl (fun best c =>
    match best with
    | none => some c
    | some b => if votesFor group b < votesFor group c then some c else some b) none

/-- `total_votes`, in 8 bits. -/
def totalVotes (group : List Vote) : Nat :=
  (group.filter fun v => v.candidate ≠ emptyName).length % 2 ^ 8

/-- The winner of a group, or the complement of its first member without one. -/
def groupWinner (group : List Vote) : Name :=
  let noWinner := complementName ((group.head?.map Vote.member).getD emptyName)
  match bestCandidate group with
  | none => noWinner
  | some best =>
      if 2 * totalVotes group + 3 * group.length < 3 * votesFor group best then best else noWinner

/-- The members of a group in the order in which they are ranked: those who voted first. -/
def rankOrder (group : List Vote) : List Name :=
  ((group.filter fun v => v.candidate ≠ emptyName) ++
    (group.filter fun v => v.candidate = emptyName)).map Vote.member

/-- Take the votes of a group out of the table. -/
def eraseVotes (votes : VoteTable) (group : List Vote) : VoteTable :=
  group.foldl (fun votes v => votes.erase v.member) votes

/-- Give members their rank and representative, one after the other. -/
def setRanksOf (members : Members) (voters : List Name) (rank : Nat) (representative : Name) :
    Outcome Members :=
  voters.foldlM (fun members voter => setRank members voter rank representative) members

/-- One turn of the loop of `elections::finish_round`: `finish_group`, the winner is entered in the
next round, and the others get their rank. -/
def finishGroup (p : Platform) (electionTime : Nat) (b : Ballot) (data : PostRound)
    (group : List Vote) : Outcome (Ballot × PostRound) := do
  let encrypted := b.encrypted.erase (data.prevRound * 2 ^ 16 +
    data.prevConfig.memberIndexToGroup ((group.head?.map Vote.index).getD 0))
  let winner := groupWinner group
  let output := pushEvent p b.output (.electionReportGroup electionTime data.prevRound winner
    (group.map fun v => ⟨v.member, v.candidate⟩))
  let votes := eraseVotes b.votes group
  let advances := winner % 16 = 0
  let (votes, rng) ← (if advances then
      addVoter p votes data.rng (data.prevRound + 1) data.nextOutputIndex winner
    else .ok (votes, data.rng) : Outcome (VoteTable × ElectionRng))
  let members ← setRanksOf b.members ((rankOrder group).filter (· ≠ winner)) data.prevRound winner
  return (⟨votes, encrypted, members, output⟩,
    { data with
      rng := rng
      nextInputIndex := (data.nextInputIndex + group.length) % 2 ^ 16
      nextOutputIndex :=
        if advances then (data.nextOutputIndex + 1) % 2 ^ 16 else data.nextOutputIndex })

/-- The loop of `elections::finish_round` over the votes of the round that is over. -/
def finishGroups (p : Platform) (electionTime : Nat) :
    (maxSteps : Nat) → List Vote → Ballot → PostRound → Outcome (Nat × Ballot × PostRound)
  | 0, _, b, data => return (0, b, data)
  | maxSteps + 1, [], b, data => return (maxSteps + 1, b, data)
  | maxSteps + 1, v :: rest, b, data => do
      let groupSize := data.prevConfig.groupSizeAt data.nextInputIndex
      ensure (0 < groupSize ∧ groupSize ≤ (v :: rest).length)
        (.undefined "group reaches beyond its round")
      let (b, data) ← finishGroup p electionTime b data ((v :: rest).take groupSize)
      finishGroups p electionTime maxSteps ((v :: rest).drop groupSize) b data

/-- The votes of the round that is over, from the next group on. -/
def remainingVotes (votes : VoteTable) (data : PostRound) : List Vote :=
  (votesFrom votes data.prevRound data.nextInputIndex).takeWhile fun v => v.round = data.prevRound

/-! ### What the functions change -/

/-- Where `add_voter` puts a voter: at the end, or in the place of another that moves there. -/
theorem addVoter_eq_ok {p : Platform} {votes votes' : VoteTable} {rng rng' : ElectionRng}
    {round nextIndex : Nat} {member : Name}
    (h : addVoter p votes rng round nextIndex member = .ok (votes', rng')) :
    (votes.emplace? { member := member, round := round, index := nextIndex } = some votes') ∨
      ∃ old pos, pos < nextIndex ∧ old ∈ votes.rows ∧ old.byIndex = round * 2 ^ 16 + pos ∧
        (votes.replace { old with index := nextIndex }).emplace?
          { member := member, round := round, index := pos } = some votes' := by
  have hle := p.uniformInt_le 16 nextIndex rng
  simp only [addVoter, bind_eq_ok, expect_eq_ok, pure_eq_ok, Prod.mk.injEq] at h
  obtain ⟨t, ht, u, hu, rfl, -⟩ := h
  split at ht
  · rename_i hpos
    rw [Except.ok.injEq] at ht
    subst ht
    rw [hpos] at hu
    exact .inl hu
  · rename_i hpos
    simp only [bind_eq_ok, getRow_eq_ok, pure_eq_ok] at ht
    obtain ⟨old, hold, rfl⟩ := ht
    refine .inr ⟨old, _, lt_of_le_of_ne hle hpos, ?_, ?_, hu⟩
    · exact Table.mem_index.mp (List.mem_of_find?_eq_some hold)
    · simpa using List.find?_some hold

theorem mem_eraseVotes {votes : VoteTable} {group : List Vote} {v : Vote} :
    v ∈ (eraseVotes votes group).rows ↔ v ∈ votes.rows ∧ ∀ u ∈ group, v.member ≠ u.member := by
  unfold eraseVotes
  induction group generalizing votes with
  | nil => simp
  | cons u group ih =>
      rw [List.foldl_cons, ih, Table.mem_erase]
      simp only [List.mem_cons, forall_eq_or_imp]
      tauto

/-- Whether a winner is a member, who goes on to the next round. -/
def goesOn (winner : Name) : Prop := winner % 16 = 0

theorem finishGroup_eq_ok {p : Platform} {electionTime : Nat} {b b' : Ballot}
    {data data' : PostRound} {group : List Vote}
    (h : finishGroup p electionTime b data group = .ok (b', data')) :
    ∃ rng, setRanksOf b.members ((rankOrder group).filter (· ≠ groupWinner group)) data.prevRound
        (groupWinner group) = .ok b'.members ∧
      ((goesOn (groupWinner group) ∧
          addVoter p (eraseVotes b.votes group) data.rng (data.prevRound + 1)
            data.nextOutputIndex (groupWinner group) = .ok (b'.votes, rng) ∧
          data' = { data with
            rng := rng
            nextInputIndex := (data.nextInputIndex + group.length) % 2 ^ 16
            nextOutputIndex := (data.nextOutputIndex + 1) % 2 ^ 16 }) ∨
        (¬ goesOn (groupWinner group) ∧ b'.votes = eraseVotes b.votes group ∧
          data' = { data with
            nextInputIndex := (data.nextInputIndex + group.length) % 2 ^ 16 })) := by
  simp only [finishGroup, bind_eq_ok, pure_eq_ok, Prod.mk.injEq] at h
  obtain ⟨⟨votes, rng⟩, hvotes, members, hmembers, rfl, rfl⟩ := h
  refine ⟨rng, hmembers, ?_⟩
  split at hvotes
  · rename_i hadvances
    refine .inl ⟨hadvances, hvotes, ?_⟩
    simp only [if_pos hadvances]
  · rename_i hadvances
    rw [Except.ok.injEq, Prod.mk.injEq] at hvotes
    obtain ⟨rfl, rfl⟩ := hvotes
    refine .inr ⟨hadvances, rfl, ?_⟩
    simp only [if_neg hadvances]

/-- The rule for what the groups of a round keep. -/
theorem finishGroups_preserves {p : Platform} {electionTime : Nat}
    (Inv : List Vote → Ballot → PostRound → Prop)
    (hstep : ∀ votes k b data b' data', 0 < k → k ≤ votes.length →
      k = data.prevConfig.groupSizeAt data.nextInputIndex →
      finishGroup p electionTime b data (votes.take k) = .ok (b', data') → Inv votes b data →
      Inv (votes.drop k) b' data')
    {maxSteps remaining : Nat} {votes : List Vote} {b b' : Ballot} {data data' : PostRound}
    (h : finishGroups p electionTime maxSteps votes b data = .ok (remaining, b', data'))
    (hb : Inv votes b data) :
    ∃ rest, Inv rest b' data' ∧ (remaining ≠ 0 → rest = []) := by
  fun_induction finishGroups p electionTime maxSteps votes b data with
  | case1 votes b data =>
      simp only [pure_eq_ok, Prod.mk.injEq] at h
      obtain ⟨rfl, rfl, rfl⟩ := h
      exact ⟨votes, hb, fun hne => absurd rfl hne⟩
  | case2 maxSteps b data =>
      simp only [pure_eq_ok, Prod.mk.injEq] at h
      obtain ⟨rfl, rfl, rfl⟩ := h
      exact ⟨[], hb, fun _ => rfl⟩
  | case3 maxSteps v rest b data groupSize ih =>
      simp only [bind_eq_ok, ensure_eq_ok, exists_const, decide_eq_true_eq] at h
      obtain ⟨hsize, ⟨b₁, data₁⟩, hgroup, h⟩ := h
      exact ih b₁ data₁ h (hstep _ _ _ _ _ _ hsize.1 hsize.2 rfl hgroup hb)

end Eden.ElectionRounds
