import Eden.HostFunctions

/-!
The groups of a round. A group is found from a position by division, its first position by
multiplication, and the rounds walk over the groups one after the other; the web application has
a function of its own. All of them divide the participants in the same way.
-/

namespace Eden.GroupPartition

open Eden.ExceptReasoning
open Eden.SortedTable
open Eden.ChainPrimitives
open Eden.ElectionPlan
open Eden.ContractState
open Eden.Runtime
open Eden.ElectionRounds
open Eden.ElectionPhases

/-! ### The web application -/

structure MemberGroup where
  groupNumber : Int
  lowerBound : Int
  upperBound : Int
  deriving DecidableEq, Repr

/-- `getMemberGroupFromIndex`; `Math.floor` of a quotient of whole numbers. -/
def getMemberGroupFromIndex (memberIdx totalParticipants numGroups : Int) : MemberGroup :=
  let maxGroupSize := (totalParticipants + numGroups - 1).fdiv numGroups
  let numShortGroups := maxGroupSize * numGroups - totalParticipants
  let numLargeGroups := numGroups - numShortGroups
  let minGroupSize := maxGroupSize - 1
  let totalMembersInLargeGroups := (minGroupSize + 1) * numLargeGroups
  if memberIdx < totalMembersInLargeGroups then
    let groupNumber := memberIdx.fdiv (minGroupSize + 1)
    let lowerBound := groupNumber * (minGroupSize + 1)
    ⟨groupNumber, lowerBound, lowerBound + minGroupSize⟩
  else
    let groupNumber := (memberIdx - totalMembersInLargeGroups).fdiv minGroupSize + numLargeGroups
    let lowerBound := (groupNumber - numLargeGroups) * minGroupSize + totalMembersInLargeGroups
    ⟨groupNumber, lowerBound, lowerBound + minGroupSize - 1⟩

/-! ### Sizes -/

/-- At least one group, no empty group, and a greatest size that fits in 8 bits. -/
structure Divisible (c : RoundConfig) : Prop where
  groups : 1 ≤ c.numGroups
  participants : c.numGroups ≤ c.numParticipants
  size : (c.numParticipants + c.numGroups - 1) / c.numGroups ≤ 255

/-- What `member_index_to_group` divides by. -/
def divisorAt (c : RoundConfig) (idx : Nat) : Nat :=
  if idx < (c.groupMinSize + 1) * c.numLargeGroups then c.groupMinSize + 1 else c.groupMinSize

/-- The size of a group by its number. -/
def groupSize (c : RoundConfig) (g : Nat) : Nat :=
  c.groupMinSize + if g < c.numLargeGroups then 1 else 0

section Sizes

variable {c : RoundConfig}

theorem groupMaxSize_eq (hc : Divisible c) :
    c.groupMaxSize = (c.numParticipants + c.numGroups - 1) / c.numGroups :=
  Nat.mod_eq_of_lt (by have := hc.size; omega)

/-- The greatest size times the number of groups exceeds the participants by less than a group. -/
theorem groupMaxSize_bounds (hc : Divisible c) :
    c.numParticipants ≤ c.groupMaxSize * c.numGroups ∧
      c.groupMaxSize * c.numGroups < c.numParticipants + c.numGroups := by
  have hgroups := hc.groups
  rw [groupMaxSize_eq hc]
  have hlow := Nat.div_mul_le_self (c.numParticipants + c.numGroups - 1) c.numGroups
  have hhigh := Nat.lt_div_mul_add hgroups (a := c.numParticipants + c.numGroups - 1)
  constructor
  · omega
  · omega

theorem groupMaxSize_pos (hc : Divisible c) : 0 < c.groupMaxSize := by
  have hgroups := hc.groups
  have hparticipants := hc.participants
  have hlow := (groupMaxSize_bounds hc).1
  rcases Nat.eq_zero_or_pos c.groupMaxSize with hzero | hpos
  · rw [hzero, Nat.zero_mul] at hlow
    omega
  · exact hpos

theorem groupMinSize_succ (hc : Divisible c) : c.groupMinSize + 1 = c.groupMaxSize :=
  Nat.sub_add_cancel (groupMaxSize_pos hc)

theorem numShortGroups_lt (hc : Divisible c) : c.numShortGroups < c.numGroups := by
  have hhigh := (groupMaxSize_bounds hc).2
  have hgroups := hc.groups
  unfold RoundConfig.numShortGroups
  omega

theorem numLargeGroups_le (c : RoundConfig) : c.numLargeGroups ≤ c.numGroups := Nat.sub_le _ _

theorem numLargeGroups_add (hc : Divisible c) :
    c.numLargeGroups + c.numShortGroups = c.numGroups :=
  Nat.sub_add_cancel (numShortGroups_lt hc).le

theorem numParticipants_eq (hc : Divisible c) :
    c.numParticipants = c.numGroups * c.groupMinSize + c.numLargeGroups := by
  have hlow := (groupMaxSize_bounds hc).1
  have hadd := numLargeGroups_add hc
  have hmul : c.groupMaxSize * c.numGroups = c.numGroups * c.groupMinSize + c.numGroups := by
    rw [← groupMinSize_succ hc]
    ring
  unfold RoundConfig.numShortGroups at hadd
  omega

/-- A group starts behind a smaller group for each one before it, and one more for each of the
larger ones. -/
theorem groupToFirstMemberIndex_eq (c : RoundConfig) (g : Nat) :
    c.groupToFirstMemberIndex g = g * c.groupMinSize + min g c.numLargeGroups := by
  unfold RoundConfig.groupToFirstMemberIndex
  dsimp only
  split
  · rename_i hlarge
    rw [Nat.min_eq_left hlarge.le]
    ring
  · rename_i hsmall
    obtain ⟨k, rfl⟩ := Nat.exists_eq_add_of_le (not_lt.mp hsmall)
    rw [Nat.min_eq_right (Nat.le_add_right _ _), Nat.add_sub_cancel_left]
    ring

theorem groupToFirstMemberIndex_zero (c : RoundConfig) : c.groupToFirstMemberIndex 0 = 0 := by
  simp [groupToFirstMemberIndex_eq]

theorem groupToFirstMemberIndex_succ (c : RoundConfig) (g : Nat) :
    c.groupToFirstMemberIndex (g + 1) = c.groupToFirstMemberIndex g + groupSize c g := by
  have hmul : (g + 1) * c.groupMinSize = g * c.groupMinSize + c.groupMinSize := by ring
  rw [groupToFirstMemberIndex_eq, groupToFirstMemberIndex_eq, groupSize, hmul]
  split <;> omega

theorem groupToFirstMemberIndex_mono (c : RoundConfig) : Monotone c.groupToFirstMemberIndex :=
  monotone_nat_of_le_succ fun g => by
    rw [groupToFirstMemberIndex_succ]
    exact Nat.le_add_right _ _

theorem first_succ_le (c : RoundConfig) {g k : Nat} (h : g < k) :
    c.groupToFirstMemberIndex (g + 1) ≤ c.groupToFirstMemberIndex k :=
  groupToFirstMemberIndex_mono c h

/-- After the last group all participants are behind. -/
theorem groupToFirstMemberIndex_numGroups (hc : Divisible c) :
    c.groupToFirstMemberIndex c.numGroups = c.numParticipants := by
  rw [groupToFirstMemberIndex_eq, Nat.min_eq_right (numLargeGroups_le c), numParticipants_eq hc]

/-- The larger groups end where the smaller ones start. -/
theorem membersInLarge_eq (c : RoundConfig) :
    (c.groupMinSize + 1) * c.numLargeGroups = c.groupToFirstMemberIndex c.numLargeGroups := by
  rw [groupToFirstMemberIndex_eq, Nat.min_self]
  ring

theorem first_lt_membersInLarge_iff (c : RoundConfig) (g : Nat) :
    c.groupToFirstMemberIndex g < (c.groupMinSize + 1) * c.numLargeGroups ↔
      g < c.numLargeGroups := by
  rw [membersInLarge_eq]
  constructor
  · intro h
    by_contra hge
    exact absurd (groupToFirstMemberIndex_mono c (not_lt.mp hge)) (not_le.mpr h)
  · intro h
    have hsucc := first_succ_le c h
    rw [groupToFirstMemberIndex_succ, groupSize, if_pos h] at hsucc
    omega

/-- The smaller groups are not empty where there are any. -/
theorem groupMinSize_pos (hc : Divisible c) {idx : Nat} (hidx : idx < c.numParticipants)
    (hsmall : (c.groupMinSize + 1) * c.numLargeGroups ≤ idx) : 0 < c.groupMinSize := by
  rcases Nat.eq_zero_or_pos c.groupMinSize with hzero | hpos
  · rw [numParticipants_eq hc, hzero, Nat.mul_zero, Nat.zero_add] at hidx
    rw [hzero, Nat.zero_add, Nat.one_mul] at hsmall
    omega
  · exact hpos

theorem divisorAt_pos (hc : Divisible c) {idx : Nat} (hidx : idx < c.numParticipants) :
    0 < divisorAt c idx := by
  unfold divisorAt
  split
  · exact Nat.succ_pos _
  · rename_i hsmall
    exact groupMinSize_pos hc hidx (not_lt.mp hsmall)

theorem groupSize_pos (hc : Divisible c) {g : Nat} (hg : g < c.numGroups) : 0 < groupSize c g := by
  unfold groupSize
  split
  · exact Nat.succ_pos _
  · rename_i hsmall
    rw [Nat.add_zero]
    rcases Nat.eq_zero_or_pos c.groupMinSize with hzero | hpos
    · have hparticipants := hc.participants
      rw [numParticipants_eq hc, hzero, Nat.mul_zero, Nat.zero_add] at hparticipants
      omega
    · exact hpos

end Sizes

/-! ### Positions and groups -/

section Positions

variable {c : RoundConfig}

theorem memberIndexToGroup_large {idx : Nat}
    (h : idx < (c.groupMinSize + 1) * c.numLargeGroups) :
    c.memberIndexToGroup idx = idx / (c.groupMinSize + 1) := if_pos h

theorem memberIndexToGroup_small {idx : Nat}
    (h : (c.groupMinSize + 1) * c.numLargeGroups ≤ idx) :
    c.memberIndexToGroup idx =
      (idx - (c.groupMinSize + 1) * c.numLargeGroups) / c.groupMinSize + c.numLargeGroups :=
  if_neg (not_lt.mpr h)

/-- The group of a position starts at or before it, and the next group after it. -/
theorem memberIndexToGroup_spec (hc : Divisible c) {idx : Nat} (hidx : idx < c.numParticipants) :
    c.groupToFirstMemberIndex (c.memberIndexToGroup idx) ≤ idx ∧
      idx < c.groupToFirstMemberIndex (c.memberIndexToGroup idx + 1) := by
  rcases lt_or_ge idx ((c.groupMinSize + 1) * c.numLargeGroups) with hlarge | hsmall
  · have hdiv : idx / (c.groupMinSize + 1) < c.numLargeGroups := Nat.div_lt_of_lt_mul hlarge
    have hlow := Nat.div_mul_le_self idx (c.groupMinSize + 1)
    have hhigh := Nat.lt_div_mul_add (Nat.succ_pos c.groupMinSize) (a := idx)
    rw [Nat.succ_eq_add_one] at hhigh
    rw [memberIndexToGroup_large hlarge, groupToFirstMemberIndex_succ, groupToFirstMemberIndex_eq,
      Nat.min_eq_left hdiv.le, groupSize, if_pos hdiv]
    have hmul : idx / (c.groupMinSize + 1) * (c.groupMinSize + 1) =
      idx / (c.groupMinSize + 1) * c.groupMinSize + idx / (c.groupMinSize + 1) := by ring
    constructor
    · omega
    · omega
  · have hmin := groupMinSize_pos hc hidx hsmall
    have hlow := Nat.div_mul_le_self (idx - (c.groupMinSize + 1) * c.numLargeGroups) c.groupMinSize
    have hhigh := Nat.lt_div_mul_add hmin
      (a := idx - (c.groupMinSize + 1) * c.numLargeGroups)
    rw [memberIndexToGroup_small hsmall, groupToFirstMemberIndex_succ, groupToFirstMemberIndex_eq,
      Nat.min_eq_right (Nat.le_add_left _ _), groupSize, if_neg (not_lt.mpr (Nat.le_add_left _ _))]
    generalize (idx - (c.groupMinSize + 1) * c.numLargeGroups) / c.groupMinSize = k at *
    have hmul : (k + c.numLargeGroups) * c.groupMinSize + c.numLargeGroups =
      k * c.groupMinSize + (c.groupMinSize + 1) * c.numLargeGroups := by ring
    constructor
    · omega
    · omega

theorem memberIndexToGroup_eq_iff (hc : Divisible c) {idx g : Nat}
    (hidx : idx < c.numParticipants) :
    c.memberIndexToGroup idx = g ↔
      c.groupToFirstMemberIndex g ≤ idx ∧ idx < c.groupToFirstMemberIndex (g + 1) := by
  have hspec := memberIndexToGroup_spec hc hidx
  constructor
  · rintro rfl
    exact hspec
  · rintro ⟨hlow, hhigh⟩
    rcases Nat.lt_trichotomy (c.memberIndexToGroup idx) g with hlt | heq | hgt
    · have hnext := first_succ_le c hlt
      omega
    · exact heq
    · have hnext := first_succ_le c hgt
      omega

theorem memberIndexToGroup_lt (hc : Divisible c) {idx : Nat} (hidx : idx < c.numParticipants) :
    c.memberIndexToGroup idx < c.numGroups := by
  have hlow := (memberIndexToGroup_spec hc hidx).1
  by_contra hge
  have hmono := groupToFirstMemberIndex_mono c (not_lt.mp hge)
  rw [groupToFirstMemberIndex_numGroups hc] at hmono
  omega

theorem memberIndexToGroup_mono (hc : Divisible c) {i j : Nat} (hij : i ≤ j)
    (hj : j < c.numParticipants) : c.memberIndexToGroup i ≤ c.memberIndexToGroup j := by
  have hi := (memberIndexToGroup_spec hc (lt_of_le_of_lt hij hj)).1
  have hj := (memberIndexToGroup_spec hc hj).2
  by_contra hgt
  have hnext := first_succ_le c (not_le.mp hgt)
  omega

theorem first_lt_numParticipants (hc : Divisible c) {g : Nat} (hg : g < c.numGroups) :
    c.groupToFirstMemberIndex g < c.numParticipants := by
  have hnext := first_succ_le c hg
  have hpos := groupSize_pos hc hg
  rw [groupToFirstMemberIndex_succ, groupToFirstMemberIndex_numGroups hc] at hnext
  omega

theorem memberIndexToGroup_first (hc : Divisible c) {g : Nat} (hg : g < c.numGroups) :
    c.memberIndexToGroup (c.groupToFirstMemberIndex g) = g := by
  rw [memberIndexToGroup_eq_iff hc (first_lt_numParticipants hc hg),
    groupToFirstMemberIndex_succ]
  have hpos := groupSize_pos hc hg
  omega

/-- The positions of a group. -/
def positions (c : RoundConfig) (g : Nat) : Finset Nat :=
  (Finset.range c.numParticipants).filter fun idx => c.memberIndexToGroup idx = g

theorem positions_eq (hc : Divisible c) {g : Nat} (hg : g < c.numGroups) :
    positions c g =
      Finset.Ico (c.groupToFirstMemberIndex g) (c.groupToFirstMemberIndex (g + 1)) := by
  have hlast := first_succ_le c hg
  rw [groupToFirstMemberIndex_numGroups hc] at hlast
  ext idx
  rw [positions, Finset.mem_filter, Finset.mem_range, Finset.mem_Ico]
  constructor
  · rintro ⟨hidx, hgroup⟩
    exact (memberIndexToGroup_eq_iff hc hidx).mp hgroup
  · intro hbounds
    have hidx : idx < c.numParticipants := lt_of_lt_of_le hbounds.2 hlast
    exact ⟨hidx, (memberIndexToGroup_eq_iff hc hidx).mpr hbounds⟩

theorem card_positions (hc : Divisible c) {g : Nat} (hg : g < c.numGroups) :
    (positions c g).card = groupSize c g := by
  rw [positions_eq hc hg, Nat.card_Ico, groupToFirstMemberIndex_succ, Nat.add_sub_cancel_left]

theorem isLeast_first (hc : Divisible c) {g : Nat} (hg : g < c.numGroups) :
    IsLeast {idx | idx ∈ positions c g} (c.groupToFirstMemberIndex g) := by
  have hpos := groupSize_pos hc hg
  constructor
  · rw [Set.mem_ofPred_eq, positions_eq hc hg, Finset.mem_Ico, groupToFirstMemberIndex_succ]
    omega
  · intro idx hidx
    rw [Set.mem_ofPred_eq, positions_eq hc hg, Finset.mem_Ico] at hidx
    exact hidx.1

/-- The groups behind the larger ones are the short ones. -/
theorem card_short (hc : Divisible c) :
    ((Finset.range c.numGroups).filter fun g =>
      (positions c g).card = c.groupMaxSize - 1).card = c.numShortGroups := by
  have hshort : (Finset.range c.numGroups).filter (fun g =>
      (positions c g).card = c.groupMaxSize - 1) = Finset.Ico c.numLargeGroups c.numGroups := by
    ext g
    rw [Finset.mem_filter, Finset.mem_range, Finset.mem_Ico]
    constructor
    · rintro ⟨hg, hcard⟩
      rw [card_positions hc hg, groupSize, ← groupMinSize_succ hc] at hcard
      split at hcard
      · omega
      · omega
    · rintro ⟨hlarge, hg⟩
      refine ⟨hg, ?_⟩
      rw [card_positions hc hg, groupSize, if_neg (not_lt.mpr hlarge), ← groupMinSize_succ hc]
      omega
  have hadd := numLargeGroups_add hc
  rw [hshort, Nat.card_Ico]
  omega

/-- The size chosen by comparing the running position is the size of the group there. -/
theorem groupSizeAt_first (hc : Divisible c) (g : Nat) :
    c.groupSizeAt (c.groupToFirstMemberIndex g) = groupSize c g := by
  have hiff := first_lt_membersInLarge_iff c g
  rw [Nat.mul_comm, groupMinSize_succ hc] at hiff
  unfold RoundConfig.groupSizeAt groupSize
  simp only [hiff]

end Positions

/-! ### Walking over the groups -/

/-- The voters of a group. -/
def groupOf (c : RoundConfig) (votes : List Vote) (g : Nat) : List Vote :=
  votes.filter fun v => c.memberIndexToGroup v.index = g

section Walks

variable {c : RoundConfig} {votes : List Vote}

theorem index_getElem (hvotes : votes.map Vote.index = List.range c.numParticipants) {i : Nat}
    (hi : i < votes.length) : votes[i].index = i := by
  have hget : (votes.map Vote.index)[i]? = some votes[i].index := by
    rw [List.getElem?_map, List.getElem?_eq_getElem hi]
    rfl
  rw [hvotes] at hget
  obtain ⟨_, hindex⟩ := List.getElem?_eq_some_iff.mp hget
  rw [← hindex, List.getElem_range]

theorem length_votes (hvotes : votes.map Vote.index = List.range c.numParticipants) :
    votes.length = c.numParticipants := by
  have hlength := congrArg List.length hvotes
  simpa using hlength

/-- The voters of a group stand together in the list. -/
theorem groupOf_eq (hc : Divisible c)
    (hvotes : votes.map Vote.index = List.range c.numParticipants) (g : Nat) :
    groupOf c votes g = (votes.drop (c.groupToFirstMemberIndex g)).take (groupSize c g) := by
  have hlength := length_votes hvotes
  have hgroup : ∀ i (hi : i < votes.length), c.memberIndexToGroup votes[i].index = g ↔
      c.groupToFirstMemberIndex g ≤ i ∧ i < c.groupToFirstMemberIndex g + groupSize c g := by
    intro i hi
    rw [index_getElem hvotes hi, memberIndexToGroup_eq_iff hc (by omega),
      groupToFirstMemberIndex_succ]
  have hsplit : votes = votes.take (c.groupToFirstMemberIndex g) ++
      ((votes.drop (c.groupToFirstMemberIndex g)).take (groupSize c g) ++
        (votes.drop (c.groupToFirstMemberIndex g)).drop (groupSize c g)) := by
    rw [List.take_append_drop, List.take_append_drop]
  have hbefore : (votes.take (c.groupToFirstMemberIndex g)).filter
      (fun v => c.memberIndexToGroup v.index = g) = [] := by
    rw [List.filter_eq_nil_iff]
    intro v hv
    obtain ⟨i, hi, rfl⟩ := List.mem_iff_getElem.mp hv
    rw [List.length_take] at hi
    rw [List.getElem_take, decide_eq_true_eq, hgroup]
    omega
  have hafter : ((votes.drop (c.groupToFirstMemberIndex g)).drop (groupSize c g)).filter
      (fun v => c.memberIndexToGroup v.index = g) = [] := by
    rw [List.filter_eq_nil_iff]
    intro v hv
    obtain ⟨i, hi, rfl⟩ := List.mem_iff_getElem.mp hv
    rw [List.drop_drop, List.length_drop] at hi
    simp only [List.drop_drop, List.getElem_drop, decide_eq_true_eq]
    rw [hgroup]
    omega
  have hinside : ((votes.drop (c.groupToFirstMemberIndex g)).take (groupSize c g)).filter
      (fun v => c.memberIndexToGroup v.index = g) =
        (votes.drop (c.groupToFirstMemberIndex g)).take (groupSize c g) := by
    rw [List.filter_eq_self]
    intro v hv
    obtain ⟨i, hi, rfl⟩ := List.mem_iff_getElem.mp hv
    rw [List.length_take, List.length_drop] at hi
    rw [List.getElem_take, List.getElem_drop, decide_eq_true_eq, hgroup]
    omega
  unfold groupOf
  conv_lhs => rw [hsplit]
  rw [List.filter_append, List.filter_append, hbefore, hafter, hinside, List.nil_append,
    List.append_nil]

/-- Where the walk stands at a group: what is left of the list starts with the group. -/
theorem drop_first_eq_cons (hc : Divisible c)
    (hvotes : votes.map Vote.index = List.range c.numParticipants) {g : Nat}
    (hg : g < c.numGroups) :
    ∃ v rest, votes.drop (c.groupToFirstMemberIndex g) = v :: rest ∧
      groupSize c g ≤ (v :: rest).length ∧ (v :: rest).take (groupSize c g) = groupOf c votes g ∧
      (v :: rest).drop (groupSize c g) = votes.drop (c.groupToFirstMemberIndex (g + 1)) := by
  have hlength := length_votes hvotes
  have hfirst := first_lt_numParticipants hc hg
  have hnext := first_succ_le c hg
  rw [groupToFirstMemberIndex_numGroups hc, groupToFirstMemberIndex_succ] at hnext
  rcases hdrop : votes.drop (c.groupToFirstMemberIndex g) with _ | ⟨v, rest⟩
  · rw [List.drop_eq_nil_iff] at hdrop
    omega
  · have hsize := congrArg List.length hdrop
    rw [List.length_drop] at hsize
    refine ⟨v, rest, rfl, by omega, ?_, ?_⟩
    · rw [groupOf_eq hc hvotes g, hdrop]
    · rw [← hdrop, List.drop_drop, groupToFirstMemberIndex_succ]

theorem drop_last (hc : Divisible c)
    (hvotes : votes.map Vote.index = List.range c.numParticipants) :
    votes.drop (c.groupToFirstMemberIndex c.numGroups) = [] := by
  rw [groupToFirstMemberIndex_numGroups hc, List.drop_eq_nil_iff, length_votes hvotes]

theorem length_groupOf (hc : Divisible c)
    (hvotes : votes.map Vote.index = List.range c.numParticipants) {g : Nat}
    (hg : g < c.numGroups) : (groupOf c votes g).length = groupSize c g := by
  obtain ⟨v, rest, -, hsize, htake, -⟩ := drop_first_eq_cons hc hvotes hg
  rw [← htake, List.length_take]
  omega

/-- The events of groups, one after the other. -/
def reportAll (p : Platform) (electionTime round : Nat) (groups : List (List Vote))
    (out : Output) : Output :=
  groups.foldl (fun out group =>
    pushEvent p out (.electionCreateGroup electionTime round (group.map Vote.member))) out

/-- The groups that a walk of so many steps meets from a group on. -/
def groupsFrom (c : RoundConfig) (votes : List Vote) (maxSteps g : Nat) : List (List Vote) :=
  (List.range' g (min maxSteps (c.numGroups - g))).map (groupOf c votes)

theorem groupsFrom_succ (maxSteps : Nat) {g : Nat} (hg : g < c.numGroups) :
    groupsFrom c votes (maxSteps + 1) g =
      groupOf c votes g :: groupsFrom c votes maxSteps (g + 1) := by
  have hmin : min (maxSteps + 1) (c.numGroups - g) = min maxSteps (c.numGroups - (g + 1)) + 1 := by
    omega
  rw [groupsFrom, groupsFrom, hmin, List.range'_succ, List.map_cons]

theorem groupsFrom_last (maxSteps : Nat) : groupsFrom c votes maxSteps c.numGroups = [] := by
  simp [groupsFrom]

theorem groupsFrom_zero (g : Nat) : groupsFrom c votes 0 g = [] := by
  simp [groupsFrom]

/-- Reporting meets the groups in their order, and stands before the group after the last one
that it met. -/
theorem reportGroups_walk {p : Platform} {electionTime round : Nat} (hc : Divisible c)
    (hsmall : c.numParticipants < 2 ^ 16)
    (hvotes : votes.map Vote.index = List.range c.numParticipants) (maxSteps : Nat) {g : Nat}
    (hg : g ≤ c.numGroups) (out : Output) :
    reportGroups p electionTime round c maxSteps (votes.drop (c.groupToFirstMemberIndex g))
        (c.groupToFirstMemberIndex g) out =
      .ok (maxSteps - (c.numGroups - g),
        c.groupToFirstMemberIndex (min (g + maxSteps) c.numGroups),
        reportAll p electionTime round (groupsFrom c votes maxSteps g) out) := by
  induction maxSteps generalizing g out with
  | zero =>
      rw [reportGroups, Nat.zero_sub, Nat.add_zero, Nat.min_eq_left hg, groupsFrom_zero]
      rfl
  | succ maxSteps ih =>
      rcases Nat.lt_or_ge g c.numGroups with hlt | hge
      · obtain ⟨v, rest, hdrop, hsize, htake, hrest⟩ := drop_first_eq_cons hc hvotes hlt
        have hnext := first_succ_le c hlt
        rw [groupToFirstMemberIndex_numGroups hc] at hnext
        have hindex : (c.groupToFirstMemberIndex g + groupSize c g) % 2 ^ 16 =
            c.groupToFirstMemberIndex (g + 1) := by
          rw [← groupToFirstMemberIndex_succ]
          exact Nat.mod_eq_of_lt (lt_of_le_of_lt hnext hsmall)
        rw [hdrop, reportGroups]
        simp only [groupSizeAt_first hc]
        rw [decide_eq_true hsize, ensure_true, ok_bind, htake, hrest, hindex]
        refine (ih hlt _).trans ?_
        rw [groupsFrom_succ maxSteps hlt]
        refine congrArg Except.ok ?_
        refine Prod.ext (by dsimp only; omega) (Prod.ext ?_ rfl)
        dsimp only
        congr 1
        omega
      · obtain rfl : g = c.numGroups := Nat.le_antisymm hg hge
        rw [drop_last hc hvotes, reportGroups, groupsFrom_last,
          Nat.min_eq_right (Nat.le_add_right _ _), Nat.sub_self, Nat.sub_zero]
        rfl

theorem finishGroup_walks {p : Platform} {electionTime : Nat} {b b' : Ballot}
    {data data' : PostRound} {group : List Vote}
    (h : finishGroup p electionTime b data group = .ok (b', data')) :
    data'.prevConfig = data.prevConfig ∧
      data'.nextInputIndex = (data.nextInputIndex + group.length) % 2 ^ 16 := by
  obtain ⟨rng, -, ⟨-, -, rfl⟩ | ⟨-, -, rfl⟩⟩ := finishGroup_eq_ok h
  · exact ⟨rfl, rfl⟩
  · exact ⟨rfl, rfl⟩

/-- Finish groups one after the other. -/
def finishAll (p : Platform) (electionTime : Nat) (groups : List (List Vote)) (b : Ballot)
    (data : PostRound) : Outcome (Ballot × PostRound) :=
  groups.foldlM (fun state group => finishGroup p electionTime state.1 state.2 group) (b, data)

theorem next_position (hc : Divisible c) (hsmall : c.numParticipants < 2 ^ 16) {g : Nat}
    (hg : g < c.numGroups) :
    (c.groupToFirstMemberIndex g + groupSize c g) % 2 ^ 16 = c.groupToFirstMemberIndex (g + 1) := by
  have hnext := first_succ_le c hg
  rw [groupToFirstMemberIndex_numGroups hc] at hnext
  rw [← groupToFirstMemberIndex_succ]
  exact Nat.mod_eq_of_lt (lt_of_le_of_lt hnext hsmall)

/-- Finishing meets the same groups as reporting. -/
theorem finishGroups_walk {p : Platform} {electionTime : Nat} (hc : Divisible c)
    (hsmall : c.numParticipants < 2 ^ 16)
    (hvotes : votes.map Vote.index = List.range c.numParticipants) (maxSteps : Nat) {g : Nat}
    (hg : g ≤ c.numGroups) (b : Ballot) {data : PostRound} (hconfig : data.prevConfig = c)
    (hindex : data.nextInputIndex = c.groupToFirstMemberIndex g) :
    finishGroups p electionTime maxSteps (votes.drop (c.groupToFirstMemberIndex g)) b data =
      (finishAll p electionTime (groupsFrom c votes maxSteps g) b data).map fun state =>
        (maxSteps - (c.numGroups - g), state) := by
  induction maxSteps generalizing g b data with
  | zero =>
      rw [finishGroups, groupsFrom_zero, Nat.zero_sub]
      rfl
  | succ maxSteps ih =>
      rcases Nat.lt_or_ge g c.numGroups with hlt | hge
      · obtain ⟨v, rest, hdrop, hsize, htake, hrest⟩ := drop_first_eq_cons hc hvotes hlt
        have hsteps : maxSteps + 1 - (c.numGroups - g) = maxSteps - (c.numGroups - (g + 1)) := by
          omega
        rw [hdrop, finishGroups, groupsFrom_succ maxSteps hlt, hsteps]
        simp only [hconfig, hindex, groupSizeAt_first hc]
        rw [decide_eq_true ⟨groupSize_pos hc hlt, hsize⟩, ensure_true, ok_bind, htake, hrest,
          finishAll, List.foldlM_cons]
        rcases hgroup : finishGroup p electionTime b data (groupOf c votes g) with e | ⟨b₁, data₁⟩
        · rfl
        · obtain ⟨hconfig₁, hindex₁⟩ := finishGroup_walks hgroup
          refine ih hlt b₁ (hconfig₁.trans hconfig) ?_
          rw [hindex₁, hindex, length_groupOf hc hvotes hlt, next_position hc hsmall hlt]
      · obtain rfl : g = c.numGroups := Nat.le_antisymm hg hge
        rw [drop_last hc hvotes, finishGroups, groupsFrom_last, Nat.sub_self, Nat.sub_zero]
        rfl

/-- After the groups the walk stands at the next one. -/
theorem finishAll_position {p : Platform} {electionTime : Nat} (hc : Divisible c)
    (hsmall : c.numParticipants < 2 ^ 16)
    (hvotes : votes.map Vote.index = List.range c.numParticipants) (maxSteps : Nat) {g : Nat}
    (hg : g ≤ c.numGroups) {b b' : Ballot} {data data' : PostRound}
    (hindex : data.nextInputIndex = c.groupToFirstMemberIndex g)
    (h : finishAll p electionTime (groupsFrom c votes maxSteps g) b data = .ok (b', data')) :
    data'.nextInputIndex = c.groupToFirstMemberIndex (min (g + maxSteps) c.numGroups) := by
  induction maxSteps generalizing g b data with
  | zero =>
      rw [groupsFrom_zero] at h
      simp only [finishAll, List.foldlM_nil, pure_eq_ok, Prod.mk.injEq] at h
      rw [← h.2, hindex, Nat.add_zero, Nat.min_eq_left hg]
  | succ maxSteps ih =>
      rcases Nat.lt_or_ge g c.numGroups with hlt | hge
      · rw [groupsFrom_succ maxSteps hlt] at h
        simp only [finishAll, List.foldlM_cons, bind_eq_ok] at h
        obtain ⟨⟨b₁, data₁⟩, hgroup, h⟩ := h
        have hindex₁ := (finishGroup_walks hgroup).2
        rw [hindex, length_groupOf hc hvotes hlt, next_position hc hsmall hlt] at hindex₁
        rw [ih hlt hindex₁ h, Nat.succ_eq_add_one, Nat.add_assoc, Nat.add_comm 1]
      · obtain rfl : g = c.numGroups := Nat.le_antisymm hg hge
        rw [groupsFrom_last] at h
        simp only [finishAll, List.foldlM_nil, pure_eq_ok, Prod.mk.injEq] at h
        rw [← h.2, hindex, Nat.min_eq_right (Nat.le_add_right _ _)]

/-- All groups together are all voters. -/
theorem flatten_groupsFrom (hc : Divisible c)
    (hvotes : votes.map Vote.index = List.range c.numParticipants) {maxSteps : Nat}
    (hsteps : c.numGroups ≤ maxSteps) : (groupsFrom c votes maxSteps 0).flatten = votes := by
  have hgrown : ∀ k ≤ c.numGroups, (groupsFrom c votes k 0).flatten =
      votes.take (c.groupToFirstMemberIndex k) := by
    intro k
    induction k with
    | zero =>
        intro _
        rw [groupsFrom_zero, groupToFirstMemberIndex_zero]
        rfl
    | succ k ih =>
        intro hk
        have hsnoc : groupsFrom c votes (k + 1) 0 =
            groupsFrom c votes k 0 ++ [groupOf c votes k] := by
          rw [groupsFrom, groupsFrom, Nat.sub_zero, Nat.min_eq_left hk,
            Nat.min_eq_left (Nat.le_of_succ_le hk), List.range'_concat, List.map_append]
          simp
        rw [hsnoc, List.flatten_append, ih (Nat.le_of_succ_le hk), List.flatten_singleton,
          groupOf_eq hc hvotes, groupToFirstMemberIndex_succ, List.take_add]
  have hall : groupsFrom c votes maxSteps 0 = groupsFrom c votes c.numGroups 0 := by
    rw [groupsFrom, groupsFrom, Nat.sub_zero, Nat.min_eq_right hsteps, Nat.min_self]
  rw [hall, hgrown _ le_rfl, groupToFirstMemberIndex_numGroups hc, ← length_votes hvotes,
    List.take_length]

end Walks

/-! ### The members of a group -/

section Lists

variable {α : Type} {r : α → α → Prop} {test : α → Bool}

/-- In a sorted list a test that stays true once it is true drops as much as it filters. -/
theorem dropWhile_not_eq_filter {l : List α} (hsorted : l.Pairwise r)
    (hmono : ∀ a ∈ l, ∀ b ∈ l, r a b → test a = true → test b = true) :
    l.dropWhile (fun a => !test a) = l.filter test := by
  induction l with
  | nil => rfl
  | cons a l ih =>
      rw [List.pairwise_cons] at hsorted
      rcases htest : test a with _ | _
      · rw [List.dropWhile_cons_of_pos (by simp [htest]), List.filter_cons_of_neg (by simp [htest])]
        exact ih hsorted.2 fun a ha b hb => hmono a (List.mem_cons_of_mem _ ha) b
          (List.mem_cons_of_mem _ hb)
      · rw [List.dropWhile_cons_of_neg (by simp [htest]), List.filter_eq_self.mpr]
        intro b hb
        rcases List.mem_cons.mp hb with rfl | hb
        · exact htest
        · exact hmono a List.mem_cons_self b (List.mem_cons_of_mem _ hb) (hsorted.1 b hb) htest

/-- In a sorted list a test that stays false once it is false takes as much as it filters. -/
theorem takeWhile_eq_filter {l : List α} (hsorted : l.Pairwise r)
    (hmono : ∀ a ∈ l, ∀ b ∈ l, r a b → test b = true → test a = true) :
    l.takeWhile test = l.filter test := by
  induction l with
  | nil => rfl
  | cons a l ih =>
      rw [List.pairwise_cons] at hsorted
      rcases htest : test a with _ | _
      · rw [List.takeWhile_cons_of_neg (by simp [htest]), List.filter_cons_of_neg (by simp [htest])]
        refine (List.filter_eq_nil_iff.mpr ?_).symm
        intro b hb hb'
        have hfalse := hmono a List.mem_cons_self b (List.mem_cons_of_mem _ hb) (hsorted.1 b hb) hb'
        rw [htest] at hfalse
        exact Bool.false_ne_true hfalse
      · rw [List.takeWhile_cons_of_pos htest, List.filter_cons_of_pos htest]
        congr 1
        exact ih hsorted.2 fun a ha b hb => hmono a (List.mem_cons_of_mem _ ha) b
          (List.mem_cons_of_mem _ hb)

end Lists

/-- All voters of a table have a position in the round. -/
def Seated (votes : VoteTable) (round : Nat) (c : RoundConfig) : Prop :=
  ∀ v ∈ votes.rows, v.round = round ∧ v.index < c.numParticipants

section Members

variable {votes : VoteTable} {round : Nat} {c : RoundConfig}

theorem Seated.index_le (hseated : Seated votes round c) {a b : Vote}
    (ha : a ∈ votes.index Vote.byIndex) (hb : b ∈ votes.index Vote.byIndex)
    (hab : a.byIndex ≤ b.byIndex) : a.index ≤ b.index := by
  rw [Vote.byIndex, Vote.byIndex, (hseated a (Table.mem_index.mp ha)).1,
    (hseated b (Table.mem_index.mp hb)).1] at hab
  exact Nat.le_of_add_le_add_left hab

/-- From the first position of a group on there are its voters and those behind it. -/
theorem Seated.votesFrom_eq (hseated : Seated votes round c) (first : Nat) :
    votesFrom votes round first =
      (votes.index Vote.byIndex).filter fun v => first ≤ v.index := by
  have hdrop : ∀ v : Vote, decide (v.byIndex < round * 2 ^ 16 + first) =
      !decide (round * 2 ^ 16 + first ≤ v.byIndex) := by
    intro v
    rw [← decide_not]
    simp only [Nat.not_le]
  unfold votesFrom
  simp only [hdrop]
  rw [dropWhile_not_eq_filter (votes.index_pairwise Vote.byIndex)]
  · refine List.filter_congr fun v hv => ?_
    rw [Vote.byIndex, (hseated v (Table.mem_index.mp hv)).1]
    simp only [Nat.add_le_add_iff_left]
  · intro a _ b _ hab ha
    simp only [decide_eq_true_eq] at ha ⊢
    exact ha.trans hab

theorem getGroupMembers_eq {s : State} {active : ActiveRound}
    (hround : checkActiveRound s = .ok active) (hc : Divisible active.config)
    (hsmall : active.config.numParticipants < 2 ^ 16)
    (hseated : Seated s.elections.votes active.round active.config) {g : Nat}
    (hg : g < active.config.numGroups) :
    getGroupMembers s (active.round * 2 ^ 16 + g) =
      .ok ((groupOf active.config (s.elections.votes.index Vote.byIndex) g).map Vote.member) := by
  have hparticipants := hc.participants
  have hmod : (active.round * 2 ^ 16 + g) % 2 ^ 16 = g := by omega
  have hdiv : (active.round * 2 ^ 16 + g) / 2 ^ 16 = active.round := by omega
  have hlt : ∀ v ∈ s.elections.votes.index Vote.byIndex,
      v.index < active.config.numParticipants := fun v hv =>
    (hseated v (Table.mem_index.mp hv)).2
  simp only [getGroupMembers, hround, ok_bind, hmod, hdiv]
  rw [hseated.votesFrom_eq, takeWhile_eq_filter
    ((s.elections.votes.index_pairwise Vote.byIndex).sublist List.filter_sublist),
    List.filter_filter]
  · refine congrArg (fun l => Except.ok (l.map Vote.member)) (List.filter_congr fun v hv => ?_)
    -- a voter of the group is not in front of it
    rw [Bool.and_eq_left_iff_imp]
    intro hgroup
    rw [decide_eq_true_eq, memberIndexToGroup_eq_iff hc (hlt v hv)] at hgroup
    exact decide_eq_true hgroup.1
  · intro a ha b hb hab hgroup
    obtain ⟨ha, hfirst⟩ := List.mem_filter.mp ha
    have hb := (List.mem_filter.mp hb).1
    have hle := hseated.index_le ha hb hab
    rw [decide_eq_true_eq] at hfirst
    rw [decide_eq_true_eq, memberIndexToGroup_eq_iff hc (hlt b hb)] at hgroup
    rw [decide_eq_true_eq, memberIndexToGroup_eq_iff hc (hlt a ha)]
    exact ⟨hfirst, lt_of_le_of_lt hle hgroup.2⟩

end Members

/-! ### The bounds of the web application -/

theorem fdiv_natCast (a b : Nat) : (a : Int).fdiv b = ((a / b : Nat) : Int) := by
  rw [Int.fdiv_eq_ediv_of_nonneg _ (Int.natCast_nonneg b), Int.natCast_ediv]

theorem getMemberGroupFromIndex_eq {c : RoundConfig} (hc : Divisible c) {idx : Nat}
    (hidx : idx < c.numParticipants) :
    getMemberGroupFromIndex idx c.numParticipants c.numGroups =
      ⟨c.memberIndexToGroup idx, c.groupToFirstMemberIndex (c.memberIndexToGroup idx),
        (c.groupToFirstMemberIndex (c.memberIndexToGroup idx + 1) : Int) - 1⟩ := by
  have hlow := (groupMaxSize_bounds hc).1
  have hmin := groupMinSize_succ hc
  have hgroups := hc.groups
  have hmax : ((c.numParticipants : Int) + c.numGroups - 1).fdiv c.numGroups = c.groupMaxSize := by
    rw [groupMaxSize_eq hc, ← fdiv_natCast]
    congr 1
    omega
  have hshort : (c.groupMaxSize : Int) * c.numGroups - c.numParticipants = c.numShortGroups := by
    unfold RoundConfig.numShortGroups
    push_cast [Nat.cast_sub hlow]
    rfl
  have hlarge : (c.numGroups : Int) - c.numShortGroups = c.numLargeGroups := by
    have hadd := numLargeGroups_add hc
    omega
  have hsize : (c.groupMaxSize : Int) - 1 = c.groupMinSize := by omega
  have hmembers : ((c.groupMinSize : Int) + 1) * c.numLargeGroups =
      (((c.groupMinSize + 1) * c.numLargeGroups : Nat) : Int) := by push_cast; rfl
  unfold getMemberGroupFromIndex
  simp only [hmax, hshort, hlarge, hsize, hmembers, Nat.cast_lt]
  rw [groupToFirstMemberIndex_succ, groupToFirstMemberIndex_eq, groupSize]
  split
  · rename_i hbefore
    have hdiv : idx / (c.groupMinSize + 1) < c.numLargeGroups := Nat.div_lt_of_lt_mul hbefore
    have hquotient : (idx : Int).fdiv ((c.groupMinSize : Int) + 1) =
        c.memberIndexToGroup idx := by
      rw [memberIndexToGroup_large hbefore, ← fdiv_natCast]
      rfl
    rw [hquotient, memberIndexToGroup_large hbefore, Nat.min_eq_left hdiv.le, if_pos hdiv]
    push_cast
    rw [MemberGroup.mk.injEq]
    exact ⟨rfl, by ring, by ring⟩
  · rename_i hbehind
    have hsmall := not_lt.mp hbehind
    have hquotient : ((idx : Int) - (((c.groupMinSize + 1) * c.numLargeGroups : Nat) : Int)).fdiv
        c.groupMinSize + c.numLargeGroups = c.memberIndexToGroup idx := by
      rw [memberIndexToGroup_small hsmall, ← Nat.cast_sub hsmall, fdiv_natCast]
      push_cast
      rfl
    have hgroup : c.numLargeGroups ≤ c.memberIndexToGroup idx := by
      rw [memberIndexToGroup_small hsmall]
      exact Nat.le_add_left _ _
    rw [hquotient, Nat.min_eq_right hgroup, if_neg (not_lt.mpr hgroup)]
    push_cast
    rw [MemberGroup.mk.injEq]
    exact ⟨rfl, by ring, by ring⟩

/-! ### One partition -/

/-- All the ways to divide the participants of a round into groups are the same: numbers from
positions, first positions, the walks of the rounds, the members of a group and the bounds of the
web application. -/
structure OnePartition (p : Platform) (c : RoundConfig) : Prop where
  divides : ∀ idx < c.numParticipants, 0 < divisorAt c idx
  monotone : ∀ i j, i ≤ j → j < c.numParticipants →
    c.memberIndexToGroup i ≤ c.memberIndexToGroup j
  onto : c.memberIndexToGroup '' Set.Iio c.numParticipants = Set.Iio c.numGroups
  sizes : ∀ g < c.numGroups, (positions c g).card = c.groupMaxSize ∨
    (positions c g).card = c.groupMaxSize - 1
  short : ((Finset.range c.numGroups).filter fun g =>
    (positions c g).card = c.groupMaxSize - 1).card = c.numShortGroups
  first : ∀ g < c.numGroups, IsLeast {idx | idx ∈ positions c g} (c.groupToFirstMemberIndex g)
  reported : ∀ (votes : List Vote), votes.map Vote.index = List.range c.numParticipants →
    ∀ (electionTime round maxSteps g : Nat) (out : Output), g ≤ c.numGroups →
      reportGroups p electionTime round c maxSteps (votes.drop (c.groupToFirstMemberIndex g))
          (c.groupToFirstMemberIndex g) out =
        .ok (maxSteps - (c.numGroups - g),
          c.groupToFirstMemberIndex (min (g + maxSteps) c.numGroups),
          reportAll p electionTime round (groupsFrom c votes maxSteps g) out)
  finished : ∀ (votes : List Vote), votes.map Vote.index = List.range c.numParticipants →
    ∀ (electionTime maxSteps g : Nat) (b : Ballot) (data : PostRound), g ≤ c.numGroups →
      data.prevConfig = c → data.nextInputIndex = c.groupToFirstMemberIndex g →
      finishGroups p electionTime maxSteps (votes.drop (c.groupToFirstMemberIndex g)) b data =
          (finishAll p electionTime (groupsFrom c votes maxSteps g) b data).map (fun state =>
            (maxSteps - (c.numGroups - g), state)) ∧
        ∀ b' data', finishAll p electionTime (groupsFrom c votes maxSteps g) b data =
            .ok (b', data') →
          data'.nextInputIndex = c.groupToFirstMemberIndex (min (g + maxSteps) c.numGroups)
  consumed : c.groupToFirstMemberIndex 0 = 0 ∧
    c.groupToFirstMemberIndex c.numGroups = c.numParticipants ∧
    ∀ (votes : List Vote), votes.map Vote.index = List.range c.numParticipants →
      ∀ maxSteps, c.numGroups ≤ maxSteps → (groupsFrom c votes maxSteps 0).flatten = votes
  members : ∀ (s : State) (active : ActiveRound), checkActiveRound s = .ok active →
    active.config = c → Seated s.elections.votes active.round c → ∀ g < c.numGroups,
      getGroupMembers s (active.round * 2 ^ 16 + g) =
        .ok ((groupOf c (s.elections.votes.index Vote.byIndex) g).map Vote.member)
  web : ∀ idx < c.numParticipants,
    let group := getMemberGroupFromIndex idx c.numParticipants c.numGroups
    group.groupNumber = c.memberIndexToGroup idx ∧
      ∀ i : Nat, i ∈ positions c (c.memberIndexToGroup idx) ↔
        group.lowerBound ≤ i ∧ (i : Int) ≤ group.upperBound

theorem onePartition (p : Platform) {c : RoundConfig} (hc : Divisible c)
    (hsmall : c.numParticipants < 2 ^ 16) : OnePartition p c where
  divides := fun _ hidx => divisorAt_pos hc hidx
  monotone := fun _ _ hij hj => memberIndexToGroup_mono hc hij hj
  onto := by
    ext g
    constructor
    · rintro ⟨idx, hidx, rfl⟩
      exact memberIndexToGroup_lt hc hidx
    · intro hg
      exact ⟨c.groupToFirstMemberIndex g, first_lt_numParticipants hc hg,
        memberIndexToGroup_first hc hg⟩
  sizes := by
    intro g hg
    rw [card_positions hc hg, groupSize, ← groupMinSize_succ hc]
    split
    · exact .inl rfl
    · exact .inr rfl
  short := card_short hc
  first := fun _ hg => isLeast_first hc hg
  reported := fun _ hvotes _ _ maxSteps _ out hg =>
    reportGroups_walk hc hsmall hvotes maxSteps hg out
  finished := fun _ hvotes _ maxSteps _ b _ hg hconfig hindex =>
    ⟨finishGroups_walk hc hsmall hvotes maxSteps hg b hconfig hindex,
      fun _ _ h => finishAll_position hc hsmall hvotes maxSteps hg hindex h⟩
  consumed := ⟨groupToFirstMemberIndex_zero c, groupToFirstMemberIndex_numGroups hc,
    fun _ hvotes _ hsteps => flatten_groupsFrom hc hvotes hsteps⟩
  members := by
    rintro s active hround rfl hseated g hg
    exact getGroupMembers_eq hround hc hsmall hseated hg
  web := by
    intro idx hidx
    rw [getMemberGroupFromIndex_eq hc hidx]
    refine ⟨rfl, fun i => ?_⟩
    rw [positions_eq hc (memberIndexToGroup_lt hc hidx), Finset.mem_Ico]
    dsimp only
    omega

/-- Thirteen participants in a group of five and two of four. -/
theorem onePartition_thirteen : OnePartition HostFunctions.host ⟨13, 3⟩ :=
  onePartition HostFunctions.host ⟨by decide, by decide, by decide⟩ (by decide)

end Eden.GroupPartition
