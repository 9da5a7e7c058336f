import Eden.Electorate

/-!
The statistics count the members: how many are pending, and how many are active.
-/

namespace Eden.MemberStatistics

open Eden.ExceptReasoning
open Eden.SortedTable
open Eden.ChainPrimitives
open Eden.ContractState
open Eden.Runtime
open Eden.MemberTable
open Eden.ElectionRounds
open Eden.ElectionPhases
open Eden.ContractActions
open Eden.Transactions
open Eden.ContractSteps
open Eden.ActionSteps
open Eden.Electorate

variable {p : Platform} {call : Call}

def hasStatus (status : MemberStatus) (m : Member) : Bool := m.status = status

/-- The statistics are those of the table. -/
structure Counted (m : Members) : Prop where
  pending : m.stats.pendingMembers = m.table.count (hasStatus .pendingMembership)
  active : m.stats.activeMembers = m.table.count (hasStatus .activeMember)
  bound : m.stats.pendingMembers < 2 ^ 16

theorem count_core {t t' : Table Member.account} (h : t'.rows.map core = t.rows.map core)
    (status : MemberStatus) : t'.count (hasStatus status) = t.count (hasStatus status) := by
  have hcore : ∀ u : Table Member.account,
      u.count (hasStatus status) = (u.rows.map core).countP (hasStatus status) := by
    intro u
    rw [Table.count, List.countP_map]
    rfl
  rw [hcore, hcore, h]

/-- A change of one row that keeps its status. -/
theorem count_modify_status (t : Table Member.account) (account : Name) (f : Member → Member)
    (hf : ∀ m, (f m).account = m.account) (hstatus : ∀ m, (f m).status = m.status)
    (status : MemberStatus) :
    (t.modify account f hf).count (hasStatus status) = t.count (hasStatus status) := by
  cases hrow : t.find? account with
  | none => rw [Table.modify_of_find?_none hrow]
  | some row =>
      rw [Table.count_modify hrow, Table.count_erase hrow]
      simp [hasStatus, hstatus]

/-- A change that keeps the numbers of members, in the table and in the statistics. -/
structure SameCounts (m m' : Members) : Prop where
  pending : m'.stats.pendingMembers = m.stats.pendingMembers
  active : m'.stats.activeMembers = m.stats.activeMembers
  rows : ∀ status, m'.table.count (hasStatus status) = m.table.count (hasStatus status)

theorem SameCounts.refl (m : Members) : SameCounts m m := ⟨rfl, rfl, fun _ => rfl⟩

theorem SameCounts.trans {m₁ m₂ m₃ : Members} (h : SameCounts m₁ m₂) (h' : SameCounts m₂ m₃) :
    SameCounts m₁ m₃ :=
  ⟨h'.pending.trans h.pending, h'.active.trans h.active,
    fun status => (h'.rows status).trans (h.rows status)⟩

theorem Counted.of_same {m m' : Members} (h : Counted m) (hsame : SameCounts m m') :
    Counted m' where
  pending := by
    rw [hsame.pending, hsame.rows]
    exact h.pending
  active := by
    rw [hsame.active, hsame.rows]
    exact h.active
  bound := by
    rw [hsame.pending]
    exact h.bound

theorem sameCounts_modifyMember (m : Members) (account : Name) {f : Member → Member}
    (hstatus : ∀ row, (f row).status = row.status) : SameCounts m (modifyMember m account f) := by
  refine ⟨rfl, rfl, fun status => ?_⟩
  exact count_modify_status m.table account
    (fun row => reindexed row { f row with account := row.account }) (fun _ => rfl) hstatus status

theorem sameCounts_setRank {m m' : Members} {account representative : Name} {rank : Nat}
    (h : setRank m account rank representative = .ok m') : SameCounts m m' := by
  obtain ⟨_, _, rfl⟩ := setRank_eq_ok h
  refine ⟨rfl, rfl, fun status => ?_⟩
  exact count_modify_status m.table account (ranked (rank % 2 ^ 8) representative) (fun _ => rfl)
    (fun _ => rfl) status

theorem sameCounts_setRanksOf {m m' : Members} {voters : List Name} {representative : Name}
    {rank : Nat} (h : setRanksOf m voters rank representative = .ok m') : SameCounts m m' :=
  foldlM_preserves (SameCounts m) (fun _ _ _ hstep hm => hm.trans (sameCounts_setRank hstep))
    voters h (SameCounts.refl m)

theorem sameCounts_rankBoard {m m' : Members} {board : List Name} {winner : Name} {round : Nat}
    (h : rankBoard m board winner round = .ok m') : SameCounts m m' := by
  simp only [rankBoard, bind_eq_ok] at h
  obtain ⟨m₁, h₁, h₂⟩ := h
  exact (sameCounts_setRanksOf h₁).trans (sameCounts_setRank h₂)

theorem sameCounts_visitMember {b b' : Ballot} {data data' : InitVoters} {member : Member}
    (h : visitMember p b data member = .ok (b', data')) : SameCounts b.members b'.members := by
  unfold visitMember at h
  split at h
  · split at h
    · simp only [bind_eq_ok, pure_eq_ok, Prod.mk.injEq] at h
      obtain ⟨_, _, rfl, -⟩ := h
      exact ⟨rfl, rfl, fun _ => rfl⟩
    · simp only [bind_eq_ok, pure_eq_ok, Prod.mk.injEq] at h
      obtain ⟨members, hrank, rfl, -⟩ := h
      have hsame : SameCounts _ members := sameCounts_setRank hrank
      exact ⟨hsame.pending, hsame.active, hsame.rows⟩
  · simp only [pure_eq_ok, Prod.mk.injEq] at h
    rw [h.1]
    exact SameCounts.refl _

theorem sameCounts_finishGroups {electionTime maxSteps remaining : Nat} {votes : List Vote}
    {b b' : Ballot} {data data' : PostRound}
    (h : finishGroups p electionTime maxSteps votes b data = .ok (remaining, b', data')) :
    SameCounts b.members b'.members := by
  obtain ⟨_, hsame, _⟩ := finishGroups_preserves (fun _ b'' _ => SameCounts b.members b''.members)
    (fun _ _ _ _ _ _ _ _ _ hgroup hb => by
      obtain ⟨_, hranks, _⟩ := finishGroup_eq_ok hgroup
      exact hb.trans (sameCounts_setRanksOf hranks)) h (SameCounts.refl _)
  exact hsame

theorem sameCounts_electionOpt {m m' : Members} {now version : Nat} {time : Option Nat}
    {member : Name} {participating : Bool}
    (h : electionOpt m now time version member participating = .ok m') : SameCounts m m' := by
  simp only [electionOpt, bind_eq_ok, check_eq_ok, exists_const, pure_eq_ok] at h
  obtain ⟨_, _, _, _, _, _, rfl⟩ := h
  exact sameCounts_modifyMember m member fun _ => rfl

theorem sameCounts_renameRows {m : Members} {table : Table Member.account} {member : Member}
    {newAccount : Name} (hmember : m.table.find? member.account = some member)
    (htable : m.table.emplace? { member with account := newAccount, inByRep := true } = some table)
    (rank : Nat) :
    SameCounts m { m with table := renameRows table member.account newAccount rank } := by
  refine ⟨rfl, rfl, fun status => ?_⟩
  have hne : newAccount ≠ member.account := by
    intro heq
    have hnone : m.table.find? newAccount = none := Table.emplace?_new htable
    rw [heq, hmember] at hnone
    exact absurd hnone (by simp)
  have hold : table.find? member.account = some member := by
    rw [Table.find?_emplace? htable, if_neg hne]
    exact hmember
  have hupdate : (renameRows table member.account newAccount rank).count (hasStatus status) =
      (table.erase member.account).count (hasStatus status) := by
    rw [renameRows, Table.count_eq_total, Table.total_update, Table.count_eq_total]
    refine Table.total_congr fun row _ => ?_
    unfold renameRepresentative
    split <;> rfl
  have hinsert := Table.count_emplace? htable (hasStatus status)
  have herase := Table.count_erase hold (hasStatus status)
  have hstatus : hasStatus status { member with account := newAccount, inByRep := true } =
      hasStatus status member := rfl
  rw [hstatus] at hinsert
  change (renameRows table member.account newAccount rank).count (hasStatus status) = _
  omega

theorem counted_create {m m' : Members} {account : Name} (h : create m account = .ok m')
    (hm : Counted m) : Counted m' := by
  simp only [create, bind_eq_ok, check_eq_ok, exists_const, expect_eq_ok, pure_eq_ok,
    decide_eq_true_eq] at h
  obtain ⟨hne, table, htable, rfl⟩ := h
  have hbound := hm.bound
  have hcount : (m.stats.pendingMembers + 1) % 2 ^ 16 = m.stats.pendingMembers + 1 := by omega
  refine ⟨?_, ?_, Nat.mod_lt _ (by decide)⟩
  · change (m.stats.pendingMembers + 1) % 2 ^ 16 = table.count _
    rw [hcount, Table.count_emplace? htable, hm.pending]
    rfl
  · change m.stats.activeMembers = table.count _
    rw [Table.count_emplace? htable, hm.active]
    rfl

theorem count_modifyMember {m : Members} {account : Name} {row : Member}
    (hrow : m.table.find? account = some row) (f : Member → Member) (q : Member → Bool) :
    (modifyMember m account f).table.count q =
      (m.table.erase account).count q +
        if q (reindexed row { f row with account := row.account }) then 1 else 0 :=
  @Table.count_modify _ _ _ _ m.table account
    (fun row => reindexed row { f row with account := row.account }) (fun _ => rfl) row hrow q

theorem counted_setActive {m m' : Members} {account : Name} {name : Text}
    (h : setActive m account name = .ok m') (hm : Counted m) : Counted m' := by
  simp only [setActive, bind_eq_ok, check_eq_ok, exists_const, checkPendingMember_eq_ok,
    decide_eq_true_eq, pure_eq_ok] at h
  obtain ⟨hpos, _, ⟨row, hrow, hpending⟩, rfl⟩ := h
  have hbound := hm.bound
  have herase := fun status => Table.count_erase hrow (hasStatus status)
  refine ⟨?_, ?_, ?_⟩
  · refine Eq.trans ?_ (count_modifyMember hrow _ _).symm
    have hp := herase .pendingMembership
    have hbefore := hm.pending
    simp only [hasStatus, hpending, decide_true, if_true] at hp hbefore
    simp only [hasStatus, reindexed, reduceCtorEq, decide_false, Bool.false_eq_true, if_false,
      Nat.add_zero]
    change m.stats.pendingMembers - 1 = _
    omega
  · refine Eq.trans ?_ (count_modifyMember hrow _ _).symm
    have hp := herase .activeMember
    have hbefore := hm.active
    simp only [hasStatus, hpending, reduceCtorEq, decide_false, Bool.false_eq_true, if_false,
      Nat.add_zero] at hp hbefore
    simp only [hasStatus, reindexed, decide_true, if_true]
    change m.stats.activeMembers + 1 = _
    omega
  · change m.stats.pendingMembers - 1 < 2 ^ 16
    omega

theorem counted_drop {m : Members} {member : Member} (hm : Counted m)
    (hmember : m.table.find? member.account = some member)
    (hpending : member.status = .pendingMembership) :
    Counted (withoutMember m member.account (onePendingLess m.stats)) := by
  have herase := fun status => Table.count_erase hmember (hasStatus status)
  have hbound := hm.bound
  refine ⟨?_, ?_, ?_⟩
  · have hp := herase .pendingMembership
    have hbefore := hm.pending
    simp only [hasStatus, hpending, decide_true, if_true] at hp hbefore
    change m.stats.pendingMembers - 1 = (m.table.erase member.account).count _
    omega
  · have hp := herase .activeMember
    have hbefore := hm.active
    simp only [hasStatus, hpending, reduceCtorEq, decide_false, Bool.false_eq_true, if_false,
      Nat.add_zero] at hp hbefore
    change m.stats.activeMembers = (m.table.erase member.account).count _
    omega
  · change m.stats.pendingMembers - 1 < 2 ^ 16
    omega

theorem counted_resign {m : Members} {member : Member} {stats : MemberStats} (hm : Counted m)
    (hmember : m.table.find? member.account = some member)
    (hactive : member.status = .activeMember) (hstats : uncount m.stats member = .ok stats) :
    Counted (withoutMember m member.account stats) := by
  have herase := fun status => Table.count_erase hmember (hasStatus status)
  simp only [uncount, hactive, bind_eq_ok, check_eq_ok, exists_const, pure_eq_ok] at hstats
  obtain ⟨_, ranks, _, rfl⟩ := hstats
  refine ⟨?_, ?_, hm.bound⟩
  · have hp := herase .pendingMembership
    have hbefore := hm.pending
    simp only [hasStatus, hactive, reduceCtorEq, decide_false, Bool.false_eq_true, if_false,
      Nat.add_zero] at hp hbefore
    change m.stats.pendingMembers = (m.table.erase member.account).count _
    omega
  · have hp := herase .activeMember
    have hbefore := hm.active
    simp only [hasStatus, hactive, decide_true, if_true] at hp hbefore
    change m.stats.activeMembers - 1 = (m.table.erase member.account).count _
    omega

theorem step_counted {s s' : State} (h : Step p call s s') (hs : Counted s.members) :
    Counted s'.members := by
  cases h with
  | aside haside =>
      refine hs.of_same ⟨?_, ?_, fun status => count_core haside.rows status⟩
      · rw [haside.stats]
      · rw [haside.stats]
  | enters _ hcreate => exact counted_create hcreate hs
  | activates _ _ hactive => exact counted_setActive hactive hs
  | drops _ hmember hpending _ => exact counted_drop hs hmember hpending
  | opts hopt => exact hs.of_same (sameCounts_electionOpt hopt)
  | resigns _ hmember hactive _ hstats => exact counted_resign hs hmember hactive hstats
  | renames _ _ hmember _ _ _ _ htable => exact hs.of_same (sameCounts_renameRows hmember htable _)
  | seeds hseed =>
      rcases seed_eq_ok hseed with ⟨_, _, _, _, _, _, _, _, _, rfl⟩ | ⟨_, _, _, _, _, _, _, rfl⟩ |
        ⟨_, _, _, _, _, _, rfl⟩
      · exact hs
      · exact hs
      · exact hs
  | starts _ hstart _ =>
      obtain ⟨_, _, _, _, _, _, _, rfl⟩ := startElection_eq_ok hstart
      exact hs.of_same ⟨rfl, rfl, fun _ => rfl⟩
  | visits _ _ hvisit => exact hs.of_same (sameCounts_visitMember hvisit)
  | votes hvote =>
      obtain ⟨_, _, _, _, _, _, _, _, _, _, _, rfl⟩ := vote_eq_ok hvote
      exact hs
  | groups _ hgroups => exact hs.of_same (sameCounts_finishGroups hgroups)
  | advances _ hgroups _ _ _ _ _ => exact hs.of_same (sameCounts_finishGroups hgroups)
  | concludes _ _ _ _ _ _ hranks _ _ => exact hs.of_same (sameCounts_rankBoard hranks)
  | migrates _ _ _ hrows _ =>
      exact hs.of_same ⟨rfl, rfl, fun status => count_core hrows status⟩
  | clears hclear =>
      simp only [clearall, bind_eq_ok, pure_eq_ok] at hclear
      obtain ⟨_, _, _, _, rfl⟩ := hclear
      exact ⟨rfl, rfl, Nat.two_pow_pos 16⟩
  | «extends» => exact hs.of_same ⟨rfl, rfl, fun _ => rfl⟩
  | empties => exact hs.of_same ⟨rfl, rfl, fun _ => rfl⟩
  | _ => exact hs

theorem untouched_counted {s : State} (h : Untouched s) : Counted s.members := by
  rw [h.1]
  exact ⟨rfl, rfl, Nat.two_pow_pos 16⟩

end Eden.MemberStatistics
