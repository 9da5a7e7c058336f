import Eden.PoolAccounts

/-!
Distributions in progress are exactly funded: what the contract keeps for one of them is what the
members behind the last one paid still get of it.
-/

namespace Eden.FundedDistributions

open Eden.ExceptReasoning
open Eden.SortedTable
open Eden.ChainPrimitives
open Eden.ContractState
open Eden.Runtime
open Eden.AccountTables
open Eden.MemberTable
open Eden.DistributionTables
open Eden.ElectionRounds
open Eden.ElectionPhases
open Eden.ContractActions
open Eden.Transactions
open Eden.HostFunctions
open Eden.ContractSteps
open Eden.ActionSteps
open Eden.Electorate
open Eden.ElectionSchedule (step_now steps_now)
open Eden.SoundTreasury
open Eden.DistributionShape
open Eden.RankHistogram
open Eden.MemberShares
open Eden.RankLevels
open Eden.PoolAccounts
open Eden.FundBooks (FundAccounts fundKey)

variable {p : Platform} {call : Call} {m m' : Members}

/-! ### The ranks of the members -/

theorem ranksAbove_of_core {t t' : Table Member.account}
    (h : t'.rows.map core = t.rows.map core) : ranksAbove t' = ranksAbove t := by
  funext last
  have hcore : ∀ t : Table Member.account, ranksAbove t last = ((t.rows.map core).map fun m =>
      if last < m.account ∧ 0 < m.electionRank then ({m.electionRank} : Multiset Nat)
      else 0).sum := by
    intro t
    rw [ranksAbove, Table.total, List.map_map]
    rfl
  rw [hcore, hcore, h]

theorem ranksAbove_emplace {t t' : Table Member.account} {row : Member}
    (h : t.emplace? row = some t') (hrank : row.electionRank = 0) :
    ranksAbove t' = ranksAbove t := by
  funext last
  rw [ranksAbove, Table.total_emplace? h, if_neg, zero_add]
  · rfl
  · rw [hrank]
    exact fun hboth => Nat.lt_irrefl 0 hboth.2

theorem ranksAbove_erase {t : Table Member.account} {member : Member}
    (h : t.find? member.account = some member) (last : Name) :
    ranksAbove t last =
      (if last < member.account ∧ 0 < member.electionRank then {member.electionRank} else 0) +
        ranksAbove (t.erase member.account) last :=
  Table.total_erase h _

theorem ranksAbove_modify {account : Name} {row : Member} {f : Member → Member}
    (h : m.table.find? account = some row) (hrank : (f row).electionRank = row.electionRank) :
    ranksAbove (modifyMember m account f).table = ranksAbove m.table := by
  funext last
  have hmodify := @Table.total_modify _ _ _ _ (Multiset Nat) _ m.table account
    (fun row => reindexed row { f row with account := row.account }) (fun _ => rfl) row h
    fun m => if last < m.account ∧ 0 < m.electionRank then {m.electionRank} else 0
  have hbefore := Table.total_erase h
    fun m => if last < m.account ∧ 0 < m.electionRank then ({m.electionRank} : Multiset Nat) else 0
  change Table.total _ _ = Table.total _ _
  rw [hbefore]
  refine hmodify.trans ?_
  have hsame : (reindexed row { f row with account := row.account }).electionRank =
      row.electionRank := hrank
  dsimp only
  rw [hsame]
  rfl

theorem rank_of_pending {row : Member} (h : Graded row) (hpending : row.status = .pendingMembership) :
    row.electionRank = 0 := by
  refine Nat.eq_zero_of_not_pos fun hpos => ?_
  rw [(h.above hpos).1] at hpending
  cases hpending

/-- A new name keeps its rank. -/
theorem ranksAbove_rename {t table : Table Member.account} {member : Member} {newAccount : Name}
    (h : t.find? member.account = some member)
    (htable : t.emplace? { member with account := newAccount, inByRep := true } = some table)
    (hold : emptyName < member.account) (hnew : emptyName < newAccount) (rank : Nat) :
    ranksAbove (renameRows table member.account newAccount rank) emptyName =
      ranksAbove t emptyName := by
  have hne : newAccount ≠ member.account := by
    intro heq
    have hnone : t.find? newAccount = none := Table.emplace?_new htable
    rw [heq, h] at hnone
    cases hnone
  have hfind : table.find? member.account = some member := by
    rw [Table.find?_emplace? htable, if_neg hne]
    exact h
  have hupdate : ranksAbove (renameRows table member.account newAccount rank) emptyName =
      ranksAbove (table.erase member.account) emptyName := by
    rw [ranksAbove, renameRows, Table.total_update]
    refine Table.total_congr fun row _ => ?_
    unfold renameRepresentative
    split
    · rfl
    · rfl
  have hinsert := Table.total_emplace? htable
    fun m => if emptyName < m.account ∧ 0 < m.electionRank then ({m.electionRank} : Multiset Nat)
      else 0
  have herase := ranksAbove_erase hfind emptyName
  rw [hupdate]
  change ranksAbove table emptyName = _ + ranksAbove t emptyName at hinsert
  rw [hinsert] at herase
  simp only [hold, hnew, true_and] at herase
  exact (add_left_cancel herase).symm

/-- The ranks of all members, when those without a name have none. -/
theorem due_all {t : Table Member.account}
    (h : ∀ row ∈ t.rows, 0 < row.electionRank → emptyName < row.account) (shares : List Asset) :
    due (ranksAbove t emptyName) shares =
      (t.rows.map fun row => owed shares row.electionRank).sum := by
  unfold ranksAbove Table.total
  generalize t.rows = rows at h
  induction rows with
  | nil => rfl
  | cons row rows ih =>
      rw [List.forall_mem_cons] at h
      have hrow : (if emptyName < row.account ∧ 0 < row.electionRank then {row.electionRank}
          else 0 : Multiset Nat) = if 0 < row.electionRank then {row.electionRank} else 0 :=
        if_congr ⟨fun hboth => hboth.2, fun hpos => ⟨h.1 hpos, hpos⟩⟩ rfl rfl
      rw [List.map_cons, List.sum_cons, due_add, hrow, due_rank, ih h.2, List.map_cons,
        List.sum_cons]

/-! ### From step to step -/

/-- Whether members have been visited for the election in progress. -/
def hasVisited : Option ElectionState → Prop
  | some (.initVoters data) => data.lastProcessed ≠ emptyName
  | some (.active _) => True
  | some (.postRound _) => True
  | some (.final _) => True
  | _ => False

theorem not_hasVisited_of_idle {current : Option ElectionState} (h : isIdle current = true) :
    ¬ hasVisited current := by
  unfold isIdle at h
  split at h
  all_goals first | exact id | cases h

theorem date_of_hasVisited {current : Option ElectionState} (h : hasVisited current) :
    getNextElectionTime current = none := by
  unfold hasVisited at h
  split at h
  all_goals first | rfl | cases h

theorem idle_of_date {current : Option ElectionState} (h : getNextElectionTime current ≠ none) :
    isIdle current = true := by
  unfold getNextElectionTime at h
  split at h
  all_goals first | rfl | exact absurd rfl h

/-- Before the ranks of an election are given, the distributions by the old ranks are over. -/
structure Financed (p : Platform) (s : State) : Prop extends Levels s where
  formed : Formed s
  funded : Funded p.self (ranksAbove s.members.table) s.distributions
  paid : hasVisited s.elections.current → NoneCurrent s.distributions.table

/-- Calls that leave the accounts of the contract alone: it does not resign, nor is it renamed or
anybody given its name, and it transfers nothing from them. -/
def spares (p : Platform) : Call → Bool
  | .action (.resign account) => account ≠ p.self
  | .action (.rename oldAccount newAccount) => oldAccount ≠ p.self && newAccount ≠ p.self
  | .action (.fundtransfer sender distributionTime rank _ _ _) =>
      sender ≠ p.self && distributionTime < 2 ^ 32 && rank < 2 ^ 8
  | _ => true

theorem pos_of_isAccountName {account : Name} (h : isAccountName account = true) :
    emptyName < account := by
  simp only [isAccountName, Bool.and_eq_true, decide_eq_true_eq] at h
  exact Nat.pos_of_ne_zero h.1.1

theorem Levels.named {s : State} (hs : Levels s) :
    ∀ row ∈ s.members.table.rows, 0 < row.electionRank → emptyName < row.account := by
  intro row hrow hpos
  obtain ⟨hactive, -⟩ := (hs.graded row hrow).above hpos
  exact pos_of_isAccountName
    (hs.enrolled.named _ (isActive_iff_mem.mpr ⟨row, hrow, rfl, hactive⟩))

theorem affords_of_exact {members : Members} (h : Exact members)
    (hnamed : ∀ row ∈ members.table.rows, 0 < row.electionRank → emptyName < row.account) :
    Affords members.stats.ranks (ranksAbove members.table emptyName) := by
  intro total shares used hshares
  obtain ⟨hbound, hsum⟩ := h.shared hshares
  refine ⟨fun rank hrank => ?_, (due_all hnamed shares).trans hsum⟩
  obtain ⟨row, hrow, -, rfl⟩ := mem_ranksAbove.mp hrank
  exact hbound row hrow

theorem Financed.affords {s : State} (hs : Financed p s)
    (hdate : getNextElectionTime s.elections.current ≠ none) :
    Affords s.members.stats.ranks (ranksAbove s.members.table emptyName) :=
  affords_of_exact (hs.exact (idle_of_date hdate)) (Levels.named hs.toLevels)

/-- Distributions without payments in progress do not depend on ranks. -/
theorem funded_of_noneCurrent {contract : Name} {ranks ranks' : Name → Multiset Nat}
    {d : Distributions} (h : Funded contract ranks d) (hnone : NoneCurrent d.table) :
    Funded contract ranks' d :=
  h.congr fun _ _ _ hrow => absurd (hnone _ hrow) Bool.noConfusion

theorem distributes_financed {s : State} {f : Treasury} {maxSteps remaining : Nat}
    (hs : Financed p s) (hend : beforeEnd s.now)
    (hf : distributeMonthly p (calendar s) s.members.table maxSteps (treasury s) =
      .ok (remaining, f)) : Financed p (withTreasury s f) := by
  have hstep : Step p (.action (.electprocess 0)) s (withTreasury s f) := .distributes hf
  refine ⟨step_levels hstep rfl hs.toLevels,
    step_formed hstep rfl hs.enrolled.toNamed hend hs.formed, ?_, fun hvisited => ?_⟩
  · exact distributeMonthly_funded hend hs.funded hs.formed.aligned hs.affords
      (fun m hm => (hs.graded m hm).small) hf
  · exact distributeMonthly_noneCurrent hend hs.formed.aligned.planned
      (date_of_hasVisited hvisited) (hs.paid hvisited) hf

/-- What a step finds that changes ranks. -/
def Calm (s : State) : Prop :=
  ∀ data, s.elections.current = some (.initVoters data) → NoneCurrent s.distributions.table

theorem setup_financed {s : State} {f₀ : Treasury} {r : Treasury × Bool} (hs : Financed p s)
    (hend : beforeEnd s.now) (hsame : f₀.distributions = s.distributions)
    (h : setupDistribution p (calendar s) f₀ 0 = .ok r) :
    Funded p.self (ranksAbove s.members.table) r.1.distributions ∧
      (hasVisited s.elections.current → NoneCurrent r.1.distributions.table) := by
  have hnow : beforeEnd (calendar s).now := hend
  have hfunded : Funded p.self (ranksAbove s.members.table) f₀.distributions := hsame ▸ hs.funded
  have hplanned : Planned f₀.distributions.table := hsame ▸ hs.formed.aligned.planned
  refine ⟨setupDistribution_funded 0 hnow hplanned hs.affords hfunded h, fun hvisited => ?_⟩
  exact setupDistribution_noneCurrent 0 hnow hplanned (date_of_hasVisited hvisited)
    (hsame ▸ hs.paid hvisited) h

theorem Financed.noneCurrent {s : State} {state : ElectionState} (hs : Financed p s)
    (hcurrent : s.elections.current = some state) (hvisited : hasVisited (some state)) :
    NoneCurrent s.distributions.table := hs.paid (hcurrent ▸ hvisited)

/-- In the last round of an election the distributions by the old ranks are over. -/
theorem noneCurrent_of_lastRound {s : State} (hcalm : Calm s) (hs : Financed p s)
    (hround : InLastRound s) : NoneCurrent s.distributions.table := by
  rcases hround with ⟨data, _, hcurrent, _⟩ | ⟨seeder, hcurrent⟩
  · exact hcalm data hcurrent
  · exact hs.noneCurrent hcurrent trivial

theorem Financed.aside {s s' : State} (hs : Financed p s) (hend : beforeEnd s.now)
    (h : Aside s s') : Financed p s' := by
  have hstep : Step p (.action (.electprocess 0)) s s' := .aside h
  refine ⟨step_levels hstep rfl hs.toLevels,
    step_formed hstep rfl hs.enrolled.toNamed hend hs.formed, ?_, ?_⟩
  · rw [ranksAbove_of_core h.rows, h.distributions]
    exact hs.funded
  · rw [h.current, h.distributions]
    exact hs.paid

theorem step_financed {s s' : State} (h : Step p call s s') (hcall : unforced call = true)
    (hspares : spares p call = true) (hend : beforeEnd s.now)
    (hcalm : ∀ n, call = .action (.electprocess n) → Calm s) (hs : Financed p s) :
    Financed p s' := by
  have hlevels := step_levels h hcall hs.toLevels
  have hformed := step_formed h (uninterrupted_of_unforced hcall) hs.enrolled.toNamed hend hs.formed
  cases h with
  | aside haside => exact hs.aside hend haside
  | migrates _ _ _ hrows _ =>
      refine ⟨hlevels, hformed, ?_, hs.paid⟩
      exact ranksAbove_of_core hrows ▸ hs.funded
  | enters _ hcreate =>
      simp only [create, bind_eq_ok, check_eq_ok, exists_const, expect_eq_ok, pure_eq_ok]
        at hcreate
      obtain ⟨_, table, htable, rfl⟩ := hcreate
      refine ⟨hlevels, hformed, ?_, hs.paid⟩
      exact ranksAbove_emplace htable rfl ▸ hs.funded
  | activates _ _ hactive =>
      simp only [setActive, bind_eq_ok, check_eq_ok, exists_const, checkPendingMember_eq_ok,
        decide_eq_true_eq, pure_eq_ok] at hactive
      obtain ⟨_, _, ⟨row, hrow, hpending⟩, rfl⟩ := hactive
      refine ⟨hlevels, hformed, ?_, hs.paid⟩
      have hrank := rank_of_pending (hs.graded row (Table.mem_of_find? hrow)) hpending
      exact hs.funded.congr fun _ _ _ _ => congrFun (ranksAbove_modify hrow hrank.symm) _
  | drops _ hmember hpending _ =>
      refine ⟨hlevels, hformed, ?_, hs.paid⟩
      have hrank := rank_of_pending (hs.graded _ (Table.mem_of_find? hmember)) hpending
      refine hs.funded.congr fun _ last _ _ => ?_
      have herase := ranksAbove_erase hmember last
      rw [hrank, if_neg fun hboth => Nat.lt_irrefl 0 hboth.2, zero_add] at herase
      exact herase.symm
  | opts hopt =>
      simp only [electionOpt, bind_eq_ok, check_eq_ok, exists_const, pure_eq_ok, getMember_eq_ok]
        at hopt
      obtain ⟨row, hrow, _, _, _, _, rfl⟩ := hopt
      refine ⟨hlevels, hformed, ?_, hs.paid⟩
      exact hs.funded.congr fun _ _ _ _ => congrFun (ranksAbove_modify hrow rfl) _
  | @resigns _ member _ _ hrunning hmember hactive hf _ =>
      have hidle := isIdle_of_not_running hrunning
      refine ⟨hlevels, hformed, ?_, fun hvisited => ?_⟩
      · have hself : member.account ≠ p.self := of_decide_eq_true hspares
        exact onResign_funded (c := calendar s) (f := treasury s) hend hs.formed.aligned
          hs.affords hself (ranksAbove_erase hmember) hs.funded hf
      · exact absurd hvisited (not_hasVisited_of_idle hidle)
  | @renames _ member newAccount _ _ _ _ hrunning hnew hmember hactive _ hf _ htable =>
      have hidle := isIdle_of_not_running hrunning
      refine ⟨hlevels, hformed, ?_, fun hvisited => ?_⟩
      · rw [spares, Bool.and_eq_true, decide_eq_true_eq, decide_eq_true_eq] at hspares
        have hold := hs.enrolled.named _ (isActive_iff.mpr ⟨member, hmember, hactive⟩)
        have hsame := ranksAbove_rename hmember htable (pos_of_isAccountName hold)
          (pos_of_isAccountName hnew) member.electionRank
        refine onRename_funded (c := calendar s) (f := treasury (record s _)) hend
          hs.formed.aligned hs.affords hspares.1 hspares.2 hsame hs.funded hf
      · exact absurd hvisited (not_hasVisited_of_idle hidle)
  | schedules => exact ⟨hlevels, hformed, hs.funded, fun hvisited => absurd hvisited id⟩
  | unschedules => exact ⟨hlevels, hformed, hs.funded, fun hvisited => absurd hvisited id⟩
  | aborts => exact absurd hcall (by simp [unforced, uninterrupted])
  | clears => exact absurd hcall (by simp [unforced, uninterrupted])
  | «extends» => exact absurd hcall (by simp [unforced])
  | empties => exact absurd hcall (by simp [unforced])
  | seeds hseed =>
      rcases seed_eq_ok hseed with ⟨_, _, _, _, _, _, _, _, _, rfl⟩ |
        ⟨_, _, _, _, _, _, _, rfl⟩ | ⟨_, _, _, hcurrent, _, _, rfl⟩
      · exact ⟨hlevels, hformed, hs.funded, fun hvisited => absurd hvisited id⟩
      · exact ⟨hlevels, hformed, hs.funded, fun hvisited => absurd hvisited id⟩
      · exact ⟨hlevels, hformed, hs.funded, fun _ => hs.noneCurrent hcurrent trivial⟩
  | @starts _ _ seeder _ _ _ hcurrent hstart _ =>
      obtain ⟨_, rfl, o, f, started, _, hsetup, rfl⟩ := startElection_eq_ok hstart
      refine ⟨hlevels, hformed, ?_, fun hvisited => absurd rfl hvisited⟩
      refine setupDistribution_funded seeder.endTime (c := ⟨s.now, s.members.stats.ranks, none⟩)
        hend hs.formed.aligned.planned (fun _ => hs.affords ?_) hs.funded hsetup
      rw [hcurrent]
      exact Option.some_ne_none _
  | visits hcurrent _ _ =>
      -- ranks change while no distribution goes by them
      have hnone := hcalm _ rfl _ hcurrent
      exact ⟨hlevels, hformed, funded_of_noneCurrent hs.funded hnone, fun _ => hnone⟩
  | reports hcurrent _ =>
      exact ⟨hlevels, hformed, hs.funded, fun _ => hcalm _ rfl _ hcurrent⟩
  | opens hcurrent _ _ _ _ _ _ =>
      exact ⟨hlevels, hformed, hs.funded, fun _ => hcalm _ rfl _ hcurrent⟩
  | votes hvote =>
      obtain ⟨_, _, _, _, _, _, _, _, _, _, _, rfl⟩ := vote_eq_ok hvote
      exact ⟨hlevels, hformed, hs.funded, hs.paid⟩
  | closes hcurrent _ _ =>
      exact ⟨hlevels, hformed, hs.funded, fun _ => hs.noneCurrent hcurrent trivial⟩
  | groups hcurrent _ =>
      have hnone := hs.noneCurrent hcurrent trivial
      exact ⟨hlevels, hformed, funded_of_noneCurrent hs.funded hnone, fun _ => hnone⟩
  | rereports hcurrent _ =>
      exact ⟨hlevels, hformed, hs.funded, fun _ => hs.noneCurrent hcurrent trivial⟩
  | advances hcurrent _ _ _ _ _ _ =>
      have hnone := hs.noneCurrent hcurrent trivial
      exact ⟨hlevels, hformed, funded_of_noneCurrent hs.funded hnone, fun _ => hnone⟩
  | concludes _ _ hround hboard _ hwinner hranks hf _ =>
      refine ⟨hlevels, hformed, ?_, fun hvisited => absurd hvisited id⟩
      subst hboard
      -- the distributions that waited are paid by the new ranks
      have hexact := exact_rankBoard hs.toLevels hround hwinner hranks
      exact processElectionDistribution_funded (noneCurrent_of_lastRound (hcalm _ rfl) hs hround)
        (affords_of_exact hexact (Levels.named hlevels)) hs.funded hf
  | distributes hf => exact distributes_financed hs hend hf
  | fundtransfers _ _ haccounts _ _ =>
      simp only [spares, Bool.and_eq_true, decide_eq_true_eq] at hspares
      refine ⟨hlevels, hformed, ?_, hs.paid⟩
      obtain ⟨⟨hsender, htime⟩, hrank⟩ := hspares
      exact hs.funded.settle
        (subAccount_draws hs.funded.accounts hsender htime (by omega) haccounts) rfl
  | receives _ _ _ _ _ _ hf _ =>
      simp only [addToPool, bind_eq_ok, pure_eq_ok] at hf
      obtain ⟨r, hsetup, owned, -, rfl⟩ := hf
      obtain ⟨hfunded, hpaid⟩ := setup_financed hs hend rfl hsetup
      exact ⟨hlevels, hformed, hfunded, hpaid⟩
  | donates _ _ hf =>
      simp only [addToPool, bind_eq_ok, pure_eq_ok] at hf
      obtain ⟨r, hsetup, owned, -, rfl⟩ := hf
      obtain ⟨hfunded, hpaid⟩ := setup_financed hs hend rfl hsetup
      exact ⟨hlevels, hformed, hfunded, hpaid⟩
  | founds =>
      refine ⟨hlevels, hformed, ?_, hs.paid⟩
      exact hs.funded.settle (.refl hs.funded.accounts 0) rfl
  | _ => exact ⟨hlevels, hformed, hs.funded, hs.paid⟩

/-! ### Whole calls -/

/-- What `electprocess` finds once the distributions by the old ranks are over. -/
def Ready (s : State) : Prop :=
  match s.elections.current with
  | some (.seeding _ _) => False
  | some (.initVoters _) => NoneCurrent s.distributions.table
  | _ => True

theorem Ready.calm {s : State} (h : Ready s) : Calm s := by
  intro data hcurrent
  unfold Ready at h
  rw [hcurrent] at h
  exact h

/-- The rest of the call finds no distribution by the old ranks either. -/
theorem step_ready {s s' : State} {n : Nat} (h : Step p (.action (.electprocess n)) s s')
    (hend : beforeEnd s.now) (hplanned : Planned s.distributions.table) (hs : Ready s) :
    Ready s' := by
  have hcalm := hs.calm
  unfold Ready at hs ⊢
  cases h with
  | aside haside =>
      rw [haside.current, haside.distributions]
      exact hs
  | schedules hcall _ _ => cases hcall
  | unschedules hcall _ _ _ => cases hcall
  | starts hcurrent _ _ =>
      rw [hcurrent] at hs
      exact hs.elim
  | visits hcurrent _ _ => exact hcalm _ hcurrent
  | reports hcurrent _ => exact hcalm _ hcurrent
  | distributes hf =>
      dsimp only [withTreasury]
      split
      · rename_i hcurrent
        rw [hcurrent] at hs
        exact hs
      · rename_i data hcurrent
        refine distributeMonthly_noneCurrent (c := calendar s) hend hplanned ?_
          (hcalm _ hcurrent) hf
        rw [calendar, hcurrent]
        rfl
      · exact trivial
  | advances _ _ _ _ _ hcases _ =>
      rcases hcases with ⟨_, _, _, rfl⟩ | ⟨_, _, rfl⟩
      · exact trivial
      · exact trivial
  | donates hpaid _ _ =>
      rcases hpaid with ⟨heq, -⟩ | ⟨_, _, heq, -⟩
      · cases heq
      · cases heq
  | opens | closes | groups | rereports | concludes => exact trivial
  | _ => exact hs

theorem steps_financed {s s' : State} {n : Nat} (h : Steps p (.action (.electprocess n)) s s')
    (hend : beforeEnd s.now) (hready : Ready s) (hs : Financed p s) : Financed p s' := by
  have hall := steps_preserve (fun t => beforeEnd t.now ∧ Ready t ∧ Financed p t) ?_ h
    ⟨hend, hready, hs⟩
  · exact hall.2.2
  · rintro t t' hstep ⟨hend, hready, hs⟩
    refine ⟨(step_now hstep).symm ▸ hend,
      step_ready hstep hend hs.formed.aligned.planned hready, ?_⟩
    exact step_financed hstep rfl rfl hend (fun _ _ => hready.calm) hs

theorem initVoters_financed {s s' : State} {data : InitVoters} {maxSteps remaining : Nat}
    (h : ElectionPhases.initVoters p s data maxSteps = .ok (s', remaining))
    (hcurrent : s.elections.current = some (.initVoters data)) (hend : beforeEnd s.now)
    (hs : Financed p s) : Financed p s' := by
  obtain ⟨steps, f, hf, hcases⟩ := initVoters_split (n := 0) h hcurrent
  have hpaid := distributes_financed hs hend hf
  rcases hcases with ⟨-, rfl⟩ | ⟨hleft, hsteps⟩
  · exact hpaid
  · -- with steps left, the distributions by the old ranks are over
    have haligned : Aligned (calendar s).now (calendar s).nextElectionTime
        (treasury s).distributions.table := hs.formed.aligned
    refine steps_financed hsteps hend ?_ hpaid
    unfold Ready
    dsimp only [withTreasury]
    rw [hcurrent]
    exact (distributeMonthly_aligned hend haligned hf).2 hleft

theorem prepareElection_financed {s s' : State} {maxSteps remaining : Nat}
    (h : prepareElection p s maxSteps = .ok (s', remaining)) (hend : beforeEnd s.now)
    (hs : Financed p s) : Financed p s' := by
  simp only [prepareElection, bind_eq_ok, getSingleton_eq_ok] at h
  obtain ⟨state, hstate, h⟩ := h
  split at h
  · split at h
    · simp only [pure_eq_ok, Prod.mk.injEq] at h
      exact h.1 ▸ hs
    · rename_i seeder version hpos
      simp only [bind_eq_ok] at h
      obtain ⟨⟨t, data⟩, hstart, h⟩ := h
      have hstep : Step p (.action (.electprocess maxSteps)) s t :=
        .starts hstate hstart (Nat.pos_of_ne_zero hpos)
      have hcurrent : t.elections.current = some (.initVoters data) := by
        obtain ⟨_, _, _, _, _, _, _, rfl⟩ := startElection_eq_ok hstart
        rfl
      have hnow : beforeEnd t.now := (step_now hstep).symm ▸ hend
      have hcalm : Calm s := by
        intro data' hinit
        rw [hstate] at hinit
        cases hinit
      exact initVoters_financed h hcurrent hnow
        (step_financed hstep rfl rfl hend (fun _ _ => hcalm) hs)
  · exact initVoters_financed h hstate hend hs
  · simp only [pure_eq_ok, Prod.mk.injEq] at h
    exact h.1 ▸ hs

theorem finishRound_financed {s s' : State} {maxSteps remaining : Nat}
    (h : finishRound p s maxSteps = .ok (s', remaining)) (hend : beforeEnd s.now)
    (hs : Financed p s) : Financed p s' := by
  have hsteps : Steps p (.action (.electprocess 0)) s s' := finishRound_steps h
  by_cases hready : Ready s
  · exact steps_financed hsteps hend hready hs
  · -- nothing is done while the members are visited
    unfold Ready at hready
    unfold finishRound at h
    split at hready
    · rename_i hcurrent
      simp only [hcurrent, bind_eq_ok, pure_eq_ok, Prod.mk.injEq] at h
      obtain ⟨_, _, rfl, -⟩ := h
      exact hs
    · rename_i hcurrent
      simp only [hcurrent, bind_eq_ok, pure_eq_ok, Prod.mk.injEq] at h
      obtain ⟨_, _, rfl, -⟩ := h
      exact hs
    · exact absurd trivial hready

theorem electprocess_financed {s s' : State} {n : Nat} (h : electprocess p s n = .ok s')
    (hend : beforeEnd s.now) (hs : Financed p s) : Financed p s' := by
  simp only [electprocess, bind_eq_ok, check_eq_ok, exists_const, pure_eq_ok] at h
  obtain ⟨_, _, ⟨t, steps⟩, hprepare, ⟨u, remaining⟩, hfinish, _, rfl⟩ := h
  have hnow : t.now = s.now := steps_now (prepareElection_steps hprepare)
  exact finishRound_financed hfinish (hnow.symm ▸ hend) (prepareElection_financed hprepare hend hs)

theorem exec_financed {env : Env} {s s' : State} (hclean : s.output.serializedEvents = [])
    (h : exec p env s call = .ok s') (hcall : unforced call = true)
    (hspares : spares p call = true) (hend : beforeEnd s.now) (hs : Financed p s) :
    Financed p s' := by
  by_cases hprocess : ∃ n, call = .action (.electprocess n)
  · obtain ⟨n, rfl⟩ := hprocess
    simp only [exec, applyAction, bind_eq_ok, pure_eq_ok] at h
    obtain ⟨t, ht, rfl⟩ := h
    have hrecord : Aside s (record s (.action (.electprocess n))) :=
      aside_output s (quiet_record s rfl)
    have hprocessed : electprocess p (record s (.action (.electprocess n))) n = .ok t := ht
    have hnow : t.now = (record s (.action (.electprocess n))).now :=
      steps_now (electprocess_steps hprocessed)
    have hlast := electprocess_financed hprocessed hend (hs.aside hend hrecord)
    exact hlast.aside (hnow.symm ▸ hend) (aside_output t (Quiet.sendEvents t.output))
  · have hall := steps_preserve (fun t => beforeEnd t.now ∧ Financed p t) ?_
      (exec_steps hclean h).1 ⟨hend, hs⟩
    · exact hall.2
    · rintro t t' hstep ⟨hend, hs⟩
      refine ⟨(step_now hstep).symm ▸ hend, step_financed hstep hcall hspares hend ?_ hs⟩
      exact fun n hn => absurd ⟨n, hn⟩ hprocess

/-! ### Runs -/

theorem untouched_financed {s : State} (h : Untouched s) : Financed p s := by
  refine ⟨untouched_levels h, ?_, ?_, ?_⟩
  · rw [h.1]
    exact ⟨aligned_of_empty rfl, fun _ => rfl⟩
  · rw [h.1]
    exact funded_of_empty rfl rfl
  · rw [h.1]
    exact fun hvisited => absurd hvisited id

theorem Financed.at_time {s : State} (hs : Financed p s) {now : Nat} (hle : s.now ≤ now) :
    Financed p { s with now := now } where
  toLevels := hs.toLevels.at_time now
  formed := ⟨hs.formed.aligned.mono hle fun e' he' => ⟨e', he', le_rfl⟩, hs.formed.unplanned⟩
  funded := hs.funded
  paid := hs.paid

theorem reachable_financed {s : State}
    (h : Reachable p (fun _ call => unforced call = true ∧ spares p call = true) s)
    (hend : beforeEnd s.now) : Financed p s := by
  have hinv := reachable_invariant
    (fun s => (beforeEnd s.now → Financed p s) ∧ s.output.serializedEvents = []) h ?_ ?_ ?_
  · exact hinv.1 hend
  · intro s hs
    refine ⟨fun _ => untouched_financed hs, ?_⟩
    rw [hs.1]
  · rintro s now hle - ⟨hs, hclean⟩
    refine ⟨fun hlater => Financed.at_time (hs ?_) hle, hclean⟩
    unfold beforeEnd at hlater ⊢
    dsimp only at hlater
    omega
  · rintro env s call s' ⟨hcall, hspares⟩ hexec ⟨hs, hclean⟩
    obtain ⟨hsteps, hsent⟩ := exec_steps hclean hexec
    refine ⟨fun hlater => ?_, hsent⟩
    rw [steps_now hsteps] at hlater
    exact exec_financed hclean hexec hcall hspares hlater (hs hlater)

/-- What the contract keeps for the distribution of a time, as it finds it. -/
def poolBalance (contract : Name) (accounts : FundAccounts) (time : Nat) : Int :=
  ((findByOwner accounts (distributionAccountKey contract time 0)).map
    fun a => a.balance.amount).getD 0

theorem poolBalance_eq {contract : Name} {accounts : FundAccounts} {time : Nat}
    (h : Single contract accounts) (htime : time < 2 ^ 32) :
    poolBalance contract accounts time = pooled contract accounts time := by
  unfold poolBalance
  cases hfind : findByOwner accounts (distributionAccountKey contract time 0) with
  | none => exact (pooled_of_none (not_hasPool_of_lookup hfind)).symm
  | some a =>
      obtain ⟨ha, hpool⟩ := h.lookup htime hfind
      exact (h.pooled_eq ha hpool).symm

/-- In every run a distribution that is being paid out has exactly what the members behind the last
one paid still get, none of them with a rank too high for it; one that waits for the end of an
election has all it has reserved; and nothing else is kept for distributions. -/
theorem distributions_funded (p : Platform) (s : State)
    (h : Reachable p (fun _ call => unforced call = true ∧ spares p call = true) s)
    (hend : beforeEnd s.now) :
    (∀ time last shares, .current time last shares ∈ s.distributions.table.rows →
      (∀ m ∈ s.members.table.above last, m.electionRank ≤ shares.length) ∧
      poolBalance p.self s.distributions.accounts time =
        ((s.members.table.above last).map fun m => owed shares m.electionRank).sum) ∧
    (∀ time amount, .election time amount ∈ s.distributions.table.rows →
      poolBalance p.self s.distributions.accounts time = amount.amount) ∧
    ∀ a ∈ s.distributions.accounts.rows, a.owner = p.self → a.rank = 0 →
      ∃ row ∈ s.distributions.table.rows, isNext row = false ∧
        row.distributionTime = a.distributionTime := by
  have hs := reachable_financed h hend
  have hbalance : ∀ row ∈ s.distributions.table.rows, isNext row = false →
      poolBalance p.self s.distributions.accounts row.distributionTime =
        pooled p.self s.distributions.accounts row.distributionTime := by
    intro row hrow hbegun
    have hle := hs.formed.aligned.lined.begun row hrow hbegun
    refine poolBalance_eq hs.funded.accounts ?_
    unfold beforeEnd at hend
    omega
  refine ⟨fun time last shares hrow => ?_, fun time amount hrow => ?_, fun a ha howner hrank => ?_⟩
  · obtain ⟨hbound, hheld⟩ : Backed _ _ (.current time last shares) := hs.funded.backed _ hrow
    refine ⟨fun m hm => ?_, ?_⟩
    · obtain ⟨hmem, hlast⟩ := Table.mem_above.mp hm
      rcases Nat.eq_zero_or_pos m.electionRank with hzero | hpos
      · exact hzero ▸ Nat.zero_le _
      · exact hbound _ (mem_ranksAbove.mpr ⟨m, hmem, ⟨hlast, hpos⟩, rfl⟩)
    · rw [← due_ranksAbove]
      exact (hbalance _ hrow rfl).trans hheld
  · exact (hbalance _ hrow rfl).trans (hs.funded.backed _ hrow)
  · refine hs.funded.begun a.distributionTime ⟨a, ha, ?_⟩
    rw [isPool_iff, fundKey, howner, hrank]

/-- After the first election its distribution is being paid out, by the new ranks. -/
theorem firstElection_funded :
    ∃ s, runFromGenesis host (fun _ call => unforced call = true ∧ spares host call = true)
        firstElection = some s ∧
      s.distributions.table.rows = [.current 1987200 emptyName [eos 10], .next 7171200] ∧
      poolBalance host.self s.distributions.accounts 1987200 =
        ((s.members.table.above emptyName).map fun m => owed [eos 10] m.electionRank).sum := by
  have hrun : (runFromGenesis host
      (fun _ call => unforced call = true ∧ spares host call = true) firstElection).any
      (fun s => decide (beforeEnd s.now) && s.distributions.table.rows =
        [.current 1987200 emptyName [eos 10], .next 7171200]) = true := by
    decide +kernel
  obtain ⟨s, hs, hstate⟩ := (Option.any_eq_true _ _).mp hrun
  rw [Bool.and_eq_true, decide_eq_true_eq, decide_eq_true_eq] at hstate
  obtain ⟨hend, hrows⟩ := hstate
  have hfunded := (distributions_funded host s (reachable_of_run hs) hend).1
  refine ⟨s, hs, hrows, (hfunded 1987200 emptyName [eos 10] ?_).2⟩
  rw [hrows]
  exact List.mem_cons_self

end Eden.FundedDistributions
