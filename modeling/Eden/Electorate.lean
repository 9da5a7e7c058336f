import Eden.ActionSteps

/-!
Active members and voters. Voters are active members from the first step of an election to its
last, and there are none between elections.
-/

namespace Eden.Electorate

open Eden.ExceptReasoning
open Eden.SortedTable
open Eden.ChainPrimitives
open Eden.ElectionPlan
open Eden.ContractState
open Eden.Runtime
open Eden.AccountTables
open Eden.MemberTable
open Eden.DistributionTables
open Eden.ElectionRounds
open Eden.ElectionPhases
open Eden.InductionTables
open Eden.ContractActions
open Eden.Transactions
open Eden.ContractSteps
open Eden.ActionSteps

variable {p : Platform} {call : Call}

/-! ### The status of members -/

def statusOf (t : Table Member.account) (account : Name) : Option MemberStatus :=
  (t.find? account).map Member.status

theorem statusOf_eq_none {t : Table Member.account} {account : Name} :
    statusOf t account = none ↔ t.find? account = none := Option.map_eq_none_iff

/-- Tables that agree on what elections read agree on the status of members. -/
theorem statusOf_congr {t t' : Table Member.account}
    (h : t'.rows.map core = t.rows.map core) (account : Name) :
    statusOf t' account = statusOf t account := by
  have hcore : ∀ u : Table Member.account, statusOf u account =
      ((u.rows.map core).find? fun c => c.account = account).map Member.status := by
    intro u
    rw [List.find?_map, Option.map_map]
    rfl
  rw [hcore, hcore, h]

/-- Tables that agree on what elections read have the same accounts. -/
theorem find?_none_congr {t t' : Table Member.account}
    (h : t'.rows.map core = t.rows.map core) (account : Name) :
    t'.find? account = none ↔ t.find? account = none := by
  rw [← statusOf_eq_none, statusOf_congr h, statusOf_eq_none]

theorem statusOf_modify (t : Table Member.account) (k : Name) (f : Member → Member)
    (hf : ∀ m, (f m).account = m.account) (hstatus : ∀ m, (f m).status = m.status)
    (account : Name) : statusOf (t.modify k f hf) account = statusOf t account := by
  unfold statusOf
  rw [Table.find?_modify]
  split
  · cases t.find? account with
    | none => rfl
    | some m => simp [hstatus]
  · rfl

theorem statusOf_modifyMember (m : Members) (member : Name) (f : Member → Member)
    (hstatus : ∀ row, (f row).status = row.status) (account : Name) :
    statusOf (modifyMember m member f).table account = statusOf m.table account :=
  statusOf_modify m.table member (fun row => reindexed row { f row with account := row.account })
    (fun _ => rfl) hstatus account

theorem statusOf_setRank {m m' : Members} {member representative : Name} {rank : Nat}
    (h : setRank m member rank representative = .ok m') (account : Name) :
    statusOf m'.table account = statusOf m.table account := by
  obtain ⟨_, _, rfl⟩ := setRank_eq_ok h
  exact statusOf_modify _ _ (ranked (rank % 2 ^ 8) representative) (fun _ => rfl) (fun _ => rfl) account

theorem statusOf_setRanksOf {m m' : Members} {voters : List Name} {representative : Name}
    {rank : Nat} (h : setRanksOf m voters rank representative = .ok m') (account : Name) :
    statusOf m'.table account = statusOf m.table account :=
  foldlM_preserves (fun m'' : Members => statusOf m''.table account = statusOf m.table account)
    (fun _ _ _ hstep hm => (statusOf_setRank hstep account).trans hm) voters h rfl

theorem statusOf_rankBoard {m m' : Members} {board : List Name} {winner : Name} {round : Nat}
    (h : rankBoard m board winner round = .ok m') (account : Name) :
    statusOf m'.table account = statusOf m.table account := by
  simp only [rankBoard, bind_eq_ok] at h
  obtain ⟨m₁, h₁, h₂⟩ := h
  exact (statusOf_setRank h₂ account).trans (statusOf_setRanksOf h₁ account)

theorem statusOf_visitMember {b b' : Ballot} {data data' : InitVoters} {member : Member}
    (h : visitMember p b data member = .ok (b', data')) (account : Name) :
    statusOf b'.members.table account = statusOf b.members.table account := by
  unfold visitMember at h
  split at h
  · split at h
    · simp only [bind_eq_ok, pure_eq_ok, Prod.mk.injEq] at h
      obtain ⟨_, _, rfl, -⟩ := h
      rfl
    · simp only [bind_eq_ok, pure_eq_ok, Prod.mk.injEq] at h
      obtain ⟨members, hrank, rfl, -⟩ := h
      exact statusOf_setRank hrank account
  · simp only [pure_eq_ok, Prod.mk.injEq] at h
    rw [h.1]

theorem statusOf_finishGroups {electionTime maxSteps remaining : Nat} {votes : List Vote}
    {b b' : Ballot} {data data' : PostRound}
    (h : finishGroups p electionTime maxSteps votes b data = .ok (remaining, b', data'))
    (account : Name) : statusOf b'.members.table account = statusOf b.members.table account := by
  obtain ⟨_, hsame, _⟩ := finishGroups_preserves
    (fun _ b'' _ => statusOf b''.members.table account = statusOf b.members.table account)
    (fun _ _ _ _ _ _ _ _ _ hgroup hb => by
      obtain ⟨_, hranks, _⟩ := finishGroup_eq_ok hgroup
      exact (statusOf_setRanksOf hranks account).trans hb) h rfl
  exact hsame

theorem statusOf_electionOpt {m m' : Members} {now version : Nat} {time : Option Nat}
    {member : Name} {participating : Bool}
    (h : electionOpt m now time version member participating = .ok m') (account : Name) :
    statusOf m'.table account = statusOf m.table account := by
  simp only [electionOpt, bind_eq_ok, check_eq_ok, exists_const, pure_eq_ok] at h
  obtain ⟨_, _, _, _, _, _, rfl⟩ := h
  refine statusOf_modifyMember m member _ ?_ account
  intro row
  rfl

theorem statusOf_erase (t : Table Member.account) (member account : Name) :
    statusOf (t.erase member) account = if member = account then none else statusOf t account := by
  unfold statusOf
  rw [Table.find?_erase]
  split <;> rfl

theorem statusOf_create {m m' : Members} {member : Name} (h : create m member = .ok m') :
    statusOf m.table member = none ∧ ∀ account, statusOf m'.table account =
      if member = account then some .pendingMembership else statusOf m.table account := by
  simp only [create, bind_eq_ok, check_eq_ok, exists_const, expect_eq_ok, pure_eq_ok] at h
  obtain ⟨_, table, htable, rfl⟩ := h
  refine ⟨statusOf_eq_none.mpr (Table.emplace?_new htable), fun account => ?_⟩
  unfold statusOf
  rw [Table.find?_emplace? htable]
  split <;> rfl

theorem statusOf_setActive {m m' : Members} {member : Name} {name : Text}
    (h : setActive m member name = .ok m') :
    statusOf m.table member = some .pendingMembership ∧ ∀ account, statusOf m'.table account =
      if member = account then some .activeMember else statusOf m.table account := by
  simp only [setActive, bind_eq_ok, check_eq_ok, exists_const, checkPendingMember_eq_ok,
    pure_eq_ok] at h
  obtain ⟨_, _, ⟨row, hrow, hpending⟩, rfl⟩ := h
  refine ⟨by simp [statusOf, hrow, hpending], fun account => ?_⟩
  unfold statusOf
  rw [find?_modifyMember]
  split
  · rename_i haccount
    subst haccount
    change ((m.table.find? member).map _).map _ = _
    rw [hrow]
    rfl
  · rfl

theorem statusOf_renameRows {t table : Table Member.account} {member : Member} {newAccount : Name}
    (htable : t.emplace? { member with account := newAccount, inByRep := true } = some table)
    (rank : Nat) (account : Name) :
    statusOf (renameRows table member.account newAccount rank) account =
      if member.account = account then none
      else if newAccount = account then some member.status else statusOf t account := by
  have hstatus : ∀ m : Member,
      (renameRepresentative member.account newAccount rank m).status = m.status := by
    intro m
    unfold renameRepresentative
    split <;> rfl
  have hupdate : statusOf (renameRows table member.account newAccount rank) account =
      statusOf (table.erase member.account) account := by
    unfold statusOf renameRows
    rw [Table.find?_update, Option.map_map]
    congr 1
    funext m
    exact hstatus m
  rw [hupdate, statusOf_erase]
  unfold statusOf
  rw [Table.find?_emplace? htable]
  split
  · rfl
  · split <;> rfl

/-! ### Active members -/

def isActive (t : Table Member.account) (account : Name) : Bool :=
  (t.find? account).any fun m => m.status = .activeMember

theorem isActive_iff_status {t : Table Member.account} {account : Name} :
    isActive t account = true ↔ statusOf t account = some .activeMember := by
  simp only [isActive, statusOf, Option.any_eq_true, decide_eq_true_eq, Option.map_eq_some_iff]

theorem isActive_of_status {t t' : Table Member.account} {account : Name}
    (h : statusOf t' account = statusOf t account) : isActive t' account = isActive t account := by
  rw [Bool.eq_iff_iff, isActive_iff_status, isActive_iff_status, h]

theorem isActive_iff {t : Table Member.account} {account : Name} :
    isActive t account = true ↔
      ∃ m, t.find? account = some m ∧ m.status = .activeMember := by
  simp only [isActive, Option.any_eq_true, decide_eq_true_eq]

theorem isActive_iff_mem {t : Table Member.account} {account : Name} :
    isActive t account = true ↔
      ∃ m ∈ t.rows, m.account = account ∧ m.status = .activeMember := by
  rw [isActive_iff]
  constructor
  · rintro ⟨m, hm, hactive⟩
    exact ⟨m, Table.mem_of_find? hm, Table.key_of_find? hm, hactive⟩
  · rintro ⟨m, hm, rfl, hactive⟩
    exact ⟨m, Table.find?_of_mem hm, hactive⟩

theorem isActive_congr {t t' : Table Member.account}
    (h : t'.rows.map core = t.rows.map core) (account : Name) :
    isActive t' account = isActive t account := isActive_of_status (statusOf_congr h account)

theorem isActive_rankBoard {m m' : Members} {board : List Name} {winner : Name} {round : Nat}
    (h : rankBoard m board winner round = .ok m') (account : Name) :
    isActive m'.table account = isActive m.table account :=
  isActive_of_status (statusOf_rankBoard h account)

theorem isActive_visitMember {b b' : Ballot} {data data' : InitVoters} {member : Member}
    (h : visitMember p b data member = .ok (b', data')) (account : Name) :
    isActive b'.members.table account = isActive b.members.table account :=
  isActive_of_status (statusOf_visitMember h account)

theorem isActive_finishGroups {electionTime maxSteps remaining : Nat} {votes : List Vote}
    {b b' : Ballot} {data data' : PostRound}
    (h : finishGroups p electionTime maxSteps votes b data = .ok (remaining, b', data'))
    (account : Name) : isActive b'.members.table account = isActive b.members.table account :=
  isActive_of_status (statusOf_finishGroups h account)

theorem isActive_electionOpt {m m' : Members} {now version : Nat} {time : Option Nat}
    {member : Name} {participating : Bool}
    (h : electionOpt m now time version member participating = .ok m') (account : Name) :
    isActive m'.table account = isActive m.table account :=
  isActive_of_status (statusOf_electionOpt h account)

theorem isActive_create {m m' : Members} {member : Name} (h : create m member = .ok m')
    (account : Name) : isActive m'.table account = isActive m.table account := by
  obtain ⟨hnone, hstatus⟩ := statusOf_create h
  rw [Bool.eq_iff_iff, isActive_iff_status, isActive_iff_status, hstatus]
  split
  · rename_i haccount
    rw [← haccount, hnone]
    simp
  · rfl

theorem isActive_setActive {m m' : Members} {member : Name} {name : Text}
    (h : setActive m member name = .ok m') {account : Name}
    (hactive : isActive m'.table account = true) :
    account = member ∨ isActive m.table account = true := by
  rw [isActive_iff_status] at hactive ⊢
  rw [(statusOf_setActive h).2] at hactive
  split at hactive
  · rename_i haccount
    exact .inl haccount.symm
  · exact .inr hactive

theorem isActive_of_setActive {m m' : Members} {member : Name} {name : Text}
    (h : setActive m member name = .ok m') {account : Name}
    (hactive : isActive m.table account = true) : isActive m'.table account = true := by
  rw [isActive_iff_status] at hactive ⊢
  rw [(statusOf_setActive h).2, hactive]
  split <;> rfl

theorem isActive_erase_pending {t : Table Member.account} {member : Member}
    (hmember : t.find? member.account = some member) (hpending : member.status = .pendingMembership)
    (account : Name) : isActive (t.erase member.account) account = isActive t account := by
  rw [Bool.eq_iff_iff, isActive_iff_status, isActive_iff_status, statusOf_erase]
  split
  · rename_i haccount
    rw [← haccount, statusOf, hmember]
    simp [hpending]
  · rfl

theorem isActive_erase {t : Table Member.account} {member account : Name} :
    isActive (t.erase member) account = true ↔ account ≠ member ∧ isActive t account = true := by
  rw [isActive_iff_status, isActive_iff_status, statusOf_erase]
  by_cases haccount : member = account
  · simp [haccount]
  · simp [haccount, Ne.symm haccount]

theorem isActive_renameRows {t table : Table Member.account} {member : Member} {newAccount : Name}
    (hactive : member.status = .activeMember)
    (htable : t.emplace? { member with account := newAccount, inByRep := true } = some table)
    {rank : Nat} {account : Name} :
    isActive (renameRows table member.account newAccount rank) account = true ↔
      account ≠ member.account ∧ (account = newAccount ∨ isActive t account = true) := by
  rw [isActive_iff_status, isActive_iff_status, statusOf_renameRows htable, hactive]
  by_cases hold : member.account = account
  · simp [hold]
  · by_cases hnew : newAccount = account
    · simp [hold, hnew, Ne.symm hold]
    · simp [hold, hnew, Ne.symm hold, Ne.symm hnew]

/-! ### Voters -/

/-- Voters, and those they vote for, have a property. -/
def Voters (P : Name → Prop) (votes : VoteTable) : Prop :=
  ∀ v ∈ votes.rows, P v.member ∧ (v.candidate ≠ emptyName → P v.candidate)

theorem voters_empty (P : Name → Prop) : Voters P (.empty : VoteTable) := by
  intro v hv
  simp at hv

theorem voters_congr {P Q : Name → Prop} {votes : VoteTable} (h : Voters P votes)
    (hPQ : ∀ a, P a → Q a) : Voters Q votes :=
  fun v hv => ⟨hPQ _ (h v hv).1, fun hne => hPQ _ ((h v hv).2 hne)⟩

theorem voters_addVoter {P : Name → Prop} {votes votes' : VoteTable} {rng rng' : ElectionRng}
    {round nextIndex : Nat} {member : Name}
    (h : addVoter p votes rng round nextIndex member = .ok (votes', rng')) (hvotes : Voters P votes)
    (hmember : P member) : Voters P votes' := by
  rcases addVoter_eq_ok h with hemplace | ⟨old, pos, _, hold, _, hemplace⟩
  · intro v hv
    rcases (Table.mem_emplace? hemplace).mp hv with rfl | hv
    · exact ⟨hmember, fun hne => absurd rfl hne⟩
    · exact hvotes v hv
  · intro v hv
    rcases (Table.mem_emplace? hemplace).mp hv with rfl | hv
    · exact ⟨hmember, fun hne => absurd rfl hne⟩
    · rcases Table.mem_replace.mp hv with ⟨hv, _⟩ | ⟨rfl, _⟩
      · exact hvotes v hv
      · exact hvotes old hold

/-- A fold that keeps what it has or takes the next element ends with one of them. -/
theorem eq_or_mem_of_foldl {α : Type} {f : Option α → α → Option α} {l : List α} {acc : Option α}
    {b : α} (h : l.foldl f acc = some b) (hf : ∀ acc a, f acc a = acc ∨ f acc a = some a) :
    acc = some b ∨ b ∈ l := by
  induction l generalizing acc with
  | nil => exact .inl h
  | cons a l ih =>
      rw [List.foldl_cons] at h
      rcases ih h with hacc | hmem
      · rcases hf acc a with hkept | htaken
        · exact .inl (hkept.symm.trans hacc)
        · rw [Option.some.inj (htaken.symm.trans hacc)]
          exact .inr List.mem_cons_self
      · exact .inr (List.mem_cons_of_mem a hmem)

theorem bestCandidate_mem {group : List Vote} {best : Name} (h : bestCandidate group = some best) :
    ∃ v ∈ group, v.candidate = best ∧ best ≠ emptyName := by
  have hmem : best ∈ candidates group := by
    refine (eq_or_mem_of_foldl h fun acc c => ?_).resolve_left (by simp)
    cases acc with
    | none => exact .inr rfl
    | some b =>
        simp only
        split
        · exact .inr rfl
        · exact .inl rfl
  simp only [candidates, List.mem_insertionSort, List.mem_dedup, List.mem_filter, List.mem_map,
    decide_eq_true_eq] at hmem
  obtain ⟨⟨v, hv, rfl⟩, hne⟩ := hmem
  exact ⟨v, hv, rfl, hne⟩

/-- A winner who goes on is one whom a member of the group voted for. -/
theorem groupWinner_mem {group : List Vote} (hgroup : group ≠ [])
    (hnames : ∀ v ∈ group, isAccountName v.member = true) (h : goesOn (groupWinner group)) :
    ∃ v ∈ group, v.candidate = groupWinner group ∧ groupWinner group ≠ emptyName := by
  obtain ⟨first, rest, rfl⟩ := List.exists_cons_of_ne_nil hgroup
  have hnone : ¬ goesOn (complementName first.member) := by
    have hfirst := hnames first List.mem_cons_self
    simp only [isAccountName, Bool.and_eq_true, decide_eq_true_eq] at hfirst
    have hcomplement : ∀ n : Nat, n < 2 ^ 64 → n % 16 = 0 → ¬ (2 ^ 64 - 1 - n) % 16 = 0 := by
      omega
    exact hcomplement first.member hfirst.1.2 hfirst.2
  unfold groupWinner at h ⊢
  cases hbest : bestCandidate (first :: rest) with
  | none =>
      simp only [hbest, List.head?_cons, Option.map_some, Option.getD_some] at h
      exact absurd h hnone
  | some best =>
      simp only [hbest, List.head?_cons, Option.map_some, Option.getD_some] at h ⊢
      split at h
      · rename_i hmajority
        simp only [if_pos hmajority]
        exact bestCandidate_mem hbest
      · exact absurd h hnone

theorem voters_finishGroup {P : Name → Prop} (hP : ∀ a, P a → isAccountName a = true)
    {electionTime : Nat} {b b' : Ballot} {data data' : PostRound} {group : List Vote}
    (h : finishGroup p electionTime b data group = .ok (b', data')) (hne : group ≠ [])
    (hgroup : ∀ v ∈ group, P v.member ∧ (v.candidate ≠ emptyName → P v.candidate))
    (hvotes : Voters P b.votes) : Voters P b'.votes := by
  have herased : Voters P (eraseVotes b.votes group) :=
    fun v hv => hvotes v (mem_eraseVotes.mp hv).1
  obtain ⟨rng, _, ⟨hgoes, hadd, _⟩ | ⟨_, hsame, _⟩⟩ := finishGroup_eq_ok h
  · obtain ⟨v, hv, hcandidate, hwinner⟩ := groupWinner_mem hne
      (fun v hv => hP _ (hgroup v hv).1) hgoes
    refine voters_addVoter hadd herased ?_
    rw [← hcandidate] at hwinner ⊢
    exact (hgroup v hv).2 hwinner
  · rw [hsame]
    exact herased

theorem mem_remainingVotes {votes : VoteTable} {data : PostRound} {v : Vote}
    (h : v ∈ remainingVotes votes data) : v ∈ votes.rows ∧ v.round = data.prevRound := by
  have hround : v.round = data.prevRound := by
    simpa using List.mem_takeWhile_imp h
  have hmem := (List.takeWhile_prefix _).subset h
  exact ⟨Table.mem_index.mp ((List.dropWhile_suffix _).subset hmem), hround⟩

theorem voters_finishGroups {P : Name → Prop} (hP : ∀ a, P a → isAccountName a = true)
    {electionTime maxSteps remaining : Nat} {votes : List Vote} {b b' : Ballot}
    {data data' : PostRound}
    (h : finishGroups p electionTime maxSteps votes b data = .ok (remaining, b', data'))
    (hrest : ∀ v ∈ votes, P v.member ∧ (v.candidate ≠ emptyName → P v.candidate))
    (hvotes : Voters P b.votes) : Voters P b'.votes := by
  obtain ⟨_, ⟨hvotes', _⟩, _⟩ := finishGroups_preserves
    (fun rest b _ => Voters P b.votes ∧
      ∀ v ∈ rest, P v.member ∧ (v.candidate ≠ emptyName → P v.candidate)) (by
      rintro rest k b data b' data' hpos hle _ hgroup ⟨hvotes, hrest⟩
      refine ⟨voters_finishGroup hP hgroup ?_ ?_ hvotes, ?_⟩
      · intro hnil
        have hlength := congrArg List.length hnil
        rw [List.length_take, List.length_nil] at hlength
        omega
      · exact fun v hv => hrest v (List.mem_of_mem_take hv)
      · exact fun v hv => hrest v (List.mem_of_mem_drop hv)) h ⟨hvotes, hrest⟩
  exact hvotes'

/-! ### From election to election -/

/-- Calls that neither break an election off nor clear the tables. -/
def uninterrupted : Call → Bool
  | .action (.finishelect _) => false
  | .action .clearall => false
  | _ => true

/-- No votes are expected: the election has not started. -/
def isIdle : Option ElectionState → Bool
  | none => true
  | some .pendingDate => true
  | some (.registration ..) => true
  | some (.seeding ..) => true
  | _ => false

theorem isIdle_of_not_running {s : State} (h : isElectionRunning s = false) :
    isIdle s.elections.current = true := by
  unfold isElectionRunning at h
  unfold isIdle
  split at h <;> simp_all

/-- What is known of members at any time: who is active, or about to be, has an account. -/
structure Named (s : State) : Prop where
  started : ∀ g, s.globals = some g → g.electionStartTime ≠ unsetStartTime
  endorsed : ∀ row ∈ s.inductions.endorsed.rows, isAccountName row.invitee = true
  named : ∀ a, isActive s.members.table a = true → isAccountName a = true

/-- A step that makes no member active. -/
theorem Named.of_members {s s' : State} (h : Named s) (hglobals : s'.globals = s.globals)
    (hendorsed : s'.inductions.endorsed = s.inductions.endorsed)
    (hactive : ∀ a, isActive s'.members.table a = true → isActive s.members.table a = true) :
    Named s' where
  started := by
    rw [hglobals]
    exact h.started
  endorsed := by
    rw [hendorsed]
    exact h.endorsed
  named := fun a ha => h.named a (hactive a ha)

theorem step_named {s s' : State} (h : Step p call s s') (hs : Named s) : Named s' := by
  cases h with
  | aside haside =>
      refine ⟨?_, ?_, ?_⟩
      · intro g hg hunset
        obtain ⟨g₀, hg₀, hunset₀⟩ := haside.start g hg hunset
        exact hs.started g₀ hg₀ hunset₀
      · rw [haside.endorsed]
        exact hs.endorsed
      · intro a
        rw [isActive_congr haside.rows]
        exact hs.named a
  | enters _ hcreate =>
      exact hs.of_members rfl rfl fun a ha => (isActive_create hcreate a).symm.trans ha
  | activates _ hrow hactive =>
      refine ⟨hs.started, hs.endorsed, ?_⟩
      intro a ha
      rcases isActive_setActive hactive ha with rfl | ha
      · exact hs.endorsed _ hrow
      · exact hs.named a ha
  | drops _ hmember hpending _ =>
      refine hs.of_members rfl rfl fun a ha => ?_
      exact (isActive_erase_pending hmember hpending a).symm.trans ha
  | opts hopt => exact hs.of_members rfl rfl fun a ha => (isActive_electionOpt hopt a).symm.trans ha
  | inducts _ hendorsed =>
      refine ⟨hs.started, ?_, hs.named⟩
      intro row hrow
      rcases hendorsed row hrow with hrow | hvalid
      · exact hs.endorsed row hrow
      · exact hvalid
  | establishes _ hg =>
      have hset := hs.started _ hg
      refine ⟨?_, hs.endorsed, hs.named⟩
      intro g' hg'
      rw [Option.some.injEq] at hg'
      subst hg'
      exact hset
  | resigns => exact hs.of_members rfl rfl fun a ha => (isActive_erase.mp ha).2
  | renames _ hvalid _ hactive _ _ ht htable =>
      refine ⟨hs.started, ?_, ?_⟩
      · rw [show _ = s.inductions.endorsed from renameEndorser_endorsed ht]
        exact hs.endorsed
      · intro a ha
        rcases (isActive_renameRows hactive htable).mp ha with ⟨_, rfl | ha⟩
        · exact hvalid
        · exact hs.named a ha
  | seeds hseed =>
      rcases seed_eq_ok hseed with ⟨_, _, _, _, _, _, _, _, _, rfl⟩ | ⟨_, _, _, _, _, _, _, rfl⟩ |
        ⟨_, _, _, _, _, _, rfl⟩
      · exact hs.of_members rfl rfl fun _ ha => ha
      · exact hs.of_members rfl rfl fun _ ha => ha
      · exact hs.of_members rfl rfl fun _ ha => ha
  | starts _ hstart _ =>
      obtain ⟨_, _, _, _, _, _, _, rfl⟩ := startElection_eq_ok hstart
      exact hs.of_members rfl rfl fun _ ha => ha
  | visits _ _ hvisit =>
      exact hs.of_members rfl rfl fun a ha => (isActive_visitMember hvisit a).symm.trans ha
  | votes hvote =>
      obtain ⟨_, _, _, _, _, _, _, _, _, _, _, rfl⟩ := vote_eq_ok hvote
      exact hs.of_members rfl rfl fun _ ha => ha
  | groups _ hgroups =>
      exact hs.of_members rfl rfl fun a ha => (isActive_finishGroups hgroups a).symm.trans ha
  | advances _ hgroups _ _ _ _ _ =>
      exact hs.of_members rfl rfl fun a ha => (isActive_finishGroups hgroups a).symm.trans ha
  | concludes _ _ _ _ _ _ hranks _ _ =>
      exact hs.of_members rfl rfl fun a ha => (isActive_rankBoard hranks a).symm.trans ha
  | migrates _ _ _ hrows _ =>
      exact hs.of_members rfl rfl fun a ha => (isActive_congr hrows a).symm.trans ha
  | founds _ _ _ hset _ _ _ =>
      refine ⟨?_, hs.endorsed, hs.named⟩
      intro g' hg'
      rw [Option.some.injEq] at hg'
      subst hg'
      exact hset
  | clears hclear =>
      simp only [clearall, bind_eq_ok, pure_eq_ok] at hclear
      obtain ⟨_, _, _, _, rfl⟩ := hclear
      refine ⟨by simp, hs.endorsed, ?_⟩
      intro a ha
      simp [isActive, Table.find?] at ha
  | _ => exact hs.of_members rfl rfl fun _ ha => ha

theorem untouched_named {s : State} (h : Untouched s) : Named s := by
  rw [h.1]
  refine ⟨by simp, by simp, ?_⟩
  intro a ha
  simp [isActive, Table.find?] at ha

/-- What is known of members and voters at any time. -/
structure Enrolled (s : State) : Prop extends Named s where
  idle : isIdle s.elections.current = true → s.elections.votes = .empty
  voters : Voters (fun a => isActive s.members.table a = true) s.elections.votes

/-- A step that keeps the election, and does not take members away from it. -/
theorem Enrolled.of_members {s s' : State} (h : Enrolled s) (hnamed : Named s')
    (hactive : ∀ a, isActive s.members.table a = true → isActive s'.members.table a = true)
    (hcurrent : isIdle s'.elections.current = true → isIdle s.elections.current = true)
    (hvotes : s'.elections.votes = s.elections.votes) : Enrolled s' where
  toNamed := hnamed
  idle := by
    rw [hvotes]
    exact fun hidle => h.idle (hcurrent hidle)
  voters := by
    rw [hvotes]
    exact voters_congr h.voters hactive

/-- A step to an election that runs. -/
theorem Enrolled.of_running {s s' : State} (h : Enrolled s) (hnamed : Named s')
    (hactive : ∀ a, isActive s.members.table a = true → isActive s'.members.table a = true)
    (hcurrent : isIdle s'.elections.current = false)
    (hvotes : s'.elections.votes = s.elections.votes) : Enrolled s' := by
  refine h.of_members hnamed hactive ?_ hvotes
  rw [hcurrent]
  intro hidle
  exact absurd hidle (by simp)

theorem Named.enrolled {s : State} (h : Named s) (hvotes : s.elections.votes = .empty) :
    Enrolled s where
  toNamed := h
  idle := fun _ => hvotes
  voters := by
    rw [hvotes]
    exact voters_empty _

theorem voters_visitMember {s : State} (hs : Enrolled s) {b : Ballot} {data data' : InitVoters}
    {member : Member} (hmember : member ∈ s.members.table.rows)
    (h : visitMember p (ballot s) data member = .ok (b, data')) :
    Voters (fun a => isActive s.members.table a = true) b.votes := by
  unfold visitMember at h
  split at h
  · rename_i hstatus
    split at h
    · simp only [bind_eq_ok, pure_eq_ok, Prod.mk.injEq] at h
      obtain ⟨⟨votes, rng⟩, hadd, rfl, -⟩ := h
      exact voters_addVoter hadd hs.voters (isActive_iff_mem.mpr ⟨member, hmember, rfl, hstatus⟩)
    · simp only [bind_eq_ok, pure_eq_ok, Prod.mk.injEq] at h
      obtain ⟨_, _, rfl, -⟩ := h
      exact hs.voters
  · simp only [pure_eq_ok, Prod.mk.injEq] at h
    rw [← h.1]
    exact hs.voters

theorem enrolled_finishGroups {s : State} (hs : Enrolled s) {electionTime maxSteps remaining : Nat}
    {b : Ballot} {data data' : PostRound} {o : Output} {next : ElectionState}
    (hnamed : Named (withCurrent (withBallot s b) o next))
    (h : finishGroups p electionTime maxSteps (remainingVotes s.elections.votes data) (ballot s)
      data = .ok (remaining, b, data')) (hnext : isIdle (some next) = false) :
    Enrolled (withCurrent (withBallot s b) o next) := by
  refine ⟨hnamed, ?_, ?_⟩
  · intro hidle
    have hidle' : isIdle (some next) = true := hidle
    rw [hnext] at hidle'
    exact absurd hidle' (by simp)
  · have hvoters := voters_finishGroups hs.named h
      (fun v hv => hs.voters v (mem_remainingVotes hv).1) hs.voters
    exact voters_congr hvoters fun a ha => (isActive_finishGroups h a).trans ha

/-- Every step keeps what is known of members and voters, when no election is broken off that has
voters. -/
theorem step_enrolled {s s' : State} (h : Step p call s s')
    (habort : ∀ t, call = .action (.finishelect t) → s.elections.votes = .empty)
    (hs : Enrolled s) : Enrolled s' := by
  have hnamed := step_named h hs.toNamed
  cases h with
  | aside haside =>
      refine hs.of_members hnamed ?_ ?_ haside.votes
      · intro a ha
        exact (isActive_congr haside.rows a).trans ha
      · rw [haside.current]
        exact id
  | enters _ hcreate =>
      exact hs.of_members hnamed (fun a ha => (isActive_create hcreate a).trans ha) id rfl
  | activates _ _ hactive =>
      exact hs.of_members hnamed (fun _ ha => isActive_of_setActive hactive ha) id rfl
  | drops _ hmember hpending _ =>
      refine hs.of_members hnamed ?_ id rfl
      intro a ha
      exact (isActive_erase_pending hmember hpending a).trans ha
  | opts hopt =>
      exact hs.of_members hnamed (fun a ha => (isActive_electionOpt hopt a).trans ha) id rfl
  | resigns hrunning => exact hnamed.enrolled (hs.idle (isIdle_of_not_running hrunning))
  | renames hrunning => exact hnamed.enrolled (hs.idle (isIdle_of_not_running hrunning))
  | schedules _ _ hschedule =>
      refine hs.of_members hnamed (fun _ ha => ha) ?_ rfl
      intro _
      rcases hschedule with ⟨hnone, _⟩ | ⟨_, _, _, hcurrent, _⟩
      · rw [hnone]
        rfl
      · rw [hcurrent]
        rfl
  | unschedules _ _ hg hunset => exact absurd hunset (hs.started _ hg)
  | aborts _ => exact hnamed.enrolled (habort _ rfl)
  | seeds hseed =>
      rcases seed_eq_ok hseed with ⟨_, _, _, _, _, hcurrent, _, _, _, rfl⟩ |
        ⟨_, _, _, _, hcurrent, _, _, rfl⟩ | ⟨_, _, _, _, _, _, rfl⟩
      · exact hs.of_members hnamed (fun _ ha => ha) (fun _ => by rw [hcurrent]; rfl) rfl
      · exact hs.of_members hnamed (fun _ ha => ha) (fun _ => by rw [hcurrent]; rfl) rfl
      · exact hs.of_running hnamed (fun _ ha => ha) rfl rfl
  | starts _ hstart _ =>
      obtain ⟨_, _, _, _, _, _, _, rfl⟩ := startElection_eq_ok hstart
      exact hs.of_running hnamed (fun _ ha => ha) rfl rfl
  | visits _ habove hvisit =>
      have hmember := (Table.mem_above.mp (habove ▸ List.mem_cons_self)).1
      refine ⟨hnamed, ?_, ?_⟩
      · intro hidle
        exact absurd hidle (by simp [withCurrent, isIdle])
      · exact voters_congr (voters_visitMember hs hmember hvisit) fun a ha =>
          (isActive_visitMember hvisit a).trans ha
  | votes hvote =>
      obtain ⟨round, own, other, hcurrent, _, _, hown, _, hother, _, _, rfl⟩ := vote_eq_ok hvote
      refine ⟨hnamed, ?_, ?_⟩
      · intro hidle
        rw [show _ = some (ElectionState.active round) from hcurrent] at hidle
        exact absurd hidle (by simp [isIdle])
      · intro v hv
        rcases Table.mem_replace.mp hv with ⟨hv, _⟩ | ⟨rfl, _⟩
        · exact hs.voters v hv
        · refine ⟨(hs.voters own (Table.mem_of_find? hown)).1, fun _ => ?_⟩
          have hcandidate := (hs.voters other (Table.mem_of_find? hother)).1
          rwa [Table.key_of_find? hother] at hcandidate
  | groups _ hgroups => exact enrolled_finishGroups hs hnamed hgroups rfl
  | advances _ hgroups _ _ _ hnext _ =>
      refine enrolled_finishGroups hs hnamed hgroups ?_
      rcases hnext with ⟨_, _, _, rfl⟩ | ⟨_, _, rfl⟩
      · rfl
      · rfl
  | concludes => exact hnamed.enrolled rfl
  | migrates _ _ _ hrows _ =>
      exact hs.of_members hnamed (fun a ha => (isActive_congr hrows a).trans ha) id rfl
  | clears hclear =>
      simp only [clearall, bind_eq_ok, pure_eq_ok] at hclear
      obtain ⟨_, _, _, _, rfl⟩ := hclear
      exact hnamed.enrolled rfl
  | reports => exact hs.of_running hnamed (fun _ ha => ha) rfl rfl
  | opens => exact hs.of_running hnamed (fun _ ha => ha) rfl rfl
  | closes => exact hs.of_running hnamed (fun _ ha => ha) rfl rfl
  | rereports => exact hs.of_running hnamed (fun _ ha => ha) rfl rfl
  | _ => exact hs.of_members hnamed (fun _ ha => ha) id rfl

theorem untouched_enrolled {s : State} (h : Untouched s) : Enrolled s := by
  refine (untouched_named h).enrolled ?_
  rw [h.1]

end Eden.Electorate
