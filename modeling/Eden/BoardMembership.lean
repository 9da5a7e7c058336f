import Eden.Electorate
import Eden.HostFunctions

/-!
The board and the lead representative are active members as long as no lead representative
resigns, which leaves its name stored.
-/

namespace Eden.BoardMembership

open Eden.ExceptReasoning
open Eden.SortedTable
open Eden.ChainPrimitives
open Eden.ContractState
open Eden.Runtime
open Eden.MemberTable
open Eden.ElectionRounds
open Eden.ElectionPhases
open Eden.ContractActions
open Eden.Transactions
open Eden.HostFunctions
open Eden.ContractSteps
open Eden.ActionSteps
open Eden.Electorate

variable {p : Platform} {call : Call}

/-- The stored lead representative does not resign, and no election that has voters is broken
off. -/
def keepsLead (s : State) : Call → Bool
  | .action (.resign account) => !isLead s.elections.results account
  | .action (.finishelect _) => s.elections.votes.rows = []
  | _ => true

/-- What is known of the board at any time. -/
structure Seated (s : State) : Prop where
  enrolled : Enrolled s
  distinct : ∀ r, s.elections.results = some r → r.board.Nodup
  board : ∀ r, s.elections.results = some r → ∀ a ∈ r.board, isActive s.members.table a = true

/-- The same with the lead representative. -/
structure Headed (s : State) : Prop extends Seated s where
  lead : ∀ r, s.elections.results = some r → r.leadRepresentative ≠ emptyName →
    isActive s.members.table r.leadRepresentative = true

/-- One account takes the place of another in a list without repetition. -/
theorem replace_eq_map {l : List Name} {a b : Name} (hl : l.Nodup) :
    l.replace a b = l.map fun x => if x = a then b else x := by
  induction l with
  | nil => rfl
  | cons c l ih =>
      rw [List.nodup_cons] at hl
      by_cases hc : c = a
      · subst hc
        have hsame : l.map (fun x => if x = c then b else x) = l := by
          rw [List.map_congr_left (g := id), List.map_id]
          intro x hx
          have hne : x ≠ c := ne_of_mem_of_not_mem hx hl.1
          rw [if_neg hne, id]
        rw [List.replace_cons_self, List.map_cons, if_pos rfl, hsame]
      · have hbeq : (a == c) = false := by simpa using Ne.symm hc
        rw [List.replace_cons, hbeq, List.map_cons, if_neg hc]
        exact congrArg (c :: ·) (ih hl.2)

theorem nodup_map_renamed {l : List Name} {a b : Name} (hl : l.Nodup) (hb : b ∉ l) :
    (l.map fun x => if x = a then b else x).Nodup := by
  refine hl.map_on ?_
  intro x hx y hy hxy
  split at hxy
  · rename_i hxa
    split at hxy
    · rename_i hya
      rw [hxa, hya]
    · exact absurd (hxy ▸ hy) hb
  · split at hxy
    · exact absurd (hxy ▸ hx) hb
    · exact hxy

theorem mem_map_renamed {l : List Name} {a b x : Name} (hab : b ≠ a)
    (hx : x ∈ l.map fun y => if y = a then b else y) : x ≠ a ∧ (x = b ∨ x ∈ l) := by
  obtain ⟨y, hy, rfl⟩ := List.mem_map.mp hx
  split
  · exact ⟨hab, .inl rfl⟩
  · rename_i hne
    exact ⟨hne, .inr hy⟩

/-! ### The board -/

/-- A step that keeps the results and the active members. -/
theorem Seated.of_same {s s' : State} (h : Seated s) (henrolled : Enrolled s')
    (hresults : s'.elections.results = s.elections.results)
    (hactive : ∀ a, isActive s.members.table a = true → isActive s'.members.table a = true) :
    Seated s' where
  enrolled := henrolled
  distinct := by
    rw [hresults]
    exact h.distinct
  board := by
    rw [hresults]
    exact fun r hr a ha => hactive a (h.board r hr a ha)

theorem seated_resigns {s s' : State} (hs : Seated s) (henrolled : Enrolled s') {account : Name}
    (hresults : s'.elections.results = s.elections.results.map (boardWithout account))
    (htable : s'.members.table = s.members.table.erase account) : Seated s' := by
  refine ⟨henrolled, ?_, ?_⟩
  · intro r' hr'
    rw [hresults] at hr'
    obtain ⟨r, hr, rfl⟩ := Option.map_eq_some_iff.mp hr'
    exact (hs.distinct r hr).erase account
  · intro r' hr' a ha
    rw [hresults] at hr'
    obtain ⟨r, hr, rfl⟩ := Option.map_eq_some_iff.mp hr'
    have hmem := ((hs.distinct r hr).mem_erase_iff).mp ha
    rw [htable]
    exact isActive_erase.mpr ⟨hmem.1, hs.board r hr a hmem.2⟩

theorem not_mem_board {s : State} (hs : Seated s) {account : Name}
    (hnone : s.members.table.find? account = none) {r : ElectionResults}
    (hr : s.elections.results = some r) : account ∉ r.board := by
  intro hin
  have hactive := hs.board r hr account hin
  simp [isActive, hnone] at hactive

theorem seated_renames {s s' : State} (hs : Seated s) (henrolled : Enrolled s') {member : Member}
    {newAccount : Name} {table : Table Member.account} {rank : Nat}
    (hmember : s.members.table.find? member.account = some member)
    (hactive : member.status = .activeMember)
    (htable : s.members.table.emplace? { member with account := newAccount, inByRep := true } =
      some table)
    (hresults : s'.elections.results =
      s.elections.results.map (boardRenamed member.account newAccount))
    (hrows : s'.members.table = renameRows table member.account newAccount rank) : Seated s' := by
  have hnone : s.members.table.find? newAccount = none := Table.emplace?_new htable
  have hne : newAccount ≠ member.account := by
    intro heq
    rw [heq, hmember] at hnone
    exact absurd hnone (by simp)
  refine ⟨henrolled, ?_, ?_⟩
  · intro r' hr'
    rw [hresults] at hr'
    obtain ⟨r, hr, rfl⟩ := Option.map_eq_some_iff.mp hr'
    rw [boardRenamed, replace_eq_map (hs.distinct r hr)]
    exact nodup_map_renamed (hs.distinct r hr) (not_mem_board hs hnone hr)
  · intro r' hr' a ha
    rw [hresults] at hr'
    obtain ⟨r, hr, rfl⟩ := Option.map_eq_some_iff.mp hr'
    rw [boardRenamed, replace_eq_map (hs.distinct r hr)] at ha
    obtain ⟨hold, hmem⟩ := mem_map_renamed hne ha
    rw [hrows, isActive_renameRows hactive htable]
    exact ⟨hold, hmem.imp_right fun hin => hs.board r hr a hin⟩

/-- The voters of the last round are the board. -/
theorem board_is_active {s : State} (hs : Enrolled s) {board : List Name}
    (hboard : board = (s.elections.votes.index Vote.byIndex).map Vote.member) :
    board.Nodup ∧ ∀ a ∈ board, isActive s.members.table a = true := by
  rw [hboard]
  refine ⟨?_, ?_⟩
  · exact ((s.elections.votes.index_perm Vote.byIndex).map Vote.member).nodup_iff.mpr
      s.elections.votes.nodup_keys
  · intro a ha
    obtain ⟨v, hv, rfl⟩ := List.mem_map.mp ha
    exact (hs.voters v (Table.mem_index.mp hv)).1

theorem seated_starts {s s' : State} (hs : Seated s) (henrolled : Enrolled s') {time : Nat}
    (hresults : s'.elections.results =
      some { s.elections.results.getD {} with lastElectionTime := time })
    (hmembers : s'.members.table = s.members.table) : Seated s' := by
  cases hr : s.elections.results with
  | none =>
      rw [hr, Option.getD_none] at hresults
      refine ⟨henrolled, ?_, ?_⟩
      · intro r' hr'
        rw [hresults, Option.some.injEq] at hr'
        subst hr'
        exact List.nodup_nil
      · intro r' hr' a ha
        rw [hresults, Option.some.injEq] at hr'
        subst hr'
        exact absurd ha (by simp)
  | some r =>
      rw [hr, Option.getD_some] at hresults
      refine ⟨henrolled, ?_, ?_⟩
      · intro r' hr'
        rw [hresults, Option.some.injEq] at hr'
        subst hr'
        exact hs.distinct r hr
      · intro r' hr'
        rw [hresults, Option.some.injEq] at hr'
        subst hr'
        rw [hmembers]
        exact hs.board r hr

theorem step_seated {s s' : State} (h : Step p call s s')
    (habort : ∀ t, call = .action (.finishelect t) → s.elections.votes = .empty)
    (hs : Seated s) : Seated s' := by
  have henrolled : Enrolled s' := step_enrolled h habort hs.enrolled
  cases h with
  | aside haside =>
      refine hs.of_same henrolled haside.results ?_
      intro a ha
      rw [isActive_congr haside.rows]
      exact ha
  | enters _ hcreate =>
      exact hs.of_same henrolled rfl fun a ha => (isActive_create hcreate a).trans ha
  | activates _ _ hactive =>
      exact hs.of_same henrolled rfl fun a ha => isActive_of_setActive hactive ha
  | drops _ hmember hpending _ =>
      exact hs.of_same henrolled rfl fun a ha => (isActive_erase_pending hmember hpending a).trans ha
  | opts hopt => exact hs.of_same henrolled rfl fun a ha => (isActive_electionOpt hopt a).trans ha
  | resigns => exact seated_resigns hs henrolled rfl rfl
  | renames _ _ hmember hactive _ _ _ htable =>
      exact seated_renames hs henrolled hmember hactive htable rfl rfl
  | seeds hseed =>
      rcases seed_eq_ok hseed with ⟨_, _, _, _, _, _, _, _, _, rfl⟩ | ⟨_, _, _, _, _, _, _, rfl⟩ |
        ⟨_, _, _, _, _, _, rfl⟩
      · exact hs.of_same henrolled rfl fun _ ha => ha
      · exact hs.of_same henrolled rfl fun _ ha => ha
      · exact hs.of_same henrolled rfl fun _ ha => ha
  | starts _ hstart _ =>
      obtain ⟨_, _, _, _, _, _, _, rfl⟩ := startElection_eq_ok hstart
      exact seated_starts hs henrolled rfl rfl
  | visits _ _ hvisit =>
      exact hs.of_same henrolled rfl fun a ha => (isActive_visitMember hvisit a).trans ha
  | votes hvote =>
      obtain ⟨_, _, _, _, _, _, _, _, _, _, _, rfl⟩ := vote_eq_ok hvote
      exact hs.of_same henrolled rfl fun _ ha => ha
  | groups _ hgroups =>
      exact hs.of_same henrolled rfl fun a ha => (isActive_finishGroups hgroups a).trans ha
  | advances _ hgroups _ _ _ _ _ =>
      exact hs.of_same henrolled rfl fun a ha => (isActive_finishGroups hgroups a).trans ha
  | concludes _ _ _ hboard _ _ hranks _ _ =>
      obtain ⟨hnodup, hactive⟩ := board_is_active hs.enrolled hboard
      refine ⟨henrolled, ?_, ?_⟩
      · intro r' hr'
        rw [show r' = _ from (Option.some.inj hr').symm]
        exact hnodup
      · intro r' hr' a ha
        rw [show r' = _ from (Option.some.inj hr').symm] at ha
        exact (isActive_rankBoard hranks a).trans (hactive a ha)
  | migrates _ _ _ hrows _ =>
      exact hs.of_same henrolled rfl fun a ha => (isActive_congr hrows a).trans ha
  | clears hclear =>
      simp only [clearall, bind_eq_ok, pure_eq_ok] at hclear
      obtain ⟨_, _, _, _, rfl⟩ := hclear
      exact ⟨henrolled, by simp, by simp⟩
  | _ => exact hs.of_same henrolled rfl fun _ ha => ha

theorem untouched_seated {s : State} (h : Untouched s) : Seated s := by
  have hresults : s.elections.results = none := by rw [h.1]
  exact ⟨untouched_enrolled h, by simp [hresults], by simp [hresults]⟩

theorem Seated.at_time {s : State} (h : Seated s) (now : Nat) : Seated { s with now := now } :=
  h.of_same (h.enrolled.of_members (h.enrolled.toNamed.of_members rfl rfl fun _ ha => ha)
    (fun _ ha => ha) id rfl) rfl fun _ ha => ha

/-! ### The lead representative -/

/-- A step that keeps the results and the active members. -/
theorem Headed.of_same {s s' : State} (h : Headed s) (hseated : Seated s')
    (hresults : s'.elections.results = s.elections.results)
    (hactive : ∀ a, isActive s.members.table a = true → isActive s'.members.table a = true) :
    Headed s' where
  toSeated := hseated
  lead := by
    rw [hresults]
    exact fun r hr hne => hactive _ (h.lead r hr hne)

theorem headed_resigns {s s' : State} (hs : Headed s) (hseated : Seated s') {account : Name}
    (hlead : isLead s.elections.results account = false)
    (hresults : s'.elections.results = s.elections.results.map (boardWithout account))
    (htable : s'.members.table = s.members.table.erase account) : Headed s' := by
  refine ⟨hseated, ?_⟩
  intro r' hr' hne
  rw [hresults] at hr'
  obtain ⟨r, hr, rfl⟩ := Option.map_eq_some_iff.mp hr'
  simp only [isLead, hr, Option.any_some, decide_eq_false_iff_not] at hlead
  rw [htable]
  exact isActive_erase.mpr ⟨Ne.symm hlead, hs.lead r hr hne⟩

theorem headed_renames {s s' : State} (hs : Headed s) (hseated : Seated s') {member : Member}
    {newAccount : Name} {table : Table Member.account} {rank : Nat}
    (hmember : s.members.table.find? member.account = some member)
    (hactive : member.status = .activeMember)
    (htable : s.members.table.emplace? { member with account := newAccount, inByRep := true } =
      some table)
    (hresults : s'.elections.results =
      s.elections.results.map (boardRenamed member.account newAccount))
    (hrows : s'.members.table = renameRows table member.account newAccount rank) : Headed s' := by
  have hne : newAccount ≠ member.account := by
    intro heq
    have hnone : s.members.table.find? newAccount = none := Table.emplace?_new htable
    rw [heq, hmember] at hnone
    exact absurd hnone (by simp)
  refine ⟨hseated, ?_⟩
  intro r' hr' hlead
  rw [hresults] at hr'
  obtain ⟨r, hr, rfl⟩ := Option.map_eq_some_iff.mp hr'
  rw [hrows, isActive_renameRows hactive htable]
  simp only [boardRenamed] at hlead ⊢
  split
  · exact ⟨hne, .inl rfl⟩
  · rename_i hother
    rw [if_neg hother] at hlead
    exact ⟨Ne.symm hother, .inr (hs.lead r hr hlead)⟩

theorem headed_starts {s s' : State} (hs : Headed s) (hseated : Seated s') {time : Nat}
    (hresults : s'.elections.results =
      some { s.elections.results.getD {} with lastElectionTime := time })
    (hmembers : s'.members.table = s.members.table) : Headed s' := by
  refine ⟨hseated, ?_⟩
  intro r' hr' hne
  rw [hresults, Option.some.injEq] at hr'
  subst hr'
  cases hr : s.elections.results with
  | none =>
      rw [hr] at hne
      exact absurd rfl hne
  | some r =>
      rw [hr] at hne
      rw [hmembers]
      exact hs.lead r hr hne

theorem step_headed {s s' : State} (h : Step p call s s') (hcall : keepsLead s call = true)
    (hs : Headed s) : Headed s' := by
  have hseated : Seated s' := by
    refine step_seated h ?_ hs.toSeated
    rintro t rfl
    simp only [keepsLead, decide_eq_true_eq] at hcall
    exact Table.ext_rows hcall
  cases h with
  | aside haside =>
      refine hs.of_same hseated haside.results ?_
      intro a ha
      rw [isActive_congr haside.rows]
      exact ha
  | enters _ hcreate =>
      exact hs.of_same hseated rfl fun a ha => (isActive_create hcreate a).trans ha
  | activates _ _ hactive =>
      exact hs.of_same hseated rfl fun a ha => isActive_of_setActive hactive ha
  | drops _ hmember hpending _ =>
      exact hs.of_same hseated rfl fun a ha => (isActive_erase_pending hmember hpending a).trans ha
  | opts hopt => exact hs.of_same hseated rfl fun a ha => (isActive_electionOpt hopt a).trans ha
  | resigns =>
      simp only [keepsLead, Bool.not_eq_true'] at hcall
      exact headed_resigns hs hseated hcall rfl rfl
  | renames _ _ hmember hactive _ _ _ htable =>
      exact headed_renames hs hseated hmember hactive htable rfl rfl
  | seeds hseed =>
      rcases seed_eq_ok hseed with ⟨_, _, _, _, _, _, _, _, _, rfl⟩ | ⟨_, _, _, _, _, _, _, rfl⟩ |
        ⟨_, _, _, _, _, _, rfl⟩
      · exact hs.of_same hseated rfl fun _ ha => ha
      · exact hs.of_same hseated rfl fun _ ha => ha
      · exact hs.of_same hseated rfl fun _ ha => ha
  | starts _ hstart _ =>
      obtain ⟨_, _, _, _, _, _, _, rfl⟩ := startElection_eq_ok hstart
      exact headed_starts hs hseated rfl rfl
  | visits _ _ hvisit =>
      exact hs.of_same hseated rfl fun a ha => (isActive_visitMember hvisit a).trans ha
  | votes hvote =>
      obtain ⟨_, _, _, _, _, _, _, _, _, _, _, rfl⟩ := vote_eq_ok hvote
      exact hs.of_same hseated rfl fun _ ha => ha
  | groups _ hgroups =>
      exact hs.of_same hseated rfl fun a ha => (isActive_finishGroups hgroups a).trans ha
  | advances _ hgroups _ _ _ _ _ =>
      exact hs.of_same hseated rfl fun a ha => (isActive_finishGroups hgroups a).trans ha
  | concludes _ _ _ hboard _ hwinner hranks _ _ =>
      refine ⟨hseated, ?_⟩
      intro r' hr' _
      rw [show r' = _ from (Option.some.inj hr').symm]
      refine (isActive_rankBoard hranks _).trans ?_
      exact (board_is_active hs.enrolled hboard).2 _ hwinner
  | migrates _ _ _ hrows _ =>
      exact hs.of_same hseated rfl fun a ha => (isActive_congr hrows a).trans ha
  | clears hclear =>
      simp only [clearall, bind_eq_ok, pure_eq_ok] at hclear
      obtain ⟨_, _, _, _, rfl⟩ := hclear
      exact ⟨hseated, by simp⟩
  | _ => exact hs.of_same hseated rfl fun _ ha => ha

/-- A call that is allowed at its start is allowed from step to step. -/
theorem step_keepsLead {s s' : State} (h : Step p call s s') (hcall : keepsLead s call = true) :
    keepsLead s' call = true := by
  cases h with
  | aside haside =>
      cases call with
      | action a =>
          cases a with
          | resign account =>
              simp only [keepsLead, haside.results] at hcall ⊢
              exact hcall
          | finishelect time =>
              simp only [keepsLead, haside.votes] at hcall ⊢
              exact hcall
          | _ => exact hcall
      | _ => exact hcall
  | @resigns member =>
      simp only [keepsLead, isLead, Option.any_map] at hcall ⊢
      exact hcall
  | _ => exact hcall

theorem reachable_headed {s : State}
    (h : Reachable p (fun s call => keepsLead s call = true) s) : Headed s := by
  refine reachable_of_calls Headed (fun call s => keepsLead s call = true) h ?_ ?_
    (fun _ _ hcall _ => hcall) ?_
  · intro s hs
    refine ⟨untouched_seated hs, ?_⟩
    rw [hs.1]
    simp
  · intro s now _ _ hs
    exact hs.of_same (hs.toSeated.at_time now) rfl fun _ ha => ha
  · intro call s s' hstep hs hcall
    exact ⟨step_headed hstep hcall hs, step_keepsLead hstep hcall⟩

/-! ### Members who leave or change their account -/

theorem resign_inactive {env : Env} {s s' : State} {account : Name}
    (h : exec p env s (.action (.resign account)) = .ok s') :
    (∃ m, s.members.table.find? account = some m ∧ m.status = .activeMember) ∧
      isActive s'.members.table account = false := by
  simp only [exec, applyAction, dispatch, resign, bind_eq_ok, checkActiveMember_eq_ok,
    pure_eq_ok] at h
  obtain ⟨_, ⟨_, _, _, _, _, hactive, _, _, _, _, t, _, u, hu, rfl⟩, rfl⟩ := h
  refine ⟨hactive, ?_⟩
  obtain ⟨member, stats, o, sessions, hmember, _, _, rfl⟩ := remove_eq_ok hu
  have haccount : member.account = account := Table.key_of_find? hmember
  subst haccount
  simp [isActive, Table.find?_erase]

theorem rename_inactive {env : Env} {s s' : State} {account newAccount : Name}
    (h : exec p env s (.action (.rename account newAccount)) = .ok s') :
    (∃ m, s.members.table.find? account = some m ∧ m.status = .activeMember) ∧
      isActive s'.members.table account = false := by
  simp only [exec, applyAction, dispatch, renameAccount, bind_eq_ok, checkActiveMember_eq_ok,
    pure_eq_ok] at h
  obtain ⟨_, ⟨_, _, _, _, _, _, _, _, _, ⟨m, hm, hactive⟩, _, _, t, ht, _, _, u, hu, _, _, rfl⟩,
    rfl⟩ := h
  refine ⟨⟨m, hm, hactive⟩, ?_⟩
  obtain ⟨_, _, _, rfl⟩ := electionsOnRename_eq_ok ht
  obtain ⟨member, table, o, sessions, hmember, htable, _, rfl⟩ := rename_eq_ok hu
  have hsame : s.members.table.find? account = some member := hmember
  rw [show s.members.table.find? account = some m from hm, Option.some.injEq] at hsame
  subst hsame
  have haccount : m.account = account := Table.key_of_find? hm
  subst haccount
  rw [Bool.eq_false_iff]
  intro hcontra
  exact ((isActive_renameRows hactive htable).mp hcontra).1 rfl

/-- The account is on the board or the lead representative. -/
def isSeated (s : State) (account : Name) : Bool :=
  s.elections.results.any fun r => account ∈ r.board || account = r.leadRepresentative

/-- Everybody on the board, and the lead representative if there is one, is an active member. -/
def Represented (s : State) : Prop :=
  ∀ r, s.elections.results = some r →
    (∀ a ∈ r.board, isActive s.members.table a = true) ∧
      (r.leadRepresentative ≠ emptyName →
        isActive s.members.table r.leadRepresentative = true)

theorem not_isSeated {s : State} (h : Headed s) {account : Name}
    (hvalid : isAccountName account = true) (hinactive : isActive s.members.table account = false) :
    isSeated s account = false := by
  rw [Bool.eq_false_iff]
  intro hseated
  simp only [isSeated, Option.any_eq_true, Bool.or_eq_true, decide_eq_true_eq] at hseated
  obtain ⟨r, hr, hboard | rfl⟩ := hseated
  · have hactive := h.board r hr account hboard
    rw [hinactive] at hactive
    exact absurd hactive (by simp)
  · have hne : r.leadRepresentative ≠ emptyName := by
      intro hempty
      rw [hempty] at hvalid
      exact absurd hvalid (by decide)
    have hactive := h.lead r hr hne
    rw [hinactive] at hactive
    exact absurd hactive (by simp)

/-- As long as no stored lead representative resigns, the board and the lead representative are
active members, and whoever resigns or is renamed is neither. -/
theorem board_and_lead_are_members (p : Platform) :
    (∀ s, Reachable p (fun s call => keepsLead s call = true) s →
      isElectionRunning s = false → Represented s) ∧
    (∀ s s' env now account, Reachable p (fun s call => keepsLead s call = true) s →
      s.now ≤ now → now < 2 ^ 32 → keepsLead s (.action (.resign account)) = true →
      exec p env { s with now := now } (.action (.resign account)) = .ok s' →
      isSeated s' account = false) ∧
    (∀ s s' env now account newAccount,
      Reachable p (fun s call => keepsLead s call = true) s → s.now ≤ now → now < 2 ^ 32 →
      exec p env { s with now := now } (.action (.rename account newAccount)) = .ok s' →
      isSeated s' account = false) := by
  refine ⟨?_, ?_, ?_⟩
  · intro s h _ r hr
    have hheaded := reachable_headed h
    exact ⟨hheaded.board r hr, hheaded.lead r hr⟩
  · intro s s' env now account h hnow hlt hcall hexec
    obtain ⟨hactive, hinactive⟩ := resign_inactive hexec
    have hvalid := (reachable_headed h).enrolled.named account (isActive_iff.mpr hactive)
    have hreachable : Reachable p (fun s call => keepsLead s call = true) s' :=
      reachable_call h hnow hlt (by exact hcall) hexec
    exact not_isSeated (reachable_headed hreachable) hvalid hinactive
  · intro s s' env now account newAccount h hnow hlt hexec
    obtain ⟨hactive, hinactive⟩ := rename_inactive hexec
    have hvalid := (reachable_headed h).enrolled.named account (isActive_iff.mpr hactive)
    exact not_isSeated (reachable_headed (reachable_call h hnow hlt rfl hexec)) hvalid hinactive

theorem first_board_represented :
    ∃ s, runFromGenesis host (fun s call => keepsLead s call = true) firstElection = some s ∧
      isElectionRunning s = false ∧ Represented s := by
  have hrun : (runFromGenesis host (fun s call => keepsLead s call = true) firstElection).any
      (fun s => !isElectionRunning s) = true := by decide +kernel
  obtain ⟨s, hs, hidle⟩ := (Option.any_eq_true _ _).mp hrun
  rw [Bool.not_eq_true'] at hidle
  exact ⟨s, hs, hidle, (board_and_lead_are_members host).1 s (reachable_of_run hs) hidle⟩

/-- Alice is elected lead representative and resigns. -/
def leadResigns : List Transaction :=
  firstElection ++ [(1990000, [(signedBy alice, .action (.resign alice.name))])]

/-- The name of a lead representative who has resigned stays stored. -/
theorem resigned_lead_stays_seated :
    ∃ s, runFromGenesis host (fun _ _ => True) leadResigns = some s ∧
      Reachable host (fun _ _ => True) s ∧ isElectionRunning s = false ∧ isSeated s alice.name = true ∧ ¬ Represented s := by
  have hrun : (runFromGenesis host (fun _ _ => True) leadResigns).any (fun s =>
      !isElectionRunning s && isSeated s alice.name && !isActive s.members.table alice.name &&
        s.elections.results.any fun r => r.leadRepresentative = alice.name) = true := by
    decide +kernel
  obtain ⟨s, hs, hstate⟩ := (Option.any_eq_true _ _).mp hrun
  simp only [Bool.and_eq_true, Bool.not_eq_true', Option.any_eq_true, decide_eq_true_eq] at hstate
  obtain ⟨⟨⟨hidle, hseated⟩, hinactive⟩, r, hr, hlead⟩ := hstate
  refine ⟨s, hs, reachable_of_run hs, hidle, hseated, ?_⟩
  intro hrepresented
  have hactive := (hrepresented r hr).2 (by rw [hlead]; decide)
  rw [hlead, hinactive] at hactive
  exact absurd hactive (by simp)

end Eden.BoardMembership
