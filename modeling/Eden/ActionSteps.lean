import Eden.ContractSteps

/-!
Every call of the contract is a sequence of steps.
-/

namespace Eden.ActionSteps

open Eden.ExceptReasoning
open Eden.SortedTable
open Eden.TransactionRuns
open Eden.ChainPrimitives
open Eden.ElectionPlan
open Eden.ContractState
open Eden.Runtime
open Eden.AccountTables
open Eden.MemberTable
open Eden.DistributionTables
open Eden.BylawsRules
open Eden.ElectionRounds
open Eden.ElectionPhases
open Eden.InductionTables
open Eden.Maintenance
open Eden.ContractActions
open Eden.Transactions
open Eden.ContractSteps

variable {p : Platform} {call : Call}

/-! ### Elections -/

section Processing

variable {n : Nat}

/-- The members of a list are visited one after the other. -/
theorem above_visitMember {b b' : Ballot} {data data' : InitVoters} {member : Member}
    (h : visitMember p b data member = .ok (b', data')) :
    data'.lastProcessed = member.account ∧
      b'.members.table.above member.account = b.members.table.above member.account := by
  unfold visitMember at h
  split at h
  · split at h
    · simp only [bind_eq_ok, pure_eq_ok, Prod.mk.injEq] at h
      obtain ⟨⟨votes, rng⟩, _, rfl, rfl⟩ := h
      exact ⟨rfl, rfl⟩
    · simp only [bind_eq_ok, pure_eq_ok, Prod.mk.injEq] at h
      obtain ⟨members, hrank, rfl, rfl⟩ := h
      obtain ⟨_, _, rfl⟩ := setRank_eq_ok hrank
      exact ⟨rfl, Table.above_modify_self b.members.table _ (ranked 0 invalidName) fun _ => rfl⟩
  · simp only [pure_eq_ok, Prod.mk.injEq] at h
    obtain ⟨rfl, rfl⟩ := h
    exact ⟨rfl, rfl⟩

theorem visitMembers_steps {s : State} {rows : List Member} {maxSteps remaining : Nat}
    {b b' : Ballot} {data data' : InitVoters}
    (h : visitMembers p rows maxSteps b data = .ok (remaining, b', data'))
    (hrows : b.members.table.above data.lastProcessed = rows) :
    Steps p (.action (.electprocess n)) (withCurrent (withBallot s b) b.output (.initVoters data))
        (withCurrent (withBallot s b') b'.output (.initVoters data')) ∧
      (remaining ≠ 0 → b'.members.table.above data'.lastProcessed = []) := by
  fun_induction visitMembers p rows maxSteps b data with
  | case1 maxSteps b data =>
      simp only [pure_eq_ok, Prod.mk.injEq] at h
      obtain ⟨rfl, rfl, rfl⟩ := h
      exact ⟨.refl, fun _ => hrows⟩
  | case2 member rest b data =>
      simp only [pure_eq_ok, Prod.mk.injEq] at h
      obtain ⟨rfl, rfl, rfl⟩ := h
      exact ⟨.refl, fun hne => absurd rfl hne⟩
  | case3 member rest maxSteps b data ih =>
      simp only [bind_eq_ok] at h
      obtain ⟨⟨b₁, data₁⟩, hvisit, h⟩ := h
      obtain ⟨hlast, habove⟩ := above_visitMember hvisit
      have hrest : b₁.members.table.above data₁.lastProcessed = rest := by
        rw [hlast, habove]
        exact Table.above_of_above_cons hrows
      have hstep : Step p (.action (.electprocess n)) (withCurrent (withBallot s b) b.output (.initVoters data))
          (withCurrent (withBallot s b₁) b₁.output (.initVoters data₁)) :=
        .visits rfl hrows hvisit
      obtain ⟨hsteps, hdone⟩ := ih b₁ data₁ h hrest
      exact ⟨.head hstep hsteps, hdone⟩

theorem finishElection_steps {s s' : State} {board : List Name} {winner : Name}
    (h : finishElection p { s with elections := { s.elections with votes := .empty } } board winner =
      .ok s')
    (hround : InLastRound s)
    (hboard : board = (s.elections.votes.index Vote.byIndex).map Vote.member)
    (hlength : board.length < 12) (hwinner : winner ∈ board) : Steps p (.action (.electprocess n)) s s' := by
  obtain ⟨results, members, f, g, threshold, o, hresults, hmembers, hf, hg, hquiet, rfl⟩ :=
    finishElection_eq_ok h
  exact .single (.concludes hg hresults hround hboard hlength hwinner hmembers hf hquiet)

theorem beginElection_steps {s s' : State} {data : InitVoters} {maxSteps remaining : Nat}
    (h : beginElection p s data maxSteps = .ok (s', remaining))
    (hdone : s.members.table.above data.lastProcessed = []) :
    Steps p (.action (.electprocess n)) (withCurrent s s.output (.initVoters data)) s' := by
  obtain ⟨hvoters, configs, config, o, hconfigs, hconfig, hquiet, hcases⟩ := beginElection_eq_ok h
  rcases hcases with ⟨next, rfl⟩ | ⟨hlength, roundEnd, rfl⟩ |
    ⟨hlength, board, winner, hboard, hshort, hwinner, hfinish⟩
  · exact .single (.reports rfl hquiet)
  · exact .single (.opens rfl hdone hvoters hconfigs hconfig hlength hquiet)
  · have haside : Aside (withCurrent s s.output (.initVoters data))
        (withCurrent s o (.initVoters data)) := aside_output _ hquiet
    refine haside.steps.trans ?_
    obtain ⟨results, members, f, g, threshold, o', hresults, hmembers, hf, hg, hquiet', rfl⟩ :=
      finishElection_eq_ok hfinish
    exact .single (.concludes hg hresults
      (.inl ⟨data, configs, rfl, hdone, hvoters, hconfigs, hlength⟩) hboard hshort
      (List.mem_of_mem_head? hwinner) hmembers hf hquiet')

theorem withCurrent_self {s : State} {state : ElectionState}
    (h : s.elections.current = some state) : withCurrent s s.output state = s := by
  rw [withCurrent, ← h]

/-- The members are visited once the distributions leave steps for it. -/
theorem initVoters_split {s s' : State} {data : InitVoters} {maxSteps remaining : Nat}
    (h : ElectionPhases.initVoters p s data maxSteps = .ok (s', remaining))
    (hcurrent : s.elections.current = some (.initVoters data)) :
    ∃ steps f, distributeMonthly p (calendar s) s.members.table maxSteps (treasury s) =
        .ok (steps, f) ∧
      (steps = 0 ∧ s' = withTreasury s f ∨
        steps ≠ 0 ∧ Steps p (.action (.electprocess n)) (withTreasury s f) s') := by
  simp only [ElectionPhases.initVoters, bind_eq_ok] at h
  obtain ⟨⟨steps, f⟩, hf, h⟩ := h
  refine ⟨steps, f, hf, ?_⟩
  split at h
  · rename_i hzero
    simp only [pure_eq_ok, Prod.mk.injEq] at h
    exact .inl ⟨hzero, h.1.symm⟩
  · rename_i hleft
    refine .inr ⟨hleft, ?_⟩
    simp only [bind_eq_ok] at h
    obtain ⟨⟨steps', b, data'⟩, hvisits, h⟩ := h
    have hstart : withCurrent (withBallot (withTreasury s f) (ballot (withTreasury s f)))
        (ballot (withTreasury s f)).output (.initVoters data) = withTreasury s f :=
      withCurrent_self hcurrent
    have hsteps : Steps p (.action (.electprocess n)) _ _ ∧ _ :=
      visitMembers_steps (s := withTreasury s f) hvisits rfl
    obtain ⟨hsteps, hdone⟩ := hsteps
    rw [hstart] at hsteps
    refine hsteps.trans ?_
    split at h
    · simp only [bind_eq_ok, pure_eq_ok, Prod.mk.injEq] at h
      obtain ⟨t, hstate, rfl, -⟩ := h
      obtain ⟨o, hquiet, rfl⟩ := setStateSing_eq_ok hstate
      exact (aside_withCurrent _ hquiet).steps
    · rename_i hne
      exact beginElection_steps h (hdone hne)

theorem initVoters_steps {s s' : State} {data : InitVoters} {maxSteps remaining : Nat}
    (h : ElectionPhases.initVoters p s data maxSteps = .ok (s', remaining))
    (hcurrent : s.elections.current = some (.initVoters data)) : Steps p (.action (.electprocess n)) s s' := by
  obtain ⟨steps, f, hf, hcases⟩ := initVoters_split (n := n) h hcurrent
  have hdistributes : Step p (.action (.electprocess n)) s (withTreasury s f) := .distributes hf
  rcases hcases with ⟨-, rfl⟩ | ⟨-, hsteps⟩
  · exact .single hdistributes
  · exact .head hdistributes hsteps

theorem prepareElection_steps {s s' : State} {maxSteps remaining : Nat}
    (h : prepareElection p s maxSteps = .ok (s', remaining)) :
    Steps p (.action (.electprocess maxSteps)) s s' := by
  simp only [prepareElection, bind_eq_ok, getSingleton_eq_ok] at h
  obtain ⟨state, hstate, h⟩ := h
  split at h
  · split at h
    · simp only [pure_eq_ok, Prod.mk.injEq] at h
      rw [h.1]
    · rename_i seeder version hpos
      simp only [bind_eq_ok] at h
      obtain ⟨⟨t, data⟩, hstart, h⟩ := h
      have hcurrent : t.elections.current = some (.initVoters data) := by
        obtain ⟨_, _, _, _, _, _, _, rfl⟩ := startElection_eq_ok hstart
        rfl
      exact .head (.starts hstate hstart (Nat.pos_of_ne_zero hpos)) (initVoters_steps h hcurrent)
  · exact initVoters_steps h hstate
  · simp only [pure_eq_ok, Prod.mk.injEq] at h
    rw [h.1]

theorem finishPostRound_steps {s s' : State} {electionTime : Nat} {data : PostRound}
    {maxSteps remaining : Nat}
    (h : finishPostRound p s electionTime data maxSteps = .ok (s', remaining)) :
    Steps p (.action (.electprocess n)) (withCurrent s s.output (.postRound data)) s' := by
  simp only [finishPostRound, bind_eq_ok] at h
  obtain ⟨⟨steps, b, data'⟩, hgroups, h⟩ := h
  have hstep : Step p (.action (.electprocess n)) (withCurrent s s.output (.postRound data))
      (withCurrent (withBallot s b) b.output (.postRound data')) := .groups rfl hgroups
  split at h
  · simp only [bind_eq_ok, pure_eq_ok, Prod.mk.injEq] at h
    obtain ⟨t, hstate, rfl, -⟩ := h
    obtain ⟨o, hquiet, rfl⟩ := setStateSing_eq_ok hstate
    exact .head hstep (aside_withCurrent _ hquiet).steps
  · rename_i hne
    obtain ⟨configs, config, o, hconfigs, hconfig, hquiet, hcases⟩ := beginRound_eq_ok h
    rcases hcases with ⟨next, rfl⟩ | ⟨hlength, roundEnd, rfl⟩ | ⟨hlength, endTime, rfl⟩
    · exact .head hstep (.single (.rereports rfl hquiet))
    · exact .single (.advances rfl hgroups hne hconfigs hconfig
        (.inl ⟨hlength, _, _, rfl⟩) hquiet)
    · exact .single (.advances rfl hgroups hne hconfigs hconfig (.inr ⟨hlength, _, rfl⟩) hquiet)

theorem finishRound_steps {s s' : State} {maxSteps remaining : Nat}
    (h : finishRound p s maxSteps = .ok (s', remaining)) : Steps p (.action (.electprocess n)) s s' := by
  unfold finishRound at h
  split at h
  · simp only [pure_eq_ok, Prod.mk.injEq] at h
    rw [h.1]
  · rename_i state hstate
    simp only [bind_eq_ok, getSingleton_eq_ok] at h
    obtain ⟨results, _, h⟩ := h
    split at h
    · rename_i round
      split at h
      · simp only [pure_eq_ok, Prod.mk.injEq] at h
        rw [h.1]
      · rename_i hend
        have hsteps : Steps p (.action (.electprocess n)) _ s' := finishPostRound_steps h
        refine .head (.closes hstate (not_lt.mp hend) ?_) hsteps
        exact Quiet.pushEvent p s.output rfl
    · rename_i seeder
      split at h
      · simp only [finishFinal, bind_eq_ok, expect_eq_ok, pure_eq_ok, Prod.mk.injEq] at h
        obtain ⟨_, ⟨⟨t, board⟩, hboard, winner, hwinner, hfinish⟩, rfl, -⟩ := h
        obtain ⟨hrows, hlength, _, rfl⟩ := extractBoard_eq_ok hboard
        exact finishElection_steps hfinish (.inr ⟨seeder, hstate⟩) hrows hlength
          (List.mem_of_getElem? hwinner)
      · simp only [pure_eq_ok, Prod.mk.injEq] at h
        rw [h.1]
    · have hsteps : Steps p (.action (.electprocess n)) _ s' := finishPostRound_steps h
      rwa [withCurrent_self hstate] at hsteps
    · simp only [pure_eq_ok, Prod.mk.injEq] at h
      rw [h.1]

end Processing

theorem electprocess_steps {s s' : State} {maxSteps : Nat}
    (h : electprocess p s maxSteps = .ok s') :
    Steps p (.action (.electprocess maxSteps)) s s' := by
  simp only [electprocess, bind_eq_ok, check_eq_ok, exists_const, pure_eq_ok] at h
  obtain ⟨_, _, ⟨t, steps⟩, hprepare, ⟨u, remaining⟩, hfinish, _, rfl⟩ := h
  exact (prepareElection_steps hprepare).trans (finishRound_steps hfinish)

/-! ### Schedules -/

theorem triggerElection_keeps {s s' : State} (h : triggerElection p s = .ok s') :
    s'.members = s.members ∧ s'.bylaws = s.bylaws ∧ Quiet s.output s'.output := by
  obtain ⟨g, _, ⟨_, o, hquiet, rfl⟩ | ⟨_, rfl⟩ | ⟨_, _, _, _, o, _, _, _, hquiet, rfl⟩⟩ :=
    triggerElection_eq_ok h
  · exact ⟨rfl, rfl, hquiet⟩
  · exact ⟨rfl, rfl, Quiet.refl _⟩
  · exact ⟨rfl, rfl, hquiet⟩

/-- An election is triggered without a look at the members, the bylaws and the output. -/
theorem triggerElection_steps_of (hcall : reschedules call = true) {s s' : State}
    (h : triggerElection p s = .ok s')
    (m : Members) (b : BylawsTable) (o : Output) :
    Steps p call { s with members := m, bylaws := b, output := o }
      { s' with members := m, bylaws := b, output := o } := by
  obtain ⟨g, hg, hcases⟩ := triggerElection_eq_ok h
  rcases hcases with ⟨hunset, _, _, rfl⟩ | ⟨_, rfl⟩ |
    ⟨_, startTime, threshold, version, _, hcurrent, hlt, hne, _, rfl⟩
  · exact .single (.unschedules hcall (Quiet.refl o) hg hunset)
  · exact .refl
  · exact .single (.schedules hcall (Quiet.refl o)
      (.inr ⟨startTime, threshold, version, hcurrent, rfl, hne, .inl ⟨g, hg, rfl, hlt⟩⟩))

theorem triggerElection_steps_output (hcall : reschedules call = true) {s s' : State}
    (h : triggerElection p s = .ok s') (o : Output) : Steps p call { s with output := o } { s' with output := o } := by
  have hsame : { s' with output := o } =
      { s' with members := s.members, bylaws := s.bylaws, output := o } := by
    rw [← (triggerElection_keeps h).1, ← (triggerElection_keeps h).2.1]
  rw [hsame]
  exact triggerElection_steps_of hcall h s.members s.bylaws o

theorem triggerElection_steps (hcall : reschedules call = true) {s s' : State}
    (h : triggerElection p s = .ok s') : Steps p call s s' := by
  have haside : Aside { s' with output := s.output } s' :=
    aside_output _ (triggerElection_keeps h).2.2
  exact (triggerElection_steps_output hcall h s.output).trans haside.steps

/-- The election after the start of elections has been configured. -/
theorem configured_steps (hcall : reschedules call = true) {s s' : State} {originTime : Nat}
    (h : (s.elections.current = none ∧ setDefaultElection p s originTime = .ok s') ∨
      (s.elections.current = some .pendingDate ∧ triggerElection p s = .ok s') ∨
      (s.elections.current ≠ none ∧ s.elections.current ≠ some .pendingDate ∧ s' = s)) :
    Steps p call s s' := by
  rcases h with ⟨hnone, hdefault⟩ | ⟨_, htrigger⟩ | ⟨_, _, rfl⟩
  · obtain ⟨_, threshold, o, _, hquiet, rfl⟩ := setDefaultElection_eq_ok hdefault
    exact .single (.schedules hcall hquiet (.inl ⟨hnone, rfl⟩))
  · exact triggerElection_steps hcall htrigger
  · exact .refl

theorem setTime_steps (hcall : reschedules call = true) {s s' : State} {day : Nat} {time : Text}
    (h : setTime p s day time = .ok s') : Steps p call s s' := by
  obtain ⟨g, startTime, hg, hstart, hcases⟩ := setTime_eq_ok h
  have haside : Aside s { s with globals := some { g with electionStartTime := startTime } } := by
    refine aside_globals s hg rfl rfl fun hunset => ?_
    simp only [unsetStartTime] at hunset
    omega
  exact haside.steps.trans (configured_steps hcall hcases)

theorem electsettime_steps (hcall : reschedules call = true) {env : Env} {s s' : State} {electionTime : Nat}
    (h : electsettime p env s electionTime = .ok s') : Steps p call s s' := by
  simp only [electsettime, bind_eq_ok] at h
  obtain ⟨_, _, _, _, h⟩ := h
  obtain ⟨sequence, o, _, hquiet, rfl, hcases⟩ := setNextElectionTime_eq_ok h
  refine .single (.schedules hcall hquiet ?_)
  rcases hcases with ⟨hnone, hone⟩ | ⟨startTime, threshold, version, hcurrent, hlock, hne, rfl⟩
  · exact .inl ⟨hnone, hone⟩
  · exact .inr ⟨startTime, threshold, version, hcurrent, rfl, hne, .inr hlock⟩

theorem electconfig_steps (hcall : reschedules call = true) {env : Env} {s s' : State} {electionDay : Nat} {electionTime : Text}
    {roundDuration : Nat}
    (h : electconfig p env s electionDay electionTime roundDuration = .ok s') :
    Steps p call s s' := by
  simp only [electconfig, bind_eq_ok, getGlobals_eq_ok, pure_eq_ok] at h
  obtain ⟨_, _, t, ht, g, hg, rfl⟩ := h
  exact (setTime_steps hcall ht).trans (Aside.steps (aside_globals t hg rfl rfl fun hunset => hunset))

theorem finishelect_steps {env : Env} {s s' : State} {electionTime : Nat}
    (h : finishelect p env s electionTime = .ok s') :
    Steps p (.action (.finishelect electionTime)) s s' := by
  simp only [finishelect, bind_eq_ok] at h
  obtain ⟨_, _, _, _, h⟩ := h
  obtain ⟨o, hquiet, rfl⟩ := finishCurrElection_eq_ok h
  exact .single (.aborts hquiet)

theorem electopt_steps {env : Env} {s s' : State} {voter : Name} {participating : Bool}
    (h : electopt env s voter participating = .ok s') :
    Steps p (.action (.electopt voter participating)) s s' := by
  simp only [electopt, bind_eq_ok, pure_eq_ok] at h
  obtain ⟨_, _, _, _, m, hm, rfl⟩ := h
  exact .single (.opts hm)

/-! ### Members -/

theorem maybeActivateContract_steps_of (hcall : handlesInductions call = true) {s s' : State}
    (h : maybeActivateContract s = .ok s') (o : Output) :
    Quiet s.output s'.output ∧ Steps p call { s with output := o } { s' with output := o } := by
  obtain ⟨g, stage, o', hg, hquiet, _, rfl⟩ := maybeActivateContract_eq_ok h
  exact ⟨hquiet, .single (.establishes hcall hg)⟩

theorem maybeActivateContract_steps (hcall : handlesInductions call = true) {s s' : State}
    (h : maybeActivateContract s = .ok s') : Steps p call s s' := by
  have hsteps : _ ∧ Steps p call _ _ := maybeActivateContract_steps_of hcall h s.output
  have haside : Aside { s' with output := s.output } s' := aside_output _ hsteps.1
  exact hsteps.2.trans haside.steps

theorem checkThreshold_steps_of (hcall : reschedules call = true) {s s' : State}
    (h : checkThreshold p s = .ok s') (o : Output) :
    Quiet s.output s'.output ∧ Steps p call { s with output := o } { s' with output := o } := by
  have hsame : s = s' → Quiet s.output s'.output ∧
      Steps p call { s with output := o } { s' with output := o } := by
    rintro rfl
    exact ⟨Quiet.refl _, .refl⟩
  unfold checkThreshold at h
  split at h
  · split at h
    · exact ⟨(triggerElection_keeps h).2.2, triggerElection_steps_output hcall h o⟩
    · exact hsame (pure_eq_ok.mp h)
  · exact hsame (pure_eq_ok.mp h)

theorem removeIfPending_steps (hcall : handlesInductions call = true) {s s' : State}
    {account : Name} (h : removeIfPending p s account = .ok s') : Steps p call s s' := by
  obtain ⟨member, hmember, hcases⟩ := removeIfPending_eq_ok h
  rcases hcases with ⟨_, rfl⟩ | ⟨hpending, hcount, o, t, hquiet, rfl⟩
  · exact .refl
  · have haccount := Table.key_of_find? hmember
    subst haccount
    refine .head (.drops hcall hmember hpending hcount) ?_
    exact Aside.steps (aside_tables _ s.auctions t s.elections.encrypted hquiet)

/-- A member is inducted without a look at the output. -/
theorem inducted_steps_of (hcall : handlesInductions call = true)
    (hdate : reschedules call = true) {env : Env} {s s' : State}
    {inductee : Name} (h : inducted p env s inductee = .ok s') (o : Output) :
    Quiet s.output s'.output ∧ Steps p call { s with output := o } { s' with output := o } := by
  simp only [inducted, bind_eq_ok] at h
  obtain ⟨_, _, _, _, induction, hinduction, members, hmembers, t, ht, u, hu, h⟩ := h
  obtain ⟨row, hrow, rfl⟩ := getEndorsedInduction_eq_ok hinduction
  have hendorsed : NoneEndorsed s.inductions t := by
    have herase := (eraseInduction_endorsed s.inductions induction).trans
      (eraseByInductee_endorsed (eraseInduction s.inductions induction) row.invitee
        maxGcOnInduction)
    split at ht
    · exact herase.trans (NoneEndorsed.of_eq (queueGc_endorsed ht))
    · simp only [Except.ok.injEq] at ht
      exact ht ▸ herase
  have hactivates : Step p call { s with output := o }
      { s with output := o, members := members } := .activates hcall hrow hmembers
  have hinducts : Steps p call { s with output := o, members := members }
      { s with output := o, members := members, inductions := t } := noneEndorsed_steps hcall hendorsed
  have hcontract : _ ∧ Steps p call _ _ := maybeActivateContract_steps_of hcall hu o
  have hthreshold : _ ∧ Steps p call _ _ := checkThreshold_steps_of hdate h o
  exact ⟨hcontract.1.trans hthreshold.1,
    .head hactivates ((hinducts.trans hcontract.2).trans hthreshold.2)⟩

theorem inducted_steps (hcall : handlesInductions call = true)
    (hdate : reschedules call = true) {env : Env} {s s' : State}
    {inductee : Name} (h : inducted p env s inductee = .ok s') : Steps p call s s' := by
  have hsteps : _ ∧ Steps p call _ _ := inducted_steps_of hcall hdate h s.output
  have haside : Aside { s' with output := s.output } s' := aside_output _ hsteps.1
  exact hsteps.2.trans haside.steps

theorem inductinit_steps (hcall : handlesInductions call = true) {env : Env} {s s' : State}
    {id : Nat} {inviter invitee : Name} {witnesses : List Name}
    (h : inductinit env s id inviter invitee witnesses = .ok s') : Steps p call s s' := by
  simp only [inductinit, bind_eq_ok, check_eq_ok, exists_const, pure_eq_ok] at h
  obtain ⟨_, _, _, _, _, _, _, _, _, members, hmembers, t, ht, rfl⟩ := h
  have hinducts : Steps p call { s with members := members }
      { s with members := members, inductions := t } :=
    noneEndorsed_steps hcall (NoneEndorsed.of_eq (initializeInduction_endorsed ht).2)
  split at hmembers
  · exact .head (.enters hcall hmembers) hinducts
  · simp only [bind_eq_ok, pure_eq_ok] at hmembers
    obtain ⟨_, _, rfl⟩ := hmembers
    exact hinducts

theorem inductprofil_steps (hcall : handlesInductions call = true) {env : Env} {s s' : State}
    {id : Nat} {profile : NewMemberProfile} (h : inductprofil p env s id profile = .ok s') :
    Steps p call s s' := by
  simp only [inductprofil, bind_eq_ok, pure_eq_ok] at h
  obtain ⟨g, _, _, _, _, _, _, _, t, ht, rfl⟩ := h
  refine noneEndorsed_steps hcall (NoneEndorsed.of_eq ?_)
  have hsame := updateProfile_endorsed ht
  split
  · exact hsame
  · exact hsame

theorem gc_steps (hcall : handlesInductions call = true) {env : Env} {s s' : State} {limit : Nat}
    (h : gc p env s limit = .ok s') : Steps p call s s' := by
  simp only [gc, bind_eq_ok, check_eq_ok, exists_const] at h
  obtain ⟨_, _, ⟨remaining, t⟩, ht, _, h⟩ := h
  have hgc := gcInductions_endorsed s.inductions s.now limit
  obtain ⟨o, auctions, hquiet, rfl⟩ := finishAuctions_eq_ok ht
  obtain ⟨_, o', sessions, hquiet', heq⟩ := gcSessions_eq p remaining
    { s with
      inductions := (gcInductions s.inductions s.now limit).2.2
      output := o
      auctions := auctions }
  simp only [heq] at h
  have hinducts : Steps p call s
      { s with inductions := (gcInductions s.inductions s.now limit).2.2 } := noneEndorsed_steps hcall hgc
  have haside := aside_tables { s with inductions := (gcInductions s.inductions s.now limit).2.2 }
    auctions sessions s.elections.encrypted (hquiet.trans hquiet')
  refine (hinducts.trans haside.steps).trans ?_
  split at h
  · simp only [pure_eq_ok] at h
    rw [← h]
  · simp only [bind_eq_ok] at h
    obtain ⟨u, hu, h⟩ := h
    refine Relation.ReflTransGen.trans ?_ (maybeActivateContract_steps hcall h)
    refine foldlM_preserves (fun u => Steps p call _ u) ?_ _ hu .refl
    intro v account v' hstep hv
    exact hv.trans (removeIfPending_steps hcall hstep)

theorem inductcancel_steps (hcall : handlesInductions call = true) {env : Env} {s s' : State}
    {account : Name} {id : Nat} (h : inductcancel p env s account id = .ok s') :
    Steps p call s s' := by
  simp only [inductcancel, bind_eq_ok, check_eq_ok, exists_const] at h
  obtain ⟨_, _, g, _, _, _, _, induction, _, h⟩ := h
  refine Relation.ReflTransGen.trans
    (noneEndorsed_steps hcall (eraseInduction_endorsed s.inductions induction)) ?_
  split at h
  · simp only [pure_eq_ok] at h
    rw [h]
  · simp only [bind_eq_ok] at h
    obtain ⟨t, ht, h⟩ := h
    refine Relation.ReflTransGen.trans (removeIfPending_steps hcall ht) ?_
    split at h
    · simp only [bind_eq_ok] at h
      obtain ⟨u, hu, h⟩ := h
      exact (noneEndorsed_steps hcall (NoneEndorsed.of_eq (eraseEndorser_endorsed hu))).trans
        (maybeActivateContract_steps hcall h)
    · simp only [pure_eq_ok] at h
      rw [h]

theorem resign_steps {env : Env} {s s' : State} {account : Name}
    (h : resign p env s account = .ok s') : Steps p (.action (.resign account)) s s' := by
  simp only [resign, bind_eq_ok, checkActiveMember_eq_ok, exists_const, getMember_eq_ok,
    pure_eq_ok] at h
  obtain ⟨_, _, _, _, ⟨member', hmember', hactive⟩, member, hmember, f, hf, t, ht, u, hu, rfl⟩ := h
  rw [hmember, Option.some.injEq] at hmember'
  subst hmember'
  have haccount := Table.key_of_find? hmember
  subst haccount
  obtain ⟨hrunning, o, hquiet, hcases⟩ := electionsOnResign_eq_ok ht
  obtain ⟨member', stats, o', sessions, hmember', hstats, hquiet', rfl⟩ := remove_eq_ok hu
  have htrigger : t.members = s.members ∧ t.bylaws = s.bylaws ∧
      ∀ m b, Steps p (.action (.resign member.account))
        { withTreasury s f with
          members := m
          bylaws := b
          elections := { s.elections with
            results := s.elections.results.map (boardWithout member.account) } }
        { t with members := m, bylaws := b } := by
    rcases hcases with ⟨_, rfl⟩ | ⟨_, htrigger⟩
    · exact ⟨rfl, rfl, fun m b => Aside.steps (aside_output _ hquiet)⟩
    · obtain ⟨hmembers, hbylaws, hquiet₁⟩ := triggerElection_keeps htrigger
      refine ⟨hmembers, hbylaws, fun m b => ?_⟩
      refine Relation.ReflTransGen.trans (triggerElection_steps_of rfl htrigger m b f.output) ?_
      exact Aside.steps (aside_output _ (hquiet.trans hquiet₁))
  obtain ⟨hmembers, hbylaws, hsteps⟩ := htrigger
  rw [hmembers, hmember, Option.some.injEq] at hmember'
  subst hmember'
  rw [hmembers] at hstats
  refine .head (.resigns hrunning hmember hactive hf hstats) ((hsteps _ _).trans ?_)
  rw [hmembers, hbylaws]
  exact Aside.steps (aside_tables _ t.auctions sessions t.elections.encrypted hquiet')

theorem renameAccount_steps {env : Env} {s s' : State} {account newAccount : Name}
    (h : renameAccount p env (record s (.action (.rename account newAccount))) account newAccount =
      .ok s') :
    Steps p (.action (.rename account newAccount)) s s' := by
  simp only [renameAccount, bind_eq_ok, ensure_eq_ok, exists_const, requireAuth_eq_ok,
    checkActiveMember_eq_ok, pure_eq_ok] at h
  obtain ⟨hauth, _, _, _, user, huser, ⟨member, hmember, hactive⟩, f, hf, t, ht, i, hi, u, hu, _,
    _, rfl⟩ := h
  obtain ⟨hrunning, o, hquiet, rfl⟩ := electionsOnRename_eq_ok ht
  obtain ⟨member', table, o', sessions, hmember', htable, hquiet', rfl⟩ := rename_eq_ok hu
  have hsameMember : s.members.table.find? account = some member' := hmember'
  rw [show s.members.table.find? account = some member from hmember, Option.some.injEq]
    at hsameMember
  subst hsameMember
  have haccount : member.account = account := Table.key_of_find? hmember
  subst haccount
  refine .head (.renames hrunning (env.auths_valid _ hauth) hmember hactive huser hf hi htable) ?_
  exact Aside.steps (aside_tables _ s.auctions sessions s.elections.encrypted
    (hquiet.trans hquiet'))

/-! ### Funds -/

/-- An entry about funds is the last one when no events are left to be sent. -/
theorem fundTrace_record {s : State} {e : Executed} (hclean : s.output.serializedEvents = [])
    (hentry : unbatched e = [e]) (hfunds : concernsFunds e = true) :
    fundTrace (record s e).output = fundTrace s.output ++ [e] := by
  simp [fundTrace, trace, record, hclean, hentry, hfunds, List.filter_append]

theorem adjustBalance_of_migrated {m m' : Option Migration} {owner : Name} {amount : Asset}
    (hmigrated : isAccountMigrated m = true) (h : adjustBalance m owner amount = .ok m') :
    m' = m := by
  unfold adjustBalance at h
  split at h
  · simp [isAccountMigrated, migrationIndex] at hmigrated
  · exact (pure_eq_ok.mp h).symm

theorem tokenTransfer_out {env : Env} {s s' : State} {receiver : Name} {quantity : Asset}
    {memo : Text} (h : tokenTransfer p env s p.self receiver quantity memo = .ok s') :
    0 < quantity.amount ∧ ∃ tokens owner outgoing, tokenSub s.tokens quantity = .ok tokens ∧
      (receiver = edenDelegate → nameOfText memo = .ok owner) ∧
      subBalance s.accounts.outgoing owner quantity = .ok outgoing ∧
      s' = { s with
        accounts := { s.accounts with outgoing := outgoing }
        tokens := tokens
        output := sendEvents (record s (.transfer p.self receiver quantity memo)).output } := by
  simp only [tokenTransfer, bind_eq_ok, check_eq_ok, exists_const, decide_eq_true_eq,
    pure_eq_ok] at h
  obtain ⟨hne, _, _, hpos, _, tokens, htokens, tokens', htokens', t, ht, rfl⟩ := h
  rw [if_pos trivial] at htokens
  rw [if_neg (Ne.symm hne), Except.ok.injEq] at htokens'
  subst htokens'
  unfold notifyTransfer at ht
  rw [if_pos rfl] at ht
  simp only [bind_eq_ok, pure_eq_ok] at ht
  obtain ⟨_, _, owner, howner, outgoing, houtgoing, rfl⟩ := ht
  refine ⟨hpos, tokens, owner, outgoing, htokens, ?_, houtgoing, rfl⟩
  intro hdelegate
  rwa [if_pos hdelegate] at howner

theorem tokenTransfer_in {env : Env} {s s' : State} {sender : Name} {quantity : Asset}
    {memo : Text} (hsender : sender ≠ p.self)
    (h : tokenTransfer p env s sender p.self quantity memo = .ok s') :
    0 < quantity.amount ∧ ∃ tokens g, tokenAdd s.tokens quantity = .ok tokens ∧
      s.globals = some g ∧ quantity.symbol = g.defaultToken ∧
      ((isPossibleDepositAccount p sender = true ∧ memo ≠ donateMemo ∧
          ∃ user migration, addBalance s.accounts.user sender quantity true = .ok user ∧
            adjustBalance s.migration sender quantity = .ok migration ∧
            s' = { withUser s user with
              migration := migration
              tokens := tokens
              output :=
                sendEvents (record s (.transfer sender p.self quantity memo)).output }) ∨
        ((isPossibleDepositAccount p sender = false ∨ memo = donateMemo) ∧
          isAccountMigrated s.migration = true ∧
          ∃ f, addToPool p (calendar s)
              (treasury (record s (.transfer sender p.self quantity memo))) masterName quantity =
                .ok f ∧
            s' = { withTreasury s f with tokens := tokens, output := sendEvents f.output }) ∨
        ((isPossibleDepositAccount p sender = false ∨ memo = donateMemo) ∧
          isAccountMigrated s.migration = false ∧
          s' = { s with
            tokens := tokens
            output :=
              sendEvents (record s (.transfer sender p.self quantity memo)).output })) := by
  simp only [tokenTransfer, bind_eq_ok, check_eq_ok, exists_const, decide_eq_true_eq,
    pure_eq_ok] at h
  obtain ⟨_, _, _, hpos, _, tokens, htokens, tokens', htokens', t, ht, rfl⟩ := h
  rw [if_neg hsender, Except.ok.injEq] at htokens
  subst htokens
  rw [if_pos trivial] at htokens'
  unfold notifyTransfer at ht
  rw [if_neg hsender, if_neg (by simp)] at ht
  simp only [bind_eq_ok, getGlobals_eq_ok, checkToken, check_eq_ok, exists_const,
    decide_eq_true_eq] at ht
  obtain ⟨g, hg, hsymbol, ht⟩ := ht
  refine ⟨hpos, tokens', g, htokens', hg, hsymbol, ?_⟩
  split at ht
  · rename_i hdeposit
    simp only [bind_eq_ok, pure_eq_ok] at ht
    obtain ⟨user, huser, migration, hmigration, rfl⟩ := ht
    exact .inl ⟨hdeposit.1, hdeposit.2, user, migration, huser, hmigration, rfl⟩
  · rename_i hpool
    rw [not_and_or, not_not, Bool.not_eq_true] at hpool
    split at ht
    · rename_i hmigrated
      simp only [donateToMaster, bind_eq_ok, pure_eq_ok] at ht
      obtain ⟨f, hf, rfl⟩ := ht
      exact .inr (.inl ⟨hpool, hmigrated, f, hf, rfl⟩)
    · rename_i hmigrated
      simp only [pure_eq_ok] at ht
      subst ht
      exact .inr (.inr ⟨hpool, Bool.not_eq_true _ ▸ hmigrated, rfl⟩)

/-- What has been added to an empty table is gone when it is taken out. -/
theorem outgoing_empty {t u : AccountTable} {owner : Name} {quantity : Asset}
    (hadd : addBalance .empty owner quantity false = .ok t)
    (hsub : subBalance t owner quantity = .ok u) : u = .empty := by
  have hrows : ∀ a ∈ t.rows, a = ⟨owner, quantity⟩ := by
    rcases addBalance_eq_ok hadd with ⟨_, hemplace⟩ | ⟨record, hrecord, _⟩
    · intro a ha
      rcases (Table.mem_emplace? hemplace).mp ha with rfl | hempty
      · rfl
      · simp at hempty
    · have hmem := Table.mem_of_find? hrecord
      simp at hmem
  obtain ⟨record, hrecord, _, _, hcases⟩ := subBalance_eq_ok hsub
  have hrecord' := hrows record (Table.mem_of_find? hrecord)
  subst hrecord'
  rcases hcases with ⟨_, rfl⟩ | ⟨hne, _⟩
  · apply Table.eq_of_mem_iff
    intro a
    rw [Table.mem_erase, Table.rows_empty]
    refine ⟨fun ⟨ha, hne⟩ => ?_, fun ha => by simp at ha⟩
    rw [hrows a ha] at hne
    exact absurd rfl hne
  · exact absurd rfl hne

theorem withdraw_steps {env : Env} {s s' : State} {owner : Name} {quantity : Asset}
    (hclean : s.output.serializedEvents = [])
    (h : withdraw p env (record s (.action (.withdraw owner quantity))) owner quantity = .ok s') :
    Steps p (.action (.withdraw owner quantity)) s s' := by
  simp only [withdraw, bind_eq_ok, requireAuth_eq_ok, exists_const, getGlobals_eq_ok, checkToken,
    check_eq_ok, decide_eq_true_eq] at h
  obtain ⟨hauth, g, hg, hsymbol, user, huser, migration, hmigration, added, hadded, h⟩ := h
  obtain ⟨hpos, tokens, owner', outgoing, htokens, howner, houtgoing, rfl⟩ := tokenTransfer_out h
  by_cases hmigrated : isAccountMigrated s.migration = true
  · have hsame := adjustBalance_of_migrated hmigrated hmigration
    subst hsame
    have hvalid : owner < 2 ^ 64 := by
      have hname := env.auths_valid owner hauth
      simp only [isAccountName, Bool.and_eq_true, decide_eq_true_eq] at hname
      exact hname.1.2
    have hround := howner rfl
    rw [nameOfText_nameToText hvalid, Except.ok.injEq] at hround
    subst hround
    refine .single (.withdraws hg hsymbol hpos huser htokens ?_ ?_)
    · intro hempty
      have hadded' : addBalance s.accounts.outgoing owner quantity false = .ok added := hadded
      rw [hempty] at hadded'
      exact outgoing_empty hadded' houtgoing
    · have hfirst : fundTrace (record s (.action (.withdraw owner quantity))).output =
          fundTrace s.output ++ [.action (.withdraw owner quantity)] :=
        fundTrace_record hclean rfl rfl
      have hsecond : fundTrace (record (record s (.action (.withdraw owner quantity)))
          (.transfer p.self edenDelegate quantity (nameToText owner))).output = _ ++ [_] :=
        fundTrace_record hclean rfl rfl
      rw [hfirst, List.append_assoc] at hsecond
      exact Eq.trans (Quiet.sendEvents _) hsecond
  · exact .single (.unsettled (by simp [show s.globals = some g from hg])
      (by simpa using hmigrated) rfl)

theorem transfer_steps {env : Env} {s s' : State} {sender receiver : Name} {quantity : Asset}
    {memo : Text} (hclean : s.output.serializedEvents = [])
    (hparty : sender = p.self ∨ receiver = p.self)
    (h : tokenTransfer p env s sender receiver quantity memo = .ok s') :
    Steps p (.transfer sender receiver quantity memo) s s' := by
  by_cases hsender : sender = p.self
  · subst hsender
    obtain ⟨_, tokens, owner, outgoing, _, _, houtgoing, rfl⟩ := tokenTransfer_out h
    exact .single (.sends houtgoing)
  · obtain rfl : receiver = p.self := hparty.resolve_left hsender
    have hrecord : fundTrace (record s (.transfer sender p.self quantity memo)).output =
        fundTrace s.output ++ [.transfer sender p.self quantity memo] :=
      fundTrace_record hclean rfl rfl
    obtain ⟨hpos, tokens, g, htokens, hg, hsymbol, hcases⟩ := tokenTransfer_in hsender h
    rcases hcases with ⟨hpossible, hmemo, user, migration, huser, hmigration, rfl⟩ |
      ⟨hpool, _, f, hf, rfl⟩ | ⟨_, hmigrated, rfl⟩
    · by_cases hmigrated : isAccountMigrated s.migration = true
      · have hsame := adjustBalance_of_migrated hmigrated hmigration
        subst hsame
        exact .single (.deposits hsender hg hsymbol hpos hpossible hmemo huser htokens
          (Eq.trans (Quiet.sendEvents _) hrecord))
      · exact .single (.unsettled (by simp [hg]) (by simpa using hmigrated) rfl)
    · exact .single (.receives hsender hg hsymbol hpos hpool htokens hf (Quiet.sendEvents f.output))
    · exact .single (.unsettled (by simp [hg]) hmigrated rfl)

theorem donate_steps {env : Env} {s s' : State} {owner : Name} {quantity : Asset}
    (h : donate p env (record s (.action (.donate owner quantity))) owner quantity = .ok s') :
    Steps p (.action (.donate owner quantity)) s s' := by
  simp only [donate, donateToMaster, bind_eq_ok, check_eq_ok, exists_const, decide_eq_true_eq,
    pure_eq_ok] at h
  obtain ⟨_, _, _, _, _, _, hpos, _, user, huser, f, hf, rfl⟩ := h
  exact .single (.donates (.inl ⟨rfl, hpos⟩) huser hf)

theorem checkTransfer_eq_ok {env : Env} {s : State} {sender receiver : Name} {amount : Asset}
    {memo : Text} {x : Unit} (h : checkTransfer env s sender receiver amount memo = .ok x) :
    0 < amount.amount ∧ sender ∈ env.auths ∧
      ∃ member, s.members.table.find? sender = some member := by
  simp only [checkTransfer, bind_eq_ok, check_eq_ok, exists_const, decide_eq_true_eq,
    requireAuth_eq_ok, checkActiveMember_eq_ok] at h
  obtain ⟨hpos, _, hauth, _, _, ⟨member, hmember, _⟩, _⟩ := h
  exact ⟨hpos, hauth, member, hmember⟩

theorem fundtransfer_steps {env : Env} {s s' : State} {sender receiver : Name}
    {distributionTime rank : Nat} {amount : Asset} {memo : Text}
    (hclean : s.output.serializedEvents = [])
    (h : fundtransfer env
      (record s (.action (.fundtransfer sender distributionTime rank receiver amount memo)))
      sender distributionTime rank receiver amount memo = .ok s') :
    Steps p (.action (.fundtransfer sender distributionTime rank receiver amount memo)) s s' := by
  simp only [fundtransfer, bind_eq_ok, pure_eq_ok] at h
  obtain ⟨_, hcheck, accounts, haccounts, user, huser, rfl⟩ := h
  obtain ⟨hpos, _, member, hmember⟩ := checkTransfer_eq_ok hcheck
  exact .single (.fundtransfers hpos hmember haccounts huser (fundTrace_record hclean rfl rfl))

theorem usertransfer_steps {env : Env} {s s' : State} {sender receiver : Name} {amount : Asset}
    {memo : Text} (hclean : s.output.serializedEvents = [])
    (h : usertransfer env (record s (.action (.usertransfer sender receiver amount memo)))
      sender receiver amount memo = .ok s') :
    Steps p (.action (.usertransfer sender receiver amount memo)) s s' := by
  simp only [usertransfer, bind_eq_ok, pure_eq_ok] at h
  obtain ⟨_, hcheck, user, huser, user', huser', rfl⟩ := h
  exact .single (.usertransfers (checkTransfer_eq_ok hcheck).1 huser huser'
    (fundTrace_record hclean rfl rfl))

theorem distribute_steps {s s' : State} {maxSteps : Nat} (h : distribute p s maxSteps = .ok s') :
    Steps p call s s' := by
  simp only [distribute, bind_eq_ok, check_eq_ok, exists_const, pure_eq_ok] at h
  obtain ⟨_, _, ⟨remaining, f⟩, hf, _, rfl⟩ := h
  exact .single (.distributes hf)

/-- The events that are set aside during the inline actions of `create_nft` come after them. -/
theorem quiet_setAside {o o' : Output}
    (h : Quiet { o with serializedEvents := [] } o') :
    Quiet o { sendEvents o' with serializedEvents := o.serializedEvents } := by
  have hsent : fundTrace { sendEvents o' with serializedEvents := [] } =
      fundTrace { o with serializedEvents := [] } := by
    have hnone : { sendEvents o' with serializedEvents := [] } = sendEvents o' := by
      unfold sendEvents
      split
      · rename_i hempty
        rw [← hempty]
      · rfl
    rw [hnone]
    exact Eq.trans (Quiet.sendEvents o') h
  simp only [fundTrace, trace, List.map_nil, List.append_nil] at hsent
  simp only [Quiet, fundTrace, trace, List.filter_append, hsent]

theorem createNft_steps (hcall : handlesInductions call = true) (hdate : reschedules call = true)
    {env : Env} {g : Globals} {s s' : State} {induction : Induction}
    (h : createNft p env g s induction = .ok s')
    (hvalid : isAccountName induction.invitee = true) : Steps p call s s' := by
  simp only [createNft, bind_eq_ok, pure_eq_ok] at h
  obtain ⟨t, ht, u, hu, v, hv, rfl⟩ := h
  obtain ⟨o, auctions, invitee, hsilent, rfl⟩ := createTemplate_eq_ok hu
  have hendorsed : ∀ row ∈ t.endorsed.rows,
      row ∈ s.inductions.endorsed.rows ∨ isAccountName row.invitee = true := by
    intro row hrow
    rcases endorseInduction_endorsed ht row hrow with hold | hnew
    · exact .inl hold
    · exact .inr (hnew ▸ hvalid)
  have hinducts : Step p call s { s with inductions := t } := .inducts hcall hendorsed
  have haside : Aside { s with inductions := t } { s with inductions := t, auctions := auctions } :=
    aside_tables _ auctions s.sessions s.elections.encrypted (Quiet.refl _)
  have hnft : Aside { s with inductions := t, auctions := auctions }
      { s with
        inductions := t
        auctions := auctions
        members := modifyMember s.members invitee fun row =>
          { row with nftTemplateId := env.templateId % 2 ^ 64 } } :=
    aside_modifyMember _ invitee fun _ => rfl
  have hinducted : _ ∧ Steps p call _ _ := inducted_steps_of hcall hdate hv s.output
  refine .head hinducts ((haside.steps.trans hnft.steps).trans (hinducted.2.trans ?_))
  refine Aside.steps (aside_output _ ?_)
  refine quiet_setAside ((hsilent.1.trans ?_).trans hinducted.1)
  exact quiet_record { s with output := o } rfl

theorem inductdonate_steps {env : Env} {s s' : State} {payer : Name} {id : Nat} {quantity : Asset}
    (h : inductdonate p env (record s (.action (.inductdonate payer id quantity))) payer id
      quantity = .ok s') :
    Steps p (.action (.inductdonate payer id quantity)) s s' := by
  simp only [inductdonate, bind_eq_ok, requireAuth_eq_ok, getGlobals_eq_ok, check_eq_ok,
    exists_const, decide_eq_true_eq, Asset.eq_eq_ok] at h
  obtain ⟨hauth, g, hg, induction, _, _, _, rfl, _, ⟨_, rfl⟩, hquantity, user, huser, migration,
    hmigration, t, ht, h⟩ := h
  have hvalid := env.auths_valid _ hauth
  refine Relation.ReflTransGen.trans ?_ (createNft_steps rfl rfl h hvalid)
  by_cases hmigrated : isAccountMigrated s.migration = true
  · have hsame := adjustBalance_of_migrated hmigrated hmigration
    subst hsame
    rw [if_pos hmigrated] at ht
    simp only [donateToMaster, bind_eq_ok, pure_eq_ok] at ht
    obtain ⟨f, hf, rfl⟩ := ht
    exact .single (.donates (.inr ⟨id, g, rfl, hg, by simpa using hquantity⟩) huser hf)
  · have hunsettled : isAccountMigrated s.migration = false := by simpa using hmigrated
    split at ht
    · rename_i hmigrated'
      exfalso
      unfold adjustBalance at hmigration
      split at hmigration
      · split at hmigration
        · simp only [bind_eq_ok, pure_eq_ok] at hmigration
          obtain ⟨_, _, rfl⟩ := hmigration
          simp [isAccountMigrated, migrationIndex] at hmigrated'
        · rw [← pure_eq_ok.mp hmigration] at hmigrated'
          exact hmigrated hmigrated'
      · rw [← pure_eq_ok.mp hmigration] at hmigrated'
        exact hmigrated hmigrated'
    · rw [Except.ok.injEq] at ht
      subst ht
      exact .single (.unsettled (by simp [show s.globals = some g from hg]) hunsettled rfl)

/-! ### Genesis and migrations -/

theorem createGenesisMember_steps (hcall : handlesInductions call = true)
    {initialMembers : List Name} {video : Text} {acc acc' : State × Nat} {invitee : Name}
    (h : createGenesisMember p initialMembers video acc invitee = .ok acc') :
    Steps p call acc.1 acc'.1 := by
  simp only [createGenesisMember, bind_eq_ok, pure_eq_ok] at h
  obtain ⟨members, hmembers, t, ht, u, hu, rfl⟩ := h
  refine .head (.enters hcall hmembers) (noneEndorsed_steps hcall (NoneEndorsed.of_eq ?_))
  exact (createEndorsements_endorsed hu).trans (createInduction_endorsed ht)

theorem createGenesisMembers_steps (hcall : handlesInductions call = true) {initialMembers l : List Name} {video : Text}
    {acc acc' : State × Nat}
    (h : l.foldlM (createGenesisMember p initialMembers video) acc = .ok acc') :
    Steps p call acc.1 acc'.1 :=
  foldlM_preserves (fun acc'' : State × Nat => Steps p call acc.1 acc''.1)
    (fun _ _ _ hstep hacc => hacc.trans (createGenesisMember_steps hcall hstep)) l h .refl

theorem genesis_steps_of {env : Env} {s s' : State} {community : Text} {communitySymbol : Symbol}
    {minimumDonation : Asset} {initialMembers : List Name} {genesisVideo : Text}
    {auctionStartingBid : Asset} {auctionDuration electionDay : Nat} {electionTime : Text}
    (h : genesis p env s community communitySymbol minimumDonation initialMembers genesisVideo
      auctionStartingBid auctionDuration electionDay electionTime = .ok s') :
    ∃ t, t.globals ≠ none ∧
      Step p (.action (.genesis community communitySymbol minimumDonation initialMembers
        genesisVideo auctionStartingBid auctionDuration electionDay electionTime)) s t ∧
      Steps p (.action (.genesis community communitySymbol minimumDonation initialMembers
        genesisVideo auctionStartingBid auctionDuration electionDay electionTime)) t s' := by
  simp only [genesis, emplaceMasterPool, bind_eq_ok, check_eq_ok, exists_const, expect_eq_ok,
    pure_eq_ok] at h
  obtain ⟨_, _, _, _, hnone, _, ⟨pools, hpools, rfl⟩, owned, howned, t, ht, ⟨u, n⟩, hu, rfl⟩ := h
  obtain ⟨g, startTime, hg, hstart, hcases⟩ := setTime_eq_ok ht
  have hset : startTime ≠ unsetStartTime := by
    simp only [unsetStartTime]
    omega
  simp only [withTreasury, emit, Option.some.injEq] at hg
  have hnone' : s.globals = none := Option.isNone_iff_eq_none.mp hnone
  have hdonation : g.minimumDonation = minimumDonation := by rw [← hg]
  have howned' : (∃ balance, s.tokens.find? minimumDonation.symbol.code = some balance ∧
        addBalance s.accounts.owned masterName balance false = .ok owned) ∨
      (s.tokens.find? minimumDonation.symbol.code = none ∧ owned = s.accounts.owned) := by
    split at howned
    · rename_i balance hbalance
      exact .inl ⟨balance, hbalance, howned⟩
    · rename_i hempty
      rw [Except.ok.injEq] at howned
      exact .inr ⟨hempty, howned.symm⟩
  have hquiet : Quiet s.output
      (pushEvent p (pushEvent p s.output (.migration 5)) (.setPool masterName 5)) :=
    (Quiet.pushEvent p s.output rfl).trans (Quiet.pushEvent p _ rfl)
  have hdonation' : { g with electionStartTime := startTime }.minimumDonation = minimumDonation :=
    hdonation
  have hstage : { g with electionStartTime := startTime }.stage = .genesis := by rw [← hg]
  refine ⟨_, ?_, .founds hnone' hdonation' hstage hset hpools howned' hquiet,
    Relation.ReflTransGen.trans (configured_steps rfl hcases) ?_⟩
  · simp
  have hpermission : Aside t (perform (setBoardPermission p t []) .linkauth) := by
    refine aside_output t ?_
    exact ((Quiet.sendAction t.output _).trans (Quiet.sendAction _ _)).trans
      (Quiet.sendAction _ _)
  have hcollection : Aside u (perform u .initCollection) :=
    aside_output u (Quiet.sendAction u.output _)
  exact (hpermission.steps.trans (createGenesisMembers_steps rfl hu)).trans hcollection.steps

theorem genesis_steps {env : Env} {s s' : State} {community : Text} {communitySymbol : Symbol}
    {minimumDonation : Asset} {initialMembers : List Name} {genesisVideo : Text}
    {auctionStartingBid : Asset} {auctionDuration electionDay : Nat} {electionTime : Text}
    (h : genesis p env s community communitySymbol minimumDonation initialMembers genesisVideo
      auctionStartingBid auctionDuration electionDay electionTime = .ok s') :
    Steps p (.action (.genesis community communitySymbol minimumDonation initialMembers
      genesisVideo auctionStartingBid auctionDuration electionDay electionTime)) s s' := by
  obtain ⟨t, _, hfirst, hrest⟩ := genesis_steps_of h
  exact .head hfirst hrest

theorem mintForMember_eq_ok {env : Env} {newmember : Name} {s s' : State} {member : Member × Nat}
    (h : mintForMember p env newmember s member = .ok s') :
    ∃ o auctions, Silent s.output o ∧ s' = { s with output := o, auctions := auctions } := by
  unfold mintForMember at h
  split at h
  · simp only [bind_eq_ok] at h
    obtain ⟨locked, _, h⟩ := h
    split at h
    · exact ⟨s.output, s.auctions, Silent.refl _, (pure_eq_ok.mp h).symm⟩
    · exact mintNft_eq_ok h
  · exact ⟨s.output, s.auctions, Silent.refl _, (pure_eq_ok.mp h).symm⟩

theorem addtogenesis_steps (hcall : handlesInductions call = true) {env : Env} {s s' : State} {newmember : Name} {expiration : Int}
    (h : addtogenesis p env s newmember expiration = .ok s') : Steps p call s s' := by
  simp only [addtogenesis, bind_eq_ok, check_eq_ok, exists_const, expect_eq_ok] at h
  obtain ⟨_, _, _, _, _, members, hmembers, t₁, ht₁, _, _, t₂, ht₂, _, _, t₃, ht₃, t₄, ht₄, h⟩ := h
  obtain ⟨o, auctions, hsilent, rfl⟩ := foldlM_auctions (fun _ _ _ hmint =>
    mintForMember_eq_ok hmint) _ h
  have hendorsed : t₄.endorsed = s.inductions.endorsed := by
    rw [createEndorsements_endorsed ht₄, updateExpiration_endorsed ht₃,
      createInduction_endorsed ht₂]
    exact foldlM_preserves (fun u : Inductions => u.endorsed = s.inductions.endorsed)
      (fun _ _ _ hstep hu => (addEndorsement_endorsed hstep).trans hu) _ ht₁ rfl
  refine .head (.enters hcall hmembers) ?_
  refine Relation.ReflTransGen.trans (noneEndorsed_steps hcall (NoneEndorsed.of_eq hendorsed)) ?_
  exact Aside.steps (aside_tables _ auctions s.sessions s.elections.encrypted hsilent.1)

/-- Rows that get their entry in the index keep what elections read of them. -/
theorem map_core_indexed {t : Table Member.account} {rows : List Member}
    (hrows : ∀ m ∈ rows, m ∈ t.rows) :
    (indexed t rows).rows.map core = t.rows.map core := by
  have hstep : ∀ (u : Table Member.account) (m : Member), m ∈ t.rows →
      u.rows.map core = t.rows.map core →
      (u.replace { m with inByRep := true }).rows.map core = t.rows.map core := by
    intro u m hm hu
    rw [← hu]
    simp only [Table.replace, Table.update, List.map_map]
    apply List.map_congr_left
    intro b hb
    simp only [Function.comp_apply]
    split
    · rename_i hkey
      have hcore : core b ∈ t.rows.map core := hu ▸ List.mem_map_of_mem hb
      obtain ⟨c, hc, heq⟩ := List.mem_map.mp hcore
      have hcm : c = m := by
        refine Table.eq_of_key_eq hc hm ?_
        have haccount := congrArg Member.account heq
        exact Eq.trans haccount hkey
      rw [← heq, hcm]
      rfl
    · rfl
  have hfold : ∀ (l : List Member) (u : Table Member.account), (∀ m ∈ l, m ∈ t.rows) →
      u.rows.map core = t.rows.map core → (indexed u l).rows.map core = t.rows.map core := by
    intro l
    induction l with
    | nil => exact fun u _ hu => hu
    | cons m l ih =>
        intro u hl hu
        exact ih _ (fun m' hm' => hl m' (List.mem_cons_of_mem _ hm'))
          (hstep u m (hl m List.mem_cons_self) hu)
  exact hfold rows t hrows rfl

theorem migrated_steps (hcall : isMigrate call = true) {s s' : State} (h : Migrated s s')
    (hleft : s.migration ≠ some .fixInductdonateExpirationCheck) :
    s'.migration = s.migration ∧ Steps p call s s' := by
  obtain ⟨owned, rows, auctions, o, hquiet, hnone, howned, hrows, rfl⟩ := h.state
  exact ⟨rfl, .single (.migrates (.inr ⟨hcall, hleft⟩) hnone howned (map_core_indexed hrows) hquiet)⟩

theorem migrateFrom_steps (hcall : isMigrate call = true) {env : Env} {s s' : State} {fuel maxSteps remaining : Nat} {m : Migration}
    (h : migrateFrom p env fuel s maxSteps m = .ok (remaining, s'))
    (hleft : s.migration ≠ some .fixInductdonateExpirationCheck) : Steps p call s s' := by
  have hwrite : ∀ (t : State) (m : Migration),
      t.migration ≠ some .fixInductdonateExpirationCheck →
      Steps p call t { t with migration := some m } := by
    intro t m ht
    exact .single (.migrates (.inr ⟨hcall, ht⟩) (fun _ => rfl) (fun _ hrow => .inl hrow) rfl
      (Quiet.refl _))
  fun_induction migrateFrom p env fuel s maxSteps m with
  | case1 s maxSteps m =>
      simp only [pure_eq_ok, Prod.mk.injEq] at h
      rw [← h.2]
      exact hwrite s m hleft
  | case2 fuel s maxSteps m hdone =>
      simp only [pure_eq_ok, Prod.mk.injEq] at h
      rw [← h.2]
      exact hwrite s m hleft
  | case3 fuel s maxSteps m hmore ih₁ ih₂ =>
      simp only [bind_eq_ok] at h
      obtain ⟨⟨steps, m', t⟩, hstage, h⟩ := h
      have hmigrated : t.migration = s.migration ∧ Steps p call s t :=
        migrated_steps hcall (migrateStage_eq_ok hstage) hleft
      have hleft' : t.migration ≠ some .fixInductdonateExpirationCheck := hmigrated.1 ▸ hleft
      refine hmigrated.2.trans ?_
      split at h
      · exact ih₁ m' t h hleft'
      · have hevent : Aside t (emit p t (.migration (migrationIndex m))) :=
          aside_output t (Quiet.pushEvent p t.output rfl)
        exact hevent.steps.trans (ih₂ steps m' t h hleft')

theorem migrate_steps (hcall : isMigrate call = true) {env : Env} {s s' : State} {maxSteps : Nat}
    (h : migrate p env s maxSteps = .ok s') : Steps p call s s' := by
  simp only [migrate, bind_eq_ok, check_eq_ok, exists_const, decide_eq_true_eq, pure_eq_ok] at h
  obtain ⟨⟨remaining, t⟩, ht, hne, rfl⟩ := h
  refine migrateFrom_steps hcall ht fun hlast => hne ?_
  simp only [migrateSome, hlast, Option.getD_some, migrateFrom, migrationIndex, or_true, if_true,
    pure_eq_ok, Prod.mk.injEq] at ht
  exact ht.1.symm

theorem unmigrate_steps {env : Env} {s s' : State} (h : unmigrate p env s = .ok s') :
    Steps p (.action .unmigrate) s s' := by
  simp only [unmigrate, bind_eq_ok, getGlobals_eq_ok, pure_eq_ok] at h
  obtain ⟨_, _, g, hg, rfl⟩ := h
  refine .single (.migrates (.inl rfl) (by simp [hg]) (by simp) ?_ (Quiet.refl _))
  simp only [Table.update, List.map_map]
  rfl

/-! ### Calls -/

/-- An action that does not concern funds is recorded aside. -/
theorem recorded_steps {s s' : State} {a : Action} (hfunds : concernsFunds (.action a) = false)
    (h : Steps p (.action a) (record s (.action a)) s') : Steps p (.action a) s s' := by
  have haside : Aside s (record s (.action a)) := aside_output s (quiet_record s hfunds)
  exact haside.steps.trans h

theorem dispatch_steps {env : Env} {s s' : State} {a : Action}
    (hclean : s.output.serializedEvents = [])
    (h : dispatch p env (record s (.action a)) a = .ok s') : Steps p (.action a) s s' := by
  cases a with
  | withdraw owner quantity => exact withdraw_steps hclean h
  | donate owner quantity => exact donate_steps h
  | fundtransfer => exact fundtransfer_steps hclean h
  | usertransfer => exact usertransfer_steps hclean h
  | genesis => exact recorded_steps rfl (genesis_steps h)
  | addtogenesis => exact recorded_steps rfl (addtogenesis_steps rfl h)
  | gensetexpire =>
      refine recorded_steps rfl ?_
      simp only [dispatch, gensetexpire, bind_eq_ok, check_eq_ok, exists_const, pure_eq_ok] at h
      obtain ⟨_, _, _, _, _, _, _, t, ht, rfl⟩ := h
      exact noneEndorsed_steps rfl (NoneEndorsed.of_eq (updateExpiration_endorsed ht))
  | clearall => exact .single (.clears h)
  | inductinit => exact recorded_steps rfl (inductinit_steps rfl h)
  | inductmeetin =>
      refine recorded_steps rfl ?_
      simp only [dispatch, inductmeetin, bind_eq_ok, check_eq_ok, exists_const, pure_eq_ok] at h
      obtain ⟨_, _, _, _, _, _, _, _, _, _, encrypted, _, rfl⟩ := h
      exact Aside.steps (aside_meetings _ encrypted)
  | inductprofil => exact recorded_steps rfl (inductprofil_steps rfl h)
  | inductvideo =>
      refine recorded_steps rfl ?_
      simp only [dispatch, inductvideo, bind_eq_ok, check_eq_ok, exists_const, pure_eq_ok] at h
      obtain ⟨_, _, _, _, _, _, _, _, _, _, t, ht, rfl⟩ := h
      exact noneEndorsed_steps rfl (NoneEndorsed.of_eq (updateVideo_endorsed ht))
  | inductendors =>
      refine recorded_steps rfl ?_
      simp only [dispatch, inductendors, bind_eq_ok, check_eq_ok, exists_const, pure_eq_ok] at h
      obtain ⟨_, _, _, _, _, _, _, _, _, _, _, t, ht, rfl⟩ := h
      exact noneEndorsed_steps rfl (NoneEndorsed.of_eq (endorse_endorsed ht))
  | setencpubkey =>
      refine recorded_steps rfl ?_
      simp only [dispatch, setKey, bind_eq_ok, pure_eq_ok] at h
      obtain ⟨_, _, _, _, _, ⟨_, _, rfl⟩, rfl⟩ := h
      exact Aside.steps (aside_modifyMember _ _ fun _ => rfl)
  | electsettime => exact recorded_steps rfl (electsettime_steps rfl h)
  | electconfig => exact recorded_steps rfl (electconfig_steps rfl h)
  | electopt => exact recorded_steps rfl (electopt_steps h)
  | electseed =>
      simp only [dispatch, bind_eq_ok] at h
      obtain ⟨_, _, h⟩ := h
      exact recorded_steps rfl (.single (.seeds h))
  | electmeeting =>
      refine recorded_steps rfl ?_
      simp only [dispatch, electmeeting, bind_eq_ok, pure_eq_ok] at h
      obtain ⟨_, _, _, _, _, _, _, _, _, _, encrypted, _, rfl⟩ := h
      exact Aside.steps (aside_tables _ s.auctions s.sessions encrypted (Quiet.refl _))
  | electvote =>
      simp only [dispatch, bind_eq_ok] at h
      obtain ⟨_, _, _, _, h⟩ := h
      exact recorded_steps rfl (.single (.votes h))
  | electvideo =>
      refine recorded_steps rfl ?_
      simp only [dispatch, electvideo, bind_eq_ok, check_eq_ok, exists_const, pure_eq_ok] at h
      obtain ⟨_, _, _, _, _, _, _, _, _, rfl⟩ := h
      exact .refl
  | electprocess => exact recorded_steps rfl (electprocess_steps h)
  | finishelect => exact recorded_steps rfl (finishelect_steps h)
  | changerank =>
      refine recorded_steps rfl ?_
      simp only [dispatch, changerank, bind_eq_ok, check_eq_ok, exists_const, pure_eq_ok] at h
      obtain ⟨_, _, _, _, _, rfl⟩ := h
      exact .single .extends
  | clearrank =>
      refine recorded_steps rfl ?_
      simp only [dispatch, clearrank, bind_eq_ok, check_eq_ok, exists_const, pure_eq_ok] at h
      obtain ⟨_, _, _, _, _, rfl⟩ := h
      exact .single .empties
  | bylawspropose =>
      refine recorded_steps rfl ?_
      simp only [dispatch, bylawspropose, bind_eq_ok, pure_eq_ok] at h
      obtain ⟨_, _, t, ht, rfl⟩ := h
      exact .single (.proposes ht)
  | bylawsapprove =>
      refine recorded_steps rfl ?_
      simp only [dispatch, approveBylaws, bind_eq_ok, pure_eq_ok] at h
      obtain ⟨_, _, t, ht, rfl⟩ := h
      exact .single (.approves ht)
  | bylawsratify =>
      refine recorded_steps rfl ?_
      simp only [dispatch, approveBylaws, bind_eq_ok, pure_eq_ok] at h
      obtain ⟨_, _, t, ht, rfl⟩ := h
      exact .single (.ratifies ht)
  | distribute => exact recorded_steps rfl (distribute_steps h)
  | inductdonate => exact inductdonate_steps h
  | inductcancel => exact recorded_steps rfl (inductcancel_steps rfl h)
  | inducted => exact recorded_steps rfl (inducted_steps rfl rfl h)
  | resign => exact recorded_steps rfl (resign_steps h)
  | rename => exact renameAccount_steps h
  | gc => exact recorded_steps rfl (gc_steps rfl h)
  | migrate => exact recorded_steps rfl (migrate_steps rfl h)
  | unmigrate => exact recorded_steps rfl (unmigrate_steps h)

/-- Every call that finds all events sent is a sequence of steps, and leaves all events sent. -/
theorem exec_steps {env : Env} {s s' : State} (hclean : s.output.serializedEvents = [])
    (h : exec p env s call = .ok s') :
    Steps p call s s' ∧ s'.output.serializedEvents = [] := by
  have hsent : ∀ o : Output, (sendEvents o).serializedEvents = [] := by
    intro o
    unfold sendEvents
    split
    · rename_i hempty
      exact hempty
    · rfl
  cases call with
  | action a =>
      simp only [exec, applyAction, bind_eq_ok, pure_eq_ok] at h
      obtain ⟨t, ht, rfl⟩ := h
      have haside : Aside t { t with output := sendEvents t.output } :=
        aside_output t (Quiet.sendEvents t.output)
      exact ⟨(dispatch_steps hclean ht).trans haside.steps, hsent t.output⟩
  | transfer sender receiver quantity memo =>
      simp only [exec] at h
      split at h
      · rename_i hparty
        simp only [bind_eq_ok] at h
        obtain ⟨_, _, h⟩ := h
        refine ⟨transfer_steps hclean hparty h, ?_⟩
        simp only [tokenTransfer, bind_eq_ok, pure_eq_ok] at h
        obtain ⟨_, _, _, _, _, _, _, _, _, _, _, _, _, _, t, _, rfl⟩ := h
        exact hsent t.output
      · rw [← pure_eq_ok.mp h]
        exact ⟨.refl, hclean⟩
  | lognewtempl templateId =>
      obtain ⟨o, auctions, invitee, hsilent, rfl⟩ := notifyLognewtempl_eq_ok h
      refine ⟨?_, hsilent.2.trans hclean⟩
      have hnft : Aside s { s with members := modifyMember s.members invitee fun row =>
          { row with nftTemplateId := templateId % 2 ^ 64 } } :=
        aside_modifyMember s invitee fun _ => rfl
      refine hnft.steps.trans ?_
      exact Aside.steps (aside_tables _ auctions s.sessions s.elections.encrypted hsilent.1)
  | logmint =>
      obtain ⟨o, auctions, hsilent, rfl⟩ := notifyLogmint_eq_ok h
      refine ⟨?_, hsilent.2.trans hclean⟩
      exact Aside.steps (aside_tables _ auctions s.sessions s.elections.encrypted hsilent.1)

/-- The rule for invariants of calls that are allowed in the state they find: what `During` says of
a call holds from its start to its end. -/
theorem reachable_of_calls {allowed : State → Call → Prop} (Inv : State → Prop)
    (During : Call → State → Prop) {s : State} (h : Reachable p allowed s)
    (huntouched : ∀ s, Untouched s → Inv s)
    (htime : ∀ s now, s.now ≤ now → now < 2 ^ 32 → Inv s → Inv { s with now := now })
    (hstart : ∀ call s, allowed s call → Inv s → During call s)
    (hstep : ∀ call s s', Step p call s s' → Inv s → During call s → Inv s' ∧ During call s') :
    Inv s := by
  refine (reachable_invariant (fun s => Inv s ∧ s.output.serializedEvents = []) h ?_ ?_ ?_).1
  · intro s hs
    refine ⟨huntouched s hs, ?_⟩
    rw [hs.1]
  · exact fun s now hle hlt hs => ⟨htime s now hle hlt hs.1, hs.2⟩
  · intro env s₀ call s' hallowed hexec hs
    obtain ⟨hsteps, hclean⟩ := exec_steps hs.2 hexec
    refine ⟨?_, hclean⟩
    have hall : ∀ t, Steps p call s₀ t → Inv t ∧ During call t := by
      intro t ht
      induction ht with
      | refl => exact ⟨hs.1, hstart call s₀ hallowed hs.1⟩
      | tail _ hlast ih => exact hstep call _ _ hlast ih.1 ih.2
    exact (hall s' hsteps).1

/-- All events are sent between calls. -/
theorem reachable_clean {allowed : State → Call → Prop} {s : State} (h : Reachable p allowed s) :
    s.output.serializedEvents = [] := by
  refine reachable_invariant (fun s => s.output.serializedEvents = []) h ?_ ?_ ?_
  · intro s hs
    rw [hs.1]
  · exact fun s now _ _ hs => hs
  · intro env s call s' _ hexec hs
    exact (exec_steps hs hexec).2

/-- The rule for invariants: what holds of the empty tables and is kept by time and by each step
of an allowed call holds in every reachable state. -/
theorem reachable_of_steps {allowed : Call → Prop} (Inv : State → Prop) {s : State}
    (h : Reachable p (fun _ call => allowed call) s) (huntouched : ∀ s, Untouched s → Inv s)
    (htime : ∀ s now, s.now ≤ now → now < 2 ^ 32 → Inv s → Inv { s with now := now })
    (hstep : ∀ call s s', allowed call → Step p call s s' → Inv s → Inv s') : Inv s :=
  reachable_of_calls Inv (fun call _ => allowed call) h huntouched htime
    (fun _ _ hallowed _ => hallowed)
    fun call s s' hlast hs hallowed => ⟨hstep call s s' hallowed hlast hs, hallowed⟩

/-- The rule for invariants of histories, with the steps of each call. -/
theorem history_of_calls {allowed : State → Call → Prop} (Inv : List Record → State → Prop)
    {es : List Record} {s : State} (h : History p allowed es s)
    (huntouched : ∀ s, Untouched s → Inv [] s)
    (htime : ∀ es s now, s.now ≤ now → now < 2 ^ 32 → Inv es s → Inv es { s with now := now })
    (hexec : ∀ es env call s s', allowed s call → exec p env s call = .ok s' → Steps p call s s' →
      Inv es s → Inv (es ++ [⟨s, (env, call), s'⟩]) s') : Inv es s := by
  refine (history_invariant (fun es s => Inv es s ∧ s.output.serializedEvents = []) h ?_ ?_ ?_).1
  · intro s hs
    refine ⟨huntouched s hs, ?_⟩
    rw [hs.1]
  · exact fun es s now hle hlt hs => ⟨htime es s now hle hlt hs.1, hs.2⟩
  · intro es env s₀ call s' hallowed hcall hs
    obtain ⟨hsteps, hclean⟩ := exec_steps hs.2 hcall
    exact ⟨hexec es env call s₀ s' hallowed hcall hsteps hs.1, hclean⟩

/-- The rule for what holds of every executed call, with what its history says before it. -/
theorem history_entries {allowed : State → Call → Prop} (Inv : List Record → State → Prop)
    (Holds : List Record → Record → Prop) {es : List Record} {s : State}
    (h : History p allowed es s) (huntouched : ∀ s, Untouched s → Inv [] s)
    (htime : ∀ es s now, s.now ≤ now → now < 2 ^ 32 → Inv es s → Inv es { s with now := now })
    (hexec : ∀ es env call s s', allowed s call → exec p env s call = .ok s' → Steps p call s s' →
      Inv es s → Inv (es ++ [⟨s, (env, call), s'⟩]) s' ∧ Holds es ⟨s, (env, call), s'⟩) :
    ∀ es₁ e es₂, es = es₁ ++ e :: es₂ → Holds es₁ e := by
  refine (history_of_calls
    (fun es s => Inv es s ∧ ∀ es₁ e es₂, es = es₁ ++ e :: es₂ → Holds es₁ e) h ?_ ?_ ?_).2
  · intro s hs
    refine ⟨huntouched s hs, ?_⟩
    intro es₁ e es₂ heq
    exact absurd heq (by simp)
  · exact fun es s now hle hlt hs => ⟨htime es s now hle hlt hs.1, hs.2⟩
  · intro es env call s s' hallowed hcall hsteps hs
    obtain ⟨hinv, hlast⟩ := hexec es env call s s' hallowed hcall hsteps hs.1
    refine ⟨hinv, ?_⟩
    intro es₁ e es₂ heq
    rcases Machine.append_singleton_eq_append_cons heq with ⟨rfl, rfl⟩ | ⟨es₃, rfl⟩
    · exact hlast
    · exact hs.2 es₁ e es₃ rfl

/-- What each step of a call keeps is kept by the call. -/
theorem steps_preserve (Inv : State → Prop) {s s' : State}
    (hstep : ∀ t t', Step p call t t' → Inv t → Inv t') (h : Steps p call s s') (hs : Inv s) :
    Inv s' := by
  induction h with
  | refl => exact hs
  | tail _ hlast ih => exact hstep _ _ hlast ih

/-! ### After genesis -/

theorem step_globals {s s' : State} (h : Step p call s s') (hcall : call ≠ .action .clearall)
    (hs : s.globals ≠ none) : s'.globals ≠ none := by
  cases h with
  | aside haside =>
      intro hnone
      have hdonation := haside.donation
      rw [hnone, Option.map_none, eq_comm, Option.map_eq_none_iff] at hdonation
      exact hs hdonation
  | seeds hseed =>
      rcases seed_eq_ok hseed with ⟨_, _, _, _, _, _, _, _, _, rfl⟩ | ⟨_, _, _, _, _, _, _, rfl⟩ |
        ⟨_, _, _, _, _, _, rfl⟩
      · exact hs
      · exact hs
      · exact hs
  | starts _ hstart _ =>
      obtain ⟨_, _, _, _, _, _, _, rfl⟩ := startElection_eq_ok hstart
      exact hs
  | votes hvote =>
      obtain ⟨_, _, _, _, _, _, _, _, _, _, _, rfl⟩ := vote_eq_ok hvote
      exact hs
  | founds => simp
  | clears => exact absurd rfl hcall
  | establishes => simp
  | _ => exact hs

theorem steps_globals {s s' : State} (h : Steps p call s s') (hcall : call ≠ .action .clearall)
    (hs : s.globals ≠ none) : s'.globals ≠ none :=
  steps_preserve (fun t => t.globals ≠ none) (fun _ _ hstep => step_globals hstep hcall) h hs

theorem genesis_globals {env : Env} {s s' : State} {a : Action} (ha : Action.isGenesis a = true)
    (h : exec p env s (.action a) = .ok s') : s'.globals ≠ none := by
  cases a with
  | genesis =>
      simp only [exec, applyAction, bind_eq_ok, pure_eq_ok, dispatch] at h
      obtain ⟨t, ht, rfl⟩ := h
      obtain ⟨u, hu, _, hsteps⟩ := genesis_steps_of ht
      have hglobals : t.globals ≠ none := steps_globals hsteps (by simp) hu
      exact hglobals
  | _ => simp [Action.isGenesis] at ha

/-- The globals exist and all events are sent. -/
def Founded (s : State) : Prop := s.globals ≠ none ∧ s.output.serializedEvents = []

/-- The globals exist after genesis as long as the tables are not cleared. -/
theorem reachable_globals {allowed : State → Call → Prop} {s : State} (h : Reachable p allowed s)
    (hclear : ∀ s, ¬ allowed s (.action .clearall)) : s.globals ≠ none := by
  have hmove : ∀ t t', Move p allowed t t' → Founded t → Founded t' := by
    rintro t t' hmove ⟨hglobals, hclean⟩
    rcases move_cases hmove with ⟨now, _, _, rfl⟩ | ⟨env, call, hallowed, hexec⟩
    · exact ⟨hglobals, hclean⟩
    · obtain ⟨hsteps, hclean'⟩ := exec_steps hclean hexec
      refine ⟨steps_globals hsteps ?_ hglobals, hclean'⟩
      rintro rfl
      exact hclear t hallowed
  refine (Machine.Reachable.invariant Founded h ?_ hmove).1
  rintro t ⟨s₀, now, env, a, calls, hempty, _, hgenesis, hcalls, hrun⟩
  rw [Machine.run, List.foldlM_cons, bind_eq_ok] at hrun
  obtain ⟨t₁, hfirst, hrest⟩ := hrun
  have hexec : exec p env { s₀ with now := now } (.action a) = .ok t₁ := hfirst
  have hclean : ({ s₀ with now := now } : State).output.serializedEvents = [] := by rw [hempty.1]
  exact Machine.moves_preserve Founded hmove
    (Machine.moves_of_foldlM (hcalls.2 t₁ hfirst) hrest)
    ⟨genesis_globals hgenesis hexec, (exec_steps hclean hexec).2⟩

end Eden.ActionSteps
