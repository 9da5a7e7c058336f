import Eden.HostFunctions
import Eden.MemberStatistics

/-!
The date of the next election. It can be moved up to one day before the election, and a triggered
election comes at least 30 days later, as long as block times do not wrap.
-/

namespace Eden.ElectionSchedule

open Eden.ExceptReasoning
open Eden.SortedTable
open Eden.TransactionRuns
open Eden.ChainPrimitives
open Eden.ContractState
open Eden.Runtime
open Eden.MemberTable
open Eden.DistributionTables
open Eden.ElectionRounds
open Eden.ElectionPhases
open Eden.InductionTables
open Eden.ContractActions
open Eden.Transactions
open Eden.HostFunctions
open Eden.ContractSteps
open Eden.ActionSteps
open Eden.Electorate

variable {p : Platform} {call : Call} {env : Env}

/-! ### Dates -/

theorem secOfTimePoint_toTimePoint {now : Nat} (h : now < 2 ^ 32) :
    secOfTimePoint (toTimePoint now) = now / 2 + 946684800 := by
  have hdiv : (toTimePoint now).tdiv 1000000 = ((now / 2 + 946684800 : Nat) : Int) := by
    unfold toTimePoint blockTimestampEpoch
    rw [Int.tdiv_eq_ediv_of_nonneg (by omega)]
    omega
  rw [secOfTimePoint, hdiv]
  omega

theorem secOfTimePoint_add_days {sec : Nat} (h : sec + 30 * 86400 < 2 ^ 32) :
    secOfTimePoint (timePointOfSec sec + days 30) = sec + 30 * 86400 := by
  have hdiv : (timePointOfSec sec + days 30).tdiv 1000000 = ((sec + 30 * 86400 : Nat) : Int) := by
    unfold timePointOfSec days seconds
    rw [Int.tdiv_eq_ediv_of_nonneg (by omega)]
    omega
  rw [secOfTimePoint, hdiv]
  omega

/-- The election comes within the week that follows. -/
theorem getElectionTime_ge {start base : Nat} (h : base + 7 * 86400 < 2 ^ 32) :
    base ≤ getElectionTime start base := by
  unfold getElectionTime
  dsimp only
  split <;> omega

/-- The first second after 2000 that is not a block time. -/
def endOfBlockTime : Nat := 946684800 + 2 ^ 31

theorem toTimePoint_ofSec {sec : Nat} (h : 946684800 ≤ sec) (hlt : sec < endOfBlockTime) :
    toTimePoint (ofSec sec) = timePointOfSec sec := by
  have hdiv : (((sec : Int) * 1000 - blockTimestampEpoch).tdiv 500) =
      ((2 * (sec - 946684800) : Nat) : Int) := by
    unfold blockTimestampEpoch
    rw [Int.tdiv_eq_ediv_of_nonneg (by omega)]
    omega
  unfold endOfBlockTime at hlt
  rw [ofSec, hdiv]
  unfold toTimePoint timePointOfSec seconds blockTimestampEpoch
  omega

/-- The date of an election that is triggered at a block time, in seconds. -/
def triggeredDate (g : Globals) (now : Nat) : Nat :=
  getElectionTime g.electionStartTime
    (secOfTimePoint (timePointOfSec (secOfTimePoint (toTimePoint now)) + days 30))

/-- Thirty days after a block time, counted in whole seconds. -/
def inThirtyDays (now : Nat) : Int := timePointOfSec (secOfTimePoint (toTimePoint now)) + days 30

theorem inThirtyDays_le {g : Globals} {now : Nat} (h : now < 2 ^ 32)
    (hfits : triggeredDate g now < endOfBlockTime) :
    inThirtyDays now ≤ toTimePoint (triggeredStart g now) := by
  have hsec := secOfTimePoint_toTimePoint h
  have hbase : secOfTimePoint (timePointOfSec (secOfTimePoint (toTimePoint now)) + days 30) =
      now / 2 + 946684800 + 30 * 86400 := by
    rw [hsec]
    exact secOfTimePoint_add_days (by omega)
  have hdate : now / 2 + 946684800 + 30 * 86400 ≤ triggeredDate g now := by
    rw [triggeredDate, hbase]
    exact getElectionTime_ge (by omega)
  rw [triggeredStart, ← triggeredDate, toTimePoint_ofSec (by omega) hfits, inThirtyDays, hsec]
  unfold timePointOfSec days seconds
  omega

theorem lt_inThirtyDays {now : Nat} (h : now < 2 ^ 32) :
    toTimePoint now + days 1 < inThirtyDays now := by
  rw [inThirtyDays, secOfTimePoint_toTimePoint h]
  unfold toTimePoint timePointOfSec days seconds blockTimestampEpoch
  omega

/-! ### What calls do to the date -/

/-- The start of the next election, and the version of its schedule. -/
def schedule : Option ElectionState → Option (Nat × Nat)
  | some (.registration startTime _ version) => some (startTime, version)
  | some (.seeding seed version) => some (seed.endTime, version)
  | _ => none

/-- The election is less than a day away, or it is being seeded. -/
def isLocked (s : State) : Bool :=
  match s.elections.current with
  | some (.registration startTime _ _) => toTimePoint startTime < toTimePoint s.now + days 1
  | some (.seeding ..) => true
  | _ => false

/-- One more active member reaches the threshold of the election. -/
def reachesThreshold (s : State) : Bool :=
  match s.elections.current with
  | some (.registration _ threshold _) => threshold ≤ s.members.stats.activeMembers + 1
  | _ => false

/-- Calls that trigger an election: the lead representative resigns, or a new member reaches the
threshold. -/
def triggersElection (s : State) : Call → Bool
  | .action (.resign account) => isLead s.elections.results account
  | .action (.inductdonate ..) => reachesThreshold s
  | .action (.inducted ..) => reachesThreshold s
  | _ => false

/-- The date of an election that is triggered now is a block time. -/
def dateFits (s : State) : Bool :=
  s.globals.all fun g => triggeredDate g s.now < endOfBlockTime

theorem triggeredDate_lt {s : State} {g : Globals} (hg : s.globals = some g)
    (h : dateFits s = true) : triggeredDate g s.now < endOfBlockTime := by
  rw [dateFits, hg, Option.all_some] at h
  exact of_decide_eq_true h

/-- The call starts the election. -/
def startsElection (e : Record) : Bool :=
  match e.input.2, e.before.elections.current with
  | .action (.electprocess _), some (.seeding seeder _) => seeder.endTime ≤ e.before.now
  | _, _ => false

/-- The election has the same date, and may be seeded now. -/
def SameDate (state state' : Option ElectionState) : Prop :=
  state' = state ∨ ∃ seeder version, state' = some (.seeding seeder version) ∧
    schedule state = some (seeder.endTime, version)

theorem SameDate.schedule_eq {state state' : Option ElectionState} (h : SameDate state state') :
    schedule state' = schedule state := by
  rcases h with rfl | ⟨seeder, version, rfl, hschedule⟩
  · rfl
  · rw [hschedule, schedule]

theorem SameDate.isLocked {s s' : State} (h : SameDate s.elections.current s'.elections.current)
    (hnow : s.now ≤ s'.now) (hs : isLocked s = true) : isLocked s' = true := by
  rcases h with heq | ⟨seeder, version, heq, _⟩
  · unfold ElectionSchedule.isLocked at hs ⊢
    rw [heq]
    split at hs
    · have hle := toTimePoint_le.mpr hnow
      simp only [decide_eq_true_eq] at hs ⊢
      omega
    · rfl
    · exact absurd hs (by simp)
  · rw [ElectionSchedule.isLocked, heq]

theorem step_now {s s' : State} (h : Step p call s s') : s'.now = s.now := by
  cases h with
  | aside haside => exact haside.now
  | seeds hseed =>
      rcases seed_eq_ok hseed with ⟨_, _, _, _, _, _, _, _, _, rfl⟩ | ⟨_, _, _, _, _, _, _, rfl⟩ |
        ⟨_, _, _, _, _, _, rfl⟩
      all_goals rfl
  | starts _ hstart _ =>
      obtain ⟨_, _, _, _, _, _, _, rfl⟩ := startElection_eq_ok hstart
      rfl
  | votes hvote =>
      obtain ⟨_, _, _, _, _, _, _, _, _, _, _, rfl⟩ := vote_eq_ok hvote
      rfl
  | clears hclear =>
      simp only [clearall, bind_eq_ok, pure_eq_ok] at hclear
      obtain ⟨_, _, _, _, rfl⟩ := hclear
      rfl
  | _ => rfl

theorem steps_now {s s' : State} (h : Steps p call s s') : s'.now = s.now :=
  steps_preserve (fun t => t.now = s.now) (fun _ _ hstep ht => (step_now hstep).trans ht) h rfl

/-- A step of a call that does not reschedule: the election is seeded, or it starts. -/
theorem step_date {s s' : State} (h : Step p call s s') (hcall : reschedules call = false)
    (huninterrupted : uninterrupted call = true) (hdate : schedule s.elections.current ≠ none) :
    s'.elections.current = s.elections.current ∨
      ((∃ header, call = .action (.electseed header)) ∧
        SameDate s.elections.current s'.elections.current) ∨
      ∃ n seeder version, call = .action (.electprocess n) ∧
        s.elections.current = some (.seeding seeder version) ∧ seeder.endTime ≤ s.now := by
  cases h with
  | aside haside => exact .inl haside.current
  | schedules hreschedules => exact absurd hreschedules (by simp [hcall])
  | unschedules hreschedules => exact absurd hreschedules (by simp [hcall])
  | aborts => exact absurd huninterrupted (by simp [uninterrupted])
  | clears => exact absurd huninterrupted (by simp [uninterrupted])
  | seeds hseed =>
      refine .inr (.inl ⟨⟨_, rfl⟩, .inr ?_⟩)
      rcases seed_eq_ok hseed with
        ⟨startTime, threshold, version, seeder, o, hcurrent, _, hend, _, rfl⟩ |
        ⟨seeder, seeder', version, o, hcurrent, hend, _, rfl⟩ | ⟨_, _, _, hcurrent, _, _, rfl⟩
      · exact ⟨seeder, version, rfl, by rw [hcurrent, schedule, hend]⟩
      · exact ⟨seeder', version, rfl, by rw [hcurrent, schedule, hend]⟩
      · exact absurd hdate (by simp [hcurrent, schedule])
  | starts hcurrent hstart _ =>
      exact .inr (.inr ⟨_, _, _, rfl, hcurrent, (startElection_eq_ok hstart).1⟩)
  | votes hvote =>
      obtain ⟨_, _, _, _, _, _, _, _, _, _, _, rfl⟩ := vote_eq_ok hvote
      exact .inl rfl
  | visits hcurrent | reports hcurrent | opens hcurrent | closes hcurrent | groups hcurrent
  | rereports hcurrent | advances hcurrent =>
      exact absurd hdate (by simp [hcurrent, schedule])
  | concludes _ _ hlast =>
      rcases hlast with ⟨data, configs, hcurrent, _⟩ | ⟨seeder, hcurrent⟩
      · exact absurd hdate (by simp [hcurrent, schedule])
      · exact absurd hdate (by simp [hcurrent, schedule])
  | _ => exact .inl rfl

theorem steps_date {s s' : State} (h : Steps p call s s') (hcall : reschedules call = false)
    (huninterrupted : uninterrupted call = true) (hdate : schedule s.elections.current ≠ none)
    (hstart : startsElection ⟨s, (env, call), s'⟩ = false) :
    SameDate s.elections.current s'.elections.current := by
  have hsteps : s'.now = s.now ∧ (s'.elections.current = s.elections.current ∨
      (∃ header, call = .action (.electseed header)) ∧
        SameDate s.elections.current s'.elections.current) := by
    refine steps_preserve (fun t => t.now = s.now ∧ (t.elections.current = s.elections.current ∨
      (∃ header, call = .action (.electseed header)) ∧
        SameDate s.elections.current t.elections.current)) ?_ h ⟨rfl, .inl rfl⟩
    rintro t t' hstep ⟨hnow, ht⟩
    refine ⟨(step_now hstep).trans hnow, ?_⟩
    have hsame : SameDate s.elections.current t.elections.current := by
      rcases ht with ht | ht
      · exact .inl ht
      · exact ht.2
    have hdate' : schedule t.elections.current ≠ none := by rwa [hsame.schedule_eq]
    rcases step_date hstep hcall huninterrupted hdate' with heq | ⟨hseed, hnext⟩ |
      ⟨n, seeder, version, rfl, hcurrent, hend⟩
    · rwa [heq]
    · refine .inr ⟨hseed, ?_⟩
      rcases hnext with heq | ⟨seeder, version, heq, hschedule⟩
      · rwa [heq]
      · exact .inr ⟨seeder, version, heq, by rw [← hschedule, hsame.schedule_eq]⟩
    · rcases ht with ht | ⟨⟨_, hseed⟩, _⟩
      · rw [ht] at hcurrent
        simp only [startsElection, hcurrent, decide_eq_false_iff_not] at hstart
        exact absurd (hnow ▸ hend) hstart
      · exact absurd hseed (by simp)
  rcases hsteps.2 with heq | ⟨_, hsame⟩
  · exact .inl heq
  · exact hsame

/-- An election that is triggered gets an earlier date. -/
def MovedForward (s s' : State) : Prop :=
  ∃ g startTime threshold version, s.globals = some g ∧
    s.elections.current = some (.registration startTime threshold version) ∧
    triggeredStart g s.now < startTime ∧
    s'.elections.current = some (.registration (triggeredStart g s.now) (maxActiveMembers + 1)
      ((version + 1) % 2 ^ 8))

theorem triggerElection_date {s s' : State} (h : triggerElection p s = .ok s')
    (hstarted : ∀ g, s.globals = some g → g.electionStartTime ≠ unsetStartTime) :
    s'.elections.current = s.elections.current ∨ MovedForward s s' := by
  obtain ⟨g, hg, ⟨hunset, _⟩ | ⟨_, rfl⟩ |
    ⟨_, startTime, threshold, version, o, hcurrent, hlt, _, _, rfl⟩⟩ := triggerElection_eq_ok h
  · exact absurd hunset (hstarted g hg)
  · exact .inl rfl
  · exact .inr ⟨g, startTime, threshold, version, hg, hcurrent, hlt, rfl⟩

theorem setTime_date {s s' : State} {day : Nat} {time : Text} (h : setTime p s day time = .ok s')
    (hdate : schedule s.elections.current ≠ none) :
    s'.elections.current = s.elections.current := by
  obtain ⟨g, startTime, _, _, ⟨hnone, _⟩ | ⟨hpending, _⟩ | ⟨_, _, rfl⟩⟩ := setTime_eq_ok h
  · exact absurd hdate (by simp [hnone, schedule])
  · exact absurd hdate (by simp [hpending, schedule])
  · rfl

theorem inducted_date {s s' : State} {inductee : Name} (h : inducted p env s inductee = .ok s')
    (hstarted : ∀ g, s.globals = some g → g.electionStartTime ≠ unsetStartTime) :
    s'.elections.current = s.elections.current ∨
      (reachesThreshold s = true ∧ MovedForward s s') := by
  simp only [inducted, bind_eq_ok] at h
  obtain ⟨_, _, _, _, i, _, members, hmembers, t, _, u, hu, h⟩ := h
  obtain ⟨g, stage, o, hg, _, _, rfl⟩ := maybeActivateContract_eq_ok hu
  have hg' : s.globals = some g := hg
  have hactive : members.stats.activeMembers = s.members.stats.activeMembers + 1 := by
    simp only [setActive, bind_eq_ok, pure_eq_ok] at hmembers
    obtain ⟨_, _, _, _, _, _, rfl⟩ := hmembers
    rfl
  unfold checkThreshold at h
  split at h
  · rename_i startTime threshold version hcurrent
    have hcurrent' : s.elections.current = some (.registration startTime threshold version) :=
      hcurrent
    split at h
    · rename_i hle
      have hthreshold : reachesThreshold s = true := by
        simp only [reachesThreshold, hcurrent', decide_eq_true_eq]
        rw [← hactive]
        exact hle
      rcases triggerElection_date h (by
        rintro g' ⟨rfl⟩
        exact hstarted g hg') with heq | ⟨_, startTime', threshold', version', ⟨rfl⟩, hrest⟩
      · exact .inl heq
      · exact .inr ⟨hthreshold, g, startTime', threshold', version', hg', hrest⟩
    · rw [← pure_eq_ok.mp h]
      exact .inl rfl
  · rw [← pure_eq_ok.mp h]
    exact .inl rfl

theorem inductdonate_date {s s' : State} {payer : Name} {id : Nat} {quantity : Asset}
    (h : inductdonate p env s payer id quantity = .ok s')
    (hstarted : ∀ g, s.globals = some g → g.electionStartTime ≠ unsetStartTime) :
    s'.elections.current = s.elections.current ∨
      (reachesThreshold s = true ∧ MovedForward s s') := by
  simp only [inductdonate, createNft, donateToMaster, bind_eq_ok, pure_eq_ok] at h
  obtain ⟨_, _, _, _, i, _, _, _, _, _, _, _, _, _, user, _, migration, _, t, ht, inductions, _,
    u, hu, v, hv, rfl⟩ := h
  obtain ⟨o, auctions, invitee, _, rfl⟩ := createTemplate_eq_ok hu
  split at ht
  · simp only [bind_eq_ok, pure_eq_ok] at ht
    obtain ⟨f, _, rfl⟩ := ht
    have hdate := inducted_date hv hstarted
    exact hdate
  · rw [Except.ok.injEq] at ht
    subst ht
    have hdate := inducted_date hv hstarted
    exact hdate

theorem resign_date {s s' : State} {account : Name} (h : resign p env s account = .ok s')
    (hstarted : ∀ g, s.globals = some g → g.electionStartTime ≠ unsetStartTime) :
    s'.elections.current = s.elections.current ∨
      (isLead s.elections.results account = true ∧ MovedForward s s') := by
  simp only [resign, bind_eq_ok, pure_eq_ok] at h
  obtain ⟨_, _, _, _, _, _, _, _, f, _, t, ht, u, hu, rfl⟩ := h
  obtain ⟨_, _, _, _, _, _, _, rfl⟩ := remove_eq_ok hu
  obtain ⟨_, o, _, ⟨_, rfl⟩ | ⟨hlead, htrigger⟩⟩ := electionsOnResign_eq_ok ht
  · exact .inl rfl
  · have hdate := triggerElection_date htrigger hstarted
    exact hdate.imp_right fun hmoved => ⟨hlead, hmoved⟩

theorem genesis_date {s s' : State} {community : Text} {communitySymbol : Symbol}
    {minimumDonation : Asset} {initialMembers : List Name} {genesisVideo : Text}
    {auctionStartingBid : Asset} {auctionDuration electionDay : Nat} {electionTime : Text}
    (h : genesis p env s community communitySymbol minimumDonation initialMembers genesisVideo
      auctionStartingBid auctionDuration electionDay electionTime = .ok s')
    (hdate : schedule s.elections.current ≠ none) :
    s'.elections.current = s.elections.current := by
  simp only [genesis, emplaceMasterPool, bind_eq_ok, check_eq_ok, exists_const, expect_eq_ok,
    pure_eq_ok] at h
  obtain ⟨_, _, _, _, _, _, ⟨pools, _, rfl⟩, owned, _, t, ht, ⟨u, n⟩, hu, rfl⟩ := h
  have hmembers : u.elections = t.elections := by
    refine foldlM_preserves (fun acc : State × Nat => acc.1.elections = t.elections) ?_ _ hu rfl
    intro acc invitee acc' hcreate hacc
    simp only [createGenesisMember, bind_eq_ok, pure_eq_ok] at hcreate
    obtain ⟨_, _, _, _, _, _, rfl⟩ := hcreate
    exact hacc
  change u.elections.current = _
  rw [hmembers]
  have hset := setTime_date ht hdate
  exact hset

/-- What a call does to the date of an election: nothing, unless the date is set more than a day
before the election, or an election is triggered. -/
theorem exec_date {s s' : State} (hsteps : Steps p call s s')
    (h : exec p env s call = .ok s') (hs : Named s) (huninterrupted : uninterrupted call = true)
    (hstart : startsElection ⟨s, (env, call), s'⟩ = false)
    (hdate : schedule s.elections.current ≠ none) :
    SameDate s.elections.current s'.elections.current ∨
      ((∃ electionTime, call = .action (.electsettime electionTime)) ∧ isLocked s = false) ∨
      (triggersElection s call = true ∧ MovedForward s s') := by
  have hother : reschedules call = false →
      SameDate s.elections.current s'.elections.current := fun hcall =>
    steps_date hsteps hcall huninterrupted hdate hstart
  cases call with
  | action a =>
      simp only [exec, applyAction, bind_eq_ok, pure_eq_ok] at h
      obtain ⟨t, ht, rfl⟩ := h
      cases a with
      | genesis =>
          have hsame := genesis_date ht hdate
          exact .inl (.inl hsame)
      | electconfig =>
          simp only [dispatch, electconfig, bind_eq_ok, pure_eq_ok] at ht
          obtain ⟨_, _, u, hu, _, _, rfl⟩ := ht
          have hsame := setTime_date hu hdate
          exact .inl (.inl hsame)
      | electsettime electionTime =>
          simp only [dispatch, electsettime, bind_eq_ok] at ht
          obtain ⟨_, _, _, _, ht⟩ := ht
          obtain ⟨_, _, _, _, rfl, ⟨hnone, _⟩ | ⟨startTime, _, _, hcurrent, hlock, _⟩⟩ :=
            setNextElectionTime_eq_ok ht
          · have hnone' : s.elections.current = none := hnone
            exact absurd hdate (by simp [hnone', schedule])
          · have hcurrent' : s.elections.current = some (.registration startTime _ _) := hcurrent
            have hlock' : toTimePoint s.now + days 1 ≤ toTimePoint startTime := hlock
            refine .inr (.inl ⟨⟨electionTime, rfl⟩, ?_⟩)
            simp only [isLocked, hcurrent', decide_eq_false_iff_not]
            omega
      | inductdonate =>
          have hcases := inductdonate_date ht hs.started
          rcases hcases with heq | hmoved
          · exact .inl (.inl heq)
          · exact .inr (.inr hmoved)
      | inducted =>
          have hcases := inducted_date ht hs.started
          rcases hcases with heq | hmoved
          · exact .inl (.inl heq)
          · exact .inr (.inr hmoved)
      | resign =>
          have hcases := resign_date ht hs.started
          rcases hcases with heq | hmoved
          · exact .inl (.inl heq)
          · exact .inr (.inr hmoved)
      | _ => exact .inl (hother rfl)
  | _ => exact .inl (hother rfl)

/-! ### Histories -/

theorem history_now {allowed : State → Call → Prop} {es : List Record} {s : State}
    (h : History p allowed es s) : ∀ e ∈ es, e.before.now < 2 ^ 32 := by
  refine Machine.History.before (fun s => s.output.serializedEvents = []) (fun s => s.now < 2 ^ 32)
    h.1 ?_ ?_ ?_
  · intro s hs
    rw [hs.1]
  · exact fun s now hadmits hs => ⟨hs, hadmits.2⟩
  · intro s call s' _ hexec hs hnow
    obtain ⟨hsteps, hclean⟩ := exec_steps hs hexec
    exact ⟨hclean, (steps_now hsteps).trans_lt hnow⟩

/-- The calls that follow each other from a locked date on, without the start of the election. -/
structure BeforeStart (es : List Record) : Prop where
  uninterrupted : ∀ e ∈ es, uninterrupted e.input.2 = true
  unstarted : ∀ e ∈ es, startsElection e = false

/-- What holds of the last call of a history: it does not move a locked date, and it moves a date
on its own only forward, to at least 30 days from now. -/
structure KeepsDate (es : List Record) (e : Record) : Prop where
  locked : ∀ es₁ d es₂, es ++ [e] = es₁ ++ d :: es₂ → isLocked d.before = true →
    BeforeStart (d :: es₂) →
    schedule e.after.elections.current = schedule d.before.elections.current
  moved : ∀ startTime version, BeforeStart [e] →
    (∀ electionTime, e.input.2 ≠ .action (.electsettime electionTime)) →
    schedule e.before.elections.current = some (startTime, version) →
    schedule e.after.elections.current = some (startTime, version) ∨
      (triggersElection e.before e.input.2 = true ∧ ∃ startTime' version',
        schedule e.after.elections.current = some (startTime', version') ∧
        startTime' < startTime ∧ inThirtyDays e.before.now ≤ toTimePoint startTime')

/-- Elections are only triggered for dates that are block times. -/
def triggersInTime (s : State) (call : Call) : Prop :=
  triggersElection s call = true → dateFits s = true

theorem MovedForward.late {s s' : State} (h : MovedForward s s') (hnow : s.now < 2 ^ 32)
    (hfits : dateFits s = true) :
    ∃ startTime version startTime' version', schedule s.elections.current = some (startTime, version) ∧
      schedule s'.elections.current = some (startTime', version') ∧ startTime' < startTime ∧
      inThirtyDays s.now ≤ toTimePoint startTime' := by
  obtain ⟨g, startTime, threshold, version, hg, hcurrent, hlt, hcurrent'⟩ := h
  have hlate := inThirtyDays_le hnow (triggeredDate_lt hg hfits)
  refine ⟨startTime, version, triggeredStart g s.now, (version + 1) % 2 ^ 8, ?_, ?_, hlt, hlate⟩
  · rw [hcurrent, schedule]
  · rw [hcurrent', schedule]

theorem schedule_of_isLocked {s : State} (h : isLocked s = true) :
    schedule s.elections.current ≠ none := by
  unfold isLocked at h
  split at h
  · rename_i hcurrent
    simp [hcurrent, schedule]
  · rename_i hcurrent
    simp [hcurrent, schedule]
  · exact absurd h (by simp)

theorem schedule_lt_of_isLocked {s : State} {startTime threshold version : Nat}
    (h : isLocked s = true)
    (hcurrent : s.elections.current = some (.registration startTime threshold version)) :
    toTimePoint startTime < toTimePoint s.now + days 1 := by
  simpa [isLocked, hcurrent] using h

/-- A call does not move a locked date. -/
theorem exec_locked {s s' : State} (hsteps : Steps p call s s')
    (h : exec p env s call = .ok s') (hs : Named s) (hnow : s.now < 2 ^ 32)
    (hcall : triggersInTime s call) (huninterrupted : uninterrupted call = true)
    (hstart : startsElection ⟨s, (env, call), s'⟩ = false) (hlocked : isLocked s = true) :
    SameDate s.elections.current s'.elections.current := by
  rcases exec_date hsteps h hs huninterrupted hstart (schedule_of_isLocked hlocked) with
    hsame | ⟨_, hopen⟩ | ⟨htriggers, g, startTime, threshold, version, hg, hcurrent, hlt, _⟩
  · exact hsame
  · exact absurd hlocked (by simp [hopen])
  · exfalso
    have hlate := inThirtyDays_le hnow (triggeredDate_lt hg (hcall htriggers))
    have hearly := toTimePoint_lt.mpr hlt
    have hlock := schedule_lt_of_isLocked hlocked hcurrent
    have hmonth := lt_inThirtyDays hnow
    exact lt_irrefl _ (((hmonth.trans_le hlate).trans hearly).trans hlock)

/-- From a locked date on, the date is locked and stays as it is. -/
def Lock (es : List Record) (s : State) : Prop :=
  ∀ es₁ d es₂, es = es₁ ++ d :: es₂ → isLocked d.before = true → BeforeStart (d :: es₂) →
    isLocked s = true ∧ schedule s.elections.current = schedule d.before.elections.current

theorem BeforeStart.append {es es' : List Record} (h : BeforeStart (es ++ es')) :
    BeforeStart es ∧ BeforeStart es' := by
  refine ⟨⟨?_, ?_⟩, ⟨?_, ?_⟩⟩
  · exact fun e he => h.uninterrupted e (List.mem_append_left _ he)
  · exact fun e he => h.unstarted e (List.mem_append_left _ he)
  · exact fun e he => h.uninterrupted e (List.mem_append_right _ he)
  · exact fun e he => h.unstarted e (List.mem_append_right _ he)

theorem lock_exec {es : List Record} {s s' : State} (hlock : Lock es s)
    (hsteps : Steps p call s s') (h : exec p env s call = .ok s') (hs : Named s)
    (hnow : s.now < 2 ^ 32) (hcall : triggersInTime s call) :
    Lock (es ++ [⟨s, (env, call), s'⟩]) s' := by
  have hkeeps : BeforeStart [⟨s, (env, call), s'⟩] → isLocked s = true →
      isLocked s' = true ∧ schedule s'.elections.current = schedule s.elections.current := by
    intro hbefore hlocked
    have hsame := exec_locked hsteps h hs hnow hcall (hbefore.uninterrupted _ List.mem_cons_self)
      (hbefore.unstarted _ List.mem_cons_self) hlocked
    exact ⟨hsame.isLocked (steps_now hsteps).ge hlocked, hsame.schedule_eq⟩
  intro es₁ d es₂ heq hlocked hbefore
  rcases Machine.append_singleton_eq_append_cons heq with ⟨rfl, rfl⟩ | ⟨es₃, rfl⟩
  · have hnil := List.append_cancel_left heq
    rw [List.cons.injEq] at hnil
    rw [← hnil.2] at hbefore
    exact hkeeps hbefore hlocked
  · rw [List.append_assoc, List.cons_append] at heq
    have hrest := List.append_cancel_left heq
    rw [← hrest, ← List.cons_append] at hbefore
    obtain ⟨hfirst, hlast⟩ := hbefore.append
    obtain ⟨hlocked', hschedule⟩ := hlock es₁ d es₃ rfl hlocked hfirst
    obtain ⟨hlocked'', hschedule'⟩ := hkeeps hlast hlocked'
    exact ⟨hlocked'', hschedule'.trans hschedule⟩

instance (s : State) (call : Call) : Decidable (triggersInTime s call) :=
  inferInstanceAs (Decidable (_ → _))

/-- The next election is years away. The lead representative resigns. -/
def earlyResignation : List Transaction :=
  firstElection ++
    [(1987210, [(signedBy contractSigner, .action (.electsettime 1000000000))]),
      (1987220, [(signedBy alice, .action (.resign alice.name))])]

/-- The last call of a history changes the date of the election. -/
def changesDate (e : Record) : Bool :=
  schedule e.after.elections.current ≠ schedule e.before.elections.current

/-- Alice and bob take part in an election about a month before the last block time. -/
def lastElection : List Transaction :=
  foundation.map (fun tx => (tx.1 + 4286822400, tx.2)) ++
    [(4287822450, [(signedBy alice, .action (.electopt alice.name true)),
        (signedBy bob, .action (.electopt bob.name true))]),
      (4288722400, [(signedBy alice, .action (.electseed (headerAt 3091011200)))]),
      (4288809600, [(signedBy alice, .action (.electprocess 100))])]

/-- The lead representative resigns half a day before the next one. -/
def lateResignation : List Transaction :=
  lastElection ++ [(4289932800, [(signedBy alice, .action (.resign alice.name))])]

/-- The call finds a locked date and changes it, without starting the election. -/
def breaksLock (e : Record) : Bool :=
  isLocked e.before && uninterrupted e.input.2 && !startsElection e && changesDate e

end Eden.ElectionSchedule
