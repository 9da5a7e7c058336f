import Eden.CallScopes
import Eden.ElectionSchedule

/-!
The dates of elections within the week, and the states between elections: when the next election
can be joined, and how long the contract waits for a date.
-/

namespace Eden.ElectionDates

open Eden.ExceptReasoning
open Eden.SortedTable
open Eden.TransactionRuns
open Eden.ChainPrimitives
open Eden.ContractState
open Eden.Runtime
open Eden.MemberTable
open Eden.ElectionPhases
open Eden.InductionTables
open Eden.ContractActions
open Eden.Transactions
open Eden.HostFunctions
open Eden.ContractSteps
open Eden.ActionSteps
open Eden.CallScopes
open Eden.ElectionSchedule

variable {p : Platform}

/-! ### The week -/

def week : Nat := 7 * 86400

/-- Seconds since Sunday 00:00 UTC; time began on a Thursday. -/
def timeOfWeek (sec : Nat) : Nat := (sec + 4 * 86400) % week

/-- The time of the week that a date setting names, with the day in 8 bits. -/
def targetOfWeek (electionStartTime : Nat) : Nat :=
  electionStartTime / 86400 % 2 ^ 8 % 7 * 86400 + electionStartTime % 86400

theorem targetOfWeek_of_lt {start : Nat} (h : start < week) : targetOfWeek start = start := by
  unfold week at h
  unfold targetOfWeek
  omega

theorem targetOfWeek_lt (start : Nat) : targetOfWeek start < week := by
  unfold targetOfWeek week
  omega

theorem timeOfWeek_lt (sec : Nat) : timeOfWeek sec < week := Nat.mod_lt _ (by decide)

theorem timeOfWeek_eq (sec : Nat) :
    timeOfWeek sec = (sec / 86400 + 4) % 7 * 86400 + sec % 86400 := by
  unfold timeOfWeek week
  omega

theorem timeOfWeek_add (base wait : Nat) :
    timeOfWeek (base + wait) = (timeOfWeek base + wait) % week := by
  unfold timeOfWeek week
  omega

/-- How long it takes from a time to the next one that a date setting names. -/
def waitFor (start base : Nat) : Nat :=
  if timeOfWeek base ≤ targetOfWeek start then targetOfWeek start - timeOfWeek base
  else targetOfWeek start + week - timeOfWeek base

theorem waitFor_lt (start base : Nat) : waitFor start base < week := by
  have hbase := timeOfWeek_lt base
  have hstart := targetOfWeek_lt start
  unfold waitFor
  split
  · omega
  · omega

theorem timeOfWeek_add_waitFor (start base : Nat) :
    timeOfWeek (base + waitFor start base) = targetOfWeek start := by
  have hbase := timeOfWeek_lt base
  have hstart := targetOfWeek_lt start
  rw [timeOfWeek_add, waitFor]
  split
  · rw [Nat.add_sub_cancel' ‹_›, Nat.mod_eq_of_lt hstart]
  · rw [Nat.add_sub_cancel' (by omega), Nat.add_mod_right, Nat.mod_eq_of_lt hstart]

/-- A time of the week comes once in a week. -/
theorem eq_of_timeOfWeek_eq {base t t' : Nat} (ht : base ≤ t) (hlt : t < base + week)
    (ht' : base ≤ t') (hlt' : t' < base + week) (h : timeOfWeek t = timeOfWeek t') : t = t' := by
  unfold timeOfWeek week at *
  omega

theorem waitFor_le {start base t : Nat} (ht : base ≤ t) (h : timeOfWeek t = targetOfWeek start) :
    base + waitFor start base ≤ t := by
  by_contra hlt
  have hwait := waitFor_lt start base
  have heq : base + waitFor start base = t := eq_of_timeOfWeek_eq (Nat.le_add_right _ _)
    (by omega) ht (by omega) ((timeOfWeek_add_waitFor start base).trans h.symm)
  omega

/-- The difference of days wraps, and the difference of the times of day is corrected once. -/
theorem advance_eq {startDay targetDay now target : Nat} (hstart : startDay < 7)
    (htarget : targetDay < 7) (hnow : now < 86400) (htime : target < 86400) :
    (let advance : Int := ((targetDay + 7 - startDay) % 7 : Nat) * 86400 + ((target : Int) - now)
     if advance < 0 then advance + 7 * 86400 else advance) =
      (if startDay * 86400 + now ≤ targetDay * 86400 + target then
        targetDay * 86400 + target - (startDay * 86400 + now)
      else targetDay * 86400 + target + week - (startDay * 86400 + now) : Nat) := by
  have hdays : (targetDay + 7 - startDay) % 7 =
      if startDay ≤ targetDay then targetDay - startDay else targetDay + 7 - startDay := by
    split
    · omega
    · omega
  unfold week
  rw [hdays]
  dsimp only
  split_ifs <;> omega

theorem getElectionTime_eq (start base : Nat) :
    getElectionTime start base = (base + waitFor start base) % 2 ^ 32 := by
  have hadvance := advance_eq (Nat.mod_lt (base / 86400 + 4) (by decide : 0 < 7))
    (Nat.mod_lt (start / 86400 % 2 ^ 8) (by decide : 0 < 7))
    (Nat.mod_lt base (by decide : 0 < 86400)) (Nat.mod_lt start (by decide : 0 < 86400))
  simp only at hadvance
  unfold getElectionTime waitFor
  dsimp only
  rw [hadvance, timeOfWeek_eq, targetOfWeek]
  omega

/-- The date is the first time not before the base that is at the start time of the week. -/
theorem getElectionTime_earliest {start base : Nat} (hstart : start < week)
    (hfits : ∃ t < 2 ^ 32, base ≤ t ∧ timeOfWeek t = start) :
    IsLeast {t | base ≤ t ∧ timeOfWeek t = start} (getElectionTime start base) ∧
      getElectionTime start base < base + week := by
  have htarget := targetOfWeek_of_lt hstart
  obtain ⟨t, ht, hbase, htime⟩ := hfits
  have hle : base + waitFor start base ≤ t := waitFor_le hbase (htime.trans htarget.symm)
  have heq : getElectionTime start base = base + waitFor start base := by
    rw [getElectionTime_eq, Nat.mod_eq_of_lt (hle.trans_lt ht)]
  rw [heq]
  refine ⟨⟨⟨Nat.le_add_right _ _, ?_⟩, ?_⟩, ?_⟩
  · rw [timeOfWeek_add_waitFor, htarget]
  · rintro t' ⟨hbase', htime'⟩
    exact waitFor_le hbase' (htime'.trans htarget.symm)
  · exact Nat.add_lt_add_left (waitFor_lt start base) base

/-- From Wednesday noon on, the next Wednesday 11:00 comes six days and 23 hours later. -/
theorem getElectionTime_earliest_wednesday :
    (3 * 24 + 11) * 3600 < week ∧
      (∃ t < 2 ^ 32, 1446033600 ≤ t ∧ timeOfWeek t = (3 * 24 + 11) * 3600) ∧
      IsLeast {t | 1446033600 ≤ t ∧ timeOfWeek t = (3 * 24 + 11) * 3600}
        (getElectionTime ((3 * 24 + 11) * 3600) 1446033600) ∧
      getElectionTime ((3 * 24 + 11) * 3600) 1446033600 < 1446033600 + week := by
  have hfits : ∃ t < 2 ^ 32, 1446033600 ≤ t ∧ timeOfWeek t = (3 * 24 + 11) * 3600 :=
    ⟨1446634800, by decide, by decide, by decide⟩
  exact ⟨by decide, hfits, getElectionTime_earliest (by decide) hfits⟩

/-! ### The next election -/

/-- Members can still join the election that is scheduled, resign and change their account. -/
structure Joinable (s : State) : Prop where
  later : ∃ startTime threshold version,
    s.elections.current = some (.registration startTime threshold version) ∧
      toTimePoint s.now + seconds electionSeedingWindow < toTimePoint startTime
  joins : ∀ account row, s.members.table.find? account = some row → row.status = .activeMember →
    row.electionParticipationStatus ≠ electionScheduleVersion s.elections.current →
    ∃ m, electionOpt s.members s.now (getNextElectionTime s.elections.current)
      (electionScheduleVersion s.elections.current) account true = .ok m
  leaves : isElectionRunning s = false

theorem joinable_iff (s : State) : Joinable s ↔ ∃ startTime threshold version,
    s.elections.current = some (.registration startTime threshold version) ∧
      toTimePoint s.now + seconds electionSeedingWindow < toTimePoint startTime := by
  constructor
  · exact fun h => h.later
  · rintro ⟨startTime, threshold, version, hcurrent, hlater⟩
    refine ⟨⟨startTime, threshold, version, hcurrent, hlater⟩, ?_, ?_⟩
    · intro account row hrow hactive hout
      rw [hcurrent] at hout ⊢
      simp only [electionOpt, getMember, bind_eq_ok, getRow_eq_ok, check_eq_ok, exists_const,
        pure_eq_ok]
      refine ⟨_, row, hrow, decide_eq_true hactive, ?_, ?_, rfl, rfl⟩
      · rw [getNextElectionTime, Option.any_some, decide_eq_true_eq]
        exact hlater
      · simpa using hout
    · have hlt : s.now < startTime := by
        rw [← toTimePoint_lt]
        unfold seconds electionSeedingWindow at hlater
        omega
      simp [isElectionRunning, hcurrent, hlt]

/-- Three days after a block time, in seconds. -/
def threeDaysAfter (slot : Nat) : Nat :=
  secOfTimePoint (timePointOfSec (secOfTimePoint (toTimePoint slot)) + days 3)

theorem defaultStart_eq {g : Globals} {slot t : Nat} (ht : threeDaysAfter slot ≤ t)
    (hlt : t < threeDaysAfter slot + week)
    (htime : timeOfWeek t = targetOfWeek g.electionStartTime) :
    defaultStart g (secOfTimePoint (toTimePoint slot)) = ofSec (t % 2 ^ 32) := by
  have hwait := waitFor_lt g.electionStartTime (threeDaysAfter slot)
  have heq : threeDaysAfter slot + waitFor g.electionStartTime (threeDaysAfter slot) = t :=
    eq_of_timeOfWeek_eq (Nat.le_add_right _ _) (Nat.add_lt_add_left hwait _) ht hlt
      ((timeOfWeek_add_waitFor _ _).trans htime.symm)
  rw [defaultStart, ← threeDaysAfter, getElectionTime_eq, heq]

/-- The next election can be joined when the last one is processed a day before the next date,
which is counted from the start of the last one and not from the present. -/
theorem finishElection_joinable {s s' : State} {board : List Name} {winner : Name}
    {results : ElectionResults} {g : Globals} (hresults : s.elections.results = some results)
    (hg : s.globals = some g) (h : finishElection p s board winner = .ok s') :
    Joinable s' ↔ ∀ t, threeDaysAfter results.lastElectionTime ≤ t →
      t < threeDaysAfter results.lastElectionTime + week →
      timeOfWeek t = targetOfWeek g.electionStartTime →
      toTimePoint s.now + seconds electionSeedingWindow < toTimePoint (ofSec (t % 2 ^ 32)) := by
  obtain ⟨results', members, f, g', threshold, o, hresults', -, -, hg', -, rfl⟩ :=
    finishElection_eq_ok h
  rw [hresults, Option.some.injEq] at hresults'
  rw [hg, Option.some.injEq] at hg'
  subst hresults' hg'
  have hnow : (concluded s f o members { results with leadRepresentative := winner, board := board }
      (.registration (defaultStart g (secOfTimePoint (toTimePoint results.lastElectionTime)))
        threshold 1)).now = s.now := rfl
  rw [joinable_iff, hnow]
  constructor
  · rintro ⟨startTime, threshold', version, hcurrent, hlater⟩ t ht hlt htime
    cases hcurrent
    rwa [← defaultStart_eq ht hlt htime]
  · intro hlater
    have hwait := waitFor_lt g.electionStartTime (threeDaysAfter results.lastElectionTime)
    have htime := timeOfWeek_add_waitFor g.electionStartTime
      (threeDaysAfter results.lastElectionTime)
    have hlt := Nat.add_lt_add_left hwait (threeDaysAfter results.lastElectionTime)
    refine ⟨_, threshold, 1, rfl, ?_⟩
    rw [defaultStart_eq (Nat.le_add_right _ _) hlt htime]
    exact hlater _ (Nat.le_add_right _ _) hlt htime

/-- The first election after its seeding, with the results of an election before it. -/
def dueElection : Option State :=
  (runFromGenesis host (fun _ _ => True) (firstElection.dropLast ++ [(1987200, [])])).map fun s =>
    { s with elections := { s.elections with results := some { lastElectionTime := 1987200 } } }

def finishes (s : State) : Bool :=
  s.globals.isSome && s.elections.results.isSome &&
    (finishElection host s [alice.name, bob.name] alice.name).toOption.isSome

theorem dueElection_joinable : ∃ s s' results g, dueElection = some s ∧
    s.elections.results = some results ∧ s.globals = some g ∧
    finishElection host s [alice.name, bob.name] alice.name = .ok s' ∧
    (Joinable s' ↔ ∀ t, threeDaysAfter results.lastElectionTime ≤ t →
      t < threeDaysAfter results.lastElectionTime + week →
      timeOfWeek t = targetOfWeek g.electionStartTime →
      toTimePoint s.now + seconds electionSeedingWindow < toTimePoint (ofSec (t % 2 ^ 32))) := by
  have hrun : dueElection.any finishes = true := by decide +kernel
  obtain ⟨s, hs, hfinishes⟩ := (Option.any_eq_true _ _).mp hrun
  simp only [finishes, Bool.and_eq_true, Option.isSome_iff_exists] at hfinishes
  obtain ⟨⟨⟨g, hg⟩, results, hresults⟩, s', hs'⟩ := hfinishes
  have hok := ok_of_toOption hs'
  exact ⟨s, s', results, g, hs, hresults, hg, hok, finishElection_joinable hresults hg hok⟩

/-- Nobody processes the first election for eight days. -/
def lateElection : List Transaction := firstElection.dropLast ++ [(1987200 + 8 * 2 * 86400, [])]

/-- The call finishes a seeded election, and schedules one that is in the past. -/
def missesElection (s : State) : Bool :=
  match s.elections.current, (exec host (signedBy alice) s (.action (.electprocess 100))).toOption with
  | some (.seeding _ _), some s' =>
      match s'.elections.current with
      | some (.registration startTime _ _) => startTime < s'.now
      | _ => false
  | _, _ => false

theorem lateElection_not_joinable : ∃ s s' seeder version startTime threshold version',
    Reachable host (fun _ _ => True) s ∧ s.elections.current = some (.seeding seeder version) ∧
      exec host (signedBy alice) s (.action (.electprocess 100)) = .ok s' ∧
      s'.elections.current = some (.registration startTime threshold version') ∧
      startTime < s'.now ∧ ¬ Joinable s' := by
  have hrun : (runFromGenesis host (fun _ _ => True) lateElection).any missesElection = true := by
    decide +kernel
  obtain ⟨s, hs, hmisses⟩ := (Option.any_eq_true _ _).mp hrun
  unfold missesElection at hmisses
  split at hmisses
  · rename_i seeder version s' hcurrent hs'
    split at hmisses
    · rename_i startTime threshold version' hnext
      rw [decide_eq_true_eq] at hmisses
      refine ⟨s, s', seeder, version, startTime, threshold, version', reachable_of_run hs,
        hcurrent, ok_of_toOption hs', hnext, hmisses, fun hjoinable => ?_⟩
      have hfree := hjoinable.leaves
      rw [isElectionRunning, hnext, decide_eq_false_iff_not] at hfree
      exact hfree hmisses.le
    · cases hmisses
  · cases hmisses

/-! ### Waiting for a date -/

/-- The date has never been set. -/
def DateUnset (s : State) : Prop :=
  ∃ g, s.globals = some g ∧ g.electionStartTime = unsetStartTime

/-- The contract waits for a date only while none is set. -/
def WaitsForDate (s : State) : Prop := s.elections.current = some .pendingDate → DateUnset s

/-- A contract whose genesis was run before there was a date setting. -/
structure Predates (s : State) : Prop where
  unset : DateUnset s
  unscheduled : s.elections.current = none
  sent : s.output.serializedEvents = []

/-- A contract before genesis, or one whose genesis predates the date setting. -/
def Origin (s : State) : Prop := Untouched s ∨ Predates s

theorem step_pending {call : Call} {s s' : State} (h : Step p call s s') :
    (DateUnset s' → DateUnset s) ∧ (s'.elections.current = some .pendingDate →
      s.elections.current = some .pendingDate ∨ DateUnset s') := by
  cases h with
  | aside haside =>
      refine ⟨?_, fun hpending => .inl (haside.current ▸ hpending)⟩
      rintro ⟨g', hg', hunset⟩
      exact haside.start g' hg' hunset
  | @establishes _ _ g stage _ hg =>
      refine ⟨?_, .inl⟩
      rintro ⟨g', hg', hunset⟩
      cases hg'
      exact ⟨g, hg, hunset⟩
  | unschedules _ _ hg hunset => exact ⟨id, fun _ => .inr ⟨_, hg, hunset⟩⟩
  | seeds hseed =>
      obtain ⟨-, -, -, -, -, -, -, -, -, rfl⟩ | ⟨-, -, -, -, -, -, -, rfl⟩ | ⟨-, -, -, -, -, -, rfl⟩ :=
        seed_eq_ok hseed
      all_goals exact ⟨id, fun hpending => by cases hpending⟩
  | starts _ hstart _ =>
      obtain ⟨-, -, -, -, -, -, -, rfl⟩ := startElection_eq_ok hstart
      exact ⟨id, fun hpending => by cases hpending⟩
  | votes hvote =>
      obtain ⟨-, -, -, -, -, -, -, -, -, -, -, rfl⟩ := vote_eq_ok hvote
      exact ⟨id, .inl⟩
  | founds _ _ _ hset =>
      refine ⟨?_, .inl⟩
      rintro ⟨g', hg', hunset⟩
      cases hg'
      exact absurd hunset hset
  | clears hclear =>
      simp only [clearall, bind_eq_ok, pure_eq_ok] at hclear
      obtain ⟨-, -, -, -, rfl⟩ := hclear
      refine ⟨?_, fun hpending => by cases hpending⟩
      rintro ⟨g', hg', -⟩
      cases hg'
  | advances _ _ _ _ _ hnext =>
      refine ⟨id, ?_⟩
      rintro hpending
      obtain ⟨-, seed, roundEnd, rfl⟩ | ⟨-, seeder, rfl⟩ := hnext
      · cases hpending
      · cases hpending
  | schedules | aborts | visits | reports | opens | closes | groups | rereports | concludes =>
      exact ⟨id, fun hpending => by cases hpending⟩
  | _ => exact ⟨id, .inl⟩

theorem steps_pending {call : Call} {s s' : State} (h : Steps p call s s') :
    (DateUnset s' → DateUnset s) ∧ (s'.elections.current = some .pendingDate →
      s.elections.current = some .pendingDate ∨ DateUnset s) := by
  refine steps_preserve (fun t => (DateUnset t → DateUnset s) ∧
    (t.elections.current = some .pendingDate → s.elections.current = some .pendingDate ∨
      DateUnset s)) ?_ h ⟨id, .inl⟩
  rintro t t' hstep ⟨hunset, hpending⟩
  have hnext := step_pending hstep
  refine ⟨fun h => hunset (hnext.1 h), fun h => ?_⟩
  rcases hnext.2 h with h | h
  · exact hpending h
  · exact .inr (hunset (hnext.1 h))

theorem dateUnset_iff (s : State) :
    DateUnset s ↔ s.globals.map Globals.electionStartTime = some unsetStartTime := by
  rw [Option.map_eq_some_iff, DateUnset]

/-- `electconfig` is called while the contract waits for a date. -/
def configuresPending (e : Record) : Bool :=
  match e.input.2 with
  | .action (.electconfig ..) => e.before.elections.current = some .pendingDate
  | _ => false

/-- Setting the date does not end the wait for it: only a registration gets a new date. -/
theorem electconfig_pending {env : Env} {s s' : State} {electionDay roundDuration : Nat}
    {electionTime : Text} (hpending : s.elections.current = some .pendingDate)
    (h : exec p env s (.action (.electconfig electionDay electionTime roundDuration)) = .ok s') :
    s'.elections.current = some .pendingDate := by
  simp only [exec, applyAction, dispatch, electconfig, bind_eq_ok, pure_eq_ok] at h
  obtain ⟨-, ⟨-, -, t, htime, g, -, rfl⟩, rfl⟩ := h
  obtain ⟨g₀, startTime, -, hlt, ⟨hnone, -⟩ | ⟨-, htrigger⟩ | ⟨-, hother, -⟩⟩ := setTime_eq_ok htime
  · exact absurd (hnone.symm.trans hpending) (by simp)
  · obtain ⟨g', hg', ⟨hunset, -⟩ | ⟨-, rfl⟩ | ⟨-, _, _, _, _, hregistered, -⟩⟩ :=
      triggerElection_eq_ok htrigger
    · cases hg'
      simp only [unsetStartTime] at hunset
      omega
    · exact hpending
    · exact absurd (hregistered.symm.trans hpending) (by simp)
  · exact absurd hpending hother

theorem electconfig_not_pending {env : Env} {s s' : State} {electionDay roundDuration : Nat}
    {electionTime : Text} (hpending : s.elections.current ≠ some .pendingDate)
    (h : exec p env s (.action (.electconfig electionDay electionTime roundDuration)) = .ok s') :
    s'.elections.current ≠ some .pendingDate := by
  simp only [exec, applyAction, dispatch, electconfig, bind_eq_ok, pure_eq_ok] at h
  obtain ⟨-, ⟨-, -, t, htime, g, -, rfl⟩, rfl⟩ := h
  obtain ⟨g₀, startTime, -, -, ⟨-, hdefault⟩ | ⟨hwaits, -⟩ | ⟨-, -, rfl⟩⟩ := setTime_eq_ok htime
  · obtain ⟨-, threshold, o, -, -, rfl⟩ := setDefaultElection_eq_ok hdefault
    simp [withCurrent]
  · exact absurd hwaits hpending
  · exact hpending

theorem exec_waitsForDate {env : Env} {s s' : State} {call : Call}
    (hclean : s.output.serializedEvents = []) (hs : WaitsForDate s)
    (h : exec p env s call = .ok s') (hcall : configuresPending ⟨s, (env, call), s'⟩ = false) :
    WaitsForDate s' := by
  intro hpending
  obtain ⟨hunset, hwaits⟩ := steps_pending (exec_steps hclean h).1
  have hbefore : DateUnset s := (hwaits hpending).elim hs id
  have hkeeps : (scopeOf s.members.table call).start = false → DateUnset s' := fun hscope => by
    rw [dateUnset_iff] at hbefore ⊢
    exact ((exec_within h).start hscope).trans hbefore
  cases call with
  | action a =>
      cases a with
      | electconfig =>
          have hnot : s.elections.current ≠ some .pendingDate := by
            simpa [configuresPending] using hcall
          exact absurd hpending (electconfig_not_pending hnot h)
      | genesis =>
          simp only [exec, applyAction, dispatch, genesis, bind_eq_ok, check_eq_ok,
            exists_const] at h
          obtain ⟨-, ⟨-, -, -, -, hnone, -⟩, -⟩ := h
          obtain ⟨g, hg, -⟩ := hbefore
          have hsome : s.globals.isNone = true := hnone
          simp [hg] at hsome
      | clearall =>
          simp only [exec, applyAction, dispatch, clearall, bind_eq_ok, pure_eq_ok] at h
          obtain ⟨-, ⟨-, -, -, -, rfl⟩, rfl⟩ := h
          cases hpending
      | _ => exact hkeeps rfl
  | _ => exact hkeeps rfl

/-- The next election is at least 30 days ahead. -/
def IsMonthAhead (s : State) : Prop := ∃ startTime threshold version,
  s.elections.current = some (.registration startTime threshold version) ∧
    inThirtyDays s.now ≤ toTimePoint startTime

/-- A contract that waits for a date only until it is set. -/
structure DateAwaited (es : List Record) (s : State) : Prop where
  now : WaitsForDate s
  before : ∀ e ∈ es, WaitsForDate e.before
  ends : ∀ e ∈ es, configuresPending e = true → IsMonthAhead e.after

theorem dateAwaited_iff {allowed : State → Env × Call → Prop} {es : List Record} {s : State}
    (h : (contract p).History Origin allowed es s) :
    DateAwaited es s ↔ ∀ e ∈ es, configuresPending e = false := by
  have hrun : s.output.serializedEvents = [] ∧
      (∀ e ∈ es, configuresPending e = true → e.after.elections.current = some .pendingDate) ∧
      ((∀ e ∈ es, configuresPending e = false) → WaitsForDate s ∧
        ∀ e ∈ es, WaitsForDate e.before) := by
    refine h.invariant (fun (es : List Record) (s : State) => s.output.serializedEvents = [] ∧
      (∀ e ∈ es, configuresPending e = true → e.after.elections.current = some .pendingDate) ∧
      ((∀ e ∈ es, configuresPending e = false) → WaitsForDate s ∧
        ∀ e ∈ es, WaitsForDate e.before)) ?_ (fun _ _ _ _ ht => ht) ?_
    · rintro t (⟨htables, -⟩ | ⟨-, hnone, hsent⟩)
      · rw [htables]
        refine ⟨rfl, by simp, fun _ => ⟨fun hpending => ?_, by simp⟩⟩
        cases hpending
      · refine ⟨hsent, by simp, fun _ => ⟨fun hpending => ?_, by simp⟩⟩
        exact absurd (hnone.symm.trans hpending) (by simp)
    · rintro es t ⟨env, call⟩ t' - hstep ⟨hclean, hstays, hwaits⟩
      have hexec : exec p env t call = .ok t' := hstep
      refine ⟨(exec_steps hclean hexec).2, ?_, ?_⟩
      · rw [List.forall_mem_append, List.forall_mem_singleton]
        refine ⟨hstays, fun hcall => ?_⟩
        unfold configuresPending at hcall
        split at hcall
        · rename_i hconfig
          subst hconfig
          exact electconfig_pending (by simpa using hcall) hexec
        · cases hcall
      · rw [List.forall_mem_append, List.forall_mem_singleton]
        rintro ⟨hes, hcall⟩
        obtain ⟨hnow, hbefore⟩ := hwaits hes
        refine ⟨exec_waitsForDate hclean hnow hexec hcall, ?_⟩
        rw [List.forall_mem_append, List.forall_mem_singleton]
        exact ⟨hbefore, hnow⟩
  obtain ⟨-, hstays, hwaits⟩ := hrun
  constructor
  · intro hawaited e he
    by_contra hconfig
    rw [Bool.not_eq_false] at hconfig
    obtain ⟨startTime, threshold, version, hcurrent, -⟩ := hawaited.ends e he hconfig
    exact absurd ((hstays e he hconfig).symm.trans hcurrent) (by simp)
  · intro hes
    obtain ⟨hnow, hbefore⟩ := hwaits hes
    exact ⟨hnow, hbefore, fun e he hconfig => absurd (hes e he) (by simp [hconfig])⟩

/-- After genesis the date is set. -/
theorem firstElection_awaited : ∃ es s,
    traceAll host (fun _ _ => True) [] {} firstElection = some (es, s) ∧ DateAwaited es s := by
  have hrun : (traceAll host (fun _ _ => True) [] {} firstElection).any (fun result =>
      result.1.all fun e => configuresPending e = false) = true := by decide +kernel
  obtain ⟨⟨es, s⟩, htrace, hes⟩ := (Option.any_eq_true _ _).mp hrun
  have horigin : Origin {} := .inl ⟨rfl, by simp⟩
  have hhistory := history_of_traceAll htrace (.first horigin)
  refine ⟨es, s, htrace, (dateAwaited_iff hhistory).mpr fun e he => ?_⟩
  simpa using List.all_eq_true.mp hes e he

/-- The tables of a contract whose genesis predates the date setting. -/
def beforeDates (s : State) : State :=
  { s with
    globals := s.globals.map fun g => { g with electionStartTime := unsetStartTime }
    elections := {} }

/-- After a first election by hand the lead representative resigns, and then the date is set. -/
def legacyElection : List Transaction :=
  [(1000045, [(signedBy contractSigner, .action (.electsettime 947678400))])] ++
    firstElection.drop foundation.length ++
    [(1987210, [(signedBy alice, .action (.resign alice.name))]),
      (1987220, [(signedBy contractSigner,
        .action (.electconfig 3 ['1', '2', ':', '0', '0'] 3600))])]

/-- The contract waits for a date that is set. -/
def waitsInVain (s : State) : Bool :=
  s.elections.current = some .pendingDate &&
    s.globals.all fun g => g.electionStartTime ≠ unsetStartTime

theorem legacyElection_not_awaited : ∃ s₀ es s, Predates (beforeDates s₀) ∧
    Reachable host (fun _ _ => True) s₀ ∧
    traceAll host (fun _ _ => True) [] (beforeDates s₀) legacyElection = some (es, s) ∧
    (contract host).History Origin (fun _ _ => True) es s ∧ ¬ DateAwaited es s := by
  have hrun : (runFromGenesis host (fun _ _ => True) foundation).any (fun s₀ =>
      (s₀.globals.isSome && s₀.output.serializedEvents = []) &&
        (traceAll host (fun _ _ => True) [] (beforeDates s₀) legacyElection).any fun result =>
          waitsInVain result.2) = true := by decide +kernel
  obtain ⟨s₀, hs₀, hlegacy⟩ := (Option.any_eq_true _ _).mp hrun
  simp only [Bool.and_eq_true, Option.isSome_iff_exists, decide_eq_true_eq] at hlegacy
  obtain ⟨⟨⟨g, hg⟩, hsent⟩, htrace⟩ := hlegacy
  obtain ⟨⟨es, s⟩, htrace, hwaits⟩ := (Option.any_eq_true _ _).mp htrace
  have hpredates : Predates (beforeDates s₀) :=
    ⟨⟨{ g with electionStartTime := unsetStartTime }, by simp [beforeDates, hg], rfl⟩, rfl, hsent⟩
  refine ⟨s₀, es, s, hpredates, reachable_of_run hs₀, htrace,
    history_of_traceAll htrace (.first (.inr hpredates)), fun hawaited => ?_⟩
  simp only [waitsInVain, Bool.and_eq_true, decide_eq_true_eq] at hwaits
  obtain ⟨hpending, hset⟩ := hwaits
  obtain ⟨g', hg', hunset⟩ := hawaited.now hpending
  simp [hg', hunset] at hset

end Eden.ElectionDates
