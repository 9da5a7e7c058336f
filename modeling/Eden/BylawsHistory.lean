import Eden.BoardMembership
import Eden.BylawsQuorum

/-!
Where bylaws come from, told from the calls that a history consists of: who proposed a text and in
whose term, and who approved it before it moved on.
-/

namespace Eden.BylawsHistory

open Eden.ExceptReasoning
open Eden.SortedTable
open Eden.TransactionRuns
open Eden.ChainPrimitives
open Eden.ElectionPlan
open Eden.ContractState
open Eden.Runtime
open Eden.MemberTable
open Eden.BylawsRules
open Eden.ElectionRounds
open Eden.ElectionPhases
open Eden.ContractActions
open Eden.Transactions
open Eden.HostFunctions
open Eden.ContractSteps
open Eden.ActionSteps
open Eden.Electorate
open Eden.BoardMembership
open Eden.BylawsQuorum

variable {p : Platform} {call : Call} {env : Env}

/-! ### What calls do to bylaws and results -/

inductive Phase
  | waiting
  | seeding
  | voting
  deriving DecidableEq

/-- The phase of an election: voting lasts from `start_election` to `finish_election`. -/
def phase : Option ElectionState → Phase
  | none => .waiting
  | some .pendingDate => .waiting
  | some (.registration ..) => .waiting
  | some (.seeding ..) => .seeding
  | _ => .voting

theorem phase_eq_voting {state : Option ElectionState} :
    phase state = .voting ↔ isIdle state = false := by
  cases state with
  | none => simp [phase, isIdle]
  | some state => cases state <;> simp [phase, isIdle]

theorem phase_of_not_running {s : State} (h : isElectionRunning s = false) :
    phase s.elections.current ≠ .voting := by
  rw [Ne, phase_eq_voting, isIdle_of_not_running h]
  simp

/-- Calls that may change bylaws or the results of elections. -/
def touchesBylaws : Call → Bool
  | .action (.bylawspropose ..) => true
  | .action (.bylawsapprove ..) => true
  | .action (.bylawsratify ..) => true
  | .action (.resign ..) => true
  | .action (.rename ..) => true
  | .action (.electprocess ..) => true
  | .action .clearall => true
  | _ => false

/-- Bylaws and results are the same, and no election has started. -/
structure Unmoved (s s' : State) : Prop where
  bylaws : s'.bylaws = s.bylaws
  results : s'.elections.results = s.elections.results
  voting : phase s'.elections.current = .voting → phase s.elections.current = .voting

theorem step_unmoved {s s' : State} (h : Step p call s s') (hcall : touchesBylaws call = false) :
    Unmoved s s' := by
  cases h with
  | aside haside => exact ⟨haside.bylaws, haside.results, by rw [haside.current]; exact id⟩
  | schedules => exact ⟨rfl, rfl, by simp [withCurrent, phase]⟩
  | unschedules => exact ⟨rfl, rfl, by simp [withCurrent, phase]⟩
  | aborts => exact ⟨rfl, rfl, by simp [withCurrent, phase]⟩
  | seeds hseed =>
      rcases seed_eq_ok hseed with ⟨_, _, _, _, _, _, _, _, _, rfl⟩ | ⟨_, _, _, _, _, _, _, rfl⟩ |
        ⟨_, _, _, hcurrent, _, _, rfl⟩
      · exact ⟨rfl, rfl, by simp [withCurrent, phase]⟩
      · exact ⟨rfl, rfl, by simp [withCurrent, phase]⟩
      · exact ⟨rfl, rfl, fun _ => by rw [hcurrent]; rfl⟩
  | votes hvote =>
      obtain ⟨_, _, _, _, _, _, _, _, _, _, _, rfl⟩ := vote_eq_ok hvote
      exact ⟨rfl, rfl, id⟩
  | enters | activates | drops | opts | inducts | establishes | distributes | withdraws | sends |
      deposits | receives | donates | fundtransfers | usertransfers | unsettled | migrates | founds |
      «extends» | empties => exact ⟨rfl, rfl, id⟩
  | _ => exact absurd hcall (by simp [touchesBylaws])

theorem steps_unmoved {s s' : State} (h : Steps p call s s') (hcall : touchesBylaws call = false) :
    Unmoved s s' := by
  refine steps_preserve (Unmoved s) ?_ h ⟨rfl, rfl, id⟩
  intro t t' hstep ht
  have hlast := step_unmoved hstep hcall
  exact ⟨hlast.bylaws.trans ht.bylaws, hlast.results.trans ht.results,
    fun hvoting => ht.voting (hlast.voting hvoting)⟩

/-- What `electprocess` does to bylaws and results: nothing, or it starts an election, or finishes
it, or both. -/
inductive Processed (s₀ : State) : State → Prop
  | stays {s : State} : s.bylaws = s₀.bylaws → s.elections.results = s₀.elections.results →
      phase s.elections.current = phase s₀.elections.current →
      (phase s.elections.current = .seeding → s.elections.current = s₀.elections.current) →
      Processed s₀ s
  | begins {s : State} {seeder : ElectionSeeder} {version : Nat} :
      s₀.elections.current = some (.seeding seeder version) → s.bylaws = newBoard s₀.bylaws →
      s.elections.results =
        some { s₀.elections.results.getD {} with lastElectionTime := seeder.endTime } →
      phase s.elections.current = .voting → Processed s₀ s
  | ends {s : State} {r : ElectionResults} {winner : Name} {board : List Name} :
      phase s₀.elections.current = .voting → s₀.elections.results = some r →
      s.bylaws = s₀.bylaws →
      s.elections.results = some { r with leadRepresentative := winner, board := board } →
      phase s.elections.current = .waiting → Processed s₀ s
  | completes {s : State} {seeder : ElectionSeeder} {version : Nat} {winner : Name}
      {board : List Name} :
      s₀.elections.current = some (.seeding seeder version) → s.bylaws = newBoard s₀.bylaws →
      s.elections.results = some ⟨winner, board, seeder.endTime⟩ →
      phase s.elections.current = .waiting → Processed s₀ s

theorem step_processed {n : Nat} {s s' : State} (h : Step p (.action (.electprocess n)) s s') :
    Processed s s' := by
  have hvotes : ∀ {state state' : ElectionState} {s' : State}, s.elections.current = some state →
      phase (some state) = .voting → s'.elections.current = some state' →
      phase (some state') = .voting → s'.bylaws = s.bylaws →
      s'.elections.results = s.elections.results → Processed s s' := by
    intro state state' s' hs hstate hs' hstate' hbylaws hresults
    refine .stays hbylaws hresults ?_ ?_
    · rw [hs, hs', hstate, hstate']
    · rw [hs', hstate']
      exact fun hseeding => absurd hseeding (by simp)
  cases h with
  | aside haside =>
      exact .stays haside.bylaws haside.results (by rw [haside.current]) fun _ => haside.current
  | starts hcurrent hstart _ =>
      obtain ⟨_, _, _, _, _, _, _, rfl⟩ := startElection_eq_ok hstart
      exact .begins hcurrent rfl rfl rfl
  | visits hcurrent _ _ => exact hvotes hcurrent rfl rfl rfl rfl rfl
  | reports hcurrent _ => exact hvotes hcurrent rfl rfl rfl rfl rfl
  | opens hcurrent _ _ _ _ _ _ => exact hvotes hcurrent rfl rfl rfl rfl rfl
  | closes hcurrent _ _ => exact hvotes hcurrent rfl rfl rfl rfl rfl
  | groups hcurrent _ => exact hvotes hcurrent rfl rfl rfl rfl rfl
  | rereports hcurrent _ => exact hvotes hcurrent rfl rfl rfl rfl rfl
  | advances hcurrent _ _ _ _ hnext _ =>
      rcases hnext with ⟨_, _, _, rfl⟩ | ⟨_, _, rfl⟩
      · exact hvotes hcurrent rfl rfl rfl rfl rfl
      · exact hvotes hcurrent rfl rfl rfl rfl rfl
  | concludes _ hresults hround _ _ _ _ _ _ =>
      refine .ends ?_ hresults rfl rfl rfl
      rcases hround with ⟨_, _, hcurrent, _⟩ | ⟨_, hcurrent⟩
      · rw [hcurrent]
        rfl
      · rw [hcurrent]
        rfl
  | distributes | unsettled | migrates => exact .stays rfl rfl rfl fun _ => rfl
  | donates hdonation =>
      rcases hdonation with ⟨heq, _⟩ | ⟨_, _, heq, _⟩
      · exact absurd heq (by simp)
      · exact absurd heq (by simp)
  | enters hcall => exact absurd hcall (by simp [handlesInductions])
  | activates hcall => exact absurd hcall (by simp [handlesInductions])
  | drops hcall => exact absurd hcall (by simp [handlesInductions])
  | inducts hcall => exact absurd hcall (by simp [handlesInductions])
  | establishes hcall => exact absurd hcall (by simp [handlesInductions])
  | schedules hcall => exact absurd hcall (by simp [reschedules])
  | unschedules hcall => exact absurd hcall (by simp [reschedules])

theorem Processed.trans {s t u : State} (h : Processed s t) (h' : Processed t u) :
    Processed s u := by
  cases h with
  | stays hbylaws hresults hphase hseeding =>
      cases h' with
      | stays hbylaws' hresults' hphase' hseeding' =>
          refine .stays (hbylaws'.trans hbylaws) (hresults'.trans hresults) (hphase'.trans hphase) ?_
          intro hu
          exact (hseeding' hu).trans (hseeding (hphase' ▸ hu))
      | begins hcurrent hbylaws' hresults' hphase' =>
          have hsame := hseeding (by rw [hcurrent]; rfl)
          rw [hbylaws] at hbylaws'
          rw [hresults] at hresults'
          exact .begins (hsame ▸ hcurrent) hbylaws' hresults' hphase'
      | ends hphase₀ hr hbylaws' hresults' hphase' =>
          exact .ends (hphase.symm.trans hphase₀) (hresults ▸ hr) (hbylaws'.trans hbylaws) hresults'
            hphase'
      | completes hcurrent hbylaws' hresults' hphase' =>
          have hsame := hseeding (by rw [hcurrent]; rfl)
          rw [hbylaws] at hbylaws'
          exact .completes (hsame ▸ hcurrent) hbylaws' hresults' hphase'
  | begins hcurrent hbylaws hresults hphase =>
      cases h' with
      | stays hbylaws' hresults' hphase' _ =>
          exact .begins hcurrent (hbylaws'.trans hbylaws) (hresults'.trans hresults)
            (hphase'.trans hphase)
      | begins hcurrent' => exact absurd hphase (by simp [hcurrent', phase])
      | ends _ hr hbylaws' hresults' hphase' =>
          rw [hresults, Option.some.injEq] at hr
          subst hr
          exact .completes hcurrent (hbylaws'.trans hbylaws) hresults' hphase'
      | completes hcurrent' => exact absurd hphase (by simp [hcurrent', phase])
  | ends hphase₀ hr hbylaws hresults hphase =>
      cases h' with
      | stays hbylaws' hresults' hphase' _ =>
          exact .ends hphase₀ hr (hbylaws'.trans hbylaws) (hresults'.trans hresults)
            (hphase'.trans hphase)
      | begins hcurrent' => exact absurd hphase (by simp [hcurrent', phase])
      | ends hphase' => exact absurd hphase (by simp [hphase'])
      | completes hcurrent' => exact absurd hphase (by simp [hcurrent', phase])
  | completes hcurrent hbylaws hresults hphase =>
      cases h' with
      | stays hbylaws' hresults' hphase' _ =>
          exact .completes hcurrent (hbylaws'.trans hbylaws) (hresults'.trans hresults)
            (hphase'.trans hphase)
      | begins hcurrent' => exact absurd hphase (by simp [hcurrent', phase])
      | ends hphase' => exact absurd hphase (by simp [hphase'])
      | completes hcurrent' => exact absurd hphase (by simp [hcurrent', phase])

theorem steps_processed {n : Nat} {s s' : State} (h : Steps p (.action (.electprocess n)) s s') :
    Processed s s' :=
  steps_preserve (Processed s) (fun _ _ hstep ht => ht.trans (step_processed hstep)) h
    (.stays rfl rfl rfl fun _ => rfl)

theorem resign_bylaws {s s' : State} {account : Name}
    (h : exec p env s (.action (.resign account)) = .ok s') :
    isElectionRunning s = false ∧ s'.bylaws = withdrawApprovals s.bylaws account ∧
      s'.elections.results = s.elections.results.map (boardWithout account) ∧
      phase s'.elections.current ≠ .voting := by
  simp only [exec, applyAction, dispatch, resign, bind_eq_ok, pure_eq_ok] at h
  obtain ⟨_, ⟨_, _, _, _, _, _, _, _, f, _, t, ht, u, hu, rfl⟩, rfl⟩ := h
  obtain ⟨_, _, _, _, _, _, _, rfl⟩ := remove_eq_ok hu
  obtain ⟨hrunning, o, _, ⟨_, rfl⟩ | ⟨_, htrigger⟩⟩ := electionsOnResign_eq_ok ht
  · exact ⟨hrunning, rfl, rfl, phase_of_not_running hrunning⟩
  · obtain ⟨_, _, ⟨_, _, _, rfl⟩ | ⟨_, rfl⟩ | ⟨_, _, _, _, _, _, _, _, _, rfl⟩⟩ :=
      triggerElection_eq_ok htrigger
    · exact ⟨hrunning, rfl, rfl, by simp [withCurrent, phase]⟩
    · exact ⟨hrunning, rfl, rfl, phase_of_not_running hrunning⟩
    · exact ⟨hrunning, rfl, rfl, by simp [withCurrent, phase]⟩

theorem rename_bylaws {s s' : State} {account newAccount : Name}
    (h : exec p env s (.action (.rename account newAccount)) = .ok s') :
    isElectionRunning s = false ∧ isActive s.members.table account = true ∧
      s.members.table.find? newAccount = none ∧
      s'.bylaws = renameApprovals s.bylaws account newAccount ∧
      s'.elections.results = s.elections.results.map (boardRenamed account newAccount) ∧
      phase s'.elections.current ≠ .voting := by
  simp only [exec, applyAction, dispatch, renameAccount, bind_eq_ok, checkActiveMember_eq_ok,
    pure_eq_ok] at h
  obtain ⟨_, ⟨_, _, _, _, _, _, _, _, _, hactive, _, _, t, ht, _, _, u, hu, _, _, rfl⟩, rfl⟩ := h
  obtain ⟨hrunning, _, _, rfl⟩ := electionsOnRename_eq_ok ht
  obtain ⟨member, table, o, sessions, _, htable, _, rfl⟩ := rename_eq_ok hu
  exact ⟨hrunning, isActive_iff.mpr hactive, Table.emplace?_new htable, rfl, rfl,
    phase_of_not_running hrunning⟩

theorem bylawspropose_bylaws {s s' : State} {proposer : Name} {text : Text}
    (h : exec p env s (.action (.bylawspropose proposer text)) = .ok s') :
    isAccountName proposer = true ∧
      (∃ r, s.elections.results = some r ∧ proposer = r.leadRepresentative) ∧
      s'.bylaws = { s.bylaws with proposed := some ⟨text, s.now, []⟩ } ∧
      s'.elections.results = s.elections.results ∧ s'.elections.current = s.elections.current := by
  simp only [exec, applyAction, dispatch, bylawspropose, bind_eq_ok, requireAuth_eq_ok,
    exists_const, pure_eq_ok] at h
  obtain ⟨_, ⟨hauth, t, ht, rfl⟩, rfl⟩ := h
  obtain ⟨hlead, rfl⟩ := setProposed_eq_ok ht
  exact ⟨env.auths_valid proposer hauth, hlead, rfl, rfl, rfl⟩

/-- `bylawsapprove` or `bylawsratify`, by the types of bylaws they move between. -/
def approval (currentState : BylawsType) (approver : Name) (bylawsHash : Checksum) : Action :=
  if currentState = .pending then .bylawsratify approver bylawsHash
  else .bylawsapprove approver bylawsHash

def nextState (currentState : BylawsType) : BylawsType :=
  if currentState = .pending then .ratified else .pending

theorem approve_bylaws (currentState : BylawsType) (hstate : currentState ≠ .ratified)
    {s s' : State} {approver : Name} {bylawsHash : Checksum}
    (h : exec p env s (.action (approval currentState approver bylawsHash)) = .ok s') :
    approve p s.bylaws s.now s.elections.results (getNextElectionTime s.elections.current)
        currentState (nextState currentState) approver bylawsHash = .ok s'.bylaws ∧
      s'.elections.results = s.elections.results ∧ s'.elections.current = s.elections.current := by
  cases currentState with
  | proposed =>
      simp only [approval, exec, applyAction, dispatch, approveBylaws, bind_eq_ok, pure_eq_ok,
        reduceCtorEq, if_false] at h
      obtain ⟨_, ⟨_, _, t, ht, rfl⟩, rfl⟩ := h
      exact ⟨ht, rfl, rfl⟩
  | pending =>
      simp only [approval, exec, applyAction, dispatch, approveBylaws, bind_eq_ok, pure_eq_ok,
        if_true] at h
      obtain ⟨_, ⟨_, _, t, ht, rfl⟩, rfl⟩ := h
      exact ⟨ht, rfl, rfl⟩
  | ratified => exact absurd rfl hstate

/-! ### Proposals -/

structure Proposal where
  proposer : Name
  text : Text
  time : Nat
  deriving DecidableEq

/-- The last finished election and the last proposal since then. -/
structure Term where
  lead : Option Name := none
  proposal : Option Proposal := none
  deriving DecidableEq

def renamed (account newAccount a : Name) : Name := if a = account then newAccount else a

/-- A call of `electprocess` that finishes an election. -/
def finishesElection (e : Record) : Bool :=
  phase e.before.elections.current ≠ .waiting && phase e.after.elections.current = .waiting

def Term.next (t : Term) (e : Record) : Term :=
  match e.input.2 with
  | .action (.electprocess _) =>
      if finishesElection e then
        ⟨e.after.elections.results.map ElectionResults.leadRepresentative, none⟩
      else t
  | .action (.bylawspropose proposer text) =>
      { t with proposal := some ⟨proposer, text, e.before.now⟩ }
  | .action (.rename account newAccount) =>
      ⟨t.lead.map (renamed account newAccount), t.proposal.map fun proposal =>
        { proposal with proposer := renamed account newAccount proposal.proposer }⟩
  | .action .clearall => {}
  | _ => t

/-- The term that the calls of a history have led to. -/
def term (es : List Record) : Term := es.foldl Term.next {}

theorem term_append (es : List Record) (e : Record) : term (es ++ [e]) = (term es).next e := by
  simp [term]

/-- Nothing is proposed from the start of an election to its end. -/
def proposesBetweenElections (s : State) : Call → Bool
  | .action (.bylawspropose ..) => phase s.elections.current ≠ .voting
  | _ => true

/-- The lead representative and the proposal are those of the term. -/
structure OfTerm (t : Term) (s : State) : Prop where
  named : Named s
  voting : phase s.elections.current = .voting → s.bylaws.proposed = none
  proposal : ∀ row, s.bylaws.proposed = some row →
    ∃ proposer, t.lead = some proposer ∧ t.proposal = some ⟨proposer, row.text, row.time⟩
  lead : ∀ r, s.elections.results = some r →
    r.leadRepresentative = emptyName ∨ t.lead = some r.leadRepresentative

theorem OfTerm.unmoved {t : Term} {s s' : State} (h : OfTerm t s) (hnamed : Named s')
    (hsame : Unmoved s s') : OfTerm t s' where
  named := hnamed
  voting := by
    rw [hsame.bylaws]
    exact fun hvoting => h.voting (hsame.voting hvoting)
  proposal := by
    rw [hsame.bylaws]
    exact h.proposal
  lead := by
    rw [hsame.results]
    exact h.lead

theorem ofTerm_processed {t : Term} {s s' : State} {n : Nat} (hs : OfTerm t s) (hnamed : Named s')
    (h : Processed s s') : OfTerm (t.next ⟨s, (env, .action (.electprocess n)), s'⟩) s' := by
  cases h with
  | stays hbylaws hresults hphase _ =>
      have hsame : finishesElection ⟨s, (env, .action (.electprocess n)), s'⟩ = false := by
        simp [finishesElection, hphase]
      simp only [Term.next, hsame]
      exact hs.unmoved hnamed ⟨hbylaws, hresults, by rw [hphase]; exact id⟩
  | begins _ hbylaws hresults hphase =>
      have hsame : finishesElection ⟨s, (env, .action (.electprocess n)), s'⟩ = false := by
        simp [finishesElection, hphase]
      simp only [Term.next, hsame]
      refine ⟨hnamed, ?_, ?_, ?_⟩
      · rw [hbylaws]
        exact fun _ => rfl
      · rw [hbylaws]
        intro row hrow
        exact absurd hrow (by simp [newBoard])
      · intro r hr
        rw [hresults, Option.some.injEq] at hr
        subst hr
        cases hr₀ : s.elections.results with
        | none => exact .inl rfl
        | some r₀ => exact hs.lead r₀ hr₀
  | ends hphase₀ _ hbylaws hresults hphase =>
      have hfinish : finishesElection ⟨s, (env, .action (.electprocess n)), s'⟩ = true := by
        simp [finishesElection, hphase₀, hphase]
      simp only [Term.next, hfinish, if_true]
      refine ⟨hnamed, ?_, ?_, ?_⟩
      · rw [hphase]
        exact fun hvoting => absurd hvoting (by simp)
      · rw [hbylaws, hs.voting hphase₀]
        exact fun row hrow => absurd hrow (by simp)
      · intro r hr
        exact .inr (by rw [hr]; rfl)
  | completes hcurrent hbylaws hresults hphase =>
      have hfinish : finishesElection ⟨s, (env, .action (.electprocess n)), s'⟩ = true := by
        simp only [finishesElection, hphase]
        simp [hcurrent, phase]
      simp only [Term.next, hfinish, if_true]
      refine ⟨hnamed, ?_, ?_, ?_⟩
      · rw [hphase]
        exact fun hvoting => absurd hvoting (by simp)
      · rw [hbylaws]
        exact fun row hrow => absurd hrow (by simp [newBoard])
      · intro r hr
        exact .inr (by rw [hr]; rfl)

theorem ofTerm_renamed {t : Term} {s s' : State} {account newAccount : Name} (hs : OfTerm t s)
    (hnamed : Named s')
    (h : exec p env s (.action (.rename account newAccount)) = .ok s') :
    OfTerm (t.next ⟨s, (env, .action (.rename account newAccount)), s'⟩) s' := by
  obtain ⟨_, hactive, _, hbylaws, hresults, hphase⟩ := rename_bylaws h
  refine ⟨hnamed, fun hvoting => absurd hvoting hphase, ?_, ?_⟩
  · intro row hrow
    rw [hbylaws] at hrow
    obtain ⟨row₀, hrow₀, rfl⟩ := Option.map_eq_some_iff.mp hrow
    obtain ⟨proposer, hlead, hproposal⟩ := hs.proposal row₀ hrow₀
    refine ⟨renamed account newAccount proposer, ?_, ?_⟩
    · simp [Term.next, hlead]
    · simp [Term.next, hproposal]
  · intro r hr
    rw [hresults] at hr
    obtain ⟨r₀, hr₀, rfl⟩ := Option.map_eq_some_iff.mp hr
    have hvalid := hs.named.named account hactive
    rcases hs.lead r₀ hr₀ with hempty | hlead
    · have hne : account ≠ r₀.leadRepresentative := by
        rintro rfl
        rw [hempty] at hvalid
        exact absurd hvalid (by decide)
      refine .inl ?_
      rw [boardRenamed, if_neg hne]
      exact hempty
    · right
      simp only [Term.next, hlead, Option.map_some, renamed, boardRenamed]
      split
      · rename_i heq
        rw [if_pos heq.symm]
      · rename_i hne
        rw [if_neg (Ne.symm hne)]

theorem ofTerm_approved {t : Term} {s s' : State} (currentState : BylawsType)
    (hstate : currentState ≠ .ratified) {approver : Name} {bylawsHash : Checksum} (hs : OfTerm t s)
    (hnamed : Named s')
    (h : exec p env s (.action (approval currentState approver bylawsHash)) = .ok s') :
    OfTerm t s' := by
  obtain ⟨happrove, hresults, hcurrent⟩ := approve_bylaws currentState hstate h
  have hproposed : ∀ row, s'.bylaws.proposed = some row →
      ∃ row₀, s.bylaws.proposed = some row₀ ∧ row₀.text = row.text ∧ row₀.time = row.time := by
    intro row hrow
    obtain ⟨row₀, _, hrow₀, _, _, _, _, _, _, ⟨_, heq⟩ | ⟨_, heq⟩⟩ := approve_eq_ok happrove
    · rw [heq] at hrow
      cases currentState with
      | proposed => exact absurd hrow (by simp [putBylaws])
      | pending => exact ⟨row, hrow, rfl, rfl⟩
      | ratified => exact absurd rfl hstate
    · rw [heq] at hrow
      cases currentState with
      | proposed =>
          rw [putBylaws, Option.some.injEq] at hrow
          exact ⟨row₀, hrow₀, by rw [← hrow], by rw [← hrow]⟩
      | pending => exact ⟨row, hrow, rfl, rfl⟩
      | ratified => exact absurd rfl hstate
  refine ⟨hnamed, ?_, ?_, ?_⟩
  · intro hvoting
    rw [hcurrent] at hvoting
    cases hrow : s'.bylaws.proposed with
    | none => rfl
    | some row =>
        obtain ⟨_, hrow₀, _⟩ := hproposed row hrow
        rw [hs.voting hvoting] at hrow₀
        exact absurd hrow₀ (by simp)
  · intro row hrow
    obtain ⟨row₀, hrow₀, htext, htime⟩ := hproposed row hrow
    rw [← htext, ← htime]
    exact hs.proposal row₀ hrow₀
  · rw [hresults]
    exact hs.lead

theorem history_ofTerm {es : List Record} {s : State}
    (h : History p (fun s call => proposesBetweenElections s call = true) es s) :
    OfTerm (term es) s := by
  refine history_of_calls (fun es s => OfTerm (term es) s) h ?_ ?_ ?_
  · intro s hs
    refine ⟨untouched_named hs, ?_, ?_, ?_⟩
    · rw [hs.1]
      exact fun _ => rfl
    · rw [hs.1]
      simp
    · rw [hs.1]
      simp
  · intro es s now _ _ hs
    exact hs.unmoved (hs.named.of_members rfl rfl fun _ ha => ha) ⟨rfl, rfl, id⟩
  · intro es env call s s' hallowed hexec hsteps hs
    have hnamed : Named s' := steps_preserve Named (fun _ _ => step_named) hsteps hs.named
    rw [term_append]
    have hother : touchesBylaws call = false → OfTerm (term es) s' :=
      fun hcall => hs.unmoved hnamed (steps_unmoved hsteps hcall)
    cases call with
    | action a =>
        cases a with
        | electprocess n => exact ofTerm_processed hs hnamed (steps_processed hsteps)
        | rename account newAccount => exact ofTerm_renamed hs hnamed hexec
        | bylawspropose proposer text =>
            obtain ⟨hvalid, ⟨r, hr, rfl⟩, hbylaws, hresults, hcurrent⟩ := bylawspropose_bylaws hexec
            simp only [proposesBetweenElections, decide_eq_true_eq] at hallowed
            have hlead : (term es).lead = some r.leadRepresentative := by
              refine (hs.lead r hr).resolve_left ?_
              intro hempty
              rw [hempty] at hvalid
              exact absurd hvalid (by decide)
            refine ⟨hnamed, ?_, ?_, ?_⟩
            · rw [hcurrent]
              exact fun hvoting => absurd hvoting hallowed
            · intro row hrow
              rw [hbylaws, Option.some.injEq] at hrow
              subst hrow
              exact ⟨r.leadRepresentative, hlead, rfl⟩
            · rw [hresults]
              exact hs.lead
        | resign account =>
            obtain ⟨_, hbylaws, hresults, hphase⟩ := resign_bylaws hexec
            refine ⟨hnamed, fun hvoting => absurd hvoting hphase, ?_, ?_⟩
            · intro row hrow
              rw [hbylaws] at hrow
              obtain ⟨row₀, hrow₀, rfl⟩ := Option.map_eq_some_iff.mp hrow
              exact hs.proposal row₀ hrow₀
            · intro r hr
              rw [hresults] at hr
              obtain ⟨r₀, hr₀, rfl⟩ := Option.map_eq_some_iff.mp hr
              exact hs.lead r₀ hr₀
        | bylawsapprove approver hash =>
            exact ofTerm_approved .proposed (by simp) hs hnamed hexec
        | bylawsratify approver hash =>
            exact ofTerm_approved .pending (by simp) hs hnamed hexec
        | clearall =>
            simp only [exec, applyAction, dispatch, clearall, bind_eq_ok, pure_eq_ok] at hexec
            obtain ⟨_, ⟨_, _, _, _, rfl⟩, rfl⟩ := hexec
            exact ⟨hnamed, fun _ => rfl, by simp, by simp⟩
        | _ => exact hother rfl
    | _ => exact hother rfl

/-- When nothing is proposed from the start of an election to its end, a proposed text was set by
the lead representative elected in the last finished election, after that election. -/
theorem proposal_provenance {es : List Record} {s : State}
    (h : History p (fun s call => proposesBetweenElections s call = true) es s)
    (_hidle : isElectionRunning s = false) {row : Bylaws} (hrow : s.bylaws.proposed = some row) :
    ∃ proposer, (term es).lead = some proposer ∧
      (term es).proposal = some ⟨proposer, row.text, row.time⟩ :=
  (history_ofTerm h).proposal row hrow

theorem first_proposal_provenance :
    ∃ es s row proposer, traceFromGenesis host
        (fun s call => proposesBetweenElections s call = true) firstApproval = some (es, s) ∧
      isElectionRunning s = false ∧ s.bylaws.proposed = some row ∧
      (term es).lead = some proposer ∧
      (term es).proposal = some ⟨proposer, row.text, row.time⟩ := by
  have hrun : (traceFromGenesis host (fun s call => proposesBetweenElections s call = true)
      firstApproval).any (fun result => !isElectionRunning result.2 &&
        result.2.bylaws.proposed.isSome) = true := by decide +kernel
  obtain ⟨⟨es, s⟩, htrace, hstate⟩ := (Option.any_eq_true _ _).mp hrun
  simp only [Bool.and_eq_true, Bool.not_eq_true', Option.isSome_iff_exists] at hstate
  obtain ⟨hidle, row, hrow⟩ := hstate
  obtain ⟨proposer, hlead, hproposal⟩ :=
    proposal_provenance (history_of_trace htrace) hidle hrow
  exact ⟨es, s, row, proposer, htrace, hidle, hrow, hlead, hproposal⟩

/-- Alice is the lead representative. She proposes bylaws during the election that bob wins. -/
def lateProposal : List Transaction :=
  firstElection ++
    [(2000000, [(signedBy alice, .action (.electopt alice.name true)),
        (signedBy bob, .action (.electopt bob.name true))]),
      (3100000, [(signedBy alice, .action (.electseed (headerAt 948200001)))]),
      (3196800, [(signedBy alice, .action (.electprocess 1))]),
      (3196810, [(signedBy alice, .action (.bylawspropose alice.name ['B']))]),
      (3196820, [(signedBy alice, .action (.electprocess 100))])]

/-- The proposal of the lead representative of the last term is there in the term of bob. -/
theorem late_proposal_survives :
    ∃ es s row, traceFromGenesis host (fun _ _ => True) lateProposal = some (es, s) ∧
      History host (fun _ _ => True) es s ∧ isElectionRunning s = false ∧
      s.bylaws.proposed = some row ∧ (term es).lead = some bob.name ∧
      ¬ ∃ proposer, (term es).lead = some proposer ∧
        (term es).proposal = some ⟨proposer, row.text, row.time⟩ := by
  have hrun : (traceFromGenesis host (fun _ _ => True) lateProposal).any (fun result =>
      !isElectionRunning result.2 && result.2.bylaws.proposed.isSome &&
        term result.1 = ⟨some bob.name, none⟩) = true := by decide +kernel
  obtain ⟨⟨es, s⟩, htrace, hstate⟩ := (Option.any_eq_true _ _).mp hrun
  simp only [Bool.and_eq_true, Bool.not_eq_true', Option.isSome_iff_exists,
    decide_eq_true_eq] at hstate
  obtain ⟨⟨hidle, row, hrow⟩, hterm⟩ := hstate
  refine ⟨es, s, row, htrace, history_of_trace htrace, hidle, hrow, by rw [hterm], ?_⟩
  rintro ⟨proposer, _, hproposal⟩
  rw [hterm] at hproposal
  exact absurd hproposal (by simp)

end Eden.BylawsHistory
