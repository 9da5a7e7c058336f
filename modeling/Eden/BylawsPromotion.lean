import Eden.BylawsHistory

/-!
A text moves on only with the approvals of a majority of the board, given since the text was set
and since the last election started.
-/

namespace Eden.BylawsPromotion

open Eden.ExceptReasoning
open Eden.SortedTable
open Eden.TransactionRuns
open Eden.ChainPrimitives
open Eden.ElectionPlan
open Eden.ContractState
open Eden.Runtime
open Eden.MemberTable
open Eden.BylawsRules
open Eden.ElectionRounds
open Eden.ElectionPhases
open Eden.ContractActions
open Eden.Transactions
open Eden.HostFunctions
open Eden.ContractSteps
open Eden.ActionSteps
open Eden.Electorate
open Eden.BoardMembership
open Eden.BylawsQuorum
open Eden.BylawsHistory

variable {p : Platform} {env : Env}

/-! ### Approvals in a history -/

/-- Who has approved which hash in a stage since its row was set and since the last election
started, when the pending text became pending, when the last election started, and when the
election started that chose the board. -/
structure Approvals where
  proposed : List (Name × Checksum) := []
  pending : List (Name × Checksum) := []
  pendingSince : Option Nat := none
  started : Nat := 0
  chosen : Nat := 0
  deriving DecidableEq

def Approvals.of (a : Approvals) : BylawsType → List (Name × Checksum)
  | .proposed => a.proposed
  | .pending => a.pending
  | .ratified => []

def Approvals.map (a : Approvals) (f : List (Name × Checksum) → List (Name × Checksum)) :
    Approvals :=
  { a with proposed := f a.proposed, pending := f a.pending }

/-- The start of the election that a call of `electprocess` starts. -/
def startsElection (e : Record) : Option Nat :=
  match e.before.elections.current with
  | some (.seeding seeder _) =>
      if phase e.after.elections.current = .seeding then none else some seeder.endTime
  | _ => none

/-- Approvals do not outlive the start of an election. -/
def Approvals.process (a : Approvals) (e : Record) : Approvals :=
  let a := match startsElection e with
    | some time => { a with proposed := [], pending := [], started := time }
    | none => a
  if finishesElection e then { a with chosen := a.started } else a

def Approvals.next (a : Approvals) (e : Record) : Approvals :=
  match e.input.2 with
  | .action (.electprocess _) => a.process e
  | .action (.bylawspropose ..) => { a with proposed := [] }
  | .action (.bylawsapprove approver bylawsHash) =>
      if e.after.bylaws.proposed = none then
        { a with proposed := [], pending := [], pendingSince := some e.before.now }
      else { a with proposed := a.proposed ++ [(approver, bylawsHash)] }
  | .action (.bylawsratify approver bylawsHash) =>
      if e.after.bylaws.pending = none then { a with pending := [], pendingSince := none }
      else { a with pending := a.pending ++ [(approver, bylawsHash)] }
  | .action (.resign account) => a.map fun l => l.filter fun x => x.1 ≠ account
  | .action (.rename account newAccount) =>
      a.map fun l => l.map fun x => (renamed account newAccount x.1, x.2)
  | _ => a

def approvals (es : List Record) : Approvals := es.foldl Approvals.next {}

theorem approvals_append (es : List Record) (e : Record) :
    approvals (es ++ [e]) = (approvals es).next e := by
  simp [approvals]

/-! ### Stored approvals -/

/-- The stored approvals of a text are different members of the board who have approved it. -/
structure Supported (p : Platform) (results : Option ElectionResults)
    (given : List (Name × Checksum)) (row : Bylaws) : Prop where
  distinct : row.approvals.Nodup
  given : ∀ a ∈ row.approvals, (a, p.sha256 (textBytes row.text)) ∈ given
  board : ∀ a ∈ row.approvals, ∃ r, results = some r ∧ a ∈ r.board

theorem supported_nil {results : Option ElectionResults} {given : List (Name × Checksum)}
    {row : Bylaws} (h : row.approvals = []) : Supported p results given row where
  distinct := by simp [h]
  given := by simp [h]
  board := by simp [h]

theorem Supported.approved {r : ElectionResults} {given : List (Name × Checksum)} {row : Bylaws}
    (h : Supported p (some r) given row) {approver : Name} (hnew : approver ∉ row.approvals)
    (hboard : approver ∈ r.board) {bylawsHash : Checksum}
    (hhash : p.sha256 (textBytes row.text) = bylawsHash) :
    Supported p (some r) (given ++ [(approver, bylawsHash)])
      { row with approvals := row.approvals ++ [approver] } := by
  refine ⟨?_, ?_, ?_⟩
  · rw [List.nodup_append_comm, List.singleton_append, List.nodup_cons]
    exact ⟨hnew, h.distinct⟩
  · intro a ha
    rcases List.mem_append.mp ha with ha | ha
    · exact List.mem_append_left _ (h.given a ha)
    · rw [List.mem_singleton.mp ha]
      exact List.mem_append_right _ (by simp [hhash])
  · intro a ha
    rcases List.mem_append.mp ha with ha | ha
    · exact h.board a ha
    · rw [List.mem_singleton.mp ha]
      exact ⟨r, rfl, hboard⟩

theorem Supported.resigned {results : Option ElectionResults} {given : List (Name × Checksum)}
    {row : Bylaws} (h : Supported p results given row) (account : Name) :
    Supported p (results.map (boardWithout account)) (given.filter fun x => x.1 ≠ account)
      { row with approvals := row.approvals.erase account } := by
  refine ⟨h.distinct.erase account, ?_, ?_⟩
  · intro a ha
    obtain ⟨hne, ha⟩ := h.distinct.mem_erase_iff.mp ha
    exact List.mem_filter.mpr ⟨h.given a ha, by simpa using hne⟩
  · intro a ha
    obtain ⟨hne, ha⟩ := h.distinct.mem_erase_iff.mp ha
    obtain ⟨r, hr, hboard⟩ := h.board a ha
    refine ⟨boardWithout account r, by rw [hr]; rfl, ?_⟩
    exact (List.mem_erase_of_ne hne).mpr hboard

theorem Supported.renamed {results : Option ElectionResults} {given : List (Name × Checksum)}
    {row : Bylaws} (h : Supported p results given row) {account newAccount : Name}
    (hdistinct : ∀ r, results = some r → r.board.Nodup)
    (hnew : ∀ r, results = some r → newAccount ∉ r.board) :
    Supported p (results.map (boardRenamed account newAccount))
      (given.map fun x => (renamed account newAccount x.1, x.2))
      { row with approvals := row.approvals.map (renamed account newAccount) } := by
  refine ⟨?_, ?_, ?_⟩
  · refine nodup_map_renamed h.distinct fun hin => ?_
    obtain ⟨r, hr, hboard⟩ := h.board newAccount hin
    exact hnew r hr hboard
  · intro a ha
    obtain ⟨x, hx, rfl⟩ := List.mem_map.mp ha
    exact List.mem_map.mpr ⟨_, h.given x hx, rfl⟩
  · intro a ha
    obtain ⟨x, hx, rfl⟩ := List.mem_map.mp ha
    obtain ⟨r, hr, hboard⟩ := h.board x hx
    refine ⟨boardRenamed account newAccount r, by rw [hr]; rfl, ?_⟩
    rw [boardRenamed, replace_eq_map (hdistinct r hr)]
    exact List.mem_map.mpr ⟨x, hboard, rfl⟩

/-- The stored rows agree with the history. -/
structure Backed (p : Platform) (a : Approvals) (s : State) : Prop where
  seated : Seated s
  voting : phase s.elections.current = .voting → ∀ row ∈ collecting s.bylaws, row.approvals = []
  proposed : ∀ row, s.bylaws.proposed = some row →
    Supported p s.elections.results a.proposed row
  pending : ∀ row, s.bylaws.pending = some row → Supported p s.elections.results a.pending row
  since : ∀ row, s.bylaws.pending = some row → a.pendingSince = some row.time
  started : ∀ r, s.elections.results = some r → r.lastElectionTime = a.started
  chosen : phase s.elections.current ≠ .voting → a.chosen = a.started

theorem Backed.unmoved {a : Approvals} {s s' : State} (h : Backed p a s) (hseated : Seated s')
    (hsame : Unmoved s s')
    (hphase : phase s.elections.current = .voting → phase s'.elections.current = .voting) :
    Backed p a s' where
  seated := hseated
  voting := by
    rw [hsame.bylaws]
    exact fun hvoting => h.voting (hsame.voting hvoting)
  proposed := by
    rw [hsame.bylaws, hsame.results]
    exact h.proposed
  pending := by
    rw [hsame.bylaws, hsame.results]
    exact h.pending
  since := by
    rw [hsame.bylaws]
    exact h.since
  started := by
    rw [hsame.results]
    exact h.started
  chosen := fun hwaiting => h.chosen fun hvoting => hwaiting (hphase hvoting)

/-- An election that has started goes on until `electprocess` finishes it. -/
theorem step_keeps_voting {call : Call} {s s' : State} (h : Step p call s s') (hs : Named s)
    (hcall : touchesBylaws call = false) (hgoes : uninterrupted call = true)
    (hvoting : phase s.elections.current = .voting) : phase s'.elections.current = .voting := by
  cases h with
  | aside haside =>
      rw [haside.current]
      exact hvoting
  | schedules _ _ hschedule =>
      rcases hschedule with ⟨hnone, _⟩ | ⟨_, _, _, hcurrent, _⟩
      · rw [hnone] at hvoting
        exact absurd hvoting (by simp [phase])
      · rw [hcurrent] at hvoting
        exact absurd hvoting (by simp [phase])
  | unschedules _ _ hg hunset => exact absurd hunset (hs.started _ hg)
  | aborts => exact absurd hgoes (by simp [uninterrupted])
  | seeds hseed =>
      rcases seed_eq_ok hseed with ⟨_, _, _, _, _, hcurrent, _, _, _, rfl⟩ |
        ⟨_, _, _, _, hcurrent, _, _, rfl⟩ | ⟨_, _, _, _, _, _, rfl⟩
      · rw [hcurrent] at hvoting
        exact absurd hvoting (by simp [phase])
      · rw [hcurrent] at hvoting
        exact absurd hvoting (by simp [phase])
      · rfl
  | votes hvote =>
      obtain ⟨_, _, _, _, _, _, _, _, _, _, _, rfl⟩ := vote_eq_ok hvote
      exact hvoting
  | enters | activates | drops | opts | inducts | establishes | distributes | withdraws | sends |
      deposits | receives | donates | fundtransfers | usertransfers | unsettled | migrates | founds |
      «extends» | empties => exact hvoting
  | _ => exact absurd hcall (by simp [touchesBylaws])

theorem steps_keep_voting {call : Call} {s s' : State} (h : Steps p call s s') (hs : Named s)
    (hcall : touchesBylaws call = false) (hgoes : uninterrupted call = true)
    (hvoting : phase s.elections.current = .voting) : phase s'.elections.current = .voting := by
  refine (steps_preserve (fun t => Named t ∧ phase t.elections.current = .voting) ?_ h
    ⟨hs, hvoting⟩).2
  intro t t' hstep ht
  exact ⟨step_named hstep ht.1, step_keeps_voting hstep ht.1 hcall hgoes ht.2⟩

theorem backed_processed {a : Approvals} {s s' : State} {n : Nat} (hs : Backed p a s)
    (hseated : Seated s') (h : Processed s s') :
    Backed p (a.process ⟨s, (env, .action (.electprocess n)), s'⟩) s' := by
  cases h with
  | stays hbylaws hresults hphase _ =>
      have hsame : a.process ⟨s, (env, .action (.electprocess n)), s'⟩ = a := by
        have hstart : startsElection ⟨s, (env, .action (.electprocess n)), s'⟩ = none := by
          unfold startsElection
          split
          · rename_i hcurrent
            simp only [hphase]
            rw [show s.elections.current = _ from hcurrent]
            rfl
          · rfl
        simp [Approvals.process, hstart, finishesElection, hphase]
      rw [hsame]
      exact hs.unmoved hseated ⟨hbylaws, hresults, by rw [hphase]; exact id⟩
        (by rw [hphase]; exact id)
  | begins hcurrent hbylaws hresults hphase =>
      rename_i seeder version
      have hstart : a.process ⟨s, (env, .action (.electprocess n)), s'⟩ =
          { a with proposed := [], pending := [], started := seeder.endTime } := by
        simp [Approvals.process, startsElection, finishesElection, hcurrent, hphase]
      rw [hstart]
      have hnone : ∀ row ∈ collecting s'.bylaws, row.approvals = [] := by
        rw [hbylaws]
        exact fun row hrow => collecting_newBoard hrow
      refine ⟨hseated, fun _ => hnone, ?_, ?_, ?_, ?_, ?_⟩
      · exact fun row hrow => supported_nil (hnone row (mem_collecting.mpr (.inl hrow)))
      · exact fun row hrow => supported_nil (hnone row (mem_collecting.mpr (.inr hrow)))
      · intro row hrow
        rw [hbylaws] at hrow
        obtain ⟨row₀, hrow₀, rfl⟩ := Option.map_eq_some_iff.mp hrow
        exact hs.since row₀ hrow₀
      · intro r hr
        rw [hresults, Option.some.injEq] at hr
        rw [← hr]
      · exact fun hwaiting => absurd hphase hwaiting
  | ends hphase₀ hr hbylaws hresults hphase =>
      have hfinish : a.process ⟨s, (env, .action (.electprocess n)), s'⟩ =
          { a with chosen := a.started } := by
        have hstart : startsElection ⟨s, (env, .action (.electprocess n)), s'⟩ = none := by
          unfold startsElection
          split
          · rename_i hcurrent
            rw [show s.elections.current = _ from hcurrent] at hphase₀
            exact absurd hphase₀ (by simp [phase])
          · rfl
        simp [Approvals.process, hstart, finishesElection, hphase₀, hphase]
      rw [hfinish]
      have hnone : ∀ row ∈ collecting s'.bylaws, row.approvals = [] := by
        rw [hbylaws]
        exact hs.voting hphase₀
      refine ⟨hseated, fun _ => hnone, ?_, ?_, ?_, ?_, fun _ => rfl⟩
      · exact fun row hrow => supported_nil (hnone row (mem_collecting.mpr (.inl hrow)))
      · exact fun row hrow => supported_nil (hnone row (mem_collecting.mpr (.inr hrow)))
      · rw [hbylaws]
        exact hs.since
      · intro r' hr'
        rw [hresults, Option.some.injEq] at hr'
        have hsame := hs.started _ hr
        rw [← hr']
        exact hsame
  | completes hcurrent hbylaws hresults hphase =>
      rename_i seeder version winner board
      have hboth : a.process ⟨s, (env, .action (.electprocess n)), s'⟩ =
          { a with
            proposed := []
            pending := []
            started := seeder.endTime
            chosen := seeder.endTime } := by
        have hseeding : phase (some (.seeding seeder version)) ≠ .waiting := by simp [phase]
        simp [Approvals.process, startsElection, finishesElection, hcurrent, hphase, hseeding]
      rw [hboth]
      have hnone : ∀ row ∈ collecting s'.bylaws, row.approvals = [] := by
        rw [hbylaws]
        exact fun row hrow => collecting_newBoard hrow
      refine ⟨hseated, fun _ => hnone, ?_, ?_, ?_, ?_, fun _ => rfl⟩
      · exact fun row hrow => supported_nil (hnone row (mem_collecting.mpr (.inl hrow)))
      · exact fun row hrow => supported_nil (hnone row (mem_collecting.mpr (.inr hrow)))
      · intro row hrow
        rw [hbylaws] at hrow
        obtain ⟨row₀, hrow₀, rfl⟩ := Option.map_eq_some_iff.mp hrow
        exact hs.since row₀ hrow₀
      · intro r hr
        rw [hresults, Option.some.injEq] at hr
        rw [← hr]

theorem backed_resigned {a : Approvals} {s s' : State} {account : Name} (hs : Backed p a s)
    (hseated : Seated s') (h : exec p env s (.action (.resign account)) = .ok s') :
    Backed p (a.map fun l => l.filter fun x => x.1 ≠ account) s' := by
  obtain ⟨hrunning, hbylaws, hresults, hphase⟩ := resign_bylaws h
  refine ⟨hseated, fun hvoting => absurd hvoting hphase, ?_, ?_, ?_, ?_, ?_⟩
  · intro row hrow
    rw [hbylaws] at hrow
    obtain ⟨row₀, hrow₀, rfl⟩ := Option.map_eq_some_iff.mp hrow
    rw [hresults]
    exact (hs.proposed row₀ hrow₀).resigned account
  · intro row hrow
    rw [hbylaws] at hrow
    obtain ⟨row₀, hrow₀, rfl⟩ := Option.map_eq_some_iff.mp hrow
    rw [hresults]
    exact (hs.pending row₀ hrow₀).resigned account
  · intro row hrow
    rw [hbylaws] at hrow
    obtain ⟨row₀, hrow₀, rfl⟩ := Option.map_eq_some_iff.mp hrow
    exact hs.since row₀ hrow₀
  · intro r hr
    rw [hresults] at hr
    obtain ⟨r₀, hr₀, rfl⟩ := Option.map_eq_some_iff.mp hr
    exact hs.started r₀ hr₀
  · exact fun _ => hs.chosen (phase_of_not_running hrunning)

theorem backed_renamed {a : Approvals} {s s' : State} {account newAccount : Name}
    (hs : Backed p a s) (hseated : Seated s')
    (h : exec p env s (.action (.rename account newAccount)) = .ok s') :
    Backed p (a.map fun l => l.map fun x => (renamed account newAccount x.1, x.2)) s' := by
  obtain ⟨hrunning, _, hnone, hbylaws, hresults, hphase⟩ := rename_bylaws h
  have hnew : ∀ r, s.elections.results = some r → newAccount ∉ r.board :=
    fun r hr => not_mem_board hs.seated hnone hr
  refine ⟨hseated, fun hvoting => absurd hvoting hphase, ?_, ?_, ?_, ?_, ?_⟩
  · intro row hrow
    rw [hbylaws] at hrow
    obtain ⟨row₀, hrow₀, rfl⟩ := Option.map_eq_some_iff.mp hrow
    rw [hresults]
    exact (hs.proposed row₀ hrow₀).renamed hs.seated.distinct hnew
  · intro row hrow
    rw [hbylaws] at hrow
    obtain ⟨row₀, hrow₀, rfl⟩ := Option.map_eq_some_iff.mp hrow
    rw [hresults]
    exact (hs.pending row₀ hrow₀).renamed hs.seated.distinct hnew
  · intro row hrow
    rw [hbylaws] at hrow
    obtain ⟨row₀, hrow₀, rfl⟩ := Option.map_eq_some_iff.mp hrow
    exact hs.since row₀ hrow₀
  · intro r hr
    rw [hresults] at hr
    obtain ⟨r₀, hr₀, rfl⟩ := Option.map_eq_some_iff.mp hr
    exact hs.started r₀ hr₀
  · exact fun _ => hs.chosen (phase_of_not_running hrunning)

theorem phase_of_next {state : Option ElectionState} {time : Nat}
    (h : getNextElectionTime state = some time) : phase state ≠ .voting := by
  unfold getNextElectionTime at h
  split at h
  · simp [phase]
  · simp [phase]
  · exact absurd h (by simp)

theorem backed_approved {a : Approvals} {s s' : State} {approver : Name} {bylawsHash : Checksum}
    (hs : Backed p a s) (hseated : Seated s')
    (h : exec p env s (.action (.bylawsapprove approver bylawsHash)) = .ok s') :
    Backed p (a.next ⟨s, (env, .action (.bylawsapprove approver bylawsHash)), s'⟩) s' := by
  obtain ⟨happrove, hresults, hcurrent⟩ := approve_bylaws .proposed (by simp) h
  obtain ⟨row, r, hrow, hhash, hr, ⟨time, htime, _⟩, hnew, hboard, _, hcases⟩ :=
    approve_eq_ok happrove
  have hphase : phase s'.elections.current ≠ .voting := by
    rw [hcurrent]
    exact phase_of_next htime
  have hstarted : ∀ r, s'.elections.results = some r → r.lastElectionTime = a.started := by
    rw [hresults]
    exact hs.started
  have hchosen : a.chosen = a.started := hs.chosen (phase_of_next htime)
  rcases hcases with ⟨_, heq⟩ | ⟨_, heq⟩
  · have hnone : s'.bylaws.proposed = none := by rw [heq]; rfl
    have hsome : s'.bylaws.pending = some ⟨row.text, s.now, []⟩ := by rw [heq]; rfl
    simp only [Approvals.next, hnone, if_true]
    refine ⟨hseated, fun hvoting => absurd hvoting hphase, ?_, ?_, ?_, hstarted, fun _ => hchosen⟩
    · simp [hnone]
    · intro row' hrow'
      rw [hsome, Option.some.injEq] at hrow'
      exact supported_nil (by rw [← hrow'])
    · intro row' hrow'
      rw [hsome, Option.some.injEq] at hrow'
      rw [← hrow']
  · have hsome : s'.bylaws.proposed = some { row with approvals := row.approvals ++ [approver] } := by
      rw [heq]
      rfl
    have hpending : s'.bylaws.pending = s.bylaws.pending := by rw [heq]; rfl
    simp only [Approvals.next, hsome, reduceCtorEq, if_false]
    refine ⟨hseated, fun hvoting => absurd hvoting hphase, ?_, ?_, ?_, hstarted, fun _ => hchosen⟩
    · intro row' hrow'
      rw [hsome, Option.some.injEq] at hrow'
      have hsupported := hs.proposed row hrow
      rw [hr] at hsupported
      rw [← hrow', hresults, hr]
      exact hsupported.approved hnew hboard hhash
    · rw [hpending, hresults]
      exact hs.pending
    · rw [hpending]
      exact hs.since

theorem backed_ratified {a : Approvals} {s s' : State} {approver : Name} {bylawsHash : Checksum}
    (hs : Backed p a s) (hseated : Seated s')
    (h : exec p env s (.action (.bylawsratify approver bylawsHash)) = .ok s') :
    Backed p (a.next ⟨s, (env, .action (.bylawsratify approver bylawsHash)), s'⟩) s' := by
  obtain ⟨happrove, hresults, hcurrent⟩ := approve_bylaws .pending (by simp) h
  obtain ⟨row, r, hrow, hhash, hr, ⟨time, htime, _⟩, hnew, hboard, _, hcases⟩ :=
    approve_eq_ok happrove
  have hphase : phase s'.elections.current ≠ .voting := by
    rw [hcurrent]
    exact phase_of_next htime
  have hstarted : ∀ r, s'.elections.results = some r → r.lastElectionTime = a.started := by
    rw [hresults]
    exact hs.started
  have hchosen : a.chosen = a.started := hs.chosen (phase_of_next htime)
  have hproposed : s'.bylaws.proposed = s.bylaws.proposed := by
    rcases hcases with ⟨_, heq⟩ | ⟨_, heq⟩
    · rw [heq]
      rfl
    · rw [heq]
      rfl
  rcases hcases with ⟨_, heq⟩ | ⟨_, heq⟩
  · have hnone : s'.bylaws.pending = none := by rw [heq]; rfl
    simp only [Approvals.next, hnone, if_true]
    refine ⟨hseated, fun hvoting => absurd hvoting hphase, ?_, ?_, ?_, hstarted, fun _ => hchosen⟩
    · rw [hproposed, hresults]
      exact hs.proposed
    · simp [hnone]
    · simp [hnone]
  · have hsome : s'.bylaws.pending = some { row with approvals := row.approvals ++ [approver] } := by
      rw [heq]
      rfl
    simp only [Approvals.next, hsome, reduceCtorEq, if_false]
    refine ⟨hseated, fun hvoting => absurd hvoting hphase, ?_, ?_, ?_, hstarted, fun _ => hchosen⟩
    · rw [hproposed, hresults]
      exact hs.proposed
    · intro row' hrow'
      rw [hsome, Option.some.injEq] at hrow'
      have hsupported := hs.pending row hrow
      rw [hr] at hsupported
      rw [← hrow', hresults, hr]
      exact hsupported.approved hnew hboard hhash
    · intro row' hrow'
      rw [hsome, Option.some.injEq] at hrow'
      rw [← hrow']
      exact hs.since row hrow

theorem backed_exec {a : Approvals} {call : Call} {s s' : State} (hs : Backed p a s)
    (hgoes : uninterrupted call = true) (hexec : exec p env s call = .ok s')
    (hsteps : Steps p call s s') : Backed p (a.next ⟨s, (env, call), s'⟩) s' := by
  have hseated : Seated s' := by
    refine steps_preserve Seated (fun t t' hstep => step_seated hstep ?_) hsteps hs.seated
    rintro time rfl
    exact absurd hgoes (by simp [uninterrupted])
  have hother : touchesBylaws call = false → Backed p a s' := fun hcall =>
    hs.unmoved hseated (steps_unmoved hsteps hcall)
      (steps_keep_voting hsteps hs.seated.enrolled.toNamed hcall hgoes)
  cases call with
  | action action =>
      cases action with
      | electprocess n => exact backed_processed hs hseated (steps_processed hsteps)
      | resign account => exact backed_resigned hs hseated hexec
      | rename account newAccount => exact backed_renamed hs hseated hexec
      | bylawsapprove approver bylawsHash => exact backed_approved hs hseated hexec
      | bylawsratify approver bylawsHash => exact backed_ratified hs hseated hexec
      | bylawspropose proposer text =>
          obtain ⟨_, _, hbylaws, hresults, hcurrent⟩ := bylawspropose_bylaws hexec
          refine ⟨hseated, ?_, ?_, ?_, ?_, ?_, ?_⟩
          · rw [hcurrent, hbylaws]
            intro hvoting row hrow
            rcases collecting_putBylaws .proposed hrow with hnew | hrow
            · rw [Option.some.injEq] at hnew
              rw [← hnew]
            · exact hs.voting hvoting row hrow
          · intro row hrow
            rw [hbylaws, Option.some.injEq] at hrow
            exact supported_nil (by rw [← hrow])
          · rw [hbylaws, hresults]
            exact hs.pending
          · rw [hbylaws]
            exact hs.since
          · rw [hresults]
            exact hs.started
          · rw [hcurrent]
            exact hs.chosen
      | clearall => exact absurd hgoes (by simp [uninterrupted])
      | _ => exact hother rfl
  | _ => exact hother rfl

/-! ### Promotion -/

def stamp (row : Bylaws) : Text × Nat := (row.text, row.time)

/-- A text comes to the next stage: the stage has a text that it did not have before, or the text
was approved and has left its stage. -/
def Promotes (currentState : BylawsType) (e : Record) (row : Bylaws) : Prop :=
  findBylaws e.after.bylaws (nextState currentState) = some row ∧
    ((findBylaws e.before.bylaws (nextState currentState)).map stamp ≠ some (stamp row) ∨
      (∃ approver bylawsHash, e.input.2 = .action (approval currentState approver bylawsHash)) ∧
        findBylaws e.after.bylaws currentState = none)

/-- Different members of the board, two thirds and one more, are among those who have approved. -/
def Quorum (p : Platform) (board : List Name) (given : List (Name × Checksum)) (text : Text) :
    Prop :=
  ∃ approvers : List Name, approvers.Nodup ∧ board.length * 2 / 3 + 1 ≤ approvers.length ∧
    ∀ a ∈ approvers, a ∈ board ∧ (a, p.sha256 (textBytes text)) ∈ given

theorem Supported.quorum {r : ElectionResults} {given : List (Name × Checksum)} {row : Bylaws}
    (h : Supported p (some r) given row) {approver : Name} (hnew : approver ∉ row.approvals)
    (hboard : approver ∈ r.board) {bylawsHash : Checksum}
    (hhash : p.sha256 (textBytes row.text) = bylawsHash)
    (hlength : r.board.length * 2 / 3 ≤ row.approvals.length) :
    Quorum p r.board (given ++ [(approver, bylawsHash)]) row.text := by
  have happroved := h.approved hnew hboard hhash
  refine ⟨row.approvals ++ [approver], happroved.distinct, ?_, ?_⟩
  · rw [List.length_append, List.length_singleton]
    exact Nat.succ_le_succ hlength
  · intro a ha
    obtain ⟨r', hr', hin⟩ := happroved.board a ha
    rw [Option.some.injEq] at hr'
    subst hr'
    exact ⟨hin, happroved.given a ha⟩

/-- The text moves on when it has the approvals of a majority of the board, and to be ratified it
has been pending for 90 days when the election started that chose the board. -/
def PromotedByBoard (p : Platform) (a : Approvals) (currentState : BylawsType) (e : Record)
    (row : Bylaws) : Prop :=
  ∃ approver bylawsHash row₀ r,
    e.input.2 = .action (approval currentState approver bylawsHash) ∧
      findBylaws e.before.bylaws currentState = some row₀ ∧ row₀.text = row.text ∧
      e.before.elections.results = some r ∧
      Quorum p r.board (a.of currentState ++ [(approver, bylawsHash)]) row.text ∧
      (currentState = .pending → ∃ since, a.pendingSince = some since ∧
        toTimePoint since + days 90 ≤ toTimePoint a.chosen)

theorem stamp_of_same {t t' : BylawsTable} (currentState : BylawsType)
    (hpending : t'.pending.map stamp = t.pending.map stamp) (hratified : t'.ratified = t.ratified)
    {row : Bylaws} (hrow : findBylaws t' (nextState currentState) = some row) :
    (findBylaws t (nextState currentState)).map stamp = some (stamp row) := by
  have hsame : (findBylaws t (nextState currentState)).map stamp =
      (findBylaws t' (nextState currentState)).map stamp := by
    unfold nextState
    split
    · rw [findBylaws, findBylaws, hratified]
    · exact hpending.symm
  rw [hsame, hrow]
  rfl

theorem stamp_newBoard (t : BylawsTable) :
    (newBoard t).pending.map stamp = t.pending.map stamp ∧ (newBoard t).ratified = t.ratified := by
  simp only [newBoard, Option.map_map, and_true]
  rfl

theorem stamp_mapApprovals (t : BylawsTable) (f : List Name → List Name) :
    (mapApprovals t f).pending.map stamp = t.pending.map stamp ∧
      (mapApprovals t f).ratified = t.ratified := by
  simp only [mapApprovals, Option.map_map, and_true]
  rfl

/-- An approval in one stage does not change what the other stage leads to. -/
theorem stamp_approval {s s' : State} {currentState : BylawsType} (other : BylawsType)
    (hstate : currentState ≠ .ratified) (hother : other ≠ .ratified) (hne : currentState ≠ other)
    {approver : Name} {bylawsHash : Checksum}
    (hexec : exec p env s (.action (approval other approver bylawsHash)) = .ok s') {row : Bylaws}
    (hrow : findBylaws s'.bylaws (nextState currentState) = some row) :
    (findBylaws s.bylaws (nextState currentState)).map stamp = some (stamp row) := by
  obtain ⟨happrove, _, _⟩ := approve_bylaws other hother hexec
  obtain ⟨row₀, _, hrow₀, _, _, _, _, _, _, ⟨_, heq⟩ | ⟨_, heq⟩⟩ := approve_eq_ok happrove
  · rw [heq] at hrow
    cases currentState with
    | proposed =>
        cases other with
        | proposed => exact absurd rfl hne
        | pending => exact absurd hrow (by simp [nextState, findBylaws, putBylaws])
        | ratified => exact absurd rfl hother
    | pending =>
        cases other with
        | proposed =>
            have hsame : s.bylaws.ratified = some row := hrow
            simp [nextState, findBylaws, hsame]
        | pending => exact absurd rfl hne
        | ratified => exact absurd rfl hother
    | ratified => exact absurd rfl hstate
  · rw [heq] at hrow
    cases currentState with
    | proposed =>
        cases other with
        | proposed => exact absurd rfl hne
        | pending =>
            have hsame : s.bylaws.pending = some row₀ := hrow₀
            have hrow' : { row₀ with approvals := row₀.approvals ++ [approver] } = row :=
              Option.some.inj hrow
            simp [nextState, findBylaws, hsame, ← hrow', stamp]
        | ratified => exact absurd rfl hother
    | pending =>
        cases other with
        | proposed =>
            have hsame : s.bylaws.ratified = some row := hrow
            simp [nextState, findBylaws, hsame]
        | pending => exact absurd rfl hne
        | ratified => exact absurd rfl hother
    | ratified => exact absurd rfl hstate

/-- The pending and the ratified text stay the same in every call but an approval. -/
theorem stamp_exec {call : Call} {s s' : State} (currentState : BylawsType)
    (hstate : currentState ≠ .ratified) (hgoes : uninterrupted call = true)
    (hexec : exec p env s call = .ok s') (hsteps : Steps p call s s')
    (hother : ∀ approver bylawsHash, call ≠ .action (approval currentState approver bylawsHash))
    {row : Bylaws} (hrow : findBylaws s'.bylaws (nextState currentState) = some row) :
    (findBylaws s.bylaws (nextState currentState)).map stamp = some (stamp row) := by
  have hsame : touchesBylaws call = false →
      (findBylaws s.bylaws (nextState currentState)).map stamp = some (stamp row) := by
    intro hcall
    have hbylaws := (steps_unmoved hsteps hcall).bylaws
    exact stamp_of_same currentState (by rw [hbylaws]) (by rw [hbylaws]) hrow
  cases call with
  | action action =>
      cases action with
      | electprocess n =>
          have hboard := stamp_newBoard s.bylaws
          cases steps_processed hsteps with
          | stays hbylaws =>
              exact stamp_of_same currentState (by rw [hbylaws]) (by rw [hbylaws]) hrow
          | begins _ hbylaws =>
              rw [hbylaws] at hrow
              exact stamp_of_same currentState hboard.1 hboard.2 hrow
          | ends _ _ hbylaws =>
              exact stamp_of_same currentState (by rw [hbylaws]) (by rw [hbylaws]) hrow
          | completes _ hbylaws =>
              rw [hbylaws] at hrow
              exact stamp_of_same currentState hboard.1 hboard.2 hrow
      | resign account =>
          rw [(resign_bylaws hexec).2.1] at hrow
          have hmap := stamp_mapApprovals s.bylaws fun approvals => approvals.erase account
          exact stamp_of_same currentState hmap.1 hmap.2 hrow
      | rename account newAccount =>
          rw [(rename_bylaws hexec).2.2.2.1] at hrow
          have hmap := stamp_mapApprovals s.bylaws fun approvals =>
            approvals.map fun a => if a = account then newAccount else a
          exact stamp_of_same currentState hmap.1 hmap.2 hrow
      | bylawspropose proposer text =>
          have hbylaws := (bylawspropose_bylaws hexec).2.2.1
          exact stamp_of_same currentState (by rw [hbylaws]) (by rw [hbylaws]) hrow
      | bylawsapprove approver bylawsHash =>
          refine stamp_approval .proposed hstate (by simp) ?_ hexec hrow
          rintro rfl
          exact hother approver bylawsHash rfl
      | bylawsratify approver bylawsHash =>
          refine stamp_approval .pending hstate (by simp) ?_ hexec hrow
          rintro rfl
          exact hother approver bylawsHash rfl
      | clearall => exact absurd hgoes (by simp [uninterrupted])
      | _ => exact hsame rfl
  | _ => exact hsame rfl

theorem promotes_exec {a : Approvals} {call : Call} {s s' : State} (hs : Backed p a s)
    (currentState : BylawsType) (hstate : currentState ≠ .ratified)
    (hgoes : uninterrupted call = true) (hexec : exec p env s call = .ok s')
    (hsteps : Steps p call s s') {row : Bylaws}
    (h : Promotes currentState ⟨s, (env, call), s'⟩ row) :
    PromotedByBoard p a currentState ⟨s, (env, call), s'⟩ row := by
  obtain ⟨hrow, hnew⟩ := h
  by_cases hother : ∀ approver bylawsHash,
      call ≠ .action (approval currentState approver bylawsHash)
  · rcases hnew with hnew | ⟨⟨approver, bylawsHash, hcall⟩, _⟩
    · exact absurd (stamp_exec currentState hstate hgoes hexec hsteps hother hrow) hnew
    · exact absurd hcall (hother approver bylawsHash)
  · push Not at hother
    obtain ⟨approver, bylawsHash, rfl⟩ := hother
    obtain ⟨happrove, _, _⟩ := approve_bylaws currentState hstate hexec
    obtain ⟨row₀, r, hrow₀, hhash, hr, ⟨time, htime, _⟩, happrover, hboard, hninety, hcases⟩ :=
      approve_eq_ok happrove
    have hsupported : Supported p (some r) (a.of currentState) row₀ := by
      rw [← hr]
      cases currentState with
      | proposed => exact hs.proposed row₀ hrow₀
      | pending => exact hs.pending row₀ hrow₀
      | ratified => exact absurd rfl hstate
    rcases hcases with ⟨hlength, heq⟩ | ⟨_, heq⟩
    · have htext : row = ⟨row₀.text, s.now, []⟩ := by
        rw [show _ = putBylaws _ _ _ from heq] at hrow
        cases currentState with
        | proposed => exact (Option.some.inj hrow).symm
        | pending => exact (Option.some.inj hrow).symm
        | ratified => exact absurd rfl hstate
      refine ⟨approver, bylawsHash, row₀, r, rfl, hrow₀, by rw [htext], hr, ?_, ?_⟩
      · rw [htext]
        exact hsupported.quorum happrover hboard hhash hlength
      · intro hpending
        subst hpending
        refine ⟨row₀.time, hs.since row₀ hrow₀, ?_⟩
        rw [hs.chosen (phase_of_next htime), ← hs.started r hr]
        exact hninety rfl
    · exfalso
      rcases hnew with hnew | ⟨_, hgone⟩
      · apply hnew
        rw [show _ = putBylaws _ _ _ from heq] at hrow
        cases currentState with
        | proposed =>
            have hsame : s.bylaws.pending = some row := hrow
            simp [nextState, findBylaws, hsame]
        | pending =>
            have hsame : s.bylaws.ratified = some row := hrow
            simp [nextState, findBylaws, hsame]
        | ratified => exact absurd rfl hstate
      · rw [show _ = putBylaws _ _ _ from heq] at hgone
        cases currentState with
        | proposed => exact absurd hgone (by simp [putBylaws, findBylaws])
        | pending => exact absurd hgone (by simp [putBylaws, findBylaws])
        | ratified => exact absurd rfl hstate

/-- A proposed text becomes pending, and a pending text is ratified, only with the approvals of two
thirds and one more of the board, given in that stage since the text was set and since the last
election started; and a ratified text had been pending for 90 days when the election started that
chose the board. -/
theorem bylaws_promotion {es : List Record} {s : State}
    (h : History p (fun _ call => uninterrupted call = true) es s) {es₁ es₂ : List Record}
    {e : Record} (hes : es = es₁ ++ e :: es₂) {currentState : BylawsType}
    (hstate : currentState ≠ .ratified) {row : Bylaws} (hrow : Promotes currentState e row) :
    PromotedByBoard p (approvals es₁) currentState e row := by
  refine history_entries (fun es s => Backed p (approvals es) s)
    (fun es e => ∀ row, Promotes currentState e row →
      PromotedByBoard p (approvals es) currentState e row) h ?_ ?_ ?_ es₁ e es₂ hes row hrow
  · intro s hs
    refine ⟨untouched_seated hs, ?_, ?_, ?_, ?_, ?_, fun _ => rfl⟩
    all_goals
      rw [hs.1]
      simp [collecting]
  · intro es s now _ _ hs
    exact hs.unmoved (hs.seated.at_time now) ⟨rfl, rfl, id⟩ id
  · intro es env call s s' hgoes hexec hsteps hs
    rw [approvals_append]
    exact ⟨backed_exec hs hgoes hexec hsteps,
      fun row hrow => promotes_exec hs currentState hstate hgoes hexec hsteps hrow⟩

/-- The board of the first election moves the text of alice on. It is ratified by the board of an
election more than 90 days later. -/
def firstBylaws : List Transaction :=
  let bylawsHash := host.sha256 (textBytes ['A'])
  firstElection ++
    [(1990000, [(signedBy alice, .action (.bylawspropose alice.name ['A'])),
        (signedBy alice, .action (.bylawsapprove alice.name bylawsHash)),
        (signedBy bob, .action (.bylawsapprove bob.name bylawsHash))]),
      (1990010, [(signedBy contractSigner, .action (.electsettime 955484800)),
        (signedBy alice, .action (.electopt alice.name true)),
        (signedBy bob, .action (.electopt bob.name true))]),
      (17500000, [(signedBy alice, .action (.electseed (headerAt 955400000)))]),
      (17600000, [(signedBy alice, .action (.electprocess 100))]),
      (17600010, [(signedBy alice, .action (.bylawsratify alice.name bylawsHash)),
        (signedBy bob, .action (.bylawsratify bob.name bylawsHash))])]

theorem first_bylaws_promoted :
    ∃ es e s row, traceFromGenesis host (fun _ call => uninterrupted call = true) firstBylaws =
        some (es ++ [e], s) ∧ BylawsType.pending ≠ .ratified ∧ Promotes .pending e row ∧
      PromotedByBoard host (approvals es) .pending e row := by
  have hrun : (traceFromGenesis host (fun _ call => uninterrupted call = true) firstBylaws).any
      (fun result => result.1.getLast?.any fun e =>
        e.before.bylaws.ratified.isNone && e.after.bylaws.ratified.isSome) = true := by
    decide +kernel
  obtain ⟨⟨es, s⟩, htrace, hlast⟩ := (Option.any_eq_true _ _).mp hrun
  obtain ⟨e, he, hstate⟩ := (Option.any_eq_true _ _).mp hlast
  simp only [Bool.and_eq_true, Option.isNone_iff_eq_none, Option.isSome_iff_exists] at hstate
  obtain ⟨hbefore, row, hafter⟩ := hstate
  obtain ⟨es₁, rfl⟩ := List.getLast?_eq_some_iff.mp he
  have hpromotes : Promotes .pending e row := by
    refine ⟨hafter, .inl ?_⟩
    simp [nextState, findBylaws, hbefore]
  exact ⟨es₁, e, s, row, htrace, by simp, hpromotes,
    bylaws_promotion (history_of_trace htrace) rfl (by simp) hpromotes⟩

end Eden.BylawsPromotion
