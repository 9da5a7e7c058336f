import Eden.Transactions

/-!
What the functions of the contract add to its output: events, and actions of other contracts. Most
functions leave the distributions alone and push events about one topic only.
-/

namespace Eden.EmittedEvents

open Eden.ExceptReasoning
open Eden.SortedTable
open Eden.ChainPrimitives
open Eden.ElectionPlan
open Eden.ContractState
open Eden.Runtime
open Eden.MemberTable
open Eden.ElectionRounds
open Eden.ElectionPhases
open Eden.InductionTables
open Eden.Maintenance
open Eden.ContractActions
open Eden.Transactions

inductive Topic
  | election
  | distribution
  | session
  | migration
  deriving DecidableEq

def topic : Event → Topic
  | .electionSchedule .. => .election
  | .electionBegin .. => .election
  | .electionSeeding .. => .election
  | .electionEndSeeding .. => .election
  | .electionConfigSummary .. => .election
  | .electionCreateRound .. => .election
  | .electionCreateGroup .. => .election
  | .electionBeginRoundVoting .. => .election
  | .electionEndRoundVoting .. => .election
  | .electionReportGroup .. => .election
  | .electionEndRound .. => .election
  | .electionEnd .. => .election
  | .setPool .. => .distribution
  | .distributionSchedule .. => .distribution
  | .distributionReserve .. => .distribution
  | .distributionBegin .. => .distribution
  | .distributionReturnExcess .. => .distribution
  | .distributionFund .. => .distribution
  | .distributionEnd .. => .distribution
  | .distributionReturn .. => .distribution
  | .migration .. => .migration
  | .sessionNew .. => .session
  | .sessionDel .. => .session

/-- An output that has grown by events that satisfy a predicate, and by actions of other
contracts. -/
inductive Pushes (p : Platform) (P : Event → Prop) (o : Output) : Output → Prop
  | refl : Pushes p P o o
  | event {o' : Output} {e : Event} : Pushes p P o o' → P e → Pushes p P o (pushEvent p o' e)
  | external {o' : Output} {a : External} : Pushes p P o o' → Pushes p P o (sendAction o' a)

variable {p : Platform} {P Q : Event → Prop}

namespace Pushes

theorem trans {o₁ o₂ o₃ : Output} (h₁ : Pushes p P o₁ o₂) (h₂ : Pushes p P o₂ o₃) :
    Pushes p P o₁ o₃ := by
  induction h₂ with
  | refl => exact h₁
  | event _ he ih => exact ih.event he
  | external _ ih => exact ih.external

theorem mono {o o' : Output} (hPQ : ∀ e, P e → Q e) (h : Pushes p P o o') : Pushes p Q o o' := by
  induction h with
  | refl => exact .refl
  | event _ he ih => exact ih.event (hPQ _ he)
  | external _ ih => exact ih.external

/-- Events pushed one after the other. -/
theorem foldl {α : Type} {f : α → Event} {l : List α} (hf : ∀ a ∈ l, P (f a)) (o : Output) :
    Pushes p P o (l.foldl (fun out a => pushEvent p out (f a)) o) := by
  induction l generalizing o with
  | nil => exact .refl
  | cons a l ih =>
      have hfirst : Pushes p P o (pushEvent p o (f a)) := .event .refl (hf a List.mem_cons_self)
      exact hfirst.trans (ih (fun b hb => hf b (List.mem_cons_of_mem a hb)) _)

theorem executed_sendEvents (o : Output) : o.executed <+: (sendEvents o).executed := by
  unfold sendEvents
  split
  · exact List.prefix_refl _
  · exact List.prefix_append _ _

theorem executed {o o' : Output} (h : Pushes p P o o') : o.executed <+: o'.executed := by
  induction h with
  | refl => exact List.prefix_refl _
  | event _ _ ih =>
      refine ih.trans ?_
      simp only [pushEvent]
      split
      · exact executed_sendEvents _
      · exact List.prefix_refl _
  | external _ ih => exact ih.trans (List.prefix_append _ _)

/-- The trace has grown by the events. -/
theorem trace {o o' : Output} (h : Pushes p P o o') :
    ∃ es : List Event, Runtime.trace o' = Runtime.trace o ++ es.map (fun e => .events [e]) ∧
      ∀ e ∈ es, P e := by
  induction h with
  | refl => exact ⟨[], by simp⟩
  | event _ he ih =>
      obtain ⟨es, htrace, hall⟩ := ih
      refine ⟨es ++ [_], ?_, List.forall_mem_append.mpr ⟨hall, List.forall_mem_singleton.mpr he⟩⟩
      rw [trace_pushEvent, htrace]
      simp
  | external _ ih => simpa using ih

end Pushes

/-- A part of a call that leaves the distributions alone and pushes certain events. -/
structure Emits (p : Platform) (P : Event → Prop) (s s' : State) : Prop where
  output : Pushes p P s.output s'.output
  distributions : s'.distributions = s.distributions

namespace Emits

theorem refl (s : State) : Emits p P s s := ⟨.refl, rfl⟩

/-- Other parts of the state are free to change. -/
theorem of_eq {s s' : State} (houtput : s'.output = s.output)
    (hdistributions : s'.distributions = s.distributions) : Emits p P s s' :=
  ⟨houtput ▸ .refl, hdistributions⟩

theorem trans {s₁ s₂ s₃ : State} (h₁ : Emits p P s₁ s₂) (h₂ : Emits p P s₂ s₃) :
    Emits p P s₁ s₃ :=
  ⟨h₁.output.trans h₂.output, h₂.distributions.trans h₁.distributions⟩

/-- What leads up to a part may change the rest of the state. -/
theorem after {s t s' : State} (h : Emits p P t s') (houtput : t.output = s.output)
    (hdistributions : t.distributions = s.distributions) : Emits p P s s' :=
  (of_eq houtput hdistributions).trans h

theorem mono {s s' : State} (hPQ : ∀ e, P e → Q e) (h : Emits p P s s') : Emits p Q s s' :=
  ⟨h.output.mono hPQ, h.distributions⟩

theorem emit (s : State) {e : Event} (he : P e) : Emits p P s (Runtime.emit p s e) :=
  ⟨.event .refl he, rfl⟩

theorem perform (s : State) (a : External) : Emits p P s (Runtime.perform s a) :=
  ⟨.external .refl, rfl⟩

/-- Parts of a call one after the other. -/
theorem foldlM {α : Type} {f : State → α → Outcome State}
    (hf : ∀ s a s', f s a = .ok s' → Emits p P s s') (l : List α) {s s' : State}
    (h : l.foldlM f s = .ok s') : Emits p P s s' :=
  foldlM_preserves (fun t => Emits p P s t) (fun _ _ _ hstep ht => ht.trans (hf _ _ _ hstep)) l h
    (refl s)

end Emits

def isSession (e : Event) : Prop := topic e = .session

def isElection (e : Event) : Prop := topic e = .election

def isMigration (e : Event) : Prop := topic e = .migration

/-! ### Members and sessions -/

theorem pushes_sessionDel (account : Name) (sessions : List Session) (o : Output) :
    Pushes p isSession o
      (sessions.foldl (fun out session => pushEvent p out (.sessionDel account session.key)) o) :=
  .foldl (f := fun session : Session => .sessionDel account session.key) (fun _ _ => rfl) o

theorem emits_removeSessions (s : State) (account : Name) :
    Emits p isSession s (removeSessions p s account) := by
  unfold removeSessions
  split
  · exact .refl s
  · exact ⟨pushes_sessionDel _ _ _, rfl⟩

theorem emits_gcSessions (n : Nat) (s : State) :
    Emits p isSession s (gcSessions p n s).2 := by
  induction n generalizing s with
  | zero => exact .refl s
  | succ n ih =>
      unfold gcSessions
      split
      · exact .refl s
      · split
        · refine Emits.trans ?_ (ih _)
          exact ⟨pushes_sessionDel _ _ _, rfl⟩
        · exact .refl s

theorem emits_remove {s s' : State} {account : Name} (h : remove p s account = .ok s') :
    Emits p isSession s s' := by
  simp only [remove, eraseMember, bind_eq_ok, pure_eq_ok] at h
  obtain ⟨member, -, stats, -, rfl⟩ := h
  exact (emits_removeSessions s member.account).trans (.of_eq rfl rfl)

theorem emits_removeIfPending {s s' : State} {account : Name}
    (h : removeIfPending p s account = .ok s') : Emits p isSession s s' := by
  simp only [removeIfPending, bind_eq_ok] at h
  obtain ⟨member, -, h⟩ := h
  split at h
  · simp only [bind_eq_ok, pure_eq_ok] at h
    obtain ⟨-, -, rfl⟩ := h
    exact (emits_removeSessions s account).trans (.of_eq rfl rfl)
  · cases h
    exact .refl s

theorem emits_rename {s s' : State} {account newAccount : Name}
    (h : MemberTable.rename p s account newAccount = .ok s') : Emits p isSession s s' := by
  simp only [MemberTable.rename, bind_eq_ok, pure_eq_ok] at h
  obtain ⟨member, -, table, -, rfl⟩ := h
  exact (emits_removeSessions s account).trans (.of_eq rfl rfl)

theorem emits_maybeActivateContract {s s' : State} (h : maybeActivateContract s = .ok s') :
    Emits p P s s' := by
  simp only [maybeActivateContract, bind_eq_ok] at h
  obtain ⟨g, -, h⟩ := h
  split at h
  · cases h
    have hlocks : ∀ (l : List Member) (t : State), Emits p P t
        (l.foldl (fun s member => perform s (.locktemplate member.nftTemplateId)) t) := by
      intro l
      induction l with
      | nil => exact .refl
      | cons member l ih => exact fun t => (Emits.perform t _).trans (ih _)
    exact (hlocks _ _).after rfl rfl
  · cases h
    exact .refl s

/-! ### Elections -/

theorem emits_election (s : State) {e : Event} (he : topic e = .election) :
    Emits p isElection s (emit p s e) := Emits.emit s he

theorem pushes_reportGroups {electionTime round : Nat} {config : RoundConfig} {votes : List Vote}
    {maxSteps nextReportIndex : Nat} {o : Output} {r : Nat × Nat × Output}
    (h : reportGroups p electionTime round config maxSteps votes nextReportIndex o = .ok r) :
    Pushes p isElection o r.2.2 := by
  induction maxSteps generalizing votes nextReportIndex o with
  | zero =>
      cases h
      exact .refl
  | succ maxSteps ih =>
      cases votes with
      | nil =>
          cases h
          exact .refl
      | cons v rest =>
          simp only [reportGroups, bind_eq_ok] at h
          obtain ⟨-, -, h⟩ := h
          refine Pushes.trans ?_ (ih h)
          exact .event .refl rfl

theorem pushes_finishGroup {electionTime : Nat} {b : Ballot} {data : PostRound}
    {group : List Vote} {r : Ballot × PostRound}
    (h : finishGroup p electionTime b data group = .ok r) :
    Pushes p isElection b.output r.1.output := by
  simp only [finishGroup, bind_eq_ok, pure_eq_ok] at h
  obtain ⟨votes, -, members, -, rfl⟩ := h
  exact .event .refl rfl

theorem pushes_finishGroups {electionTime maxSteps : Nat} {votes : List Vote} {b : Ballot}
    {data : PostRound} {r : Nat × Ballot × PostRound}
    (h : finishGroups p electionTime maxSteps votes b data = .ok r) :
    Pushes p isElection b.output r.2.1.output := by
  induction maxSteps generalizing votes b data with
  | zero =>
      cases h
      exact .refl
  | succ maxSteps ih =>
      cases votes with
      | nil =>
          cases h
          exact .refl
      | cons v rest =>
          simp only [finishGroups, bind_eq_ok] at h
          obtain ⟨-, -, ⟨b', data'⟩, hgroup, h⟩ := h
          exact (pushes_finishGroup hgroup).trans (ih h)

theorem emits_setStateSing {s s' : State} {newValue : ElectionState}
    (h : setStateSing p s newValue = .ok s') : Emits p isElection s s' := by
  unfold setStateSing at h
  split at h
  · cases h
    exact .refl s
  · simp only [bind_eq_ok, pure_eq_ok] at h
    obtain ⟨event, hevent, rfl⟩ := h
    cases event with
    | none => exact .of_eq rfl rfl
    | some e =>
        refine Emits.trans (Emits.emit s (e := e) ?_) (.of_eq rfl rfl)
        unfold stateEvent at hevent
        split at hevent
        · cases hevent
          rfl
        · cases hevent
          rfl
        · simp only [bind_eq_ok, pure_eq_ok] at hevent
          obtain ⟨results, -, hevent⟩ := hevent
          cases hevent
          rfl
        · cases hevent

theorem emits_setDefaultElection {s s' : State} {originTime : Nat}
    (h : setDefaultElection p s originTime = .ok s') : Emits p isElection s s' := by
  simp only [setDefaultElection, bind_eq_ok] at h
  obtain ⟨g, -, h⟩ := h
  exact emits_setStateSing h

theorem emits_triggerElection {s s' : State} (h : triggerElection p s = .ok s') :
    Emits p isElection s s' := by
  simp only [triggerElection, bind_eq_ok] at h
  obtain ⟨g, -, h⟩ := h
  split at h
  · exact emits_setStateSing h
  · simp only [bind_eq_ok] at h
    obtain ⟨state, -, h⟩ := h
    split at h
    · split at h
      · simp only [bind_eq_ok] at h
        obtain ⟨sequence, -, h⟩ := h
        exact emits_setStateSing h
      · cases h
        exact .refl s
    · cases h
      exact .refl s

theorem emits_setNextElectionTime {s s' : State} {electionTime : Int}
    (h : setNextElectionTime p s electionTime = .ok s') : Emits p isElection s s' := by
  simp only [setNextElectionTime, bind_eq_ok] at h
  obtain ⟨-, -, sequence, -, h⟩ := h
  exact emits_setStateSing h

theorem emits_setTime {s s' : State} {day : Nat} {time : Text}
    (h : setTime p s day time = .ok s') : Emits p isElection s s' := by
  simp only [setTime, bind_eq_ok] at h
  obtain ⟨g, -, ⟨hours, minutes⟩, -, -, -, -, -, -, -, h⟩ := h
  split at h
  · exact (emits_setDefaultElection h).after rfl rfl
  · exact (emits_triggerElection h).after rfl rfl
  · cases h
    exact .of_eq rfl rfl

theorem emits_seed {s s' : State} {btcHeader : Bytes} (h : seed p s btcHeader = .ok s') :
    Emits p isElection s s' := by
  simp only [seed, bind_eq_ok] at h
  obtain ⟨-, -, state, -, h⟩ := h
  split at h
  · simp only [bind_eq_ok] at h
    obtain ⟨-, -, seeder, -, h⟩ := h
    exact (emits_election s rfl).trans (emits_setStateSing h)
  · simp only [bind_eq_ok] at h
    obtain ⟨seeder, -, h⟩ := h
    exact emits_setStateSing h
  · simp only [bind_eq_ok] at h
    obtain ⟨seeder, -, h⟩ := h
    exact emits_setStateSing h
  · cases h

theorem emits_setBoardPermission (s : State) (board : List Name) :
    Emits p P s (setBoardPermission p s board) :=
  (Emits.perform s _).trans (Emits.perform _ _)

theorem emits_extractBoard {s : State} {r : State × List Name} (h : extractBoard s = .ok r) :
    Emits p P s r.1 := by
  simp only [extractBoard, bind_eq_ok, pure_eq_ok] at h
  obtain ⟨-, -, -, -, rfl⟩ := h
  exact .of_eq rfl rfl

theorem emits_endEvents (electionTime round : Nat) (board : List Name) (winner : Name)
    (s : State) :
    Emits p isElection s ((endEvents electionTime round board winner).foldl (emit p) s) := by
  have hfold : ∀ (l : List Event), (∀ e ∈ l, isElection e) → ∀ t : State,
      Emits p isElection t (l.foldl (emit p) t) := by
    intro l
    induction l with
    | nil => exact fun _ t => .refl t
    | cons e l ih =>
        intro hl t
        exact (Emits.emit t (hl e List.mem_cons_self)).trans
          (ih (fun e' he' => hl e' (List.mem_cons_of_mem e he')) _)
  refine hfold _ ?_ s
  intro e he
  unfold endEvents at he
  split at he
  · simp only [List.nil_append, List.mem_cons, List.not_mem_nil, or_false] at he
    rcases he with rfl | rfl | rfl | rfl <;> rfl
  · simp only [List.singleton_append, List.mem_cons, List.not_mem_nil, or_false] at he
    rcases he with rfl | rfl | rfl | rfl | rfl <;> rfl

theorem emits_reportRound {s : State} {electionTime round : Nat} {config : RoundConfig}
    {maxSteps nextReportIndex : Nat} {r : Nat × Nat × State}
    (h : reportRound p s electionTime round config maxSteps nextReportIndex = .ok r) :
    Emits p isElection s r.2.2 := by
  simp only [reportRound, bind_eq_ok, pure_eq_ok] at h
  obtain ⟨⟨remaining, next, o⟩, hreport, rfl⟩ := h
  exact ⟨pushes_reportGroups hreport, rfl⟩

theorem emits_announceElection (s : State) (electionTime numRounds : Nat) (config : RoundConfig) :
    Emits p isElection s (announceElection p s electionTime numRounds config) :=
  (emits_election s rfl).trans (emits_election _ rfl)

theorem emits_announceRound (s : State) (electionTime prevRound : Nat) (configs : ElectionConfig)
    (config : RoundConfig) :
    Emits p isElection s (announceRound p s electionTime prevRound configs config) :=
  (emits_election s rfl).trans (emits_election _ rfl)

theorem emits_beginRound {s : State} {electionTime : Nat} {data : PostRound} {maxSteps : Nat}
    {r : State × Nat} (h : beginRound p s electionTime data maxSteps = .ok r) :
    Emits p isElection s r.1 := by
  simp only [beginRound, bind_eq_ok] at h
  obtain ⟨g, -, configs, -, config, -, ⟨remaining, next, t⟩, hreport, h⟩ := h
  have hannounced : Emits p isElection s (if data.nextReportIndex = 0 then
      announceRound p s electionTime data.prevRound configs config else s) := by
    split
    · exact emits_announceRound s electionTime data.prevRound configs config
    · exact .refl s
  have hreported := hannounced.trans (emits_reportRound hreport)
  split at h
  · simp only [bind_eq_ok, pure_eq_ok] at h
    obtain ⟨u, hu, rfl⟩ := h
    exact hreported.trans (emits_setStateSing hu)
  · simp only [bind_eq_ok, pure_eq_ok] at h
    obtain ⟨u, hu, rfl⟩ := h
    exact (hreported.trans (emits_election t rfl)).trans (emits_setStateSing hu)

theorem emits_finishPostRound {s : State} {electionTime : Nat} {data : PostRound} {maxSteps : Nat}
    {r : State × Nat} (h : finishPostRound p s electionTime data maxSteps = .ok r) :
    Emits p isElection s r.1 := by
  simp only [finishPostRound, bind_eq_ok] at h
  obtain ⟨⟨remaining, b, data'⟩, hgroups, h⟩ := h
  have hfinished : Emits p isElection s (withBallot s b) := ⟨pushes_finishGroups hgroups, rfl⟩
  split at h
  · simp only [bind_eq_ok, pure_eq_ok] at h
    obtain ⟨u, hu, rfl⟩ := h
    exact hfinished.trans (emits_setStateSing hu)
  · exact hfinished.trans (emits_beginRound h)

theorem emits_removeFromBoard (s : State) (member : Name) :
    Emits p P s (removeFromBoard p s member).1 := by
  unfold removeFromBoard
  split
  · exact .refl s
  · simp only []
    split
    · exact (emits_setBoardPermission _ _).after rfl rfl
    · exact .refl s

theorem emits_electionsOnResign {s s' : State} {member : Name}
    (h : electionsOnResign p s member = .ok s') : Emits p isElection s s' := by
  simp only [electionsOnResign, bind_eq_ok] at h
  obtain ⟨-, -, h⟩ := h
  split at h
  · exact (emits_removeFromBoard s member).trans (emits_triggerElection h)
  · cases h
    exact emits_removeFromBoard s member

theorem emits_electionsOnRename {s s' : State} {oldAccount newAccount : Name}
    (h : electionsOnRename p s oldAccount newAccount = .ok s') : Emits p P s s' := by
  simp only [electionsOnRename, bind_eq_ok] at h
  obtain ⟨-, -, h⟩ := h
  split at h
  · cases h
    exact .refl s
  · cases h
    split
    · exact (emits_setBoardPermission _ _).after rfl rfl
    · exact .of_eq rfl rfl

/-! ### Inductions, auctions and migrations -/

theorem emits_notifyLogmint {s s' : State} {assetId : Nat}
    {authorizedMinter collectionName schemaName newAssetOwner : Name} {account : Option Text}
    (h : notifyLogmint p s assetId authorizedMinter collectionName schemaName newAssetOwner
      account = .ok s') : Emits p P s s' := by
  unfold notifyLogmint at h
  split at h
  · cases h
    exact .refl s
  · simp only [startAuction, bind_eq_ok, pure_eq_ok] at h
    obtain ⟨-, -, -, -, -, -, account, -, invitee, -, g, -, row, -, auctions, -, rfl⟩ := h
    exact ((Emits.perform s _).trans (Emits.perform _ _)).trans (.of_eq rfl rfl)

theorem emits_mintNft {s s' : State} {templateId : Int} {account : Text} {assetId : Nat}
    {newAssetOwner : Name} (h : mintNft p s templateId account assetId newAssetOwner = .ok s') :
    Emits p P s s' :=
  (Emits.perform s _).trans (emits_notifyLogmint h)

theorem emits_notifyLognewtempl {env : Env} {s s' : State} {templateId : Int}
    {authorizedCreator collectionName schemaName : Name} {account : Option Text}
    (h : notifyLognewtempl p env s templateId authorizedCreator collectionName schemaName
      account = .ok s') : Emits p P s s' := by
  simp only [notifyLognewtempl, bind_eq_ok] at h
  obtain ⟨-, -, -, -, -, -, account, -, invitee, -, g, -, induction, -, members, -, h⟩ := h
  exact (Emits.foldlM (fun _ _ _ hmint => emits_mintNft hmint) _ h).after rfl rfl

theorem emits_createTemplate {env : Env} {g : Globals} {s s' : State} {induction : Induction}
    (h : createTemplate p env g s induction = .ok s') : Emits p P s s' :=
  (Emits.perform s _).trans (emits_notifyLognewtempl h)

theorem emits_checkThreshold {s s' : State} (h : checkThreshold p s = .ok s') :
    Emits p isElection s s' := by
  unfold checkThreshold at h
  split at h
  · split at h
    · exact emits_triggerElection h
    · cases h
      exact .refl s
  · cases h
    exact .refl s

theorem emits_inducted {env : Env} {s s' : State} {inductee : Name}
    (h : inducted p env s inductee = .ok s') : Emits p isElection s s' := by
  simp only [inducted, bind_eq_ok] at h
  obtain ⟨-, -, g, -, induction, -, members, -, t, -, u, hactivate, h⟩ := h
  have hactivated : Emits p isElection s u := (emits_maybeActivateContract hactivate).after rfl rfl
  exact hactivated.trans (emits_checkThreshold h)

theorem emits_finishAuctions {env : Env} {s : State} {maxSteps : Nat} {r : Nat × State}
    (h : finishAuctions p env s maxSteps = .ok r) : Emits p P s r.2 := by
  have hone : ∀ {auction : Auction} {s s' : State}, finishAuction p env s auction = .ok s' →
      Emits p P s s' := by
    intro auction s s' h
    simp only [finishAuction, bind_eq_ok] at h
    obtain ⟨found, -, h⟩ := h
    split at h
    · cases h
      exact .of_eq rfl rfl
    · split at h
      · cases h
        exact .of_eq rfl rfl
      · split at h
        · split at h
          · cases h
            exact (Emits.perform _ _).after rfl rfl
          · cases h
            exact (Emits.perform _ _).after rfl rfl
        · cases h
          exact .of_eq rfl rfl
  have hall : ∀ {l : List Auction} {n : Nat} {s : State} {r : Nat × State},
      finishAuctionsFrom p env l n s = .ok r → Emits p P s r.2 := by
    intro l
    induction l with
    | nil =>
        intro n s r h
        cases h
        exact .refl s
    | cons auction l ih =>
        intro n s r h
        cases n with
        | zero =>
            cases h
            exact .refl s
        | succ n =>
            unfold finishAuctionsFrom at h
            split at h
            · obtain ⟨t, ht, h⟩ := bind_eq_ok.mp h
              exact (hone ht).trans (ih h)
            · cases h
              exact .refl s
  exact hall h

theorem emits_migrateStage {env : Env} {s s' : State} {maxSteps remaining : Nat}
    {m m' : Migration} (h : migrateStage p env s maxSteps m = .ok (remaining, m', s')) :
    Emits p P s s' := by
  unfold migrateStage at h
  split at h
  · simp only [bind_eq_ok, pure_eq_ok, Prod.mk.injEq] at h
    obtain ⟨g, -, ⟨steps, last, t⟩, ht, -, -, rfl⟩ := h
    obtain ⟨auctions, rfl⟩ := migrateAuctions_eq_ok ht
    exact .of_eq rfl rfl
  · simp only [migrateAccounts, bind_eq_ok] at h
    obtain ⟨g, -, total, -, ⟨steps, last, total'⟩, -, h⟩ := h
    split at h
    · cases h
      exact .refl s
    · simp only [bind_eq_ok, pure_eq_ok, Prod.mk.injEq] at h
      obtain ⟨⟨steps', t⟩, ht, -, -, rfl⟩ := h
      obtain ⟨owned, -, rfl⟩ := migrateMaster_eq_ok ht
      exact .of_eq rfl rfl
  · cases h
    exact .of_eq rfl rfl
  · cases h
    exact .refl s

theorem emits_migrateFrom {env : Env} {fuel : Nat} {s : State} {maxSteps : Nat} {m : Migration}
    {r : Nat × State} (h : migrateFrom p env fuel s maxSteps m = .ok r) :
    Emits p isMigration s r.2 := by
  induction fuel generalizing s maxSteps m with
  | zero =>
      cases h
      exact .of_eq rfl rfl
  | succ fuel ih =>
      unfold migrateFrom at h
      split at h
      · cases h
        exact .of_eq rfl rfl
      · obtain ⟨⟨remaining, m', t⟩, hstage, h⟩ := bind_eq_ok.mp h
        have hmigrated : Emits p isMigration s t := emits_migrateStage hstage
        dsimp only at h
        split at h
        · exact hmigrated.trans (ih h)
        · have hemitted : Emits p isMigration t (emit p t (.migration (migrationIndex m))) :=
            Emits.emit t rfl
          exact (hmigrated.trans hemitted).trans (ih h)

end Eden.EmittedEvents
