import Eden.InductionChanges
import Eden.MemberStatistics

/-!
What calls do to the status of members and to inductions, in steps that leave everything in order.
-/

namespace Eden.InductionSteps

open Eden.ExceptReasoning
open Eden.SortedTable
open Eden.ChainPrimitives
open Eden.ContractState
open Eden.Runtime
open Eden.MemberTable
open Eden.DistributionTables
open Eden.ElectionRounds
open Eden.ElectionPhases
open Eden.InductionTables
open Eden.InductionChanges
open Eden.Maintenance
open Eden.ContractActions
open Eden.Transactions
open Eden.ContractSteps
open Eden.ActionSteps
open Eden.Electorate
open Eden.MemberStatistics

variable {p : Platform} {env : Env} {call : Call}

def stageOf (s : State) : Option ContractStage := s.globals.map Globals.stage

/-- The status of an account. -/
def status (s : State) (account : Name) : Option MemberStatus := statusOf s.members.table account

/-- Two states that agree on the stage, the status of members and the inductions. -/
structure SameRoll (s s' : State) : Prop where
  stage : stageOf s' = stageOf s
  status : ∀ a, status s' a = status s a
  inductions : s'.inductions.inductions = s.inductions.inductions
  endorsements : s'.inductions.endorsements = s.inductions.endorsements
  endorsed : s'.inductions.endorsed = s.inductions.endorsed
  queue : s'.inductions.gc = s.inductions.gc

theorem SameRoll.refl (s : State) : SameRoll s s := ⟨rfl, fun _ => rfl, rfl, rfl, rfl, rfl⟩

theorem SameRoll.trans {s₁ s₂ s₃ : State} (h : SameRoll s₁ s₂) (h' : SameRoll s₂ s₃) :
    SameRoll s₁ s₃ :=
  ⟨h'.stage.trans h.stage, fun a => (h'.status a).trans (h.status a),
    h'.inductions.trans h.inductions, h'.endorsements.trans h.endorsements,
    h'.endorsed.trans h.endorsed, h'.queue.trans h.queue⟩

/-- A new induction with endorsements that are not given yet. -/
def Opens (t t' : Inductions) (i : Induction) (endorsers : List Name) : Prop :=
  t.inductions.find? i.id = none ∧
    ∃ table : Table Induction.id, (∀ j, j ∈ table.rows ↔ j = i ∨ j ∈ t.inductions.rows) ∧
      Adds { t with inductions := table } t' i.id false endorsers

/-- What an induction is for. -/
def invitation (i : Induction) : Nat × Name := (i.id, i.invitee)

/-- The inductions are for the same invitees, and so are the endorsements. -/
structure Revised (t t' : Inductions) : Prop where
  rows : t'.inductions.rows.map invitation = t.inductions.rows.map invitation
  endorsements : ∀ e ∈ t'.endorsements.rows,
    (∃ d ∈ t.endorsements.rows, d.inductionId = e.inductionId) ∨
      t.inductions.find? e.inductionId ≠ none
  endorsed : t'.endorsed = t.endorsed
  queue : t'.gc = t.gc

/-- The same induction with another profile or video. -/
def SameInvitation (i j : Induction) : Prop :=
  j.id = i.id ∧ j.inviter = i.inviter ∧ j.invitee = i.invitee

/-- The inductions of an invitee who has joined. -/
def joined (t : Inductions) (i : Induction) : Nat × Inductions :=
  eraseByInductee (eraseInduction t i) i.invitee maxGcOnInduction

/-- A step on the status of members and the inductions. -/
inductive RollStep : State → State → Prop
  | same {s s' : State} : SameRoll s s' → RollStep s s'
  | founds {s s' : State} :
      stageOf s = none → stageOf s' = some .genesis → (∀ a, status s' a = status s a) →
      s'.inductions = s.inductions → RollStep s s'
  | enters {s s' : State} {i : Induction} {endorsers : List Name} :
      stageOf s = some .genesis → stageOf s' = some .genesis → status s i.invitee = none →
      (∀ a, status s' a = if i.invitee = a then some .pendingMembership else status s a) →
      Opens s.inductions s'.inductions i endorsers → RollStep s s'
  | revises {s s' : State} :
      stageOf s = some .genesis → stageOf s' = some .genesis → (∀ a, status s' a = status s a) →
      Revised s.inductions s'.inductions → RollStep s s'
  | joins {s s' : State} {i : Induction} :
      stageOf s' = stageOf s → s.inductions.inductions.find? i.id = some i →
      status s i.invitee = some .pendingMembership →
      (∀ a, status s' a = if i.invitee = a then some .activeMember else status s a) →
      (((joined s.inductions i).1 = 0 ∧
          queueGc (joined s.inductions i).2 i.invitee = .ok s'.inductions) ∨
        ((joined s.inductions i).1 ≠ 0 ∧ s'.inductions = (joined s.inductions i).2)) →
      RollStep s s'
  | establishes {s s' : State} :
      stageOf s = some .genesis → stageOf s' = some .active →
      (∀ a, status s a ≠ some .pendingMembership) → (∀ a, status s' a = status s a) →
      s'.inductions = s.inductions → RollStep s s'
  | cancels {s s' : State} {i : Induction} :
      stageOf s' = stageOf s → s.inductions.inductions.find? i.id = some i →
      s'.inductions = eraseInduction s.inductions i →
      (∀ a, status s' a =
        if i.invitee = a ∧ hasInduction s'.inductions a = false ∧
          status s a = some .pendingMembership then none else status s a) →
      RollStep s s'
  | collects {s s' : State} {limit : Nat} :
      stageOf s' = stageOf s → s'.inductions = (gcInductions s.inductions s.now limit).2.2 →
      (∀ a, status s' a =
        if a ∈ (gcInductions s.inductions s.now limit).2.1 ∧
          status s a = some .pendingMembership then none else status s a) →
      RollStep s s'

abbrev RollSteps : State → State → Prop := Relation.ReflTransGen RollStep

theorem SameRoll.steps {s s' : State} (h : SameRoll s s') : RollSteps s s' :=
  .single (.same h)

/-- The step of a call that makes only one. -/
inductive SoleStep (p : Platform) : Call → State → State → Prop
  | invites {s s' : State} {i : Induction} {witnesses : List Name} :
      stageOf s = some .active → stageOf s' = some .active →
      (status s i.invitee = none ∨ status s i.invitee = some .pendingMembership) →
      (∀ a, status s' a = if i.invitee = a then some .pendingMembership else status s a) →
      2 ≤ witnesses.length → witnesses.length ≤ 5 →
      Opens s.inductions s'.inductions i (i.inviter :: witnesses).reverse →
      SoleStep p (.action (.inductinit i.id i.inviter i.invitee witnesses)) s s'
  /-- In genesis the contents are endorsed at once. -/
  | fills {s s' : State} {id : Nat} {profile : NewMemberProfile} :
      stageOf s = some .genesis → stageOf s' = some .genesis → (∀ a, status s' a = status s a) →
      Revised s.inductions s'.inductions →
      SoleStep p (.action (.inductprofil id profile)) s s'
  | edits {call : Call} {s s' : State} {i j : Induction} :
      ((∃ profile, call = .action (.inductprofil i.id profile)) ∨
        ∃ account video, call = .action (.inductvideo account i.id video)) →
      stageOf s = some .active → stageOf s' = some .active →
      (∀ a, status s' a = status s a) → s.inductions.inductions.find? i.id = some i →
      SameInvitation i j →
      s'.inductions = resetEndorsements
        { s.inductions with inductions := s.inductions.inductions.replace j } i.id →
      SoleStep p call s s'
  | attests {s s' : State} {i : Induction} {account : Name} {hash : Checksum} :
      stageOf s' = stageOf s → (∀ a, status s' a = status s a) →
      s.inductions.inductions.find? i.id = some i →
      endorse p s.inductions s.now i account hash = .ok s'.inductions →
      SoleStep p (.action (.inductendors account i.id hash)) s s'
  | renames {s s' : State} {account newAccount : Name} :
      status s account = some .activeMember → status s newAccount = none →
      (∀ a, status s' a = if account = a then none
        else if newAccount = a then some .activeMember else status s a) →
      stageOf s' = stageOf s →
      renameEndorser s.inductions account newAccount = .ok s'.inductions →
      SoleStep p (.action (.rename account newAccount)) s s'
  | leaves {s s' : State} {account : Name} :
      status s account = some .activeMember →
      (∀ a, status s' a = if account = a then none else status s a) →
      stageOf s' = stageOf s → s'.inductions = s.inductions →
      SoleStep p (.action (.resign account)) s s'
  | clears {s s' : State} :
      stageOf s' = none → (∀ a, status s' a = none) → s'.inductions.inductions = .empty →
      s'.inductions.endorsements = .empty → s'.inductions.endorsed = s.inductions.endorsed →
      SoleStep p (.action .clearall) s s'

/-- Calls that make one step. -/
def makesOneStep : Call → Bool
  | .action (.inductinit ..) => true
  | .action (.inductprofil ..) => true
  | .action (.inductvideo ..) => true
  | .action (.inductendors ..) => true
  | .action (.rename ..) => true
  | .action (.resign ..) => true
  | .action .clearall => true
  | _ => false

/-! ### Calls that leave inductions alone -/

theorem step_sameRoll {s s' : State} (h : Step p call s s') (hcall : handlesInductions call = false)
    (hresign : ∀ a, call ≠ .action (.resign a)) (hrename : ∀ a b, call ≠ .action (.rename a b))
    (hclear : call ≠ .action .clearall) : SameRoll s s' := by
  have hmembers : ∀ {s' : State}, stageOf s' = stageOf s → s'.inductions = s.inductions →
      (∀ a, status s' a = status s a) → SameRoll s s' := by
    intro s' hstage hinductions hstatus
    exact ⟨hstage, hstatus, by rw [hinductions], by rw [hinductions], by rw [hinductions],
      by rw [hinductions]⟩
  cases h with
  | aside haside =>
      exact ⟨haside.stage, statusOf_congr haside.rows, haside.inductions, haside.endorsements,
        haside.endorsed, haside.queue⟩
  | opts hopt => exact hmembers rfl rfl (statusOf_electionOpt hopt)
  | seeds hseed =>
      rcases seed_eq_ok hseed with ⟨_, _, _, _, _, _, _, _, _, rfl⟩ | ⟨_, _, _, _, _, _, _, rfl⟩ |
        ⟨_, _, _, _, _, _, rfl⟩
      · exact hmembers rfl rfl fun _ => rfl
      · exact hmembers rfl rfl fun _ => rfl
      · exact hmembers rfl rfl fun _ => rfl
  | starts _ hstart _ =>
      obtain ⟨_, _, _, _, _, _, _, rfl⟩ := startElection_eq_ok hstart
      exact hmembers rfl rfl fun _ => rfl
  | visits _ _ hvisit => exact hmembers rfl rfl (statusOf_visitMember hvisit)
  | votes hvote =>
      obtain ⟨_, _, _, _, _, _, _, _, _, _, _, rfl⟩ := vote_eq_ok hvote
      exact hmembers rfl rfl fun _ => rfl
  | groups _ hgroups => exact hmembers rfl rfl (statusOf_finishGroups hgroups)
  | advances _ hgroups _ _ _ _ _ => exact hmembers rfl rfl (statusOf_finishGroups hgroups)
  | concludes _ _ _ _ _ _ hranks _ _ => exact hmembers rfl rfl (statusOf_rankBoard hranks)
  | migrates _ _ _ hrows _ => exact hmembers rfl rfl (statusOf_congr hrows)
  | enters hinduct => exact absurd hinduct (by simp [hcall])
  | activates hinduct => exact absurd hinduct (by simp [hcall])
  | drops hinduct => exact absurd hinduct (by simp [hcall])
  | inducts hinduct => exact absurd hinduct (by simp [hcall])
  | establishes hinduct => exact absurd hinduct (by simp [hcall])
  | resigns => exact absurd rfl (hresign _)
  | renames => exact absurd rfl (hrename _ _)
  | clears => exact absurd rfl hclear
  | founds => exact absurd hcall (by simp [handlesInductions])
  | _ => exact hmembers rfl rfl fun _ => rfl

theorem steps_sameRoll {s s' : State} (h : Steps p call s s')
    (hcall : handlesInductions call = false) (hresign : ∀ a, call ≠ .action (.resign a))
    (hrename : ∀ a b, call ≠ .action (.rename a b)) (hclear : call ≠ .action .clearall) :
    SameRoll s s' :=
  steps_preserve (SameRoll s)
    (fun _ _ hstep ht => ht.trans (step_sameRoll hstep hcall hresign hrename hclear)) h
    (SameRoll.refl s)

theorem sameRoll_of_eq {s s' : State} (hglobals : s'.globals = s.globals)
    (hmembers : s'.members = s.members) (hinductions : s'.inductions = s.inductions) :
    SameRoll s s' := by
  refine ⟨?_, ?_, ?_, ?_, ?_, ?_⟩
  · rw [stageOf, hglobals, stageOf]
  · intro a
    rw [status, hmembers, status]
  all_goals rw [hinductions]

theorem triggerElection_sameRoll {s s' : State} (h : triggerElection p s = .ok s') :
    SameRoll s s' := by
  obtain ⟨_, _, ⟨_, _, _, rfl⟩ | ⟨_, rfl⟩ | ⟨_, _, _, _, _, _, _, _, _, rfl⟩⟩ :=
    triggerElection_eq_ok h
  · exact sameRoll_of_eq rfl rfl rfl
  · exact SameRoll.refl _
  · exact sameRoll_of_eq rfl rfl rfl

theorem checkThreshold_sameRoll {s s' : State} (h : checkThreshold p s = .ok s') :
    SameRoll s s' := by
  unfold checkThreshold at h
  split at h
  · split at h
    · exact triggerElection_sameRoll h
    · rw [← pure_eq_ok.mp h]
      exact SameRoll.refl s
  · rw [← pure_eq_ok.mp h]
    exact SameRoll.refl s

theorem setTime_sameRoll {s s' : State} {day : Nat} {time : Text}
    (h : setTime p s day time = .ok s') : SameRoll s s' := by
  obtain ⟨g, startTime, hg, _, hcases⟩ := setTime_eq_ok h
  have hset : SameRoll s { s with globals := some { g with electionStartTime := startTime } } := by
    refine ⟨?_, fun _ => rfl, rfl, rfl, rfl, rfl⟩
    simp only [stageOf, hg, Option.map_some]
  refine hset.trans ?_
  rcases hcases with ⟨_, hdefault⟩ | ⟨_, htrigger⟩ | ⟨_, _, rfl⟩
  · obtain ⟨_, _, _, _, _, rfl⟩ := setDefaultElection_eq_ok hdefault
    exact sameRoll_of_eq rfl rfl rfl
  · exact triggerElection_sameRoll htrigger
  · exact SameRoll.refl _

/-! ### Members who are dropped -/

theorem removeIfPending_status {s s' : State} {account : Name}
    (h : removeIfPending p s account = .ok s') :
    s'.globals = s.globals ∧ s'.inductions = s.inductions ∧
      ∀ a, status s' a =
        if a = account ∧ status s a = some .pendingMembership then none else status s a := by
  obtain ⟨member, hmember, hcases⟩ := removeIfPending_eq_ok h
  have hstatus : status s account = some member.status := by
    rw [status, statusOf, hmember, Option.map_some]
  rcases hcases with ⟨hactive, rfl⟩ | ⟨hpending, _, o, t, _, rfl⟩
  · refine ⟨rfl, rfl, fun a => ?_⟩
    rw [if_neg]
    rintro ⟨rfl, hpending⟩
    rw [hstatus, hactive] at hpending
    exact absurd hpending (by simp)
  · refine ⟨rfl, rfl, fun a => ?_⟩
    change statusOf (s.members.table.erase account) a = _
    rw [statusOf_erase]
    by_cases ha : account = a
    · subst ha
      rw [if_pos rfl, if_pos ⟨rfl, by rw [hstatus, hpending]⟩]
    · rw [if_neg ha, if_neg fun h => ha h.1.symm]
      rfl

theorem removeAll_status {l : List Name} {s s' : State}
    (h : l.foldlM (removeIfPending p) s = .ok s') :
    s'.globals = s.globals ∧ s'.inductions = s.inductions ∧
      ∀ a, status s' a =
        if a ∈ l ∧ status s a = some .pendingMembership then none else status s a := by
  induction l generalizing s with
  | nil =>
      rw [List.foldlM_nil, pure_eq_ok] at h
      subst h
      refine ⟨rfl, rfl, fun a => ?_⟩
      rw [if_neg]
      rintro ⟨hmem, _⟩
      exact absurd hmem (by simp)
  | cons account l ih =>
      rw [List.foldlM_cons, bind_eq_ok] at h
      obtain ⟨t, ht, h⟩ := h
      obtain ⟨hglobals, hinductions, hstatus⟩ := removeIfPending_status ht
      obtain ⟨hglobals', hinductions', hstatus'⟩ := ih h
      refine ⟨hglobals'.trans hglobals, hinductions'.trans hinductions, fun a => ?_⟩
      rw [hstatus', hstatus]
      by_cases hpending : status s a = some .pendingMembership
      · by_cases ha : a = account
        · simp [ha]
        · simp [ha, hpending]
      · simp [hpending]

theorem removeIfPending_counted {s s' : State} {account : Name}
    (h : removeIfPending p s account = .ok s') (hs : Counted s.members) : Counted s'.members := by
  obtain ⟨member, hmember, ⟨_, rfl⟩ | ⟨hpending, _, o, u, _, rfl⟩⟩ := removeIfPending_eq_ok h
  · exact hs
  · have haccount := Table.key_of_find? hmember
    subst haccount
    exact counted_drop hs hmember hpending

theorem removeAll_counted {l : List Name} {s s' : State}
    (h : l.foldlM (removeIfPending p) s = .ok s') (hs : Counted s.members) : Counted s'.members :=
  foldlM_preserves (fun t : State => Counted t.members)
    (fun _ _ _ hstep ht => removeIfPending_counted hstep ht) l h hs

/-! ### The contract becomes active -/

theorem status_ne_pending {m : Members} (h : Counted m) (hnone : m.stats.pendingMembers = 0)
    (account : Name) : statusOf m.table account ≠ some .pendingMembership := by
  intro hstatus
  obtain ⟨row, hrow, hpending⟩ := Option.map_eq_some_iff.mp hstatus
  have hcount := h.pending
  rw [hnone, eq_comm, Table.count, List.countP_eq_zero] at hcount
  exact hcount row (Table.mem_of_find? hrow) (by simp [hasStatus, hpending])

theorem maybeActivateContract_roll {s s' : State}
    (h : maybeActivateContract s = .ok s') (hs : Counted s.members) : RollSteps s s' := by
  obtain ⟨g, stage, o, hg, _, hcases, rfl⟩ := maybeActivateContract_eq_ok h
  rcases hcases with rfl | ⟨hgenesis, rfl, hnone⟩
  · refine SameRoll.steps ⟨?_, fun _ => rfl, rfl, rfl, rfl, rfl⟩
    simp only [stageOf, hg, Option.map_some]
  · refine .single (.establishes ?_ rfl (status_ne_pending hs hnone) (fun _ => rfl) rfl)
    simp only [stageOf, hg, Option.map_some, hgenesis]

/-! ### Calls that work on inductions -/

theorem opens_of_create {t t' t'' : Inductions} {now id : Nat} {inviter invitee : Name}
    {endorsements : Nat} {video : Text} {endorsers : List Name}
    (hcreate : createInduction t now id inviter invitee endorsements video = .ok t')
    (hendorse : createEndorsements t' inviter invitee id endorsers = .ok t'') :
    Opens t t'' ⟨id, inviter, invitee, endorsements, now, video, {}⟩ endorsers.reverse := by
  obtain ⟨table, htable, rfl⟩ := createInduction_eq_ok hcreate
  refine ⟨Table.emplace?_new htable, table, fun j => Table.mem_emplace? htable, ?_⟩
  exact createEndorsements_adds hendorse

theorem inductinit_sole {s s' : State} {id : Nat} {inviter invitee : Name} {witnesses : List Name}
    (h : inductinit env s id inviter invitee witnesses = .ok s') :
    SoleStep p (.action (.inductinit id inviter invitee witnesses)) s s' := by
  simp only [inductinit, initializeInduction, checkValidEndorsers, bind_eq_ok, check_eq_ok,
    exists_const, getGlobals_eq_ok, pure_eq_ok, decide_eq_true_eq, Bool.and_eq_true] at h
  obtain ⟨_, _, g, hg, hstage, _, _, _, _, members, hmembers, t,
    ⟨_, _, ⟨⟨hmin, hmax⟩, _⟩, _, u, hu, ht⟩, rfl⟩ := h
  have hactive : stageOf s = some .active := by simp only [stageOf, hg, Option.map_some, hstage]
  let row : Induction := ⟨id, inviter, invitee, witnesses.length + 1, s.now, [], {}⟩
  have hopens : Opens s.inductions t row (inviter :: witnesses).reverse := opens_of_create hu ht
  split at hmembers
  · obtain ⟨hnone, hstatus⟩ := statusOf_create hmembers
    exact .invites (i := row) hactive hactive (.inl hnone) hstatus hmin hmax hopens
  · simp only [bind_eq_ok, checkPendingMember_eq_ok, exists_const, pure_eq_ok] at hmembers
    obtain ⟨⟨member, hmember, hpending⟩, rfl⟩ := hmembers
    have hinvitee : status s invitee = some .pendingMembership := by
      rw [status, statusOf, hmember, Option.map_some, hpending]
    refine .invites (i := row) hactive hactive (.inr hinvitee) ?_ hmin hmax hopens
    intro a
    split
    · rename_i ha
      exact ha ▸ hinvitee
    · rfl

theorem find?_of_invitations {t t' : Table Induction.id}
    (h : t'.rows.map invitation = t.rows.map invitation) (id : Nat) :
    t'.find? id ≠ none ↔ t.find? id ≠ none := by
  have hids : ∀ u : Table Induction.id,
      u.find? id ≠ none ↔ id ∈ (u.rows.map invitation).map Prod.fst := by
    intro u
    rw [List.map_map, Option.ne_none_iff_exists']
    constructor
    · rintro ⟨i, hi⟩
      exact List.mem_map.mpr ⟨i, Table.mem_of_find? hi, Table.key_of_find? hi⟩
    · intro hmem
      obtain ⟨i, hi, rfl⟩ := List.mem_map.mp hmem
      exact ⟨i, Table.find?_of_mem hi⟩
  rw [hids, hids, h]

theorem map_replace {t : Table Induction.id} {i j : Induction} (hi : t.find? i.id = some i)
    (hid : j.id = i.id) (hinvitee : j.invitee = i.invitee) :
    (t.replace j).rows.map invitation = t.rows.map invitation := by
  rw [← hid] at hi
  exact Table.map_replace hi (congrArg₂ Prod.mk hid hinvitee)

theorem setEndorsed_ids {t : Inductions} {id : Nat} {endorsed : Bool} {e : Endorsement}
    (h : e ∈ (setEndorsed t id endorsed).endorsements.rows) :
    ∃ d ∈ t.endorsements.rows, d.inductionId = e.inductionId := by
  simp only [setEndorsed, Table.mem_update] at h
  obtain ⟨d, hd, rfl⟩ := h
  refine ⟨d, hd, ?_⟩
  split
  · rfl
  · rfl

theorem inductprofil_sole {s s' : State} {id : Nat} {profile : NewMemberProfile}
    (h : inductprofil p env s id profile = .ok s') :
    SoleStep p (.action (.inductprofil id profile)) s s' := by
  simp only [inductprofil, updateProfile, getInduction, bind_eq_ok, getGlobals_eq_ok, getRow_eq_ok,
    pure_eq_ok] at h
  obtain ⟨g, hg, i, hi, _, _, _, _, _, ⟨_, _, _, _, rfl⟩, rfl⟩ := h
  have hid := Table.key_of_find? hi
  subst hid
  have hstage : ∀ t, stageOf { s with inductions := t } = some g.stage := by
    intro t
    rw [stageOf, hg, Option.map_some]
  cases hgenesis : g.stage with
  | genesis =>
      rw [hgenesis] at hstage
      rw [if_pos rfl]
      refine .fills (hstage s.inductions) (hstage _) (fun _ => rfl) ?_
      refine ⟨map_replace hi rfl rfl, ?_, rfl, rfl⟩
      intro e he
      obtain ⟨e₁, he₁, hid₁⟩ := setEndorsed_ids he
      obtain ⟨e₀, he₀, hid₀⟩ := setEndorsed_ids he₁
      exact .inl ⟨e₀, he₀, hid₀.trans hid₁⟩
  | active =>
      rw [hgenesis] at hstage
      rw [if_neg (by simp)]
      have hsame : SameInvitation i { i with newMemberProfile := profile } := ⟨rfl, rfl, rfl⟩
      exact .edits (.inl ⟨profile, rfl⟩) (hstage s.inductions) (hstage _) (fun _ => rfl) hi hsame rfl

theorem inductvideo_sole {s s' : State} {account : Name} {id : Nat} {video : Text}
    (h : inductvideo p env s account id video = .ok s') :
    SoleStep p (.action (.inductvideo account id video)) s s' := by
  simp only [inductvideo, updateVideo, getInduction, bind_eq_ok, getGlobals_eq_ok, getRow_eq_ok,
    check_eq_ok, exists_const, pure_eq_ok, decide_eq_true_eq] at h
  obtain ⟨_, _, g, hg, i, hi, hstage, _, _, _, _, ⟨_, _, _, _, rfl⟩, rfl⟩ := h
  have hid := Table.key_of_find? hi
  subst hid
  have hactive : stageOf s = some .active := by rw [stageOf, hg, Option.map_some, hstage]
  have hsame : SameInvitation i { i with video := video } := ⟨rfl, rfl, rfl⟩
  exact .edits (.inr ⟨account, video, rfl⟩) hactive hactive (fun _ => rfl) hi hsame rfl

theorem inductendors_sole {s s' : State} {account : Name} {id : Nat} {hash : Checksum}
    (h : inductendors p env s account id hash = .ok s') :
    SoleStep p (.action (.inductendors account id hash)) s s' := by
  simp only [inductendors, getInduction, bind_eq_ok, getRow_eq_ok, check_eq_ok, exists_const,
    pure_eq_ok] at h
  obtain ⟨_, _, _, _, i, hi, _, _, _, _, _, t, ht, rfl⟩ := h
  have hid := Table.key_of_find? hi
  subst hid
  exact .attests rfl (fun _ => rfl) hi ht

theorem gensetexpire_roll {s s' : State} {id : Nat} {newExpiration : Int}
    (h : gensetexpire p env s id newExpiration = .ok s') :
    RollSteps s s' := by
  simp only [gensetexpire, updateExpiration, getInduction, bind_eq_ok, getGlobals_eq_ok,
    getRow_eq_ok, check_eq_ok, exists_const, pure_eq_ok, decide_eq_true_eq] at h
  obtain ⟨_, _, g, hg, i, hi, hstage, _, ⟨_, _, rfl⟩, rfl⟩ := h
  have hid := Table.key_of_find? hi
  subst hid
  have hgenesis : stageOf s = some .genesis := by rw [stageOf, hg, Option.map_some, hstage]
  refine .single (.revises hgenesis hgenesis (fun _ => rfl) ?_)
  exact ⟨map_replace hi rfl rfl, fun e he => .inl ⟨e, he, rfl⟩, rfl, rfl⟩

theorem erase_emplace?_empty {e : Table EndorsedInduction.invitee} {row : EndorsedInduction}
    (h : (Table.empty : Table EndorsedInduction.invitee).emplace? row = some e) :
    e.erase row.invitee = .empty := by
  apply Table.eq_of_mem_iff
  intro r
  rw [Table.mem_erase, Table.mem_emplace? h, Table.rows_empty]
  constructor
  · rintro ⟨rfl | hmem, hne⟩
    · exact absurd rfl hne
    · exact hmem
  · intro hmem
    exact absurd hmem (by simp)

theorem endorseInduction_eq_ok {t t' : Inductions} {i : Induction}
    (h : endorseInduction t i = .ok t') :
    (endorsementsOf t i.id).all Endorsement.endorsed = true ∧
      ∃ e, t.endorsed.emplace? ⟨i.invitee, i.id⟩ = some e ∧ t' = { t with endorsed := e } := by
  simp only [endorseInduction, checkIsFullyEndorsed, bind_eq_ok, check_eq_ok, exists_const,
    expect_eq_ok, pure_eq_ok] at h
  obtain ⟨hall, e, he, rfl⟩ := h
  exact ⟨hall, e, he, rfl⟩

/-- The one induction that is endorsed is taken out again with the others of its invitee. -/
theorem inducted_roll {s s' : State} {i : Induction}
    {e : Table EndorsedInduction.invitee} (hi : s.inductions.inductions.find? i.id = some i)
    (hempty : s.inductions.endorsed = .empty)
    (he : s.inductions.endorsed.emplace? ⟨i.invitee, i.id⟩ = some e)
    (hs : Counted s.members)
    (h : inducted p env { s with inductions := { s.inductions with endorsed := e } } i.invitee =
      .ok s') : RollSteps s s' := by
  simp only [inducted, getEndorsedInduction, getInduction, bind_eq_ok, getRow_eq_ok] at h
  obtain ⟨_, _, _, _, j, ⟨row, hrow, hj⟩, members, hmembers, t, ht, u, hu, h⟩ := h
  have hkey : row = ⟨i.invitee, i.id⟩ := by
    rw [Table.find?_emplace? he, if_pos rfl, Option.some.injEq] at hrow
    exact hrow.symm
  subst hkey
  rw [show s.inductions.inductions.find? i.id = some j from hj, Option.some.injEq] at hi
  subst hi
  have herase : eraseInduction { s.inductions with endorsed := e } j =
      eraseInduction s.inductions j := by
    rw [hempty] at he
    simp only [eraseInduction, hempty, erase_emplace?_empty he]
    congr 1
  rw [herase] at ht
  obtain ⟨hpending, hstatus⟩ := statusOf_setActive hmembers
  have hjoins : RollStep s { s with members := members, inductions := t } := by
    refine .joins rfl hj hpending hstatus ?_
    split at ht
    · rename_i hlimit
      exact .inl ⟨hlimit, ht⟩
    · rename_i hlimit
      exact .inr ⟨hlimit, (Except.ok.inj ht).symm⟩
  refine .head hjoins ((maybeActivateContract_roll hu (counted_setActive hmembers hs)).trans ?_)
  exact (checkThreshold_sameRoll h).steps

theorem createNft_roll {g : Globals} {s s' : State}
    {i : Induction} (h : createNft p env g s i = .ok s')
    (hi : s.inductions.inductions.find? i.id = some i)
    (hempty : s.inductions.endorsed = .empty) (hs : Counted s.members) :
    RollSteps s s' := by
  simp only [createNft, bind_eq_ok, pure_eq_ok] at h
  obtain ⟨t, ht, u, hu, v, hv, rfl⟩ := h
  obtain ⟨_, e, he, rfl⟩ := endorseInduction_eq_ok ht
  obtain ⟨o, auctions, invitee, _, rfl⟩ := createTemplate_eq_ok hu
  let w : State := { s with
    output := (record { s with output := o } (.action (.inducted i.invitee))).output
    auctions := auctions
    members := modifyMember s.members invitee fun row =>
      { row with nftTemplateId := env.templateId % 2 ^ 64 } }
  have hnft : SameRoll s w :=
    ⟨rfl, statusOf_modifyMember s.members invitee _ fun _ => rfl, rfl, rfl, rfl, rfl⟩
  have hcounted : Counted w.members :=
    hs.of_same (sameCounts_modifyMember s.members invitee fun _ => rfl)
  have hinducted : RollSteps w v := inducted_roll hi hempty he hcounted hv
  exact (hnft.steps.trans hinducted).trans (SameRoll.steps (sameRoll_of_eq rfl rfl rfl))

theorem inductdonate_roll {s s' : State} {payer : Name} {id : Nat} {quantity : Asset}
    (h : inductdonate p env s payer id quantity = .ok s')
    (hempty : s.inductions.endorsed = .empty) (hs : Counted s.members) :
    RollSteps s s' := by
  simp only [inductdonate, getInduction, bind_eq_ok, getRow_eq_ok, check_eq_ok, exists_const] at h
  obtain ⟨_, _, g, _, i, hi, _, _, _, _, _, _, user, _, migration, _, t, ht, h⟩ := h
  have hid := Table.key_of_find? hi
  subst hid
  have hfunds : t.globals = s.globals ∧ t.members = s.members ∧ t.inductions = s.inductions := by
    split at ht
    · simp only [donateToMaster, bind_eq_ok, pure_eq_ok] at ht
      obtain ⟨_, _, rfl⟩ := ht
      exact ⟨rfl, rfl, rfl⟩
    · rw [← Except.ok.inj ht]
      exact ⟨rfl, rfl, rfl⟩
  obtain ⟨hglobals, hmembers, hinductions⟩ := hfunds
  refine (sameRoll_of_eq hglobals hmembers hinductions).steps.trans ?_
  exact createNft_roll h (hinductions ▸ hi) (hinductions ▸ hempty) (hmembers ▸ hs)

theorem gc_roll {s s' : State} {limit : Nat} (h : gc p env s limit = .ok s')
    (hs : Counted s.members) : RollSteps s s' := by
  simp only [gc, bind_eq_ok, check_eq_ok, exists_const] at h
  obtain ⟨_, _, ⟨remaining, t⟩, ht, _, h⟩ := h
  obtain ⟨o, auctions, _, rfl⟩ := finishAuctions_eq_ok ht
  obtain ⟨_, o', sessions, _, heq⟩ := gcSessions_eq p remaining
    { s with
      inductions := (gcInductions s.inductions s.now limit).2.2
      output := o
      auctions := auctions }
  simp only [heq] at h
  split at h
  · rename_i hnone
    rw [← pure_eq_ok.mp h]
    refine .single (.collects rfl rfl fun a => ?_)
    rw [hnone, if_neg fun ha => absurd ha.1 (by simp)]
    rfl
  · simp only [bind_eq_ok] at h
    obtain ⟨u, hu, h⟩ := h
    obtain ⟨hglobals, hinductions, hstatus⟩ := removeAll_status hu
    have hcollects : RollStep s u :=
      .collects (by rw [stageOf, hglobals, stageOf]) hinductions hstatus
    exact .head hcollects (maybeActivateContract_roll h (removeAll_counted hu hs))

theorem Revised.refl (t : Inductions) : Revised t t :=
  ⟨rfl, fun e he => .inl ⟨e, he, rfl⟩, rfl, rfl⟩

theorem Revised.trans {t₁ t₂ t₃ : Inductions} (h : Revised t₁ t₂) (h' : Revised t₂ t₃) :
    Revised t₁ t₃ where
  rows := h'.rows.trans h.rows
  endorsements := by
    intro e he
    rcases h'.endorsements e he with ⟨d, hd, hid⟩ | hfound
    · rw [← hid]
      exact h.endorsements d hd
    · exact .inr ((find?_of_invitations h.rows _).mp hfound)
  endorsed := h'.endorsed.trans h.endorsed
  queue := h'.queue.trans h.queue

theorem eraseEndorsement_revised {t t' : Inductions} {e : Endorsement}
    (h : eraseEndorsement t e = .ok t') : Revised t t' := by
  simp only [eraseEndorsement, bind_eq_ok, getRow_eq_ok, check_eq_ok, exists_const,
    pure_eq_ok] at h
  obtain ⟨i, hi, _, rfl⟩ := h
  have hid : i.id = e.inductionId := Table.key_of_find? hi
  rw [← hid] at hi
  refine ⟨map_replace hi rfl rfl, ?_, rfl, rfl⟩
  intro d hd
  exact .inl ⟨d, (Table.mem_erase.mp hd).1, rfl⟩

theorem eraseEndorser_revised {t t' : Inductions} {endorser : Name}
    (h : eraseEndorser t endorser = .ok t') : Revised t t' :=
  foldlM_preserves (Revised t)
    (fun _ _ _ hstep hu => hu.trans (eraseEndorsement_revised hstep)) _ h (Revised.refl t)

theorem inductcancel_roll {s s' : State} {account : Name} {id : Nat}
    (h : inductcancel p env s account id = .ok s') (hs : Counted s.members) :
    RollSteps s s' := by
  simp only [inductcancel, getInduction, bind_eq_ok, check_eq_ok, exists_const, getGlobals_eq_ok,
    getRow_eq_ok] at h
  obtain ⟨_, _, g, hg, _, _, _, i, hi, h⟩ := h
  have hid := Table.key_of_find? hi
  subst hid
  split at h
  · rename_i hhas
    rw [← pure_eq_ok.mp h]
    refine .single (.cancels rfl hi rfl fun a => ?_)
    rw [if_neg]
    · rfl
    · rintro ⟨rfl, hnone, _⟩
      rw [hhas] at hnone
      exact absurd hnone (by simp)
  · rename_i hhas
    simp only [bind_eq_ok] at h
    obtain ⟨t, ht, h⟩ := h
    obtain ⟨hglobals, hinductions, hstatus⟩ := removeIfPending_status ht
    have hcancels : RollStep s t := by
      refine .cancels (by rw [stageOf, hglobals, stageOf]) hi hinductions fun a => ?_
      rw [hstatus, hinductions]
      by_cases ha : a = i.invitee
      · subst ha
        simp only [true_and, Bool.not_eq_true] at hhas ⊢
        simp only [hhas, true_and]
        rfl
      · rw [if_neg fun h => ha h.1, if_neg fun h => ha h.1.symm]
        rfl
    refine .head hcancels ?_
    split at h
    · rename_i hgenesis
      simp only [bind_eq_ok] at h
      obtain ⟨u, hu, h⟩ := h
      have hstage : stageOf t = some .genesis := by
        rw [stageOf, hglobals, hg, Option.map_some, hgenesis]
      have hrevises : RollStep t
          { t with inductions := u } :=
        .revises hstage hstage (fun _ => rfl) (eraseEndorser_revised hu)
      have hcounted : Counted t.members := removeIfPending_counted ht hs
      exact .head hrevises (maybeActivateContract_roll h hcounted)
    · rw [← pure_eq_ok.mp h]

theorem createGenesisMember_roll {initialMembers : List Name} {video : Text} {acc acc' : State × Nat} {invitee : Name}
    (h : createGenesisMember p initialMembers video acc invitee = .ok acc')
    (hgenesis : stageOf acc.1 = some .genesis) :
    stageOf acc'.1 = some .genesis ∧ RollSteps acc.1 acc'.1 := by
  simp only [createGenesisMember, bind_eq_ok, pure_eq_ok] at h
  obtain ⟨members, hmembers, t, ht, u, hu, rfl⟩ := h
  obtain ⟨hnone, hstatus⟩ := statusOf_create hmembers
  let row : Induction := ⟨acc.2, p.self, invitee, (initialMembers.length + (2 ^ 32 - 1)) % 2 ^ 32,
    acc.1.now, video, {}⟩
  have hopens : Opens acc.1.inductions u row (initialMembers.filter (· ≠ invitee)).reverse :=
    opens_of_create ht hu
  exact ⟨hgenesis, .single (.enters (i := row) hgenesis hgenesis hnone hstatus hopens)⟩

theorem createGenesisMembers_roll {initialMembers l : List Name} {video : Text} {acc acc' : State × Nat}
    (h : l.foldlM (createGenesisMember p initialMembers video) acc = .ok acc')
    (hgenesis : stageOf acc.1 = some .genesis) : RollSteps acc.1 acc'.1 := by
  refine (foldlM_preserves (fun acc'' : State × Nat =>
    stageOf acc''.1 = some .genesis ∧ RollSteps acc.1 acc''.1) ?_ l h ⟨hgenesis, .refl⟩).2
  rintro acc₁ invitee acc₂ hstep ⟨hstage, hsteps⟩
  have hnext : _ ∧ RollSteps _ _ := createGenesisMember_roll hstep hstage
  exact ⟨hnext.1, hsteps.trans hnext.2⟩

theorem genesis_roll {s s' : State} {community : Text} {communitySymbol : Symbol}
    {minimumDonation : Asset} {initialMembers : List Name} {genesisVideo : Text}
    {auctionStartingBid : Asset} {auctionDuration electionDay : Nat} {electionTime : Text}
    (h : genesis p env s community communitySymbol minimumDonation initialMembers genesisVideo
      auctionStartingBid auctionDuration electionDay electionTime = .ok s') :
    RollSteps s s' := by
  simp only [genesis, emplaceMasterPool, bind_eq_ok, check_eq_ok, exists_const, expect_eq_ok,
    pure_eq_ok] at h
  obtain ⟨_, _, _, _, hnone, _, ⟨pools, _, rfl⟩, owned, _, t, ht, ⟨u, n⟩, hu, rfl⟩ := h
  have hset := setTime_sameRoll ht
  have hnone' : stageOf s = none := by
    rw [stageOf, Option.map_eq_none_iff]
    exact Option.isNone_iff_eq_none.mp hnone
  have hstage : stageOf t = some .genesis := hset.stage
  have hsteps : RollSteps _ t := hset.steps
  refine .head ?_ (hsteps.trans ?_)
  · exact .founds hnone' rfl (fun _ => rfl) rfl
  have hpermission : SameRoll t (perform (setBoardPermission p t []) .linkauth) :=
    sameRoll_of_eq rfl rfl rfl
  refine (hpermission.steps.trans (createGenesisMembers_roll hu hstage)).trans ?_
  exact SameRoll.steps (sameRoll_of_eq rfl rfl rfl)

theorem addEndorsement_revised {t t' : Inductions} {i k : Induction} {endorser : Name}
    {endorsed : Bool} (hk : k ∈ t.inductions.rows) (hsame : invitation k = invitation i)
    (h : addEndorsement t i endorser endorsed = .ok t') : Revised t t' := by
  obtain ⟨hid, hinvitee⟩ := Prod.mk.inj hsame
  obtain ⟨table, rows, rfl, hperm, _, hrows⟩ := createEndorsement_adds h
  refine ⟨map_replace (Table.find?_of_mem hk) hid.symm hinvitee.symm, ?_, rfl, rfl⟩
  intro e he
  rcases List.mem_append.mp (hperm.mem_iff.mp he) with hnew | hold
  · right
    rw [(hrows e hnew).1, ← hid, Table.find?_of_mem hk]
    simp
  · exact .inl ⟨e, hold, rfl⟩

theorem addEndorsements_revised {t : Inductions} {endorser : Name} {l : List Induction}
    {u u' : Inductions} (hl : ∀ i ∈ l, i ∈ t.inductions.rows)
    (h : l.foldlM (fun t i => addEndorsement t i endorser true) u = .ok u') (hu : Revised t u) :
    Revised t u' := by
  induction l generalizing u with
  | nil => exact (pure_eq_ok.mp h) ▸ hu
  | cons i l ih =>
      rw [List.foldlM_cons, bind_eq_ok] at h
      obtain ⟨v, hv, h⟩ := h
      have hmem : invitation i ∈ u.inductions.rows.map invitation := by
        rw [hu.rows]
        exact List.mem_map_of_mem (hl i List.mem_cons_self)
      obtain ⟨k, hk, hsame⟩ := List.mem_map.mp hmem
      refine ih (fun j hj => hl j (List.mem_cons_of_mem _ hj)) h ?_
      exact hu.trans (addEndorsement_revised hk hsame hv)

theorem mem_replace_new {t table : Table Induction.id} {i i' j : Induction}
    (h : t.emplace? i = some table) (hid : i'.id = i.id) :
    j ∈ (table.replace i').rows ↔ j = i' ∨ j ∈ t.rows := by
  have hfound : table.find? i'.id = some i := by
    rw [hid, Table.find?_emplace? h, if_pos rfl]
  have hnone := Table.find?_eq_none.mp (Table.emplace?_new h)
  rw [Table.mem_replace, Table.mem_emplace? h]
  constructor
  · rintro (⟨rfl | hold, hne⟩ | ⟨rfl, _⟩)
    · exact absurd hid.symm hne
    · exact .inr hold
    · exact .inl rfl
  · rintro (rfl | hold)
    · exact .inr ⟨rfl, i, hfound⟩
    · exact .inl ⟨.inr hold, fun heq => hnone j hold (heq.trans hid)⟩

/-- A new induction that gets another date at once. -/
theorem opens_of_replace {t t' : Inductions} {i i' : Induction} {table : Table Induction.id}
    {inviter invitee : Name} {endorsers : List Name} (htable : t.inductions.emplace? i = some table)
    (h : createEndorsements { t with inductions := table.replace i' } inviter invitee i.id
      endorsers = .ok t') (hid : i'.id = i.id) : Opens t t' i' endorsers.reverse := by
  unfold Opens
  rw [hid]
  exact ⟨Table.emplace?_new htable, _, fun j => mem_replace_new htable hid,
    createEndorsements_adds h⟩

theorem addtogenesis_roll {s s' : State} {newmember : Name} {expiration : Int}
    (h : addtogenesis p env s newmember expiration = .ok s') :
    RollSteps s s' := by
  simp only [addtogenesis, updateExpiration, getInduction, bind_eq_ok, check_eq_ok, exists_const,
    expect_eq_ok, getGlobals_eq_ok, getRow_eq_ok, pure_eq_ok, decide_eq_true_eq] at h
  obtain ⟨_, _, g, hg, hstage, members, hmembers, t₁, ht₁, first, _, t₂, ht₂, i, hi, _,
    ⟨_, _, rfl⟩, t₄, ht₄, h⟩ := h
  obtain ⟨o, auctions, _, rfl⟩ := foldlM_auctions (fun _ _ _ hmint => mintForMember_eq_ok hmint) _ h
  have hgenesis : stageOf s = some .genesis := by rw [stageOf, hg, Option.map_some, hstage]
  have hrevised : Revised s.inductions t₁ :=
    addEndorsements_revised (fun _ hj => hj) ht₁ (Revised.refl _)
  obtain ⟨hnone, hstatus⟩ := statusOf_create hmembers
  obtain ⟨table, htable, rfl⟩ := createInduction_eq_ok ht₂
  rw [Table.find?_emplace? htable, if_pos rfl, Option.some.injEq] at hi
  subst hi
  have hrevises : RollStep s
      { s with inductions := t₁ } := .revises hgenesis hgenesis (fun _ => rfl) hrevised
  have hopens := opens_of_replace htable ht₄ rfl
  have henters : RollStep
      { s with inductions := t₁ } { s with members := members, inductions := t₄ } := by
    refine .enters hgenesis hgenesis ?_ ?_ hopens
    · exact hnone
    · exact hstatus
  exact .head hrevises (.head henters (SameRoll.steps (sameRoll_of_eq rfl rfl rfl)))

theorem electionsOnResign_sameRoll {s s' : State} {account : Name}
    (h : electionsOnResign p s account = .ok s') :
    s'.globals = s.globals ∧ s'.members = s.members ∧ s'.inductions = s.inductions := by
  obtain ⟨_, o, _, ⟨_, rfl⟩ | ⟨_, htrigger⟩⟩ := electionsOnResign_eq_ok h
  · exact ⟨rfl, rfl, rfl⟩
  · obtain ⟨_, _, ⟨_, _, _, rfl⟩ | ⟨_, rfl⟩ | ⟨_, _, _, _, _, _, _, _, _, rfl⟩⟩ :=
      triggerElection_eq_ok htrigger
    all_goals exact ⟨rfl, rfl, rfl⟩

theorem resign_sole {s s' : State} {account : Name} (h : resign p env s account = .ok s') :
    SoleStep p (.action (.resign account)) s s' := by
  simp only [resign, bind_eq_ok, checkActiveMember_eq_ok, exists_const, pure_eq_ok] at h
  obtain ⟨_, _, _, _, ⟨member, hmember, hactive⟩, _, _, f, _, t, ht, u, hu, rfl⟩ := h
  obtain ⟨hglobals, hmembers, hinductions⟩ := electionsOnResign_sameRoll ht
  obtain ⟨member', stats, o, sessions, hmember', _, _, rfl⟩ := remove_eq_ok hu
  have haccount : member'.account = account := Table.key_of_find? hmember'
  refine .leaves ?_ ?_ ?_ hinductions
  · rw [status, statusOf, hmember, Option.map_some, hactive]
  · intro a
    change statusOf (t.members.table.erase member'.account) a = _
    rw [statusOf_erase, haccount, hmembers]
    rfl
  · exact congrArg (Option.map Globals.stage) hglobals

theorem renameAccount_sole {s s' : State} {account newAccount : Name}
    (h : renameAccount p env s account newAccount = .ok s') :
    SoleStep p (.action (.rename account newAccount)) s s' := by
  simp only [renameAccount, bind_eq_ok, checkActiveMember_eq_ok, exists_const, pure_eq_ok] at h
  obtain ⟨_, _, _, _, _, _, user, _, ⟨member, hmember, hactive⟩, f, _, t, ht, i, hi, u, hu, _, _,
    rfl⟩ := h
  obtain ⟨_, o, _, rfl⟩ := electionsOnRename_eq_ok ht
  obtain ⟨member', table, o', sessions, hmember', htable, _, rfl⟩ := rename_eq_ok hu
  have hsame : s.members.table.find? account = some member' := hmember'
  rw [show s.members.table.find? account = some member from hmember, Option.some.injEq] at hsame
  subst hsame
  have haccount : member.account = account := Table.key_of_find? hmember
  subst haccount
  refine .renames ?_ ?_ ?_ rfl hi
  · rw [status, statusOf, hmember, Option.map_some, hactive]
  · exact statusOf_eq_none.mpr (Table.emplace?_new htable)
  · intro a
    have hrenamed := statusOf_renameRows htable member.electionRank a
    rw [hactive] at hrenamed
    exact hrenamed

/-- A call is a sequence of steps on the roll unless it makes only one. -/
theorem exec_roll {s s' : State} (hsole : makesOneStep call = false)
    (hsteps : Steps p call s s') (h : exec p env s call = .ok s')
    (hempty : s.inductions.endorsed = .empty) (hs : Counted s.members) : RollSteps s s' := by
  have hother : handlesInductions call = false → (∀ a, call ≠ .action (.resign a)) →
      (∀ a b, call ≠ .action (.rename a b)) → call ≠ .action .clearall → RollSteps s s' :=
    fun hcall hresign hrename hclear =>
      (steps_sameRoll hsteps hcall hresign hrename hclear).steps
  cases call with
  | action a =>
      simp only [exec, applyAction, bind_eq_ok, pure_eq_ok] at h
      obtain ⟨t, ht, rfl⟩ := h
      have hsent : SameRoll t { t with output := sendEvents t.output } := sameRoll_of_eq rfl rfl rfl
      have hrecorded : SameRoll s (record s (.action a)) := sameRoll_of_eq rfl rfl rfl
      have hcalled : RollSteps (record s (.action a)) t →
          RollSteps s { t with output := sendEvents t.output } :=
        fun hroll => (hrecorded.steps.trans hroll).trans hsent.steps
      cases a with
      | genesis => exact hcalled (genesis_roll ht)
      | addtogenesis => exact hcalled (addtogenesis_roll ht)
      | gensetexpire => exact hcalled (gensetexpire_roll ht)
      | inductdonate => exact hcalled (inductdonate_roll ht hempty hs)
      | inductcancel => exact hcalled (inductcancel_roll ht hs)
      | inducted inductee =>
          -- no induction is endorsed between calls
          simp only [dispatch, inducted, bind_eq_ok] at ht
          obtain ⟨_, _, _, _, i, hi, _⟩ := ht
          obtain ⟨row, hrow, _⟩ := getEndorsedInduction_eq_ok hi
          have hrow' : row ∈ s.inductions.endorsed.rows := hrow
          rw [hempty] at hrow'
          exact absurd hrow' (by simp)
      | gc => exact hcalled (gc_roll ht hs)
      | inductinit | inductprofil | inductvideo | inductendors | rename | resign | clearall =>
          exact absurd hsole (by simp [makesOneStep])
      | _ => exact hother rfl (by simp) (by simp) (by simp)
  | _ => exact hother rfl (by simp) (by simp) (by simp)

theorem exec_sole {s s' : State} (hsole : makesOneStep call = true)
    (h : exec p env s call = .ok s') :
    ∃ t t', SameRoll s t ∧ SoleStep p call t t' ∧ SameRoll t' s' := by
  cases call with
  | action a =>
      simp only [exec, applyAction, bind_eq_ok, pure_eq_ok] at h
      obtain ⟨t, ht, rfl⟩ := h
      refine ⟨record s (.action a), t, sameRoll_of_eq rfl rfl rfl, ?_, sameRoll_of_eq rfl rfl rfl⟩
      cases a with
      | inductinit => exact inductinit_sole ht
      | inductprofil => exact inductprofil_sole ht
      | inductvideo => exact inductvideo_sole ht
      | inductendors => exact inductendors_sole ht
      | rename => exact renameAccount_sole ht
      | resign => exact resign_sole ht
      | clearall =>
          simp only [dispatch, clearall, bind_eq_ok, pure_eq_ok] at ht
          obtain ⟨_, _, _, _, rfl⟩ := ht
          exact .clears rfl (fun _ => rfl) rfl rfl rfl
      | _ => exact absurd hsole (by simp [makesOneStep])
  | _ => exact absurd hsole (by simp [makesOneStep])

end Eden.InductionSteps
