import Eden.InductionEdits

/-!
Two ways to remove a genesis member whose induction has expired: `gc`, and `inductcancel` by the
contract. They agree when only other members endorse the inductions that are left.
-/

namespace Eden.GenesisRemovals

open Eden.ExceptReasoning
open Eden.SortedTable
open Eden.ChainPrimitives
open Eden.ContractState
open Eden.Runtime
open Eden.MemberTable
open Eden.InductionTables
open Eden.InductionChanges
open Eden.Maintenance
open Eden.ContractActions
open Eden.Transactions
open Eden.HostFunctions
open Eden.ActionSteps
open Eden.Electorate
open Eden.MemberStatistics
open Eden.InductionSteps
open Eden.EndorsedContents
open Eden.InductionEdits

variable {p : Platform} {env : Env}

/-! ### What `gc` collects -/

/-- An older induction expires first. -/
theorem isValidInduction_of_older {now : Nat} {i j : Induction} (hle : j.createdAt ≤ i.createdAt)
    (hi : isValidInduction now i = false) : isValidInduction now j = false := by
  unfold isValidInduction at hi ⊢
  rw [decide_eq_false_iff_not, Int.not_le] at hi ⊢
  have hage := Int.tdiv_le_tdiv (c := 1000000) (by decide)
    (Int.sub_le_sub_left (toTimePoint_le.mpr hle) (toTimePoint now))
  exact hi.trans_le hage

theorem mem_removed_of_mem {now limit : Nat} {rows : List Induction} {removed : List Name}
    {t : Inductions} {a : Name} (ha : a ∈ removed) :
    a ∈ (eraseExpiredFrom now rows limit removed t).2.1 := by
  fun_induction eraseExpiredFrom now rows limit removed t with
  | case1 => exact ha
  | case2 => exact ha
  | case3 => exact ha
  | case4 i rest limit removed t _ t' removed' ih =>
      apply ih
      simp only [removed']
      split
      · exact ha
      · exact List.mem_append_left _ ha

theorem gcInvitees_zero (invitees : List Name) (t : Inductions) :
    gcInvitees invitees 0 t = (0, t) := by
  cases invitees with
  | nil => rfl
  | cons invitee rest => rfl

variable {t : Inductions} {now limit : Nat} {i : Induction}

/-- An expired induction that is the only one to go leaves its invitee without an induction. -/
theorem invitee_removed (hi : i ∈ t.inductions.rows) (hexpired : isValidInduction now i = false)
    (honly : (gcInductions t now limit).2.2.inductions = t.inductions.erase i.id)
    (hnone : hasInduction (eraseInduction t i) i.invitee = false) :
    i.invitee ∈ (gcInductions t now limit).2.1 := by
  have hgone : i ∉ (gcInductions t now limit).2.2.inductions.rows := by
    rw [honly]
    exact fun hmem => (Table.mem_erase.mp hmem).2 rfl
  have hindex := Table.index_pairwise t.inductions Induction.createdAt
  have hmem : i ∈ t.inductions.index Induction.createdAt := Table.mem_index.mpr hi
  have hgc : Pruned (eraseExpired t now limit).2.2 (gcInductions t now limit).2.2 :=
    gcInvitees_pruned _ _ _
  change i.invitee ∈ (eraseExpired t now limit).2.1
  unfold eraseExpired at hgc ⊢
  cases hrows : t.inductions.index Induction.createdAt with
  | nil =>
      rw [hrows] at hmem
      exact absurd hmem (by simp)
  | cons j rest =>
      have hj : j ∈ t.inductions.rows := by
        have hindexed : j ∈ t.inductions.index Induction.createdAt := by
          rw [hrows]
          exact List.mem_cons_self
        exact Table.mem_index.mp hindexed
      have holder : j.createdAt ≤ i.createdAt := by
        rw [hrows] at hmem hindex
        rcases List.mem_cons.mp hmem with rfl | hmem
        · exact le_refl _
        · exact (List.pairwise_cons.mp hindex).1 i hmem
      have hfirst := isValidInduction_of_older holder hexpired
      rw [hrows] at hgc
      cases limit with
      | zero =>
          -- nothing is erased
          have hnothing : (gcInductions t now 0).2.2 = t := by
            have hexpire : eraseExpired t now 0 = (0, [], t) := by
              rw [eraseExpired, hrows, eraseExpiredFrom]
            change (gcInvitees (eraseExpired t now 0).2.2.gc.rows (eraseExpired t now 0).1
              (eraseExpired t now 0).2.2).2 = t
            rw [hexpire, gcInvitees_zero]
          rw [hnothing] at hgone
          exact absurd hi hgone
      | succ n =>
          have hstep : eraseExpiredFrom now (j :: rest) (n + 1) [] t =
              eraseExpiredFrom now rest n
                (if hasInduction (eraseInduction t j) j.invitee then [] else [] ++ [j.invitee])
                (eraseInduction t j) := by
            rw [eraseExpiredFrom, if_neg (by simp [hfirst])]
          rw [hstep] at hgc ⊢
          -- the oldest induction is erased, so it is this one
          have herased : j ∉ (gcInductions t now (n + 1)).2.2.inductions.rows := by
            intro hleft
            refine not_mem_eraseInduction t j ?_
            exact ((eraseExpiredFrom_erasures _ _ _ _ _).pruned.trans hgc).rows j hleft
          have hsame : j = i := by
            by_contra hne
            rw [honly] at herased
            refine herased (Table.mem_erase.mpr ⟨hj, fun hkey => hne ?_⟩)
            exact Table.eq_of_key_eq hj hi hkey
          subst hsame
          rw [hnone]
          exact mem_removed_of_mem (by simp)

/-- Only its endorsements go with the induction, and only its invitee is removed. -/
theorem gc_of_one (hknown : Known t) (hi : i ∈ t.inductions.rows)
    (hexpired : isValidInduction now i = false)
    (honly : (gcInductions t now limit).2.2.inductions = t.inductions.erase i.id)
    (hnone : hasInduction (eraseInduction t i) i.invitee = false) :
    (gcInductions t now limit).2.1 = [i.invitee] ∧
      (gcInductions t now limit).2.2.endorsements = (eraseInduction t i).endorsements := by
  have hpruned := gcInductions_pruned t now limit
  have hleft : ∀ id, (gcInductions t now limit).2.2.inductions.find? id ≠ none ↔
      t.inductions.find? id ≠ none ∧ id ≠ i.id := by
    intro id
    rw [honly, Table.find?_erase]
    by_cases hid : id = i.id
    · simp [hid]
    · simp [Ne.symm hid, hid]
  constructor
  · have hremoved := invitee_removed hi hexpired honly hnone
    refine List.perm_singleton.mp ((List.perm_ext_iff_of_nodup gcInductions_nodup
      (List.nodup_singleton _)).mpr fun a => ⟨fun ha => ?_, fun ha => ?_⟩)
    · obtain ⟨j, hj, rfl⟩ := gcInductions_invitees ha
      have hgone := hasInduction_eq_false.mp (gcInductions_removed ha)
      have hkey : j.id = i.id := by
        by_contra hne
        refine hgone j ?_ rfl
        rw [honly]
        exact Table.mem_erase.mpr ⟨hj, hne⟩
      rw [Table.eq_of_key_eq hj hi hkey]
      exact List.mem_singleton_self _
    · rw [List.mem_singleton.mp ha]
      exact hremoved
  · apply Table.eq_of_mem_iff
    intro e
    rw [eraseInduction_endorsements, List.mem_filter, decide_eq_true_eq]
    constructor
    · intro he
      have hfound := (hleft e.inductionId).mp (hpruned.known hknown e he)
      have hmem := mem_endorsementsOf.mpr ⟨he, rfl⟩
      rw [hpruned.endorsements _ ((hleft _).mpr hfound)] at hmem
      exact ⟨(mem_endorsementsOf.mp hmem).1, hfound.2⟩
    · rintro ⟨he, hne⟩
      have hmem := mem_endorsementsOf.mpr ⟨he, rfl⟩
      rw [← hpruned.endorsements _ ((hleft _).mpr ⟨hknown e he, hne⟩)] at hmem
      exact (mem_endorsementsOf.mp hmem).1

/-! ### Both calls -/

/-- The members without a pending one. -/
def dropped (m : Members) (account : Name) : Members :=
  { m with
    table := m.table.erase account
    stats := { m.stats with pendingMembers := m.stats.pendingMembers - 1 } }

/-- The stage after a genesis member was removed. -/
def stageWith (m : Members) : ContractStage :=
  if m.stats.pendingMembers = 0 then .active else .genesis

theorem removeIfPending_dropped {s s' : State} {account : Name}
    (h : removeIfPending p s account = .ok s')
    (hpending : status s account = some .pendingMembership) :
    s'.members = dropped s.members account ∧ s'.globals = s.globals ∧
      s'.inductions = s.inductions := by
  obtain ⟨member, hmember, ⟨hactive, _⟩ | ⟨_, _, o, sessions, _, rfl⟩⟩ := removeIfPending_eq_ok h
  · rw [status, statusOf, hmember, Option.map_some, hactive] at hpending
    exact absurd hpending (by simp)
  · exact ⟨rfl, rfl, rfl⟩

theorem removeIfPending_succeeds {s : State} {account : Name} (hcounted : Counted s.members)
    (hpending : status s account = some .pendingMembership) :
    ∃ s', removeIfPending p s account = .ok s' := by
  rw [status, statusOf, Option.map_eq_some_iff] at hpending
  obtain ⟨member, hmember, hstatus⟩ := hpending
  have hcount : s.members.stats.pendingMembers ≠ 0 := by
    have herase := Table.count_erase hmember (hasStatus .pendingMembership)
    rw [hcounted.pending, herase, if_pos (by simp [hasStatus, hstatus])]
    omega
  have hcheck : check (s.members.stats.pendingMembers ≠ 0) "Integer overflow" = .ok () :=
    check_eq_ok.mpr (decide_eq_true hcount)
  rw [removeIfPending, getRow_eq_ok.mpr hmember, ok_bind, if_pos hstatus, hcheck, ok_bind]
  exact ⟨_, rfl⟩

theorem maybeActivateContract_stage {s s' : State} (h : maybeActivateContract s = .ok s')
    (hgenesis : stageOf s = some .genesis) :
    stageOf s' = some (stageWith s.members) ∧ s'.members = s.members := by
  obtain ⟨g, hg, hstage⟩ := Option.map_eq_some_iff.mp hgenesis
  simp only [maybeActivateContract, bind_eq_ok, getGlobals_eq_ok] at h
  obtain ⟨g', hg', h⟩ := h
  rw [hg, Option.some.injEq] at hg'
  subst hg'
  have hlock : ∀ (l : List Member) (t : State),
      (l.foldl (fun s member => perform s (.locktemplate member.nftTemplateId)) t).globals =
        t.globals ∧
      (l.foldl (fun s member => perform s (.locktemplate member.nftTemplateId)) t).members =
        t.members := by
    intro l
    induction l with
    | nil => exact fun t => ⟨rfl, rfl⟩
    | cons member l ih => exact fun t => ih (perform t (.locktemplate member.nftTemplateId))
  split at h
  · rename_i hready
    rw [← pure_eq_ok.mp h, stageOf, (hlock _ _).1, (hlock _ _).2, stageWith, if_pos hready.2]
    exact ⟨rfl, rfl⟩
  · rename_i hwaits
    have hpending : s.members.stats.pendingMembers ≠ 0 := fun hnone => hwaits ⟨hstage, hnone⟩
    rw [← pure_eq_ok.mp h, hgenesis, stageWith, if_neg hpending]
    exact ⟨rfl, rfl⟩

theorem maybeActivateContract_succeeds {s : State} (hgenesis : stageOf s = some .genesis) :
    ∃ s', maybeActivateContract s = .ok s' := by
  obtain ⟨g, hg, _⟩ := Option.map_eq_some_iff.mp hgenesis
  have hglobals : getGlobals s = .ok g := getGlobals_eq_ok.mpr hg
  rw [maybeActivateContract, hglobals, ok_bind]
  split
  · exact ⟨_, rfl⟩
  · exact ⟨_, rfl⟩

/-- What a removal leaves: the tables of inductions, endorsements and members, and the stage. -/
structure Left (s s' : State) (i : Induction) (endorsements : Table Endorsement.id) : Prop where
  inductions : s'.inductions.inductions = s.inductions.inductions.erase i.id
  endorsements : s'.inductions.endorsements = endorsements
  members : s'.members = dropped s.members i.invitee
  stage : stageOf s' = some (stageWith (dropped s.members i.invitee))

theorem gc_left {s s' : State} {limit : Nat} {i : Induction} (hknown : Known s.inductions)
    (hgenesis : stageOf s = some .genesis) (hi : i ∈ s.inductions.inductions.rows)
    (hpending : status s i.invitee = some .pendingMembership)
    (hexpired : isValidInduction s.now i = false)
    (hnone : hasInduction (eraseInduction s.inductions i) i.invitee = false)
    (h : gc p env s limit = .ok s')
    (honly : s'.inductions.inductions = s.inductions.inductions.erase i.id) :
    Left s s' i (eraseInduction s.inductions i).endorsements := by
  simp only [gc, bind_eq_ok, check_eq_ok, exists_const] at h
  obtain ⟨_, _, ⟨remaining, t⟩, ht, _, h⟩ := h
  obtain ⟨o, auctions, _, rfl⟩ := finishAuctions_eq_ok ht
  obtain ⟨_, o', sessions, _, heq⟩ := gcSessions_eq p remaining
    { s with
      inductions := (gcInductions s.inductions s.now limit).2.2
      output := o
      auctions := auctions }
  simp only [heq] at h
  have hinductions : s'.inductions = (gcInductions s.inductions s.now limit).2.2 := by
    split at h
    · rw [← pure_eq_ok.mp h]
    · simp only [bind_eq_ok] at h
      obtain ⟨u, hu, h⟩ := h
      rw [maybeActivateContract_inductions h]
      exact (removeAll_status hu).2.1
  rw [hinductions] at honly
  obtain ⟨hremoved, hendorsements⟩ := gc_of_one hknown hi hexpired honly hnone
  rw [hremoved, if_neg (by simp)] at h
  simp only [bind_eq_ok, List.foldlM_cons, List.foldlM_nil, pure_eq_ok] at h
  obtain ⟨u, ⟨v, hv, rfl⟩, h⟩ := h
  obtain ⟨hmembers, hglobals, _⟩ := removeIfPending_dropped hv hpending
  have hstage : stageOf v = some .genesis := by
    rw [stageOf, hglobals]
    exact hgenesis
  obtain ⟨hstage', hmembers'⟩ := maybeActivateContract_stage h hstage
  refine ⟨?_, ?_, hmembers'.trans hmembers, ?_⟩
  · rw [hinductions, honly]
  · rw [hinductions, hendorsements]
  · rw [hstage', hmembers]

/-- Without endorsements by the removed member, the cancellation changes nothing more. -/
theorem inductcancel_left {s : State} {i : Induction} (hcounted : Counted s.members)
    (hgenesis : stageOf s = some .genesis) (hi : i ∈ s.inductions.inductions.rows)
    (hpending : status s i.invitee = some .pendingMembership)
    (hnone : hasInduction (eraseInduction s.inductions i) i.invitee = false)
    (hothers : ∀ e ∈ (eraseInduction s.inductions i).endorsements.rows, e.endorser ≠ i.invitee)
    (hauth : p.self ∈ env.auths) :
    ∃ s', inductcancel p env s p.self i.id = .ok s' ∧
      Left s s' i (eraseInduction s.inductions i).endorsements := by
  obtain ⟨g, hg, hstage⟩ := Option.map_eq_some_iff.mp hgenesis
  obtain ⟨t, ht⟩ := @removeIfPending_succeeds p
    { s with inductions := eraseInduction s.inductions i } i.invitee hcounted hpending
  obtain ⟨hmembers, hglobals, hinductions⟩ := removeIfPending_dropped ht hpending
  have hstage' : stageOf t = some .genesis := by
    rw [stageOf, hglobals]
    exact hgenesis
  have hendorser : eraseEndorser t.inductions i.invitee = .ok t.inductions := by
    have hempty : (t.inductions.endorsements.index endorserKey).filter
        (fun e => e.endorser = i.invitee) = [] := by
      rw [List.filter_eq_nil_iff]
      intro e he
      have hmem : e ∈ (eraseInduction s.inductions i).endorsements.rows := by
        rw [hinductions] at he
        exact Table.mem_index.mp he
      simpa using hothers e hmem
    rw [eraseEndorser, hempty]
    rfl
  obtain ⟨s', hs'⟩ := maybeActivateContract_succeeds (s := { t with inductions := t.inductions })
    hstage'
  obtain ⟨hstage'', hmembers'⟩ := maybeActivateContract_stage hs' hstage'
  refine ⟨s', ?_, ?_⟩
  · simp only [inductcancel, getInduction, bind_eq_ok, check_eq_ok, exists_const,
      getGlobals_eq_ok, getRow_eq_ok, requireAuth_eq_ok]
    refine ⟨hauth, g, hg, true, ?_, rfl, i, Table.find?_of_mem hi, ?_⟩
    · rw [if_pos hstage]
      simp
    · rw [if_neg (by simp [hnone])]
      simp only [bind_eq_ok]
      refine ⟨t, ht, ?_⟩
      rw [if_pos hstage]
      simp only [bind_eq_ok]
      exact ⟨t.inductions, hendorser, hs'⟩
  · have hsame := maybeActivateContract_inductions hs'
    refine ⟨?_, ?_, hmembers'.trans hmembers, ?_⟩
    · rw [hsame, hinductions]
      rfl
    · rw [hsame, hinductions]
    · rw [hstage'', hmembers]

/-! ### Agreement -/

/-- The two states agree on inductions, endorsements and members, and on the stage. -/
structure SameTables (s s' : State) : Prop where
  inductions : s'.inductions.inductions = s.inductions.inductions
  endorsements : s'.inductions.endorsements = s.inductions.endorsements
  members : s'.members = s.members
  stage : stageOf s' = stageOf s

/-- After `gc` has removed the invitee: `inductcancel` would have done the same, every endorser is
a member, and no induction that is left mints an asset for the removed account. -/
structure Agrees (p : Platform) (s s' : State) (i : Induction) : Prop where
  same : ∀ env, p.self ∈ env.auths →
    ∃ s'', inductcancel p env s p.self i.id = .ok s'' ∧ SameTables s' s''
  endorsers : ∀ e ∈ s'.inductions.endorsements.rows, s'.members.table.find? e.endorser ≠ none
  recipients : ∀ j ∈ s'.inductions.inductions.rows,
    i.invitee ∉ j.invitee :: getEndorsers s'.inductions j.id

/-- The other inductions are endorsed by other members only. -/
def othersEndorse (s : State) (i : Induction) : Bool :=
  s.inductions.endorsements.rows.all fun e =>
    e.inductionId = i.id ||
      (e.endorser ≠ i.invitee && (s.members.table.find? e.endorser).isSome)

theorem othersEndorse_iff {s : State} {i : Induction} :
    othersEndorse s i = true ↔ ∀ e ∈ (eraseInduction s.inductions i).endorsements.rows,
      (dropped s.members i.invitee).table.find? e.endorser ≠ none := by
  rw [othersEndorse, List.all_eq_true]
  constructor
  · intro h e he
    rw [eraseInduction_endorsements, List.mem_filter, decide_eq_true_eq] at he
    have hothers := h e he.1
    simp only [he.2, decide_false, Bool.false_or, Bool.and_eq_true, decide_eq_true_eq,
      Option.isSome_iff_ne_none] at hothers
    change (s.members.table.erase i.invitee).find? e.endorser ≠ none
    rw [Table.find?_erase, if_neg (Ne.symm hothers.1)]
    exact hothers.2
  · intro h e he
    by_cases hid : e.inductionId = i.id
    · simp [hid]
    · have hmember := h e (by
        rw [eraseInduction_endorsements, List.mem_filter]
        exact ⟨he, by simpa using hid⟩)
      change (s.members.table.erase i.invitee).find? e.endorser ≠ none at hmember
      rw [Table.find?_erase] at hmember
      split at hmember
      · exact absurd rfl hmember
      · rename_i hne
        simp only [hid, decide_false, Bool.false_or, Bool.and_eq_true, decide_eq_true_eq,
          Option.isSome_iff_ne_none]
        exact ⟨Ne.symm hne, hmember⟩

/-- A pending genesis member whose induction has expired is removed by `gc` as by a cancellation
if and only if the other inductions are endorsed by other members only. -/
theorem removals_agree {s s' : State} {i : Induction} {limit : Nat}
    (h : Reachable p (fun _ _ => True) s) (hgenesis : stageOf s = some .genesis)
    (hi : i ∈ s.inductions.inductions.rows)
    (hpending : status s i.invitee = some .pendingMembership)
    (hexpired : isValidInduction s.now i = false) (hgc : gc p env s limit = .ok s')
    (honly : s'.inductions.inductions = s.inductions.inductions.erase i.id) :
    Agrees p s s' i ↔ othersEndorse s i = true := by
  obtain ⟨hcounted, es, hvouched⟩ := reachable_vouched h
  have hnone : hasInduction (eraseInduction s.inductions i) i.invitee = false := by
    rw [hasInduction_eq_false]
    intro j hj hsame
    obtain ⟨hj, hne⟩ := Table.mem_erase.mp hj
    exact hne (hvouched.single hgenesis j hj i hi hsame)
  have hleft := gc_left hvouched.known hgenesis hi hpending hexpired hnone hgc honly
  rw [othersEndorse_iff]
  constructor
  · intro hagrees
    have hendorsers := hagrees.endorsers
    rw [hleft.endorsements, hleft.members] at hendorsers
    exact hendorsers
  · intro hothers
    have hnot : ∀ e ∈ (eraseInduction s.inductions i).endorsements.rows,
        e.endorser ≠ i.invitee := by
      rintro e he heq
      refine hothers e he ?_
      rw [heq]
      change (s.members.table.erase i.invitee).find? i.invitee = none
      rw [Table.find?_erase, if_pos rfl]
    refine ⟨?_, ?_, ?_⟩
    · intro env' hauth
      obtain ⟨s'', hs'', hleft''⟩ :=
        inductcancel_left hcounted hgenesis hi hpending hnone hnot hauth
      exact ⟨s'', hs'', hleft''.inductions.trans hleft.inductions.symm,
        hleft''.endorsements.trans hleft.endorsements.symm,
        hleft''.members.trans hleft.members.symm, hleft''.stage.trans hleft.stage.symm⟩
    · rw [hleft.endorsements, hleft.members]
      exact hothers
    · intro j hj hmem
      rw [hleft.inductions] at hj
      rcases List.mem_cons.mp hmem with hinvitee | hendorser
      · exact hasInduction_eq_false.mp hnone j hj hinvitee.symm
      · obtain ⟨e, he, heq⟩ := List.mem_map.mp hendorser
        have hrow := (mem_endorsementsOf.mp he).1
        rw [hleft.endorsements] at hrow
        exact hnot e hrow heq

/-! ### Runs -/

/-- Alice joins, and the induction of bob expires. -/
def bobExpired : List Transaction := foundation.take 4 ++ [(2300000, [])]

/-- Whether `gc` with a limit removes just this induction. -/
def collectsOnly (limit : Nat) (s : State) (i : Induction) : Bool :=
  ((gc host (signedBy alice) s limit).toOption.map fun s' => s'.inductions.inductions) =
    some (s.inductions.inductions.erase i.id)

def expiredMember (s : State) (i : Induction) : Bool :=
  status s i.invitee = some .pendingMembership && !isValidInduction s.now i && collectsOnly 1 s i

theorem expired_member {s : State} {i : Induction} (h : expiredMember s i = true) :
    status s i.invitee = some .pendingMembership ∧ isValidInduction s.now i = false ∧
      ∃ s', gc host (signedBy alice) s 1 = .ok s' ∧
        s'.inductions.inductions = s.inductions.inductions.erase i.id := by
  simp only [expiredMember, collectsOnly, Bool.and_eq_true, Bool.not_eq_true',
    decide_eq_true_eq] at h
  obtain ⟨⟨hpending, hexpired⟩, hgc⟩ := h
  obtain ⟨s', hs', honly⟩ := Option.map_eq_some_iff.mp hgc
  exact ⟨hpending, hexpired, s', ok_of_toOption hs', honly⟩

theorem bob_removed :
    ∃ s i s', runFromGenesis host (fun _ _ => True) bobExpired = some s ∧
      i.invitee = bob.name ∧ gc host (signedBy alice) s 1 = .ok s' ∧ Agrees host s s' i := by
  have hrun : (runFromGenesis host (fun _ _ => True) bobExpired).any (fun s =>
      stageOf s = some .genesis && s.inductions.inductions.rows.any fun i =>
        i.invitee = bob.name && othersEndorse s i && expiredMember s i) = true := by
    decide +kernel
  obtain ⟨s, hs, hstate⟩ := (Option.any_eq_true _ _).mp hrun
  simp only [Bool.and_eq_true, List.any_eq_true, decide_eq_true_eq] at hstate
  obtain ⟨hgenesis, i, hi, ⟨hbob, hothers⟩, hexpired⟩ := hstate
  obtain ⟨hpending, hinvalid, s', hgc, honly⟩ := expired_member hexpired
  exact ⟨s, i, s', hs, hbob, hgc,
    (removals_agree (reachable_of_run hs) hgenesis hi hpending hinvalid hgc honly).mpr hothers⟩

/-- The inductions of alice, bob and carol expire. -/
def allExpired : List Transaction := firstInduction.take 1 ++ [(2300000, [])]

/-- Whether alice endorses an induction after `gc`, and none after the cancellation. -/
def endorsesAfter (s : State) (i : Induction) : Bool :=
  (gc host (signedBy alice) s 1).toOption.any fun s' =>
    status s' alice.name = none && alice.name ∈ getEndorsers s'.inductions 2 &&
      (inductcancel host (signedBy contractSigner) s host.self i.id).toOption.any fun s'' =>
        alice.name ∉ getEndorsers s''.inductions 2

/-- Alice is removed by `gc` and stays an endorser of the others. The cancellation takes her
endorsements away. -/
theorem alice_endorses_on :
    ∃ s i s' s'', Reachable host (fun _ _ => True) s ∧ stageOf s = some .genesis ∧
      i ∈ s.inductions.inductions.rows ∧ i.invitee = alice.name ∧
      status s i.invitee = some .pendingMembership ∧ isValidInduction s.now i = false ∧
      gc host (signedBy alice) s 1 = .ok s' ∧
      s'.inductions.inductions = s.inductions.inductions.erase i.id ∧
      inductcancel host (signedBy contractSigner) s host.self i.id = .ok s'' ∧
      status s' alice.name = none ∧ alice.name ∈ getEndorsers s'.inductions 2 ∧
      alice.name ∉ getEndorsers s''.inductions 2 ∧ ¬ Agrees host s s' i := by
  have hrun : (runFromGenesis host (fun _ _ => True) allExpired).any (fun s =>
      stageOf s = some .genesis && s.inductions.inductions.rows.any fun i =>
        i.invitee = alice.name && expiredMember s i && endorsesAfter s i) = true := by
    decide +kernel
  obtain ⟨s, hs, hstate⟩ := (Option.any_eq_true _ _).mp hrun
  simp only [Bool.and_eq_true, List.any_eq_true, decide_eq_true_eq] at hstate
  obtain ⟨hgenesis, i, hi, ⟨halice, hexpired⟩, hafter⟩ := hstate
  obtain ⟨hpending, hinvalid, s', hgc, honly⟩ := expired_member hexpired
  rw [endorsesAfter, hgc] at hafter
  simp only [Except.toOption, Option.any_some, Bool.and_eq_true, decide_eq_true_eq] at hafter
  obtain ⟨⟨hnone, hendorses⟩, hcancel⟩ := hafter
  obtain ⟨s'', hs'', hgone⟩ := (Option.any_eq_true _ _).mp hcancel
  refine ⟨s, i, s', s'', reachable_of_run hs, hgenesis, hi, halice, hpending, hinvalid, hgc, honly,
    ok_of_toOption hs'', hnone, hendorses, of_decide_eq_true hgone, fun hagrees => ?_⟩
  obtain ⟨e, he, heq⟩ := List.mem_map.mp hendorses
  refine hagrees.endorsers e (mem_endorsementsOf.mp he).1 ?_
  rw [heq]
  exact statusOf_eq_none.mp hnone

end Eden.GenesisRemovals
