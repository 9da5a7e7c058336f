import Eden.EndorsedContents

/-!
How calls change the inductions and the endorsements, row by row.
-/

namespace Eden.InductionEdits

open Eden.ExceptReasoning
open Eden.SortedTable
open Eden.ChainPrimitives
open Eden.ContractState
open Eden.Runtime
open Eden.MemberTable
open Eden.DistributionTables
open Eden.ElectionPhases
open Eden.InductionTables
open Eden.InductionChanges
open Eden.Maintenance
open Eden.ContractActions
open Eden.Transactions
open Eden.ContractSteps
open Eden.ActionSteps
open Eden.MemberStatistics
open Eden.InductionSteps
open Eden.EndorsedContents

variable {p : Platform} {env : Env} {call : Call}

/-! ### Edits -/

/-- An endorsement is of an induction, with the same inviter and invitee. -/
def Cites (e : Endorsement) (i : Induction) : Prop :=
  e.inductionId = i.id ∧ e.inviter = i.inviter ∧ e.invitee = i.invitee

/-- What an edit of its contents leaves of an induction. -/
def terms (i : Induction) : Nat × Name × Name × Nat :=
  (i.id, i.inviter, i.invitee, i.endorsements)

/-- What is left of an endorsement when it is given or reset. -/
def parties (e : Endorsement) : Nat × Name × Name × Name :=
  (e.inductionId, e.inviter, e.invitee, e.endorser)

/-- A new induction with an endorsement row for each of its endorsers. -/
structure Begins (t t' : Inductions) (i : Induction) (rows : List Endorsement) : Prop where
  new : t.inductions.find? i.id = none
  inductions : ∀ j, j ∈ t'.inductions.rows ↔ j = i ∨ j ∈ t.inductions.rows
  endorsements : t'.endorsements.rows.Perm (rows ++ t.endorsements.rows)
  cites : ∀ e ∈ rows, Cites e i
  distinct : (rows.map Endorsement.endorser).Nodup
  count : i.endorsements = rows.length % 2 ^ 32

/-- An induction with one more endorsement. -/
def counted (i : Induction) : Induction :=
  { i with endorsements := (i.endorsements + 1) % 2 ^ 32 }

/-- A new endorsement of every induction by the same endorser. -/
structure Enlists (t t' : Inductions) (endorser : Name) (rows : List Endorsement) : Prop where
  inductions : t'.inductions.rows = t.inductions.rows.map counted
  endorsements : t'.endorsements.rows.Perm (rows ++ t.endorsements.rows)
  ids : (rows.map Endorsement.inductionId).Perm (t.inductions.rows.map Induction.id)
  endorser : ∀ e ∈ rows, e.endorser = endorser
  cites : ∀ e ∈ rows, ∃ i ∈ t.inductions.rows, Cites e i

/-- A change of the inductions and the endorsements. -/
inductive Edit : Inductions → Inductions → Prop
  | revises {t t' : Inductions} :
      t'.inductions.rows.map terms = t.inductions.rows.map terms →
      t'.endorsements.rows.map parties = t.endorsements.rows.map parties → Edit t t'
  | begins {t t' : Inductions} {i : Induction} {rows : List Endorsement} :
      Begins t t' i rows → Edit t t'
  | erases (t : Inductions) (i : Induction) : Edit t (eraseInduction t i)
  | withdraws {t t' : Inductions} {e : Endorsement} :
      e ∈ t.endorsements.rows → eraseEndorsement t e = .ok t' → Edit t t'
  | clears {t t' : Inductions} :
      t'.inductions.rows = [] → t'.endorsements.rows = [] → Edit t t'

abbrev Edits : Inductions → Inductions → Prop := Relation.ReflTransGen Edit

/-- What a call does to the endorsers first. -/
inductive Opening : Call → Inductions → Inductions → Prop
  | none (call : Call) (t : Inductions) : Opening call t t
  | enlists {t t' : Inductions} {newmember : Name} {expiration : Int} {rows : List Endorsement} :
      Enlists t t' newmember rows →
      Opening (.action (.addtogenesis newmember expiration)) t t'
  | renames {t t' : Inductions} {account newAccount : Name} :
      renameEndorser t account newAccount = .ok t' →
      Opening (.action (.rename account newAccount)) t t'

theorem edit_of_eq {t t' : Inductions} (hinductions : t'.inductions = t.inductions)
    (hendorsements : t'.endorsements = t.endorsements) : Edit t t' :=
  .revises (by rw [hinductions]) (by rw [hendorsements])

theorem edits_of_eq {t t' : Inductions} (hinductions : t'.inductions = t.inductions)
    (hendorsements : t'.endorsements = t.endorsements) : Edits t t' :=
  .single (edit_of_eq hinductions hendorsements)

theorem edits_of_sameRoll {s s' : State} (h : SameRoll s s') :
    Edits s.inductions s'.inductions := edits_of_eq h.inductions h.endorsements

theorem edits_of_erasures {t t' : Inductions} (h : Erasures t t') : Edits t t' := by
  induction h with
  | refl => exact .refl
  | tail _ hlast ih =>
      refine ih.tail ?_
      cases hlast with
      | induction i => exact .erases _ i
      | queued invitee => exact edit_of_eq rfl rfl

/-! ### New rows -/

theorem createEndorsements_parties {t t' : Inductions} {inviter invitee : Name} {inductionId : Nat}
    {endorsers : List Name}
    (h : createEndorsements t inviter invitee inductionId endorsers = .ok t') :
    ∀ e ∈ t'.endorsements.rows, e ∈ t.endorsements.rows ∨
      (e.inviter = inviter ∧ e.invitee = invitee) := by
  refine foldlM_preserves (fun u : Inductions => ∀ e ∈ u.endorsements.rows,
    e ∈ t.endorsements.rows ∨ (e.inviter = inviter ∧ e.invitee = invitee)) ?_ endorsers h
    fun _ he => .inl he
  intro u endorser u' hu ih e he
  simp only [createEndorsement, bind_eq_ok, expect_eq_ok, pure_eq_ok] at hu
  obtain ⟨table, htable, rfl⟩ := hu
  rcases (Table.mem_emplace? htable).mp he with rfl | hold
  · exact .inr ⟨rfl, rfl⟩
  · exact ih e hold

/-- The endorsements that come with a new induction. -/
theorem begins_of_create {t t' : Inductions} {i : Induction} {table : Table Induction.id}
    {endorsers : List Name}
    (h : createEndorsements { t with inductions := table } i.inviter i.invitee i.id endorsers =
      .ok t')
    (hnew : t.inductions.find? i.id = none)
    (hrows : ∀ j, j ∈ table.rows ↔ j = i ∨ j ∈ t.inductions.rows) (hnodup : endorsers.Nodup) (hcount : i.endorsements = endorsers.length % 2 ^ 32) :
    ∃ rows, Begins t t' i rows := by
  have hparties := createEndorsements_parties h
  obtain ⟨table', rows, rfl, hperm, hmap, hids⟩ := createEndorsements_adds h
  have hlength : rows.length = endorsers.length := by
    rw [← List.length_map (f := Endorsement.endorser), hmap, List.length_reverse]
  refine ⟨rows, hnew, hrows, hperm, ?_, ?_, ?_⟩
  · intro e he
    have hnodup' := hperm.nodup_iff.mp table'.nodup_rows
    rcases hparties e (hperm.mem_iff.mpr (List.mem_append_left _ he)) with hold | hnames
    · exact absurd hold (List.disjoint_of_nodup_append hnodup' he)
    · exact ⟨(hids e he).1, hnames⟩
  · rw [hmap]
    exact List.nodup_reverse.mpr hnodup
  · rw [hcount, hlength]

/-! ### Contents -/

theorem map_setEndorsed (t : Inductions) (id : Nat) (endorsed : Bool) :
    (setEndorsed t id endorsed).endorsements.rows.map parties =
      t.endorsements.rows.map parties := by
  simp only [setEndorsed, Table.update, List.map_map]
  apply List.map_congr_left
  intro e _
  simp only [Function.comp_apply]
  split
  · rfl
  · rfl

theorem edit_of_replace {t t' : Inductions} {i j : Induction}
    (hi : t.inductions.find? i.id = some i) (hterms : terms j = terms i)
    (hinductions : t'.inductions = t.inductions.replace j)
    (hendorsements : t'.endorsements.rows.map parties = t.endorsements.rows.map parties) :
    Edit t t' := by
  refine .revises ?_ hendorsements
  have hid : j.id = i.id := (Prod.mk.inj hterms).1
  rw [← hid] at hi
  rw [hinductions]
  exact Table.map_replace hi hterms

theorem inductprofil_edits {s s' : State} {id : Nat} {profile : NewMemberProfile}
    (h : inductprofil p env s id profile = .ok s') : Edits s.inductions s'.inductions := by
  simp only [inductprofil, updateProfile, getInduction, bind_eq_ok, getGlobals_eq_ok, getRow_eq_ok,
    pure_eq_ok] at h
  obtain ⟨g, hg, i, hi, _, _, _, _, _, ⟨_, _, _, _, rfl⟩, rfl⟩ := h
  have hid := Table.key_of_find? hi
  subst hid
  refine .single (edit_of_replace (j := { i with newMemberProfile := profile }) hi rfl ?_ ?_)
  · split
    · rfl
    · rfl
  · split
    · exact (map_setEndorsed _ _ _).trans (map_setEndorsed _ _ _)
    · exact map_setEndorsed _ _ _

theorem inductvideo_edits {s s' : State} {account : Name} {id : Nat} {video : Text}
    (h : inductvideo p env s account id video = .ok s') : Edits s.inductions s'.inductions := by
  simp only [inductvideo, updateVideo, getInduction, bind_eq_ok, getGlobals_eq_ok, getRow_eq_ok,
    check_eq_ok, exists_const, pure_eq_ok, decide_eq_true_eq] at h
  obtain ⟨_, _, g, hg, i, hi, hstage, _, _, _, _, ⟨_, _, _, _, rfl⟩, rfl⟩ := h
  have hid := Table.key_of_find? hi
  subst hid
  refine .single (edit_of_replace (j := { i with video := video }) hi rfl rfl ?_)
  exact map_setEndorsed _ _ _

theorem inductendors_edits {s s' : State} {account : Name} {id : Nat} {hash : Checksum}
    (h : inductendors p env s account id hash = .ok s') : Edits s.inductions s'.inductions := by
  simp only [inductendors, getInduction, bind_eq_ok, getRow_eq_ok, check_eq_ok, exists_const,
    pure_eq_ok] at h
  obtain ⟨_, _, _, _, i, hi, _, _, _, _, _, t, ht, rfl⟩ := h
  obtain ⟨_, _, _, row, hrow, _, _, rfl⟩ := endorse_eq_ok ht
  let row' : Endorsement := { row with endorsed := true }
  have hfound : s.inductions.endorsements.find? row'.id = some row := Table.find?_of_mem hrow
  have hsame : parties row' = parties row := rfl
  exact .single (.revises rfl (Table.map_replace hfound hsame))

theorem gensetexpire_edits {s s' : State} {id : Nat} {newExpiration : Int}
    (h : gensetexpire p env s id newExpiration = .ok s') : Edits s.inductions s'.inductions := by
  simp only [gensetexpire, updateExpiration, getInduction, bind_eq_ok, getGlobals_eq_ok,
    getRow_eq_ok, check_eq_ok, exists_const, pure_eq_ok, decide_eq_true_eq] at h
  obtain ⟨_, _, g, hg, i, hi, hstage, _, ⟨_, _, rfl⟩, rfl⟩ := h
  have hid := Table.key_of_find? hi
  subst hid
  let j : Induction :=
    { i with createdAt := ofTimePoint (newExpiration - seconds inductionExpirationSecs) }
  exact .single (edit_of_replace (j := j) hi rfl rfl rfl)

/-! ### Invitations -/

theorem inductinit_edits {s s' : State} {id : Nat} {inviter invitee : Name} {witnesses : List Name}
    (h : inductinit env s id inviter invitee witnesses = .ok s') :
    Edits s.inductions s'.inductions := by
  simp only [inductinit, initializeInduction, checkValidEndorsers, bind_eq_ok, check_eq_ok,
    exists_const, getGlobals_eq_ok, pure_eq_ok, decide_eq_true_eq, Bool.and_eq_true] at h
  obtain ⟨_, _, g, hg, hstage, _, _, _, _, members, hmembers, t,
    ⟨_, _, ⟨⟨hmin, hmax⟩, hdistinct, hinviter⟩, _, u, hu, ht⟩, rfl⟩ := h
  obtain ⟨table, htable, rfl⟩ := createInduction_eq_ok hu
  let i : Induction := ⟨id, inviter, invitee, witnesses.length + 1, s.now, [], {}⟩
  have hnodup : (inviter :: witnesses).Nodup := by
    refine List.nodup_cons.mpr ⟨hinviter, ?_⟩
    rw [← List.dedup_eq_self]
    exact (List.dedup_sublist witnesses).eq_of_length hdistinct
  have hcount : i.endorsements = (inviter :: witnesses).length % 2 ^ 32 := by
    rw [List.length_cons]
    change witnesses.length + 1 = _
    omega
  obtain ⟨rows, hbegins⟩ := begins_of_create (i := i) ht (Table.emplace?_new htable)
    (fun j => Table.mem_emplace? htable) hnodup hcount
  exact .single (.begins hbegins)

theorem create_new {m m' : Members} {account : Name} (h : create m account = .ok m') :
    m.table.find? account = none ∧ ∀ a, m.table.find? a ≠ none → m'.table.find? a ≠ none := by
  simp only [create, bind_eq_ok, check_eq_ok, exists_const, expect_eq_ok, pure_eq_ok] at h
  obtain ⟨_, table, htable, rfl⟩ := h
  refine ⟨Table.emplace?_new htable, fun a ha => ?_⟩
  rw [Table.find?_emplace? htable]
  split
  · simp
  · exact ha

theorem createGenesisMember_new {initialMembers : List Name} {video : Text}
    {acc acc' : State × Nat} {invitee : Name}
    (h : createGenesisMember p initialMembers video acc invitee = .ok acc') :
    create acc.1.members invitee = .ok acc'.1.members := by
  simp only [createGenesisMember, bind_eq_ok, pure_eq_ok] at h
  obtain ⟨members, hmembers, t, ht, u, hu, rfl⟩ := h
  exact hmembers

/-- Nobody is created twice. -/
theorem createGenesisMembers_nodup {initialMembers l : List Name} {video : Text}
    {acc acc' : State × Nat}
    (h : l.foldlM (createGenesisMember p initialMembers video) acc = .ok acc') :
    l.Nodup ∧ ∀ a ∈ l, acc.1.members.table.find? a = none := by
  induction l generalizing acc with
  | nil => simp
  | cons invitee l ih =>
      rw [List.foldlM_cons, bind_eq_ok] at h
      obtain ⟨next, hnext, h⟩ := h
      obtain ⟨hnodup, hnone⟩ := ih h
      have hcreate := createGenesisMember_new hnext
      obtain ⟨hnew, hkeeps⟩ := create_new hcreate
      have hfound : next.1.members.table.find? invitee ≠ none := by
        simp only [create, bind_eq_ok, check_eq_ok, exists_const, expect_eq_ok,
          pure_eq_ok] at hcreate
        obtain ⟨_, table, htable, heq⟩ := hcreate
        rw [← heq]
        change table.find? invitee ≠ none
        rw [Table.find?_emplace? htable, if_pos rfl]
        simp
      refine ⟨List.nodup_cons.mpr ⟨fun hmem => hfound (hnone invitee hmem), hnodup⟩, ?_⟩
      intro a ha
      rcases List.mem_cons.mp ha with rfl | ha
      · exact hnew
      · by_contra hfound'
        exact hkeeps a hfound' (hnone a ha)

theorem length_filter_ne {l : List Name} {a : Name} (hnodup : l.Nodup) (ha : a ∈ l) :
    (l.filter (· ≠ a)).length + 1 = l.length := by
  have herase : l.filter (· ≠ a) = l.erase a := by
    rw [hnodup.erase_eq_filter]
    exact List.filter_congr fun b _ => by simp [bne, Bool.beq_eq_decide_eq]
  have hpos := List.length_pos_of_mem ha
  rw [herase, List.length_erase_of_mem ha]
  omega

theorem createGenesisMember_edits {initialMembers : List Name} {video : Text}
    {acc acc' : State × Nat} {invitee : Name}
    (h : createGenesisMember p initialMembers video acc invitee = .ok acc')
    (hnodup : initialMembers.Nodup) (hmem : invitee ∈ initialMembers) :
    Edits acc.1.inductions acc'.1.inductions := by
  simp only [createGenesisMember, bind_eq_ok, pure_eq_ok] at h
  obtain ⟨members, hmembers, t, ht, u, hu, rfl⟩ := h
  obtain ⟨table, htable, rfl⟩ := createInduction_eq_ok ht
  let i : Induction := ⟨acc.2, p.self, invitee, (initialMembers.length + (2 ^ 32 - 1)) % 2 ^ 32,
    acc.1.now, video, {}⟩
  have hcount : i.endorsements = (initialMembers.filter (· ≠ invitee)).length % 2 ^ 32 := by
    have hlength := length_filter_ne hnodup hmem
    change (initialMembers.length + (2 ^ 32 - 1)) % 2 ^ 32 = _
    omega
  obtain ⟨rows, hbegins⟩ := begins_of_create (i := i) hu (Table.emplace?_new htable)
    (fun j => Table.mem_emplace? htable) (hnodup.filter _) hcount
  exact .single (.begins hbegins)

theorem genesis_edits {s s' : State} {community : Text} {communitySymbol : Symbol}
    {minimumDonation : Asset} {initialMembers : List Name} {genesisVideo : Text}
    {auctionStartingBid : Asset} {auctionDuration electionDay : Nat} {electionTime : Text}
    (h : genesis p env s community communitySymbol minimumDonation initialMembers genesisVideo
      auctionStartingBid auctionDuration electionDay electionTime = .ok s') :
    Edits s.inductions s'.inductions := by
  simp only [genesis, emplaceMasterPool, bind_eq_ok, check_eq_ok, exists_const, expect_eq_ok,
    pure_eq_ok] at h
  obtain ⟨_, _, _, _, hnone, _, ⟨pools, _, rfl⟩, owned, _, t, ht, ⟨u, n⟩, hu, rfl⟩ := h
  have hset := setTime_sameRoll ht
  have hedits : Edits s.inductions t.inductions := by
    refine edits_of_eq ?_ ?_
    · exact hset.inductions
    · exact hset.endorsements
  have hnodup := (createGenesisMembers_nodup hu).1
  have hall : ∀ {l : List Name} {acc acc' : State × Nat}, (∀ a ∈ l, a ∈ initialMembers) →
      l.foldlM (createGenesisMember p initialMembers genesisVideo) acc = .ok acc' →
        Edits acc.1.inductions acc'.1.inductions := by
    intro l
    induction l with
    | nil =>
        intro acc acc' _ h
        rw [pure_eq_ok.mp h]
    | cons invitee l ih =>
        intro acc acc' hl h
        rw [List.foldlM_cons, bind_eq_ok] at h
        obtain ⟨next, hnext, h⟩ := h
        have hfirst := createGenesisMember_edits hnext hnodup (hl invitee List.mem_cons_self)
        exact hfirst.trans (ih (fun a ha => hl a (List.mem_cons_of_mem _ ha)) h)
  have hmembers := hall (fun _ ha => ha) hu
  exact hedits.trans hmembers

/-- One endorsement of an induction that is counted in it. -/
theorem addEndorsement_eq_ok {t t' : Inductions} {i : Induction} {endorser : Name}
    (h : addEndorsement t i endorser true = .ok t') :
    ∃ table e, t' = { t with
      inductions := t.inductions.replace (counted i)
      endorsements := table } ∧ table.rows.Perm (e :: t.endorsements.rows) ∧ Cites e i ∧
        e.endorser = endorser := by
  simp only [addEndorsement, createEndorsement, bind_eq_ok, expect_eq_ok, pure_eq_ok] at h
  obtain ⟨table, htable, rfl⟩ := h
  exact ⟨table, _, rfl, Table.emplace?_perm htable, ⟨rfl, rfl, rfl⟩, rfl⟩

theorem rows_replace_counted {t : Table Induction.id} {i : Induction} (hi : i ∈ t.rows) :
    (t.replace (counted i)).rows = t.rows.map fun k => if k.id = i.id then counted k else k := by
  simp only [Table.replace, Table.update]
  apply List.map_congr_left
  intro k hk
  change (if k.id = i.id then counted i else k) = _
  split
  · rename_i hkey
    rw [Table.eq_of_key_eq hk hi hkey]
  · rfl

theorem addEndorsements_rows {l : List Induction} {endorser : Name} {u u' : Inductions}
    (h : l.foldlM (fun t i => addEndorsement t i endorser true) u = .ok u')
    (hl : ∀ i ∈ l, i ∈ u.inductions.rows) (hnodup : (l.map Induction.id).Nodup) :
    ∃ rows : List Endorsement,
      (u'.inductions.rows =
        u.inductions.rows.map fun k => if k.id ∈ l.map Induction.id then counted k else k) ∧
      u'.endorsements.rows.Perm (rows ++ u.endorsements.rows) ∧
      (rows.map Endorsement.inductionId).Perm (l.map Induction.id) ∧
      (∀ e ∈ rows, e.endorser = endorser) ∧ ∀ e ∈ rows, ∃ i ∈ l, Cites e i := by
  induction l generalizing u with
  | nil =>
      rw [← pure_eq_ok.mp h]
      exact ⟨[], by simp, .refl _, .refl _, by simp, by simp⟩
  | cons i l ih =>
      rw [List.foldlM_cons, bind_eq_ok] at h
      obtain ⟨v, hv, h⟩ := h
      obtain ⟨table, e, rfl, htable, hcites, hendorser⟩ := addEndorsement_eq_ok hv
      obtain ⟨hfirst, hrest⟩ := List.nodup_cons.mp hnodup
      have hi := hl i List.mem_cons_self
      have hreplaced := rows_replace_counted hi
      obtain ⟨rows, hinductions, hperm, hids, hsame, hcited⟩ := ih h (by
        intro j hj
        have hne : j.id ≠ i.id := by
          intro hkey
          rw [← hkey] at hfirst
          exact hfirst (List.mem_map_of_mem hj)
        rw [hreplaced, List.mem_map]
        exact ⟨j, hl j (List.mem_cons_of_mem _ hj), if_neg hne⟩) hrest
      refine ⟨rows ++ [e], ?_, ?_, ?_, ?_, ?_⟩
      · rw [hinductions, hreplaced, List.map_map]
        apply List.map_congr_left
        intro k _
        simp only [Function.comp_apply, List.map_cons, List.mem_cons]
        by_cases hkey : k.id = i.id
        · have hcounted : (counted k).id ∉ l.map Induction.id := by
            change k.id ∉ _
            rw [hkey]
            exact hfirst
          rw [if_pos hkey, if_neg hcounted, if_pos (.inl hkey)]
        · simp only [hkey, if_false, false_or]
      · rw [List.append_assoc]
        exact hperm.trans (htable.append_left rows)
      · rw [List.map_append, List.map_singleton, hcites.1, List.map_cons]
        exact List.perm_append_comm.trans (hids.cons i.id)
      · intro d hd
        rcases List.mem_append.mp hd with hd | hd
        · exact hsame d hd
        · rw [List.mem_singleton.mp hd]
          exact hendorser
      · intro d hd
        rcases List.mem_append.mp hd with hd | hd
        · obtain ⟨j, hj, hdj⟩ := hcited d hd
          exact ⟨j, List.mem_cons_of_mem _ hj, hdj⟩
        · rw [List.mem_singleton.mp hd]
          exact ⟨i, List.mem_cons_self, hcites⟩

theorem addEndorsements_enlists {t t' : Inductions} {endorser : Name}
    (h : t.inductions.rows.foldlM (fun t i => addEndorsement t i endorser true) t = .ok t') :
    ∃ rows, Enlists t t' endorser rows := by
  obtain ⟨rows, hinductions, hperm, hids, hendorser, hcites⟩ :=
    addEndorsements_rows h (fun _ hi => hi) t.inductions.nodup_keys
  refine ⟨rows, ?_, hperm, hids, hendorser, hcites⟩
  rw [hinductions]
  apply List.map_congr_left
  intro k hk
  rw [if_pos (List.mem_map_of_mem hk)]

theorem addtogenesis_edits {s s' : State} {newmember : Name} {expiration : Int}
    (h : addtogenesis p env s newmember expiration = .ok s') :
    ∃ t rows, Enlists s.inductions t newmember rows ∧ Edits t s'.inductions := by
  simp only [addtogenesis, updateExpiration, getInduction, bind_eq_ok, check_eq_ok, exists_const,
    expect_eq_ok, getGlobals_eq_ok, getRow_eq_ok, pure_eq_ok, decide_eq_true_eq] at h
  obtain ⟨_, _, g, hg, hstage, members, hmembers, t₁, ht₁, first, _, t₂, ht₂, i, hi, _,
    ⟨_, _, rfl⟩, t₄, ht₄, h⟩ := h
  obtain ⟨o, auctions, _, rfl⟩ := foldlM_auctions (fun _ _ _ hmint => mintForMember_eq_ok hmint) _ h
  obtain ⟨rows, henlists⟩ := addEndorsements_enlists ht₁
  refine ⟨t₁, rows, henlists, ?_⟩
  obtain ⟨table, htable, rfl⟩ := createInduction_eq_ok ht₂
  rw [Table.find?_emplace? htable, if_pos rfl, Option.some.injEq] at hi
  subst hi
  let i : Induction := ⟨(t₁.inductions.rows.getLast?.map fun i => i.id + 1).getD 0, p.self,
    newmember, (s.members.table.rows.map Member.account).length % 2 ^ 32,
    ofTimePoint (expiration - seconds inductionExpirationSecs), first.video, {}⟩
  have hall : (s.members.table.rows.map Member.account).filter (· ≠ newmember) =
      s.members.table.rows.map Member.account := by
    rw [List.filter_eq_self]
    intro a ha
    obtain ⟨member, hmember, rfl⟩ := List.mem_map.mp ha
    have hne := Table.find?_eq_none.mp (create_new hmembers).1 member hmember
    simpa using hne
  rw [hall] at ht₄
  have hfresh := Table.emplace?_new htable
  have hnew : t₁.inductions.find? i.id = none := hfresh
  obtain ⟨rows', hbegins⟩ := begins_of_create (t := t₁) (i := i) ht₄ hnew
    (fun j => mem_replace_new htable rfl) s.members.table.nodup_keys rfl
  exact .single (.begins hbegins)

/-! ### Inductions that end -/

theorem eraseEndorsements_edits {l : List Endorsement} {t t' : Inductions}
    (h : l.foldlM eraseEndorsement t = .ok t') (hl : ∀ e ∈ l, e ∈ t.endorsements.rows)
    (hnodup : l.Nodup) : Edits t t' := by
  induction l generalizing t with
  | nil => rw [pure_eq_ok.mp h]
  | cons e l ih =>
      rw [List.foldlM_cons, bind_eq_ok] at h
      obtain ⟨u, hu, h⟩ := h
      obtain ⟨hfirst, hrest⟩ := List.nodup_cons.mp hnodup
      have he := hl e List.mem_cons_self
      refine .head (.withdraws he hu) (ih h ?_ hrest)
      simp only [eraseEndorsement, bind_eq_ok, getRow_eq_ok, check_eq_ok, exists_const,
        pure_eq_ok] at hu
      obtain ⟨i, _, _, rfl⟩ := hu
      intro d hd
      have hd' := hl d (List.mem_cons_of_mem _ hd)
      refine Table.mem_erase.mpr ⟨hd', fun hkey => ?_⟩
      rw [Table.eq_of_key_eq hd' he hkey] at hd
      exact hfirst hd

theorem eraseEndorser_edits {t t' : Inductions} {endorser : Name}
    (h : eraseEndorser t endorser = .ok t') : Edits t t' := by
  refine eraseEndorsements_edits h ?_ ?_
  · intro e he
    exact Table.mem_index.mp (List.mem_filter.mp he).1
  · exact ((Table.index_perm _ _).nodup_iff.mpr t.endorsements.nodup_rows).filter _

theorem maybeActivateContract_inductions {s s' : State} (h : maybeActivateContract s = .ok s') :
    s'.inductions = s.inductions := by
  obtain ⟨_, _, _, _, _, _, rfl⟩ := maybeActivateContract_eq_ok h
  rfl

theorem inductcancel_edits {s s' : State} {account : Name} {id : Nat}
    (h : inductcancel p env s account id = .ok s') : Edits s.inductions s'.inductions := by
  simp only [inductcancel, getInduction, bind_eq_ok, check_eq_ok, exists_const, getGlobals_eq_ok,
    getRow_eq_ok] at h
  obtain ⟨_, _, g, hg, _, _, _, i, hi, h⟩ := h
  refine .head (.erases s.inductions i) ?_
  split at h
  · rw [← pure_eq_ok.mp h]
  · simp only [bind_eq_ok] at h
    obtain ⟨t, ht, h⟩ := h
    have hinductions : t.inductions = eraseInduction s.inductions i :=
      (removeIfPending_status ht).2.1
    split at h
    · simp only [bind_eq_ok] at h
      obtain ⟨u, hu, h⟩ := h
      rw [maybeActivateContract_inductions h, ← hinductions]
      exact eraseEndorser_edits hu
    · rw [← pure_eq_ok.mp h, hinductions]

theorem gc_edits {s s' : State} {limit : Nat} (h : gc p env s limit = .ok s') :
    Edits s.inductions s'.inductions := by
  simp only [gc, bind_eq_ok, check_eq_ok, exists_const] at h
  obtain ⟨_, _, ⟨remaining, t⟩, ht, _, h⟩ := h
  obtain ⟨o, auctions, _, rfl⟩ := finishAuctions_eq_ok ht
  obtain ⟨_, o', sessions, _, heq⟩ := gcSessions_eq p remaining
    { s with
      inductions := (gcInductions s.inductions s.now limit).2.2
      output := o
      auctions := auctions }
  simp only [heq] at h
  have hedits := edits_of_erasures (gcInductions_erasures s.inductions s.now limit)
  split at h
  · rw [← pure_eq_ok.mp h]
    exact hedits
  · simp only [bind_eq_ok] at h
    obtain ⟨u, hu, h⟩ := h
    have hinductions : u.inductions = (gcInductions s.inductions s.now limit).2.2 :=
      (removeAll_status hu).2.1
    rw [maybeActivateContract_inductions h, hinductions]
    exact hedits

theorem inducted_edits {s s' : State} {inductee : Name}
    (h : inducted p env s inductee = .ok s') : Edits s.inductions s'.inductions := by
  simp only [inducted, bind_eq_ok] at h
  obtain ⟨_, _, _, _, i, _, members, _, t, ht, u, hu, h⟩ := h
  have hsame := checkThreshold_sameRoll h
  have hinductions : u.inductions = t := maybeActivateContract_inductions hu
  have hqueue : Edits (eraseByInductee (eraseInduction s.inductions i) inductee
      maxGcOnInduction).2 t := by
    split at ht
    · simp only [queueGc, bind_eq_ok, expect_eq_ok, pure_eq_ok] at ht
      obtain ⟨_, _, rfl⟩ := ht
      exact edits_of_eq rfl rfl
    · rw [← Except.ok.inj ht]
  have herased := edits_of_erasures
    (eraseByInductee_erasures (eraseInduction s.inductions i) inductee maxGcOnInduction)
  refine .head (.erases s.inductions i) (herased.trans (hqueue.trans ?_))
  rw [← hinductions]
  exact edits_of_sameRoll hsame

theorem inductdonate_edits {s s' : State} {payer : Name} {id : Nat} {quantity : Asset}
    (h : inductdonate p env s payer id quantity = .ok s') :
    Edits s.inductions s'.inductions := by
  simp only [inductdonate, getInduction, bind_eq_ok, getRow_eq_ok, check_eq_ok, exists_const] at h
  obtain ⟨_, _, g, _, i, hi, _, _, _, _, _, _, user, _, migration, _, t, ht, h⟩ := h
  have hfunds : t.inductions = s.inductions := by
    split at ht
    · simp only [donateToMaster, bind_eq_ok, pure_eq_ok] at ht
      obtain ⟨_, _, rfl⟩ := ht
      rfl
    · rw [← Except.ok.inj ht]
  rw [← hfunds]
  simp only [createNft, bind_eq_ok, pure_eq_ok] at h
  obtain ⟨u, hu, v, hv, w, hw, rfl⟩ := h
  obtain ⟨_, e, _, rfl⟩ := endorseInduction_eq_ok hu
  obtain ⟨o, auctions, invitee, _, rfl⟩ := createTemplate_eq_ok hv
  have hinducted := inducted_edits hw
  refine .trans ?_ hinducted
  exact edits_of_eq rfl rfl

/-! ### Calls -/

theorem clearall_edits {s s' : State} (h : clearall p env s = .ok s') :
    Edits s.inductions s'.inductions := by
  simp only [clearall, bind_eq_ok, pure_eq_ok] at h
  obtain ⟨_, _, _, _, rfl⟩ := h
  exact .single (.clears rfl rfl)

/-- What a call does to inductions and endorsements. -/
theorem exec_edits {s s' : State} (hsteps : Steps p call s s') (h : exec p env s call = .ok s') :
    ∃ t, Opening call s.inductions t ∧ Edits t s'.inductions := by
  have hplain : ∀ {u : State}, s.inductions = u.inductions → Edits u.inductions s'.inductions →
      ∃ t, Opening call s.inductions t ∧ Edits t s'.inductions := by
    intro u hu hedits
    exact ⟨s.inductions, .none call _, hu ▸ hedits⟩
  have hother : handlesInductions call = false → (∀ a, call ≠ .action (.resign a)) →
      (∀ a b, call ≠ .action (.rename a b)) → call ≠ .action .clearall →
        ∃ t, Opening call s.inductions t ∧ Edits t s'.inductions :=
    fun hcall hresign hrename hclear =>
      hplain rfl (edits_of_sameRoll (steps_sameRoll hsteps hcall hresign hrename hclear))
  cases call with
  | action a =>
      simp only [exec, applyAction, bind_eq_ok, pure_eq_ok] at h
      obtain ⟨u, hu, rfl⟩ := h
      have hcalled : Edits (record s (.action a)).inductions u.inductions →
          ∃ t, Opening (.action a) s.inductions t ∧ Edits t u.inductions :=
        fun hedits => ⟨s.inductions, .none _ _, hedits⟩
      cases a with
      | genesis => exact hcalled (genesis_edits hu)
      | addtogenesis =>
          obtain ⟨t, rows, henlists, hedits⟩ := addtogenesis_edits hu
          exact ⟨t, .enlists henlists, hedits⟩
      | gensetexpire => exact hcalled (gensetexpire_edits hu)
      | inductinit => exact hcalled (inductinit_edits hu)
      | inductprofil => exact hcalled (inductprofil_edits hu)
      | inductvideo => exact hcalled (inductvideo_edits hu)
      | inductendors => exact hcalled (inductendors_edits hu)
      | inductdonate => exact hcalled (inductdonate_edits hu)
      | inductcancel => exact hcalled (inductcancel_edits hu)
      | inducted =>
          simp only [dispatch] at hu
          exact hcalled (inducted_edits hu)
      | gc => exact hcalled (gc_edits hu)
      | rename account newAccount =>
          have hsole : SoleStep p (.action (.rename account newAccount)) _ u :=
            renameAccount_sole hu
          cases hsole with
          | renames _ _ _ _ hrename => exact ⟨u.inductions, .renames hrename, .refl⟩
          | edits hcall => exact absurd hcall (by simp)
      | resign =>
          have hsole : SoleStep p _ _ u := resign_sole hu
          cases hsole with
          | leaves _ _ _ hinductions =>
              exact hcalled (edits_of_eq (by rw [hinductions]) (by rw [hinductions]))
          | edits hcall => exact absurd hcall (by simp)
      | clearall => exact hcalled (clearall_edits hu)
      | _ => exact hother rfl (by simp) (by simp) (by simp)
  | _ => exact hother rfl (by simp) (by simp) (by simp)

theorem edits_preserve (Inv : Inductions → Prop) (hedit : ∀ t t', Edit t t' → Inv t → Inv t')
    {t t' : Inductions} (h : Edits t t') (ht : Inv t) : Inv t' := by
  induction h with
  | refl => exact ht
  | tail _ hlast ih => exact hedit _ _ hlast ih

/-- The rule for invariants of inductions and endorsements: edits keep them, and so does what an
allowed call does first. -/
theorem reachable_edits {allowed : State → Call → Prop} (Inv : Inductions → Prop) {s : State}
    (h : Reachable p allowed s) (hempty : Inv {})
    (hedit : ∀ t t', Edit t t' → Inv t → Inv t')
    (hopening : ∀ s call t, allowed s call → Opening call s.inductions t → Inv s.inductions →
      Inv t) : Inv s.inductions := by
  refine (reachable_invariant
    (fun s => Inv s.inductions ∧ s.output.serializedEvents = []) h ?_ ?_ ?_).1
  · intro s hs
    rw [hs.1]
    exact ⟨hempty, rfl⟩
  · exact fun s now _ _ hs => hs
  · intro env s call s' hallowed hexec hs
    obtain ⟨hsteps, hclean⟩ := exec_steps hs.2 hexec
    obtain ⟨t, ht, hedits⟩ := exec_edits hsteps hexec
    refine ⟨?_, hclean⟩
    exact edits_preserve Inv hedit hedits (hopening s call t hallowed ht hs.1)

/-! ### Endorsements and their inductions -/

/-- Every endorsement is of an induction, with the same inviter and invitee. -/
def Cited (t : Inductions) : Prop :=
  ∀ e ∈ t.endorsements.rows, ∃ i ∈ t.inductions.rows, Cites e i

/-- Rows with the same terms and parties as before. -/
theorem cited_of_revised {t t' : Inductions}
    (hinductions : t'.inductions.rows.map terms = t.inductions.rows.map terms)
    (hendorsements : ∀ e ∈ t'.endorsements.rows, ∃ d ∈ t.endorsements.rows,
      (d.inductionId, d.inviter, d.invitee) = (e.inductionId, e.inviter, e.invitee))
    (h : Cited t) : Cited t' := by
  intro e he
  obtain ⟨d, hd, hsame⟩ := hendorsements e he
  obtain ⟨i, hi, hid, hinviter, hinvitee⟩ := h d hd
  have hmem : terms i ∈ t'.inductions.rows.map terms := by
    rw [hinductions]
    exact List.mem_map_of_mem hi
  obtain ⟨j, hj, hterms⟩ := List.mem_map.mp hmem
  simp only [terms, Prod.mk.injEq] at hterms hsame
  refine ⟨j, hj, ?_, ?_, ?_⟩
  · rw [hterms.1, ← hid, hsame.1]
  · rw [hterms.2.1, ← hinviter, hsame.2.1]
  · rw [hterms.2.2.1, ← hinvitee, hsame.2.2]

theorem eraseEndorsement_eq_ok {t t' : Inductions} {e : Endorsement}
    (h : eraseEndorsement t e = .ok t') :
    ∃ i n, t.inductions.find? e.inductionId = some i ∧
      n = (i.endorsements + (2 ^ 32 - 1)) % 2 ^ 32 ∧
      t'.inductions = t.inductions.replace { i with endorsements := n } ∧
      t'.endorsements = t.endorsements.erase e.id := by
  simp only [eraseEndorsement, bind_eq_ok, getRow_eq_ok, check_eq_ok, exists_const,
    pure_eq_ok] at h
  obtain ⟨i, hi, _, rfl⟩ := h
  exact ⟨i, _, hi, rfl, rfl, rfl⟩

theorem edit_cited {t t' : Inductions} (h : Edit t t') (ht : Cited t) : Cited t' := by
  cases h with
  | revises hinductions hendorsements =>
      refine cited_of_revised hinductions ?_ ht
      intro e he
      have hmem : parties e ∈ t.endorsements.rows.map parties := by
        rw [← hendorsements]
        exact List.mem_map_of_mem he
      obtain ⟨d, hd, hsame⟩ := List.mem_map.mp hmem
      simp only [parties, Prod.mk.injEq] at hsame
      exact ⟨d, hd, by rw [hsame.1, hsame.2.1, hsame.2.2.1]⟩
  | @begins _ i rows hbegins =>
      intro e he
      rcases List.mem_append.mp (hbegins.endorsements.mem_iff.mp he) with hnew | hold
      · exact ⟨i, (hbegins.inductions i).mpr (.inl rfl), hbegins.cites e hnew⟩
      · obtain ⟨j, hj, hcites⟩ := ht e hold
        exact ⟨j, (hbegins.inductions j).mpr (.inr hj), hcites⟩
  | erases i =>
      intro e he
      rw [eraseInduction_endorsements, List.mem_filter, decide_eq_true_eq] at he
      obtain ⟨j, hj, hcites⟩ := ht e he.1
      refine ⟨j, Table.mem_erase.mpr ⟨hj, ?_⟩, hcites⟩
      rw [← hcites.1]
      exact he.2
  | @withdraws _ d hd herase =>
      obtain ⟨i, n, hi, _, hinductions, hendorsements⟩ := eraseEndorsement_eq_ok herase
      intro e he
      rw [hendorsements] at he
      rw [hinductions]
      obtain ⟨j, hj, hcites⟩ := ht e (Table.mem_erase.mp he).1
      have hi' : i ∈ t.inductions.rows := Table.mem_of_find? hi
      by_cases hkey : j.id = i.id
      · rw [Table.eq_of_key_eq hj hi' hkey] at hcites
        have hfound := Table.find?_of_mem hi'
        exact ⟨_, Table.mem_replace.mpr (.inr ⟨rfl, i, hfound⟩), hcites⟩
      · exact ⟨j, Table.mem_replace.mpr (.inl ⟨hj, hkey⟩), hcites⟩
  | clears _ hnone =>
      intro e he
      rw [hnone] at he
      exact absurd he (by simp)

theorem enlists_cited {t t' : Inductions} {endorser : Name} {rows : List Endorsement}
    (h : Enlists t t' endorser rows) (ht : Cited t) : Cited t' := by
  have hcounted : ∀ e i, i ∈ t.inductions.rows → Cites e i →
      ∃ j ∈ t'.inductions.rows, Cites e j := by
    intro e i hi hcites
    refine ⟨counted i, ?_, hcites⟩
    rw [h.inductions]
    exact List.mem_map_of_mem hi
  intro e he
  rcases List.mem_append.mp (h.endorsements.mem_iff.mp he) with hnew | hold
  · obtain ⟨i, hi, hcites⟩ := h.cites e hnew
    exact hcounted e i hi hcites
  · obtain ⟨i, hi, hcites⟩ := ht e hold
    exact hcounted e i hi hcites

/-- The rows of a renamed endorser. -/
def renamed (account newAccount : Name) (e : Endorsement) : Endorsement :=
  if e.endorser = account then { e with endorser := newAccount } else e

theorem renameEndorser_rows {t t' : Inductions} {account newAccount : Name}
    (h : renameEndorser t account newAccount = .ok t') :
    t'.inductions = t.inductions ∧
      t'.endorsements.rows = t.endorsements.rows.map (renamed account newAccount) := by
  simp only [renameEndorser, bind_eq_ok, check_eq_ok, exists_const, pure_eq_ok] at h
  obtain ⟨_, _, rfl⟩ := h
  exact ⟨rfl, rfl⟩

theorem opening_cited {t t' : Inductions} (h : Opening call t t') (ht : Cited t) : Cited t' := by
  cases h with
  | none => exact ht
  | enlists henlists => exact enlists_cited henlists ht
  | renames hrename =>
      obtain ⟨hinductions, hrows⟩ := renameEndorser_rows hrename
      refine cited_of_revised (by rw [hinductions]) ?_ ht
      intro e he
      rw [hrows] at he
      obtain ⟨d, hd, rfl⟩ := List.mem_map.mp he
      refine ⟨d, hd, ?_⟩
      unfold renamed
      split
      · rfl
      · rfl

end Eden.InductionEdits
