import Eden.InductionEdits

/-!
An endorser has one endorsement row for an induction, as long as nobody who still endorses an
induction is added again and no member takes the name of another endorser.
-/

namespace Eden.UniqueEndorsers

open Eden.ExceptReasoning
open Eden.SortedTable
open Eden.ChainPrimitives
open Eden.ContractState
open Eden.Runtime
open Eden.MemberTable
open Eden.InductionTables
open Eden.InductionChanges
open Eden.ContractActions
open Eden.Transactions
open Eden.HostFunctions
open Eden.ContractSteps
open Eden.ActionSteps
open Eden.Electorate
open Eden.InductionSteps
open Eden.EndorsedContents
open Eden.InductionEdits

variable {p : Platform} {env : Env} {call : Call}

/-- The induction and the endorser of an endorsement. -/
def endorsing (e : Endorsement) : Nat × Name := (e.inductionId, e.endorser)

/-- At most one row for each induction and endorser. -/
def Unique (t : Inductions) : Prop := (t.endorsements.rows.map endorsing).Nodup

/-- Calls that give an induction an endorser it already has. -/
def repeatsEndorser (t : Inductions) : Call → Bool
  | .action (.addtogenesis newmember _) => t.endorsements.rows.any fun e => e.endorser = newmember
  | .action (.rename account newAccount) => t.endorsements.rows.any fun e =>
      e.endorser = account && isEndorser t e.inductionId newAccount
  | _ => false

/-! ### Edits -/

theorem edit_unique {t t' : Inductions} (h : Edit t t') (hcited : Cited t) (ht : Unique t) :
    Unique t' := by
  cases h with
  | revises _ hendorsements =>
      have hproject : ∀ u : Inductions, u.endorsements.rows.map endorsing =
          (u.endorsements.rows.map parties).map fun x => (x.1, x.2.2.2) := by
        intro u
        rw [List.map_map]
        rfl
      rw [Unique, hproject, hendorsements, ← hproject]
      exact ht
  | @begins _ i rows hbegins =>
      rw [Unique, (hbegins.endorsements.map endorsing).nodup_iff, List.map_append,
        List.nodup_append]
      refine ⟨?_, ht, ?_⟩
      · refine List.Nodup.of_map Prod.snd ?_
        rw [List.map_map]
        exact hbegins.distinct
      · rintro a ha b hb rfl
        obtain ⟨e, he, rfl⟩ := List.mem_map.mp ha
        obtain ⟨d, hd, hsame⟩ := List.mem_map.mp hb
        obtain ⟨j, hj, hcites⟩ := hcited d hd
        refine Table.find?_eq_none.mp hbegins.new j hj ?_
        rw [← hcites.1, (Prod.mk.inj hsame).1, (hbegins.cites e he).1]
  | erases i =>
      rw [Unique, eraseInduction_endorsements]
      exact ht.sublist (List.filter_sublist.map endorsing)
  | @withdraws _ d hd herase =>
      obtain ⟨_, _, _, _, _, hendorsements⟩ := eraseEndorsement_eq_ok herase
      rw [Unique, hendorsements, rows_erase]
      exact ht.sublist (List.filter_sublist.map endorsing)
  | clears _ hnone =>
      rw [Unique, hnone]
      exact List.nodup_nil

theorem enlists_unique {t t' : Inductions} {endorser : Name} {rows : List Endorsement}
    (h : Enlists t t' endorser rows) (hnew : ∀ e ∈ t.endorsements.rows, e.endorser ≠ endorser)
    (ht : Unique t) : Unique t' := by
  rw [Unique, (h.endorsements.map endorsing).nodup_iff, List.map_append, List.nodup_append]
  refine ⟨?_, ht, ?_⟩
  · refine List.Nodup.of_map Prod.fst ?_
    rw [List.map_map]
    exact h.ids.nodup_iff.mpr t.inductions.nodup_keys
  · rintro a ha b hb rfl
    obtain ⟨e, he, rfl⟩ := List.mem_map.mp ha
    obtain ⟨d, hd, hsame⟩ := List.mem_map.mp hb
    exact hnew d hd ((Prod.mk.inj hsame).2.trans (h.endorser e he))

theorem renames_unique {t t' : Inductions} {account newAccount : Name}
    (h : renameEndorser t account newAccount = .ok t')
    (hnew : ∀ e ∈ t.endorsements.rows, e.endorser = account →
      ∀ d ∈ t.endorsements.rows, d.inductionId = e.inductionId → d.endorser ≠ newAccount)
    (ht : Unique t) : Unique t' := by
  have hinj := List.inj_on_of_nodup_map ht
  rw [Unique, (renameEndorser_rows h).2, List.map_map]
  refine List.Nodup.map_on ?_ t.endorsements.nodup_rows
  intro d hd e he hsame
  refine hinj hd he ?_
  simp only [Function.comp_apply, endorsing, Prod.mk.injEq] at hsame ⊢
  obtain ⟨hid, hname⟩ := hsame
  have hkeeps : ∀ c, (renamed account newAccount c).inductionId = c.inductionId := by
    intro c
    unfold renamed
    split
    · rfl
    · rfl
  rw [hkeeps, hkeeps] at hid
  refine ⟨hid, ?_⟩
  by_cases hd' : d.endorser = account
  · by_cases he' : e.endorser = account
    · rw [hd', he']
    · have hnot := hnew d hd hd' e he hid.symm
      simp only [renamed, hd', he', if_true, if_false] at hname
      exact absurd hname.symm hnot
  · by_cases he' : e.endorser = account
    · have hnot := hnew e he he' d hd hid
      simp only [renamed, hd', he', if_true, if_false] at hname
      exact absurd hname hnot
    · simp only [renamed, hd', he', if_false] at hname
      exact hname

theorem opening_unique {t t' : Inductions} (h : Opening call t t')
    (hcall : repeatsEndorser t call = false) (ht : Unique t) : Unique t' := by
  cases h with
  | none => exact ht
  | enlists henlists =>
      simp only [repeatsEndorser, List.any_eq_false, decide_eq_true_eq] at hcall
      exact enlists_unique henlists hcall ht
  | renames hrename =>
      simp only [repeatsEndorser, isEndorser, List.any_eq_false, Bool.and_eq_true,
        decide_eq_true_eq, not_and] at hcall
      refine renames_unique hrename ?_ ht
      intro e he haccount d hd hid hname
      exact hcall e he haccount (List.any_eq_true.mpr ⟨d, hd, by simp [hid, hname]⟩)

/-! ### Endorsing -/

/-- Endorsers of an induction who have not endorsed it yet. -/
def remaining (t : Inductions) (id : Nat) : List Name :=
  ((endorsementsOf t id).filter fun e => !e.endorsed).map Endorsement.endorser

/-- An induction that can be endorsed. -/
structure Endorsable (s : State) (i : Induction) : Prop where
  founded : s.globals ≠ none
  found : s.inductions.inductions.find? i.id = some i
  invitee : status s i.invitee = some .pendingMembership
  valid : isValidInduction s.now i = true
  video : i.video ≠ []
  profile : i.newMemberProfile.name ≠ []

theorem find?_endorser {t : Inductions} (h : Unique t) {e : Endorsement}
    (he : e ∈ t.endorsements.rows) :
    t.endorsements.rows.find? (fun d => d.endorser = e.endorser && d.inductionId = e.inductionId) =
      some e := by
  cases hfound : t.endorsements.rows.find?
      (fun d => d.endorser = e.endorser && d.inductionId = e.inductionId) with
  | none =>
      rw [List.find?_eq_none] at hfound
      exact absurd (hfound e he) (by simp)
  | some d =>
      have hd := List.find?_some hfound
      simp only [Bool.and_eq_true, decide_eq_true_eq] at hd
      have hsame : endorsing d = endorsing e := by rw [endorsing, endorsing, hd.1, hd.2]
      rw [List.inj_on_of_nodup_map h (List.mem_of_find?_eq_some hfound) he hsame]

/-- The tables after an endorsement was given. -/
def given (t : Inductions) (e : Endorsement) : Inductions :=
  { t with endorsements := t.endorsements.replace { e with endorsed := true } }

theorem status_eq_some {s : State} {account : Name} {st : MemberStatus} :
    status s account = some st ↔
      ∃ member, s.members.table.find? account = some member ∧ member.status = st := by
  rw [status, statusOf, Option.map_eq_some_iff]

/-- Every endorser can give its endorsement. -/
theorem inductendors_given {s : State} {i : Induction} {e : Endorsement} (h : Unique s.inductions)
    (hi : Endorsable s i) (he : e ∈ endorsementsOf s.inductions i.id) (hopen : e.endorsed = false)
    (hactive : status s e.endorser = some .activeMember)
    (hauth : requireAuth env e.endorser = .ok ()) :
    inductendors p env s e.endorser i.id (p.sha256 (inductionBytes i)) =
      .ok { s with inductions := given s.inductions e } := by
  obtain ⟨hmem, hid⟩ := mem_endorsementsOf.mp he
  obtain ⟨g, hg⟩ := Option.ne_none_iff_exists'.mp hi.founded
  have hendorser : isEndorser s.inductions i.id e.endorser = true :=
    List.any_eq_true.mpr ⟨e, hmem, by simp [hid]⟩
  have hrow := find?_endorser h hmem
  rw [hid] at hrow
  have hendorse : endorse p s.inductions s.now i e.endorser (p.sha256 (inductionBytes i)) =
      .ok (given s.inductions e) := by
    simp only [endorse, checkValidInduction, bind_eq_ok, check_eq_ok, exists_const, getRow_eq_ok,
      pure_eq_ok, decide_eq_true_eq]
    refine ⟨hi.valid, hi.video, hi.profile, trivial, e, hrow, ?_, rfl⟩
    rw [hopen]
    rfl
  simp only [inductendors, getInduction, bind_eq_ok, check_eq_ok, exists_const, getRow_eq_ok,
    getGlobals_eq_ok, checkPendingMember_eq_ok, checkActiveMember_eq_ok, pure_eq_ok]
  exact ⟨(), hauth, g, hg, i, hi.found, status_eq_some.mp hi.invitee, hendorser,
    status_eq_some.mp hactive, _, hendorse, rfl⟩

theorem given_unique {t : Inductions} {e : Endorsement} (h : Unique t)
    (he : e ∈ t.endorsements.rows) : Unique (given t e) := by
  have hfound : t.endorsements.find? { e with endorsed := true }.id = some e :=
    Table.find?_of_mem he
  rw [Unique, given, Table.map_replace hfound rfl]
  exact h

theorem remaining_perm {t : Inductions} {rows : List Endorsement} (id : Nat)
    (h : t.endorsements.rows.Perm rows) :
    (remaining t id).Perm (((rows.filter fun e => e.inductionId = id).filter
      fun e => !e.endorsed).map Endorsement.endorser) :=
  ((h.filter _).filter _).map _

/-- One endorser less is left. -/
theorem remaining_given {t : Inductions} {e : Endorsement} {id : Nat}
    (he : e ∈ endorsementsOf t id) (hopen : e.endorsed = false) :
    (remaining t id).Perm (e.endorser :: remaining (given t e) id) := by
  obtain ⟨hmem, rfl⟩ := mem_endorsementsOf.mp he
  have hfound : t.endorsements.find? e.id = some e := Table.find?_of_mem hmem
  let e' : Endorsement := { e with endorsed := true }
  have hreplace := Table.replace_perm (a := e') hfound
  have hbefore := remaining_perm e.inductionId (Table.erase_perm hfound)
  have hafter := @remaining_perm (given t e) _ e.inductionId hreplace
  have hclosed : e'.endorsed = true := rfl
  have hid : e'.inductionId = e.inductionId := rfl
  rw [List.filter_cons_of_pos (by simp), List.filter_cons_of_pos (by simp [hopen])] at hbefore
  rw [List.filter_cons_of_pos (by simp [hid]), List.filter_cons_of_neg (by simp [hclosed])] at hafter
  exact hbefore.trans (hafter.symm.cons e.endorser)

theorem Endorsable.given {s : State} {i : Induction} (h : Endorsable s i) (e : Endorsement) :
    Endorsable { s with inductions := given s.inductions e } i :=
  ⟨h.founded, h.found, h.invitee, h.valid, h.video, h.profile⟩

/-- When all endorsers agree, in any order, the induction is fully endorsed. -/
theorem inductendors_all {envs : Name → Env} {i : Induction} {l : List Name} {s : State}
    (h : Unique s.inductions) (hi : Endorsable s i)
    (hl : l.Perm (remaining s.inductions i.id))
    (hagree : ∀ a ∈ l, status s a = some .activeMember ∧ requireAuth (envs a) a = .ok ()) :
    ∃ s', l.foldlM (fun s a =>
        inductendors p (envs a) s a i.id (p.sha256 (inductionBytes i))) s = .ok s' ∧
      checkIsFullyEndorsed s'.inductions i.id = .ok () := by
  induction l generalizing s with
  | nil =>
      refine ⟨s, rfl, ?_⟩
      have hnone := List.map_eq_nil_iff.mp hl.nil_eq.symm
      rw [List.filter_eq_nil_iff] at hnone
      refine check_eq_ok.mpr (List.all_eq_true.mpr fun e he => ?_)
      simpa using hnone e he
  | cons a l ih =>
      have hmem : a ∈ remaining s.inductions i.id := hl.mem_iff.mp List.mem_cons_self
      obtain ⟨e, he, rfl⟩ := List.mem_map.mp hmem
      obtain ⟨he, hopen⟩ := List.mem_filter.mp he
      rw [Bool.not_eq_true'] at hopen
      obtain ⟨hactive, hauth⟩ := hagree e.endorser List.mem_cons_self
      have hrest := (hl.trans (remaining_given he hopen)).cons_inv
      obtain ⟨s', hs', hfull⟩ := ih (given_unique h (mem_endorsementsOf.mp he).1) (hi.given e) hrest
        fun a ha => hagree a (List.mem_cons_of_mem _ ha)
      refine ⟨s', ?_, hfull⟩
      rw [List.foldlM_cons, inductendors_given h hi he hopen hactive hauth]
      exact hs'

/-! ### Runs -/

theorem reachable_unique {s : State}
    (h : Reachable p (fun s call => repeatsEndorser s.inductions call = false) s) :
    Unique s.inductions := by
  refine (reachable_edits (fun t => Cited t ∧ Unique t) h ⟨?_, List.nodup_nil⟩ ?_ ?_).2
  · intro e he
    exact absurd he (by simp)
  · exact fun t t' hedit ht => ⟨edit_cited hedit ht.1, edit_unique hedit ht.1 ht.2⟩
  · intro s call t hallowed hopening hs
    exact ⟨opening_cited hopening hs.1, opening_unique hopening hallowed hs.2⟩

/-- As long as no call gives an induction an endorser it already has, an endorser has one row for
an induction. Every endorser who is left can then endorse, and when all of them do, in any order,
the induction is fully endorsed. -/
theorem one_row_per_endorser {s : State}
    (h : Reachable p (fun s call => repeatsEndorser s.inductions call = false) s) :
    Unique s.inductions ∧ ∀ i, Endorsable s i →
      (∀ e ∈ endorsementsOf s.inductions i.id, e.endorsed = false →
        ∀ env, status s e.endorser = some .activeMember → requireAuth env e.endorser = .ok () →
          inductendors p env s e.endorser i.id (p.sha256 (inductionBytes i)) =
            .ok { s with inductions := given s.inductions e }) ∧
      ∀ (envs : Name → Env) (l : List Name), l.Perm (remaining s.inductions i.id) →
        (∀ a ∈ l, status s a = some .activeMember ∧ requireAuth (envs a) a = .ok ()) →
          ∃ s', l.foldlM (fun s a =>
              inductendors p (envs a) s a i.id (p.sha256 (inductionBytes i))) s = .ok s' ∧
            checkIsFullyEndorsed s'.inductions i.id = .ok () := by
  have hunique := reachable_unique h
  refine ⟨hunique, fun i hi => ⟨?_, ?_⟩⟩
  · intro e he hopen env hactive hauth
    exact inductendors_given hunique hi he hopen hactive hauth
  · intro envs l hl hagree
    exact inductendors_all hunique hi hl hagree

/-- Alice invites dave, with bob and carol as witnesses. Dave sends his profile and bob the video. -/
def daveInvited : List Transaction :=
  firstInduction.take 4 ++
    [(1000040, [(signedBy alice,
        .action (.inductinit 7 alice.name dave.name [bob.name, carol.name])),
      (signedBy dave, .action (.inductprofil 7 sampleProfile)),
      (signedBy bob, .action (.inductvideo bob.name 7 ['Q', 'm']))])]

theorem daveInvited_one_row :
    ∃ s, runFromGenesis host (fun s call => repeatsEndorser s.inductions call = false)
        daveInvited = some s ∧
      remaining s.inductions 7 = [alice.name, bob.name, carol.name] ∧ Unique s.inductions := by
  have hrun : (runFromGenesis host (fun s call => repeatsEndorser s.inductions call = false)
      daveInvited).any (fun s =>
        remaining s.inductions 7 = [alice.name, bob.name, carol.name]) = true := by
    decide +kernel
  obtain ⟨s, hs, hremaining⟩ := (Option.any_eq_true _ _).mp hrun
  exact ⟨s, hs, of_decide_eq_true hremaining, (one_row_per_endorser (reachable_of_run hs)).1⟩

def endorsesDave (signer : Signer) : Env × Call :=
  (signedBy signer, .action (.inductendors signer.name 7
    (host.sha256 (inductionBytes ⟨7, alice.name, dave.name, 3, 0, ['Q', 'm'], sampleProfile⟩))))

/-- Carol resigns before she has endorsed dave, and bob takes her name. Then all endorse dave. -/
def carolReplaced : List Transaction :=
  daveInvited ++
    [(1000050, [(signedBy carol, .action (.withdraw carol.name (eos 900))),
        (signedBy carol, .action (.resign carol.name))]),
      (1000060, [({ signedBy carol with boardMajor := true },
        .action (.rename bob.name carol.name))]),
      (1000070, [endorsesDave alice, endorsesDave carol])]

def alreadyEndorsed : Abort := .check "Already endorsed"

def meets (e : Abort) (outcome : Outcome State) : Bool :=
  match outcome with
  | .error e' => e' = e
  | .ok _ => false

/-- Carol has two rows. She can set only the first, and dave is never fully endorsed. -/
theorem carol_endorses_twice :
    ∃ s, Reachable host (fun _ _ => True) s ∧ ¬ Unique s.inductions ∧
      remaining s.inductions 7 = [carol.name] ∧
      checkIsFullyEndorsed s.inductions 7 ≠ .ok () ∧
      exec host (endorsesDave carol).1 s (endorsesDave carol).2 = .error alreadyEndorsed := by
  have hrun : (runFromGenesis host (fun _ _ => True) carolReplaced).any (fun s =>
      !decide (s.inductions.endorsements.rows.map endorsing).Nodup &&
        remaining s.inductions 7 = [carol.name] &&
        !(endorsementsOf s.inductions 7).all Endorsement.endorsed &&
        meets alreadyEndorsed (exec host (endorsesDave carol).1 s (endorsesDave carol).2)) =
      true := by
    decide +kernel
  obtain ⟨s, hs, hstate⟩ := (Option.any_eq_true _ _).mp hrun
  simp only [Bool.and_eq_true, Bool.not_eq_true', decide_eq_true_eq, decide_eq_false_iff_not]
    at hstate
  obtain ⟨⟨⟨htwice, hremaining⟩, hopen⟩, hmeets⟩ := hstate
  refine ⟨s, reachable_of_run hs, htwice, hremaining, ?_, ?_⟩
  · rw [checkIsFullyEndorsed, ne_eq, check_eq_ok, hopen]
    exact Bool.false_ne_true
  · cases houtcome : exec host (endorsesDave carol).1 s (endorsesDave carol).2 with
    | error e =>
        rw [houtcome] at hmeets
        exact congrArg _ (of_decide_eq_true hmeets)
    | ok t =>
        rw [houtcome] at hmeets
        exact absurd hmeets (by simp [meets])

end Eden.UniqueEndorsers
