import Eden.HostFunctions
import Eden.InductionSteps

/-!
Who joins has been endorsed: the endorsers have seen the video and the profile as they are.
-/

namespace Eden.EndorsedContents

open Eden.ExceptReasoning
open Eden.SortedTable
open Eden.TransactionRuns
open Eden.ChainPrimitives
open Eden.ContractState
open Eden.Runtime
open Eden.MemberTable
open Eden.InductionTables
open Eden.InductionChanges
open Eden.ContractActions
open Eden.Transactions
open Eden.HostFunctions
open Eden.ContractSteps
open Eden.ActionSteps
open Eden.MemberStatistics
open Eden.InductionSteps

variable {p : Platform} {env : Env} {call : Call}

/-! ### Accepted endorsements -/

/-- Calls that begin an induction or change its video or profile. -/
def changesContent (id : Nat) : Call → Bool
  | .action (.inductinit id' ..) => id' = id
  | .action (.inductprofil id' _) => id' = id
  | .action (.inductvideo _ id' _) => id' = id
  | _ => false

/-- The name of an account after a call. -/
def nameAfter : Call → Name → Name
  | .action (.rename account newAccount), a => if a = account then newAccount else a
  | _, a => a

/-- The name of an account after the calls of a history. -/
def currentName (es : List Record) (a : Name) : Name :=
  es.foldl (fun a e => nameAfter e.input.2 a) a

/-- An endorsement with a hash has been accepted since the content of the induction was last
changed. It was given by the account that is now called `endorser`. -/
def Accepted (es : List Record) (id : Nat) (endorser : Name) (hash : Checksum) : Prop :=
  ∃ es₁ e es₂ account, es = es₁ ++ e :: es₂ ∧
    e.input.2 = .action (.inductendors account id hash) ∧
    (∀ d ∈ es₂, changesContent id d.input.2 = false) ∧ currentName es₂ account = endorser

theorem Accepted.push {es : List Record} {id : Nat} {endorser : Name} {hash : Checksum}
    (h : Accepted es id endorser hash) (e : Record) (he : changesContent id e.input.2 = false) :
    Accepted (es ++ [e]) id (nameAfter e.input.2 endorser) hash := by
  obtain ⟨es₁, d, es₂, account, rfl, hcall, hunchanged, rfl⟩ := h
  refine ⟨es₁, d, es₂ ++ [e], account, by simp, hcall, ?_, by simp [currentName]⟩
  intro d' hd'
  rcases List.mem_append.mp hd' with hold | hnew
  · exact hunchanged d' hold
  · rw [List.mem_singleton.mp hnew]
    exact he

theorem Accepted.last {es : List Record} {e : Record} {id : Nat} {endorser : Name}
    {hash : Checksum} (h : e.input.2 = .action (.inductendors endorser id hash)) :
    Accepted (es ++ [e]) id endorser hash :=
  ⟨es, e, [], endorser, rfl, h, by simp, rfl⟩

theorem nameAfter_of_not_sole (hcall : makesOneStep call = false) (a : Name) :
    nameAfter call a = a := by
  unfold nameAfter
  split
  · exact absurd hcall (by simp [makesOneStep])
  · rfl

theorem changesContent_of_not_sole (hcall : makesOneStep call = false) (id : Nat) :
    changesContent id call = false := by
  unfold changesContent
  split
  · exact absurd hcall (by simp [makesOneStep])
  · exact absurd hcall (by simp [makesOneStep])
  · exact absurd hcall (by simp [makesOneStep])
  · rfl

/-! ### Inductions of the active stage -/

/-- Who endorsed an induction has endorsed what it is now. -/
structure Backed (p : Platform) (es : List Record) (t : Inductions) (i : Induction) : Prop where
  inviter : i.inviter ∈ getEndorsers t i.id
  least : 3 ≤ (endorsementsOf t i.id).length
  most : (endorsementsOf t i.id).length ≤ 6
  content : ∀ e ∈ endorsementsOf t i.id, e.endorsed = true →
    i.video ≠ [] ∧ i.newMemberProfile.name ≠ [] ∧
      Accepted es i.id e.endorser (p.sha256 (inductionBytes i))

theorem Backed.of_perm {es : List Record} {t t' : Inductions} {i : Induction}
    (h : Backed p es t i) (hperm : (endorsementsOf t' i.id).Perm (endorsementsOf t i.id)) :
    Backed p es t' i where
  inviter := (hperm.map Endorsement.endorser).mem_iff.mpr h.inviter
  least := by
    rw [hperm.length_eq]
    exact h.least
  most := by
    rw [hperm.length_eq]
    exact h.most
  content := fun e he => h.content e (hperm.mem_iff.mp he)

/-- A change of the endorsements and the content that keeps the inviter. -/
theorem Backed.of_map {es es' : List Record} {t t' : Inductions} {i j : Induction}
    (h : Backed p es t i) (hid : j.id = i.id) (hsame : j.inviter = i.inviter)
    (f : Endorsement → Endorsement)
    (hmap : endorsementsOf t' i.id = (endorsementsOf t i.id).map f)
    (hinviter : ∀ e ∈ endorsementsOf t i.id, e.endorser = i.inviter → (f e).endorser = i.inviter)
    (hcontent : ∀ e ∈ endorsementsOf t i.id, (f e).endorsed = true →
      j.video ≠ [] ∧ j.newMemberProfile.name ≠ [] ∧
        Accepted es' i.id (f e).endorser (p.sha256 (inductionBytes j))) :
    Backed p es' t' j where
  inviter := by
    obtain ⟨e, he, heq⟩ := List.mem_map.mp h.inviter
    rw [getEndorsers, hid, hsame, hmap]
    exact List.mem_map.mpr ⟨f e, List.mem_map_of_mem he, hinviter e he heq⟩
  least := by
    rw [hid, hmap, List.length_map]
    exact h.least
  most := by
    rw [hid, hmap, List.length_map]
    exact h.most
  content := by
    intro e he
    rw [hid, hmap] at he
    obtain ⟨d, hd, rfl⟩ := List.mem_map.mp he
    rw [hid]
    exact hcontent d hd

theorem Backed.push {es : List Record} {t : Inductions} {i : Induction} (h : Backed p es t i)
    (e : Record) (he : changesContent i.id e.input.2 = false)
    (hname : ∀ a, nameAfter e.input.2 a = a) : Backed p (es ++ [e]) t i where
  inviter := h.inviter
  least := h.least
  most := h.most
  content := by
    intro d hd hendorsed
    obtain ⟨hvideo, hprofile, haccepted⟩ := h.content d hd hendorsed
    have hpush := haccepted.push e he
    rw [hname] at hpush
    exact ⟨hvideo, hprofile, hpush⟩

theorem endorsementsOf_update {t : Inductions} {f : Endorsement → Endorsement}
    {hf : ∀ e, (f e).id = e.id}
    (hid : ∀ e ∈ t.endorsements.rows, (f e).inductionId = e.inductionId) (id : Nat) :
    endorsementsOf { t with endorsements := t.endorsements.update f hf } id =
      (endorsementsOf t id).map f := by
  unfold endorsementsOf
  change (t.endorsements.rows.map f).filter _ = _
  rw [List.filter_map]
  congr 1
  apply List.filter_congr
  intro e he
  simp only [Function.comp_apply, hid e he]

/-- Endorsements that are added to an induction. -/
theorem adds_endorsementsOf {t t' : Inductions} {id : Nat} {endorsed : Bool}
    {endorsers : List Name} (h : Adds t t' id endorsed endorsers) :
    (∀ id', id' ≠ id → (endorsementsOf t' id').Perm (endorsementsOf t id')) ∧
      (endorsementsOf t id = [] → (getEndorsers t' id).Perm endorsers ∧
        ∀ e ∈ endorsementsOf t' id, e.endorsed = endorsed) := by
  obtain ⟨table, rows, rfl, hperm, hendorsers, hrows⟩ := h
  have hfilter := fun k => (hperm.filter fun e => e.inductionId = k)
  simp only [List.filter_append] at hfilter
  constructor
  · intro id' hne
    have hnone : rows.filter (fun e => e.inductionId = id') = [] := by
      rw [List.filter_eq_nil_iff]
      intro e he
      simp [(hrows e he).1, Ne.symm hne]
    have hother := hfilter id'
    rw [hnone, List.nil_append] at hother
    exact hother
  · intro hempty
    have hall : rows.filter (fun e => e.inductionId = id) = rows := by
      rw [List.filter_eq_self]
      intro e he
      simp [(hrows e he).1]
    have hnew := hfilter id
    rw [hall, show t.endorsements.rows.filter _ = [] from hempty, List.append_nil] at hnew
    refine ⟨hendorsers ▸ hnew.map Endorsement.endorser, ?_⟩
    intro e he
    exact (hrows e (hnew.mem_iff.mp he)).2

/-- Endorsements belong to inductions. -/
def Known (t : Inductions) : Prop :=
  ∀ e ∈ t.endorsements.rows, t.inductions.find? e.inductionId ≠ none

theorem endorsementsOf_new {t : Inductions} (h : Known t) {id : Nat}
    (hnew : t.inductions.find? id = none) : endorsementsOf t id = [] := by
  rw [endorsementsOf, List.filter_eq_nil_iff]
  intro e he hid
  exact h e he ((decide_eq_true_eq.mp hid) ▸ hnew)

theorem known_of_opens {t t' : Inductions} {i : Induction} {endorsers : List Name}
    (h : Opens t t' i endorsers) (hknown : Known t) : Known t' := by
  obtain ⟨_, table, hrows, _, rows, rfl, hperm, _, hids⟩ := h
  have hfind : ∀ id, (∃ j ∈ table.rows, j.id = id) → table.find? id ≠ none := by
    rintro id ⟨j, hj, rfl⟩
    rw [Table.find?_of_mem hj]
    simp
  intro e he
  rcases List.mem_append.mp (hperm.mem_iff.mp he) with hnew | hold
  · exact hfind _ ⟨i, (hrows i).mpr (.inl rfl), (hids e hnew).1.symm⟩
  · obtain ⟨j, hj⟩ := Option.ne_none_iff_exists'.mp (hknown e hold)
    exact hfind _ ⟨j, (hrows j).mpr (.inr (Table.mem_of_find? hj)), Table.key_of_find? hj⟩

theorem known_of_revised {t t' : Inductions} (h : Revised t t') (hknown : Known t) : Known t' := by
  intro e he
  rw [find?_of_invitations h.rows]
  rcases h.endorsements e he with ⟨d, hd, hid⟩ | hfound
  · exact hid ▸ hknown d hd
  · exact hfound

/-! ### What holds between calls -/

/-- The inductions of the active stage are backed. In genesis every invitee is pending and has one
induction, so none is left when the contract becomes active. -/
structure Vouched (p : Platform) (es : List Record) (s : State) : Prop where
  endorsed : s.inductions.endorsed = .empty
  known : Known s.inductions
  absent : stageOf s = none → s.inductions.inductions.rows = []
  pending : stageOf s = some .genesis →
    ∀ i ∈ s.inductions.inductions.rows, status s i.invitee = some .pendingMembership
  single : stageOf s = some .genesis →
    ∀ i ∈ s.inductions.inductions.rows, ∀ j ∈ s.inductions.inductions.rows,
      i.invitee = j.invitee → i.id = j.id
  backed : stageOf s = some .active →
    ∀ i ∈ s.inductions.inductions.rows, Backed p es s.inductions i

theorem Vouched.same {es : List Record} {s s' : State} (h : Vouched p es s)
    (hsame : SameRoll s s') : Vouched p es s' where
  endorsed := hsame.endorsed.trans h.endorsed
  known := by
    unfold Known
    rw [hsame.inductions, hsame.endorsements]
    exact h.known
  absent := by
    rw [hsame.stage, hsame.inductions]
    exact h.absent
  pending := by
    rw [hsame.stage, hsame.inductions]
    intro hgenesis i hi
    rw [hsame.status]
    exact h.pending hgenesis i hi
  single := by
    rw [hsame.stage, hsame.inductions]
    exact h.single
  backed := by
    rw [hsame.stage, hsame.inductions]
    intro hactive i hi
    refine (h.backed hactive i hi).of_perm ?_
    rw [endorsementsOf, hsame.endorsements]
    exact List.Perm.refl _

theorem Vouched.push {es : List Record} {s : State} (h : Vouched p es s) (e : Record)
    (he : ∀ id, changesContent id e.input.2 = false) (hname : ∀ a, nameAfter e.input.2 a = a) :
    Vouched p (es ++ [e]) s :=
  { h with backed := fun hactive i hi => (h.backed hactive i hi).push e (he i.id) hname }

/-- Some inductions are gone, and those that are left have their invitees. -/
theorem Vouched.pruned {es : List Record} {s s' : State} {t : Inductions} (h : Vouched p es s)
    (hpruned : Pruned s.inductions t) (hinductions : s'.inductions.inductions = t.inductions)
    (hendorsements : s'.inductions.endorsements = t.endorsements)
    (hendorsed : s'.inductions.endorsed = t.endorsed) (hstage : stageOf s' = stageOf s)
    (hstatus : stageOf s = some .genesis → ∀ i ∈ t.inductions.rows,
      status s' i.invitee = status s i.invitee) : Vouched p es s' where
  endorsed := by
    rw [hendorsed]
    apply Table.eq_of_mem_iff
    intro row
    refine ⟨fun hrow => ?_, fun hrow => absurd hrow (by simp)⟩
    rw [← h.endorsed]
    exact hpruned.endorsed row hrow
  known := by
    unfold Known
    rw [hinductions, hendorsements]
    exact hpruned.known h.known
  absent := by
    rw [hstage, hinductions]
    intro hnone
    apply List.eq_nil_iff_forall_not_mem.mpr
    intro i hi
    have hold := hpruned.rows i hi
    rw [h.absent hnone] at hold
    exact absurd hold (by simp)
  pending := by
    rw [hstage, hinductions]
    intro hgenesis i hi
    rw [hstatus hgenesis i hi]
    exact h.pending hgenesis i (hpruned.rows i hi)
  single := by
    rw [hstage, hinductions]
    exact fun hgenesis i hi j hj => h.single hgenesis i (hpruned.rows i hi) j (hpruned.rows j hj)
  backed := by
    rw [hstage, hinductions]
    intro hactive i hi
    refine (h.backed hactive i (hpruned.rows i hi)).of_perm ?_
    have hkept : endorsementsOf t i.id = endorsementsOf s.inductions i.id := by
      refine hpruned.endorsements i.id ?_
      rw [Table.find?_of_mem hi]
      simp
    rw [endorsementsOf, hendorsements]
    exact List.Perm.of_eq hkept

theorem Vouched.revised {es es' : List Record} {s s' : State} (h : Vouched p es s)
    (hgenesis : stageOf s = some .genesis) (hstage : stageOf s' = some .genesis)
    (hstatus : ∀ a, status s' a = status s a) (hrevised : Revised s.inductions s'.inductions) :
    Vouched p es' s' := by
  have hrows : ∀ k ∈ s'.inductions.inductions.rows, ∃ i ∈ s.inductions.inductions.rows,
      i.id = k.id ∧ i.invitee = k.invitee := by
    intro k hk
    have hmem : invitation k ∈ s.inductions.inductions.rows.map invitation := by
      rw [← hrevised.rows]
      exact List.mem_map_of_mem hk
    obtain ⟨i, hi, hsame⟩ := List.mem_map.mp hmem
    exact ⟨i, hi, Prod.mk.inj hsame⟩
  refine ⟨hrevised.endorsed.trans h.endorsed, known_of_revised hrevised h.known, by simp [hstage], ?_, ?_,
    by simp [hstage]⟩
  · intro _ k hk
    obtain ⟨i, hi, _, hinvitee⟩ := hrows k hk
    rw [hstatus, ← hinvitee]
    exact h.pending hgenesis i hi
  · intro _ k hk k' hk' heq
    obtain ⟨i, hi, hid, hinvitee⟩ := hrows k hk
    obtain ⟨i', hi', hid', hinvitee'⟩ := hrows k' hk'
    rw [← hid, ← hid']
    exact h.single hgenesis i hi i' hi' ((hinvitee.trans heq).trans hinvitee'.symm)

/-- An invitee who is left in genesis is another than that of an erased induction. -/
theorem Vouched.other {es : List Record} {s : State} {i k : Induction} (h : Vouched p es s)
    (hgenesis : stageOf s = some .genesis) (hi : s.inductions.inductions.find? i.id = some i)
    (hk : k ∈ s.inductions.inductions.rows) (hne : k.id ≠ i.id) : i.invitee ≠ k.invitee :=
  fun heq => hne (h.single hgenesis k hk i (Table.mem_of_find? hi) heq.symm)

theorem joined_pruned (t : Inductions) (i : Induction) : Pruned t (joined t i).2 :=
  (eraseInduction_pruned t i).trans (eraseByInductee_pruned _ _ _)

theorem mem_joined {t : Inductions} {i k : Induction}
    (h : k ∈ (joined t i).2.inductions.rows) : k ∈ t.inductions.rows ∧ k.id ≠ i.id :=
  Table.mem_erase.mp ((eraseByInductee_pruned (eraseInduction t i) i.invitee _).rows k h)

/-- A queued invitee changes the queue only. -/
theorem joined_tables {t t' : Inductions} {i : Induction}
    (h : ((joined t i).1 = 0 ∧ queueGc (joined t i).2 i.invitee = .ok t') ∨
      ((joined t i).1 ≠ 0 ∧ t' = (joined t i).2)) :
    t'.inductions = (joined t i).2.inductions ∧ t'.endorsements = (joined t i).2.endorsements ∧
      t'.endorsed = (joined t i).2.endorsed := by
  rcases h with ⟨_, hqueue⟩ | ⟨_, rfl⟩
  · simp only [queueGc, bind_eq_ok, expect_eq_ok, pure_eq_ok] at hqueue
    obtain ⟨_, _, rfl⟩ := hqueue
    exact ⟨rfl, rfl, rfl⟩
  · exact ⟨rfl, rfl, rfl⟩

theorem step_vouched {es : List Record} {s s' : State} (h : RollStep s s')
    (hs : Vouched p es s) : Vouched p es s' := by
  cases h with
  | same hsame => exact hs.same hsame
  | founds hnone hstage hstatus hinductions =>
      have hrows := hs.absent hnone
      rw [← hinductions] at hrows
      refine ⟨by rw [hinductions, hs.endorsed], by rw [hinductions]; exact hs.known,
        fun _ => hrows, ?_, ?_, ?_⟩
      all_goals
        rw [hrows]
        simp
  | @enters i endorsers hgenesis hstage hnone hstatus hopens =>
      have hrows : ∀ j, j ∈ s'.inductions.inductions.rows ↔
          j = i ∨ j ∈ s.inductions.inductions.rows := by
        obtain ⟨_, table, hrows, _, _, heq, _⟩ := hopens
        rw [heq]
        exact hrows
      have hold : ∀ j ∈ s.inductions.inductions.rows, j.invitee ≠ i.invitee := by
        intro j hj heq
        have hpending := hs.pending hgenesis j hj
        rw [heq, hnone] at hpending
        exact absurd hpending (by simp)
      refine ⟨?_, known_of_opens hopens hs.known, by simp [hstage], ?_, ?_, by simp [hstage]⟩
      · obtain ⟨_, table, _, _, _, heq, _⟩ := hopens
        rw [heq]
        exact hs.endorsed
      · intro _ j hj
        rw [hstatus]
        rcases (hrows j).mp hj with rfl | hj
        · rw [if_pos rfl]
        · rw [if_neg (Ne.symm (hold j hj))]
          exact hs.pending hgenesis j hj
      · intro _ j hj k hk heq
        rcases (hrows j).mp hj with rfl | hj
        · rcases (hrows k).mp hk with rfl | hk
          · rfl
          · exact absurd heq.symm (hold k hk)
        · rcases (hrows k).mp hk with rfl | hk
          · exact absurd heq (hold j hj)
          · exact hs.single hgenesis j hj k hk heq
  | revises hgenesis hstage hstatus hrevised => exact hs.revised hgenesis hstage hstatus hrevised
  | @joins i hstage hi hpending hstatus htables =>
      obtain ⟨hinductions, hendorsements, hendorsed⟩ := joined_tables htables
      refine hs.pruned (joined_pruned s.inductions i) hinductions hendorsements hendorsed hstage ?_
      intro hgenesis k hk
      obtain ⟨hk, hne⟩ := mem_joined hk
      rw [hstatus, if_neg (hs.other hgenesis hi hk hne)]
  | establishes hgenesis hstage hnone hstatus hinductions =>
      have hrows : s'.inductions.inductions.rows = [] := by
        rw [hinductions]
        apply List.eq_nil_iff_forall_not_mem.mpr
        intro i hi
        exact hnone i.invitee (hs.pending hgenesis i hi)
      refine ⟨by rw [hinductions, hs.endorsed], by rw [hinductions]; exact hs.known,
        fun _ => hrows, ?_, ?_, ?_⟩
      all_goals
        rw [hrows]
        simp
  | @cancels i hstage hi hinductions hstatus =>
      refine hs.pruned (eraseInduction_pruned s.inductions i) (by rw [hinductions])
        (by rw [hinductions]) (by rw [hinductions]) hstage ?_
      intro hgenesis k hk
      obtain ⟨hk, hne⟩ := Table.mem_erase.mp hk
      rw [hstatus, if_neg fun hgone => hs.other hgenesis hi hk hne hgone.1]
  | @collects limit hstage hinductions hstatus =>
      refine hs.pruned (gcInductions_pruned s.inductions s.now limit) (by rw [hinductions])
        (by rw [hinductions]) (by rw [hinductions]) hstage ?_
      intro hgenesis k hk
      rw [hstatus, if_neg]
      rintro ⟨hremoved, _⟩
      exact hasInduction_eq_false.mp (gcInductions_removed hremoved) k hk rfl

/-! ### Calls that make one step -/

theorem endorsementsOf_setEndorsed (t : Inductions) (id : Nat) (endorsed : Bool) (k : Nat) :
    endorsementsOf (setEndorsed t id endorsed) k =
      (endorsementsOf t k).map fun e =>
        if e.inductionId = id then { e with endorsed := endorsed } else e := by
  refine endorsementsOf_update ?_ k
  intro e _
  split
  · rfl
  · rfl

theorem mem_endorsementsOf {t : Inductions} {id : Nat} {e : Endorsement} :
    e ∈ endorsementsOf t id ↔ e ∈ t.endorsements.rows ∧ e.inductionId = id := by
  simp [endorsementsOf]

theorem invited_vouched {es : List Record} {s s' : State} {i : Induction} {witnesses : List Name}
    (hs : Vouched p es s) (hactive : stageOf s = some .active) (hstage : stageOf s' = some .active)
    (hleast : 2 ≤ witnesses.length) (hmost : witnesses.length ≤ 5)
    (hopens : Opens s.inductions s'.inductions i (i.inviter :: witnesses).reverse) {e : Record}
    (he : e.input.2 = .action (.inductinit i.id i.inviter i.invitee witnesses)) :
    Vouched p (es ++ [e]) s' := by
  have hknown' := known_of_opens hopens hs.known
  obtain ⟨hnew, table, hrows, hadds⟩ := hopens
  have htables : s'.inductions.inductions = table ∧
      s'.inductions.endorsed = s.inductions.endorsed := by
    obtain ⟨_, _, heq, _⟩ := hadds
    rw [heq]
    exact ⟨rfl, rfl⟩
  refine ⟨htables.2.trans hs.endorsed, hknown', by simp [hstage], by simp [hstage],
    by simp [hstage], ?_⟩
  intro _ k hk
  rw [htables.1, hrows] at hk
  rcases hk with rfl | hk
  · obtain ⟨hperm, hnone⟩ :=
      (adds_endorsementsOf hadds).2 (endorsementsOf_new hs.known hnew)
    have hlength : (endorsementsOf s'.inductions k.id).length = witnesses.length + 1 := by
      have hcount := hperm.length_eq
      rwa [getEndorsers, List.length_map, List.length_reverse, List.length_cons] at hcount
    refine ⟨?_, by omega, by omega, ?_⟩
    · rw [hperm.mem_iff]
      simp
    · intro d hd hendorsed
      rw [hnone d hd] at hendorsed
      exact absurd hendorsed (by simp)
  · have hne : k.id ≠ i.id := Table.find?_eq_none.mp hnew k hk
    refine Backed.push ?_ e ?_ ?_
    · exact (hs.backed hactive k hk).of_perm ((adds_endorsementsOf hadds).1 k.id hne)
    · rw [he]
      simpa [changesContent] using Ne.symm hne
    · rw [he]
      exact fun _ => rfl

theorem edited_vouched {es : List Record} {s s' : State} {i j : Induction}
    (hs : Vouched p es s) (hactive : stageOf s = some .active) (hstage : stageOf s' = some .active)
    (hi : s.inductions.inductions.find? i.id = some i) (hsame : SameInvitation i j)
    (hinductions : s'.inductions = resetEndorsements
      { s.inductions with inductions := s.inductions.inductions.replace j } i.id) {e : Record}
    (hother : ∀ id, id ≠ i.id → changesContent id e.input.2 = false)
    (hname : ∀ a, nameAfter e.input.2 a = a) : Vouched p (es ++ [e]) s' := by
  obtain ⟨hid, hinviter, _⟩ := hsame
  refine ⟨?_, ?_, by simp [hstage], by simp [hstage], by simp [hstage], ?_⟩
  · rw [hinductions]
    exact hs.endorsed
  · intro d hd
    rw [hinductions] at hd ⊢
    obtain ⟨d₀, hd₀, hd₀id⟩ := setEndorsed_ids hd
    obtain ⟨k, hk⟩ := Option.ne_none_iff_exists'.mp (hs.known d₀ hd₀)
    rw [← hd₀id]
    change (s.inductions.inductions.replace j).find? _ ≠ none
    rw [Table.find?_replace, hk]
    split <;> simp
  · intro _ k hk
    rw [hinductions] at hk ⊢
    rcases Table.mem_replace.mp hk with ⟨hk, hne⟩ | ⟨rfl, _⟩
    · have hne' : k.id ≠ i.id := hid ▸ hne
      refine Backed.push ?_ e (hother k.id hne') hname
      refine (hs.backed hactive k hk).of_map rfl rfl _
        (endorsementsOf_setEndorsed _ i.id false k.id) ?_ ?_
      all_goals
        intro d hd
        have hd' : d.inductionId ≠ i.id := (mem_endorsementsOf.mp hd).2.trans_ne hne'
        rw [if_neg hd']
      · exact id
      · exact (hs.backed hactive k hk).content d hd
    · refine (hs.backed hactive i (Table.mem_of_find? hi)).of_map hid hinviter _
        (endorsementsOf_setEndorsed _ i.id false i.id) ?_ ?_
      all_goals
        intro d hd
        rw [if_pos (mem_endorsementsOf.mp hd).2]
      · exact id
      · exact fun hfalse => absurd hfalse (by simp)

theorem endorse_eq_ok {t t' : Inductions} {now : Nat} {i : Induction} {account : Name}
    {hash : Checksum} (h : endorse p t now i account hash = .ok t') :
    i.video ≠ [] ∧ i.newMemberProfile.name ≠ [] ∧ p.sha256 (inductionBytes i) = hash ∧
      ∃ row ∈ t.endorsements.rows, row.endorser = account ∧ row.inductionId = i.id ∧
        t' = { t with endorsements := t.endorsements.replace { row with endorsed := true } } := by
  simp only [endorse, bind_eq_ok, check_eq_ok, exists_const, getRow_eq_ok, pure_eq_ok,
    decide_eq_true_eq] at h
  obtain ⟨_, _, hvideo, hprofile, hhash, row, hrow, _, rfl⟩ := h
  have hfound := List.find?_some hrow
  simp only [Bool.and_eq_true, decide_eq_true_eq] at hfound
  exact ⟨hvideo, hprofile, hhash, row, List.mem_of_find?_eq_some hrow, hfound.1, hfound.2, rfl⟩

theorem attested_vouched {es : List Record} {s s' : State} {i : Induction} {account : Name}
    {hash : Checksum} (hs : Vouched p es s) (hstage : stageOf s' = stageOf s)
    (hstatus : ∀ a, status s' a = status s a)
    (hi : s.inductions.inductions.find? i.id = some i)
    (hendorse : endorse p s.inductions s.now i account hash = .ok s'.inductions) {e : Record}
    (he : e.input.2 = .action (.inductendors account i.id hash)) : Vouched p (es ++ [e]) s' := by
  obtain ⟨hvideo, hprofile, hhash, row, hrow, haccount, hid, hinductions⟩ := endorse_eq_ok hendorse
  let f (c : Endorsement) : Endorsement := if c.id = row.id then { row with endorsed := true } else c
  have hf : ∀ c ∈ s.inductions.endorsements.rows,
      (f c).inductionId = c.inductionId ∧ (f c).endorser = c.endorser ∧
        ((f c).endorsed = true → c.endorsed = true ∨ c = row) := by
    intro c hc
    by_cases hkey : c.id = row.id
    · have hsame : c = row := Table.eq_of_key_eq hc hrow hkey
      subst hsame
      simp [f]
    · simp only [f, if_neg hkey]
      exact ⟨trivial, trivial, fun hendorsed => .inl hendorsed⟩
  have hmap : ∀ id, endorsementsOf s'.inductions id = (endorsementsOf s.inductions id).map f := by
    intro id
    rw [hinductions]
    exact endorsementsOf_update (fun c hc => (hf c hc).1) id
  have hrows : s'.inductions.inductions = s.inductions.inductions := by rw [hinductions]
  refine ⟨?_, ?_, ?_, ?_, ?_, ?_⟩
  · rw [hinductions]
    exact hs.endorsed
  · intro d hd
    rw [hinductions] at hd ⊢
    rcases Table.mem_replace.mp hd with ⟨hd, _⟩ | ⟨rfl, _⟩
    · exact hs.known d hd
    · exact hs.known row hrow
  · rw [hstage, hrows]
    exact hs.absent
  · rw [hstage, hrows]
    intro hgenesis k hk
    rw [hstatus]
    exact hs.pending hgenesis k hk
  · rw [hstage, hrows]
    exact hs.single
  · rw [hstage, hrows]
    intro hactive k hk
    have hk' := hs.backed hactive k hk
    refine hk'.of_map rfl rfl f (hmap k.id) ?_ ?_
    · intro c hc heq
      rw [(hf c (mem_endorsementsOf.mp hc).1).2.1]
      exact heq
    · intro c hc hendorsed
      obtain ⟨hmem, hkid⟩ := mem_endorsementsOf.mp hc
      obtain ⟨_, hsame, hcases⟩ := hf c hmem
      rw [hsame]
      rcases hcases hendorsed with hold | rfl
      · have hpush := hk'.push e (by rw [he]; rfl) (by rw [he]; exact fun _ => rfl)
        exact hpush.content c hc hold
      · have hki : k = i :=
          Table.eq_of_key_eq hk (Table.mem_of_find? hi) (hkid.symm.trans hid)
        subst hki
        refine ⟨hvideo, hprofile, ?_⟩
        rw [hhash, haccount]
        exact Accepted.last he

theorem renamed_vouched {es : List Record} {s s' : State} {account newAccount : Name}
    (hs : Vouched p es s) (hactive : status s account = some .activeMember)
    (hnone : status s newAccount = none)
    (hstatus : ∀ a, status s' a = if account = a then none
      else if newAccount = a then some .activeMember else status s a)
    (hstage : stageOf s' = stageOf s)
    (hrename : renameEndorser s.inductions account newAccount = .ok s'.inductions) {e : Record}
    (he : e.input.2 = .action (.rename account newAccount)) : Vouched p (es ++ [e]) s' := by
  simp only [renameEndorser, bind_eq_ok, check_eq_ok, exists_const, pure_eq_ok] at hrename
  obtain ⟨_, hinviter, hinductions⟩ := hrename
  have hinviter' : ∀ i ∈ s.inductions.inductions.rows, i.inviter ≠ account := by
    simpa using hinviter
  let f (c : Endorsement) : Endorsement :=
    if c.endorser = account then { c with endorser := newAccount } else c
  have hf : ∀ c, (f c).inductionId = c.inductionId ∧ (f c).endorsed = c.endorsed ∧
      (f c).endorser = nameAfter e.input.2 c.endorser := by
    intro c
    simp only [f, he, nameAfter]
    split <;> exact ⟨rfl, rfl, rfl⟩
  have hrows : s'.inductions.inductions = s.inductions.inductions := by rw [← hinductions]
  have hmap : ∀ id, endorsementsOf s'.inductions id = (endorsementsOf s.inductions id).map f := by
    intro id
    rw [← hinductions]
    exact endorsementsOf_update (fun c _ => (hf c).1) id
  refine ⟨?_, ?_, ?_, ?_, ?_, ?_⟩
  · rw [← hinductions]
    exact hs.endorsed
  · intro d hd
    rw [← hinductions] at hd ⊢
    obtain ⟨c, hc, rfl⟩ := List.mem_map.mp hd
    change s.inductions.inductions.find? (f c).inductionId ≠ none
    rw [(hf c).1]
    exact hs.known c hc
  · rw [hstage, hrows]
    exact hs.absent
  · rw [hstage, hrows]
    intro hgenesis i hi
    have hpending := hs.pending hgenesis i hi
    rw [hstatus, if_neg, if_neg]
    · exact hpending
    · rintro rfl
      rw [hnone] at hpending
      exact absurd hpending (by simp)
    · rintro rfl
      rw [hactive] at hpending
      exact absurd hpending (by simp)
  · rw [hstage, hrows]
    exact hs.single
  · rw [hstage, hrows]
    intro hstage' i hi
    have hi' := hs.backed hstage' i hi
    refine hi'.of_map rfl rfl f (hmap i.id) ?_ ?_
    · intro c _ heq
      have hne : c.endorser ≠ account := heq ▸ hinviter' i hi
      simp only [f, if_neg hne]
      exact heq
    · intro c hc hendorsed
      rw [(hf c).2.1] at hendorsed
      obtain ⟨hvideo, hprofile, haccepted⟩ := hi'.content c hc hendorsed
      rw [(hf c).2.2]
      exact ⟨hvideo, hprofile, haccepted.push e (by rw [he]; rfl)⟩

theorem sole_vouched {es : List Record} {s s' : State} (h : SoleStep p call s s')
    (hs : Vouched p es s) {e : Record} (he : e.input.2 = call) : Vouched p (es ++ [e]) s' := by
  cases h with
  | invites hactive hstage _ _ hleast hmost hopens =>
      exact invited_vouched hs hactive hstage hleast hmost hopens he
  | fills hgenesis hstage hstatus hrevised => exact hs.revised hgenesis hstage hstatus hrevised
  | edits hcall hactive hstage _ hi hsame hinductions =>
      refine edited_vouched hs hactive hstage hi hsame hinductions ?_ ?_
      · intro id hne
        rcases hcall with ⟨_, rfl⟩ | ⟨_, _, rfl⟩
        all_goals
          rw [he]
          simpa [changesContent] using Ne.symm hne
      · intro a
        rcases hcall with ⟨_, rfl⟩ | ⟨_, _, rfl⟩
        all_goals
          rw [he]
          rfl
  | attests hstage hstatus hi hendorse => exact attested_vouched hs hstage hstatus hi hendorse he
  | renames hactive hnone hstatus hstage hrename =>
      exact renamed_vouched hs hactive hnone hstatus hstage hrename he
  | leaves hactive hstatus hstage hinductions =>
      refine Vouched.push ?_ e (fun _ => by rw [he]; rfl) (fun _ => by rw [he]; rfl)
      refine hs.pruned (Pruned.refl _) (by rw [hinductions]) (by rw [hinductions])
        (by rw [hinductions]) hstage ?_
      intro hgenesis i hi
      rw [hstatus, if_neg]
      rintro rfl
      have hpending := hs.pending hgenesis i hi
      rw [hactive] at hpending
      exact absurd hpending (by simp)
  | clears hstage _ hinductions hendorsements hendorsed =>
      refine ⟨hendorsed.trans hs.endorsed, ?_, ?_, ?_, ?_, ?_⟩
      · intro d hd
        rw [hendorsements] at hd
        exact absurd hd (by simp)
      all_goals
        rw [hinductions]
        simp

/-! ### Histories -/

theorem untouched_vouched {s : State} (h : Untouched s) : Vouched p [] s := by
  rw [h.1]
  refine ⟨rfl, ?_, fun _ => rfl, ?_, ?_, ?_⟩
  · intro e he
    exact absurd he (by simp)
  all_goals
    intro hstage
    exact absurd hstage (by simp [stageOf])

theorem exec_vouched {es : List Record} {s s' : State} (hs : Vouched p es s)
    (hcounted : Counted s.members) (hexec : exec p env s call = .ok s')
    (hsteps : Steps p call s s') : Vouched p (es ++ [⟨s, (env, call), s'⟩]) s' := by
  cases hsole : makesOneStep call with
  | false =>
      have hroll : RollSteps s s' := exec_roll hsole hsteps hexec hs.endorsed hcounted
      have hall : Vouched p es s' := by
        clear hexec hsteps
        induction hroll with
        | refl => exact hs
        | tail _ hlast ih => exact step_vouched hlast ih
      exact hall.push _ (changesContent_of_not_sole hsole) (nameAfter_of_not_sole hsole)
  | true =>
      obtain ⟨t, t', hbefore, hstep, hafter⟩ := exec_sole hsole hexec
      exact (sole_vouched hstep (hs.same hbefore) rfl).same hafter

/-- What the histories of a state say holds in every reachable state. -/
theorem reachable_vouched {allowed : State → Call → Prop} {s : State}
    (h : Reachable p allowed s) : Counted s.members ∧ ∃ es, Vouched p es s := by
  refine (reachable_invariant (fun s => (Counted s.members ∧ ∃ es, Vouched p es s) ∧
    s.output.serializedEvents = []) h ?_ ?_ ?_).1
  · intro s hs
    refine ⟨⟨untouched_counted hs, [], untouched_vouched hs⟩, ?_⟩
    rw [hs.1]
  · rintro s now _ _ ⟨⟨hcounted, es, hvouched⟩, hclean⟩
    exact ⟨⟨hcounted, es, hvouched.same (sameRoll_of_eq rfl rfl rfl)⟩, hclean⟩
  · rintro env s call s' _ hexec ⟨⟨hcounted, es, hvouched⟩, hclean⟩
    obtain ⟨hsteps, hclean'⟩ := exec_steps hclean hexec
    refine ⟨⟨?_, _, exec_vouched hvouched hcounted hexec hsteps⟩, hclean'⟩
    exact steps_preserve (fun t : State => Counted t.members)
      (fun _ _ hstep => step_counted hstep) hsteps hcounted

theorem inductdonate_accepted {s s' : State} {payer : Name} {id : Nat} {quantity : Asset}
    (h : exec p env s (.action (.inductdonate payer id quantity)) = .ok s') :
    ∃ i, s.inductions.inductions.find? id = some i ∧ isValidInduction s.now i = true ∧
      (endorsementsOf s.inductions id).all Endorsement.endorsed = true := by
  simp only [exec, applyAction, dispatch, inductdonate, getInduction, bind_eq_ok, getRow_eq_ok,
    checkValidInduction, check_eq_ok, exists_const] at h
  obtain ⟨_, ⟨_, _, g, _, i, hi, hvalid, _, _, _, _, user, _, migration, _, t, ht, h⟩, _⟩ := h
  have hinductions : t.inductions = s.inductions := by
    split at ht
    · simp only [donateToMaster, bind_eq_ok, pure_eq_ok] at ht
      obtain ⟨_, _, rfl⟩ := ht
      rfl
    · rw [← Except.ok.inj ht]
      rfl
  simp only [createNft, bind_eq_ok] at h
  obtain ⟨u, hu, _⟩ := h
  have hall := (endorseInduction_eq_ok hu).1
  rw [hinductions, Table.key_of_find? hi] at hall
  exact ⟨i, hi, hvalid, hall⟩

/-- In the active stage a member joins only by an induction that has not expired, has a video and a
profile, and has three to six endorsements, one of them by the inviter. Each of them was given,
with the hash of this video and this profile, after the last change of the video or the profile. -/
theorem endorsement_integrity {es : List Record} {s : State} (h : History p (fun _ _ => True) es s)
    {es₁ es₂ : List Record} {e : Record} (hes : es = es₁ ++ e :: es₂) {payer : Name} {id : Nat}
    {quantity : Asset} (hcall : e.input.2 = .action (.inductdonate payer id quantity))
    (hactive : stageOf e.before = some .active) :
    ∃ i, e.before.inductions.inductions.find? id = some i ∧
      isValidInduction e.before.now i = true ∧ i.video ≠ [] ∧ i.newMemberProfile.name ≠ [] ∧
      i.inviter ∈ getEndorsers e.before.inductions id ∧
      3 ≤ (endorsementsOf e.before.inductions id).length ∧
      (endorsementsOf e.before.inductions id).length ≤ 6 ∧
      ∀ d ∈ endorsementsOf e.before.inductions id,
        Accepted es₁ id d.endorser (p.sha256 (inductionBytes i)) := by
  have hall := history_entries (fun es s => Vouched p es s ∧ Counted s.members)
    (fun es e => Vouched p es e.before ∧ exec p e.input.1 e.before e.input.2 = .ok e.after) h
    ?_ ?_ ?_ es₁ e es₂ hes
  · obtain ⟨hvouched, hexec⟩ := hall
    rw [hcall] at hexec
    obtain ⟨i, hi, hvalid, hendorsed⟩ := inductdonate_accepted hexec
    have hid := Table.key_of_find? hi
    subst hid
    have hbacked := hvouched.backed hactive i (Table.mem_of_find? hi)
    have hcontent := fun d hd => hbacked.content d hd (List.all_eq_true.mp hendorsed d hd)
    obtain ⟨d, hd⟩ := List.exists_mem_of_length_pos (Nat.lt_of_lt_of_le (by decide) hbacked.least)
    exact ⟨i, hi, hvalid, (hcontent d hd).1, (hcontent d hd).2.1, hbacked.inviter, hbacked.least,
      hbacked.most, fun d hd => (hcontent d hd).2.2⟩
  · exact fun s hs => ⟨untouched_vouched hs, untouched_counted hs⟩
  · intro es s now _ _ hs
    exact ⟨hs.1.same (sameRoll_of_eq rfl rfl rfl), hs.2⟩
  · intro es env call s s' _ hexec hsteps hs
    refine ⟨⟨exec_vouched hs.1 hs.2 hexec hsteps, ?_⟩, hs.1, hexec⟩
    exact steps_preserve (fun t : State => Counted t.members)
      (fun _ _ hstep => step_counted hstep) hsteps hs.2

def dave : Signer := ⟨nameOf ['d', 'a', 'v', 'e'], by decide⟩

/-- Alice, bob and carol begin. Alice invites dave, with bob and carol as witnesses. -/
def firstInduction : List Transaction :=
  let hash := host.sha256 (inductionBytes ⟨7, alice.name, dave.name, 3, 0, ['Q', 'm'], sampleProfile⟩)
  [(1000000, [(signedBy contractSigner, .action (.genesis ['E', 'd', 'e', 'n'] eosSymbol (eos 100)
      [alice.name, bob.name, carol.name] ['Q', 'm'] (eos 1) 3600 3 ['1', '2', ':', '0', '0']))]),
    (1000010, [(signedBy alice, .transfer alice.name host.self (eos 1000) []),
      (signedBy bob, .transfer bob.name host.self (eos 1000) []),
      (signedBy carol, .transfer carol.name host.self (eos 1000) []),
      (signedBy dave, .transfer dave.name host.self (eos 1000) [])]),
    (1000020, [(signedBy alice, .action (.inductprofil 1 sampleProfile)),
      (signedBy bob, .action (.inductprofil 2 sampleProfile)),
      (signedBy carol, .action (.inductprofil 3 sampleProfile))]),
    (1000030, [(signedBy alice, .action (.inductdonate alice.name 1 (eos 100))),
      ({ signedBy bob with assetId := 100 }, .action (.inductdonate bob.name 2 (eos 100))),
      ({ signedBy carol with assetId := 200 }, .action (.inductdonate carol.name 3 (eos 100)))]),
    (1000040, [(signedBy alice,
        .action (.inductinit 7 alice.name dave.name [bob.name, carol.name])),
      (signedBy dave, .action (.inductprofil 7 sampleProfile)),
      (signedBy bob, .action (.inductvideo bob.name 7 ['Q', 'm'])),
      (signedBy alice, .action (.inductendors alice.name 7 hash)),
      (signedBy bob, .action (.inductendors bob.name 7 hash)),
      (signedBy carol, .action (.inductendors carol.name 7 hash)),
      ({ signedBy dave with assetId := 300 }, .action (.inductdonate dave.name 7 (eos 100)))])]

theorem first_induction_endorsed :
    ∃ es e s i, traceFromGenesis host (fun _ _ => True) firstInduction = some (es ++ [e], s) ∧
      e.input.2 = .action (.inductdonate dave.name 7 (eos 100)) ∧
      stageOf e.before = some .active ∧ e.before.inductions.inductions.find? 7 = some i ∧
      ∀ d ∈ endorsementsOf e.before.inductions 7,
        Accepted es 7 d.endorser (host.sha256 (inductionBytes i)) := by
  have hrun : (traceFromGenesis host (fun _ _ => True) firstInduction).any (fun result =>
      result.1.getLast?.any fun e =>
        e.input.2 = .action (.inductdonate dave.name 7 (eos 100)) &&
          stageOf e.before = some .active) = true := by decide +kernel
  obtain ⟨⟨es, s⟩, htrace, hlast⟩ := (Option.any_eq_true _ _).mp hrun
  obtain ⟨e, he, hstate⟩ := (Option.any_eq_true _ _).mp hlast
  simp only [Bool.and_eq_true, decide_eq_true_eq] at hstate
  obtain ⟨hcall, hactive⟩ := hstate
  obtain ⟨es₁, rfl⟩ := List.getLast?_eq_some_iff.mp he
  obtain ⟨i, hi, _, _, _, _, _, _, haccepted⟩ :=
    endorsement_integrity (history_of_trace htrace) rfl hcall hactive
  exact ⟨es₁, e, s, i, htrace, hcall, hactive, hi, haccepted⟩

end Eden.EndorsedContents
