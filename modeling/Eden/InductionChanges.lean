import Eden.InductionTables

/-!
What the functions on inductions do to the tables of inductions and endorsements.
-/

namespace Eden.InductionChanges

open Eden.ExceptReasoning
open Eden.SortedTable
open Eden.ChainPrimitives
open Eden.ContractState
open Eden.Runtime
open Eden.MemberTable
open Eden.InductionTables

/-! ### New rows -/

theorem createInduction_eq_ok {t t' : Inductions} {now id : Nat} {inviter invitee : Name}
    {endorsements : Nat} {video : Text}
    (h : createInduction t now id inviter invitee endorsements video = .ok t') :
    ∃ table, t.inductions.emplace? ⟨id, inviter, invitee, endorsements, now, video, {}⟩ =
        some table ∧ t' = { t with inductions := table } := by
  simp only [createInduction, bind_eq_ok, expect_eq_ok, pure_eq_ok] at h
  obtain ⟨table, htable, rfl⟩ := h
  exact ⟨table, htable, rfl⟩

/-- New endorsements of one induction. -/
def Adds (t t' : Inductions) (id : Nat) (endorsed : Bool) (endorsers : List Name) : Prop :=
  ∃ table rows, t' = { t with endorsements := table } ∧
    table.rows.Perm (rows ++ t.endorsements.rows) ∧ rows.map Endorsement.endorser = endorsers ∧
    ∀ e ∈ rows, e.inductionId = id ∧ e.endorsed = endorsed

theorem createEndorsement_adds {t t' : Inductions} {inviter invitee endorser : Name}
    {inductionId : Nat} {endorsed : Bool}
    (h : createEndorsement t inviter invitee endorser inductionId endorsed = .ok t') :
    Adds t t' inductionId endorsed [endorser] := by
  simp only [createEndorsement, bind_eq_ok, expect_eq_ok, pure_eq_ok] at h
  obtain ⟨table, htable, rfl⟩ := h
  refine ⟨table, [_], rfl, Table.emplace?_perm htable, rfl, ?_⟩
  intro e he
  rw [List.mem_singleton.mp he]
  exact ⟨rfl, rfl⟩

theorem Adds.trans {t₁ t₂ t₃ : Inductions} {id : Nat} {endorsed : Bool} {l l' : List Name}
    (h : Adds t₁ t₂ id endorsed l) (h' : Adds t₂ t₃ id endorsed l') :
    Adds t₁ t₃ id endorsed (l' ++ l) := by
  obtain ⟨table, rows, rfl, hperm, hmap, hrows⟩ := h
  obtain ⟨table', rows', rfl, hperm', hmap', hrows'⟩ := h'
  refine ⟨table', rows' ++ rows, rfl, ?_, ?_, ?_⟩
  · rw [List.append_assoc]
    exact hperm'.trans (hperm.append_left rows')
  · rw [List.map_append, hmap, hmap']
  · intro e he
    rcases List.mem_append.mp he with he | he
    · exact hrows' e he
    · exact hrows e he

theorem createEndorsements_adds {t t' : Inductions} {inviter invitee : Name} {inductionId : Nat}
    {endorsers : List Name}
    (h : createEndorsements t inviter invitee inductionId endorsers = .ok t') :
    Adds t t' inductionId false endorsers.reverse := by
  unfold createEndorsements at h
  induction endorsers generalizing t with
  | nil =>
      rw [List.foldlM_nil, pure_eq_ok] at h
      subst h
      exact ⟨t.endorsements, [], rfl, List.Perm.refl _, rfl, by simp⟩
  | cons endorser endorsers ih =>
      rw [List.foldlM_cons, bind_eq_ok] at h
      obtain ⟨u, hu, h⟩ := h
      rw [List.reverse_cons]
      exact (createEndorsement_adds hu).trans (ih h)

/-! ### Erased rows -/

theorem rows_erase (t : Table Endorsement.id) (id : Nat) :
    (t.erase id).rows = t.rows.filter fun e => e.id ≠ id := rfl

theorem eraseInduction_endorsements (t : Inductions) (induction : Induction) :
    (eraseInduction t induction).endorsements.rows =
      t.endorsements.rows.filter fun e => e.inductionId ≠ induction.id := by
  have hfold : ∀ (l : List Endorsement) (u : Table Endorsement.id),
      (l.foldl (fun endorsements e => endorsements.erase e.id) u).rows =
        u.rows.filter fun e => ∀ d ∈ l, e.id ≠ d.id := by
    intro l
    induction l with
    | nil => simp
    | cons d l ih =>
        intro u
        rw [List.foldl_cons, ih, rows_erase, List.filter_filter]
        apply List.filter_congr
        intro e _
        simp [Bool.and_comm]
  rw [eraseInduction, hfold]
  apply List.filter_congr
  intro e he
  rw [decide_eq_decide]
  constructor
  · intro hall hid
    exact hall e (List.mem_filter.mpr ⟨he, by simpa using hid⟩) rfl
  · intro hid d hd heq
    obtain ⟨hd, hdid⟩ := List.mem_filter.mp hd
    have hsame : e = d := Table.eq_of_key_eq he hd heq
    subst hsame
    exact hid (by simpa using hdid)

/-- Some inductions are gone, with their endorsements. -/
structure Pruned (t t' : Inductions) : Prop where
  rows : ∀ i ∈ t'.inductions.rows, i ∈ t.inductions.rows
  endorsements : ∀ id, t'.inductions.find? id ≠ none → endorsementsOf t' id = endorsementsOf t id
  known : (∀ e ∈ t.endorsements.rows, t.inductions.find? e.inductionId ≠ none) →
    ∀ e ∈ t'.endorsements.rows, t'.inductions.find? e.inductionId ≠ none
  endorsed : NoneEndorsed t t'
  queue : ∀ a ∈ t'.gc.rows, a ∈ t.gc.rows

theorem Pruned.refl (t : Inductions) : Pruned t t where
  rows := fun _ hi => hi
  endorsements := fun _ _ => rfl
  known := id
  endorsed := NoneEndorsed.refl t
  queue := fun _ ha => ha

theorem Pruned.trans {t₁ t₂ t₃ : Inductions} (h : Pruned t₁ t₂) (h' : Pruned t₂ t₃) :
    Pruned t₁ t₃ where
  rows := fun i hi => h.rows i (h'.rows i hi)
  endorsements := by
    intro id hid
    rw [h'.endorsements id hid]
    refine h.endorsements id ?_
    obtain ⟨i, hi⟩ := Option.ne_none_iff_exists'.mp hid
    have hmem := h'.rows i (Table.mem_of_find? hi)
    have hkey : i.id = id := Table.key_of_find? hi
    rw [← hkey, Table.find?_of_mem hmem]
    simp
  known := fun hknown => h'.known (h.known hknown)
  endorsed := h.endorsed.trans h'.endorsed
  queue := fun a ha => h.queue a (h'.queue a ha)

theorem eraseInduction_pruned (t : Inductions) (induction : Induction) :
    Pruned t (eraseInduction t induction) where
  rows := fun _ hi => (Table.mem_erase.mp hi).1
  endorsements := by
    intro id hid
    have hne : induction.id ≠ id := by
      rintro rfl
      exact hid (by simp [eraseInduction, Table.find?_erase])
    unfold endorsementsOf
    rw [eraseInduction_endorsements, List.filter_filter]
    apply List.filter_congr
    intro e _
    by_cases he : e.inductionId = id
    · simp [he, Ne.symm hne]
    · simp [he]
  known := by
    intro hknown e he
    rw [eraseInduction_endorsements, List.mem_filter, decide_eq_true_eq] at he
    change (t.inductions.erase induction.id).find? e.inductionId ≠ none
    rw [Table.find?_erase, if_neg (Ne.symm he.2)]
    exact hknown e he.1
  endorsed := eraseInduction_endorsed t induction
  queue := fun _ ha => ha

/-- An induction is erased, or an invitee leaves the queue. -/
inductive Erasure : Inductions → Inductions → Prop
  | induction (t : Inductions) (i : Induction) : Erasure t (eraseInduction t i)
  | queued (t : Inductions) (invitee : Name) : Erasure t { t with gc := t.gc.erase invitee }

abbrev Erasures : Inductions → Inductions → Prop := Relation.ReflTransGen Erasure

theorem eraseInductions_erasures (rows : List Induction) (limit : Nat) (t : Inductions) :
    Erasures t (eraseInductions rows limit t).2 := by
  fun_induction eraseInductions rows limit t with
  | case1 => exact .refl
  | case2 => exact .refl
  | case3 i rest limit t ih => exact .head (.induction t i) ih

theorem eraseByInductee_erasures (t : Inductions) (invitee : Name) (limit : Nat) :
    Erasures t (eraseByInductee t invitee limit).2 := eraseInductions_erasures _ _ _

theorem eraseExpiredFrom_erasures (now : Nat) (rows : List Induction) (limit : Nat)
    (removed : List Name) (t : Inductions) :
    Erasures t (eraseExpiredFrom now rows limit removed t).2.2 := by
  fun_induction eraseExpiredFrom now rows limit removed t with
  | case1 => exact .refl
  | case2 => exact .refl
  | case3 => exact .refl
  | case4 i rest limit removed t _ _ _ ih => exact .head (.induction t i) ih

theorem gcInvitees_erasures (invitees : List Name) (limit : Nat) (t : Inductions) :
    Erasures t (gcInvitees invitees limit t).2 := by
  fun_induction gcInvitees invitees limit t with
  | case1 => exact .refl
  | case2 => exact .refl
  | case3 invitee rest limit t _ t' heq =>
      have hstep := eraseByInductee_erasures t invitee limit
      rw [heq] at hstep
      exact hstep
  | case4 invitee rest limit t _ limit' t' heq _ ih =>
      have hstep := eraseByInductee_erasures t invitee limit
      rw [heq] at hstep
      exact hstep.trans (.head (.queued t' invitee) ih)

theorem gcInductions_erasures (t : Inductions) (now limit : Nat) :
    Erasures t (gcInductions t now limit).2.2 :=
  (eraseExpiredFrom_erasures now _ limit [] t).trans (gcInvitees_erasures _ _ _)

theorem Erasures.pruned {t t' : Inductions} (h : Erasures t t') : Pruned t t' := by
  induction h with
  | refl => exact Pruned.refl t
  | tail _ hlast ih =>
      refine ih.trans ?_
      cases hlast with
      | induction i => exact eraseInduction_pruned _ i
      | queued invitee =>
          exact { Pruned.refl _ with queue := fun _ ha => (Table.mem_erase.mp ha).1 }

theorem eraseInductions_pruned (rows : List Induction) (limit : Nat) (t : Inductions) :
    Pruned t (eraseInductions rows limit t).2 := (eraseInductions_erasures rows limit t).pruned

theorem eraseByInductee_pruned (t : Inductions) (invitee : Name) (limit : Nat) :
    Pruned t (eraseByInductee t invitee limit).2 := eraseInductions_pruned _ _ _

theorem gcInvitees_pruned (invitees : List Name) (limit : Nat) (t : Inductions) :
    Pruned t (gcInvitees invitees limit t).2 := (gcInvitees_erasures invitees limit t).pruned

theorem gcInductions_pruned (t : Inductions) (now limit : Nat) :
    Pruned t (gcInductions t now limit).2.2 := (gcInductions_erasures t now limit).pruned

/-! ### Invitees without an induction -/

theorem hasInduction_eq_false {t : Inductions} {invitee : Name} :
    hasInduction t invitee = false ↔ ∀ i ∈ t.inductions.rows, i.invitee ≠ invitee := by
  simp [hasInduction]

theorem Pruned.hasInduction {t t' : Inductions} (h : Pruned t t') {invitee : Name}
    (hnone : hasInduction t invitee = false) : hasInduction t' invitee = false := by
  rw [hasInduction_eq_false] at hnone ⊢
  exact fun i hi => hnone i (h.rows i hi)

theorem eraseExpiredFrom_removed {now limit : Nat} {rows : List Induction} {removed : List Name}
    {t : Inductions} (h : ∀ a ∈ removed, hasInduction t a = false) :
    ∀ a ∈ (eraseExpiredFrom now rows limit removed t).2.1,
      hasInduction (eraseExpiredFrom now rows limit removed t).2.2 a = false := by
  fun_induction eraseExpiredFrom now rows limit removed t with
  | case1 => exact h
  | case2 => exact h
  | case3 => exact h
  | case4 induction rest limit removed t _ t' removed' ih =>
      apply ih
      intro a ha
      have hold : a ∈ removed → hasInduction t' a = false :=
        fun hmem => (eraseInduction_pruned t induction).hasInduction (h a hmem)
      simp only [removed'] at ha
      split at ha
      · exact hold ha
      · rename_i hgone
        rcases List.mem_append.mp ha with hmem | hnew
        · exact hold hmem
        · rw [List.mem_singleton.mp hnew]
          simpa using hgone

/-- The members that `inductions::gc` gives back have no induction any more. -/
theorem gcInductions_removed {t : Inductions} {now limit : Nat} {a : Name}
    (h : a ∈ (gcInductions t now limit).2.1) :
    hasInduction (gcInductions t now limit).2.2 a = false :=
  (gcInvitees_pruned _ _ _).hasInduction (eraseExpiredFrom_removed (by simp) a h)

theorem hasInduction_eq_true {t : Inductions} {invitee : Name} :
    hasInduction t invitee = true ↔ ∃ i ∈ t.inductions.rows, i.invitee = invitee := by
  simp [hasInduction]

theorem mem_eraseInduction {t : Inductions} {i k : Induction}
    (hi : i ∈ t.inductions.rows) (hk : k ∈ t.inductions.rows) (hne : k ≠ i) :
    k ∈ (eraseInduction t i).inductions.rows :=
  Table.mem_erase.mpr ⟨hk, fun heq => hne (Table.eq_of_key_eq hk hi heq)⟩

/-- An induction is gone after it was erased. -/
theorem not_mem_eraseInduction (t : Inductions) (i : Induction) :
    i ∉ (eraseInduction t i).inductions.rows := fun hmem => (Table.mem_erase.mp hmem).2 rfl

theorem mem_eraseInductions {rows : List Induction} {limit : Nat} {t : Inductions} {k : Induction}
    (hrows : ∀ i ∈ rows, i.id ≠ k.id) (hk : k ∈ t.inductions.rows) :
    k ∈ (eraseInductions rows limit t).2.inductions.rows := by
  fun_induction eraseInductions rows limit t with
  | case1 => exact hk
  | case2 => exact hk
  | case3 i rest limit t ih =>
      refine ih (fun j hj => hrows j (List.mem_cons_of_mem _ hj)) ?_
      exact Table.mem_erase.mpr ⟨hk, Ne.symm (hrows i List.mem_cons_self)⟩

/-- All inductions of the list are gone when the limit is not used up. -/
theorem not_mem_eraseInductions {rows : List Induction} {limit : Nat} {t : Inductions}
    (hlimit : (eraseInductions rows limit t).1 ≠ 0) :
    ∀ i ∈ rows, i ∉ (eraseInductions rows limit t).2.inductions.rows := by
  fun_induction eraseInductions rows limit t with
  | case1 => exact fun i hi => absurd hi (by simp)
  | case2 => exact absurd rfl hlimit
  | case3 i rest limit t ih =>
      intro j hj hmem
      rcases List.mem_cons.mp hj with rfl | hj
      · exact not_mem_eraseInduction t j ((eraseInductions_pruned rest limit _).rows j hmem)
      · exact ih hlimit j hj hmem

theorem mem_eraseByInductee {t : Inductions} {invitee : Name} {limit : Nat} {k : Induction}
    (hk : k ∈ t.inductions.rows) (hne : k.invitee ≠ invitee) :
    k ∈ (eraseByInductee t invitee limit).2.inductions.rows := by
  refine mem_eraseInductions ?_ hk
  intro i hi heq
  simp only [List.mem_filter, Table.mem_index, decide_eq_true_eq] at hi
  have hsame : i = k := Table.eq_of_key_eq hi.1 hk heq
  exact hne (hsame ▸ hi.2)

theorem eraseByInductee_done {t : Inductions} {invitee : Name} {limit : Nat}
    (hlimit : (eraseByInductee t invitee limit).1 ≠ 0) :
    hasInduction (eraseByInductee t invitee limit).2 invitee = false := by
  rw [hasInduction_eq_false]
  intro i hi hinvitee
  refine not_mem_eraseInductions hlimit i ?_ hi
  simp only [List.mem_filter, Table.mem_index, decide_eq_true_eq]
  exact ⟨(eraseByInductee_pruned t invitee limit).rows i hi, hinvitee⟩

/-- An invitee keeps an induction or is given back as removed. -/
theorem eraseExpiredFrom_kept {now limit : Nat} {rows : List Induction} {removed : List Name}
    {t : Inductions} (hrows : ∀ i ∈ rows, i ∈ t.inductions.rows) (hnodup : rows.Nodup) {a : Name}
    (ha : hasInduction t a = true ∨ a ∈ removed) :
    hasInduction (eraseExpiredFrom now rows limit removed t).2.2 a = true ∨
      a ∈ (eraseExpiredFrom now rows limit removed t).2.1 := by
  fun_induction eraseExpiredFrom now rows limit removed t with
  | case1 => exact ha
  | case2 => exact ha
  | case3 => exact ha
  | case4 i rest limit removed t _ t' removed' ih =>
      obtain ⟨hfirst, hrest⟩ := List.nodup_cons.mp hnodup
      have hi := hrows i List.mem_cons_self
      refine ih ?_ hrest ?_
      · intro j hj
        refine mem_eraseInduction hi (hrows j (List.mem_cons_of_mem _ hj)) ?_
        rintro rfl
        exact hfirst hj
      · rcases ha with hhas | hmem
        · obtain ⟨k, hk, rfl⟩ := hasInduction_eq_true.mp hhas
          by_cases hgone : hasInduction t' k.invitee = true
          · exact .inl hgone
          · have hki : k = i := by
              by_contra hne
              exact hgone (hasInduction_eq_true.mpr ⟨k, mem_eraseInduction hi hk hne, rfl⟩)
            subst hki
            right
            simp only [removed']
            rw [if_neg hgone]
            simp
        · right
          simp only [removed']
          split
          · exact hmem
          · exact List.mem_append_left _ hmem

theorem eraseExpiredFrom_nodup {now limit : Nat} {rows : List Induction} {removed : List Name}
    {t : Inductions} (hrows : ∀ i ∈ rows, i ∈ t.inductions.rows) (hnodup : rows.Nodup)
    (hgone : ∀ a ∈ removed, hasInduction t a = false) (hremoved : removed.Nodup) :
    (eraseExpiredFrom now rows limit removed t).2.1.Nodup := by
  fun_induction eraseExpiredFrom now rows limit removed t with
  | case1 => exact hremoved
  | case2 => exact hremoved
  | case3 => exact hremoved
  | case4 i rest limit removed t _ t' removed' ih =>
      obtain ⟨hfirst, hrest⟩ := List.nodup_cons.mp hnodup
      have hi := hrows i List.mem_cons_self
      have hold : ∀ a ∈ removed, hasInduction t' a = false :=
        fun a ha => (eraseInduction_pruned t i).hasInduction (hgone a ha)
      refine ih ?_ hrest ?_ ?_
      · intro j hj
        refine mem_eraseInduction hi (hrows j (List.mem_cons_of_mem _ hj)) ?_
        rintro rfl
        exact hfirst hj
      · simp only [removed']
        split
        · exact hold
        · rename_i hnone
          intro a ha
          rcases List.mem_append.mp ha with ha | ha
          · exact hold a ha
          · rw [List.mem_singleton.mp ha]
            simpa using hnone
      · simp only [removed']
        split
        · exact hremoved
        · refine List.nodup_append.mpr ⟨hremoved, List.nodup_singleton _, ?_⟩
          intro a ha b hb heq
          rw [heq, List.mem_singleton.mp hb] at ha
          exact hasInduction_eq_false.mp (hgone _ ha) i hi rfl

theorem mem_gcInvitees {invitees : List Name} {limit : Nat} {t : Inductions} {k : Induction}
    (hk : k ∈ t.inductions.rows) (hne : k.invitee ∉ invitees) :
    k ∈ (gcInvitees invitees limit t).2.inductions.rows := by
  fun_induction gcInvitees invitees limit t with
  | case1 => exact hk
  | case2 => exact hk
  | case3 invitee rest limit t _ t' heq =>
      have hstep : k ∈ (eraseByInductee t invitee limit).2.inductions.rows :=
        mem_eraseByInductee hk fun h => hne (h ▸ List.mem_cons_self)
      rw [heq] at hstep
      exact hstep
  | case4 invitee rest limit t _ limit' t' heq _ ih =>
      have hstep : k ∈ (eraseByInductee t invitee limit).2.inductions.rows :=
        mem_eraseByInductee hk fun h => hne (h ▸ List.mem_cons_self)
      rw [heq] at hstep
      exact ih hstep fun h => hne (List.mem_cons_of_mem _ h)

theorem eraseInductions_queue (rows : List Induction) (limit : Nat) (t : Inductions) :
    (eraseInductions rows limit t).2.gc = t.gc := by
  fun_induction eraseInductions rows limit t with
  | case1 => rfl
  | case2 => rfl
  | case3 _ _ _ _ ih => exact ih

/-- Who leaves the queue has no induction left. -/
theorem gcInvitees_queue {invitees : List Name} {limit : Nat} {t : Inductions} {a : Name}
    (ha : a ∈ t.gc.rows ∨ hasInduction t a = false) :
    a ∈ (gcInvitees invitees limit t).2.gc.rows ∨
      hasInduction (gcInvitees invitees limit t).2 a = false := by
  have hsame : ∀ (invitee : Name) (limit : Nat) (t : Inductions),
      (a ∈ t.gc.rows ∨ hasInduction t a = false) →
      a ∈ (eraseByInductee t invitee limit).2.gc.rows ∨
        hasInduction (eraseByInductee t invitee limit).2 a = false := by
    intro invitee limit t ha
    rcases ha with hmem | hnone
    · left
      rw [eraseByInductee, eraseInductions_queue]
      exact hmem
    · exact .inr ((eraseByInductee_pruned t invitee limit).hasInduction hnone)
  fun_induction gcInvitees invitees limit t with
  | case1 => exact ha
  | case2 => exact ha
  | case3 invitee rest limit t _ t' heq =>
      have hstep := hsame invitee limit t ha
      rw [heq] at hstep
      exact hstep
  | case4 invitee rest limit t _ limit' t' heq hlimit ih =>
      apply ih
      have hstep := hsame invitee limit t ha
      have hdone := @eraseByInductee_done t invitee limit
      rw [heq] at hstep hdone
      by_cases hinvitee : a = invitee
      · subst hinvitee
        exact .inr (hdone hlimit)
      · rcases hstep with hmem | hnone
        · exact .inl (Table.mem_erase.mpr ⟨hmem, hinvitee⟩)
        · exact .inr hnone

theorem eraseExpiredFrom_invitees {now limit : Nat} {rows : List Induction} {removed : List Name}
    {t : Inductions} {a : Name} (ha : a ∈ (eraseExpiredFrom now rows limit removed t).2.1) :
    a ∈ removed ∨ ∃ i ∈ rows, i.invitee = a := by
  fun_induction eraseExpiredFrom now rows limit removed t with
  | case1 => exact .inl ha
  | case2 => exact .inl ha
  | case3 => exact .inl ha
  | case4 i rest limit removed t _ t' removed' ih =>
      rcases ih ha with hmem | ⟨j, hj, rfl⟩
      · simp only [removed'] at hmem
        split at hmem
        · exact .inl hmem
        · rcases List.mem_append.mp hmem with hold | hnew
          · exact .inl hold
          · exact .inr ⟨i, List.mem_cons_self, (List.mem_singleton.mp hnew).symm⟩
      · exact .inr ⟨j, List.mem_cons_of_mem _ hj, rfl⟩

theorem eraseExpiredFrom_queue (now : Nat) (rows : List Induction) (limit : Nat)
    (removed : List Name) (t : Inductions) :
    (eraseExpiredFrom now rows limit removed t).2.2.gc = t.gc := by
  fun_induction eraseExpiredFrom now rows limit removed t with
  | case1 => rfl
  | case2 => rfl
  | case3 => rfl
  | case4 _ _ _ _ _ _ _ _ ih => exact ih

section Collection

variable {t : Inductions} {now limit : Nat} {a : Name}

theorem gcInductions_kept (ha : hasInduction t a = true) (hqueue : a ∉ t.gc.rows) :
    hasInduction (gcInductions t now limit).2.2 a = true ∨
      a ∈ (gcInductions t now limit).2.1 := by
  have hkept := @eraseExpiredFrom_kept now limit (t.inductions.index Induction.createdAt) [] t
    (fun i hi => Table.mem_index.mp hi)
    ((Table.index_perm t.inductions _).nodup_iff.mpr t.inductions.nodup_rows) a (.inl ha)
  refine hkept.imp_left fun hhas => ?_
  obtain ⟨k, hk, rfl⟩ := hasInduction_eq_true.mp hhas
  refine hasInduction_eq_true.mpr ⟨k, mem_gcInvitees hk ?_, rfl⟩
  rw [eraseExpiredFrom_queue]
  exact hqueue

theorem gcInductions_invitees (ha : a ∈ (gcInductions t now limit).2.1) :
    ∃ i ∈ t.inductions.rows, i.invitee = a := by
  rcases eraseExpiredFrom_invitees ha with hnone | ⟨i, hi, hinvitee⟩
  · exact absurd hnone (by simp)
  · exact ⟨i, Table.mem_index.mp hi, hinvitee⟩

theorem gcInductions_nodup : (gcInductions t now limit).2.1.Nodup :=
  eraseExpiredFrom_nodup (fun _ hi => Table.mem_index.mp hi)
    ((Table.index_perm t.inductions _).nodup_iff.mpr t.inductions.nodup_rows) (by simp)
    List.nodup_nil

theorem gcInductions_queue (ha : a ∈ t.gc.rows) :
    a ∈ (gcInductions t now limit).2.2.gc.rows ∨
      hasInduction (gcInductions t now limit).2.2 a = false := by
  refine gcInvitees_queue (.inl ?_)
  change a ∈ (eraseExpiredFrom now _ limit [] t).2.2.gc.rows
  rw [eraseExpiredFrom_queue]
  exact ha

end Collection

end Eden.InductionChanges
