import Eden.EndorsedContents

/-!
Pending members and open inductions agree, as long as nobody leaves while the garbage of an
induction is still to be collected.
-/

namespace Eden.InvitedMembers

open Eden.ExceptReasoning
open Eden.SortedTable
open Eden.TransactionRuns
open Eden.ChainPrimitives
open Eden.ContractState
open Eden.Runtime
open Eden.MemberTable
open Eden.InductionTables
open Eden.InductionChanges
open Eden.Maintenance
open Eden.ContractActions
open Eden.Transactions
open Eden.HostFunctions
open Eden.ContractSteps
open Eden.ActionSteps
open Eden.Electorate
open Eden.MemberStatistics
open Eden.InductionSteps
open Eden.EndorsedContents

variable {p : Platform} {env : Env} {call : Call}

/-- Pending members have an induction and invitees are members. Who is queued is active, and an
active invitee is queued. -/
structure Matched (s : State) : Prop where
  invited : ∀ a, status s a = some .pendingMembership → hasInduction s.inductions a = true
  listed : ∀ i ∈ s.inductions.inductions.rows, status s i.invitee ≠ none
  queued : ∀ a ∈ s.inductions.gc.rows, status s a = some .activeMember
  joined : ∀ i ∈ s.inductions.inductions.rows, status s i.invitee = some .activeMember →
    i.invitee ∈ s.inductions.gc.rows

/-- The invitees are the same. -/
theorem Matched.of_invitees {s s' : State} (h : Matched s)
    (hrows : s'.inductions.inductions.rows.map invitation =
      s.inductions.inductions.rows.map invitation)
    (hqueue : s'.inductions.gc = s.inductions.gc) (hstatus : ∀ a, status s' a = status s a) :
    Matched s' := by
  have hinvitee : ∀ {t t' : Inductions},
      t'.inductions.rows.map invitation = t.inductions.rows.map invitation →
      ∀ i ∈ t'.inductions.rows, ∃ j ∈ t.inductions.rows, j.invitee = i.invitee := by
    intro t t' heq i hi
    have hmem : invitation i ∈ t.inductions.rows.map invitation := by
      rw [← heq]
      exact List.mem_map_of_mem hi
    obtain ⟨j, hj, hsame⟩ := List.mem_map.mp hmem
    exact ⟨j, hj, (Prod.mk.inj hsame).2⟩
  refine ⟨?_, ?_, ?_, ?_⟩
  · intro a ha
    rw [hstatus] at ha
    obtain ⟨i, hi, rfl⟩ := hasInduction_eq_true.mp (h.invited a ha)
    obtain ⟨j, hj, hsame⟩ := hinvitee hrows.symm i hi
    exact hasInduction_eq_true.mpr ⟨j, hj, hsame⟩
  · intro i hi
    obtain ⟨j, hj, hsame⟩ := hinvitee hrows i hi
    rw [hstatus, ← hsame]
    exact h.listed j hj
  · intro a ha
    rw [hqueue] at ha
    rw [hstatus]
    exact h.queued a ha
  · intro i hi hactive
    obtain ⟨j, hj, hsame⟩ := hinvitee hrows i hi
    rw [hstatus, ← hsame] at hactive
    rw [hqueue, ← hsame]
    exact h.joined j hj hactive

/-- A new induction of a pending member. -/
theorem Matched.opened {s s' : State} {i : Induction} {endorsers : List Name} (h : Matched s)
    (hopens : Opens s.inductions s'.inductions i endorsers)
    (hinvitee : status s i.invitee = none ∨ status s i.invitee = some .pendingMembership)
    (hstatus : ∀ a, status s' a = if i.invitee = a then some .pendingMembership else status s a) :
    Matched s' := by
  obtain ⟨_, table, hrows, _, _, heq, _⟩ := hopens
  have hrows' : ∀ j, j ∈ s'.inductions.inductions.rows ↔
      j = i ∨ j ∈ s.inductions.inductions.rows := by
    rw [heq]
    exact hrows
  have hqueue : s'.inductions.gc = s.inductions.gc := by rw [heq]
  refine ⟨?_, ?_, ?_, ?_⟩
  · intro a ha
    by_cases hia : i.invitee = a
    · exact hasInduction_eq_true.mpr ⟨i, (hrows' i).mpr (.inl rfl), hia⟩
    · rw [hstatus, if_neg hia] at ha
      obtain ⟨j, hj, hja⟩ := hasInduction_eq_true.mp (h.invited a ha)
      exact hasInduction_eq_true.mpr ⟨j, (hrows' j).mpr (.inr hj), hja⟩
  · intro j hj
    rw [hstatus]
    split
    · simp
    · rename_i hne
      rcases (hrows' j).mp hj with rfl | hj
      · exact absurd rfl hne
      · exact h.listed j hj
  · intro a ha
    rw [hqueue] at ha
    have hactive := h.queued a ha
    rw [hstatus, if_neg]
    · exact hactive
    · rintro rfl
      rw [hactive] at hinvitee
      exact absurd hinvitee (by simp)
  · intro j hj hactive
    rw [hstatus] at hactive
    split at hactive
    · exact absurd hactive (by simp)
    · rename_i hne
      rcases (hrows' j).mp hj with rfl | hj
      · exact absurd rfl hne
      · rw [hqueue]
        exact h.joined j hj hactive

theorem Matched.same {s s' : State} (h : Matched s) (hsame : SameRoll s s') : Matched s' :=
  h.of_invitees (by rw [hsame.inductions]) hsame.queue hsame.status

/-! ### Steps -/

/-- Who joins has no induction left or is queued. -/
theorem joins_matched {s s' : State} {i : Induction} (hs : Matched s)
    (hi : s.inductions.inductions.find? i.id = some i)
    (hpending : status s i.invitee = some .pendingMembership)
    (hstatus : ∀ a, status s' a = if i.invitee = a then some .activeMember else status s a)
    (htables : ((joined s.inductions i).1 = 0 ∧
        queueGc (joined s.inductions i).2 i.invitee = .ok s'.inductions) ∨
      ((joined s.inductions i).1 ≠ 0 ∧ s'.inductions = (joined s.inductions i).2)) :
    Matched s' := by
  have hrows : s'.inductions.inductions = (joined s.inductions i).2.inductions :=
    (joined_tables htables).1
  have hold : ∀ a ∈ s.inductions.gc.rows, i.invitee ≠ a := by
    rintro a ha rfl
    rw [hs.queued _ ha] at hpending
    exact absurd hpending (by simp)
  have hqueue : (∀ a ∈ s.inductions.gc.rows, a ∈ s'.inductions.gc.rows) ∧
      (∀ a ∈ s'.inductions.gc.rows, a = i.invitee ∨ a ∈ s.inductions.gc.rows) ∧
      (i.invitee ∈ s'.inductions.gc.rows ∨ hasInduction s'.inductions i.invitee = false) := by
    have hgc : (joined s.inductions i).2.gc = s.inductions.gc :=
      eraseInductions_queue _ _ _
    rcases htables with ⟨_, hqueue⟩ | ⟨hlimit, heq⟩
    · simp only [queueGc, bind_eq_ok, expect_eq_ok, pure_eq_ok] at hqueue
      obtain ⟨table, htable, heq⟩ := hqueue
      rw [← heq]
      have hmem := fun a => Table.mem_emplace? (b := a) htable
      rw [hgc] at hmem
      exact ⟨fun a ha => (hmem a).mpr (.inr ha), fun a ha => (hmem a).mp ha,
        .inl ((hmem i.invitee).mpr (.inl rfl))⟩
    · rw [heq, hgc]
      exact ⟨fun _ ha => ha, fun _ ha => .inr ha, .inr (eraseByInductee_done hlimit)⟩
  obtain ⟨hkeeps, honly, hdone⟩ := hqueue
  refine ⟨?_, ?_, ?_, ?_⟩
  · intro a ha
    rw [hstatus] at ha
    split at ha
    · exact absurd ha (by simp)
    · rename_i hne
      obtain ⟨k, hk, rfl⟩ := hasInduction_eq_true.mp (hs.invited a ha)
      refine hasInduction_eq_true.mpr ⟨k, ?_, rfl⟩
      rw [hrows]
      refine mem_eraseByInductee (mem_eraseInduction (Table.mem_of_find? hi) hk ?_) (Ne.symm hne)
      rintro rfl
      exact hne rfl
  · intro k hk
    rw [hrows] at hk
    rw [hstatus]
    split
    · simp
    · exact hs.listed k (mem_joined hk).1
  · intro a ha
    rw [hstatus]
    split
    · rfl
    · rename_i hne
      rcases honly a ha with rfl | ha
      · exact absurd rfl hne
      · exact hs.queued a ha
  · intro k hk hactive
    rw [hstatus] at hactive
    by_cases hne : i.invitee = k.invitee
    · rcases hdone with hmem | hnone
      · exact hne ▸ hmem
      · exact absurd hne.symm (hasInduction_eq_false.mp hnone k hk)
    · rw [if_neg hne] at hactive
      rw [hrows] at hk
      exact hkeeps _ (hs.joined k (mem_joined hk).1 hactive)

theorem cancels_matched {s s' : State} {i : Induction} (hs : Matched s)
    (hi : s.inductions.inductions.find? i.id = some i)
    (hinductions : s'.inductions = eraseInduction s.inductions i)
    (hstatus : ∀ a, status s' a =
      if i.invitee = a ∧ hasInduction s'.inductions a = false ∧
        status s a = some .pendingMembership then none else status s a) : Matched s' := by
  have hrows : ∀ k ∈ s'.inductions.inductions.rows, k ∈ s.inductions.inductions.rows := by
    rw [hinductions]
    exact fun k hk => (Table.mem_erase.mp hk).1
  have hkeeps : ∀ k ∈ s'.inductions.inductions.rows, status s' k.invitee = status s k.invitee := by
    intro k hk
    rw [hstatus, if_neg]
    rintro ⟨_, hnone, _⟩
    exact hasInduction_eq_false.mp hnone k hk rfl
  refine ⟨?_, ?_, ?_, ?_⟩
  · intro a ha
    rw [hstatus] at ha
    split at ha
    · exact absurd ha (by simp)
    · rename_i hstays
      by_cases hia : i.invitee = a
      · by_contra hnone
        exact hstays ⟨hia, by simpa using hnone, ha⟩
      · obtain ⟨k, hk, rfl⟩ := hasInduction_eq_true.mp (hs.invited a ha)
        refine hasInduction_eq_true.mpr ⟨k, ?_, rfl⟩
        rw [hinductions]
        refine mem_eraseInduction (Table.mem_of_find? hi) hk ?_
        rintro rfl
        exact hia rfl
  · intro k hk
    rw [hkeeps k hk]
    exact hs.listed k (hrows k hk)
  · intro a ha
    rw [hinductions] at ha
    have hactive := hs.queued a ha
    rw [hstatus, if_neg]
    · exact hactive
    · rintro ⟨_, _, hpending⟩
      rw [hactive] at hpending
      exact absurd hpending (by simp)
  · intro k hk hactive
    rw [hkeeps k hk] at hactive
    have hmem := hs.joined k (hrows k hk) hactive
    rw [hinductions]
    exact hmem

theorem collects_matched {s s' : State} {limit : Nat} (hs : Matched s)
    (hinductions : s'.inductions = (gcInductions s.inductions s.now limit).2.2)
    (hstatus : ∀ a, status s' a =
      if a ∈ (gcInductions s.inductions s.now limit).2.1 ∧
        status s a = some .pendingMembership then none else status s a) : Matched s' := by
  have hpruned := gcInductions_pruned s.inductions s.now limit
  rw [← hinductions] at hpruned
  have hkeeps : ∀ k ∈ s'.inductions.inductions.rows, status s' k.invitee = status s k.invitee := by
    intro k hk
    rw [hstatus, if_neg]
    rintro ⟨hremoved, _⟩
    rw [hinductions] at hk
    exact hasInduction_eq_false.mp (gcInductions_removed hremoved) k hk rfl
  refine ⟨?_, ?_, ?_, ?_⟩
  · intro a ha
    rw [hstatus] at ha
    split at ha
    · exact absurd ha (by simp)
    · rename_i hstays
      have hqueue : a ∉ s.inductions.gc.rows := by
        intro hmem
        rw [hs.queued a hmem] at ha
        exact absurd ha (by simp)
      rw [hinductions]
      rcases gcInductions_kept (hs.invited a ha) hqueue with hhas | hremoved
      · exact hhas
      · exact absurd ⟨hremoved, ha⟩ hstays
  · intro k hk
    rw [hkeeps k hk]
    exact hs.listed k (hpruned.rows k hk)
  · intro a ha
    have hactive := hs.queued a (hpruned.queue a ha)
    rw [hstatus, if_neg]
    · exact hactive
    · rintro ⟨_, hpending⟩
      rw [hactive] at hpending
      exact absurd hpending (by simp)
  · intro k hk hactive
    rw [hkeeps k hk] at hactive
    have hmem := hs.joined k (hpruned.rows k hk) hactive
    rw [hinductions] at hk ⊢
    rcases gcInductions_queue hmem with hqueue | hnone
    · exact hqueue
    · exact absurd rfl (hasInduction_eq_false.mp hnone k hk)

theorem step_matched {s s' : State} (h : RollStep s s') (hs : Matched s) : Matched s' := by
  cases h with
  | same hsame => exact hs.same hsame
  | founds _ _ hstatus hinductions =>
      exact hs.of_invitees (by rw [hinductions]) (by rw [hinductions]) hstatus
  | enters _ _ hnone hstatus hopens => exact hs.opened hopens (.inl hnone) hstatus
  | revises _ _ hstatus hrevised => exact hs.of_invitees hrevised.rows hrevised.queue hstatus
  | joins _ hi hpending hstatus htables => exact joins_matched hs hi hpending hstatus htables
  | establishes _ _ _ hstatus hinductions =>
      exact hs.of_invitees (by rw [hinductions]) (by rw [hinductions]) hstatus
  | cancels _ hi hinductions hstatus => exact cancels_matched hs hi hinductions hstatus
  | collects _ hinductions hstatus => exact collects_matched hs hinductions hstatus

/-- A queued account leaves: it resigns or gets another name. -/
def leavesQueue (s : State) : Call → Bool
  | .action (.resign account) => account ∈ s.inductions.gc.rows
  | .action (.rename account _) => account ∈ s.inductions.gc.rows
  | _ => false

/-- Nobody leaves who is queued, and the tables are not cleared. -/
def orderly (s : State) (call : Call) : Bool := !leavesQueue s call && call ≠ .action .clearall

theorem orderly_congr {s s' : State} (h : s'.inductions.gc = s.inductions.gc) :
    orderly s' call = orderly s call := by
  have hleaves : leavesQueue s' call = leavesQueue s call := by
    unfold leavesQueue
    rw [h]
  rw [orderly, hleaves, orderly]

theorem sole_matched {s s' : State} (h : SoleStep p call s s') (hs : Matched s)
    (horderly : orderly s call = true) : Matched s' := by
  simp only [orderly, Bool.and_eq_true, Bool.not_eq_true', decide_eq_true_eq] at horderly
  obtain ⟨hleaves, hclear⟩ := horderly
  cases h with
  | invites _ _ hinvitee hstatus _ _ hopens => exact hs.opened hopens hinvitee hstatus
  | fills _ _ hstatus hrevised => exact hs.of_invitees hrevised.rows hrevised.queue hstatus
  | edits _ _ _ hstatus hi hsame hinductions =>
      refine hs.of_invitees ?_ (by rw [hinductions]; rfl) hstatus
      rw [hinductions]
      exact map_replace hi hsame.1 hsame.2.2
  | attests _ hstatus _ hendorse =>
      obtain ⟨_, _, _, _, _, _, _, hinductions⟩ := endorse_eq_ok hendorse
      exact hs.of_invitees (by rw [hinductions]) (by rw [hinductions]) hstatus
  | @renames _ _ account newAccount hactive hnone hstatus _ hrename =>
      have hqueue : account ∉ s.inductions.gc.rows := by simpa [leavesQueue] using hleaves
      simp only [renameEndorser, bind_eq_ok, check_eq_ok, exists_const, pure_eq_ok,
        Bool.not_eq_true'] at hrename
      obtain ⟨hinvitee, _, hinductions⟩ := hrename
      have hold : ∀ a, a ≠ account → a ≠ newAccount → status s' a = status s a := by
        intro a hne hne'
        rw [hstatus, if_neg (Ne.symm hne), if_neg (Ne.symm hne')]
      have hlisted : ∀ i ∈ s.inductions.inductions.rows,
          i.invitee ≠ account ∧ i.invitee ≠ newAccount := by
        intro i hi
        refine ⟨hasInduction_eq_false.mp hinvitee i hi, ?_⟩
        rintro rfl
        exact hs.listed i hi hnone
      refine ⟨?_, ?_, ?_, ?_⟩
      · intro a ha
        rw [hstatus] at ha
        split at ha
        · exact absurd ha (by simp)
        · split at ha
          · exact absurd ha (by simp)
          · rw [← hinductions]
            exact hs.invited a ha
      · intro i hi
        rw [← hinductions] at hi
        rw [hold _ (hlisted i hi).1 (hlisted i hi).2]
        exact hs.listed i hi
      · intro a ha
        rw [← hinductions] at ha
        have hmember := hs.queued a ha
        rw [hold a ?_ ?_]
        · exact hmember
        · rintro rfl
          exact hqueue ha
        · rintro rfl
          rw [hnone] at hmember
          exact absurd hmember (by simp)
      · intro i hi hmember
        rw [← hinductions] at hi ⊢
        rw [hold _ (hlisted i hi).1 (hlisted i hi).2] at hmember
        exact hs.joined i hi hmember
  | @leaves _ _ account hactive hstatus _ hinductions =>
      have hqueue : account ∉ s.inductions.gc.rows := by simpa [leavesQueue] using hleaves
      have hother : ∀ i ∈ s.inductions.inductions.rows, account ≠ i.invitee := by
        rintro i hi rfl
        exact hqueue (hs.joined i hi hactive)
      refine ⟨?_, ?_, ?_, ?_⟩
      · intro a ha
        rw [hstatus] at ha
        split at ha
        · exact absurd ha (by simp)
        · rw [hinductions]
          exact hs.invited a ha
      · intro i hi
        rw [hinductions] at hi
        rw [hstatus, if_neg (hother i hi)]
        exact hs.listed i hi
      · intro a ha
        rw [hinductions] at ha
        rw [hstatus, if_neg]
        · exact hs.queued a ha
        · rintro rfl
          exact hqueue ha
      · intro i hi hmember
        rw [hinductions] at hi ⊢
        rw [hstatus, if_neg (hother i hi)] at hmember
        exact hs.joined i hi hmember
  | clears => exact absurd rfl hclear

/-! ### Removal of members -/

/-- The abort of `members::remove_if_pending` when the member is missing. -/
def missing : Abort := .check "unable to find key"

theorem check_ne_missing {condition : Bool} {message : String}
    (h : message ≠ "unable to find key") : check condition message ≠ .error missing := by
  intro heq
  exact h (Abort.check.inj (check_eq_error.mp heq).2)

theorem getRow_ne_missing {α : Type} {row : Option α} {message : String}
    (h : message ≠ "unable to find key") : getRow row message ≠ .error missing := by
  intro heq
  exact h (Abort.check.inj (expect_eq_error.mp heq).2)

theorem getGlobals_ne_missing (s : State) : getGlobals s ≠ .error missing := by
  intro heq
  exact absurd (Abort.check.inj (expect_eq_error.mp heq).2) (by decide)

theorem requireAuth_ne_missing {account : Name} : requireAuth env account ≠ .error missing := by
  intro heq
  exact absurd (ensure_eq_error.mp heq).2 (by simp [missing])

theorem maybeActivateContract_ne_missing (s : State) :
    maybeActivateContract s ≠ .error missing := by
  refine bind_ne_error (getGlobals_ne_missing s) fun g _ => ?_
  split
  · exact pure_ne_error
  · exact pure_ne_error

theorem removeIfPending_ne_missing {s : State} {account : Name} (h : status s account ≠ none) :
    removeIfPending p s account ≠ .error missing := by
  refine bind_ne_error ?_ fun member _ => ?_
  · intro heq
    exact h (statusOf_eq_none.mpr (expect_eq_error.mp heq).1)
  · split
    · exact bind_ne_error (check_ne_missing (by decide)) fun _ _ => pure_ne_error
    · exact pure_ne_error

theorem removeAll_ne_missing {l : List Name} {s : State} (hnodup : l.Nodup)
    (hrows : ∀ a ∈ l, status s a ≠ none) : l.foldlM (removeIfPending p) s ≠ .error missing := by
  refine foldlM_ne_error (fun l s => l.Nodup ∧ ∀ a ∈ l, status s a ≠ none) ?_ ?_ ⟨hnodup, hrows⟩
  · rintro a l s ⟨_, hrows⟩
    exact removeIfPending_ne_missing (hrows a List.mem_cons_self)
  · rintro a l s s' ⟨hnodup, hrows⟩ hstep
    obtain ⟨hnew, hnodup⟩ := List.nodup_cons.mp hnodup
    refine ⟨hnodup, fun b hb => ?_⟩
    rw [(removeIfPending_status hstep).2.2, if_neg]
    · exact hrows b (List.mem_cons_of_mem _ hb)
    · rintro ⟨rfl, _⟩
      exact hnew hb

theorem gc_ne_missing {s : State} (hs : Matched s) (limit : Nat) :
    gc p env s limit ≠ .error missing := by
  refine bind_ne_error (getGlobals_ne_missing s) fun _ _ => ?_
  refine bind_ne_error finishAuctions_ne_check ?_
  rintro ⟨remaining, t⟩ ht
  refine bind_ne_error (check_ne_missing (by decide)) fun _ _ => ?_
  obtain ⟨o, auctions, _, rfl⟩ := finishAuctions_eq_ok ht
  split
  · exact pure_ne_error
  · refine bind_ne_error ?_ fun u _ => maybeActivateContract_ne_missing u
    refine removeAll_ne_missing gcInductions_nodup fun a ha => ?_
    obtain ⟨i, hi, rfl⟩ := gcInductions_invitees ha
    have hmembers : ∀ n t, (gcSessions p n t).2.members = t.members := by
      intro n t
      obtain ⟨_, _, _, _, heq⟩ := gcSessions_eq p n t
      rw [heq]
    rw [status, hmembers]
    exact hs.listed i hi

theorem eraseEndorser_ne_missing {t : Inductions} {endorser : Name} (h : Known t) :
    eraseEndorser t endorser ≠ .error missing := by
  refine foldlM_ne_error
    (fun l u => ∀ e ∈ l, u.inductions.find? e.inductionId ≠ none) ?_ ?_ ?_
  · intro e l u hl
    refine bind_ne_error ?_ fun i _ => bind_ne_error (check_ne_missing ?_) fun _ _ => pure_ne_error
    · intro heq
      exact hl e List.mem_cons_self (expect_eq_error.mp heq).1
    · simp
  · intro e l u u' hl hstep d hd
    rw [find?_of_invitations (eraseEndorsement_revised hstep).rows]
    exact hl d (List.mem_cons_of_mem _ hd)
  · intro e he
    simp only [List.mem_filter, Table.mem_index] at he
    exact h e he.1

theorem inductcancel_ne_missing {s : State} (hs : Matched s) (hknown : Known s.inductions)
    (account : Name) (id : Nat) : inductcancel p env s account id ≠ .error missing := by
  refine bind_ne_error requireAuth_ne_missing fun _ _ => ?_
  refine bind_ne_error (getGlobals_ne_missing s) fun g _ => ?_
  refine bind_ne_error ?_ fun allowed _ => ?_
  · split
    · simp
    · refine bind_ne_error ?_ fun _ _ => pure_ne_error
      exact bind_ne_error (getRow_ne_missing (by decide)) fun _ _ => pure_ne_error
  refine bind_ne_error (check_ne_missing (by split <;> decide)) fun _ _ => ?_
  refine bind_ne_error (getRow_ne_missing (by decide)) fun i hi => ?_
  have hmem := Table.mem_of_find? (getRow_eq_ok.mp hi)
  dsimp only
  by_cases hhas : hasInduction (eraseInduction s.inductions i) i.invitee = true
  · rw [if_pos hhas]
    exact pure_ne_error
  · rw [if_neg hhas]
    refine bind_ne_error (removeIfPending_ne_missing (hs.listed i hmem)) fun t ht => ?_
    split
    · refine bind_ne_error (eraseEndorser_ne_missing ?_) fun u _ =>
        maybeActivateContract_ne_missing _
      rw [(removeIfPending_status ht).2.1]
      exact (eraseInduction_pruned s.inductions i).known hknown
    · exact pure_ne_error

/-! ### Reachable states -/

/-- What the induction over runs needs besides. -/
structure Orderly (p : Platform) (s : State) : Prop where
  matched : Matched s
  counted : Counted s.members
  vouched : ∃ es, Vouched p es s
  sent : s.output.serializedEvents = []

theorem exec_orderly {s s' : State} (hs : Orderly p s) (hallowed : orderly s call = true)
    (hexec : exec p env s call = .ok s') : Orderly p s' := by
  obtain ⟨es, hvouched⟩ := hs.vouched
  obtain ⟨hsteps, hsent⟩ := exec_steps hs.sent hexec
  refine ⟨?_, ?_, ⟨_, exec_vouched hvouched hs.counted hexec hsteps⟩, hsent⟩
  · cases hsole : makesOneStep call with
    | false =>
        have hroll := exec_roll hsole hsteps hexec hvouched.endorsed hs.counted
        have hmatched := hs.matched
        clear hexec hsteps hsent hvouched hs hallowed
        induction hroll with
        | refl => exact hmatched
        | tail _ hlast ih => exact step_matched hlast ih
    | true =>
        obtain ⟨t, t', hbefore, hstep, hafter⟩ := exec_sole hsole hexec
        have hallowed' : orderly t call = true := by
          rw [orderly_congr hbefore.queue]
          exact hallowed
        exact (sole_matched hstep (hs.matched.same hbefore) hallowed').same hafter
  · exact steps_preserve (fun t : State => Counted t.members)
      (fun _ _ hstep => step_counted hstep) hsteps hs.counted

theorem untouched_orderly {s : State} (h : Untouched s) : Orderly p s := by
  refine ⟨?_, untouched_counted h, ⟨[], untouched_vouched h⟩, by rw [h.1]⟩
  rw [h.1]
  refine ⟨?_, ?_, ?_, ?_⟩
  · intro a ha
    exact absurd ha (by simp [status, statusOf, Table.find?])
  all_goals
    intro _ hmem
    exact absurd hmem (by simp)

/-- As long as no queued account resigns or is renamed, pending members and open inductions agree,
and the removal of members never meets a missing one. -/
theorem pending_members_invited {s : State}
    (h : Reachable p (fun s call => orderly s call = true) s) :
    (∀ m ∈ s.members.table.rows, m.status = .pendingMembership →
        ∃ i ∈ s.inductions.inductions.rows, i.invitee = m.account) ∧
      (∀ i ∈ s.inductions.inductions.rows, ∃ m ∈ s.members.table.rows, m.account = i.invitee) ∧
      (∀ env limit, gc p env s limit ≠ .error missing) ∧
      ∀ env account id, inductcancel p env s account id ≠ .error missing := by
  have hs : Orderly p s := by
    refine reachable_invariant (Orderly p) h (fun _ => untouched_orderly) ?_ ?_
    · intro s now _ _ hs
      obtain ⟨es, hvouched⟩ := hs.vouched
      exact ⟨hs.matched.same (sameRoll_of_eq rfl rfl rfl), hs.counted,
        ⟨es, hvouched.same (sameRoll_of_eq rfl rfl rfl)⟩, hs.sent⟩
    · exact fun env s call s' hallowed hexec hs => exec_orderly hs hallowed hexec
  obtain ⟨es, hvouched⟩ := hs.vouched
  refine ⟨?_, ?_, fun env limit => gc_ne_missing hs.matched limit,
    fun env account id => inductcancel_ne_missing hs.matched hvouched.known account id⟩
  · intro m hm hpending
    refine hasInduction_eq_true.mp (hs.matched.invited m.account ?_)
    rw [status, statusOf, Table.find?_of_mem hm, Option.map_some, hpending]
  · intro i hi
    obtain ⟨m, hm⟩ := Option.ne_none_iff_exists'.mp
      (mt statusOf_eq_none.mpr (hs.matched.listed i hi))
    exact ⟨m, Table.mem_of_find? hm, Table.key_of_find? hm⟩

/-- The first members after genesis are pending and invited. -/
theorem founders_invited :
    ∃ s, runFromGenesis host (fun s call => orderly s call = true) (foundation.take 1) = some s ∧
      (∃ m ∈ s.members.table.rows, m.status = .pendingMembership) ∧
      (∀ m ∈ s.members.table.rows, m.status = .pendingMembership →
        ∃ i ∈ s.inductions.inductions.rows, i.invitee = m.account) ∧
      (∀ i ∈ s.inductions.inductions.rows, ∃ m ∈ s.members.table.rows, m.account = i.invitee) ∧
      (∀ env limit, gc host env s limit ≠ .error missing) ∧
      ∀ env account id, inductcancel host env s account id ≠ .error missing := by
  have hrun : (runFromGenesis host (fun s call => orderly s call = true) (foundation.take 1)).any
      (fun s => s.members.table.rows.any fun m => m.status = .pendingMembership) = true := by
    decide +kernel
  obtain ⟨s, hs, hpending⟩ := (Option.any_eq_true _ _).mp hrun
  refine ⟨s, hs, ?_, pending_members_invited (reachable_of_run hs)⟩
  simpa using hpending

/-! ### A member who is invited by many -/

def villager (n : Nat) : Signer where
  name := (192 + n % 64) * 2 ^ 54
  valid := by
    have hlt : n % 64 < 64 := Nat.mod_lt n (by decide)
    have hpos : ((192 + n % 64) * 2 ^ 54 : Nat) ≠ 0 := by omega
    have hle : ((192 + n % 64) * 2 ^ 54 : Nat) < 2 ^ 64 := by omega
    have hmod : ((192 + n % 64) * 2 ^ 54 : Nat) % 16 = 0 := by omega
    simp only [isAccountName, Bool.and_eq_true, decide_eq_true_eq]
    exact ⟨⟨hpos, hle⟩, hmod⟩

/-- A villager joins in genesis. -/
def pays (n id : Nat) : List (Env × Call) :=
  [(signedBy (villager n), .transfer (villager n).name host.self (eos 100) []),
    (signedBy (villager n), .action (.inductprofil id sampleProfile)),
    ({ signedBy (villager n) with assetId := 100 * n },
      .action (.inductdonate (villager n).name id (eos 100)))]

/-- A villager is added to genesis and joins. -/
def settles (n : Nat) : List (Env × Call) :=
  (signedBy contractSigner, .action (.addtogenesis (villager n).name
    (toTimePoint 1000000 + days 7))) :: pays n 2

/-- Genesis with 34 members. -/
def village : List Transaction :=
  [(1000000, [(signedBy contractSigner, .action (.genesis ['E', 'd', 'e', 'n'] eosSymbol (eos 100)
      [(villager 0).name, (villager 1).name] ['Q', 'm'] (eos 1) 3600 3
        ['1', '2', ':', '0', '0']))]),
    (1000010, pays 1 2),
    (1000020, (List.range 32).flatMap fun n => settles (n + 2)),
    (1000030, pays 0 1)]

/-- A villager invites dave. -/
def invites (n : Nat) : Env × Call :=
  (signedBy (villager n), .action (.inductinit n (villager n).name dave.name
    [(villager ((n + 1) % 34)).name, (villager ((n + 2) % 34)).name]))

def vouches (n : Nat) : Env × Call :=
  (signedBy (villager n), .action (.inductendors (villager n).name 0
    (host.sha256 (inductionBytes ⟨0, 0, dave.name, 3, 0, ['Q', 'm'], sampleProfile⟩))))

/-- All villagers invite dave. He joins by one of the inductions, which erases 32 of the others,
and resigns before the last one is collected. -/
def popularMember : List Transaction :=
  village ++
    [(1000040, (List.range 34).map invites),
      (1000050, [(signedBy dave, .transfer dave.name host.self (eos 100) []),
        (signedBy dave, .action (.inductprofil 0 sampleProfile)),
        (signedBy (villager 0), .action (.inductvideo (villager 0).name 0 ['Q', 'm']))]),
      (1000060, (List.range 3).map vouches),
      (1000070, [({ signedBy dave with assetId := 10000 },
        .action (.inductdonate dave.name 0 (eos 100)))]),
      (1000080, [(signedBy dave, .action (.resign dave.name))])]

/-- Whether a computation ends with the abort of a missing member. -/
def meetsMissing (outcome : Outcome State) : Bool :=
  match outcome with
  | .error e => e = missing
  | .ok _ => false

/-- The last induction is left without a member, and from its expiration on `gc` aborts. -/
theorem resigned_member_left_invited :
    ∃ s, Reachable host (fun _ call => call ≠ .action .clearall) s ∧
      (∃ i ∈ s.inductions.inductions.rows, ∀ m ∈ s.members.table.rows, m.account ≠ i.invitee) ∧
      gc host (signedBy dave) { s with now := 3000000 } 1 = .error missing := by
  have hrun : (runFromGenesis host (fun _ call => call ≠ .action .clearall) popularMember).any
      (fun s =>
        (s.inductions.inductions.rows.any fun i =>
          s.members.table.rows.all fun m => m.account ≠ i.invitee) &&
        meetsMissing (gc host (signedBy dave) { s with now := 3000000 } 1)) = true := by
    decide +kernel
  obtain ⟨s, hs, hstate⟩ := (Option.any_eq_true _ _).mp hrun
  simp only [Bool.and_eq_true, List.any_eq_true, List.all_eq_true, decide_eq_true_eq] at hstate
  obtain ⟨hleft, hgc⟩ := hstate
  refine ⟨s, reachable_of_run hs, hleft, ?_⟩
  cases houtcome : gc host (signedBy dave) { s with now := 3000000 } 1 with
  | error e =>
      rw [houtcome] at hgc
      simp only [meetsMissing, decide_eq_true_eq] at hgc
      rw [hgc]
  | ok t =>
      rw [houtcome] at hgc
      exact absurd hgc (by simp [meetsMissing])

end Eden.InvitedMembers
