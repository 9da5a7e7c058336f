import Eden.InductionEdits

/-!
The number in an induction counts its endorsement rows, and is the supply of the template of its
invitee.
-/

namespace Eden.EndorsementCounts

open Eden.ExceptReasoning
open Eden.SortedTable
open Eden.ChainPrimitives
open Eden.ContractState
open Eden.Runtime
open Eden.MemberTable
open Eden.DistributionTables
open Eden.ElectionPhases
open Eden.InductionTables
open Eden.InductionChanges
open Eden.ContractActions
open Eden.Transactions
open Eden.HostFunctions
open Eden.ContractSteps
open Eden.ActionSteps
open Eden.InductionSteps
open Eden.EndorsedContents
open Eden.InductionEdits

variable {p : Platform} {env : Env} {call : Call}

/-! ### Rows -/

/-- The number of endorsement rows of an induction. -/
def tally (t : Inductions) (id : Nat) : Nat := (endorsementsOf t id).length

theorem tally_eq_countP (t : Inductions) (id : Nat) :
    tally t id = t.endorsements.rows.countP fun e => e.inductionId = id :=
  (List.countP_eq_length_filter).symm

/-- The number in each induction is that of its rows, in 32 bits. -/
def Tallied (t : Inductions) : Prop :=
  ∀ i ∈ t.inductions.rows, i.endorsements = tally t i.id % 2 ^ 32

theorem tally_of_perm {t : Inductions} {rows : List Endorsement} (id : Nat)
    (h : t.endorsements.rows.Perm rows) :
    tally t id = rows.countP fun e => e.inductionId = id := by
  rw [tally_eq_countP, h.countP_eq]

theorem tally_of_parties {t t' : Inductions}
    (h : t'.endorsements.rows.map Endorsement.inductionId =
      t.endorsements.rows.map Endorsement.inductionId) (id : Nat) : tally t' id = tally t id := by
  have hcount : ∀ u : Inductions, tally u id =
      (u.endorsements.rows.map Endorsement.inductionId).countP fun k => k = id := by
    intro u
    rw [tally_eq_countP, List.countP_map]
    rfl
  rw [hcount, hcount, h]

theorem countP_cites {rows : List Endorsement} {i : Induction} (h : ∀ e ∈ rows, Cites e i)
    (id : Nat) : (rows.countP fun e => e.inductionId = id) = if i.id = id then rows.length else 0 := by
  split
  · rename_i hid
    rw [List.countP_eq_length]
    intro e he
    simp [(h e he).1, hid]
  · rename_i hid
    rw [List.countP_eq_zero]
    intro e he
    simp [(h e he).1, hid]

theorem tally_eq_zero {t : Inductions} (hcited : Cited t) {id : Nat}
    (hnew : t.inductions.find? id = none) : tally t id = 0 := by
  rw [tally_eq_countP, List.countP_eq_zero]
  intro e he hid
  obtain ⟨i, hi, hcites⟩ := hcited e he
  exact Table.find?_eq_none.mp hnew i hi (hcites.1.symm.trans (of_decide_eq_true hid))

/-! ### Edits -/

theorem edit_tallied {t t' : Inductions} (h : Edit t t') (hcited : Cited t) (ht : Tallied t) :
    Tallied t' := by
  cases h with
  | revises hinductions hendorsements =>
      intro j hj
      have hmem : terms j ∈ t.inductions.rows.map terms := by
        rw [← hinductions]
        exact List.mem_map_of_mem hj
      obtain ⟨i, hi, hterms⟩ := List.mem_map.mp hmem
      simp only [terms, Prod.mk.injEq] at hterms
      have hids : t'.endorsements.rows.map Endorsement.inductionId =
          t.endorsements.rows.map Endorsement.inductionId := by
        have hproject := congrArg (List.map Prod.fst) hendorsements
        rw [List.map_map, List.map_map] at hproject
        exact hproject
      rw [← hterms.2.2.2, ht i hi, tally_of_parties hids, hterms.1]
  | @begins _ i rows hbegins =>
      intro j hj
      rw [tally_of_perm j.id hbegins.endorsements, List.countP_append, ← tally_eq_countP,
        countP_cites hbegins.cites]
      rcases (hbegins.inductions j).mp hj with rfl | hj
      · rw [if_pos rfl, tally_eq_zero hcited hbegins.new, Nat.add_zero]
        exact hbegins.count
      · have hne : i.id ≠ j.id := Ne.symm (Table.find?_eq_none.mp hbegins.new j hj)
        rw [if_neg hne, Nat.zero_add]
        exact ht j hj
  | erases i =>
      intro j hj
      have hold := (eraseInduction_pruned t i).rows j hj
      have hkept := (eraseInduction_pruned t i).endorsements j.id (by
        rw [Table.find?_of_mem hj]
        simp)
      rw [tally, hkept]
      exact ht j hold
  | @withdraws _ e he herase =>
      obtain ⟨i, n, hi, hn, hinductions, hendorsements⟩ := eraseEndorsement_eq_ok herase
      have hfound : t.endorsements.find? e.id = some e := Table.find?_of_mem he
      have hid : i.id = e.inductionId := Table.key_of_find? hi
      have hless : ∀ id, tally t id = tally t' id + if e.inductionId = id then 1 else 0 := by
        intro id
        rw [tally_of_perm id (Table.erase_perm hfound), List.countP_cons, tally_eq_countP t',
          hendorsements]
        simp only [decide_eq_true_eq]
      intro j hj
      rw [hinductions] at hj
      rcases Table.mem_replace.mp hj with ⟨hj, hne⟩ | ⟨rfl, _⟩
      · have hj' := hless j.id
        rw [if_neg (fun heq => hne (heq.symm.trans hid.symm)), Nat.add_zero] at hj'
        rw [← hj']
        exact ht j hj
      · have hi' := ht i (Table.mem_of_find? hi)
        have hone := hless i.id
        rw [if_pos hid.symm] at hone
        change n = tally t' i.id % 2 ^ 32
        omega
  | clears hnone _ =>
      intro j hj
      rw [hnone] at hj
      exact absurd hj (by simp)

theorem enlists_tallied {t t' : Inductions} {endorser : Name} {rows : List Endorsement}
    (h : Enlists t t' endorser rows) (ht : Tallied t) : Tallied t' := by
  intro j hj
  rw [h.inductions] at hj
  obtain ⟨i, hi, rfl⟩ := List.mem_map.mp hj
  have hone : (rows.countP fun e => e.inductionId = i.id) = 1 := by
    have hcount : (rows.countP fun e => e.inductionId = i.id) =
        (rows.map Endorsement.inductionId).count i.id := by
      rw [List.count, List.countP_map]
      exact List.countP_congr fun e _ => by simp
    rw [hcount, h.ids.count_eq]
    exact List.count_eq_one_of_mem t.inductions.nodup_keys (List.mem_map_of_mem hi)
  have hold := ht i hi
  have hid : (counted i).id = i.id := rfl
  rw [hid, tally_of_perm i.id h.endorsements, List.countP_append, hone, ← tally_eq_countP]
  change (i.endorsements + 1) % 2 ^ 32 = _
  omega

theorem opening_tallied {t t' : Inductions} (h : Opening call t t') (ht : Tallied t) :
    Tallied t' := by
  cases h with
  | none => exact ht
  | enlists henlists => exact enlists_tallied henlists ht
  | renames hrename =>
      obtain ⟨hinductions, hrows⟩ := renameEndorser_rows hrename
      intro i hi
      rw [hinductions] at hi
      rw [tally_of_parties ?_, ht i hi]
      rw [hrows, List.map_map]
      apply List.map_congr_left
      intro e _
      simp only [Function.comp_apply, renamed]
      split
      · rfl
      · rfl

theorem reachable_tallied {allowed : State → Call → Prop} {s : State}
    (h : Reachable p allowed s) : Cited s.inductions ∧ Tallied s.inductions := by
  refine reachable_edits (fun t => Cited t ∧ Tallied t) h ⟨?_, ?_⟩ ?_ ?_
  · intro e he
    exact absurd he (by simp)
  · intro i hi
    exact absurd hi (by simp)
  · exact fun t t' hedit ht => ⟨edit_cited hedit ht.1, edit_tallied hedit ht.1 ht.2⟩
  · intro s call t _ hopening hs
    exact ⟨opening_cited hopening hs.1, opening_tallied hopening hs.2⟩

/-! ### Templates and assets -/

def supplyOf : Executed → Option Nat
  | .external (.createtempl maxSupply _) => some maxSupply
  | _ => none

def ownerOf : Executed → Option Name
  | .external (.mintasset _ newAssetOwner) => some newAssetOwner
  | _ => none

/-- What has been executed since: templates with these supplies, and assets for these owners. -/
def Mints (out out' : Output) (supplies : List Nat) (owners : List Name) : Prop :=
  out'.executed.filterMap supplyOf = out.executed.filterMap supplyOf ++ supplies ∧
    out'.executed.filterMap ownerOf = out.executed.filterMap ownerOf ++ owners

theorem Mints.refl (out : Output) : Mints out out [] [] := by simp [Mints]

theorem Mints.trans {o₁ o₂ o₃ : Output} {n n' : List Nat} {l l' : List Name}
    (h : Mints o₁ o₂ n l) (h' : Mints o₂ o₃ n' l') : Mints o₁ o₃ (n ++ n') (l ++ l') := by
  constructor
  · rw [h'.1, h.1, List.append_assoc]
  · rw [h'.2, h.2, List.append_assoc]

theorem mints_append {out out' : Output} (e : Executed) (h : out'.executed = out.executed ++ [e]) :
    Mints out out' (supplyOf e).toList (ownerOf e).toList := by
  have hone : ∀ {α : Type} (f : Executed → Option α), [e].filterMap f = (f e).toList := by
    intro α f
    cases hf : f e <;> simp [hf]
  constructor
  · rw [h, List.filterMap_append, hone]
  · rw [h, List.filterMap_append, hone]

theorem mints_sendEvents (out : Output) : Mints out (sendEvents out) [] [] := by
  unfold sendEvents
  split
  · exact Mints.refl out
  · exact mints_append (.events _) rfl

theorem mints_pushEvent (out : Output) (e : Event) : Mints out (pushEvent p out e) [] [] := by
  unfold pushEvent
  simp only
  split
  · exact mints_sendEvents out
  · exact Mints.refl out

theorem mints_notifyLogmint {s s' : State} {assetId : Nat} {minter collection schema owner : Name}
    {account : Option Text}
    (h : notifyLogmint p s assetId minter collection schema owner account = .ok s') :
    Mints s.output s'.output [] [] := by
  unfold notifyLogmint at h
  split at h
  · rw [← pure_eq_ok.mp h]
    exact Mints.refl _
  · simp only [startAuction, bind_eq_ok, check_eq_ok, exists_const, expect_eq_ok,
      pure_eq_ok] at h
    obtain ⟨_, _, _, _, _, _, _, g, _, _, _, auctions, _, rfl⟩ := h
    have hannounce : Mints s.output
        (perform s (.announceauct assetId g.auctionStartingBid g.auctionDuration)).output [] [] :=
      mints_append (.external (.announceauct assetId g.auctionStartingBid g.auctionDuration)) rfl
    exact hannounce.trans (mints_append (.external (.transferAsset assetId)) rfl)

theorem mints_mintNfts {s s' : State} {templateId : Int} {account : Text} {owners : List Name}
    (h : mintNfts p env s templateId account owners = .ok s') :
    Mints s.output s'.output [] owners := by
  have hall : ∀ (l : List (Name × Nat)) (s : State),
      l.foldlM (fun s owner =>
        mintNft p s templateId account (env.assetId + owner.2) owner.1) s = .ok s' →
      Mints s.output s'.output [] (l.map Prod.fst) := by
    intro l
    induction l with
    | nil =>
        intro s h
        rw [← pure_eq_ok.mp h]
        exact Mints.refl _
    | cons owner l ih =>
        intro s h
        rw [List.foldlM_cons, bind_eq_ok] at h
        obtain ⟨t, ht, h⟩ := h
        have hmint : Mints s.output (perform s (.mintasset templateId owner.1)).output [] [owner.1] :=
          mints_append (.external (.mintasset templateId owner.1)) rfl
        exact (hmint.trans (mints_notifyLogmint ht)).trans (ih t h)
  have hmints := hall _ s h
  rw [List.zipIdx_map_fst] at hmints
  exact hmints

theorem mints_setStateSing {s s' : State} {newValue : ElectionState}
    (h : setStateSing p s newValue = .ok s') : Mints s.output s'.output [] [] := by
  unfold setStateSing at h
  split at h
  · rw [← pure_eq_ok.mp h]
    exact Mints.refl _
  · simp only [bind_eq_ok, pure_eq_ok] at h
    obtain ⟨event, _, rfl⟩ := h
    cases event with
    | none => exact Mints.refl _
    | some e => exact mints_pushEvent s.output e

theorem mints_checkThreshold {s s' : State} (h : checkThreshold p s = .ok s') :
    Mints s.output s'.output [] [] := by
  unfold checkThreshold at h
  split at h
  · split at h
    · simp only [triggerElection, bind_eq_ok] at h
      obtain ⟨g, _, h⟩ := h
      split at h
      · exact mints_setStateSing h
      · simp only [bind_eq_ok] at h
        obtain ⟨state, _, h⟩ := h
        split at h
        · split at h
          · simp only [bind_eq_ok] at h
            obtain ⟨_, _, h⟩ := h
            exact mints_setStateSing h
          · rw [← pure_eq_ok.mp h]
            exact Mints.refl _
        · rw [← pure_eq_ok.mp h]
          exact Mints.refl _
    · rw [← pure_eq_ok.mp h]
      exact Mints.refl _
  · rw [← pure_eq_ok.mp h]
    exact Mints.refl _

/-- Nothing is minted when the contract is active already. -/
theorem mints_inducted {s s' : State} {g : Globals} {inductee : Name} (hg : s.globals = some g)
    (hactive : g.stage = .active) (h : inducted p env s inductee = .ok s') :
    Mints s.output s'.output [] [] := by
  simp only [inducted, maybeActivateContract, bind_eq_ok, getGlobals_eq_ok] at h
  obtain ⟨_, _, _, _, i, _, members, _, t, _, u, ⟨g', hg', hu⟩, h⟩ := h
  rw [hg, Option.some.injEq] at hg'
  subst hg'
  rw [if_neg (by simp [hactive]), pure_eq_ok] at hu
  subst hu
  have hmints := mints_checkThreshold h
  exact hmints

/-- The template of an invitee and the assets for the contract, the invitee and the endorsers. -/
theorem createTemplate_mints {g : Globals} {s s' : State} {i : Induction}
    (h : createTemplate p env g s i = .ok s')
    (hi : s.inductions.inductions.find? i.id = some i)
    (hendorsed : s.inductions.endorsed.rows = [⟨i.invitee, i.id⟩]) :
    Mints s.output s'.output [if g.stage = .genesis then 0 else (i.endorsements + 2) % 2 ^ 32]
      (p.self :: i.invitee :: getEndorsers s.inductions i.id) := by
  simp only [createTemplate, notifyLognewtempl, bind_eq_ok, check_eq_ok, exists_const,
    expect_eq_ok] at h
  obtain ⟨_, _, _, _, _, invitee, _, _, _, j, hj, members, _, h⟩ := h
  simp only [getEndorsedInduction, getInduction, bind_eq_ok, getRow_eq_ok] at hj
  obtain ⟨row, hrow, hj⟩ := hj
  have hmem : row ∈ s.inductions.endorsed.rows := Table.mem_of_find? hrow
  rw [hendorsed, List.mem_singleton] at hmem
  have hsame : s.inductions.inductions.find? row.inductionId = some j := hj
  rw [hmem, hi, Option.some.injEq] at hsame
  subst hsame
  have hmints := mints_mintNfts h
  exact Mints.trans (n := [_]) (l := []) (mints_append (.external (.createtempl _ _)) rfl) hmints

theorem createNft_mints {g : Globals} {s s' : State} {i : Induction}
    (h : createNft p env g s i = .ok s') (hg : s.globals = some g) (hactive : g.stage = .active)
    (hi : s.inductions.inductions.find? i.id = some i)
    (hempty : s.inductions.endorsed = .empty) :
    Mints s.output s'.output [(i.endorsements + 2) % 2 ^ 32]
      (p.self :: i.invitee :: getEndorsers s.inductions i.id) := by
  simp only [createNft, bind_eq_ok, pure_eq_ok] at h
  obtain ⟨t, ht, u, hu, v, hv, rfl⟩ := h
  obtain ⟨_, e, he, rfl⟩ := endorseInduction_eq_ok ht
  have hrows : e.rows = [⟨i.invitee, i.id⟩] := by
    have hperm := Table.emplace?_perm he
    rw [hempty] at hperm
    exact List.perm_singleton.mp hperm
  have htemplate := createTemplate_mints hu hi hrows
  rw [if_neg (by simp [hactive])] at htemplate
  have hglobals : u.globals = s.globals := by
    obtain ⟨o, auctions, invitee, _, rfl⟩ := createTemplate_eq_ok hu
    rfl
  have hrecorded : Mints u.output (record u (.action (.inducted i.invitee))).output [] [] :=
    mints_append (.action (.inducted i.invitee)) rfl
  have hg' : (record u (.action (.inducted i.invitee))).globals = some g := hglobals.trans hg
  have hinducted := mints_inducted hg' hactive hv
  have hall := ((htemplate.trans hrecorded).trans hinducted).trans (mints_sendEvents v.output)
  simp only [List.append_nil] at hall
  exact hall

/-- The number in an induction is that of its endorsement rows, in 32 bits, and every row is of an
induction with the same inviter and invitee. In the active stage the number is exact, and the
supply of the template of the invitee is the number of assets that are minted from it. -/
theorem endorsements_counted {s : State} (h : Reachable p (fun _ _ => True) s) :
    (∀ i ∈ s.inductions.inductions.rows,
      i.endorsements = (endorsementsOf s.inductions i.id).length % 2 ^ 32) ∧
    (∀ e ∈ s.inductions.endorsements.rows, ∃ i ∈ s.inductions.inductions.rows,
      e.inductionId = i.id ∧ e.inviter = i.inviter ∧ e.invitee = i.invitee) ∧
    (stageOf s = some .active → ∀ i ∈ s.inductions.inductions.rows,
      i.endorsements = (endorsementsOf s.inductions i.id).length ∧
      ∀ env g t t', t.inductions = s.inductions → t.globals = some g → g.stage = .active →
        createNft p env g t i = .ok t' →
          ∃ owners, Mints t.output t'.output [owners.length] owners ∧
            owners = p.self :: i.invitee :: getEndorsers s.inductions i.id) := by
  obtain ⟨hcited, htallied⟩ := reachable_tallied h
  obtain ⟨_, es, hvouched⟩ := reachable_vouched h
  refine ⟨htallied, hcited, fun hactive i hi => ?_⟩
  have hmost := (hvouched.backed hactive i hi).most
  have hcount : i.endorsements = (endorsementsOf s.inductions i.id).length := by
    rw [htallied i hi, tally, Nat.mod_eq_of_lt (by omega)]
  refine ⟨hcount, ?_⟩
  intro env g t t' hinductions hg hstage hnft
  refine ⟨_, ?_, rfl⟩
  rw [← hinductions] at hi hcount hmost ⊢
  have hempty : t.inductions.endorsed = .empty := hinductions ▸ hvouched.endorsed
  have hmints := createNft_mints hnft hg hstage (Table.find?_of_mem hi) hempty
  have hlength : (p.self :: i.invitee :: getEndorsers t.inductions i.id).length =
      (i.endorsements + 2) % 2 ^ 32 := by
    rw [List.length_cons, List.length_cons, getEndorsers, List.length_map]
    omega
  rw [hlength]
  exact hmints

/-- Genesis is over, and alice invites dave with bob and carol as witnesses. -/
def daveAwaited : List Transaction :=
  firstInduction.take 4 ++
    [(1000040, [(signedBy alice,
        .action (.inductinit 7 alice.name dave.name [bob.name, carol.name]))])]

/-- Three endorsements are awaited, and the template of dave would have five assets. -/
theorem daveAwaited_counted :
    ∃ s i, runFromGenesis host (fun _ _ => True) daveAwaited = some s ∧
      stageOf s = some .active ∧ s.inductions.inductions.rows = [i] ∧ i.endorsements = 3 ∧
      i.endorsements = (endorsementsOf s.inductions i.id).length := by
  have hrun : (runFromGenesis host (fun _ _ => True) daveAwaited).any (fun s =>
      stageOf s = some .active && s.inductions.inductions.rows.map Induction.endorsements = [3]) =
        true := by
    decide +kernel
  obtain ⟨s, hs, hstate⟩ := (Option.any_eq_true _ _).mp hrun
  simp only [Bool.and_eq_true, decide_eq_true_eq, List.map_eq_singleton_iff] at hstate
  obtain ⟨hactive, i, hrows, hthree⟩ := hstate
  have hcounted := (endorsements_counted (reachable_of_run hs)).2.2 hactive i
    (hrows ▸ List.mem_singleton_self i)
  exact ⟨s, i, hs, hactive, hrows, hthree, hcounted.1⟩

end Eden.EndorsementCounts
