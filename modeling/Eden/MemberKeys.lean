import Eden.CallScopes
import Eden.HostFunctions

/-!
The encryption keys of the members. A key is what its owner set last, as long as the owner is not
activated afterwards: activation stores the row of a member again without its key.
-/

namespace Eden.MemberKeys

open Eden.ExceptReasoning
open Eden.SortedTable
open Eden.TransactionRuns
open Eden.ChainPrimitives
open Eden.ContractState
open Eden.Runtime
open Eden.MemberTable
open Eden.ElectionPhases
open Eden.InductionTables
open Eden.ContractActions
open Eden.Transactions
open Eden.HostFunctions
open Eden.CallScopes

variable {p : Platform} {env : Env} {s s' : State}

/-! ### The owner of a key -/

/-- A member under its present account, with the key that it set last or had at first. The key is
lost when the member has been activated since. -/
structure Owner where
  name : Name
  key : Option PublicKey
  lost : Bool := false

namespace Owner

def activate (o : Owner) : Owner := { o with lost := o.lost || o.key.isSome }

/-- What a successful call means for the owner. -/
def follow (o : Owner) : Call → Owner
  | .action (.setencpubkey member key) =>
      if member = o.name then { o with key := some key, lost := false } else o
  | .action (.rename account newAccount) =>
      if account = o.name then { o with name := newAccount } else o
  | .action (.inductdonate payer _ _) => if payer = o.name then o.activate else o
  | .action (.inducted inductee) => if inductee = o.name then o.activate else o
  | _ => o

def followAll (o : Owner) (es : List Record) : Owner := es.foldl (fun o e => o.follow e.input.2) o

/-- The key in the row of the member. -/
def stored (o : Owner) : Option PublicKey := if o.lost then none else o.key

@[simp] theorem activate_name (o : Owner) : o.activate.name = o.name := rfl

@[simp] theorem activate_stored (o : Owner) : o.activate.stored = none := by
  obtain ⟨name, key, lost⟩ := o
  cases key with
  | none => simp [activate, stored]
  | some key => simp [activate, stored]

/-- Only a key that is there can be lost. -/
def Sound (o : Owner) : Prop := o.lost = true → o.key ≠ none

theorem Sound.activate {o : Owner} (h : o.Sound) : o.activate.Sound := by
  intro hlost hkey
  have hnone : o.key = none := hkey
  simp only [Owner.activate, hnone, Option.isSome_none, Bool.or_false] at hlost
  exact h hlost hnone

theorem Sound.follow {o : Owner} (h : o.Sound) (call : Call) : (o.follow call).Sound := by
  unfold Owner.follow
  split
  · split
    · simp [Sound]
    · exact h
  · split
    · exact h
    · exact h
  · split
    · exact h.activate
    · exact h
  · split
    · exact h.activate
    · exact h
  · exact h

theorem Sound.followAll {o : Owner} (h : o.Sound) (es : List Record) : (o.followAll es).Sound := by
  induction es generalizing o with
  | nil => exact h
  | cons e es ih => exact ih (h.follow e.input.2)

theorem Sound.stored_eq_key_iff {o : Owner} (h : o.Sound) : o.stored = o.key ↔ o.lost = false := by
  unfold stored
  split
  · rename_i hlost
    simp only [hlost, Bool.true_eq_false, iff_false]
    exact fun hnone => h hlost hnone.symm
  · rename_i hlost
    simpa using hlost

theorem followAll_append (o : Owner) (es : List Record) (e : Record) :
    o.followAll (es ++ [e]) = (o.followAll es).follow e.input.2 := by
  rw [followAll, List.foldl_append]
  rfl

end Owner

/-! ### What calls do to the key -/

theorem find?_modifyMember_same {m : Members} {account : Name} {f : Member → Member}
    {row' : Member} (h : (modifyMember m account f).table.find? account = some row') :
    ∃ row, m.table.find? account = some row ∧
      reindexed row { f row with account := row.account } = row' := by
  rw [find?_modifyMember, if_pos rfl] at h
  exact Option.map_eq_some_iff.mp h

theorem setKey_key {m m' : Members} {account : Name} {key : PublicKey} {row' : Member}
    (h : setKey m account key = .ok m') (hrow' : m'.table.find? account = some row') :
    row'.encryptionKey = some key := by
  simp only [setKey, bind_eq_ok, pure_eq_ok] at h
  obtain ⟨member, -, rfl⟩ := h
  obtain ⟨row, -, rfl⟩ := find?_modifyMember_same hrow'
  rfl

theorem setActive_key {m m' : Members} {account : Name} {name : Text} {row' : Member}
    (h : setActive m account name = .ok m') (hrow' : m'.table.find? account = some row') :
    row'.encryptionKey = none := by
  simp only [setActive, bind_eq_ok, pure_eq_ok] at h
  obtain ⟨-, -, -, -, -, -, rfl⟩ := h
  obtain ⟨row, -, rfl⟩ := find?_modifyMember_same hrow'
  rfl

/-- The member row of an account comes from a row with the same key. -/
theorem key_of_within {scope : Scope} {account : Name} {row' : Member}
    (h : Within scope s s') (hout : ¬ scope.keys account)
    (hrow' : s'.members.table.find? account = some row') :
    ∃ row, s.members.table.find? account = some row ∧ row'.encryptionKey = row.encryptionKey :=
  (h.keys account row' hrow').resolve_left hout

theorem inducted_key {inductee : Name} {row' : Member} (h : inducted p env s inductee = .ok s')
    (hrow' : s'.members.table.find? inductee = some row') : row'.encryptionKey = none := by
  simp only [inducted, checkThreshold, bind_eq_ok] at h
  obtain ⟨-, -, g, -, induction, -, members, hactive, t, -, u, hestablished, h⟩ := h
  have hrest : Within {} { s with members := members, inductions := t } s' := by
    refine (within_maybeActivateContract hestablished).trans ?_
    split at h
    · split at h
      · exact within_triggerElection h
      · cases h
        exact .refl _
    · cases h
      exact .refl _
  obtain ⟨row, hrow, hkey⟩ := key_of_within hrest (fun hout => hout) hrow'
  exact hkey.trans (setActive_key hactive hrow)

theorem inductdonate_key {payer : Name} {id : Nat} {quantity : Asset} {row' : Member}
    (h : inductdonate p env s payer id quantity = .ok s')
    (hrow' : s'.members.table.find? payer = some row') : row'.encryptionKey = none := by
  simp only [inductdonate, createNft, bind_eq_ok, check_eq_ok, exists_const, decide_eq_true_eq,
    Asset.eq_eq_ok, pure_eq_ok] at h
  obtain ⟨-, -, g, -, induction, -, -, -, rfl, -, -, -, user, -, migration, -, t, -, inductions, -,
    u, -, v, hinducted, rfl⟩ := h
  exact inducted_key hinducted hrow'

theorem rename_key {account newAccount : Name} {row' : Member}
    (h : renameAccount p env s account newAccount = .ok s')
    (hrow' : s'.members.table.find? newAccount = some row') :
    s.members.table.find? newAccount = none ∧ ∃ row, s.members.table.find? account = some row ∧
      row'.encryptionKey = row.encryptionKey := by
  simp only [renameAccount, bind_eq_ok, pure_eq_ok] at h
  obtain ⟨-, -, -, -, g, -, user, -, -, -, f, -, t, helections, inductions, -, u, hrename, -, -,
    rfl⟩ := h
  obtain ⟨-, o, -, rfl⟩ := electionsOnRename_eq_ok helections
  obtain ⟨row, table, o', sessions, hrow, htable, -, rfl⟩ := rename_eq_ok hrename
  refine ⟨Table.emplace?_new htable, row, hrow, ?_⟩
  have hmoved : (renameRows table account newAccount row.electionRank).find? newAccount =
      some row' := hrow'
  rw [renameRows, Table.find?_update, Table.find?_erase] at hmoved
  split at hmoved
  · cases hmoved
  · rw [Table.find?_emplace? htable, if_pos rfl, Option.map_some, Option.some.injEq] at hmoved
    subst hmoved
    unfold renameRepresentative
    split
    · rfl
    · rfl

theorem exec_follow {o : Owner} {call : Call} {row row' : Member}
    (hrow : s.members.table.find? o.name = some row) (hkey : row.encryptionKey = o.stored)
    (h : exec p env s call = .ok s')
    (hrow' : s'.members.table.find? (o.follow call).name = some row') :
    row'.encryptionKey = (o.follow call).stored := by
  have hframe : ¬ (scopeOf s.members.table call).keys o.name → o.follow call = o →
      row'.encryptionKey = (o.follow call).stored := by
    intro hout hsame
    rw [hsame] at hrow' ⊢
    obtain ⟨row₀, hrow₀, hkey₀⟩ := key_of_within (exec_within h) hout hrow'
    rw [hrow, Option.some.injEq] at hrow₀
    subst hrow₀
    exact hkey₀.trans hkey
  have hpresent : s.members.table.find? o.name ≠ none := by simp [hrow]
  cases call with
  | action a =>
      cases a with
      | setencpubkey member key =>
          by_cases howner : member = o.name
          · simp only [exec, applyAction, dispatch, bind_eq_ok, pure_eq_ok] at h
            obtain ⟨-, ⟨-, -, g, -, members, hmembers, rfl⟩, rfl⟩ := h
            simp only [Owner.follow, if_pos howner] at hrow' ⊢
            exact setKey_key hmembers (howner ▸ hrow')
          · exact hframe (fun hout => howner hout.symm) (if_neg howner)
      | rename account newAccount =>
          have hrenamed : ∀ {row'}, s'.members.table.find? newAccount = some row' →
              s.members.table.find? newAccount = none ∧
                ∃ row, s.members.table.find? account = some row ∧
                  row'.encryptionKey = row.encryptionKey := by
            intro row' hrow'
            simp only [exec, applyAction, dispatch, bind_eq_ok, pure_eq_ok] at h
            obtain ⟨t, hrename, rfl⟩ := h
            have hmoved : t.members.table.find? newAccount = some row' := hrow'
            exact (rename_key hrename hmoved :)
          by_cases howner : account = o.name
          · simp only [Owner.follow, if_pos howner] at hrow' ⊢
            obtain ⟨-, row₀, hrow₀, hkey₀⟩ := hrenamed hrow'
            rw [howner, hrow, Option.some.injEq] at hrow₀
            subst hrow₀
            exact hkey₀.trans hkey
          · refine hframe (fun hout => ?_) (if_neg howner)
            have hsame : o.name = newAccount := hout
            simp only [Owner.follow, if_neg howner] at hrow'
            exact hpresent (hsame ▸ (hrenamed (hsame ▸ hrow')).1)
      | inductdonate payer id quantity =>
          by_cases howner : payer = o.name
          · simp only [exec, applyAction, dispatch, bind_eq_ok, pure_eq_ok] at h
            obtain ⟨t, hdonate, rfl⟩ := h
            simp only [Owner.follow, if_pos howner, Owner.activate_name,
              Owner.activate_stored] at hrow' ⊢
            exact inductdonate_key hdonate (howner ▸ hrow')
          · exact hframe (fun hout => howner hout.symm) (if_neg howner)
      | inducted inductee =>
          by_cases howner : inductee = o.name
          · simp only [exec, applyAction, dispatch, bind_eq_ok, pure_eq_ok] at h
            obtain ⟨t, hinducted, rfl⟩ := h
            simp only [Owner.follow, if_pos howner, Owner.activate_name,
              Owner.activate_stored] at hrow' ⊢
            exact inducted_key hinducted (howner ▸ hrow')
          · exact hframe (fun hout => howner hout.symm) (if_neg howner)
      | genesis | addtogenesis | inductinit => exact hframe hpresent rfl
      | _ => exact hframe (fun hout => hout) rfl
  | _ => exact hframe (fun hout => hout) rfl

/-! ### Runs -/

/-- The owner has a member row before every call. -/
def Stays : Owner → List Record → Prop
  | _, [] => True
  | o, e :: es =>
      e.before.members.table.find? o.name ≠ none ∧ Stays (o.follow e.input.2) es

instance decidableStays : (o : Owner) → (es : List Record) → Decidable (Stays o es)
  | _, [] => inferInstanceAs (Decidable True)
  | o, e :: es =>
      have := decidableStays (o.follow e.input.2) es
      inferInstanceAs (Decidable (e.before.members.table.find? o.name ≠ none ∧ _))

theorem stays_append {o : Owner} {es : List Record} {e : Record} :
    Stays o (es ++ [e]) ↔
      Stays o es ∧ e.before.members.table.find? (o.followAll es).name ≠ none := by
  induction es generalizing o with
  | nil => simp [Stays, Owner.followAll]
  | cons e' es ih =>
      rw [List.cons_append, Stays, ih, Stays, and_assoc]
      rfl

/-- The key of a member is the one it set last, or its first one, unless it was lost. -/
theorem encryptionKey_owned {allowed : State → Env × Call → Prop} {s₀ : State} {es : List Record}
    {o : Owner} {row₀ row : Member} (h : (contract p).History (fun t => t = s₀) allowed es s)
    (hfirst : o = { name := row₀.account, key := row₀.encryptionKey })
    (hrow₀ : s₀.members.table.find? row₀.account = some row₀) (hstays : Stays o es)
    (hrow : s.members.table.find? (o.followAll es).name = some row) :
    row.encryptionKey = (o.followAll es).key ↔ (o.followAll es).lost = false := by
  have hsound : o.Sound := by
    rw [hfirst]
    intro hlost
    cases hlost
  have hrun : Stays o es → ∀ row, s.members.table.find? (o.followAll es).name = some row →
      row.encryptionKey = (o.followAll es).stored := by
    refine h.invariant (fun (es : List Record) (t : State) => Stays o es → ∀ row,
      t.members.table.find? (o.followAll es).name = some row →
        row.encryptionKey = (o.followAll es).stored) ?_ (fun _ _ _ _ ht => ht) ?_
    · rintro t rfl - row hrow
      subst hfirst
      rw [show row₀ = row from Option.some.inj (hrow₀.symm.trans hrow)]
      rfl
    · rintro es t ⟨env, call⟩ t' - hstep ht hstays row' hrow'
      have hexec : exec p env t call = .ok t' := hstep
      rw [Owner.followAll_append] at hrow' ⊢
      obtain ⟨hbefore, hpresent⟩ := stays_append.mp hstays
      obtain ⟨row, hrow⟩ := Option.ne_none_iff_exists'.mp hpresent
      exact exec_follow hrow (ht hbefore row hrow) hexec hrow'
  rw [hrun hstays row hrow]
  exact (hsound.followAll es).stored_eq_key_iff

/-- Alice, whose row is there after genesis, as the owner of a key. -/
def aliceIn (s₀ : State) : Owner :=
  { name := alice.name
    key := (s₀.members.table.find? alice.name).bind Member.encryptionKey }

/-- The key that is stored for alice at the end of a run through which she stays. -/
def keyOfAlice (s₀ : State) (result : List Record × State) : Option (Option PublicKey) :=
  if (s₀.members.table.find? alice.name).isSome ∧ Stays (aliceIn s₀) result.1 then
    (result.2.members.table.find? ((aliceIn s₀).followAll result.1).name).map Member.encryptionKey
  else none

theorem keyOfAlice_eq_some {s₀ : State} {result : List Record × State} {key : Option PublicKey}
    (h : keyOfAlice s₀ result = some key) : ∃ row₀ row,
    s₀.members.table.find? row₀.account = some row₀ ∧
      aliceIn s₀ = { name := row₀.account, key := row₀.encryptionKey } ∧
      Stays (aliceIn s₀) result.1 ∧
      result.2.members.table.find? ((aliceIn s₀).followAll result.1).name = some row ∧
      row.encryptionKey = key := by
  unfold keyOfAlice at h
  split at h
  · rename_i hstays
    obtain ⟨hsome, hstays⟩ := hstays
    obtain ⟨row₀, hrow₀⟩ := Option.isSome_iff_exists.mp hsome
    obtain ⟨row, hrow, hkey⟩ := Option.map_eq_some_iff.mp h
    have haccount : row₀.account = alice.name := (Table.find?_eq_some.mp hrow₀).2
    refine ⟨row₀, row, haccount ▸ hrow₀, ?_, hstays, hrow, hkey⟩
    rw [aliceIn, hrow₀, haccount]
    rfl
  · cases h

/-- As a member alice sets a key and opts in. -/
def activeKey : List Transaction :=
  foundation.drop 1 ++ [(1000050, [(signedBy alice, .action (.setencpubkey alice.name 7)),
    (signedBy alice, .action (.electopt alice.name true))])]

theorem activeKey_owned : ∃ s₀ es s row₀ row,
    (contract host).History (fun t => t = s₀) (fun _ _ => True) es s ∧
      s₀.members.table.find? row₀.account = some row₀ ∧
      aliceIn s₀ = { name := row₀.account, key := row₀.encryptionKey } ∧ Stays (aliceIn s₀) es ∧
      s.members.table.find? ((aliceIn s₀).followAll es).name = some row ∧
      (row.encryptionKey = ((aliceIn s₀).followAll es).key ↔
        ((aliceIn s₀).followAll es).lost = false) := by
  have hrun : (runFromGenesis host (fun _ _ => True) (foundation.take 1)).any (fun s₀ =>
      (traceAll host (fun _ _ => True) [] s₀ activeKey).any fun result =>
        keyOfAlice s₀ result = some (some 7)) = true := by decide +kernel
  obtain ⟨s₀, -, hs₀⟩ := (Option.any_eq_true _ _).mp hrun
  obtain ⟨⟨es, s⟩, htrace, hkey⟩ := (Option.any_eq_true _ _).mp hs₀
  obtain ⟨row₀, row, hrow₀, hfirst, hstays, hrow, -⟩ :=
    keyOfAlice_eq_some (of_decide_eq_true hkey)
  have hhistory : (contract host).History (fun t => t = s₀) (fun _ _ => True) es s :=
    history_of_traceAll htrace (.first rfl)
  exact ⟨s₀, es, s, row₀, row, hhistory, hrow₀, hfirst, hstays, hrow,
    encryptionKey_owned hhistory hfirst hrow₀ hstays hrow⟩

/-- Alice sets a key before she pays. -/
def pendingKey : List Transaction :=
  (1000005, [(signedBy alice, .action (.setencpubkey alice.name 7))]) :: foundation.drop 1

theorem pendingKey_lost : ∃ s₀ es s row₀ row, Reachable host (fun _ _ => True) s₀ ∧
    (contract host).History (fun t => t = s₀) (fun _ _ => True) es s ∧
      s₀.members.table.find? row₀.account = some row₀ ∧
      aliceIn s₀ = { name := row₀.account, key := row₀.encryptionKey } ∧ Stays (aliceIn s₀) es ∧
      s.members.table.find? ((aliceIn s₀).followAll es).name = some row ∧
      ((aliceIn s₀).followAll es).key = some 7 ∧ row.encryptionKey = none := by
  have hrun : (runFromGenesis host (fun _ _ => True) (foundation.take 1)).any (fun s₀ =>
      (traceAll host (fun _ _ => True) [] s₀ pendingKey).any fun result =>
        keyOfAlice s₀ result = some none && ((aliceIn s₀).followAll result.1).key = some 7) =
          true := by decide +kernel
  obtain ⟨s₀, hreachable, hs₀⟩ := (Option.any_eq_true _ _).mp hrun
  obtain ⟨⟨es, s⟩, htrace, hkeys⟩ := (Option.any_eq_true _ _).mp hs₀
  simp only [Bool.and_eq_true, decide_eq_true_eq] at hkeys
  obtain ⟨row₀, row, hrow₀, hfirst, hstays, hrow, hnone⟩ := keyOfAlice_eq_some hkeys.1
  exact ⟨s₀, es, s, row₀, row, reachable_of_run hreachable,
    history_of_traceAll htrace (.first rfl), hrow₀, hfirst, hstays, hrow, hkeys.2, hnone⟩

end Eden.MemberKeys
