import Eden.Electorate
import Eden.MigrationStages

/-!
The running total of the account migration: what each call does to the accounts of users, and when
the total stays the sum of the accounts visited so far.
-/

namespace Eden.AccountMigration

open Eden.ExceptReasoning
open Eden.SortedTable
open Eden.ChainPrimitives
open Eden.ContractState
open Eden.Runtime
open Eden.AccountTables
open Eden.DistributionTables
open Eden.ElectionPhases
open Eden.InductionTables
open Eden.MemberTable
open Eden.Maintenance
open Eden.ContractActions
open Eden.Transactions
open Eden.HostFunctions
open Eden.ContractSteps
open Eden.ActionSteps
open Eden.Electorate
open Eden.MigrationStages

variable {p : Platform} {env : Env} {call : Call} {s s' : State}

/-! ### What the calls do to the accounts -/

/-- Calls that leave the accounts of users and the migrations alone, apart from genesis, which
puts the last migration. -/
def standsBy : Call → Bool
  | .action (.withdraw ..) => false
  | .action (.donate ..) => false
  | .action (.fundtransfer ..) => false
  | .action (.usertransfer ..) => false
  | .action .clearall => false
  | .action (.inductdonate ..) => false
  | .action (.rename ..) => false
  | .action (.migrate _) => false
  | .action .unmigrate => false
  | .transfer .. => false
  | _ => true

theorem step_standsBy (hcall : standsBy call = true) (h : Step p call s s') :
    s'.accounts.user = s.accounts.user ∧
      (s'.migration = s.migration ∨ s'.migration = some .fixInductdonateExpirationCheck) := by
  cases h with
  | aside haside => exact ⟨by rw [haside.accounts], .inl haside.migration⟩
  | seeds hseed =>
      rcases seed_eq_ok hseed with ⟨_, _, _, _, _, _, _, _, _, rfl⟩ | ⟨_, _, _, _, _, _, _, rfl⟩ |
        ⟨_, _, _, _, _, _, rfl⟩
      · exact ⟨rfl, .inl rfl⟩
      · exact ⟨rfl, .inl rfl⟩
      · exact ⟨rfl, .inl rfl⟩
  | starts _ hstart _ =>
      obtain ⟨_, _, _, _, _, _, _, rfl⟩ := startElection_eq_ok hstart
      exact ⟨rfl, .inl rfl⟩
  | votes hvote =>
      obtain ⟨_, _, _, _, _, _, _, _, _, _, _, rfl⟩ := vote_eq_ok hvote
      exact ⟨rfl, .inl rfl⟩
  | renames | withdraws | sends | deposits | receives | fundtransfers | usertransfers =>
      exact absurd hcall (by simp [standsBy])
  | founds => exact ⟨rfl, .inr rfl⟩
  | clears => exact absurd hcall (by simp [standsBy])
  | donates ha =>
      rcases ha with ⟨rfl, _⟩ | ⟨_, _, rfl, _⟩
      · exact absurd hcall (by simp [standsBy])
      · exact absurd hcall (by simp [standsBy])
  | unsettled _ _ hsettles =>
      unfold settles at hsettles
      split at hsettles <;> simp_all [standsBy]
  | migrates hleft =>
      rcases hleft with rfl | ⟨hmigrate, _⟩
      · exact absurd hcall (by simp [standsBy])
      · unfold isMigrate at hmigrate
        split at hmigrate <;> simp_all [standsBy]
  | _ => exact ⟨rfl, .inl rfl⟩

theorem steps_standsBy (hcall : standsBy call = true) (h : Steps p call s s') :
    s'.accounts.user = s.accounts.user ∧
      (s'.migration = s.migration ∨ s'.migration = some .fixInductdonateExpirationCheck) := by
  refine steps_preserve (fun t => t.accounts.user = s.accounts.user ∧
    (t.migration = s.migration ∨ t.migration = some .fixInductdonateExpirationCheck)) ?_ h
    ⟨rfl, .inl rfl⟩
  intro t t' hstep ht
  obtain ⟨huser, hmigration⟩ := step_standsBy hcall hstep
  refine ⟨huser.trans ht.1, ?_⟩
  rcases hmigration with hsame | hlast
  · rw [hsame]
    exact ht.2
  · exact .inr hlast

/-- Two states with the same accounts, tokens, migration and donation. -/
structure SameLedger (s s' : State) : Prop where
  accounts : s'.accounts = s.accounts
  tokens : s'.tokens = s.tokens
  migration : s'.migration = s.migration
  token : s'.globals.map Globals.defaultToken = s.globals.map Globals.defaultToken

theorem SameLedger.refl (s : State) : SameLedger s s := ⟨rfl, rfl, rfl, rfl⟩

theorem SameLedger.trans {s'' : State} (h : SameLedger s s') (h' : SameLedger s' s'') :
    SameLedger s s'' :=
  ⟨h'.accounts.trans h.accounts, h'.tokens.trans h.tokens, h'.migration.trans h.migration,
    h'.token.trans h.token⟩

theorem checkThreshold_sameLedger (h : checkThreshold p s = .ok s') : SameLedger s s' := by
  unfold checkThreshold at h
  split at h
  · split at h
    · obtain ⟨_, _, ⟨_, _, _, rfl⟩ | ⟨_, rfl⟩ | ⟨_, _, _, _, _, _, _, _, _, rfl⟩⟩ :=
        triggerElection_eq_ok h
      · exact ⟨rfl, rfl, rfl, rfl⟩
      · exact SameLedger.refl _
      · exact ⟨rfl, rfl, rfl, rfl⟩
    · rw [← pure_eq_ok.mp h]
      exact SameLedger.refl s
  · rw [← pure_eq_ok.mp h]
    exact SameLedger.refl s

theorem createNft_sameLedger {g : Globals} {induction : Induction}
    (h : createNft p env g s induction = .ok s') : SameLedger s s' := by
  simp only [createNft, bind_eq_ok, pure_eq_ok] at h
  obtain ⟨t, _, u, hu, v, hv, rfl⟩ := h
  obtain ⟨_, _, _, _, rfl⟩ := createTemplate_eq_ok hu
  simp only [inducted, bind_eq_ok] at hv
  obtain ⟨_, _, _, _, _, _, members, _, t', _, w, hw, hv⟩ := hv
  obtain ⟨g', stage, o, hg', _, _, rfl⟩ := maybeActivateContract_eq_ok hw
  obtain ⟨haccounts, htokens, hmigration, htoken⟩ := checkThreshold_sameLedger hv
  refine ⟨haccounts, htokens, hmigration, htoken.trans ?_⟩
  have hglobals : s.globals = some g' := hg'
  rw [hglobals]
  rfl

theorem withdraw_settled {owner : Name} {quantity : Asset}
    (h : exec p env s (.action (.withdraw owner quantity)) = .ok s') :
    isAccountName owner = true ∧ 0 < quantity.amount ∧
      s.globals.map Globals.defaultToken = some quantity.symbol ∧
      subBalance s.accounts.user owner quantity = .ok s'.accounts.user ∧
      adjustBalance s.migration owner quantity.neg = .ok s'.migration ∧
      tokenSub s.tokens quantity = .ok s'.tokens ∧ s'.accounts.owned = s.accounts.owned ∧
      s'.globals = s.globals := by
  simp only [exec, applyAction, dispatch, withdraw, bind_eq_ok, requireAuth_eq_ok, exists_const,
    getGlobals_eq_ok, checkToken, check_eq_ok, decide_eq_true_eq, pure_eq_ok] at h
  obtain ⟨_, ⟨hauth, g, hg, hsymbol, user, huser, migration, hmigration, added, _, h⟩, rfl⟩ := h
  obtain ⟨hpos, tokens, _, outgoing, htokens, _, _, rfl⟩ := tokenTransfer_out h
  have hglobals : s.globals = some g := hg
  refine ⟨env.auths_valid _ hauth, hpos, ?_, huser, hmigration, htokens, rfl, rfl⟩
  rw [hglobals, hsymbol]
  rfl

theorem isAccountMigrated_adjustBalance {m m' : Option Migration} {owner : Name} {amount : Asset}
    (h : adjustBalance m owner amount = .ok m') : isAccountMigrated m' = isAccountMigrated m := by
  unfold adjustBalance at h
  split at h
  · split at h
    · simp only [bind_eq_ok, pure_eq_ok] at h
      obtain ⟨_, _, rfl⟩ := h
      rfl
    · rw [← pure_eq_ok.mp h]
  · rw [← pure_eq_ok.mp h]

theorem inductdonate_settled {payer : Name} {id : Nat} {quantity : Asset}
    (h : exec p env s (.action (.inductdonate payer id quantity)) = .ok s') :
    isAccountName payer = true ∧ subBalance s.accounts.user payer quantity = .ok s'.accounts.user ∧
      adjustBalance s.migration payer quantity.neg = .ok s'.migration ∧ s'.tokens = s.tokens ∧
      (isAccountMigrated s.migration = false → s'.accounts.owned = s.accounts.owned) ∧
      s'.globals.map Globals.defaultToken = s.globals.map Globals.defaultToken := by
  simp only [exec, applyAction, dispatch, inductdonate, bind_eq_ok, requireAuth_eq_ok,
    exists_const, getGlobals_eq_ok, check_eq_ok, decide_eq_true_eq, Asset.eq_eq_ok,
    pure_eq_ok] at h
  obtain ⟨_, ⟨hauth, g, hg, induction, _, _, _, _, _, ⟨_, rfl⟩, _, user, huser, migration,
    hmigration, t, ht, h⟩, rfl⟩ := h
  have hvalid := env.auths_valid _ hauth
  have hsame := isAccountMigrated_adjustBalance hmigration
  obtain ⟨haccounts, htokens, hmigration', htoken⟩ := createNft_sameLedger h
  have hbefore : t.accounts.user = user ∧ t.migration = migration ∧ t.tokens = s.tokens ∧
      t.globals = s.globals ∧
      (isAccountMigrated s.migration = false → t.accounts.owned = s.accounts.owned) := by
    split at ht
    · rename_i hmigrated
      simp only [donateToMaster, bind_eq_ok, pure_eq_ok] at ht
      obtain ⟨f, _, rfl⟩ := ht
      refine ⟨rfl, rfl, rfl, rfl, fun hunmigrated => ?_⟩
      have hmigrated' : isAccountMigrated s.migration = true := hsame.symm.trans hmigrated
      rw [hunmigrated] at hmigrated'
      exact absurd hmigrated' (by simp)
    · rw [Except.ok.injEq] at ht
      subst ht
      exact ⟨rfl, rfl, rfl, rfl, fun _ => rfl⟩
  obtain ⟨huser', hmigrated, htokens', hglobals, howned⟩ := hbefore
  refine ⟨hvalid, ?_, ?_, htokens.trans htokens', fun hunmigrated => ?_, ?_⟩
  · simp only [haccounts, huser']
    exact huser
  · simp only [hmigration', hmigrated]
    exact hmigration
  · simp only [haccounts]
    exact howned hunmigrated
  · simp only [htoken, hglobals]

/-- A transfer out of the contract, a deposit, or a donation. Before the accounts are migrated no
account receives a donation. -/
theorem transfer_settled {sender receiver : Name} {quantity : Asset} {memo : Text}
    (h : exec p env s (.transfer sender receiver quantity memo) = .ok s') :
    s' = s ∨
      (sender = p.self ∧ s'.accounts.user = s.accounts.user ∧ s'.migration = s.migration) ∨
      (sender ≠ p.self ∧ receiver = p.self ∧ isAccountName sender = true ∧ 0 < quantity.amount ∧
        s.globals.map Globals.defaultToken = some quantity.symbol ∧
        tokenAdd s.tokens quantity = .ok s'.tokens ∧
        (isAccountMigrated s.migration = false → s'.accounts.owned = s.accounts.owned) ∧
        s'.globals = s.globals ∧
        ((isPossibleDepositAccount p sender = true ∧ memo ≠ donateMemo ∧
            addBalance s.accounts.user sender quantity true = .ok s'.accounts.user ∧
            adjustBalance s.migration sender quantity = .ok s'.migration) ∨
          ((isPossibleDepositAccount p sender = false ∨ memo = donateMemo) ∧
            s'.accounts.user = s.accounts.user ∧ s'.migration = s.migration))) := by
  simp only [exec] at h
  split at h
  · rename_i hparty
    simp only [bind_eq_ok, requireAuth_eq_ok, exists_const] at h
    obtain ⟨hauth, h⟩ := h
    by_cases hsender : sender = p.self
    · subst hsender
      obtain ⟨_, _, _, _, _, _, _, rfl⟩ := tokenTransfer_out h
      exact .inr (.inl ⟨rfl, rfl, rfl⟩)
    · obtain rfl : receiver = p.self := hparty.resolve_left hsender
      obtain ⟨hpos, tokens, g, htokens, hg, hsymbol, hcases⟩ := tokenTransfer_in hsender h
      have htoken : s.globals.map Globals.defaultToken = some quantity.symbol := by
        rw [hg, hsymbol]
        rfl
      have hvalid := env.auths_valid _ hauth
      rcases hcases with ⟨hpossible, hmemo, user, migration, huser, hmigration, rfl⟩ |
        ⟨hpool, hmigrated, f, _, rfl⟩ | ⟨hpool, _, rfl⟩
      · exact .inr (.inr ⟨hsender, rfl, hvalid, hpos, htoken, htokens, fun _ => rfl, rfl,
          .inl ⟨hpossible, hmemo, huser, hmigration⟩⟩)
      · refine .inr (.inr ⟨hsender, rfl, hvalid, hpos, htoken, htokens, ?_, rfl,
          .inr ⟨hpool, rfl, rfl⟩⟩)
        intro hunmigrated
        rw [hunmigrated] at hmigrated
        exact absurd hmigrated (by simp)
      · exact .inr (.inr ⟨hsender, rfl, hvalid, hpos, htoken, htokens, fun _ => rfl, rfl,
          .inr ⟨hpool, rfl, rfl⟩⟩)
  · rw [pure_eq_ok] at h
    exact .inl h.symm

/-! ### The running total -/

/-- The total of the migration is the sum up to the last account that it has visited. It has no
symbol before the first turn. -/
def Totals (user : AccountTable) : Migration → Prop
  | .account last total =>
      total.amount = sumUpTo user last ∧ (total.symbol = ⟨0, 0⟩ → last = emptyName)
  | _ => True

/-- Members and accounts of users have names. -/
structure Peopled (s : State) : Prop extends Named s where
  nobody : s.accounts.user.find? emptyName = none

/-- What is known of the accounts at any time as long as the total is kept. -/
structure Tallied (s : State) : Prop extends Peopled s where
  totals : ∀ m, s.migration = some m → Totals s.accounts.user m

/-- A change of an account and the adjustment that goes with it. -/
theorem totals_adjustBalance {user user' : AccountTable} {m m' : Option Migration} {owner : Name}
    {quantity : Asset} (h : adjustBalance m owner quantity = .ok m')
    (hsum : ∀ last, sumUpTo user' last = sumUpTo user last + upTo last owner quantity.amount)
    (hm : ∀ n, m = some n → Totals user n) : ∀ n, m' = some n → Totals user' n := by
  intro n hn
  unfold adjustBalance at h
  split at h
  · rename_i last total
    have htotals := hm _ rfl
    split at h
    · rename_i hle
      simp only [bind_eq_ok, Asset.add_eq_ok, pure_eq_ok] at h
      obtain ⟨_, ⟨_, _, _, rfl⟩, rfl⟩ := h
      rw [Option.some.injEq] at hn
      subst hn
      refine ⟨?_, htotals.2⟩
      simp only
      rw [hsum, htotals.1, upTo, if_pos hle]
    · rename_i hgt
      rw [pure_eq_ok] at h
      rw [← h, Option.some.injEq] at hn
      subst hn
      refine ⟨?_, htotals.2⟩
      rw [hsum, htotals.1, upTo, if_neg hgt, Int.add_zero]
  · rename_i hother
    rw [pure_eq_ok] at h
    subst h
    cases n with
    | account last total => exact absurd hn (hother last total)
    | _ => trivial

theorem find?_addBalance_none {t t' : AccountTable} {owner k : Name} {quantity : Asset}
    {minimum : Bool} (h : addBalance t owner quantity minimum = .ok t') (hne : owner ≠ k)
    (hk : t.find? k = none) : t'.find? k = none := by
  rcases addBalance_eq_ok h with ⟨_, hemplace⟩ | ⟨record, _, _, rfl⟩
  · rw [Table.find?_emplace? hemplace, if_neg hne]
    exact hk
  · rw [Table.find?_modify, if_neg hne]
    exact hk

theorem find?_subBalance_none {t t' : AccountTable} {owner k : Name} {quantity : Asset}
    (h : subBalance t owner quantity = .ok t') (hk : t.find? k = none) : t'.find? k = none := by
  obtain ⟨record, hrecord, _, _, hcases⟩ := subBalance_eq_ok h
  have hne : owner ≠ k := by
    rintro rfl
    rw [hk] at hrecord
    exact absurd hrecord (by simp)
  rcases hcases with ⟨_, rfl⟩ | ⟨_, rfl⟩
  · rw [Table.find?_erase, if_neg hne]
    exact hk
  · rw [Table.find?_modify, if_neg hne]
    exact hk

/-- A migration that is not on the accounts has no total. -/
theorem totals_of_ne {user : AccountTable} {m : Migration}
    (h : ∀ last total, m ≠ .account last total) : Totals user m := by
  cases m with
  | account last total => exact absurd rfl (h last total)
  | _ => trivial

theorem emptyName_of_symbol {g : Globals} {total first : Asset}
    (h : (if total.symbol = ⟨0, 0⟩ then asset 0 g.defaultToken else .ok total) = .ok first) :
    first.symbol ≠ ⟨0, 0⟩ ∧
      ((total.symbol = ⟨0, 0⟩ ∧ first.amount = 0) ∨ (total.symbol ≠ ⟨0, 0⟩ ∧ first = total)) := by
  split at h
  · rename_i hnone
    simp only [asset, bind_eq_ok, check_eq_ok, exists_const, pure_eq_ok] at h
    obtain ⟨_, hvalid, rfl⟩ := h
    refine ⟨?_, .inl ⟨hnone, rfl⟩⟩
    intro hzero
    simp only at hzero
    rw [hzero] at hvalid
    exact absurd hvalid (by decide)
  · rename_i hsome
    rw [Except.ok.injEq] at h
    subst h
    exact ⟨hsome, .inr ⟨hsome, rfl⟩⟩

theorem migrateStage_index {n r : Nat} {m m' : Migration}
    (h : migrateStage p env s n m = .ok (r, m', s')) : migrationIndex m' = migrationIndex m := by
  unfold migrateStage at h
  split at h
  · simp only [bind_eq_ok, pure_eq_ok, Prod.mk.injEq] at h
    obtain ⟨_, _, _, _, _, rfl, _⟩ := h
    rfl
  · obtain ⟨_, _, _, _, _, _, rfl, _⟩ := migrateAccounts_eq_ok h
    rfl
  · simp only [migrateMembers, pure_eq_ok, Prod.mk.injEq] at h
    obtain ⟨_, rfl, _⟩ := h
    rfl
  · rw [pure_eq_ok, Prod.mk.injEq, Prod.mk.injEq] at h
    obtain ⟨_, rfl, _⟩ := h
    rfl

/-- A total that grows with the sum. -/
theorem totals_of_sum {user : AccountTable} {g : Globals} {last last' : Name}
    {total first total' : Asset} (hnobody : user.find? emptyName = none)
    (hm : Totals user (.account last total))
    (hfirst : (if total.symbol = ⟨0, 0⟩ then asset 0 g.defaultToken else .ok total) = .ok first)
    (hsymbol : total'.symbol = first.symbol)
    (hsum : total'.amount + sumUpTo user last = first.amount + sumUpTo user last') :
    Totals user (.account last' total') := by
  obtain ⟨hvalid, hamount⟩ := emptyName_of_symbol hfirst
  refine ⟨?_, fun hzero => absurd (hsymbol.symm.trans hzero) hvalid⟩
  rcases hamount with ⟨hzero, hamount⟩ | ⟨_, rfl⟩
  · obtain rfl := hm.2 hzero
    rw [sumUpTo_emptyName hnobody, hamount] at hsum
    omega
  · have htotal := hm.1
    omega

theorem migrateStage_user {n r : Nat} {m m' : Migration}
    (h : migrateStage p env s n m = .ok (r, m', s')) : s'.accounts.user = s.accounts.user := by
  obtain ⟨_, _, _, _, _, _, _, _, rfl⟩ := (migrateStage_eq_ok h).state
  rfl

/-- A turn of a stage keeps the total. -/
theorem migrateStage_totals {n r : Nat} {m m' : Migration}
    (hnobody : s.accounts.user.find? emptyName = none)
    (h : migrateStage p env s n m = .ok (r, m', s')) (hm : Totals s.accounts.user m) :
    Totals s.accounts.user m' := by
  unfold migrateStage at h
  split at h
  · simp only [bind_eq_ok, pure_eq_ok, Prod.mk.injEq] at h
    obtain ⟨_, _, _, _, _, rfl, _⟩ := h
    trivial
  · rename_i last total
    obtain ⟨g, first, last', total', _, hfirst, rfl, hsymbol, hsum, _, _⟩ :=
      migrateAccounts_eq_ok h
    exact totals_of_sum hnobody hm hfirst hsymbol hsum
  · simp only [migrateMembers, pure_eq_ok, Prod.mk.injEq] at h
    obtain ⟨_, rfl, _⟩ := h
    trivial
  · rw [pure_eq_ok, Prod.mk.injEq, Prod.mk.injEq] at h
    obtain ⟨_, rfl, _⟩ := h
    exact hm

theorem totals_nextMigration {user : AccountTable} {m : Migration}
    (hnobody : user.find? emptyName = none) : Totals user (nextMigration m) := by
  cases m with
  | auction lastId => exact ⟨(sumUpTo_emptyName hnobody).symm, fun _ => rfl⟩
  | _ => trivial

/-- `migrate` keeps the accounts of users and the total. -/
theorem migrate_totals {n : Nat} (h : exec p env s (.action (.migrate n)) = .ok s')
    (hnobody : s.accounts.user.find? emptyName = none) :
    s'.accounts.user = s.accounts.user ∧
      ((∀ m, s.migration = some m → Totals s.accounts.user m) →
        ∀ m, s'.migration = some m → Totals s.accounts.user m) := by
  obtain ⟨r, t, ht, _, rfl⟩ := migrate_eq_ok h
  have hrun := migrateFrom_preserves
    (fun u m => u.accounts.user = s.accounts.user ∧
      ((∀ m, s.migration = some m → Totals s.accounts.user m) → Totals s.accounts.user m)) (by
      intro u n m r m' u' _ _ hstage hu
      have hnobody' : u.accounts.user.find? emptyName = none := by
        rw [hu.1]
        exact hnobody
      refine ⟨fun _ => ⟨?_, fun hs => ?_⟩, fun _ => ⟨?_, fun _ => totals_nextMigration hnobody⟩⟩
      · exact (migrateStage_user hstage).trans hu.1
      · have htotals := migrateStage_totals hnobody' hstage (by rw [hu.1]; exact hu.2 hs)
        rwa [hu.1] at htotals
      · exact (migrateStage_user hstage).trans hu.1)
    ht ⟨rfl, fun hs => by
      cases hmigration : s.migration with
      | none => exact trivial
      | some m => exact hs m hmigration⟩
  obtain ⟨u, m, ⟨huser, htotals⟩, rfl⟩ := hrun
  refine ⟨huser, fun hs m' hm' => ?_⟩
  simp only [Option.some.injEq] at hm'
  subst hm'
  exact htotals hs

theorem ne_emptyName {a : Name} (h : isAccountName a = true) : a ≠ emptyName := by
  rintro rfl
  exact absurd h (by decide)

/-- Tokens that enter the accounts of users, with the adjustment that goes with it. -/
theorem Tallied.credited {owner : Name} {quantity : Asset} {minimum : Bool} (hs : Tallied s)
    (hpeopled : Peopled s')
    (huser : addBalance s.accounts.user owner quantity minimum = .ok s'.accounts.user)
    (hmigration : adjustBalance s.migration owner quantity = .ok s'.migration) : Tallied s' :=
  ⟨hpeopled, totals_adjustBalance hmigration (sumUpTo_addBalance huser) hs.totals⟩

theorem sumUpTo_debited {t t' : AccountTable} {owner : Name} {quantity : Asset}
    (h : subBalance t owner quantity = .ok t') (last : Name) :
    sumUpTo t' last = sumUpTo t last + upTo last owner quantity.neg.amount := by
  rw [sumUpTo_subBalance h last]
  simp only [upTo, Asset.neg]
  split <;> ring

theorem Tallied.debited {owner : Name} {quantity : Asset} (hs : Tallied s)
    (hpeopled : Peopled s')
    (huser : subBalance s.accounts.user owner quantity = .ok s'.accounts.user)
    (hmigration : adjustBalance s.migration owner quantity.neg = .ok s'.migration) :
    Tallied s' := by
  exact ⟨hpeopled, totals_adjustBalance hmigration (sumUpTo_debited huser) hs.totals⟩

/-- A change of accounts of users that no total counts. -/
theorem Tallied.uncounted (hs : Tallied s) (hpeopled : Peopled s')
    (hmigration : s'.migration = s.migration)
    (hsum : ∀ last total, s.migration = some (.account last total) →
      sumUpTo s'.accounts.user last = sumUpTo s.accounts.user last) : Tallied s' := by
  refine ⟨hpeopled, ?_⟩
  intro m hm
  rw [hmigration] at hm
  have htotals := hs.totals m hm
  cases m with
  | account last total =>
      refine ⟨?_, htotals.2⟩
      rw [hsum last total hm]
      exact htotals.1
  | _ => trivial

/-- Transfers between users stay on one side of the last account visited, and funds go to accounts
that are not yet visited. -/
def keepsTotal (s : State) : Call → Bool
  | .action (.usertransfer sender receiver _ _) =>
      match s.migration with
      | some (.account last _) => decide (sender ≤ last ↔ receiver ≤ last)
      | _ => true
  | .action (.fundtransfer _ _ _ receiver _ _) =>
      match s.migration with
      | some (.account last _) => decide (last < receiver)
      | _ => true
  | _ => true

theorem checkTransfer_receiver {sender receiver : Name} {amount : Asset} {memo : Text} {x : Unit}
    (h : checkTransfer env s sender receiver amount memo = .ok x) :
    isActive s.members.table receiver = true := by
  simp only [checkTransfer, bind_eq_ok, check_eq_ok, exists_const, requireAuth_eq_ok] at h
  obtain ⟨_, _, _, _, _, _, _, hreceiver⟩ := h
  exact isActive_iff.mpr (checkActiveMember_eq_ok.mp hreceiver)

theorem find?_onRename_none {t t' : AccountTable} {account newAccount k : Name}
    (h : AccountTables.onRename t account newAccount = .ok t') (hne : newAccount ≠ k)
    (hk : t.find? k = none) : t'.find? k = none := by
  unfold AccountTables.onRename at h
  split at h
  · rw [← pure_eq_ok.mp h]
    exact hk
  · simp only [bind_eq_ok, expect_eq_ok, pure_eq_ok] at h
    obtain ⟨table, htable, rfl⟩ := h
    have hnone : table.find? k = none := by
      rw [Table.find?_emplace? htable]
      exact (if_neg hne).trans hk
    rw [Table.find?_erase, hnone]
    split <;> rfl

/-- The changes of `rename` to the accounts of users, between migrations. -/
theorem rename_user {account newAccount : Name}
    (h : exec p env s (.action (.rename account newAccount)) = .ok s') :
    isAccountName newAccount = true ∧ checkNoMigration s.migration = .ok () ∧
      AccountTables.onRename s.accounts.user account newAccount = .ok s'.accounts.user ∧
      s'.migration = s.migration := by
  simp only [exec, applyAction, dispatch, renameAccount, bind_eq_ok, requireAuth_eq_ok,
    ensure_eq_ok, exists_const, pure_eq_ok] at h
  obtain ⟨_, ⟨hauth, _, _, _, user, huser, _, _, f, _, t, ht, i, _, u, hu, _, hmigration, rfl⟩,
    rfl⟩ := h
  obtain ⟨_, _, _, rfl⟩ := electionsOnRename_eq_ok ht
  obtain ⟨_, _, _, _, _, _, _, rfl⟩ := rename_eq_ok hu
  exact ⟨env.auths_valid _ hauth, hmigration, huser, rfl⟩

/-- The changes of `usertransfer` to the accounts of users. -/
theorem usertransfer_user {sender receiver : Name} {amount : Asset} {memo : Text}
    (h : exec p env s (.action (.usertransfer sender receiver amount memo)) = .ok s') :
    isActive s.members.table receiver = true ∧ ∃ user,
      subBalance s.accounts.user sender amount = .ok user ∧
      addBalance user receiver amount false = .ok s'.accounts.user ∧
      s'.migration = s.migration := by
  simp only [exec, applyAction, dispatch, usertransfer, bind_eq_ok, pure_eq_ok] at h
  obtain ⟨_, ⟨_, hcheck, user, huser, user', huser', rfl⟩, rfl⟩ := h
  have hactive : isActive s.members.table receiver = true := checkTransfer_receiver hcheck
  exact ⟨hactive, user, huser, huser', rfl⟩

theorem fundtransfer_user {sender receiver : Name} {distributionTime rank : Nat} {amount : Asset}
    {memo : Text}
    (h : exec p env s (.action (.fundtransfer sender distributionTime rank receiver amount memo)) =
      .ok s') :
    isActive s.members.table receiver = true ∧
      addBalance s.accounts.user receiver amount false = .ok s'.accounts.user ∧
      s'.migration = s.migration := by
  simp only [exec, applyAction, dispatch, fundtransfer, bind_eq_ok, pure_eq_ok] at h
  obtain ⟨_, ⟨_, hcheck, _, _, user, huser, rfl⟩, rfl⟩ := h
  have hactive : isActive s.members.table receiver = true := checkTransfer_receiver hcheck
  exact ⟨hactive, huser, rfl⟩

theorem donate_user {owner : Name} {quantity : Asset}
    (h : exec p env s (.action (.donate owner quantity)) = .ok s') :
    isAccountMigrated s.migration = true ∧
      subBalance s.accounts.user owner quantity = .ok s'.accounts.user ∧
      s'.migration = s.migration := by
  simp only [exec, applyAction, dispatch, donate, donateToMaster, bind_eq_ok, check_eq_ok,
    exists_const, pure_eq_ok] at h
  obtain ⟨_, ⟨_, _, _, _, _, _, _, hmigrated, user, huser, f, _, rfl⟩, rfl⟩ := h
  exact ⟨hmigrated, huser, rfl⟩

theorem exec_peopled (hclean : s.output.serializedEvents = []) (h : exec p env s call = .ok s')
    (hs : Peopled s) : Peopled s' := by
  obtain ⟨hsteps, _⟩ := exec_steps hclean h
  refine ⟨steps_preserve Named (fun _ _ => step_named) hsteps hs.toNamed, ?_⟩
  have hsame : s'.accounts.user = s.accounts.user → s'.accounts.user.find? emptyName = none := by
    intro huser
    rw [huser]
    exact hs.nobody
  cases call with
  | transfer =>
      rcases transfer_settled h with rfl | ⟨_, huser, _⟩ |
        ⟨_, _, hvalid, _, _, _, _, _, ⟨_, _, huser, _⟩ | ⟨_, huser, _⟩⟩
      · exact hs.nobody
      · exact hsame huser
      · exact find?_addBalance_none huser (ne_emptyName hvalid) hs.nobody
      · exact hsame huser
  | lognewtempl => exact hsame (steps_standsBy rfl hsteps).1
  | logmint => exact hsame (steps_standsBy rfl hsteps).1
  | action a =>
      cases a with
      | withdraw =>
          obtain ⟨_, _, _, huser, _⟩ := withdraw_settled h
          exact find?_subBalance_none huser hs.nobody
      | inductdonate =>
          obtain ⟨_, huser, _⟩ := inductdonate_settled h
          exact find?_subBalance_none huser hs.nobody
      | usertransfer =>
          obtain ⟨hactive, user, huser, huser', _⟩ := usertransfer_user h
          exact find?_addBalance_none huser' (ne_emptyName (hs.named _ hactive))
            (find?_subBalance_none huser hs.nobody)
      | fundtransfer =>
          obtain ⟨hactive, huser, _⟩ := fundtransfer_user h
          exact find?_addBalance_none huser (ne_emptyName (hs.named _ hactive)) hs.nobody
      | donate => exact find?_subBalance_none (donate_user h).2.1 hs.nobody
      | rename =>
          obtain ⟨hvalid, _, huser, _⟩ := rename_user h
          exact find?_onRename_none huser (ne_emptyName hvalid) hs.nobody
      | migrate => exact hsame (migrate_totals h hs.nobody).1
      | clearall =>
          simp only [exec, applyAction, dispatch, clearall, bind_eq_ok, pure_eq_ok] at h
          obtain ⟨_, ⟨_, _, _, _, rfl⟩, rfl⟩ := h
          rfl
      | unmigrate =>
          simp only [exec, applyAction, dispatch, unmigrate, bind_eq_ok, pure_eq_ok] at h
          obtain ⟨_, ⟨_, _, _, _, rfl⟩, rfl⟩ := h
          exact hs.nobody
      | _ => exact hsame (steps_standsBy rfl hsteps).1

theorem untouched_peopled (h : Untouched s) : Peopled s := by
  refine ⟨untouched_named h, ?_⟩
  rw [h.1]
  rfl

theorem Peopled.at (hs : Peopled s) (now : Nat) : Peopled { s with now := now } :=
  ⟨⟨hs.started, hs.endorsed, hs.named⟩, hs.nobody⟩

theorem reachable_peopled {allowed : State → Call → Prop} (h : Reachable p allowed s) :
    Peopled s := by
  refine (reachable_invariant (fun s => Peopled s ∧ s.output.serializedEvents = []) h ?_ ?_ ?_).1
  · intro s hs
    refine ⟨untouched_peopled hs, ?_⟩
    rw [hs.1]
  · exact fun s now _ _ hs => ⟨hs.1.at now, hs.2⟩
  · intro env s call s' _ hexec hs
    exact ⟨exec_peopled hs.2 hexec hs.1, (exec_steps hs.2 hexec).2⟩

theorem usertransfer_tallied {sender receiver : Name} {amount : Asset} {memo : Text}
    (hkeeps : keepsTotal s (.action (.usertransfer sender receiver amount memo)) = true)
    (h : exec p env s (.action (.usertransfer sender receiver amount memo)) = .ok s')
    (hpeopled : Peopled s') (hs : Tallied s) : Tallied s' := by
  obtain ⟨_, user, huser, huser', hsame⟩ := usertransfer_user h
  refine hs.uncounted hpeopled hsame ?_
  intro last total hmigration
  simp only [keepsTotal, hmigration, decide_eq_true_eq] at hkeeps
  have htaken := sumUpTo_subBalance huser last
  have hgiven := sumUpTo_addBalance huser' last
  simp only [upTo] at htaken hgiven
  by_cases hle : sender ≤ last
  · rw [if_pos hle] at htaken
    rw [if_pos (hkeeps.mp hle)] at hgiven
    omega
  · rw [if_neg hle] at htaken
    rw [if_neg (fun hr => hle (hkeeps.mpr hr))] at hgiven
    omega

theorem fundtransfer_tallied {sender receiver : Name} {distributionTime rank : Nat}
    {amount : Asset} {memo : Text}
    (hkeeps : keepsTotal s
      (.action (.fundtransfer sender distributionTime rank receiver amount memo)) = true)
    (h : exec p env s (.action (.fundtransfer sender distributionTime rank receiver amount memo)) =
      .ok s') (hpeopled : Peopled s') (hs : Tallied s) : Tallied s' := by
  obtain ⟨_, huser, hsame⟩ := fundtransfer_user h
  refine hs.uncounted hpeopled hsame ?_
  intro last total hmigration
  simp only [keepsTotal, hmigration, decide_eq_true_eq] at hkeeps
  have hgiven := sumUpTo_addBalance huser last
  rwa [upTo, if_neg (Nat.not_le_of_lt hkeeps), Int.add_zero] at hgiven

theorem exec_tallied (hclean : s.output.serializedEvents = []) (hkeeps : keepsTotal s call = true)
    (h : exec p env s call = .ok s') (hs : Tallied s) : Tallied s' := by
  obtain ⟨hsteps, _⟩ := exec_steps hclean h
  have hpeopled := exec_peopled hclean h hs.toPeopled
  have hsame : s'.accounts.user = s.accounts.user → s'.migration = s.migration → Tallied s' :=
    fun huser hmigration => hs.uncounted hpeopled hmigration fun _ _ _ => by rw [huser]
  have hsettled : (∀ last total, s.migration ≠ some (.account last total)) →
      s'.migration = s.migration → Tallied s' :=
    fun hnone hmigration => hs.uncounted hpeopled hmigration
      fun last total hcurrent => absurd hcurrent (hnone last total)
  have hother : standsBy call = true → Tallied s' := by
    intro hcall
    obtain ⟨huser, hmigration | hlast⟩ := steps_standsBy hcall hsteps
    · exact hsame huser hmigration
    · refine ⟨hpeopled, fun m hm => ?_⟩
      rw [hlast, Option.some.injEq] at hm
      subst hm
      trivial
  cases call with
  | transfer =>
      rcases transfer_settled h with rfl | ⟨_, huser, hmigration⟩ |
        ⟨_, _, _, _, _, _, _, _, ⟨_, _, huser, hmigration⟩ | ⟨_, huser, hmigration⟩⟩
      · exact hs
      · exact hsame huser hmigration
      · exact hs.credited hpeopled huser hmigration
      · exact hsame huser hmigration
  | lognewtempl => exact hother rfl
  | logmint => exact hother rfl
  | action a =>
      cases a with
      | withdraw =>
          obtain ⟨_, _, _, huser, hmigration, _⟩ := withdraw_settled h
          exact hs.debited hpeopled huser hmigration
      | inductdonate =>
          obtain ⟨_, huser, hmigration, _⟩ := inductdonate_settled h
          exact hs.debited hpeopled huser hmigration
      | usertransfer => exact usertransfer_tallied hkeeps h hpeopled hs
      | fundtransfer => exact fundtransfer_tallied hkeeps h hpeopled hs
      | donate =>
          obtain ⟨hmigrated, _, hmigration⟩ := donate_user h
          refine hsettled (fun last total hcurrent => ?_) hmigration
          rw [hcurrent] at hmigrated
          exact absurd hmigrated (by simp [isAccountMigrated, migrationIndex])
      | rename =>
          obtain ⟨_, hcheck, _, hmigration⟩ := rename_user h
          refine hsettled (fun last total hcurrent => ?_) hmigration
          rw [hcurrent] at hcheck
          exact absurd hcheck (by simp [checkNoMigration])
      | migrate =>
          obtain ⟨huser, htotals⟩ := migrate_totals h hs.nobody
          refine ⟨hpeopled, ?_⟩
          rw [huser]
          exact htotals hs.totals
      | clearall =>
          simp only [exec, applyAction, dispatch, clearall, bind_eq_ok, pure_eq_ok] at h
          obtain ⟨_, ⟨_, _, _, _, rfl⟩, rfl⟩ := h
          exact ⟨hpeopled, by simp⟩
      | unmigrate =>
          simp only [exec, applyAction, dispatch, unmigrate, bind_eq_ok, pure_eq_ok] at h
          obtain ⟨_, ⟨_, _, _, _, rfl⟩, rfl⟩ := h
          exact ⟨hpeopled, by simp⟩
      | _ => exact hother rfl

theorem reachable_tallied (h : Reachable p (fun s call => keepsTotal s call = true) s) :
    Tallied s := by
  refine (reachable_invariant (fun s => Tallied s ∧ s.output.serializedEvents = []) h ?_ ?_ ?_).1
  · intro s hs
    refine ⟨⟨untouched_peopled hs, ?_⟩, ?_⟩
    · rw [hs.1]
      simp
    · rw [hs.1]
  · exact fun s now _ _ hs => ⟨⟨hs.1.toPeopled.at now, hs.1.totals⟩, hs.2⟩
  · intro env s call s' hkeeps hexec hs
    exact ⟨exec_tallied hs.2 hkeeps hexec hs.1, (exec_steps hs.2 hexec).2⟩

/-- While the accounts are migrated, the total is the sum of all accounts up to the last one
visited, as long as no funds reach those and no transfer crosses between them and the others. -/
theorem running_total (h : Reachable p (fun s call => keepsTotal s call = true) s)
    {last : Name} {total : Asset} (hmigration : s.migration = some (.account last total)) :
    total.amount = sumUpTo s.accounts.user last :=
  ((reachable_tallied h).totals _ hmigration).1

/-- The migrations start over, and the account of alice is visited but not that of bob. -/
def halfMigrated : List Transaction :=
  foundation ++ [(1000100, [(signedBy contractSigner, .action .unmigrate)]),
    (1000110, [(signedBy alice, .action (.migrate 1))])]

theorem running_total_of_alice :
    ∃ s, runFromGenesis host (fun s call => keepsTotal s call = true) halfMigrated = some s ∧
      s.migration = some (.account alice.name (eos 900)) ∧
      (eos 900).amount = sumUpTo s.accounts.user alice.name := by
  have hrun : (runFromGenesis host (fun s call => keepsTotal s call = true) halfMigrated).any
      (fun s => s.migration = some (.account alice.name (eos 900))) = true := by decide +kernel
  obtain ⟨s, hs, hmigration⟩ := (Option.any_eq_true _ _).mp hrun
  exact ⟨s, hs, of_decide_eq_true hmigration,
    running_total (reachable_of_run hs) (of_decide_eq_true hmigration)⟩

/-- Alice pays bob meanwhile. -/
def paysMeanwhile : List Transaction :=
  halfMigrated ++ [(1000120, [(signedBy alice,
    .action (.usertransfer alice.name bob.name (eos 100) []))])]

/-- Nobody tells the migration of a transfer between users. -/
theorem total_without_transfer :
    ∃ s, Reachable host (fun _ _ => True) s ∧
      s.migration = some (.account alice.name (eos 900)) ∧
      sumUpTo s.accounts.user alice.name = 800 := by
  have hrun : (runFromGenesis host (fun _ _ => True) paysMeanwhile).any (fun s =>
      decide (s.migration = some (.account alice.name (eos 900))) &&
        decide (sumUpTo s.accounts.user alice.name = 800)) = true := by
    decide +kernel
  obtain ⟨s, hs, hstate⟩ := (Option.any_eq_true _ _).mp hrun
  simp only [Bool.and_eq_true, decide_eq_true_eq] at hstate
  exact ⟨s, reachable_of_run hs, hstate.1, hstate.2⟩

end Eden.AccountMigration
