import Eden.AccountMigration

/-!
The end of the account migration, where the master pool gets what users do not own: when no
migration fails there, and what the accounts add up to.
-/

namespace Eden.MasterMigration

open Eden.ExceptReasoning
open Eden.SortedTable
open Eden.ChainPrimitives
open Eden.ContractState
open Eden.Runtime
open Eden.AccountTables
open Eden.MemberTable
open Eden.Maintenance
open Eden.ContractActions
open Eden.Transactions
open Eden.HostFunctions
open Eden.ActionSteps
open Eden.MigrationStages
open Eden.AccountMigration

variable {p : Platform} {env : Env} {call : Call} {s s' : State}

/-- What the contract holds of its token. -/
def held (s : State) : Int :=
  ((s.globals.map Globals.defaultToken).map fun token => tokenBalance s.tokens token.code).getD 0

/-- The master pool owns what users do not own. -/
def Settled (s : State) : Prop :=
  balanceOf s.accounts.owned masterName + sumBalances s.accounts.user = held s

/-- The master pool is the only pool, and owns what users do not own. -/
def Split (s : State) : Prop :=
  ∃ balance, s.accounts.owned.rows = [⟨masterName, balance⟩] ∧
    balance.amount + sumBalances s.accounts.user = held s

/-- While the accounts are migrated: the total is right, users own no more than there is, and the
pools are not migrated yet or the master pool is. -/
structure Migrating (s : State) (m : Migration) : Prop where
  nobody : s.accounts.user.find? emptyName = none
  totals : Totals s.accounts.user m
  covered : sumBalances s.accounts.user ≤ held s
  pools : s.accounts.owned = .empty ∨ Split s

theorem Split.find? (h : Split s) : ∃ balance,
    s.accounts.owned.find? masterName = some ⟨masterName, balance⟩ ∧
      balance.amount + sumBalances s.accounts.user = held s := by
  obtain ⟨balance, hrows, hsum⟩ := h
  refine ⟨balance, Table.find?_eq_some.mpr ⟨?_, rfl⟩, hsum⟩
  rw [hrows]
  exact List.mem_singleton_self _

theorem Split.settled (h : Split s) : Settled s := by
  obtain ⟨balance, hfound, hsum⟩ := h.find?
  rw [Settled, balanceOf, hfound]
  exact hsum

/-- The tables that the migration of the accounts looks at are the same. -/
structure SameFunds (s s' : State) : Prop where
  accounts : s'.accounts = s.accounts
  tokens : s'.tokens = s.tokens
  globals : s'.globals = s.globals

theorem SameFunds.held (h : SameFunds s s') : held s' = held s := by
  unfold MasterMigration.held
  rw [h.tokens, h.globals]

theorem SameFunds.settled (h : SameFunds s s') (hs : Settled s) : Settled s' := by
  rw [Settled, h.accounts, h.held]
  exact hs

theorem SameFunds.migrating (h : SameFunds s s') {m m' : Migration} (hs : Migrating s m)
    (hm : Totals s.accounts.user m') : Migrating s' m' := by
  obtain ⟨hnobody, _, hcovered, hpools⟩ := hs
  refine ⟨by rwa [h.accounts], by rwa [h.accounts], by rwa [h.accounts, h.held], ?_⟩
  rw [Split, h.accounts, h.held]
  exact hpools

/-! ### The end of the table -/

/-- The total balance that the migration reads. -/
theorem held_of_total {g : Globals} {total : Asset} (hg : s.globals = some g)
    (h : (match s.tokens.find? g.defaultToken.code with
      | some balance => .ok balance
      | none => asset 0 g.defaultToken : Outcome Asset) = .ok total) : held s = total.amount := by
  rw [held, hg]
  simp only [Option.map_some, Option.getD_some, tokenBalance]
  split at h
  · rename_i balance hfound
    rw [Except.ok.injEq] at h
    rw [hfound, ← h]
    rfl
  · rename_i hnone
    rw [asset_eq_ok] at h
    rw [hnone, ← h.2.2]
    rfl

/-- Once all accounts are visited, what users do not own is the master pool's, be it there already
or not. -/
theorem migrateMaster_settles {g : Globals} {maxSteps remaining : Nat} {userTotal : Asset}
    (h : migrateMaster g s maxSteps userTotal = .ok (remaining, s')) (hg : s.globals = some g)
    (htotal : userTotal.amount = sumBalances s.accounts.user)
    (hpools : s.accounts.owned = .empty ∨ Split s) :
    Settled s' ∧ (s'.accounts.owned = .empty ∨ Split s') ∧ held s' = held s := by
  simp only [migrateMaster, bind_eq_ok, check_eq_ok, exists_const, Asset.ge_eq_ok,
    Asset.eq_eq_ok] at h
  obtain ⟨total, hbalance, _, ⟨_, rfl⟩, _, _, ⟨_, rfl⟩, h⟩ := h
  have hheld := held_of_total hg hbalance
  split at h
  · rename_i heq
    rw [decide_eq_true_eq] at heq
    rw [pure_eq_ok, Prod.mk.injEq] at h
    obtain ⟨_, rfl⟩ := h
    refine ⟨?_, hpools, rfl⟩
    rcases hpools with hempty | hsplit
    · have hnone : balanceOf s.accounts.owned masterName = 0 := by
        rw [hempty]
        rfl
      rw [Settled, hnone]
      omega
    · exact hsplit.settled
  · simp only [bind_eq_ok, Asset.sub_eq_ok] at h
    obtain ⟨rest, ⟨_, _, _, rfl⟩, h⟩ := h
    split at h
    · rename_i hnone
      simp only [bind_eq_ok, expect_eq_ok, pure_eq_ok, Prod.mk.injEq] at h
      obtain ⟨owned, hemplace, _, rfl⟩ := h
      have hempty : s.accounts.owned = .empty := by
        rcases hpools with hempty | hsplit
        · exact hempty
        · obtain ⟨balance, hfound, _⟩ := hsplit.find?
          rw [hnone] at hfound
          exact absurd hfound (by simp)
      have hrows : owned.rows.Perm [⟨masterName, ⟨total.amount - userTotal.amount, total.symbol⟩⟩] := by
        have hperm := Table.emplace?_perm hemplace
        rwa [hempty, Table.rows_empty] at hperm
      have hsplit : Split { s with accounts := { s.accounts with owned := owned } } := by
        refine ⟨_, List.perm_singleton.mp hrows, ?_⟩
        change total.amount - userTotal.amount + sumBalances s.accounts.user = held s
        omega
      exact ⟨hsplit.settled, .inr hsplit, rfl⟩
    · rename_i row hrow
      simp only [bind_eq_ok, check_eq_ok, exists_const, pure_eq_ok, Prod.mk.injEq] at h
      obtain ⟨_, _, _, _, rfl⟩ := h
      have hsplit : Split s := by
        refine hpools.resolve_left fun hempty => ?_
        rw [hempty] at hrow
        exact absurd hrow (by simp [Table.find?])
      exact ⟨hsplit.settled, .inr hsplit, rfl⟩

/-- A failure at the end of the accounts. -/
def Jams (e : Abort) : Prop :=
  e = .check "Incorrect balance" ∨
    e = .check "Invariant failure: not enough funds to cover user balances"

/-- The failures of the arithmetic of amounts and of tables. -/
def amountErrors : List Abort :=
  [.check "magnitude of asset amount must be less than 2^62", .check "invalid symbol name",
    .check "attempt to add asset with different symbol", .check "addition underflow",
    .check "addition overflow", .check "attempt to subtract asset with different symbol",
    .check "subtraction underflow", .check "subtraction overflow",
    .check "comparison of assets with different symbols is not allowed",
    .check "singleton does not exist", .duplicateKey]

theorem Jams.not_mem {e : Abort} (he : Jams e) : e ∉ amountErrors := by
  rcases he with rfl | rfl <;> simp [amountErrors]

theorem asset_ne_error {e : Abort} (he : e ∉ amountErrors) {amount : Int} {symbol : Symbol} :
    asset amount symbol ≠ .error e := by
  intro h
  simp only [asset, check_bind_eq_error, pure_ne_error, and_false, or_false] at h
  rcases h with ⟨_, rfl⟩ | ⟨_, _, rfl⟩ <;> simp [amountErrors] at he

theorem add_ne_error {e : Abort} (he : e ∉ amountErrors) {a b : Asset} : a.add b ≠ .error e := by
  intro h
  simp only [Asset.add, check_bind_eq_error, pure_ne_error, and_false, or_false] at h
  rcases h with ⟨_, rfl⟩ | ⟨_, ⟨_, rfl⟩ | ⟨_, _, rfl⟩⟩ <;> simp [amountErrors] at he

theorem sub_ne_error {e : Abort} (he : e ∉ amountErrors) {a b : Asset} : a.sub b ≠ .error e := by
  intro h
  simp only [Asset.sub, check_bind_eq_error, pure_ne_error, and_false, or_false] at h
  rcases h with ⟨_, rfl⟩ | ⟨_, ⟨_, rfl⟩ | ⟨_, _, rfl⟩⟩ <;> simp [amountErrors] at he

theorem compare_ne_error {e : Abort} (he : e ∉ amountErrors) (a b : Asset) :
    a.ge b ≠ .error e ∧ a.eq b ≠ .error e := by
  constructor
  · rw [ne_eq, Asset.ge_eq_error]
    rintro ⟨_, rfl⟩
    simp [amountErrors] at he
  · rw [ne_eq, Asset.eq_eq_error]
    rintro ⟨_, rfl⟩
    simp [amountErrors] at he

theorem getGlobals_ne_error {e : Abort} (he : e ∉ amountErrors) : getGlobals s ≠ .error e := by
  rw [ne_eq, getGlobals, getSingleton, expect_eq_error]
  rintro ⟨_, rfl⟩
  simp [amountErrors] at he

theorem sumAccounts_ne_error {e : Abort} (he : e ∉ amountErrors) {rows : List Account}
    {maxSteps : Nat} {last : Name} {total : Asset} :
    sumAccounts rows maxSteps last total ≠ .error e := by
  fun_induction sumAccounts rows maxSteps last total with
  | case1 => exact pure_ne_error
  | case2 => exact pure_ne_error
  | case3 a rest maxSteps last total ih =>
      exact bind_ne_error (add_ne_error he) fun next _ => ih next

/-- The end of the accounts does not fail when users own no more than there is, and the master pool
owns the rest if it owns anything. -/
theorem migrateMaster_not_jams {e : Abort} (he : Jams e) {g : Globals} {maxSteps : Nat}
    {userTotal : Asset} (hg : s.globals = some g)
    (htotal : userTotal.amount = sumBalances s.accounts.user)
    (hcovered : sumBalances s.accounts.user ≤ held s)
    (hpools : s.accounts.owned = .empty ∨ Split s) :
    migrateMaster g s maxSteps userTotal ≠ .error e := by
  have hcompare := compare_ne_error he.not_mem
  unfold migrateMaster
  refine bind_ne_error ?_ fun total hbalance => bind_ne_error (hcompare _ _).1 fun enough henough =>
    bind_ne_error ?_ fun _ _ => bind_ne_error (hcompare _ _).2 fun same hsame => ?_
  · split
    · simp
    · exact asset_ne_error he.not_mem
  · have hheld := held_of_total hg hbalance
    obtain ⟨_, rfl⟩ := Asset.ge_eq_ok.mp henough
    rw [decide_eq_true (by omega)]
    simp
  · split
    · exact pure_ne_error
    · refine bind_ne_error (sub_ne_error he.not_mem) fun rest hrest => ?_
      split
      · refine bind_ne_error ?_ fun _ _ => pure_ne_error
        rw [ne_eq, expect_eq_error]
        rcases he with rfl | rfl <;> simp
      · rename_i row hrow
        refine bind_ne_error (hcompare _ _).2 fun right hright => bind_ne_error ?_ fun _ _ =>
          pure_ne_error
        have hsplit : Split s := by
          refine hpools.resolve_left fun hempty => ?_
          rw [hempty] at hrow
          exact absurd hrow (by simp [Table.find?])
        obtain ⟨balance, hfound, hsum⟩ := hsplit.find?
        rw [hrow, Option.some.injEq] at hfound
        subst hfound
        have hheld := held_of_total hg hbalance
        obtain ⟨_, _, _, rfl⟩ := Asset.sub_eq_ok.mp hrest
        obtain ⟨_, rfl⟩ := Asset.eq_eq_ok.mp hright
        rw [decide_eq_true (by simp only; omega)]
        simp

/-! ### The stages -/

/-- What holds at each turn of `migrate_some` from the accounts on. -/
def Settling (s : State) : Migration → Prop
  | .account last total => Migrating s (.account last total)
  | m => 1 < migrationIndex m ∧ Settled s

theorem settling_of_lt {m : Migration} (hm : 1 < migrationIndex m) (hs : Settled s) :
    Settling s m := by
  cases m with
  | account last total => exact absurd hm (lt_irrefl 1)
  | auction lastId => exact absurd hm (by simp [migrationIndex])
  | none0 => exact ⟨hm, hs⟩
  | member next => exact ⟨hm, hs⟩
  | none1 => exact ⟨hm, hs⟩
  | fixInductdonateExpirationCheck => exact ⟨hm, hs⟩

theorem lt_nextMigration {m : Migration} (hm : 1 ≤ migrationIndex m) :
    1 < migrationIndex (nextMigration m) := by
  cases m with
  | auction lastId => exact absurd hm (by simp [migrationIndex])
  | _ => simp [nextMigration, migrationIndex]

/-- After all accounts the total is what users own. -/
theorem total_of_end {last last' : Name} {total' : Asset}
    (htotals : Totals s.accounts.user (.account last' total')) {n : Nat}
    (hend : (s.accounts.user.above last).length < n)
    (habove : s.accounts.user.above last' = (s.accounts.user.above last).drop n) :
    total'.amount = sumBalances s.accounts.user := by
  rw [List.drop_eq_nil_of_le (le_of_lt hend)] at habove
  rw [htotals.1, sumUpTo_of_above_nil habove]

theorem migrateStage_settling {n r : Nat} {m m' : Migration}
    (h : migrateStage p env s n m = .ok (r, m', s')) (hs : Settling s m) :
    (r = 0 → Settling s' m') ∧
      (r ≠ 0 → Settling (emit p s' (.migration (migrationIndex m))) (nextMigration m')) := by
  have hemit : ∀ t e, SameFunds t (emit p t e) := fun _ _ => ⟨rfl, rfl, rfl⟩
  have hlater : SameFunds s s' → 1 < migrationIndex m → Settled s →
      migrationIndex m' = migrationIndex m → (r = 0 → Settling s' m') ∧
        (r ≠ 0 → Settling (emit p s' (.migration (migrationIndex m))) (nextMigration m')) := by
    intro hsame hm hsettled hindex
    refine ⟨fun _ => settling_of_lt (by omega) (hsame.settled hsettled), fun _ => ?_⟩
    exact settling_of_lt (lt_nextMigration (by omega)) ((hemit _ _).settled (hsame.settled hsettled))
  cases m with
  | account last total =>
      have hstage : migrateAccounts s n last total = .ok (r, m', s') := h
      obtain ⟨g, _, last', total', hg, _, rfl, _, _, habove, hcases⟩ :=
        migrateAccounts_eq_ok hstage
      have htotals := migrateStage_totals hs.nobody h hs.totals
      rcases hcases with ⟨_, rfl, rfl⟩ | ⟨hend, hmaster⟩
      · refine ⟨fun _ => ⟨hs.nobody, htotals, hs.covered, hs.pools⟩, fun hne => absurd rfl hne⟩
      · obtain ⟨hsettled, hpools, hheld⟩ := migrateMaster_settles hmaster hg
          (total_of_end htotals hend habove) hs.pools
        obtain ⟨owned, rfl⟩ := migrateMaster_keeps hmaster
        refine ⟨fun _ => ⟨hs.nobody, htotals, ?_, hpools⟩, fun _ => ?_⟩
        · rw [hheld]
          exact hs.covered
        · exact settling_of_lt (lt_nextMigration le_rfl) ((hemit _ _).settled hsettled)
  | member next =>
      simp only [migrateStage, migrateMembers, pure_eq_ok, Prod.mk.injEq] at h
      obtain ⟨_, rfl, rfl⟩ := h
      exact hlater ⟨rfl, rfl, rfl⟩ hs.1 hs.2 rfl
  | auction lastId => exact absurd hs.1 (by simp [migrationIndex])
  | none0 | none1 | fixInductdonateExpirationCheck =>
      simp only [migrateStage, pure_eq_ok, Prod.mk.injEq] at h
      obtain ⟨_, rfl, rfl⟩ := h
      exact hlater ⟨rfl, rfl, rfl⟩ hs.1 hs.2 rfl

/-- After the accounts the stages always succeed. -/
theorem migrateStage_runs {e : Abort} {n : Nat} {m : Migration} (hm : 1 < migrationIndex m) :
    migrateStage p env s n m ≠ .error e := by
  cases m with
  | auction | account => exact absurd hm (by simp [migrationIndex])
  | member | none0 | none1 | fixInductdonateExpirationCheck => exact pure_ne_error

theorem migrateStage_not_jams {e : Abort} (he : Jams e) {n : Nat} {m : Migration}
    (hs : Settling s m) : migrateStage p env s n m ≠ .error e := by
  cases m with
  | account last total =>
      intro h
      have hstage : migrateAccounts s n last total = .error e := h
      unfold migrateAccounts at hstage
      refine bind_ne_error (getGlobals_ne_error he.not_mem) (fun g hg => ?_) hstage
      rw [getGlobals_eq_ok] at hg
      refine bind_ne_error ?_ fun first hfirst => bind_ne_error (sumAccounts_ne_error he.not_mem) ?_
      · split
        · exact asset_ne_error he.not_mem
        · simp
      rintro ⟨steps, last', total'⟩ hsum
      simp only
      split
      · exact pure_ne_error
      · rename_i hne
        refine bind_ne_error ?_ fun _ _ => pure_ne_error
        obtain ⟨hsteps, habove, hsymbol, hgrows⟩ := sumAccounts_eq_ok rfl hsum
        have hend : (s.accounts.user.above last).length < n := by omega
        have htotals := totals_of_sum hs.nobody hs.totals hfirst hsymbol hgrows
        exact migrateMaster_not_jams he hg (total_of_end htotals hend habove) hs.covered hs.pools
  | auction | member | none0 | none1 | fixInductdonateExpirationCheck =>
      exact migrateStage_runs hs.1

/-! ### Calls in between -/

/-- The master pool is there while the accounts are still being migrated. -/
def awaitsEnd (s : State) : Bool :=
  !isAccountMigrated s.migration && (s.accounts.owned.find? masterName).isSome

/-- Migrations, deposits, donations and withdrawals. While the end of the accounts is awaited,
nothing arrives that no user gets, and no user donates anything. -/
def keepsSplit (p : Platform) (s : State) : Call → Bool
  | .action (.migrate _) => true
  | .action (.withdraw ..) => true
  | .action (.inductdonate _ _ quantity) =>
      if awaitsEnd s then quantity.amount = 0
      else sumBalances s.accounts.user ≤ held s + quantity.amount
  | .transfer sender receiver _ memo =>
      sender ≠ p.self && receiver = p.self &&
        (!awaitsEnd s || (isPossibleDepositAccount p sender && memo ≠ donateMemo))
  | _ => false

/-- The accounts are being migrated, or have been. -/
structure Underway (s : State) : Prop extends Peopled s where
  clean : s.output.serializedEvents = []
  stage : (∃ last total, s.migration = some (.account last total) ∧
      Migrating s (.account last total)) ∨ isAccountMigrated s.migration = true

theorem held_tokenAdd {quantity : Asset}
    (htoken : s.globals.map Globals.defaultToken = some quantity.symbol)
    (hglobals : s'.globals = s.globals) (h : tokenAdd s.tokens quantity = .ok s'.tokens) :
    held s' = held s + quantity.amount := by
  rw [held, held, hglobals, htoken]
  simp only [Option.map_some, Option.getD_some]
  rw [tokenBalance_tokenAdd h, if_pos rfl]

theorem held_tokenSub {quantity : Asset}
    (htoken : s.globals.map Globals.defaultToken = some quantity.symbol)
    (hglobals : s'.globals = s.globals) (h : tokenSub s.tokens quantity = .ok s'.tokens) :
    held s' = held s - quantity.amount := by
  rw [held, held, hglobals, htoken]
  simp only [Option.map_some, Option.getD_some]
  rw [tokenBalance_tokenSub h, if_pos rfl]

/-- Users and the contract gain or lose the same. -/
theorem pools_of_same (howned : s'.accounts.owned = s.accounts.owned)
    (hsame : held s' - sumBalances s'.accounts.user = held s - sumBalances s.accounts.user)
    (h : s.accounts.owned = .empty ∨ Split s) : s'.accounts.owned = .empty ∨ Split s' := by
  rcases h with hempty | ⟨balance, hrows, hsum⟩
  · exact .inl (howned.trans hempty)
  · refine .inr ⟨balance, by rw [howned, hrows], ?_⟩
    omega

/-- While the end is not awaited there are no pools. -/
theorem Migrating.no_pools {last : Name} {total : Asset}
    (hs : Migrating s (.account last total)) (hcurrent : s.migration = some (.account last total))
    (hwaits : awaitsEnd s = false) : s.accounts.owned = .empty := by
  refine hs.pools.resolve_right fun hsplit => ?_
  obtain ⟨balance, hfound, _⟩ := hsplit.find?
  rw [awaitsEnd, hcurrent, hfound] at hwaits
  exact absurd hwaits (by simp [isAccountMigrated, migrationIndex])

theorem Migrating.adjusted {last : Name} {total : Asset} (hs : Migrating s (.account last total))
    (hcurrent : s.migration = some (.account last total)) {owner : Name} {quantity : Asset}
    (hnobody : s'.accounts.user.find? emptyName = none)
    (hsum : ∀ last, sumUpTo s'.accounts.user last =
      sumUpTo s.accounts.user last + upTo last owner quantity.amount)
    (hmigration : adjustBalance s.migration owner quantity = .ok s'.migration)
    (hcovered : sumBalances s'.accounts.user ≤ held s')
    (hpools : s'.accounts.owned = .empty ∨ Split s') :
    ∃ last total, s'.migration = some (.account last total) ∧
      Migrating s' (.account last total) := by
  have hstill : ∃ total', s'.migration = some (.account last total') := by
    rw [hcurrent] at hmigration
    simp only [adjustBalance] at hmigration
    split at hmigration
    · simp only [bind_eq_ok, pure_eq_ok] at hmigration
      obtain ⟨total', _, heq⟩ := hmigration
      exact ⟨total', heq.symm⟩
    · rw [pure_eq_ok] at hmigration
      exact ⟨total, hmigration.symm⟩
  obtain ⟨total', hstill⟩ := hstill
  refine ⟨last, total', hstill, hnobody, ?_, hcovered, hpools⟩
  refine totals_adjustBalance hmigration hsum (fun m hm => ?_) _ hstill
  rw [hcurrent, Option.some.injEq] at hm
  exact hm ▸ hs.totals

/-- A donation that no account receives, while there are no pools. -/
theorem Migrating.received {m : Migration} (hs : Migrating s m)
    (huser : s'.accounts.user = s.accounts.user) (hheld : held s ≤ held s')
    (howned : s'.accounts.owned = .empty) : Migrating s' m := by
  refine ⟨by rw [huser]; exact hs.nobody, by rw [huser]; exact hs.totals, ?_, .inl howned⟩
  rw [huser]
  exact hs.covered.trans hheld

theorem migrate_underway {n : Nat} (h : exec p env s (.action (.migrate n)) = .ok s')
    (hs : Underway s) :
    ((∃ last total, s'.migration = some (.account last total) ∧
        Migrating s' (.account last total)) ∨ isAccountMigrated s'.migration = true) ∧
      (∀ last total, s.migration = some (.account last total) →
        isAccountMigrated s'.migration = true → Settled s') := by
  obtain ⟨r, t, ht, _, rfl⟩ := migrate_eq_ok h
  rcases hs.stage with ⟨last, total, hcurrent, hmigrating⟩ | hmigrated
  · rw [hcurrent] at ht
    have hsame : SameFunds s (record s (.action (.migrate n))) := ⟨rfl, rfl, rfl⟩
    have hstart : Settling (record s (.action (.migrate n))) (.account last total) :=
      hsame.migrating hmigrating hmigrating.totals
    obtain ⟨u, m, hsettling, rfl⟩ := migrateFrom_preserves Settling
      (fun _ _ _ _ _ _ _ _ hstage hu => migrateStage_settling hstage hu) ht hstart
    cases m with
    | account last' total' =>
        have hstill : Migrating u (.account last' total') := hsettling
        refine ⟨.inl ⟨last', total', rfl, ?_⟩, fun _ _ _ hdone => ?_⟩
        · exact ⟨hstill.nobody, hstill.totals, hstill.covered, hstill.pools⟩
        · exact absurd hdone (by simp [isAccountMigrated, migrationIndex])
    | auction lastId => exact absurd hsettling.1 (by simp [migrationIndex])
    | none0 | member | none1 | fixInductdonateExpirationCheck =>
        have hsettled : Settled u := hsettling.2
        exact ⟨.inr rfl, fun _ _ _ _ => hsettled⟩
  · obtain ⟨m₀, hm₀, hlt⟩ := Option.any_eq_true _ _ |>.mp hmigrated
    rw [decide_eq_true_eq] at hlt
    rw [hm₀] at ht
    obtain ⟨u, m, hlt', rfl⟩ := migrateFrom_preserves (fun _ m => 1 < migrationIndex m)
      (fun t n m r m' t' _ _ hstage hm => by
        have hindex := migrateStage_index hstage
        exact ⟨fun _ => by omega, fun _ => lt_nextMigration (by omega)⟩) ht hlt
    refine ⟨.inr (by simpa [isAccountMigrated] using hlt'), fun last total hcurrent => ?_⟩
    rw [hcurrent] at hmigrated
    exact absurd hmigrated (by simp [isAccountMigrated, migrationIndex])

theorem exec_underway (hkeeps : keepsSplit p s call = true) (h : exec p env s call = .ok s')
    (hs : Underway s) : Underway s' := by
  have hpeopled := exec_peopled hs.clean h hs.toPeopled
  refine ⟨hpeopled, (exec_steps hs.clean h).2, ?_⟩
  cases call with
  | transfer sender receiver quantity memo =>
      simp only [keepsSplit, Bool.and_eq_true, decide_eq_true_eq] at hkeeps
      obtain ⟨⟨hself, hreceiver⟩, hwaits⟩ := hkeeps
      rcases transfer_settled h with rfl | ⟨hsender, _⟩ |
        ⟨_, _, _, hpos, htoken, htokens, howned, hglobals, hcases⟩
      · exact hs.stage
      · exact absurd hsender hself
      · have hheld := held_tokenAdd htoken hglobals htokens
        rcases hs.stage with ⟨last, total, hcurrent, hmigrating⟩ | hmigrated
        · have howned' := howned (by rw [hcurrent]; rfl)
          rcases hcases with ⟨_, _, huser, hmigration⟩ | ⟨hpool, huser, hmigration⟩
          · have hsum := sumBalances_addBalance huser
            have hcovered := hmigrating.covered
            exact .inl (hmigrating.adjusted hcurrent hpeopled.nobody (sumUpTo_addBalance huser)
              hmigration (by omega) (pools_of_same howned' (by omega) hmigrating.pools))
          · have hnone : awaitsEnd s = false := by
              by_contra hcontra
              rw [Bool.not_eq_false] at hcontra
              simp only [hcontra, Bool.not_true, Bool.false_or, Bool.and_eq_true,
                decide_eq_true_eq] at hwaits
              rcases hpool with hpossible | hmemo
              · rw [hpossible] at hwaits
                exact absurd hwaits.1 (by simp)
              · exact hwaits.2 hmemo
            refine .inl ⟨last, total, hmigration.trans hcurrent, hmigrating.received huser
              (by omega) (howned'.trans (hmigrating.no_pools hcurrent hnone))⟩
        · right
          rcases hcases with ⟨_, _, _, hmigration⟩ | ⟨_, _, hmigration⟩
          · rw [isAccountMigrated_adjustBalance hmigration, hmigrated]
          · rw [hmigration, hmigrated]
  | action a =>
      cases a with
      | migrate n => exact (migrate_underway h hs).1
      | withdraw owner quantity =>
          obtain ⟨_, hpos, htoken, huser, hmigration, htokens, howned, hglobals⟩ :=
            withdraw_settled h
          have hheld := held_tokenSub htoken hglobals htokens
          rcases hs.stage with ⟨last, total, hcurrent, hmigrating⟩ | hmigrated
          · have hsum := sumBalances_subBalance huser
            have hcovered := hmigrating.covered
            exact .inl (hmigrating.adjusted hcurrent hpeopled.nobody (sumUpTo_debited huser)
              hmigration (by omega) (pools_of_same howned (by omega) hmigrating.pools))
          · exact .inr ((isAccountMigrated_adjustBalance hmigration).trans hmigrated)
      | inductdonate payer id quantity =>
          obtain ⟨_, huser, hmigration, htokens, howned, htoken⟩ := inductdonate_settled h
          rcases hs.stage with ⟨last, total, hcurrent, hmigrating⟩ | hmigrated
          · have hsum := sumBalances_subBalance huser
            have hcovered := hmigrating.covered
            have hheld : held s' = held s := by rw [held, held, htoken, htokens]
            have howned' := howned (by rw [hcurrent]; rfl)
            rw [keepsSplit] at hkeeps
            split at hkeeps
            · rw [decide_eq_true_eq] at hkeeps
              exact .inl (hmigrating.adjusted hcurrent hpeopled.nobody (sumUpTo_debited huser)
                hmigration (by omega) (pools_of_same howned' (by omega) hmigrating.pools))
            · rename_i hwaits
              rw [decide_eq_true_eq] at hkeeps
              have hnone := hmigrating.no_pools hcurrent (eq_false_of_ne_true hwaits)
              exact .inl (hmigrating.adjusted hcurrent hpeopled.nobody (sumUpTo_debited huser)
                hmigration (by omega) (.inl (howned'.trans hnone)))
          · exact .inr ((isAccountMigrated_adjustBalance hmigration).trans hmigrated)
      | _ => exact absurd hkeeps (by simp [keepsSplit])
  | lognewtempl => exact absurd hkeeps (by simp [keepsSplit])
  | logmint => exact absurd hkeeps (by simp [keepsSplit])

theorem migrate_ne_error {e : Abort} {n : Nat} (hnothing : e ≠ .check "Nothing to do")
    (h : migrateSome p env (record s (.action (.migrate n))) n ≠ .error e) :
    exec p env s (.action (.migrate n)) ≠ .error e := by
  change applyAction p env s (.migrate n) ≠ _
  unfold applyAction
  refine bind_ne_error ?_ fun _ _ => pure_ne_error
  change migrate p env (record s (.action (.migrate n))) n ≠ _
  unfold migrate
  refine bind_ne_error h ?_
  rintro ⟨remaining, t⟩ _
  refine bind_ne_error ?_ fun _ _ => pure_ne_error
  rw [ne_eq, check_eq_error]
  rintro ⟨_, heq⟩
  exact hnothing heq.symm

theorem migrate_not_jams {e : Abort} (he : Jams e) {n : Nat} (hs : Underway s) :
    exec p env s (.action (.migrate n)) ≠ .error e := by
  refine migrate_ne_error (by rintro rfl; rcases he with he | he <;> simp at he) ?_
  change migrateFrom p env 6 _ n (s.migration.getD _) ≠ _
  rcases hs.stage with ⟨last, total, hcurrent, hmigrating⟩ | hmigrated
  · have hsame : SameFunds s (record s (.action (.migrate n))) := ⟨rfl, rfl, rfl⟩
    have hstart : Settling (record s (.action (.migrate n))) (.account last total) :=
      hsame.migrating hmigrating hmigrating.totals
    rw [hcurrent]
    exact migrateFrom_ne_error Settling
      (fun _ _ _ _ _ _ _ _ hstage hu => migrateStage_settling hstage hu)
      (fun _ _ _ _ _ hu => migrateStage_not_jams he hu) hstart
  · obtain ⟨m, hcurrent, hlt⟩ := (Option.any_eq_true _ _).mp hmigrated
    rw [decide_eq_true_eq] at hlt
    rw [hcurrent]
    refine migrateFrom_ne_error (fun _ m => 1 < migrationIndex m) (fun _ _ _ _ _ _ _ _ hstage hm => ?_)
      (fun _ _ _ _ _ hm => migrateStage_runs hm) hlt
    have hindex := migrateStage_index hstage
    exact ⟨fun _ => by omega, fun _ => lt_nextMigration (by omega)⟩

/-- A call of `migrate` has just begun with the accounts, and there are no pools. -/
def Begun (p : Platform) (s : State) : Prop :=
  (∃ s₀ env n, Reachable p (fun _ _ => True) s₀ ∧
    (∀ last total, s₀.migration ≠ some (.account last total)) ∧
    exec p env s₀ (.action (.migrate n)) = .ok s) ∧
  (∃ last total, s.migration = some (.account last total)) ∧ s.accounts.owned = .empty

theorem begun_underway (h : Begun p s) (hcovered : sumBalances s.accounts.user ≤ held s) :
    Underway s := by
  obtain ⟨⟨s₀, env, n, hreachable, hbefore, hexec⟩, ⟨last, total, hcurrent⟩, howned⟩ := h
  have hclean := reachable_clean hreachable
  have hpeopled := exec_peopled hclean hexec (reachable_peopled hreachable)
  refine ⟨hpeopled, (exec_steps hclean hexec).2, .inl ⟨last, total, hcurrent, ?_⟩⟩
  obtain ⟨huser, htotals⟩ := migrate_totals hexec (reachable_peopled hreachable).nobody
  refine ⟨hpeopled.nobody, ?_, hcovered, .inl howned⟩
  rw [huser]
  refine htotals (fun m hm => ?_) _ hcurrent
  cases m with
  | account last total => exact absurd hm (hbefore last total)
  | _ => trivial

theorem moves_underway {s₀ : State}
    (h : Relation.ReflTransGen (Move p fun s call => keepsSplit p s call = true) s₀ s)
    (hs : Underway s₀) : Underway s := by
  refine TransactionRuns.Machine.moves_preserve Underway (fun t t' hmove ht => ?_) h hs
  have hmove' : Move p (fun s call => keepsSplit p s call = true) t t' := hmove
  rcases move_cases hmove' with ⟨now, _, _, rfl⟩ | ⟨env, call, hkeeps, hexec⟩
  · refine ⟨ht.toPeopled.at now, ht.clean, ?_⟩
    rcases ht.stage with ⟨last, total, hcurrent, hs⟩ | hmigrated
    · exact .inl ⟨last, total, hcurrent, hs.nobody, hs.totals, hs.covered, hs.pools⟩
    · exact .inr hmigrated
  · exact exec_underway hkeeps hexec ht

/-- From the first account on, no migration fails at the end of the accounts, and there the master
pool and the accounts add up to what the contract holds, as long as nothing arrives between the
step that makes the master pool and the one that ends the stage. -/
theorem account_migration_ends {s₀ : State} (hbegun : Begun p s₀)
    (hcovered : sumBalances s₀.accounts.user ≤ held s₀)
    (hmoves : Relation.ReflTransGen (Move p fun s call => keepsSplit p s call = true) s₀ s)
    (n : Nat) :
    (∀ e, Jams e → exec p env s (.action (.migrate n)) ≠ .error e) ∧
      ∀ s', exec p env s (.action (.migrate n)) = .ok s' →
        isAccountMigrated s.migration = false → isAccountMigrated s'.migration = true →
        balanceOf s'.accounts.owned masterName + sumBalances s'.accounts.user = held s' := by
  have hs := moves_underway hmoves (begun_underway hbegun hcovered)
  refine ⟨fun e he => migrate_not_jams he hs, fun s' hexec hbefore hafter => ?_⟩
  obtain ⟨last, total, hcurrent, _⟩ | hdone := hs.stage
  · exact (migrate_underway hexec hs).2 last total hcurrent hafter
  · rw [hbefore] at hdone
    exact absurd hdone Bool.false_ne_true

/-- The migrations start over, and the account of alice is the first to be visited. -/
def begins : Option State :=
  (runFromGenesis host (fun _ _ => True) (halfMigrated.take 6)).bind fun s =>
    if s.migration = none then (exec host (signedBy alice) s (.action (.migrate 1))).toOption
    else none

theorem begins_begun (h : begins = some s)
    (hcurrent : s.migration = some (.account alice.name (eos 900)))
    (howned : s.accounts.owned = .empty) : Begun host s := by
  obtain ⟨s₀, hs₀, h⟩ := Option.bind_eq_some_iff.mp h
  split at h
  · rename_i hnone
    refine ⟨⟨s₀, signedBy alice, 1, reachable_of_run hs₀, ?_, step_of_toOption h⟩,
      ⟨alice.name, eos 900, hcurrent⟩, howned⟩
    intro last total hsome
    rw [hnone] at hsome
    exact absurd hsome (by simp)
  · exact absurd h (by simp)

/-- The master pool is made, and then alice pays in. -/
def depositsMeanwhile : List (Env × Call) :=
  [(signedBy alice, .action (.migrate 2)),
    (signedBy alice, .transfer alice.name host.self (eos 5) [])]

theorem account_migration_of_alice_ends :
    ∃ s₀ s s', Begun host s₀ ∧ sumBalances s₀.accounts.user ≤ held s₀ ∧
      Relation.ReflTransGen (Move host fun s call => keepsSplit host s call = true) s₀ s ∧
      exec host (signedBy alice) s (.action (.migrate 3)) = .ok s' ∧
      isAccountMigrated s.migration = false ∧ isAccountMigrated s'.migration = true ∧
      balanceOf s'.accounts.owned masterName + sumBalances s'.accounts.user = held s' := by
  have hrun : begins.any (fun s₀ =>
      decide (s₀.migration = some (.account alice.name (eos 900))) &&
        decide (s₀.accounts.owned = .empty) &&
        decide (sumBalances s₀.accounts.user ≤ held s₀) &&
        (runCalls host (fun s call => keepsSplit host s call = true) s₀ depositsMeanwhile).any
          fun s => !isAccountMigrated s.migration &&
            (exec host (signedBy alice) s (.action (.migrate 3))).toOption.any
              fun s' => isAccountMigrated s'.migration) = true := by
    decide +kernel
  obtain ⟨s₀, hs₀, hstate⟩ := (Option.any_eq_true _ _).mp hrun
  simp only [Bool.and_eq_true, decide_eq_true_eq] at hstate
  obtain ⟨⟨⟨hcurrent, howned⟩, hcovered⟩, hrest⟩ := hstate
  obtain ⟨s, hs, hrest⟩ := (Option.any_eq_true _ _).mp hrest
  simp only [Bool.and_eq_true, Bool.not_eq_true'] at hrest
  obtain ⟨s', hs', hafter⟩ := (Option.any_eq_true _ _).mp hrest.2
  have hbegun := begins_begun hs₀ hcurrent howned
  obtain ⟨hallows, hcalls⟩ := runCalls_eq_some hs
  have hmoves := TransactionRuns.Machine.moves_of_foldlM hallows hcalls
  exact ⟨s₀, s, s', hbegun, hcovered, hmoves, step_of_toOption hs', hrest.1, hafter,
    (account_migration_ends hbegun hcovered hmoves 3).2 s' (step_of_toOption hs') hrest.1 hafter⟩

/-- The error that a call ends with. -/
def errorOf {ε α : Type} : Except ε α → Option ε
  | .error e => some e
  | .ok _ => none

theorem eq_error_of_errorOf {ε α : Type} {x : Except ε α} {e : ε} (h : errorOf x = some e) :
    x = .error e := by
  cases x with
  | error e' => exact congrArg Except.error (Option.some.inj h)
  | ok a => cases h

/-- A donation that arrives after the master pool is made is neither in it nor in any account. -/
theorem account_migration_jams :
    ∃ s₀ s₁ s₂, Begun host s₀ ∧ sumBalances s₀.accounts.user ≤ held s₀ ∧
      exec host (signedBy alice) s₀ (.action (.migrate 2)) = .ok s₁ ∧
      exec host (signedBy alice) s₁ (.transfer alice.name host.self (eos 5) donateMemo) = .ok s₂ ∧
      exec host (signedBy alice) s₂ (.action (.migrate 1)) = .error (.check "Incorrect balance") := by
  have hrun : begins.any (fun s₀ =>
      decide (s₀.migration = some (.account alice.name (eos 900))) &&
        decide (s₀.accounts.owned = .empty) &&
        decide (sumBalances s₀.accounts.user ≤ held s₀) &&
        (exec host (signedBy alice) s₀ (.action (.migrate 2))).toOption.any fun s₁ =>
          (exec host (signedBy alice) s₁
              (.transfer alice.name host.self (eos 5) donateMemo)).toOption.any fun s₂ =>
            decide (errorOf (exec host (signedBy alice) s₂ (.action (.migrate 1))) =
              some (.check "Incorrect balance"))) = true := by
    decide +kernel
  obtain ⟨s₀, hs₀, hstate⟩ := (Option.any_eq_true _ _).mp hrun
  simp only [Bool.and_eq_true, decide_eq_true_eq] at hstate
  obtain ⟨⟨⟨hcurrent, howned⟩, hcovered⟩, hrest⟩ := hstate
  obtain ⟨s₁, hs₁, hrest⟩ := (Option.any_eq_true _ _).mp hrest
  obtain ⟨s₂, hs₂, hrest⟩ := (Option.any_eq_true _ _).mp hrest
  refine ⟨s₀, s₁, s₂, begins_begun hs₀ hcurrent howned, hcovered, step_of_toOption hs₁,
    step_of_toOption hs₂, eq_error_of_errorOf (of_decide_eq_true hrest)⟩

end Eden.MasterMigration
