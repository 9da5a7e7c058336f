import Eden.InductionTables

/-!
Auctions of the contract's assets and the migrations of its tables.
-/

namespace Eden.Maintenance

open Eden.ExceptReasoning
open Eden.SortedTable
open Eden.ChainPrimitives
open Eden.ContractState
open Eden.Runtime
open Eden.AccountTables

/-! ### `auctions` -/

/-- `sha256` of an asset id, as the market computes the key of its index. -/
def assetKey (p : Platform) (assetId : Nat) : Checksum :=
  p.sha256 (littleEndianBytes 8 assetId)

/-- The index `byassets` of the market from a key on. -/
def marketFrom (market : List MarketAuction) (key : Checksum) : List MarketAuction :=
  (market.insertionSort fun a b => bigEndian a.byAssets ≤ bigEndian b.byAssets).dropWhile
    fun a => bigEndian a.byAssets < bigEndian key

/-- The search for the contract's auction of an asset. It looks at a row before it compares the
iterator with the end. -/
def searchMarket (p : Platform) (assetId : Nat) : List MarketAuction →
    Outcome (Option MarketAuction)
  | [] => .error (.undefined "byassets.end()")
  | a :: rest =>
      if a.assetIds ≠ [assetId] then return none
      else if a.seller = p.self then return some a
      else searchMarket p assetId rest

/-- One turn of `finish_auctions`. -/
def finishAuction (p : Platform) (env : Env) (s : State) (auction : Auction) : Outcome State := do
  let currentTime := secOfTimePoint (toTimePoint s.now)
  let found ← searchMarket p auction.assetId
    (marketFrom env.market (assetKey p auction.assetId))
  let erased := { s with auctions := s.auctions.erase auction.assetId }
  match found with
  | none => return erased
  | some a =>
      if a.claimedBySeller then return erased
      else if a.endTime < currentTime then
        if a.currentBidder ≠ emptyName then return perform erased (.auctclaimsel a.auctionId)
        else return perform erased (.cancelauct a.auctionId)
      else return { s with
        auctions := s.auctions.replace { auction with lastKnownEndTime := a.endTime } }

/-- The loop of `finish_auctions` over the auctions in the order of their ends. -/
def finishAuctionsFrom (p : Platform) (env : Env) : List Auction → (maxSteps : Nat) → State →
    Outcome (Nat × State)
  | [], maxSteps, s => return (maxSteps, s)
  | _ :: _, 0, s => return (0, s)
  | auction :: rest, maxSteps + 1, s =>
      if auction.lastKnownEndTime < secOfTimePoint (toTimePoint s.now) then do
        finishAuctionsFrom p env rest maxSteps (← finishAuction p env s auction)
      else return (maxSteps + 1, s)

def finishAuctions (p : Platform) (env : Env) (s : State) (maxSteps : Nat) :
    Outcome (Nat × State) :=
  finishAuctionsFrom p env (s.auctions.index Auction.lastKnownEndTime) maxSteps s

/-! ### `migrations` -/

/-- The index of the current alternative of the variant. -/
def migrationIndex : Migration → Nat
  | .auction _ => 0
  | .account _ _ => 1
  | .none0 => 2
  | .member _ => 3
  | .none1 => 4
  | .fixInductdonateExpirationCheck => 5

/-- `is_completed<migrate_account_v0>` -/
def isAccountMigrated (m : Option Migration) : Bool := m.any fun m => 1 < migrationIndex m

/-- `migrate_account_v0::adjust_balance`, when that migration is the current one. -/
def adjustBalance (m : Option Migration) (owner : Name) (amount : Asset) :
    Outcome (Option Migration) :=
  match m with
  | some (.account lastVisited userTotal) =>
      if owner ≤ lastVisited then do
        return some (.account lastVisited (← userTotal.add amount))
      else return m
  | _ => return m

/-- `migrations::on_rename` -/
def checkNoMigration (m : Option Migration) : Outcome Unit :=
  match m with
  | some (.auction _) | some (.account _ _) | some (.member _) =>
      .error (.check "Cannot rename account while a migration is in progress")
  | _ => return ()

/-- `migrate_auction_v0::migrate_some` over the market's auctions not yet visited. -/
def migrateAuctions (p : Platform) : List MarketAuction → (maxSteps : Nat) → (lastId : Nat) →
    State → Outcome (Nat × Nat × State)
  | [], maxSteps, lastId, s => return (maxSteps, lastId, s)
  | _ :: _, 0, lastId, s => return (0, lastId, s)
  | a :: rest, maxSteps + 1, _, s => do
      let s ← (match a.assetIds with
        | [assetId] =>
            if a.seller = p.self ∧ s.auctions.find? assetId = none then do
              let auctions ← expect (s.auctions.emplace? ⟨assetId, a.endTime⟩) .duplicateKey
              return { s with auctions := auctions }
            else return s
        | _ => return s : Outcome State)
      migrateAuctions p rest maxSteps a.auctionId s

/-- The loop of `migrate_account_v0::migrate_some`: the steps left, the last account and the total
of the accounts up to it. The step that finds the end of the table is not counted. -/
def sumAccounts : List Account → (maxSteps : Nat) → Name → Asset → Outcome (Nat × Name × Asset)
  | [], maxSteps, lastVisited, total => return (maxSteps, lastVisited, total)
  | _ :: _, 0, lastVisited, total => return (0, lastVisited, total)
  | a :: rest, maxSteps + 1, _, total => do
      sumAccounts rest maxSteps a.owner (← total.add a.balance)

/-- The end of `migrate_account_v0::migrate_some`: what users do not own goes to the master
pool. -/
def migrateMaster (g : Globals) (s : State) (maxSteps : Nat) (userTotal : Asset) :
    Outcome (Nat × State) := do
  let totalBalance ← (match s.tokens.find? g.defaultToken.code with
    | some balance => .ok balance
    | none => asset 0 g.defaultToken : Outcome Asset)
  check (← totalBalance.ge userTotal) "Invariant failure: not enough funds to cover user balances"
  if ← totalBalance.eq userTotal then return (maxSteps, s)
  else do
    let rest ← totalBalance.sub userTotal
    match s.accounts.owned.find? masterName with
    | none => do
        let owned ← expect (s.accounts.owned.emplace? ⟨masterName, rest⟩) .duplicateKey
        return (maxSteps - 1, { s with accounts := { s.accounts with owned := owned } })
    | some row => do
        check (← row.balance.eq rest) "Incorrect balance"
        return (maxSteps, s)

/-- `migrate_account_v0::migrate_some` -/
def migrateAccounts (s : State) (maxSteps : Nat) (lastVisited : Name) (userTotal : Asset) :
    Outcome (Nat × Migration × State) := do
  let g ← getGlobals s
  let userTotal ← (if userTotal.symbol = ⟨0, 0⟩ then asset 0 g.defaultToken else .ok userTotal :
    Outcome Asset)
  let (maxSteps, lastVisited, userTotal) ← sumAccounts (s.accounts.user.above lastVisited) maxSteps
    lastVisited userTotal
  if maxSteps = 0 then return (0, .account lastVisited userTotal, s)
  else do
    let (maxSteps, s) ← migrateMaster g s maxSteps userTotal
    return (maxSteps, .account lastVisited userTotal, s)

/-- `migrate_member_v0::migrate_some`: rows get their entry in the index `byrep`. -/
def migrateMembers (s : State) (maxSteps nextPrimaryKey : Nat) : Nat × Migration × State :=
  let rows := (s.members.table.rows.filter fun m => nextPrimaryKey ≤ m.account).take maxSteps
  let next := (rows.getLast?.map fun m => (m.account + 1) % 2 ^ 64).getD nextPrimaryKey
  let table := rows.foldl
    (fun (table : Table Member.account) m => table.replace { m with inByRep := true })
    s.members.table
  (maxSteps - rows.length, .member next, { s with members := { s.members with table := table } })

/-- One migration: the steps left, its state and the tables. -/
def migrateStage (p : Platform) (env : Env) (s : State) (maxSteps : Nat) :
    Migration → Outcome (Nat × Migration × State)
  | .auction lastId => do
      let _ ← getGlobals s
      let rows := env.market.filter fun a => lastId < a.auctionId
      let (maxSteps, lastId, s) ← migrateAuctions p rows maxSteps lastId s
      return (maxSteps, .auction lastId, s)
  | .account lastVisited userTotal => migrateAccounts s maxSteps lastVisited userTotal
  | .member nextPrimaryKey => return migrateMembers s maxSteps nextPrimaryKey
  | m => return (maxSteps, m, s)

/-- The alternative after one. -/
def nextMigration : Migration → Migration
  | .auction _ => .account emptyName ⟨0, ⟨0, 0⟩⟩
  | .account _ _ => .none0
  | .none0 => .member 0
  | .member _ => .none1
  | _ => .fixInductdonateExpirationCheck

/-- The loop of `migrate_some`; a turn that leaves steps goes on to the next of six stages. -/
def migrateFrom (p : Platform) (env : Env) : (fuel : Nat) → State → (maxSteps : Nat) →
    Migration → Outcome (Nat × State)
  | 0, s, maxSteps, m => return (maxSteps, { s with migration := some m })
  | fuel + 1, s, maxSteps, m =>
      if maxSteps = 0 ∨ migrationIndex m = 5 then
        return (maxSteps, { s with migration := some m })
      else do
        let (maxSteps, m', s) ← migrateStage p env s maxSteps m
        if maxSteps = 0 then migrateFrom p env fuel s 0 m'
        else
          let s := emit p s (.migration (migrationIndex m))
          migrateFrom p env fuel s maxSteps (nextMigration m')

def migrateSome (p : Platform) (env : Env) (s : State) (maxSteps : Nat) :
    Outcome (Nat × State) :=
  migrateFrom p env 6 s maxSteps (s.migration.getD (.auction 0))

/-! ### What the functions change -/

theorem finishAuction_eq_ok {p : Platform} {env : Env} {s s' : State} {auction : Auction}
    (h : finishAuction p env s auction = .ok s') :
    ∃ o auctions, Quiet s.output o ∧ s' = { s with output := o, auctions := auctions } := by
  simp only [finishAuction, bind_eq_ok] at h
  obtain ⟨found, _, h⟩ := h
  split at h
  · simp only [pure_eq_ok] at h
    exact ⟨s.output, _, Quiet.refl _, h.symm⟩
  · split at h
    · simp only [pure_eq_ok] at h
      exact ⟨s.output, _, Quiet.refl _, h.symm⟩
    · split at h
      · split at h
        · simp only [pure_eq_ok] at h
          exact ⟨_, _, Quiet.sendAction s.output _, h.symm⟩
        · simp only [pure_eq_ok] at h
          exact ⟨_, _, Quiet.sendAction s.output _, h.symm⟩
      · simp only [pure_eq_ok] at h
        exact ⟨s.output, _, Quiet.refl _, h.symm⟩

theorem finishAuctions_eq_ok {p : Platform} {env : Env} {s s' : State} {maxSteps remaining : Nat}
    (h : finishAuctions p env s maxSteps = .ok (remaining, s')) :
    ∃ o auctions, Quiet s.output o ∧ s' = { s with output := o, auctions := auctions } := by
  unfold finishAuctions at h
  generalize s.auctions.index Auction.lastKnownEndTime = rows at h
  fun_induction finishAuctionsFrom p env rows maxSteps s with
  | case1 maxSteps s =>
      simp only [pure_eq_ok, Prod.mk.injEq] at h
      exact ⟨s.output, s.auctions, Quiet.refl _, h.2.symm⟩
  | case2 auction rest s =>
      simp only [pure_eq_ok, Prod.mk.injEq] at h
      exact ⟨s.output, s.auctions, Quiet.refl _, h.2.symm⟩
  | case3 auction rest maxSteps s _ ih =>
      simp only [bind_eq_ok] at h
      obtain ⟨t, ht, h⟩ := h
      obtain ⟨o, auctions, hquiet, rfl⟩ := finishAuction_eq_ok ht
      obtain ⟨o', auctions', hquiet', heq⟩ := ih _ h
      exact ⟨o', auctions', hquiet.trans hquiet', heq⟩
  | case4 auction rest maxSteps s _ =>
      simp only [pure_eq_ok, Prod.mk.injEq] at h
      exact ⟨s.output, s.auctions, Quiet.refl _, h.2.symm⟩

/-- No check fails in `finish_auctions`. -/
theorem finishAuctions_ne_check {p : Platform} {env : Env} {s : State} {maxSteps : Nat}
    {message : String} : finishAuctions p env s maxSteps ≠ .error (.check message) := by
  have hsearch : ∀ assetId rows, searchMarket p assetId rows ≠ .error (.check message) := by
    intro assetId rows
    induction rows with
    | nil => simp [searchMarket]
    | cons a rest ih =>
        unfold searchMarket
        split
        · exact pure_ne_error
        · split
          · exact pure_ne_error
          · exact ih
  have hauction : ∀ s auction, finishAuction p env s auction ≠ .error (.check message) := by
    intro s auction
    refine bind_ne_error (hsearch _ _) fun found _ => ?_
    split
    · exact pure_ne_error
    · split
      · exact pure_ne_error
      · split
        · split <;> exact pure_ne_error
        · exact pure_ne_error
  unfold finishAuctions
  generalize s.auctions.index Auction.lastKnownEndTime = rows
  fun_induction finishAuctionsFrom p env rows maxSteps s with
  | case1 => exact pure_ne_error
  | case2 => exact pure_ne_error
  | case3 auction rest maxSteps s _ ih => exact bind_ne_error (hauction s auction) fun t _ => ih t
  | case4 => exact pure_ne_error

/-- Rows with an entry in the index `byrep` in place of rows of the table. -/
def indexed (table : Table Member.account) (rows : List Member) : Table Member.account :=
  rows.foldl (fun (table : Table Member.account) m => table.replace { m with inByRep := true })
    table

/-- What a migration writes, with no new debts of the pools and no amount out of range. -/
structure Migrated (s s' : State) : Prop where
  state : ∃ owned rows auctions o, Quiet s.output o ∧
    (s.globals = none → owned = s.accounts.owned) ∧
    (∀ row ∈ owned.rows, row ∈ s.accounts.owned.rows ∨
      (0 ≤ row.balance.amount ∧ row.balance.amount ≤ maxAmount)) ∧
    (∀ m ∈ rows, m ∈ s.members.table.rows) ∧
    s' = { s with
      accounts := { s.accounts with owned := owned }
      members := { s.members with table := indexed s.members.table rows }
      auctions := auctions
      output := o }

theorem migrateAuctions_eq_ok {p : Platform} {rows : List MarketAuction}
    {maxSteps lastId : Nat} {s s' : State} {remaining lastId' : Nat}
    (h : migrateAuctions p rows maxSteps lastId s = .ok (remaining, lastId', s')) :
    ∃ auctions, s' = { s with auctions := auctions } := by
  fun_induction migrateAuctions p rows maxSteps lastId s with
  | case1 maxSteps lastId s =>
      simp only [pure_eq_ok, Prod.mk.injEq] at h
      exact ⟨s.auctions, h.2.2.symm⟩
  | case2 a rest lastId s =>
      simp only [pure_eq_ok, Prod.mk.injEq] at h
      exact ⟨s.auctions, h.2.2.symm⟩
  | case3 a rest maxSteps lastId s ih =>
      simp only [bind_eq_ok] at h
      obtain ⟨t, ht, h⟩ := h
      have hauctions : ∃ auctions, t = { s with auctions := auctions } := by
        split at ht
        · split at ht
          · simp only [bind_eq_ok, pure_eq_ok] at ht
            obtain ⟨auctions, _, rfl⟩ := ht
            exact ⟨auctions, rfl⟩
          · simp only [pure_eq_ok] at ht
            exact ⟨s.auctions, ht.symm⟩
        · simp only [pure_eq_ok] at ht
          exact ⟨s.auctions, ht.symm⟩
      obtain ⟨auctions, rfl⟩ := hauctions
      obtain ⟨auctions', rfl⟩ := ih _ h
      exact ⟨auctions', rfl⟩

/-- The master pool gets what is left of the tokens, which is no debt. -/
theorem migrateMaster_eq_ok {g : Globals} {s s' : State} {maxSteps remaining : Nat}
    {userTotal : Asset} (h : migrateMaster g s maxSteps userTotal = .ok (remaining, s')) :
    ∃ owned, (∀ row ∈ owned.rows, row ∈ s.accounts.owned.rows ∨
        (0 ≤ row.balance.amount ∧ row.balance.amount ≤ maxAmount)) ∧
      s' = { s with accounts := { s.accounts with owned := owned } } := by
  have hsame : ∀ row ∈ s.accounts.owned.rows,
      row ∈ s.accounts.owned.rows ∨ (0 ≤ row.balance.amount ∧ row.balance.amount ≤ maxAmount) :=
    fun _ hrow => .inl hrow
  simp only [migrateMaster, bind_eq_ok, check_eq_ok, exists_const, Asset.ge_eq_ok,
    Asset.eq_eq_ok] at h
  obtain ⟨total, _, _, ⟨_, rfl⟩, hge, _, ⟨_, rfl⟩, h⟩ := h
  split at h
  · simp only [pure_eq_ok, Prod.mk.injEq] at h
    exact ⟨s.accounts.owned, hsame, h.2.symm⟩
  · simp only [bind_eq_ok, Asset.sub_eq_ok] at h
    obtain ⟨rest, ⟨_, _, hmax, rfl⟩, h⟩ := h
    split at h
    · simp only [bind_eq_ok, expect_eq_ok, pure_eq_ok, Prod.mk.injEq] at h
      obtain ⟨owned, hemplace, _, rfl⟩ := h
      refine ⟨owned, ?_, rfl⟩
      intro row hrow
      rcases (Table.mem_emplace? hemplace).mp hrow with rfl | hrow
      · rw [decide_eq_true_eq] at hge
        exact .inr ⟨Int.sub_nonneg_of_le hge, hmax⟩
      · exact .inl hrow
    · simp only [bind_eq_ok, check_eq_ok, exists_const, pure_eq_ok, Prod.mk.injEq] at h
      obtain ⟨_, _, _, _, rfl⟩ := h
      exact ⟨s.accounts.owned, hsame, rfl⟩

theorem migrateStage_eq_ok {p : Platform} {env : Env} {s s' : State} {maxSteps remaining : Nat}
    {m m' : Migration} (h : migrateStage p env s maxSteps m = .ok (remaining, m', s')) :
    Migrated s s' := by
  have hsame : ∀ row ∈ s.accounts.owned.rows,
      row ∈ s.accounts.owned.rows ∨ (0 ≤ row.balance.amount ∧ row.balance.amount ≤ maxAmount) :=
    fun _ hrow => .inl hrow
  unfold migrateStage at h
  split at h
  · simp only [bind_eq_ok, pure_eq_ok, Prod.mk.injEq] at h
    obtain ⟨_, _, ⟨_, _, t⟩, ht, _, _, rfl⟩ := h
    obtain ⟨auctions, rfl⟩ := migrateAuctions_eq_ok ht
    exact ⟨_, [], auctions, s.output, Quiet.refl _, fun _ => rfl, hsame, by simp, rfl⟩
  · simp only [migrateAccounts, bind_eq_ok] at h
    obtain ⟨g, hg, total, _, ⟨steps, last, total'⟩, _, h⟩ := h
    rw [getGlobals_eq_ok] at hg
    split at h
    · simp only [pure_eq_ok, Prod.mk.injEq] at h
      exact ⟨_, [], s.auctions, s.output, Quiet.refl _, fun _ => rfl, hsame, by simp,
        h.2.2.symm⟩
    · simp only [bind_eq_ok, pure_eq_ok, Prod.mk.injEq] at h
      obtain ⟨⟨_, t⟩, ht, _, _, rfl⟩ := h
      obtain ⟨owned, howned, rfl⟩ := migrateMaster_eq_ok ht
      refine ⟨owned, [], s.auctions, s.output, Quiet.refl _, ?_, howned, by simp, rfl⟩
      intro hnone
      simp [hnone] at hg
  · rename_i next
    simp only [migrateMembers, pure_eq_ok, Prod.mk.injEq] at h
    obtain ⟨_, _, rfl⟩ := h
    refine ⟨_, (s.members.table.rows.filter fun m => next ≤ m.account).take maxSteps, s.auctions,
      s.output, Quiet.refl _, fun _ => rfl, hsame, ?_, rfl⟩
    intro m hm
    exact (List.mem_filter.mp (List.mem_of_mem_take hm)).1
  · simp only [pure_eq_ok, Prod.mk.injEq] at h
    exact ⟨_, [], s.auctions, s.output, Quiet.refl _, fun _ => rfl, hsame, by simp, h.2.2.symm⟩

end Eden.Maintenance
