import Eden.MasterMigration

/-!
The steps that the migrations have left: what each stage takes, and where a call of `migrate`
stops.
-/

namespace Eden.MigrationSteps

open Eden.ExceptReasoning
open Eden.SortedTable
open Eden.ChainPrimitives
open Eden.ContractState
open Eden.Runtime
open Eden.AccountTables
open Eden.MemberTable
open Eden.Maintenance
open Eden.ContractActions
open Eden.Transactions
open Eden.ActionSteps
open Eden.MigrationStages
open Eden.AccountMigration
open Eden.MasterMigration

variable {p : Platform} {env : Env} {s s' : State}

/-! ### Rows left after a visit -/

section Visits

variable {α : Type} {f : α → Nat} {xs : List α}

/-- The rows past the last one visited are the others, if all rows past a row in question are in
question. -/
theorem filter_visited {q : α → Bool} (h : xs.Pairwise fun a b => f a < f b)
    (hq : ∀ a b, q a = true → f a < f b → q b = true) {n : Nat} {b : α}
    (hb : ((xs.filter q).take n).getLast? = some b) :
    (xs.filter fun a => f b < f a) = (xs.filter q).drop n := by
  have hbq : q b = true := (List.mem_filter.mp (List.mem_of_mem_take (List.mem_of_getLast? hb))).2
  have hsorted : (xs.filter q).Pairwise fun a b => f a < f b := h.filter _
  have hkeep : (xs.filter fun a => f b < f a) = (xs.filter q).filter fun a => f b < f a := by
    rw [List.filter_filter]
    apply List.filter_congr
    intro a _
    by_cases hlt : f b < f a
    · simp [hlt, hq b a hbq hlt]
    · simp [hlt]
  obtain ⟨l, hl⟩ := List.getLast?_eq_some_iff.mp hb
  have happend := List.take_append_drop n (xs.filter q)
  rw [hkeep]
  rw [hl] at happend
  rw [← happend] at hsorted
  rw [List.pairwise_append, List.pairwise_append] at hsorted
  have hvisited : (l ++ [b]).filter (fun a => f b < f a) = [] := by
    rw [List.filter_eq_nil_iff]
    intro a ha
    rcases List.mem_append.mp ha with ha | ha
    · have hab := hsorted.1.2.2 a ha b List.mem_cons_self
      simp only [decide_eq_true_eq]
      omega
    · rw [List.mem_singleton.mp ha]
      simp
  have hothers : ((xs.filter q).drop n).filter (fun a => f b < f a) = (xs.filter q).drop n := by
    rw [List.filter_eq_self]
    intro a ha
    simpa using hsorted.2.2 b (by simp) a ha
  conv_lhs => rw [← happend]
  rw [List.filter_append, hvisited, hothers, List.nil_append]

theorem length_visited {k : Nat} (h : xs.Pairwise fun a b => f a < f b) (n : Nat) :
    (xs.filter fun a => (((xs.filter fun a => k < f a).take n).getLast?.map f).getD k < f a).length =
      (xs.filter fun a => k < f a).length - n := by
  cases hlast : ((xs.filter fun a => k < f a).take n).getLast? with
  | none =>
      rw [List.getLast?_eq_none_iff, List.take_eq_nil_iff] at hlast
      rw [Option.map_none, Option.getD_none]
      rcases hlast with rfl | hnil
      · rfl
      · rw [hnil]
        exact (Nat.zero_sub n).symm
  | some b =>
      rw [Option.map_some, Option.getD_some, filter_visited h _ hlast, List.length_drop]
      intro a b ha hab
      rw [decide_eq_true_eq] at ha ⊢
      exact ha.trans hab

end Visits

/-! ### What is left -/

/-- The total with which `migrate_account_v0::migrate_some` starts. -/
def startTotal (g : Globals) (total : Asset) : Outcome Asset :=
  if total.symbol = ⟨0, 0⟩ then asset 0 g.defaultToken else .ok total

/-- Add the balances of accounts to a total. -/
def addAll (total : Asset) (rows : List Account) : Outcome Asset :=
  rows.foldlM (fun total a => total.add a.balance) total

/-- The contract's balance of its token. -/
def contractBalance (g : Globals) (s : State) : Outcome Asset :=
  match s.tokens.find? g.defaultToken.code with
  | some balance => .ok balance
  | none => asset 0 g.defaultToken

/-- The contract's tokens cover what users own, and a master pool that is there owns the rest. -/
def Covers (g : Globals) (s : State) (userTotal : Asset) : Prop :=
  ∃ balance, contractBalance g s = .ok balance ∧ balance.symbol = userTotal.symbol ∧
    userTotal.amount ≤ balance.amount ∧
    (balance.amount ≠ userTotal.amount → ∃ rest, balance.sub userTotal = .ok rest ∧
      ∀ row, s.accounts.owned.find? masterName = some row → row.balance = rest)

/-- What the visited accounts own, as the total says, and what the others own adds up. -/
def Adds (s : State) (last : Name) (total : Asset) : Prop :=
  ∃ g first userTotal, s.globals = some g ∧ startTotal g total = .ok first ∧
    addAll first (s.accounts.user.above last) = .ok userTotal ∧ Covers g s userTotal

/-- The total of no account, without a symbol yet. -/
def noTotal : Asset := ⟨0, ⟨0, 0⟩⟩

/-- No check of a migration fails. -/
def Clear (s : State) : Migration → Prop
  | .auction _ => Adds s emptyName noTotal
  | .account last total => Adds s last total
  | _ => True

/-- The step that makes the master pool, when there is something for it. -/
def masterSteps (s : State) (userTotal : Int) : Nat :=
  if s.accounts.owned.find? masterName = none ∧ held s ≠ userTotal then 1 else 0

theorem masterSteps_le (s : State) (userTotal : Int) : masterSteps s userTotal ≤ 1 := by
  unfold masterSteps
  split <;> omega

/-- The steps of the account migration. -/
def accountSteps (s : State) (last : Name) (total : Asset) : Nat :=
  (s.accounts.user.above last).length +
    masterSteps s ((if total.symbol = ⟨0, 0⟩ then 0 else total.amount) +
      ((s.accounts.user.above last).map fun a => a.balance.amount).sum)

/-- The steps that are left before the last stage. -/
def stepsLeft (env : Env) (s : State) : Migration → Nat
  | .auction lastId => (env.market.filter fun a => lastId < a.auctionId).length +
      (accountSteps s emptyName noTotal + s.members.table.rows.length)
  | .account last total => accountSteps s last total + s.members.table.rows.length
  | .none0 => s.members.table.rows.length
  | .member next => (s.members.table.rows.filter fun m => next ≤ m.account).length
  | _ => 0

/-! ### Auctions -/

theorem migrateAuctions_runs (rows : List MarketAuction) (n lastId : Nat) (s : State) :
    ∃ auctions, migrateAuctions p rows n lastId s = .ok (n - rows.length,
      ((rows.take n).getLast?.map MarketAuction.auctionId).getD lastId,
      { s with auctions := auctions }) := by
  induction rows generalizing n lastId s with
  | nil =>
      refine ⟨s.auctions, ?_⟩
      rw [migrateAuctions, pure_eq_ok]
      simp
  | cons a rest ih =>
      cases n with
      | zero =>
          refine ⟨s.auctions, ?_⟩
          rw [migrateAuctions, pure_eq_ok]
          simp
      | succ n =>
          have hlast : (((a :: rest).take (n + 1)).getLast?.map MarketAuction.auctionId).getD lastId =
              ((rest.take n).getLast?.map MarketAuction.auctionId).getD a.auctionId := by
            rw [List.take_succ_cons, List.getLast?_cons]
            cases (rest.take n).getLast? <;> rfl
          rw [migrateAuctions, hlast, List.length_cons, Nat.add_sub_add_right]
          simp only [bind_eq_ok]
          have hskip : ∃ auctions, ∃ t, (pure s : Outcome State) = .ok t ∧
              migrateAuctions p rest n a.auctionId t = .ok (n - rest.length,
                ((rest.take n).getLast?.map MarketAuction.auctionId).getD a.auctionId,
                { s with auctions := auctions }) := by
            obtain ⟨auctions, hrest⟩ := ih n a.auctionId s
            exact ⟨auctions, s, rfl, hrest⟩
          split
          · split
            · rename_i assetId _ hnew
              obtain ⟨auctions, hauctions⟩ :=
                Table.emplace?_isSome (a := (⟨assetId, a.endTime⟩ : Auction)) hnew.2
              obtain ⟨auctions', hrest⟩ := ih n a.auctionId { s with auctions := auctions }
              refine ⟨auctions', _, ?_, hrest⟩
              rw [hauctions]
              rfl
            · exact hskip
          · exact hskip

/-- A turn on the auctions visits the next ones. -/
theorem migrateAuctions_steps {market : List MarketAuction}
    (hmarket : market.Pairwise fun a b => a.auctionId < b.auctionId) (n lastId : Nat) (s : State) :
    ∃ last' auctions, migrateAuctions p (market.filter fun a => lastId < a.auctionId) n lastId s =
        .ok (n - (market.filter fun a => lastId < a.auctionId).length, last',
          { s with auctions := auctions }) ∧
      (market.filter fun a => last' < a.auctionId).length =
        (market.filter fun a => lastId < a.auctionId).length - n := by
  obtain ⟨auctions, hrun⟩ := migrateAuctions_runs (p := p)
    (market.filter fun a => lastId < a.auctionId) n lastId s
  exact ⟨_, auctions, hrun, length_visited hmarket n⟩

/-! ### Accounts -/

theorem startTotal_of_symbol {g : Globals} {total : Asset} (h : total.symbol ≠ ⟨0, 0⟩) :
    startTotal g total = .ok total := if_neg h

theorem startTotal_eq_ok {g : Globals} {total first : Asset} (h : startTotal g total = .ok first) :
    first.symbol ≠ ⟨0, 0⟩ ∧
      first.amount = if total.symbol = ⟨0, 0⟩ then 0 else total.amount := by
  obtain ⟨hsymbol, ⟨hnone, hamount⟩ | ⟨hsome, rfl⟩⟩ := emptyName_of_symbol h
  · exact ⟨hsymbol, by rw [hamount, if_pos hnone]⟩
  · exact ⟨hsymbol, (if_neg hsome).symm⟩

theorem addAll_eq_ok {first total : Asset} {rows : List Account}
    (h : addAll first rows = .ok total) :
    total.symbol = first.symbol ∧
      total.amount = first.amount + (rows.map fun a => a.balance.amount).sum := by
  induction rows generalizing first with
  | nil =>
      simp only [addAll, List.foldlM_nil, pure_eq_ok] at h
      simp [h]
  | cons a rows ih =>
      rw [addAll, List.foldlM_cons, bind_eq_ok] at h
      obtain ⟨next, hnext, h⟩ := h
      obtain ⟨_, _, _, rfl⟩ := Asset.add_eq_ok.mp hnext
      obtain ⟨hsymbol, hamount⟩ := ih h
      refine ⟨hsymbol, ?_⟩
      rw [hamount, List.map_cons, List.sum_cons]
      simp only
      ring

/-- The loop over the accounts leaves the rest of the sum. -/
theorem sumAccounts_addAll {rows : List Account} {n remaining : Nat} {last last' : Name}
    {first total : Asset} (h : sumAccounts rows n last first = .ok (remaining, last', total)) :
    addAll total (rows.drop n) = addAll first rows := by
  fun_induction sumAccounts rows n last first with
  | case1 n last total' =>
      rw [pure_eq_ok, Prod.mk.injEq, Prod.mk.injEq] at h
      rw [h.2.2, List.drop_nil]
  | case2 a rest last total' =>
      rw [pure_eq_ok, Prod.mk.injEq, Prod.mk.injEq] at h
      rw [h.2.2, List.drop_zero]
  | case3 a rest n last total' ih =>
      rw [bind_eq_ok] at h
      obtain ⟨next, hnext, h⟩ := h
      rw [List.drop_succ_cons, ih _ h, addAll, addAll, List.foldlM_cons, hnext]
      rfl

theorem sumAccounts_runs {rows : List Account} {first userTotal : Asset}
    (h : addAll first rows = .ok userTotal) (n : Nat) (last : Name) :
    ∃ result, sumAccounts rows n last first = .ok result := by
  fun_induction sumAccounts rows n last first with
  | case1 n last first => exact ⟨_, rfl⟩
  | case2 a rest last first => exact ⟨_, rfl⟩
  | case3 a rest n last first ih =>
      rw [addAll, List.foldlM_cons, bind_eq_ok] at h
      obtain ⟨next, hnext, h⟩ := h
      obtain ⟨result, hresult⟩ := ih next h
      exact ⟨result, bind_eq_ok.mpr ⟨next, hnext, hresult⟩⟩

theorem asset_ext {a b : Asset} (hamount : a.amount = b.amount) (hsymbol : a.symbol = b.symbol) :
    a = b := by
  cases a
  cases b
  rw [Asset.mk.injEq]
  exact ⟨hamount, hsymbol⟩

/-- The end of the accounts takes the step that makes the master pool, once. -/
theorem migrateMaster_covers {g : Globals} {n remaining : Nat} {userTotal : Asset}
    (h : migrateMaster g s n userTotal = .ok (remaining, s')) (hg : s.globals = some g) :
    Covers g s userTotal ∧ Covers g s' userTotal ∧
      remaining = n - masterSteps s userTotal.amount ∧ masterSteps s' userTotal.amount = 0 := by
  simp only [migrateMaster, bind_eq_ok, check_eq_ok, exists_const, Asset.ge_eq_ok,
    Asset.eq_eq_ok] at h
  obtain ⟨balance, hbalance, _, ⟨hsymbol, rfl⟩, hge, _, ⟨_, rfl⟩, h⟩ := h
  rw [decide_eq_true_eq] at hge
  have hheld := held_of_total hg hbalance
  split at h
  · rename_i heq
    rw [decide_eq_true_eq] at heq
    rw [pure_eq_ok, Prod.mk.injEq] at h
    obtain ⟨rfl, rfl⟩ := h
    have hcovers : Covers g s userTotal :=
      ⟨balance, hbalance, hsymbol, hge, fun hne => absurd heq hne⟩
    have hsteps : masterSteps s userTotal.amount = 0 := by
      rw [masterSteps, if_neg]
      rintro ⟨_, hne⟩
      exact hne (hheld.trans heq)
    exact ⟨hcovers, hcovers, by rw [hsteps, Nat.sub_zero], hsteps⟩
  · rename_i hne
    rw [decide_eq_true_eq] at hne
    rw [bind_eq_ok] at h
    obtain ⟨rest, hrest, h⟩ := h
    split at h
    · rename_i hnone
      simp only [bind_eq_ok, expect_eq_ok, pure_eq_ok, Prod.mk.injEq] at h
      obtain ⟨owned, hemplace, rfl, rfl⟩ := h
      have hfound : owned.find? masterName = some ⟨masterName, rest⟩ := by
        rw [Table.find?_emplace? hemplace]
        exact if_pos rfl
      refine ⟨⟨balance, hbalance, hsymbol, hge, fun _ => ⟨rest, hrest, ?_⟩⟩,
        ⟨balance, hbalance, hsymbol, hge, fun _ => ⟨rest, hrest, ?_⟩⟩, ?_, ?_⟩
      · intro row hrow
        rw [hnone] at hrow
        exact absurd hrow (by simp)
      · intro row hrow
        simp only at hrow
        rw [hfound, Option.some.injEq] at hrow
        rw [← hrow]
      · rw [masterSteps, if_pos ⟨hnone, fun heq => hne (hheld.symm.trans heq)⟩]
      · rw [masterSteps, if_neg]
        rintro ⟨hnone', _⟩
        simp only at hnone'
        rw [hfound] at hnone'
        exact absurd hnone' (by simp)
    · rename_i row hrow
      simp only [bind_eq_ok, check_eq_ok, exists_const, pure_eq_ok, Prod.mk.injEq,
        Asset.eq_eq_ok] at h
      obtain ⟨_, ⟨hsame, rfl⟩, hequal, rfl, rfl⟩ := h
      rw [decide_eq_true_eq] at hequal
      have hcovers : Covers g s userTotal := by
        refine ⟨balance, hbalance, hsymbol, hge, fun _ => ⟨rest, hrest, ?_⟩⟩
        intro row' hrow'
        rw [hrow, Option.some.injEq] at hrow'
        subst hrow'
        exact asset_ext hequal hsame
      have hsteps : masterSteps s userTotal.amount = 0 := by
        rw [masterSteps, if_neg]
        rintro ⟨hnone, _⟩
        rw [hrow] at hnone
        exact absurd hnone (by simp)
      exact ⟨hcovers, hcovers, by rw [hsteps, Nat.sub_zero], hsteps⟩

theorem migrateMaster_runs {g : Globals} {userTotal : Asset} (h : Covers g s userTotal) (n : Nat) :
    ∃ result, migrateMaster g s n userTotal = .ok result := by
  obtain ⟨balance, hbalance, hsymbol, hge, hrest⟩ := h
  have hbalance' : (match s.tokens.find? g.defaultToken.code with
      | some balance => .ok balance
      | none => asset 0 g.defaultToken : Outcome Asset) = .ok balance := hbalance
  simp only [migrateMaster, bind_eq_ok, check_eq_ok, exists_const, Asset.ge_eq_ok, Asset.eq_eq_ok]
  by_cases heq : balance.amount = userTotal.amount
  · refine ⟨(n, s), balance, hbalance', _, ⟨hsymbol, rfl⟩, decide_eq_true hge, _, ⟨hsymbol, rfl⟩, ?_⟩
    rw [if_pos (decide_eq_true heq)]
    rfl
  · obtain ⟨rest, hrest, hrow⟩ := hrest heq
    cases hfound : s.accounts.owned.find? masterName with
    | none =>
        obtain ⟨owned, howned⟩ :=
          Table.emplace?_isSome (a := (⟨masterName, rest⟩ : Account)) hfound
        refine ⟨(n - 1, { s with accounts := { s.accounts with owned := owned } }), balance,
          hbalance', _, ⟨hsymbol, rfl⟩, decide_eq_true hge, _, ⟨hsymbol, rfl⟩, ?_⟩
        rw [if_neg (by simpa using heq), hrest]
        simp only [ok_bind, howned]
        rfl
    | some row =>
        refine ⟨(n, s), balance, hbalance', _, ⟨hsymbol, rfl⟩, decide_eq_true hge, _,
          ⟨hsymbol, rfl⟩, ?_⟩
        rw [if_neg (by simpa using heq), hrest]
        have hsame : row.balance.eq rest = .ok true := by
          rw [Asset.eq_eq_ok, hrow row hfound]
          simp
        simp only [ok_bind, hsame]
        rfl

theorem accountSteps_eq {g : Globals} {last : Name} {total first userTotal : Asset}
    (hfirst : startTotal g total = .ok first)
    (htotal : addAll first (s.accounts.user.above last) = .ok userTotal) :
    accountSteps s last total =
      (s.accounts.user.above last).length + masterSteps s userTotal.amount := by
  rw [accountSteps, (addAll_eq_ok htotal).2, (startTotal_eq_ok hfirst).2]

/-- A turn on the accounts leaves the rest of the sum. -/
theorem migrateAccounts_addAll {n remaining : Nat} {last : Name} {total : Asset} {m : Migration}
    (h : migrateAccounts s n last total = .ok (remaining, m, s')) :
    ∃ g first last' total', s.globals = some g ∧ startTotal g total = .ok first ∧
      m = .account last' total' ∧ total'.symbol = first.symbol ∧
      s.accounts.user.above last' = (s.accounts.user.above last).drop n ∧
      addAll total' (s.accounts.user.above last') = addAll first (s.accounts.user.above last) ∧
      ((n ≤ (s.accounts.user.above last).length ∧ remaining = 0 ∧ s' = s) ∨
        ((s.accounts.user.above last).length < n ∧
          migrateMaster g s (n - (s.accounts.user.above last).length) total' =
            .ok (remaining, s'))) := by
  simp only [migrateAccounts, bind_eq_ok, getGlobals_eq_ok] at h
  obtain ⟨g, hg, first, hfirst, ⟨steps, last', total'⟩, hsum, h⟩ := h
  obtain ⟨hsteps, habove, hsymbol, _⟩ := sumAccounts_eq_ok rfl hsum
  refine ⟨g, first, last', total', hg, hfirst, ?_⟩
  have hrest := sumAccounts_addAll hsum
  rw [← habove] at hrest
  simp only at h
  split at h
  · rename_i hzero
    rw [pure_eq_ok, Prod.mk.injEq, Prod.mk.injEq] at h
    obtain ⟨rfl, rfl, rfl⟩ := h
    exact ⟨rfl, hsymbol, habove, hrest, .inl ⟨by omega, rfl, rfl⟩⟩
  · rename_i hne
    simp only [bind_eq_ok, pure_eq_ok, Prod.mk.injEq] at h
    obtain ⟨⟨r, t⟩, hmaster, rfl, rfl, rfl⟩ := h
    rw [hsteps] at hmaster hne
    exact ⟨rfl, hsymbol, habove, hrest, .inr ⟨by omega, hmaster⟩⟩

theorem migrateAccounts_runs {last : Name} {total : Asset} (h : Adds s last total) (n : Nat) :
    ∃ result, migrateAccounts s n last total = .ok result := by
  obtain ⟨g, first, userTotal, hg, hfirst, htotal, hcovers⟩ := h
  obtain ⟨⟨steps, last', total'⟩, hsum⟩ := sumAccounts_runs htotal n last
  obtain ⟨hsteps, habove, _, _⟩ := sumAccounts_eq_ok rfl hsum
  have hrest := sumAccounts_addAll hsum
  have hstart : (if total.symbol = ⟨0, 0⟩ then asset 0 g.defaultToken else .ok total) = .ok first :=
    hfirst
  have hrun : ∃ result, (if steps = 0 then return (0, .account last' total', s)
      else migrateMaster g s steps total' >>= fun r => return (r.1, .account last' total', r.2) :
        Outcome (Nat × Migration × State)) = .ok result := by
    split
    · exact ⟨_, rfl⟩
    · rename_i hne
      rw [List.drop_eq_nil_of_le (by omega), htotal] at hrest
      have hlast : total' = userTotal := pure_eq_ok.mp hrest
      obtain ⟨result, hresult⟩ := migrateMaster_runs hcovers steps
      exact ⟨(result.1, .account last' total', result.2), bind_eq_ok.mpr ⟨result, hlast ▸ hresult, rfl⟩⟩
  obtain ⟨result, hresult⟩ := hrun
  refine ⟨result, ?_⟩
  simp only [migrateAccounts, bind_eq_ok, getGlobals_eq_ok]
  exact ⟨g, hg, first, hstart, _, hsum, hresult⟩

/-- A turn on accounts that add up takes the steps that they have left. -/
theorem migrateAccounts_steps {n remaining : Nat} {last : Name} {total : Asset} {m : Migration}
    (h : migrateAccounts s n last total = .ok (remaining, m, s')) (hadds : Adds s last total) :
    ∃ last' total', m = .account last' total' ∧
      remaining = n - accountSteps s last total ∧ Adds s' last' total' ∧
      accountSteps s' last' total' = accountSteps s last total - n ∧
      s'.members = s.members := by
  obtain ⟨g, first, userTotal, hg, hfirst, htotal, hcovers⟩ := hadds
  obtain ⟨g', first', last', total', hg', hfirst', rfl, hsymbol, habove, hrest, hcases⟩ :=
    migrateAccounts_addAll h
  obtain rfl : g' = g := by rwa [hg, Option.some.injEq, eq_comm] at hg'
  obtain rfl : first' = first := by rwa [hfirst, Except.ok.injEq, eq_comm] at hfirst'
  have hstart : startTotal g' total' = .ok total' :=
    startTotal_of_symbol (hsymbol ▸ (startTotal_eq_ok hfirst).1)
  rw [accountSteps_eq hfirst htotal]
  rw [htotal] at hrest
  refine ⟨last', total', rfl, ?_⟩
  rcases hcases with ⟨hle, rfl, rfl⟩ | ⟨hlt, hmaster⟩
  · refine ⟨by omega, ⟨g', total', userTotal, hg, hstart, hrest, hcovers⟩, ?_⟩
    rw [accountSteps_eq hstart hrest, habove, List.length_drop]
    exact ⟨by omega, rfl⟩
  · have hnone : s.accounts.user.above last' = [] := by
      rw [habove, List.drop_eq_nil_of_le (le_of_lt hlt)]
    rw [hnone] at hrest
    obtain rfl : total' = userTotal := pure_eq_ok.mp hrest
    obtain ⟨_, hcovers', hremaining, hsteps⟩ := migrateMaster_covers hmaster hg
    obtain ⟨owned, rfl⟩ := migrateMaster_keeps hmaster
    refine ⟨by omega, ⟨g', total', total', hg, hstart, hnone ▸ hrest, hcovers'⟩, ?_⟩
    have honce := masterSteps_le s total'.amount
    rw [accountSteps_eq hstart (hnone ▸ hrest), hsteps]
    simp only [hnone, List.length_nil]
    exact ⟨by omega, trivial⟩

/-- A turn on accounts that do not add up leaves no steps. -/
theorem migrateAccounts_stuck {n remaining : Nat} {last : Name} {total : Asset} {m : Migration}
    (h : migrateAccounts s n last total = .ok (remaining, m, s')) (hadds : ¬ Adds s last total) :
    remaining = 0 ∧ ∃ last' total', m = .account last' total' ∧ ¬ Adds s' last' total' := by
  obtain ⟨g, first, last', total', hg, hfirst, rfl, hsymbol, habove, hrest, hcases⟩ :=
    migrateAccounts_addAll h
  rcases hcases with ⟨_, rfl, rfl⟩ | ⟨hlt, hmaster⟩
  · refine ⟨rfl, last', total', rfl, ?_⟩
    rintro ⟨g', first', userTotal, hg', hfirst', htotal, hcovers⟩
    obtain rfl : g = g' := by rwa [hg, Option.some.injEq] at hg'
    rw [startTotal_of_symbol (hsymbol ▸ (startTotal_eq_ok hfirst).1), Except.ok.injEq] at hfirst'
    subst hfirst'
    exact hadds ⟨g, first, userTotal, hg, hfirst, hrest ▸ htotal, hcovers⟩
  · rw [habove, List.drop_eq_nil_of_le (le_of_lt hlt)] at hrest
    exact absurd ⟨g, first, total', hg, hfirst, hrest.symm, (migrateMaster_covers hmaster hg).1⟩ hadds

/-! ### Members -/

/-- The names of all members. -/
def memberNames (s : State) : List Nat := s.members.table.rows.map Member.account

/-- The visit of the last name there is starts the migration of members over. -/
def StartsOver (s : State) : Prop := 2 ^ 64 - 1 ∈ memberNames s

instance (s : State) : Decidable (StartsOver s) := inferInstanceAs (Decidable (_ ∈ _))

theorem memberNames_indexed {t : Table Member.account} {rows : List Member}
    (hrows : ∀ m ∈ rows, m ∈ t.rows) :
    (indexed t rows).rows.map Member.account = t.rows.map Member.account := by
  have hcore := congrArg (List.map Member.account) (map_core_indexed hrows)
  rwa [List.map_map, List.map_map] at hcore

theorem length_from (t : Table Member.account) (next : Name) :
    (t.rows.filter fun m => next ≤ m.account).length =
      ((t.rows.map Member.account).filter fun a => next ≤ a).length := by
  rw [List.filter_map, List.length_map]
  rfl

/-- A turn on the members visits the next ones, and starts over after the last name there is. -/
theorem migrateMembers_steps {n remaining next : Nat} {m : Migration}
    (h : migrateMembers s n next = (remaining, m, s')) (hn : 0 < n)
    (hnames : ∀ a ∈ memberNames s, a < 2 ^ 64) :
    ∃ next', m = .member next' ∧ memberNames s' = memberNames s ∧
      remaining = n - stepsLeft env s (.member next) ∧
      (n ≤ stepsLeft env s (.member next) → stepsLeft env s' (.member next') =
        if n = stepsLeft env s (.member next) ∧ StartsOver s then s.members.table.rows.length
        else stepsLeft env s (.member next) - n) := by
  simp only [migrateMembers, Prod.mk.injEq] at h
  obtain ⟨rfl, rfl, rfl⟩ := h
  have hkeys : memberNames { s with members := { s.members with
      table := indexed s.members.table
        ((s.members.table.rows.filter fun m => next ≤ m.account).take n) } } = memberNames s :=
    memberNames_indexed fun m hm => (List.mem_filter.mp (List.mem_of_mem_take hm)).1
  refine ⟨_, rfl, hkeys, ?_, fun hle => ?_⟩
  · rw [stepsLeft, List.length_take]
    omega
  have hleft : ∀ k, stepsLeft env { s with members := { s.members with
      table := indexed s.members.table
        ((s.members.table.rows.filter fun m => next ≤ m.account).take n) } } (.member k) =
      (s.members.table.rows.filter fun m => k ≤ m.account).length := by
    intro k
    rw [stepsLeft, length_from, length_from]
    exact congrArg (fun l => (l.filter fun a => decide (k ≤ a)).length) hkeys
  refine (hleft _).trans ?_
  rw [stepsLeft] at hle ⊢
  cases hlast : ((s.members.table.rows.filter fun m => next ≤ m.account).take n).getLast? with
  | none =>
      rw [List.getLast?_eq_none_iff, List.take_eq_nil_iff] at hlast
      rcases hlast with hzero | hnil
      · omega
      · rw [hnil, List.length_nil] at hle
        omega
  | some b =>
      have hb := List.mem_filter.mp (List.mem_of_mem_take (List.mem_of_getLast? hlast))
      have hbound := hnames b.account (List.mem_map_of_mem hb.1)
      have hnext := of_decide_eq_true hb.2
      have hrest := filter_visited s.members.table.sorted
        (fun a c ha hac => by
          rw [decide_eq_true_eq] at ha ⊢
          exact ha.trans hac.le) hlast
      rw [Option.map_some, Option.getD_some]
      by_cases hend : b.account = 2 ^ 64 - 1
      · have hnone : (s.members.table.rows.filter fun m => b.account < m.account) = [] := by
          rw [List.filter_eq_nil_iff]
          intro c hc
          have hc' := hnames c.account (List.mem_map_of_mem hc)
          rw [decide_eq_true_eq, hend]
          exact Nat.not_lt.mpr (by omega)
        rw [hnone, eq_comm, List.drop_eq_nil_iff] at hrest
        have hover : StartsOver s := by
          rw [StartsOver, ← hend]
          exact List.mem_map_of_mem hb.1
        rw [hend, if_pos ⟨by omega, hover⟩]
        simp
      · have hsucc : b.account + 1 < 2 ^ 64 := 
          Nat.lt_of_le_of_ne hbound fun heq => hend (Nat.eq_sub_of_add_eq heq)
        rw [Nat.mod_eq_of_lt hsucc]
        change (s.members.table.rows.filter fun m => b.account < m.account).length = _
        rw [hrest, List.length_drop, if_neg]
        rintro ⟨hall, hover⟩
        obtain ⟨c, hc, hlastName⟩ := List.mem_map.mp hover
        rw [List.drop_eq_nil_of_le hall.ge, List.filter_eq_nil_iff] at hrest
        have hbc := hrest c hc
        rw [decide_eq_true_eq, hlastName] at hbc
        exact hbc (Nat.lt_of_le_of_ne (by omega) hend)

/-! ### All stages -/

/-- The steps left after some of them are taken. -/
def leftAfter (env : Env) (s : State) (m : Migration) (n : Nat) : Nat :=
  if n = stepsLeft env s m ∧ StartsOver s then s.members.table.rows.length
  else stepsLeft env s m - n

theorem length_memberNames (s : State) :
    (memberNames s).length = s.members.table.rows.length := List.length_map _

theorem StartsOver.length_pos (h : StartsOver s) : 0 < s.members.table.rows.length := by
  rw [← length_memberNames]
  exact List.length_pos_of_mem h

theorem leftAfter_congr {m m' : Migration} {n n' : Nat} (hkeys : memberNames s' = memberNames s)
    (h : n + stepsLeft env s m' = n' + stepsLeft env s' m) :
    leftAfter env s' m n = leftAfter env s m' n' := by
  have hover : StartsOver s' ↔ StartsOver s := by rw [StartsOver, hkeys, StartsOver]
  have hlength : s'.members.table.rows.length = s.members.table.rows.length := by
    rw [← length_memberNames, hkeys, length_memberNames]
  have hall : n = stepsLeft env s' m ↔ n' = stepsLeft env s m' := by omega
  unfold leftAfter
  rw [hlength]
  split
  · rename_i hleft
    rw [if_pos ⟨hall.mp hleft.1, hover.mp hleft.2⟩]
  · rename_i hleft
    rw [if_neg fun hright => hleft ⟨hall.mpr hright.1, hover.mpr hright.2⟩]
    omega

/-- Within one stage the members are still to come. -/
theorem leftAfter_of_lt {m : Migration} {n here : Nat}
    (h : stepsLeft env s m = here + s.members.table.rows.length) (hn : n ≤ here) :
    leftAfter env s m n = here - n + s.members.table.rows.length := by
  rw [leftAfter, h, if_neg]
  · omega
  · rintro ⟨heq, hover⟩
    have hpos := hover.length_pos
    omega

/-- A turn of a stage takes its steps, and leaves the rest of them to the next stage. -/
theorem migrateStage_steps {n : Nat} {m : Migration}
    (hmarket : env.market.Pairwise fun a b => a.auctionId < b.auctionId)
    (hnames : ∀ a ∈ memberNames s, a < 2 ^ 64) (hclear : Clear s m) (hm : migrationIndex m ≠ 5)
    (hn : 0 < n) :
    ∃ r m' s', migrateStage p env s n m = .ok (r, m', s') ∧ memberNames s' = memberNames s ∧
      (r = 0 → n ≤ stepsLeft env s m ∧ Clear s' m' ∧
        stepsLeft env s' m' = leftAfter env s m n) ∧
      (r ≠ 0 → Clear s' (nextMigration m') ∧
        r + stepsLeft env s m = n + stepsLeft env s' (nextMigration m')) := by
  cases m with
  | auction lastId =>
      obtain ⟨g, hg⟩ : ∃ g, s.globals = some g := by
        obtain ⟨g, _, _, hg, _⟩ := hclear
        exact ⟨g, hg⟩
      obtain ⟨last', auctions, hrun, hvisited⟩ :=
        migrateAuctions_steps (p := p) hmarket n lastId s
      refine ⟨n - (env.market.filter fun a => lastId < a.auctionId).length, .auction last',
        { s with auctions := auctions }, ?_, rfl, ?_, ?_⟩
      · simp only [migrateStage, bind_eq_ok, getGlobals_eq_ok, pure_eq_ok]
        exact ⟨g, hg, _, hrun, rfl⟩
      · intro hzero
        have hhere : stepsLeft env s (.auction lastId) =
            ((env.market.filter fun a => lastId < a.auctionId).length +
              accountSteps s emptyName noTotal) + s.members.table.rows.length :=
          (Nat.add_assoc _ _ _).symm
        refine ⟨by omega, hclear, ?_⟩
        rw [leftAfter_of_lt hhere (by omega), stepsLeft, hvisited]
        change _ + (accountSteps s emptyName noTotal + s.members.table.rows.length) = _
        omega
      · intro hne
        refine ⟨hclear, ?_⟩
        change _ + (_ + (accountSteps s emptyName noTotal + s.members.table.rows.length)) =
          n + (accountSteps s emptyName noTotal + s.members.table.rows.length)
        omega
  | account last total =>
      obtain ⟨⟨r, m', s'⟩, hrun⟩ := migrateAccounts_runs hclear n
      obtain ⟨last', total', rfl, hr, hadds, hsteps, hmembers⟩ := migrateAccounts_steps hrun hclear
      have hnames' : memberNames s' = memberNames s := by rw [memberNames, hmembers, memberNames]
      refine ⟨r, _, s', hrun, hnames', ?_, ?_⟩
      · intro hzero
        have hhere : stepsLeft env s (.account last total) =
            accountSteps s last total + s.members.table.rows.length := rfl
        refine ⟨by omega, hadds, ?_⟩
        rw [leftAfter_of_lt hhere (by omega), stepsLeft, hsteps, hmembers]
      · intro hne
        refine ⟨trivial, ?_⟩
        rw [nextMigration, stepsLeft, stepsLeft, hmembers]
        omega
  | none0 =>
      refine ⟨n, .none0, s, rfl, rfl, fun hzero => absurd hzero hn.ne', fun _ => ⟨trivial, ?_⟩⟩
      rw [nextMigration, stepsLeft, stepsLeft, List.filter_eq_self.mpr (by simp)]
  | member next =>
      rcases hrun : migrateMembers s n next with ⟨r, m', s'⟩
      obtain ⟨next', rfl, hkeys, hr, hleft⟩ := @migrateMembers_steps env s s' n r next m' hrun hn hnames
      refine ⟨r, _, s', congrArg Except.ok hrun, hkeys, ?_, ?_⟩
      · intro hzero
        have hle : n ≤ stepsLeft env s (.member next) := by omega
        exact ⟨hle, trivial, hleft hle⟩
      · intro hne
        refine ⟨trivial, ?_⟩
        change r + _ = n + 0
        omega
  | none1 =>
      exact ⟨n, .none1, s, rfl, rfl, fun hzero => absurd hzero hn.ne', fun _ => ⟨trivial, rfl⟩⟩
  | fixInductdonateExpirationCheck => exact absurd rfl hm

theorem Clear.emitted {e : Event} {m : Migration} (h : Clear s m) : Clear (emit p s e) m := by
  cases m with
  | _ => exact h

theorem stepsLeft_emit (e : Event) (m : Migration) :
    stepsLeft env (emit p s e) m = stepsLeft env s m := by
  cases m with
  | _ => rfl

theorem migrateFrom_zero (fuel : Nat) (s : State) (m : Migration) :
    migrateFrom p env fuel s 0 m = .ok (0, { s with migration := some m }) := by
  cases fuel with
  | zero => rfl
  | succ fuel =>
      rw [migrateFrom, if_pos (.inl rfl)]
      rfl

/-- A call stops within a stage when it has no more steps than are left, and in the last stage when
it has more. -/
theorem migrateFrom_steps
    (hmarket : env.market.Pairwise fun a b => a.auctionId < b.auctionId) {fuel n : Nat}
    {m : Migration} (hnames : ∀ a ∈ memberNames s, a < 2 ^ 64) (hclear : Clear s m) (hn : 0 < n)
    (hfuel : 5 < fuel + migrationIndex m) :
    ∃ r t m', migrateFrom p env fuel s n m = .ok (r, { t with migration := some m' }) ∧
      memberNames t = memberNames s ∧ Clear t m' ∧
      ((n ≤ stepsLeft env s m ∧ r = 0 ∧ migrationIndex m' ≠ 5 ∧
          stepsLeft env t m' = leftAfter env s m n) ∨
        (stepsLeft env s m < n ∧ r = n - stepsLeft env s m ∧ migrationIndex m' = 5)) := by
  induction fuel generalizing s n m with
  | zero =>
      exact absurd hfuel (by cases m <;> simp [migrationIndex])
  | succ fuel ih =>
      by_cases hm : migrationIndex m = 5
      · have hlast : stepsLeft env s m = 0 := by
          cases m with
          | fixInductdonateExpirationCheck => rfl
          | _ => exact absurd hm (by simp [migrationIndex])
        refine ⟨n, s, m, ?_, rfl, hclear, .inr ⟨by omega, by omega, hm⟩⟩
        rw [migrateFrom, if_pos (.inr hm)]
        rfl
      · obtain ⟨r, m', s', hstage, hkeys, hzero, hleft⟩ :=
          migrateStage_steps (p := p) hmarket hnames hclear hm hn
        have hindex := migrateStage_index hstage
        have hrun : migrateFrom p env (fuel + 1) s n m =
            if r = 0 then migrateFrom p env fuel s' 0 m'
            else migrateFrom p env fuel (emit p s' (.migration (migrationIndex m))) r
              (nextMigration m') := by
          rw [migrateFrom, if_neg (by omega), hstage]
          rfl
        rw [hrun]
        by_cases hr : r = 0
        · obtain ⟨hle, hclear', hsteps⟩ := hzero hr
          rw [if_pos hr, migrateFrom_zero]
          exact ⟨0, s', m', rfl, hkeys, hclear', .inl ⟨hle, rfl, by omega, hsteps⟩⟩
        · obtain ⟨hclear', hsteps⟩ := hleft hr
          rw [if_neg hr]
          have hnext : migrationIndex (nextMigration m') = migrationIndex m' + 1 := by
            cases m' with
            | fixInductdonateExpirationCheck => exact absurd (hindex.symm.trans rfl) hm
            | _ => rfl
          obtain ⟨r', t, m'', hrest, hkeys', hclear'', hend⟩ :=
            ih (s := emit p s' (.migration (migrationIndex m))) (by rwa [show memberNames
              (emit p s' (.migration (migrationIndex m))) = memberNames s' from rfl, hkeys])
              hclear'.emitted (Nat.pos_of_ne_zero hr) (by omega)
          have hsame : memberNames (emit p s' (.migration (migrationIndex m))) = memberNames s := hkeys
          have hafter := @leftAfter_congr env s (emit p s' (.migration (migrationIndex m)))
            (nextMigration m') m r n hsame (by rw [stepsLeft_emit]; omega)
          rw [hafter, stepsLeft_emit] at hend
          refine ⟨r', t, m'', hrest, hkeys'.trans hkeys, hclear'', ?_⟩
          rcases hend with ⟨hle, hr', hm', hleft'⟩ | ⟨hlt, hr', hm'⟩
          · exact .inl ⟨by omega, hr', hm', hleft'⟩
          · exact .inr ⟨by omega, by omega, hm'⟩

/-! ### Accounts that do not add up -/

theorem migrateStage_stuck {n r : Nat} {m m' : Migration}
    (h : migrateStage p env s n m = .ok (r, m', s')) (hclear : ¬ Clear s m) :
    (r = 0 → ¬ Clear s' m') ∧
      (r ≠ 0 → ¬ Clear (emit p s' (.migration (migrationIndex m))) (nextMigration m')) := by
  cases m with
  | auction lastId =>
      simp only [migrateStage, bind_eq_ok, pure_eq_ok, Prod.mk.injEq] at h
      obtain ⟨_, _, ⟨_, last', t⟩, ht, rfl, rfl, rfl⟩ := h
      obtain ⟨auctions, rfl⟩ := migrateAuctions_eq_ok ht
      exact ⟨fun _ => hclear, fun _ => hclear⟩
  | account last total =>
      obtain ⟨hzero, last', total', rfl, hstuck⟩ := migrateAccounts_stuck h hclear
      exact ⟨fun _ => hstuck, fun hne => absurd hzero hne⟩
  | none0 | member | none1 | fixInductdonateExpirationCheck => exact absurd trivial hclear

/-- A loop that stops before the last stage has no more steps. -/
theorem migrateFrom_spent {fuel n r : Nat} {m : Migration}
    (h : migrateFrom p env fuel s n m = .ok (r, s')) (hfuel : 5 < fuel + migrationIndex m) :
    r = 0 ∨ s'.migration.map migrationIndex = some 5 := by
  induction fuel generalizing s n m with
  | zero => exact absurd hfuel (by cases m <;> simp [migrationIndex])
  | succ fuel ih =>
      rw [migrateFrom] at h
      split at h
      · rename_i hdone
        rw [pure_eq_ok, Prod.mk.injEq] at h
        obtain ⟨rfl, rfl⟩ := h
        exact hdone.imp_right (congrArg some)
      · rename_i hmore
        rw [not_or] at hmore
        rw [bind_eq_ok] at h
        obtain ⟨⟨steps, m', t⟩, hstage, h⟩ := h
        have hindex := migrateStage_index hstage
        simp only at h
        split at h
        · rw [migrateFrom_zero, Except.ok.injEq, Prod.mk.injEq] at h
          exact .inl h.1.symm
        · refine ih h ?_
          have hnext : migrationIndex (nextMigration m') = migrationIndex m' + 1 := by
            cases m' with
            | fixInductdonateExpirationCheck => exact absurd (hindex.symm.trans rfl) hmore.2
            | _ => rfl
          omega

theorem migrateMaster_error {e : Abort} {g : Globals} {n : Nat} {userTotal : Asset}
    (h : migrateMaster g s n userTotal = .error e) : e ∈ amountErrors ∨ Jams e := by
  by_contra hcontra
  rw [not_or] at hcontra
  obtain ⟨hamounts, hjams⟩ := hcontra
  refine absurd h ?_
  have hcompare := compare_ne_error hamounts
  have hchecks : ∀ c text, (text = "Incorrect balance" ∨
      text = "Invariant failure: not enough funds to cover user balances") →
      check c text ≠ .error e := by
    intro c text htext
    rw [ne_eq, check_eq_error]
    rintro ⟨_, rfl⟩
    exact hjams (htext.imp (congrArg _) (congrArg _))
  unfold migrateMaster
  refine bind_ne_error ?_ fun total _ => bind_ne_error (hcompare _ _).1 fun _ _ =>
    bind_ne_error (hchecks _ _ (.inr rfl)) fun _ _ => bind_ne_error (hcompare _ _).2 fun _ _ => ?_
  · split
    · simp
    · exact asset_ne_error hamounts
  · split
    · exact pure_ne_error
    · refine bind_ne_error (sub_ne_error hamounts) fun rest _ => ?_
      split
      · refine bind_ne_error ?_ fun _ _ => pure_ne_error
        rw [ne_eq, expect_eq_error]
        rintro ⟨_, rfl⟩
        simp [amountErrors] at hamounts
      · exact bind_ne_error (hcompare _ _).2 fun _ _ =>
          bind_ne_error (hchecks _ _ (.inl rfl)) fun _ _ => pure_ne_error

theorem migrateStage_error {e : Abort} {n : Nat} {m : Migration}
    (h : migrateStage p env s n m = .error e) : e ∈ amountErrors ∨ Jams e := by
  by_contra hcontra
  have hamounts := (not_or.mp hcontra).1
  refine absurd h ?_
  cases m with
  | auction lastId =>
      refine bind_ne_error (getGlobals_ne_error hamounts) fun _ _ => bind_ne_error ?_ fun _ _ =>
        pure_ne_error
      obtain ⟨auctions, hrun⟩ := migrateAuctions_runs (p := p)
        (env.market.filter fun a => lastId < a.auctionId) n lastId s
      rw [hrun]
      simp
  | account last total =>
      refine bind_ne_error (getGlobals_ne_error hamounts) fun g _ => bind_ne_error ?_ fun first _ =>
        bind_ne_error (sumAccounts_ne_error hamounts) fun result _ => ?_
      · split
        · exact asset_ne_error hamounts
        · simp
      · obtain ⟨steps, last', total'⟩ := result
        simp only
        split
        · exact pure_ne_error
        · exact bind_ne_error (fun hmaster => hcontra (migrateMaster_error hmaster)) fun _ _ =>
            pure_ne_error
  | member | none0 | none1 | fixInductdonateExpirationCheck => exact pure_ne_error

end Eden.MigrationSteps
