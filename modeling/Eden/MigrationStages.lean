import Eden.LedgerConservation

/-!
The migration of the accounts while users keep changing them: the sums it runs through, its
stages, and what each call does to the accounts of users.
-/

namespace Eden.MigrationStages

open Eden.ExceptReasoning
open Eden.SortedTable
open Eden.ChainPrimitives
open Eden.ContractState
open Eden.Runtime
open Eden.AccountTables
open Eden.ElectionPhases
open Eden.InductionTables
open Eden.MemberTable
open Eden.Maintenance
open Eden.ContractActions
open Eden.Transactions
open Eden.ContractSteps
open Eden.ActionSteps

variable {p : Platform} {env : Env} {call : Call}

/-! ### Sums up to an account -/

/-- An amount, unless its owner is past an account. -/
def upTo (last owner : Name) (amount : Int) : Int := if owner ≤ last then amount else 0

/-- The sum of the balances of all accounts up to one. -/
def sumUpTo (t : AccountTable) (last : Name) : Int :=
  t.total fun a => upTo last a.owner a.balance.amount

theorem sumUpTo_addBalance {t t' : AccountTable} {owner : Name} {quantity : Asset} {minimum : Bool}
    (h : addBalance t owner quantity minimum = .ok t') (last : Name) :
    sumUpTo t' last = sumUpTo t last + upTo last owner quantity.amount := by
  rcases addBalance_eq_ok h with ⟨_, hemplace⟩ | ⟨record, hrecord, _, rfl⟩
  · rw [sumUpTo, Table.total_emplace? hemplace, sumUpTo]
    exact Int.add_comm _ _
  · have howner : record.owner = owner := Table.key_of_find? hrecord
    rw [sumUpTo, Table.total_modify hrecord, sumUpTo, Table.total_erase hrecord]
    simp only [howner, upTo]
    split <;> ring

theorem sumUpTo_subBalance {t t' : AccountTable} {owner : Name} {quantity : Asset}
    (h : subBalance t owner quantity = .ok t') (last : Name) :
    sumUpTo t' last = sumUpTo t last - upTo last owner quantity.amount := by
  obtain ⟨record, hrecord, _, _, hcases⟩ := subBalance_eq_ok h
  have howner : record.owner = owner := Table.key_of_find? hrecord
  rcases hcases with ⟨hamount, rfl⟩ | ⟨_, rfl⟩
  · rw [sumUpTo, sumUpTo, Table.total_erase hrecord, howner, hamount]
    ring
  · rw [sumUpTo, Table.total_modify hrecord, sumUpTo, Table.total_erase hrecord]
    simp only [howner, upTo]
    split <;> ring

/-- Past the last account the sum is the sum of all balances. -/
theorem sumUpTo_of_above_nil {t : AccountTable} {last : Name} (h : t.above last = []) :
    sumUpTo t last = sumBalances t := by
  refine Table.total_congr fun a ha => ?_
  refine if_pos ?_
  by_contra hlt
  have habove : a ∈ t.above last := Table.mem_above.mpr ⟨ha, Nat.lt_of_not_le hlt⟩
  rw [h] at habove
  exact absurd habove List.not_mem_nil

/-- Nobody owns anything before the first account. -/
theorem sumUpTo_emptyName {t : AccountTable} (h : t.find? emptyName = none) :
    sumUpTo t emptyName = 0 := by
  have hzero : sumUpTo t emptyName = t.total fun _ => (0 : Int) := by
    refine Table.total_congr fun a ha => ?_
    refine if_neg fun hle => ?_
    exact Table.find?_eq_none.mp h a ha (Nat.le_zero.mp hle)
  rw [hzero]
  simp [Table.total]

/-- The sum up to the next account. -/
theorem sumUpTo_next {t : AccountTable} {last : Name} {a : Account} {rest : List Account}
    (h : t.above last = a :: rest) :
    sumUpTo t a.owner = sumUpTo t last + a.balance.amount := by
  obtain ⟨ha, hlt⟩ := Table.mem_above.mp (h ▸ List.mem_cons_self : a ∈ t.above last)
  have hrest := Table.above_of_above_cons h
  have hfound : t.find? a.owner = some a := Table.find?_of_mem ha
  have hsame : ((t.erase a.owner).total fun b => upTo a.owner b.owner b.balance.amount) =
      (t.erase a.owner).total fun b => upTo last b.owner b.balance.amount := by
    refine Table.total_congr fun b hb => ?_
    obtain ⟨hb, hne⟩ := Table.mem_erase.mp hb
    unfold upTo
    by_cases hle : b.owner ≤ last
    · rw [if_pos hle, if_pos (hle.trans (le_of_lt hlt))]
    · rw [if_neg hle, if_neg]
      have habove : b ∈ t.above last := Table.mem_above.mpr ⟨hb, Nat.lt_of_not_le hle⟩
      rw [h, List.mem_cons] at habove
      rcases habove with rfl | hmem
      · exact absurd rfl hne
      · rw [← hrest] at hmem
        exact Nat.not_le_of_lt (Table.mem_above.mp hmem).2
  rw [sumUpTo, sumUpTo, Table.total_erase hfound, hsame, Table.total_erase hfound]
  simp only [upTo, le_refl, if_true, if_neg (Nat.not_le_of_lt hlt)]
  ring

/-! ### The stages -/

/-- The loop over the accounts: it takes a step for each one, and its total grows with the sum up
to the last one. -/
theorem sumAccounts_eq_ok {t : AccountTable} {rows : List Account} {maxSteps remaining : Nat}
    {last last' : Name} {total total' : Asset} (hrows : t.above last = rows)
    (h : sumAccounts rows maxSteps last total = .ok (remaining, last', total')) :
    remaining = maxSteps - rows.length ∧ t.above last' = rows.drop maxSteps ∧
      total'.symbol = total.symbol ∧
      total'.amount + sumUpTo t last = total.amount + sumUpTo t last' := by
  fun_induction sumAccounts rows maxSteps last total with
  | case1 maxSteps last total =>
      rw [pure_eq_ok, Prod.mk.injEq, Prod.mk.injEq] at h
      obtain ⟨rfl, rfl, rfl⟩ := h
      exact ⟨rfl, by rw [hrows, List.drop_nil], rfl, rfl⟩
  | case2 a rest last total =>
      rw [pure_eq_ok, Prod.mk.injEq, Prod.mk.injEq] at h
      obtain ⟨rfl, rfl, rfl⟩ := h
      exact ⟨(Nat.zero_sub _).symm, hrows, rfl, rfl⟩
  | case3 a rest maxSteps last total ih =>
      rw [bind_eq_ok] at h
      obtain ⟨next, hnext, h⟩ := h
      obtain ⟨_, _, _, rfl⟩ := Asset.add_eq_ok.mp hnext
      obtain ⟨hremaining, habove, hsymbol, hsum⟩ := ih _ (Table.above_of_above_cons hrows) h
      have hstep := sumUpTo_next hrows
      refine ⟨?_, habove, hsymbol, ?_⟩
      · rw [hremaining, List.length_cons]
        omega
      · simp only at hsum
        omega

/-- The rule for what the turns of `migrate_some` keep. -/
theorem migrateFrom_preserves (Inv : State → Migration → Prop)
    (hstage : ∀ t n m r m' t', 0 < n → migrationIndex m ≠ 5 →
      migrateStage p env t n m = .ok (r, m', t') → Inv t m →
      (r = 0 → Inv t' m') ∧
        (r ≠ 0 → Inv (emit p t' (.migration (migrationIndex m))) (nextMigration m')))
    {fuel maxSteps remaining : Nat} {s s' : State} {m : Migration}
    (h : migrateFrom p env fuel s maxSteps m = .ok (remaining, s')) (hs : Inv s m) :
    ∃ t m', Inv t m' ∧ s' = { t with migration := some m' } := by
  fun_induction migrateFrom p env fuel s maxSteps m with
  | case1 s maxSteps m =>
      rw [pure_eq_ok, Prod.mk.injEq] at h
      exact ⟨s, m, hs, h.2.symm⟩
  | case2 fuel s maxSteps m hdone =>
      rw [pure_eq_ok, Prod.mk.injEq] at h
      exact ⟨s, m, hs, h.2.symm⟩
  | case3 fuel s maxSteps m hmore ih₁ ih₂ =>
      rw [bind_eq_ok] at h
      obtain ⟨⟨steps, m', t⟩, hrun, h⟩ := h
      rw [not_or] at hmore
      obtain ⟨hempty, hleft⟩ := hstage s maxSteps m steps m' t (Nat.pos_of_ne_zero hmore.1) hmore.2
        hrun hs
      simp only at h
      split at h
      · rename_i hzero
        exact ih₁ m' t h (hempty hzero)
      · rename_i hne
        exact ih₂ steps m' t h (hleft hne)

/-- No turn of `migrate_some` fails with an error that no stage fails with. -/
theorem migrateFrom_ne_error (Inv : State → Migration → Prop) {e : Abort}
    (hstage : ∀ t n m r m' t', 0 < n → migrationIndex m ≠ 5 →
      migrateStage p env t n m = .ok (r, m', t') → Inv t m →
      (r = 0 → Inv t' m') ∧
        (r ≠ 0 → Inv (emit p t' (.migration (migrationIndex m))) (nextMigration m')))
    (herror : ∀ t n m, 0 < n → migrationIndex m ≠ 5 → Inv t m →
      migrateStage p env t n m ≠ .error e)
    {fuel maxSteps : Nat} {s : State} {m : Migration} (hs : Inv s m) :
    migrateFrom p env fuel s maxSteps m ≠ .error e := by
  fun_induction migrateFrom p env fuel s maxSteps m with
  | case1 s maxSteps m => exact pure_ne_error
  | case2 fuel s maxSteps m hdone => exact pure_ne_error
  | case3 fuel s maxSteps m hmore ih₁ ih₂ =>
      rw [not_or] at hmore
      have hpos := Nat.pos_of_ne_zero hmore.1
      refine bind_ne_error (herror s maxSteps m hpos hmore.2 hs) ?_
      rintro ⟨steps, m', t⟩ hrun
      obtain ⟨hempty, hleft⟩ := hstage s maxSteps m steps m' t hpos hmore.2 hrun hs
      simp only
      split
      · rename_i hzero
        exact ih₁ m' t (hempty hzero)
      · rename_i hne
        exact ih₂ steps m' t (hleft hne)

/-- The accounts of users stay the same in a turn on the accounts, and the total grows with the
sum; the end of the table is found when steps are left. -/
theorem migrateAccounts_eq_ok {s s' : State} {maxSteps remaining : Nat} {last : Name}
    {total : Asset} {m : Migration}
    (h : migrateAccounts s maxSteps last total = .ok (remaining, m, s')) :
    ∃ g first last' total', s.globals = some g ∧
      (if total.symbol = ⟨0, 0⟩ then asset 0 g.defaultToken else .ok total) = .ok first ∧
      m = .account last' total' ∧ total'.symbol = first.symbol ∧
      total'.amount + sumUpTo s.accounts.user last =
        first.amount + sumUpTo s.accounts.user last' ∧
      s.accounts.user.above last' = (s.accounts.user.above last).drop maxSteps ∧
      ((maxSteps ≤ (s.accounts.user.above last).length ∧ remaining = 0 ∧ s' = s) ∨
        ((s.accounts.user.above last).length < maxSteps ∧
          migrateMaster g s (maxSteps - (s.accounts.user.above last).length) total' =
            .ok (remaining, s'))) := by
  simp only [migrateAccounts, bind_eq_ok, getGlobals_eq_ok] at h
  obtain ⟨g, hg, first, hfirst, ⟨steps, last', total'⟩, hsum, h⟩ := h
  obtain ⟨hsteps, habove, hsymbol, htotal⟩ := sumAccounts_eq_ok rfl hsum
  refine ⟨g, first, last', total', hg, hfirst, ?_⟩
  simp only at h
  split at h
  · rename_i hzero
    rw [pure_eq_ok, Prod.mk.injEq, Prod.mk.injEq] at h
    obtain ⟨rfl, rfl, rfl⟩ := h
    exact ⟨rfl, hsymbol, htotal, habove, .inl ⟨by omega, rfl, rfl⟩⟩
  · rename_i hne
    simp only [bind_eq_ok, pure_eq_ok, Prod.mk.injEq] at h
    obtain ⟨⟨r, t⟩, hmaster, rfl, rfl, rfl⟩ := h
    rw [hsteps] at hmaster hne
    exact ⟨rfl, hsymbol, htotal, habove, .inr ⟨by omega, hmaster⟩⟩

theorem migrateMaster_keeps {g : Globals} {s s' : State} {maxSteps remaining : Nat}
    {userTotal : Asset} (h : migrateMaster g s maxSteps userTotal = .ok (remaining, s')) :
    ∃ owned, s' = { s with accounts := { s.accounts with owned := owned } } := by
  obtain ⟨owned, _, heq⟩ := migrateMaster_eq_ok h
  exact ⟨owned, heq⟩

theorem migrate_eq_ok {s s' : State} {n : Nat}
    (h : exec p env s (.action (.migrate n)) = .ok s') :
    ∃ r t, migrateFrom p env 6 (record s (.action (.migrate n))) n
        (s.migration.getD (.auction 0)) = .ok (r, t) ∧ r ≠ n ∧
      s' = { t with output := sendEvents t.output } := by
  simp only [exec, applyAction, dispatch, migrate, migrateSome, bind_eq_ok, check_eq_ok,
    exists_const, decide_eq_true_eq, pure_eq_ok] at h
  obtain ⟨u, ⟨⟨r, t⟩, ht, hne, rfl⟩, rfl⟩ := h
  exact ⟨r, t, ht, hne, rfl⟩

end Eden.MigrationStages
