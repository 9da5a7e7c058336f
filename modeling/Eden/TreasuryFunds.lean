import Eden.ElectionPhases

/-!
What distributions do to the funds: amounts move between the master pool and the accounts of the
distributions, and each move is reported by an event.
-/

namespace Eden.TreasuryFunds

open Eden.ExceptReasoning
open Eden.SortedTable
open Eden.ChainPrimitives
open Eden.ContractState
open Eden.Runtime
open Eden.AccountTables
open Eden.MemberTable
open Eden.DistributionTables

/-- Sum of all distribution accounts. -/
def sumFunds (accounts : Table DistributionAccount.id) : Int :=
  accounts.total fun a => a.balance.amount

/-- The amount that an event moves from the master pool to the distributions. -/
def reserved : Executed → Int
  | .events [.distributionReserve _ _ amount] => amount.amount
  | .events [.distributionReturnExcess _ _ amount] => -amount.amount
  | .events [.distributionReturn _ _ _ amount _] => -amount.amount
  | _ => 0

/-- Entries for a single event about the funds of the master pool. -/
def ofMaster : Executed → Prop
  | .events [.distributionReserve _ pool _] => pool = masterName
  | .events [.distributionReturnExcess _ pool _] => pool = masterName
  | .events [.distributionReturn _ _ _ _ pool] => pool = masterName
  | _ => False

def reservedBy (es : List Executed) : Int := (es.map reserved).sum

/-- The master pool is the only one. -/
def MasterOnly (f : Treasury) : Prop := ∀ pool ∈ f.distributions.pools.rows, pool.name = masterName

/-- A change of the treasury: its events report all that moves between the master pool and the
accounts, and `inflow` comes from outside into the pool. -/
structure Shift (inflow : Int) (f f' : Treasury) : Prop where
  events : ∃ es, fundTrace f'.output = fundTrace f.output ++ es ∧ (∀ e ∈ es, ofMaster e) ∧
    sumFunds f'.distributions.accounts = sumFunds f.distributions.accounts + reservedBy es ∧
    balanceOf f'.owned masterName = balanceOf f.owned masterName - reservedBy es + inflow ∧
    sumBalances f'.owned = sumBalances f.owned - reservedBy es + inflow
  pools : MasterOnly f → MasterOnly f'

theorem Shift.refl (f : Treasury) : Shift 0 f f :=
  ⟨⟨[], by simp, by simp, by simp [reservedBy], by simp [reservedBy], by simp [reservedBy]⟩,
    fun h => h⟩

theorem Shift.trans {x y : Int} {f₁ f₂ f₃ : Treasury} (h₁ : Shift x f₁ f₂) (h₂ : Shift y f₂ f₃) :
    Shift (x + y) f₁ f₃ := by
  obtain ⟨⟨es₁, htrace₁, hmaster₁, hfunds₁, hpool₁, hsum₁⟩, hpools₁⟩ := h₁
  obtain ⟨⟨es₂, htrace₂, hmaster₂, hfunds₂, hpool₂, hsum₂⟩, hpools₂⟩ := h₂
  have hsplit : reservedBy (es₁ ++ es₂) = reservedBy es₁ + reservedBy es₂ := by
    simp [reservedBy]
  refine ⟨⟨es₁ ++ es₂, ?_, ?_, ?_, ?_, ?_⟩, fun h => hpools₂ (hpools₁ h)⟩
  · rw [htrace₂, htrace₁, List.append_assoc]
  · intro e he
    rcases List.mem_append.mp he with he | he
    · exact hmaster₁ e he
    · exact hmaster₂ e he
  · rw [hfunds₂, hfunds₁, hsplit]
    ring
  · rw [hpool₂, hpool₁, hsplit]
    ring
  · rw [hsum₂, hsum₁, hsplit]
    ring

/-- Changes without inflow, one after the other. -/
theorem Shift.comp {f₁ f₂ f₃ : Treasury} (h₁ : Shift 0 f₁ f₂) (h₂ : Shift 0 f₂ f₃) :
    Shift 0 f₁ f₃ := by
  have h := h₁.trans h₂
  rwa [Int.add_zero] at h

/-- A change of the distributions that no funds move in. -/
theorem Shift.of_quiet {f f' : Treasury} (howned : f'.owned = f.owned)
    (hfunds : sumFunds f'.distributions.accounts = sumFunds f.distributions.accounts)
    (hpools : f'.distributions.pools = f.distributions.pools) (hquiet : Quiet f.output f'.output) :
    Shift 0 f f' := by
  refine ⟨⟨[], ?_, by simp, ?_, ?_, ?_⟩, ?_⟩
  · rw [List.append_nil]
    exact hquiet
  · simp [reservedBy, hfunds]
  · simp [reservedBy, howned]
  · simp [reservedBy, howned]
  · intro h
    rw [MasterOnly, hpools]
    exact h

theorem fundTrace_pushEvent (p : Platform) (o : Output) {e : Event} (h : movesFunds e = true) :
    fundTrace (pushEvent p o e) = fundTrace o ++ [.events [e]] := by
  simp [fundTrace, List.filter_append, concernsFunds, h]

/-! ### Accounts -/

theorem sumFunds_emplaceAccount {accounts accounts' : Table DistributionAccount.id} {owner : Name}
    {distributionTime rank : Nat} {balance : Asset}
    (h : emplaceAccount accounts owner distributionTime rank balance = .ok accounts') :
    sumFunds accounts' = sumFunds accounts + balance.amount := by
  simp only [emplaceAccount, expect_eq_ok] at h
  rw [sumFunds, Table.total_emplace? h, sumFunds]
  exact Int.add_comm _ _

/-- A row with another balance in place of a stored one. -/
theorem sumFunds_replace {accounts : Table DistributionAccount.id} {row : DistributionAccount}
    {balance : Asset} (h : accounts.find? row.id = some row) :
    sumFunds (accounts.replace { row with balance := balance }) =
      sumFunds accounts - row.balance.amount + balance.amount := by
  have hreplace := Table.total_replace (a := { row with balance := balance }) h
    fun a : DistributionAccount => a.balance.amount
  have herase := Table.total_erase h fun a : DistributionAccount => a.balance.amount
  simp only [sumFunds]
  simp only at hreplace
  omega

theorem sumFunds_erase {accounts : Table DistributionAccount.id} {row : DistributionAccount}
    (h : accounts.find? row.id = some row) :
    sumFunds (accounts.erase row.id) = sumFunds accounts - row.balance.amount := by
  have herase := Table.total_erase h fun a : DistributionAccount => a.balance.amount
  simp only [sumFunds]
  omega

theorem find?_of_findByOwner {accounts : Table DistributionAccount.id} {key : Nat}
    {row : DistributionAccount} (h : findByOwner accounts key = some row) :
    accounts.find? row.id = some row :=
  Table.find?_of_mem (Table.mem_index.mp (List.mem_of_find?_eq_some h))

theorem sumFunds_drawFrom {accounts accounts' : Table DistributionAccount.id} {pool : Option Nat}
    {amount : Asset} (h : drawFrom accounts pool amount = .ok accounts') :
    sumFunds accounts' = sumFunds accounts - amount.amount := by
  unfold drawFrom at h
  split at h
  · rename_i row hrow
    simp only [bind_eq_ok, Asset.sub_eq_ok, pure_eq_ok] at h
    obtain ⟨_, ⟨_, _, _, rfl⟩, rfl⟩ := h
    obtain ⟨id, _, hfound⟩ := Option.bind_eq_some_iff.mp hrow
    have hid := Table.key_of_find? hfound
    subst hid
    rw [sumFunds_replace hfound]
    ring
  · simp only [bind_eq_ok, check_eq_ok, exists_const, decide_eq_true_eq, pure_eq_ok] at h
    obtain ⟨hzero, rfl⟩ := h
    rw [hzero, Int.sub_zero]

theorem sumFunds_subAccount {accounts accounts' : Table DistributionAccount.id} {sender : Name}
    {distributionTime rank : Nat} {amount : Asset}
    (h : subAccount accounts sender distributionTime rank amount = .ok accounts') :
    sumFunds accounts' = sumFunds accounts - amount.amount := by
  simp only [subAccount, bind_eq_ok, getRow_eq_ok, check_eq_ok, exists_const, Asset.ge_eq_ok,
    Asset.eq_eq_ok] at h
  obtain ⟨row, hrow, _, ⟨_, rfl⟩, _, _, ⟨_, rfl⟩, h⟩ := h
  have hfound := find?_of_findByOwner hrow
  split at h
  · rename_i heq
    rw [pure_eq_ok] at h
    subst h
    rw [sumFunds_erase hfound, show row.balance.amount = amount.amount by simpa using heq]
  · simp only [bind_eq_ok, Asset.sub_eq_ok, pure_eq_ok] at h
    obtain ⟨_, ⟨_, _, _, rfl⟩, rfl⟩ := h
    rw [sumFunds_replace hfound]
    ring

/-! ### Setting up -/

theorem emplaceMasterPool_shift {p : Platform} {f f' : Treasury}
    (h : emplaceMasterPool p f = .ok f') : Shift 0 f f' := by
  simp only [emplaceMasterPool, bind_eq_ok, expect_eq_ok, pure_eq_ok] at h
  obtain ⟨pools, hpools, rfl⟩ := h
  have hquiet : Quiet f.output (pushEvent p f.output (.setPool masterName 5)) :=
    Quiet.pushEvent p f.output rfl
  refine ⟨⟨[], ?_, by simp, by simp [reservedBy], by simp [reservedBy], by simp [reservedBy]⟩, ?_⟩
  · rw [List.append_nil]
    exact hquiet
  · intro hmaster pool hpool
    rcases (Table.mem_emplace? hpools).mp hpool with rfl | hold
    · rfl
    · exact hmaster pool hold

/-- An amount has been taken from the master pool and is not yet in an account. -/
structure Holding (total : Int) (f f' : Treasury) : Prop where
  events : ∃ es, fundTrace f'.output = fundTrace f.output ++ es ∧ (∀ e ∈ es, ofMaster e) ∧
    reservedBy es = total ∧ balanceOf f'.owned masterName = balanceOf f.owned masterName - total ∧
    sumBalances f'.owned = sumBalances f.owned - total
  distributions : f'.distributions = f.distributions

theorem Holding.refl (f : Treasury) : Holding 0 f f :=
  ⟨⟨[], by simp, by simp, by simp [reservedBy], by simp, by simp⟩, rfl⟩

theorem reservePool_holding {p : Platform} {distributionTime : Nat} {prorateNum : Option Nat}
    {f₀ f f' : Treasury} {total total' : Asset} {pool : Pool} (hname : pool.name = masterName)
    (h : reservePool p distributionTime prorateNum (f, total) pool = .ok (f', total'))
    (hholding : Holding total.amount f₀ f) : Holding total'.amount f₀ f' := by
  unfold reservePool at h
  split at h
  · simp only [pure_eq_ok, Prod.mk.injEq] at h
    rw [← h.1, ← h.2]
    exact hholding
  · simp only [bind_eq_ok, pure_eq_ok, Prod.mk.injEq] at h
    obtain ⟨amount, _, owned, howned, sum, hsum, rfl, rfl⟩ := h
    have hadded : sum.amount = total.amount + amount.amount := by
      split at hsum
      · rename_i hzero
        rw [Except.ok.injEq] at hsum
        rw [← hsum, hzero, Int.zero_add]
      · simp only [Asset.add_eq_ok] at hsum
        obtain ⟨_, _, _, rfl⟩ := hsum
        rfl
    obtain ⟨⟨es, htrace, hmaster, hreserved, hpool, hbalances⟩, hdistributions⟩ := hholding
    refine ⟨⟨es ++ [.events [.distributionReserve distributionTime pool.name amount]], ?_, ?_, ?_,
      ?_, ?_⟩, hdistributions⟩
    · rw [fundTrace_pushEvent p f.output rfl, htrace, List.append_assoc]
    · intro e he
      rcases List.mem_append.mp he with he | he
      · exact hmaster e he
      · rw [List.mem_singleton.mp he]
        exact hname
    · rw [hadded, ← hreserved]
      simp [reservedBy, reserved]
    · rw [balanceOf_subBalance howned, if_pos hname, hpool, hadded]
      ring
    · rw [sumBalances_subBalance howned, hbalances, hadded]
      ring

theorem reservePools_holding {p : Platform} {distributionTime : Nat} {prorateNum : Option Nat}
    {f₀ : Treasury} {pools : List Pool} (hnames : ∀ pool ∈ pools, pool.name = masterName)
    {acc acc' : Treasury × Asset}
    (h : pools.foldlM (reservePool p distributionTime prorateNum) acc = .ok acc')
    (hholding : Holding acc.2.amount f₀ acc.1) : Holding acc'.2.amount f₀ acc'.1 := by
  induction pools generalizing acc with
  | nil =>
      rw [List.foldlM_nil, pure_eq_ok] at h
      rw [← h]
      exact hholding
  | cons pool pools ih =>
      rw [List.foldlM_cons, bind_eq_ok] at h
      obtain ⟨⟨f₁, total₁⟩, hfirst, hrest⟩ := h
      refine ih (fun pool' hpool' => hnames pool' (List.mem_cons_of_mem _ hpool')) hrest ?_
      exact reservePool_holding (hnames pool List.mem_cons_self) hfirst hholding

theorem returnExcess_holding {p : Platform} {f₀ f f' : Treasury} {distributionTime : Nat}
    {total used : Asset} (h : returnExcess p f distributionTime total used = .ok f')
    (hholding : Holding total.amount f₀ { f with distributions := f₀.distributions }) :
    Holding used.amount f₀ { f' with distributions := f₀.distributions } ∧
      f'.distributions = f.distributions := by
  simp only [returnExcess, bind_eq_ok, Asset.eq_eq_ok] at h
  obtain ⟨_, ⟨_, rfl⟩, h⟩ := h
  split at h
  · rename_i heq
    rw [pure_eq_ok] at h
    subst h
    rw [show used.amount = total.amount by simpa using heq]
    exact ⟨hholding, rfl⟩
  · simp only [bind_eq_ok, Asset.sub_eq_ok, pure_eq_ok] at h
    obtain ⟨excess, ⟨_, _, _, rfl⟩, owned, howned, rfl⟩ := h
    obtain ⟨⟨es, htrace, hmaster, hreserved, hpool, hbalances⟩, _⟩ := hholding
    refine ⟨⟨⟨es ++ [.events [.distributionReturnExcess distributionTime masterName
      ⟨total.amount - used.amount, total.symbol⟩]], ?_, ?_, ?_, ?_, ?_⟩, rfl⟩, rfl⟩
    · simp only at htrace
      rw [fundTrace_pushEvent p f.output rfl, htrace, List.append_assoc]
    · intro e he
      rcases List.mem_append.mp he with he | he
      · exact hmaster e he
      · rw [List.mem_singleton.mp he]
        rfl
    · simp only [reservedBy, List.map_append, List.sum_append, List.map_cons, List.map_nil,
        List.sum_cons, List.sum_nil, reserved] at hreserved ⊢
      omega
    · simp only at hpool ⊢
      rw [balanceOf_addBalance howned, if_pos rfl, hpool]
      simp only
      ring
    · simp only at hbalances ⊢
      rw [sumBalances_addBalance howned, hbalances]
      simp only
      ring

theorem openDistribution_keeps {p : Platform} {c : Calendar} {f f' : Treasury}
    {distributionTime : Nat} {total used : Asset}
    (h : openDistribution p c f distributionTime total = .ok (f', used)) :
    f'.owned = f.owned ∧ f'.distributions.accounts = f.distributions.accounts ∧
      f'.distributions.pools = f.distributions.pools ∧ Quiet f.output f'.output := by
  unfold openDistribution at h
  split at h
  · simp only [bind_eq_ok, pure_eq_ok, Prod.mk.injEq] at h
    obtain ⟨_, _, rfl, rfl⟩ := h
    exact ⟨rfl, rfl, rfl, Quiet.pushEvent p f.output rfl⟩
  · simp only [pure_eq_ok, Prod.mk.injEq] at h
    obtain ⟨rfl, rfl⟩ := h
    exact ⟨rfl, rfl, rfl, Quiet.refl _⟩

/-- What has been taken from the pool is in the accounts or back in the pool. -/
theorem fundDistribution_shift {p : Platform} {c : Calendar} {f₀ f f' : Treasury}
    {distributionTime : Nat} {total : Asset}
    (h : fundDistribution p c f distributionTime total = .ok f')
    (hholding : Holding total.amount f₀ f) : Shift 0 f₀ f' := by
  unfold fundDistribution at h
  split at h
  · simp only [bind_eq_ok, pure_eq_ok] at h
    obtain ⟨⟨f₁, used⟩, hopen, f₂, hexcess, accounts, haccounts, rfl⟩ := h
    obtain ⟨howned, hkept, hpools, hquiet⟩ := openDistribution_keeps hopen
    have hholding₁ : Holding total.amount f₀ { f₁ with distributions := f₀.distributions } := by
      obtain ⟨⟨es, htrace, hmaster, hreserved, hpool, hbalances⟩, _⟩ := hholding
      refine ⟨⟨es, Eq.trans hquiet htrace, hmaster, hreserved, ?_, ?_⟩, rfl⟩
      · simpa [howned] using hpool
      · simpa [howned] using hbalances
    obtain ⟨⟨⟨es, htrace, hmaster, hreserved, hpool, hbalances⟩, _⟩, hsame⟩ :=
      returnExcess_holding hexcess hholding₁
    refine ⟨⟨es, htrace, hmaster, ?_, ?_, ?_⟩, ?_⟩
    · simp only
      rw [sumFunds_emplaceAccount haccounts, hsame, hkept, hholding.distributions, hreserved]
    · rw [hreserved, Int.add_zero]
      exact hpool
    · rw [hreserved, Int.add_zero]
      exact hbalances
    · intro honly
      simp only [MasterOnly]
      rw [hsame, hpools, hholding.distributions]
      exact honly
  · rename_i hzero
    rw [pure_eq_ok] at h
    subst h
    have hzero' : total.amount = 0 := by simpa using hzero
    obtain ⟨⟨es, htrace, hmaster, hreserved, hpool, hbalances⟩, hdistributions⟩ := hholding
    rw [hzero'] at hreserved hpool hbalances
    have hquiet : Quiet f.output (pushEvent p (pushEvent p f.output (.distributionBegin
        distributionTime [])) (.distributionEnd distributionTime)) :=
      (Quiet.pushEvent p f.output rfl).trans (Quiet.pushEvent p _ rfl)
    refine ⟨⟨es, Eq.trans hquiet htrace, hmaster, ?_, ?_, ?_⟩, ?_⟩
    · simp only
      rw [hdistributions, hreserved, Int.add_zero]
    · rw [hreserved, Int.add_zero]
      exact hpool
    · rw [hreserved, Int.add_zero]
      exact hbalances
    · intro honly
      simp only [MasterOnly]
      rw [hdistributions]
      exact honly

theorem scheduleDistribution_shift {p : Platform} {f f' : Treasury} {distributionTime : Nat}
    (h : scheduleDistribution p f distributionTime = .ok f') : Shift 0 f f' := by
  simp only [scheduleDistribution, bind_eq_ok, expect_eq_ok, pure_eq_ok] at h
  obtain ⟨table, _, rfl⟩ := h
  exact Shift.of_quiet rfl rfl rfl (Quiet.pushEvent p f.output rfl)

theorem startDistribution_shift {p : Platform} {c : Calendar} {f f' : Treasury}
    {distributionTime : Nat} (hmaster : MasterOnly f)
    (h : startDistribution p c f distributionTime = .ok f') : Shift 0 f f' := by
  simp only [startDistribution, bind_eq_ok] at h
  obtain ⟨f₁, hfirst, ⟨f₂, total⟩, hreserve, f₃, hfund, h⟩ := h
  have hshift : Shift 0 f f₁ := by
    split at hfirst
    · exact emplaceMasterPool_shift hfirst
    · rw [Except.ok.injEq] at hfirst
      rw [hfirst]
      exact Shift.refl f₁
  have hholding : Holding total.amount f₁ f₂ :=
    reservePools_holding (hshift.pools hmaster) hreserve (Holding.refl f₁)
  exact (hshift.comp (fundDistribution_shift hfund hholding)).comp (scheduleDistribution_shift h)

theorem setupFrom_shift {p : Platform} {c : Calendar} {fuel : Nat} {f f' : Treasury}
    {row : Distribution} {result result' : Bool} (hmaster : MasterOnly f)
    (h : setupFrom p c fuel f row result = .ok (f', result')) : Shift 0 f f' := by
  induction fuel generalizing f row result with
  | zero => simp [setupFrom] at h
  | succ fuel ih =>
      simp only [setupFrom] at h
      split at h
      · split at h
        · simp only [pure_eq_ok, Prod.mk.injEq] at h
          rw [h.1]
          exact Shift.refl f'
        · simp only [bind_eq_ok] at h
          obtain ⟨f₁, hstart, h⟩ := h
          have hshift := startDistribution_shift hmaster hstart
          exact hshift.comp (ih (hshift.pools hmaster) h)
      · simp at h

theorem setupDistribution_shift {p : Platform} {c : Calendar} {f f' : Treasury} {init : Nat}
    {result : Bool} (hmaster : MasterOnly f)
    (h : setupDistribution p c f init = .ok (f', result)) : Shift 0 f f' := by
  simp only [setupDistribution] at h
  generalize (if init = 0 then c else { c with nextElectionTime := some init }) = c' at h
  split at h
  · exact setupFrom_shift hmaster h
  · split at h
    · simp only [pure_eq_ok, Prod.mk.injEq] at h
      rw [h.1]
      exact Shift.refl f'
    · simp only [bind_eq_ok] at h
      obtain ⟨f₁, hschedule, h⟩ := h
      have hshift := scheduleDistribution_shift hschedule
      exact hshift.comp (setupFrom_shift (hshift.pools hmaster) h)

theorem addToPool_shift {p : Platform} {c : Calendar} {f f' : Treasury} {amount : Asset}
    (hmaster : MasterOnly f) (h : addToPool p c f masterName amount = .ok f') :
    Shift amount.amount f f' := by
  simp only [addToPool, bind_eq_ok, pure_eq_ok] at h
  obtain ⟨⟨f₁, _⟩, hsetup, owned, howned, rfl⟩ := h
  have hadded : Shift amount.amount f₁ { f₁ with owned := owned } := by
    refine ⟨⟨[], by simp, by simp, by simp [reservedBy], ?_, ?_⟩, fun honly => honly⟩
    · simp [balanceOf_addBalance howned, reservedBy]
    · simp [sumBalances_addBalance howned, reservedBy]
  have htotal := (setupDistribution_shift hmaster hsetup).trans hadded
  rwa [Int.zero_add] at htotal

/-! ### Paying out -/

theorem fundRank_shift {p : Platform} {distributionTime : Nat} {pool : Option Nat} {owner : Name}
    {f f' : Treasury} {share : Nat × Asset}
    (h : fundRank p distributionTime pool owner f share = .ok f') : Shift 0 f f' := by
  simp only [fundRank, bind_eq_ok, pure_eq_ok] at h
  obtain ⟨added, hadded, drawn, hdrawn, rfl⟩ := h
  refine Shift.of_quiet rfl ?_ rfl (Quiet.pushEvent p f.output rfl)
  simp only
  rw [sumFunds_drawFrom hdrawn, sumFunds_emplaceAccount hadded]
  ring

theorem foldlM_shift {α : Type} {step : Treasury → α → Outcome Treasury}
    (hstep : ∀ f a f', step f a = .ok f' → Shift 0 f f') (l : List α) {f f' : Treasury}
    (h : l.foldlM step f = .ok f') : Shift 0 f f' :=
  foldlM_preserves (fun g => Shift 0 f g) (fun g a g' hg hf => hf.comp (hstep g a g' hg)) l h
    (Shift.refl f)

theorem fundMembers_shift {p : Platform} {distributionTime : Nat} {rankDistribution : List Asset}
    {pool : Option Nat} {maxSteps remaining : Nat} {members : List Member}
    {lastProcessed lastProcessed' : Name} {f f' : Treasury}
    (h : fundMembers p distributionTime rankDistribution pool maxSteps members lastProcessed f =
      .ok (remaining, lastProcessed', f')) : Shift 0 f f' := by
  fun_induction fundMembers p distributionTime rankDistribution pool maxSteps members
    lastProcessed f with
  | case1 members lastProcessed f =>
      simp only [pure_eq_ok, Prod.mk.injEq] at h
      rw [h.2.2]
      exact Shift.refl f'
  | case2 maxSteps lastProcessed f =>
      simp only [pure_eq_ok, Prod.mk.injEq] at h
      rw [h.2.2]
      exact Shift.refl f'
  | case3 maxSteps member rest lastProcessed f ih =>
      simp only [bind_eq_ok, check_eq_ok, exists_const] at h
      obtain ⟨_, f₁, hfund, h⟩ := h
      exact (foldlM_shift (fun _ _ _ hrank => fundRank_shift hrank) _ hfund).comp (ih f₁ h)

theorem closePool_shift {f f' : Treasury} {pool : Option Nat} (h : closePool f pool = .ok f') :
    Shift 0 f f' := by
  unfold closePool at h
  split at h
  · rw [pure_eq_ok] at h
    rw [h]
    exact Shift.refl f'
  · rename_i row hrow
    simp only [bind_eq_ok, check_eq_ok, exists_const] at h
    obtain ⟨_, h⟩ := h
    split at h
    · rename_i hzero
      rw [pure_eq_ok] at h
      subst h
      refine Shift.of_quiet rfl ?_ rfl (Quiet.refl _)
      obtain ⟨id, _, hfound⟩ := Option.bind_eq_some_iff.mp hrow
      have hid := Table.key_of_find? hfound
      subst hid
      simp only
      rw [sumFunds_erase hfound, hzero, Int.sub_zero]
    · rw [pure_eq_ok] at h
      rw [h]
      exact Shift.refl f'

theorem distributeCurrent_shift {p : Platform} {members : Table Member.account}
    {maxSteps remaining distributionTime : Nat} {lastProcessed lastProcessed' : Name}
    {rankDistribution : List Asset} {f f' : Treasury}
    (h : distributeCurrent p members maxSteps distributionTime lastProcessed rankDistribution f =
      .ok (remaining, lastProcessed', f')) : Shift 0 f f' := by
  simp only [distributeCurrent, bind_eq_ok, pure_eq_ok, Prod.mk.injEq] at h
  obtain ⟨⟨_, _, f₁⟩, hfund, f₂, hclose, _, _, rfl⟩ := h
  exact (fundMembers_shift hfund).comp (closePool_shift hclose)

theorem distributeRows_shift {p : Platform} {members : Table Member.account}
    {rows : List Distribution} {maxSteps remaining : Nat} {f f' : Treasury}
    (h : distributeRows p members rows maxSteps f = .ok (remaining, f')) : Shift 0 f f' := by
  induction rows generalizing maxSteps f with
  | nil =>
      simp only [distributeRows, pure_eq_ok, Prod.mk.injEq] at h
      rw [h.2]
      exact Shift.refl f'
  | cons row rest ih =>
      simp only [distributeRows] at h
      split at h
      · simp only [pure_eq_ok, Prod.mk.injEq] at h
        rw [h.2]
        exact Shift.refl f'
      · split at h
        · simp only [bind_eq_ok] at h
          obtain ⟨⟨steps, last, f₁⟩, hcurrent, h⟩ := h
          have hshift := distributeCurrent_shift hcurrent
          split at h
          · simp only [pure_eq_ok, Prod.mk.injEq] at h
            rw [← h.2]
            exact hshift.comp (Shift.of_quiet rfl rfl rfl (Quiet.refl _))
          · refine hshift.comp (Shift.comp ?_ (ih h))
            exact Shift.of_quiet rfl rfl rfl (Quiet.pushEvent p f₁.output rfl)
        · simp only [pure_eq_ok, Prod.mk.injEq] at h
          rw [h.2]
          exact Shift.refl f'
        · simp only [pure_eq_ok, Prod.mk.injEq] at h
          rw [h.2]
          exact Shift.refl f'

theorem distributeMonthly_shift {p : Platform} {c : Calendar} {members : Table Member.account}
    {maxSteps remaining : Nat} {f f' : Treasury} (hmaster : MasterOnly f)
    (h : distributeMonthly p c members maxSteps f = .ok (remaining, f')) : Shift 0 f f' := by
  unfold distributeMonthly at h
  split at h
  · simp only [pure_eq_ok, Prod.mk.injEq] at h
    rw [h.2]
    exact Shift.refl f'
  · simp only [bind_eq_ok] at h
    obtain ⟨⟨f₁, started⟩, hsetup, h⟩ := h
    exact (setupDistribution_shift hmaster hsetup).comp (distributeRows_shift h)

theorem processElectionRows_shift {p : Platform} {ranks : List Nat} {rows : List Distribution}
    {f f' : Treasury} (h : processElectionRows p ranks rows f = .ok f') : Shift 0 f f' := by
  fun_induction processElectionRows p ranks rows f with
  | case1 f =>
      rw [pure_eq_ok] at h
      rw [h]
      exact Shift.refl f'
  | case2 t amount rest f ih =>
      simp only [bind_eq_ok, beginElectionDistribution, check_eq_ok, exists_const,
        pure_eq_ok] at h
      obtain ⟨_, ⟨_, _, _, _, _, rfl⟩, h⟩ := h
      refine Shift.comp ?_ (ih _ h)
      exact Shift.of_quiet rfl rfl rfl (Quiet.pushEvent p f.output rfl)
  | case3 _ _ _ rest f ih => exact ih h
  | case4 _ _ f =>
      rw [pure_eq_ok] at h
      rw [h]
      exact Shift.refl f'

theorem processElectionDistribution_shift {p : Platform} {ranks : List Nat} {f f' : Treasury}
    (h : processElectionDistribution p ranks f = .ok f') : Shift 0 f f' :=
  processElectionRows_shift h

/-! ### Members who leave or change their account -/

theorem returnAccount_shift {p : Platform} {f f' : Treasury} {row : DistributionAccount}
    (hrow : f.distributions.accounts.find? row.id = some row)
    (h : returnAccount p f row = .ok f') : Shift 0 f f' := by
  simp only [returnAccount, bind_eq_ok, pure_eq_ok] at h
  obtain ⟨owned, howned, rfl⟩ := h
  refine ⟨⟨[.events [.distributionReturn row.owner row.distributionTime row.rank row.balance
    masterName]], ?_, ?_, ?_, ?_, ?_⟩, fun honly => honly⟩
  · exact fundTrace_pushEvent p f.output rfl
  · intro e he
    rw [List.mem_singleton.mp he]
    rfl
  · simp [sumFunds_erase hrow, reservedBy, reserved, Int.sub_eq_add_neg]
  · simp [balanceOf_addBalance howned, reservedBy, reserved]
  · simp [sumBalances_addBalance howned, reservedBy, reserved]

theorem returnAccounts_shift {p : Platform} {rows : List DistributionAccount} {f f' : Treasury}
    (hrows : ∀ row ∈ rows, row ∈ f.distributions.accounts.rows) (hnodup : rows.Nodup)
    (h : rows.foldlM (returnAccount p) f = .ok f') : Shift 0 f f' := by
  induction rows generalizing f with
  | nil =>
      rw [List.foldlM_nil, pure_eq_ok] at h
      rw [h]
      exact Shift.refl f'
  | cons row rest ih =>
      rw [List.foldlM_cons, bind_eq_ok] at h
      obtain ⟨f₁, hfirst, hrest⟩ := h
      have hrow := hrows row List.mem_cons_self
      have hshift := returnAccount_shift (Table.find?_of_mem hrow) hfirst
      obtain ⟨hnew, hnodup'⟩ := List.nodup_cons.mp hnodup
      refine hshift.comp (ih ?_ hnodup' hrest)
      intro other hother
      have hmem := hrows other (List.mem_cons_of_mem _ hother)
      simp only [returnAccount, bind_eq_ok, pure_eq_ok] at hfirst
      obtain ⟨_, _, rfl⟩ := hfirst
      refine Table.mem_erase.mpr ⟨hmem, fun hid => hnew ?_⟩
      rw [← Table.eq_of_key_eq hmem hrow hid]
      exact hother

theorem returnShare_shift {p : Platform} {f f' : Treasury} {member : Member}
    {distributionTime : Nat} {rankDistribution : List Asset}
    (h : returnShare p f member distributionTime rankDistribution = .ok f') : Shift 0 f f' := by
  simp only [returnShare, bind_eq_ok, check_eq_ok, exists_const, pure_eq_ok] at h
  obtain ⟨_, amount, _, accounts, haccounts, owned, howned, rfl⟩ := h
  have hfunds : sumFunds accounts = sumFunds f.distributions.accounts - amount.amount := by
    split at haccounts
    · rename_i row hrow
      have hfound := find?_of_findByOwner hrow
      simp only [bind_eq_ok, check_eq_ok, exists_const, Asset.ge_eq_ok, Asset.eq_eq_ok]
        at haccounts
      obtain ⟨_, ⟨_, rfl⟩, _, _, ⟨_, rfl⟩, haccounts⟩ := haccounts
      split at haccounts
      · rename_i heq
        rw [pure_eq_ok] at haccounts
        subst haccounts
        rw [sumFunds_erase hfound, show row.balance.amount = amount.amount by simpa using heq]
      · simp only [bind_eq_ok, Asset.sub_eq_ok, pure_eq_ok] at haccounts
        obtain ⟨_, ⟨_, _, _, rfl⟩, rfl⟩ := haccounts
        rw [sumFunds_replace hfound]
        ring
    · simp only [bind_eq_ok, check_eq_ok, exists_const, decide_eq_true_eq, pure_eq_ok] at haccounts
      obtain ⟨hzero, rfl⟩ := haccounts
      rw [hzero, Int.sub_zero]
  refine ⟨⟨[.events [.distributionReturnExcess distributionTime masterName amount]], ?_, ?_, ?_,
    ?_, ?_⟩, fun honly => honly⟩
  · exact fundTrace_pushEvent p f.output rfl
  · intro e he
    rw [List.mem_singleton.mp he]
    rfl
  · simp [hfunds, reservedBy, reserved, Int.sub_eq_add_neg]
  · simp [balanceOf_addBalance howned, reservedBy, reserved]
  · simp [sumBalances_addBalance howned, reservedBy, reserved]

theorem returnShares_shift {p : Platform} {member : Member} {rows : List Distribution}
    {f f' : Treasury} (h : returnShares p member rows f = .ok f') : Shift 0 f f' := by
  fun_induction returnShares p member rows f with
  | case1 f t lastProcessed shares rest _ ih =>
      simp only [bind_eq_ok] at h
      obtain ⟨f₁, hshare, h⟩ := h
      exact (returnShare_shift hshare).comp (ih f₁ h)
  | case2 f t lastProcessed shares rest _ ih => exact ih h
  | case3 f rows _ =>
      rw [pure_eq_ok] at h
      rw [h]
      exact Shift.refl f'

theorem onResign_shift {p : Platform} {c : Calendar} {f f' : Treasury} {member : Member}
    (hmaster : MasterOnly f) (h : onResign p c f member = .ok f') : Shift 0 f f' := by
  simp only [onResign, bind_eq_ok] at h
  obtain ⟨⟨f₁, _⟩, hsetup, f₂, hreturn, h⟩ := h
  have hrows : ∀ row ∈ accountsOf f₁.distributions.accounts member.account,
      row ∈ f₁.distributions.accounts.rows := by
    intro row hrow
    exact Table.mem_index.mp (List.mem_filter.mp hrow).1
  have hnodup : (accountsOf f₁.distributions.accounts member.account).Nodup := by
    refine List.Nodup.filter _ ?_
    exact (Table.index_perm _ _).nodup_iff.mpr f₁.distributions.accounts.nodup_rows
  exact ((setupDistribution_shift hmaster hsetup).comp
    (returnAccounts_shift hrows hnodup hreturn)).comp (returnShares_shift h)

theorem onRename_shift {p : Platform} {c : Calendar} {f f' : Treasury}
    {oldAccount newAccount : Name} (hmaster : MasterOnly f)
    (h : DistributionTables.onRename p c f oldAccount newAccount = .ok f') : Shift 0 f f' := by
  simp only [DistributionTables.onRename, bind_eq_ok, check_eq_ok, exists_const, pure_eq_ok] at h
  obtain ⟨_, ⟨f₁, _⟩, hsetup, rfl⟩ := h
  refine (setupDistribution_shift hmaster hsetup).comp ?_
  refine Shift.of_quiet rfl ?_ rfl (Quiet.refl _)
  simp only [sumFunds]
  rw [Table.total_update]
  refine Table.total_congr fun a _ => ?_
  split
  · rfl
  · rfl

end Eden.TreasuryFunds
