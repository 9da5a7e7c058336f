import Eden.ActionSteps
import Eden.RankShares
import Eden.TreasuryFunds

/-!
The funds of distributions in every run: neither a pool nor a distribution has debts, and the last
row in the table of the distributions is the only one that is still to come.
-/

namespace Eden.SoundTreasury

open Eden.ExceptReasoning
open Eden.SortedTable
open Eden.TransactionRuns
open Eden.ChainPrimitives
open Eden.ContractState
open Eden.Runtime
open Eden.AccountTables
open Eden.MemberTable
open Eden.DistributionTables
open Eden.ElectionPhases
open Eden.Transactions
open Eden.ActionSteps
open Eden.RankShares
open Eden.TreasuryFunds

variable {p : Platform} {c : Calendar} {f f' : Treasury}

/-! ### Amounts -/

/-- No debt, and no more than 64 bits hold. -/
structure InRange (a : Asset) : Prop where
  nonneg : 0 ≤ a.amount
  lt : a.amount < 2 ^ 63

theorem InRange.of_le {a b : Asset} (hb : InRange b) (hnonneg : 0 ≤ a.amount)
    (hle : a.amount ≤ b.amount) : InRange a :=
  ⟨hnonneg, lt_of_le_of_lt hle hb.lt⟩

theorem InRange.of_max {a : Asset} (hnonneg : 0 ≤ a.amount) (hmax : a.amount ≤ maxAmount) :
    InRange a := by
  refine ⟨hnonneg, ?_⟩
  unfold maxAmount at hmax
  omega

theorem InRange.add {a b d : Asset} (ha : InRange a) (hb : InRange b) (h : a.add b = .ok d) :
    InRange d := by
  obtain ⟨-, -, hmax, rfl⟩ := Asset.add_eq_ok.mp h
  exact .of_max (Int.add_nonneg ha.nonneg hb.nonneg) hmax

theorem inRange_zero (symbol : Symbol) : InRange ⟨0, symbol⟩ := ⟨le_rfl, by norm_num⟩

section Accounts

variable {t t' : AccountTable} {owner : Name} {quantity : Asset}

theorem addBalance_inRange {minimum : Bool} (ht : ∀ a ∈ t.rows, InRange a.balance)
    (hquantity : InRange quantity) (h : addBalance t owner quantity minimum = .ok t') :
    ∀ a ∈ t'.rows, InRange a.balance := by
  intro a ha
  unfold addBalance at h
  split at h
  · simp only [bind_eq_ok, expect_eq_ok] at h
    obtain ⟨-, -, -, -, hemplace⟩ := h
    rcases (Table.mem_emplace? hemplace).mp ha with rfl | ha
    · exact hquantity
    · exact ht a ha
  · rename_i record hrecord
    simp only [bind_eq_ok, pure_eq_ok] at h
    obtain ⟨balance, hbalance, rfl⟩ := h
    rcases Table.mem_modify.mp ha with ⟨ha, -⟩ | ⟨-, -, rfl⟩
    · exact ht a ha
    · exact (ht record (Table.mem_of_find? hrecord)).add hquantity hbalance

theorem subBalance_inRange (ht : ∀ a ∈ t.rows, InRange a.balance) (hquantity : 0 ≤ quantity.amount)
    (h : subBalance t owner quantity = .ok t') : ∀ a ∈ t'.rows, InRange a.balance := by
  simp only [subBalance, bind_eq_ok, expect_eq_ok, check_eq_ok, Asset.ge_eq_ok] at h
  obtain ⟨record, hrecord, -, ⟨-, rfl⟩, -, hge, same, -, h⟩ := h
  rw [decide_eq_true_eq] at hge
  intro a ha
  split at h
  · cases h
    exact ht a (Table.mem_erase.mp ha).1
  · simp only [bind_eq_ok, Asset.sub_eq_ok, pure_eq_ok] at h
    obtain ⟨balance, ⟨-, -, -, rfl⟩, rfl⟩ := h
    rcases Table.mem_modify.mp ha with ⟨ha, -⟩ | ⟨-, -, rfl⟩
    · exact ht a ha
    · refine (ht record (Table.mem_of_find? hrecord)).of_le (Int.sub_nonneg_of_le hge) ?_
      exact Int.sub_le_self _ hquantity

end Accounts

/-! ### The share of a pool -/

/-- The seconds of a month. -/
def month : Nat := 30 * 24 * 60 * 60

theorem proratedAmount_bounds {num pct : Nat} {amount : Int} (hnum : num ≤ month)
    (hpct : pct ≤ 100) (hnonneg : 0 ≤ amount) (hlt : amount < 2 ^ 63) :
    0 ≤ proratedAmount num pct amount ∧ 100 * proratedAmount num pct amount ≤ pct * amount := by
  have hshare : 0 ≤ (pct : Int) * amount := Int.mul_nonneg (Int.natCast_nonneg pct) hnonneg
  have hpart : (num : Int) * (pct * amount) ≤ month * (pct * amount) :=
    mul_le_mul_of_nonneg_right (by exact_mod_cast hnum) hshare
  have hpart0 : 0 ≤ (num : Int) * (pct * amount) := Int.mul_nonneg (Int.natCast_nonneg num) hshare
  have hcap : (pct : Int) * amount ≤ 100 * amount :=
    mul_le_mul_of_nonneg_right (by exact_mod_cast hpct) hnonneg
  rw [proratedAmount, Int.mul_assoc]
  generalize (num : Int) * (pct * amount) = part at hpart hpart0 ⊢
  generalize (pct : Int) * amount = share at hshare hpart hcap ⊢
  unfold month at hpart
  unfold toInt64 prorateDen
  rw [Int.emod_eq_of_lt hpart0 (by omega)]
  split_ifs <;> omega

/-- A pool gives no more than its part of its balance. -/
structure Reserved (pct : Nat) (balance amount : Asset) : Prop where
  nonneg : 0 ≤ amount.amount
  part : 100 * amount.amount ≤ pct * balance.amount
  symbol : amount.symbol = balance.symbol

theorem poolShare_reserved {prorateNum : Option Nat} {pct : Nat} {balance amount : Asset}
    (hbalance : InRange balance) (hpct : pct ≤ 100)
    (hnum : ∀ num, prorateNum = some num → num ≤ month)
    (h : poolShare prorateNum pct balance = .ok amount) : Reserved pct balance amount := by
  unfold poolShare at h
  split at h
  · rename_i num
    obtain ⟨-, -, rfl⟩ := asset_eq_ok.mp h
    obtain ⟨hnonneg, hpart⟩ := proratedAmount_bounds (hnum num rfl) hpct hbalance.nonneg hbalance.lt
    exact ⟨hnonneg, hpart, rfl⟩
  · simp only [bind_eq_ok, Asset.mul_eq_ok, Asset.div_eq_ok] at h
    obtain ⟨product, ⟨-, -, rfl⟩, -, -, rfl⟩ := h
    have hproduct := Int.mul_nonneg hbalance.nonneg (Int.natCast_nonneg pct)
    rw [Int.tdiv_eq_ediv_of_nonneg hproduct]
    refine ⟨Int.ediv_nonneg hproduct (by norm_num), ?_, rfl⟩
    rw [Int.mul_comm (pct : Int)]
    exact Int.mul_ediv_self_le (by norm_num)

theorem Reserved.le {pct : Nat} {balance amount : Asset} (h : Reserved pct balance amount)
    (hpct : pct ≤ 100) (hbalance : 0 ≤ balance.amount) : amount.amount ≤ balance.amount := by
  have hcap : (pct : Int) * balance.amount ≤ 100 * balance.amount :=
    mul_le_mul_of_nonneg_right (by exact_mod_cast hpct) hbalance
  have hpart := h.part
  omega

/-! ### The shares of the ranks -/

/-- The loop spends no more than the parts of the levels it visits. -/
theorem shareRanks_inRange {perRank used used' : Asset} {position total : Nat} {counts : List Nat}
    {shares shares' : List Asset} (hperRank : InRange perRank)
    (hshares : ∀ share ∈ shares, InRange share)
    (h : shareRanks perRank position counts total used shares = .ok (used', shares')) :
    used.amount ≤ used'.amount ∧
      used'.amount + perRank.amount * weight position ≤
        used.amount + perRank.amount * weight (position + counts.length) ∧
      used'.symbol = used.symbol ∧ ∀ share ∈ shares', InRange share := by
  induction counts generalizing position total used shares with
  | nil =>
      cases h
      exact ⟨le_rfl, le_rfl, rfl, hshares⟩
  | cons count counts ih =>
      have hlength : position + (count :: counts).length = position + 1 + counts.length := by
        rw [List.length_cons]
        omega
      have hparts := Int.mul_nonneg hperRank.nonneg (partsOf_nonneg position)
      have hweight : perRank.amount * weight (position + 1) =
          perRank.amount * weight position + perRank.amount * partsOf position := by
        rw [weight_succ, Int.mul_add]
      rw [hlength]
      simp only [shareRanks] at h
      split at h
      · obtain ⟨hle, hpart, hsymbol, hall⟩ := ih hshares h
        exact ⟨hle, by omega, hsymbol, hall⟩
      · rename_i htotal
        split at h
        · rename_i hfirst
          simp only [bind_eq_ok, asset_eq_ok] at h
          obtain ⟨share, ⟨-, -, rfl⟩, h⟩ := h
          obtain ⟨hle, hpart, hsymbol, hall⟩ :=
            ih (List.forall_mem_cons.mpr ⟨inRange_zero _, hshares⟩) h
          exact ⟨hle, by omega, hsymbol, hall⟩
        · rename_i hlater
          simp only [bind_eq_ok, Asset.div_eq_ok, Asset.mul_eq_ok] at h
          obtain ⟨base, hbase, share, ⟨-, -, rfl⟩, spent, ⟨-, -, rfl⟩, sum, hsum, h⟩ := h
          obtain ⟨-, -, -, rfl⟩ := Asset.add_eq_ok.mp hsum
          have hbases : base.amount = perRank.amount * partsOf position ∧ InRange base := by
            unfold partsOf
            rw [if_neg hlater]
            split at hbase
            · rename_i hone
              obtain ⟨hmax, -, rfl⟩ := Asset.mul_eq_ok.mp hbase
              rw [if_pos hone]
              exact ⟨rfl, .of_max (Int.mul_nonneg hperRank.nonneg (by norm_num)) hmax⟩
            · rename_i hone
              cases hbase
              rw [if_neg hone, Int.mul_one]
              exact ⟨rfl, hperRank⟩
          obtain ⟨hnonneg, hspent, -⟩ := share_bounds hbases.2.nonneg (Nat.pos_of_ne_zero htotal)
          have hpaid := Int.mul_nonneg hnonneg (Int.natCast_nonneg ((total + count) % 2 ^ 16))
          have hle_base : base.amount.tdiv ((total + count) % 2 ^ 16 : Nat) ≤ base.amount := by
            rw [Int.tdiv_eq_ediv_of_nonneg hbases.2.nonneg]
            exact Int.ediv_le_self _ hbases.2.nonneg
          obtain ⟨hle, hpart, hsymbol, hall⟩ := ih (List.forall_mem_cons.mpr
            ⟨hbases.2.of_le hnonneg hle_base, hshares⟩) h
          dsimp only at hle hpart hsymbol
          have hbound := hbases.1
          exact ⟨by omega, by omega, hsymbol, hall⟩

theorem addToLast_inRange {shares shares' : List Asset} {amount : Asset}
    (hshares : ∀ share ∈ shares, InRange share) (hamount : InRange amount)
    (h : addToLast shares amount = .ok shares') : ∀ share ∈ shares', InRange share := by
  fun_induction addToLast shares amount generalizing shares' with
  | case1 => cases h
  | case2 share =>
      simp only [bind_eq_ok, pure_eq_ok] at h
      obtain ⟨last, hlast, rfl⟩ := h
      rw [List.forall_mem_singleton] at hshares ⊢
      exact hshares.add hamount hlast
  | case3 share rest amount hne ih =>
      simp only [bind_eq_ok, pure_eq_ok] at h
      obtain ⟨rest', hrest, rfl⟩ := h
      rw [List.forall_mem_cons] at hshares ⊢
      exact ⟨hshares.1, ih hshares.2 hamount hrest⟩

/-- A distribution uses no more than what has been reserved for it. -/
theorem makeDistribution_inRange {ranks : List Nat} {amount used : Asset} {shares : List Asset}
    (hamount : InRange amount) (h : makeDistribution ranks amount = .ok (shares, used)) :
    (∀ share ∈ shares, InRange share) ∧ 0 ≤ used.amount ∧ used.amount ≤ amount.amount := by
  simp only [makeDistribution, bind_eq_ok, Asset.div_eq_ok, asset_eq_ok] at h
  obtain ⟨_, hranks, perRank, ⟨hlevels, -, rfl⟩, used₀, ⟨-, -, rfl⟩, ⟨used₁, shares₁⟩, hloop, h⟩ := h
  rw [ensure_eq_ok, decide_eq_true_eq] at hranks
  obtain ⟨first, counts, rfl⟩ := List.exists_cons_of_ne_nil hranks
  have hlength : ((first :: counts).length : Int) - 1 = (counts.length : Nat) := by
    rw [List.length_cons]
    omega
  rw [hlength] at hlevels hloop
  have hpos : 0 < counts.length := by omega
  obtain ⟨hnonneg, hparts, -⟩ := share_bounds hamount.nonneg hpos
  have hself : amount.amount.tdiv (counts.length : Nat) ≤ amount.amount := by
    rw [Int.tdiv_eq_ediv_of_nonneg hamount.nonneg]
    exact Int.ediv_le_self _ hamount.nonneg
  have hperRank : InRange ⟨amount.amount.tdiv (counts.length : Nat), amount.symbol⟩ :=
    hamount.of_le hnonneg hself
  obtain ⟨hle, hpart, -, hshares⟩ := shareRanks_inRange hperRank (by simp) hloop
  have hweight := mul_le_mul_of_nonneg_left (weight_le counts.length) hnonneg
  have hzero : weight 0 = 0 := rfl
  rw [List.tail_cons, List.length_reverse, Nat.zero_add, hzero, Int.mul_zero] at hpart
  dsimp only at hle hpart hweight
  have hused : used₁.amount ≤ amount.amount := by omega
  split at h
  · simp only [bind_eq_ok, Asset.sub_eq_ok, pure_eq_ok, Prod.mk.injEq] at h
    obtain ⟨rest, ⟨-, -, -, rfl⟩, shares₂, hlast, rfl, rfl⟩ := h
    have hrest : InRange ⟨amount.amount - used₁.amount, amount.symbol⟩ :=
      hamount.of_le (Int.sub_nonneg_of_le hused) (Int.sub_le_self _ hle)
    exact ⟨addToLast_inRange hshares hrest hlast, hamount.nonneg, le_rfl⟩
  · cases h
    exact ⟨hshares, hle, hused⟩

/-! ### The table of the distributions -/

abbrev Schedule := Table Distribution.distributionTime

def isNext : Distribution → Bool
  | .next _ => true
  | _ => false

/-- The only distribution that is still to come stands behind the others. -/
structure NextAt (time : Nat) (t : Schedule) : Prop where
  mem : .next time ∈ t.rows
  earlier : ∀ row ∈ t.rows, row = .next time ∨ (isNext row = false ∧ row.distributionTime < time)

/-- No distribution is still to come. -/
def Begun (time : Nat) (t : Schedule) : Prop :=
  ∀ row ∈ t.rows, isNext row = false ∧ row.distributionTime ≤ time

def Planned (t : Schedule) : Prop := t.rows = [] ∨ ∃ time, 0 < time ∧ NextAt time t

section Schedules

variable {time : Nat} {t t' : Schedule} {row row' : Distribution}

theorem NextAt.last (h : NextAt time t) (hlast : t.rows.getLast? = some row) :
    row = .next time := by
  obtain ⟨front, hrows⟩ := List.getLast?_eq_some_iff.mp hlast
  rcases h.earlier row (List.mem_of_getLast? hlast) with rfl | ⟨-, hlt⟩
  · rfl
  · have hsorted := t.sorted
    rw [hrows, List.pairwise_append] at hsorted
    have hmem := h.mem
    rw [hrows] at hmem
    rcases List.mem_append.mp hmem with hmem | hmem
    · have hlater := hsorted.2.2 _ hmem row List.mem_cons_self
      exact absurd hlater (Nat.lt_asymm hlt)
    · exact (List.mem_singleton.mp hmem).symm

theorem NextAt.not_next (h : NextAt time t) (hrow : row ∈ t.rows) (hnext : isNext row = false) :
    row.distributionTime < time := by
  rcases h.earlier row hrow with rfl | ⟨-, hlt⟩
  · cases hnext
  · exact hlt

theorem NextAt.filter (h : NextAt time t) : t.rows.filter isNext = [.next time] := by
  have hall : ∀ row ∈ t.rows.filter isNext, row = .next time := by
    intro row hrow
    obtain ⟨hrow, hnext⟩ := List.mem_filter.mp hrow
    rcases h.earlier row hrow with heq | ⟨hnot, -⟩
    · exact heq
    · rw [hnot] at hnext
      cases hnext
  have hmem : .next time ∈ t.rows.filter isNext := List.mem_filter.mpr ⟨h.mem, rfl⟩
  have hnodup : (t.rows.filter isNext).Nodup := t.nodup_rows.filter isNext
  generalize t.rows.filter isNext = rows at hall hmem hnodup
  rcases rows with _ | ⟨first, _ | ⟨second, rest⟩⟩
  · cases hmem
  · rw [hall first List.mem_cons_self]
  · obtain rfl := hall first List.mem_cons_self
    obtain rfl := hall second (List.mem_cons_of_mem _ List.mem_cons_self)
    exact absurd List.mem_cons_self (List.nodup_cons.mp hnodup).1

theorem Begun.schedule {next : Nat} (h : Begun time t) (hlt : time < next)
    (hemplace : t.emplace? (.next next) = some t') : NextAt next t' := by
  refine ⟨(Table.mem_emplace? hemplace).mpr (.inl rfl), fun row hrow => ?_⟩
  rcases (Table.mem_emplace? hemplace).mp hrow with rfl | hrow
  · exact .inl rfl
  · obtain ⟨hnext, hle⟩ := h row hrow
    exact .inr ⟨hnext, Nat.lt_of_le_of_lt hle hlt⟩

/-- The next distribution begins. -/
theorem NextAt.begin (h : NextAt time t) (htime : row.distributionTime = time)
    (hnext : isNext row = false) : Begun time (t.replace row) := by
  intro other hother
  rcases Table.mem_replace.mp hother with ⟨hother, hne⟩ | ⟨rfl, -⟩
  · rcases h.earlier other hother with rfl | ⟨hbegun, hlt⟩
    · exact absurd htime.symm hne
    · exact ⟨hbegun, hlt.le⟩
  · exact ⟨hnext, htime.le⟩

/-- The next distribution is over before it begins. -/
theorem NextAt.drop (h : NextAt time t) : Begun time (t.erase time) := by
  intro other hother
  obtain ⟨hother, hne⟩ := Table.mem_erase.mp hother
  rcases h.earlier other hother with rfl | ⟨hbegun, hlt⟩
  · exact absurd rfl hne
  · exact ⟨hbegun, hlt.le⟩

theorem NextAt.erase (h : NextAt time t) (hrow : row ∈ t.rows) (hnext : isNext row = false) :
    NextAt time (t.erase row.distributionTime) := by
  have hlt := h.not_next hrow hnext
  refine ⟨Table.mem_erase.mpr ⟨h.mem, fun heq => ?_⟩, fun other hother => ?_⟩
  · exact Nat.lt_irrefl _ (heq ▸ hlt)
  · exact h.earlier other (Table.mem_erase.mp hother).1

theorem NextAt.replace (row' : Distribution) (h : NextAt time t) (hrow : row ∈ t.rows) (hnext : isNext row = false)
    (htime : row'.distributionTime = row.distributionTime) (hnext' : isNext row' = false) :
    NextAt time (t.replace row') := by
  have hlt := h.not_next hrow hnext
  refine ⟨Table.mem_replace.mpr (.inl ⟨h.mem, fun heq => ?_⟩), fun other hother => ?_⟩
  · have heq' : time = row'.distributionTime := heq
    omega
  · rcases Table.mem_replace.mp hother with ⟨hother, -⟩ | ⟨rfl, -⟩
    · exact h.earlier other hother
    · exact .inr ⟨hnext', htime ▸ hlt⟩

end Schedules

/-! ### Setting up -/

/-- The amounts of a distribution are in range. -/
def Funded : Distribution → Prop
  | .next _ => True
  | .current _ _ shares => ∀ share ∈ shares, InRange share
  | .election _ amount => InRange amount

/-- There is the master pool at most, and no debt anywhere. -/
structure Solvent (f : Treasury) : Prop where
  pools : ∀ pool ∈ f.distributions.pools.rows, pool = ⟨masterName, 5⟩
  owned : ∀ a ∈ f.owned.rows, InRange a.balance
  accounts : ∀ a ∈ f.distributions.accounts.rows, InRange a.balance
  rows : ∀ row ∈ f.distributions.table.rows, Funded row

/-- The pools before a distribution: the master pool is added when there is none. -/
theorem masterPool_solvent (hf : Solvent f)
    (h : (if f.distributions.pools.rows = [] then emplaceMasterPool p f else .ok f) = .ok f') :
    Solvent f' ∧ f'.owned = f.owned ∧ f'.distributions.table = f.distributions.table ∧
      f'.distributions.accounts = f.distributions.accounts := by
  split at h
  · simp only [emplaceMasterPool, bind_eq_ok, expect_eq_ok, pure_eq_ok] at h
    obtain ⟨pools, hpools, rfl⟩ := h
    refine ⟨{ hf with pools := fun pool hpool => ?_ }, rfl, rfl, rfl⟩
    rcases (Table.mem_emplace? hpools).mp hpool with rfl | hpool
    · rfl
    · exact hf.pools pool hpool
  · cases h
    exact ⟨hf, rfl, rfl, rfl⟩

theorem emplaceAccount_inRange {accounts accounts' : Table DistributionAccount.id} {owner : Name}
    {distributionTime rank : Nat} {balance : Asset}
    (haccounts : ∀ a ∈ accounts.rows, InRange a.balance) (hbalance : InRange balance)
    (h : emplaceAccount accounts owner distributionTime rank balance = .ok accounts') :
    ∀ a ∈ accounts'.rows, InRange a.balance := by
  intro a ha
  rcases (Table.mem_emplace? (expect_eq_ok.mp h)).mp ha with rfl | ha
  · exact hbalance
  · exact haccounts a ha

theorem reservePool_solvent {distributionTime : Nat} {prorateNum : Option Nat}
    {acc acc' : Treasury × Asset} {pool : Pool} (hpct : pool.monthlyDistributionPct ≤ 100)
    (hnum : ∀ num, prorateNum = some num → num ≤ month)
    (hacc : Solvent acc.1 ∧ InRange acc.2)
    (h : reservePool p distributionTime prorateNum acc pool = .ok acc') :
    Solvent acc'.1 ∧ InRange acc'.2 := by
  unfold reservePool at h
  split at h
  · cases h
    exact hacc
  · rename_i account haccount
    simp only [bind_eq_ok, pure_eq_ok] at h
    obtain ⟨amount, hamount, owned, howned, total, htotal, rfl⟩ := h
    have hbalance := hacc.1.owned account (Table.mem_of_find? haccount)
    have hreserved := poolShare_reserved hbalance hpct hnum hamount
    have hle := hreserved.le hpct hbalance.nonneg
    have hgiven : InRange amount := hbalance.of_le hreserved.nonneg hle
    refine ⟨{ hacc.1 with owned := subBalance_inRange hacc.1.owned hreserved.nonneg howned }, ?_⟩
    split at htotal
    · cases htotal
      exact hgiven
    · exact hacc.2.add hgiven htotal

theorem reservePools_solvent {distributionTime : Nat} {prorateNum : Option Nat}
    {acc acc' : Treasury × Asset} {pools : List Pool}
    (hpct : ∀ pool ∈ pools, pool.monthlyDistributionPct ≤ 100)
    (hnum : ∀ num, prorateNum = some num → num ≤ month) (hacc : Solvent acc.1 ∧ InRange acc.2)
    (h : pools.foldlM (reservePool p distributionTime prorateNum) acc = .ok acc') :
    Solvent acc'.1 ∧ InRange acc'.2 := by
  induction pools generalizing acc with
  | nil =>
      cases h
      exact hacc
  | cons pool pools ih =>
      rw [List.foldlM_cons, bind_eq_ok] at h
      obtain ⟨acc₁, hfirst, hrest⟩ := h
      rw [List.forall_mem_cons] at hpct
      exact ih hpct.2 (reservePool_solvent hpct.1 hnum hacc hfirst) hrest

theorem openDistribution_sound {distributionTime : Nat} {total used : Asset} (hf : Solvent f)
    (htotal : InRange total) (hnext : NextAt distributionTime f.distributions.table)
    (h : openDistribution p c f distributionTime total = .ok (f', used)) :
    Solvent f' ∧ Begun distributionTime f'.distributions.table ∧ 0 ≤ used.amount ∧
      used.amount ≤ total.amount := by
  have hrow : ∀ row : Distribution, row.distributionTime = distributionTime → Funded row →
      ∀ other ∈ (f.distributions.table.replace row).rows, Funded other := by
    intro row htime hfunded other hother
    rcases Table.mem_replace.mp hother with ⟨hother, -⟩ | ⟨rfl, -⟩
    · exact hf.rows other hother
    · exact hfunded
  unfold openDistribution at h
  split at h
  · simp only [bind_eq_ok, pure_eq_ok, Prod.mk.injEq] at h
    obtain ⟨⟨shares, amount⟩, hshares, rfl, rfl⟩ := h
    obtain ⟨hall, hnonneg, hle⟩ := makeDistribution_inRange htotal hshares
    refine ⟨{ hf with rows := hrow (.current distributionTime emptyName shares) rfl hall }, ?_,
      hnonneg, hle⟩
    exact hnext.begin rfl rfl
  · simp only [pure_eq_ok, Prod.mk.injEq] at h
    obtain ⟨rfl, rfl⟩ := h
    refine ⟨{ hf with rows := hrow (.election distributionTime total) rfl htotal }, ?_,
      htotal.nonneg, le_rfl⟩
    exact hnext.begin rfl rfl

theorem returnExcess_solvent {distributionTime : Nat} {total used : Asset} (hf : Solvent f)
    (htotal : InRange total) (hnonneg : 0 ≤ used.amount) (hle : used.amount ≤ total.amount)
    (h : returnExcess p f distributionTime total used = .ok f') :
    Solvent f' ∧ f'.distributions = f.distributions := by
  simp only [returnExcess, bind_eq_ok] at h
  obtain ⟨same, -, h⟩ := h
  split at h
  · cases h
    exact ⟨hf, rfl⟩
  · simp only [bind_eq_ok, Asset.sub_eq_ok, pure_eq_ok] at h
    obtain ⟨excess, ⟨-, -, -, rfl⟩, owned, howned, rfl⟩ := h
    have hexcess : InRange ⟨total.amount - used.amount, total.symbol⟩ :=
      htotal.of_le (Int.sub_nonneg_of_le hle) (Int.sub_le_self _ hnonneg)
    exact ⟨{ hf with owned := addBalance_inRange hf.owned hexcess howned }, rfl⟩

theorem fundDistribution_sound {distributionTime : Nat} {total : Asset} (hf : Solvent f)
    (htotal : InRange total) (hnext : NextAt distributionTime f.distributions.table)
    (h : fundDistribution p c f distributionTime total = .ok f') :
    Solvent f' ∧ Begun distributionTime f'.distributions.table ∧
      sumFunds f.distributions.accounts ≤ sumFunds f'.distributions.accounts := by
  unfold fundDistribution at h
  split at h
  · simp only [bind_eq_ok, pure_eq_ok] at h
    obtain ⟨⟨f₁, used⟩, hopen, f₂, hexcess, accounts, haccounts, rfl⟩ := h
    obtain ⟨hf₁, hbegun, hnonneg, hle⟩ := openDistribution_sound hf htotal hnext hopen
    obtain ⟨hf₂, hsame⟩ := returnExcess_solvent hf₁ htotal hnonneg hle hexcess
    have hused : InRange used := htotal.of_le hnonneg hle
    obtain ⟨-, hkept, -, -⟩ := openDistribution_keeps hopen
    have hsum := sumFunds_emplaceAccount haccounts
    refine ⟨{ hf₂ with accounts := emplaceAccount_inRange hf₂.accounts hused haccounts }, ?_, ?_⟩
    · rw [hsame]
      exact hbegun
    · rw [hsame, hkept] at hsum
      dsimp only at hsum ⊢
      omega
  · cases h
    refine ⟨{ hf with rows := fun row hrow => hf.rows row (Table.mem_erase.mp hrow).1 }, ?_, le_rfl⟩
    exact hnext.drop

theorem scheduleDistribution_sound {time next : Nat} (hf : Solvent f)
    (hbegun : Begun time f.distributions.table) (hlt : time < next)
    (h : scheduleDistribution p f next = .ok f') :
    Solvent f' ∧ NextAt next f'.distributions.table ∧
      f'.distributions.accounts = f.distributions.accounts := by
  simp only [scheduleDistribution, bind_eq_ok, expect_eq_ok, pure_eq_ok] at h
  obtain ⟨table, htable, rfl⟩ := h
  refine ⟨{ hf with rows := fun row hrow => ?_ }, hbegun.schedule hlt htable, rfl⟩
  rcases (Table.mem_emplace? htable).mp hrow with rfl | hrow
  · trivial
  · exact hf.rows row hrow

/-! ### The next distribution -/

/-- A month later, or at an election in between. -/
theorem nextDistribution_cases {time : Nat} (hwrap : time + 2 * month < 2 ^ 32) :
    (∃ e, c.nextElectionTime = some e ∧ time < e ∧ e < time + 2 * month ∧
        nextDistribution c time = (e, some ((e - time) / 2))) ∨
      nextDistribution c time = (time + 2 * month, none) := by
  have hmonth : ofTimePoint (toTimePoint time + days 30) = time + 2 * month := by
    rw [days, ofTimePoint_add_seconds time _ (by omega)]
    unfold month at hwrap ⊢
    omega
  unfold nextDistribution
  rw [hmonth]
  split
  · exact .inr rfl
  · rename_i e helection
    dsimp only
    split
    · rename_i hbetween
      exact .inl ⟨e, helection, hbetween.2, hbetween.1, rfl⟩
    · exact .inr rfl

theorem nextDistribution_later {time : Nat} (hwrap : time + 2 * month < 2 ^ 32) :
    time < (nextDistribution c time).1 ∧
      ∀ num, (nextDistribution c time).2 = some num → num ≤ month := by
  have hpos : 0 < month := by decide
  rcases nextDistribution_cases (c := c) hwrap with ⟨e, -, hlater, hmonth, heq⟩ | heq
  · rw [heq]
    refine ⟨hlater, fun num hnum => ?_⟩
    obtain rfl := Option.some.inj hnum
    omega
  · rw [heq]
    refine ⟨?_, fun num hnum => ?_⟩
    · dsimp only
      omega
    · cases hnum

/-! ### Turns of the loop -/

theorem startDistribution_sound {time : Nat} (hwrap : time + 2 * month < 2 ^ 32) (hf : Solvent f)
    (hnext : NextAt time f.distributions.table)
    (h : startDistribution p c f time = .ok f') :
    Solvent f' ∧ NextAt (nextDistribution c time).1 f'.distributions.table ∧
      sumFunds f.distributions.accounts ≤ sumFunds f'.distributions.accounts := by
  obtain ⟨hlater, hnum⟩ := nextDistribution_later (c := c) hwrap
  simp only [startDistribution, bind_eq_ok] at h
  obtain ⟨f₁, hpool, ⟨f₂, total⟩, hreserve, f₃, hfund, h⟩ := h
  obtain ⟨hf₁, -, htable, haccounts⟩ := masterPool_solvent hf hpool
  have hreserved : (Solvent f₂ ∧ InRange total) ∧ f₂.distributions = f₁.distributions := by
    have hfold := reservePools_holding (fun pool hpool => by rw [hf₁.pools pool hpool]) hreserve
      (Holding.refl f₁)
    refine ⟨reservePools_solvent (fun pool hpool => ?_) hnum ⟨hf₁, inRange_zero _⟩ hreserve,
      hfold.distributions⟩
    rw [hf₁.pools pool hpool]
    decide
  obtain ⟨⟨hf₂, htotal⟩, hsame⟩ := hreserved
  rw [← htable, ← hsame] at hnext
  obtain ⟨hf₃, hbegun, hsum⟩ := fundDistribution_sound hf₂ htotal hnext hfund
  obtain ⟨hf', hnext', hkept⟩ := scheduleDistribution_sound hf₃ hbegun hlater h
  refine ⟨hf', hnext', ?_⟩
  rwa [hkept, ← haccounts, ← hsame]

/-- The time of the block is not at the end of the 32 bits. -/
def beforeEnd (now : Nat) : Prop := now + 2 * month < 2 ^ 32

instance (now : Nat) : Decidable (beforeEnd now) :=
  inferInstanceAs (Decidable (now + 2 * month < 2 ^ 32))

theorem setupFrom_sound {fuel : Nat} {row : Distribution} {result : Bool} {r : Treasury × Bool}
    (hend : beforeEnd c.now) (hf : Solvent f) {time : Nat}
    (hnext : NextAt time f.distributions.table) (hrow : row = .next time) (hpos : 0 < time)
    (h : setupFrom p c fuel f row result = .ok r) :
    Solvent r.1 ∧ ∃ next, c.now < next ∧ 0 < next ∧ NextAt next r.1.distributions.table := by
  induction fuel generalizing f row result time with
  | zero => cases h
  | succ fuel ih =>
      subst hrow
      simp only [setupFrom] at h
      split at h
      · rename_i hcome
        cases h
        exact ⟨hf, time, hcome, hpos, hnext⟩
      · rename_i hcome
        simp only [bind_eq_ok] at h
        obtain ⟨f₁, hstart, h⟩ := h
        have hwrap : time + 2 * month < 2 ^ 32 := by
          unfold beforeEnd at hend
          omega
        obtain ⟨hlater, -⟩ := nextDistribution_later (c := c) hwrap
        obtain ⟨hf₁, hnext₁, -⟩ := startDistribution_sound hwrap hf hnext hstart
        exact ih hf₁ hnext₁ rfl (Nat.lt_of_le_of_lt (Nat.zero_le time) hlater) h

/-- Treasuries without debts that have at most one distribution still to come. -/
structure Sound (f : Treasury) : Prop where
  solvent : Solvent f
  planned : Planned f.distributions.table

theorem Sound.of_same {f f' : Treasury} (h : Sound f) (howned : f'.owned = f.owned)
    (hdistributions : f'.distributions = f.distributions) : Sound f' := by
  refine ⟨⟨?_, ?_, ?_, ?_⟩, ?_⟩
  · rw [hdistributions]
    exact h.solvent.pools
  · rw [howned]
    exact h.solvent.owned
  · rw [hdistributions]
    exact h.solvent.accounts
  · rw [hdistributions]
    exact h.solvent.rows
  · rw [hdistributions]
    exact h.planned

theorem Planned.next {t : Schedule} {row : Distribution} (h : Planned t)
    (hlast : t.rows.getLast? = some row) : ∃ time, 0 < time ∧ NextAt time t ∧ row = .next time := by
  rcases h with hnone | ⟨time, hpos, hnext⟩
  · rw [hnone] at hlast
    cases hlast
  · exact ⟨time, hpos, hnext, hnext.last hlast⟩

/-- The first distribution is announced. -/
theorem scheduleDistribution_first {init : Nat} (hf : Solvent f)
    (hnone : f.distributions.table.rows = [])
    (h : scheduleDistribution p f init = .ok f') :
    Solvent f' ∧ NextAt init f'.distributions.table := by
  simp only [scheduleDistribution, bind_eq_ok, expect_eq_ok, pure_eq_ok] at h
  obtain ⟨table, htable, rfl⟩ := h
  have honly : ∀ row ∈ table.rows, row = .next init := by
    intro row hrow
    rcases (Table.mem_emplace? htable).mp hrow with rfl | hrow
    · rfl
    · rw [hnone] at hrow
      cases hrow
  refine ⟨{ hf with rows := fun row hrow => ?_ },
    (Table.mem_emplace? htable).mpr (.inl rfl), fun row hrow => .inl (honly row hrow)⟩
  rw [honly row hrow]
  trivial

theorem setupDistribution_sound {init : Nat} {r : Treasury × Bool} (hend : beforeEnd c.now)
    (hf : Sound f) (h : setupDistribution p c f init = .ok r) : Sound r.1 := by
  simp only [setupDistribution] at h
  have hend' : beforeEnd (if init = 0 then c else { c with nextElectionTime := some init }).now := by
    split
    · exact hend
    · exact hend
  generalize (if init = 0 then c else { c with nextElectionTime := some init }) = c' at h hend'
  split at h
  · rename_i last hlast
    obtain ⟨time, hpos, hnext, hrow⟩ := hf.planned.next hlast
    obtain ⟨hr, next, -, hpos', hnext'⟩ := setupFrom_sound hend' hf.solvent hnext hrow hpos h
    exact ⟨hr, .inr ⟨next, hpos', hnext'⟩⟩
  · rename_i hnone
    split at h
    · cases h
      exact hf
    · rename_i hinit
      simp only [bind_eq_ok] at h
      obtain ⟨f₁, hschedule, h⟩ := h
      obtain ⟨hf₁, hnext⟩ :=
        scheduleDistribution_first hf.solvent (List.getLast?_eq_none_iff.mp hnone) hschedule
      obtain ⟨hr, next, -, hpos', hnext'⟩ :=
        setupFrom_sound hend' hf₁ hnext rfl (Nat.pos_of_ne_zero hinit) h
      exact ⟨hr, .inr ⟨next, hpos', hnext'⟩⟩

theorem addToPool_sound {pool : Name} {amount : Asset} (hend : beforeEnd c.now) (hf : Sound f)
    (hamount : InRange amount) (h : addToPool p c f pool amount = .ok f') : Sound f' := by
  simp only [addToPool, bind_eq_ok, pure_eq_ok] at h
  obtain ⟨⟨f₁, started⟩, hsetup, owned, howned, rfl⟩ := h
  have hf₁ := setupDistribution_sound hend hf hsetup
  exact ⟨{ hf₁.solvent with owned := addBalance_inRange hf₁.solvent.owned hamount howned },
    hf₁.planned⟩

/-! ### Paying out -/

/-- The distribution accounts have no debts, but for one that is being paid out of. -/
def InRangeBut (pool : Option Nat) (accounts : Table DistributionAccount.id) : Prop :=
  ∀ a ∈ accounts.rows, a.balance.amount < 2 ^ 63 ∧ (0 ≤ a.balance.amount ∨ pool = some a.id)

theorem drawFrom_inRange {accounts accounts' : Table DistributionAccount.id} {pool : Option Nat}
    {amount : Asset} (hamount : 0 ≤ amount.amount) (haccounts : InRangeBut pool accounts)
    (h : drawFrom accounts pool amount = .ok accounts') : InRangeBut pool accounts' := by
  unfold drawFrom at h
  split at h
  · rename_i row hrow
    simp only [bind_eq_ok, Asset.sub_eq_ok, pure_eq_ok] at h
    obtain ⟨balance, ⟨-, -, -, rfl⟩, rfl⟩ := h
    obtain ⟨id, rfl, hfound⟩ := Option.bind_eq_some_iff.mp hrow
    intro a ha
    rcases Table.mem_replace.mp ha with ⟨ha, -⟩ | ⟨rfl, -⟩
    · exact haccounts a ha
    · have hlt := (haccounts row (Table.mem_of_find? hfound)).1
      have hid : id = row.id := (Table.key_of_find? hfound).symm
      refine ⟨?_, .inr (congrArg some hid)⟩
      dsimp only
      omega
  · simp only [bind_eq_ok, pure_eq_ok] at h
    obtain ⟨-, -, rfl⟩ := h
    exact haccounts

/-- The parts of a treasury that a payment to members leaves alone. -/
structure PaidOut (pool : Option Nat) (f f' : Treasury) : Prop where
  owned : f'.owned = f.owned
  table : f'.distributions.table = f.distributions.table
  pools : f'.distributions.pools = f.distributions.pools
  accounts : InRangeBut pool f.distributions.accounts → InRangeBut pool f'.distributions.accounts

theorem PaidOut.refl (pool : Option Nat) (f : Treasury) : PaidOut pool f f := ⟨rfl, rfl, rfl, id⟩

theorem PaidOut.trans {pool : Option Nat} {f₁ f₂ f₃ : Treasury} (h₁ : PaidOut pool f₁ f₂)
    (h₂ : PaidOut pool f₂ f₃) : PaidOut pool f₁ f₃ :=
  ⟨h₂.owned.trans h₁.owned, h₂.table.trans h₁.table, h₂.pools.trans h₁.pools,
    h₂.accounts ∘ h₁.accounts⟩

theorem fundRank_paidOut {distributionTime : Nat} {pool : Option Nat} {owner : Name}
    {share : Nat × Asset} (hshare : InRange share.2)
    (h : fundRank p distributionTime pool owner f share = .ok f') : PaidOut pool f f' := by
  simp only [fundRank, bind_eq_ok, pure_eq_ok] at h
  obtain ⟨added, hadded, drawn, hdrawn, rfl⟩ := h
  refine ⟨rfl, rfl, rfl, fun haccounts => drawFrom_inRange hshare.nonneg (fun a ha => ?_) hdrawn⟩
  rcases (Table.mem_emplace? (expect_eq_ok.mp hadded)).mp ha with rfl | ha
  · exact ⟨hshare.lt, .inl hshare.nonneg⟩
  · exact haccounts a ha

theorem fundRanks_paidOut {distributionTime : Nat} {pool : Option Nat} {owner : Name}
    {shares : List (Nat × Asset)} (hshares : ∀ share ∈ shares, InRange share.2)
    (h : shares.foldlM (fundRank p distributionTime pool owner) f = .ok f') :
    PaidOut pool f f' := by
  induction shares generalizing f with
  | nil =>
      cases h
      exact .refl pool _
  | cons share shares ih =>
      rw [List.foldlM_cons, bind_eq_ok] at h
      obtain ⟨f₁, hfirst, hrest⟩ := h
      rw [List.forall_mem_cons] at hshares
      exact (fundRank_paidOut hshares.1 hfirst).trans (ih hshares.2 hrest)

theorem fundMembers_paidOut {distributionTime : Nat} {shares : List Asset} {pool : Option Nat}
    {maxSteps : Nat} {members : List Member} {last : Name} {r : Nat × Name × Treasury}
    (hshares : ∀ share ∈ shares, InRange share)
    (h : fundMembers p distributionTime shares pool maxSteps members last f = .ok r) :
    PaidOut pool f r.2.2 := by
  fun_induction fundMembers p distributionTime shares pool maxSteps members last f with
  | case1 members last f =>
      cases h
      exact .refl pool f
  | case2 maxSteps last f =>
      cases h
      exact .refl pool f
  | case3 last maxSteps member rest f ih =>
      simp only [bind_eq_ok] at h
      obtain ⟨-, -, f₁, hfund, h⟩ := h
      have hpaid : PaidOut pool f f₁ := fundRanks_paidOut (fun share hshare =>
        hshares share.2 (List.mem_of_mem_take (List.of_mem_zip hshare).2)) hfund
      exact hpaid.trans (ih f₁ h)

theorem closePool_inRange {pool : Option Nat} (hf : InRangeBut pool f.distributions.accounts)
    (h : closePool f pool = .ok f') :
    (∀ a ∈ f'.distributions.accounts.rows, InRange a.balance) ∧ f'.owned = f.owned ∧
      f'.distributions.table = f.distributions.table ∧
      f'.distributions.pools = f.distributions.pools := by
  unfold closePool at h
  split at h
  · rename_i hnone
    cases h
    refine ⟨fun a ha => ⟨?_, (hf a ha).1⟩, rfl, rfl, rfl⟩
    rcases (hf a ha).2 with hnonneg | hpool
    · exact hnonneg
    · rw [hpool, Option.bind_some, Table.find?_of_mem ha] at hnone
      cases hnone
  · rename_i row hrow
    simp only [bind_eq_ok, check_eq_ok] at h
    obtain ⟨-, hcheck, h⟩ := h
    rw [decide_eq_true_eq] at hcheck
    obtain ⟨id, rfl, hfound⟩ := Option.bind_eq_some_iff.mp hrow
    have hall : ∀ a ∈ f.distributions.accounts.rows, InRange a.balance := by
      intro a ha
      refine ⟨?_, (hf a ha).1⟩
      rcases (hf a ha).2 with hnonneg | hpool
      · exact hnonneg
      · obtain rfl := Option.some.inj hpool
        rw [Table.find?_of_mem ha, Option.some.injEq] at hfound
        exact hfound ▸ hcheck
    split at h
    · cases h
      exact ⟨fun a ha => hall a (Table.mem_erase.mp ha).1, rfl, rfl, rfl⟩
    · cases h
      exact ⟨hall, rfl, rfl, rfl⟩

theorem distributeCurrent_solvent {members : Table Member.account} {maxSteps distributionTime : Nat}
    {last : Name} {shares : List Asset} {r : Nat × Name × Treasury} (hf : Solvent f)
    (hshares : ∀ share ∈ shares, InRange share)
    (h : distributeCurrent p members maxSteps distributionTime last shares f = .ok r) :
    Solvent r.2.2 ∧ r.2.2.distributions.table = f.distributions.table := by
  simp only [distributeCurrent, bind_eq_ok, pure_eq_ok] at h
  obtain ⟨⟨remaining, last', f₁⟩, hfund, f₂, hclose, rfl⟩ := h
  have hpaid := fundMembers_paidOut hshares hfund
  obtain ⟨haccounts, howned, htable, hpools⟩ := closePool_inRange
    (hpaid.accounts fun a ha => ⟨(hf.accounts a ha).lt, .inl (hf.accounts a ha).nonneg⟩) hclose
  dsimp only at howned htable hpools hpaid ⊢
  refine ⟨⟨?_, ?_, haccounts, ?_⟩, htable.trans hpaid.table⟩
  · rw [hpools, hpaid.pools]
    exact hf.pools
  · rw [howned, hpaid.owned]
    exact hf.owned
  · rw [htable, hpaid.table]
    exact hf.rows

theorem distributeRows_sound {members : Table Member.account} {rows : List Distribution}
    {maxSteps : Nat} {r : Nat × Treasury} {time : Nat} (hf : Solvent f)
    (hnext : NextAt time f.distributions.table)
    (hrows : ∀ row ∈ rows, row ∈ f.distributions.table.rows)
    (hnodup : (rows.map Distribution.distributionTime).Nodup)
    (h : distributeRows p members rows maxSteps f = .ok r) :
    Solvent r.2 ∧ NextAt time r.2.distributions.table := by
  induction rows generalizing maxSteps f with
  | nil =>
      cases h
      exact ⟨hf, hnext⟩
  | cons row rest ih =>
      simp only [distributeRows] at h
      split at h
      · cases h
        exact ⟨hf, hnext⟩
      · split at h
        · rename_i distributionTime last shares
          simp only [bind_eq_ok] at h
          obtain ⟨⟨remaining, last', f₁⟩, hcurrent, h⟩ := h
          have hmem := hrows _ List.mem_cons_self
          have hshares : Funded (.current distributionTime last shares) := hf.rows _ hmem
          obtain ⟨hf₁, htable⟩ := distributeCurrent_solvent hf hshares hcurrent
          dsimp only at hf₁ htable h
          rw [← htable] at hnext hmem
          split at h
          · cases h
            refine ⟨{ hf₁ with rows := fun other hother => ?_ },
              hnext.replace (.current distributionTime last' shares) hmem rfl rfl rfl⟩
            rcases Table.mem_replace.mp hother with ⟨hother, -⟩ | ⟨rfl, -⟩
            · exact hf₁.rows other hother
            · exact hshares
          · rw [List.map_cons, List.nodup_cons] at hnodup
            refine ih ?_ ?_ ?_ hnodup.2 h
            · exact { hf₁ with
                rows := fun other hother => hf₁.rows other (Table.mem_erase.mp hother).1 }
            · exact hnext.erase hmem rfl
            · intro other hother
              refine Table.mem_erase.mpr ⟨?_, fun htime => hnodup.1 ?_⟩
              · rw [htable]
                exact hrows other (List.mem_cons_of_mem _ hother)
              · exact List.mem_map.mpr ⟨other, hother, htime⟩
        · cases h
          exact ⟨hf, hnext⟩
        · cases h
          exact ⟨hf, hnext⟩

theorem distributeMonthly_sound {members : Table Member.account} {maxSteps : Nat}
    {r : Nat × Treasury} (hend : beforeEnd c.now) (hf : Sound f)
    (h : distributeMonthly p c members maxSteps f = .ok r) : Sound r.2 := by
  unfold distributeMonthly at h
  split at h
  · cases h
    exact hf
  · simp only [bind_eq_ok] at h
    obtain ⟨⟨f₁, started⟩, hsetup, h⟩ := h
    have hf₁ := setupDistribution_sound hend hf hsetup
    rcases hf₁.planned with hnone | ⟨time, hpos, hnext⟩
    · dsimp only at h hnone
      rw [hnone] at h
      cases h
      exact hf₁
    · obtain ⟨hr, hnext'⟩ := distributeRows_sound hf₁.solvent hnext (fun row hrow => hrow)
        (Table.nodup_keys _) h
      exact ⟨hr, .inr ⟨time, hpos, hnext'⟩⟩

theorem processElectionRows_sound {ranks : List Nat} {rows : List Distribution} {time : Nat}
    (hf : Solvent f) (hnext : NextAt time f.distributions.table)
    (hrows : ∀ row ∈ rows, row ∈ f.distributions.table.rows)
    (hnodup : (rows.map Distribution.distributionTime).Nodup)
    (h : processElectionRows p ranks rows f = .ok f') :
    Solvent f' ∧ NextAt time f'.distributions.table := by
  fun_induction processElectionRows p ranks rows f with
  | case1 f =>
      cases h
      exact ⟨hf, hnext⟩
  | case2 t amount rest f ih =>
      simp only [bind_eq_ok, beginElectionDistribution, pure_eq_ok] at h
      obtain ⟨f₁, ⟨⟨shares, used⟩, hshares, -, -, -, -, rfl⟩, h⟩ := h
      have hmem := hrows _ List.mem_cons_self
      have hamount : Funded (.election t amount) := hf.rows _ hmem
      obtain ⟨hall, -, -⟩ := makeDistribution_inRange hamount hshares
      rw [List.map_cons, List.nodup_cons] at hnodup
      refine ih _ ?_ ?_ ?_ hnodup.2 h
      · refine { hf with rows := fun other hother => ?_ }
        rcases Table.mem_replace.mp hother with ⟨hother, -⟩ | ⟨rfl, -⟩
        · exact hf.rows other hother
        · exact hall
      · exact hnext.replace (.current t emptyName shares) hmem rfl rfl rfl
      · intro row hrow
        refine Table.mem_replace.mpr (.inl ⟨hrows row (List.mem_cons_of_mem _ hrow), ?_⟩)
        exact fun htime => hnodup.1 (List.mem_map.mpr ⟨row, hrow, htime⟩)
  | case3 t last shares rest f ih =>
      rw [List.map_cons, List.nodup_cons] at hnodup
      exact ih hf hnext (fun row hrow => hrows row (List.mem_cons_of_mem _ hrow)) hnodup.2 h
  | case4 t rest f =>
      cases h
      exact ⟨hf, hnext⟩

theorem processElectionDistribution_sound {ranks : List Nat} (hf : Sound f)
    (h : processElectionDistribution p ranks f = .ok f') : Sound f' := by
  unfold processElectionDistribution at h
  rcases hf.planned with hnone | ⟨time, hpos, hnext⟩
  · rw [hnone] at h
    cases h
    exact hf
  · obtain ⟨hf', hnext'⟩ := processElectionRows_sound hf.solvent hnext (fun row hrow => hrow)
      (Table.nodup_keys _) h
    exact ⟨hf', .inr ⟨time, hpos, hnext'⟩⟩

/-! ### Members who leave or change their account -/

theorem subAccount_inRange {accounts accounts' : Table DistributionAccount.id} {sender : Name}
    {distributionTime rank : Nat} {amount : Asset}
    (haccounts : ∀ a ∈ accounts.rows, InRange a.balance) (hamount : 0 ≤ amount.amount)
    (h : subAccount accounts sender distributionTime rank amount = .ok accounts') :
    ∀ a ∈ accounts'.rows, InRange a.balance := by
  simp only [subAccount, bind_eq_ok, getRow_eq_ok, check_eq_ok, Asset.ge_eq_ok] at h
  obtain ⟨row, hrow, -, ⟨-, rfl⟩, -, hge, same, -, h⟩ := h
  rw [decide_eq_true_eq] at hge
  have hmem := Table.mem_of_find? (find?_of_findByOwner hrow)
  intro a ha
  split at h
  · cases h
    exact haccounts a (Table.mem_erase.mp ha).1
  · simp only [bind_eq_ok, Asset.sub_eq_ok, pure_eq_ok] at h
    obtain ⟨balance, ⟨-, -, -, rfl⟩, rfl⟩ := h
    rcases Table.mem_replace.mp ha with ⟨ha, -⟩ | ⟨rfl, -⟩
    · exact haccounts a ha
    · exact (haccounts row hmem).of_le (Int.sub_nonneg_of_le hge) (Int.sub_le_self _ hamount)

theorem returnAccounts_solvent {rows : List DistributionAccount}
    (hrows : ∀ row ∈ rows, InRange row.balance) (hf : Solvent f)
    (h : rows.foldlM (returnAccount p) f = .ok f') :
    Solvent f' ∧ f'.distributions.table = f.distributions.table := by
  induction rows generalizing f with
  | nil =>
      cases h
      exact ⟨hf, rfl⟩
  | cons row rows ih =>
      rw [List.foldlM_cons, bind_eq_ok] at h
      obtain ⟨f₁, hfirst, hrest⟩ := h
      simp only [returnAccount, bind_eq_ok, pure_eq_ok] at hfirst
      obtain ⟨owned, howned, rfl⟩ := hfirst
      rw [List.forall_mem_cons] at hrows
      have hkept := ih hrows.2 ?_ hrest
      · exact hkept
      · exact { hf with
          owned := addBalance_inRange hf.owned hrows.1 howned
          accounts := fun a ha => hf.accounts a (Table.mem_erase.mp ha).1 }

theorem sumShares_inRange {shares : List Asset} {amount : Asset}
    (hshares : ∀ share ∈ shares, InRange share) (h : sumShares shares = .ok amount) :
    InRange amount := by
  cases shares with
  | nil => cases h
  | cons share rest =>
      rw [List.forall_mem_cons] at hshares
      have hfold : ∀ (l : List Asset) (sum : Asset), (∀ share ∈ l, InRange share) → InRange sum →
          l.foldlM Asset.add sum = .ok amount → InRange amount := by
        intro l
        induction l with
        | nil =>
            intro sum _ hsum h
            cases h
            exact hsum
        | cons first l ih =>
            intro sum hl hsum h
            rw [List.foldlM_cons, bind_eq_ok] at h
            obtain ⟨sum', hadd, h⟩ := h
            rw [List.forall_mem_cons] at hl
            exact ih sum' hl.2 (hsum.add hl.1 hadd) h
      exact hfold rest share hshares.2 hshares.1 h

theorem returnShare_solvent {member : Member} {distributionTime : Nat} {shares : List Asset}
    (hshares : ∀ share ∈ shares, InRange share) (hf : Solvent f)
    (h : returnShare p f member distributionTime shares = .ok f') :
    Solvent f' ∧ f'.distributions.table = f.distributions.table := by
  simp only [returnShare, bind_eq_ok, pure_eq_ok] at h
  obtain ⟨-, -, amount, hamount, accounts, haccounts, owned, howned, rfl⟩ := h
  have hrange := sumShares_inRange (fun share hshare =>
    hshares share (List.mem_of_mem_take hshare)) hamount
  refine ⟨{ hf with owned := addBalance_inRange hf.owned hrange howned, accounts := ?_ }, rfl⟩
  split at haccounts
  · rename_i row hrow
    have hsub : subAccount f.distributions.accounts p.self distributionTime 0 amount =
        .ok accounts := by
      rw [subAccount, hrow]
      exact haccounts
    exact subAccount_inRange hf.accounts hrange.nonneg hsub
  · simp only [bind_eq_ok, pure_eq_ok] at haccounts
    obtain ⟨-, -, rfl⟩ := haccounts
    exact hf.accounts

theorem returnShares_solvent {member : Member} {rows : List Distribution}
    (hrows : ∀ row ∈ rows, Funded row) (hf : Solvent f)
    (h : returnShares p member rows f = .ok f') :
    Solvent f' ∧ f'.distributions.table = f.distributions.table := by
  fun_induction returnShares p member rows f with
  | case1 f t last shares rest _ ih =>
      simp only [bind_eq_ok] at h
      obtain ⟨f₁, hshare, h⟩ := h
      rw [List.forall_mem_cons] at hrows
      obtain ⟨hf₁, htable⟩ := returnShare_solvent hrows.1 hf hshare
      obtain ⟨hf', htable'⟩ := ih f₁ hrows.2 hf₁ h
      exact ⟨hf', htable'.trans htable⟩
  | case2 f t last shares rest _ ih =>
      rw [List.forall_mem_cons] at hrows
      exact ih hrows.2 hf h
  | case3 f rows _ =>
      cases h
      exact ⟨hf, rfl⟩

theorem onResign_sound {member : Member} (hend : beforeEnd c.now) (hf : Sound f)
    (h : onResign p c f member = .ok f') : Sound f' := by
  simp only [onResign, bind_eq_ok] at h
  obtain ⟨⟨f₁, started⟩, hsetup, f₂, haccounts, h⟩ := h
  have hf₁ := setupDistribution_sound hend hf hsetup
  obtain ⟨hf₂, htable⟩ := returnAccounts_solvent (fun row hrow => hf₁.solvent.accounts row
    (Table.mem_index.mp (List.mem_filter.mp hrow).1)) hf₁.solvent haccounts
  obtain ⟨hf', htable'⟩ := returnShares_solvent hf₂.rows hf₂ h
  refine ⟨hf', ?_⟩
  rw [htable', htable]
  exact hf₁.planned

theorem onRename_sound {oldAccount newAccount : Name} (hend : beforeEnd c.now) (hf : Sound f)
    (h : DistributionTables.onRename p c f oldAccount newAccount = .ok f') : Sound f' := by
  simp only [DistributionTables.onRename, bind_eq_ok, pure_eq_ok] at h
  obtain ⟨-, -, ⟨f₁, started⟩, hsetup, rfl⟩ := h
  have hf₁ := setupDistribution_sound hend hf hsetup
  refine ⟨{ hf₁.solvent with accounts := fun a ha => ?_ }, hf₁.planned⟩
  simp only [Table.mem_update] at ha
  obtain ⟨b, hb, rfl⟩ := ha
  split
  · exact hf₁.solvent.accounts b hb
  · exact hf₁.solvent.accounts b hb

end Eden.SoundTreasury
