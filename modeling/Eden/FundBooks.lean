import Eden.EmittedEvents
import Eden.MirrorTables

/-!
What a trace says about the funds of distributions, and when it agrees with the tables of the
contract.
-/

namespace Eden.FundBooks

open Eden.ExceptReasoning
open Eden.SortedTable
open Eden.ObjectTable
open Eden.ObjectTable.Objects
open Eden.ChainPrimitives
open Eden.ContractState
open Eden.Runtime
open Eden.DistributionTables
open Eden.MirrorTables

abbrev Funds := Objects DistributionFundObject.byPk

/-- The times of the distributions that have been scheduled, and the funds. -/
structure FundBook where
  times : List Nat := []
  funds : Funds := ∅

/-- How far a trace can be followed: it goes on, it ends where a distribution is scheduled twice,
or it breaks where a fund is opened twice or is not there. -/
inductive Progress
  | running (book : FundBook)
  | ended
  | broken

def withBalance (balance : Asset) (fund : DistributionFundObject) : DistributionFundObject :=
  { fund with currentBalance := balance }

@[simp] theorem byPk_withBalance (balance : Asset) (fund : DistributionFundObject) :
    (withBalance balance fund).byPk = fund.byPk := rfl

/-- Take an amount from a fund. -/
def spend (funds : Funds) (k : Name × Nat × Nat) (amount : Asset) : Option Funds :=
  (funds.find? k).bind fun fund =>
    (fund.currentBalance.sub amount).toOption.map fun balance =>
      funds.modify k (withBalance balance) (byPk_withBalance balance)

namespace FundBook

def withFunds (book : FundBook) : Option Funds → Progress
  | none => .broken
  | some funds => .running { book with funds := funds }

def postEvent (book : FundBook) : Event → Progress
  | .distributionSchedule distributionTime =>
      if distributionTime ∈ book.times then .ended
      else .running { book with times := book.times ++ [distributionTime] }
  | .distributionFund owner distributionTime rank balance =>
      book.withFunds (book.funds.emplace? ⟨owner, distributionTime, rank, balance, balance⟩)
  | .distributionReturn owner distributionTime rank amount _ =>
      book.withFunds (spend book.funds (owner, distributionTime, rank) amount)
  | _ => .running book

def post (book : FundBook) : Executed → Progress
  | .action (.fundtransfer sender distributionTime rank _ amount _) =>
      book.withFunds (spend book.funds (sender, distributionTime, rank) amount)
  | .events [e] => book.postEvent e
  | _ => .running book

end FundBook

namespace Progress

def post : Progress → Executed → Progress
  | .running book, x => book.post x
  | .ended, _ => .ended
  | .broken, _ => .broken

/-- Follow a trace from the beginning. -/
def follow (l : List Executed) : Progress := l.foldl post (.running {})

/-- What holds of the book, as long as the trace goes on and unless it breaks. -/
def Holds (Q : FundBook → Prop) : Progress → Prop
  | .running book => Q book
  | .ended => True
  | .broken => False

theorem Holds.mono {Q R : FundBook → Prop} {x : Progress} (hQR : ∀ book, Q book → R book)
    (h : x.Holds Q) : x.Holds R := by
  cases x with
  | running book => exact hQR book h
  | ended => trivial
  | broken => exact h

theorem Holds.post {Q R : FundBook → Prop} {x : Progress} {e : Executed} (h : x.Holds Q)
    (he : ∀ book, Q book → (book.post e).Holds R) : (x.post e).Holds R := by
  cases x with
  | running book => exact he book h
  | ended => trivial
  | broken => exact h

end Progress

open Progress

/-- Entries that no fund is about. -/
def Neutral (e : Executed) : Prop := ∀ book : FundBook, book.post e = .running book

theorem post_neutral {e : Executed} (h : Neutral e) (x : Progress) : x.post e = x := by
  cases x with
  | running book => exact h book
  | ended => rfl
  | broken => rfl

theorem foldl_neutral {l : List Executed} (h : ∀ e ∈ l, Neutral e) (x : Progress) :
    l.foldl post x = x := by
  induction l with
  | nil => rfl
  | cons e l ih =>
      rw [List.foldl_cons, post_neutral (h e List.mem_cons_self)]
      exact ih fun e' he' => h e' (List.mem_cons_of_mem e he')

theorem follow_append (l r : List Executed) : follow (l ++ r) = r.foldl post (follow l) :=
  List.foldl_append

/-- A trace that has broken stays broken. -/
theorem foldl_broken (l : List Executed) : l.foldl post .broken = .broken := by
  induction l with
  | nil => rfl
  | cons e l ih => exact ih

/-! ### The accounts of the members -/

/-- What the index `byowner` is sorted by. -/
def fundKey (a : DistributionAccount) : Name × Nat × Nat := (a.owner, a.distributionTime, a.rank)

abbrev FundAccounts := Table DistributionAccount.id

theorem findByOwner_eq_some {accounts : FundAccounts} {key : Nat} {a : DistributionAccount}
    (h : findByOwner accounts key = some a) : a ∈ accounts.rows ∧ a.byOwner = key :=
  ⟨Table.mem_index.mp (List.mem_of_find?_eq_some h), by simpa using List.find?_some h⟩

theorem digits_eq {a b x y : Nat} (hx : x < 2 ^ 32) (hy : y < 2 ^ 32)
    (h : a * 2 ^ 32 + x = b * 2 ^ 32 + y) : a = b ∧ x = y := by omega

theorem fundKey_of_byOwner {a : DistributionAccount} {owner : Name} {distributionTime rank : Nat}
    (hsmall : a.distributionTime < 2 ^ 32 ∧ a.rank < 2 ^ 32) (htime : distributionTime < 2 ^ 32)
    (hrank : rank < 2 ^ 32) (h : a.byOwner = distributionAccountKey owner distributionTime rank) :
    fundKey a = (owner, distributionTime, rank) := by
  simp only [DistributionAccount.byOwner, distributionAccountKey] at h
  have hdigits : (a.owner * 2 ^ 32 + a.distributionTime) * 2 ^ 32 + a.rank =
      (owner * 2 ^ 32 + distributionTime) * 2 ^ 32 + rank := by
    simpa only [Nat.add_mul, Nat.mul_assoc, ← Nat.pow_add, Nat.reduceAdd] using h
  obtain ⟨hupper, hrank'⟩ := digits_eq hsmall.2 hrank hdigits
  obtain ⟨howner, htime'⟩ := digits_eq hsmall.1 htime hupper
  rw [fundKey, howner, htime', hrank']

/-- The accounts of members are those that funds were opened for and not used up, and the other
ones belong to the contract. -/
structure Covers (contract : Name) (funds : Funds) (accounts : FundAccounts) : Prop where
  covered : ∀ a ∈ accounts.rows, a.rank ≠ 0 →
    ∃ fund, funds.find? (fundKey a) = some fund ∧ fund.currentBalance = a.balance
  spent : ∀ fund ∈ funds.rows, (∀ a ∈ accounts.rows, fundKey a ≠ fund.byPk) →
    fund.currentBalance.amount = 0
  unique : ∀ a ∈ accounts.rows, ∀ b ∈ accounts.rows, a.rank ≠ 0 → fundKey a = fundKey b → a = b
  small : ∀ a ∈ accounts.rows, a.distributionTime < 2 ^ 32 ∧ a.rank < 2 ^ 32
  pool : ∀ a ∈ accounts.rows, a.rank = 0 → a.owner = contract
  ranked : ∀ fund ∈ funds.rows, fund.rank ≠ 0

variable {contract : Name} {funds : Funds} {accounts accounts' : FundAccounts}

/-- Only the accounts of the contract change. -/
theorem Covers.pools (h : Covers contract funds accounts)
    (hsame : ∀ a, a.rank ≠ 0 → (a ∈ accounts'.rows ↔ a ∈ accounts.rows))
    (hpool : ∀ a ∈ accounts'.rows, a.rank = 0 → a.owner = contract ∧ a.distributionTime < 2 ^ 32) :
    Covers contract funds accounts' where
  covered a ha hrank := h.covered a ((hsame a hrank).mp ha) hrank
  spent fund hfund hnone := by
    refine h.spent fund hfund fun a ha hkey => ?_
    have hrank : a.rank ≠ 0 := by
      have hfund' := h.ranked fund hfund
      rwa [show fund.rank = a.rank from (congrArg (·.2.2) hkey).symm] at hfund'
    exact hnone a ((hsame a hrank).mpr ha) hkey
  unique a ha b hb hrank hkey := by
    have hrank' : b.rank ≠ 0 := by
      rwa [← show a.rank = b.rank from congrArg (·.2.2) hkey]
    exact h.unique a ((hsame a hrank).mp ha) b ((hsame b hrank').mp hb) hrank hkey
  small a ha := by
    by_cases hrank : a.rank = 0
    · exact ⟨(hpool a ha hrank).2, by omega⟩
    · exact h.small a ((hsame a hrank).mp ha)
  pool a ha hrank := (hpool a ha hrank).1
  ranked := h.ranked

/-- An account of the contract gets another balance or is erased. -/
theorem Covers.drawn {row : DistributionAccount} (h : Covers contract funds accounts)
    (hrow : row ∈ accounts.rows) (hrank : row.rank = 0)
    (hafter : (∃ balance, accounts' = accounts.replace { row with balance := balance }) ∨
      accounts' = accounts.erase row.id) : Covers contract funds accounts' := by
  have hmem : ∀ a ∈ accounts'.rows,
      a ∈ accounts.rows ∨ ∃ balance : Asset, a = { row with balance := balance } := by
    intro a ha
    rcases hafter with ⟨balance, rfl⟩ | rfl
    · rcases Table.mem_replace.mp ha with ha | ⟨ha, -⟩
      · exact .inl ha.1
      · exact .inr ⟨balance, ha⟩
    · exact .inl (Table.mem_erase.mp ha).1
  refine h.pools ?_ ?_
  · intro a ha0
    constructor
    · intro ha
      rcases hmem a ha with ha | ⟨balance, rfl⟩
      · exact ha
      · exact absurd hrank ha0
    · intro ha
      have hid : a.id ≠ row.id := by
        intro hid
        rw [Table.eq_of_key_eq ha hrow hid] at ha0
        exact ha0 hrank
      rcases hafter with ⟨balance, rfl⟩ | rfl
      · exact Table.mem_replace.mpr (.inl ⟨ha, hid⟩)
      · exact Table.mem_erase.mpr ⟨ha, hid⟩
  · intro a ha ha0
    rcases hmem a ha with ha | ⟨balance, rfl⟩
    · exact ⟨h.pool a ha ha0, (h.small a ha).1⟩
    · exact ⟨h.pool row hrow hrank, (h.small row hrow).1⟩

/-- An account and its fund are opened. -/
theorem Covers.opened {a : DistributionAccount} (h : Covers contract funds accounts)
    (ha : accounts.emplace? a = some accounts') (hrank : a.rank ≠ 0)
    (hsmall : a.distributionTime < 2 ^ 32 ∧ a.rank < 2 ^ 32)
    (hnew : funds.find? (fundKey a) = none) :
    ∃ funds', funds.emplace? ⟨a.owner, a.distributionTime, a.rank, a.balance, a.balance⟩ =
      some funds' ∧ Covers contract funds' accounts' := by
  cases hfunds : funds.emplace? ⟨a.owner, a.distributionTime, a.rank, a.balance, a.balance⟩ with
  | none =>
      obtain ⟨fund, hfund, hkey⟩ := emplace?_eq_none.mp hfunds
      exact absurd hkey (find?_eq_none.mp hnew fund hfund)
  | some funds' =>
      refine ⟨funds', rfl, ?_⟩
      have hother : ∀ b ∈ accounts.rows, b.rank ≠ 0 → fundKey b ≠ fundKey a := by
        intro b hb hb0 hkey
        obtain ⟨fund, hfund, -⟩ := h.covered b hb hb0
        rw [hkey, hnew] at hfund
        cases hfund
      have hrows := emplace?_eq_some.mp hfunds
      constructor
      · intro b hb hb0
        rw [find?_emplace? hfunds]
        rcases (Table.mem_emplace? ha).mp hb with rfl | hb
        · exact ⟨_, if_pos rfl, rfl⟩
        · obtain ⟨fund, hfund, hbalance⟩ := h.covered b hb hb0
          exact ⟨fund, by rw [if_neg fun hkey => hother b hb hb0 hkey.symm, hfund], hbalance⟩
      · intro fund hfund hnone
        rw [hrows, List.mem_append, List.mem_singleton] at hfund
        rcases hfund with hfund | rfl
        · exact h.spent fund hfund fun b hb => hnone b ((Table.mem_emplace? ha).mpr (.inr hb))
        · exact absurd rfl (hnone a ((Table.mem_emplace? ha).mpr (.inl rfl)))
      · intro b hb c hc hb0 hkey
        rcases (Table.mem_emplace? ha).mp hb with rfl | hb
        · rcases (Table.mem_emplace? ha).mp hc with rfl | hc
          · rfl
          · have hc0 : c.rank ≠ 0 := by rwa [← show b.rank = c.rank from congrArg (·.2.2) hkey]
            exact absurd hkey.symm (hother c hc hc0)
        · rcases (Table.mem_emplace? ha).mp hc with rfl | hc
          · exact absurd hkey (hother b hb hb0)
          · exact h.unique b hb c hc hb0 hkey
      · intro b hb
        rcases (Table.mem_emplace? ha).mp hb with rfl | hb
        · exact hsmall
        · exact h.small b hb
      · intro b hb hb0
        rcases (Table.mem_emplace? ha).mp hb with rfl | hb
        · exact absurd hb0 hrank
        · exact h.pool b hb hb0
      · intro fund hfund
        rw [hrows, List.mem_append, List.mem_singleton] at hfund
        rcases hfund with hfund | rfl
        · exact h.ranked fund hfund
        · exact hrank

def keysOf (funds : Funds) : List (Name × Nat × Nat) := funds.rows.map DistributionFundObject.byPk

theorem spend_eq_some {k : Name × Nat × Nat} {amount : Asset} {funds' : Funds}
    (h : spend funds k amount = some funds') :
    ∃ fund balance, funds.find? k = some fund ∧ fund.currentBalance.sub amount = .ok balance ∧
      funds' = funds.modify k (withBalance balance) (byPk_withBalance balance) := by
  simp only [spend, Option.bind_eq_some_iff, Option.map_eq_some_iff] at h
  obtain ⟨fund, hfund, balance, hbalance, rfl⟩ := h
  refine ⟨fund, balance, hfund, ?_, rfl⟩
  cases hsub : fund.currentBalance.sub amount with
  | error e =>
      rw [hsub] at hbalance
      cases hbalance
  | ok b =>
      rw [hsub] at hbalance
      cases hbalance
      rfl

theorem keysOf_spend {k : Name × Nat × Nat} {amount : Asset} {funds' : Funds}
    (h : spend funds k amount = some funds') : keysOf funds' = keysOf funds := by
  obtain ⟨fund, balance, -, -, rfl⟩ := spend_eq_some h
  rw [keysOf, rows_modify, List.map_map]
  apply List.map_congr_left
  intro a _
  simp only [Function.comp_apply]
  split
  · rfl
  · rfl

/-- An account and its fund lose the same amount; an account that is used up is erased. -/
theorem Covers.spends {a : DistributionAccount} {amount balance : Asset}
    (h : Covers contract funds accounts) (ha : a ∈ accounts.rows) (hrank : a.rank ≠ 0)
    (hsub : a.balance.sub amount = .ok balance)
    (hafter : accounts' = accounts.replace { a with balance := balance } ∨
      (accounts' = accounts.erase a.id ∧ balance.amount = 0)) :
    ∃ funds', spend funds (fundKey a) amount = some funds' ∧
      Covers contract funds' accounts' := by
  obtain ⟨fund, hfund, hbalance⟩ := h.covered a ha hrank
  have hothers : ∀ b ∈ accounts.rows, b.id ≠ a.id → fundKey b ≠ fundKey a := by
    intro b hb hid hkey
    exact hid (congrArg DistributionAccount.id (h.unique a ha b hb hrank hkey.symm)).symm
  have hmem : ∀ b, b ∈ accounts'.rows →
      (b ∈ accounts.rows ∧ b.id ≠ a.id) ∨ b = { a with balance := balance } := by
    intro b hb
    rcases hafter with rfl | ⟨rfl, -⟩
    · rcases Table.mem_replace.mp hb with hb | ⟨rfl, -⟩
      · exact .inl hb
      · exact .inr rfl
    · exact .inl (Table.mem_erase.mp hb)
  have hkept : ∀ b ∈ accounts.rows, b.id ≠ a.id → b ∈ accounts'.rows := by
    intro b hb hid
    rcases hafter with rfl | ⟨rfl, -⟩
    · exact Table.mem_replace.mpr (.inl ⟨hb, hid⟩)
    · exact Table.mem_erase.mpr ⟨hb, hid⟩
  have hspend : spend funds (fundKey a) amount = some (funds.modify (fundKey a)
      (withBalance balance) (byPk_withBalance balance)) := by
    rw [spend, hfund, Option.bind_some, hbalance, hsub]
    rfl
  refine ⟨_, hspend, ?_⟩
  constructor
  · intro b hb hb0
    rw [find?_modify]
    rcases hmem b hb with ⟨hb, hid⟩ | rfl
    · obtain ⟨fund', hfund', hbalance'⟩ := h.covered b hb hb0
      refine ⟨fund', ?_, hbalance'⟩
      rw [hfund', Option.map_some, if_neg (hothers b hb hid)]
    · refine ⟨withBalance balance fund, ?_, rfl⟩
      rw [show fundKey { a with balance := balance } = fundKey a from rfl, hfund, Option.map_some,
        if_pos rfl]
  · intro fund' hfund' hnone
    rw [rows_modify, List.mem_map] at hfund'
    obtain ⟨old, hold, rfl⟩ := hfund'
    by_cases hkey : old.byPk = fundKey a
    · rw [if_pos hkey] at hnone ⊢
      rcases hafter with rfl | ⟨rfl, hzero⟩
      · have hnew : { a with balance := balance } ∈
            (accounts.replace { a with balance := balance }).rows :=
          Table.mem_replace.mpr (.inr ⟨rfl, a, Table.find?_of_mem ha⟩)
        exact absurd hkey.symm (hnone { a with balance := balance } hnew)
      · exact hzero
    · rw [if_neg hkey] at hnone ⊢
      refine h.spent old hold fun b hb hb' => ?_
      have hid : b.id ≠ a.id := by
        intro hid
        rw [Table.eq_of_key_eq hb ha hid] at hb'
        exact hkey hb'.symm
      exact hnone b (hkept b hb hid) hb'
  · intro b hb c hc hb0 hkey
    rcases hmem b hb with ⟨hb, hbid⟩ | rfl
    · rcases hmem c hc with ⟨hc, hcid⟩ | rfl
      · exact h.unique b hb c hc hb0 hkey
      · exact absurd hkey (hothers b hb hbid)
    · rcases hmem c hc with ⟨hc, hcid⟩ | rfl
      · exact absurd hkey.symm (hothers c hc hcid)
      · rfl
  · intro b hb
    rcases hmem b hb with ⟨hb, -⟩ | rfl
    · exact h.small b hb
    · exact h.small a ha
  · intro b hb hb0
    rcases hmem b hb with ⟨hb, -⟩ | rfl
    · exact h.pool b hb hb0
    · exact absurd hb0 hrank
  · intro fund' hfund'
    rw [rows_modify, List.mem_map] at hfund'
    obtain ⟨old, hold, rfl⟩ := hfund'
    have hranked := h.ranked old hold
    split
    · exact hranked
    · exact hranked

/-! ### Distributions -/

/-- Whether a distribution has come to a member. -/
def Came : Distribution → Name → Prop
  | .current _ lastProcessed _, owner => owner ≤ lastProcessed
  | _, _ => False

def isNext : Distribution → Bool
  | .next _ => true
  | _ => false

abbrev Schedule := Table Distribution.distributionTime

/-- Distributions take place at times that have been announced, and have opened funds for those
only whom they have come to. -/
structure Timely (times : List Nat) (keys : List (Name × Nat × Nat)) (table : Schedule) :
    Prop where
  scheduled : ∀ row ∈ table.rows, row.distributionTime ∈ times
  started : ∀ row ∈ table.rows, isNext row = false → row.distributionTime < 2 ^ 32
  came : ∀ row ∈ table.rows, ∀ k ∈ keys, k.2.1 = row.distributionTime → Came row k.1
  known : ∀ k ∈ keys, k.2.1 ∈ times

variable {times : List Nat} {keys : List (Name × Nat × Nat)} {table table' : Schedule}

theorem Timely.without (h : Timely times keys table) (t : Nat) :
    Timely times keys (table.erase t) where
  scheduled row hrow := h.scheduled row (Table.mem_erase.mp hrow).1
  started row hrow := h.started row (Table.mem_erase.mp hrow).1
  came row hrow := h.came row (Table.mem_erase.mp hrow).1
  known := h.known

theorem Timely.put (row : Distribution)
    (h : Timely times keys (table.erase row.distributionTime)) (htime : row.distributionTime ∈ times)
    (hsmall : row.distributionTime < 2 ^ 32)
    (hcame : ∀ k ∈ keys, k.2.1 = row.distributionTime → Came row k.1) :
    Timely times keys (table.replace row) := by
  have hmem : ∀ r ∈ (table.replace row).rows,
      r ∈ (table.erase row.distributionTime).rows ∨ r = row := by
    intro r hr
    rcases Table.mem_replace.mp hr with hr | ⟨hr, -⟩
    · exact .inl (Table.mem_erase.mpr hr)
    · exact .inr hr
  constructor
  · intro r hr
    rcases hmem r hr with hr | rfl
    · exact h.scheduled r hr
    · exact htime
  · intro r hr hnext
    rcases hmem r hr with hr | rfl
    · exact h.started r hr hnext
    · exact hsmall
  · intro r hr
    rcases hmem r hr with hr | rfl
    · exact h.came r hr
    · exact hcame
  · exact h.known

/-- A distribution is announced that has not been announced before. -/
theorem Timely.announced {t : Nat} (h : Timely times keys table)
    (ht : table.emplace? (.next t) = some table') (hnew : t ∉ times) :
    Timely (times ++ [t]) keys table' := by
  have hmem := fun r : Distribution => Table.mem_emplace? (b := r) ht
  constructor
  · intro r hr
    rcases (hmem r).mp hr with rfl | hr
    · exact List.mem_append_right _ (List.mem_singleton.mpr rfl)
    · exact List.mem_append_left _ (h.scheduled r hr)
  · intro r hr hnext
    rcases (hmem r).mp hr with rfl | hr
    · cases hnext
    · exact h.started r hr hnext
  · intro r hr k hk hkey
    rcases (hmem r).mp hr with rfl | hr
    · refine absurd ?_ hnew
      have hknown := h.known k hk
      rwa [hkey] at hknown
    · exact h.came r hr k hk hkey
  · exact fun k hk => List.mem_append_left _ (h.known k hk)

/-- Nothing has been paid out at a time that is still to come. -/
theorem Timely.fresh {row : Distribution} (h : Timely times keys table) (hrow : row ∈ table.rows)
    (hnone : ∀ owner, ¬ Came row owner) : ∀ k ∈ keys, k.2.1 ≠ row.distributionTime :=
  fun k hk hkey => hnone k.1 (h.came row hrow k hk hkey)

/-- A fund is opened at a time that no other distribution has. -/
theorem Timely.funded {k : Name × Nat × Nat} (h : Timely times keys (table.erase k.2.1))
    (hknown : k.2.1 ∈ times) : Timely times (keys ++ [k]) (table.erase k.2.1) where
  scheduled := h.scheduled
  started := h.started
  came row hrow k' hk' hkey := by
    rcases List.mem_append.mp hk' with hk' | hk'
    · exact h.came row hrow k' hk' hkey
    · obtain rfl := List.mem_singleton.mp hk'
      exact absurd hkey.symm (Table.mem_erase.mp hrow).2
  known k' hk' := by
    rcases List.mem_append.mp hk' with hk' | hk'
    · exact h.known k' hk'
    · obtain rfl := List.mem_singleton.mp hk'
      exact hknown

/-! ### The trace and the tables -/

/-- A book that agrees with the tables. -/
structure Agrees (contract : Name) (table : Schedule) (accounts : FundAccounts) (book : FundBook) :
    Prop where
  timely : Timely book.times (keysOf book.funds) table
  covers : Covers contract book.funds accounts

/-- The book agrees with the tables, as long as the trace goes on. -/
def Kept (contract : Name) (table : Schedule) (accounts : FundAccounts) (o : Output) : Prop :=
  (follow (trace o)).Holds (Agrees contract table accounts)

theorem follow_pushEvent (p : Platform) (o : Output) (e : Event) :
    follow (trace (pushEvent p o e)) = (follow (trace o)).post (.events [e]) := by
  rw [trace_pushEvent, follow_append]
  rfl

/-- Events that a book notes. -/
def isNoted : Event → Bool
  | .distributionSchedule _ => true
  | .distributionFund .. => true
  | .distributionReturn .. => true
  | _ => false

theorem neutral_event {e : Event} (h : isNoted e = false) : Neutral (.events [e]) := by
  intro book
  cases e with
  | distributionSchedule | distributionFund | distributionReturn => cases h
  | _ => rfl

theorem follow_unnoted (p : Platform) (o : Output) {e : Event} (h : isNoted e = false) :
    follow (trace (pushEvent p o e)) = follow (trace o) := by
  rw [follow_pushEvent, post_neutral (neutral_event h)]

end Eden.FundBooks
