import Eden.Runtime

/-!
Accounts of users and pools, and the balances of the contract in the token contract.
-/

namespace Eden.AccountTables

open Eden.ExceptReasoning
open Eden.SortedTable
open Eden.ChainPrimitives
open Eden.ContractState
open Eden.Runtime

/-- `is_possible_deposit_account` -/
def isPossibleDepositAccount (p : Platform) (account : Name) : Bool :=
  account ≠ p.atomicMarketAccount && account ≠ p.atomicAssetsAccount &&
    account / 2 ^ 34 * 2 ^ 34 % 2 ^ 64 ≠ eosioName

/-- The least quantity that opens an account. -/
def mindonation : Asset := ⟨3, eosSymbol⟩

/-! ### `accounts` -/

def addBalance (t : AccountTable) (owner : Name) (quantity : Asset) (enforceMinimum : Bool) :
    Outcome AccountTable :=
  match t.find? owner with
  | none => do
      let enough ← (if enforceMinimum then quantity.ge mindonation else .ok true : Outcome Bool)
      check enough "insufficient deposit to open an account..."
      expect (t.emplace? ⟨owner, quantity⟩) .duplicateKey
  | some record => do
      let balance ← record.balance.add quantity
      return t.modify owner (fun a => { a with balance := balance }) fun _ => rfl

def subBalance (t : AccountTable) (owner : Name) (quantity : Asset) : Outcome AccountTable := do
  let record ← expect (t.find? owner) (.check "----- > not found record")
  check (← record.balance.ge quantity) "----- > insufficient balance"
  if ← record.balance.eq quantity then return t.erase owner
  else do
    let balance ← record.balance.sub quantity
    return t.modify owner (fun a => { a with balance := balance }) fun _ => rfl

def onRename (t : AccountTable) (oldAccount newAccount : Name) : Outcome AccountTable :=
  match t.find? oldAccount with
  | none => return t
  | some record => do
      let t ← expect (t.emplace? { record with owner := newAccount }) .duplicateKey
      return t.erase oldAccount

/-! ### `token` -/

abbrev TokenTable := Table (fun a : Asset => a.symbol.code)

def tokenAdd (t : TokenTable) (value : Asset) : Outcome TokenTable :=
  match t.find? value.symbol.code with
  | none => expect (t.emplace? value) .duplicateKey
  | some balance => do
      return t.replace (← balance.add value)

def tokenSub (t : TokenTable) (value : Asset) : Outcome TokenTable := do
  let balance ← expect (t.find? value.symbol.code) (.check "no balance object found")
  check (value.amount ≤ balance.amount) "overdrawn balance"
  return t.replace (← balance.sub value)

/-! ### Sums and balances -/

/-- Sum of all balances. -/
def sumBalances (t : AccountTable) : Int := t.total fun a => a.balance.amount

/-- The balance of an owner, 0 without a row. -/
def balanceOf (t : AccountTable) (owner : Name) : Int :=
  ((t.find? owner).map fun a => a.balance.amount).getD 0

/-- The amount of tokens of a symbol code, 0 without a row. -/
def tokenBalance (t : TokenTable) (code : Nat) : Int :=
  ((t.find? code).map fun a => a.amount).getD 0

/-- What a successful `add_balance` does to the table. -/
theorem addBalance_eq_ok {t t' : AccountTable} {owner : Name} {quantity : Asset} {minimum : Bool}
    (h : addBalance t owner quantity minimum = .ok t') :
    (t.find? owner = none ∧ t.emplace? ⟨owner, quantity⟩ = some t') ∨
      ∃ record, t.find? owner = some record ∧ quantity.symbol = record.balance.symbol ∧
        t' = t.modify owner (fun a =>
          { a with balance := ⟨record.balance.amount + quantity.amount, record.balance.symbol⟩ })
            (fun _ => rfl) := by
  unfold addBalance at h
  split at h
  · rename_i hnone
    simp only [bind_eq_ok, check_eq_ok, exists_const, expect_eq_ok] at h
    obtain ⟨_, _, _, hemplace⟩ := h
    exact .inl ⟨hnone, hemplace⟩
  · rename_i record hrecord
    simp only [bind_eq_ok, Asset.add_eq_ok, pure_eq_ok] at h
    obtain ⟨_, ⟨hsymbol, _, _, rfl⟩, rfl⟩ := h
    exact .inr ⟨record, hrecord, hsymbol, rfl⟩

/-- What a successful `sub_balance` does to the table. -/
theorem subBalance_eq_ok {t t' : AccountTable} {owner : Name} {quantity : Asset}
    (h : subBalance t owner quantity = .ok t') :
    ∃ record, t.find? owner = some record ∧ record.balance.symbol = quantity.symbol ∧
      quantity.amount ≤ record.balance.amount ∧
        ((record.balance.amount = quantity.amount ∧ t' = t.erase owner) ∨
          (record.balance.amount ≠ quantity.amount ∧ t' = t.modify owner (fun a =>
            { a with balance := ⟨record.balance.amount - quantity.amount, record.balance.symbol⟩ })
              (fun _ => rfl))) := by
  unfold subBalance at h
  simp only [bind_eq_ok, check_eq_ok, exists_const, expect_eq_ok, Asset.ge_eq_ok,
    Asset.eq_eq_ok] at h
  obtain ⟨record, hrecord, _, ⟨hsymbol, rfl⟩, hge, _, ⟨-, rfl⟩, h⟩ := h
  refine ⟨record, hrecord, hsymbol, by simpa using hge, ?_⟩
  split at h
  · rename_i heq
    simp only [pure_eq_ok] at h
    exact .inl ⟨by simpa using heq, h.symm⟩
  · rename_i hne
    simp only [bind_eq_ok, Asset.sub_eq_ok, pure_eq_ok] at h
    obtain ⟨_, ⟨_, _, _, rfl⟩, rfl⟩ := h
    exact .inr ⟨by simpa using hne, rfl⟩

theorem sumBalances_addBalance {t t' : AccountTable} {owner : Name} {quantity : Asset}
    {minimum : Bool} (h : addBalance t owner quantity minimum = .ok t') :
    sumBalances t' = sumBalances t + quantity.amount := by
  rcases addBalance_eq_ok h with ⟨_, hemplace⟩ | ⟨record, hrecord, _, rfl⟩
  · rw [sumBalances, Table.total_emplace? hemplace, sumBalances]
    exact Int.add_comm _ _
  · rw [sumBalances, Table.total_modify hrecord, sumBalances, Table.total_erase hrecord]
    ring

theorem sumBalances_subBalance {t t' : AccountTable} {owner : Name} {quantity : Asset}
    (h : subBalance t owner quantity = .ok t') :
    sumBalances t' = sumBalances t - quantity.amount := by
  obtain ⟨record, hrecord, _, _, ⟨heq, rfl⟩ | ⟨_, rfl⟩⟩ := subBalance_eq_ok h
  · rw [sumBalances, sumBalances, Table.total_erase hrecord]
    omega
  · rw [sumBalances, Table.total_modify hrecord, sumBalances, Table.total_erase hrecord]
    ring

theorem sumBalances_onRename {t t' : AccountTable} {oldAccount newAccount : Name}
    (h : onRename t oldAccount newAccount = .ok t') : sumBalances t' = sumBalances t := by
  unfold onRename at h
  split at h
  · simp only [pure_eq_ok] at h
    rw [h]
  · rename_i record hrecord
    simp only [bind_eq_ok, expect_eq_ok, pure_eq_ok] at h
    obtain ⟨t₁, hemplace, rfl⟩ := h
    have hne : newAccount ≠ oldAccount := by
      rintro rfl
      have hnew := Table.emplace?_new hemplace
      simp [hrecord] at hnew
    have hfound : t₁.find? oldAccount = some record := by
      rw [Table.find?_emplace? hemplace, if_neg hne, hrecord]
    have hadded := Table.total_emplace? hemplace fun a => a.balance.amount
    have herased := Table.total_erase hfound fun a => a.balance.amount
    simp only [sumBalances]
    simp only at hadded
    omega

theorem balanceOf_addBalance {t t' : AccountTable} {owner : Name} {quantity : Asset}
    {minimum : Bool} (h : addBalance t owner quantity minimum = .ok t') (a : Name) :
    balanceOf t' a = balanceOf t a + if owner = a then quantity.amount else 0 := by
  unfold balanceOf
  rcases addBalance_eq_ok h with ⟨hnone, hemplace⟩ | ⟨record, hrecord, _, rfl⟩
  · rw [Table.find?_emplace? hemplace]
    by_cases ha : owner = a
    · subst ha
      simp [hnone]
    · simp [ha]
  · rw [Table.find?_modify]
    by_cases ha : owner = a
    · subst ha
      simp [hrecord]
    · simp [ha]

theorem balanceOf_subBalance {t t' : AccountTable} {owner : Name} {quantity : Asset}
    (h : subBalance t owner quantity = .ok t') (a : Name) :
    balanceOf t' a = balanceOf t a - if owner = a then quantity.amount else 0 := by
  unfold balanceOf
  obtain ⟨record, hrecord, _, _, ⟨heq, rfl⟩ | ⟨_, rfl⟩⟩ := subBalance_eq_ok h
  · rw [Table.find?_erase]
    by_cases ha : owner = a
    · subst ha
      simp [hrecord, heq]
    · simp [ha]
  · rw [Table.find?_modify]
    by_cases ha : owner = a
    · subst ha
      simp [hrecord]
    · simp [ha]

/-- A transfer to the contract adds its amount to the balance of its symbol. -/
theorem tokenBalance_tokenAdd {t t' : TokenTable} {value : Asset} (h : tokenAdd t value = .ok t')
    (code : Nat) :
    tokenBalance t' code =
      tokenBalance t code + if value.symbol.code = code then value.amount else 0 := by
  unfold tokenAdd at h
  unfold tokenBalance
  split at h
  · rename_i hnone
    simp only [expect_eq_ok] at h
    rw [Table.find?_emplace? h]
    by_cases hcode : value.symbol.code = code
    · subst hcode
      simp [hnone]
    · simp [hcode]
  · rename_i balance hbalance
    simp only [bind_eq_ok, Asset.add_eq_ok, pure_eq_ok] at h
    obtain ⟨_, ⟨hsymbol, _, _, rfl⟩, rfl⟩ := h
    rw [Table.find?_replace, ← hsymbol]
    by_cases hcode : value.symbol.code = code
    · subst hcode
      simp [hbalance]
    · simp [hcode]

/-- A transfer from the contract takes its amount from the balance of its symbol. -/
theorem tokenBalance_tokenSub {t t' : TokenTable} {value : Asset} (h : tokenSub t value = .ok t')
    (code : Nat) :
    tokenBalance t' code =
      tokenBalance t code - if value.symbol.code = code then value.amount else 0 := by
  unfold tokenSub at h
  unfold tokenBalance
  simp only [bind_eq_ok, check_eq_ok, exists_const, expect_eq_ok, Asset.sub_eq_ok,
    pure_eq_ok] at h
  obtain ⟨balance, hbalance, _, _, ⟨hsymbol, _, _, rfl⟩, rfl⟩ := h
  rw [Table.find?_replace, ← hsymbol]
  by_cases hcode : value.symbol.code = code
  · subst hcode
    simp [hbalance]
  · simp [hcode]

end Eden.AccountTables
