import Mathlib.Data.Prod.Lex
import Eden.Runtime
import Eden.TransactionRuns

/-!
The token contract: issued supplies, and the balances of the accounts.
-/

namespace Eden.TokenContract

open Eden.ExceptReasoning
open Eden.SortedTable
open Eden.TransactionRuns
open Eden.ChainPrimitives
open Eden.Runtime

/-- A row of `accounts` in the scope of its owner. -/
structure Account where
  owner : Name
  balance : Asset
  deriving DecidableEq, Repr

abbrev Account.key (a : Account) : Lex (Nat × Nat) := toLex (a.owner, a.balance.symbol.code)

/-- `currency_stats` -/
structure CurrencyStats where
  supply : Asset
  maxSupply : Asset
  issuer : Name
  deriving DecidableEq, Repr

abbrev Accounts := Table Account.key

abbrev Stats := Table fun s : CurrencyStats => s.supply.symbol.code

structure State where
  accounts : Accounts := .empty
  stat : Stats := .empty

/-- `asset::is_valid` -/
def isValid (a : Asset) : Bool :=
  -maxAmount ≤ a.amount && a.amount ≤ maxAmount && a.symbol.isValid

def subBalance (t : Accounts) (owner : Name) (value : Asset) : Outcome Accounts := do
  let a ← expect (t.find? (toLex (owner, value.symbol.code))) (.check "no balance object found")
  check (value.amount ≤ a.balance.amount) "overdrawn balance"
  let balance ← a.balance.sub value
  return t.replace { a with balance }

def addBalance (t : Accounts) (owner : Name) (value : Asset) : Outcome Accounts :=
  match t.find? (toLex (owner, value.symbol.code)) with
  | none => expect (t.emplace? ⟨owner, value⟩) .duplicateKey
  | some a => do
      let balance ← a.balance.add value
      return t.replace { a with balance }

/-- `create`; the account of the contract is `self`. -/
def create (self : Name) (env : Env) (s : State) (issuer : Name) (maximumSupply : Asset) :
    Outcome State := do
  requireAuth env self
  check maximumSupply.symbol.isValid "invalid symbol name"
  check (isValid maximumSupply) "invalid supply"
  check (0 < maximumSupply.amount) "max-supply must be positive"
  check (s.stat.find? maximumSupply.symbol.code = none) "token with symbol already exists"
  let stat ← expect (s.stat.emplace? ⟨⟨0, maximumSupply.symbol⟩, maximumSupply, issuer⟩)
    .duplicateKey
  return { s with stat }

def issue (env : Env) (s : State) (receiver : Name) (quantity : Asset) (memo : Text) :
    Outcome State := do
  check quantity.symbol.isValid "invalid symbol name"
  check (memo.length ≤ 256) "memo has more than 256 bytes"
  let st ← expect (s.stat.find? quantity.symbol.code)
    (.check "token with symbol does not exist, create token before issue")
  check (receiver = st.issuer) "tokens can only be issued to issuer account"
  requireAuth env st.issuer
  check (isValid quantity) "invalid quantity"
  check (0 < quantity.amount) "must issue positive quantity"
  check (quantity.symbol = st.supply.symbol) "symbol precision mismatch"
  check (quantity.amount ≤ st.maxSupply.amount - st.supply.amount)
    "quantity exceeds available supply"
  let supply ← st.supply.add quantity
  let accounts ← addBalance s.accounts st.issuer quantity
  return { accounts, stat := s.stat.replace { st with supply } }

def retire (env : Env) (s : State) (quantity : Asset) (memo : Text) : Outcome State := do
  check quantity.symbol.isValid "invalid symbol name"
  check (memo.length ≤ 256) "memo has more than 256 bytes"
  let st ← expect (s.stat.find? quantity.symbol.code) (.check "token with symbol does not exist")
  requireAuth env st.issuer
  check (isValid quantity) "invalid quantity"
  check (0 < quantity.amount) "must retire positive quantity"
  check (quantity.symbol = st.supply.symbol) "symbol precision mismatch"
  let supply ← st.supply.sub quantity
  let accounts ← subBalance s.accounts st.issuer quantity
  return { accounts, stat := s.stat.replace { st with supply } }

def transfer (env : Env) (s : State) (sender receiver : Name) (quantity : Asset) (memo : Text) :
    Outcome State := do
  check (sender ≠ receiver) "cannot transfer to self"
  requireAuth env sender
  check (env.isAccount receiver) "to account does not exist"
  let st ← expect (s.stat.find? quantity.symbol.code) (.check "unable to find key")
  check (isValid quantity) "invalid quantity"
  check (0 < quantity.amount) "must transfer positive quantity"
  check (quantity.symbol = st.supply.symbol) "symbol precision mismatch"
  check (memo.length ≤ 256) "memo has more than 256 bytes"
  let accounts ← subBalance s.accounts sender quantity
  let accounts ← addBalance accounts receiver quantity
  return { s with accounts }

/-- `open`; `ram_payer` authorises it. -/
def openAccount (env : Env) (s : State) (owner : Name) (symbol : Symbol) (ramPayer : Name) :
    Outcome State := do
  requireAuth env ramPayer
  check (env.isAccount owner) "owner account does not exist"
  let st ← expect (s.stat.find? symbol.code) (.check "symbol does not exist")
  check (st.supply.symbol = symbol) "symbol precision mismatch"
  match s.accounts.find? (toLex (owner, symbol.code)) with
  | none => do
      let balance ← asset 0 symbol
      let accounts ← expect (s.accounts.emplace? ⟨owner, balance⟩) .duplicateKey
      return { s with accounts }
  | some _ => return s

def close (env : Env) (s : State) (owner : Name) (symbol : Symbol) : Outcome State := do
  requireAuth env owner
  let a ← expect (s.accounts.find? (toLex (owner, symbol.code)))
    (.check "Balance row already deleted or never existed. Action won't have any effect.")
  check (a.balance.amount = 0) "Cannot close because the balance is not zero."
  return { s with accounts := s.accounts.erase a.key }

inductive Action
  | create (issuer : Name) (maximumSupply : Asset)
  | issue (receiver : Name) (quantity : Asset) (memo : Text)
  | retire (quantity : Asset) (memo : Text)
  | transfer (sender receiver : Name) (quantity : Asset) (memo : Text)
  | openAccount (owner : Name) (symbol : Symbol) (ramPayer : Name)
  | close (owner : Name) (symbol : Symbol)
  deriving DecidableEq, Repr

def apply (self : Name) (env : Env) (s : State) : Action → Outcome State
  | .create issuer maximumSupply => create self env s issuer maximumSupply
  | .issue receiver quantity memo => issue env s receiver quantity memo
  | .retire quantity memo => retire env s quantity memo
  | .transfer sender receiver quantity memo => transfer env s sender receiver quantity memo
  | .openAccount owner symbol ramPayer => openAccount env s owner symbol ramPayer
  | .close owner symbol => close env s owner symbol

/-- The contract; its transactions have no header. -/
def contract (self : Name) : Machine State Unit (Env × Action) Abort where
  enter s _ := s
  admits _ _ := True
  step s call := apply self call.1 s call.2

/-- States after any number of transactions. -/
def Reachable (self : Name) (s : State) : Prop :=
  (contract self).Reachable (fun s => s = {}) (fun _ _ => True) s

end Eden.TokenContract
