import Eden.ContractActions
import Eden.TransactionRuns

/-!
Transactions of the contract, and the states they lead to from genesis on.
-/

namespace Eden.Transactions

open Eden.ExceptReasoning
open Eden.SortedTable
open Eden.TransactionRuns
open Eden.ChainPrimitives
open Eden.ContractState
open Eden.Runtime
open Eden.InductionTables
open Eden.ContractActions

/-- What a transaction can ask of the contract: an action, a token transfer, or an action of
`atomicassets` that notifies it. -/
inductive Call
  | action (a : Action)
  | transfer (sender receiver : Name) (quantity : Asset) (memo : Text)
  | lognewtempl (templateId : Int) (authorizedCreator collectionName schemaName : Name)
      (account : Option Text)
  | logmint (assetId : Nat) (authorizedMinter collectionName schemaName newAssetOwner : Name)
      (account : Option Text)
  deriving DecidableEq, Repr

/-- Execute a call. A transfer between other accounts does not concern the contract. -/
def exec (p : Platform) (env : Env) (s : State) : Call → Outcome State
  | .action a => applyAction p env s a
  | .transfer sender receiver quantity memo =>
      if sender = p.self ∨ receiver = p.self then do
        requireAuth env sender
        tokenTransfer p env s sender receiver quantity memo
      else return s
  | .lognewtempl templateId authorizedCreator collectionName schemaName account =>
      notifyLognewtempl p env s templateId authorizedCreator collectionName schemaName account
  | .logmint assetId authorizedMinter collectionName schemaName newAssetOwner account =>
      notifyLogmint p s assetId authorizedMinter collectionName schemaName newAssetOwner account

/-- The contract: the header of a transaction is its block time. -/
def contract (p : Platform) : Machine State Nat (Env × Call) Abort where
  enter s now := { s with now := now }
  admits s now := s.now ≤ now ∧ now < 2 ^ 32
  step s call := exec p call.1 s call.2

/-- No tables yet, and no negative token balance. -/
def Untouched (s : State) : Prop :=
  s = { now := s.now, tokens := s.tokens } ∧ ∀ a ∈ s.tokens.rows, 0 ≤ a.amount

def Action.isGenesis : Action → Bool
  | .genesis .. => true
  | _ => false

/-- The state after a first transaction that starts with genesis on empty tables. -/
def AfterGenesis (p : Platform) (allowed : State → Call → Prop) (s : State) : Prop :=
  ∃ s₀ now env a calls, Untouched s₀ ∧ (contract p).admits s₀ now ∧ Action.isGenesis a = true ∧
    (contract p).Allows (fun t call => allowed t call.2) { s₀ with now := now }
      ((env, .action a) :: calls) ∧
    (contract p).run s₀ now ((env, .action a) :: calls) = .ok s

/-- States after any number of transactions of allowed calls, the first one with genesis. -/
def Reachable (p : Platform) (allowed : State → Call → Prop) (s : State) : Prop :=
  (contract p).Reachable (AfterGenesis p allowed) (fun t call => allowed t call.2) s

/-- A block time passes, or an allowed call is executed. -/
abbrev Move (p : Platform) (allowed : State → Call → Prop) : State → State → Prop :=
  (contract p).Move fun t call => allowed t call.2

theorem move_cases {p : Platform} {allowed : State → Call → Prop} {s s' : State}
    (h : Move p allowed s s') :
    (∃ now, s.now ≤ now ∧ now < 2 ^ 32 ∧ s' = { s with now := now }) ∨
      ∃ env call, allowed s call ∧ exec p env s call = .ok s' := by
  cases h with
  | enter hadmits => exact .inl ⟨_, hadmits.1, hadmits.2, rfl⟩
  | step hallowed hstep => exact .inr ⟨_, _, hallowed, hstep⟩

/-- The rule for invariants: they hold of the empty tables, and time and calls keep them. -/
theorem reachable_invariant {p : Platform} {allowed : State → Call → Prop} (Inv : State → Prop)
    {s : State} (h : Reachable p allowed s) (huntouched : ∀ s, Untouched s → Inv s)
    (htime : ∀ s now, s.now ≤ now → now < 2 ^ 32 → Inv s → Inv { s with now := now })
    (hexec : ∀ env s call s', allowed s call → exec p env s call = .ok s' → Inv s → Inv s') :
    Inv s := by
  have hmove : ∀ t t', Move p allowed t t' → Inv t → Inv t' := by
    intro t t' hmove ht
    rcases move_cases hmove with ⟨now, hle, hlt, rfl⟩ | ⟨env, call, hallowed, hstep⟩
    · exact htime t now hle hlt ht
    · exact hexec env t call t' hallowed hstep ht
  refine Machine.Reachable.invariant Inv h ?_ hmove
  rintro t ⟨s₀, now, env, a, calls, hempty, hadmits, -, hcalls, hrun⟩
  exact Machine.moves_preserve Inv hmove (Machine.moves_of_run hadmits hcalls hrun)
    (huntouched s₀ hempty)

/-- One more complete transaction of one call. -/
theorem reachable_call {p : Platform} {allowed : State → Call → Prop} {s s' : State} {env : Env}
    {now : Nat} {call : Call} (h : Reachable p allowed s) (hnow : s.now ≤ now) (hlt : now < 2 ^ 32)
    (hallowed : allowed { s with now := now } call)
    (hexec : exec p env { s with now := now } call = .ok s') : Reachable p allowed s' := by
  have hallows : (contract p).Allows (fun t call => allowed t call.2) { s with now := now }
      [(env, call)] := ⟨hallowed, fun _ _ => trivial⟩
  refine .run h ⟨hnow, hlt⟩ hallows ?_
  change (contract p).step { s with now := now } (env, call) >>= _ = _
  change exec p env { s with now := now } call >>= _ = _
  rw [hexec]
  rfl

/-! ### Histories -/

/-- An executed call, with what it found and what it left. -/
abbrev Record := Machine.Entry State (Env × Call)

/-- The calls of all transactions up to a state, the first one genesis. -/
def History (p : Platform) (allowed : State → Call → Prop) (es : List Record) (s : State) : Prop :=
  (contract p).History Untouched (fun t call => allowed t call.2) es s ∧
    ∃ e a, es.head? = some e ∧ e.input.2 = .action a ∧ Action.isGenesis a = true

/-- The rule for invariants of histories. -/
theorem history_invariant {p : Platform} {allowed : State → Call → Prop}
    (Inv : List Record → State → Prop) {es : List Record} {s : State} (h : History p allowed es s)
    (huntouched : ∀ s, Untouched s → Inv [] s)
    (htime : ∀ es s now, s.now ≤ now → now < 2 ^ 32 → Inv es s → Inv es { s with now := now })
    (hexec : ∀ es env s call s', allowed s call → exec p env s call = .ok s' → Inv es s →
      Inv (es ++ [⟨s, (env, call), s'⟩]) s') : Inv es s :=
  Machine.History.invariant Inv h.1 huntouched
    (fun es s now hadmits hs => htime es s now hadmits.1 hadmits.2 hs)
    fun es s call s' hallowed hstep hs => hexec es call.1 s call.2 s' hallowed hstep hs

end Eden.Transactions
