import Eden.ContractState

/-!
What the contract takes from its surroundings: the host functions and configured accounts, the
authorisations of an action, the answers of the contracts it calls, and the events it sends.
-/

namespace Eden.Runtime

open Eden.ExceptReasoning
open Eden.ChainPrimitives
open Eden.ElectionPlan
open Eden.ContractState

/-- The configuration of the contract and the host functions it calls. -/
structure Platform where
  self : Name
  self_valid : isAccountName self = true
  atomicAssetsAccount : Name
  atomicMarketAccount : Name
  schemaName : Name
  sha256 : Bytes → Checksum
  /-- Whether `DecodeBase58` accepts a text. -/
  decodeBase58 : Text → Bool
  /-- A draw from `[0, bound]` by `std::uniform_int_distribution` over numbers of a width. -/
  uniformInt : (width bound : Nat) → ElectionRng → Nat × ElectionRng
  uniformInt_le : ∀ width bound rng, (uniformInt width bound rng).1 ≤ bound
  uniformInt_advances : ∀ width bound rng, ∃ draws,
    (uniformInt width bound rng).2 = (ElectionRng.advance sha256)^[draws] rng
  /-- The length of an event in binary form. -/
  eventSize : Event → Nat

/-- A row of the auction table of `atomicmarket`, with its key in the index `byassets`. -/
structure MarketAuction where
  auctionId : Nat
  seller : Name
  assetIds : List Nat
  endTime : Nat
  currentBidder : Name
  claimedBySeller : Bool
  byAssets : Checksum
  deriving DecidableEq, Repr

/-- What an action finds around the tables of the contract. -/
structure Env where
  /-- The accounts that authorise the action. -/
  auths : List Name
  auths_valid : ∀ a ∈ auths, isAccountName a = true
  /-- Whether the permission `board.major` of the contract authorises the action. -/
  boardMajor : Bool
  isAccount : Name → Bool
  isAccount_valid : ∀ a, isAccount a = true → isAccountName a = true
  /-- Whether the supply of a template of `atomicassets` is locked, if it exists. -/
  isLocked : Int → Option Bool
  /-- The auctions of `atomicmarket` in the order of their ids. -/
  market : List MarketAuction
  /-- The ids that `atomicassets` gives to a new template and to the first asset minted. -/
  templateId : Int
  assetId : Nat

def requireAuth (env : Env) (account : Name) : Outcome Unit :=
  ensure (account ∈ env.auths) (.missingAuthority account)

@[simp] theorem requireAuth_eq_ok {env : Env} {account : Name} {x : Unit} :
    requireAuth env account = .ok x ↔ account ∈ env.auths := by
  simp [requireAuth]

theorem requireAuth_bind_eq_ok {α : Type} {env : Env} {account : Name} {f : Unit → Outcome α}
    {a : α} :
    (requireAuth env account >>= f) = .ok a ↔ account ∈ env.auths ∧ f () = .ok a := by
  rw [requireAuth, ensure_bind_eq_ok]
  simp

def validateIpfs (p : Platform) (cid : Text) : Outcome Unit := do
  check (cid ≠ []) "CID is empty"
  check (p.decodeBase58 cid) "Expected Base58 encoded CID"

/-- A value stored in a singleton. -/
def getSingleton {α : Type} (value : Option α) : Outcome α :=
  expect value (.check "singleton does not exist")

@[simp] theorem getSingleton_eq_ok {α : Type} {value : Option α} {a : α} :
    getSingleton value = .ok a ↔ value = some a := expect_eq_ok

/-! ### Events -/

def sendEvents (out : Output) : Output :=
  if out.serializedEvents = [] then out
  else ⟨[], out.executed ++ [.events out.serializedEvents]⟩

def pushEvent (p : Platform) (out : Output) (e : Event) : Output :=
  let estSize := 5 + (out.serializedEvents.map p.eventSize).sum + p.eventSize e
  let out := if 4 * 1024 < estSize then sendEvents out else out
  { out with serializedEvents := out.serializedEvents ++ [e] }

/-- Send an inline action to another contract. -/
def sendAction (out : Output) (a : External) : Output :=
  { out with executed := out.executed ++ [.external a] }

/-- The events of one executed entry. -/
def batchOf : Executed → List Event
  | .events batch => batch
  | _ => []

/-- All events pushed up to now, in order. -/
def emitted (out : Output) : List Event :=
  out.executed.flatMap batchOf ++ out.serializedEvents

@[simp] theorem emitted_sendEvents (out : Output) : emitted (sendEvents out) = emitted out := by
  unfold sendEvents
  split
  · rfl
  · simp [emitted, batchOf]

@[simp] theorem emitted_pushEvent (p : Platform) (out : Output) (e : Event) :
    emitted (pushEvent p out e) = emitted out ++ [e] := by
  have happend : ∀ o : Output,
      emitted { o with serializedEvents := o.serializedEvents ++ [e] } = emitted o ++ [e] := by
    intro o
    simp [emitted, List.append_assoc]
  unfold pushEvent
  simp only [happend]
  split
  · rw [emitted_sendEvents]
  · rfl

@[simp] theorem emitted_sendAction (out : Output) (a : External) :
    emitted (sendAction out a) = emitted out := by
  simp [emitted, sendAction, batchOf]

/-- Push an event, with the state of the contract around it. -/
def emit (p : Platform) (s : State) (e : Event) : State :=
  { s with output := pushEvent p s.output e }

/-- Send an inline action to another contract, with the state of the contract around it. -/
def perform (s : State) (a : External) : State :=
  { s with output := sendAction s.output a }

/-! ### Traces

The trace of an output lists its entries one event at a time, without the actions of other
contracts. An output is quiet when it has only grown by entries that do not concern funds. -/

/-- One entry, event by event. -/
def unbatched : Executed → List Executed
  | .events batch => batch.map fun e => .events [e]
  | .external _ => []
  | e => [e]

def trace (out : Output) : List Executed :=
  out.executed.flatMap unbatched ++ out.serializedEvents.map fun e => .events [e]

/-- Events about funds that move between pools and distributions. -/
def movesFunds : Event → Bool
  | .distributionReserve .. => true
  | .distributionReturnExcess .. => true
  | .distributionReturn .. => true
  | _ => false

/-- Entries about funds. -/
def concernsFunds : Executed → Bool
  | .action (.withdraw ..) => true
  | .action (.donate ..) => true
  | .action (.fundtransfer ..) => true
  | .action (.usertransfer ..) => true
  | .action (.inductdonate ..) => true
  | .action (.rename ..) => true
  | .action .clearall => true
  | .transfer .. => true
  | .events batch => batch.any movesFunds
  | _ => false

def fundTrace (out : Output) : List Executed := (trace out).filter concernsFunds

def Quiet (out out' : Output) : Prop := fundTrace out' = fundTrace out

@[simp] theorem trace_sendEvents (out : Output) : trace (sendEvents out) = trace out := by
  unfold sendEvents
  split
  · rfl
  · simp [trace, unbatched]

@[simp] theorem trace_pushEvent (p : Platform) (out : Output) (e : Event) :
    trace (pushEvent p out e) = trace out ++ [.events [e]] := by
  have happend : ∀ o : Output,
      trace { o with serializedEvents := o.serializedEvents ++ [e] } =
        trace o ++ [.events [e]] := by
    intro o
    simp [trace, List.append_assoc]
  unfold pushEvent
  simp only [happend]
  split
  · rw [trace_sendEvents]
  · rfl

@[simp] theorem trace_sendAction (out : Output) (a : External) :
    trace (sendAction out a) = trace out := by
  simp [trace, sendAction, unbatched]

theorem Quiet.refl (out : Output) : Quiet out out := rfl

theorem Quiet.trans {o₁ o₂ o₃ : Output} (h₁ : Quiet o₁ o₂) (h₂ : Quiet o₂ o₃) : Quiet o₁ o₃ :=
  Eq.trans h₂ h₁

theorem Quiet.pushEvent (p : Platform) (out : Output) {e : Event} (h : movesFunds e = false) :
    Quiet out (pushEvent p out e) := by
  simp [Quiet, fundTrace, List.filter_append, concernsFunds, h]

theorem Quiet.sendAction (out : Output) (a : External) : Quiet out (sendAction out a) := by
  simp [Quiet, fundTrace]

theorem Quiet.sendEvents (out : Output) : Quiet out (sendEvents out) := by
  simp [Quiet, fundTrace]

/-- Pushing events that move no funds, one after the other, is quiet. -/
theorem Quiet.foldl {α : Type} (p : Platform) (f : α → Event) (hf : ∀ a, movesFunds (f a) = false)
    (l : List α) (out : Output) :
    Quiet out (l.foldl (fun out a => Runtime.pushEvent p out (f a)) out) := by
  induction l generalizing out with
  | nil => exact Quiet.refl out
  | cons a l ih => exact (Quiet.pushEvent p out (hf a)).trans (ih _)

/-- The globals; every class of the contract reads them when it is constructed. -/
def getGlobals (s : State) : Outcome Globals := getSingleton s.globals

@[simp] theorem getGlobals_eq_ok {s : State} {g : Globals} :
    getGlobals s = .ok g ↔ s.globals = some g := getSingleton_eq_ok

end Eden.Runtime
