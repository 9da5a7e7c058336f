import Eden.Transactions

/-!
Sessions: keys that act for a member until they expire. These methods of the contract are not in
its list of actions, but the list of verbs that `run` executes is.
-/

namespace Eden.SessionActions

open Eden.ExceptReasoning
open Eden.SortedTable
open Eden.TransactionRuns
open Eden.ChainPrimitives
open Eden.ContractState
open Eden.Runtime
open Eden.MemberTable
open Eden.ContractActions
open Eden.Transactions

/-- What the contract reads of keys: the index of the key type, and its text. -/
structure KeyHost where
  index : PublicKey → Nat
  publicKeyToString : PublicKey → String

/-! ### Containers -/

def setExpiration (sc : SessionContainer) : SessionContainer :=
  { sc with
    earliestExpiration :=
      sc.sessions.foldl (fun e session => min e session.expiration) (2 ^ 32 - 1) }

/-- `expire`: the events and what is left of the container. -/
def expire (p : Platform) (now : Nat) (out : Output) (sc : SessionContainer) :
    Output × SessionContainer :=
  ((sc.sessions.filter fun session => session.expiration ≤ now).foldl
      (fun out session => pushEvent p out (.sessionDel sc.edenAccount session.key)) out,
    { sc with sessions := sc.sessions.filter fun session => now < session.expiration })

/-- Store a container in place of the one of its account. -/
def storeContainer (s : State) (out : Output) (account : Name) (sc : SessionContainer) : State :=
  { s with
    output := out
    sessions := s.sessions.modify account (fun row => { sc with edenAccount := row.edenAccount })
      fun _ => rfl }

def newsession (p : Platform) (keys : KeyHost) (env : Env) (s : State) (edenAccount : Name)
    (key : PublicKey) (expiration : Nat) (description : Text) : Outcome State := do
  requireAuth env edenAccount
  check (keys.index key < 2) "unsupported key type"
  check (s.now < expiration) "session is expired"
  check (toTimePoint expiration ≤ toTimePoint s.now + days 90)
    "expiration is too far in the future"
  check (description.length ≤ 20) "description is too long"
  let _ ← getGlobals s
  let _ ← getMember s.members edenAccount
  let session : Session := ⟨key, expiration, description, []⟩
  let s ← (match s.sessions.find? edenAccount with
    | none => do
        let sessions ← expect (s.sessions.emplace? ⟨edenAccount, expiration, [session]⟩)
          .duplicateKey
        return { s with sessions := sessions }
    | some sc => do
        let (output, sc) := expire p s.now s.output sc
        check (sc.sessions.all fun session => session.key ≠ key) "session key already exists"
        let sessions := sc.sessions ++ [session]
        let sessions := if 4 < sessions.length then sessions.tail else sessions
        return storeContainer s output edenAccount (setExpiration { sc with sessions := sessions })
    : Outcome State)
  return emit p s (.sessionNew edenAccount key expiration description)

def delsession (p : Platform) (env : Env) (s : State) (edenAccount : Name) (key : PublicKey) :
    Outcome State := do
  requireAuth env edenAccount
  let sc ← expect (s.sessions.find? edenAccount)
    (.check "Session key is either expired or not found")
  let session ← expect (sc.sessions.find? fun session => session.key = key)
    (.check "Session key is either expired or not found")
  let output := pushEvent p s.output (.sessionDel sc.edenAccount session.key)
  let (output, sc) := expire p s.now output { sc with sessions := sc.sessions.erase session }
  let s := storeContainer s output edenAccount (setExpiration sc)
  if sc.sessions = [] then return { s with sessions := s.sessions.erase edenAccount }
  else return s

/-! ### `run` -/

/-- `run_auth`. The key of a signature is the one that the host recovers from it. -/
inductive RunAuth
  | noAuth
  | accountAuth (contract contractAccount eosioAccount : Name)
  | signatureAuth (recovered : PublicKey) (contract account : Name) (sequence : Nat)
  deriving DecidableEq, Repr

/-- The sequence numbers that a session has used, in ascending order, with one more. -/
def useSequence (sequences : List Nat) (sequence : Nat) : Outcome (List Nat) := do
  (match sequences.head?, sequences.getLast? with
    | some first, some last =>
        if sequence < first ∧ 20 ≤ sequences.length then
          .error (.check ("received duplicate sequence " ++ toString sequence))
        else if (last + 10) % 2 ^ 32 < sequence then
          .error (.check ("sequence " ++ toString sequence ++ " skips too many"))
        else return ()
    | _, _ => check (sequence ≤ 10) ("sequence " ++ toString sequence ++ " skips too many")
    : Outcome Unit)
  let later := sequences.dropWhile fun used => used < sequence
  check (later.head? ≠ some sequence) ("received duplicate sequence " ++ toString sequence)
  let sequences := (sequences.takeWhile fun used => used < sequence) ++ sequence :: later
  return if 20 < sequences.length then sequences.tail else sequences

/-- The session of a recovered key uses a sequence number. -/
def useSession (p : Platform) (keys : KeyHost) (s : State) (account : Name)
    (recovered : PublicKey) (sequence : Nat) : Outcome State := do
  let missing := "Recovered session key " ++ keys.publicKeyToString recovered ++
    " is either expired or not found"
  let sc ← expect (s.sessions.find? account) (.check missing)
  let (output, sc) := expire p s.now s.output sc
  let sc := setExpiration sc
  let session ← expect (sc.sessions.find? fun session => session.key = recovered) (.check missing)
  let sequences ← useSequence session.sequences sequence
  let sessions := sc.sessions.set (sc.sessions.idxOf session)
    { session with sequences := sequences }
  return storeContainer s output account { sc with sessions := sessions }

/-- The account that a `run` acts for. -/
def authorize (p : Platform) (keys : KeyHost) (env : Env) (s : State) :
    RunAuth → Outcome (State × Name)
  | .noAuth => return (s, emptyName)
  | .accountAuth contract contractAccount eosioAccount => do
      check (contract = p.self) "unsupported contract for auth"
      check (contractAccount = eosioAccount) "account recovery not yet implemented"
      requireAuth env eosioAccount
      return (s, contractAccount)
  | .signatureAuth recovered contract account sequence => do
      check (contract = p.self) "unsupported contract for auth"
      let s ← useSession p keys s account recovered sequence
      return (s, account)

/-- The index of an action in the list of verbs. -/
def verbIndex : Action → Option Nat
  | .inductmeetin .. => some 1
  | .inductprofil .. => some 2
  | .inductvideo .. => some 3
  | .inductendors .. => some 4
  | .electopt .. => some 5
  | .electmeeting .. => some 6
  | .electvote .. => some 7
  | .electvideo .. => some 8
  | .inductcancel .. => some 9
  | .inductinit .. => some 10
  | _ => none

/-- What a verb finds: only the account of the session authorises it. -/
def sessionEnv (env : Env) (account : Name) : Env :=
  { env with
    auths := [account].filter isAccountName
    auths_valid := fun _ ha => (List.mem_filter.mp ha).2 }

/-- `session_info::require_auth` has its own message. -/
def sessionError (account : Name) : Abort → Abort
  | .missingAuthority other => .check ("need authorization of " ++ nameString other ++
      " but have authorization of " ++ nameString account)
  | e => e

/-- `session_dispatch` -/
def runVerb (p : Platform) (env : Env) (account : Name) (s : State) (verb : Action) :
    Outcome State := do
  check (verbIndex verb).isSome "unsupported verb index"
  (dispatch p (sessionEnv env account) s verb).mapError (sessionError account)

def run (p : Platform) (keys : KeyHost) (env : Env) (s : State) (auth : RunAuth)
    (verbs : List Action) : Outcome State := do
  let (s, account) ← authorize p keys env s auth
  check (verbs ≠ []) "verbs is empty"
  verbs.foldlM (runVerb p env account) s

/-! ### Runs with sessions -/

/-- Calls of the contract, with those that handle sessions. -/
inductive SessionCall
  | call (c : Call)
  | newsession (edenAccount : Name) (key : PublicKey) (expiration : Nat) (description : Text)
  | delsession (edenAccount : Name) (key : PublicKey)
  | run (auth : RunAuth) (verbs : List Action)
  deriving DecidableEq, Repr

/-- Events are sent at the end of a call. -/
def execSession (p : Platform) (keys : KeyHost) (env : Env) (s : State) :
    SessionCall → Outcome State
  | .call c => exec p env s c
  | .newsession edenAccount key expiration description => do
      let s ← newsession p keys env s edenAccount key expiration description
      return { s with output := sendEvents s.output }
  | .delsession edenAccount key => do
      let s ← delsession p env s edenAccount key
      return { s with output := sendEvents s.output }
  | .run auth verbs => do
      let s ← run p keys env s auth verbs
      return { s with output := sendEvents s.output }

/-- The contract with its sessions. -/
def sessionContract (p : Platform) (keys : KeyHost) :
    Machine State Nat (Env × SessionCall) Abort where
  enter s now := { s with now := now }
  admits s now := s.now ≤ now ∧ now < 2 ^ 32
  step s call := execSession p keys call.1 s call.2

end Eden.SessionActions
