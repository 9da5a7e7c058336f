import Eden.Transactions

/-!
Host functions that can be run: the hash, the draws and the sizes that the contract relies on, and
a contract on a chain that starts from nothing.
-/

namespace Eden.HostFunctions

open Eden.ExceptReasoning
open Eden.ChainPrimitives
open Eden.ElectionPlan
open Eden.ContractState
open Eden.Runtime
open Eden.Transactions

/-! ### SHA-256 -/

def roundConstants : List Nat :=
  [0x428a2f98, 0x71374491, 0xb5c0fbcf, 0xe9b5dba5, 0x3956c25b, 0x59f111f1, 0x923f82a4, 0xab1c5ed5,
    0xd807aa98, 0x12835b01, 0x243185be, 0x550c7dc3, 0x72be5d74, 0x80deb1fe, 0x9bdc06a7, 0xc19bf174,
    0xe49b69c1, 0xefbe4786, 0x0fc19dc6, 0x240ca1cc, 0x2de92c6f, 0x4a7484aa, 0x5cb0a9dc, 0x76f988da,
    0x983e5152, 0xa831c66d, 0xb00327c8, 0xbf597fc7, 0xc6e00bf3, 0xd5a79147, 0x06ca6351, 0x14292967,
    0x27b70a85, 0x2e1b2138, 0x4d2c6dfc, 0x53380d13, 0x650a7354, 0x766a0abb, 0x81c2c92e, 0x92722c85,
    0xa2bfe8a1, 0xa81a664b, 0xc24b8b70, 0xc76c51a3, 0xd192e819, 0xd6990624, 0xf40e3585, 0x106aa070,
    0x19a4c116, 0x1e376c08, 0x2748774c, 0x34b0bcb5, 0x391c0cb3, 0x4ed8aa4a, 0x5b9cca4f, 0x682e6ff3,
    0x748f82ee, 0x78a5636f, 0x84c87814, 0x8cc70208, 0x90befffa, 0xa4506ceb, 0xbef9a3f7, 0xc67178f2]

def initialHash : List Nat :=
  [0x6a09e667, 0xbb67ae85, 0x3c6ef372, 0xa54ff53a, 0x510e527f, 0x9b05688c, 0x1f83d9ab, 0x5be0cd19]

/-- Rotation to the right in 32 bits. -/
def rotateRight (x n : Nat) : Nat := (x >>> n) ||| (x <<< (32 - n)) % 2 ^ 32

/-- The message schedule, the last word first. -/
def expandSchedule : (steps : Nat) → List Nat → List Nat
  | 0, words => words
  | steps + 1, words =>
      let w15 := words.getD 14 0
      let w2 := words.getD 1 0
      let s0 := rotateRight w15 7 ^^^ rotateRight w15 18 ^^^ (w15 >>> 3)
      let s1 := rotateRight w2 17 ^^^ rotateRight w2 19 ^^^ (w2 >>> 10)
      expandSchedule steps (((words.getD 15 0 + s0 + words.getD 6 0 + s1) % 2 ^ 32) :: words)

/-- One round on the eight working variables. -/
def compressRound (v : List Nat) (kw : Nat) : List Nat :=
  match v with
  | [a, b, c, d, e, f, g, h] =>
      let s1 := rotateRight e 6 ^^^ rotateRight e 11 ^^^ rotateRight e 25
      let ch := (e &&& f) ^^^ ((2 ^ 32 - 1 - e) &&& g)
      let t1 := h + s1 + ch + kw
      let s0 := rotateRight a 2 ^^^ rotateRight a 13 ^^^ rotateRight a 22
      let maj := (a &&& b) ^^^ (a &&& c) ^^^ (b &&& c)
      [(t1 + s0 + maj) % 2 ^ 32, a, b, c, (d + t1) % 2 ^ 32, e, f, g]
  | v => v

def compress (hash : List Nat) (block : Bytes) : List Nat :=
  let words := (List.range 16).map fun i => bigEndian ((block.drop (4 * i)).take 4)
  let schedule := (expandSchedule 48 words.reverse).reverse
  let v := (List.zipWith (· + ·) roundConstants schedule).foldl compressRound hash
  List.zipWith (fun x y => (x + y) % 2 ^ 32) hash v

/-- A message with its padding and its length. -/
def padded (message : Bytes) : Bytes :=
  let zeros := (119 - message.length % 64) % 64
  message ++ 128 :: List.replicate zeros 0 ++ (littleEndianBytes 8 (8 * message.length)).reverse

def sha256 (message : Bytes) : Checksum :=
  let blocks := padded message
  let hash := (List.range (blocks.length / 64)).foldl
    (fun hash i => compress hash ((blocks.drop (64 * i)).take 64)) initialHash
  hash.flatMap fun word => (littleEndianBytes 4 word).reverse

/-! ### Draws -/

/-- Numbers of the generator, cut to `bits` bits, until one is below `range`. -/
def drawBelow (range bits : Nat) : (fuel : Nat) → ElectionRng → Nat × ElectionRng
  | 0, rng => (0, rng)
  | fuel + 1, rng =>
      let draw := rng.next sha256
      let value := draw.1 % 2 ^ bits
      if value < range then (value, draw.2) else drawBelow range bits fuel draw.2

/-- `std::uniform_int_distribution(0, bound)` over numbers of 16 or 32 bits. -/
def uniformInt (width bound : Nat) (rng : ElectionRng) : Nat × ElectionRng :=
  if bound = 0 then (0, rng)
  else drawBelow (bound + 1) (min (Nat.log2 bound + 1) width) 1000 rng

theorem drawBelow_le (bound bits fuel : Nat) (rng : ElectionRng) :
    (drawBelow (bound + 1) bits fuel rng).1 ≤ bound := by
  induction fuel generalizing rng with
  | zero => exact Nat.zero_le bound
  | succ fuel ih =>
      simp only [drawBelow]
      split
      · rename_i hlt
        exact Nat.lt_succ_iff.mp hlt
      · exact ih _

theorem drawBelow_advances (range bits fuel : Nat) (rng : ElectionRng) :
    ∃ draws, (drawBelow range bits fuel rng).2 = (ElectionRng.advance sha256)^[draws] rng := by
  induction fuel generalizing rng with
  | zero => exact ⟨0, rfl⟩
  | succ fuel ih =>
      simp only [drawBelow]
      split
      · exact ⟨1, rfl⟩
      · obtain ⟨draws, heq⟩ := ih (rng.next sha256).2
        exact ⟨draws + 1, heq⟩

theorem uniformInt_le (width bound : Nat) (rng : ElectionRng) :
    (uniformInt width bound rng).1 ≤ bound := by
  unfold uniformInt
  split
  · exact Nat.zero_le bound
  · exact drawBelow_le bound _ _ rng

theorem uniformInt_advances (width bound : Nat) (rng : ElectionRng) :
    ∃ draws, (uniformInt width bound rng).2 = (ElectionRng.advance sha256)^[draws] rng := by
  unfold uniformInt
  split
  · exact ⟨0, rfl⟩
  · exact drawBelow_advances _ _ _ rng

/-! ### Sizes and texts -/

/-- The length of an event in binary form, for vectors and texts of fewer than 128 entries. -/
def eventSize : Event → Nat
  | .electionSchedule .. => 7
  | .electionBegin .. => 5
  | .electionSeeding .. => 45
  | .electionEndSeeding .. => 5
  | .electionConfigSummary .. => 8
  | .electionCreateRound .. => 11
  | .electionCreateGroup _ _ voters => 7 + 8 * voters.length
  | .electionBeginRoundVoting .. => 14
  | .electionEndRoundVoting .. => 6
  | .electionReportGroup _ _ _ votes => 15 + 16 * votes.length
  | .electionEndRound .. => 6
  | .electionEnd .. => 5
  | .setPool .. => 10
  | .distributionSchedule .. => 5
  | .distributionReserve .. => 29
  | .distributionBegin _ rankDistribution => 6 + 16 * rankDistribution.length
  | .distributionReturnExcess .. => 29
  | .distributionFund .. => 30
  | .distributionEnd .. => 5
  | .distributionReturn .. => 38
  | .migration .. => 2
  | .sessionNew _ _ _ description => 48 + description.length
  | .sessionDel .. => 43

/-- The alphabet of Base58. -/
def isBase58 (c : Char) : Bool :=
  c.isAlphanum && c ≠ '0' && c ≠ 'O' && c ≠ 'I' && c ≠ 'l'

/-! ### A chain -/

/-- The name of a text that denotes one. -/
def nameOf (t : Text) : Name := (nameOfText t).toOption.getD 0

/-- The contract at `genesis.eden`. -/
def host : Platform where
  self := nameOf ['g', 'e', 'n', 'e', 's', 'i', 's', '.', 'e', 'd', 'e', 'n']
  self_valid := by decide
  atomicAssetsAccount := nameOf ['a', 't', 'o', 'm', 'i', 'c', 'a', 's', 's', 'e', 't', 's']
  atomicMarketAccount := nameOf ['a', 't', 'o', 'm', 'i', 'c', 'm', 'a', 'r', 'k', 'e', 't']
  schemaName := nameOf ['m', 'e', 'm', 'b', 'e', 'r', 's']
  sha256 := sha256
  decodeBase58 t := t.all isBase58
  uniformInt := uniformInt
  uniformInt_le := uniformInt_le
  uniformInt_advances := uniformInt_advances
  eventSize := eventSize

/-- An account that is a valid name. -/
structure Signer where
  name : Name
  valid : isAccountName name = true

/-- What an action finds that one account authorises. -/
def signedBy (signer : Signer) : Env where
  auths := [signer.name]
  auths_valid := by
    intro a ha
    rw [List.mem_singleton.mp ha]
    exact signer.valid
  boardMajor := false
  isAccount := isAccountName
  isAccount_valid := fun _ h => h
  isLocked _ := some false
  market := []
  templateId := 1
  assetId := 1

/-- A transaction: its block time and its calls. -/
abbrev Transaction := Nat × List (Env × Call)

section Runs

variable (p : Platform) (allowed : State → Call → Prop) [∀ s call, Decidable (allowed s call)]

/-- Run calls that are all allowed. -/
def runCalls (s : State) : List (Env × Call) → Option State
  | [] => some s
  | (env, call) :: calls =>
      if allowed s call then (exec p env s call).toOption.bind fun t => runCalls t calls else none

/-- Run complete transactions one after the other. -/
def runAll (s : State) : List Transaction → Option State
  | [] => some s
  | (now, calls) :: rest =>
      if s.now ≤ now ∧ now < 2 ^ 32 then
        (runCalls p allowed { s with now := now } calls).bind fun t => runAll t rest
      else none

/-- Run transactions on empty tables, the first of them with genesis. -/
def runFromGenesis : List Transaction → Option State
  | (now, (env, .action a) :: calls) :: rest =>
      if Action.isGenesis a then runAll p allowed {} ((now, (env, .action a) :: calls) :: rest)
      else none
  | _ => none

variable {p allowed}

theorem step_of_toOption {s t : State} {env : Env} {call : Call}
    (h : (exec p env s call).toOption = some t) : (contract p).step s (env, call) = .ok t :=
  ok_of_toOption h

theorem runCalls_eq_some {s s' : State} {calls : List (Env × Call)}
    (h : runCalls p allowed s calls = some s') :
    (contract p).Allows (fun t call => allowed t call.2) s calls ∧
      calls.foldlM (contract p).step s = .ok s' := by
  induction calls generalizing s with
  | nil =>
      rw [runCalls, Option.some.injEq] at h
      subst h
      exact ⟨trivial, rfl⟩
  | cons first calls ih =>
      obtain ⟨env, call⟩ := first
      rw [runCalls] at h
      split at h
      · rename_i hallowed
        obtain ⟨t, ht, h⟩ := Option.bind_eq_some_iff.mp h
        have hstep := step_of_toOption ht
        obtain ⟨hallows, hrun⟩ := ih h
        refine ⟨⟨hallowed, ?_⟩, ?_⟩
        · intro t' ht'
          rw [hstep, Except.ok.injEq] at ht'
          exact ht' ▸ hallows
        · rw [List.foldlM_cons, hstep]
          exact hrun
      · exact absurd h (by simp)

theorem reachable_of_runAll {s s' : State} {txs : List Transaction}
    (h : runAll p allowed s txs = some s') (hs : Reachable p allowed s) :
    Reachable p allowed s' := by
  induction txs generalizing s with
  | nil =>
      rw [runAll, Option.some.injEq] at h
      exact h ▸ hs
  | cons first txs ih =>
      obtain ⟨now, calls⟩ := first
      rw [runAll] at h
      split at h
      · rename_i hadmits
        obtain ⟨t, ht, h⟩ := Option.bind_eq_some_iff.mp h
        obtain ⟨hallows, hrun⟩ := runCalls_eq_some ht
        exact ih h (.run hs hadmits hallows hrun)
      · exact absurd h (by simp)

/-- A run of the executable model reaches its last state. -/
theorem reachable_of_run {s : State} {txs : List Transaction}
    (h : runFromGenesis p allowed txs = some s) : Reachable p allowed s := by
  unfold runFromGenesis at h
  split at h
  · rename_i now env a calls rest
    split at h
    · rename_i hgenesis
      rw [runAll] at h
      split at h
      · rename_i hadmits
        obtain ⟨t, ht, h⟩ := Option.bind_eq_some_iff.mp h
        obtain ⟨hallows, hrun⟩ := runCalls_eq_some ht
        refine reachable_of_runAll h (.first ⟨{}, now, env, a, calls, ⟨rfl, ?_⟩, hadmits, hgenesis,
          hallows, hrun⟩)
        intro balance hbalance
        exact absurd hbalance (by simp)
      · exact absurd h (by simp)
    · exact absurd h (by simp)
  · exact absurd h (by simp)

/-! The same with the history of the run. -/

variable (p allowed)

def traceCalls (s : State) : List (Env × Call) → Option (List Record × State)
  | [] => some ([], s)
  | (env, call) :: calls =>
      if allowed s call then
        (exec p env s call).toOption.bind fun t => (traceCalls t calls).map fun result =>
          (⟨s, (env, call), t⟩ :: result.1, result.2)
      else none

def traceAll (es : List Record) (s : State) : List Transaction → Option (List Record × State)
  | [] => some (es, s)
  | (now, calls) :: rest =>
      if s.now ≤ now ∧ now < 2 ^ 32 then
        (traceCalls p allowed { s with now := now } calls).bind fun result =>
          traceAll (es ++ result.1) result.2 rest
      else none

def startsWithGenesis : List Record → Bool
  | ⟨_, (_, .action a), _⟩ :: _ => Action.isGenesis a
  | _ => false

/-- The history and the last state of transactions on empty tables. -/
def traceFromGenesis (txs : List Transaction) : Option (List Record × State) :=
  (traceAll p allowed [] {} txs).filter fun result => startsWithGenesis result.1

variable {p allowed}

theorem traced_of_traceCalls {s s' : State} {calls : List (Env × Call)} {es : List Record}
    (h : traceCalls p allowed s calls = some (es, s')) :
    (contract p).Traced (fun t call => allowed t call.2) s es s' := by
  induction calls generalizing s es with
  | nil =>
      rw [traceCalls, Option.some.injEq, Prod.mk.injEq] at h
      obtain ⟨rfl, rfl⟩ := h
      exact .nil
  | cons first calls ih =>
      obtain ⟨env, call⟩ := first
      rw [traceCalls] at h
      split at h
      · rename_i hallowed
        obtain ⟨t, ht, h⟩ := Option.bind_eq_some_iff.mp h
        obtain ⟨⟨es', u⟩, hrest, heq⟩ := Option.map_eq_some_iff.mp h
        rw [Prod.mk.injEq] at heq
        obtain ⟨rfl, rfl⟩ := heq
        exact .cons hallowed (step_of_toOption ht) (ih hrest)
      · exact absurd h (by simp)

theorem history_of_traceAll {first : State → Prop} {s s' : State} {txs : List Transaction}
    {es es' : List Record} (h : traceAll p allowed es s txs = some (es', s'))
    (hs : (contract p).History first (fun t call => allowed t call.2) es s) :
    (contract p).History first (fun t call => allowed t call.2) es' s' := by
  induction txs generalizing s es with
  | nil =>
      rw [traceAll, Option.some.injEq, Prod.mk.injEq] at h
      obtain ⟨rfl, rfl⟩ := h
      exact hs
  | cons first txs ih =>
      obtain ⟨now, calls⟩ := first
      rw [traceAll] at h
      split at h
      · rename_i hadmits
        obtain ⟨⟨es₁, t⟩, ht, h⟩ := Option.bind_eq_some_iff.mp h
        exact ih h (.run hs hadmits (traced_of_traceCalls ht))
      · exact absurd h (by simp)

theorem head_of_startsWithGenesis {es : List Record} (h : startsWithGenesis es = true) :
    ∃ e a, es.head? = some e ∧ e.input.2 = .action a ∧ Action.isGenesis a = true := by
  cases es with
  | nil => exact absurd h (by simp [startsWithGenesis])
  | cons e rest =>
      obtain ⟨before, ⟨env, call⟩, after⟩ := e
      cases call with
      | action a => exact ⟨_, a, rfl, rfl, h⟩
      | _ => exact absurd h (by simp [startsWithGenesis])

/-- A run of the executable model has its history. -/
theorem history_of_trace {s : State} {es : List Record} {txs : List Transaction}
    (h : traceFromGenesis p allowed txs = some (es, s)) : History p allowed es s := by
  obtain ⟨htrace, hgenesis⟩ := Option.filter_eq_some_iff.mp h
  refine ⟨history_of_traceAll htrace (.first ⟨rfl, by simp⟩), ?_⟩
  exact head_of_startsWithGenesis hgenesis

end Runs

/-! ### Two members -/

def contractSigner : Signer := ⟨host.self, host.self_valid⟩

def alice : Signer := ⟨nameOf ['a', 'l', 'i', 'c', 'e'], by decide⟩

def bob : Signer := ⟨nameOf ['b', 'o', 'b'], by decide⟩

def carol : Signer := ⟨nameOf ['c', 'a', 'r', 'o', 'l'], by decide⟩

def eos (amount : Int) : Asset := ⟨amount, eosSymbol⟩

def sampleProfile : NewMemberProfile := { name := ['A'], img := ['Q', 'm'], bio := ['b'] }

/-- Genesis on a Wednesday noon, with alice and bob as first members, who then pay. -/
def foundation : List Transaction :=
  [(1000000, [(signedBy contractSigner, .action (.genesis ['E', 'd', 'e', 'n'] eosSymbol (eos 100)
      [alice.name, bob.name] ['Q', 'm'] (eos 1) 3600 3 ['1', '2', ':', '0', '0']))]),
    (1000010, [(signedBy alice, .transfer alice.name host.self (eos 1000) []),
      (signedBy bob, .transfer bob.name host.self (eos 1000) [])]),
    (1000020, [(signedBy alice, .action (.inductprofil 1 sampleProfile)),
      (signedBy bob, .action (.inductprofil 2 sampleProfile))]),
    (1000030, [(signedBy alice, .action (.inductdonate alice.name 1 (eos 100)))]),
    (1000040, [({ signedBy bob with assetId := 100 },
      .action (.inductdonate bob.name 2 (eos 100)))])]

/-- A block header of bitcoin with a time stamp. -/
def headerAt (time : Nat) : Bytes :=
  List.replicate 68 0 ++ littleEndianBytes 4 time ++ List.replicate 8 0

/-- Alice and bob take part in the first election, which is over at once. -/
def firstElection : List Transaction :=
  foundation ++
    [(1000050, [(signedBy alice, .action (.electopt alice.name true)),
        (signedBy bob, .action (.electopt bob.name true))]),
      (1900000, [(signedBy alice, .action (.electseed (headerAt 947600000)))]),
      (1987200, [(signedBy alice, .action (.electprocess 100))])]

end Eden.HostFunctions
