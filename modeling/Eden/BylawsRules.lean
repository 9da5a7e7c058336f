import Eden.DistributionTables

/-!
The proposed, pending and ratified bylaws and the approvals of the board.
-/

namespace Eden.BylawsRules

open Eden.ExceptReasoning
open Eden.ChainPrimitives
open Eden.ContractState
open Eden.Runtime
open Eden.MemberTable

/-- The row of a type. -/
def findBylaws (t : BylawsTable) : BylawsType → Option Bylaws
  | .proposed => t.proposed
  | .pending => t.pending
  | .ratified => t.ratified

/-- Store, replace or erase the row of a type. -/
def putBylaws (t : BylawsTable) : BylawsType → Option Bylaws → BylawsTable
  | .proposed, row => { t with proposed := row }
  | .pending, row => { t with pending := row }
  | .ratified, row => { t with ratified := row }

def typeString : BylawsType → String
  | .proposed => "proposed"
  | .pending => "pending"
  | .ratified => "ratified"

/-- The bytes of a text. -/
def textBytes (t : Text) : Bytes := t.map fun c => UInt8.ofNat c.toNat

def setProposed (t : BylawsTable) (now : Nat) (results : Option ElectionResults) (proposer : Name)
    (proposal : Text) : Outcome BylawsTable := do
  let results ← getSingleton results
  check (proposer = results.leadRepresentative)
    "Only the lead representative can set the proposed bylaws"
  return putBylaws t .proposed (some ⟨proposal, now, []⟩)

/-- `bylaws::approve` -/
def approve (p : Platform) (t : BylawsTable) (now : Nat) (results : Option ElectionResults)
    (nextElectionTime : Option Nat) (currentState nextState : BylawsType) (approver : Name)
    (proposalHash : Checksum) : Outcome BylawsTable := do
  let row ← getRow (findBylaws t currentState) ("No " ++ typeString currentState ++ " bylaws")
  check (p.sha256 (textBytes row.text) = proposalHash)
    ("bylaws hash does not match " ++ typeString currentState ++ " bylaws")
  let results ← getSingleton results
  check (nextElectionTime.any fun e => now < e)
    "Bylaws cannot be approved while an election is running"
  check (approver ∉ row.approvals) "Already approved"
  check (approver ∈ results.board) "Not a board member"
  check (nextState ≠ .ratified ||
      toTimePoint row.time + days 90 ≤ toTimePoint results.lastElectionTime)
    ("Bylaws can only be approved if they were proposed at least 90 days before the last " ++
      "election.")
  if results.board.length * 2 / 3 ≤ row.approvals.length then
    return putBylaws (putBylaws t nextState (some ⟨row.text, now, []⟩)) currentState none
  else
    return putBylaws t currentState (some { row with approvals := row.approvals ++ [approver] })

def newBoard (t : BylawsTable) : BylawsTable :=
  { t with proposed := none, pending := t.pending.map fun row => { row with approvals := [] } }

/-- Apply a function to the approvals that are still being collected. -/
def mapApprovals (t : BylawsTable) (f : List Name → List Name) : BylawsTable :=
  { t with
    proposed := t.proposed.map fun row => { row with approvals := f row.approvals }
    pending := t.pending.map fun row => { row with approvals := f row.approvals } }

/-- `bylaws::on_resign` -/
def withdrawApprovals (t : BylawsTable) (member : Name) : BylawsTable :=
  mapApprovals t fun approvals => approvals.erase member

/-- `bylaws::on_rename` -/
def renameApprovals (t : BylawsTable) (oldAccount newAccount : Name) : BylawsTable :=
  mapApprovals t fun approvals => approvals.map fun a => if a = oldAccount then newAccount else a

/-! ### What the functions change -/

theorem setProposed_eq_ok {t t' : BylawsTable} {now : Nat} {results : Option ElectionResults}
    {proposer : Name} {proposal : Text}
    (h : setProposed t now results proposer proposal = .ok t') :
    (∃ r, results = some r ∧ proposer = r.leadRepresentative) ∧
      t' = { t with proposed := some ⟨proposal, now, []⟩ } := by
  simp only [setProposed, bind_eq_ok, getSingleton_eq_ok, check_eq_ok, exists_const,
    decide_eq_true_eq, pure_eq_ok] at h
  obtain ⟨r, hr, hlead, rfl⟩ := h
  exact ⟨⟨r, hr, hlead⟩, rfl⟩

/-- The checks of `approve`, and its two ends: the text moves on, or one more approval is stored. -/
theorem approve_eq_ok {p : Platform} {t t' : BylawsTable} {now : Nat}
    {results : Option ElectionResults} {nextElectionTime : Option Nat}
    {currentState nextState : BylawsType} {approver : Name} {proposalHash : Checksum}
    (h : approve p t now results nextElectionTime currentState nextState approver proposalHash =
      .ok t') :
    ∃ row r, findBylaws t currentState = some row ∧
      p.sha256 (textBytes row.text) = proposalHash ∧ results = some r ∧
      (∃ e, nextElectionTime = some e ∧ now < e) ∧ approver ∉ row.approvals ∧
      approver ∈ r.board ∧
      (nextState = .ratified →
        toTimePoint row.time + days 90 ≤ toTimePoint r.lastElectionTime) ∧
      ((r.board.length * 2 / 3 ≤ row.approvals.length ∧
          t' = putBylaws (putBylaws t nextState (some ⟨row.text, now, []⟩)) currentState none) ∨
        (row.approvals.length < r.board.length * 2 / 3 ∧
          t' = putBylaws t currentState
            (some { row with approvals := row.approvals ++ [approver] }))) := by
  simp only [approve, bind_eq_ok, getRow_eq_ok, getSingleton_eq_ok, check_eq_ok, exists_const,
    decide_eq_true_eq, Option.any_eq_true] at h
  obtain ⟨row, hrow, hhash, r, hr, htime, hnew, hboard, hninety, h⟩ := h
  refine ⟨row, r, hrow, hhash, hr, htime, hnew, hboard, ?_, ?_⟩
  · intro hratified
    simpa [hratified] using hninety
  · split at h
    · rename_i hquorum
      rw [pure_eq_ok] at h
      exact .inl ⟨hquorum, h.symm⟩
    · rename_i hquorum
      rw [pure_eq_ok] at h
      exact .inr ⟨not_le.mp hquorum, h.symm⟩

end Eden.BylawsRules
