import Eden.AccountTables

/-!
Members of the community, their number and the histogram of their ranks.
-/

namespace Eden.MemberTable

open Eden.ExceptReasoning
open Eden.SortedTable
open Eden.ChainPrimitives
open Eden.ContractState
open Eden.Runtime

/-- A row of a table that must exist. -/
def getRow {α : Type} (row : Option α) (message : String) : Outcome α :=
  expect row (.check message)

@[simp] theorem getRow_eq_ok {α : Type} {row : Option α} {message : String} {a : α} :
    getRow row message = .ok a ↔ row = some a := expect_eq_ok

/-! ### `sessions` -/

def removeSessions (p : Platform) (s : State) (edenAccount : Name) : State :=
  match s.sessions.find? edenAccount with
  | none => s
  | some container =>
      let output := container.sessions.foldl
        (fun out session => pushEvent p out (.sessionDel edenAccount session.key)) s.output
      { s with output := output, sessions := s.sessions.erase edenAccount }

/-- `expire` followed by `set_expiration`. -/
def expireSessions (now : Nat) (sc : SessionContainer) : SessionContainer :=
  let sessions := sc.sessions.filter fun session => now < session.expiration
  { sc with
    sessions := sessions
    earliestExpiration := sessions.foldl (fun e session => min e session.expiration) (2 ^ 32 - 1) }

/-- Each turn of the loop takes one step. -/
def gcSessions (p : Platform) : (remaining : Nat) → State → Nat × State
  | 0, s => (0, s)
  | remaining + 1, s =>
      match s.sessions.index SessionContainer.earliestExpiration with
      | [] => (remaining + 1, s)
      | first :: _ =>
          if first.earliestExpiration ≤ s.now then
            let output := (first.sessions.filter fun session => session.expiration ≤ s.now).foldl
              (fun out session => pushEvent p out (.sessionDel first.edenAccount session.key))
              s.output
            let kept := expireSessions s.now first
            let sessions :=
              if kept.sessions = [] then s.sessions.erase first.edenAccount
              else s.sessions.modify first.edenAccount
                (fun row => { kept with edenAccount := row.edenAccount }) fun _ => rfl
            gcSessions p remaining { s with output := output, sessions := sessions }
          else (remaining + 1, s)

/-! ### `members` -/

def getMember (m : Members) (account : Name) : Outcome Member :=
  getRow (m.table.find? account) ("member " ++ nameString account ++ " not found")

def checkActiveMember (m : Members) (account : Name) : Outcome Unit := do
  let member ← getMember m account
  check (member.status = .activeMember) ("inactive member " ++ nameString account)

def checkPendingMember (m : Members) (account : Name) : Outcome Unit := do
  let member ← getMember m account
  check (member.status = .pendingMembership)
    ("member " ++ nameString account ++ " is not pending")

def isNewMember (m : Members) (account : Name) : Bool := (m.table.find? account).isNone

def checkKeys (m : Members) (accounts : List Name) (keys : List EncryptedKey) : Outcome Unit := do
  let members ← accounts.mapM fun account => getRow (m.table.find? account) "unable to find key"
  let expectedKeys := members.filterMap Member.encryptionKey
  check (expectedKeys.length = keys.length) "Wrong number of encyption keys"
  let actualKeys := keys.map EncryptedKey.recipientKey
  check (actualKeys.insertionSort (· ≤ ·) = expectedKeys.insertionSort (· ≤ ·))
    "Wrong encryption key"

/-- A changed row; a changed key of the index `byrep` is stored there. -/
def reindexed (old new : Member) : Member :=
  let moved : Bool :=
    new.electionRank ≠ old.electionRank || new.representative ≠ old.representative
  { new with inByRep := old.inByRep || moved }

/-- Replace the row of a member by a function of it. -/
def modifyMember (m : Members) (account : Name) (f : Member → Member) : Members :=
  let update (row : Member) : Member := reindexed row { f row with account := row.account }
  { m with table := m.table.modify account update fun _ => rfl }

def setKey (m : Members) (account : Name) (key : PublicKey) : Outcome Members := do
  let _ ← getMember m account
  return modifyMember m account fun row => { row with encryptionKey := some key }

def create (m : Members) (account : Name) : Outcome Members := do
  let pendingMembers := (m.stats.pendingMembers + 1) % 2 ^ 16
  check (pendingMembers ≠ 0) "Integer overflow"
  let table ← expect (m.table.emplace? { account := account }) .duplicateKey
  return { m with table := table, stats := { m.stats with pendingMembers := pendingMembers } }

/-- `--ranks[rank]`, in 16 bits. -/
def decrementRank (ranks : List Nat) (rank : Nat) : Outcome (List Nat) := do
  ensure (rank < ranks.length) (.undefined "ranks[election_rank]")
  return ranks.modify rank fun count => (count + (2 ^ 16 - 1)) % 2 ^ 16

/-- `++ranks[rank]` after extending the vector up to `rank`, in 16 bits. -/
def incrementRank (ranks : List Nat) (rank : Nat) : List Nat :=
  (ranks ++ List.replicate (rank + 1 - ranks.length) 0).modify rank fun count =>
    (count + 1) % 2 ^ 16

/-- The statistics without a member. -/
def uncount (stats : MemberStats) (member : Member) : Outcome MemberStats :=
  match member.status with
  | .pendingMembership => do
      check (stats.pendingMembers ≠ 0) "Integer overflow"
      return { stats with pendingMembers := stats.pendingMembers - 1 }
  | .activeMember => do
      check (stats.activeMembers ≠ 0) "Integer overflow"
      let ranks ← (if member.representative = invalidName then .ok stats.ranks
        else decrementRank stats.ranks member.electionRank : Outcome (List Nat))
      return { stats with activeMembers := stats.activeMembers - 1, ranks := ranks }

/-- `members::erase` -/
def eraseMember (p : Platform) (s : State) (member : Member) : Outcome State := do
  let stats ← uncount s.members.stats member
  let s := removeSessions p s member.account
  return { s with members :=
    { s.members with table := s.members.table.erase member.account, stats := stats } }

/-- `members::remove` -/
def remove (p : Platform) (s : State) (account : Name) : Outcome State := do
  let member ← getRow (s.members.table.find? account) "Unknown member"
  eraseMember p s member

def removeIfPending (p : Platform) (s : State) (account : Name) : Outcome State := do
  let member ← getRow (s.members.table.find? account) "unable to find key"
  if member.status = .pendingMembership then do
    check (s.members.stats.pendingMembers ≠ 0) "Integer overflow"
    let s := removeSessions p s account
    return { s with members :=
      { s.members with
        table := s.members.table.erase account
        stats := { s.members.stats with
          pendingMembers := s.members.stats.pendingMembers - 1 } } }
  else return s

/-- The change of the representative in the rows of those whom a renamed member represents. The
loop over the index `byrep` reaches them up to the rank of the member. -/
def renameRepresentative (account newAccount : Name) (rank : Nat) (row : Member) : Member :=
  if row.inByRep && row.representative = account && row.electionRank ≤ rank then
    { row with representative := newAccount }
  else row

theorem renameRepresentative_account (account newAccount : Name) (rank : Nat) (row : Member) :
    (renameRepresentative account newAccount rank row).account = row.account := by
  unfold renameRepresentative
  split <;> rfl

/-- The member table after the new row of a renamed member is stored. -/
def renameRows (table : Table Member.account) (account newAccount : Name) (rank : Nat) :
    Table Member.account :=
  (table.erase account).update (renameRepresentative account newAccount rank)
    (renameRepresentative_account account newAccount rank)

/-- `members::rename` -/
def rename (p : Platform) (s : State) (account newAccount : Name) : Outcome State := do
  let member ← getRow (s.members.table.find? account) "Unknown member"
  let s := removeSessions p s account
  let table ← expect
    (s.members.table.emplace? { member with account := newAccount, inByRep := true }) .duplicateKey
  let table := renameRows table account newAccount member.electionRank
  return { s with members := { s.members with table := table } }

def setNft (m : Members) (account : Name) (nftTemplateId : Int) : Outcome Members := do
  checkPendingMember m account
  return modifyMember m account fun row => { row with nftTemplateId := nftTemplateId % 2 ^ 64 }

def setActive (m : Members) (account : Name) (name : Text) : Outcome Members := do
  check (0 < m.stats.pendingMembers) "Invariant failure: no pending members"
  check (m.stats.activeMembers < maxActiveMembers) "Invariant failure: active members too high"
  checkPendingMember m account
  let m := { m with stats := { m.stats with
    pendingMembers := m.stats.pendingMembers - 1
    activeMembers := m.stats.activeMembers + 1 } }
  return modifyMember m account fun row =>
    { account := row.account
      name := name
      status := .activeMember
      nftTemplateId := row.nftTemplateId }

/-- A rank has 8 bits. -/
def setRank (m : Members) (account : Name) (rank : Nat) (representative : Name) :
    Outcome Members := do
  let rank := rank % 2 ^ 8
  let _ ← getRow (m.table.find? account) "unable to find key"
  let m := modifyMember m account fun row =>
    { row with
      electionRank := rank
      representative := representative
      electionParticipationStatus := 0 }
  let ranks := if representative = invalidName then m.stats.ranks
    else incrementRank m.stats.ranks rank
  return { m with
    stats := { m.stats with ranks := ranks }
    rankHistory := m.rankHistory ++ [.rank account] }

def clearRanks (m : Members) : Members := { m with stats := { m.stats with ranks := [] } }

/-- `members::set_ranks` appends to the histogram. -/
def setRanks (m : Members) (ranks : List Nat) : Members :=
  { m with stats := { m.stats with ranks := m.stats.ranks ++ ranks } }

/-- `members::election_opt`, given the time and the schedule version of the next election. -/
def electionOpt (m : Members) (now : Nat) (electionTime : Option Nat)
    (electionScheduleVersion : Nat) (account : Name) (participating : Bool) : Outcome Members := do
  let member ← getMember m account
  check (member.status = .activeMember) ("inactive member " ++ nameString account)
  check (electionTime.any fun t =>
    toTimePoint now + seconds electionSeedingWindow < toTimePoint t) "Registration has closed"
  let optedIn := member.electionParticipationStatus = electionScheduleVersion
  check (!participating || ¬optedIn) "Not currently opted out"
  check (participating || optedIn) "Not currently opted in"
  let newStatus := if participating then electionScheduleVersion else 0
  return modifyMember m account fun row => { row with electionParticipationStatus := newStatus }

def memberCanUploadVideo (m : Members) (round : Nat) (member : Name) : Bool :=
  (m.table.find? member).any fun row =>
    round ≤ row.electionRank && row.representative ≠ invalidName

/-- `members::maybe_activate_contract` -/
def maybeActivateContract (s : State) : Outcome State := do
  let g ← getGlobals s
  if g.stage = .genesis ∧ s.members.stats.pendingMembers = 0 then
    let s := { s with globals := some { g with stage := .active } }
    return s.members.table.rows.foldl
      (fun s member => perform s (.locktemplate member.nftTemplateId)) s
  else return s

/-! ### What the functions change -/

theorem removeSessions_eq (p : Platform) (s : State) (account : Name) :
    ∃ o t, Quiet s.output o ∧ removeSessions p s account = { s with output := o, sessions := t } := by
  unfold removeSessions
  split
  · exact ⟨s.output, s.sessions, Quiet.refl _, rfl⟩
  · rename_i container _
    exact ⟨_, _, Quiet.foldl p _ (fun _ => rfl) container.sessions s.output, rfl⟩

theorem gcSessions_eq (p : Platform) (n : Nat) (s : State) :
    ∃ r o t, Quiet s.output o ∧ gcSessions p n s = (r, { s with output := o, sessions := t }) := by
  induction n generalizing s with
  | zero => exact ⟨0, s.output, s.sessions, Quiet.refl _, rfl⟩
  | succ n ih =>
      unfold gcSessions
      split
      · exact ⟨n + 1, s.output, s.sessions, Quiet.refl _, rfl⟩
      · rename_i first rest _
        split
        · obtain ⟨r, o, t, hquiet, heq⟩ := ih _
          refine ⟨r, o, t, Quiet.trans ?_ hquiet, heq⟩
          exact Quiet.foldl p _ (fun _ => rfl) _ s.output
        · exact ⟨n + 1, s.output, s.sessions, Quiet.refl _, rfl⟩

theorem getMember_eq_ok {m : Members} {account : Name} {member : Member} :
    getMember m account = .ok member ↔ m.table.find? account = some member := getRow_eq_ok

theorem checkActiveMember_eq_ok {m : Members} {account : Name} {x : Unit} :
    checkActiveMember m account = .ok x ↔
      ∃ member, m.table.find? account = some member ∧ member.status = .activeMember := by
  simp [checkActiveMember, bind_eq_ok, getMember_eq_ok]

theorem checkPendingMember_eq_ok {m : Members} {account : Name} {x : Unit} :
    checkPendingMember m account = .ok x ↔
      ∃ member, m.table.find? account = some member ∧ member.status = .pendingMembership := by
  simp [checkPendingMember, bind_eq_ok, getMember_eq_ok]

theorem find?_modifyMember (m : Members) (member : Name) (f : Member → Member) (account : Name) :
    (modifyMember m member f).table.find? account =
      if member = account then
        (m.table.find? account).map fun row => reindexed row { f row with account := row.account }
      else m.table.find? account :=
  Table.find?_modify m.table member (fun row => reindexed row { f row with account := row.account })
    (fun _ => rfl) account

theorem remove_eq_ok {p : Platform} {s s' : State} {account : Name}
    (h : remove p s account = .ok s') :
    ∃ member stats o t, s.members.table.find? account = some member ∧
      uncount s.members.stats member = .ok stats ∧ Quiet s.output o ∧
        s' = { s with
          output := o
          sessions := t
          members := { s.members with
            table := s.members.table.erase member.account
            stats := stats } } := by
  simp only [remove, eraseMember, bind_eq_ok, getRow_eq_ok, pure_eq_ok] at h
  obtain ⟨member, hmember, stats, hstats, rfl⟩ := h
  obtain ⟨o, t, hquiet, heq⟩ := removeSessions_eq p s member.account
  exact ⟨member, stats, o, t, hmember, hstats, hquiet, by rw [heq]⟩

theorem removeIfPending_eq_ok {p : Platform} {s s' : State} {account : Name}
    (h : removeIfPending p s account = .ok s') :
    ∃ member, s.members.table.find? account = some member ∧
      ((member.status = .activeMember ∧ s' = s) ∨
        (member.status = .pendingMembership ∧ s.members.stats.pendingMembers ≠ 0 ∧
          ∃ o t, Quiet s.output o ∧ s' = { s with
            output := o
            sessions := t
            members := { s.members with
              table := s.members.table.erase account
              stats := { s.members.stats with
                pendingMembers := s.members.stats.pendingMembers - 1 } } })) := by
  simp only [removeIfPending, bind_eq_ok, getRow_eq_ok] at h
  obtain ⟨member, hmember, h⟩ := h
  refine ⟨member, hmember, ?_⟩
  split at h
  · rename_i hpending
    simp only [bind_eq_ok, check_eq_ok, exists_const, pure_eq_ok, decide_eq_true_eq] at h
    obtain ⟨hcount, rfl⟩ := h
    obtain ⟨o, t, hquiet, heq⟩ := removeSessions_eq p s account
    exact .inr ⟨hpending, hcount, o, t, hquiet, by rw [heq]⟩
  · rename_i hactive
    simp only [pure_eq_ok] at h
    refine .inl ⟨?_, h.symm⟩
    cases hstatus : member.status with
    | pendingMembership => exact absurd hstatus hactive
    | activeMember => rfl

theorem rename_eq_ok {p : Platform} {s s' : State} {account newAccount : Name}
    (h : rename p s account newAccount = .ok s') :
    ∃ member table o t, s.members.table.find? account = some member ∧
      s.members.table.emplace? { member with account := newAccount, inByRep := true } =
        some table ∧ Quiet s.output o ∧
          s' = { s with
            output := o
            sessions := t
            members := { s.members with
              table := renameRows table account newAccount member.electionRank } } := by
  simp only [rename, bind_eq_ok, getRow_eq_ok, expect_eq_ok, pure_eq_ok] at h
  obtain ⟨member, hmember, table, htable, rfl⟩ := h
  obtain ⟨o, t, hquiet, heq⟩ := removeSessions_eq p s account
  rw [heq] at htable
  exact ⟨member, table, o, t, hmember, htable, hquiet, by rw [heq]⟩

theorem maybeActivateContract_eq_ok {s s' : State} (h : maybeActivateContract s = .ok s') :
    ∃ g stage o, s.globals = some g ∧ Quiet s.output o ∧
      (stage = g.stage ∨
        (g.stage = .genesis ∧ stage = .active ∧ s.members.stats.pendingMembers = 0)) ∧
      s' = { s with globals := some { g with stage := stage }, output := o } := by
  simp only [maybeActivateContract, bind_eq_ok, getGlobals_eq_ok] at h
  obtain ⟨g, hg, h⟩ := h
  have hlock : ∀ (l : List Member) (t : State), ∃ o, Quiet t.output o ∧
      l.foldl (fun s member => perform s (.locktemplate member.nftTemplateId)) t =
        { t with output := o } := by
    intro l
    induction l with
    | nil => exact fun t => ⟨t.output, Quiet.refl _, rfl⟩
    | cons member l ih =>
        intro t
        obtain ⟨o, hquiet, heq⟩ := ih (perform t (.locktemplate member.nftTemplateId))
        exact ⟨o, (Quiet.sendAction t.output _).trans hquiet, heq⟩
  split at h
  · rename_i hready
    simp only [pure_eq_ok] at h
    obtain ⟨o, hquiet, heq⟩ := hlock s.members.table.rows
      { s with globals := some { g with stage := .active } }
    rw [heq] at h
    exact ⟨g, .active, o, hg, hquiet, .inr ⟨hready.1, rfl, hready.2⟩, h.symm⟩
  · simp only [pure_eq_ok] at h
    refine ⟨g, g.stage, s.output, hg, Quiet.refl _, .inl rfl, ?_⟩
    rw [← h, ← hg]

/-- The row of a member with a new rank. -/
def ranked (rank : Nat) (representative : Name) (row : Member) : Member :=
  reindexed row { row with
    electionRank := rank
    representative := representative
    electionParticipationStatus := 0 }

/-- The histogram with one more member that has a representative. -/
def countRank (ranks : List Nat) (rank : Nat) (representative : Name) : List Nat :=
  if representative = invalidName then ranks else incrementRank ranks rank

theorem setRank_eq_ok {m m' : Members} {account representative : Name} {rank : Nat}
    (h : setRank m account rank representative = .ok m') :
    ∃ row, m.table.find? account = some row ∧
      m' = { table := m.table.modify account (ranked (rank % 2 ^ 8) representative) fun _ => rfl
             stats := { m.stats with
               ranks := countRank m.stats.ranks (rank % 2 ^ 8) representative }
             rankHistory := m.rankHistory ++ [.rank account] } := by
  simp only [setRank, bind_eq_ok, getRow_eq_ok, pure_eq_ok] at h
  obtain ⟨row, hrow, rfl⟩ := h
  exact ⟨row, hrow, rfl⟩

end Eden.MemberTable
