import Eden.Electorate
import Eden.HostFunctions

/-!
Approvals of bylaws stay below the majority of the board that would have moved the text on, unless
a resignation lowers the majority to the approvals that a text already has.
-/

namespace Eden.BylawsQuorum

open Eden.ExceptReasoning
open Eden.SortedTable
open Eden.ChainPrimitives
open Eden.ContractState
open Eden.Runtime
open Eden.MemberTable
open Eden.BylawsRules
open Eden.ElectionRounds
open Eden.ElectionPhases
open Eden.ContractActions
open Eden.Transactions
open Eden.HostFunctions
open Eden.ContractSteps
open Eden.ActionSteps
open Eden.Electorate

variable {p : Platform} {call : Call}

/-- The rows that collect approvals. -/
def collecting (t : BylawsTable) : List Bylaws := t.proposed.toList ++ t.pending.toList

theorem mem_collecting {t : BylawsTable} {row : Bylaws} :
    row ∈ collecting t ↔ t.proposed = some row ∨ t.pending = some row := by
  simp [collecting]

theorem collecting_newBoard {t : BylawsTable} {row : Bylaws} (h : row ∈ collecting (newBoard t)) :
    row.approvals = [] := by
  rw [mem_collecting] at h
  rcases h with h | h
  · exact absurd h (by simp [newBoard])
  · obtain ⟨row₀, _, rfl⟩ := Option.map_eq_some_iff.mp h
    rfl

theorem collecting_mapApprovals {t : BylawsTable} {f : List Name → List Name} {row : Bylaws}
    (h : row ∈ collecting (mapApprovals t f)) :
    ∃ row₀ ∈ collecting t, row.approvals = f row₀.approvals := by
  rw [mem_collecting] at h
  rcases h with h | h
  · obtain ⟨row₀, hrow₀, rfl⟩ := Option.map_eq_some_iff.mp h
    exact ⟨row₀, mem_collecting.mpr (.inl hrow₀), rfl⟩
  · obtain ⟨row₀, hrow₀, rfl⟩ := Option.map_eq_some_iff.mp h
    exact ⟨row₀, mem_collecting.mpr (.inr hrow₀), rfl⟩

theorem collecting_putBylaws {t : BylawsTable} (type : BylawsType) {new : Option Bylaws}
    {row : Bylaws} (h : row ∈ collecting (putBylaws t type new)) :
    new = some row ∨ row ∈ collecting t := by
  rw [mem_collecting] at h ⊢
  cases type with
  | proposed =>
      rcases h with h | h
      · exact .inl h
      · exact .inr (.inr h)
  | pending =>
      rcases h with h | h
      · exact .inr (.inl h)
      · exact .inl h
  | ratified => exact .inr h

/-- A row after `approve` is new, was there before, or has one approval more and still not enough. -/
theorem collecting_approve {t t' : BylawsTable} {now : Nat} {results : Option ElectionResults}
    {time : Option Nat} {currentState nextState : BylawsType} {approver : Name} {hash : Checksum}
    (h : approve p t now results time currentState nextState approver hash = .ok t')
    {row : Bylaws} (hrow : row ∈ collecting t') :
    row.approvals = [] ∨ row ∈ collecting t ∨
      ∃ r, results = some r ∧ row.approvals.length ≤ r.board.length * 2 / 3 := by
  obtain ⟨row₀, r, _, _, hr, _, _, _, _, ⟨_, rfl⟩ | ⟨hlt, rfl⟩⟩ := approve_eq_ok h
  · rcases collecting_putBylaws _ hrow with hnone | hrow
    · exact absurd hnone (by simp)
    · rcases collecting_putBylaws _ hrow with hnew | hrow
      · rw [Option.some.injEq] at hnew
        subst hnew
        exact .inl rfl
      · exact .inr (.inl hrow)
  · rcases collecting_putBylaws _ hrow with hmore | hrow
    · rw [Option.some.injEq] at hmore
      subst hmore
      refine .inr (.inr ⟨r, hr, ?_⟩)
      rw [List.length_append, List.length_singleton]
      exact hlt
    · exact .inr (.inl hrow)

/-! ### Quorum -/

/-- A text that lacks one approval of the board loses a board member who has not approved it, and
the majority gets smaller. -/
def closesQuorum (r : ElectionResults) (row : Bylaws) (member : Name) : Bool :=
  member ∈ r.board && member ∉ row.approvals && row.approvals.length = r.board.length * 2 / 3 &&
    r.board.length % 3 ≠ 1

/-- No resignation lowers the majority of the board to the approvals of a text. -/
def keepsQuorum (s : State) : Call → Bool
  | .action (.resign account) => s.elections.results.all fun r =>
      (collecting s.bylaws).all fun row => !closesQuorum r row account
  | _ => true

/-- No text has the approvals of two thirds of the board, and none has any during an election. -/
structure QuorumOpen (s : State) : Prop where
  voting : isIdle s.elections.current = false → ∀ row ∈ collecting s.bylaws, row.approvals = []
  below : ∀ r, s.elections.results = some r → ∀ row ∈ collecting s.bylaws,
    r.board = [] ∨ row.approvals.length ≤ r.board.length * 2 / 3

theorem below_boardWithout {r : ElectionResults} {row : Bylaws} {member : Name}
    (h : r.board = [] ∨ row.approvals.length ≤ r.board.length * 2 / 3)
    (hkeeps : closesQuorum r row member = false) :
    (boardWithout member r).board = [] ∨
      (row.approvals.erase member).length ≤ (boardWithout member r).board.length * 2 / 3 := by
  simp only [boardWithout]
  rcases h with hempty | hbelow
  · exact .inl (by rw [hempty]; rfl)
  · right
    simp only [closesQuorum, Bool.and_eq_false_iff, decide_eq_false_iff_not, not_not] at hkeeps
    rw [List.length_erase, List.length_erase]
    by_cases hboard : member ∈ r.board
    · by_cases happroved : member ∈ row.approvals
      · rw [if_pos hboard, if_pos happroved]
        omega
      · rw [if_pos hboard, if_neg happroved]
        have hpos := List.length_pos_of_mem hboard
        rcases hkeeps with ((hnot | hnot) | hlength) | hmod
        · exact absurd hboard hnot
        · exact absurd hnot happroved
        · omega
        · omega
    · rw [if_neg hboard]
      split
      · omega
      · exact hbelow

/-- A step that keeps results and bylaws, and starts no election. -/
theorem QuorumOpen.of_same {s s' : State} (h : QuorumOpen s)
    (hresults : s'.elections.results = s.elections.results) (hbylaws : s'.bylaws = s.bylaws)
    (hcurrent : isIdle s'.elections.current = false → isIdle s.elections.current = false) :
    QuorumOpen s' where
  voting := by
    rw [hbylaws]
    exact fun hidle => h.voting (hcurrent hidle)
  below := by
    rw [hresults, hbylaws]
    exact h.below

/-- An approval is given before an election. -/
theorem quorumOpen_approve {s : State} (hs : QuorumOpen s) {t : BylawsTable}
    {currentState nextState : BylawsType} {approver : Name} {hash : Checksum}
    (h : approve p s.bylaws s.now s.elections.results (getNextElectionTime s.elections.current)
      currentState nextState approver hash = .ok t) : QuorumOpen { s with bylaws := t } := by
  refine ⟨?_, ?_⟩
  · intro hidle
    obtain ⟨_, _, _, _, _, ⟨e, htime, _⟩, _⟩ := approve_eq_ok h
    exfalso
    change isIdle s.elections.current = false at hidle
    unfold getNextElectionTime at htime
    split at htime
    · rename_i hcurrent
      rw [hcurrent] at hidle
      exact absurd hidle (by simp [isIdle])
    · rename_i hcurrent
      rw [hcurrent] at hidle
      exact absurd hidle (by simp [isIdle])
    · exact absurd htime (by simp)
  · intro r hr row hrow
    rcases collecting_approve h hrow with hnil | hrow | ⟨r', hr', hbelow⟩
    · exact .inr (by simp [hnil])
    · exact hs.below r hr row hrow
    · rw [show s.elections.results = some r from hr, Option.some.injEq] at hr'
      subst hr'
      exact .inr hbelow

theorem step_quorumOpen {s s' : State} (h : Step p call s s')
    (hcall : ∀ account, call = .action (.resign account) →
      s.members.table.find? account = none ∨ keepsQuorum s call = true)
    (hs : QuorumOpen s) : QuorumOpen s' := by
  cases h with
  | aside haside =>
      refine hs.of_same haside.results haside.bylaws ?_
      rw [haside.current]
      exact id
  | resigns hrunning hmember _ _ _ =>
      have hkeeps := (hcall _ rfl).resolve_left (by simp [hmember])
      simp only [keepsQuorum, Option.all_eq_true, List.all_eq_true, Bool.not_eq_true'] at hkeeps
      refine ⟨?_, ?_⟩
      · intro hidle
        change isIdle s.elections.current = false at hidle
        rw [isIdle_of_not_running hrunning] at hidle
        exact absurd hidle (by simp)
      · intro r' hr' row hrow
        obtain ⟨r, hr, rfl⟩ := Option.map_eq_some_iff.mp hr'
        obtain ⟨row₀, hrow₀, happrovals⟩ := collecting_mapApprovals hrow
        rw [happrovals]
        exact below_boardWithout (hs.below r hr row₀ hrow₀) (hkeeps r hr row₀ hrow₀)
  | renames hrunning _ _ _ _ _ _ _ =>
      refine ⟨?_, ?_⟩
      · intro hidle
        change isIdle s.elections.current = false at hidle
        rw [isIdle_of_not_running hrunning] at hidle
        exact absurd hidle (by simp)
      · intro r' hr' row hrow
        obtain ⟨r, hr, rfl⟩ := Option.map_eq_some_iff.mp hr'
        obtain ⟨row₀, hrow₀, happrovals⟩ := collecting_mapApprovals hrow
        rw [happrovals, List.length_map]
        rcases hs.below r hr row₀ hrow₀ with hempty | hbelow
        · exact .inl (by simp [boardRenamed, hempty])
        · exact .inr (by simpa [boardRenamed] using hbelow)
  | proposes hproposed =>
      obtain ⟨_, rfl⟩ := setProposed_eq_ok hproposed
      refine ⟨?_, ?_⟩
      · intro hidle row hrow
        rcases collecting_putBylaws .proposed hrow with hnew | hrow
        · rw [Option.some.injEq] at hnew
          rw [← hnew]
        · exact hs.voting hidle row hrow
      · intro r hr row hrow
        rcases collecting_putBylaws .proposed hrow with hnew | hrow
        · rw [Option.some.injEq] at hnew
          exact .inr (by simp [← hnew])
        · exact hs.below r hr row hrow
  | approves happrove => exact quorumOpen_approve hs happrove
  | ratifies happrove => exact quorumOpen_approve hs happrove
  | schedules => exact hs.of_same rfl rfl fun hidle => absurd hidle (by simp [withCurrent, isIdle])
  | unschedules =>
      exact hs.of_same rfl rfl fun hidle => absurd hidle (by simp [withCurrent, isIdle])
  | aborts => exact hs.of_same rfl rfl fun hidle => absurd hidle (by simp [withCurrent, isIdle])
  | seeds hseed =>
      rcases seed_eq_ok hseed with ⟨_, _, _, _, _, _, _, _, _, rfl⟩ |
        ⟨_, _, _, _, _, _, _, rfl⟩ | ⟨_, _, _, hcurrent, _, _, rfl⟩
      · exact hs.of_same rfl rfl fun hidle => absurd hidle (by simp [withCurrent, isIdle])
      · exact hs.of_same rfl rfl fun hidle => absurd hidle (by simp [withCurrent, isIdle])
      · exact hs.of_same rfl rfl fun _ => by rw [hcurrent]; rfl
  | starts _ hstart _ =>
      obtain ⟨_, _, _, _, _, _, _, rfl⟩ := startElection_eq_ok hstart
      have hnone : ∀ row ∈ collecting (newBoard s.bylaws), row.approvals = [] :=
        fun row hrow => collecting_newBoard hrow
      exact ⟨fun _ => hnone, fun _ _ row hrow => .inr (by simp [hnone row hrow])⟩
  | visits hcurrent _ _ => exact hs.of_same rfl rfl fun _ => by rw [hcurrent]; rfl
  | reports hcurrent _ => exact hs.of_same rfl rfl fun _ => by rw [hcurrent]; rfl
  | opens hcurrent _ _ _ _ _ _ => exact hs.of_same rfl rfl fun _ => by rw [hcurrent]; rfl
  | votes hvote =>
      obtain ⟨_, _, _, _, _, _, _, _, _, _, _, rfl⟩ := vote_eq_ok hvote
      exact hs.of_same rfl rfl id
  | closes hcurrent _ _ => exact hs.of_same rfl rfl fun _ => by rw [hcurrent]; rfl
  | groups hcurrent _ => exact hs.of_same rfl rfl fun _ => by rw [hcurrent]; rfl
  | rereports hcurrent _ => exact hs.of_same rfl rfl fun _ => by rw [hcurrent]; rfl
  | advances hcurrent _ _ _ _ _ _ => exact hs.of_same rfl rfl fun _ => by rw [hcurrent]; rfl
  | concludes _ _ hround _ _ _ _ _ _ =>
      have hidle : isIdle s.elections.current = false := by
        rcases hround with ⟨_, _, hcurrent, _⟩ | ⟨_, hcurrent⟩
        · rw [hcurrent]
          rfl
        · rw [hcurrent]
          rfl
      exact ⟨fun _ => hs.voting hidle,
        fun _ _ row hrow => .inr (by simp [hs.voting hidle row hrow])⟩
  | clears hclear =>
      simp only [clearall, bind_eq_ok, pure_eq_ok] at hclear
      obtain ⟨_, _, _, _, rfl⟩ := hclear
      exact ⟨by simp [collecting], by simp⟩
  | _ => exact hs.of_same rfl rfl id

/-- In a call that resigns, the account is still to be removed and the majority stays open, or it is
gone. -/
def KeepsQuorum (call : Call) (s : State) : Prop :=
  ∀ account, call = .action (.resign account) →
    s.members.table.find? account = none ∨ keepsQuorum s call = true

theorem step_keepsQuorum {s s' : State} (h : Step p call s s') (hcall : KeepsQuorum call s) :
    KeepsQuorum call s' := by
  intro account heq
  cases h with
  | aside haside =>
      subst heq
      refine (hcall account rfl).imp (find?_none_congr haside.rows account).mpr ?_
      intro hkeeps
      simp only [keepsQuorum, haside.results, haside.bylaws] at hkeeps ⊢
      exact hkeeps
  | @resigns member =>
      simp only [Call.action.injEq, Action.resign.injEq] at heq
      subst heq
      refine .inl ?_
      simp [withoutMember, Table.find?_erase]
  | migrates _ _ _ hrows _ =>
      subst heq
      exact (hcall account rfl).imp (find?_none_congr hrows account).mpr id
  | enters hinduct => simp [heq, handlesInductions] at hinduct
  | activates hinduct => simp [heq, handlesInductions] at hinduct
  | drops hinduct => simp [heq, handlesInductions] at hinduct
  | inducts hinduct => simp [heq, handlesInductions] at hinduct
  | establishes hinduct => simp [heq, handlesInductions] at hinduct
  | schedules => exact hcall account heq
  | unschedules => exact hcall account heq
  | distributes => exact hcall account heq
  | unsettled => exact hcall account heq
  | donates hdonation =>
      rcases hdonation with ⟨rfl, _⟩ | ⟨_, _, rfl, _⟩
      · exact absurd heq (by simp)
      · exact absurd heq (by simp)
  | _ => exact absurd heq (by simp)

theorem reachable_quorumOpen {s : State}
    (h : Reachable p (fun s call => keepsQuorum s call = true) s) : QuorumOpen s := by
  refine reachable_of_calls QuorumOpen KeepsQuorum h ?_ ?_ ?_ ?_
  · intro s hs
    rw [hs.1]
    exact ⟨by simp [collecting], by simp⟩
  · intro s now _ _ hs
    exact hs.of_same rfl rfl id
  · exact fun call s hkeeps _ account _ => .inr hkeeps
  · intro call s s' hstep hs hcall
    exact ⟨step_quorumOpen hstep hcall hs, step_keepsQuorum hstep hcall⟩

/-- As long as no resignation lowers the majority of the board to the approvals of a text, no text
has the approvals of a majority and waits. -/
theorem no_stuck_quorum {s : State} (h : Reachable p (fun s call => keepsQuorum s call = true) s)
    {r : ElectionResults} (hr : s.elections.results = some r) (hboard : r.board ≠ [])
    (hidle : isElectionRunning s = false) {row : Bylaws} (hrow : row ∈ collecting s.bylaws) :
    (row.approvals.filter (· ∈ r.board)).length < r.board.length * 2 / 3 + 1 := by
  have hbelow := ((reachable_quorumOpen h).below r hr row hrow).resolve_left hboard
  exact Nat.lt_succ_of_le ((List.length_filter_le _ _).trans hbelow)

/-- Alice proposes bylaws and approves them. -/
def firstApproval : List Transaction :=
  firstElection ++
    [(1990000, [(signedBy alice, .action (.bylawspropose alice.name ['A'])),
      (signedBy alice, .action (.bylawsapprove alice.name (host.sha256 (textBytes ['A']))))])]

theorem first_approval_is_below :
    ∃ s r row, runFromGenesis host (fun s call => keepsQuorum s call = true) firstApproval =
        some s ∧ s.elections.results = some r ∧ r.board ≠ [] ∧ isElectionRunning s = false ∧
      row ∈ collecting s.bylaws ∧ row.approvals ≠ [] ∧
      (row.approvals.filter (· ∈ r.board)).length < r.board.length * 2 / 3 + 1 := by
  have hrun : (runFromGenesis host (fun s call => keepsQuorum s call = true) firstApproval).any
      (fun s => !isElectionRunning s && s.elections.results.any fun r => r.board ≠ [] &&
        (collecting s.bylaws).any fun row => row.approvals ≠ []) = true := by decide +kernel
  obtain ⟨s, hs, hstate⟩ := (Option.any_eq_true _ _).mp hrun
  simp only [Bool.and_eq_true, Bool.not_eq_true', Option.any_eq_true, List.any_eq_true,
    decide_eq_true_eq] at hstate
  obtain ⟨hidle, r, hr, hboard, row, hrow, happrovals⟩ := hstate
  exact ⟨s, r, row, hs, hr, hboard, hidle, hrow, happrovals,
    no_stuck_quorum (reachable_of_run hs) hr hboard hidle hrow⟩

/-- Bob resigns when alice has approved. -/
def lastApproverLeft : List Transaction :=
  firstApproval ++ [(1990010, [(signedBy bob, .action (.resign bob.name))])]

/-- The text has the approval of the whole board, and nobody is left who could move it on. -/
theorem quorum_stuck_after_resignation :
    ∃ s r row, runFromGenesis host (fun _ _ => True) lastApproverLeft = some s ∧
      Reachable host (fun _ _ => True) s ∧ s.elections.results = some r ∧ r.board ≠ [] ∧
      isElectionRunning s = false ∧ row ∈ collecting s.bylaws ∧
      ¬ (row.approvals.filter (· ∈ r.board)).length < r.board.length * 2 / 3 + 1 := by
  have hrun : (runFromGenesis host (fun _ _ => True) lastApproverLeft).any
      (fun s => !isElectionRunning s && s.elections.results.any fun r => r.board ≠ [] &&
        (collecting s.bylaws).any fun row => ¬ (row.approvals.filter (· ∈ r.board)).length <
          r.board.length * 2 / 3 + 1) = true := by decide +kernel
  obtain ⟨s, hs, hstate⟩ := (Option.any_eq_true _ _).mp hrun
  simp only [Bool.and_eq_true, Bool.not_eq_true', Option.any_eq_true, List.any_eq_true,
    decide_eq_true_eq] at hstate
  obtain ⟨hidle, r, hr, hboard, row, hrow, hstuck⟩ := hstate
  exact ⟨s, r, row, hs, reachable_of_run hs, hr, hboard, hidle, hrow, hstuck⟩

end Eden.BylawsQuorum
