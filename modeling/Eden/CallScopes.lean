import Eden.ActionSteps

/-!
What calls leave alone of the date setting, the sessions and the keys of the members. A scope names
the parts that a function may change; almost all functions stay within the empty scope.
-/

namespace Eden.CallScopes

open Eden.ExceptReasoning
open Eden.SortedTable
open Eden.ChainPrimitives
open Eden.ElectionPlan
open Eden.ContractState
open Eden.Runtime
open Eden.MemberTable
open Eden.DistributionTables
open Eden.ElectionRounds
open Eden.ElectionPhases
open Eden.InductionTables
open Eden.Maintenance
open Eden.ContractActions
open Eden.Transactions
open Eden.ActionSteps

variable {p : Platform}

/-! ### Scopes -/

/-- The parts that a function may change: the date setting, the sessions, and the keys of some
accounts. -/
structure Scope where
  start : Bool := false
  sessions : Bool := false
  keys : Name → Prop := fun _ => False

/-- The rows of a member table come from rows of another with the same key, but for some
accounts. -/
def KeysFrom (keys : Name → Prop) (t t' : Table Member.account) : Prop :=
  ∀ a row', t'.find? a = some row' →
    keys a ∨ ∃ row, t.find? a = some row ∧ row'.encryptionKey = row.encryptionKey

/-- Two states that agree outside of a scope. -/
structure Within (scope : Scope) (s s' : State) : Prop where
  start : scope.start = false →
    s'.globals.map Globals.electionStartTime = s.globals.map Globals.electionStartTime
  sessions : scope.sessions = false → s'.sessions = s.sessions
  keys : KeysFrom scope.keys s.members.table s'.members.table

section Tables

variable {keys : Name → Prop} {t t' t'' : Table Member.account}

theorem KeysFrom.refl (t : Table Member.account) : KeysFrom keys t t :=
  fun _ row' h => .inr ⟨row', h, rfl⟩

theorem KeysFrom.trans (h : KeysFrom keys t t') (h' : KeysFrom keys t' t'') :
    KeysFrom keys t t'' := by
  intro a row'' hrow''
  rcases h' a row'' hrow'' with hkeys | ⟨row', hrow', hkey'⟩
  · exact .inl hkeys
  · rcases h a row' hrow' with hkeys | ⟨row, hrow, hkey⟩
    · exact .inl hkeys
    · exact .inr ⟨row, hrow, hkey'.trans hkey⟩

theorem KeysFrom.widen {keys' : Name → Prop} (hkeys : ∀ a, keys a → keys' a)
    (h : KeysFrom keys t t') : KeysFrom keys' t t' :=
  fun a row' hrow' => (h a row' hrow').imp (hkeys a) id

/-- A change of the rows that keeps their keys. -/
theorem keysFrom_update {f : Member → Member} (hf : ∀ m, (f m).account = m.account)
    (hkey : ∀ m, (f m).encryptionKey = m.encryptionKey) : KeysFrom keys t (t.update f hf) := by
  intro a row' hrow'
  rw [Table.find?_update] at hrow'
  obtain ⟨row, hrow, rfl⟩ := Option.map_eq_some_iff.mp hrow'
  exact .inr ⟨row, hrow, hkey row⟩

theorem keysFrom_modify (account : Name) {f : Member → Member}
    (hf : ∀ m, (f m).account = m.account)
    (hkey : ∀ m, (f m).encryptionKey = m.encryptionKey ∨ keys account) :
    KeysFrom keys t (t.modify account f hf) := by
  intro a row' hrow'
  rw [Table.find?_modify] at hrow'
  split at hrow'
  · rename_i hsame
    subst hsame
    obtain ⟨row, hrow, rfl⟩ := Option.map_eq_some_iff.mp hrow'
    rcases hkey row with hkey | hkeys
    · exact .inr ⟨row, hrow, hkey⟩
    · exact .inl hkeys
  · exact .inr ⟨row', hrow', rfl⟩

theorem keysFrom_erase (account : Name) : KeysFrom keys t (t.erase account) := by
  intro a row' hrow'
  rw [Table.find?_erase] at hrow'
  split at hrow'
  · cases hrow'
  · exact .inr ⟨row', hrow', rfl⟩

theorem keysFrom_empty : KeysFrom keys t .empty := by
  intro a row' hrow'
  simp [Table.find?, Table.empty] at hrow'

theorem keysFrom_emplace {m : Member} (hkeys : keys m.account) (h : t.emplace? m = some t') :
    KeysFrom keys t t' := by
  intro a row' hrow'
  rw [Table.find?_emplace? h] at hrow'
  split at hrow'
  · rename_i hsame
    exact .inl (hsame ▸ hkeys)
  · exact .inr ⟨row', hrow', rfl⟩

/-- Rows of the table are stored again, with an entry in the index `byrep`. -/
theorem keysFrom_indexed {rows : List Member} (hrows : ∀ m ∈ rows, m ∈ t.rows) :
    KeysFrom keys t (indexed t rows) := by
  have hfold : ∀ u : Table Member.account, KeysFrom keys t u →
      KeysFrom keys t (indexed u rows) := by
    unfold indexed
    induction rows with
    | nil => exact fun u hu => hu
    | cons m rows ih =>
        intro u hu
        rw [List.foldl_cons]
        refine ih (fun m' hm' => hrows m' (List.mem_cons_of_mem m hm')) _ ?_
        intro a row' hrow'
        rw [Table.find?_replace] at hrow'
        split at hrow'
        · rename_i hsame
          obtain ⟨row, hrow, rfl⟩ := Option.map_eq_some_iff.mp hrow'
          exact .inr ⟨m, Table.find?_eq_some.mpr ⟨hrows m List.mem_cons_self, hsame⟩, rfl⟩
        · exact hu a row' hrow'
  exact hfold t (KeysFrom.refl t)

end Tables

namespace Within

variable {scope : Scope}

theorem refl (s : State) : Within scope s s := ⟨fun _ => rfl, fun _ => rfl, .refl _⟩

theorem trans {s₁ s₂ s₃ : State} (h₁ : Within scope s₁ s₂) (h₂ : Within scope s₂ s₃) :
    Within scope s₁ s₃ where
  start h := (h₂.start h).trans (h₁.start h)
  sessions h := (h₂.sessions h).trans (h₁.sessions h)
  keys := h₁.keys.trans h₂.keys

/-- Other parts of the state are free to change. -/
theorem of_eq {s s' : State} (hglobals : s'.globals = s.globals)
    (hsessions : s'.sessions = s.sessions) (htable : s'.members.table = s.members.table) :
    Within scope s s' where
  start _ := congrArg _ hglobals
  sessions _ := hsessions
  keys := htable ▸ .refl _

/-- What leads up to a part may change the rest of the state. -/
theorem after {s t s' : State} (h : Within scope t s') (hglobals : t.globals = s.globals)
    (hsessions : t.sessions = s.sessions) (htable : t.members.table = s.members.table) :
    Within scope s s' := (of_eq hglobals hsessions htable).trans h

/-- Only the members change. -/
theorem of_keys {s : State} {m : Members} (h : KeysFrom scope.keys s.members.table m.table) :
    Within scope s { s with members := m } := ⟨fun _ => rfl, fun _ => rfl, h⟩

theorem foldlM {α : Type} {f : State → α → Outcome State}
    (hf : ∀ s a s', f s a = .ok s' → Within scope s s') (l : List α) {s s' : State}
    (h : l.foldlM f s = .ok s') : Within scope s s' :=
  foldlM_preserves (fun t => Within scope s t) (fun _ _ _ hstep ht => ht.trans (hf _ _ _ hstep)) l h
    (refl s)

end Within

/-! ### Members -/

section Members

variable {keys : Name → Prop} {m m' : Members}

theorem keysFrom_modifyMember (account : Name) {f : Member → Member}
    (hkey : ∀ row, (f row).encryptionKey = row.encryptionKey ∨ keys account) :
    KeysFrom keys m.table (modifyMember m account f).table :=
  keysFrom_modify (f := fun row => reindexed row { f row with account := row.account }) account
    (fun _ => rfl) hkey

theorem keysFrom_setRank {account representative : Name} {rank : Nat}
    (h : setRank m account rank representative = .ok m') : KeysFrom keys m.table m'.table := by
  obtain ⟨row, -, rfl⟩ := setRank_eq_ok h
  exact keysFrom_modify (f := ranked (rank % 2 ^ 8) representative) account (fun _ => rfl)
    fun _ => .inl rfl

theorem keysFrom_setRanksOf {voters : List Name} {rank : Nat} {representative : Name}
    (h : setRanksOf m voters rank representative = .ok m') : KeysFrom keys m.table m'.table :=
  foldlM_preserves (fun u : Members => KeysFrom keys m.table u.table)
    (fun _ _ _ hstep hu => hu.trans (keysFrom_setRank hstep)) _ h (.refl _)

theorem keysFrom_rankBoard {board : List Name} {winner : Name} {round : Nat}
    (h : rankBoard m board winner round = .ok m') : KeysFrom keys m.table m'.table := by
  simp only [rankBoard, bind_eq_ok] at h
  obtain ⟨u, hothers, hwinner⟩ := h
  exact (keysFrom_setRanksOf hothers).trans (keysFrom_setRank hwinner)

theorem keysFrom_electionOpt {now : Nat} {electionTime : Option Nat} {version : Nat}
    {account : Name} {participating : Bool}
    (h : electionOpt m now electionTime version account participating = .ok m') :
    KeysFrom keys m.table m'.table := by
  simp only [electionOpt, bind_eq_ok, pure_eq_ok] at h
  obtain ⟨member, -, -, -, -, -, -, -, -, -, rfl⟩ := h
  exact keysFrom_modifyMember account fun _ => .inl rfl

theorem keysFrom_setKey {account : Name} {key : PublicKey} (hkeys : keys account)
    (h : setKey m account key = .ok m') : KeysFrom keys m.table m'.table := by
  simp only [setKey, bind_eq_ok, pure_eq_ok] at h
  obtain ⟨member, -, rfl⟩ := h
  exact keysFrom_modifyMember account fun _ => .inr hkeys

theorem keysFrom_setNft {account : Name} {nftTemplateId : Int}
    (h : setNft m account nftTemplateId = .ok m') : KeysFrom keys m.table m'.table := by
  simp only [setNft, bind_eq_ok, pure_eq_ok] at h
  obtain ⟨-, -, rfl⟩ := h
  exact keysFrom_modifyMember account fun _ => .inl rfl

theorem keysFrom_setActive {account : Name} {name : Text} (hkeys : keys account)
    (h : setActive m account name = .ok m') : KeysFrom keys m.table m'.table := by
  simp only [setActive, bind_eq_ok, pure_eq_ok] at h
  obtain ⟨-, -, -, -, -, -, rfl⟩ := h
  exact keysFrom_modifyMember account fun _ => .inr hkeys

theorem keysFrom_create {account : Name} (hkeys : m.table.find? account = none → keys account)
    (h : create m account = .ok m') : KeysFrom keys m.table m'.table := by
  simp only [create, bind_eq_ok, expect_eq_ok, pure_eq_ok] at h
  obtain ⟨-, -, table, htable, rfl⟩ := h
  exact keysFrom_emplace (hkeys (Table.emplace?_new htable)) htable

theorem find?_create {account a : Name} (h : create m account = .ok m')
    (hnone : m'.table.find? a = none) : m.table.find? a = none := by
  simp only [create, bind_eq_ok, expect_eq_ok, pure_eq_ok] at h
  obtain ⟨-, -, table, htable, rfl⟩ := h
  rw [Table.find?_emplace? htable] at hnone
  split at hnone
  · cases hnone
  · exact hnone

end Members

variable {scope : Scope} {s s' : State}

theorem within_removeIfPending {account : Name} (hscope : scope.sessions = true)
    (h : removeIfPending p s account = .ok s') : Within scope s s' := by
  obtain ⟨member, -, ⟨-, rfl⟩ | ⟨-, -, o, t, -, rfl⟩⟩ := removeIfPending_eq_ok h
  · exact .refl s'
  · exact ⟨fun _ => rfl, fun hsame => absurd (hscope.symm.trans hsame) (by simp), keysFrom_erase account⟩

theorem within_remove {account : Name} (hscope : scope.sessions = true)
    (h : remove p s account = .ok s') : Within scope s s' := by
  obtain ⟨member, stats, o, t, -, -, -, rfl⟩ := remove_eq_ok h
  exact ⟨fun _ => rfl, fun hsame => absurd (hscope.symm.trans hsame) (by simp),
    keysFrom_erase member.account⟩

theorem within_rename {account newAccount : Name} (hscope : scope.sessions = true)
    (hkeys : scope.keys newAccount) (h : MemberTable.rename p s account newAccount = .ok s') :
    Within scope s s' := by
  obtain ⟨member, table, o, t, -, htable, -, rfl⟩ := rename_eq_ok h
  refine ⟨fun _ => rfl, fun hsame => absurd (hscope.symm.trans hsame) (by simp), ?_⟩
  have hrow : KeysFrom scope.keys s.members.table table :=
    keysFrom_emplace (m := { member with account := newAccount, inByRep := true }) hkeys htable
  refine (hrow.trans (keysFrom_erase account)).trans (keysFrom_update
    (renameRepresentative_account account newAccount member.electionRank) fun row => ?_)
  unfold renameRepresentative
  split
  · rfl
  · rfl

theorem within_gcSessions (hscope : scope.sessions = true) (n : Nat) (s : State) :
    Within scope s (gcSessions p n s).2 := by
  obtain ⟨r, o, t, -, heq⟩ := gcSessions_eq p n s
  rw [heq]
  exact ⟨fun _ => rfl, fun hsame => absurd (hscope.symm.trans hsame) (by simp), .refl _⟩

theorem within_maybeActivateContract (h : maybeActivateContract s = .ok s') :
    Within scope s s' := by
  obtain ⟨g, stage, o, hg, -, -, rfl⟩ := maybeActivateContract_eq_ok h
  refine ⟨fun _ => ?_, fun _ => rfl, .refl _⟩
  rw [hg]
  rfl

/-! ### Elections -/

/-- The state of the election and the output are outside of every scope. -/
theorem within_withCurrent (s : State) (o : Output) (current : ElectionState) :
    Within scope s (withCurrent s o current) := .of_eq rfl rfl rfl

theorem within_emit (s : State) (e : Event) : Within scope s (emit p s e) := .of_eq rfl rfl rfl

theorem within_setStateSing {newValue : ElectionState} (h : setStateSing p s newValue = .ok s') :
    Within scope s s' := by
  obtain ⟨o, -, rfl⟩ := setStateSing_eq_ok h
  exact within_withCurrent s o newValue

theorem within_setDefaultElection {originTime : Nat}
    (h : setDefaultElection p s originTime = .ok s') : Within scope s s' := by
  obtain ⟨g, threshold, o, -, -, rfl⟩ := setDefaultElection_eq_ok h
  exact within_withCurrent s o _

theorem within_triggerElection (h : triggerElection p s = .ok s') : Within scope s s' := by
  obtain ⟨g, -, hpending | hsame | hmoved⟩ := triggerElection_eq_ok h
  · obtain ⟨-, o, -, rfl⟩ := hpending
    exact within_withCurrent s o _
  · obtain ⟨-, rfl⟩ := hsame
    exact .refl s'
  · obtain ⟨-, startTime, threshold, version, o, -, -, -, -, rfl⟩ := hmoved
    exact within_withCurrent s o _

/-- Setting the date changes the date setting and the election. -/
theorem setTime_eq {day : Nat} {time : Text} (h : setTime p s day time = .ok s') :
    ∃ globals o current, s' = { s with
      globals := globals
      output := o
      elections := { s.elections with current := current } } := by
  obtain ⟨g, startTime, -, -, h⟩ := setTime_eq_ok h
  rcases h with ⟨-, h⟩ | ⟨-, h⟩ | ⟨-, -, rfl⟩
  · obtain ⟨-, threshold, o, -, -, rfl⟩ := setDefaultElection_eq_ok h
    exact ⟨_, o, _, rfl⟩
  · obtain ⟨-, -, ⟨-, o, -, rfl⟩ | ⟨-, rfl⟩ | ⟨-, -, -, -, o, -, -, -, -, rfl⟩⟩ :=
      triggerElection_eq_ok h
    · exact ⟨_, o, _, rfl⟩
    · exact ⟨_, s.output, s.elections.current, rfl⟩
    · exact ⟨_, o, _, rfl⟩
  · exact ⟨_, s.output, s.elections.current, rfl⟩

theorem within_setTime {day : Nat} {time : Text} (hscope : scope.start = true)
    (h : setTime p s day time = .ok s') : Within scope s s' := by
  obtain ⟨globals, o, current, rfl⟩ := setTime_eq h
  exact ⟨fun hsame => absurd (hscope.symm.trans hsame) (by simp), fun _ => rfl, .refl _⟩

theorem within_seed {btcHeader : Bytes} (h : seed p s btcHeader = .ok s') :
    Within scope s s' := by
  obtain ⟨-, -, -, seeder, o, -, -, -, -, rfl⟩ | ⟨-, -, -, o, -, -, -, rfl⟩ |
    ⟨-, -, o, -, -, -, rfl⟩ := seed_eq_ok h
  · exact within_withCurrent s o _
  · exact within_withCurrent s o _
  · exact within_withCurrent s o _

theorem within_startElection {seeder : ElectionSeeder} {version : Nat} {r : State × InitVoters}
    (h : startElection p s seeder version = .ok r) : Within scope s r.1 := by
  obtain ⟨t, data⟩ := r
  obtain ⟨-, -, o, f, started, -, -, rfl⟩ := startElection_eq_ok h
  exact .of_eq rfl rfl rfl

theorem keysFrom_visitMembers {keys : Name → Prop} {members : List Member} {maxSteps : Nat}
    {b : Ballot} {data : InitVoters} {r : Nat × Ballot × InitVoters}
    (h : visitMembers p members maxSteps b data = .ok r) :
    KeysFrom keys b.members.table r.2.1.members.table := by
  induction members generalizing maxSteps b data with
  | nil =>
      cases h
      exact .refl _
  | cons member rest ih =>
      cases maxSteps with
      | zero =>
          cases h
          exact .refl _
      | succ maxSteps =>
          simp only [visitMembers, bind_eq_ok] at h
          obtain ⟨⟨b₁, data₁⟩, hvisit, h⟩ := h
          refine KeysFrom.trans ?_ (ih h)
          unfold visitMember at hvisit
          split at hvisit
          · split at hvisit
            · simp only [bind_eq_ok, pure_eq_ok, Prod.mk.injEq] at hvisit
              obtain ⟨⟨votes, rng⟩, -, rfl, -⟩ := hvisit
              exact .refl _
            · simp only [bind_eq_ok, pure_eq_ok, Prod.mk.injEq] at hvisit
              obtain ⟨members, hrank, rfl, -⟩ := hvisit
              have hrows : KeysFrom keys _ members.table := keysFrom_setRank hrank
              exact hrows
          · cases hvisit
            exact .refl _

theorem keysFrom_finishGroups {keys : Name → Prop} {electionTime maxSteps : Nat}
    {votes : List Vote} {b : Ballot} {data : PostRound} {r : Nat × Ballot × PostRound}
    (h : finishGroups p electionTime maxSteps votes b data = .ok r) :
    KeysFrom keys b.members.table r.2.1.members.table := by
  induction maxSteps generalizing votes b data with
  | zero =>
      cases h
      exact .refl _
  | succ maxSteps ih =>
      cases votes with
      | nil =>
          cases h
          exact .refl _
      | cons v rest =>
          simp only [finishGroups, bind_eq_ok] at h
          obtain ⟨-, -, ⟨b', data'⟩, hgroup, h⟩ := h
          simp only [finishGroup, bind_eq_ok, pure_eq_ok, Prod.mk.injEq] at hgroup
          obtain ⟨⟨votes, rng⟩, -, members, hranks, rfl, -⟩ := hgroup
          exact (keysFrom_setRanksOf hranks).trans (ih h)

theorem within_withBallot {b : Ballot} (h : KeysFrom scope.keys s.members.table b.members.table) :
    Within scope s (withBallot s b) := ⟨fun _ => rfl, fun _ => rfl, h⟩

theorem within_finishElection {board : List Name} {winner : Name}
    (h : finishElection p s board winner = .ok s') : Within scope s s' := by
  obtain ⟨results, members, f, g, threshold, o, -, hranks, -, -, -, rfl⟩ := finishElection_eq_ok h
  exact ⟨fun _ => rfl, fun _ => rfl, keysFrom_rankBoard hranks⟩

theorem within_beginElection {data : InitVoters} {maxSteps : Nat} {r : State × Nat}
    (h : beginElection p s data maxSteps = .ok r) : Within scope s r.1 := by
  obtain ⟨t, remaining⟩ := r
  obtain ⟨-, configs, config, o, -, -, -, ⟨next, heq⟩ | ⟨-, roundEnd, heq⟩ |
    ⟨-, board, winner, -, -, -, hfinish⟩⟩ := beginElection_eq_ok h
  · rw [heq]
    exact within_withCurrent s o _
  · rw [heq]
    exact within_withCurrent s o _
  · exact (within_finishElection hfinish).after rfl rfl rfl

theorem within_initVoters {data : InitVoters} {maxSteps : Nat} {r : State × Nat}
    (h : initVoters p s data maxSteps = .ok r) : Within scope s r.1 := by
  simp only [initVoters, bind_eq_ok] at h
  obtain ⟨⟨remaining, f⟩, -, h⟩ := h
  split at h
  · cases h
    exact .of_eq rfl rfl rfl
  · simp only [bind_eq_ok] at h
    obtain ⟨⟨steps, b, data'⟩, hvisit, h⟩ := h
    have hvisited : Within scope s (withBallot (withTreasury s f) b) :=
      (within_withBallot (keysFrom_visitMembers hvisit)).after rfl rfl rfl
    split at h
    · simp only [bind_eq_ok, pure_eq_ok] at h
      obtain ⟨u, hu, rfl⟩ := h
      exact hvisited.trans (within_setStateSing hu)
    · exact hvisited.trans (within_beginElection h)

theorem within_prepareElection {maxSteps : Nat} {r : State × Nat}
    (h : prepareElection p s maxSteps = .ok r) : Within scope s r.1 := by
  simp only [prepareElection, bind_eq_ok] at h
  obtain ⟨state, -, h⟩ := h
  split at h
  · split at h
    · cases h
      exact .refl s
    · simp only [bind_eq_ok] at h
      obtain ⟨⟨t, data⟩, hstart, h⟩ := h
      exact (within_startElection hstart).trans (within_initVoters h)
  · exact within_initVoters h
  · cases h
    exact .refl s

theorem within_finishPostRound {electionTime : Nat} {data : PostRound} {maxSteps : Nat}
    {r : State × Nat} (h : finishPostRound p s electionTime data maxSteps = .ok r) :
    Within scope s r.1 := by
  simp only [finishPostRound, bind_eq_ok] at h
  obtain ⟨⟨remaining, b, data'⟩, hgroups, h⟩ := h
  have hfinished : Within scope s (withBallot s b) :=
    within_withBallot (keysFrom_finishGroups hgroups)
  split at h
  · simp only [bind_eq_ok, pure_eq_ok] at h
    obtain ⟨u, hu, rfl⟩ := h
    exact hfinished.trans (within_setStateSing hu)
  · obtain ⟨t, remaining⟩ := r
    obtain ⟨configs, config, o, -, -, -, ⟨next, heq⟩ | ⟨-, roundEnd, heq⟩ | ⟨-, endTime, heq⟩⟩ :=
      beginRound_eq_ok h
    all_goals
      rw [heq]
      exact hfinished.trans (within_withCurrent _ o _)

theorem within_finishFinal {seeder : ElectionSeeder} (h : finishFinal p s seeder = .ok s') :
    Within scope s s' := by
  simp only [finishFinal, bind_eq_ok] at h
  obtain ⟨⟨t, board⟩, hboard, winner, -, h⟩ := h
  obtain ⟨-, -, -, rfl⟩ := extractBoard_eq_ok hboard
  exact (within_finishElection h).after rfl rfl rfl

theorem within_finishRound {maxSteps : Nat} {r : State × Nat}
    (h : finishRound p s maxSteps = .ok r) : Within scope s r.1 := by
  unfold finishRound at h
  split at h
  · cases h
    exact .refl s
  · simp only [bind_eq_ok] at h
    obtain ⟨results, -, h⟩ := h
    split at h
    · split at h
      · cases h
        exact .refl s
      · exact (within_finishPostRound h).after rfl rfl rfl
    · split at h
      · simp only [bind_eq_ok, pure_eq_ok] at h
        obtain ⟨t, hfinish, rfl⟩ := h
        exact within_finishFinal hfinish
      · cases h
        exact .refl s
    · exact within_finishPostRound h
    · cases h
      exact .refl s

theorem within_electprocess {maxSteps : Nat} (h : electprocess p s maxSteps = .ok s') :
    Within scope s s' := by
  simp only [electprocess, bind_eq_ok, pure_eq_ok] at h
  obtain ⟨g, -, ⟨t, remaining⟩, hprepare, ⟨u, steps⟩, hfinish, -, -, rfl⟩ := h
  exact (within_prepareElection hprepare).trans (within_finishRound hfinish)

theorem within_electionsOnResign {member : Name}
    (h : electionsOnResign p s member = .ok s') : Within scope s s' := by
  obtain ⟨-, o, -, ⟨-, rfl⟩ | ⟨-, h⟩⟩ := electionsOnResign_eq_ok h
  · exact .of_eq rfl rfl rfl
  · exact (within_triggerElection h).after rfl rfl rfl

theorem within_electionsOnRename {oldAccount newAccount : Name}
    (h : electionsOnRename p s oldAccount newAccount = .ok s') : Within scope s s' := by
  obtain ⟨-, o, -, rfl⟩ := electionsOnRename_eq_ok h
  exact .of_eq rfl rfl rfl

/-! ### Tokens, inductions and maintenance -/

theorem within_notifyTransfer {sender receiver : Name} {quantity : Asset} {memo : Text}
    (h : notifyTransfer p s sender receiver quantity memo = .ok s') : Within scope s s' := by
  unfold notifyTransfer at h
  split at h
  · simp only [bind_eq_ok, pure_eq_ok] at h
    obtain ⟨g, -, owner, -, outgoing, -, rfl⟩ := h
    exact .of_eq rfl rfl rfl
  · split at h
    · cases h
      exact .refl s
    · simp only [bind_eq_ok] at h
      obtain ⟨g, -, -, -, h⟩ := h
      split at h
      · simp only [bind_eq_ok, pure_eq_ok] at h
        obtain ⟨user, -, migration, -, rfl⟩ := h
        exact .of_eq rfl rfl rfl
      · split at h
        · simp only [donateToMaster, bind_eq_ok, pure_eq_ok] at h
          obtain ⟨f, -, rfl⟩ := h
          exact .of_eq rfl rfl rfl
        · cases h
          exact .refl s

theorem within_tokenTransfer {env : Env} {sender receiver : Name} {quantity : Asset} {memo : Text}
    (h : tokenTransfer p env s sender receiver quantity memo = .ok s') : Within scope s s' := by
  simp only [tokenTransfer, bind_eq_ok, pure_eq_ok] at h
  obtain ⟨-, -, -, -, -, -, -, -, -, -, tokens, -, tokens', -, t, hnotify, rfl⟩ := h
  have hnotified : Within scope s t := (within_notifyTransfer hnotify).after rfl rfl rfl
  exact hnotified.trans (.of_eq rfl rfl rfl)

theorem within_withdraw {env : Env} {owner : Name} {quantity : Asset}
    (h : ContractActions.withdraw p env s owner quantity = .ok s') : Within scope s s' := by
  simp only [ContractActions.withdraw, bind_eq_ok] at h
  obtain ⟨-, -, g, -, -, -, user, -, migration, -, outgoing, -, h⟩ := h
  exact (within_tokenTransfer h).after rfl rfl rfl

theorem within_notifyLogmint {assetId : Nat} {minter collection schema owner : Name}
    {account : Option Text}
    (h : notifyLogmint p s assetId minter collection schema owner account = .ok s') :
    Within scope s s' := by
  obtain ⟨o, auctions, -, rfl⟩ := notifyLogmint_eq_ok h
  exact .of_eq rfl rfl rfl

theorem within_notifyLognewtempl {env : Env} {templateId : Int}
    {creator collection schema : Name} {account : Option Text}
    (h : notifyLognewtempl p env s templateId creator collection schema account = .ok s') :
    Within scope s s' := by
  obtain ⟨o, auctions, invitee, -, rfl⟩ := notifyLognewtempl_eq_ok h
  exact ⟨fun _ => rfl, fun _ => rfl, keysFrom_modifyMember invitee fun _ => .inl rfl⟩

theorem within_inducted {env : Env} {inductee : Name} (hkeys : scope.keys inductee)
    (h : inducted p env s inductee = .ok s') : Within scope s s' := by
  simp only [inducted, checkThreshold, bind_eq_ok] at h
  obtain ⟨-, -, g, -, induction, -, members, hactive, t, -, u, hestablished, h⟩ := h
  have hactivated : Within scope s { s with members := members, inductions := t } :=
    ⟨fun _ => rfl, fun _ => rfl, keysFrom_setActive hkeys hactive⟩
  have hinducted := hactivated.trans (within_maybeActivateContract hestablished)
  split at h
  · split at h
    · exact hinducted.trans (within_triggerElection h)
    · cases h
      exact hinducted
  · cases h
    exact hinducted

theorem within_createNft {env : Env} {g : Globals} {induction : Induction}
    (hkeys : scope.keys induction.invitee) (h : createNft p env g s induction = .ok s') :
    Within scope s s' := by
  simp only [createNft, bind_eq_ok, pure_eq_ok] at h
  obtain ⟨inductions, -, t, htemplate, u, hinducted, rfl⟩ := h
  obtain ⟨o, auctions, invitee, -, rfl⟩ := createTemplate_eq_ok htemplate
  refine Within.trans ?_ (((within_inducted hkeys hinducted).after rfl rfl rfl).trans
    (.of_eq rfl rfl rfl))
  exact ⟨fun _ => rfl, fun _ => rfl, keysFrom_modifyMember invitee fun _ => .inl rfl⟩

theorem within_inductdonate {env : Env} {payer : Name} {id : Nat} {quantity : Asset}
    (hkeys : scope.keys payer) (h : inductdonate p env s payer id quantity = .ok s') :
    Within scope s s' := by
  simp only [inductdonate, bind_eq_ok, check_eq_ok, exists_const, decide_eq_true_eq,
    Asset.eq_eq_ok] at h
  obtain ⟨-, -, g, -, induction, -, -, -, hinvitee, -, -, -, user, -, migration, -, t, hdonate,
    h⟩ := h
  have hdonated : Within scope s t := by
    split at hdonate
    · simp only [donateToMaster, bind_eq_ok, pure_eq_ok] at hdonate
      obtain ⟨f, -, rfl⟩ := hdonate
      exact .of_eq rfl rfl rfl
    · cases hdonate
      exact .of_eq rfl rfl rfl
  exact hdonated.trans (within_createNft (hinvitee ▸ hkeys) h)

theorem within_genesis {env : Env} {community : Text} {communitySymbol : Symbol}
    {minimumDonation : Asset} {initialMembers : List Name} {genesisVideo : Text}
    {auctionStartingBid : Asset} {auctionDuration electionDay : Nat} {electionTime : Text}
    (hstart : scope.start = true) (hkeys : ∀ a, s.members.table.find? a = none → scope.keys a)
    (h : genesis p env s community communitySymbol minimumDonation initialMembers genesisVideo
      auctionStartingBid auctionDuration electionDay electionTime = .ok s') :
    Within scope s s' := by
  simp only [genesis, bind_eq_ok, pure_eq_ok] at h
  obtain ⟨-, -, -, -, -, -, -, -, f, -, owned, -, t, htime, ⟨u, next⟩, hcreate, rfl⟩ := h
  obtain ⟨globals, o, current, rfl⟩ := setTime_eq htime
  have hcreated := foldlM_preserves (fun acc : State × Nat => Within scope s acc.1 ∧
      ∀ a, acc.1.members.table.find? a = none → s.members.table.find? a = none)
    (fun acc invitee acc' hstep hacc => by
      obtain ⟨hwithin, hrows⟩ := hacc
      simp only [createGenesisMember, bind_eq_ok, pure_eq_ok] at hstep
      obtain ⟨members, hmembers, inductions, -, inductions', -, rfl⟩ := hstep
      refine ⟨hwithin.trans ⟨fun _ => rfl, fun _ => rfl,
        keysFrom_create (fun hnew => hkeys _ (hrows _ hnew)) hmembers⟩, fun a hnone => ?_⟩
      exact hrows a (find?_create hmembers hnone)) _ hcreate
    ⟨⟨fun hsame => absurd (hstart.symm.trans hsame) (by simp), fun _ => rfl, .refl _⟩,
      fun _ hnone => hnone⟩
  exact hcreated.1.trans (.of_eq rfl rfl rfl)

theorem within_mintForMember {env : Env} {newmember : Name} {member : Member × Nat}
    (h : mintForMember p env newmember s member = .ok s') : Within scope s s' := by
  obtain ⟨o, auctions, -, rfl⟩ := mintForMember_eq_ok h
  exact .of_eq rfl rfl rfl

theorem within_addtogenesis {env : Env} {newmember : Name} {expiration : Int}
    (hkeys : s.members.table.find? newmember = none → scope.keys newmember)
    (h : addtogenesis p env s newmember expiration = .ok s') : Within scope s s' := by
  simp only [addtogenesis, bind_eq_ok] at h
  obtain ⟨-, -, g, -, -, -, members, hcreate, t, -, first, -, t₁, -, induction, -, t₂, -, t₃, -,
    h⟩ := h
  have hcreated : Within scope s { s with members := members, inductions := t₃ } :=
    ⟨fun _ => rfl, fun _ => rfl, keysFrom_create hkeys hcreate⟩
  exact hcreated.trans (Within.foldlM (fun _ _ _ hmint => within_mintForMember hmint) _ h)

theorem within_gc {env : Env} {limit : Nat} (hscope : scope.sessions = true)
    (h : gc p env s limit = .ok s') : Within scope s s' := by
  simp only [gc, bind_eq_ok] at h
  obtain ⟨g, -, ⟨remaining, t⟩, hauctions, -, -, h⟩ := h
  obtain ⟨o, auctions, -, rfl⟩ := finishAuctions_eq_ok hauctions
  have hfinished : Within scope s (gcSessions p remaining
      { s with inductions := (gcInductions s.inductions s.now limit).2.2, output := o,
               auctions := auctions }).2 :=
    (within_gcSessions hscope remaining _).after rfl rfl rfl
  split at h
  · cases h
    exact hfinished
  · simp only [bind_eq_ok] at h
    obtain ⟨u, hremoved, h⟩ := h
    exact (hfinished.trans (Within.foldlM (fun _ _ _ hstep => within_removeIfPending hscope hstep) _
      hremoved)).trans (within_maybeActivateContract h)

theorem within_inductcancel {env : Env} {account : Name} {id : Nat}
    (hscope : scope.sessions = true) (h : inductcancel p env s account id = .ok s') :
    Within scope s s' := by
  simp only [inductcancel, bind_eq_ok] at h
  obtain ⟨-, -, g, -, allowed, -, -, -, induction, -, h⟩ := h
  split at h
  · cases h
    exact .of_eq rfl rfl rfl
  · simp only [bind_eq_ok] at h
    obtain ⟨t, hremove, h⟩ := h
    have hremoved : Within scope s t := (within_removeIfPending hscope hremove).after rfl rfl rfl
    split at h
    · simp only [bind_eq_ok] at h
      obtain ⟨inductions, -, h⟩ := h
      exact hremoved.trans ((within_maybeActivateContract h).after rfl rfl rfl)
    · cases h
      exact hremoved

theorem within_resign {env : Env} {account : Name} (hscope : scope.sessions = true)
    (h : resign p env s account = .ok s') : Within scope s s' := by
  simp only [resign, bind_eq_ok, pure_eq_ok] at h
  obtain ⟨-, -, g, -, -, -, member, -, f, -, t, helections, u, hremove, rfl⟩ := h
  have hleft : Within scope s t := (within_electionsOnResign helections).after rfl rfl rfl
  exact (hleft.trans (within_remove hscope hremove)).trans (.of_eq rfl rfl rfl)

theorem within_renameAccount {env : Env} {account newAccount : Name}
    (hscope : scope.sessions = true) (hkeys : scope.keys newAccount)
    (h : renameAccount p env s account newAccount = .ok s') : Within scope s s' := by
  simp only [renameAccount, bind_eq_ok, pure_eq_ok] at h
  obtain ⟨-, -, -, -, g, -, user, -, -, -, f, -, t, helections, inductions, -, u, hrename, -, -,
    rfl⟩ := h
  have hboard : Within scope s t := (within_electionsOnRename helections).after rfl rfl rfl
  have hrenamed := (within_rename hscope hkeys hrename).after (s := t) rfl rfl rfl
  exact (hboard.trans hrenamed).trans (.of_eq rfl rfl rfl)

theorem within_migrateFrom {env : Env} {fuel maxSteps : Nat} {m : Migration} {r : Nat × State}
    (h : migrateFrom p env fuel s maxSteps m = .ok r) : Within scope s r.2 := by
  induction fuel generalizing s maxSteps m with
  | zero =>
      cases h
      exact .of_eq rfl rfl rfl
  | succ fuel ih =>
      unfold migrateFrom at h
      split at h
      · cases h
        exact .of_eq rfl rfl rfl
      · obtain ⟨⟨remaining, m', t⟩, hstage, h⟩ := bind_eq_ok.mp h
        have hmigrated : Within scope s t := by
          obtain ⟨owned, rows, auctions, o, -, -, -, hrows, rfl⟩ := (migrateStage_eq_ok hstage).state
          exact ⟨fun _ => rfl, fun _ => rfl, keysFrom_indexed hrows⟩
        dsimp only at h
        split at h
        · exact hmigrated.trans (ih h)
        · exact (hmigrated.trans (within_emit t _)).trans (ih h)

/-! ### Calls -/

/-- What a call may change, in a table of members. -/
def scopeOf (t : Table Member.account) : Call → Scope
  | .action (.genesis ..) => { start := true, keys := fun a => t.find? a = none }
  | .action (.addtogenesis ..) => { keys := fun a => t.find? a = none }
  | .action .clearall => { start := true, sessions := true }
  | .action (.inductinit ..) => { keys := fun a => t.find? a = none }
  | .action (.setencpubkey member _) => { keys := fun a => a = member }
  | .action (.electconfig ..) => { start := true }
  | .action (.inductdonate payer _ _) => { keys := fun a => a = payer }
  | .action (.inducted inductee) => { keys := fun a => a = inductee }
  | .action (.inductcancel ..) => { sessions := true }
  | .action (.resign _) => { sessions := true }
  | .action (.rename _ newAccount) => { sessions := true, keys := fun a => a = newAccount }
  | .action (.gc _) => { sessions := true }
  | _ => {}

theorem within_dispatch {env : Env} {a : Action} (h : dispatch p env s a = .ok s') :
    Within (scopeOf s.members.table (.action a)) s s' := by
  cases a with
  | withdraw => exact within_withdraw h
  | donate owner quantity =>
      simp only [dispatch, donate, donateToMaster, bind_eq_ok, pure_eq_ok] at h
      obtain ⟨-, -, g, -, -, -, -, -, -, -, user, -, f, -, rfl⟩ := h
      exact .of_eq rfl rfl rfl
  | fundtransfer sender distributionTime rank receiver amount memo =>
      simp only [dispatch, fundtransfer, bind_eq_ok, pure_eq_ok] at h
      obtain ⟨-, -, accounts, -, user, -, rfl⟩ := h
      exact .of_eq rfl rfl rfl
  | usertransfer sender receiver amount memo =>
      simp only [dispatch, usertransfer, bind_eq_ok, pure_eq_ok] at h
      obtain ⟨-, -, user, -, user', -, rfl⟩ := h
      exact .of_eq rfl rfl rfl
  | genesis => exact within_genesis rfl (fun _ hnone => hnone) h
  | addtogenesis => exact within_addtogenesis id h
  | gensetexpire inductionId newExpiration =>
      simp only [dispatch, gensetexpire, bind_eq_ok, pure_eq_ok] at h
      obtain ⟨-, -, g, -, induction, -, -, -, inductions, -, rfl⟩ := h
      exact .of_eq rfl rfl rfl
  | clearall =>
      simp only [dispatch, clearall, bind_eq_ok, pure_eq_ok] at h
      obtain ⟨-, -, g, -, rfl⟩ := h
      refine ⟨fun hsame => ?_, fun hsame => ?_, keysFrom_empty⟩
      · cases hsame
      · cases hsame
  | inductinit id inviter invitee witnesses =>
      simp only [dispatch, inductinit, bind_eq_ok, pure_eq_ok] at h
      obtain ⟨-, -, g, -, -, -, -, -, -, -, members, hmembers, inductions, -, rfl⟩ := h
      refine ⟨fun _ => rfl, fun _ => rfl, ?_⟩
      split at hmembers
      · exact keysFrom_create (fun hnone => hnone) hmembers
      · simp only [bind_eq_ok, pure_eq_ok] at hmembers
        obtain ⟨-, -, rfl⟩ := hmembers
        exact .refl _
  | inductmeetin account id keys data oldData =>
      simp only [dispatch, inductmeetin, bind_eq_ok, pure_eq_ok] at h
      obtain ⟨-, -, g, -, -, -, -, -, induction, -, -, -, encrypted, -, rfl⟩ := h
      exact .of_eq rfl rfl rfl
  | inductprofil id profile =>
      simp only [dispatch, inductprofil, bind_eq_ok, pure_eq_ok] at h
      obtain ⟨g, -, induction, -, -, -, -, -, t, -, rfl⟩ := h
      exact .of_eq rfl rfl rfl
  | inductvideo account id video =>
      simp only [dispatch, inductvideo, bind_eq_ok, pure_eq_ok] at h
      obtain ⟨-, -, g, -, induction, -, -, -, -, -, -, -, t, -, rfl⟩ := h
      exact .of_eq rfl rfl rfl
  | inductendors account id hash =>
      simp only [dispatch, inductendors, bind_eq_ok, pure_eq_ok] at h
      obtain ⟨-, -, g, -, induction, -, -, -, -, -, -, -, t, -, rfl⟩ := h
      exact .of_eq rfl rfl rfl
  | setencpubkey member key =>
      simp only [dispatch, bind_eq_ok, pure_eq_ok] at h
      obtain ⟨-, -, g, -, members, hmembers, rfl⟩ := h
      exact ⟨fun _ => rfl, fun _ => rfl, keysFrom_setKey rfl hmembers⟩
  | electsettime electionTime =>
      simp only [dispatch, electsettime, bind_eq_ok] at h
      obtain ⟨-, -, g, -, h⟩ := h
      obtain ⟨sequence, o, -, -, rfl, -⟩ := setNextElectionTime_eq_ok h
      exact within_withCurrent s o _
  | electconfig electionDay electionTime roundDuration =>
      simp only [dispatch, electconfig, bind_eq_ok, pure_eq_ok] at h
      obtain ⟨-, -, t, htime, g, -, rfl⟩ := h
      refine (within_setTime rfl htime).trans ⟨fun hsame => ?_, fun _ => rfl, .refl _⟩
      cases hsame
  | electopt voter participating =>
      simp only [dispatch, electopt, bind_eq_ok, pure_eq_ok] at h
      obtain ⟨-, -, g, -, members, hmembers, rfl⟩ := h
      exact ⟨fun _ => rfl, fun _ => rfl, keysFrom_electionOpt hmembers⟩
  | electseed btcHeader =>
      simp only [dispatch, bind_eq_ok] at h
      obtain ⟨g, -, h⟩ := h
      exact within_seed h
  | electmeeting account round keys data oldData =>
      simp only [dispatch, electmeeting, bind_eq_ok, pure_eq_ok] at h
      obtain ⟨-, -, g, -, groupId, -, group, -, -, -, encrypted, -, rfl⟩ := h
      exact .of_eq rfl rfl rfl
  | electvote round voter candidate =>
      simp only [dispatch, bind_eq_ok] at h
      obtain ⟨-, -, g, -, h⟩ := h
      obtain ⟨-, -, -, -, -, -, -, -, -, -, -, rfl⟩ := vote_eq_ok h
      exact .of_eq rfl rfl rfl
  | electvideo round voter video =>
      simp only [dispatch, electvideo, bind_eq_ok, pure_eq_ok] at h
      obtain ⟨-, -, g, -, decided, -, -, -, -, -, rfl⟩ := h
      exact .refl s
  | electprocess => exact within_electprocess h
  | finishelect electionTime =>
      simp only [dispatch, finishelect, bind_eq_ok] at h
      obtain ⟨-, -, g, -, h⟩ := h
      obtain ⟨o, -, rfl⟩ := finishCurrElection_eq_ok h
      exact within_withCurrent s o _
  | changerank contract ranks =>
      simp only [dispatch, changerank, bind_eq_ok, pure_eq_ok] at h
      obtain ⟨-, -, g, -, -, -, rfl⟩ := h
      exact .of_eq rfl rfl rfl
  | clearrank contract ranks =>
      simp only [dispatch, clearrank, bind_eq_ok, pure_eq_ok] at h
      obtain ⟨-, -, g, -, -, -, rfl⟩ := h
      exact .of_eq rfl rfl rfl
  | bylawspropose proposer text =>
      simp only [dispatch, bylawspropose, bind_eq_ok, pure_eq_ok] at h
      obtain ⟨-, -, t, -, rfl⟩ := h
      exact .of_eq rfl rfl rfl
  | bylawsapprove approver hash | bylawsratify approver hash =>
      simp only [dispatch, approveBylaws, bind_eq_ok, pure_eq_ok] at h
      obtain ⟨-, -, t, -, rfl⟩ := h
      exact .of_eq rfl rfl rfl
  | distribute maxSteps =>
      simp only [dispatch, distribute, bind_eq_ok, pure_eq_ok] at h
      obtain ⟨g, -, ⟨remaining, f⟩, -, -, -, rfl⟩ := h
      exact .of_eq rfl rfl rfl
  | inductdonate => exact within_inductdonate rfl h
  | inductcancel => exact within_inductcancel rfl h
  | inducted => exact within_inducted rfl h
  | resign => exact within_resign rfl h
  | rename => exact within_renameAccount rfl rfl h
  | gc => exact within_gc rfl h
  | migrate maxSteps =>
      simp only [dispatch, migrate, migrateSome, bind_eq_ok, pure_eq_ok] at h
      obtain ⟨⟨remaining, t⟩, hmigrate, -, -, rfl⟩ := h
      exact within_migrateFrom hmigrate
  | unmigrate =>
      simp only [dispatch, unmigrate, bind_eq_ok, pure_eq_ok] at h
      obtain ⟨-, -, g, -, rfl⟩ := h
      exact ⟨fun _ => rfl, fun _ => rfl,
        keysFrom_update (f := fun m => { m with inByRep := false }) (fun _ => rfl) fun _ => rfl⟩

/-- A call changes what is in its scope. -/
theorem exec_within {env : Env} {call : Call} (h : exec p env s call = .ok s') :
    Within (scopeOf s.members.table call) s s' := by
  cases call with
  | action a =>
      simp only [exec, applyAction, bind_eq_ok, pure_eq_ok] at h
      obtain ⟨t, hdispatch, rfl⟩ := h
      have hwithin := within_dispatch hdispatch
      exact (hwithin.after (s := s) rfl rfl rfl).trans (.of_eq rfl rfl rfl)
  | transfer sender receiver quantity memo =>
      simp only [exec] at h
      split at h
      · simp only [bind_eq_ok] at h
        obtain ⟨-, -, h⟩ := h
        exact within_tokenTransfer h
      · cases h
        exact .refl s
  | lognewtempl templateId creator collection schema account =>
      exact within_notifyLognewtempl h
  | logmint assetId minter collection schema owner account => exact within_notifyLogmint h

end Eden.CallScopes
