import Eden.LedgerConservation

/-!
Clearing the tables of a community and founding another one on the same account.
-/

namespace Eden.Regenesis

open Eden.ExceptReasoning
open Eden.SortedTable
open Eden.ChainPrimitives
open Eden.ContractState
open Eden.Runtime
open Eden.AccountTables
open Eden.DistributionTables
open Eden.ElectionPhases
open Eden.ContractActions
open Eden.Transactions
open Eden.HostFunctions
open Eden.ContractSteps
open Eden.ActionSteps
open Eden.TreasuryFunds
open Eden.LedgerConservation

variable {p : Platform} {env env' : Env} {s s' s'' : State}

/-- No table that the contract reads has a row. -/
structure Bare (s : State) : Prop where
  globals : s.globals = none
  accounts : s.accounts = {}
  distributions : s.distributions = {}
  members : s.members.table = .empty
  stats : s.members.stats = {}
  elections : s.elections = {}
  inductions : s.inductions = {}
  bylaws : s.bylaws = {}
  auctions : s.auctions = .empty
  sessions : s.sessions = .empty
  migration : s.migration = none

/-- The rows of users, pools and distributions add up to the tokens of the contract. -/
def Solvent (s : State) : Prop :=
  ∃ g, s.globals = some g ∧
    sumBalances s.accounts.user + sumBalances s.accounts.owned +
      sumFunds s.distributions.accounts = tokenBalance s.tokens g.defaultToken.code

/-- The tables that `clearall` passes over have no rows. -/
structure Emptied (s : State) : Prop where
  owned : s.accounts.owned = .empty
  outgoing : s.accounts.outgoing = .empty
  endorsed : s.inductions.endorsed = .empty
  gc : s.inductions.gc = .empty

/-! ### Clearing -/

/-- What is left after `clearall`. -/
def cleared (s : State) (o : Output) : State where
  now := s.now
  accounts := { s.accounts with user := .empty }
  members := { rankHistory := s.members.rankHistory }
  inductions := { endorsed := s.inductions.endorsed, gc := s.inductions.gc }
  tokens := s.tokens
  output := o

theorem clearall_eq_ok (h : exec p env s (.action .clearall) = .ok s') :
    s' = cleared s s'.output := by
  simp only [exec, applyAction, dispatch, clearall, bind_eq_ok, pure_eq_ok] at h
  obtain ⟨_, ⟨_, _, _, _, rfl⟩, rfl⟩ := h
  rfl

theorem bare_cleared_iff {o : Output} : Bare (cleared s o) ↔ Emptied s := by
  constructor
  · intro h
    have haccounts := h.accounts
    have hinductions := h.inductions
    simp only [cleared, Accounts.mk.injEq] at haccounts
    simp only [cleared, Inductions.mk.injEq] at hinductions
    exact ⟨haccounts.2.1, haccounts.2.2, hinductions.2.2.1, hinductions.2.2.2.1⟩
  · intro h
    refine ⟨rfl, ?_, rfl, rfl, rfl, rfl, ?_, rfl, rfl, rfl, rfl⟩
    · simp only [cleared, h.owned, h.outgoing]
    · simp only [cleared, h.endorsed, h.gc]

/-! ### Founding -/

theorem Bare.balanced (h : Bare s) : Balanced s := by
  refine ⟨fun _ => ?_, fun hne => absurd h.globals hne, ?_, ?_, ?_⟩
  · simp [holdings, pooled, treasury, h.accounts, h.distributions, sumBalances, sumFunds]
  · rw [h.accounts]
  · simp [MasterOnly, treasury, h.distributions]
  · simp [h.globals]

/-- On bare tables genesis leaves a ledger that adds up. -/
theorem genesis_solvent {a : Action} (hs : Bare s) (hclean : s.output.serializedEvents = [])
    (ha : Action.isGenesis a = true) (h : exec p env s (.action a) = .ok s') : Solvent s' := by
  have hkeeps : keepsTables (.action a) := by
    constructor
    · rintro heq
      rw [(Call.action.injEq _ _).mp heq] at ha
      exact absurd ha (by decide)
    · rintro heq
      rw [(Call.action.injEq _ _).mp heq] at ha
      exact absurd ha (by decide)
  have hbalanced : Balanced s' :=
    steps_preserve Balanced (fun _ _ hstep => step_balanced hkeeps hstep)
      (exec_steps hclean h).1 hs.balanced
  have hglobals : s'.globals ≠ none := genesis_globals ha h
  obtain ⟨g, hg⟩ := Option.ne_none_iff_exists'.mp hglobals
  refine ⟨g, hg, ?_⟩
  rw [← hbalanced.balance g hg, holdings, pooled]
  exact Int.add_assoc _ _ _

/-- A community founded after `clearall` has a ledger that adds up and no rows of the community
before, exactly when that had no rows in the tables that `clearall` passes over. -/
theorem regenesis {a : Action} {now now' : Nat} (h : Reachable p (fun _ _ => True) s)
    (hclear : exec p env { s with now := now } (.action .clearall) = .ok s')
    (ha : Action.isGenesis a = true)
    (hgenesis : exec p env' { s' with now := now' } (.action a) = .ok s'') :
    (Bare s' ∧ Solvent s'') ↔ Emptied s := by
  have hclean : s.output.serializedEvents = [] := reachable_clean h
  have hs' := clearall_eq_ok hclear
  have hbare : Bare s' ↔ Emptied s := by
    rw [hs', bare_cleared_iff]
    constructor
    · exact fun h => ⟨h.owned, h.outgoing, h.endorsed, h.gc⟩
    · exact fun h => ⟨h.owned, h.outgoing, h.endorsed, h.gc⟩
  rw [← hbare]
  refine ⟨fun hboth => hboth.1, fun hs => ⟨hs, ?_⟩⟩
  have hclean' : s'.output.serializedEvents = [] :=
    (exec_steps (s := { s with now := now }) hclean hclear).2
  refine genesis_solvent (s := { s' with now := now' }) ?_ hclean' ha hgenesis
  exact ⟨hs.globals, hs.accounts, hs.distributions, hs.members, hs.stats, hs.elections,
    hs.inductions, hs.bylaws, hs.auctions, hs.sessions, hs.migration⟩

/-- Alice and bob found a community on the account. -/
def refounds : Action :=
  .genesis ['E', 'd', 'e', 'n'] eosSymbol (eos 100) [alice.name, bob.name] ['Q', 'm'] (eos 1) 3600 3
    ['1', '2', ':', '0', '0']

/-- `clearall` and another genesis. -/
def refounded (s : State) : Option (State × State) :=
  (exec host (signedBy contractSigner) { s with now := 2000000 } (.action .clearall)).toOption.bind
    fun s' => (exec host (signedBy contractSigner) { s' with now := 2000010 }
      (.action refounds)).toOption.map fun s'' => (s', s'')

theorem refounded_eq_some (h : refounded s = some (s', s'')) :
    exec host (signedBy contractSigner) { s with now := 2000000 } (.action .clearall) = .ok s' ∧
      exec host (signedBy contractSigner) { s' with now := 2000010 } (.action refounds) =
        .ok s'' := by
  obtain ⟨t, ht, h⟩ := Option.bind_eq_some_iff.mp h
  obtain ⟨u, hu, heq⟩ := Option.map_eq_some_iff.mp h
  rw [Prod.mk.injEq] at heq
  obtain ⟨rfl, rfl⟩ := heq
  exact ⟨step_of_toOption ht, step_of_toOption hu⟩

theorem refounded_before_deposits :
    ∃ s s' s'', runFromGenesis host (fun _ _ => True) (foundation.take 1) = some s ∧
      refounded s = some (s', s'') ∧ Bare s' ∧ Solvent s'' := by
  have hrun : (runFromGenesis host (fun _ _ => True) (foundation.take 1)).any (fun s =>
      (refounded s).isSome && s.accounts.owned = .empty && s.accounts.outgoing = .empty &&
        s.inductions.endorsed = .empty && s.inductions.gc = .empty) = true := by
    decide +kernel
  obtain ⟨s, hs, hstate⟩ := (Option.any_eq_true _ _).mp hrun
  simp only [Bool.and_eq_true, decide_eq_true_eq] at hstate
  obtain ⟨⟨⟨⟨hrefounded, howned⟩, houtgoing⟩, hendorsed⟩, hgc⟩ := hstate
  obtain ⟨⟨s', s''⟩, hpair⟩ := Option.isSome_iff_exists.mp hrefounded
  obtain ⟨hclear, hgenesis⟩ := refounded_eq_some hpair
  exact ⟨s, s', s'', hs, hpair, (regenesis (reachable_of_run hs) hclear rfl hgenesis).mpr
    ⟨howned, houtgoing, hendorsed, hgc⟩⟩

/-- The master pool of the first community counts twice in the second one. -/
theorem refounded_after_election :
    ∃ s s' s'', Reachable host (fun _ _ => True) s ∧
      exec host (signedBy contractSigner) { s with now := 2000000 } (.action .clearall) = .ok s' ∧
      exec host (signedBy contractSigner) { s' with now := 2000010 } (.action refounds) = .ok s'' ∧
      balanceOf s''.accounts.owned masterName =
        balanceOf s'.accounts.owned masterName + tokenBalance s''.tokens eosSymbol.code ∧
      ¬ Bare s' ∧ ¬ Solvent s'' := by
  have hrun : (runFromGenesis host (fun _ _ => True) firstElection).any (fun s =>
      (refounded s).any fun result =>
        balanceOf result.2.accounts.owned masterName =
            balanceOf result.1.accounts.owned masterName +
              tokenBalance result.2.tokens eosSymbol.code &&
          !decide (result.1.accounts.owned = .empty) &&
          result.2.globals.any fun g => !decide (sumBalances result.2.accounts.user +
            sumBalances result.2.accounts.owned + sumFunds result.2.distributions.accounts =
              tokenBalance result.2.tokens g.defaultToken.code)) = true := by
    decide +kernel
  obtain ⟨s, hs, hrefounded⟩ := (Option.any_eq_true _ _).mp hrun
  obtain ⟨⟨s', s''⟩, hpair, hstate⟩ := (Option.any_eq_true _ _).mp hrefounded
  obtain ⟨hclear, hgenesis⟩ := refounded_eq_some hpair
  simp only [Bool.and_eq_true, decide_eq_true_eq, Bool.not_eq_true', decide_eq_false_iff_not,
    Option.any_eq_true] at hstate
  obtain ⟨⟨hmaster, howned⟩, g, hg, hledger⟩ := hstate
  refine ⟨s, s', s'', reachable_of_run hs, hclear, hgenesis, hmaster, ?_, ?_⟩
  · intro hbare
    exact howned (by rw [hbare.accounts])
  · rintro ⟨g', hg', hsolvent⟩
    rw [hg, Option.some.injEq] at hg'
    subst hg'
    exact hledger hsolvent

end Eden.Regenesis
