import Eden.ActionSteps
import Eden.HostFunctions
import Eden.TreasuryFunds

/-!
The accounts of users, pools and distributions add up to the tokens of the contract.
-/

namespace Eden.LedgerConservation

open Eden.ExceptReasoning
open Eden.SortedTable
open Eden.ChainPrimitives
open Eden.ContractState
open Eden.Runtime
open Eden.AccountTables
open Eden.MemberTable
open Eden.DistributionTables
open Eden.ElectionPhases
open Eden.Maintenance
open Eden.ContractActions
open Eden.Transactions
open Eden.HostFunctions
open Eden.ContractSteps
open Eden.ActionSteps
open Eden.TreasuryFunds

variable {p : Platform} {call : Call}

/-- Calls that do not take the tables apart. -/
def keepsTables (call : Call) : Prop := call ≠ .action .clearall ∧ call ≠ .action .unmigrate

instance (call : Call) : Decidable (keepsTables call) :=
  inferInstanceAs (Decidable (call ≠ .action .clearall ∧ call ≠ .action .unmigrate))

/-- What the pools and the distributions hold. -/
def pooled (f : Treasury) : Int := sumBalances f.owned + sumFunds f.distributions.accounts

/-- All that the tables of the contract hold. -/
def holdings (s : State) : Int := sumBalances s.accounts.user + pooled (treasury s)

/-- The ledger before and after genesis. -/
structure Balanced (s : State) : Prop where
  empty : s.globals = none → holdings s = 0
  migration : s.globals ≠ none → s.migration = some .fixInductdonateExpirationCheck
  outgoing : s.accounts.outgoing = .empty
  pools : MasterOnly (treasury s)
  balance : ∀ g, s.globals = some g → holdings s = tokenBalance s.tokens g.defaultToken.code

theorem pooled_shift {inflow : Int} {f f' : Treasury} (h : Shift inflow f f') :
    pooled f' = pooled f + inflow := by
  obtain ⟨⟨es, _, _, hfunds, _, hsum⟩, _⟩ := h
  rw [pooled, pooled, hfunds, hsum]
  ring

theorem masterOnly_record {s : State} (h : MasterOnly (treasury s)) (e : Executed) :
    MasterOnly (treasury (record s e)) := by
  intro pool hpool
  exact h pool hpool

/-- A change that keeps the tokens and what the tables hold. -/
theorem Balanced.of_same {s s' : State} (h : Balanced s) (hglobals : s'.globals = s.globals)
    (hmigration : s'.migration = s.migration) (houtgoing : s'.accounts.outgoing = .empty)
    (hpools : MasterOnly (treasury s')) (htokens : s'.tokens = s.tokens)
    (hholdings : holdings s' = holdings s) : Balanced s' where
  empty := by
    rw [hglobals, hholdings]
    exact h.empty
  migration := by
    rw [hglobals, hmigration]
    exact h.migration
  outgoing := houtgoing
  pools := hpools
  balance := by
    rw [hglobals, hholdings, htokens]
    exact h.balance

/-- A change of the treasury that funds move in, from a state with these accounts of users. -/
theorem Balanced.of_shift {s s' : State} {f : Treasury} {inflow : Int} (h : Balanced s)
    (hshift : Shift inflow f (treasury s')) (howned : f.owned = s.accounts.owned)
    (hdistributions : f.distributions = s.distributions) (hglobals : s'.globals = s.globals)
    (hmigration : s'.migration = s.migration)
    (houtgoing : s'.accounts.outgoing = s.accounts.outgoing) (htokens : s'.tokens = s.tokens)
    (huser : sumBalances s'.accounts.user = sumBalances s.accounts.user - inflow) :
    Balanced s' := by
  have hpools : MasterOnly f := by
    rw [MasterOnly, hdistributions]
    exact h.pools
  refine h.of_same hglobals hmigration (houtgoing.trans h.outgoing) (hshift.pools hpools)
    htokens ?_
  have hbefore : pooled f = pooled (treasury s) := by
    simp only [pooled, treasury, howned, hdistributions]
  rw [holdings, holdings, pooled_shift hshift, huser, hbefore]
  ring

/-- A change of the treasury that has no inflow. -/
theorem Balanced.of_shift_zero {s s' : State} {f : Treasury} (h : Balanced s)
    (hshift : Shift 0 f (treasury s')) (howned : f.owned = s.accounts.owned)
    (hdistributions : f.distributions = s.distributions) (hglobals : s'.globals = s.globals)
    (hmigration : s'.migration = s.migration)
    (houtgoing : s'.accounts.outgoing = s.accounts.outgoing) (htokens : s'.tokens = s.tokens)
    (huser : sumBalances s'.accounts.user = sumBalances s.accounts.user) : Balanced s' :=
  h.of_shift hshift howned hdistributions hglobals hmigration houtgoing htokens (by omega)

/-- A transfer to the contract. -/
theorem Balanced.of_received {s s' : State} {g : Globals} {quantity : Asset} (h : Balanced s)
    (hg : s.globals = some g) (hsymbol : quantity.symbol = g.defaultToken)
    (hglobals : s'.globals = s.globals) (hmigration : s'.migration = s.migration)
    (houtgoing : s'.accounts.outgoing = s.accounts.outgoing)
    (hpools : MasterOnly (treasury s')) (htokens : tokenAdd s.tokens quantity = .ok s'.tokens)
    (hholdings : holdings s' = holdings s + quantity.amount) : Balanced s' where
  empty := by
    intro hnone
    rw [hglobals, hg] at hnone
    exact absurd hnone (by simp)
  migration := by
    rw [hglobals, hmigration]
    exact h.migration
  outgoing := houtgoing.trans h.outgoing
  pools := hpools
  balance := by
    intro g' hg'
    rw [hglobals, hg, Option.some.injEq] at hg'
    subst hg'
    rw [hholdings, h.balance g hg, tokenBalance_tokenAdd htokens, hsymbol, if_pos rfl]

theorem step_balanced {s s' : State} (hcall : keepsTables call) (h : Step p call s s')
    (hs : Balanced s) : Balanced s' := by
  cases h with
  | aside haside =>
      have hglobals : s'.globals = none ↔ s.globals = none := by
        rw [← Option.map_eq_none_iff (f := Globals.minimumDonation), haside.donation,
          Option.map_eq_none_iff]
      have hholdings : holdings s' = holdings s := by
        simp only [holdings, treasury, haside.accounts, haside.distributions, pooled]
      refine ⟨?_, ?_, ?_, ?_, ?_⟩
      · rw [hglobals, hholdings]
        exact hs.empty
      · rw [haside.migration, ne_eq, hglobals]
        exact hs.migration
      · rw [haside.accounts]
        exact hs.outgoing
      · rw [MasterOnly, treasury, haside.distributions]
        exact hs.pools
      · intro g' hg'
        have hdonation := haside.donation
        rw [hg', Option.map_some, eq_comm, Option.map_eq_some_iff] at hdonation
        obtain ⟨g, hg, hsame⟩ := hdonation
        rw [hholdings, haside.tokens, Globals.defaultToken, ← hsame]
        exact hs.balance g hg
  | establishes _ hg =>
      have hbalance := hs.balance _ hg
      refine ⟨by simp, ?_, hs.outgoing, hs.pools, ?_⟩
      · intro _
        exact hs.migration (by simp [hg])
      · intro g' hg'
        rw [Option.some.injEq] at hg'
        subst hg'
        exact hbalance
  | seeds hseed =>
      rcases seed_eq_ok hseed with ⟨_, _, _, _, _, _, _, _, _, rfl⟩ | ⟨_, _, _, _, _, _, _, rfl⟩ |
        ⟨_, _, _, _, _, _, rfl⟩
      · exact hs.of_same rfl rfl hs.outgoing hs.pools rfl rfl
      · exact hs.of_same rfl rfl hs.outgoing hs.pools rfl rfl
      · exact hs.of_same rfl rfl hs.outgoing hs.pools rfl rfl
  | votes hvote =>
      obtain ⟨_, _, _, _, _, _, _, _, _, _, _, rfl⟩ := vote_eq_ok hvote
      exact hs.of_same rfl rfl hs.outgoing hs.pools rfl rfl
  | starts _ hstart _ =>
      obtain ⟨_, _, o, f, _, _, hsetup, rfl⟩ := startElection_eq_ok hstart
      have hshift := setupDistribution_shift (f := { treasury s with output := o }) hs.pools hsetup
      exact hs.of_shift_zero hshift rfl rfl rfl rfl rfl rfl rfl
  | resigns _ _ _ hf _ =>
      exact hs.of_shift_zero (onResign_shift hs.pools hf) rfl rfl rfl rfl rfl rfl rfl
  | renames _ _ _ _ huser hf _ _ =>
      have hshift := onRename_shift (masterOnly_record hs.pools _) hf
      refine hs.of_shift_zero hshift rfl rfl rfl rfl rfl rfl ?_
      exact sumBalances_onRename huser
  | concludes _ _ _ _ _ _ _ hf hquiet =>
      have hshift := processElectionDistribution_shift hf
      refine hs.of_shift_zero (hshift.comp (Shift.of_quiet rfl rfl rfl hquiet)) rfl rfl rfl rfl rfl
        rfl rfl
  | distributes hf =>
      exact hs.of_shift_zero (distributeMonthly_shift hs.pools hf) rfl rfl rfl rfl rfl rfl rfl
  | withdraws hg hsymbol _ huser htokens hempty _ =>
      have hsum := sumBalances_subBalance huser
      refine ⟨?_, hs.migration, hempty hs.outgoing, hs.pools, ?_⟩
      · intro hnone
        rw [hg] at hnone
        exact absurd hnone (by simp)
      · intro g' hg'
        have hbalance := hs.balance g' hg'
        rw [hg, Option.some.injEq] at hg'
        subst hg'
        rw [tokenBalance_tokenSub htokens, hsymbol, if_pos rfl]
        simp only [holdings, treasury, pooled] at hbalance ⊢
        omega
  | sends houtgoing =>
      obtain ⟨record, hrecord, _⟩ := subBalance_eq_ok houtgoing
      rw [hs.outgoing] at hrecord
      exact absurd (Table.mem_of_find? hrecord) (by simp)
  | deposits _ hg hsymbol _ _ _ huser htokens _ =>
      refine hs.of_received hg hsymbol rfl rfl rfl hs.pools htokens ?_
      have hsum := sumBalances_addBalance huser
      simp only [holdings, withUser, treasury, pooled]
      omega
  | receives _ hg hsymbol _ _ htokens hf hquiet =>
      have hshift := addToPool_shift (masterOnly_record hs.pools _) hf
      refine hs.of_received hg hsymbol rfl rfl rfl
        (hshift.pools (masterOnly_record hs.pools _)) htokens ?_
      have hsum := pooled_shift hshift
      simp only [holdings, withTreasury, treasury, record, pooled] at hsum ⊢
      omega
  | donates _ huser hf =>
      have hshift := addToPool_shift (masterOnly_record hs.pools _) hf
      refine hs.of_shift hshift rfl rfl rfl rfl rfl rfl ?_
      exact sumBalances_subBalance huser
  | fundtransfers _ _ haccounts huser _ =>
      refine hs.of_same rfl rfl hs.outgoing hs.pools rfl ?_
      have hfunds := sumFunds_subAccount haccounts
      have hsum := sumBalances_addBalance huser
      simp only [holdings, withUser, treasury, pooled]
      omega
  | usertransfers _ huser huser' _ =>
      refine hs.of_same rfl rfl hs.outgoing hs.pools rfl ?_
      have htaken := sumBalances_subBalance huser
      have hgiven := sumBalances_addBalance huser'
      simp only [holdings, withUser, treasury, pooled]
      omega
  | unsettled hglobals hmigrated =>
      rw [hs.migration hglobals] at hmigrated
      simp [isAccountMigrated, migrationIndex] at hmigrated
  | migrates hleft hnone _ _ _ =>
      rcases hleft with rfl | hleft
      · exact absurd rfl hcall.2
      · by_cases hglobals : s.globals = none
        · have howned := hnone hglobals
          subst howned
          exact ⟨hs.empty, fun hne => absurd hglobals hne, hs.outgoing, hs.pools, hs.balance⟩
        · exact absurd (hs.migration hglobals) hleft.2
  | founds hnone hdonation _ _ hpools howned _ =>
      refine ⟨by simp, fun _ => rfl, hs.outgoing, ?_, ?_⟩
      · intro pool hpool
        rcases (Table.mem_emplace? hpools).mp hpool with rfl | hpool
        · rfl
        · exact hs.pools pool hpool
      · intro g' hg'
        rw [Option.some.injEq] at hg'
        subst hg'
        have hempty := hs.empty hnone
        simp only [holdings, treasury, pooled] at hempty ⊢
        rw [Globals.defaultToken, hdonation, tokenBalance]
        rcases howned with ⟨balance, hbalance, howned⟩ | ⟨hbalance, rfl⟩
        · have hsum := sumBalances_addBalance howned
          simp only [hbalance, Option.map_some, Option.getD_some]
          omega
        · simp only [hbalance, Option.map_none, Option.getD_none]
          omega
  | clears => exact absurd rfl hcall.1
  | _ => exact hs.of_same rfl rfl hs.outgoing hs.pools rfl rfl

theorem untouched_balanced {s : State} (h : Untouched s) : Balanced s := by
  have hglobals : s.globals = none := by rw [h.1]
  have haccounts : s.accounts = {} := by rw [h.1]
  have hdistributions : s.distributions = {} := by rw [h.1]
  refine ⟨fun _ => ?_, fun hne => absurd hglobals hne, ?_, ?_, ?_⟩
  · simp [holdings, pooled, treasury, haccounts, hdistributions, sumBalances, sumFunds]
  · rw [haccounts]
  · simp [MasterOnly, treasury, hdistributions]
  · simp [hglobals]

theorem reachable_balanced {s : State} (h : Reachable p (fun _ call => keepsTables call) s) :
    Balanced s := by
  refine reachable_of_steps Balanced h (fun _ => untouched_balanced) ?_ ?_
  · intro s now _ _ hs
    exact hs.of_same rfl rfl hs.outgoing hs.pools rfl rfl
  · intro call s s' hcall hstep hs
    exact step_balanced hcall hstep hs

/-- The rows of users, pools and distributions add up to the tokens of the contract, and nothing
is left in between, after any complete transactions. -/
theorem ledger_conserved {s : State} (h : Reachable p (fun _ call => keepsTables call) s) :
    ∃ g, s.globals = some g ∧
      sumBalances s.accounts.user + sumBalances s.accounts.owned +
        sumFunds s.distributions.accounts = tokenBalance s.tokens g.defaultToken.code ∧
      s.accounts.outgoing = .empty := by
  have hbalanced := reachable_balanced h
  obtain ⟨g, hg⟩ := Option.ne_none_iff_exists'.mp
    (reachable_globals h fun _ hclear => hclear.1 rfl)
  refine ⟨g, hg, ?_, hbalanced.outgoing⟩
  rw [← hbalanced.balance g hg, holdings, pooled]
  exact Int.add_assoc _ _ _

/-- Alice and bob join, pay, and alice takes some of her tokens back. -/
def depositsAndWithdrawal : List Transaction :=
  foundation ++ [(1000050, [(signedBy alice, .action (.withdraw alice.name (eos 300)))])]

theorem ledger_conserved_after_withdrawal :
    ∃ s, runFromGenesis host (fun _ call => keepsTables call) depositsAndWithdrawal = some s ∧
      ∃ g, s.globals = some g ∧
        sumBalances s.accounts.user + sumBalances s.accounts.owned +
          sumFunds s.distributions.accounts = tokenBalance s.tokens g.defaultToken.code ∧
        s.accounts.outgoing = .empty := by
  have hrun : (runFromGenesis host (fun _ call => keepsTables call)
      depositsAndWithdrawal).isSome = true := by decide +kernel
  obtain ⟨s, hs⟩ := Option.isSome_iff_exists.mp hrun
  exact ⟨s, hs, ledger_conserved (reachable_of_run hs)⟩

end Eden.LedgerConservation
