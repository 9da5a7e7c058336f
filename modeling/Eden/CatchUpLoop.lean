import Eden.ElectionSchedule
import Eden.HostFunctions
import Eden.SoundTreasury

/-!
The loop of `setup_distribution`, which makes up for the distributions that have been missed: from
any state that the contract reaches it ends behind the present, and no turn of it takes more out of
a pool than the pool may give.
-/

namespace Eden.CatchUpLoop

open Eden.ExceptReasoning
open Eden.SortedTable
open Eden.TransactionRuns
open Eden.ChainPrimitives
open Eden.ContractState
open Eden.Runtime
open Eden.AccountTables
open Eden.MemberTable
open Eden.DistributionTables
open Eden.ElectionPhases
open Eden.ContractActions
open Eden.Transactions
open Eden.ContractSteps
open Eden.ActionSteps
open Eden.HostFunctions
open Eden.ElectionSchedule (step_now)
open Eden.SoundTreasury

variable {p : Platform} {call : Call}

/-! ### Every run -/

/-- The tables are not cleared, and amounts take 64 bits. -/
def fits (s : State) : Call → Bool
  | .action .clearall => false
  | .action (.genesis ..) => s.tokens.rows.all fun a => a.amount < 2 ^ 63
  | .action (.donate _ quantity) => quantity.amount < 2 ^ 63
  | .action (.inductdonate _ _ quantity) => quantity.amount < 2 ^ 63
  | .transfer _ _ quantity _ => quantity.amount < 2 ^ 63
  | _ => true

/-- Genesis has set a minimum donation that is not negative. -/
def GivesDonations (s : State) : Prop :=
  ∀ g, s.globals = some g → 0 ≤ g.minimumDonation.amount

theorem step_fits {s s' : State} (h : Step p call s s') (hfits : fits s call = true) :
    fits s' call = true := by
  cases call with
  | action a =>
      cases a with
      | genesis =>
          have htokens : s'.tokens = s.tokens := by
            cases h with
            | aside haside => exact haside.tokens
            | unsettled _ _ hsettles => cases hsettles
            | migrates hleft =>
                rcases hleft with heq | ⟨heq, -⟩
                · cases heq
                · cases heq
            | _ => rfl
          simp only [fits, htokens] at hfits ⊢
          exact hfits
      | _ => exact hfits
  | _ => exact hfits

/-- Before genesis there are no debts in the token contract, and nothing is about to be sent. -/
structure Unfounded (s : State) : Prop where
  tokens : s.globals = none → ∀ a ∈ s.tokens.rows, 0 ≤ a.amount
  outgoing : s.globals = none → s.accounts.outgoing = .empty

theorem Unfounded.of_same {s s' : State} (h : Unfounded s) (hglobals : s'.globals = s.globals)
    (htokens : s'.tokens = s.tokens) (houtgoing : s'.accounts.outgoing = s.accounts.outgoing) :
    Unfounded s' := by
  refine ⟨?_, ?_⟩
  · rw [hglobals, htokens]
    exact h.tokens
  · rw [hglobals, houtgoing]
    exact h.outgoing

theorem Unfounded.of_some {s : State} (h : s.globals ≠ none) : Unfounded s :=
  ⟨fun hnone => absurd hnone h, fun hnone => absurd hnone h⟩

theorem step_unfounded {s s' : State} (h : Step p call s s') (hcall : call ≠ .action .clearall)
    (hs : Unfounded s) : Unfounded s' := by
  by_cases hglobals : s.globals = none
  · cases h with
    | aside haside =>
        have hnone : s'.globals = none ↔ s.globals = none := by
          rw [← Option.map_eq_none_iff (f := Globals.minimumDonation), haside.donation,
            Option.map_eq_none_iff]
        refine ⟨?_, ?_⟩
        · rw [hnone, haside.tokens]
          exact hs.tokens
        · rw [hnone, haside.accounts]
          exact hs.outgoing
    | seeds hseed =>
        rcases seed_eq_ok hseed with ⟨_, _, _, _, _, _, _, _, _, rfl⟩ | ⟨_, _, _, _, _, _, _, rfl⟩ |
          ⟨_, _, _, _, _, _, rfl⟩
        · exact hs.of_same rfl rfl rfl
        · exact hs.of_same rfl rfl rfl
        · exact hs.of_same rfl rfl rfl
    | votes hvote =>
        obtain ⟨_, _, _, _, _, _, _, _, _, _, _, rfl⟩ := vote_eq_ok hvote
        exact hs.of_same rfl rfl rfl
    | starts _ hstart _ =>
        obtain ⟨_, _, _, _, _, _, _, rfl⟩ := startElection_eq_ok hstart
        exact hs.of_same rfl rfl rfl
    | establishes _ hg => rw [hg] at hglobals; cases hglobals
    | withdraws hg => rw [hg] at hglobals; cases hglobals
    | sends houtgoing =>
        obtain ⟨record, hrecord, _⟩ := subBalance_eq_ok houtgoing
        rw [hs.outgoing hglobals] at hrecord
        exact absurd (Table.mem_of_find? hrecord) (by simp)
    | deposits _ hg => rw [hg] at hglobals; cases hglobals
    | receives _ hg => rw [hg] at hglobals; cases hglobals
    | unsettled hsome => exact absurd hglobals hsome
    | founds => exact .of_some (by simp)
    | clears => exact absurd rfl hcall
    | _ => exact hs.of_same rfl rfl rfl
  · exact .of_some (step_globals h hcall hglobals)

theorem step_gives {s s' : State} (h : Step p call s s') (hcall : call ≠ .action .clearall)
    (hs' : GivesDonations s') : GivesDonations s := by
  intro g hg
  cases h with
  | aside haside =>
      have hdonation := haside.donation
      rw [hg, Option.map_some, Option.map_eq_some_iff] at hdonation
      obtain ⟨g', hg', hsame⟩ := hdonation
      rw [← hsame]
      exact hs' g' hg'
  | seeds hseed =>
      rcases seed_eq_ok hseed with ⟨_, _, _, _, _, _, _, _, _, rfl⟩ | ⟨_, _, _, _, _, _, _, rfl⟩ |
        ⟨_, _, _, _, _, _, rfl⟩
      · exact hs' g hg
      · exact hs' g hg
      · exact hs' g hg
  | votes hvote =>
      obtain ⟨_, _, _, _, _, _, _, _, _, _, _, rfl⟩ := vote_eq_ok hvote
      exact hs' g hg
  | starts _ hstart _ =>
      obtain ⟨_, _, _, _, _, _, _, rfl⟩ := startElection_eq_ok hstart
      exact hs' g hg
  | establishes _ hg' =>
      rw [hg', Option.some.injEq] at hg
      subst hg
      have hkept := hs' _ rfl
      exact hkept
  | founds hnone =>
      rw [hnone] at hg
      cases hg
  | clears => exact absurd rfl hcall
  | _ => exact hs' g hg

theorem step_sound {s s' : State} (h : Step p call s s') (hfits : fits s call = true)
    (hunfounded : Unfounded s) (hdonation : GivesDonations s) (hend : beforeEnd s.now)
    (hs : Sound (treasury s)) : Sound (treasury s') := by
  cases h with
  | aside haside =>
      refine hs.of_same ?_ haside.distributions
      exact congrArg Accounts.owned haside.accounts
  | seeds hseed =>
      rcases seed_eq_ok hseed with ⟨_, _, _, _, _, _, _, _, _, rfl⟩ | ⟨_, _, _, _, _, _, _, rfl⟩ |
        ⟨_, _, _, _, _, _, rfl⟩
      · exact hs.of_same rfl rfl
      · exact hs.of_same rfl rfl
      · exact hs.of_same rfl rfl
  | votes hvote =>
      obtain ⟨_, _, _, _, _, _, _, _, _, _, _, rfl⟩ := vote_eq_ok hvote
      exact hs.of_same rfl rfl
  | starts _ hstart _ =>
      obtain ⟨_, _, o, f, _, _, hsetup, rfl⟩ := startElection_eq_ok hstart
      have hs₀ : Sound { treasury s with output := o } := hs.of_same rfl rfl
      exact (setupDistribution_sound hend hs₀ hsetup).of_same rfl rfl
  | resigns _ _ _ hf _ => exact (onResign_sound hend hs hf).of_same rfl rfl
  | renames _ _ _ _ huser hf _ _ =>
      have hs₀ : ∀ e, Sound (treasury (record s e)) := fun e => hs.of_same rfl rfl
      exact (onRename_sound hend (hs₀ _) hf).of_same rfl rfl
  | concludes _ _ _ _ _ _ _ hf _ =>
      exact (processElectionDistribution_sound hs hf).of_same rfl rfl
  | distributes hf => exact (distributeMonthly_sound hend hs hf).of_same rfl rfl
  | receives _ _ _ hpos _ _ hf _ =>
      have hs₀ : ∀ e, Sound (treasury (record s e)) := fun e => hs.of_same rfl rfl
      refine (addToPool_sound hend (hs₀ _) ⟨hpos.le, ?_⟩ hf).of_same rfl rfl
      exact of_decide_eq_true hfits
  | donates hquantity _ hf =>
      have hs₀ : ∀ e, Sound (treasury (record s e)) := fun e => hs.of_same rfl rfl
      refine (addToPool_sound hend (hs₀ _) ?_ hf).of_same rfl rfl
      rcases hquantity with ⟨rfl, hpos⟩ | ⟨id, g, rfl, hg, hminimum⟩
      · exact ⟨hpos.le, of_decide_eq_true hfits⟩
      · exact ⟨hminimum ▸ hdonation g hg, of_decide_eq_true hfits⟩
  | fundtransfers hpos _ haccounts _ _ =>
      refine ⟨{ hs.solvent with accounts := ?_ }, hs.planned⟩
      exact subAccount_inRange hs.solvent.accounts hpos.le haccounts
  | migrates _ _ howned _ _ =>
      refine ⟨{ hs.solvent with owned := fun a ha => ?_ }, hs.planned⟩
      rcases howned a ha with hold | ⟨hnonneg, hmax⟩
      · exact hs.solvent.owned a hold
      · exact .of_max hnonneg hmax
  | founds hnone _ _ _ hpools howned _ =>
      refine ⟨{ hs.solvent with pools := fun pool hpool => ?_, owned := ?_ }, hs.planned⟩
      · rcases (Table.mem_emplace? hpools).mp hpool with rfl | hpool
        · rfl
        · exact hs.solvent.pools pool hpool
      · rcases howned with ⟨balance, hbalance, howned⟩ | ⟨-, rfl⟩
        · refine addBalance_inRange hs.solvent.owned ?_ howned
          have hmem := Table.mem_of_find? hbalance
          exact ⟨hunfounded.tokens hnone _ hmem, of_decide_eq_true (List.all_eq_true.mp hfits _ hmem)⟩
        · exact hs.solvent.owned
  | clears => cases hfits
  | _ => exact hs.of_same rfl rfl

/-- The treasury of every state that the contract reaches is sound. -/
theorem reachable_sound {s : State} (h : Reachable p (fun s call => fits s call = true) s)
    (hdonation : GivesDonations s) (hend : beforeEnd s.now) : Sound (treasury s) := by
  have hinv := reachable_of_calls
    (fun s : State => Unfounded s ∧ (GivesDonations s → beforeEnd s.now → Sound (treasury s)))
    (fun call s => fits s call = true) h ?_ ?_ (fun _ _ hfits _ => hfits) ?_
  · exact hinv.2 hdonation hend
  · rintro s ⟨hempty, htokens⟩
    rw [hempty] at htokens ⊢
    refine ⟨⟨fun _ => htokens, fun _ => rfl⟩, fun _ _ => ⟨⟨?_, ?_, ?_, ?_⟩, .inl rfl⟩⟩
    · simp [treasury]
    · simp [treasury]
    · simp [treasury]
    · simp [treasury]
  · rintro s now hle - ⟨hunfounded, hsound⟩
    refine ⟨hunfounded.of_same rfl rfl rfl, fun hgives hlater => ?_⟩
    refine (hsound hgives ?_).of_same rfl rfl
    unfold beforeEnd at hlater ⊢
    dsimp only at hlater
    omega
  · rintro call s s' hstep ⟨hunfounded, hsound⟩ hfits
    have hcall : call ≠ .action .clearall := by
      rintro rfl
      cases hfits
    refine ⟨⟨step_unfounded hstep hcall hunfounded, fun hgives hlater => ?_⟩,
      step_fits hstep hfits⟩
    have hgives₀ := step_gives hstep hcall hgives
    rw [step_now hstep] at hlater
    exact step_sound hstep hfits hunfounded hgives₀ hlater (hsound hgives₀ hlater)

/-! ### The turns of the loop -/

variable {c : Calendar} {f : Treasury}

/-- The times of the distributions that the loop of `setup_distribution` starts, each with the
treasury that its turn finds. -/
def turnsFrom (p : Platform) (c : Calendar) : (fuel : Nat) → Treasury → Distribution →
    List (Nat × Treasury)
  | 0, _, _ => []
  | fuel + 1, f, row =>
      match row with
      | .next distributionTime =>
          if c.now < distributionTime then []
          else (distributionTime, f) :: (match startDistribution p c f distributionTime with
            | .ok f' => turnsFrom p c fuel f' (.next (nextDistribution c distributionTime).1)
            | .error _ => [])
      | _ => []

/-- The calendar that `setup_distribution` goes by: the next election is at `init` if that is
given. -/
def electionAt (c : Calendar) (init : Nat) : Calendar :=
  if init = 0 then c else { c with nextElectionTime := some init }

/-- The turns of `setup_distribution`. -/
def turns (p : Platform) (c : Calendar) (f : Treasury) (init : Nat) : List (Nat × Treasury) :=
  match f.distributions.table.rows.getLast? with
  | some last => turnsFrom p (electionAt c init) (c.now + 1) f last
  | none =>
      if init = 0 then []
      else match scheduleDistribution p f init with
        | .ok f' => turnsFrom p (electionAt c init) (c.now + 1) f' (.next init)
        | .error _ => []

/-- The pools of a list that give to a distribution, each with what the pools own by then. -/
def drawsFrom (p : Platform) (distributionTime : Nat) (prorateNum : Option Nat) :
    List Pool → Treasury × Asset → List (Pool × AccountTable)
  | [], _ => []
  | pool :: pools, acc =>
      (pool, acc.1.owned) :: (match reservePool p distributionTime prorateNum acc pool with
        | .ok acc' => drawsFrom p distributionTime prorateNum pools acc'
        | .error _ => [])

/-- The pools that give to the distribution of a turn. -/
def draws (p : Platform) (c : Calendar) (turn : Nat × Treasury) : List (Pool × AccountTable) :=
  match (if turn.2.distributions.pools.rows = [] then emplaceMasterPool p turn.2
      else .ok turn.2 : Outcome Treasury) with
  | .ok f => drawsFrom p turn.1 (nextDistribution c turn.1).2 f.distributions.pools.rows
      (f, ⟨0, ⟨0, 0⟩⟩)
  | .error _ => []

/-- A pool has what it is to give: its share is neither negative nor more than the monthly part of
what it owns, and can be taken out of it. -/
structure Gives (prorateNum : Option Nat) (pool : Pool) (owned : AccountTable)
    (account : Account) : Prop where
  defined : account.balance.amount * pool.monthlyDistributionPct ≤ maxAmount →
    account.balance.symbol.isValid = true →
    ∃ amount, poolShare prorateNum pool.monthlyDistributionPct account.balance = .ok amount
  bounded : ∀ amount, poolShare prorateNum pool.monthlyDistributionPct account.balance =
    .ok amount → 0 ≤ amount.amount ∧ amount.amount ≤ account.balance.amount ∧
      100 * amount.amount ≤ pool.monthlyDistributionPct * account.balance.amount
  taken : account.balance.amount * pool.monthlyDistributionPct ≤ maxAmount →
    ∀ amount, poolShare prorateNum pool.monthlyDistributionPct account.balance = .ok amount →
    ∃ owned', subBalance owned pool.name amount = .ok owned'

theorem subBalance_of_le {t : AccountTable} {account : Account} {owner : Name} {quantity : Asset}
    (hfound : t.find? owner = some account) (hsymbol : quantity.symbol = account.balance.symbol)
    (hnonneg : 0 ≤ quantity.amount) (hle : quantity.amount ≤ account.balance.amount)
    (hmax : account.balance.amount ≤ maxAmount) : ∃ t', subBalance t owner quantity = .ok t' := by
  have hge : account.balance.ge quantity = .ok true :=
    Asset.ge_eq_ok.mpr ⟨hsymbol.symm, decide_eq_true hle⟩
  have heq : account.balance.eq quantity =
      .ok (decide (account.balance.amount = quantity.amount)) :=
    Asset.eq_eq_ok.mpr ⟨hsymbol.symm, rfl⟩
  have hsub : account.balance.sub quantity =
      .ok ⟨account.balance.amount - quantity.amount, account.balance.symbol⟩ := by
    refine Asset.sub_eq_ok.mpr ⟨hsymbol, ?_, ?_, rfl⟩
    · unfold maxAmount
      omega
    · omega
  simp only [subBalance, hfound, expect_some, ok_bind, hge, heq, hsub, check, ensure_true]
  split
  · exact ⟨_, rfl⟩
  · exact ⟨_, rfl⟩

theorem gives_of_solvent {prorateNum : Option Nat} {pool : Pool} {account : Account}
    (hf : Solvent f) (hpool : pool = ⟨masterName, 5⟩)
    (hnum : ∀ num, prorateNum = some num → num ≤ month)
    (hfound : f.owned.find? pool.name = some account) : Gives prorateNum pool f.owned account := by
  have hbalance := hf.owned account (Table.mem_of_find? hfound)
  have hpct : pool.monthlyDistributionPct = 5 := by rw [hpool]
  have hcap : pool.monthlyDistributionPct ≤ 100 := by omega
  have hshare : ∀ amount, poolShare prorateNum pool.monthlyDistributionPct account.balance =
      .ok amount → Reserved pool.monthlyDistributionPct account.balance amount :=
    fun amount h => poolShare_reserved hbalance hcap hnum h
  refine ⟨fun hmax hvalid => ?_, fun amount h => ?_, fun hmax amount h => ?_⟩
  · rw [hpct] at hmax ⊢
    have hnonneg := hbalance.nonneg
    cases prorateNum with
    | none =>
        refine ⟨⟨(account.balance.amount * 5).tdiv 100, account.balance.symbol⟩, ?_⟩
        simp only [poolShare, bind_eq_ok, Asset.mul_eq_ok, Asset.div_eq_ok]
        refine ⟨_, ⟨hmax, ?_, rfl⟩, by norm_num, by norm_num, rfl⟩
        unfold maxAmount
        omega
    | some num =>
        have hshare : 0 ≤ proratedAmount num 5 account.balance.amount ∧
            100 * proratedAmount num 5 account.balance.amount ≤
              (5 : Nat) * account.balance.amount :=
          proratedAmount_bounds (hnum num rfl) (by norm_num) hnonneg hbalance.lt
        obtain ⟨hlow, hhigh⟩ := hshare
        refine ⟨_, asset_eq_ok.mpr ⟨⟨?_, ?_⟩, hvalid, rfl⟩⟩
        · unfold maxAmount
          omega
        · omega
  · have hreserved := hshare amount h
    exact ⟨hreserved.nonneg, hreserved.le hcap hbalance.nonneg, hreserved.part⟩
  · have hreserved := hshare amount h
    refine subBalance_of_le hfound hreserved.symbol hreserved.nonneg
      (hreserved.le hcap hbalance.nonneg) ?_
    have hnonneg := hbalance.nonneg
    rw [hpct] at hmax
    omega

theorem drawsFrom_solvent {distributionTime : Nat} {prorateNum : Option Nat} {pools : List Pool}
    {acc : Treasury × Asset} (hpools : ∀ pool ∈ pools, pool = ⟨masterName, 5⟩)
    (hnum : ∀ num, prorateNum = some num → num ≤ month) (hacc : Solvent acc.1 ∧ InRange acc.2) :
    ∀ draw ∈ drawsFrom p distributionTime prorateNum pools acc,
      draw.1 = ⟨masterName, 5⟩ ∧ ∃ g, Solvent g ∧ g.owned = draw.2 := by
  induction pools generalizing acc with
  | nil =>
      intro draw hdraw
      cases hdraw
  | cons pool pools ih =>
      rw [List.forall_mem_cons] at hpools
      intro draw hdraw
      rcases List.mem_cons.mp hdraw with rfl | hdraw
      · exact ⟨hpools.1, acc.1, hacc.1, rfl⟩
      · split at hdraw
        · rename_i acc' hreserve
          have hpct : pool.monthlyDistributionPct ≤ 100 := by
            rw [hpools.1]
            decide
          exact ih hpools.2 (reservePool_solvent hpct hnum hacc hreserve) draw hdraw
        · cases hdraw

theorem draws_give {turn : Nat × Treasury} (hwrap : turn.1 + 2 * month < 2 ^ 32)
    (hturn : Solvent turn.2) {draw : Pool × AccountTable} (hdraw : draw ∈ draws p c turn)
    {account : Account} (hfound : draw.2.find? draw.1.name = some account) :
    Gives (nextDistribution c turn.1).2 draw.1 draw.2 account := by
  obtain ⟨-, hnum⟩ := nextDistribution_later (c := c) hwrap
  unfold draws at hdraw
  split at hdraw
  · rename_i f hpool
    obtain ⟨hf, -⟩ := masterPool_solvent hturn hpool
    obtain ⟨hmaster, g, hg, howned⟩ :=
      drawsFrom_solvent hf.pools hnum ⟨hf, inRange_zero _⟩ draw hdraw
    rw [← howned] at hfound ⊢
    exact gives_of_solvent hg hmaster hnum hfound
  · cases hdraw

theorem nextDistribution_passed {e time : Nat} (hwrap : time + 2 * month < 2 ^ 32)
    (helection : c.nextElectionTime = some e) (hle : e ≤ time) :
    (nextDistribution c time).2 = none := by
  rcases nextDistribution_cases (c := c) hwrap with ⟨e', helection', hlater, -, -⟩ | heq
  · rw [helection, Option.some.injEq] at helection'
    omega
  · rw [heq]

theorem nextDistribution_prorated {time : Nat} (hwrap : time + 2 * month < 2 ^ 32)
    (h : (nextDistribution c time).2.isSome = true) :
    c.nextElectionTime = some (nextDistribution c time).1 := by
  rcases nextDistribution_cases (c := c) hwrap with ⟨e, helection, -, -, heq⟩ | heq
  · rw [heq, helection]
  · rw [heq] at h
    cases h

section Turns

variable {fuel time : Nat}

/-- Each turn is due, and its treasury is sound. -/
theorem turnsFrom_sound (hend : beforeEnd c.now) (hf : Solvent f)
    (hnext : NextAt time f.distributions.table) :
    ∀ turn ∈ turnsFrom p c fuel f (.next time), time ≤ turn.1 ∧ turn.1 ≤ c.now ∧
      Solvent turn.2 := by
  induction fuel generalizing f time with
  | zero =>
      intro turn hturn
      cases hturn
  | succ fuel ih =>
      intro turn hturn
      simp only [turnsFrom] at hturn
      split at hturn
      · cases hturn
      · rename_i hdue
        rcases List.mem_cons.mp hturn with rfl | hturn
        · exact ⟨le_rfl, Nat.le_of_not_lt hdue, hf⟩
        · split at hturn
          · rename_i f₁ hstart
            have hwrap : time + 2 * month < 2 ^ 32 := by
              unfold beforeEnd at hend
              omega
            obtain ⟨hlater, -⟩ := nextDistribution_later (c := c) hwrap
            obtain ⟨hf₁, hnext₁, -⟩ := startDistribution_sound hwrap hf hnext hstart
            obtain ⟨hle, hdue', hturn'⟩ := ih hf₁ hnext₁ turn hturn
            exact ⟨hlater.le.trans hle, hdue', hturn'⟩
          · cases hturn

/-- Each turn goes on from what the one before it leaves, at the time that it sets. -/
theorem turnsFrom_chained :
    (turnsFrom p c fuel f (.next time)).IsChain fun turn turn' =>
      startDistribution p c turn.2 turn.1 = .ok turn'.2 ∧
        turn'.1 = (nextDistribution c turn.1).1 := by
  induction fuel generalizing f time with
  | zero => exact .nil
  | succ fuel ih =>
      simp only [turnsFrom]
      split
      · exact .nil
      · split
        · rename_i f₁ hstart
          have hrest : (turnsFrom p c fuel f₁ (.next (nextDistribution c time).1)).IsChain _ := ih
          cases fuel with
          | zero => exact .singleton _
          | succ fuel =>
              simp only [turnsFrom] at hrest ⊢
              split at hrest
              · rw [if_pos ‹_›]
                exact .singleton _
              · rw [if_neg ‹_›]
                exact .cons_cons ⟨hstart, rfl⟩ hrest
        · exact .singleton _

theorem turnsFrom_increasing (hend : beforeEnd c.now) (hf : Solvent f)
    (hnext : NextAt time f.distributions.table) :
    ((turnsFrom p c fuel f (.next time)).map Prod.fst).Pairwise (· < ·) := by
  induction fuel generalizing f time with
  | zero => exact .nil
  | succ fuel ih =>
      simp only [turnsFrom]
      split
      · exact .nil
      · rename_i hdue
        rw [List.map_cons, List.pairwise_cons]
        split
        · rename_i f₁ hstart
          have hwrap : time + 2 * month < 2 ^ 32 := by
            unfold beforeEnd at hend
            omega
          obtain ⟨hlater, -⟩ := nextDistribution_later (c := c) hwrap
          obtain ⟨hf₁, hnext₁, -⟩ := startDistribution_sound hwrap hf hnext hstart
          refine ⟨fun later hmem => ?_, ih hf₁ hnext₁⟩
          obtain ⟨turn, hturn, rfl⟩ := List.mem_map.mp hmem
          exact Nat.lt_of_lt_of_le hlater (turnsFrom_sound hend hf₁ hnext₁ turn hturn).1
        · exact ⟨by simp, .nil⟩

/-- Only the turn before the next election is prorated. -/
theorem turnsFrom_prorated (hend : beforeEnd c.now) (hf : Solvent f)
    (hnext : NextAt time f.distributions.table) :
    ((turnsFrom p c fuel f (.next time)).filter fun turn =>
      (nextDistribution c turn.1).2.isSome).length ≤ 1 := by
  induction fuel generalizing f time with
  | zero => exact Nat.zero_le 1
  | succ fuel ih =>
      simp only [turnsFrom]
      split
      · exact Nat.zero_le 1
      · rename_i hdue
        have hwrap : time + 2 * month < 2 ^ 32 := by
          unfold beforeEnd at hend
          omega
        rw [List.filter_cons]
        split
        · rename_i hprorated
          have helection := nextDistribution_prorated hwrap hprorated
          rw [List.length_cons, Nat.succ_le_succ_iff, Nat.le_zero, List.length_eq_zero_iff,
            List.filter_eq_nil_iff]
          split
          · rename_i f₁ hstart
            obtain ⟨hf₁, hnext₁, -⟩ := startDistribution_sound hwrap hf hnext hstart
            intro turn hturn
            obtain ⟨hle, hdue', -⟩ := turnsFrom_sound hend hf₁ hnext₁ turn hturn
            have hwrap' : turn.1 + 2 * month < 2 ^ 32 := by
              unfold beforeEnd at hend
              omega
            rw [nextDistribution_passed hwrap' helection hle]
            simp
          · intro turn hturn
            cases hturn
        · split
          · rename_i f₁ hstart
            obtain ⟨hf₁, hnext₁, -⟩ := startDistribution_sound hwrap hf hnext hstart
            exact ih hf₁ hnext₁
          · exact Nat.zero_le 1

/-- The loop comes to an end, as each turn leaves a later row, unless a turn is rejected. -/
theorem setupFrom_ends (hend : beforeEnd c.now) (hfuel : 0 < fuel)
    (henough : c.now + 2 ≤ time + fuel) (result : Bool) :
    (∃ r, setupFrom p c fuel f (.next time) result = .ok r) ∨
      ∃ turn ∈ turnsFrom p c fuel f (.next time), ∃ e,
        startDistribution p c turn.2 turn.1 = .error e ∧
          setupFrom p c fuel f (.next time) result = .error e := by
  induction fuel generalizing f time result with
  | zero => omega
  | succ fuel ih =>
      simp only [setupFrom, turnsFrom]
      split
      · exact .inl ⟨_, rfl⟩
      · rename_i hdue
        have hwrap : time + 2 * month < 2 ^ 32 := by
          unfold beforeEnd at hend
          omega
        obtain ⟨hlater, -⟩ := nextDistribution_later (c := c) hwrap
        cases hstart : startDistribution p c f time with
        | error e => exact .inr ⟨(time, f), List.mem_cons_self, e, hstart, rfl⟩
        | ok f₁ =>
            have hleft : c.now + 2 ≤ (nextDistribution c time).1 + fuel := by omega
            rcases ih (f := f₁) (by omega) hleft true with hdone | ⟨turn, hturn, e, he⟩
            · exact .inl hdone
            · exact .inr ⟨turn, List.mem_cons_of_mem _ hturn, e, he⟩

end Turns

/-- The loop of `setup_distribution` makes up for what has been missed. -/
structure CatchesUp (p : Platform) (c : Calendar) (f : Treasury) (init : Nat) : Prop where
  ends : (∃ r, setupDistribution p c f init = .ok r) ∨
    ∃ turn ∈ turns p c f init, ∃ e,
      startDistribution p (electionAt c init) turn.2 turn.1 = .error e ∧
        setupDistribution p c f init = .error e
  chained : (turns p c f init).IsChain fun turn turn' =>
    startDistribution p (electionAt c init) turn.2 turn.1 = .ok turn'.2 ∧
      turn'.1 = (nextDistribution (electionAt c init) turn.1).1
  increasing : ((turns p c f init).map Prod.fst).Pairwise (· < ·)
  due : ∀ turn ∈ turns p c f init,
    turn.1 ≤ c.now ∧ turn.1 < (nextDistribution (electionAt c init) turn.1).1
  prorated : ((turns p c f init).filter fun turn =>
    (nextDistribution (electionAt c init) turn.1).2.isSome).length ≤ 1
  gives : ∀ turn ∈ turns p c f init, ∀ draw ∈ draws p (electionAt c init) turn, ∀ account,
    draw.2.find? draw.1.name = some account →
    Gives (nextDistribution (electionAt c init) turn.1).2 draw.1 draw.2 account
  returned : ∀ r, setupDistribution p c f init = .ok r →
    ∃ time, c.now < time ∧ r.1.distributions.table.rows.filter isNext = [.next time]

theorem electionAt_now (c : Calendar) (init : Nat) : (electionAt c init).now = c.now := by
  unfold electionAt
  split
  · rfl
  · rfl

/-- The loop from a row of the table on. -/
theorem catchesUp_of_row {init time : Nat} {f₀ : Treasury} (hend : beforeEnd c.now)
    (hf : Solvent f) (hnext : NextAt time f.distributions.table) (hpos : 0 < time)
    (hsetup : setupDistribution p c f₀ init =
      setupFrom p (electionAt c init) (c.now + 1) f (.next time) false)
    (hturns : turns p c f₀ init = turnsFrom p (electionAt c init) (c.now + 1) f (.next time)) :
    CatchesUp p c f₀ init := by
  have hnow := electionAt_now c init
  have hend' : beforeEnd (electionAt c init).now := hnow ▸ hend
  have hsound : ∀ turn ∈ turnsFrom p (electionAt c init) (c.now + 1) f (.next time),
      time ≤ turn.1 ∧ turn.1 ≤ (electionAt c init).now ∧ Solvent turn.2 :=
    turnsFrom_sound hend' hf hnext
  have hwrap : ∀ turn ∈ turns p c f₀ init, turn.1 ≤ c.now ∧ turn.1 + 2 * month < 2 ^ 32 := by
    rw [hturns]
    intro turn hturn
    have hdue := (hsound turn hturn).2.1
    unfold beforeEnd at hend
    omega
  refine ⟨?_, ?_, ?_, ?_, ?_, ?_, ?_⟩
  · rw [hsetup, hturns]
    exact setupFrom_ends hend' (Nat.succ_pos _) (by omega) false
  · rw [hturns]
    exact turnsFrom_chained
  · rw [hturns]
    exact turnsFrom_increasing hend' hf hnext
  · intro turn hturn
    exact ⟨(hwrap turn hturn).1, (nextDistribution_later (hwrap turn hturn).2).1⟩
  · rw [hturns]
    exact turnsFrom_prorated hend' hf hnext
  · intro turn hturn draw hdraw account hfound
    exact draws_give (hwrap turn hturn).2 (hsound turn (hturns ▸ hturn)).2.2 hdraw hfound
  · intro r hr
    rw [hsetup] at hr
    obtain ⟨-, later, hlater, -, hrow⟩ := setupFrom_sound hend' hf hnext rfl hpos hr
    rw [hnow] at hlater
    exact ⟨later, hlater, hrow.filter⟩

theorem setupDistribution_catchesUp {init : Nat} (hend : beforeEnd c.now) (hf : Sound f)
    (hstart : f.distributions.table.rows ≠ [] ∨ init ≠ 0) : CatchesUp p c f init := by
  have hfuel : ∀ (f₁ : Treasury) (row : Distribution),
      setupFrom p (electionAt c init) ((electionAt c init).now + 1) f₁ row false =
        setupFrom p (electionAt c init) (c.now + 1) f₁ row false := by
    intro f₁ row
    rw [electionAt_now]
  cases hlast : f.distributions.table.rows.getLast? with
  | some row =>
      obtain ⟨time, hpos, hnext, rfl⟩ := hf.planned.next hlast
      refine catchesUp_of_row hend hf.solvent hnext hpos ?_ ?_
      · rw [setupDistribution, hlast]
        exact hfuel f _
      · rw [turns, hlast]
  | none =>
      have hempty := List.getLast?_eq_none_iff.mp hlast
      have hinit : init ≠ 0 := hstart.resolve_left fun hne => hne hempty
      have habsent : f.distributions.table.find? init = none := by
        rw [Table.find?, hempty]
        rfl
      obtain ⟨table, htable⟩ := Table.emplace?_isSome (a := Distribution.next init) habsent
      have hschedule : scheduleDistribution p f init = .ok { f with
          output := pushEvent p f.output (.distributionSchedule init)
          distributions := { f.distributions with table := table } } := by
        rw [scheduleDistribution, htable]
        rfl
      obtain ⟨hf₁, hnext⟩ := scheduleDistribution_first hf.solvent hempty hschedule
      refine catchesUp_of_row hend hf₁ hnext (Nat.pos_of_ne_zero hinit) ?_ ?_
      · rw [setupDistribution, hlast]
        dsimp only
        rw [if_neg hinit, hschedule, ok_bind]
        exact hfuel _ _
      · rw [turns, hlast]
        dsimp only
        rw [if_neg hinit, hschedule]

/-- Genesis asks for a donation below zero, and alice pays it. -/
def indebted : List Transaction :=
  [(1000000, [(signedBy contractSigner, .action (.genesis ['E', 'd', 'e', 'n'] eosSymbol
      (eos (-100)) [alice.name, bob.name] ['Q', 'm'] (eos 1) 3600 3 ['1', '2', ':', '0', '0']))]),
    (1000010, [(signedBy alice, .transfer alice.name host.self (eos 1000) [])]),
    (1000020, [(signedBy alice, .action (.inductprofil 1 sampleProfile))]),
    (1000030, [(signedBy alice, .action (.inductdonate alice.name 1 (eos (-100))))])]

end Eden.CatchUpLoop
