import Eden.ActionSteps
import Eden.TreasuryFunds
import Eden.EmittedEvents

/-!
What the calls of the contract execute: the call itself, then actions of other contracts and events
about the topics of the call.
-/

namespace Eden.CallTraces

open Eden.ExceptReasoning
open Eden.SortedTable
open Eden.ChainPrimitives
open Eden.ElectionPlan
open Eden.ContractState
open Eden.Runtime
open Eden.MemberTable
open Eden.DistributionTables
open Eden.ElectionRounds
open Eden.ElectionPhases
open Eden.InductionTables
open Eden.Maintenance
open Eden.ContractActions
open Eden.TransactionRuns
open Eden.Transactions
open Eden.ActionSteps
open Eden.EmittedEvents

variable {p : Platform} {c : Calendar} {f f' : Treasury}

def isDistribution (e : Event) : Prop := topic e = .distribution

theorem pushes_distribution (o : Output) {e : Event} (he : topic e = .distribution) :
    Pushes p isDistribution o (pushEvent p o e) := .event .refl he

/-! ### Setting up distributions -/

theorem pushes_emplaceMasterPool (h : emplaceMasterPool p f = .ok f') :
    Pushes p isDistribution f.output f'.output := by
  simp only [emplaceMasterPool, bind_eq_ok, pure_eq_ok] at h
  obtain ⟨pools, -, rfl⟩ := h
  exact pushes_distribution _ rfl

theorem pushes_reservePool {distributionTime : Nat} {prorateNum : Option Nat}
    {acc acc' : Treasury × Asset} {pool : Pool}
    (h : reservePool p distributionTime prorateNum acc pool = .ok acc') :
    Pushes p isDistribution acc.1.output acc'.1.output := by
  unfold reservePool at h
  split at h
  · cases h
    exact .refl
  · simp only [bind_eq_ok, pure_eq_ok] at h
    obtain ⟨amount, -, owned, -, total, -, rfl⟩ := h
    exact pushes_distribution _ rfl

theorem pushes_openDistribution {distributionTime : Nat} {total : Asset} {r : Treasury × Asset}
    (h : openDistribution p c f distributionTime total = .ok r) :
    Pushes p isDistribution f.output r.1.output := by
  unfold openDistribution at h
  split at h
  · simp only [bind_eq_ok, pure_eq_ok] at h
    obtain ⟨⟨shares, used⟩, -, rfl⟩ := h
    exact pushes_distribution _ rfl
  · cases h
    exact .refl

theorem pushes_returnExcess {distributionTime : Nat} {total used : Asset}
    (h : returnExcess p f distributionTime total used = .ok f') :
    Pushes p isDistribution f.output f'.output := by
  simp only [returnExcess, bind_eq_ok] at h
  obtain ⟨same, -, h⟩ := h
  split at h
  · cases h
    exact .refl
  · simp only [bind_eq_ok, pure_eq_ok] at h
    obtain ⟨excess, -, owned, -, rfl⟩ := h
    exact pushes_distribution _ rfl

theorem pushes_fundDistribution {distributionTime : Nat} {total : Asset}
    (h : fundDistribution p c f distributionTime total = .ok f') :
    Pushes p isDistribution f.output f'.output := by
  unfold fundDistribution at h
  split at h
  · simp only [bind_eq_ok, pure_eq_ok] at h
    obtain ⟨⟨f₁, used⟩, hopen, f₂, hexcess, accounts, -, rfl⟩ := h
    have hreturned := pushes_returnExcess hexcess
    exact (pushes_openDistribution hopen).trans hreturned
  · cases h
    exact (pushes_distribution _ rfl).trans (pushes_distribution _ rfl)

theorem pushes_scheduleDistribution {distributionTime : Nat}
    (h : scheduleDistribution p f distributionTime = .ok f') :
    Pushes p isDistribution f.output f'.output := by
  simp only [scheduleDistribution, bind_eq_ok, pure_eq_ok] at h
  obtain ⟨table, -, rfl⟩ := h
  exact pushes_distribution _ rfl

theorem pushes_startDistribution {distributionTime : Nat}
    (h : startDistribution p c f distributionTime = .ok f') :
    Pushes p isDistribution f.output f'.output := by
  simp only [startDistribution, bind_eq_ok] at h
  obtain ⟨f₁, hpool, ⟨f₂, total⟩, hreserve, f₃, hfund, h⟩ := h
  have hpools : Pushes p isDistribution f.output f₁.output := by
    split at hpool
    · exact pushes_emplaceMasterPool hpool
    · cases hpool
      exact .refl
  have hreserved : Pushes p isDistribution f₁.output f₂.output :=
    foldlM_preserves (fun acc : Treasury × Asset => Pushes p isDistribution f₁.output acc.1.output)
      (fun _ _ _ hstep hacc => hacc.trans (pushes_reservePool hstep)) _ hreserve .refl
  exact ((hpools.trans hreserved).trans (pushes_fundDistribution hfund)).trans
    (pushes_scheduleDistribution h)

theorem pushes_setupFrom {fuel : Nat} {row : Distribution} {result : Bool} {r : Treasury × Bool}
    (h : setupFrom p c fuel f row result = .ok r) :
    Pushes p isDistribution f.output r.1.output := by
  induction fuel generalizing f row result with
  | zero => cases h
  | succ fuel ih =>
      simp only [setupFrom] at h
      split at h
      · split at h
        · cases h
          exact .refl
        · simp only [bind_eq_ok] at h
          obtain ⟨f₁, hstart, h⟩ := h
          exact (pushes_startDistribution hstart).trans (ih h)
      · cases h

theorem pushes_setupDistribution {init : Nat} {r : Treasury × Bool}
    (h : setupDistribution p c f init = .ok r) : Pushes p isDistribution f.output r.1.output := by
  simp only [setupDistribution] at h
  split at h
  · exact pushes_setupFrom h
  · split at h
    · cases h
      exact .refl
    · simp only [bind_eq_ok] at h
      obtain ⟨f₁, hschedule, h⟩ := h
      exact (pushes_scheduleDistribution hschedule).trans (pushes_setupFrom h)

theorem pushes_addToPool {pool : Name} {amount : Asset}
    (h : addToPool p c f pool amount = .ok f') : Pushes p isDistribution f.output f'.output := by
  simp only [addToPool, bind_eq_ok, pure_eq_ok] at h
  obtain ⟨⟨f₁, started⟩, hsetup, owned, -, rfl⟩ := h
  exact pushes_setupDistribution hsetup

/-! ### Paying out -/

theorem pushes_fundRank {distributionTime : Nat} {pool : Option Nat} {owner : Name}
    {share : Nat × Asset} (h : fundRank p distributionTime pool owner f share = .ok f') :
    Pushes p isDistribution f.output f'.output := by
  simp only [fundRank, bind_eq_ok, pure_eq_ok] at h
  obtain ⟨added, -, drawn, -, rfl⟩ := h
  exact pushes_distribution _ rfl

theorem pushes_fundMembers {distributionTime : Nat} {rankDistribution : List Asset}
    {pool : Option Nat} {maxSteps : Nat} {members : List Member} {lastProcessed : Name}
    {r : Nat × Name × Treasury} (h : fundMembers p distributionTime rankDistribution pool maxSteps
      members lastProcessed f = .ok r) : Pushes p isDistribution f.output r.2.2.output := by
  fun_induction fundMembers p distributionTime rankDistribution pool maxSteps members
    lastProcessed f with
  | case1 members lastProcessed f =>
      cases h
      exact .refl
  | case2 maxSteps lastProcessed f =>
      cases h
      exact .refl
  | case3 maxSteps member rest lastProcessed f ih =>
      simp only [bind_eq_ok] at h
      obtain ⟨-, -, f₁, hfund, h⟩ := h
      have hfunded : Pushes p isDistribution f.output f₁.output :=
        foldlM_preserves (fun g : Treasury => Pushes p isDistribution f.output g.output)
          (fun _ _ _ hstep hg => hg.trans (pushes_fundRank hstep)) _ hfund .refl
      exact hfunded.trans (ih f₁ h)

theorem output_closePool {pool : Option Nat} (h : closePool f pool = .ok f') :
    f'.output = f.output := by
  unfold closePool at h
  split at h
  · cases h
    rfl
  · simp only [bind_eq_ok] at h
    obtain ⟨-, -, h⟩ := h
    split at h
    · cases h
      rfl
    · cases h
      rfl

theorem pushes_distributeCurrent {members : Table Member.account} {maxSteps distributionTime : Nat}
    {lastProcessed : Name} {rankDistribution : List Asset} {r : Nat × Name × Treasury}
    (h : distributeCurrent p members maxSteps distributionTime lastProcessed rankDistribution f =
      .ok r) : Pushes p isDistribution f.output r.2.2.output := by
  simp only [distributeCurrent, bind_eq_ok, pure_eq_ok] at h
  obtain ⟨⟨remaining, last, f₁⟩, hfund, f₂, hclose, rfl⟩ := h
  have hfunded := pushes_fundMembers hfund
  rwa [← output_closePool hclose] at hfunded

theorem pushes_distributeRows {members : Table Member.account} {rows : List Distribution}
    {maxSteps : Nat} {r : Nat × Treasury} (h : distributeRows p members rows maxSteps f = .ok r) :
    Pushes p isDistribution f.output r.2.output := by
  induction rows generalizing maxSteps f with
  | nil =>
      cases h
      exact .refl
  | cons row rest ih =>
      simp only [distributeRows] at h
      split at h
      · cases h
        exact .refl
      · split at h
        · simp only [bind_eq_ok] at h
          obtain ⟨⟨steps, last, f₁⟩, hcurrent, h⟩ := h
          have hpaid := pushes_distributeCurrent hcurrent
          split at h
          · cases h
            exact hpaid
          · exact (hpaid.trans (pushes_distribution _ rfl)).trans (ih h)
        · cases h
          exact .refl
        · cases h
          exact .refl

theorem pushes_distributeMonthly {members : Table Member.account} {maxSteps : Nat}
    {r : Nat × Treasury} (h : distributeMonthly p c members maxSteps f = .ok r) :
    Pushes p isDistribution f.output r.2.output := by
  unfold distributeMonthly at h
  split at h
  · cases h
    exact .refl
  · simp only [bind_eq_ok] at h
    obtain ⟨⟨f₁, started⟩, hsetup, h⟩ := h
    exact (pushes_setupDistribution hsetup).trans (pushes_distributeRows h)

theorem pushes_processElectionRows {ranks : List Nat} {rows : List Distribution}
    (h : processElectionRows p ranks rows f = .ok f') :
    Pushes p isDistribution f.output f'.output := by
  fun_induction processElectionRows p ranks rows f with
  | case1 f =>
      cases h
      exact .refl
  | case2 t amount rest f ih =>
      simp only [bind_eq_ok, beginElectionDistribution, pure_eq_ok] at h
      obtain ⟨f₁, ⟨⟨shares, used⟩, -, -, -, -, -, rfl⟩, h⟩ := h
      exact (pushes_distribution _ rfl).trans (ih _ h)
  | case3 _ _ _ rest f ih => exact ih h
  | case4 _ _ f =>
      cases h
      exact .refl

/-! ### Members who leave or change their account -/

theorem pushes_returnAccount {row : DistributionAccount} (h : returnAccount p f row = .ok f') :
    Pushes p isDistribution f.output f'.output := by
  simp only [returnAccount, bind_eq_ok, pure_eq_ok] at h
  obtain ⟨owned, -, rfl⟩ := h
  exact pushes_distribution _ rfl

theorem pushes_returnShare {member : Member} {distributionTime : Nat}
    {rankDistribution : List Asset}
    (h : returnShare p f member distributionTime rankDistribution = .ok f') :
    Pushes p isDistribution f.output f'.output := by
  simp only [returnShare, bind_eq_ok, pure_eq_ok] at h
  obtain ⟨-, -, amount, -, accounts, -, owned, -, rfl⟩ := h
  exact pushes_distribution _ rfl

theorem pushes_returnShares {member : Member} {rows : List Distribution}
    (h : returnShares p member rows f = .ok f') : Pushes p isDistribution f.output f'.output := by
  fun_induction returnShares p member rows f with
  | case1 f t lastProcessed shares rest _ ih =>
      simp only [bind_eq_ok] at h
      obtain ⟨f₁, hshare, h⟩ := h
      exact (pushes_returnShare hshare).trans (ih f₁ h)
  | case2 f t lastProcessed shares rest _ ih => exact ih h
  | case3 f rows _ =>
      cases h
      exact .refl

theorem pushes_onResign {member : Member} (h : onResign p c f member = .ok f') :
    Pushes p isDistribution f.output f'.output := by
  simp only [onResign, bind_eq_ok] at h
  obtain ⟨⟨f₁, started⟩, hsetup, f₂, hreturn, h⟩ := h
  have hreturned : Pushes p isDistribution f₁.output f₂.output :=
    foldlM_preserves (fun g : Treasury => Pushes p isDistribution f₁.output g.output)
      (fun _ _ _ hstep hg => hg.trans (pushes_returnAccount hstep)) _ hreturn .refl
  exact ((pushes_setupDistribution hsetup).trans hreturned).trans (pushes_returnShares h)

theorem pushes_onRename {oldAccount newAccount : Name}
    (h : DistributionTables.onRename p c f oldAccount newAccount = .ok f') :
    Pushes p isDistribution f.output f'.output := by
  simp only [DistributionTables.onRename, bind_eq_ok, pure_eq_ok] at h
  obtain ⟨-, -, ⟨f₁, started⟩, hsetup, rfl⟩ := h
  exact pushes_setupDistribution hsetup

/-! ### Elections -/

/-- Events about certain topics. -/
def about (topics : List Topic) (e : Event) : Prop := topic e ∈ topics

theorem pushes_about {t : Topic} {l : List Topic} {o o' : Output} (ht : t ∈ l)
    (h : Pushes p (fun e => topic e = t) o o') : Pushes p (about l) o o' := by
  refine h.mono fun e he => ?_
  rw [about, he]
  exact ht

/-- The topics of the events of an election. -/
def electionTopics : List Topic := [.election, .distribution]

theorem pushes_donateToMaster {s s' : State} {quantity : Asset}
    (h : donateToMaster p s quantity = .ok s') : Pushes p isDistribution s.output s'.output := by
  simp only [donateToMaster, bind_eq_ok, pure_eq_ok] at h
  obtain ⟨f, hadd, rfl⟩ := h
  exact pushes_addToPool hadd

theorem pushes_startElection {s : State} {seeder : ElectionSeeder} {version : Nat}
    {r : State × InitVoters} (h : startElection p s seeder version = .ok r) :
    Pushes p (about electionTopics) s.output r.1.output := by
  simp only [startElection, bind_eq_ok, pure_eq_ok] at h
  obtain ⟨-, -, t, hstate, ⟨f, started⟩, hsetup, rfl⟩ := h
  have hstarted := (emits_setStateSing hstate).output
  have hended : Pushes p isElection t.output
      (emit p t (.electionEndSeeding seeder.endTime)).output := .event .refl rfl
  have helection := pushes_about (l := electionTopics) (by simp [electionTopics])
    (hstarted.trans hended)
  exact helection.trans (pushes_about (by simp [electionTopics])
    (pushes_setupDistribution hsetup))

theorem pushes_finishElection {s s' : State} {board : List Name} {winner : Name}
    (h : finishElection p s board winner = .ok s') :
    Pushes p (about electionTopics) s.output s'.output := by
  simp only [finishElection, bind_eq_ok] at h
  obtain ⟨results, -, members, -, f, hprocess, h⟩ := h
  have hfunds := pushes_about (l := electionTopics) (by simp [electionTopics])
    (pushes_processElectionRows hprocess)
  refine hfunds.trans (pushes_about (by simp [electionTopics]) (t := .election) ?_)
  have hdefault := emits_setDefaultElection h
  exact (((emits_setBoardPermission _ _).trans (emits_endEvents _ _ _ _ _)).trans hdefault).output

theorem pushes_elections {o o' : Output} (h : Pushes p isElection o o') :
    Pushes p (about electionTopics) o o' := pushes_about (by simp [electionTopics]) h

theorem pushes_beginElection {s : State} {data : InitVoters} {maxSteps : Nat} {r : State × Nat}
    (h : beginElection p s data maxSteps = .ok r) :
    Pushes p (about electionTopics) s.output r.1.output := by
  simp only [beginElection, bind_eq_ok] at h
  obtain ⟨-, -, results, -, g, -, configs, -, config, -, ⟨remaining, next, t⟩, hreport, h⟩ := h
  have hannounced : Emits p isElection s (if data.nextReportIndex = 0 then
      announceElection p s results.lastElectionTime configs.length config else s) := by
    split
    · exact emits_announceElection s _ _ _
    · exact .refl s
  have hreported := hannounced.trans (emits_reportRound hreport)
  split at h
  · simp only [bind_eq_ok, pure_eq_ok] at h
    obtain ⟨u, hu, rfl⟩ := h
    exact pushes_elections (hreported.trans (emits_setStateSing hu)).output
  · split at h
    · simp only [bind_eq_ok, pure_eq_ok] at h
      obtain ⟨⟨u, board⟩, hboard, winner, -, v, hfinish, rfl⟩ := h
      have hextracted := (hreported.trans (emits_election t rfl)).trans (emits_extractBoard hboard)
      exact (pushes_elections hextracted.output).trans (pushes_finishElection hfinish)
    · simp only [bind_eq_ok, pure_eq_ok] at h
      obtain ⟨u, hu, rfl⟩ := h
      have hbegun := (hreported.trans (emits_election t rfl)).trans (emits_setStateSing hu)
      exact pushes_elections hbegun.output

theorem output_visitMembers {members : List Member} {maxSteps : Nat} {b : Ballot}
    {data : InitVoters} {r : Nat × Ballot × InitVoters}
    (h : visitMembers p members maxSteps b data = .ok r) : r.2.1.output = b.output := by
  fun_induction visitMembers p members maxSteps b data with
  | case1 maxSteps b data =>
      cases h
      rfl
  | case2 member rest b data =>
      cases h
      rfl
  | case3 member rest maxSteps b data ih =>
      simp only [bind_eq_ok] at h
      obtain ⟨⟨b₁, data₁⟩, hvisit, h⟩ := h
      refine (ih _ _ h).trans ?_
      unfold visitMember at hvisit
      split at hvisit
      · split at hvisit
        · simp only [bind_eq_ok, pure_eq_ok, Prod.mk.injEq] at hvisit
          obtain ⟨⟨votes, rng⟩, -, rfl, -⟩ := hvisit
          rfl
        · simp only [bind_eq_ok, pure_eq_ok, Prod.mk.injEq] at hvisit
          obtain ⟨members, -, rfl, -⟩ := hvisit
          rfl
      · cases hvisit
        rfl

theorem pushes_initVoters {s : State} {data : InitVoters} {maxSteps : Nat} {r : State × Nat}
    (h : initVoters p s data maxSteps = .ok r) :
    Pushes p (about electionTopics) s.output r.1.output := by
  simp only [initVoters, bind_eq_ok] at h
  obtain ⟨⟨remaining, f⟩, hdistribute, h⟩ := h
  have hpaid := pushes_about (l := electionTopics) (by simp [electionTopics])
    (pushes_distributeMonthly hdistribute)
  split at h
  · cases h
    exact hpaid
  · simp only [bind_eq_ok] at h
    obtain ⟨⟨steps, b, data'⟩, hvisit, h⟩ := h
    have hout : b.output = f.output := output_visitMembers hvisit
    have hvisited : Pushes p (about electionTopics) s.output
        (withBallot (withTreasury s f) b).output := by
      show Pushes p (about electionTopics) s.output b.output
      rw [hout]
      exact hpaid
    split at h
    · simp only [bind_eq_ok, pure_eq_ok] at h
      obtain ⟨u, hu, rfl⟩ := h
      exact hvisited.trans (pushes_elections (emits_setStateSing hu).output)
    · exact hvisited.trans (pushes_beginElection h)

theorem pushes_prepareElection {s : State} {maxSteps : Nat} {r : State × Nat}
    (h : prepareElection p s maxSteps = .ok r) :
    Pushes p (about electionTopics) s.output r.1.output := by
  simp only [prepareElection, bind_eq_ok] at h
  obtain ⟨state, -, h⟩ := h
  split at h
  · split at h
    · cases h
      exact .refl
    · simp only [bind_eq_ok] at h
      obtain ⟨⟨t, data⟩, hstart, h⟩ := h
      exact (pushes_startElection hstart).trans (pushes_initVoters h)
  · exact pushes_initVoters h
  · cases h
    exact .refl

theorem pushes_finishFinal {s s' : State} {seeder : ElectionSeeder}
    (h : finishFinal p s seeder = .ok s') : Pushes p (about electionTopics) s.output s'.output := by
  simp only [finishFinal, bind_eq_ok] at h
  obtain ⟨⟨t, board⟩, hboard, winner, -, h⟩ := h
  exact (emits_extractBoard hboard).output.trans (pushes_finishElection h)

theorem pushes_finishRound {s : State} {maxSteps : Nat} {r : State × Nat}
    (h : finishRound p s maxSteps = .ok r) :
    Pushes p (about electionTopics) s.output r.1.output := by
  unfold finishRound at h
  split at h
  · cases h
    exact .refl
  · simp only [bind_eq_ok] at h
    obtain ⟨results, -, h⟩ := h
    split at h
    · split at h
      · cases h
        exact .refl
      · exact pushes_elections ((emits_election s rfl).trans (emits_finishPostRound h)).output
    · split at h
      · simp only [bind_eq_ok, pure_eq_ok] at h
        obtain ⟨t, hfinish, rfl⟩ := h
        exact pushes_finishFinal hfinish
      · cases h
        exact .refl
    · exact pushes_elections (emits_finishPostRound h).output
    · cases h
      exact .refl

theorem pushes_electprocess {s s' : State} {maxSteps : Nat}
    (h : electprocess p s maxSteps = .ok s') :
    Pushes p (about electionTopics) s.output s'.output := by
  simp only [electprocess, bind_eq_ok, pure_eq_ok] at h
  obtain ⟨g, -, ⟨t, remaining⟩, hprepare, ⟨u, steps⟩, hfinish, -, -, rfl⟩ := h
  exact (pushes_prepareElection hprepare).trans (pushes_finishRound hfinish)

/-! ### Actions -/

/-- The topics of the events that an action may push. -/
def topicsOf : Action → List Topic
  | .donate .. => [.distribution]
  | .genesis .. => [.migration, .distribution, .election]
  | .electsettime _ => [.election]
  | .electconfig .. => [.election]
  | .electseed _ => [.election]
  | .electprocess _ => electionTopics
  | .finishelect _ => [.election]
  | .distribute _ => [.distribution]
  | .inductdonate .. => electionTopics
  | .inductcancel .. => [.session]
  | .inducted _ => [.election]
  | .resign _ => [.distribution, .election, .session]
  | .rename .. => [.distribution, .session]
  | .gc _ => [.session]
  | .migrate _ => [.migration]
  | _ => []

theorem pushes_genesis {env : Env} {s s' : State} {community : Text} {communitySymbol : Symbol}
    {minimumDonation : Asset} {initialMembers : List Name} {genesisVideo : Text}
    {auctionStartingBid : Asset} {auctionDuration electionDay : Nat} {electionTime : Text}
    (h : genesis p env s community communitySymbol minimumDonation initialMembers genesisVideo
      auctionStartingBid auctionDuration electionDay electionTime = .ok s') :
    Pushes p (about [.migration, .distribution, .election]) s.output s'.output := by
  simp only [genesis, bind_eq_ok, pure_eq_ok] at h
  obtain ⟨-, -, -, -, -, -, -, -, f, hpool, owned, -, t, htime, ⟨u, next⟩, hcreate, rfl⟩ := h
  have hmigrated : Pushes p (fun e => topic e = .migration) s.output
      (pushEvent p s.output (.migration 5)) := .event .refl rfl
  have hpools := (pushes_about (l := [.migration, .distribution, .election]) (by simp)
    hmigrated).trans (pushes_about (by simp) (pushes_emplaceMasterPool hpool))
  have hdated := hpools.trans (pushes_about (by simp) (emits_setTime htime).output)
  have hlinked := hdated.trans ((emits_setBoardPermission t []).trans (Emits.perform _ .linkauth)).output
  have hcreated : u.output = (perform (setBoardPermission p t []) .linkauth).output :=
    foldlM_preserves (fun acc : State × Nat => acc.1.output =
        (perform (setBoardPermission p t []) .linkauth).output)
      (fun acc invitee acc' hstep hacc => by
        simp only [createGenesisMember, bind_eq_ok, pure_eq_ok] at hstep
        obtain ⟨members, -, inductions, -, inductions', -, rfl⟩ := hstep
        exact hacc) _ hcreate rfl
  refine hlinked.trans ?_
  rw [← hcreated]
  exact .external .refl

theorem emits_addtogenesis {P : Event → Prop} {env : Env} {s s' : State} {newmember : Name}
    {expiration : Int} (h : addtogenesis p env s newmember expiration = .ok s') :
    Emits p P s s' := by
  simp only [addtogenesis, bind_eq_ok] at h
  obtain ⟨-, -, g, -, -, -, members, -, t, -, first, -, t₁, -, induction, -, t₂, -, t₃, -, h⟩ := h
  have hmints : Emits p P { s with members := members, inductions := t₃ } s' := by
    refine Emits.foldlM (f := mintForMember p env newmember) ?_ _ h
    intro u member u' hmint
    unfold mintForMember at hmint
    split at hmint
    · simp only [bind_eq_ok] at hmint
      obtain ⟨locked, -, hmint⟩ := hmint
      split at hmint
      · cases hmint
        exact .refl u
      · exact emits_mintNft hmint
    · cases hmint
      exact .refl u
  exact hmints.after rfl rfl

theorem emits_gc {env : Env} {s s' : State} {limit : Nat} (h : gc p env s limit = .ok s') :
    Emits p isSession s s' := by
  simp only [gc, bind_eq_ok] at h
  obtain ⟨g, -, ⟨remaining, t⟩, hauctions, -, -, h⟩ := h
  have hfinished : Emits p isSession s (gcSessions p remaining t).2 :=
    ((emits_finishAuctions hauctions).trans (emits_gcSessions remaining t)).after rfl rfl
  split at h
  · cases h
    exact hfinished
  · simp only [bind_eq_ok] at h
    obtain ⟨u, hremoved, h⟩ := h
    exact (hfinished.trans (Emits.foldlM (fun _ _ _ hstep => emits_removeIfPending hstep) _
      hremoved)).trans (emits_maybeActivateContract h)

theorem emits_inductcancel {env : Env} {s s' : State} {account : Name} {id : Nat}
    (h : inductcancel p env s account id = .ok s') : Emits p isSession s s' := by
  simp only [inductcancel, bind_eq_ok] at h
  obtain ⟨-, -, g, -, allowed, -, -, -, induction, -, h⟩ := h
  split at h
  · cases h
    exact .of_eq rfl rfl
  · simp only [bind_eq_ok] at h
    obtain ⟨t, hremove, h⟩ := h
    have hremoved : Emits p isSession s t := (emits_removeIfPending hremove).after rfl rfl
    split at h
    · simp only [bind_eq_ok] at h
      obtain ⟨inductions, -, h⟩ := h
      have hactivated : Emits p isSession t s' := (emits_maybeActivateContract h).after rfl rfl
      exact hremoved.trans hactivated
    · cases h
      exact hremoved

theorem pushes_resign {env : Env} {s s' : State} {account : Name}
    (h : resign p env s account = .ok s') :
    Pushes p (about [.distribution, .election, .session]) s.output s'.output := by
  simp only [resign, bind_eq_ok, pure_eq_ok] at h
  obtain ⟨-, -, g, -, -, -, member, -, f, hfunds, t, helections, u, hremove, rfl⟩ := h
  have hreturned := pushes_about (l := [.distribution, .election, .session]) (by simp)
    (pushes_onResign hfunds)
  have hleft := hreturned.trans (pushes_about (by simp) (emits_electionsOnResign helections).output)
  exact hleft.trans (pushes_about (by simp) (emits_remove hremove).output)

theorem pushes_renameAccount {env : Env} {s s' : State} {account newAccount : Name}
    (h : renameAccount p env s account newAccount = .ok s') :
    Pushes p (about [.distribution, .session]) s.output s'.output := by
  simp only [renameAccount, bind_eq_ok, pure_eq_ok] at h
  obtain ⟨-, -, -, -, g, -, user, -, -, -, f, hfunds, t, helections, inductions, -, u, hrename, -,
    -, rfl⟩ := h
  have hmoved := pushes_about (l := [.distribution, .session]) (by simp)
    (pushes_onRename hfunds)
  have hboard := hmoved.trans (emits_electionsOnRename helections).output
  exact hboard.trans (pushes_about (by simp) (emits_rename hrename).output)

/-- The actions that nest other entries between theirs. -/
def nests : Action → Bool
  | .withdraw .. => true
  | .inductdonate .. => true
  | _ => false

/-- The actions that change the distributions. -/
def distributes : Action → Bool
  | .donate .. => true
  | .fundtransfer .. => true
  | .genesis .. => true
  | .clearall => true
  | .electprocess _ => true
  | .distribute _ => true
  | .inductdonate .. => true
  | .resign _ => true
  | .rename .. => true
  | _ => false

theorem emits_about {t : Topic} {topics : List Topic} {s s' : State} (ht : t ∈ topics)
    (h : Emits p (fun e => topic e = t) s s') : Emits p (about topics) s s' :=
  ⟨pushes_about ht h.output, h.distributions⟩

theorem emits_dispatch {env : Env} {s s' : State} {a : Action} (hplain : nests a = false)
    (hfunds : distributes a = false) (h : dispatch p env s a = .ok s') :
    Emits p (about (topicsOf a)) s s' := by
  cases a with
  | withdraw => exact absurd hplain (by simp [nests])
  | donate | fundtransfer | genesis | clearall | electprocess | distribute
  | inductdonate | resign | rename => exact absurd hfunds (by simp [distributes])
  | usertransfer sender receiver amount memo =>
      simp only [dispatch, usertransfer, bind_eq_ok, pure_eq_ok] at h
      obtain ⟨-, -, user, -, user', -, rfl⟩ := h
      exact .of_eq rfl rfl
  | addtogenesis => exact emits_addtogenesis h
  | gensetexpire inductionId newExpiration =>
      simp only [dispatch, gensetexpire, bind_eq_ok, pure_eq_ok] at h
      obtain ⟨-, -, g, -, induction, -, -, -, inductions, -, rfl⟩ := h
      exact .of_eq rfl rfl
  | inductinit id inviter invitee witnesses =>
      simp only [dispatch, inductinit, bind_eq_ok, pure_eq_ok] at h
      obtain ⟨-, -, g, -, -, -, -, -, -, -, members, -, inductions, -, rfl⟩ := h
      exact .of_eq rfl rfl
  | inductmeetin account id keys data oldData =>
      simp only [dispatch, inductmeetin, bind_eq_ok, pure_eq_ok] at h
      obtain ⟨-, -, g, -, -, -, -, -, induction, -, -, -, encrypted, -, rfl⟩ := h
      exact .of_eq rfl rfl
  | inductprofil id profile =>
      simp only [dispatch, inductprofil, bind_eq_ok, pure_eq_ok] at h
      obtain ⟨g, -, induction, -, -, -, -, -, t, -, rfl⟩ := h
      exact .of_eq rfl rfl
  | inductvideo account id video =>
      simp only [dispatch, inductvideo, bind_eq_ok, pure_eq_ok] at h
      obtain ⟨-, -, g, -, induction, -, -, -, -, -, -, -, t, -, rfl⟩ := h
      exact .of_eq rfl rfl
  | inductendors account id hash =>
      simp only [dispatch, inductendors, bind_eq_ok, pure_eq_ok] at h
      obtain ⟨-, -, g, -, induction, -, -, -, -, -, -, -, t, -, rfl⟩ := h
      exact .of_eq rfl rfl
  | setencpubkey member key =>
      simp only [dispatch, bind_eq_ok, pure_eq_ok] at h
      obtain ⟨-, -, g, -, members, -, rfl⟩ := h
      exact .of_eq rfl rfl
  | electsettime electionTime =>
      simp only [dispatch, electsettime, bind_eq_ok] at h
      obtain ⟨-, -, g, -, h⟩ := h
      exact emits_about (by simp [topicsOf]) (emits_setNextElectionTime h)
  | electconfig electionDay electionTime roundDuration =>
      simp only [dispatch, electconfig, bind_eq_ok, pure_eq_ok] at h
      obtain ⟨-, -, t, htime, g, -, rfl⟩ := h
      exact emits_about (by simp [topicsOf]) ((emits_setTime htime).trans (.of_eq rfl rfl))
  | electopt voter participating =>
      simp only [dispatch, electopt, bind_eq_ok, pure_eq_ok] at h
      obtain ⟨-, -, g, -, members, -, rfl⟩ := h
      exact .of_eq rfl rfl
  | electseed btcHeader =>
      simp only [dispatch, bind_eq_ok] at h
      obtain ⟨g, -, h⟩ := h
      exact emits_about (by simp [topicsOf]) (emits_seed h)
  | electmeeting account round keys data oldData =>
      simp only [dispatch, electmeeting, bind_eq_ok, pure_eq_ok] at h
      obtain ⟨-, -, g, -, groupId, -, group, -, -, -, encrypted, -, rfl⟩ := h
      exact .of_eq rfl rfl
  | electvote round voter candidate =>
      simp only [dispatch, vote, bind_eq_ok, pure_eq_ok] at h
      obtain ⟨-, -, g, -, state, -, -, -, own, -, other, -, -, -, rfl⟩ := h
      exact .of_eq rfl rfl
  | electvideo round voter video =>
      simp only [dispatch, electvideo, bind_eq_ok, pure_eq_ok] at h
      obtain ⟨-, -, g, -, decided, -, -, -, -, -, rfl⟩ := h
      exact .of_eq rfl rfl
  | finishelect electionTime =>
      simp only [dispatch, finishelect, finishCurrElection, bind_eq_ok] at h
      obtain ⟨-, -, g, -, h⟩ := h
      exact emits_about (by simp [topicsOf]) (emits_setStateSing h)
  | changerank contract ranks =>
      simp only [dispatch, changerank, bind_eq_ok, pure_eq_ok] at h
      obtain ⟨-, -, g, -, -, -, rfl⟩ := h
      exact .of_eq rfl rfl
  | clearrank contract ranks =>
      simp only [dispatch, clearrank, bind_eq_ok, pure_eq_ok] at h
      obtain ⟨-, -, g, -, -, -, rfl⟩ := h
      exact .of_eq rfl rfl
  | bylawspropose proposer text =>
      simp only [dispatch, bylawspropose, bind_eq_ok, pure_eq_ok] at h
      obtain ⟨-, -, t, -, rfl⟩ := h
      exact .of_eq rfl rfl
  | bylawsapprove approver hash | bylawsratify approver hash =>
      simp only [dispatch, approveBylaws, bind_eq_ok, pure_eq_ok] at h
      obtain ⟨-, -, t, -, rfl⟩ := h
      exact .of_eq rfl rfl
  | inductcancel account id => exact emits_about (by simp [topicsOf]) (emits_inductcancel h)
  | inducted inductee => exact emits_about (by simp [topicsOf]) (emits_inducted h)
  | gc limit => exact emits_about (by simp [topicsOf]) (emits_gc h)
  | migrate maxSteps =>
      simp only [dispatch, migrate, migrateSome, bind_eq_ok, pure_eq_ok] at h
      obtain ⟨⟨remaining, t⟩, hmigrate, -, -, rfl⟩ := h
      exact emits_about (by simp [topicsOf]) (emits_migrateFrom hmigrate)
  | unmigrate =>
      simp only [dispatch, unmigrate, bind_eq_ok, pure_eq_ok] at h
      obtain ⟨-, -, g, -, rfl⟩ := h
      exact .of_eq rfl rfl

theorem pushes_dispatch {env : Env} {s s' : State} {a : Action} (hplain : nests a = false)
    (h : dispatch p env s a = .ok s') : Pushes p (about (topicsOf a)) s.output s'.output := by
  by_cases hfunds : distributes a = false
  · exact (emits_dispatch hplain hfunds h).output
  · cases a with
    | inductdonate => exact absurd hplain (by simp [nests])
    | donate owner quantity =>
        simp only [dispatch, donate, bind_eq_ok] at h
        obtain ⟨-, -, g, -, -, -, -, -, -, -, user, -, h⟩ := h
        have hdonated := pushes_donateToMaster h
        exact pushes_about (by simp [topicsOf]) hdonated
    | fundtransfer sender distributionTime rank receiver amount memo =>
        simp only [dispatch, fundtransfer, bind_eq_ok, pure_eq_ok] at h
        obtain ⟨-, -, accounts, -, user, -, rfl⟩ := h
        exact .refl
    | genesis => exact pushes_genesis h
    | clearall =>
        simp only [dispatch, clearall, bind_eq_ok, pure_eq_ok] at h
        obtain ⟨-, -, g, -, rfl⟩ := h
        exact .refl
    | electprocess maxSteps => exact pushes_electprocess h
    | distribute maxSteps =>
        simp only [dispatch, distribute, bind_eq_ok, pure_eq_ok] at h
        obtain ⟨g, -, ⟨remaining, f⟩, hdistribute, -, -, rfl⟩ := h
        exact pushes_about (by simp [topicsOf]) (pushes_distributeMonthly hdistribute)
    | resign account => exact pushes_resign h
    | rename account newAccount => exact pushes_renameAccount h
    | _ => exact absurd rfl hfunds

/-! ### Calls -/

/-- Entries with events about certain topics, and actions of other contracts. -/
def Permitted (topics : List Topic) : Executed → Prop
  | .events batch => ∀ e ∈ batch, about topics e
  | .external _ => True
  | _ => False

/-- What an action leaves in the trace after itself. -/
def Follows (p : Platform) (a : Action) (x : Executed) : Prop :=
  Permitted (topicsOf a) x ∨
    match a with
    | .withdraw owner quantity => x = .transfer p.self edenDelegate quantity (nameToText owner)
    | .inductdonate .. => ∃ inductee, x = .action (.inducted inductee)
    | _ => False

/-- An output that has grown by what an action may leave. -/
structure Appends (p : Platform) (a : Action) (o o' : Output) : Prop where
  executed : ∃ l, o'.executed = o.executed ++ l ∧ ∀ x ∈ l, Follows p a x
  serializedEvents : ∀ e ∈ o'.serializedEvents, about (topicsOf a) e

variable {a : Action} {o₀ o o' : Output}

theorem Appends.entry {x : Executed} (h : Appends p a o₀ o) (hx : Follows p a x) :
    Appends p a o₀ { o with executed := o.executed ++ [x] } := by
  obtain ⟨⟨l, hexecuted, hl⟩, hevents⟩ := h
  refine ⟨⟨l ++ [x], ?_, ?_⟩, hevents⟩
  · rw [hexecuted, List.append_assoc]
  · exact List.forall_mem_append.mpr ⟨hl, List.forall_mem_singleton.mpr hx⟩

/-- Other events may stand at the end. -/
theorem Appends.instead {events : List Event} (h : Appends p a o₀ o)
    (hevents : ∀ e ∈ events, about (topicsOf a) e) :
    Appends p a o₀ { o with serializedEvents := events } := ⟨h.executed, hevents⟩

theorem Appends.sendEvents (h : Appends p a o₀ o) : Appends p a o₀ (sendEvents o) := by
  unfold Runtime.sendEvents
  split
  · exact h
  · have hbatch : Permitted (topicsOf a) (.events o.serializedEvents) := h.serializedEvents
    exact (h.entry (.inl hbatch)).instead (by simp)

theorem Appends.event {e : Event} (h : Appends p a o₀ o) (he : about (topicsOf a) e) :
    Appends p a o₀ (pushEvent p o e) := by
  have hpush : ∀ {u : Output}, Appends p a o₀ u →
      Appends p a o₀ { u with serializedEvents := u.serializedEvents ++ [e] } := by
    intro u hu
    refine hu.instead (List.forall_mem_append.mpr ⟨hu.serializedEvents, ?_⟩)
    exact List.forall_mem_singleton.mpr he
  simp only [pushEvent]
  split
  · exact hpush h.sendEvents
  · exact hpush h

theorem Appends.pushes (h₀ : Appends p a o₀ o) (h : Pushes p (about (topicsOf a)) o o') :
    Appends p a o₀ o' := by
  induction h with
  | refl => exact h₀
  | event _ he ih => exact ih.event he
  | external _ ih => exact ih.entry (.inl trivial)

theorem serializedEvents_sendEvents (o : Output) : (sendEvents o).serializedEvents = [] := by
  unfold sendEvents
  split
  · assumption
  · rfl

theorem appends_createNft {env : Env} {g : Globals} {s s' : State} {induction : Induction}
    (hnests : ∃ payer id quantity, a = .inductdonate payer id quantity)
    (h : createNft p env g s induction = .ok s') (h₀ : Appends p a o₀ s.output) :
    Appends p a o₀ s'.output := by
  obtain ⟨payer, id, quantity, rfl⟩ := hnests
  simp only [createNft, bind_eq_ok, pure_eq_ok] at h
  obtain ⟨inductions, -, t, htemplate, u, hinducted, rfl⟩ := h
  have hstart : Appends p (.inductdonate payer id quantity) o₀
      { s.output with serializedEvents := [] } := h₀.instead (by simp)
  have hminted := hstart.pushes (emits_createTemplate htemplate).output
  have hcalled := hminted.entry (x := .action (.inducted induction.invitee)) (.inr ⟨_, rfl⟩)
  have hdone := hcalled.pushes (pushes_about (by simp [topicsOf, electionTopics])
    (emits_inducted hinducted).output)
  exact hdone.sendEvents.instead h₀.serializedEvents

theorem appends_dispatch {env : Env} {s s' : State} (hclean : s.output.serializedEvents = [])
    (h : dispatch p env (record s (.action a)) a = .ok s') :
    Appends p a (record s (.action a)).output s'.output := by
  have hstart : Appends p a (record s (.action a)).output (record s (.action a)).output :=
    ⟨⟨[], by simp, by simp⟩, by simp [record, hclean]⟩
  by_cases hplain : nests a = false
  · exact hstart.pushes (pushes_dispatch hplain h)
  · cases a with
    | withdraw owner quantity =>
        simp only [dispatch, withdraw, bind_eq_ok] at h
        obtain ⟨-, -, g, -, -, -, user, -, migration, -, outgoing, -, h⟩ := h
        obtain ⟨-, tokens, owner', outgoing', -, -, -, rfl⟩ := tokenTransfer_out h
        exact (hstart.entry (.inr rfl)).sendEvents
    | inductdonate payer id quantity =>
        simp only [dispatch, inductdonate, bind_eq_ok] at h
        obtain ⟨-, -, g, -, induction, -, -, -, -, -, same, -, -, -, user, -, migration, -, t, ht,
          h⟩ := h
        refine appends_createNft ⟨payer, id, quantity, rfl⟩ h ?_
        split at ht
        · have hdonated := pushes_donateToMaster ht
          exact hstart.pushes (pushes_about (by simp [topicsOf, electionTopics]) hdonated)
        · cases ht
          exact hstart
    | _ => exact absurd rfl hplain

/-- What the execution of an action adds to the trace. -/
theorem executed_action {env : Env} {s s' : State} (hclean : s.output.serializedEvents = [])
    (h : exec p env s (.action a) = .ok s') :
    ∃ l, s'.output.executed = s.output.executed ++ .action a :: l ∧ ∀ x ∈ l, Follows p a x := by
  simp only [exec, applyAction, bind_eq_ok, pure_eq_ok] at h
  obtain ⟨t, hdispatch, rfl⟩ := h
  obtain ⟨⟨l, hexecuted, hl⟩, -⟩ := (appends_dispatch hclean hdispatch).sendEvents
  refine ⟨l, ?_, hl⟩
  rw [hexecuted, record, List.append_assoc]
  rfl

/-- The entries that a call may add to the trace. -/
def Reported (p : Platform) : Call → Executed → Prop
  | .action a, x => x = .action a ∨ Follows p a x
  | .transfer sender receiver quantity memo, x =>
      x = .transfer sender receiver quantity memo ∨ Permitted [.distribution] x
  | _, x => Permitted [] x

theorem executed_transfer {env : Env} {s s' : State} {sender receiver : Name} {quantity : Asset}
    {memo : Text} (hclean : s.output.serializedEvents = [])
    (h : tokenTransfer p env s sender receiver quantity memo = .ok s') :
    ∃ l, s'.output.executed =
        s.output.executed ++ .transfer sender receiver quantity memo :: l ∧
      ∀ x ∈ l, Permitted [.distribution] x := by
  simp only [tokenTransfer, bind_eq_ok, pure_eq_ok] at h
  obtain ⟨-, -, -, -, -, -, -, -, -, -, tokens, -, tokens', -, t, hnotify, rfl⟩ := h
  -- a donation to the pool is an action with the same events
  have hstart : Appends p (.distribute 0)
      (record s (.transfer sender receiver quantity memo)).output
      (record s (.transfer sender receiver quantity memo)).output :=
    ⟨⟨[], by simp, by simp⟩, by simp [record, hclean]⟩
  have hpushes : Pushes p (about (topicsOf (.distribute 0)))
      (record s (.transfer sender receiver quantity memo)).output t.output := by
    unfold notifyTransfer at hnotify
    split at hnotify
    · simp only [bind_eq_ok, pure_eq_ok] at hnotify
      obtain ⟨g, -, owner, -, outgoing, -, rfl⟩ := hnotify
      exact .refl
    · split at hnotify
      · cases hnotify
        exact .refl
      · simp only [bind_eq_ok] at hnotify
        obtain ⟨g, -, -, -, hnotify⟩ := hnotify
        split at hnotify
        · simp only [bind_eq_ok, pure_eq_ok] at hnotify
          obtain ⟨user, -, migration, -, rfl⟩ := hnotify
          exact .refl
        · split at hnotify
          · have hdonated := pushes_donateToMaster hnotify
            exact pushes_about (by simp [topicsOf]) hdonated
          · cases hnotify
            exact .refl
  obtain ⟨⟨l, hexecuted, hl⟩, -⟩ := (hstart.pushes hpushes).sendEvents
  refine ⟨l, ?_, ?_⟩
  · rw [hexecuted, record, List.append_assoc]
    rfl
  · intro x hx
    rcases hl x hx with hx | hx
    · exact hx
    · exact hx.elim

theorem executed_notice {s s' : State} (h : Pushes p (fun _ => False) s.output s'.output) :
    ∃ l, s'.output.executed = s.output.executed ++ l ∧ ∀ x ∈ l, Permitted [] x := by
  generalize s'.output = o' at h
  induction h with
  | refl => exact ⟨[], by simp, by simp⟩
  | event _ he _ => exact he.elim
  | @external _ action _ ih =>
      obtain ⟨l, hexecuted, hl⟩ := ih
      refine ⟨l ++ [.external action], ?_, ?_⟩
      · rw [sendAction, hexecuted, List.append_assoc]
      · exact List.forall_mem_append.mpr ⟨hl, List.forall_mem_singleton.mpr trivial⟩

theorem executed_call {env : Env} {s s' : State} {call : Call}
    (hclean : s.output.serializedEvents = []) (h : exec p env s call = .ok s') :
    ∃ l, s'.output.executed = s.output.executed ++ l ∧ ∀ x ∈ l, Reported p call x := by
  cases call with
  | action a =>
      obtain ⟨l, hexecuted, hl⟩ := executed_action hclean h
      refine ⟨.action a :: l, hexecuted, ?_⟩
      exact List.forall_mem_cons.mpr ⟨.inl rfl, fun x hx => .inr (hl x hx)⟩
  | transfer sender receiver quantity memo =>
      simp only [exec] at h
      split at h
      · simp only [bind_eq_ok] at h
        obtain ⟨-, -, h⟩ := h
        obtain ⟨l, hexecuted, hl⟩ := executed_transfer hclean h
        refine ⟨.transfer sender receiver quantity memo :: l, hexecuted, ?_⟩
        exact List.forall_mem_cons.mpr ⟨.inl rfl, fun x hx => .inr (hl x hx)⟩
      · cases h
        exact ⟨[], by simp, by simp⟩
  | lognewtempl => exact executed_notice (emits_notifyLognewtempl h).output
  | logmint => exact executed_notice (emits_notifyLogmint h).output

/-- Calls add to the trace only, and send all their events. -/
theorem executed_moves {allowed : State → Call → Prop} {s s' : State}
    (hclean : s.output.serializedEvents = [])
    (h : Relation.ReflTransGen (Move p allowed) s s') :
    s.output.executed <+: s'.output.executed ∧ s'.output.serializedEvents = [] := by
  refine Machine.moves_preserve (fun t : State =>
    s.output.executed <+: t.output.executed ∧ t.output.serializedEvents = []) ?_ h
    ⟨List.prefix_refl _, hclean⟩
  rintro t t' hmove ⟨hgrown, hsent⟩
  rcases move_cases hmove with ⟨now, -, -, rfl⟩ | ⟨env, call, -, hexec⟩
  · exact ⟨hgrown, hsent⟩
  · obtain ⟨l, hexecuted, -⟩ := executed_call hsent hexec
    exact ⟨hgrown.trans ⟨l, hexecuted.symm⟩, (exec_steps hsent hexec).2⟩

end Eden.CallTraces
