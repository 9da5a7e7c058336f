import Eden.CatchUpLoop
import Eden.Electorate

/-!
The order of the distributions in their table: those being paid out come first, then those that
wait for the end of an election, and the one that is still to come is last.
-/

namespace Eden.DistributionShape

open Eden.ExceptReasoning
open Eden.SortedTable
open Eden.TransactionRuns
open Eden.ChainPrimitives
open Eden.ContractState
open Eden.Runtime
open Eden.AccountTables
open Eden.DistributionTables
open Eden.ElectionPhases
open Eden.ContractActions
open Eden.Transactions
open Eden.ContractSteps
open Eden.ActionSteps
open Eden.HostFunctions
open Eden.Electorate
open Eden.ElectionSchedule (step_now)
open Eden.TreasuryFunds
open Eden.SoundTreasury
open Eden.CatchUpLoop (electionAt electionAt_now)

variable {p : Platform} {call : Call} {c : Calendar} {f f' : Treasury}

/-! ### Turns of the loop of `setup_distribution` -/

/-- What a turn makes of the row of its distribution, and of the distribution accounts. -/
inductive Opened (p : Platform) (c : Calendar) (time : Nat) (d : Distributions) :
    Schedule → Table DistributionAccount.id → Prop
  | current {total used : Asset} {shares : List Asset} {accounts : Table DistributionAccount.id} :
      electionAfter c time = true → makeDistribution c.ranks total = .ok (shares, used) →
      emplaceAccount d.accounts p.self time 0 used = .ok accounts →
      Opened p c time d (d.table.replace (.current time emptyName shares)) accounts
  | election {total : Asset} {accounts : Table DistributionAccount.id} :
      electionAfter c time = false → emplaceAccount d.accounts p.self time 0 total = .ok accounts →
      Opened p c time d (d.table.replace (.election time total)) accounts
  | nothing : Opened p c time d (d.table.erase time) d.accounts

theorem returnExcess_distributions {time : Nat} {total used : Asset}
    (h : returnExcess p f time total used = .ok f') : f'.distributions = f.distributions := by
  simp only [returnExcess, bind_eq_ok] at h
  obtain ⟨same, -, h⟩ := h
  split at h
  · cases h
    rfl
  · simp only [bind_eq_ok, pure_eq_ok] at h
    obtain ⟨excess, -, owned, -, rfl⟩ := h
    rfl

theorem fundDistribution_opened {time : Nat} {total : Asset}
    (h : fundDistribution p c f time total = .ok f') :
    Opened p c time f.distributions f'.distributions.table f'.distributions.accounts := by
  unfold fundDistribution at h
  split at h
  · simp only [bind_eq_ok, pure_eq_ok] at h
    obtain ⟨⟨f₁, used⟩, hopen, f₂, hexcess, accounts, haccounts, rfl⟩ := h
    have hsame := returnExcess_distributions hexcess
    dsimp only at haccounts ⊢
    rw [hsame] at haccounts ⊢
    unfold openDistribution at hopen
    split at hopen
    · rename_i hafter
      simp only [bind_eq_ok, pure_eq_ok, Prod.mk.injEq] at hopen
      obtain ⟨⟨shares, amount⟩, hshares, rfl, rfl⟩ := hopen
      exact .current hafter hshares haccounts
    · rename_i hafter
      simp only [pure_eq_ok, Prod.mk.injEq] at hopen
      obtain ⟨rfl, rfl⟩ := hopen
      exact .election (Bool.eq_false_iff.mpr hafter) haccounts
  · cases h
    exact .nothing

theorem reservePool_distributions {time : Nat} {prorateNum : Option Nat}
    {acc acc' : Treasury × Asset} {pool : Pool}
    (h : reservePool p time prorateNum acc pool = .ok acc') :
    acc'.1.distributions = acc.1.distributions := by
  unfold reservePool at h
  split at h
  · cases h
    rfl
  · simp only [bind_eq_ok, pure_eq_ok] at h
    obtain ⟨amount, -, owned, -, total, -, rfl⟩ := h
    rfl

/-- A turn opens its distribution and announces the next one. -/
theorem startDistribution_opened {time : Nat} (h : startDistribution p c f time = .ok f') :
    ∃ table, Opened p c time f.distributions table f'.distributions.accounts ∧
      table.emplace? (.next (nextDistribution c time).1) = some f'.distributions.table := by
  simp only [startDistribution, bind_eq_ok] at h
  obtain ⟨f₁, hpool, ⟨f₂, total⟩, hreserve, f₃, hfund, h⟩ := h
  have hpools : f₁.distributions.table = f.distributions.table ∧
      f₁.distributions.accounts = f.distributions.accounts := by
    split at hpool
    · simp only [emplaceMasterPool, bind_eq_ok, pure_eq_ok] at hpool
      obtain ⟨pools, -, rfl⟩ := hpool
      exact ⟨rfl, rfl⟩
    · cases hpool
      exact ⟨rfl, rfl⟩
  have hreserved : f₂.distributions = f₁.distributions :=
    foldlM_preserves (fun acc : Treasury × Asset => acc.1.distributions = f₁.distributions)
      (fun _ _ _ hstep hacc => (reservePool_distributions hstep).trans hacc) _ hreserve rfl
  simp only [scheduleDistribution, bind_eq_ok, expect_eq_ok, pure_eq_ok] at h
  obtain ⟨table, htable, rfl⟩ := h
  refine ⟨f₃.distributions.table, ?_, htable⟩
  have hopened := fundDistribution_opened hfund
  rw [hreserved] at hopened
  generalize f₃.distributions.table = t at hopened ⊢
  generalize f₃.distributions.accounts = accounts at hopened
  cases hopened with
  | current hafter hshares haccounts =>
      rw [hpools.2] at haccounts
      rw [hpools.1]
      exact .current hafter hshares haccounts
  | election hafter haccounts =>
      rw [hpools.2] at haccounts
      rw [hpools.1]
      exact .election hafter haccounts
  | nothing =>
      rw [hpools.1, hpools.2]
      exact .nothing

/-- The distribution of a turn has begun. -/
theorem Opened.begun {time : Nat} {d : Distributions} {table : Schedule}
    {accounts : Table DistributionAccount.id} (h : Opened p c time d table accounts)
    (hnext : NextAt time d.table) : Begun time table := by
  cases h with
  | current => exact hnext.begin rfl rfl
  | election => exact hnext.begin rfl rfl
  | nothing => exact hnext.drop

/-- What holds of the distributions after each turn holds after the loop. -/
theorem setupFrom_induct (Inv : Distributions → Prop)
    (hturn : ∀ time d d' table, time ≤ c.now → NextAt time d.table → Inv d →
      Opened p c time d table d'.accounts →
      table.emplace? (.next (nextDistribution c time).1) = some d'.table → Inv d')
    {fuel time : Nat} {result : Bool} {r : Treasury × Bool} (hend : beforeEnd c.now)
    (hnext : NextAt time f.distributions.table) (hpos : 0 < time) (hf : Inv f.distributions)
    (h : setupFrom p c fuel f (.next time) result = .ok r) :
    Inv r.1.distributions ∧ ∃ next, 0 < next ∧ NextAt next r.1.distributions.table := by
  induction fuel generalizing f time result with
  | zero => cases h
  | succ fuel ih =>
      simp only [setupFrom] at h
      split at h
      · cases h
        exact ⟨hf, time, hpos, hnext⟩
      · rename_i hdue
        simp only [bind_eq_ok] at h
        obtain ⟨f₁, hstart, h⟩ := h
        have hwrap : time + 2 * month < 2 ^ 32 := by
          unfold beforeEnd at hend
          omega
        obtain ⟨hlater, -⟩ := nextDistribution_later (c := c) hwrap
        obtain ⟨table, hopened, htable⟩ := startDistribution_opened hstart
        have hf₁ : Inv f₁.distributions :=
          hturn time f.distributions f₁.distributions table (not_lt.mp hdue) hnext hf hopened htable
        exact ih ((hopened.begun hnext).schedule hlater htable) (by omega) hf₁ h

theorem nextAt_of_empty {t t' : Schedule} {time : Nat} (hempty : t.rows = [])
    (h : t.emplace? (.next time) = some t') : NextAt time t' ∧ ∀ row ∈ t'.rows, row = .next time := by
  have hrows : ∀ row ∈ t'.rows, row = .next time := by
    intro row hrow
    rcases (Table.mem_emplace? h).mp hrow with rfl | hrow
    · rfl
    · rw [hempty] at hrow
      cases hrow
  exact ⟨⟨(Table.mem_emplace? h).mpr (.inl rfl), fun row hrow => .inl (hrows row hrow)⟩, hrows⟩

/-- The rule for `setup_distribution`: what its turns keep is kept, from the first announcement
on. -/
theorem setupDistribution_induct (Inv : Distributions → Prop) {init : Nat}
    (hfirst : ∀ d d' : Distributions, d.table.rows = [] → d'.accounts = d.accounts →
      d.table.emplace? (.next init) = some d'.table → Inv d → Inv d')
    (hturn : ∀ time d d' table, time ≤ c.now → NextAt time d.table → Inv d →
      Opened p (electionAt c init) time d table d'.accounts →
      table.emplace? (.next (nextDistribution (electionAt c init) time).1) = some d'.table →
      Inv d')
    {r : Treasury × Bool} (hend : beforeEnd c.now) (hplanned : Planned f.distributions.table)
    (hf : Inv f.distributions) (h : setupDistribution p c f init = .ok r) :
    Inv r.1.distributions ∧ Planned r.1.distributions.table := by
  have hdef : (if init = 0 then c else { c with nextElectionTime := some init }) =
      electionAt c init := rfl
  have hend' : beforeEnd (electionAt c init).now := by
    rw [electionAt_now]
    exact hend
  have hturn' := hturn
  simp only [← electionAt_now c init] at hturn'
  simp only [setupDistribution, hdef] at h
  split at h
  · rename_i last hlast
    obtain ⟨time, hpos, hnext, rfl⟩ := hplanned.next hlast
    obtain ⟨hr, next, hpos', hnext'⟩ := setupFrom_induct Inv hturn' hend' hnext hpos hf h
    exact ⟨hr, .inr ⟨next, hpos', hnext'⟩⟩
  · rename_i hnone
    split at h
    · cases h
      exact ⟨hf, hplanned⟩
    · rename_i hinit
      simp only [bind_eq_ok, scheduleDistribution, expect_eq_ok, pure_eq_ok] at h
      obtain ⟨f₁, ⟨table, htable, rfl⟩, h⟩ := h
      have hempty := List.getLast?_eq_none_iff.mp hnone
      obtain ⟨hnext, -⟩ := nextAt_of_empty hempty htable
      have hf₁ : Inv { f.distributions with table := table } :=
        hfirst f.distributions _ hempty rfl htable hf
      obtain ⟨hr, next, hpos', hnext'⟩ :=
        setupFrom_induct (c := electionAt c init) Inv hturn' hend' hnext (Nat.pos_of_ne_zero hinit)
          hf₁ h
      exact ⟨hr, .inr ⟨next, hpos', hnext'⟩⟩

/-! ### The order of the rows -/

def isCurrent : Distribution → Bool
  | .current .. => true
  | _ => false

/-- Whether a distribution waits for the end of an election. -/
def isElection : Distribution → Bool
  | .election .. => true
  | _ => false

/-- Distributions that have begun lie in the past; those that wait for an election come after
those that are being paid out, and not before the date of the next election. -/
structure Lined (now : Nat) (date : Option Nat) (t : Schedule) : Prop where
  begun : ∀ row ∈ t.rows, isNext row = false → row.distributionTime ≤ now
  ordered : ∀ row ∈ t.rows, isElection row = true → ∀ other ∈ t.rows, isCurrent other = true →
    other.distributionTime < row.distributionTime
  due : ∀ e, date = some e → ∀ row ∈ t.rows, isElection row = true → e ≤ row.distributionTime

section Rows

variable {now now' time : Nat} {date date' : Option Nat} {t t' : Schedule}

theorem not_isNext_of_isElection {row : Distribution} (h : isElection row = true) :
    isNext row = false := by
  cases row with
  | election => rfl
  | _ => cases h

theorem not_isNext_of_isCurrent {row : Distribution} (h : isCurrent row = true) :
    isNext row = false := by
  cases row with
  | current => rfl
  | _ => cases h

theorem lined_of_empty (h : t.rows = []) : Lined now date t := by
  refine ⟨?_, ?_, ?_⟩
  · intro row hrow
    rw [h] at hrow
    cases hrow
  · intro row hrow
    rw [h] at hrow
    cases hrow
  · intro _ _ row hrow
    rw [h] at hrow
    cases hrow

/-- The time passes, and the next election has no date or one that is not later. -/
theorem Lined.mono (h : Lined now date t) (hnow : now ≤ now')
    (hdate : ∀ e', date' = some e' → ∃ e, date = some e ∧ e' ≤ e) : Lined now' date' t := by
  refine ⟨fun row hrow hnext => (h.begun row hrow hnext).trans hnow, h.ordered, ?_⟩
  intro e' he' row hrow helection
  obtain ⟨e, he, hle⟩ := hdate e' he'
  exact hle.trans (h.due e he row hrow helection)

/-- Each row was there before, as a distribution of the same kind. -/
theorem Lined.of_rows (h : Lined now date t)
    (hrows : ∀ row ∈ t'.rows, ∃ old ∈ t.rows, old.distributionTime = row.distributionTime ∧
      isCurrent old = isCurrent row ∧ isElection old = isElection row ∧ isNext old = isNext row) :
    Lined now date t' := by
  refine ⟨?_, ?_, ?_⟩
  · intro row hrow hnext
    obtain ⟨old, hold, htime, -, -, hnext'⟩ := hrows row hrow
    rw [← htime]
    exact h.begun old hold (hnext'.trans hnext)
  · intro row hrow helection other hother hcurrent
    obtain ⟨old, hold, htime, -, helection', -⟩ := hrows row hrow
    obtain ⟨old', hold', htime', hcurrent', -, -⟩ := hrows other hother
    rw [← htime, ← htime']
    exact h.ordered old hold (helection'.trans helection) old' hold' (hcurrent'.trans hcurrent)
  · intro e he row hrow helection
    obtain ⟨old, hold, htime, -, helection', -⟩ := hrows row hrow
    rw [← htime]
    exact h.due e he old hold (helection'.trans helection)

theorem Lined.erase (h : Lined now date t) (k : Nat) : Lined now date (t.erase k) :=
  h.of_rows fun row hrow => ⟨row, (Table.mem_erase.mp hrow).1, rfl, rfl, rfl, rfl⟩

theorem Lined.schedule (h : Lined now date t) (ht : t.emplace? (.next time) = some t') :
    Lined now date t' := by
  have hmem : ∀ row ∈ t'.rows, isNext row = false → row ∈ t.rows := by
    intro row hrow hnext
    rcases (Table.mem_emplace? ht).mp hrow with rfl | hrow
    · cases hnext
    · exact hrow
  refine ⟨fun row hrow hnext => h.begun row (hmem row hrow hnext) hnext, ?_, ?_⟩
  · intro row hrow helection other hother hcurrent
    exact h.ordered row (hmem row hrow (not_isNext_of_isElection helection)) helection
      other (hmem other hother (not_isNext_of_isCurrent hcurrent)) hcurrent
  · intro e he row hrow helection
    exact h.due e he row (hmem row hrow (not_isNext_of_isElection helection)) helection

/-- The next distribution begins to be paid out: none waits for an election, whose date is still
to come. -/
theorem Lined.current (row : Distribution) (h : Lined now date t) (hnext : NextAt time t)
    (htime : row.distributionTime = time) (hcurrent : isCurrent row = true) (hle : time ≤ now)
    (hafter : ∃ e, date = some e ∧ time < e) : Lined now date (t.replace row) := by
  obtain ⟨e, he, hlt⟩ := hafter
  have hnone : ∀ other ∈ (t.replace row).rows, isElection other = true → False := by
    intro other hother helection
    rcases Table.mem_replace.mp hother with ⟨hother, -⟩ | ⟨heq, -⟩
    · have hdue := h.due e he other hother helection
      have hearlier := hnext.not_next hother (not_isNext_of_isElection helection)
      omega
    · rw [heq] at helection
      cases row with
      | current => cases helection
      | _ => cases hcurrent
  refine ⟨?_, fun other hother helection => (hnone other hother helection).elim,
    fun _ _ other hother helection => (hnone other hother helection).elim⟩
  intro other hother hother'
  rcases Table.mem_replace.mp hother with ⟨hother, -⟩ | ⟨rfl, -⟩
  · exact h.begun other hother hother'
  · exact htime.le.trans hle

/-- The next distribution begins to wait for an election. -/
theorem Lined.election (row : Distribution) (h : Lined now date t) (hnext : NextAt time t)
    (htime : row.distributionTime = time) (helection : isElection row = true) (hle : time ≤ now)
    (hafter : ∀ e, date = some e → e ≤ time) : Lined now date (t.replace row) := by
  refine ⟨?_, ?_, ?_⟩
  · intro other hother hother'
    rcases Table.mem_replace.mp hother with ⟨hother, -⟩ | ⟨rfl, -⟩
    · exact h.begun other hother hother'
    · exact htime.le.trans hle
  · intro other hother hother' last hlast hcurrent
    rcases Table.mem_replace.mp hlast with ⟨hlast, -⟩ | ⟨heq, -⟩
    · rcases Table.mem_replace.mp hother with ⟨hother, -⟩ | ⟨heq, -⟩
      · exact h.ordered other hother hother' last hlast hcurrent
      · rw [heq, htime]
        exact hnext.not_next hlast (not_isNext_of_isCurrent hcurrent)
    · rw [heq] at hcurrent
      cases row with
      | election => cases hcurrent
      | _ => cases helection
  · intro e he other hother hother'
    rcases Table.mem_replace.mp hother with ⟨hother, -⟩ | ⟨rfl, -⟩
    · exact h.due e he other hother hother'
    · rw [htime]
      exact hafter e he

/-- The rows in the order of their times. -/
structure InOrder (rows : List Distribution) : Prop where
  parts : ∃ currents elections time, rows = currents ++ elections ++ [.next time] ∧
    (∀ row ∈ currents, isCurrent row = true) ∧ ∀ row ∈ elections, isElection row = true
  times : (rows.map Distribution.distributionTime).Pairwise (· < ·)

/-- A list whose first part has a property that the rest does not have. -/
theorem filter_of_ordered {α : Type} {q : α → Bool} {l : List α}
    (h : l.Pairwise fun a b => q b = true → q a = true) :
    l.takeWhile q = l.filter q ∧ l = l.filter q ++ l.filter fun a => !q a := by
  induction l with
  | nil => exact ⟨rfl, rfl⟩
  | cons a l ih =>
      rw [List.pairwise_cons] at h
      obtain ⟨hwhile, hparts⟩ := ih h.2
      cases hq : q a with
      | true =>
          simp only [List.takeWhile_cons, List.filter_cons, hq, if_true, Bool.not_true,
            Bool.false_eq_true, if_false, List.cons_append]
          exact ⟨by rw [hwhile], by rw [← hparts]⟩
      | false =>
          have hnone : ∀ b ∈ l, q b = false := by
            intro b hb
            by_contra hqb
            rw [h.1 b hb (Bool.not_eq_false _ ▸ hqb)] at hq
            cases hq
          have hnil : l.filter q = [] := by
            rw [List.filter_eq_nil_iff]
            intro b hb
            rw [hnone b hb]
            exact Bool.false_ne_true
          rw [hnil, List.nil_append] at hparts
          simp only [List.takeWhile_cons, List.filter_cons, hq, Bool.false_eq_true, if_false, hnil,
            Bool.not_false, if_true, List.nil_append]
          exact ⟨trivial, by rw [← hparts]⟩

/-- Before a distribution that is being paid out there are only such distributions. -/
theorem Lined.currents (h : Lined now date t) (hnext : NextAt time t) :
    t.rows.Pairwise fun row other => isCurrent other = true → isCurrent row = true := by
  refine t.sorted.imp_of_mem ?_
  intro row other hrow hother hlt hcurrent
  cases row with
  | current => rfl
  | next t' =>
      rcases hnext.earlier _ hrow with heq | ⟨hnot, -⟩
      · have hearlier := hnext.not_next hother (not_isNext_of_isCurrent hcurrent)
        rw [heq] at hlt
        exact absurd hearlier (Nat.lt_asymm hlt)
      · cases hnot
  | election t' amount =>
      exact absurd (h.ordered _ hrow rfl other hother hcurrent) (Nat.lt_asymm hlt)

theorem inOrder_of_lined (h : Lined now date t) (hnext : NextAt time t) : InOrder t.rows := by
  refine ⟨⟨t.rows.filter isCurrent, t.rows.filter isElection, time, ?_, ?_, ?_⟩, ?_⟩
  · obtain ⟨-, hparts⟩ := filter_of_ordered (h.currents hnext)
    have hrest : (t.rows.filter fun row => !isCurrent row).Pairwise fun row other =>
        isElection other = true → isElection row = true := by
      refine List.Pairwise.imp_of_mem ?_ (t.sorted.filter _)
      intro row other hrow hother hlt helection
      rw [List.mem_filter] at hrow hother
      cases row with
      | election => rfl
      | current => cases hrow.2
      | next t' =>
          rcases hnext.earlier _ hrow.1 with heq | ⟨hnot, -⟩
          · have hearlier := hnext.not_next hother.1 (not_isNext_of_isElection helection)
            rw [heq] at hlt
            exact absurd hearlier (Nat.lt_asymm hlt)
          · cases hnot
    obtain ⟨-, hparts'⟩ := filter_of_ordered hrest
    have helections : (t.rows.filter fun row => !isCurrent row).filter isElection =
        t.rows.filter isElection := by
      rw [List.filter_filter]
      refine List.filter_congr fun row _ => ?_
      cases row with
      | _ => rfl
    have hlast : ((t.rows.filter fun row => !isCurrent row).filter fun row => !isElection row) =
        t.rows.filter isNext := by
      rw [List.filter_filter]
      refine List.filter_congr fun row _ => ?_
      cases row with
      | _ => rfl
    rw [helections, hlast, hnext.filter] at hparts'
    rw [List.append_assoc, ← hparts']
    exact hparts
  · exact fun row hrow => (List.mem_filter.mp hrow).2
  · exact fun row hrow => (List.mem_filter.mp hrow).2
  · exact List.pairwise_map.mpr t.sorted

/-- A table in which the distributions are in their order, up to one that is still to come. -/
structure Aligned (now : Nat) (date : Option Nat) (t : Schedule) : Prop where
  planned : Planned t
  lined : Lined now date t

theorem aligned_of_empty (h : t.rows = []) : Aligned now date t := ⟨.inl h, lined_of_empty h⟩

theorem Aligned.mono (h : Aligned now date t) (hnow : now ≤ now')
    (hdate : ∀ e', date' = some e' → ∃ e, date = some e ∧ e' ≤ e) : Aligned now' date' t :=
  ⟨h.planned, h.lined.mono hnow hdate⟩

theorem Aligned.inOrder (h : Aligned now date t) : t.rows = [] ∨ InOrder t.rows := by
  rcases h.planned with hempty | ⟨time, -, hnext⟩
  · exact .inl hempty
  · exact .inr (inOrder_of_lined h.lined hnext)

/-- The rows that are being paid out are the first ones. -/
theorem Aligned.takeWhile (h : Aligned now date t) :
    t.rows.takeWhile isCurrent = t.rows.filter isCurrent := by
  rcases h.planned with hempty | ⟨time, -, hnext⟩
  · rw [hempty]
    rfl
  · exact (filter_of_ordered (h.lined.currents hnext)).1

/-- Distributions are paid out: some of them come to their end, the others stay as they are. -/
structure Thinned (t t' : Schedule) : Prop where
  rows : ∀ row ∈ t'.rows, ∃ old ∈ t.rows, old.distributionTime = row.distributionTime ∧
    isCurrent old = isCurrent row ∧ isElection old = isElection row ∧ isNext old = isNext row
  others : ∀ row ∈ t.rows, isCurrent row = false → row ∈ t'.rows

theorem Thinned.refl (t : Schedule) : Thinned t t :=
  ⟨fun row hrow => ⟨row, hrow, rfl, rfl, rfl, rfl⟩, fun _ hrow _ => hrow⟩

theorem Thinned.trans {t₁ t₂ t₃ : Schedule} (h₁ : Thinned t₁ t₂) (h₂ : Thinned t₂ t₃) :
    Thinned t₁ t₃ := by
  refine ⟨?_, fun row hrow hnot => h₂.others row (h₁.others row hrow hnot) hnot⟩
  intro row hrow
  obtain ⟨middle, hmiddle, htime, hcurrent, helection, hnext⟩ := h₂.rows row hrow
  obtain ⟨old, hold, htime', hcurrent', helection', hnext'⟩ := h₁.rows middle hmiddle
  exact ⟨old, hold, htime'.trans htime, hcurrent'.trans hcurrent, helection'.trans helection,
    hnext'.trans hnext⟩

theorem Thinned.erase {row : Distribution} (hrow : row ∈ t.rows) (hcurrent : isCurrent row = true) :
    Thinned t (t.erase row.distributionTime) := by
  refine ⟨fun other hother => ⟨other, (Table.mem_erase.mp hother).1, rfl, rfl, rfl, rfl⟩, ?_⟩
  intro other hother hnot
  refine Table.mem_erase.mpr ⟨hother, fun htime => ?_⟩
  rw [Table.eq_of_key_eq hother hrow htime, hcurrent] at hnot
  cases hnot

theorem Thinned.replace {row row' : Distribution} (hrow : row ∈ t.rows)
    (hcurrent : isCurrent row = true) (hcurrent' : isCurrent row' = true)
    (htime : row.distributionTime = row'.distributionTime) : Thinned t (t.replace row') := by
  have hkinds : isElection row = isElection row' ∧ isNext row = isNext row' := by
    cases row with
    | current =>
        cases row' with
        | current => exact ⟨rfl, rfl⟩
        | _ => cases hcurrent'
    | _ => cases hcurrent
  refine ⟨?_, ?_⟩
  · intro other hother
    rcases Table.mem_replace.mp hother with ⟨hother, -⟩ | ⟨heq, -⟩
    · exact ⟨other, hother, rfl, rfl, rfl, rfl⟩
    · rw [heq]
      exact ⟨row, hrow, htime, hcurrent.trans hcurrent'.symm, hkinds.1, hkinds.2⟩
  · intro other hother hnot
    refine Table.mem_replace.mpr (.inl ⟨hother, fun hsame => ?_⟩)
    rw [Table.eq_of_key_eq hother hrow (hsame.trans htime.symm), hcurrent] at hnot
    cases hnot

theorem Thinned.nextAt (h : Thinned t t') (hnext : NextAt time t) : NextAt time t' := by
  refine ⟨h.others _ hnext.mem rfl, fun row hrow => ?_⟩
  obtain ⟨old, hold, htime, -, -, hkind⟩ := h.rows row hrow
  rcases hnext.earlier old hold with rfl | ⟨hnot, hlt⟩
  · refine .inl ?_
    cases row with
    | next t' => exact congrArg Distribution.next htime.symm
    | _ => cases hkind
  · exact .inr ⟨hkind.symm.trans hnot, htime ▸ hlt⟩

theorem Thinned.aligned (h : Thinned t t') (ht : Aligned now date t) : Aligned now date t' := by
  refine ⟨?_, ht.lined.of_rows h.rows⟩
  rcases ht.planned with hempty | ⟨time, hpos, hnext⟩
  · refine .inl (List.eq_nil_iff_forall_not_mem.mpr fun row hrow => ?_)
    obtain ⟨old, hold, -⟩ := h.rows row hrow
    rw [hempty] at hold
    cases hold
  · exact .inr ⟨time, hpos, h.nextAt hnext⟩

end Rows

/-! ### The functions of the treasury -/

/-- No distribution is being paid out. -/
def NoneCurrent (t : Schedule) : Prop := ∀ row ∈ t.rows, isCurrent row = false

theorem Lined.turn {time : Nat} {d d' : Distributions} {table : Schedule}
    (hd : Lined c.now c.nextElectionTime d.table) (hdue : time ≤ c.now)
    (hnext : NextAt time d.table) (hopened : Opened p c time d table d'.accounts)
    (hannounced : table.emplace? (.next (nextDistribution c time).1) = some d'.table) :
    Lined c.now c.nextElectionTime d'.table := by
  refine Lined.schedule ?_ hannounced
  generalize d'.accounts = accounts at hopened
  cases hopened with
  | current hafter _ _ =>
      refine hd.current (.current time emptyName _) hnext rfl rfl hdue ?_
      obtain ⟨e, he, hlt⟩ := (Option.any_eq_true _ _).mp hafter
      exact ⟨e, he, of_decide_eq_true hlt⟩
  | election hafter _ =>
      refine hd.election (.election time _) hnext rfl rfl hdue fun e he => ?_
      rw [electionAfter, he, Option.any_some, decide_eq_false_iff_not] at hafter
      exact not_lt.mp hafter
  | nothing => exact hd.erase time

theorem setupDistribution_aligned {init : Nat} {r : Treasury × Bool} (hend : beforeEnd c.now)
    (hf : Aligned c.now (electionAt c init).nextElectionTime f.distributions.table)
    (h : setupDistribution p c f init = .ok r) :
    Aligned c.now (electionAt c init).nextElectionTime r.1.distributions.table := by
  have hnow := electionAt_now c init
  have hkept : Lined (electionAt c init).now (electionAt c init).nextElectionTime
      r.1.distributions.table ∧ Planned r.1.distributions.table := by
    refine setupDistribution_induct
      (fun d => Lined (electionAt c init).now (electionAt c init).nextElectionTime d.table)
      ?_ ?_ hend hf.planned (hnow ▸ hf.lined) h
    · exact fun _ _ _ _ hannounced hd => hd.schedule hannounced
    · intro time d d' table hdue hnext hd hopened hannounced
      exact hd.turn (hnow ▸ hdue) hnext hopened hannounced
  rw [hnow] at hkept
  exact ⟨hkept.2, hkept.1⟩

theorem fundMembers_table {time : Nat} {shares : List Asset} {pool : Option Nat} {maxSteps : Nat}
    {members : List Member} {last : Name} {r : Nat × Name × Treasury}
    (h : fundMembers p time shares pool maxSteps members last f = .ok r) :
    r.2.2.distributions.table = f.distributions.table := by
  fun_induction fundMembers p time shares pool maxSteps members last f with
  | case1 members last f =>
      cases h
      rfl
  | case2 maxSteps last f =>
      cases h
      rfl
  | case3 last maxSteps member rest f ih =>
      simp only [bind_eq_ok] at h
      obtain ⟨-, -, f₁, hfund, h⟩ := h
      refine (ih f₁ h).trans ?_
      refine foldlM_preserves
        (fun f' : Treasury => f'.distributions.table = f.distributions.table) ?_ _ hfund rfl
      intro f' share f'' hstep hf'
      simp only [fundRank, bind_eq_ok, pure_eq_ok] at hstep
      obtain ⟨added, -, drawn, -, rfl⟩ := hstep
      exact hf'

theorem closePool_table {pool : Option Nat} (h : closePool f pool = .ok f') :
    f'.distributions.table = f.distributions.table := by
  unfold closePool at h
  split at h
  · cases h
    rfl
  · simp only [bind_eq_ok] at h
    obtain ⟨-, -, h⟩ := h
    split at h
    · cases h
      rfl
    · cases h
      rfl

theorem distributeCurrent_table {members : Table Member.account} {maxSteps time : Nat} {last : Name}
    {shares : List Asset} {r : Nat × Name × Treasury}
    (h : distributeCurrent p members maxSteps time last shares f = .ok r) :
    r.2.2.distributions.table = f.distributions.table := by
  simp only [distributeCurrent, bind_eq_ok, pure_eq_ok] at h
  obtain ⟨r', hfund, f₁, hclose, rfl⟩ := h
  exact (closePool_table hclose).trans (fundMembers_table hfund)

/-- Distributions are paid out; if steps are left, those at the front have come to their end. -/
theorem distributeRows_thinned {members : Table Member.account} {rows : List Distribution}
    {maxSteps : Nat} {r : Nat × Treasury}
    (hrows : ∀ row ∈ rows, row ∈ f.distributions.table.rows)
    (hnodup : (rows.map Distribution.distributionTime).Nodup)
    (h : distributeRows p members rows maxSteps f = .ok r) :
    Thinned f.distributions.table r.2.distributions.table ∧
      (r.1 ≠ 0 → ∀ row ∈ r.2.distributions.table.rows, ∀ old ∈ rows.takeWhile isCurrent,
        row.distributionTime ≠ old.distributionTime) := by
  induction rows generalizing maxSteps f with
  | nil =>
      cases h
      exact ⟨.refl _, fun _ _ _ _ hold => by cases hold⟩
  | cons row rest ih =>
      simp only [distributeRows] at h
      split at h
      · rename_i hzero
        cases h
        exact ⟨.refl _, fun hleft => absurd hzero hleft⟩
      · split at h
        · rename_i time last shares
          simp only [bind_eq_ok] at h
          obtain ⟨⟨remaining, last', f₁⟩, hcurrent, h⟩ := h
          have hrow := hrows _ List.mem_cons_self
          have htable := distributeCurrent_table hcurrent
          dsimp only at htable h
          split at h
          · cases h
            refine ⟨?_, fun hleft => absurd rfl hleft⟩
            dsimp only
            rw [htable]
            exact Thinned.replace hrow rfl rfl rfl
          · rw [List.map_cons, List.nodup_cons] at hnodup
            have hthin : Thinned f.distributions.table (f₁.distributions.table.erase time) := by
              rw [htable]
              exact Thinned.erase hrow rfl
            obtain ⟨hrest, hdone⟩ := ih (fun other hother => Table.mem_erase.mpr
              ⟨by rw [htable]; exact hrows other (List.mem_cons_of_mem _ hother), fun hsame =>
                hnodup.1 (List.mem_map.mpr ⟨other, hother, hsame⟩)⟩) hnodup.2 h
            refine ⟨hthin.trans hrest, fun hleft other hother old hold => ?_⟩
            have hfirst : isCurrent (.current time last shares) = true := rfl
            rw [List.takeWhile_cons_of_pos hfirst] at hold
            rcases List.mem_cons.mp hold with rfl | hold
            · obtain ⟨before, hbefore, hsame, -⟩ := hrest.rows other hother
              rw [← hsame]
              exact (Table.mem_erase.mp hbefore).2
            · exact hdone hleft other hother old hold
        · cases h
          exact ⟨.refl _, fun _ _ _ _ hold => by cases hold⟩
        · cases h
          exact ⟨.refl _, fun _ _ _ _ hold => by cases hold⟩

theorem distributeMonthly_aligned {members : Table Member.account} {maxSteps : Nat}
    {r : Nat × Treasury} (hend : beforeEnd c.now)
    (hf : Aligned c.now c.nextElectionTime f.distributions.table)
    (h : distributeMonthly p c members maxSteps f = .ok r) :
    Aligned c.now c.nextElectionTime r.2.distributions.table ∧
      (r.1 ≠ 0 → NoneCurrent r.2.distributions.table) := by
  unfold distributeMonthly at h
  split at h
  · cases h
    exact ⟨hf, fun hleft => absurd rfl hleft⟩
  · simp only [bind_eq_ok] at h
    obtain ⟨⟨f₁, started⟩, hsetup, h⟩ := h
    have hf₁ : Aligned c.now (electionAt c 0).nextElectionTime f₁.distributions.table :=
      @setupDistribution_aligned p c f 0 (f₁, started) hend hf hsetup
    obtain ⟨hthin, hdone⟩ := distributeRows_thinned (fun row hrow => hrow) (Table.nodup_keys _) h
    refine ⟨hthin.aligned hf₁, fun hleft row hrow => ?_⟩
    by_contra hcurrent
    obtain ⟨old, hold, htime, hkind, -⟩ := hthin.rows row hrow
    rw [Bool.not_eq_false] at hcurrent
    have hmem : old ∈ f₁.distributions.table.rows.takeWhile isCurrent := by
      rw [hf₁.takeWhile]
      exact List.mem_filter.mpr ⟨hold, hkind.trans hcurrent⟩
    exact hdone hleft row hrow old hmem htime.symm

/-- The end of an election: the distributions that waited for it begin to be paid out. -/
structure Released (ranks : List Nat) (d d' : Distributions) : Prop where
  accounts : d'.accounts = d.accounts
  rows : ∀ row ∈ d'.table.rows, row ∈ d.table.rows ∨ ∃ time amount shares used,
    .election time amount ∈ d.table.rows ∧ makeDistribution ranks amount = .ok (shares, used) ∧
      used.eq amount = .ok true ∧ row = .current time emptyName shares
  others : ∀ row ∈ d.table.rows, isElection row = false → row ∈ d'.table.rows

theorem Released.refl (ranks : List Nat) (d : Distributions) : Released ranks d d :=
  ⟨rfl, fun _ hrow => .inl hrow, fun _ hrow _ => hrow⟩

theorem processElectionRows_released {ranks : List Nat} {rows : List Distribution}
    (hrows : ∀ row ∈ rows, row ∈ f.distributions.table.rows)
    (hnodup : (rows.map Distribution.distributionTime).Nodup)
    (h : processElectionRows p ranks rows f = .ok f') :
    Released ranks f.distributions f'.distributions ∧
      ∀ row ∈ f'.distributions.table.rows, isElection row = true →
        row ∉ rows.takeWhile fun row => !isNext row := by
  fun_induction processElectionRows p ranks rows f with
  | case1 f =>
      cases h
      exact ⟨.refl _ _, fun _ _ _ hmem => by cases hmem⟩
  | case2 time amount rest f ih =>
      simp only [bind_eq_ok, beginElectionDistribution, check_eq_ok, exists_const, pure_eq_ok] at h
      obtain ⟨f₁, ⟨⟨shares, used⟩, hshares, same, hsame, hcheck, rfl⟩, h⟩ := h
      subst hcheck
      have hrow := hrows _ List.mem_cons_self
      rw [List.map_cons, List.nodup_cons] at hnodup
      have hother : ∀ row ∈ rest, row.distributionTime ≠ time :=
        fun row hmem htime => hnodup.1 (List.mem_map.mpr ⟨row, hmem, htime⟩)
      have hrest : ∀ row ∈ rest,
          row ∈ (f.distributions.table.replace (.current time emptyName shares)).rows :=
        fun row hmem => Table.mem_replace.mpr
          (.inl ⟨hrows row (List.mem_cons_of_mem _ hmem), hother row hmem⟩)
      obtain ⟨hreleased, hnone⟩ := ih _ hrest hnodup.2 h
      refine ⟨⟨hreleased.accounts, ?_, ?_⟩, ?_⟩
      · intro row hmem
        rcases hreleased.rows row hmem with hold | ⟨time', amount', shares', used', hold, hmake⟩
        · rcases Table.mem_replace.mp hold with ⟨hold, -⟩ | ⟨rfl, -⟩
          · exact .inl hold
          · exact .inr ⟨time, amount, shares, used, hrow, hshares, hsame, rfl⟩
        · rcases Table.mem_replace.mp hold with ⟨hold, -⟩ | ⟨heq, -⟩
          · exact .inr ⟨time', amount', shares', used', hold, hmake⟩
          · cases heq
      · intro row hmem hnot
        refine hreleased.others row (Table.mem_replace.mpr (.inl ⟨hmem, fun htime => ?_⟩)) hnot
        rw [Table.eq_of_key_eq hmem hrow htime] at hnot
        cases hnot
      · intro row hmem helection hfront
        simp only [List.takeWhile_cons, isNext, Bool.not_false, if_true, List.mem_cons] at hfront
        rcases hfront with rfl | hfront
        · rcases hreleased.rows _ hmem with hold | ⟨_, _, _, _, _, _, _, heq⟩
          · rcases Table.mem_replace.mp hold with ⟨-, hne⟩ | ⟨heq, -⟩
            · exact hne rfl
            · cases heq
          · cases heq
        · exact hnone row hmem helection hfront
  | case3 time last shares rest f ih =>
      rw [List.map_cons, List.nodup_cons] at hnodup
      obtain ⟨hreleased, hnone⟩ :=
        ih (fun row hmem => hrows row (List.mem_cons_of_mem _ hmem)) hnodup.2 h
      refine ⟨hreleased, fun row hmem helection hfront => ?_⟩
      simp only [List.takeWhile_cons, isNext, Bool.not_false, if_true, List.mem_cons] at hfront
      rcases hfront with rfl | hfront
      · cases helection
      · exact hnone row hmem helection hfront
  | case4 time rest f =>
      cases h
      exact ⟨.refl _ _, fun _ _ _ hmem => by cases hmem⟩

/-- After an election no distribution waits for one. -/
theorem processElectionDistribution_aligned {ranks : List Nat} {now : Nat} {date date' : Option Nat}
    (hf : Aligned now date f.distributions.table)
    (h : processElectionDistribution p ranks f = .ok f') :
    Released ranks f.distributions f'.distributions ∧
      Aligned now date' f'.distributions.table := by
  obtain ⟨hreleased, hnone⟩ :=
    processElectionRows_released (fun row hrow => hrow) (Table.nodup_keys _) h
  refine ⟨hreleased, ?_⟩
  rcases hf.planned with hempty | ⟨time, hpos, hnext⟩
  · refine aligned_of_empty (List.eq_nil_iff_forall_not_mem.mpr fun row hrow => ?_)
    rcases hreleased.rows row hrow with hold | ⟨_, _, _, _, hold, -⟩
    · rw [hempty] at hold
      cases hold
    · rw [hempty] at hold
      cases hold
  · -- the loop passes all rows before the last one
    have hfront : (f.distributions.table.rows.takeWhile fun row => !isNext row) =
        f.distributions.table.rows.filter fun row => !isNext row := by
      refine (filter_of_ordered ?_).1
      refine f.distributions.table.sorted.imp_of_mem ?_
      intro row other hrow hother hlt hnot
      by_contra hkind
      rw [Bool.not_eq_true, Bool.not_eq_false'] at hkind
      rw [Bool.not_eq_true'] at hnot
      rcases hnext.earlier row hrow with rfl | ⟨hrow', -⟩
      · exact absurd (hnext.not_next hother hnot) (Nat.lt_asymm hlt)
      · rw [hrow'] at hkind
        cases hkind
    rw [hfront] at hnone
    have helections : ∀ row ∈ f'.distributions.table.rows, isElection row = false := by
      intro row hrow
      by_contra helection
      rw [Bool.not_eq_false] at helection
      rcases hreleased.rows row hrow with hold | ⟨_, _, _, _, _, _, _, rfl⟩
      · refine hnone row hrow helection (List.mem_filter.mpr ⟨hold, ?_⟩)
        rw [not_isNext_of_isElection helection]
        rfl
      · cases helection
    have hmem : .next time ∈ f'.distributions.table.rows := hreleased.others _ hnext.mem rfl
    refine ⟨.inr ⟨time, hpos, hmem, fun row hrow => ?_⟩, ?_, ?_, ?_⟩
    · rcases hreleased.rows row hrow with hold | ⟨time', _, _, _, hold, _, _, rfl⟩
      · exact hnext.earlier row hold
      · have hearlier : time' < time := hnext.not_next hold rfl
        exact .inr ⟨rfl, hearlier⟩
    · intro row hrow hbegun
      rcases hreleased.rows row hrow with hold | ⟨time', _, _, _, hold, _, _, rfl⟩
      · exact hf.lined.begun row hold hbegun
      · have hpast : time' ≤ now := hf.lined.begun _ hold rfl
        exact hpast
    · intro row hrow helection
      rw [helections row hrow] at helection
      cases helection
    · intro _ _ row hrow helection
      rw [helections row hrow] at helection
      cases helection

theorem returnAccounts_table {rows : List DistributionAccount}
    (h : rows.foldlM (returnAccount p) f = .ok f') :
    f'.distributions.table = f.distributions.table := by
  refine foldlM_preserves
    (fun f' : Treasury => f'.distributions.table = f.distributions.table) ?_ _ h rfl
  intro f₁ row f₂ hstep hf₁
  simp only [returnAccount, bind_eq_ok, pure_eq_ok] at hstep
  obtain ⟨owned, -, rfl⟩ := hstep
  exact hf₁

theorem returnShares_table {member : Member} {rows : List Distribution}
    (h : returnShares p member rows f = .ok f') :
    f'.distributions.table = f.distributions.table := by
  fun_induction returnShares p member rows f with
  | case1 time last shares rest f _ ih =>
      simp only [bind_eq_ok, returnShare, pure_eq_ok] at h
      obtain ⟨f₁, ⟨-, -, amount, -, accounts, -, owned, -, hf₁⟩, h⟩ := h
      refine (ih f₁ h).trans ?_
      rw [← hf₁]
  | case2 time last shares rest f _ ih => exact ih h
  | case3 rows f _ =>
      cases h
      rfl

/-- A member leaves after the distributions have been set up. -/
theorem onResign_table {member : Member} (h : onResign p c f member = .ok f') :
    ∃ r, setupDistribution p c f 0 = .ok r ∧
      f'.distributions.table = r.1.distributions.table := by
  simp only [onResign, bind_eq_ok] at h
  obtain ⟨r, hsetup, f₂, haccounts, h⟩ := h
  exact ⟨r, hsetup, (returnShares_table h).trans (returnAccounts_table haccounts)⟩

theorem onRename_table {oldAccount newAccount : Name}
    (h : DistributionTables.onRename p c f oldAccount newAccount = .ok f') :
    ∃ r, setupDistribution p c f 0 = .ok r ∧
      f'.distributions.table = r.1.distributions.table := by
  simp only [DistributionTables.onRename, bind_eq_ok, pure_eq_ok] at h
  obtain ⟨-, -, r, hsetup, rfl⟩ := h
  exact ⟨r, hsetup, rfl⟩

/-- Nothing is set up before the first distribution has been announced. -/
theorem setupDistribution_of_empty {r : Treasury × Bool} (hempty : f.distributions.table.rows = [])
    (h : setupDistribution p c f 0 = .ok r) : r.1 = f := by
  unfold setupDistribution at h
  rw [hempty] at h
  cases h
  rfl

theorem distributeMonthly_of_empty {members : Table Member.account} {maxSteps : Nat}
    {r : Nat × Treasury} (hempty : f.distributions.table.rows = [])
    (h : distributeMonthly p c members maxSteps f = .ok r) : r.2 = f := by
  unfold distributeMonthly at h
  split at h
  · cases h
    rfl
  · simp only [bind_eq_ok] at h
    obtain ⟨⟨f₁, started⟩, hsetup, h⟩ := h
    obtain rfl := setupDistribution_of_empty hempty hsetup
    dsimp only at h
    rw [hempty] at h
    cases h
    rfl

/-! ### Every run -/

/-- The distributions of a state are in their order, and there are none without an election. -/
structure Formed (s : State) : Prop where
  aligned : Aligned s.now (getNextElectionTime s.elections.current) s.distributions.table
  unplanned : s.elections.current = none ∨ s.elections.current = some .pendingDate →
    s.distributions.table.rows = []

theorem Formed.of_table {s s' : State} (h : Formed s) (hnow : s'.now = s.now)
    (hcurrent : s'.elections.current = s.elections.current)
    (htable : s'.distributions.table = s.distributions.table) : Formed s' := by
  refine ⟨?_, ?_⟩
  · rw [hnow, hcurrent, htable]
    exact h.aligned
  · rw [hcurrent, htable]
    exact h.unplanned

/-- The distributions are set up and go on, while the election stays as it is. -/
theorem Formed.of_treasury {s s' : State} (h : Formed s) (hnow : s'.now = s.now)
    (hcurrent : s'.elections.current = s.elections.current)
    (haligned : Aligned s.now (getNextElectionTime s.elections.current) s'.distributions.table)
    (hempty : s.distributions.table.rows = [] → s'.distributions.table.rows = []) :
    Formed s' := by
  refine ⟨?_, ?_⟩
  · rw [hnow, hcurrent]
    exact haligned
  · rw [hcurrent]
    exact fun hnone => hempty (h.unplanned hnone)

/-- The election goes on to a state in which there is no date, or one that is not later. -/
theorem Formed.of_current {s s' : State} {state : ElectionState} (h : Formed s)
    (hnow : s'.now = s.now) (htable : s'.distributions.table = s.distributions.table)
    (hcurrent : s'.elections.current = some state) (hpending : state ≠ .pendingDate)
    (hdate : ∀ e', getNextElectionTime (some state) = some e' →
      ∃ e, getNextElectionTime s.elections.current = some e ∧ e' ≤ e) : Formed s' := by
  refine ⟨?_, ?_⟩
  · rw [hnow, hcurrent, htable]
    exact h.aligned.mono le_rfl hdate
  · rw [hcurrent]
    rintro (hnone | hsome)
    · cases hnone
    · exact absurd (Option.some.inj hsome) hpending

theorem setup_formed {s : State} {f₀ : Treasury} {r : Treasury × Bool} (hend : beforeEnd s.now)
    (hs : Formed s) (hsame : f₀.distributions = s.distributions)
    (h : setupDistribution p (calendar s) f₀ 0 = .ok r) :
    Aligned s.now (getNextElectionTime s.elections.current) r.1.distributions.table ∧
      (s.distributions.table.rows = [] → r.1.distributions.table.rows = []) := by
  refine ⟨?_, fun hempty => ?_⟩
  · have hf₀ : Aligned (calendar s).now (electionAt (calendar s) 0).nextElectionTime
        f₀.distributions.table := by
      rw [hsame]
      exact hs.aligned
    exact setupDistribution_aligned (c := calendar s) hend hf₀ h
  · rw [← hsame] at hempty
    rw [setupDistribution_of_empty hempty h]
    exact hempty

theorem step_formed {s s' : State} (h : Step p call s s') (hcall : uninterrupted call = true)
    (hnamed : Named s) (hend : beforeEnd s.now) (hs : Formed s) : Formed s' := by
  cases h with
  | aside haside =>
      exact hs.of_table haside.now haside.current (congrArg Distributions.table haside.distributions)
  | resigns _ _ _ hf _ =>
      obtain ⟨r, hsetup, htable⟩ := onResign_table hf
      obtain ⟨haligned, hempty⟩ := setup_formed hend hs rfl hsetup
      rw [← htable] at haligned hempty
      exact hs.of_treasury rfl rfl haligned hempty
  | renames _ _ _ _ _ hf _ _ =>
      obtain ⟨r, hsetup, htable⟩ := onRename_table hf
      obtain ⟨haligned, hempty⟩ := setup_formed hend hs rfl hsetup
      rw [← htable] at haligned hempty
      exact hs.of_treasury rfl rfl haligned hempty
  | distributes hf =>
      refine hs.of_treasury rfl rfl (distributeMonthly_aligned hend hs.aligned hf).1 fun hempty => ?_
      have hsame := distributeMonthly_of_empty hempty hf
      dsimp only at hsame
      rw [hsame]
      exact hempty
  | receives _ _ _ _ _ _ hf _ =>
      simp only [addToPool, bind_eq_ok, pure_eq_ok] at hf
      obtain ⟨r, hsetup, owned, -, rfl⟩ := hf
      obtain ⟨haligned, hempty⟩ := setup_formed hend hs rfl hsetup
      exact hs.of_treasury rfl rfl haligned hempty
  | donates _ _ hf =>
      simp only [addToPool, bind_eq_ok, pure_eq_ok] at hf
      obtain ⟨r, hsetup, owned, -, rfl⟩ := hf
      obtain ⟨haligned, hempty⟩ := setup_formed hend hs rfl hsetup
      exact hs.of_treasury rfl rfl haligned hempty
  | schedules _ _ hreschedules =>
      rcases hreschedules with ⟨hnone, -⟩ | ⟨start, threshold, version, hcurrent, -, -, hcases⟩
      · have hempty := hs.unplanned (.inl hnone)
        exact ⟨aligned_of_empty hempty, fun _ => hempty⟩
      · have haligned := hs.aligned
        rw [hcurrent] at haligned
        rcases hcases with ⟨g, -, -, hearlier⟩ | hlocked
        · refine hs.of_current rfl rfl rfl (by simp) fun e' he' => ?_
          rw [hcurrent]
          exact ⟨start, rfl, Option.some.inj he' ▸ hearlier.le⟩
        · -- the election lies in the future, so no distribution waits for it
          have hfuture : s.now < start := by
            rw [← toTimePoint_lt]
            exact lt_of_lt_of_le (lt_add_of_pos_right _ (by decide)) hlocked
          have hnone : ∀ row ∈ s.distributions.table.rows, isElection row = true → False := by
            intro row hrow helection
            have hdue := haligned.lined.due start rfl row hrow helection
            have hbegun := haligned.lined.begun row hrow (not_isNext_of_isElection helection)
            omega
          refine ⟨⟨haligned.planned, haligned.lined.begun, haligned.lined.ordered, ?_⟩, ?_⟩
          · exact fun _ _ row hrow helection => (hnone row hrow helection).elim
          · rintro (hnone | hsome)
            · cases hnone
            · cases hsome
  | unschedules _ _ hg hunset => exact absurd hunset (hnamed.started _ hg)
  | aborts => cases hcall
  | clears => cases hcall
  | seeds hseed =>
      rcases seed_eq_ok hseed with ⟨start, _, _, seeder, _, hcurrent, _, hstart, _, rfl⟩ |
        ⟨seeder, seeder', _, _, hcurrent, hstart, _, rfl⟩ | ⟨_, _, _, hcurrent, _, _, rfl⟩
      · refine hs.of_current rfl rfl rfl (by simp) fun e' he' => ?_
        rw [hcurrent]
        exact ⟨start, rfl, (Option.some.inj he' ▸ hstart).le⟩
      · refine hs.of_current rfl rfl rfl (by simp) fun e' he' => ?_
        rw [hcurrent]
        exact ⟨seeder.endTime, rfl, (Option.some.inj he' ▸ hstart).le⟩
      · exact hs.of_current rfl rfl rfl (by simp) fun e' he' => by cases he'
  | @starts _ _ seeder _ _ _ hcurrent hstart _ =>
      obtain ⟨_, _, o, f, started, _, hsetup, rfl⟩ := startElection_eq_ok hstart
      have haligned := hs.aligned
      rw [hcurrent] at haligned
      have hf : Aligned s.now (electionAt ⟨s.now, s.members.stats.ranks, none⟩
          seeder.endTime).nextElectionTime f.distributions.table := by
        refine setupDistribution_aligned hend (haligned.mono le_rfl fun e' he' => ?_) hsetup
        refine ⟨_, rfl, ?_⟩
        unfold electionAt at he'
        split at he'
        · cases he'
        · exact (Option.some.inj he').ge
      refine ⟨hf.mono le_rfl (fun e' he' => by cases he'), ?_⟩
      rintro (hnone | hsome)
      · cases hnone
      · cases hsome
  | visits hcurrent _ _ =>
      exact hs.of_current rfl rfl rfl (by simp) fun e' he' => by cases he'
  | reports hcurrent _ =>
      exact hs.of_current rfl rfl rfl (by simp) fun e' he' => by cases he'
  | opens hcurrent _ _ _ _ _ _ =>
      exact hs.of_current rfl rfl rfl (by simp) fun e' he' => by cases he'
  | votes hvote =>
      obtain ⟨_, _, _, _, _, _, _, _, _, _, _, rfl⟩ := vote_eq_ok hvote
      exact hs.of_table rfl rfl rfl
  | closes hcurrent _ _ =>
      exact hs.of_current rfl rfl rfl (by simp) fun e' he' => by cases he'
  | groups hcurrent _ =>
      exact hs.of_current rfl rfl rfl (by simp) fun e' he' => by cases he'
  | rereports hcurrent _ =>
      exact hs.of_current rfl rfl rfl (by simp) fun e' he' => by cases he'
  | advances hcurrent _ _ _ _ hcases _ =>
      rcases hcases with ⟨_, _, _, rfl⟩ | ⟨_, _, rfl⟩
      · exact hs.of_current rfl rfl rfl (by simp) fun e' he' => by cases he'
      · exact hs.of_current rfl rfl rfl (by simp) fun e' he' => by cases he'
  | concludes _ _ _ _ _ _ _ hf _ =>
      refine ⟨(processElectionDistribution_aligned hs.aligned hf).2, ?_⟩
      rintro (hnone | hsome)
      · cases hnone
      · cases hsome
  | _ => exact hs.of_table rfl rfl rfl

theorem reachable_formed {s : State}
    (h : Reachable p (fun _ call => uninterrupted call = true) s) (hend : beforeEnd s.now) :
    Named s ∧ Formed s := by
  have hinv := reachable_of_steps (fun s : State => Named s ∧ (beforeEnd s.now → Formed s)) h
    ?_ ?_ ?_
  · exact ⟨hinv.1, hinv.2 hend⟩
  · intro s hs
    refine ⟨untouched_named hs, fun _ => ?_⟩
    rw [hs.1]
    exact ⟨aligned_of_empty rfl, fun _ => rfl⟩
  · rintro s now hle - ⟨hnamed, hformed⟩
    refine ⟨⟨hnamed.started, hnamed.endorsed, hnamed.named⟩, fun hlater => ?_⟩
    have hs : Formed s := by
      refine hformed ?_
      unfold beforeEnd at hlater ⊢
      dsimp only at hlater
      omega
    exact ⟨hs.aligned.mono hle fun e' he' => ⟨e', he', le_rfl⟩, hs.unplanned⟩
  · rintro call s s' hcall hstep ⟨hnamed, hformed⟩
    refine ⟨step_named hstep hnamed, fun hlater => ?_⟩
    rw [step_now hstep] at hlater
    exact step_formed hstep hcall hnamed hlater (hformed hlater)

/-- In every run the table of the distributions is empty, or holds the distributions that are being
paid out, then those that wait for the end of an election, then the next one; so a loop over the
distributions in progress sees all of them, and the first row tells whether there are any. -/
theorem distributions_in_order (p : Platform) (s : State)
    (h : Reachable p (fun _ call => uninterrupted call = true) s) (hend : beforeEnd s.now) :
    (s.distributions.table.rows = [] ∨ InOrder s.distributions.table.rows) ∧
    s.distributions.table.rows.takeWhile isCurrent =
      s.distributions.table.rows.filter isCurrent ∧
    (s.distributions.table.rows.head?.all (fun row => !isCurrent row) = true →
      NoneCurrent s.distributions.table) ∧
    ∀ row, s.distributions.table.rows.getLast? = some row → ∃ time, row = .next time := by
  obtain ⟨-, hs⟩ := reachable_formed h hend
  refine ⟨hs.aligned.inOrder, hs.aligned.takeWhile, ?_, ?_⟩
  · intro hfirst row hrow
    by_contra hcurrent
    rw [Bool.not_eq_false] at hcurrent
    have hmem : row ∈ s.distributions.table.rows.takeWhile isCurrent := by
      rw [hs.aligned.takeWhile]
      exact List.mem_filter.mpr ⟨hrow, hcurrent⟩
    cases hrows : s.distributions.table.rows with
    | nil =>
        rw [hrows] at hmem
        cases hmem
    | cons first rest =>
        rw [hrows, List.head?_cons, Option.all_some, Bool.not_eq_true'] at hfirst
        rw [hrows, List.takeWhile_cons, hfirst] at hmem
        cases hmem
  · intro row hlast
    obtain ⟨time, -, -, hrow⟩ := hs.aligned.planned.next hlast
    exact ⟨time, hrow⟩

/-- After the first election its distribution is being paid out, and the next one is announced. -/
theorem firstElection_in_order :
    ∃ s, runFromGenesis host (fun _ call => uninterrupted call = true) firstElection = some s ∧
      s.distributions.table.rows = [.current 1987200 emptyName [eos 10], .next 7171200] ∧
      InOrder s.distributions.table.rows := by
  have hrun : (runFromGenesis host (fun _ call => uninterrupted call = true) firstElection).any
      (fun s => decide (beforeEnd s.now) && s.distributions.table.rows =
        [.current 1987200 emptyName [eos 10], .next 7171200]) = true := by
    decide +kernel
  obtain ⟨s, hs, hstate⟩ := (Option.any_eq_true _ _).mp hrun
  rw [Bool.and_eq_true, decide_eq_true_eq, decide_eq_true_eq] at hstate
  obtain ⟨hend, hrows⟩ := hstate
  have horder := (distributions_in_order host s (reachable_of_run hs) hend).1
  refine ⟨s, hs, hrows, horder.resolve_left ?_⟩
  rw [hrows]
  exact List.cons_ne_nil _ _

end Eden.DistributionShape
