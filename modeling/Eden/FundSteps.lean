import Eden.CallTraces
import Eden.FundBooks

/-!
The functions on distributions keep the tables of the contract and the trace in agreement.
-/

namespace Eden.FundSteps

open Eden.ExceptReasoning
open Eden.SortedTable
open Eden.ObjectTable.Objects
open Eden.ChainPrimitives
open Eden.ContractState
open Eden.Runtime
open Eden.DistributionTables
open Eden.TreasuryFunds
open Eden.MirrorTables
open Eden.FundBooks
open Eden.FundBooks.Progress

variable {p : Platform} {c : Calendar} {f f' : Treasury}

abbrev Booked (p : Platform) (f : Treasury) : Prop :=
  Kept p.self f.distributions.table f.distributions.accounts f.output

/-- A change that the book does not note. -/
structure Idle (f f' : Treasury) : Prop where
  table : f'.distributions.table = f.distributions.table
  accounts : f'.distributions.accounts = f.distributions.accounts
  followed : follow (trace f'.output) = follow (trace f.output)

theorem Idle.refl (f : Treasury) : Idle f f := ⟨rfl, rfl, rfl⟩

theorem Idle.trans {f₁ f₂ f₃ : Treasury} (h₁ : Idle f₁ f₂) (h₂ : Idle f₂ f₃) : Idle f₁ f₃ :=
  ⟨h₂.table.trans h₁.table, h₂.accounts.trans h₁.accounts, h₂.followed.trans h₁.followed⟩

theorem Idle.booked (h : Idle f f') (hf : Booked p f) : Booked p f' := by
  rw [Booked, Kept, h.table, h.accounts, h.followed]
  exact hf

/-! ### Setting up -/

theorem emplaceMasterPool_idle (h : emplaceMasterPool p f = .ok f') : Idle f f' := by
  simp only [emplaceMasterPool, bind_eq_ok, pure_eq_ok] at h
  obtain ⟨pools, -, rfl⟩ := h
  exact ⟨rfl, rfl, follow_unnoted p f.output rfl⟩

theorem reservePool_idle {distributionTime : Nat} {prorateNum : Option Nat}
    {acc acc' : Treasury × Asset} {pool : Pool}
    (h : reservePool p distributionTime prorateNum acc pool = .ok acc') : Idle acc.1 acc'.1 := by
  unfold reservePool at h
  split at h
  · cases h
    exact Idle.refl _
  · simp only [bind_eq_ok, pure_eq_ok] at h
    obtain ⟨amount, -, owned, -, total, -, rfl⟩ := h
    exact ⟨rfl, rfl, follow_unnoted p acc.1.output rfl⟩

theorem returnExcess_idle {distributionTime : Nat} {total used : Asset}
    (h : returnExcess p f distributionTime total used = .ok f') : Idle f f' := by
  simp only [returnExcess, bind_eq_ok] at h
  obtain ⟨same, -, h⟩ := h
  split at h
  · cases h
    exact Idle.refl f
  · simp only [bind_eq_ok, pure_eq_ok] at h
    obtain ⟨excess, -, owned, -, rfl⟩ := h
    exact ⟨rfl, rfl, follow_unnoted p f.output rfl⟩

/-- A distribution that has not come to anybody yet gets another row. -/
theorem Agrees.opened {contract : Name} {table : Schedule} {accounts : FundAccounts} {book : FundBook}
    (h : Agrees contract table accounts book) {old row : Distribution} (hold : old ∈ table.rows)
    (hsame : row.distributionTime = old.distributionTime) (hnone : ∀ owner, ¬ Came old owner)
    (hsmall : row.distributionTime < 2 ^ 32) :
    Agrees contract (table.replace row) accounts book := by
  refine ⟨(h.timely.without _).put _ ?_ hsmall ?_, h.covers⟩
  · rw [hsame]
    exact h.timely.scheduled old hold
  · intro k hk hkey
    rw [hsame] at hkey
    exact absurd hkey (h.timely.fresh hold hnone k hk)

theorem booked_openDistribution {distributionTime : Nat} {total used : Asset}
    (hrow : .next distributionTime ∈ f.distributions.table.rows)
    (hsmall : distributionTime < 2 ^ 32) (hf : Booked p f)
    (h : openDistribution p c f distributionTime total = .ok (f', used)) : Booked p f' := by
  have hopened : ∀ row : Distribution, row.distributionTime = distributionTime →
      (follow (trace f.output)).Holds (Agrees p.self (f.distributions.table.replace row)
        f.distributions.accounts) := by
    intro row htime
    refine Holds.mono (fun book hbook => ?_) hf
    exact Agrees.opened hbook hrow htime (fun owner hcame => hcame) (htime ▸ hsmall)
  unfold openDistribution at h
  split at h
  · simp only [bind_eq_ok, pure_eq_ok, Prod.mk.injEq] at h
    obtain ⟨⟨shares, amount⟩, -, rfl, -⟩ := h
    rw [Booked, Kept, follow_unnoted p f.output rfl]
    exact hopened (.current distributionTime emptyName shares) rfl
  · simp only [pure_eq_ok, Prod.mk.injEq] at h
    obtain ⟨rfl, -⟩ := h
    exact hopened (.election distributionTime total) rfl

theorem emplaceAccount_eq_ok {accounts accounts' : FundAccounts} {owner : Name}
    {distributionTime rank : Nat} {balance : Asset}
    (h : emplaceAccount accounts owner distributionTime rank balance = .ok accounts') :
    ∃ id, accounts.emplace? ⟨id, owner, distributionTime, rank, balance⟩ = some accounts' :=
  ⟨_, expect_eq_ok.mp h⟩

theorem booked_fundDistribution {distributionTime : Nat} {total : Asset}
    (hrow : .next distributionTime ∈ f.distributions.table.rows)
    (hsmall : distributionTime < 2 ^ 32) (hf : Booked p f)
    (h : fundDistribution p c f distributionTime total = .ok f') : Booked p f' := by
  unfold fundDistribution at h
  split at h
  · simp only [bind_eq_ok, pure_eq_ok] at h
    obtain ⟨⟨f₁, used⟩, hopen, f₂, hexcess, accounts, haccounts, rfl⟩ := h
    have hf₂ := (returnExcess_idle hexcess).booked (booked_openDistribution hrow hsmall hf hopen)
    obtain ⟨id, hid⟩ := emplaceAccount_eq_ok haccounts
    refine Holds.mono (fun book hbook => ⟨hbook.timely, hbook.covers.pools ?_ ?_⟩) hf₂
    · intro a ha
      rw [Table.mem_emplace? hid]
      constructor
      · rintro (rfl | ha')
        · exact absurd rfl ha
        · exact ha'
      · exact .inr
    · intro a ha ha0
      rcases (Table.mem_emplace? hid).mp ha with rfl | ha
      · exact ⟨rfl, hsmall⟩
      · exact ⟨hbook.covers.pool a ha ha0, (hbook.covers.small a ha).1⟩
  · rw [pure_eq_ok] at h
    subst h
    rw [Booked, Kept, follow_unnoted p _ rfl, follow_unnoted p _ rfl]
    exact Holds.mono (fun book hbook => ⟨hbook.timely.without _, hbook.covers⟩) hf

theorem booked_scheduleDistribution {distributionTime : Nat} (hf : Booked p f)
    (h : scheduleDistribution p f distributionTime = .ok f') :
    Booked p f' ∧ .next distributionTime ∈ f'.distributions.table.rows := by
  simp only [scheduleDistribution, bind_eq_ok, expect_eq_ok, pure_eq_ok] at h
  obtain ⟨table, htable, rfl⟩ := h
  refine ⟨?_, (Table.mem_emplace? htable).mpr (.inl rfl)⟩
  rw [Booked, Kept, follow_pushEvent]
  refine Holds.post hf fun book hbook => ?_
  simp only [FundBook.post, FundBook.postEvent]
  split
  · trivial
  · rename_i hnew
    exact ⟨hbook.timely.announced htable hnew, hbook.covers⟩

theorem booked_startDistribution {distributionTime : Nat}
    (hrow : .next distributionTime ∈ f.distributions.table.rows)
    (hsmall : distributionTime < 2 ^ 32) (hf : Booked p f)
    (h : startDistribution p c f distributionTime = .ok f') :
    Booked p f' ∧
      .next (nextDistribution c distributionTime).1 ∈ f'.distributions.table.rows := by
  simp only [startDistribution, bind_eq_ok] at h
  obtain ⟨f₁, hpool, ⟨f₂, total⟩, hreserve, f₃, hfund, h⟩ := h
  have hidle : Idle f f₁ := by
    split at hpool
    · exact emplaceMasterPool_idle hpool
    · cases hpool
      exact Idle.refl f
  have hidle₂ : Idle f f₂ := foldlM_preserves (fun acc : Treasury × Asset => Idle f acc.1)
    (fun _ _ _ hstep hacc => hacc.trans (reservePool_idle hstep)) _ hreserve hidle
  refine booked_scheduleDistribution ?_ h
  refine booked_fundDistribution ?_ hsmall (hidle₂.booked hf) hfund
  rw [hidle₂.table]
  exact hrow

theorem booked_setupFrom {fuel : Nat} {row : Distribution} {result : Bool} {r : Treasury × Bool}
    (hnow : c.now < 2 ^ 32) (hrow : row ∈ f.distributions.table.rows) (hf : Booked p f)
    (h : setupFrom p c fuel f row result = .ok r) : Booked p r.1 := by
  induction fuel generalizing f row result with
  | zero => cases h
  | succ fuel ih =>
      simp only [setupFrom] at h
      split at h
      · rename_i distributionTime
        split at h
        · cases h
          exact hf
        · rename_i hcome
          simp only [bind_eq_ok] at h
          obtain ⟨f₁, hstart, h⟩ := h
          obtain ⟨hf₁, hnext⟩ := booked_startDistribution hrow (by omega) hf hstart
          exact ih hnext hf₁ h
      · cases h

theorem booked_setupDistribution {init : Nat} {r : Treasury × Bool} (hnow : c.now < 2 ^ 32)
    (hf : Booked p f) (h : setupDistribution p c f init = .ok r) : Booked p r.1 := by
  simp only [setupDistribution] at h
  have hnow' : (if init = 0 then c else { c with nextElectionTime := some init }).now < 2 ^ 32 := by
    split
    · exact hnow
    · exact hnow
  generalize (if init = 0 then c else { c with nextElectionTime := some init }) = c' at h hnow'
  split at h
  · rename_i last hlast
    exact booked_setupFrom hnow' (List.mem_of_getLast? hlast) hf h
  · split at h
    · cases h
      exact hf
    · simp only [bind_eq_ok] at h
      obtain ⟨f₁, hschedule, h⟩ := h
      obtain ⟨hf₁, hnext⟩ := booked_scheduleDistribution hf hschedule
      exact booked_setupFrom hnow' hnext hf₁ h

theorem booked_addToPool {pool : Name} {amount : Asset} (hnow : c.now < 2 ^ 32)
    (hf : Booked p f) (h : addToPool p c f pool amount = .ok f') : Booked p f' := by
  simp only [addToPool, bind_eq_ok, pure_eq_ok] at h
  obtain ⟨⟨f₁, started⟩, hsetup, owned, -, rfl⟩ := h
  exact booked_setupDistribution hnow hf hsetup

/-! ### Paying out -/

/-- A distribution is being paid out: it has come to some members up to some rank, and takes the
amounts from the account of the contract. -/
structure Paying (contract : Name) (distributionTime : Nat) (pool : Option Nat) (table : Schedule)
    (accounts : FundAccounts) (Paid : Name → Nat → Prop) (book : FundBook) : Prop where
  timely : Timely book.times (keysOf book.funds) (table.erase distributionTime)
  listed : distributionTime ∈ book.times
  small : distributionTime < 2 ^ 32
  covers : Covers contract book.funds accounts
  came : ∀ k ∈ keysOf book.funds, k.2.1 = distributionTime → Paid k.1 k.2.2
  pool : ∀ id, pool = some id → ∃ a ∈ accounts.rows, a.id = id ∧ a.rank = 0

section Payments

variable {contract : Name} {distributionTime : Nat} {pool : Option Nat} {table : Schedule}
  {accounts accounts' : FundAccounts} {Paid Paid' : Name → Nat → Prop} {book : FundBook}

theorem Paying.mono (h : Paying contract distributionTime pool table accounts Paid book)
    (hpaid : ∀ owner rank, Paid owner rank → Paid' owner rank) :
    Paying contract distributionTime pool table accounts Paid' book :=
  { h with came := fun k hk hkey => hpaid k.1 k.2.2 (h.came k hk hkey) }

theorem Paying.drawn {amount : Asset}
    (h : Paying contract distributionTime pool table accounts Paid book)
    (hdraw : drawFrom accounts pool amount = .ok accounts') :
    Paying contract distributionTime pool table accounts' Paid book := by
  unfold drawFrom at hdraw
  split at hdraw
  · rename_i row hrow
    simp only [bind_eq_ok, pure_eq_ok] at hdraw
    obtain ⟨balance, -, rfl⟩ := hdraw
    obtain ⟨id, rfl, hfound⟩ := Option.bind_eq_some_iff.mp hrow
    have hid := Table.key_of_find? hfound
    subst hid
    have hmem := Table.mem_of_find? hfound
    obtain ⟨a, ha, hid, hrank⟩ := h.pool row.id rfl
    obtain rfl := Table.eq_of_key_eq ha hmem hid
    refine { h with covers := h.covers.drawn ha hrank (.inl ⟨balance, rfl⟩), pool := ?_ }
    intro id hid
    cases hid
    refine ⟨{ a with balance := balance }, ?_, rfl, hrank⟩
    exact Table.mem_replace.mpr (.inr ⟨rfl, a, hfound⟩)
  · simp only [bind_eq_ok, pure_eq_ok] at hdraw
    obtain ⟨-, -, rfl⟩ := hdraw
    exact h

theorem keysOf_emplace? {funds funds' : Funds} {fund : DistributionFundObject}
    (h : funds.emplace? fund = some funds') : keysOf funds' = keysOf funds ++ [fund.byPk] := by
  rw [keysOf, emplace?_eq_some.mp h, List.map_append]
  rfl

theorem find?_none_of_keys {funds : Funds} {k : Name × Nat × Nat} (h : k ∉ keysOf funds) :
    funds.find? k = none := by
  rw [find?_eq_none]
  rintro fund hfund rfl
  exact h (List.mem_map_of_mem hfund)

theorem fundRank_paying {owner last : Name} {bound i : Nat} {amount : Asset} (hlast : last < owner)
    (hbound : bound ≤ i) (hrank : i + 1 < 2 ^ 32)
    (hf : (follow (trace f.output)).Holds (Paying p.self distributionTime pool table
      f.distributions.accounts fun a r => a ≤ last ∨ (a = owner ∧ r ≤ bound)))
    (h : fundRank p distributionTime pool owner f (i, amount) = .ok f') :
    f'.distributions.table = f.distributions.table ∧
      (follow (trace f'.output)).Holds (Paying p.self distributionTime pool table
        f'.distributions.accounts fun a r => a ≤ last ∨ (a = owner ∧ r ≤ i + 1)) := by
  simp only [fundRank, bind_eq_ok, pure_eq_ok] at h
  obtain ⟨added, hadded, drawn, hdrawn, rfl⟩ := h
  refine ⟨rfl, ?_⟩
  rw [follow_pushEvent]
  refine Holds.post hf fun book hbook => ?_
  obtain ⟨id, hid⟩ := emplaceAccount_eq_ok hadded
  have hnew : (owner, distributionTime, i + 1) ∉ keysOf book.funds := by
    intro hmem
    rcases hbook.came _ hmem rfl with hle | ⟨-, hle⟩
    · exact absurd hlast (not_lt.mpr hle)
    · simp only at hle
      omega
  obtain ⟨funds', hfunds', hcovers⟩ := hbook.covers.opened hid (Nat.succ_ne_zero i)
    ⟨hbook.small, hrank⟩ (find?_none_of_keys hnew)
  have hpaying : Paying p.self distributionTime pool table added
      (fun a r => a ≤ last ∨ (a = owner ∧ r ≤ i + 1)) { book with funds := funds' } := by
    have hkeys := keysOf_emplace? hfunds'
    refine ⟨?_, hbook.listed, hbook.small, hcovers, ?_, ?_⟩
    · rw [hkeys]
      exact hbook.timely.funded (k := (owner, distributionTime, i + 1)) hbook.listed
    · intro k hk hkey
      rw [hkeys] at hk
      rcases List.mem_append.mp hk with hk | hk
      · rcases hbook.came k hk hkey with hle | ⟨howner, hle⟩
        · exact .inl hle
        · exact .inr ⟨howner, by omega⟩
      · obtain rfl := List.mem_singleton.mp hk
        exact .inr ⟨rfl, le_refl _⟩
    · intro id' hid'
      obtain ⟨a, ha, haid, ha0⟩ := hbook.pool id' hid'
      exact ⟨a, (Table.mem_emplace? hid).mpr (.inr ha), haid, ha0⟩
  simp only [FundBook.post, FundBook.postEvent, hfunds', FundBook.withFunds]
  exact hpaying.drawn hdrawn

/-- The ranks of one member, one after the other. -/
theorem fundRanks_paying {owner last : Name} {bound : Nat} {shares : List (Nat × Asset)}
    (hlast : last < owner) (hsorted : (shares.map Prod.fst).Pairwise (· < ·))
    (hshares : ∀ share ∈ shares, bound ≤ share.1 ∧ share.1 + 1 < 2 ^ 32)
    (hf : (follow (trace f.output)).Holds (Paying p.self distributionTime pool table
      f.distributions.accounts fun a r => a ≤ last ∨ (a = owner ∧ r ≤ bound)))
    (h : shares.foldlM (fundRank p distributionTime pool owner) f = .ok f') :
    f'.distributions.table = f.distributions.table ∧
      (follow (trace f'.output)).Holds (Paying p.self distributionTime pool table
        f'.distributions.accounts fun a _ => a ≤ owner) := by
  induction shares generalizing f bound with
  | nil =>
      cases h
      refine ⟨rfl, Holds.mono (fun book hbook => hbook.mono ?_) hf⟩
      rintro a r (hle | ⟨rfl, -⟩)
      · exact hle.trans hlast.le
      · exact le_refl a
  | cons share rest ih =>
      obtain ⟨i, amount⟩ := share
      rw [List.foldlM_cons, bind_eq_ok] at h
      obtain ⟨f₁, hfirst, hrest⟩ := h
      rw [List.map_cons, List.pairwise_cons] at hsorted
      obtain ⟨hbound, hrank⟩ := hshares _ List.mem_cons_self
      obtain ⟨htable, hf₁⟩ := fundRank_paying hlast hbound hrank hf hfirst
      have hshares' : ∀ share ∈ rest, i + 1 ≤ share.1 ∧ share.1 + 1 < 2 ^ 32 := by
        intro share hshare
        refine ⟨?_, (hshares share (List.mem_cons_of_mem _ hshare)).2⟩
        exact hsorted.1 share.1 (List.mem_map_of_mem hshare)
      obtain ⟨htable', hf'⟩ := ih hsorted.2 hshares' hf₁ hrest
      exact ⟨htable'.trans htable, hf'⟩

theorem map_fst_zip_sublist {α β : Type} (l : List α) (l' : List β) :
    ((l.zip l').map Prod.fst).Sublist l := by
  induction l generalizing l' with
  | nil => exact List.Sublist.refl []
  | cons a l ih =>
      cases l' with
      | nil => exact List.nil_sublist _
      | cons b l' => exact (ih l').cons_cons a

theorem sharesBelow_sorted (rankDistribution : List Asset) (rank : Nat) :
    ((sharesBelow rankDistribution rank).map Prod.fst).Pairwise (· < ·) := by
  have hsublist := map_fst_zip_sublist (List.range rank) (rankDistribution.take rank)
  exact List.Pairwise.sublist hsublist List.pairwise_lt_range

theorem fst_lt_of_mem_sharesBelow {rankDistribution : List Asset} {rank : Nat}
    {share : Nat × Asset} (h : share ∈ sharesBelow rankDistribution rank) : share.1 < rank :=
  List.mem_range.mp (List.of_mem_zip h).1

theorem fundMembers_paying {rankDistribution : List Asset} {maxSteps : Nat}
    {members : List Member} {last : Name} {r : Nat × Name × Treasury}
    (hsorted : members.Pairwise fun m n => m.account < n.account)
    (habove : ∀ m ∈ members, last < m.account) (hranks : ∀ m ∈ members, m.electionRank < 2 ^ 8)
    (hf : (follow (trace f.output)).Holds (Paying p.self distributionTime pool table
      f.distributions.accounts fun a _ => a ≤ last))
    (h : fundMembers p distributionTime rankDistribution pool maxSteps members last f = .ok r) :
    r.2.2.distributions.table = f.distributions.table ∧
      (follow (trace r.2.2.output)).Holds (Paying p.self distributionTime pool table
        r.2.2.distributions.accounts fun a _ => a ≤ r.2.1) := by
  fun_induction fundMembers p distributionTime rankDistribution pool maxSteps members last f with
  | case1 members last f =>
      cases h
      exact ⟨rfl, hf⟩
  | case2 maxSteps last f =>
      cases h
      exact ⟨rfl, hf⟩
  | case3 last maxSteps member rest f ih =>
      simp only [bind_eq_ok] at h
      obtain ⟨-, -, f₁, hfund, h⟩ := h
      rw [List.pairwise_cons] at hsorted
      have hstart : (follow (trace f.output)).Holds (Paying p.self distributionTime pool table
          f.distributions.accounts fun a r => a ≤ last ∨ (a = member.account ∧ r ≤ 0)) :=
        Holds.mono (fun book hbook => hbook.mono fun _ _ hle => .inl hle) hf
      have hrank := hranks member List.mem_cons_self
      obtain ⟨htable, hf₁⟩ := fundRanks_paying (habove member List.mem_cons_self)
        (sharesBelow_sorted _ _)
        (fun share hshare => ⟨Nat.zero_le _, by
          have hlt := fst_lt_of_mem_sharesBelow hshare
          omega⟩) hstart hfund
      obtain ⟨htable', hf'⟩ := ih f₁ hsorted.2 hsorted.1
        (fun m hm => hranks m (List.mem_cons_of_mem member hm)) hf₁ h
      exact ⟨htable'.trans htable, hf'⟩

theorem closePool_paying
    (hf : (follow (trace f.output)).Holds (Paying p.self distributionTime pool table
      f.distributions.accounts Paid)) (h : closePool f pool = .ok f') :
    f'.distributions.table = f.distributions.table ∧
      (follow (trace f'.output)).Holds (Paying p.self distributionTime none table
        f'.distributions.accounts Paid) := by
  have hkept : (follow (trace f.output)).Holds (Paying p.self distributionTime none table
      f.distributions.accounts Paid) :=
    Holds.mono (fun book hbook => { hbook with pool := fun _ hid => by cases hid }) hf
  unfold closePool at h
  split at h
  · cases h
    exact ⟨rfl, hkept⟩
  · rename_i row hrow
    simp only [bind_eq_ok] at h
    obtain ⟨-, -, h⟩ := h
    split at h
    · cases h
      refine ⟨rfl, Holds.mono (fun book hbook => ?_) hf⟩
      obtain ⟨id, rfl, hfound⟩ := Option.bind_eq_some_iff.mp hrow
      have hid := Table.key_of_find? hfound
      subst hid
      obtain ⟨a, ha, hid, hrank⟩ := hbook.pool row.id rfl
      obtain rfl := Table.eq_of_key_eq ha (Table.mem_of_find? hfound) hid
      exact { hbook with
        covers := hbook.covers.drawn ha hrank (.inr rfl)
        pool := fun _ hid => by cases hid }
    · cases h
      exact ⟨rfl, hkept⟩

end Payments

/-- A distribution goes on with the members that it has not come to. -/
theorem distributeCurrent_paying {members : Table Member.account} {maxSteps distributionTime : Nat}
    {last : Name} {rankDistribution : List Asset} {r : Nat × Name × Treasury}
    (hranks : ∀ m ∈ members.rows, m.electionRank < 2 ^ 8)
    (hrow : .current distributionTime last rankDistribution ∈ f.distributions.table.rows)
    (hf : Booked p f)
    (h : distributeCurrent p members maxSteps distributionTime last rankDistribution f = .ok r) :
    r.2.2.distributions.table = f.distributions.table ∧
      (follow (trace r.2.2.output)).Holds (Paying p.self distributionTime none
        f.distributions.table r.2.2.distributions.accounts fun a _ => a ≤ r.2.1) := by
  simp only [distributeCurrent, bind_eq_ok, pure_eq_ok] at h
  obtain ⟨⟨remaining, last', f₁⟩, hfund, f₂, hclose, rfl⟩ := h
  have hstart : (follow (trace f.output)).Holds (Paying p.self distributionTime
      ((findByOwner f.distributions.accounts
        (distributionAccountKey p.self distributionTime 0)).map DistributionAccount.id)
      f.distributions.table f.distributions.accounts fun a _ => a ≤ last) := by
    refine Holds.mono (fun book hbook => ?_) hf
    have hsmall := hbook.timely.started _ hrow rfl
    refine ⟨hbook.timely.without _, hbook.timely.scheduled _ hrow, hsmall, hbook.covers, ?_, ?_⟩
    · exact fun k hk hkey => hbook.timely.came _ hrow k hk hkey
    · intro id hid
      obtain ⟨a, ha, rfl⟩ := Option.map_eq_some_iff.mp hid
      obtain ⟨ha, hkey⟩ := findByOwner_eq_some ha
      have hfund := fundKey_of_byOwner (hbook.covers.small a ha) hsmall (by norm_num) hkey
      exact ⟨a, ha, rfl, congrArg (·.2.2) hfund⟩
  have habove : ∀ m ∈ members.above last, m ∈ members.rows ∧ last < m.account :=
    fun m hm => Table.mem_above.mp hm
  obtain ⟨htable, hf₁⟩ := fundMembers_paying (members.sorted.filter _)
    (fun m hm => (habove m hm).2) (fun m hm => hranks m (habove m hm).1) hstart hfund
  obtain ⟨htable', hf₂⟩ := closePool_paying hf₁ hclose
  exact ⟨htable'.trans htable, hf₂⟩

theorem booked_distributeRows {members : Table Member.account} {rows : List Distribution}
    {maxSteps : Nat} {r : Nat × Treasury} (hranks : ∀ m ∈ members.rows, m.electionRank < 2 ^ 8)
    (hrows : ∀ row ∈ rows, row ∈ f.distributions.table.rows)
    (hnodup : (rows.map Distribution.distributionTime).Nodup) (hf : Booked p f)
    (h : distributeRows p members rows maxSteps f = .ok r) : Booked p r.2 := by
  induction rows generalizing maxSteps f with
  | nil =>
      cases h
      exact hf
  | cons row rest ih =>
      simp only [distributeRows] at h
      split at h
      · cases h
        exact hf
      · split at h
        · rename_i distributionTime last shares
          simp only [bind_eq_ok] at h
          obtain ⟨⟨remaining, last', f₁⟩, hcurrent, h⟩ := h
          obtain ⟨htable, hpaid⟩ := distributeCurrent_paying hranks (hrows _ List.mem_cons_self)
            hf hcurrent
          simp only at htable hpaid h
          rw [← htable] at hpaid
          split at h
          · cases h
            refine Holds.mono (fun book hbook => ⟨?_, hbook.covers⟩) hpaid
            exact hbook.timely.put (.current distributionTime last' shares) hbook.listed
              hbook.small hbook.came
          · rw [List.map_cons, List.nodup_cons] at hnodup
            refine ih ?_ hnodup.2 ?_ h
            · intro row hrow
              refine Table.mem_erase.mpr ⟨?_, fun htime => hnodup.1 ?_⟩
              · rw [htable]
                exact hrows row (List.mem_cons_of_mem _ hrow)
              · exact List.mem_map.mpr ⟨row, hrow, htime⟩
            · rw [Booked, Kept, follow_unnoted p f₁.output rfl]
              exact Holds.mono (fun book hbook => ⟨hbook.timely, hbook.covers⟩) hpaid
        · cases h
          exact hf
        · cases h
          exact hf

theorem booked_distributeMonthly {members : Table Member.account} {maxSteps : Nat}
    {r : Nat × Treasury} (hnow : c.now < 2 ^ 32)
    (hranks : ∀ m ∈ members.rows, m.electionRank < 2 ^ 8) (hf : Booked p f)
    (h : distributeMonthly p c members maxSteps f = .ok r) : Booked p r.2 := by
  unfold distributeMonthly at h
  split at h
  · cases h
    exact hf
  · simp only [bind_eq_ok] at h
    obtain ⟨⟨f₁, started⟩, hsetup, h⟩ := h
    have hf₁ := booked_setupDistribution hnow hf hsetup
    exact booked_distributeRows hranks (fun row hrow => hrow) (Table.nodup_keys _) hf₁ h

theorem booked_processElectionRows {ranks : List Nat} {rows : List Distribution}
    (hrows : ∀ row ∈ rows, row ∈ f.distributions.table.rows)
    (hnodup : (rows.map Distribution.distributionTime).Nodup) (hf : Booked p f)
    (h : processElectionRows p ranks rows f = .ok f') : Booked p f' := by
  fun_induction processElectionRows p ranks rows f with
  | case1 f =>
      cases h
      exact hf
  | case2 t amount rest f ih =>
      simp only [bind_eq_ok, beginElectionDistribution, pure_eq_ok] at h
      obtain ⟨f₁, ⟨⟨shares, used⟩, -, -, -, -, -, rfl⟩, h⟩ := h
      rw [List.map_cons, List.nodup_cons] at hnodup
      refine ih _ ?_ hnodup.2 ?_ h
      · intro row hrow
        refine Table.mem_replace.mpr (.inl ⟨hrows row (List.mem_cons_of_mem _ hrow), ?_⟩)
        exact fun htime => hnodup.1 (List.mem_map.mpr ⟨row, hrow, htime⟩)
      · rw [Booked, Kept, follow_unnoted p f.output rfl]
        refine Holds.mono (fun book hbook => ?_) hf
        have hrow := hrows _ List.mem_cons_self
        exact Agrees.opened hbook hrow rfl (fun owner hcame => hcame)
          (hbook.timely.started (.election t amount) hrow rfl)
  | case3 t last shares rest f ih =>
      rw [List.map_cons, List.nodup_cons] at hnodup
      exact ih (fun row hrow => hrows row (List.mem_cons_of_mem _ hrow)) hnodup.2 hf h
  | case4 t rest f =>
      cases h
      exact hf

end Eden.FundSteps
