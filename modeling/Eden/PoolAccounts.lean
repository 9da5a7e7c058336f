import Eden.DistributionShape
import Eden.FundBooks
import Eden.RankLevels

/-!
The accounts in which the contract keeps what its distributions have not paid out yet.
-/

namespace Eden.PoolAccounts

open Eden.ExceptReasoning
open Eden.SortedTable
open Eden.ChainPrimitives
open Eden.ContractState
open Eden.Runtime
open Eden.DistributionTables
open Eden.SoundTreasury
open Eden.CatchUpLoop (electionAt electionAt_now)
open Eden.DistributionShape
open Eden.FundBooks (FundAccounts fundKey findByOwner_eq_some fundKey_of_byOwner)
open Eden.MemberShares

variable {p : Platform} {contract : Name} {c : Calendar} {f f' : Treasury}
  {accounts accounts' : FundAccounts} {time : Nat}

/-! ### The accounts -/

/-- Whether an account holds what the distribution of a time has not paid out. -/
def isPool (contract : Name) (time : Nat) (a : DistributionAccount) : Bool :=
  a.owner = contract && a.distributionTime = time && a.rank = 0

/-- What the distribution of a time has not paid out. -/
def pooled (contract : Name) (accounts : FundAccounts) (time : Nat) : Int :=
  accounts.total fun a => if isPool contract time a then a.balance.amount else 0

def HasPool (contract : Name) (accounts : FundAccounts) (time : Nat) : Prop :=
  ∃ a ∈ accounts.rows, isPool contract time a = true

/-- A distribution has at most one account. -/
structure Single (contract : Name) (accounts : FundAccounts) : Prop where
  small : ∀ a ∈ accounts.rows, a.distributionTime < 2 ^ 32 ∧ a.rank < 2 ^ 32
  single : ∀ time, accounts.count (isPool contract time) ≤ 1

theorem isPool_iff {a : DistributionAccount} :
    isPool contract time a = true ↔ fundKey a = (contract, time, 0) := by
  simp only [isPool, Bool.and_eq_true, decide_eq_true_eq, fundKey, Prod.mk.injEq, and_assoc]

theorem not_isPool_of_owner {a : DistributionAccount} (h : a.owner ≠ contract) :
    isPool contract time a = false := by
  rw [Bool.eq_false_iff, ne_eq, isPool_iff]
  exact fun hkey => h (congrArg Prod.fst hkey)

theorem not_isPool_of_rank {a : DistributionAccount} (h : a.rank ≠ 0) :
    isPool contract time a = false := by
  rw [Bool.eq_false_iff, ne_eq, isPool_iff]
  exact fun hkey => h (congrArg (fun k => k.2.2) hkey)

theorem pooled_of_none (h : ¬ HasPool contract accounts time) :
    pooled contract accounts time = 0 := by
  have hzero : ∀ a ∈ accounts.rows,
      (if isPool contract time a then a.balance.amount else 0) = 0 := by
    intro a ha
    rw [if_neg fun hpool => h ⟨a, ha, hpool⟩]
  rw [pooled, Table.total_congr hzero, Table.total, List.map_const', List.sum_replicate,
    smul_zero]

theorem not_hasPool_of_count (h : accounts.count (isPool contract time) = 0) :
    ¬ HasPool contract accounts time := by
  rintro ⟨a, ha, hpool⟩
  exact List.countP_eq_zero.mp h a ha hpool

theorem Single.pooled_eq (h : Single contract accounts) {a : DistributionAccount}
    (ha : a ∈ accounts.rows) (hpool : isPool contract time a = true) :
    pooled contract accounts time = a.balance.amount := by
  have hfind := Table.find?_of_mem ha
  have hcount := Table.count_erase hfind (isPool contract time)
  have hsingle := h.single time
  rw [if_pos hpool] at hcount
  have hothers := pooled_of_none (not_hasPool_of_count
    (show (accounts.erase a.id).count (isPool contract time) = 0 by omega))
  rw [pooled, Table.total_erase hfind, if_pos hpool]
  rw [pooled] at hothers
  rw [hothers, Int.add_zero]

/-- The code finds the account of a distribution by its key. -/
theorem Single.lookup (h : Single contract accounts) (htime : time < 2 ^ 32)
    {a : DistributionAccount}
    (hfind : findByOwner accounts (distributionAccountKey contract time 0) = some a) :
    a ∈ accounts.rows ∧ isPool contract time a = true := by
  obtain ⟨ha, hkey⟩ := findByOwner_eq_some hfind
  exact ⟨ha, isPool_iff.mpr (fundKey_of_byOwner (h.small a ha) htime (Nat.two_pow_pos 32) hkey)⟩

theorem not_hasPool_of_lookup
    (hfind : findByOwner accounts (distributionAccountKey contract time 0) = none) :
    ¬ HasPool contract accounts time := by
  rintro ⟨a, ha, hpool⟩
  have hnone := List.find?_eq_none.mp hfind a (Table.mem_index.mpr ha)
  have hkey := isPool_iff.mp hpool
  simp only [fundKey, Prod.mk.injEq] at hkey
  obtain ⟨howner, htime, hrank⟩ := hkey
  rw [decide_eq_true_eq, DistributionAccount.byOwner, howner, htime, hrank] at hnone
  exact hnone rfl

/-! ### Payments -/

/-- An amount is taken out of the account of one distribution. -/
structure Draws (contract : Name) (time : Nat) (amount : Int) (accounts accounts' : FundAccounts) :
    Prop where
  single : Single contract accounts'
  pooled : ∀ t, pooled contract accounts' t =
    pooled contract accounts t - if t = time then amount else 0
  pools : ∀ t, HasPool contract accounts' t → HasPool contract accounts t

theorem Draws.refl (h : Single contract accounts) (time : Nat) :
    Draws contract time 0 accounts accounts := by
  refine ⟨h, fun t => ?_, fun _ ht => ht⟩
  rw [ite_self, Int.sub_zero]

theorem Draws.trans {accounts₁ accounts₂ accounts₃ : FundAccounts} {amount amount' : Int}
    (h : Draws contract time amount accounts₁ accounts₂)
    (h' : Draws contract time amount' accounts₂ accounts₃) :
    Draws contract time (amount + amount') accounts₁ accounts₃ := by
  refine ⟨h'.single, fun t => ?_, fun t ht => h.pools t (h'.pools t ht)⟩
  rw [h'.pooled, h.pooled]
  split_ifs <;> omega

/-- Accounts that are none of a distribution come and go. -/
theorem draws_of_same (h : Single contract accounts)
    (hsmall : ∀ a ∈ accounts'.rows, a.distributionTime < 2 ^ 32 ∧ a.rank < 2 ^ 32)
    (hpooled : ∀ t, pooled contract accounts' t = pooled contract accounts t)
    (hcount : ∀ t, accounts'.count (isPool contract t) = accounts.count (isPool contract t))
    (time : Nat) : Draws contract time 0 accounts accounts' := by
  refine ⟨⟨hsmall, fun t => hcount t ▸ h.single t⟩, fun t => ?_, fun t ht => ?_⟩
  · rw [hpooled, ite_self, Int.sub_zero]
  · by_contra hnone
    have hzero : accounts.count (isPool contract t) = 0 :=
      List.countP_eq_zero.mpr fun a ha hpool => hnone ⟨a, ha, hpool⟩
    rw [← hcount] at hzero
    exact not_hasPool_of_count hzero ht

theorem draws_emplace {a : DistributionAccount} (h : Single contract accounts)
    (ha : accounts.emplace? a = some accounts') (hrank : a.rank ≠ 0)
    (hsmall : a.distributionTime < 2 ^ 32 ∧ a.rank < 2 ^ 32) (time : Nat) :
    Draws contract time 0 accounts accounts' := by
  refine draws_of_same h ?_ ?_ ?_ time
  · intro b hb
    rcases (Table.mem_emplace? ha).mp hb with rfl | hb
    · exact hsmall
    · exact h.small b hb
  · intro t
    rw [pooled, Table.total_emplace? ha, not_isPool_of_rank hrank]
    exact Int.zero_add _
  · intro t
    rw [Table.count_emplace? ha, not_isPool_of_rank hrank]
    rfl

theorem draws_erase {a : DistributionAccount} (h : Single contract accounts)
    (ha : accounts.find? a.id = some a) (howner : a.owner ≠ contract) (time : Nat) :
    Draws contract time 0 accounts (accounts.erase a.id) := by
  refine draws_of_same h ?_ ?_ ?_ time
  · exact fun b hb => h.small b (Table.mem_erase.mp hb).1
  · intro t
    have htotal := Table.total_erase ha fun b => if isPool contract t b then b.balance.amount else 0
    rw [not_isPool_of_owner howner] at htotal
    rw [pooled, pooled, htotal]
    exact (Int.zero_add _).symm
  · intro t
    have hcount := Table.count_erase ha (isPool contract t)
    rw [not_isPool_of_owner howner] at hcount
    rw [hcount]
    rfl

theorem draws_resize {a : DistributionAccount} (balance : Asset) (h : Single contract accounts)
    (ha : a ∈ accounts.rows) (howner : a.owner ≠ contract) (time : Nat) :
    Draws contract time 0 accounts (accounts.replace { a with balance := balance }) := by
  have hfind : accounts.find? ({ a with balance := balance } : DistributionAccount).id = some a :=
    Table.find?_of_mem ha
  have hnew : ∀ t, isPool contract t { a with balance := balance } = false :=
    fun _ => not_isPool_of_owner howner
  refine draws_of_same h ?_ ?_ ?_ time
  · intro b hb
    rcases Table.mem_replace.mp hb with ⟨hb, -⟩ | ⟨rfl, -⟩
    · exact h.small b hb
    · exact h.small a ha
  · intro t
    have hbefore := Table.total_erase hfind
      fun b => if isPool contract t b then b.balance.amount else 0
    rw [not_isPool_of_owner howner] at hbefore
    rw [pooled, pooled, Table.total_replace hfind, hnew, hbefore]
    rfl
  · intro t
    have hbefore := Table.total_erase hfind fun b => if isPool contract t b then 1 else 0
    rw [not_isPool_of_owner howner] at hbefore
    rw [Table.count_eq_total, Table.count_eq_total, Table.total_replace hfind, hnew, hbefore]

/-- The account of a distribution gets another balance. -/
theorem draws_replace {a : DistributionAccount} (balance : Asset) (h : Single contract accounts)
    (ha : a ∈ accounts.rows) (hpool : isPool contract time a = true) :
    Draws contract time (a.balance.amount - balance.amount) accounts
      (accounts.replace { a with balance := balance }) := by
  have hfind : accounts.find? ({ a with balance := balance } : DistributionAccount).id = some a :=
    Table.find?_of_mem ha
  have hsame : ∀ t, isPool contract t { a with balance := balance } = isPool contract t a :=
    fun _ => rfl
  have hkey := isPool_iff.mp hpool
  refine ⟨⟨?_, ?_⟩, ?_, ?_⟩
  · intro b hb
    rcases Table.mem_replace.mp hb with ⟨hb, -⟩ | ⟨rfl, -⟩
    · exact h.small b hb
    · exact h.small a ha
  · intro t
    have hsingle := h.single t
    have hcount := Table.total_replace hfind fun b => if isPool contract t b then 1 else 0
    have hbefore := Table.count_erase hfind (isPool contract t)
    rw [Table.count_eq_total, hcount, hsame]
    rw [Table.count_eq_total (accounts.erase _)] at hbefore
    omega
  · intro t
    have htotal := Table.total_replace hfind
      fun b => if isPool contract t b then b.balance.amount else 0
    have hbefore := Table.total_erase hfind
      fun b => if isPool contract t b then b.balance.amount else 0
    rw [pooled, pooled, htotal, hbefore, hsame]
    by_cases ht : t = time
    · rw [ht, if_pos hpool, if_pos hpool, if_pos rfl]
      dsimp only
      omega
    · have hnot : ¬ isPool contract t a = true := by
        rw [isPool_iff, hkey]
        exact fun heq => ht (congrArg (fun k => k.2.1) heq).symm
      rw [if_neg hnot, if_neg hnot, if_neg ht]
      omega
  · rintro t ⟨b, hb, hpool'⟩
    rcases Table.mem_replace.mp hb with ⟨hb, -⟩ | ⟨rfl, -⟩
    · exact ⟨b, hb, hpool'⟩
    · exact ⟨a, ha, hpool'⟩

/-- The account of a distribution is closed, with its last amount. -/
theorem draws_close {a : DistributionAccount} (h : Single contract accounts)
    (ha : a ∈ accounts.rows) (hpool : isPool contract time a = true) :
    Draws contract time a.balance.amount accounts (accounts.erase a.id) ∧
      ¬ HasPool contract (accounts.erase a.id) time := by
  have hfind := Table.find?_of_mem ha
  have hkey := isPool_iff.mp hpool
  have hmem : ∀ b ∈ (accounts.erase a.id).rows, b ∈ accounts.rows :=
    fun b hb => (Table.mem_erase.mp hb).1
  refine ⟨⟨⟨fun b hb => h.small b (hmem b hb), ?_⟩, ?_, ?_⟩, ?_⟩
  · intro t
    have hcount := Table.count_erase hfind (isPool contract t)
    have hsingle := h.single t
    omega
  · intro t
    have hbefore := Table.total_erase hfind
      fun b => if isPool contract t b then b.balance.amount else 0
    rw [pooled, pooled, hbefore]
    by_cases ht : t = time
    · rw [ht, if_pos hpool, if_pos rfl]
      omega
    · have hnot : ¬ isPool contract t a = true := by
        rw [isPool_iff, hkey]
        exact fun heq => ht (congrArg (fun k => k.2.1) heq).symm
      rw [if_neg hnot, if_neg ht]
      omega
  · rintro t ⟨b, hb, hpool'⟩
    exact ⟨b, hmem b hb, hpool'⟩
  · have hcount := Table.count_erase hfind (isPool contract time)
    have hsingle := h.single time
    rw [if_pos hpool] at hcount
    exact not_hasPool_of_count (by omega)

/-! ### What is due -/

/-- The ranks of the members behind a name that have one. -/
def ranksAbove (members : Table Member.account) (last : Name) : Multiset Nat :=
  members.total fun m => if last < m.account ∧ 0 < m.electionRank then {m.electionRank} else 0

/-- What members of such ranks get together. -/
def due (ranks : Multiset Nat) (shares : List Asset) : Int := (ranks.map (owed shares)).sum

theorem due_add (ranks ranks' : Multiset Nat) (shares : List Asset) :
    due (ranks + ranks') shares = due ranks shares + due ranks' shares := by
  rw [due, Multiset.map_add, Multiset.sum_add]
  rfl

theorem due_rank (shares : List Asset) (rank : Nat) :
    due (if 0 < rank then {rank} else 0) shares = owed shares rank := by
  rcases Nat.eq_zero_or_pos rank with rfl | hpos
  · rfl
  · rw [if_pos hpos, due, Multiset.map_singleton, Multiset.sum_singleton]

theorem ranksAbove_eq (members : Table Member.account) (last : Name) :
    ranksAbove members last = ((members.above last).map fun m =>
      if 0 < m.electionRank then ({m.electionRank} : Multiset Nat) else 0).sum := by
  unfold ranksAbove Table.total Table.above
  induction members.rows with
  | nil => rfl
  | cons m rows ih =>
      rw [List.map_cons, List.sum_cons, ih, List.filter_cons]
      simp only [decide_eq_true_eq]
      split_ifs with hboth hlast hlast
      · rw [List.map_cons, List.sum_cons, if_pos hboth.2]
      · exact absurd hboth.1 hlast
      · rw [List.map_cons, List.sum_cons, if_neg fun hpos => hboth ⟨hlast, hpos⟩]
      · rw [zero_add]

theorem ranksAbove_cons {members : Table Member.account} {last : Name} {m : Member}
    {rest : List Member} (h : members.above last = m :: rest) :
    ranksAbove members last =
      (if 0 < m.electionRank then {m.electionRank} else 0) + ranksAbove members m.account := by
  rw [ranksAbove_eq, ranksAbove_eq members m.account, Table.above_of_above_cons h, h,
    List.map_cons, List.sum_cons]

/-- What is due is the sum of the shares of the members behind a name. -/
theorem due_ranksAbove (members : Table Member.account) (last : Name) (shares : List Asset) :
    due (ranksAbove members last) shares =
      ((members.above last).map fun m => owed shares m.electionRank).sum := by
  rw [ranksAbove_eq]
  induction members.above last with
  | nil => rfl
  | cons m rows ih =>
      rw [List.map_cons, List.sum_cons, due_add, due_rank, ih, List.map_cons, List.sum_cons]

theorem mem_ranksAbove {members : Table Member.account} {last : Name} {rank : Nat} :
    rank ∈ ranksAbove members last ↔
      ∃ m ∈ members.rows, (last < m.account ∧ 0 < m.electionRank) ∧ m.electionRank = rank := by
  unfold ranksAbove Table.total
  induction members.rows with
  | nil => simp
  | cons m rows ih =>
      rw [List.map_cons, List.sum_cons, Multiset.mem_add, ih, List.exists_mem_cons_iff]
      refine or_congr_left ?_
      split
      · rename_i hboth
        rw [Multiset.mem_singleton, eq_comm]
        exact (and_iff_right hboth).symm
      · rename_i hnot
        exact ⟨fun hmem => absurd hmem (Multiset.notMem_zero rank), fun h => absurd h.1 hnot⟩

/-! ### Paying out -/

/-- The account that a distribution is paid from. -/
def Draining (contract : Name) (time : Nat) (pool : Option Nat) (accounts : FundAccounts) : Prop :=
  ∀ id, pool = some id → ∃ a, accounts.find? id = some a ∧ isPool contract time a = true

theorem drawFrom_draws {pool : Option Nat} {amount : Asset} (hs : Single contract accounts)
    (hpool : Draining contract time pool accounts)
    (h : drawFrom accounts pool amount = .ok accounts') :
    Draws contract time amount.amount accounts accounts' ∧
      Draining contract time pool accounts' := by
  unfold drawFrom at h
  split at h
  · rename_i row hrow
    simp only [bind_eq_ok, pure_eq_ok] at h
    obtain ⟨balance, hbalance, rfl⟩ := h
    obtain ⟨id, rfl, hfind⟩ := Option.bind_eq_some_iff.mp hrow
    obtain ⟨a, ha, hisPool⟩ := hpool id rfl
    rw [hfind, Option.some.injEq] at ha
    subst ha
    obtain ⟨-, -, -, rfl⟩ := Asset.sub_eq_ok.mp hbalance
    have hdraws := draws_replace ⟨row.balance.amount - amount.amount, row.balance.symbol⟩ hs
      (Table.mem_of_find? hfind) hisPool
    rw [Int.sub_sub_self] at hdraws
    refine ⟨hdraws, fun id' hid' => ?_⟩
    cases hid'
    refine ⟨{ row with balance := ⟨row.balance.amount - amount.amount, row.balance.symbol⟩ }, ?_,
      hisPool⟩
    rw [Table.find?_replace, if_pos (Table.key_of_find? hfind), hfind]
    rfl
  · simp only [bind_eq_ok, check_eq_ok, exists_const, decide_eq_true_eq, pure_eq_ok] at h
    obtain ⟨hzero, rfl⟩ := h
    rw [hzero]
    exact ⟨.refl hs time, hpool⟩

/-- A share is moved to an account of a member. -/
theorem fundRank_draws {pool : Option Nat} {owner : Name} {share : Nat × Asset}
    (hs : Single contract f.distributions.accounts)
    (hpool : Draining contract time pool f.distributions.accounts)
    (hsmall : time < 2 ^ 32 ∧ share.1 + 1 < 2 ^ 32)
    (h : fundRank p time pool owner f share = .ok f') :
    Draws contract time share.2.amount f.distributions.accounts f'.distributions.accounts ∧
      Draining contract time pool f'.distributions.accounts := by
  simp only [fundRank, emplaceAccount, bind_eq_ok, expect_eq_ok, pure_eq_ok] at h
  obtain ⟨added, hadded, drawn, hdrawn, rfl⟩ := h
  have hadds := draws_emplace hs hadded (Nat.succ_ne_zero share.1) hsmall time
  have hpool' : Draining contract time pool added := by
    intro id hid
    obtain ⟨a, ha, hisPool⟩ := hpool id hid
    refine ⟨a, ?_, hisPool⟩
    rw [Table.find?_emplace? hadded, if_neg, ha]
    rintro rfl
    have hnew := Table.emplace?_new hadded
    rw [ha] at hnew
    cases hnew
  obtain ⟨hdraws, hpool''⟩ := drawFrom_draws hadds.single hpool' hdrawn
  have hboth := hadds.trans hdraws
  rw [Int.zero_add] at hboth
  exact ⟨hboth, hpool''⟩

theorem fundRanks_draws {pool : Option Nat} {owner : Name} {shares : List (Nat × Asset)}
    (hs : Single contract f.distributions.accounts)
    (hpool : Draining contract time pool f.distributions.accounts)
    (hsmall : time < 2 ^ 32 ∧ ∀ share ∈ shares, share.1 + 1 < 2 ^ 32)
    (h : shares.foldlM (fundRank p time pool owner) f = .ok f') :
    Draws contract time (shares.map fun share => share.2.amount).sum f.distributions.accounts
        f'.distributions.accounts ∧
      Draining contract time pool f'.distributions.accounts := by
  induction shares generalizing f with
  | nil =>
      cases h
      exact ⟨.refl hs time, hpool⟩
  | cons share rest ih =>
      rw [List.foldlM_cons, bind_eq_ok] at h
      obtain ⟨f₁, hfirst, hrest⟩ := h
      rw [List.forall_mem_cons] at hsmall
      obtain ⟨hdraws, hpool₁⟩ := fundRank_draws hs hpool ⟨hsmall.1, hsmall.2.1⟩ hfirst
      obtain ⟨hdraws', hpool'⟩ := ih hdraws.single hpool₁ ⟨hsmall.1, hsmall.2.2⟩ hrest
      rw [List.map_cons, List.sum_cons]
      exact ⟨hdraws.trans hdraws', hpool'⟩

theorem sum_sharesBelow (shares : List Asset) (rank : Nat) :
    ((sharesBelow shares rank).map fun share => share.2.amount).sum = owed shares rank := by
  have hsecond : (sharesBelow shares rank).map Prod.snd = shares.take rank := by
    refine List.map_snd_zip ?_
    rw [List.length_range, List.length_take]
    exact Nat.min_le_left _ _
  rw [owed, ← hsecond, List.map_map]
  rfl

/-- Who has been paid gets what is due, and the names behind the last one are left. -/
theorem fundMembers_draws {members : Table Member.account} {shares : List Asset}
    {pool : Option Nat} {maxSteps : Nat} {rows : List Member} {last : Name}
    {r : Nat × Name × Treasury} (habove : members.above last = rows)
    (hs : Single contract f.distributions.accounts)
    (hpool : Draining contract time pool f.distributions.accounts) (htime : time < 2 ^ 32)
    (hranks : ∀ m ∈ members.rows, m.electionRank < 2 ^ 8)
    (h : fundMembers p time shares pool maxSteps rows last f = .ok r) :
    ∃ paid, ranksAbove members last = paid + ranksAbove members r.2.1 ∧
      Draws contract time (due paid shares) f.distributions.accounts r.2.2.distributions.accounts ∧
      Draining contract time pool r.2.2.distributions.accounts ∧
      (r.1 ≠ 0 → ranksAbove members r.2.1 = 0) := by
  fun_induction fundMembers p time shares pool maxSteps rows last f with
  | case1 rows last f =>
      cases h
      exact ⟨0, (zero_add _).symm, .refl hs time, hpool, fun hleft => absurd rfl hleft⟩
  | case2 maxSteps last f =>
      cases h
      refine ⟨0, (zero_add _).symm, .refl hs time, hpool, fun _ => ?_⟩
      rw [ranksAbove_eq, habove]
      rfl
  | case3 last maxSteps member rest f ih =>
      simp only [bind_eq_ok] at h
      obtain ⟨-, -, f₁, hfund, h⟩ := h
      have hmember : member ∈ members.rows :=
        (Table.mem_above.mp (habove ▸ List.mem_cons_self)).1
      have hrank := hranks member hmember
      obtain ⟨hdraws, hpool₁⟩ := fundRanks_draws hs hpool ⟨htime, fun share hshare => by
        have hlt := List.mem_range.mp (List.of_mem_zip hshare).1
        omega⟩ hfund
      rw [sum_sharesBelow] at hdraws
      obtain ⟨paid, hpaid, hdraws', hpool', hdone⟩ :=
        ih f₁ (Table.above_of_above_cons habove) hdraws.single hpool₁ h
      refine ⟨(if 0 < member.electionRank then {member.electionRank} else 0) + paid, ?_, ?_, hpool',
        hdone⟩
      · rw [ranksAbove_cons habove, hpaid, add_assoc]
      · rw [due_add, due_rank]
        exact hdraws.trans hdraws'

/-- An empty account is closed. -/
theorem closePool_draws {pool : Option Nat} (hs : Single contract f.distributions.accounts)
    (hpool : Draining contract time pool f.distributions.accounts)
    (hnone : pool = none → ¬ HasPool contract f.distributions.accounts time)
    (h : closePool f pool = .ok f') :
    Draws contract time 0 f.distributions.accounts f'.distributions.accounts ∧
      (pooled contract f.distributions.accounts time = 0 →
        ¬ HasPool contract f'.distributions.accounts time) := by
  unfold closePool at h
  split at h
  · rename_i hrow
    cases h
    refine ⟨.refl hs time, fun _ => ?_⟩
    rcases hid : pool with _ | id
    · exact hnone hid
    · obtain ⟨a, ha, -⟩ := hpool id hid
      rw [hid, Option.bind_some, ha] at hrow
      cases hrow
  · rename_i row hrow
    simp only [bind_eq_ok] at h
    obtain ⟨-, -, h⟩ := h
    obtain ⟨id, hid, hfind⟩ := Option.bind_eq_some_iff.mp hrow
    obtain ⟨a, ha, hisPool⟩ := hpool id hid
    rw [hfind, Option.some.injEq] at ha
    subst ha
    have hmem := Table.mem_of_find? hfind
    split at h
    · rename_i hzero
      cases h
      obtain ⟨hdraws, hclosed⟩ := draws_close hs hmem hisPool
      rw [hzero] at hdraws
      exact ⟨hdraws, fun _ => hclosed⟩
    · rename_i hleft
      cases h
      refine ⟨.refl hs time, fun hzero => ?_⟩
      rw [hs.pooled_eq hmem hisPool] at hzero
      exact absurd hzero hleft

/-- A distribution is paid out to some members, and its account is closed when all have been. -/
theorem distributeCurrent_draws {members : Table Member.account} {shares : List Asset}
    {maxSteps : Nat} {last : Name} {r : Nat × Name × Treasury}
    (hs : Single p.self f.distributions.accounts) (htime : time < 2 ^ 32)
    (hranks : ∀ m ∈ members.rows, m.electionRank < 2 ^ 8)
    (hpooled : pooled p.self f.distributions.accounts time = due (ranksAbove members last) shares)
    (h : distributeCurrent p members maxSteps time last shares f = .ok r) :
    ∃ paid, ranksAbove members last = paid + ranksAbove members r.2.1 ∧
      Draws p.self time (due paid shares) f.distributions.accounts
        r.2.2.distributions.accounts ∧
      (r.1 ≠ 0 → ¬ HasPool p.self r.2.2.distributions.accounts time) := by
  simp only [distributeCurrent, bind_eq_ok, pure_eq_ok] at h
  obtain ⟨r₁, hfund, f₂, hclose, rfl⟩ := h
  have hpool : Draining p.self time ((findByOwner f.distributions.accounts
      (distributionAccountKey p.self time 0)).map DistributionAccount.id)
      f.distributions.accounts := by
    intro id hid
    obtain ⟨a, ha, rfl⟩ := Option.map_eq_some_iff.mp hid
    obtain ⟨hmem, hisPool⟩ := hs.lookup htime ha
    exact ⟨a, Table.find?_of_mem hmem, hisPool⟩
  obtain ⟨paid, hpaid, hdraws, hpool₁, hdone⟩ :=
    fundMembers_draws rfl hs hpool htime hranks hfund
  obtain ⟨hcloses, hclosed⟩ := closePool_draws hdraws.single hpool₁ (fun hnone => by
    rw [Option.map_eq_none_iff] at hnone
    exact fun hleft => not_hasPool_of_lookup hnone (hdraws.pools time hleft)) hclose
  refine ⟨paid, hpaid, ?_, fun hleft => hclosed ?_⟩
  · have hboth := hdraws.trans hcloses
    rwa [Int.add_zero] at hboth
  · rw [hdraws.pooled, if_pos rfl, hpooled, hpaid, hdone hleft, add_zero, Int.sub_self]

/-! ### Funded distributions -/

/-- The account of a distribution holds what the members still get of it, or all of it while it
waits for an election. -/
def Backed (ranks : Name → Multiset Nat) (held : Int) : Distribution → Prop
  | .current _ last shares =>
      (∀ rank ∈ ranks last, rank ≤ shares.length) ∧ held = due (ranks last) shares
  | .election _ amount => held = amount.amount
  | .next _ => True

structure Funded (contract : Name) (ranks : Name → Multiset Nat) (d : Distributions) : Prop where
  accounts : Single contract d.accounts
  begun : ∀ time, HasPool contract d.accounts time →
    ∃ row ∈ d.table.rows, isNext row = false ∧ row.distributionTime = time
  backed : ∀ row ∈ d.table.rows,
    Backed ranks (pooled contract d.accounts row.distributionTime) row

/-- The histogram fits the ranks of the members. -/
def Affords (histogram : List Nat) (ranks : Multiset Nat) : Prop :=
  ∀ total shares used, makeDistribution histogram total = .ok (shares, used) →
    (∀ rank ∈ ranks, rank ≤ shares.length) ∧ due ranks shares = used.amount

section Rows

variable {ranks : Name → Multiset Nat} {d d' : Distributions} {row' : Distribution}
  {amount : Int}

theorem funded_of_empty (haccounts : d.accounts.rows = []) (htable : d.table.rows = []) :
    Funded contract ranks d := by
  have hnone : ∀ a, a ∉ d.accounts.rows := by
    rw [haccounts]
    exact fun a => List.not_mem_nil
  refine ⟨⟨fun a ha => absurd ha (hnone a), fun t => ?_⟩, ?_, ?_⟩
  · rw [Table.count, haccounts]
    exact Nat.zero_le 1
  · rintro t ⟨a, ha, -⟩
    exact absurd ha (hnone a)
  · rw [htable]
    exact fun row hrow => absurd hrow List.not_mem_nil

/-- The row of a distribution is rewritten while it is paid from. -/
theorem Funded.rewrite (h : Funded contract ranks d) (row' : Distribution)
    (htime : row'.distributionTime = time) (hkind : isNext row' = false)
    (hdraws : Draws contract time amount d.accounts d'.accounts)
    (htable : d'.table = d.table.replace row')
    (hbacked : Backed ranks (pooled contract d'.accounts time) row') :
    Funded contract ranks d' := by
  refine ⟨hdraws.single, fun t ht => ?_, fun other hother => ?_⟩
  · obtain ⟨old, hold, hbegun, rfl⟩ := h.begun t (hdraws.pools t ht)
    rw [htable]
    by_cases hsame : old.distributionTime = row'.distributionTime
    · exact ⟨row', Table.mem_replace.mpr
        (.inr ⟨rfl, old, hsame ▸ Table.find?_of_mem hold⟩), hkind, hsame.symm⟩
    · exact ⟨old, Table.mem_replace.mpr (.inl ⟨hold, hsame⟩), hbegun, rfl⟩
  · rw [htable] at hother
    rcases Table.mem_replace.mp hother with ⟨hother, hne⟩ | ⟨rfl, -⟩
    · rw [htime] at hne
      rw [hdraws.pooled, if_neg hne, Int.sub_zero]
      exact h.backed other hother
    · rw [htime]
      exact hbacked

/-- A distribution comes to its end, with nothing left in its account. -/
theorem Funded.close (h : Funded contract ranks d)
    (hdraws : Draws contract time amount d.accounts d'.accounts)
    (htable : d'.table = d.table.erase time) (hnone : ¬ HasPool contract d'.accounts time) :
    Funded contract ranks d' := by
  refine ⟨hdraws.single, fun t ht => ?_, fun other hother => ?_⟩
  · obtain ⟨old, hold, hbegun, rfl⟩ := h.begun t (hdraws.pools t ht)
    rw [htable]
    exact ⟨old, Table.mem_erase.mpr ⟨hold, fun hsame => hnone (hsame ▸ ht)⟩, hbegun, rfl⟩
  · rw [htable] at hother
    obtain ⟨hother, hne⟩ := Table.mem_erase.mp hother
    rw [hdraws.pooled, if_neg hne, Int.sub_zero]
    exact h.backed other hother

/-- Accounts of members come and go. -/
theorem Funded.settle (h : Funded contract ranks d)
    (hdraws : Draws contract time 0 d.accounts d'.accounts) (htable : d'.table = d.table) :
    Funded contract ranks d' := by
  refine ⟨hdraws.single, fun t ht => htable ▸ h.begun t (hdraws.pools t ht), fun row hrow => ?_⟩
  rw [hdraws.pooled, ite_self, Int.sub_zero]
  exact h.backed row (htable ▸ hrow)

theorem Funded.schedule (h : Funded contract ranks d) (haccounts : d'.accounts = d.accounts)
    (htable : d.table.emplace? (.next time) = some d'.table) : Funded contract ranks d' := by
  refine ⟨haccounts ▸ h.accounts, fun t ht => ?_, fun row hrow => ?_⟩
  · rw [haccounts] at ht
    obtain ⟨row, hrow, hbegun⟩ := h.begun t ht
    exact ⟨row, (Table.mem_emplace? htable).mpr (.inr hrow), hbegun⟩
  · rcases (Table.mem_emplace? htable).mp hrow with rfl | hrow
    · exact trivial
    · rw [haccounts]
      exact h.backed row hrow

/-- A distribution that is still to come has no account. -/
theorem Funded.fresh (h : Funded contract ranks d) (hnext : .next time ∈ d.table.rows) :
    ¬ HasPool contract d.accounts time := by
  intro hpool
  obtain ⟨row, hrow, hbegun, htime⟩ := h.begun time hpool
  rw [Table.eq_of_key_eq hrow hnext htime] at hbegun
  cases hbegun

/-- A distribution begins with its account. -/
theorem Funded.open {a : DistributionAccount} (h : Funded contract ranks d)
    (hnext : .next time ∈ d.table.rows) (htime : row'.distributionTime = time)
    (hkind : isNext row' = false) (hsmall : time < 2 ^ 32)
    (ha : d.accounts.emplace? a = some d'.accounts) (hpool : isPool contract time a = true)
    (htable : d'.table = d.table.replace row') (hbacked : Backed ranks a.balance.amount row') :
    Funded contract ranks d' := by
  have hfresh := h.fresh hnext
  have hkey := isPool_iff.mp hpool
  have hother : ∀ t, t ≠ time → isPool contract t a = false := by
    intro t ht
    rw [Bool.eq_false_iff, ne_eq, isPool_iff, hkey]
    exact fun heq => ht (congrArg (fun k => k.2.1) heq).symm
  have hpooled : ∀ t, pooled contract d'.accounts t =
      if t = time then a.balance.amount else pooled contract d.accounts t := by
    intro t
    by_cases ht : t = time
    · rw [if_pos ht, ht, pooled, Table.total_emplace? ha, if_pos hpool]
      have hnone := pooled_of_none hfresh
      rw [pooled] at hnone
      rw [hnone, Int.add_zero]
    · rw [if_neg ht, pooled, Table.total_emplace? ha, hother t ht]
      exact Int.zero_add _
  simp only [fundKey, Prod.mk.injEq] at hkey
  refine ⟨⟨fun b hb => ?_, fun t => ?_⟩, fun t ht => ?_, fun other hrow => ?_⟩
  · rcases (Table.mem_emplace? ha).mp hb with rfl | hb
    · rw [hkey.2.1, hkey.2.2]
      exact ⟨hsmall, Nat.two_pow_pos 32⟩
    · exact h.accounts.small b hb
  · rw [Table.count_emplace? ha]
    by_cases ht : t = time
    · have hzero : d.accounts.count (isPool contract t) = 0 :=
        List.countP_eq_zero.mpr fun b hb hpool => hfresh (ht ▸ ⟨b, hb, hpool⟩)
      rw [hzero, Nat.zero_add]
      split <;> decide
    · rw [hother t ht]
      exact h.accounts.single t
  · rw [htable]
    by_cases hsame : t = time
    · exact ⟨row', Table.mem_replace.mpr (.inr ⟨rfl, _, htime ▸ Table.find?_of_mem hnext⟩), hkind,
        htime.trans hsame.symm⟩
    · obtain ⟨b, hb, hpool'⟩ := ht
      rcases (Table.mem_emplace? ha).mp hb with rfl | hb
      · rw [hother t hsame] at hpool'
        cases hpool'
      · obtain ⟨old, hold, hbegun, rfl⟩ := h.begun t ⟨b, hb, hpool'⟩
        exact ⟨old, Table.mem_replace.mpr (.inl ⟨hold, fun heq => hsame (heq.trans htime)⟩),
          hbegun, rfl⟩
  · rw [htable] at hrow
    rw [hpooled]
    rcases Table.mem_replace.mp hrow with ⟨hrow, hne⟩ | ⟨rfl, -⟩
    · rw [htime] at hne
      rw [if_neg hne]
      exact h.backed other hrow
    · rw [if_pos htime]
      exact hbacked

end Rows

/-! ### Setting up -/

section Setup

variable {ranks : Name → Multiset Nat}

theorem electionAt_ranks (c : Calendar) (init : Nat) : (electionAt c init).ranks = c.ranks := by
  unfold electionAt
  split
  · rfl
  · rfl

/-- A turn of the loop opens a distribution with what it reserves. -/
theorem Funded.turn {d : Distributions} {table : Schedule} (h : Funded p.self ranks d)
    (hnext : .next time ∈ d.table.rows) (hsmall : time < 2 ^ 32)
    (haffords : c.nextElectionTime ≠ none → Affords c.ranks (ranks emptyName))
    (hopened : Opened p c time d table accounts) :
    Funded p.self ranks { d with table := table, accounts := accounts } := by
  cases hopened with
  | @current total used shares _ hafter hshares hemplace =>
      have hdate : c.nextElectionTime ≠ none := by
        intro hnone
        rw [electionAfter, hnone] at hafter
        cases hafter
      obtain ⟨hbound, hdue⟩ := haffords hdate total shares used hshares
      exact h.open (a := ⟨availablePrimaryKey d.accounts, p.self, time, 0, used⟩) hnext rfl rfl
        hsmall (expect_eq_ok.mp hemplace) (isPool_iff.mpr rfl) rfl ⟨hbound, hdue.symm⟩
  | @election total _ _ hemplace =>
      exact h.open (a := ⟨availablePrimaryKey d.accounts, p.self, time, 0, total⟩) hnext rfl rfl
        hsmall (expect_eq_ok.mp hemplace) (isPool_iff.mpr rfl) rfl rfl
  | nothing => exact h.close (.refl h.accounts time) rfl (h.fresh hnext)

theorem setupDistribution_funded (init : Nat) {r : Treasury × Bool} (hend : beforeEnd c.now)
    (hplanned : Planned f.distributions.table)
    (haffords : (electionAt c init).nextElectionTime ≠ none → Affords c.ranks (ranks emptyName))
    (hf : Funded p.self ranks f.distributions) (h : setupDistribution p c f init = .ok r) :
    Funded p.self ranks r.1.distributions := by
  refine (setupDistribution_induct (Funded p.self ranks) ?_ ?_ hend hplanned hf h).1
  · exact fun d d' _ haccounts htable hd => hd.schedule haccounts htable
  · intro time d d' table hdue hnext hd hopened htable
    have hsmall : time < 2 ^ 32 := by
      unfold beforeEnd at hend
      omega
    rw [← electionAt_ranks c init] at haffords
    exact (hd.turn hnext.mem hsmall haffords hopened).schedule rfl htable

/-- Without a date of an election, no distribution is opened for payments. -/
theorem setupDistribution_noneCurrent (init : Nat) {r : Treasury × Bool} (hend : beforeEnd c.now)
    (hplanned : Planned f.distributions.table)
    (hdate : (electionAt c init).nextElectionTime = none)
    (hf : NoneCurrent f.distributions.table) (h : setupDistribution p c f init = .ok r) :
    NoneCurrent r.1.distributions.table := by
  refine (setupDistribution_induct (fun d => NoneCurrent d.table) ?_ ?_ hend hplanned hf h).1
  · intro d d' _ _ htable hd row hrow
    rcases (Table.mem_emplace? htable).mp hrow with rfl | hrow
    · rfl
    · exact hd row hrow
  · intro time d d' table _ _ hd hopened htable row hrow
    generalize d'.accounts = accounts at hopened
    rcases (Table.mem_emplace? htable).mp hrow with rfl | hrow
    · rfl
    · cases hopened with
      | current hafter _ _ =>
          rw [electionAfter, hdate] at hafter
          cases hafter
      | election _ _ =>
          rcases Table.mem_replace.mp hrow with ⟨hrow, -⟩ | ⟨rfl, -⟩
          · exact hd row hrow
          · rfl
      | nothing => exact hd row (Table.mem_erase.mp hrow).1

/-- Distributions that have been opened, but not paid to anybody yet. -/
def Unpaid (t : Schedule) : Prop :=
  ∀ time last shares, .current time last shares ∈ t.rows → last = emptyName

theorem setupDistribution_unpaid {init : Nat} {r : Treasury × Bool} (hend : beforeEnd c.now)
    (hplanned : Planned f.distributions.table) (hf : NoneCurrent f.distributions.table)
    (h : setupDistribution p c f init = .ok r) : Unpaid r.1.distributions.table := by
  have hunpaid : Unpaid f.distributions.table := by
    intro time last shares hrow
    exact absurd (hf _ hrow) Bool.noConfusion
  refine (setupDistribution_induct (fun d => Unpaid d.table) ?_ ?_ hend hplanned hunpaid h).1
  · intro d d' _ _ htable hd time last shares hrow
    rcases (Table.mem_emplace? htable).mp hrow with heq | hrow
    · cases heq
    · exact hd time last shares hrow
  · intro time d d' table _ _ hd hopened htable time' last shares hrow
    generalize d'.accounts = accounts at hopened
    rcases (Table.mem_emplace? htable).mp hrow with heq | hrow
    · cases heq
    · cases hopened with
      | current _ _ _ =>
          rcases Table.mem_replace.mp hrow with ⟨hrow, -⟩ | ⟨heq, -⟩
          · exact hd time' last shares hrow
          · cases heq
            rfl
      | election _ _ =>
          rcases Table.mem_replace.mp hrow with ⟨hrow, -⟩ | ⟨heq, -⟩
          · exact hd time' last shares hrow
          · cases heq
      | nothing => exact hd time' last shares (Table.mem_erase.mp hrow).1

end Setup

/-! ### Paying out -/

theorem distributeRows_funded {members : Table Member.account} {rows : List Distribution}
    {maxSteps : Nat} {r : Nat × Treasury}
    (hrows : ∀ row ∈ rows, row ∈ f.distributions.table.rows)
    (hnodup : (rows.map Distribution.distributionTime).Nodup)
    (hsmall : ∀ row ∈ rows, isNext row = false → row.distributionTime < 2 ^ 32)
    (hranks : ∀ m ∈ members.rows, m.electionRank < 2 ^ 8)
    (hf : Funded p.self (ranksAbove members) f.distributions)
    (h : distributeRows p members rows maxSteps f = .ok r) :
    Funded p.self (ranksAbove members) r.2.distributions := by
  induction rows generalizing maxSteps f with
  | nil =>
      cases h
      exact hf
  | cons row rest ih =>
      simp only [distributeRows] at h
      split at h
      · cases h
        exact hf
      · split at h
        · rename_i time last shares
          simp only [bind_eq_ok] at h
          obtain ⟨⟨remaining, last', f₁⟩, hcurrent, h⟩ := h
          have hrow := hrows _ List.mem_cons_self
          have htable := distributeCurrent_table hcurrent
          have htime : time < 2 ^ 32 := hsmall _ List.mem_cons_self rfl
          obtain ⟨hbound, hheld⟩ : Backed _ _ (.current time last shares) := hf.backed _ hrow
          obtain ⟨paid, hpaid, hdraws, hdone⟩ :=
            distributeCurrent_draws hf.accounts htime hranks hheld hcurrent
          dsimp only at htable hpaid hdraws hdone h
          split at h
          · cases h
            refine hf.rewrite (.current time last' shares) rfl rfl hdraws (by rw [htable]) ⟨?_, ?_⟩
            · intro rank hrank
              refine hbound rank ?_
              rw [hpaid]
              exact Multiset.mem_add.mpr (.inr hrank)
            · have hbefore : pooled p.self f.distributions.accounts time =
                  due (ranksAbove members last) shares := hheld
              have hafter := hdraws.pooled time
              rw [if_pos rfl, hbefore, hpaid, due_add, add_sub_cancel_left] at hafter
              exact hafter
          · rename_i hleft
            rw [List.map_cons, List.nodup_cons] at hnodup
            have hclosed : Funded p.self (ranksAbove members)
                { f₁.distributions with table := f₁.distributions.table.erase time } :=
              hf.close hdraws (by rw [htable]) (hdone hleft)
            refine ih ?_ hnodup.2 (fun other hother => hsmall other (List.mem_cons_of_mem _ hother))
              hclosed h
            intro other hother
            refine Table.mem_erase.mpr ⟨htable ▸ hrows other (List.mem_cons_of_mem _ hother), ?_⟩
            exact fun hsame => hnodup.1 (List.mem_map.mpr ⟨other, hother, hsame⟩)
        · cases h
          exact hf
        · cases h
          exact hf

theorem distributeMonthly_funded {members : Table Member.account} {maxSteps : Nat}
    {r : Nat × Treasury} (hend : beforeEnd c.now)
    (hf : Funded p.self (ranksAbove members) f.distributions)
    (haligned : Aligned c.now c.nextElectionTime f.distributions.table)
    (haffords : c.nextElectionTime ≠ none → Affords c.ranks (ranksAbove members emptyName))
    (hranks : ∀ m ∈ members.rows, m.electionRank < 2 ^ 8)
    (h : distributeMonthly p c members maxSteps f = .ok r) :
    Funded p.self (ranksAbove members) r.2.distributions := by
  unfold distributeMonthly at h
  split at h
  · cases h
    exact hf
  · simp only [bind_eq_ok] at h
    obtain ⟨⟨f₁, started⟩, hsetup, h⟩ := h
    have hf₁ := setupDistribution_funded 0 hend haligned.planned haffords hf hsetup
    have haligned₁ : Aligned c.now (electionAt c 0).nextElectionTime f₁.distributions.table :=
      @setupDistribution_aligned p c f 0 (f₁, started) hend haligned hsetup
    refine distributeRows_funded (fun row hrow => hrow) (Table.nodup_keys _) ?_ hranks hf₁ h
    intro row hrow hbegun
    have hle := haligned₁.lined.begun row hrow hbegun
    unfold beforeEnd at hend
    omega

theorem distributeMonthly_noneCurrent {members : Table Member.account} {maxSteps : Nat}
    {r : Nat × Treasury} (hend : beforeEnd c.now)
    (hplanned : Planned f.distributions.table) (hdate : c.nextElectionTime = none)
    (hf : NoneCurrent f.distributions.table)
    (h : distributeMonthly p c members maxSteps f = .ok r) :
    NoneCurrent r.2.distributions.table := by
  unfold distributeMonthly at h
  split at h
  · cases h
    exact hf
  · simp only [bind_eq_ok] at h
    obtain ⟨r₁, hsetup, h⟩ := h
    have hf₁ := setupDistribution_noneCurrent 0 hend hplanned hdate hf hsetup
    have hthin := (distributeRows_thinned (fun row hrow => hrow) (Table.nodup_keys _) h).1
    intro row hrow
    obtain ⟨old, hold, -, hkind, -⟩ := hthin.rows row hrow
    rw [← hkind]
    exact hf₁ old hold

/-! ### Resigning and renaming -/

/-- The accounts of a member go back to the pools. -/
theorem returnAccounts_draws {rows : List DistributionAccount}
    (hs : Single contract f.distributions.accounts)
    (hrows : ∀ a ∈ rows, a ∈ f.distributions.accounts.rows ∧ a.owner ≠ contract)
    (hnodup : rows.Nodup) (time : Nat) (h : rows.foldlM (returnAccount p) f = .ok f') :
    Draws contract time 0 f.distributions.accounts f'.distributions.accounts := by
  induction rows generalizing f with
  | nil =>
      cases h
      exact .refl hs time
  | cons a rest ih =>
      rw [List.foldlM_cons, bind_eq_ok] at h
      obtain ⟨f₁, hfirst, hrest⟩ := h
      simp only [returnAccount, bind_eq_ok, pure_eq_ok] at hfirst
      obtain ⟨owned, -, rfl⟩ := hfirst
      rw [List.forall_mem_cons] at hrows
      rw [List.nodup_cons] at hnodup
      have hfind := Table.find?_of_mem hrows.1.1
      have hdraws := draws_erase hs hfind hrows.1.2 time
      refine hdraws.trans (ih hdraws.single (fun b hb => ?_) hnodup.2 hrest)
      obtain ⟨hmem, howner⟩ := hrows.2 b hb
      refine ⟨Table.mem_erase.mpr ⟨hmem, fun hid => hnodup.1 ?_⟩, howner⟩
      rwa [Table.eq_of_key_eq hmem hrows.1.1 hid] at hb

theorem sumShares_amount {shares : List Asset} {amount : Asset} (h : sumShares shares = .ok amount) :
    amount.amount = (shares.map Asset.amount).sum := by
  cases shares with
  | nil => cases h
  | cons share rest =>
      simp only [sumShares] at h
      rw [List.map_cons, List.sum_cons]
      induction rest generalizing share with
      | nil =>
          cases h
          exact (Int.add_zero _).symm
      | cons next rest ih =>
          rw [List.foldlM_cons, bind_eq_ok] at h
          obtain ⟨sum, hsum, h⟩ := h
          obtain ⟨-, -, -, rfl⟩ := Asset.add_eq_ok.mp hsum
          rw [ih _ h, List.map_cons, List.sum_cons, Int.add_assoc]

/-- What a distribution still owes to a member goes back to the pools. -/
theorem returnShare_draws {member : Member} {shares : List Asset}
    (hs : Single p.self f.distributions.accounts) (htime : time < 2 ^ 32)
    (h : returnShare p f member time shares = .ok f') :
    Draws p.self time (owed shares member.electionRank) f.distributions.accounts
      f'.distributions.accounts := by
  simp only [returnShare, bind_eq_ok, check_eq_ok, exists_const, pure_eq_ok] at h
  obtain ⟨-, amount, hamount, accounts, haccounts, owned, -, rfl⟩ := h
  have howed : amount.amount = owed shares member.electionRank := sumShares_amount hamount
  rw [← howed]
  split at haccounts
  · rename_i row hrow
    obtain ⟨hmem, hpool⟩ := hs.lookup htime hrow
    simp only [bind_eq_ok, check_eq_ok, exists_const] at haccounts
    obtain ⟨-, -, -, same, hsame, haccounts⟩ := haccounts
    obtain ⟨-, rfl⟩ := Asset.eq_eq_ok.mp hsame
    split at haccounts
    · rename_i heq
      cases haccounts
      rw [decide_eq_true_eq] at heq
      rw [← heq]
      exact (draws_close hs hmem hpool).1
    · simp only [bind_eq_ok, pure_eq_ok] at haccounts
      obtain ⟨balance, hbalance, rfl⟩ := haccounts
      obtain ⟨-, -, -, rfl⟩ := Asset.sub_eq_ok.mp hbalance
      have hdraws := draws_replace ⟨row.balance.amount - amount.amount, row.balance.symbol⟩ hs
        hmem hpool
      rw [Int.sub_sub_self] at hdraws
      exact hdraws
  · simp only [bind_eq_ok, check_eq_ok, exists_const, decide_eq_true_eq, pure_eq_ok] at haccounts
    obtain ⟨hzero, rfl⟩ := haccounts
    rw [hzero]
    exact .refl hs time

/-- Who of the distributions that are being paid out has not paid a member yet, pays it back. -/
theorem returnShares_draws {member : Member} {rows : List Distribution}
    (hs : Single p.self f.distributions.accounts)
    (hsmall : ∀ row ∈ rows, isNext row = false → row.distributionTime < 2 ^ 32)
    (hnodup : (rows.map Distribution.distributionTime).Nodup)
    (h : returnShares p member rows f = .ok f') :
    Single p.self f'.distributions.accounts ∧
      (∀ t, HasPool p.self f'.distributions.accounts t →
        HasPool p.self f.distributions.accounts t) ∧
      (∀ t, (∀ row ∈ rows.takeWhile isCurrent, row.distributionTime ≠ t) →
        pooled p.self f'.distributions.accounts t = pooled p.self f.distributions.accounts t) ∧
      ∀ time last shares, .current time last shares ∈ rows.takeWhile isCurrent →
        pooled p.self f'.distributions.accounts time =
          pooled p.self f.distributions.accounts time -
            due (if last < member.account ∧ 0 < member.electionRank then {member.electionRank}
              else 0) shares := by
  induction rows generalizing f with
  | nil =>
      cases h
      exact ⟨hs, fun _ ht => ht, fun _ _ => rfl, fun _ _ _ hrow => absurd hrow List.not_mem_nil⟩
  | cons row rest ih =>
      rw [List.forall_mem_cons] at hsmall
      rw [List.map_cons, List.nodup_cons] at hnodup
      cases row with
      | current time last shares =>
          have htime : time < 2 ^ 32 := hsmall.1 rfl
          obtain ⟨f₁, hdraws, hrest⟩ : ∃ f₁, Draws p.self time
              (due (if last < member.account ∧ 0 < member.electionRank then {member.electionRank}
                else 0) shares) f.distributions.accounts f₁.distributions.accounts ∧
              returnShares p member rest f₁ = .ok f' := by
            simp only [returnShares] at h
            split at h
            · rename_i hbehind
              rw [bind_eq_ok] at h
              obtain ⟨f₁, hfirst, hrest⟩ := h
              refine ⟨f₁, ?_, hrest⟩
              rw [if_pos hbehind, due, Multiset.map_singleton, Multiset.sum_singleton]
              exact returnShare_draws hs htime hfirst
            · rename_i hbehind
              refine ⟨f, ?_, h⟩
              rw [if_neg hbehind]
              exact .refl hs time
          obtain ⟨hsingle, hpools, hothers, hpaid⟩ := ih hdraws.single hsmall.2 hnodup.2 hrest
          have hcurrent : isCurrent (.current time last shares) = true := rfl
          rw [List.takeWhile_cons_of_pos hcurrent]
          have hrestTimes : ∀ row ∈ rest.takeWhile isCurrent, row.distributionTime ≠ time := by
            intro row hrow hsame
            have hmem := (List.takeWhile_prefix _).subset hrow
            exact hnodup.1 (List.mem_map.mpr ⟨row, hmem, hsame⟩)
          refine ⟨hsingle, fun t ht => hdraws.pools t (hpools t ht), ?_, ?_⟩
          · intro t ht
            rw [List.forall_mem_cons] at ht
            rw [hothers t ht.2, hdraws.pooled, if_neg fun hsame => ht.1 hsame.symm, Int.sub_zero]
          · intro time' last' shares' hrow
            rcases List.mem_cons.mp hrow with heq | hrow
            · cases heq
              rw [hothers time hrestTimes, hdraws.pooled, if_pos rfl]
            · have hne : time' ≠ time := hrestTimes _ hrow
              rw [hpaid time' last' shares' hrow, hdraws.pooled, if_neg hne, Int.sub_zero]
      | election time amount =>
          cases h
          exact ⟨hs, fun _ ht => ht, fun _ _ => rfl,
            fun _ _ _ hrow => absurd hrow List.not_mem_nil⟩
      | next time =>
          cases h
          exact ⟨hs, fun _ ht => ht, fun _ _ => rfl,
            fun _ _ _ hrow => absurd hrow List.not_mem_nil⟩

section Leaving

variable {ranks ranks' : Name → Multiset Nat}

/-- Only the ranks behind the names that distributions have come to matter. -/
theorem Funded.congr {d : Distributions} (h : Funded contract ranks d)
    (hsame : ∀ time last shares, .current time last shares ∈ d.table.rows →
      ranks' last = ranks last) : Funded contract ranks' d := by
  refine ⟨h.accounts, h.begun, fun row hrow => ?_⟩
  have hbacked := h.backed row hrow
  cases row with
  | current time last shares =>
      rw [Backed, hsame time last shares hrow]
      exact hbacked
  | election => exact hbacked
  | next => exact trivial

theorem returnShares_funded {member : Member} {now : Nat} {date : Option Nat}
    (haligned : Aligned now date f.distributions.table) (hnow : now < 2 ^ 32)
    (hsplit : ∀ last, ranks last =
      (if last < member.account ∧ 0 < member.electionRank then {member.electionRank} else 0) +
        ranks' last)
    (hf : Funded p.self ranks f.distributions)
    (h : returnShares p member f.distributions.table.rows f = .ok f') :
    Funded p.self ranks' f'.distributions := by
  have htable := returnShares_table h
  have hsmall : ∀ row ∈ f.distributions.table.rows, isNext row = false →
      row.distributionTime < 2 ^ 32 :=
    fun row hrow hbegun => lt_of_le_of_lt (haligned.lined.begun row hrow hbegun) hnow
  obtain ⟨hsingle, hpools, hothers, hpaid⟩ :=
    returnShares_draws hf.accounts hsmall (Table.nodup_keys _) h
  refine ⟨hsingle, fun t ht => htable ▸ hf.begun t (hpools t ht), fun row hrow => ?_⟩
  rw [htable] at hrow
  have hbacked := hf.backed row hrow
  cases row with
  | current time last shares =>
      obtain ⟨hbound, hheld⟩ := hbacked
      have hmem : .current time last shares ∈ f.distributions.table.rows.takeWhile isCurrent := by
        rw [haligned.takeWhile]
        exact List.mem_filter.mpr ⟨hrow, rfl⟩
      refine ⟨fun rank hrank => hbound rank ?_, ?_⟩
      · rw [hsplit]
        exact Multiset.mem_add.mpr (.inr hrank)
      · have hafter := hpaid time last shares hmem
        have hbefore : pooled p.self f.distributions.accounts time = due (ranks last) shares := hheld
        rw [hbefore, hsplit, due_add, add_sub_cancel_left] at hafter
        exact hafter
  | election time amount =>
      refine (hothers time fun other hother hsame => ?_).trans hbacked
      have hmem := (List.takeWhile_prefix _).subset hother
      have hcurrent := List.mem_takeWhile_imp hother
      rw [Table.eq_of_key_eq hmem hrow hsame] at hcurrent
      cases hcurrent
  | next => exact trivial

/-- A member leaves, and what it would still get goes back to the pools. -/
theorem onResign_funded {member : Member} (hend : beforeEnd c.now)
    (haligned : Aligned c.now c.nextElectionTime f.distributions.table)
    (haffords : c.nextElectionTime ≠ none → Affords c.ranks (ranks emptyName))
    (hself : member.account ≠ p.self)
    (hsplit : ∀ last, ranks last =
      (if last < member.account ∧ 0 < member.electionRank then {member.electionRank} else 0) +
        ranks' last)
    (hf : Funded p.self ranks f.distributions) (h : onResign p c f member = .ok f') :
    Funded p.self ranks' f'.distributions := by
  simp only [onResign, bind_eq_ok] at h
  obtain ⟨r, hsetup, f₂, haccounts, h⟩ := h
  have hf₁ := setupDistribution_funded 0 hend haligned.planned haffords hf hsetup
  have haligned₁ : Aligned c.now (electionAt c 0).nextElectionTime r.1.distributions.table :=
    setupDistribution_aligned hend haligned hsetup
  have hdraws : Draws p.self 0 0 r.1.distributions.accounts f₂.distributions.accounts := by
    refine returnAccounts_draws hf₁.accounts ?_ ?_ 0 haccounts
    · intro a ha
      obtain ⟨hindex, howner⟩ := List.mem_filter.mp ha
      rw [decide_eq_true_eq] at howner
      exact ⟨Table.mem_index.mp hindex, howner ▸ hself⟩
    · refine List.Nodup.filter _ ?_
      exact (Table.index_perm _ _).nodup_iff.mpr (Table.nodup_rows _)
  have htable := returnAccounts_table haccounts
  have hnow : c.now < 2 ^ 32 := by
    unfold beforeEnd at hend
    omega
  exact returnShares_funded (htable ▸ haligned₁) hnow hsplit (hf₁.settle hdraws htable) h

/-- The accounts of a member go on under its new name. -/
theorem draws_renamed {oldAccount newAccount : Name} (hs : Single contract accounts)
    (hold : oldAccount ≠ contract) (hnew : newAccount ≠ contract)
    (hid : ∀ a : DistributionAccount,
      (if a.owner = oldAccount then { a with owner := newAccount } else a).id = a.id) (time : Nat) :
    Draws contract time 0 accounts (accounts.update
      (fun a => if a.owner = oldAccount then { a with owner := newAccount } else a) hid) := by
  have hsame : ∀ t (a : DistributionAccount), isPool contract t
      (if a.owner = oldAccount then { a with owner := newAccount } else a) =
        isPool contract t a := by
    intro t a
    split
    · rename_i howner
      rw [not_isPool_of_owner (a := a) (howner ▸ hold),
        not_isPool_of_owner (a := { a with owner := newAccount }) hnew]
    · rfl
  refine draws_of_same hs ?_ ?_ ?_ time
  · intro b hb
    obtain ⟨a, ha, rfl⟩ := Table.mem_update.mp hb
    have hsmall := hs.small a ha
    split
    · exact hsmall
    · exact hsmall
  · intro t
    rw [pooled, Table.total_update, pooled]
    refine Table.total_congr fun a _ => ?_
    rw [hsame]
    split
    · split
      · rfl
      · rfl
    · rfl
  · intro t
    rw [Table.count_eq_total, Table.total_update, Table.count_eq_total]
    refine Table.total_congr fun a _ => ?_
    rw [hsame]

theorem onRename_funded {oldAccount newAccount : Name} (hend : beforeEnd c.now)
    (haligned : Aligned c.now c.nextElectionTime f.distributions.table)
    (haffords : c.nextElectionTime ≠ none → Affords c.ranks (ranks emptyName))
    (hold : oldAccount ≠ p.self) (hnew : newAccount ≠ p.self)
    (hsame : ranks' emptyName = ranks emptyName) (hf : Funded p.self ranks f.distributions)
    (h : DistributionTables.onRename p c f oldAccount newAccount = .ok f') :
    Funded p.self ranks' f'.distributions := by
  simp only [DistributionTables.onRename, bind_eq_ok, check_eq_ok, exists_const, pure_eq_ok] at h
  obtain ⟨hfirst, r, hsetup, rfl⟩ := h
  have hnone : NoneCurrent f.distributions.table := by
    intro row hrow
    by_contra hcurrent
    rw [Bool.not_eq_false] at hcurrent
    have hmem : row ∈ f.distributions.table.rows.takeWhile isCurrent := by
      rw [haligned.takeWhile]
      exact List.mem_filter.mpr ⟨hrow, hcurrent⟩
    split at hfirst
    · cases hfirst
    · rename_i hhead
      cases hrows : f.distributions.table.rows with
      | nil =>
          rw [hrows] at hmem
          cases hmem
      | cons first rest =>
          rw [hrows, List.takeWhile_cons] at hmem
          cases first with
          | current time last shares => exact hhead time last shares rest hrows
          | election => cases hmem
          | next => cases hmem
  have hf₁ := setupDistribution_funded 0 hend haligned.planned haffords hf hsetup
  have hunpaid := setupDistribution_unpaid hend haligned.planned hnone hsetup
  refine Funded.congr (Funded.settle hf₁ (draws_renamed hf₁.accounts hold hnew ?_ 0) rfl) ?_
  · intro a
    split
    · rfl
    · rfl
  intro time last shares hrow
  rw [hunpaid time last shares hrow, hsame]

/-! ### The end of an election -/

theorem processElectionRows_keys {histogram : List Nat} {rows : List Distribution}
    (hrows : ∀ row ∈ rows, row ∈ f.distributions.table.rows)
    (hnodup : (rows.map Distribution.distributionTime).Nodup)
    (h : processElectionRows p histogram rows f = .ok f') :
    f'.distributions.table.rows.map Distribution.distributionTime =
      f.distributions.table.rows.map Distribution.distributionTime := by
  fun_induction processElectionRows p histogram rows f with
  | case1 f =>
      cases h
      rfl
  | case2 time amount rest f ih =>
      simp only [bind_eq_ok, beginElectionDistribution, check_eq_ok, exists_const, pure_eq_ok] at h
      obtain ⟨f₁, ⟨⟨shares, used⟩, -, -, -, -, rfl⟩, h⟩ := h
      have hfind : f.distributions.table.find?
          (Distribution.current time emptyName shares).distributionTime =
            some (.election time amount) := Table.find?_of_mem (hrows _ List.mem_cons_self)
      rw [List.map_cons, List.nodup_cons] at hnodup
      refine (ih _ (fun row hmem => ?_) hnodup.2 h).trans ?_
      · refine Table.mem_replace.mpr (.inl ⟨hrows row (List.mem_cons_of_mem _ hmem), ?_⟩)
        exact fun htime => hnodup.1 (List.mem_map.mpr ⟨row, hmem, htime⟩)
      · exact Table.map_replace hfind rfl
  | case3 time last shares rest f ih =>
      rw [List.map_cons, List.nodup_cons] at hnodup
      exact ih (fun row hmem => hrows row (List.mem_cons_of_mem _ hmem)) hnodup.2 h
  | case4 time rest f =>
      cases h
      rfl

/-- After an election the distributions that waited for it are paid by the new ranks. -/
theorem processElectionDistribution_funded {histogram : List Nat}
    (hnone : NoneCurrent f.distributions.table)
    (haffords : Affords histogram (ranks' emptyName)) (hf : Funded p.self ranks f.distributions)
    (h : processElectionDistribution p histogram f = .ok f') :
    Funded p.self ranks' f'.distributions := by
  have hreleased :=
    (processElectionRows_released (fun row hrow => hrow) (Table.nodup_keys _) h).1
  have hkeys := processElectionRows_keys (fun row hrow => hrow) (Table.nodup_keys _) h
  refine ⟨hreleased.accounts ▸ hf.accounts, fun t ht => ?_, fun row hrow => ?_⟩
  · rw [hreleased.accounts] at ht
    obtain ⟨old, hold, hbegun, rfl⟩ := hf.begun t ht
    have hmem := List.mem_map_of_mem (f := Distribution.distributionTime) hold
    rw [← hkeys] at hmem
    obtain ⟨row, hrow, htime⟩ := List.mem_map.mp hmem
    refine ⟨row, hrow, ?_, htime⟩
    rcases hreleased.rows row hrow with hsame | ⟨_, _, _, _, _, _, _, rfl⟩
    · rw [Table.eq_of_key_eq hsame hold htime]
      exact hbegun
    · rfl
  · rw [hreleased.accounts]
    rcases hreleased.rows row hrow with hsame | ⟨time, amount, shares, used, hold, hmake, heq, rfl⟩
    · have hbacked := hf.backed row hsame
      cases row with
      | current => exact absurd (hnone _ hsame) Bool.noConfusion
      | election => exact hbacked
      | next => exact trivial
    · obtain ⟨hbound, hdue⟩ := haffords amount shares used hmake
      have hheld : pooled p.self f.distributions.accounts time = amount.amount := hf.backed _ hold
      obtain ⟨-, hsame⟩ := Asset.eq_eq_ok.mp heq
      rw [decide_eq_true_eq] at hsame
      refine ⟨hbound, ?_⟩
      rw [hdue, hsame]
      exact hheld

end Leaving

/-! ### Transfers -/

/-- A member transfers from one of its accounts. -/
theorem subAccount_draws {sender : Name} {rank : Nat} {amount : Asset}
    (hs : Single contract accounts) (hsender : sender ≠ contract) (htime : time < 2 ^ 32)
    (hrank : rank < 2 ^ 32) (h : subAccount accounts sender time rank amount = .ok accounts') :
    Draws contract 0 0 accounts accounts' := by
  simp only [subAccount, bind_eq_ok, MemberTable.getRow_eq_ok, check_eq_ok, exists_const] at h
  obtain ⟨row, hrow, -, -, -, same, -, h⟩ := h
  obtain ⟨hmem, hkey⟩ := findByOwner_eq_some hrow
  have howner : row.owner ≠ contract := by
    have hfund := fundKey_of_byOwner (hs.small row hmem) htime hrank hkey
    rw [show row.owner = sender from congrArg Prod.fst hfund]
    exact hsender
  have hfind := Table.find?_of_mem hmem
  split at h
  · cases h
    exact draws_erase hs hfind howner 0
  · simp only [bind_eq_ok, pure_eq_ok] at h
    obtain ⟨balance, -, rfl⟩ := h
    exact draws_resize balance hs hmem howner 0

end Eden.PoolAccounts
