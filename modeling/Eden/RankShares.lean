import Eden.DistributionTables

/-!
The shares of a distribution. Every level divides its part of the amount evenly among the members
above it; what the divisions leave over goes to the lead representative, or stays in the pools
when there is none.
-/

namespace Eden.RankShares

open Eden.ExceptReasoning
open Eden.ChainPrimitives
open Eden.DistributionTables

/-! ### One level -/

/-- The loop over a list is the loop over its front, and one more turn. -/
theorem shareRanks_concat (perRank : Asset) {counts : List Nat} (count position : Nat)
    {total : Nat} (used : Asset) (shares : List Asset) (hsmall : total + counts.sum < 2 ^ 16) :
    shareRanks perRank position (counts ++ [count]) total used shares =
      shareRanks perRank position counts total used shares >>= fun r =>
        shareRanks perRank (position + counts.length) [count] (total + counts.sum) r.1 r.2 := by
  induction counts generalizing position total used shares with
  | nil => rfl
  | cons c counts ih =>
      rw [List.sum_cons, ← Nat.add_assoc] at hsmall
      have hmod : (total + c) % 2 ^ 16 = total + c := Nat.mod_eq_of_lt (by omega)
      have hposition : position + (c :: counts).length = position + 1 + counts.length := by
        rw [List.length_cons]
        omega
      rw [List.cons_append, shareRanks, shareRanks, hposition, List.sum_cons, ← Nat.add_assoc]
      simp only [hmod, ih _ _ _ hsmall]
      split_ifs <;> simp only [bind_assoc]

/-- The parts of a level counted from the highest one. -/
def partsOf (position : Nat) : Int := if position = 0 then 0 else if position = 1 then 2 else 1

/-- The parts of so many levels. -/
def weight (levels : Nat) : Int := if levels ≤ 1 then 0 else levels

theorem weight_succ (levels : Nat) : weight (levels + 1) = weight levels + partsOf levels := by
  unfold weight partsOf
  split_ifs <;> omega

theorem partsOf_nonneg (position : Nat) : 0 ≤ partsOf position := by
  unfold partsOf
  split_ifs <;> omega

theorem weight_nonneg (levels : Nat) : 0 ≤ weight levels := by
  unfold weight
  split_ifs <;> omega

theorem weight_le (levels : Nat) : weight levels ≤ levels := by
  unfold weight
  split_ifs <;> omega

/-- The part of a level divided among its members. -/
theorem share_bounds {base : Int} (hbase : 0 ≤ base) {total : Nat} (htotal : 0 < total) :
    0 ≤ base.tdiv total ∧ base.tdiv total * total ≤ base ∧
      base - total < base.tdiv total * total := by
  have hpos : (0 : Int) < total := by exact_mod_cast htotal
  rw [Int.tdiv_eq_ediv_of_nonneg hbase]
  have hlow := Int.ediv_mul_le base hpos.ne'
  have hhigh := Int.lt_ediv_add_one_mul_self base hpos
  rw [Int.add_mul, Int.one_mul] at hhigh
  exact ⟨Int.ediv_nonneg hbase hpos.le, hlow, by omega⟩

/-- One turn at a level with members: a share of the level's part, which fits beside the rest. -/
theorem shareRanks_level {perRank used : Asset} (position count total : Nat) (shares : List Asset)
    (hvalid : perRank.symbol.isValid = true) (hperRank : 0 ≤ perRank.amount)
    (hsymbol : used.symbol = perRank.symbol) (hused : 0 ≤ used.amount)
    (htotal : 0 < total + count) (hsmall : total + count < 2 ^ 16)
    (hmax : used.amount + perRank.amount * partsOf position ≤ maxAmount) :
    ∃ share spent : Int,
      shareRanks perRank position [count] total used shares =
        .ok (⟨used.amount + spent, perRank.symbol⟩, ⟨share, perRank.symbol⟩ :: shares) ∧
      0 ≤ share ∧ spent = share * (total + count : Nat) ∧
      spent ≤ perRank.amount * partsOf position ∧
      perRank.amount * partsOf position ≤ spent + (total + count : Nat) ∧
      (position = 0 → share = 0) := by
  have hmod : (total + count) % 2 ^ 16 = total + count := Nat.mod_eq_of_lt hsmall
  have hparts := Int.mul_nonneg hperRank (partsOf_nonneg position)
  rw [shareRanks]
  simp only [hmod, if_neg htotal.ne']
  rcases Nat.eq_zero_or_pos position with rfl | hpos
  · refine ⟨0, 0, ?_, le_rfl, (Int.zero_mul _).symm, hparts, ?_, fun _ => rfl⟩
    · rw [if_pos rfl, Int.add_zero, ← hsymbol]
      exact bind_eq_ok.mpr ⟨_, asset_eq_ok.mpr ⟨by decide, hsymbol ▸ hvalid, rfl⟩, rfl⟩
    · rw [partsOf, if_pos rfl, Int.mul_zero]
      omega
  · have hne : position ≠ 0 := hpos.ne'
    have hne' : ((total + count : Nat) : Int) ≠ 0 := by omega
    obtain ⟨hshare, hspent, hrest⟩ := share_bounds hparts htotal
    have hspent_nonneg := Int.mul_nonneg hshare (Int.natCast_nonneg (total + count))
    refine ⟨_, _, ?_, hshare, rfl, hspent, by omega, fun h => absurd h hne⟩
    rw [if_neg hne]
    refine bind_eq_ok.mpr ⟨⟨perRank.amount * partsOf position, perRank.symbol⟩, ?_,
      bind_eq_ok.mpr ⟨_, Asset.div_eq_ok.mpr ⟨hne', ?_, rfl⟩,
        bind_eq_ok.mpr ⟨_, Asset.mul_eq_ok.mpr ⟨?_, ?_, rfl⟩,
          bind_eq_ok.mpr ⟨_, Asset.add_eq_ok.mpr ⟨hsymbol.symm, ?_, ?_, rfl⟩, ?_⟩⟩⟩⟩
    · rcases eq_or_ne position 1 with rfl | hone
      · have hdouble : partsOf 1 = 2 := rfl
        rw [hdouble] at hmax ⊢
        exact Asset.mul_eq_ok.mpr ⟨by omega, by unfold maxAmount; omega, rfl⟩
      · rw [partsOf, if_neg hne, if_neg hone, if_neg hone, Int.mul_one]
    · dsimp only
      omega
    · dsimp only
      omega
    · dsimp only
      unfold maxAmount
      omega
    · dsimp only
      unfold maxAmount
      omega
    · dsimp only
      omega
    · rw [shareRanks, hsymbol]
      rfl

/-! ### All levels -/

/-- The shares of the levels that a list of counts describes: the count of a level stands behind
those of the levels below it. -/
structure Shared (perRank : Asset) (counts : List Nat) (used : Asset) (shares : List Asset) :
    Prop where
  symbol : used.symbol = perRank.symbol
  nonneg : ∀ share ∈ shares, 0 ≤ share.amount
  used_nonneg : 0 ≤ used.amount
  used_le : used.amount ≤ perRank.amount * weight counts.length
  empty : ∀ k, shares.length ≤ k → counts.getD k 0 = 0
  highest : ∀ k, k + 1 = shares.length → 0 < counts.getD k 0
  paid : ∑ k ∈ Finset.range shares.length,
    (shares.getD k default).amount * ((counts.drop k).sum : Nat) = used.amount
  top : counts.getLast? = some 1 → ∃ front, shares = front ++ [⟨0, perRank.symbol⟩] ∧
    front.length + 1 = counts.length ∧
    perRank.amount * weight counts.length ≤ used.amount +
      ((∑ k ∈ Finset.range front.length, (counts.drop k).sum : Nat) : Int)

section Levels

variable {perRank : Asset}

theorem shared_nil : Shared perRank [] ⟨0, perRank.symbol⟩ [] where
  symbol := rfl
  nonneg := fun _ h => absurd h List.not_mem_nil
  used_nonneg := le_rfl
  used_le := by simp [weight]
  empty := fun _ _ => rfl
  highest := fun _ h => absurd h (Nat.succ_ne_zero _)
  paid := rfl
  top := fun h => by cases h

/-- Nobody at the levels: no shares. -/
theorem Shared.nobody {counts : List Nat} (hsum : counts.sum = 0) (hperRank : 0 ≤ perRank.amount) :
    Shared perRank counts ⟨0, perRank.symbol⟩ [] where
  symbol := rfl
  nonneg := fun _ h => absurd h List.not_mem_nil
  used_nonneg := le_rfl
  used_le := Int.mul_nonneg hperRank (weight_nonneg _)
  empty := by
    intro k _
    rw [List.sum_eq_zero_iff] at hsum
    rw [List.getD_eq_getElem?_getD]
    rcases hk : counts[k]? with _ | count
    · rfl
    · exact hsum count (List.mem_of_getElem? hk)
  highest := fun _ h => absurd h (Nat.succ_ne_zero _)
  paid := rfl
  top := by
    intro hlast
    rw [List.sum_eq_zero_iff] at hsum
    exact absurd (hsum 1 (List.mem_of_getLast? hlast)) Nat.one_ne_zero

theorem Shared.eq_nil {counts : List Nat} {used : Asset} {shares : List Asset}
    (h : Shared perRank counts used shares) (hsum : counts.sum = 0) :
    used = ⟨0, perRank.symbol⟩ ∧ shares = [] := by
  have hnone : shares = [] := by
    rcases hlength : shares.length with _ | k
    · exact List.eq_nil_of_length_eq_zero hlength
    · have hmem := h.highest k hlength.symm
      rw [List.sum_eq_zero_iff] at hsum
      rcases Nat.lt_or_ge k counts.length with hlt | hge
      · rw [List.getD_eq_getElem _ _ hlt, hsum _ (List.getElem_mem hlt)] at hmem
        exact absurd hmem (Nat.lt_irrefl 0)
      · rw [List.getD_eq_default _ _ hge] at hmem
        exact absurd hmem (Nat.lt_irrefl 0)
  have hpaid := h.paid
  rw [hnone] at hpaid
  have hsymbol := h.symbol
  rcases used with ⟨amount, symbol⟩
  exact ⟨by rw [Asset.mk.injEq]; exact ⟨hpaid.symm, hsymbol⟩, hnone⟩

/-- One level below others. -/
theorem Shared.cons {count : Nat} {counts : List Nat} {used : Asset} {shares : List Asset}
    {share spent : Int} (h : Shared perRank counts used shares)
    (hshare : 0 ≤ share) (hsum : 0 < (count :: counts).sum)
    (hspent : spent = share * ((count :: counts).sum : Nat))
    (hle : spent ≤ perRank.amount * partsOf counts.length)
    (hge : perRank.amount * partsOf counts.length ≤ spent + ((count :: counts).sum : Nat))
    (htop : counts.length = 0 → share = 0) :
    Shared perRank (count :: counts) ⟨used.amount + spent, perRank.symbol⟩
      (⟨share, perRank.symbol⟩ :: shares) where
  symbol := rfl
  nonneg := by
    intro a ha
    rcases List.mem_cons.mp ha with rfl | ha
    · exact hshare
    · exact h.nonneg a ha
  used_nonneg := by
    have hspent_nonneg : 0 ≤ spent := hspent ▸ Int.mul_nonneg hshare (Int.natCast_nonneg _)
    have hused := h.used_nonneg
    dsimp only
    omega
  used_le := by
    have hused := h.used_le
    dsimp only
    rw [List.length_cons, weight_succ, Int.mul_add]
    omega
  empty := by
    intro k hk
    rcases k with _ | k
    · exact absurd hk (Nat.not_succ_le_zero _)
    · exact h.empty k (Nat.le_of_succ_le_succ hk)
  highest := by
    intro k hk
    rcases k with _ | k
    · have hnone : shares.length = 0 := (Nat.succ.inj hk).symm
      have hzero : counts.sum = 0 := by
        rw [List.sum_eq_zero_iff]
        intro c hc
        obtain ⟨i, hi, rfl⟩ := List.mem_iff_getElem.mp hc
        rw [← List.getD_eq_getElem _ 0]
        exact h.empty i (by omega)
      rw [List.sum_cons, hzero] at hsum
      exact hsum
    · exact h.highest k (Nat.succ.inj hk)
  paid := by
    rw [List.length_cons, Finset.sum_range_succ']
    simp only [List.getD_cons_succ, List.drop_succ_cons, List.getD_cons_zero, List.drop_zero]
    rw [h.paid, hspent]
  top := by
    intro hlast
    have hspent_nonneg : 0 ≤ spent := hspent ▸ Int.mul_nonneg hshare (Int.natCast_nonneg _)
    rcases counts with _ | ⟨next, counts⟩
    · refine ⟨[], ?_, rfl, ?_⟩
      · rw [(h.eq_nil rfl).2, htop rfl]
        rfl
      · have hused := h.used_nonneg
        have hweight : weight (List.length [count]) = 0 := rfl
        rw [hweight, Int.mul_zero]
        dsimp only [List.length_nil, Finset.sum_range_zero]
        omega
    · rw [List.getLast?_cons_cons] at hlast
      obtain ⟨front, rfl, hlength, hrest⟩ := h.top hlast
      refine ⟨_ :: front, rfl, congrArg (· + 1) hlength, ?_⟩
      have hsums : ∑ k ∈ Finset.range (front.length + 1), ((count :: next :: counts).drop k).sum =
          ∑ k ∈ Finset.range front.length, ((next :: counts).drop k).sum +
            (count :: next :: counts).sum := Finset.sum_range_succ' _ _
      have hlevels : weight (count :: next :: counts).length =
          weight (next :: counts).length + partsOf (next :: counts).length := weight_succ _
      rw [hlevels, Int.mul_add, @List.length_cons _ _ front, hsums, Nat.cast_add]
      dsimp only
      omega

/-- The loop shares out what the levels' parts add up to, without an overflow. -/
theorem shareRanks_shared (perRank : Asset) (hvalid : perRank.symbol.isValid = true) (hperRank : 0 ≤ perRank.amount)
    (counts : List Nat) (hsmall : counts.sum < 2 ^ 16)
    (hmax : perRank.amount * weight counts.length ≤ maxAmount) :
    ∃ used shares, shareRanks perRank 0 counts.reverse 0 ⟨0, perRank.symbol⟩ [] =
      .ok (used, shares) ∧ Shared perRank counts used shares := by
  induction counts with
  | nil => exact ⟨_, _, rfl, shared_nil⟩
  | cons count counts ih =>
      rw [List.length_cons, weight_succ, Int.mul_add] at hmax
      have hparts := Int.mul_nonneg hperRank (partsOf_nonneg counts.length)
      rw [List.sum_cons] at hsmall
      obtain ⟨used, shares, hloop, hshared⟩ := ih (by omega) (by omega)
      have hreverse : counts.reverse.sum = counts.sum := List.sum_reverse counts
      have hsum : 0 + counts.reverse.sum + count = (count :: counts).sum := by
        rw [hreverse, List.sum_cons]
        omega
      rw [List.reverse_cons, shareRanks_concat perRank count 0 _ _ (by omega), hloop, ok_bind, List.length_reverse, Nat.zero_add]
      rcases Nat.eq_zero_or_pos (count :: counts).sum with hzero | hpos
      · have hcounts : counts.sum = 0 := by
          rw [List.sum_cons] at hzero
          omega
        obtain ⟨rfl, rfl⟩ := hshared.eq_nil hcounts
        refine ⟨_, _, ?_, .nobody hzero hperRank⟩
        rw [shareRanks, hsum, hzero]
        rfl
      · have hused := hshared.used_le
        obtain ⟨share, spent, hlevel, hshare, hspent, hle, hge, htop⟩ :=
          shareRanks_level counts.length count (0 + counts.reverse.sum) shares hvalid hperRank hshared.symbol hshared.used_nonneg
            (by omega) (by rw [hsum, List.sum_cons]; exact hsmall) (by omega)
        rw [hsum] at hspent hge
        refine ⟨_, _, hlevel, hshared.cons hshare hpos hspent hle hge htop⟩

end Levels

/-! ### The whole distribution -/

/-- The members who share a level: those of a greater rank. -/
def membersAbove (ranks : List Nat) (level : Nat) : Nat := (ranks.drop (level + 1)).sum

/-- The shares of a distribution and the amount that they use. -/
structure ExactShares (ranks : List Nat) (amount used : Asset) (shares : List Asset) : Prop where
  nonneg : ∀ share ∈ shares, 0 ≤ share.amount
  levels : IsGreatest {rank | 0 < ranks.getD rank 0} shares.length
  paid : ∑ k ∈ Finset.range shares.length,
    (shares.getD k default).amount * (membersAbove ranks k : Nat) = used.amount
  used_le : used.amount ≤ amount.amount
  all_used : ranks.getLast? = some 1 → used = amount
  top : 3 ≤ ranks.length → ranks.getLast? = some 1 →
    (shares.getD (ranks.length - 2) default).amount < (ranks.length - 1 : Nat) +
      ((∑ k ∈ Finset.range (ranks.length - 2), membersAbove ranks k : Nat) : Int)

theorem addToLast_concat {front : List Asset} {share amount : Asset} :
    addToLast (front ++ [share]) amount =
      (share.add amount).map fun last => front ++ [last] := by
  induction front with
  | nil =>
      rw [List.nil_append, addToLast]
      rcases share.add amount with e | last
      · rfl
      · rfl
  | cons a front ih =>
      have hcons : addToLast (a :: front ++ [share]) amount =
          (addToLast (front ++ [share]) amount).map fun rest => a :: rest := by
        rcases front with _ | ⟨b, front⟩
        · rfl
        · rfl
      rw [hcons, ih]
      rcases share.add amount with e | last
      · rfl
      · rfl

section Distribution

variable {first : Nat} {counts : List Nat} {perRank used : Asset} {shares : List Asset}

theorem Shared.levels (h : Shared perRank counts used shares)
    (hmembers : ∃ rank, 0 < rank ∧ 0 < (first :: counts).getD rank 0) :
    IsGreatest {rank | 0 < (first :: counts).getD rank 0} shares.length := by
  have hupper : ∀ rank, 0 < (first :: counts).getD rank 0 → rank ≤ shares.length := by
    intro rank hrank
    by_contra hlt
    obtain ⟨k, rfl⟩ : ∃ k, rank = k + 1 := ⟨rank - 1, by omega⟩
    rw [List.getD_cons_succ, h.empty k (by omega)] at hrank
    exact Nat.lt_irrefl 0 hrank
  refine ⟨?_, hupper⟩
  obtain ⟨rank, hpos, hrank⟩ := hmembers
  rcases hlength : shares.length with _ | k
  · have hle := hupper rank hrank
    omega
  · exact h.highest k hlength.symm

theorem sum_getD_concat (front : List Asset) (share : Asset) (weights : Nat → Int) :
    ∑ k ∈ Finset.range (front ++ [share]).length,
        ((front ++ [share]).getD k default).amount * weights k =
      ∑ k ∈ Finset.range front.length, (front.getD k default).amount * weights k +
        share.amount * weights front.length := by
  rw [List.length_append, List.length_singleton, Finset.sum_range_succ]
  congr 1
  · refine Finset.sum_congr rfl fun k hk => ?_
    rw [List.getD_append _ _ _ _ (Finset.mem_range.mp hk)]
  · rw [List.getD_append_right _ _ _ _ le_rfl, Nat.sub_self, List.getD_cons_zero]

end Distribution

/-- Every histogram with at most one lead representative gives exact shares. -/
theorem makeDistribution_exact {ranks : List Nat} {amount : Asset} (hlength : 2 ≤ ranks.length)
    (hlast : ranks.getLast? = some 0 ∨ ranks.getLast? = some 1)
    (hmembers : ∃ rank, 0 < rank ∧ 0 < ranks.getD rank 0) (hsmall : ranks.sum < 2 ^ 16)
    (hamount : 0 ≤ amount.amount) (hmax : amount.amount ≤ maxAmount)
    (hvalid : amount.symbol.isValid = true) :
    ∃ shares used, makeDistribution ranks amount = .ok (shares, used) ∧
      ExactShares ranks amount used shares := by
  obtain ⟨first, counts, rfl⟩ := List.exists_cons_of_ne_nil
    (List.ne_nil_of_length_pos (Nat.lt_of_lt_of_le Nat.two_pos hlength))
  have hlevels : 0 < counts.length := by
    rw [List.length_cons] at hlength
    omega
  have hne : ((List.length (first :: counts) : Nat) : Int) - 1 = (counts.length : Int) := by
    rw [List.length_cons]
    omega
  obtain ⟨hnonneg, hle, hgt⟩ := share_bounds hamount hlevels
  have hweight : amount.amount.tdiv counts.length * weight counts.length ≤ amount.amount :=
    (mul_le_mul_of_nonneg_left (weight_le _) hnonneg).trans hle
  have hsum : counts.sum < 2 ^ 16 := by
    rw [List.sum_cons] at hsmall
    omega
  obtain ⟨used, shares, hloop, hshared⟩ := shareRanks_shared
    ⟨amount.amount.tdiv counts.length, amount.symbol⟩ hvalid hnonneg counts hsum
    (hweight.trans hmax)
  have hlast' : (first :: counts).getLast? = counts.getLast? := by
    obtain ⟨c, rest, rfl⟩ := List.exists_cons_of_ne_nil (List.ne_nil_of_length_pos hlevels)
    exact List.getLast?_cons_cons
  have hmake : makeDistribution (first :: counts) amount =
      if (first :: counts).getLast? ≠ some 0 then do
        let shares ← addToLast shares (← amount.sub used)
        return (shares, amount)
      else return (shares, used) := by
    have hdiv : amount.div (((first :: counts).length : Int) - 1) =
        .ok ⟨amount.amount.tdiv counts.length, amount.symbol⟩ := by
      rw [hne]
      exact Asset.div_eq_ok.mpr ⟨by omega, by omega, rfl⟩
    have hzero : asset 0 amount.symbol = .ok ⟨0, amount.symbol⟩ :=
      asset_eq_ok.mpr ⟨by decide, hvalid, rfl⟩
    rw [makeDistribution, decide_eq_true (List.cons_ne_nil _ _), ensure_true, ok_bind, hdiv,
      ok_bind, hzero, ok_bind, List.tail_cons, hloop, ok_bind]
  rw [hmake]
  have hused := hshared.used_le
  have hused_nonneg := hshared.used_nonneg
  have hused_le : used.amount ≤ amount.amount := hused.trans hweight
  rcases hlast with hzero | hone
  · rw [if_neg (not_not_intro hzero)]
    refine ⟨_, _, rfl, hshared.nonneg, hshared.levels hmembers, hshared.paid,
      hused_le, fun hone => ?_, fun _ hone => ?_⟩
    · rw [hzero] at hone
      cases hone
    · rw [hzero] at hone
      cases hone
  · obtain ⟨front, rfl, hfront, hrest⟩ := hshared.top (hlast'.symm.trans hone)
    have hsub : amount.sub used = .ok ⟨amount.amount - used.amount, amount.symbol⟩ :=
      Asset.sub_eq_ok.mpr ⟨hshared.symbol, by unfold maxAmount at *; omega, by omega, rfl⟩
    have hadd : (⟨0, amount.symbol⟩ : Asset).add ⟨amount.amount - used.amount, amount.symbol⟩ =
        .ok ⟨amount.amount - used.amount, amount.symbol⟩ :=
      Asset.add_eq_ok.mpr ⟨rfl, by unfold maxAmount at *; dsimp only; omega,
        by dsimp only; omega, by rw [Int.zero_add]⟩
    have hne_zero : (first :: counts).getLast? ≠ some 0 := by
      rw [hone]
      exact fun h => Nat.one_ne_zero (Option.some.inj h)
    -- the lead representative shares the highest level with nobody
    have hdrop : (counts.drop front.length).sum = 1 := by
      have hlast := hlast'.symm.trans hone
      rw [List.getLast?_eq_getElem?, ← hfront, Nat.add_sub_cancel] at hlast
      rw [List.drop_eq_getElem?_toList_append, hlast, List.drop_of_length_le hfront.ge]
      rfl
    have hpaid := hshared.paid
    rw [sum_getD_concat _ _ fun k => ((counts.drop k).sum : Int), hdrop] at hpaid
    rw [if_pos hne_zero, hsub, ok_bind, addToLast_concat, hadd]
    refine ⟨_, _, rfl, ?_, ?_, ?_, le_rfl, fun _ => rfl, ?_⟩
    · intro share hshare
      rcases List.mem_append.mp hshare with hmem | hmem
      · exact hshared.nonneg share (List.mem_append_left _ hmem)
      · rw [List.mem_singleton.mp hmem]
        dsimp only
        omega
    · have hgreatest := hshared.levels hmembers
      rw [List.length_append, List.length_singleton] at hgreatest ⊢
      exact hgreatest
    · change ∑ k ∈ Finset.range (front ++ [_]).length, _ * ((counts.drop k).sum : Int) = _
      rw [sum_getD_concat _ _ fun k => ((counts.drop k).sum : Int), hdrop]
      push_cast at hpaid ⊢
      omega
    · intro hthree _
      have htwo : (first :: counts).length - 2 = front.length := by
        rw [List.length_cons]
        omega
      have hweight_eq : weight counts.length = counts.length := by
        rw [List.length_cons] at hthree
        exact if_neg (by omega)
      have hsums : ∑ k ∈ Finset.range front.length, membersAbove (first :: counts) k =
          ∑ k ∈ Finset.range front.length, (counts.drop k).sum := rfl
      rw [hweight_eq] at hrest
      rw [htwo, hsums, List.getD_append_right _ _ _ _ le_rfl, Nat.sub_self, List.getD_cons_zero,
        List.length_cons, Nat.add_sub_cancel]
      dsimp only at hrest ⊢
      omega

theorem makeDistribution_exact_three :
    ∃ shares used, makeDistribution [3, 5, 1] ⟨1000001, eosSymbol⟩ = .ok (shares, used) ∧
      ExactShares [3, 5, 1] ⟨1000001, eosSymbol⟩ used shares :=
  makeDistribution_exact (by decide) (.inr rfl) ⟨2, by decide, by decide⟩ (by decide) (by decide)
    (by decide) (by decide)

end Eden.RankShares
