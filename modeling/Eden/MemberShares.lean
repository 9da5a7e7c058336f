import Eden.DistributionTables

/-!
What the members get of a distribution: the shares of the ranks, each as often as there are members
above it, make up the amount that the distribution uses.
-/

namespace Eden.MemberShares

open Eden.ExceptReasoning
open Eden.ChainPrimitives
open Eden.DistributionTables

/-! ### The shares of the ranks -/

/-- The shares of the levels that a list of counts describes use up an amount, whatever its sign. -/
structure Spread (counts : List Nat) (used : Asset) (shares : List Asset) : Prop where
  short : shares.length ≤ counts.length
  empty : ∀ k, shares.length ≤ k → counts.getD k 0 = 0
  nobody : counts.sum = 0 → shares = []
  paid : ∑ k ∈ Finset.range shares.length,
    (shares.getD k default).amount * ((counts.drop k).sum : Nat) = used.amount

theorem spread_nil {used : Asset} (hused : used.amount = 0) : Spread [] used [] where
  short := le_rfl
  empty := fun _ _ => rfl
  nobody := fun _ => rfl
  paid := hused.symm

theorem getD_of_sum_eq_zero {counts : List Nat} (h : counts.sum = 0) (k : Nat) :
    counts.getD k 0 = 0 := by
  rw [List.sum_eq_zero_iff] at h
  rw [List.getD_eq_getElem?_getD]
  rcases hk : counts[k]? with _ | count
  · rfl
  · exact h count (List.mem_of_getElem? hk)

/-- A level at which and above which there is nobody has no share. -/
theorem Spread.skip {count : Nat} {counts : List Nat} {used : Asset} {shares : List Asset}
    (h : Spread counts used shares) (hsum : (count :: counts).sum = 0) :
    Spread (count :: counts) used shares := by
  have hrest : counts.sum = 0 := by
    rw [List.sum_cons] at hsum
    omega
  obtain rfl := h.nobody hrest
  exact ⟨Nat.zero_le _, fun k _ => getD_of_sum_eq_zero hsum k, fun _ => rfl, h.paid⟩

/-- A level with its share. -/
theorem Spread.cons {count : Nat} {counts : List Nat} {used used' share : Asset}
    {shares : List Asset} (h : Spread counts used shares) (hsum : (count :: counts).sum ≠ 0)
    (hused : used'.amount = used.amount + share.amount * ((count :: counts).sum : Nat)) :
    Spread (count :: counts) used' (share :: shares) := by
  refine ⟨Nat.succ_le_succ h.short, ?_, fun hzero => absurd hzero hsum, ?_⟩
  · intro k hk
    rcases k with _ | k
    · exact absurd hk (Nat.not_succ_le_zero _)
    · exact h.empty k (Nat.le_of_succ_le_succ hk)
  · rw [List.length_cons, Finset.sum_range_succ']
    simp only [List.getD_cons_succ, List.drop_succ_cons, List.getD_cons_zero, List.drop_zero]
    rw [h.paid, hused]

/-- The loop goes from the highest level down. -/
theorem shareRanks_spread {perRank used used' : Asset} {position total : Nat}
    {todo done : List Nat} {shares shares' : List Asset}
    (h : shareRanks perRank position todo total used shares = .ok (used', shares'))
    (hdone : Spread done used shares) (htotal : total = done.sum)
    (hsmall : todo.sum + done.sum < 2 ^ 16) : Spread (todo.reverse ++ done) used' shares' := by
  induction todo generalizing position total used shares done with
  | nil =>
      cases h
      exact hdone
  | cons count todo ih =>
      rw [List.sum_cons] at hsmall
      have hsum : (count :: done).sum = count + done.sum := List.sum_cons
      have hnext : (total + count) % 2 ^ 16 = (count :: done).sum := by
        rw [htotal, hsum, Nat.add_comm]
        exact Nat.mod_eq_of_lt (by omega)
      have hsmall' : todo.sum + (count :: done).sum < 2 ^ 16 := by omega
      rw [List.reverse_cons, List.append_assoc, List.singleton_append]
      simp only [shareRanks, hnext] at h
      split at h
      · rename_i hzero
        exact ih h (hdone.skip hzero) rfl hsmall'
      · rename_i hpos
        split at h
        · simp only [bind_eq_ok, asset_eq_ok] at h
          obtain ⟨share, ⟨-, -, rfl⟩, h⟩ := h
          refine ih h (hdone.cons hpos ?_) rfl hsmall'
          rw [Int.zero_mul, Int.add_zero]
        · simp only [bind_eq_ok] at h
          obtain ⟨base, -, share, -, spent, hspent, sum, hadd, h⟩ := h
          obtain ⟨-, -, rfl⟩ := Asset.mul_eq_ok.mp hspent
          obtain ⟨-, -, -, rfl⟩ := Asset.add_eq_ok.mp hadd
          exact ih h (hdone.cons hpos rfl) rfl hsmall'

theorem addToLast_eq_ok {shares shares' : List Asset} {amount : Asset}
    (h : addToLast shares amount = .ok shares') :
    ∃ front share last, shares = front ++ [share] ∧ share.add amount = .ok last ∧
      shares' = front ++ [last] := by
  induction shares generalizing shares' with
  | nil => cases h
  | cons share rest ih =>
      cases rest with
      | nil =>
          simp only [DistributionTables.addToLast, bind_eq_ok, pure_eq_ok] at h
          obtain ⟨last, hlast, rfl⟩ := h
          exact ⟨[], share, last, rfl, hlast, rfl⟩
      | cons second rest =>
          simp only [DistributionTables.addToLast, bind_eq_ok, pure_eq_ok] at h
          obtain ⟨rest', hrest, rfl⟩ := h
          obtain ⟨front, share', last, heq, hlast, rfl⟩ := ih hrest
          exact ⟨share :: front, share', last, by rw [heq, List.cons_append], hlast, rfl⟩

/-- What the loop leaves over goes to the one member of the highest level. -/
theorem Spread.addToLast {counts : List Nat} {amount used rest : Asset} {shares shares' : List Asset}
    (h : Spread counts used shares) (hlast : counts.getLast? = some 1)
    (hrest : amount.sub used = .ok rest) (hadd : addToLast shares rest = .ok shares') :
    Spread counts amount shares' := by
  obtain ⟨front, share, last, rfl, hshare, rfl⟩ := addToLast_eq_ok hadd
  obtain ⟨-, -, -, rfl⟩ := Asset.sub_eq_ok.mp hrest
  obtain ⟨-, -, -, rfl⟩ := Asset.add_eq_ok.mp hshare
  have hlength : front.length + 1 = counts.length := by
    refine le_antisymm ?_ ?_
    · have hshort := h.short
      rw [List.length_append, List.length_singleton] at hshort
      exact hshort
    · by_contra hlt
      have hempty := h.empty (counts.length - 1) (by
        rw [List.length_append, List.length_singleton]
        omega)
      rw [List.getLast?_eq_getElem?] at hlast
      rw [List.getD_eq_getElem?_getD, hlast] at hempty
      exact Nat.one_ne_zero hempty
  have hdrop : (counts.drop front.length).sum = 1 := by
    rw [List.getLast?_eq_getElem?, ← hlength, Nat.add_sub_cancel] at hlast
    rw [List.drop_eq_getElem?_toList_append, hlast, List.drop_of_length_le hlength.ge]
    rfl
  -- only the last term changes
  have hsplit : ∀ share : Asset, ∑ k ∈ Finset.range (front ++ [share]).length,
      ((front ++ [share]).getD k default).amount * ((counts.drop k).sum : Nat) =
        ∑ k ∈ Finset.range front.length,
          (front.getD k default).amount * ((counts.drop k).sum : Nat) + share.amount := by
    intro share
    rw [List.length_append, List.length_singleton, Finset.sum_range_succ, hdrop,
      List.getD_append_right _ _ _ _ le_rfl, Nat.sub_self, List.getD_cons_zero, Nat.cast_one,
      Int.mul_one]
    congr 1
    refine Finset.sum_congr rfl fun k hk => ?_
    rw [List.getD_append _ _ _ _ (Finset.mem_range.mp hk)]
  have hpaid := h.paid
  rw [hsplit] at hpaid
  refine ⟨?_, ?_, ?_, ?_⟩
  · rw [List.length_append, List.length_singleton]
    exact hlength.le
  · intro k hk
    rw [List.length_append, List.length_singleton] at hk
    exact List.getD_eq_default _ _ (hlength ▸ hk)
  · intro hzero
    rw [List.sum_eq_zero_iff] at hzero
    exact absurd (hzero 1 (List.mem_of_getLast? hlast)) Nat.one_ne_zero
  · rw [hsplit]
    dsimp only
    omega

/-- A distribution uses what its shares add up to, as long as there is at most one member of the
highest rank. -/
theorem makeDistribution_spread {ranks : List Nat} {amount used : Asset} {shares : List Asset}
    (htop : ∀ top, ranks.getLast? = some top → top ≤ 1) (hsmall : ranks.sum < 2 ^ 16)
    (h : makeDistribution ranks amount = .ok (shares, used)) : Spread ranks.tail used shares := by
  simp only [makeDistribution, bind_eq_ok, ensure_eq_ok, exists_const, decide_eq_true_eq,
    asset_eq_ok, Asset.div_eq_ok] at h
  obtain ⟨hranks, perRank, ⟨hlevels, -, -⟩, used₀, ⟨-, -, rfl⟩, ⟨used₁, shares₁⟩, hloop, h⟩ := h
  obtain ⟨first, counts, rfl⟩ := List.exists_cons_of_ne_nil hranks
  rw [List.sum_cons] at hsmall
  rw [List.tail_cons] at hloop ⊢
  have hspread : Spread counts used₁ shares₁ := by
    have hreversed := shareRanks_spread hloop (spread_nil rfl) rfl (by
      rw [List.sum_reverse, List.sum_nil]
      omega)
    rwa [List.reverse_reverse, List.append_nil] at hreversed
  have hcounts : counts ≠ [] := by
    rintro rfl
    exact hlevels rfl
  obtain ⟨second, rest, rfl⟩ := List.exists_cons_of_ne_nil hcounts
  rw [List.getLast?_cons_cons] at htop h
  split at h
  · rename_i hzero
    simp only [bind_eq_ok, pure_eq_ok, Prod.mk.injEq] at h
    obtain ⟨left, hleft, shares₂, hlast, rfl, rfl⟩ := h
    obtain ⟨top, hget⟩ := Option.isSome_iff_exists.mp (List.getLast?_isSome.mpr hcounts)
    have hle := htop top hget
    have hone : top = 1 := by
      rw [hget] at hzero
      have hne : top ≠ 0 := fun heq => hzero (congrArg some heq)
      omega
    exact hspread.addToLast (hone ▸ hget) hleft hlast
  · cases h
    exact hspread

/-! ### The members -/

/-- What a member of a rank gets. -/
def owed (shares : List Asset) (rank : Nat) : Int := ((shares.take rank).map Asset.amount).sum

/-- The histogram counts the members of each rank above the lowest one. -/
def CountsRanks (ranks members : List Nat) : Prop :=
  ∀ rank, 0 < rank → ranks.getD rank 0 = members.count rank

theorem countP_succ (members : List Nat) (k : Nat) :
    members.countP (fun rank => k < rank) =
      members.count (k + 1) + members.countP fun rank => k + 1 < rank := by
  induction members with
  | nil => rfl
  | cons rank members ih =>
      rw [List.countP_cons, List.countP_cons, List.count_cons, ih]
      simp only [decide_eq_true_eq, beq_iff_eq]
      split_ifs <;> omega

/-- The members above a level, from the histogram. -/
theorem sum_drop_tail {ranks members : List Nat} (h : CountsRanks ranks members) (k : Nat) :
    (ranks.tail.drop k).sum = members.countP fun rank => k < rank := by
  have hget : ∀ k, ranks.tail.getD k 0 = members.count (k + 1) := by
    intro k
    rw [← h (k + 1) k.succ_pos]
    cases ranks with
    | nil => rfl
    | cons first counts => rfl
  induction hleft : ranks.tail.length - k generalizing k with
  | zero =>
      rw [List.drop_of_length_le (by omega), List.sum_nil]
      symm
      rw [List.countP_eq_zero]
      intro rank hrank hlt
      have hcount := List.count_pos_iff.mpr hrank
      rw [decide_eq_true_eq] at hlt
      rw [← h rank (by omega), List.getD_eq_default _ _ (by
        rw [List.length_tail] at hleft
        omega)] at hcount
      exact Nat.lt_irrefl 0 hcount
  | succ left ih =>
      have hlt : k < ranks.tail.length := by omega
      rw [List.drop_eq_getElem_cons hlt, List.sum_cons, ih (k + 1) (by omega), countP_succ _ k,
        ← hget, List.getD_eq_getElem _ _ hlt]

theorem owed_eq_sum {shares : List Asset} {rank : Nat} (h : rank ≤ shares.length) :
    owed shares rank = ∑ k ∈ Finset.range shares.length,
      if k < rank then (shares.getD k default).amount else 0 := by
  induction shares generalizing rank with
  | nil => simp [owed]
  | cons share shares ih =>
      rw [List.length_cons, Finset.sum_range_succ']
      rcases rank with _ | rank
      · simp [owed]
      · have hrank := ih (Nat.le_of_succ_le_succ h)
        simp only [owed, List.take_succ_cons, List.map_cons, List.sum_cons] at hrank ⊢
        simp only [List.getD_cons_succ, Nat.succ_lt_succ_iff, Nat.succ_pos, if_true,
          List.getD_cons_zero]
        rw [hrank, Int.add_comm]

/-- Everybody gets the shares below its rank, and together this is what the distribution uses. -/
theorem Spread.members {ranks members : List Nat} {used : Asset} {shares : List Asset}
    (h : Spread ranks.tail used shares) (hcounts : CountsRanks ranks members) :
    (∀ rank ∈ members, rank ≤ shares.length) ∧
      (members.map (owed shares)).sum = used.amount := by
  have hbound : ∀ rank ∈ members, rank ≤ shares.length := by
    intro rank hrank
    by_contra hlt
    have hcount := List.count_pos_iff.mpr hrank
    rw [← hcounts rank (by omega)] at hcount
    have hempty := h.empty (rank - 1) (by omega)
    obtain ⟨k, rfl⟩ : ∃ k, rank = k + 1 := ⟨rank - 1, by omega⟩
    cases ranks with
    | nil => exact Nat.lt_irrefl 0 hcount
    | cons first counts =>
        rw [List.getD_cons_succ] at hcount
        rw [List.tail_cons, Nat.add_sub_cancel] at hempty
        omega
  refine ⟨hbound, ?_⟩
  rw [← h.paid]
  have hswap : (members.map (owed shares)).sum = ∑ k ∈ Finset.range shares.length,
      (members.map fun rank => if k < rank then (shares.getD k default).amount else 0).sum := by
    clear hcounts h
    induction members with
    | nil => simp
    | cons rank members ih =>
        rw [List.forall_mem_cons] at hbound
        simp only [List.map_cons, List.sum_cons]
        rw [Finset.sum_add_distrib, ih hbound.2, owed_eq_sum hbound.1]
  rw [hswap]
  refine Finset.sum_congr rfl fun k _ => ?_
  rw [sum_drop_tail hcounts]
  clear hswap hbound hcounts
  induction members with
  | nil => simp
  | cons rank members ih =>
      rw [List.map_cons, List.sum_cons, ih, List.countP_cons]
      simp only [decide_eq_true_eq]
      split_ifs <;> push_cast <;> ring

end Eden.MemberShares
