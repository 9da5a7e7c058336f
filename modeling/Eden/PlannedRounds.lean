import Eden.GroupPartition

/-!
The plan of an election. The number of rounds leaves about three to twelve members for each group
of the last round, the integer root chooses the size of the other groups, and a logarithm how many
rounds have groups that are larger by one.
-/

namespace Eden.PlannedRounds

open Eden.ExceptReasoning
open Eden.ChainPrimitives
open Eden.ElectionPlan
open Eden.GroupPartition

/-! ### Roots, rounds and logarithms -/

theorem intPow_eq {base exponent : Nat} (hbase : base < 12) (hexponent : exponent ≤ 8) :
    intPow base exponent = base ^ exponent := by
  have hlt : base ^ exponent < 2 ^ 32 := by
    calc base ^ exponent ≤ 12 ^ exponent := Nat.pow_le_pow_left hbase.le _
      _ ≤ 12 ^ 8 := Nat.pow_le_pow_right (by decide) hexponent
      _ < 2 ^ 32 := by decide
  exact Nat.mod_eq_of_lt hlt

/-- The interval of the search always holds the root. -/
theorem intRootBetween_spec {x y : Nat} (hy : y ≤ 8) {fuel low high : Nat} (hlow : low ^ y ≤ x)
    (hhigh : x < high ^ y) (hlt : low < high) (hmax : high ≤ 12) (hfuel : high - low ≤ fuel + 1) :
    intRootBetween x y fuel low high ^ y ≤ x ∧ x < (intRootBetween x y fuel low high + 1) ^ y ∧
      intRootBetween x y fuel low high < 12 := by
  induction fuel generalizing low high with
  | zero =>
      obtain rfl : high = low + 1 := by omega
      exact ⟨hlow, hhigh, hmax⟩
  | succ fuel ih =>
      rw [intRootBetween]
      split
      · obtain rfl : high = low + 1 := by omega
        exact ⟨hlow, hhigh, hmax⟩
      · dsimp only
        rw [intPow_eq (by omega) hy]
        split
        · rename_i hless
          exact ih hlow hless (by omega) (by omega) (by omega)
        · rename_i hge
          exact ih (not_lt.mp hge) hhigh (by omega) hmax (by omega)

theorem intRoot_spec {x y : Nat} (hpos : 0 < y) (hy : y ≤ 8) (hx : x < 12 ^ y) :
    intRoot x y ^ y ≤ x ∧ x < (intRoot x y + 1) ^ y ∧ intRoot x y < 12 := by
  have hzero : 0 ^ y ≤ x := by
    rw [Nat.zero_pow hpos]
    exact Nat.zero_le x
  exact intRootBetween_spec hy hzero hx (by decide) le_rfl (by decide)

theorem countRoundsFrom_spec {numMembers fuel i : Nat} (result : Nat)
    (hfuel : numMembers < i * 4 ^ fuel) :
    ∃ k, countRoundsFrom numMembers fuel i result = result + k ∧ numMembers < i * 4 ^ k ∧
      ∀ j < k, i * 4 ^ j ≤ numMembers := by
  induction fuel generalizing i result with
  | zero => exact ⟨0, rfl, hfuel, fun j hj => absurd hj (Nat.not_lt_zero j)⟩
  | succ fuel ih =>
      rw [countRoundsFrom]
      split
      · rename_i hle
        have hnext : numMembers < i * 4 * 4 ^ fuel := by
          rw [Nat.mul_assoc, ← Nat.pow_succ']
          exact hfuel
        obtain ⟨k, hk, hlt, hrounds⟩ := ih (result + 1) hnext
        refine ⟨k + 1, by rw [hk]; omega, ?_, ?_⟩
        · rwa [Nat.pow_succ', ← Nat.mul_assoc]
        · intro j hj
          rcases j with _ | j
          · simpa using hle
          · rw [Nat.pow_succ', ← Nat.mul_assoc]
            exact hrounds j (by omega)
      · rename_i hgt
        refine ⟨0, rfl, ?_, fun j hj => absurd hj (Nat.not_lt_zero j)⟩
        rw [Nat.pow_zero, Nat.mul_one]
        exact not_le.mp hgt

/-- One round for fewer than twelve members, and one more for each further factor of four. -/
theorem countRounds_spec {numMembers : Nat} (hsmall : numMembers < 2 ^ 16) :
    ∃ k, countRounds numMembers = k + 1 ∧ k ≤ 7 ∧ numMembers < 3 * 4 ^ (k + 1) ∧
      ∀ j < k, 3 * 4 ^ (j + 1) ≤ numMembers := by
  have hpow : ∀ k, 12 * 4 ^ k = 3 * 4 ^ (k + 1) := fun k => by ring
  have hfuel : numMembers < 12 * 4 ^ 16 := hsmall.trans (by decide)
  obtain ⟨k, hk, hlt, hrounds⟩ := countRoundsFrom_spec 1 hfuel
  refine ⟨k, by rw [countRounds, hk, Nat.add_comm], ?_, by rwa [← hpow], ?_⟩
  · by_contra hmany
    have hseven := hrounds 7 (not_le.mp hmany)
    omega
  · intro j hj
    rw [← hpow]
    exact hrounds j hj

theorem largeRounds_spec {num den p q : Nat} (hle : den ≤ num) :
    p ^ largeRounds num den p q * den ≤ num * q ^ largeRounds num den p q ∧
      (largeRounds num den p q < 64 →
        num * q ^ (largeRounds num den p q + 1) < p ^ (largeRounds num den p q + 1) * den) := by
  constructor
  · exact Nat.findGreatest_spec (P := fun k => p ^ k * den ≤ num * q ^ k) (Nat.zero_le 64)
      (by simpa using hle)
  · intro hlt
    exact not_le.mp (Nat.findGreatest_is_greatest (P := fun k => p ^ k * den ≤ num * q ^ k)
      (Nat.lt_succ_self _) hlt)

/-- A power that is too large bounds the number of larger rounds. -/
theorem largeRounds_lt {num den p q k : Nat} (hle : den ≤ num) (hpq : q ≤ p) (hp : 0 < p)
    (hk : num * q ^ k < p ^ k * den) : largeRounds num den p q < k := by
  by_contra hge
  obtain ⟨j, hj⟩ := Nat.exists_eq_add_of_le (not_lt.mp hge)
  have hspec := (largeRounds_spec (p := p) (q := q) hle).1
  rw [hj] at hspec
  have hcontra : num * q ^ (k + j) < p ^ (k + j) * den := by
    calc num * q ^ (k + j) = num * q ^ k * q ^ j := by ring
      _ ≤ num * q ^ k * p ^ j := Nat.mul_le_mul_left _ (Nat.pow_le_pow_left hpq j)
      _ < p ^ k * den * p ^ j := Nat.mul_lt_mul_of_pos_right hk (Nat.pow_pos hp)
      _ = p ^ (k + j) * den := by ring
  exact absurd hspec (not_le.mpr hcontra)

/-! ### Group sizes -/

theorem prod_range_ite (x y a k : Nat) :
    ((List.range k).map fun i => if i < a then x else y).prod = x ^ min k a * y ^ (k - a) := by
  induction k with
  | zero => simp
  | succ k ih =>
      rw [List.range_succ, List.map_append, List.prod_append, ih, List.map_singleton,
        List.prod_singleton]
      split
      · rename_i hlt
        rw [Nat.min_eq_left hlt.le, Nat.min_eq_left hlt, Nat.sub_eq_zero_of_le hlt.le,
          Nat.sub_eq_zero_of_le hlt, Nat.pow_succ]
        ring
      · rename_i hge
        have hle := not_lt.mp hge
        rw [Nat.min_eq_right hle, Nat.min_eq_right (hle.trans (Nat.le_succ k)),
          Nat.succ_sub hle, Nat.pow_succ]
        ring

theorem tail_map_range (f : Nat → Nat) (k : Nat) :
    ((List.range (k + 1)).map f).tail = (List.range k).map fun i => f (i + 1) := by
  rw [List.range_succ_eq_map, List.map_cons, List.tail_cons, List.map_map]
  rfl

/-- The sizes of the groups after the first round: all but the last are `z` or `z + 1`, the last
between 3 and 11, and the groups of the first round have `z` to `z + 1` members on average. -/
structure Fitting (numMembers z : Nat) (sizes : List Nat) : Prop where
  middle : ∀ size ∈ sizes.dropLast, size = z ∨ size = z + 1
  last : ∀ size ∈ sizes.getLast?, 3 ≤ size ∧ size ≤ 11
  low : z * sizes.prod ≤ numMembers
  high : numMembers ≤ (z + 1) * sizes.prod

theorem sizes_single {numMembers : Nat} (hpos : 0 < numMembers) (hlt : numMembers < 12) :
    getGroupSizes numMembers 1 = .ok [numMembers] := by
  interval_cases numMembers <;> rfl

section Cases

variable {numMembers : Nat}

/-- The sizes behind the first one when all but the last change once from `x` to `y`. -/
theorem fitting_of_split {x y z last a j : Nat} (hx : x = z ∨ x = z + 1) (hy : y = z ∨ y = z + 1)
    (hlast : 3 ≤ last ∧ last ≤ 11)
    (hlow : z * (x ^ min j a * y ^ (j - a) * last) ≤ numMembers)
    (hhigh : numMembers ≤ (z + 1) * (x ^ min j a * y ^ (j - a) * last)) :
    Fitting numMembers z (((List.range j).map fun i => if i < a then x else y) ++ [last]) where
  middle := by
    intro size hsize
    rw [List.dropLast_concat] at hsize
    obtain ⟨i, -, rfl⟩ := List.mem_map.mp hsize
    split
    · exact hx
    · exact hy
  last := by
    intro size hsize
    rw [List.getLast?_concat, Option.mem_some_iff] at hsize
    exact hsize ▸ hlast
  low := by rwa [List.prod_append, prod_range_ite, List.prod_singleton]
  high := by rwa [List.prod_append, prod_range_ite, List.prod_singleton]

/-- A root of three: groups of four, in one round perhaps of five, and three in the last round. -/
theorem sizes_three {j : Nat} (hj : j ≤ 6) (hlow : 3 * 4 ^ (j + 1) ≤ numMembers)
    (hhigh : numMembers < 4 ^ (j + 2)) (hroot : intRoot numMembers (j + 2) = 3) :
    ∃ sizes, getGroupSizes numMembers (j + 2) = .ok sizes ∧ sizes.length = j + 2 ∧
      Fitting numMembers 4 sizes.tail := by
  have hpow : intPow 4 (j + 2 - 1) * 3 = 3 * 4 ^ (j + 1) := by
    rw [Nat.add_succ_sub_one, intPow_eq (by decide) (by omega), Nat.mul_comm]
  have hfour : 4 ^ (j + 2) = 4 * 4 ^ (j + 1) := Nat.pow_succ'
  have hlarge : largeRounds numMembers (3 * 4 ^ (j + 1)) 5 4 < 2 :=
    largeRounds_lt hlow (by decide) (by decide) (by omega)
  obtain ⟨hspec, hnext⟩ := largeRounds_spec (p := 5) (q := 4) hlow
  simp only [getGroupSizes, hroot, if_true, hpow]
  generalize largeRounds numMembers (3 * 4 ^ (j + 1)) 5 4 = large at *
  refine ⟨_, check_bind_eq_ok.mpr ⟨decide_eq_true (by omega), rfl⟩, by simp, ?_⟩
  have htail : ((List.range (j + 2)).map fun i =>
      if i + 1 = j + 2 then 3 else if j + 2 - large - 1 ≤ i then 5 else 4).tail =
        ((List.range j).map fun i => if i < j - large then 4 else 5) ++ [3] := by
    rw [tail_map_range, List.range_succ, List.map_append, List.map_singleton, if_pos rfl]
    congr 1
    refine List.map_congr_left fun i hi => ?_
    have hlt := List.mem_range.mp hi
    rw [if_neg (by omega)]
    split_ifs <;> omega
  rw [htail]
  have hcases : large = 0 ∨ large = 1 := by omega
  refine fitting_of_split (.inl rfl) (.inr rfl) (by decide) ?_ ?_
  · rcases hcases with rfl | rfl
    · rw [Nat.sub_zero, Nat.min_self, Nat.sub_self]
      calc 4 * (4 ^ j * 5 ^ 0 * 3) = 3 * 4 ^ (j + 1) := by ring
        _ ≤ numMembers := hlow
    · rcases j with _ | j
      · norm_num at hspec hhigh ⊢
        omega
      · rw [Nat.add_sub_cancel, Nat.min_eq_right (Nat.le_succ j), Nat.add_sub_cancel_left]
        have hterms : 5 ^ 1 * (3 * 4 ^ (j + 1 + 1)) = 4 * (4 * (4 ^ j * 5 ^ 1 * 3)) := by ring
        omega
  · rcases hcases with rfl | rfl
    · rw [Nat.sub_zero, Nat.min_self, Nat.sub_self]
      have hnext := hnext (by decide)
      have hterms : 5 ^ (0 + 1) * (3 * 4 ^ (j + 1)) = 4 * ((4 + 1) * (4 ^ j * 5 ^ 0 * 3)) := by ring
      omega
    · rcases j with _ | j
      · norm_num at hspec hhigh ⊢
        omega
      · rw [Nat.add_sub_cancel, Nat.min_eq_right (Nat.le_succ j), Nat.add_sub_cancel_left]
        have hterms : 4 ^ (j + 1 + 2) = 64 * 4 ^ j := by ring
        omega

/-- A root of four or five: the first rounds have groups of that size, the others larger ones. -/
theorem sizes_middle {z k : Nat} (hz : z = 4 ∨ z = 5) (hk : k ≤ 7) (hpos : 0 < k)
    (hlow : z ^ (k + 1) ≤ numMembers) (hhigh : numMembers < (z + 1) ^ (k + 1))
    (hroot : intRoot numMembers (k + 1) = z) :
    ∃ sizes, getGroupSizes numMembers (k + 1) = .ok sizes ∧ sizes.length = k + 1 ∧
      Fitting numMembers z sizes.tail := by
  have hpow : intPow z (k + 1) = z ^ (k + 1) := intPow_eq (by omega) (by omega)
  have hlarge : largeRounds numMembers (z ^ (k + 1)) (z + 1) z < k + 1 := by
    refine largeRounds_lt hlow (Nat.le_succ z) (Nat.succ_pos z) ?_
    exact Nat.mul_lt_mul_of_pos_right hhigh (Nat.pow_pos (by omega))
  obtain ⟨hspec, hnext⟩ := largeRounds_spec (p := z + 1) (q := z) hlow
  have hthree : ¬ z = 3 := by omega
  have hsix : ¬ 6 ≤ z := by omega
  simp only [getGroupSizes, hroot, if_neg hthree, if_neg hsix, hpow]
  generalize largeRounds numMembers (z ^ (k + 1)) (z + 1) z = large at *
  refine ⟨_, rfl, by simp, ?_⟩
  obtain ⟨j, rfl⟩ := Nat.exists_eq_add_of_le (Nat.lt_succ_iff.mp hlarge)
  have hz' : 0 < z := by omega
  have hlow' : z ^ (j + 1) * (z + 1) ^ large ≤ numMembers := by
    refine Nat.le_of_mul_le_mul_right ?_ (Nat.pow_pos hz' (n := large))
    calc z ^ (j + 1) * (z + 1) ^ large * z ^ large =
          (z + 1) ^ large * z ^ (large + j + 1) := by ring
      _ ≤ numMembers * z ^ large := hspec
  have hhigh' : numMembers < z ^ j * (z + 1) ^ (large + 1) := by
    refine Nat.lt_of_mul_lt_mul_right (a := z ^ (large + 1)) ?_
    calc numMembers * z ^ (large + 1) <
          (z + 1) ^ (large + 1) * z ^ (large + j + 1) := hnext (by omega)
      _ = z ^ j * (z + 1) ^ (large + 1) * z ^ (large + 1) := by ring
  have htail : ((List.range (large + j + 1)).map fun i =>
      if i < large + j + 1 - large then z else z + 1).tail =
        (List.range (large + j)).map fun i => if i < j then z else z + 1 := by
    rw [tail_map_range]
    refine List.map_congr_left fun i _ => ?_
    split_ifs <;> omega
  have hprod : ((List.range (large + j)).map fun i => if i < j then z else z + 1).prod =
      z ^ j * (z + 1) ^ large := by
    rw [prod_range_ite, Nat.min_eq_right (Nat.le_add_left _ _), Nat.add_sub_cancel]
  have hmem : ∀ size ∈ (List.range (large + j)).map fun i => if i < j then z else z + 1,
      size = z ∨ size = z + 1 := by
    intro size hsize
    obtain ⟨i, -, rfl⟩ := List.mem_map.mp hsize
    split
    · exact .inl rfl
    · exact .inr rfl
  rw [htail]
  refine ⟨fun size hsize => hmem size (List.mem_of_mem_dropLast hsize), ?_, ?_, ?_⟩
  · intro size hsize
    have hsize := hmem size (List.mem_of_getLast? hsize)
    omega
  · rw [hprod]
    calc z * (z ^ j * (z + 1) ^ large) = z ^ (j + 1) * (z + 1) ^ large := by ring
      _ ≤ numMembers := hlow'
  · rw [hprod]
    calc numMembers ≤ z ^ j * (z + 1) ^ (large + 1) := hhigh'.le
      _ = (z + 1) * (z ^ j * (z + 1) ^ large) := by ring

/-- A root from six on happens in two rounds only. -/
theorem sizes_large {k : Nat} (hpos : 0 < k) (hk : k ≤ 7) (hlow : 6 ^ (k + 1) ≤ numMembers)
    (hhigh : numMembers < 3 * 4 ^ (k + 1)) (hroot : 6 ≤ intRoot numMembers (k + 1)) :
    ∃ sizes, getGroupSizes numMembers (k + 1) = .ok sizes ∧ sizes.length = k + 1 ∧
      Fitting numMembers 5 sizes.tail := by
  obtain rfl : k = 1 := by
    interval_cases k <;> omega
  have hthree : ¬ intRoot numMembers (1 + 1) = 3 := by omega
  have hdivisor : intPow 6 (1 + 1 - 1) = 6 := rfl
  simp only [getGroupSizes, if_neg hthree, if_pos hroot, hdivisor]
  refine ⟨_, rfl, by simp, ?_⟩
  have htail : ((List.range (1 + 1)).map fun i =>
      if i + 1 = 1 + 1 then (numMembers + 6 - 1) / 6 else if i = 0 then 5 else 6).tail =
        [(numMembers + 6 - 1) / 6] := rfl
  rw [htail]
  refine ⟨fun size hsize => absurd hsize List.not_mem_nil, ?_, ?_, ?_⟩
  · intro size hsize
    rw [List.getLast?_singleton, Option.mem_some_iff] at hsize
    subst hsize
    omega
  · rw [List.prod_singleton]
    omega
  · rw [List.prod_singleton]
    omega

/-- From twelve members on there are at least two rounds, and groups of four to six. -/
theorem getGroupSizes_fitting (hmany : 12 ≤ numMembers) (hsmall : numMembers < 2 ^ 16) :
    ∃ k z sizes, 0 < k ∧ countRounds numMembers = k + 1 ∧
      getGroupSizes numMembers (countRounds numMembers) = .ok sizes ∧ sizes.length = k + 1 ∧
      (z = 4 ∨ z = 5) ∧ Fitting numMembers z sizes.tail := by
  obtain ⟨k, hk, hle, hhigh, hrounds⟩ := countRounds_spec hsmall
  have hpos : 0 < k := by
    rcases Nat.eq_zero_or_pos k with rfl | hpos
    · omega
    · exact hpos
  obtain ⟨j, rfl⟩ : ∃ j, k = j + 1 := ⟨k - 1, by omega⟩
  have hlow : 3 * 4 ^ (j + 1) ≤ numMembers := hrounds j (Nat.lt_succ_self j)
  have htwelve : numMembers < 12 ^ (j + 2) := by
    calc numMembers < 3 * 4 ^ (j + 2) := hhigh
      _ ≤ 3 ^ (j + 2) * 4 ^ (j + 2) :=
          Nat.mul_le_mul_right _ (Nat.le_self_pow (Nat.succ_ne_zero _) 3)
      _ = 12 ^ (j + 2) := (Nat.mul_pow 3 4 (j + 2)).symm
  obtain ⟨hroot, hroot', -⟩ := intRoot_spec (Nat.succ_pos (j + 1)) (by omega) htwelve
  -- the root is at least three
  have hthree : 3 ≤ intRoot numMembers (j + 2) := by
    have hlt : 3 ^ (j + 2) < (intRoot numMembers (j + 2) + 1) ^ (j + 2) := by
      calc 3 ^ (j + 2) = 3 * 3 ^ (j + 1) := Nat.pow_succ'
        _ ≤ 3 * 4 ^ (j + 1) := Nat.mul_le_mul_left 3 (Nat.pow_le_pow_left (by decide) _)
        _ ≤ numMembers := hlow
        _ < (intRoot numMembers (j + 2) + 1) ^ (j + 2) := hroot'
    have hlt := lt_of_pow_lt_pow_left₀ (j + 2) (Nat.zero_le _) hlt
    omega
  rw [hk]
  rcases Nat.lt_or_ge (intRoot numMembers (j + 2)) 6 with hless | hsix
  · rcases Nat.eq_or_lt_of_le hthree with heq | hfour
    · rw [← heq] at hroot'
      obtain ⟨sizes, hsizes, hlength, hfit⟩ := sizes_three (by omega) hlow hroot' heq.symm
      exact ⟨j + 1, 4, sizes, hpos, rfl, hsizes, hlength, .inl rfl, hfit⟩
    · have hz : intRoot numMembers (j + 2) = 4 ∨ intRoot numMembers (j + 2) = 5 := by omega
      obtain ⟨sizes, hsizes, hlength, hfit⟩ := sizes_middle hz hle hpos hroot hroot' rfl
      exact ⟨j + 1, _, sizes, hpos, rfl, hsizes, hlength, hz, hfit⟩
  · have hlow' := (Nat.pow_le_pow_left hsix (j + 2)).trans hroot
    obtain ⟨sizes, hsizes, hlength, hfit⟩ := sizes_large hpos hle hlow' hhigh hsix
    exact ⟨j + 1, 5, sizes, hpos, rfl, hsizes, hlength, .inr rfl, hfit⟩

end Cases

/-! ### The plan -/

/-- The rounds after the first one: as many participants as the round before has groups, and
groups of exactly the sizes given. -/
structure Later (sizes : List Nat) (config : ElectionConfig) (participants : Nat) : Prop where
  participants_eq : participants = sizes.prod
  length_eq : config.length = sizes.length
  linked : ∀ first : RoundConfig, first.numGroups = participants →
    (first :: config).IsChain fun c d => c.numGroups = d.numParticipants
  last : ∀ first : RoundConfig, first.numGroups = participants →
    ∀ c ∈ (first :: config).getLast?, c.numGroups = 1
  sized : List.Forall₂ (fun (c : RoundConfig) size => 0 < c.numGroups ∧
    c.numParticipants = c.numGroups * size) config sizes

theorem laterRounds_later {sizes : List Nat} (hpos : ∀ size ∈ sizes, 0 < size)
    (hsmall : sizes.prod < 2 ^ 16) :
    Later sizes (laterRounds sizes).1 (laterRounds sizes).2 := by
  induction sizes with
  | nil =>
      refine ⟨rfl, rfl, ?_, ?_, .nil⟩
      · intro first _
        exact List.isChain_singleton first
      · intro first hfirst c hc
        obtain rfl := Option.mem_some_iff.mp hc
        exact hfirst
  | cons size sizes ih =>
      have hsize : 0 < size := hpos size List.mem_cons_self
      have hrest : ∀ size ∈ sizes, 0 < size := fun x hx => hpos x (List.mem_cons_of_mem _ hx)
      rw [List.prod_cons] at hsmall
      have hle : sizes.prod ≤ size * sizes.prod := Nat.le_mul_of_pos_left _ hsize
      have hlater := ih hrest (by omega)
      have hprod : 0 < sizes.prod := List.prod_pos hrest
      have hmod : (laterRounds sizes).2 * size % 2 ^ 16 = size * sizes.prod := by
        rw [hlater.participants_eq, Nat.mul_comm]
        exact Nat.mod_eq_of_lt hsmall
      have hcons : laterRounds (size :: sizes) =
          (⟨size * sizes.prod, (laterRounds sizes).2⟩ :: (laterRounds sizes).1,
            size * sizes.prod) := by
        rw [← hmod]
        rfl
      rw [hcons]
      refine ⟨List.prod_cons.symm, congrArg (· + 1) hlater.length_eq, ?_, ?_, .cons ?_ ?_⟩
      · intro first hfirst
        exact List.isChain_cons_cons.mpr ⟨hfirst, hlater.linked _ rfl⟩
      · intro first _ c hc
        rw [List.getLast?_cons_cons] at hc
        exact hlater.last _ rfl c hc
      · dsimp only
        rw [hlater.participants_eq]
        exact ⟨hprod, Nat.mul_comm _ _⟩
      · exact hlater.sized

section Related

variable {α β : Type} {R : α → β → Prop} {as : List α} {bs : List β}

theorem exists_mem_of_forall₂ (h : List.Forall₂ R as bs) {a : α} (ha : a ∈ as) :
    ∃ b ∈ bs, R a b := by
  induction h with
  | nil => exact absurd ha List.not_mem_nil
  | cons hab _ ih =>
      rcases List.mem_cons.mp ha with rfl | ha
      · exact ⟨_, List.mem_cons_self, hab⟩
      · obtain ⟨b, hb, hR⟩ := ih ha
        exact ⟨b, List.mem_cons_of_mem _ hb, hR⟩

theorem exists_mem_dropLast_of_forall₂ (h : List.Forall₂ R as bs) {a : α}
    (ha : a ∈ as.dropLast) : ∃ b ∈ bs.dropLast, R a b := by
  rw [List.dropLast_eq_take] at ha ⊢
  rw [← h.length_eq]
  exact exists_mem_of_forall₂ (List.forall₂_take _ h) ha

theorem exists_getLast_of_forall₂ (h : List.Forall₂ R as bs) {a : α} (ha : a ∈ as.getLast?) :
    ∃ b ∈ bs.getLast?, R a b := by
  have hreverse := List.forall₂_reverse_iff.mpr h
  rw [List.getLast?_eq_head?_reverse] at ha ⊢
  generalize as.reverse = as' at hreverse ha
  generalize bs.reverse = bs' at hreverse
  cases hreverse with
  | nil => exact absurd ha (Option.not_mem_none a)
  | cons hab _ =>
      obtain rfl := Option.mem_some_iff.mp ha
      exact ⟨_, rfl, hab⟩

end Related

section Groups

variable {c : RoundConfig} {z : Nat}

/-- A round whose groups have `z` to `z + 1` members on average. -/
theorem divisible_of_between (hz : 0 < z) (hbound : z < 255) (hgroups : 0 < c.numGroups)
    (hlow : z * c.numGroups ≤ c.numParticipants)
    (hhigh : c.numParticipants ≤ (z + 1) * c.numGroups) : Divisible c where
  groups := hgroups
  participants := (Nat.le_mul_of_pos_left _ hz).trans hlow
  size := by
    have hlt : c.numParticipants + c.numGroups - 1 < (z + 2) * c.numGroups := by
      have hmul : (z + 2) * c.numGroups = (z + 1) * c.numGroups + c.numGroups := by ring
      omega
    have hdiv := Nat.div_lt_of_lt_mul (Nat.mul_comm _ _ ▸ hlt)
    omega

/-- Then all its groups have one of these sizes. -/
theorem card_positions_between (hc : Divisible c) (hlow : z * c.numGroups ≤ c.numParticipants)
    (hhigh : c.numParticipants ≤ (z + 1) * c.numGroups) {g : Nat} (hg : g < c.numGroups) :
    (positions c g).card = z ∨ (positions c g).card = z + 1 := by
  have heq := numParticipants_eq hc
  have hle := numLargeGroups_le c
  have hlarge : 0 < c.numLargeGroups := Nat.sub_pos_of_lt (numShortGroups_lt hc)
  rw [heq, Nat.mul_comm] at hlow
  rw [heq, Nat.mul_comm (z + 1)] at hhigh
  have hmin : c.groupMinSize < z + 1 := by
    refine Nat.lt_of_mul_lt_mul_left (a := c.numGroups) ?_
    omega
  have hmax : z ≤ c.groupMinSize + 1 := by
    refine Nat.le_of_mul_le_mul_left (c := c.numGroups) ?_ hc.groups
    rw [Nat.mul_add, Nat.mul_one]
    omega
  rw [card_positions hc hg, groupSize]
  rcases Nat.lt_or_ge c.groupMinSize z with hless | hge
  · -- no group is short
    obtain rfl : z = c.groupMinSize + 1 := by omega
    rw [Nat.mul_add, Nat.mul_one] at hlow
    rw [if_pos (by omega)]
    exact .inl rfl
  · obtain rfl : z = c.groupMinSize := by omega
    split
    · exact .inr rfl
    · exact .inl rfl

theorem card_positions_single (hc : Divisible c) (hsingle : c.numGroups = 1) :
    (positions c 0).card = c.numParticipants := by
  rw [positions_eq hc (hsingle ▸ Nat.zero_lt_one), groupToFirstMemberIndex_zero, Nat.card_Ico,
    Nat.zero_add, Nat.sub_zero, ← groupToFirstMemberIndex_numGroups hc, hsingle]

end Groups

/-- What an election asks of its plan: the rounds are linked from all participants down to one
group, the groups have adjacent sizes from four to six, and the last one three to eleven members,
or all of fewer than twelve. -/
structure WellPlanned (numMembers : Nat) (config : ElectionConfig) : Prop where
  nonempty : config ≠ []
  first : config.head?.map RoundConfig.numParticipants = some numMembers
  last : config.getLast?.map RoundConfig.numGroups = some 1
  linked : config.IsChain fun c d => c.numGroups = d.numParticipants
  divisible : ∀ c ∈ config, Divisible c
  sizes : ∃ z, (z = 4 ∨ z = 5) ∧ ∀ c ∈ config.dropLast, ∀ g < c.numGroups,
    (positions c g).card = z ∨ (positions c g).card = z + 1
  final : ∀ c ∈ config.getLast?,
    (numMembers < 12 → (positions c 0).card = numMembers) ∧
      (12 ≤ numMembers → 3 ≤ (positions c 0).card ∧ (positions c 0).card ≤ 11)
  single : config.length = 1 ↔ numMembers < 12

theorem makeElectionConfig_single {numMembers : Nat} (hpos : 0 < numMembers)
    (hless : numMembers < 12) : makeElectionConfig numMembers = .ok [⟨numMembers, 1⟩] := by
  have hrounds : countRounds numMembers = 1 := by
    interval_cases numMembers <;> rfl
  rw [makeElectionConfig, if_neg hpos.ne', hrounds, sizes_single hpos hless]
  rfl

theorem wellPlanned_single {numMembers : Nat} (hpos : 0 < numMembers) (hless : numMembers < 12) :
    WellPlanned numMembers [⟨numMembers, 1⟩] := by
  have hdivisible : Divisible ⟨numMembers, 1⟩ := by
    refine ⟨Nat.le_refl 1, hpos, ?_⟩
    rw [Nat.add_sub_cancel, Nat.div_one]
    exact hless.le.trans (by decide)
  refine ⟨List.cons_ne_nil _ _, rfl, rfl, List.isChain_singleton _, ?_, ?_, ?_, ?_⟩
  · intro c hc
    rwa [List.mem_singleton.mp hc]
  · exact ⟨4, .inl rfl, fun c hc => absurd hc List.not_mem_nil⟩
  · intro c hc
    obtain rfl := Option.mem_some_iff.mp hc
    refine ⟨fun _ => card_positions_single hdivisible rfl, fun hmany => ?_⟩
    omega
  · exact ⟨fun _ => hless, fun _ => rfl⟩

theorem Fitting.bounds {numMembers z : Nat} {sizes : List Nat} (hz : z = 4 ∨ z = 5)
    (hfit : Fitting numMembers z sizes) : ∀ size ∈ sizes, 3 ≤ size ∧ size ≤ 11 := by
  intro size hsize
  rcases hlast : sizes.getLast? with _ | last
  · rw [List.getLast?_eq_none_iff] at hlast
    exact absurd (hlast ▸ hsize) List.not_mem_nil
  · rw [← List.dropLast_append_getLast? last hlast, List.mem_append, List.mem_singleton] at hsize
    rcases hsize with hmiddle | rfl
    · have hsize := hfit.middle size hmiddle
      omega
    · exact hfit.last size hlast

theorem wellPlanned_many {numMembers z : Nat} {sizes : List Nat} (hmany : 12 ≤ numMembers)
    (hsmall : numMembers < 2 ^ 16) (hz : z = 4 ∨ z = 5) (hne : sizes ≠ [])
    (hfit : Fitting numMembers z sizes) :
    WellPlanned numMembers (⟨numMembers, (laterRounds sizes).2⟩ :: (laterRounds sizes).1) := by
  have hbounds := hfit.bounds hz
  have hpos : ∀ size ∈ sizes, 0 < size := fun size hsize =>
    lt_of_lt_of_le (by decide) (hbounds size hsize).1
  have hprod : 0 < sizes.prod := List.prod_pos hpos
  have hprod' : sizes.prod < 2 ^ 16 := by
    have hle := (Nat.le_mul_of_pos_left sizes.prod (by omega : 0 < z)).trans hfit.low
    omega
  have hlater := laterRounds_later hpos hprod'
  have hgroups : (laterRounds sizes).2 = sizes.prod := hlater.participants_eq
  generalize (laterRounds sizes).1 = later at *
  rw [hgroups] at hlater ⊢
  have hlast := hlater.last ⟨numMembers, sizes.prod⟩ rfl
  have hlater_ne : later ≠ [] := by
    rintro rfl
    exact hne (List.eq_nil_of_length_eq_zero hlater.length_eq.symm)
  have hfirst : Divisible ⟨numMembers, sizes.prod⟩ :=
    divisible_of_between (by omega) (by omega) hprod hfit.low hfit.high
  have hdivisible : ∀ c ∈ later, Divisible c := by
    intro c hc
    obtain ⟨size, hsize, hc, hsized⟩ := exists_mem_of_forall₂ hlater.sized hc
    have hbound := hbounds size hsize
    refine divisible_of_between (z := size) (by omega) (by omega) hc ?_ ?_
    · rw [hsized, Nat.mul_comm]
    · rw [hsized, Nat.mul_comm]
      exact Nat.mul_le_mul_right _ (Nat.le_succ size)
  have hget : (⟨numMembers, sizes.prod⟩ :: later : ElectionConfig).getLast? = later.getLast? := by
    obtain ⟨c, rest, rfl⟩ := List.exists_cons_of_ne_nil hlater_ne
    rw [List.getLast?_cons_cons]
  refine ⟨List.cons_ne_nil _ _, rfl, ?_, hlater.linked _ rfl, ?_, ⟨z, hz, ?_⟩, ?_, ?_⟩
  · have hc := List.getLast?_eq_some_getLast hlater_ne
    rw [hget, hc, Option.map_some, hlast _ (hget.trans hc)]
  · intro c hc
    rcases List.mem_cons.mp hc with rfl | hc
    · exact hfirst
    · exact hdivisible c hc
  · intro c hc g hg
    rw [List.dropLast_cons_of_ne_nil hlater_ne] at hc
    rcases List.mem_cons.mp hc with rfl | hc
    · exact card_positions_between hfirst hfit.low hfit.high hg
    · obtain ⟨size, hsize, -, hsized⟩ := exists_mem_dropLast_of_forall₂ hlater.sized hc
      refine card_positions_between (hdivisible c (List.mem_of_mem_dropLast hc)) ?_ ?_ hg
      · rw [hsized, Nat.mul_comm]
        exact Nat.mul_le_mul_left _ (by have := hfit.middle size hsize; omega)
      · rw [hsized, Nat.mul_comm]
        exact Nat.mul_le_mul_right _ (by have := hfit.middle size hsize; omega)
  · intro c hc
    have hsingle := hlast c hc
    rw [hget] at hc
    obtain ⟨size, hsize, -, hsized⟩ := exists_getLast_of_forall₂ hlater.sized hc
    rw [card_positions_single (hdivisible c (List.mem_of_getLast? hc)) hsingle, hsized, hsingle,
      Nat.one_mul]
    exact ⟨fun hless => absurd hless (not_lt.mpr hmany), fun _ => hfit.last size hsize⟩
  · rw [List.length_cons, hlater.length_eq]
    have hlength := List.length_pos_of_ne_nil hne
    omega

/-- The plan is made for every number of members, and fits. -/
theorem makeElectionConfig_wellPlanned {numMembers : Nat} (hpos : 1 ≤ numMembers)
    (hsmall : numMembers < 2 ^ 16) :
    ∃ config, makeElectionConfig numMembers = .ok config ∧ WellPlanned numMembers config := by
  rcases Nat.lt_or_ge numMembers 12 with hless | hmany
  · exact ⟨_, makeElectionConfig_single hpos hless, wellPlanned_single hpos hless⟩
  · obtain ⟨k, z, sizes, hk, hrounds, hsizes, hlength, hz, hfit⟩ :=
      getGroupSizes_fitting hmany hsmall
    have hne : sizes.tail ≠ [] := by
      apply List.ne_nil_of_length_pos
      rw [List.length_tail]
      omega
    refine ⟨_, ?_, wellPlanned_many hmany hsmall hz hne hfit⟩
    rw [makeElectionConfig, if_neg (by omega), hsizes]
    rfl

theorem makeElectionConfig_wellPlanned_hundred :
    ∃ config, makeElectionConfig 100 = .ok config ∧ WellPlanned 100 config :=
  makeElectionConfig_wellPlanned (by decide) (by decide)

end Eden.PlannedRounds
