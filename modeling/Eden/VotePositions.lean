import Eden.MemberStatistics
import Eden.GroupPartition

/-!
The positions in the vote table. A voter who is entered takes a position up to the next free one,
and whoever held it moves there; the groups of a round that is over are taken out from the front.
-/

namespace Eden.VotePositions

open Eden.ExceptReasoning
open Eden.SortedTable
open Eden.ChainPrimitives
open Eden.ElectionPlan
open Eden.ContractState
open Eden.Runtime
open Eden.MemberTable
open Eden.ElectionRounds
open Eden.GroupPartition

variable {p : Platform}

/-- The rows of a round hold the positions from `low` up to `high`, each once. -/
structure Filled (votes : VoteTable) (round low high : Nat) : Prop where
  within : ∀ v ∈ votes.rows, v.round = round → low ≤ v.index ∧ v.index < high
  once : ∀ v ∈ votes.rows, ∀ w ∈ votes.rows, v.round = round → w.round = round →
    v.index = w.index → v = w
  full : ∀ i, low ≤ i → i < high → ∃ v ∈ votes.rows, v.round = round ∧ v.index = i

theorem Filled.congr {votes votes' : VoteTable} {round low high : Nat}
    (h : Filled votes round low high)
    (hrows : ∀ v : Vote, v.round = round → (v ∈ votes'.rows ↔ v ∈ votes.rows)) :
    Filled votes' round low high where
  within := fun v hv hround => h.within v ((hrows v hround).mp hv) hround
  once := fun v hv w hw hv' hw' => h.once v ((hrows v hv').mp hv) w ((hrows w hw').mp hw) hv' hw'
  full := by
    intro i hlow hhigh
    obtain ⟨v, hv, hround, hindex⟩ := h.full i hlow hhigh
    exact ⟨v, (hrows v hround).mpr hv, hround, hindex⟩

/-- No row of a round: no position is held. -/
theorem filled_empty {votes : VoteTable} {round low : Nat}
    (hnone : ∀ v ∈ votes.rows, v.round ≠ round) : Filled votes round low low where
  within := fun v hv hround => absurd hround (hnone v hv)
  once := fun v hv _ _ hround => absurd hround (hnone v hv)
  full := fun _ hlow hhigh => absurd (hlow.trans_lt hhigh) (lt_irrefl _)

/-- All rows are of one round. -/
def OfRound (votes : VoteTable) (round : Nat) : Prop := ∀ v ∈ votes.rows, v.round = round

/-! ### The order of the index -/

/-- Positions fit in the 16 bits that the key of the index has for them. -/
def Narrow (votes : VoteTable) : Prop := ∀ v ∈ votes.rows, v.index < 2 ^ 16

theorem byIndex_eq_iff {v : Vote} {round index : Nat} (hv : v.index < 2 ^ 16)
    (hindex : index < 2 ^ 16) :
    v.byIndex = round * 2 ^ 16 + index ↔ v.round = round ∧ v.index = index := by
  unfold Vote.byIndex
  constructor
  · intro h
    omega
  · rintro ⟨rfl, rfl⟩
    rfl

/-- A list of the rows of a round in which the positions grow one by one. -/
structure InOrder (votes : VoteTable) (round low high : Nat) (rows : List Vote) : Prop where
  mem : ∀ v, v ∈ rows ↔ v ∈ votes.rows ∧ v.round = round
  indices : rows.map Vote.index = List.range' low (high - low)

theorem InOrder.length_eq {votes : VoteTable} {round low high : Nat} {rows : List Vote}
    (h : InOrder votes round low high rows) : rows.length = high - low := by
  have hlength := congrArg List.length h.indices
  simpa using hlength

theorem InOrder.filled {votes : VoteTable} {round low high : Nat} {rows : List Vote}
    (h : InOrder votes round low high rows) : Filled votes round low high := by
  have hnodup : (rows.map Vote.index).Nodup := by
    rw [h.indices]
    exact List.nodup_range'
  refine ⟨?_, ?_, ?_⟩
  · intro v hv hround
    have hindex : v.index ∈ rows.map Vote.index :=
      List.mem_map_of_mem ((h.mem v).mpr ⟨hv, hround⟩)
    rw [h.indices, List.mem_range'_1] at hindex
    omega
  · intro v hv w hw hv' hw' heq
    exact List.inj_on_of_nodup_map hnodup ((h.mem v).mpr ⟨hv, hv'⟩) ((h.mem w).mpr ⟨hw, hw'⟩) heq
  · intro i hlow hhigh
    have hindex : i ∈ rows.map Vote.index := by
      rw [h.indices, List.mem_range'_1]
      omega
    obtain ⟨v, hv, rfl⟩ := List.mem_map.mp hindex
    exact ⟨v, ((h.mem v).mp hv).1, ((h.mem v).mp hv).2, rfl⟩

/-- The rows of a round in the order of the index. -/
theorem Filled.inOrder {votes : VoteTable} {round low high : Nat}
    (h : Filled votes round low high) : InOrder votes round low high
      ((votes.index Vote.byIndex).filter fun v => v.round = round) := by
  have hmem : ∀ v, v ∈ (votes.index Vote.byIndex).filter (fun v => v.round = round) ↔
      v ∈ votes.rows ∧ v.round = round := by
    intro v
    rw [List.mem_filter, Table.mem_index, decide_eq_true_eq]
  refine ⟨hmem, ?_⟩
  have hnodup : (((votes.index Vote.byIndex).filter fun v => v.round = round).map
      Vote.index).Nodup := by
    refine List.Nodup.map_on ?_ ?_
    · intro v hv w hw
      exact h.once v ((hmem v).mp hv).1 w ((hmem w).mp hw).1 ((hmem v).mp hv).2 ((hmem w).mp hw).2
    · exact ((votes.index_perm Vote.byIndex).nodup_iff.mpr votes.nodup_rows).filter _
  have hperm : (((votes.index Vote.byIndex).filter fun v => v.round = round).map
      Vote.index).Perm (List.range' low (high - low)) := by
    rw [List.perm_ext_iff_of_nodup hnodup List.nodup_range']
    intro i
    rw [List.mem_range'_1, List.mem_map]
    constructor
    · rintro ⟨v, hv, rfl⟩
      have hbounds := h.within v ((hmem v).mp hv).1 ((hmem v).mp hv).2
      omega
    · intro hi
      obtain ⟨v, hv, hround, hindex⟩ := h.full i hi.1 (by omega)
      exact ⟨v, (hmem v).mpr ⟨hv, hround⟩, hindex⟩
  refine List.Perm.eq_of_pairwise (fun _ _ _ _ => le_antisymm) ?_ ?_ hperm
  · rw [List.pairwise_map]
    refine ((votes.index_pairwise Vote.byIndex).filter _).imp_of_mem ?_
    intro v w hv hw hle
    rw [Vote.byIndex, Vote.byIndex, ((hmem v).mp hv).2, ((hmem w).mp hw).2] at hle
    exact Nat.le_of_add_le_add_left hle
  · exact (List.pairwise_lt_range').imp fun hlt => hlt.le

/-- The rows of a round are as many as its positions. -/
theorem Filled.count_eq {votes : VoteTable} {round low high : Nat}
    (h : Filled votes round low high) :
    votes.rows.countP (fun v => v.round = round) = high - low := by
  rw [← h.inOrder.length_eq, ← List.countP_eq_length_filter]
  exact ((votes.index_perm Vote.byIndex).countP_eq _).symm

theorem Filled.length_eq {votes : VoteTable} {round high : Nat} (hround : OfRound votes round)
    (h : Filled votes round 0 high) : votes.rows.length = high := by
  have hcount := h.count_eq
  rw [Nat.sub_zero] at hcount
  rw [← hcount, eq_comm, List.countP_eq_length]
  intro v hv
  exact decide_eq_true (hround v hv)

/-! ### A voter is entered -/

section Entering

variable {votes votes' : VoteTable} {rng rng' : ElectionRng} {round next : Nat} {member : Name}

theorem addVoter_other (h : addVoter p votes rng round next member = .ok (votes', rng'))
    (hnarrow : Narrow votes) (hnext : next < 2 ^ 16) {v : Vote} (hround : v.round ≠ round) :
    v ∈ votes'.rows ↔ v ∈ votes.rows := by
  rcases addVoter_eq_ok h with hemplace | ⟨old, pos, hpos, hold, hkey, hemplace⟩
  · rw [Table.mem_emplace? hemplace, or_iff_right]
    rintro rfl
    exact hround rfl
  · have hplace := (byIndex_eq_iff (hnarrow old hold) (hpos.trans hnext)).mp hkey
    rw [Table.mem_emplace? hemplace, or_iff_right, Table.mem_replace]
    · constructor
      · rintro (⟨hv, _⟩ | ⟨rfl, _⟩)
        · exact hv
        · exact absurd hplace.1 hround
      · intro hv
        refine .inl ⟨hv, ?_⟩
        intro heq
        have hsame : v = old := Table.eq_of_key_eq hv hold heq
        rw [hsame] at hround
        exact hround hplace.1
    · rintro rfl
      exact hround rfl

theorem narrow_addVoter (h : addVoter p votes rng round next member = .ok (votes', rng'))
    (hnarrow : Narrow votes) (hnext : next < 2 ^ 16) : Narrow votes' := by
  intro v hv
  rcases addVoter_eq_ok h with hemplace | ⟨old, pos, hpos, hold, _, hemplace⟩
  · rcases (Table.mem_emplace? hemplace).mp hv with rfl | hv
    · exact hnext
    · exact hnarrow v hv
  · rcases (Table.mem_emplace? hemplace).mp hv with rfl | hv
    · exact hpos.trans hnext
    · rcases Table.mem_replace.mp hv with ⟨hv, _⟩ | ⟨rfl, _⟩
      · exact hnarrow v hv
      · exact hnext

theorem rounds_addVoter (h : addVoter p votes rng round next member = .ok (votes', rng'))
    (P : Nat → Prop) (hround : P round) (hrounds : ∀ v ∈ votes.rows, P v.round) :
    ∀ v ∈ votes'.rows, P v.round := by
  intro v hv
  rcases addVoter_eq_ok h with hemplace | ⟨old, pos, _, hold, _, hemplace⟩
  · rcases (Table.mem_emplace? hemplace).mp hv with rfl | hv
    · exact hround
    · exact hrounds v hv
  · rcases (Table.mem_emplace? hemplace).mp hv with rfl | hv
    · exact hround
    · rcases Table.mem_replace.mp hv with ⟨hv, _⟩ | ⟨rfl, _⟩
      · exact hrounds v hv
      · exact hrounds old hold

/-- The new voter stands at the next position. -/
theorem filled_appended
    (hemplace : votes.emplace? { member := member, round := round, index := next } = some votes')
    (hfilled : Filled votes round 0 next) : Filled votes' round 0 (next + 1) := by
  refine ⟨?_, ?_, ?_⟩
  · intro v hv hround
    rcases (Table.mem_emplace? hemplace).mp hv with rfl | hv
    · exact ⟨Nat.zero_le _, Nat.lt_succ_self _⟩
    · have hbounds := hfilled.within v hv hround
      omega
  · intro v hv w hw hv' hw' heq
    rcases (Table.mem_emplace? hemplace).mp hv with rfl | hv
    · rcases (Table.mem_emplace? hemplace).mp hw with rfl | hw
      · rfl
      · exact absurd heq.symm (hfilled.within w hw hw').2.ne
    · rcases (Table.mem_emplace? hemplace).mp hw with rfl | hw
      · exact absurd heq (hfilled.within v hv hv').2.ne
      · exact hfilled.once v hv w hw hv' hw' heq
  · intro i _ hi
    rcases Nat.lt_succ_iff_lt_or_eq.mp hi with hi | rfl
    · obtain ⟨v, hv, hround, hindex⟩ := hfilled.full i (Nat.zero_le i) hi
      exact ⟨v, (Table.mem_emplace? hemplace).mpr (.inr hv), hround, hindex⟩
    · exact ⟨_, (Table.mem_emplace? hemplace).mpr (.inl rfl), rfl, rfl⟩

/-- The new voter takes the position of another, who moves to the next one. -/
theorem filled_swapped {old : Vote} {pos : Nat} (hold : old ∈ votes.rows)
    (hround : old.round = round) (hindex : old.index = pos)
    (hemplace : (votes.replace { old with index := next }).emplace?
      { member := member, round := round, index := pos } = some votes')
    (hfilled : Filled votes round 0 next) : Filled votes' round 0 (next + 1) := by
  have hpos : pos < next := hindex ▸ (hfilled.within old hold hround).2
  -- the rows of the new table: the new voter, the moved one and all others
  have hmem : ∀ v, v ∈ votes'.rows ↔ v = { member := member, round := round, index := pos } ∨
      (v ∈ votes.rows ∧ v.member ≠ old.member) ∨ v = { old with index := next } := by
    intro v
    rw [Table.mem_emplace? hemplace, Table.mem_replace]
    have hfind : ∃ c, votes.find? old.member = some c := ⟨old, Table.find?_of_mem hold⟩
    constructor
    · rintro (hv | hv | hv)
      · exact .inl hv
      · exact .inr (.inl hv)
      · exact .inr (.inr hv.1)
    · rintro (hv | hv | hv)
      · exact .inl hv
      · exact .inr (.inl hv)
      · exact .inr (.inr ⟨hv, hfind⟩)
  -- another row of the round stands at another position below the next one
  have hother : ∀ v ∈ votes.rows, v.member ≠ old.member → v.round = round →
      v.index ≠ pos ∧ v.index < next := by
    intro v hv hne hv'
    refine ⟨?_, (hfilled.within v hv hv').2⟩
    intro heq
    exact hne (congrArg Vote.member (hfilled.once v hv old hold hv' hround (heq.trans hindex.symm)))
  refine ⟨?_, ?_, ?_⟩
  · intro v hv hv'
    rcases (hmem v).mp hv with rfl | ⟨hv, _⟩ | rfl
    · exact ⟨Nat.zero_le _, hpos.trans (Nat.lt_succ_self _)⟩
    · have hbounds := hfilled.within v hv hv'
      omega
    · exact ⟨Nat.zero_le _, Nat.lt_succ_self _⟩
  · intro v hv w hw hv' hw' heq
    rcases (hmem v).mp hv with rfl | ⟨hv, hvne⟩ | rfl
    · rcases (hmem w).mp hw with rfl | ⟨hw, hwne⟩ | rfl
      · rfl
      · exact absurd heq.symm (hother w hw hwne hw').1
      · exact absurd heq hpos.ne
    · rcases (hmem w).mp hw with rfl | ⟨hw, _⟩ | rfl
      · exact absurd heq (hother v hv hvne hv').1
      · exact hfilled.once v hv w hw hv' hw' heq
      · exact absurd heq (hother v hv hvne hv').2.ne
    · rcases (hmem w).mp hw with rfl | ⟨hw, hwne⟩ | rfl
      · exact absurd heq hpos.ne'
      · exact absurd heq.symm (hother w hw hwne hw').2.ne
      · rfl
  · intro i _ hi
    rcases Nat.lt_succ_iff_lt_or_eq.mp hi with hi | rfl
    · rcases eq_or_ne i pos with rfl | hne
      · exact ⟨_, (hmem _).mpr (.inl rfl), rfl, rfl⟩
      · obtain ⟨v, hv, hv', hvi⟩ := hfilled.full i (Nat.zero_le i) hi
        refine ⟨v, (hmem v).mpr (.inr (.inl ⟨hv, ?_⟩)), hv', hvi⟩
        intro heq
        have hsame : v = old := Table.eq_of_key_eq hv hold heq
        rw [hsame, hindex] at hvi
        exact hne hvi.symm
    · exact ⟨_, (hmem _).mpr (.inr (.inr rfl)), hround, rfl⟩

theorem filled_addVoter (h : addVoter p votes rng round next member = .ok (votes', rng'))
    (hnarrow : Narrow votes) (hnext : next < 2 ^ 16) (hfilled : Filled votes round 0 next) :
    Filled votes' round 0 (next + 1) := by
  rcases addVoter_eq_ok h with hemplace | ⟨old, pos, hpos, hold, hkey, hemplace⟩
  · exact filled_appended hemplace hfilled
  · have hplace := (byIndex_eq_iff (hnarrow old hold) (hpos.trans hnext)).mp hkey
    exact filled_swapped hold hplace.1 hplace.2 hemplace hfilled

end Entering

/-! ### A group is taken out -/

/-- The rows of the first group are gone, the others stay in their order. -/
theorem inOrder_eraseVotes {votes : VoteTable} {round low high k : Nat} {rows : List Vote}
    (h : InOrder votes round low high rows) :
    InOrder (eraseVotes votes (rows.take k)) round (low + k) high (rows.drop k) := by
  have hnodup : (rows.map Vote.index).Nodup := by
    rw [h.indices]
    exact List.nodup_range'
  have hsplit : rows.take k ++ rows.drop k = rows := List.take_append_drop k rows
  have hdisjoint : ∀ v ∈ rows.drop k, v ∉ rows.take k := by
    have hrows : rows.Nodup := hnodup.of_map
    rw [← hsplit, List.nodup_append] at hrows
    intro v hv hv'
    exact hrows.2.2 v hv' v hv rfl
  refine ⟨?_, ?_⟩
  · intro v
    rw [mem_eraseVotes]
    constructor
    · intro hv
      obtain ⟨hmem, hround⟩ := (h.mem v).mp (List.mem_of_mem_drop hv)
      refine ⟨⟨hmem, ?_⟩, hround⟩
      intro u hu heq
      have hu' := ((h.mem u).mp (List.mem_of_mem_take hu)).1
      have hsame : v = u := Table.eq_of_key_eq hmem hu' heq
      rw [← hsame] at hu
      exact hdisjoint v hv hu
    · rintro ⟨⟨hv, hne⟩, hround⟩
      have hmem := (h.mem v).mpr ⟨hv, hround⟩
      rw [← hsplit, List.mem_append] at hmem
      rcases hmem with htake | hdrop
      · exact absurd rfl (hne v htake)
      · exact hdrop
  · have hlength := h.length_eq
    rw [List.map_drop, h.indices, List.drop_range']
    congr 1
    · omega
    · omega

theorem mem_eraseVotes_other {votes : VoteTable} {round : Nat} {group : List Vote}
    (hgroup : ∀ v ∈ group, v ∈ votes.rows ∧ v.round = round) {v : Vote} (hround : v.round ≠ round) :
    v ∈ (eraseVotes votes group).rows ↔ v ∈ votes.rows := by
  rw [mem_eraseVotes, and_iff_left_iff_imp]
  intro hv u hu heq
  obtain ⟨hu, hround'⟩ := hgroup u hu
  have hsame : v = u := Table.eq_of_key_eq hv hu heq
  rw [hsame] at hround
  exact hround hround'

theorem InOrder.congr {votes votes' : VoteTable} {round low high : Nat} {rows : List Vote}
    (h : InOrder votes round low high rows)
    (hrows : ∀ v : Vote, v.round = round → (v ∈ votes'.rows ↔ v ∈ votes.rows)) :
    InOrder votes' round low high rows where
  mem := by
    intro v
    rw [h.mem]
    exact ⟨fun hv => ⟨(hrows v hv.2).mpr hv.1, hv.2⟩, fun hv => ⟨(hrows v hv.2).mp hv.1, hv.2⟩⟩
  indices := h.indices

/-- A vote changes no positions. -/
theorem Filled.replace {votes : VoteTable} {round low high : Nat}
    (h : Filled votes round low high) {own new : Vote} (hown : own ∈ votes.rows)
    (hmember : new.member = own.member) (hround : new.round = own.round)
    (hindex : new.index = own.index) : Filled (votes.replace new) round low high := by
  have hfind : ∃ c, votes.find? new.member = some c := by
    rw [hmember]
    exact ⟨own, Table.find?_of_mem hown⟩
  -- every row of the new table stands where a row of the old one with the same member stood
  have hback : ∀ v ∈ (votes.replace new).rows, ∃ u ∈ votes.rows,
      u.member = v.member ∧ u.round = v.round ∧ u.index = v.index := by
    intro v hv
    rcases Table.mem_replace.mp hv with ⟨hv, _⟩ | ⟨rfl, _⟩
    · exact ⟨v, hv, rfl, rfl, rfl⟩
    · exact ⟨own, hown, hmember.symm, hround.symm, hindex.symm⟩
  refine ⟨?_, ?_, ?_⟩
  · intro v hv hv'
    obtain ⟨u, hu, _, hround', hindex'⟩ := hback v hv
    rw [← hindex']
    exact h.within u hu (hround'.trans hv')
  · intro v hv w hw hv' hw' heq
    obtain ⟨u, hu, humember, huround, huindex⟩ := hback v hv
    obtain ⟨x, hx, hxmember, hxround, hxindex⟩ := hback w hw
    have hsame : u = x := h.once u hu x hx (huround.trans hv') (hxround.trans hw')
      (by rw [huindex, hxindex, heq])
    refine Table.eq_of_key_eq hv hw ?_
    rw [← humember, ← hxmember, hsame]
  · intro i hlow hhigh
    obtain ⟨v, hv, hv', hvi⟩ := h.full i hlow hhigh
    by_cases hkey : v.member = new.member
    · have hsame : v = own := Table.eq_of_key_eq hv hown (hkey.trans hmember)
      rw [hsame] at hv' hvi
      exact ⟨new, Table.mem_replace.mpr (.inr ⟨rfl, hfind⟩), hround.trans hv', hindex.trans hvi⟩
    · exact ⟨v, Table.mem_replace.mpr (.inl ⟨hv, hkey⟩), hv', hvi⟩

theorem OfRound.replace {votes : VoteTable} {round : Nat} (h : OfRound votes round)
    {own new : Vote} (hown : own ∈ votes.rows) (hround : new.round = own.round) :
    OfRound (votes.replace new) round := by
  intro v hv
  rcases Table.mem_replace.mp hv with ⟨hv, _⟩ | ⟨rfl, _⟩
  · exact h v hv
  · exact hround.trans (h own hown)

/-! ### A round is handed on -/

/-- The votes while a round is finished: those of the round from the next group on, and the
winners. -/
structure Handed (votes : VoteTable) (data : PostRound) : Prop where
  narrow : Narrow votes
  rounds : ∀ v ∈ votes.rows, v.round = data.prevRound ∨ v.round = data.prevRound + 1
  input : Filled votes data.prevRound data.nextInputIndex data.prevConfig.numParticipants
  output : Filled votes (data.prevRound + 1) 0 data.nextOutputIndex
  order : data.nextOutputIndex ≤ data.nextInputIndex
  inside : data.nextInputIndex ≤ data.prevConfig.numParticipants
  bound : data.prevConfig.numParticipants < 2 ^ 16

/-- The loop over the groups reads the rows of the round in the order of the index. -/
theorem remainingVotes_eq {votes : VoteTable} {data : PostRound} (h : Handed votes data) :
    remainingVotes votes data =
      (votes.index Vote.byIndex).filter fun v => v.round = data.prevRound := by
  have hbound := h.bound
  have hinside := h.inside
  have hdrop : votesFrom votes data.prevRound data.nextInputIndex =
      votes.index Vote.byIndex := by
    unfold votesFrom
    rw [List.dropWhile_eq_self_iff]
    intro hlength
    have hv := Table.mem_index.mp (List.getElem_mem hlength)
    rw [decide_eq_true_eq, not_lt, Vote.byIndex]
    rcases h.rounds _ hv with hround | hround
    · have hlow := (h.input.within _ hv hround).1
      rw [hround]
      exact Nat.add_le_add_left hlow _
    · rw [hround]
      omega
  unfold remainingVotes
  rw [hdrop, takeWhile_eq_filter (votes.index_pairwise Vote.byIndex)]
  intro v hv w hw hle hround
  rw [decide_eq_true_eq] at hround ⊢
  have hnarrow := h.narrow w (Table.mem_index.mp hw)
  rcases h.rounds v (Table.mem_index.mp hv) with hv' | hv'
  · exact hv'
  · rw [Vote.byIndex, Vote.byIndex, hround, hv'] at hle
    omega

theorem Handed.inOrder {votes : VoteTable} {data : PostRound} (h : Handed votes data) :
    InOrder votes data.prevRound data.nextInputIndex data.prevConfig.numParticipants
      (remainingVotes votes data) := by
  rw [remainingVotes_eq h]
  exact h.input.inOrder

/-- The table when a group has been taken out and before its winner is entered. -/
theorem narrow_eraseVotes {votes : VoteTable} (group : List Vote) (h : Narrow votes) :
    Narrow (eraseVotes votes group) := fun v hv => h v (mem_eraseVotes.mp hv).1

theorem handed_finishGroup {electionTime k : Nat} {b b' : Ballot} {data data' : PostRound}
    {rest : List Vote} (hpos : 0 < k) (hk : k ≤ rest.length)
    (h : finishGroup p electionTime b data (rest.take k) = .ok (b', data'))
    (hs : Handed b.votes data)
    (hrest : InOrder b.votes data.prevRound data.nextInputIndex data.prevConfig.numParticipants
      rest) :
    Handed b'.votes data' ∧ InOrder b'.votes data'.prevRound data'.nextInputIndex
      data'.prevConfig.numParticipants (rest.drop k) := by
  have hlength := hrest.length_eq
  have hbound := hs.bound
  have horder := hs.order
  have hgroup : ∀ v ∈ rest.take k, v ∈ b.votes.rows ∧ v.round = data.prevRound :=
    fun v hv => (hrest.mem v).mp (List.mem_of_mem_take hv)
  have herased := inOrder_eraseVotes (k := k) hrest
  have hnarrow := narrow_eraseVotes (rest.take k) hs.narrow
  have houtput : Filled (eraseVotes b.votes (rest.take k)) (data.prevRound + 1) 0
      data.nextOutputIndex := by
    refine hs.output.congr fun v hv => mem_eraseVotes_other hgroup ?_
    rw [hv]
    exact (Nat.lt_succ_self _).ne'
  have hrounds : ∀ v ∈ (eraseVotes b.votes (rest.take k)).rows,
      v.round = data.prevRound ∨ v.round = data.prevRound + 1 :=
    fun v hv => hs.rounds v (mem_eraseVotes.mp hv).1
  have htake : (rest.take k).length = k := by rw [List.length_take, Nat.min_eq_left hk]
  have hnext : (data.nextInputIndex + (rest.take k).length) % 2 ^ 16 =
      data.nextInputIndex + k := by
    rw [htake]
    exact Nat.mod_eq_of_lt (by omega)
  obtain ⟨rng, _, ⟨_, hadd, rfl⟩ | ⟨_, hvotes, rfl⟩⟩ := finishGroup_eq_ok h
  · have hsmall : data.nextOutputIndex < 2 ^ 16 := by omega
    have hcount : (data.nextOutputIndex + 1) % 2 ^ 16 = data.nextOutputIndex + 1 :=
      Nat.mod_eq_of_lt (by omega)
    have horder' : InOrder b'.votes data.prevRound (data.nextInputIndex + k)
        data.prevConfig.numParticipants (rest.drop k) := by
      refine herased.congr fun v hv => addVoter_other hadd hnarrow hsmall ?_
      rw [hv]
      exact (Nat.lt_succ_self _).ne
    dsimp only
    rw [hnext, hcount]
    refine ⟨⟨narrow_addVoter hadd hnarrow hsmall, ?_, horder'.filled, ?_, ?_, ?_, hbound⟩, horder'⟩
    · exact rounds_addVoter hadd (fun r => r = data.prevRound ∨ r = data.prevRound + 1) (.inr rfl)
        hrounds
    · exact filled_addVoter hadd hnarrow hsmall houtput
    · dsimp only
      omega
    · dsimp only
      omega
  · dsimp only
    rw [hnext, hvotes]
    refine ⟨⟨hnarrow, hrounds, herased.filled, houtput, ?_, ?_, hbound⟩, herased⟩
    · dsimp only
      omega
    · dsimp only
      omega

/-- When steps are left, all groups have been finished. -/
theorem handed_finishGroups {electionTime maxSteps remaining : Nat} {b b' : Ballot}
    {data data' : PostRound}
    (h : finishGroups p electionTime maxSteps (remainingVotes b.votes data) b data =
      .ok (remaining, b', data')) (hs : Handed b.votes data) :
    Handed b'.votes data' ∧
      (remaining ≠ 0 → data'.nextInputIndex = data'.prevConfig.numParticipants) := by
  obtain ⟨rest, ⟨hs', hrest⟩, hdone⟩ := finishGroups_preserves
    (fun rest b data => Handed b.votes data ∧ InOrder b.votes data.prevRound data.nextInputIndex
      data.prevConfig.numParticipants rest)
    (fun _ _ _ _ _ _ hpos hk _ hgroup hb => handed_finishGroup hpos hk hgroup hb.1 hb.2) h
    ⟨hs, hs.inOrder⟩
  refine ⟨hs', fun hne => ?_⟩
  have hlength := hrest.length_eq
  have hinside := hs'.inside
  rw [hdone hne, List.length_nil] at hlength
  omega

end Eden.VotePositions
