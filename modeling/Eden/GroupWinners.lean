import Eden.Electorate
import Eden.GroupPartition

/-!
The winner of a group. A vote for oneself counts for the whole group, so that one inequality asks
for both: the winner voted for itself, and has more than two thirds of the votes cast.
-/

namespace Eden.GroupWinners

open Eden.ExceptReasoning
open Eden.SortedTable
open Eden.ChainPrimitives
open Eden.ElectionPlan
open Eden.ContractState
open Eden.Runtime
open Eden.ElectionRounds
open Eden.GroupPartition

/-! ### The greatest value of a list -/

section Greatest

variable {α : Type} (value : α → Nat)

/-- `std::max_element`, one turn. -/
def better (best : Option α) (a : α) : Option α :=
  match best with
  | none => some a
  | some b => if value b < value a then some a else some b

theorem foldl_better_some (l : List α) (acc : α) :
    ∃ b, l.foldl (better value) (some acc) = some b ∧ (b = acc ∨ b ∈ l) ∧
      value acc ≤ value b ∧ ∀ a ∈ l, value a ≤ value b := by
  induction l generalizing acc with
  | nil => exact ⟨acc, rfl, .inl rfl, le_rfl, fun _ h => absurd h List.not_mem_nil⟩
  | cons a l ih =>
      rw [List.foldl_cons, better]
      split
      · rename_i hlt
        obtain ⟨b, hb, hmem, hle, hall⟩ := ih a
        refine ⟨b, hb, .inr ?_, hlt.le.trans hle, ?_⟩
        · rcases hmem with rfl | hmem
          · exact List.mem_cons_self
          · exact List.mem_cons_of_mem a hmem
        · exact List.forall_mem_cons.mpr ⟨hle, hall⟩
      · rename_i hge
        obtain ⟨b, hb, hmem, hle, hall⟩ := ih acc
        refine ⟨b, hb, hmem.imp id (List.mem_cons_of_mem a), hle, ?_⟩
        exact List.forall_mem_cons.mpr ⟨(not_lt.mp hge).trans hle, hall⟩

theorem foldl_better_none {l : List α} (hl : l ≠ []) :
    ∃ b ∈ l, l.foldl (better value) none = some b ∧ ∀ a ∈ l, value a ≤ value b := by
  obtain ⟨a, rest, rfl⟩ := List.exists_cons_of_ne_nil hl
  obtain ⟨b, hb, hmem, hle, hall⟩ := foldl_better_some value rest a
  refine ⟨b, ?_, hb, List.forall_mem_cons.mpr ⟨hle, hall⟩⟩
  rcases hmem with rfl | hmem
  · exact List.mem_cons_self
  · exact List.mem_cons_of_mem a hmem

end Greatest

/-! ### Votes -/

/-- A group as `elections::vote` leaves it: each member abstains or votes for one of the group. -/
structure Balloted (group : List Vote) : Prop where
  size : 1 ≤ group.length ∧ group.length ≤ 127
  distinct : (group.map Vote.member).Nodup
  names : ∀ v ∈ group, isAccountName v.member = true
  within : ∀ v ∈ group, v.candidate = emptyName ∨ v.candidate ∈ group.map Vote.member

/-- The votes cast for a candidate. -/
def castFor (group : List Vote) (candidate : Name) : Nat :=
  group.countP fun v => v.candidate = candidate

/-- All votes cast. -/
def castVotes (group : List Vote) : Nat := group.countP fun v => v.candidate ≠ emptyName

/-- The members who voted for themselves as this candidate: one or none. -/
def ownVotes (group : List Vote) (candidate : Name) : Nat :=
  group.countP fun v => v.candidate = candidate ∧ v.member = candidate

/-- A member who voted for itself and for whom more than two thirds of the votes were cast. -/
structure RealWinner (group : List Vote) (winner : Name) : Prop where
  own : ∃ v ∈ group, v.member = winner ∧ v.candidate = winner
  majority : 2 * castVotes group < 3 * castFor group winner

section Counters

variable {group : List Vote}

/-- The counter of a candidate before it is cut to 8 bits. -/
def counter (group : List Vote) (candidate : Name) : Nat :=
  ((group.filter fun v => v.candidate = candidate).map fun v =>
    if v.candidate = v.member then group.length + 1 else 1).sum

theorem counter_eq (group : List Vote) (candidate : Name) :
    counter group candidate =
      castFor group candidate + group.length * ownVotes group candidate := by
  have hsplit : ∀ (size : Nat) (votes : List Vote),
      ((votes.filter fun v => v.candidate = candidate).map fun v =>
        if v.candidate = v.member then size + 1 else 1).sum =
          castFor votes candidate + size * ownVotes votes candidate := by
    intro size votes
    induction votes with
    | nil => rfl
    | cons v votes ih =>
        rcases eq_or_ne v.candidate candidate with rfl | hne
        · rcases eq_or_ne v.member v.candidate with hown | hother
          · simp only [castFor, ownVotes, List.filter_cons, List.countP_cons, hown, decide_true,
              if_true, List.map_cons, List.sum_cons, and_self] at ih ⊢
            rw [ih]
            ring
          · simp only [castFor, ownVotes, List.filter_cons, List.countP_cons, decide_true, if_true,
              List.map_cons, List.sum_cons, hother, hother.symm, and_false, decide_false,
              if_false, Bool.false_eq_true] at ih ⊢
            rw [ih]
            ring
        · simp only [castFor, ownVotes, List.filter_cons, List.countP_cons, hne, decide_false,
            if_false, false_and, Bool.false_eq_true, Nat.add_zero] at ih ⊢
          exact ih
  exact hsplit group.length group

theorem ownVotes_pos_iff {candidate : Name} :
    0 < ownVotes group candidate ↔ ∃ v ∈ group, v.member = candidate ∧ v.candidate = candidate := by
  rw [ownVotes, List.countP_pos_iff]
  simp only [decide_eq_true_eq]
  constructor
  · rintro ⟨v, hv, hcandidate, hmember⟩
    exact ⟨v, hv, hmember, hcandidate⟩
  · rintro ⟨v, hv, hmember, hcandidate⟩
    exact ⟨v, hv, hcandidate, hmember⟩

theorem ownVotes_le_one (hgroup : Balloted group) (candidate : Name) :
    ownVotes group candidate ≤ 1 := by
  calc ownVotes group candidate ≤ group.countP (fun v => v.member = candidate) :=
        List.countP_mono_left fun v _ hv => by
          simp only [decide_eq_true_eq] at hv ⊢
          exact hv.2
    _ = (group.map Vote.member).count candidate := by
        rw [List.count_eq_countP, List.countP_map]
        refine List.countP_congr fun v _ => ?_
        simp
    _ ≤ 1 := List.nodup_iff_count_le_one.mp hgroup.distinct candidate

theorem castFor_le_length (candidate : Name) : castFor group candidate ≤ group.length :=
  List.countP_le_length

theorem castVotes_le_length : castVotes group ≤ group.length := List.countP_le_length

theorem castFor_le_castVotes {candidate : Name} (hne : candidate ≠ emptyName) :
    castFor group candidate ≤ castVotes group :=
  List.countP_mono_left fun v _ hv => by
    simp only [decide_eq_true_eq] at hv ⊢
    rwa [hv]

/-- Two candidates share the votes cast. -/
theorem castFor_add_le {c d : Name} (hcd : c ≠ d) (hc : c ≠ emptyName) (hd : d ≠ emptyName) :
    castFor group c + castFor group d ≤ castVotes group := by
  unfold castFor castVotes
  induction group with
  | nil => exact le_rfl
  | cons v group ih =>
      rw [List.countP_cons, List.countP_cons, List.countP_cons]
      simp only [decide_eq_true_eq]
      rcases eq_or_ne v.candidate c with rfl | hvc
      · rw [if_pos rfl, if_neg hcd, if_pos hc]
        omega
      · rcases eq_or_ne v.candidate d with rfl | hvd
        · rw [if_neg hvc, if_pos rfl, if_pos hd]
          omega
        · rw [if_neg hvc, if_neg hvd]
          omega

theorem counter_le (hgroup : Balloted group) (candidate : Name) :
    counter group candidate ≤ 2 * group.length := by
  have hcast : castFor group candidate ≤ group.length := castFor_le_length candidate
  have hown := Nat.mul_le_mul_left group.length (ownVotes_le_one hgroup candidate)
  rw [counter_eq]
  omega

/-- The counters of a group fit in 8 bits. -/
theorem counter_lt (hgroup : Balloted group) (candidate : Name) :
    counter group candidate < 2 ^ 8 := by
  have hle := counter_le hgroup candidate
  have hsize := hgroup.size.2
  omega

theorem castVotes_lt (hgroup : Balloted group) : castVotes group < 2 ^ 8 := by
  have hle : castVotes group ≤ group.length := castVotes_le_length
  have hsize := hgroup.size.2
  omega

theorem votesFor_eq (hgroup : Balloted group) (candidate : Name) :
    votesFor group candidate = counter group candidate :=
  Nat.mod_eq_of_lt (counter_lt hgroup candidate)

theorem totalVotes_eq (hgroup : Balloted group) : totalVotes group = castVotes group := by
  have hcount : (group.filter fun v => v.candidate ≠ emptyName).length = castVotes group :=
    List.countP_eq_length_filter.symm
  rw [totalVotes, hcount]
  exact Nat.mod_eq_of_lt (castVotes_lt hgroup)

end Counters

/-! ### The winner -/

section Winner

variable {group : List Vote} {winner : Name}

theorem RealWinner.mem (h : RealWinner group winner) : winner ∈ group.map Vote.member := by
  obtain ⟨v, hv, hmember, -⟩ := h.own
  exact List.mem_map.mpr ⟨v, hv, hmember⟩

theorem Balloted.isAccountName (hgroup : Balloted group) {a : Name}
    (ha : a ∈ group.map Vote.member) : isAccountName a = true := by
  obtain ⟨v, hv, rfl⟩ := List.mem_map.mp ha
  exact hgroup.names v hv

theorem ne_emptyName_of_isAccountName {a : Name} (h : isAccountName a = true) : a ≠ emptyName := by
  simp only [ChainPrimitives.isAccountName, Bool.and_eq_true, decide_eq_true_eq] at h
  exact h.1.1

/-- The inequality asks for an own vote and the majority. -/
theorem enough_iff (hgroup : Balloted group) (hwinner : winner ∈ group.map Vote.member) :
    2 * totalVotes group + 3 * group.length < 3 * votesFor group winner ↔
      RealWinner group winner := by
  have hne := ne_emptyName_of_isAccountName (hgroup.isAccountName hwinner)
  have hcast : castFor group winner ≤ castVotes group := castFor_le_castVotes hne
  have hlength : castVotes group ≤ group.length := castVotes_le_length
  have hone := ownVotes_le_one hgroup winner
  rw [votesFor_eq hgroup, totalVotes_eq hgroup, counter_eq]
  rcases Nat.eq_zero_or_pos (ownVotes group winner) with hzero | hpos
  · rw [hzero, Nat.mul_zero]
    constructor
    · intro h
      omega
    · intro h
      exact absurd (ownVotes_pos_iff.mpr h.own) (by omega)
  · have hown : ownVotes group winner = 1 := by omega
    rw [hown, Nat.mul_one]
    constructor
    · intro h
      exact ⟨ownVotes_pos_iff.mp hpos, by omega⟩
    · intro h
      have hmajority := h.majority
      omega

theorem RealWinner.unique (hgroup : Balloted group) {c d : Name} (hc : RealWinner group c)
    (hd : RealWinner group d) : c = d := by
  by_contra hne
  have hadd : castFor group c + castFor group d ≤ castVotes group := castFor_add_le hne
    (ne_emptyName_of_isAccountName (hgroup.isAccountName hc.mem))
    (ne_emptyName_of_isAccountName (hgroup.isAccountName hd.mem))
  have hmajority := hc.majority
  have hmajority' := hd.majority
  omega

/-- A real winner has more votes than every other candidate. -/
theorem RealWinner.lt_votesFor (hgroup : Balloted group) (h : RealWinner group winner) {c : Name}
    (hc : c ≠ winner) (hne : c ≠ emptyName) : votesFor group c < votesFor group winner := by
  have hadd : castFor group c + castFor group winner ≤ castVotes group := castFor_add_le hc hne
    (ne_emptyName_of_isAccountName (hgroup.isAccountName h.mem))
  have hmajority := h.majority
  have hown : ownVotes group winner = 1 :=
    Nat.le_antisymm (ownVotes_le_one hgroup winner) (ownVotes_pos_iff.mpr h.own)
  have hone := Nat.mul_le_mul_left group.length (ownVotes_le_one hgroup c)
  rw [votesFor_eq hgroup, votesFor_eq hgroup, counter_eq, counter_eq, hown]
  omega

theorem mem_candidates {c : Name} :
    c ∈ candidates group ↔ (∃ v ∈ group, v.candidate = c) ∧ c ≠ emptyName := by
  simp only [candidates, List.mem_insertionSort, List.mem_dedup, List.mem_filter, List.mem_map,
    decide_eq_true_eq]

theorem bestCandidate_eq (group : List Vote) :
    bestCandidate group = (candidates group).foldl (better (votesFor group)) none := by
  unfold bestCandidate
  congr 1
  funext best c
  rcases best with _ | b
  · rfl
  · rfl

theorem RealWinner.mem_candidates (hgroup : Balloted group) (h : RealWinner group winner) :
    winner ∈ candidates group := by
  obtain ⟨v, hv, -, hcandidate⟩ := h.own
  exact GroupWinners.mem_candidates.mpr
    ⟨⟨v, hv, hcandidate⟩, ne_emptyName_of_isAccountName (hgroup.isAccountName h.mem)⟩

theorem bestCandidate_of_realWinner (hgroup : Balloted group) (h : RealWinner group winner) :
    bestCandidate group = some winner := by
  have hmem := h.mem_candidates hgroup
  obtain ⟨best, hbest, hfold, hmax⟩ :=
    foldl_better_none (votesFor group) (List.ne_nil_of_mem hmem)
  rw [bestCandidate_eq, hfold]
  by_contra hne
  have hlt := h.lt_votesFor hgroup (c := best) (fun heq => hne (congrArg some heq))
    (GroupWinners.mem_candidates.mp hbest).2
  have hle := hmax winner hmem
  omega

theorem groupWinner_of_realWinner (hgroup : Balloted group) (h : RealWinner group winner) :
    groupWinner group = winner := by
  rw [groupWinner, bestCandidate_of_realWinner hgroup h]
  exact if_pos ((enough_iff hgroup h.mem).mpr h)

/-- Without a real winner the marker of the group is no account. -/
theorem groupWinner_of_none (hgroup : Balloted group) (h : ∀ c, ¬ RealWinner group c) :
    groupWinner group % 16 ≠ 0 := by
  have hmarker : complementName ((group.head?.map Vote.member).getD emptyName) % 16 ≠ 0 := by
    obtain ⟨first, rest, rfl⟩ := List.exists_cons_of_ne_nil
      (List.ne_nil_of_length_pos hgroup.size.1)
    have hfirst := hgroup.names first List.mem_cons_self
    simp only [ChainPrimitives.isAccountName, Bool.and_eq_true, decide_eq_true_eq] at hfirst
    have hcomplement : ∀ n : Nat, n < 2 ^ 64 → n % 16 = 0 → (2 ^ 64 - 1 - n) % 16 ≠ 0 := by
      omega
    exact hcomplement first.member hfirst.1.2 hfirst.2
  unfold groupWinner
  rcases hbest : bestCandidate group with _ | best
  · exact hmarker
  · obtain ⟨v, hv, hcandidate, hne⟩ := Electorate.bestCandidate_mem hbest
    have hmem : best ∈ group.map Vote.member := by
      rcases hgroup.within v hv with hnone | hmem
      · exact absurd (hcandidate.symm.trans hnone) hne
      · exact hcandidate ▸ hmem
    dsimp only
    rw [if_neg (fun henough => h best ((enough_iff hgroup hmem).mp henough))]
    exact hmarker

theorem groupWinner_eq_iff (hgroup : Balloted group) {c : Name}
    (hc : c ∈ group.map Vote.member) : groupWinner group = c ↔ RealWinner group c := by
  constructor
  · rintro rfl
    by_contra hnone
    have hsome : ∃ d, RealWinner group d := by
      by_contra hnobody
      have hname := hgroup.isAccountName hc
      simp only [ChainPrimitives.isAccountName, Bool.and_eq_true, decide_eq_true_eq] at hname
      exact groupWinner_of_none hgroup (fun d hd => hnobody ⟨d, hd⟩) hname.2
    obtain ⟨d, hd⟩ := hsome
    rw [groupWinner_of_realWinner hgroup hd] at hnone
    exact hnone hd
  · exact groupWinner_of_realWinner hgroup

theorem goesOn_iff (hgroup : Balloted group) :
    goesOn (groupWinner group) ↔ RealWinner group (groupWinner group) := by
  constructor
  · intro hgoes
    by_contra hnone
    refine groupWinner_of_none hgroup (fun d hd => ?_) hgoes
    rw [groupWinner_of_realWinner hgroup hd] at hnone
    exact hnone hd
  · intro h
    have hname := hgroup.isAccountName h.mem
    simp only [ChainPrimitives.isAccountName, Bool.and_eq_true, decide_eq_true_eq] at hname
    exact hname.2

end Winner

/-! ### Who goes on -/

/-- A member has a vote of a round in the table. -/
def inRound (votes : VoteTable) (round : Nat) (a : Name) : Prop :=
  ∃ v ∈ votes.rows, v.member = a ∧ v.round = round

theorem inRound_emplace {votes votes' : VoteTable} {v : Vote} (h : votes.emplace? v = some votes')
    (r : Nat) (a : Name) :
    inRound votes' r a ↔ inRound votes r a ∨ (a = v.member ∧ r = v.round) := by
  constructor
  · rintro ⟨u, hu, hmember, hround⟩
    rcases (Table.mem_emplace? h).mp hu with rfl | hu
    · exact .inr ⟨hmember.symm, hround.symm⟩
    · exact .inl ⟨u, hu, hmember, hround⟩
  · rintro (⟨u, hu, hmember, hround⟩ | ⟨rfl, rfl⟩)
    · exact ⟨u, (Table.mem_emplace? h).mpr (.inr hu), hmember, hround⟩
    · exact ⟨v, (Table.mem_emplace? h).mpr (.inl rfl), rfl, rfl⟩

/-- Who moves to another position stays in its round. -/
theorem inRound_replace {votes : VoteTable} {old : Vote} (hold : old ∈ votes.rows) (index : Nat)
    (r : Nat) (a : Name) :
    inRound (votes.replace { old with index := index }) r a ↔ inRound votes r a := by
  have hfound : votes.find? old.member = some old := Table.find?_eq_some.mpr ⟨hold, rfl⟩
  constructor
  · rintro ⟨u, hu, hmember, hround⟩
    rcases Table.mem_replace.mp hu with ⟨hu, -⟩ | ⟨rfl, -⟩
    · exact ⟨u, hu, hmember, hround⟩
    · exact ⟨old, hold, hmember, hround⟩
  · rintro ⟨u, hu, hmember, hround⟩
    rcases eq_or_ne u.member old.member with hsame | hother
    · obtain rfl : u = old := by
        rw [← hsame, Table.find?_eq_some.mpr ⟨hu, rfl⟩] at hfound
        exact Option.some.inj hfound
      exact ⟨_, Table.mem_replace.mpr (.inr ⟨rfl, u, hfound⟩), hmember, hround⟩
    · exact ⟨u, Table.mem_replace.mpr (.inl ⟨hu, hother⟩), hmember, hround⟩

theorem inRound_addVoter {p : Platform} {votes votes' : VoteTable} {rng rng' : ElectionRng}
    {round nextIndex : Nat} {member : Name}
    (h : addVoter p votes rng round nextIndex member = .ok (votes', rng')) (r : Nat) (a : Name) :
    inRound votes' r a ↔ inRound votes r a ∨ (a = member ∧ r = round) := by
  rcases addVoter_eq_ok h with hnew | ⟨old, pos, -, hold, -, hnew⟩
  · exact inRound_emplace hnew r a
  · rw [inRound_emplace hnew, inRound_replace hold]

theorem inRound_eraseVotes {votes : VoteTable} {group : List Vote} (r : Nat) (a : Name) :
    inRound (eraseVotes votes group) r a ↔
      a ∉ group.map Vote.member ∧ inRound votes r a := by
  constructor
  · rintro ⟨u, hu, rfl, hround⟩
    obtain ⟨hu, hother⟩ := mem_eraseVotes.mp hu
    refine ⟨fun hmem => ?_, u, hu, rfl, hround⟩
    obtain ⟨v, hv, hmember⟩ := List.mem_map.mp hmem
    exact hother v hv hmember.symm
  · rintro ⟨hnot, u, hu, rfl, hround⟩
    refine ⟨u, mem_eraseVotes.mpr ⟨hu, fun v hv heq => hnot ?_⟩, rfl, hround⟩
    exact List.mem_map.mpr ⟨v, hv, heq.symm⟩

/-- One group leaves the table, and its real winner enters it for the next round. -/
theorem inRound_finishGroup {p : Platform} {electionTime : Nat} {b b' : Ballot}
    {data data' : PostRound} {group : List Vote} (hgroup : Balloted group)
    (h : finishGroup p electionTime b data group = .ok (b', data')) (r : Nat) (a : Name) :
    (inRound b'.votes r a ↔ (a ∉ group.map Vote.member ∧ inRound b.votes r a) ∨
      (r = data.prevRound + 1 ∧ RealWinner group a)) ∧ data'.prevRound = data.prevRound := by
  obtain ⟨rng, -, ⟨hgoes, hadd, rfl⟩ | ⟨hstays, hsame, rfl⟩⟩ := finishGroup_eq_ok h
  · have hwinner := (goesOn_iff hgroup).mp hgoes
    refine ⟨?_, rfl⟩
    rw [inRound_addVoter hadd, inRound_eraseVotes]
    refine or_congr_right ?_
    constructor
    · rintro ⟨rfl, rfl⟩
      exact ⟨rfl, hwinner⟩
    · rintro ⟨rfl, ha⟩
      exact ⟨(groupWinner_of_realWinner hgroup ha).symm, rfl⟩
  · refine ⟨?_, rfl⟩
    rw [hsame, inRound_eraseVotes]
    constructor
    · exact .inl
    · rintro (hkept | ⟨-, ha⟩)
      · exact hkept
      · rw [goesOn_iff hgroup, groupWinner_of_realWinner hgroup ha] at hstays
        exact absurd ha hstays

/-- The groups of a walk leave the table one after the other, and all their real winners enter it
for the next round. -/
theorem inRound_finishAll {p : Platform} {electionTime : Nat} {groups : List (List Vote)}
    (hgroups : ∀ group ∈ groups, Balloted group)
    (hdistinct : (groups.flatten.map Vote.member).Nodup) {b b' : Ballot} {data data' : PostRound}
    (h : finishAll p electionTime groups b data = .ok (b', data')) (r : Nat) (a : Name) :
    inRound b'.votes r a ↔ (a ∉ groups.flatten.map Vote.member ∧ inRound b.votes r a) ∨
      (r = data.prevRound + 1 ∧ ∃ group ∈ groups, RealWinner group a) := by
  unfold finishAll at h
  induction groups generalizing b data with
  | nil =>
      simp only [List.foldlM_nil, pure_eq_ok, Prod.mk.injEq] at h
      rw [h.1]
      simp
  | cons group groups ih =>
      simp only [List.foldlM_cons, bind_eq_ok] at h
      obtain ⟨⟨b₁, data₁⟩, hgroup, h⟩ := h
      rw [List.flatten_cons, List.map_append, List.nodup_append'] at hdistinct
      obtain ⟨-, hdistinct, hdisjoint⟩ := hdistinct
      have hballoted := hgroups group List.mem_cons_self
      obtain ⟨hone, hround⟩ := inRound_finishGroup hballoted hgroup r a
      rw [ih (fun g hg => hgroups g (List.mem_cons_of_mem _ hg)) hdistinct h, hone, hround,
        List.flatten_cons, List.map_append, List.mem_append]
      constructor
      · rintro (⟨hrest, ⟨hnot, hkept⟩ | ⟨hr, ha⟩⟩ | ⟨hr, g, hg, ha⟩)
        · exact .inl ⟨fun hmem => hmem.elim hnot hrest, hkept⟩
        · exact .inr ⟨hr, group, List.mem_cons_self, ha⟩
        · exact .inr ⟨hr, g, List.mem_cons_of_mem _ hg, ha⟩
      · rintro (⟨hnot, hkept⟩ | ⟨hr, g, hg, ha⟩)
        · exact .inl ⟨fun hmem => hnot (.inr hmem), .inl ⟨fun hmem => hnot (.inl hmem), hkept⟩⟩
        · rcases List.mem_cons.mp hg with rfl | hg
          · -- the winner belongs to no other group
            exact .inl ⟨fun hmem => hdisjoint ha.mem hmem, .inr ⟨hr, ha⟩⟩
          · exact .inr ⟨hr, g, hg, ha⟩

/-- The votes of a round that is over: every group has voted as `elections::vote` admits. -/
structure VotedRound (c : RoundConfig) (votes : List Vote) : Prop where
  divisible : Divisible c
  small : c.numParticipants < 2 ^ 16
  positions : votes.map Vote.index = List.range c.numParticipants
  distinct : (votes.map Vote.member).Nodup
  groups : ∀ g < c.numGroups, Balloted (groupOf c votes g)

section Rounds

variable {c : RoundConfig} {votes : List Vote}

theorem VotedRound.balloted (hround : VotedRound c votes) {maxSteps g : Nat} :
    ∀ group ∈ groupsFrom c votes maxSteps g, Balloted group := by
  intro group hgroup
  obtain ⟨i, hi, rfl⟩ := List.mem_map.mp hgroup
  rw [List.mem_range'_1] at hi
  exact hround.groups i (by omega)

theorem VotedRound.nodup (hround : VotedRound c votes) (maxSteps g : Nat) :
    ((groupsFrom c votes maxSteps g).flatten.map Vote.member).Nodup := by
  rw [List.map_flatten, groupsFrom, List.map_map, List.nodup_flatten]
  constructor
  · intro l hl
    obtain ⟨i, -, rfl⟩ := List.mem_map.mp hl
    exact hround.distinct.sublist (List.filter_sublist.map Vote.member)
  · rw [List.pairwise_map]
    refine List.Pairwise.imp (fun {i j} hij => ?_) List.nodup_range'
    intro a hi hj
    obtain ⟨v, hv, rfl⟩ := List.mem_map.mp hi
    obtain ⟨u, hu, hmember⟩ := List.mem_map.mp hj
    obtain ⟨hv, hgroup⟩ := List.mem_filter.mp hv
    obtain ⟨hu, hgroup'⟩ := List.mem_filter.mp hu
    obtain rfl := List.inj_on_of_nodup_map hround.distinct hu hv hmember
    rw [decide_eq_true_eq] at hgroup hgroup'
    exact hij (hgroup.symm.trans hgroup')

/-- Finishing a round takes the groups out and lets exactly their real winners go on. -/
theorem VotedRound.advances (hround : VotedRound c votes) {p : Platform}
    {electionTime maxSteps remaining g : Nat} {b b' : Ballot} {data data' : PostRound}
    (hg : g ≤ c.numGroups) (hconfig : data.prevConfig = c)
    (hindex : data.nextInputIndex = c.groupToFirstMemberIndex g)
    (h : finishGroups p electionTime maxSteps (votes.drop (c.groupToFirstMemberIndex g)) b data =
      .ok (remaining, b', data')) (r : Nat) (a : Name) :
    inRound b'.votes r a ↔
      (a ∉ (groupsFrom c votes maxSteps g).flatten.map Vote.member ∧ inRound b.votes r a) ∨
        (r = data.prevRound + 1 ∧ ∃ group ∈ groupsFrom c votes maxSteps g, RealWinner group a) := by
  rw [finishGroups_walk hround.divisible hround.small hround.positions maxSteps hg b hconfig
    hindex] at h
  rcases hall : finishAll p electionTime (groupsFrom c votes maxSteps g) b data with e | state
  · rw [hall] at h
    cases h
  · rw [hall] at h
    obtain ⟨-, rfl⟩ := Prod.mk.inj (Except.ok.inj h)
    exact inRound_finishAll hround.balloted (hround.nodup maxSteps g) hall r a

end Rounds

/-- What the counters of a group decide. -/
structure Decided (group : List Vote) : Prop where
  winner : ∀ c ∈ group.map Vote.member, groupWinner group = c ↔ RealWinner group c
  unique : ∀ c d, RealWinner group c → RealWinner group d → c = d
  counters : ∀ c, counter group c < 2 ^ 8
  total : castVotes group < 2 ^ 8
  marker : (∀ c, ¬ RealWinner group c) → groupWinner group % 16 ≠ 0
  within : ∀ c, RealWinner group c → c ∈ group.map Vote.member

theorem decided {group : List Vote} (hgroup : Balloted group) : Decided group where
  winner := fun _ hc => groupWinner_eq_iff hgroup hc
  unique := fun _ _ hc hd => hc.unique hgroup hd
  counters := counter_lt hgroup
  total := castVotes_lt hgroup
  marker := groupWinner_of_none hgroup
  within := fun _ hc => hc.mem

/-- A group of one member who voted for itself. -/
def soleVote : Vote := ⟨HostFunctions.alice.name, 0, 0, HostFunctions.alice.name⟩

def soleBallot : Ballot := ⟨Table.empty.insert soleVote rfl, .empty, {}, {}⟩

def soleRound : PostRound := ⟨ElectionRng.ofSeed [], 0, ⟨1, 1⟩, 0, 0, 0⟩

theorem votedRound_sole : VotedRound ⟨1, 1⟩ [soleVote] := by
  have hgroup : ∀ g < 1, groupOf ⟨1, 1⟩ [soleVote] g = [soleVote] := by decide
  refine ⟨⟨by decide, by decide, by decide⟩, by decide, rfl, List.nodup_singleton _, ?_⟩
  intro g hg
  rw [hgroup g hg]
  refine ⟨by decide, List.nodup_singleton _, ?_, ?_⟩
  · intro v hv
    rw [List.mem_singleton.mp hv]
    exact HostFunctions.alice.valid
  · intro v hv
    rw [List.mem_singleton.mp hv]
    exact .inr (List.mem_singleton.mpr rfl)

end Eden.GroupWinners
