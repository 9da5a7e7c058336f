import Eden.RoundProgress

/-!
The histogram of ranks. Between elections it counts the active members of each rank that have a
representative; while an election runs, it counts those whose rank in this election is known.
-/

namespace Eden.RankHistogram

open Eden.ExceptReasoning
open Eden.SortedTable
open Eden.ChainPrimitives
open Eden.ElectionPlan
open Eden.ContractState
open Eden.Runtime
open Eden.MemberTable
open Eden.ElectionRounds
open Eden.ElectionPhases
open Eden.ContractActions
open Eden.Transactions
open Eden.HostFunctions
open Eden.ContractSteps
open Eden.ActionSteps
open Eden.Electorate
open Eden.MemberStatistics
open Eden.GroupPartition
open Eden.VotePositions
open Eden.VoteShape
open Eden.RoundProgress

variable {p : Platform} {call : Call} {m m' : Members} {waits waits' : Name → Bool}

/-! ### The vector -/

theorem getD_modify {l : List Nat} {i : Nat} (hi : i < l.length) (f : Nat → Nat) (k : Nat) :
    (l.modify i f).getD k 0 = if k = i then f (l.getD i 0) else l.getD k 0 := by
  simp only [List.getD_eq_getElem?_getD, List.getElem?_modify]
  by_cases hk : k = i
  · subst hk
    simp [List.getElem?_eq_getElem hi]
  · simp [hk, Ne.symm hk]

theorem getD_incrementRank (ranks : List Nat) (rank k : Nat) :
    (incrementRank ranks rank).getD k 0 =
      if k = rank then (ranks.getD rank 0 + 1) % 2 ^ 16 else ranks.getD k 0 := by
  have hextended : ∀ i, (ranks ++ List.replicate (rank + 1 - ranks.length) 0).getD i 0 =
      ranks.getD i 0 := by
    intro i
    rcases lt_or_ge i ranks.length with hlt | hge
    · rw [List.getD_append _ _ _ _ hlt]
    · rw [List.getD_append_right _ _ _ _ hge, List.getD_eq_default _ _ hge,
        List.getD_eq_getElem?_getD, List.getElem?_replicate]
      split
      · rfl
      · rfl
  have hlong : rank < (ranks ++ List.replicate (rank + 1 - ranks.length) 0).length := by
    rw [List.length_append, List.length_replicate]
    omega
  rw [incrementRank, getD_modify hlong, hextended, hextended]

theorem getD_decrementRank {ranks ranks' : List Nat} {rank : Nat}
    (h : decrementRank ranks rank = .ok ranks') (k : Nat) :
    ranks'.getD k 0 =
      if k = rank then (ranks.getD rank 0 + (2 ^ 16 - 1)) % 2 ^ 16 else ranks.getD k 0 := by
  simp only [decrementRank, bind_eq_ok, ensure_eq_ok, exists_const, decide_eq_true_eq,
    pure_eq_ok] at h
  obtain ⟨hlong, rfl⟩ := h
  exact getD_modify hlong _ k

/-! ### Members of a rank -/

/-- An active member of a rank that has a representative. -/
def hasRank (rank : Nat) (row : Member) : Bool :=
  row.status = .activeMember && row.electionRank = rank && row.representative ≠ invalidName

/-- A member of a rank that does not wait for a new one. -/
def counts (waits : Name → Bool) (rank : Nat) (row : Member) : Bool :=
  hasRank rank row && !waits row.account

/-- The histogram counts the members that do not wait for their rank. -/
structure Ranked (m : Members) (waits : Name → Bool) : Prop where
  bound : m.table.count (hasStatus .activeMember) < 2 ^ 16
  ranks : ∀ rank, m.stats.ranks.getD rank 0 = m.table.count (counts waits rank)

theorem count_congr {t : Table Member.account} {q q' : Member → Bool}
    (h : ∀ row ∈ t.rows, q row = q' row) : t.count q = t.count q' :=
  List.countP_congr fun row hrow => by rw [h row hrow]

/-- It matters only for members with a representative whether they wait. -/
theorem Ranked.congr (h : Ranked m waits)
    (hwaits : ∀ row ∈ m.table.rows, ∀ rank, hasRank rank row = true →
      waits' row.account = waits row.account) : Ranked m waits' := by
  refine ⟨h.bound, fun rank => (h.ranks rank).trans (count_congr fun row hrow => ?_)⟩
  unfold counts
  cases hrank : hasRank rank row with
  | false => rfl
  | true => rw [hwaits row hrow rank hrank]

/-- Members that agree on what elections read. -/
theorem Ranked.of_core (h : Ranked m waits) (hstats : m'.stats = m.stats)
    (hrows : m'.table.rows.map core = m.table.rows.map core) : Ranked m' waits := by
  have hcore : ∀ (t : Table Member.account) rank, t.count (counts waits rank) =
      (t.rows.map core).countP (counts waits rank) := by
    intro t rank
    rw [Table.count, List.countP_map]
    rfl
  refine ⟨?_, fun rank => ?_⟩
  · rw [count_core hrows]
    exact h.bound
  · rw [hstats, h.ranks, hcore, hcore, hrows]

/-- A row changes in a way that its rank does not. -/
theorem Ranked.modify (h : Ranked m waits) {account : Name} {row : Member} {f : Member → Member}
    (hrow : m.table.find? account = some row) (hstats : m'.stats.ranks = m.stats.ranks)
    (htable : m'.table = (modifyMember m account f).table)
    (hbound : m'.table.count (hasStatus .activeMember) < 2 ^ 16)
    (hsame : ∀ rank, hasRank rank (reindexed row { f row with account := row.account }) =
      hasRank rank row) : Ranked m' waits := by
  refine ⟨hbound, fun rank => ?_⟩
  rw [hstats, h.ranks, htable, count_modifyMember hrow, Table.count_erase hrow]
  simp only [counts, hsame]
  rfl

theorem count_setRank {account representative : Name} {rank : Nat} {row : Member}
    (hrow : m.table.find? account = some row) (q : Member → Bool) :
    (m.table.modify account (ranked rank representative) fun _ => rfl).count q =
      (m.table.erase account).count q +
        if q (ranked rank representative row) then 1 else 0 :=
  @Table.count_modify _ _ _ _ m.table account (ranked rank representative) (fun _ => rfl) row
    hrow q

theorem mem_setRank {account representative : Name} {rank : Nat} {row : Member}
    (h : setRank m account rank representative = .ok m') (hrow : row ∈ m'.table.rows) :
    (row ∈ m.table.rows ∧ row.account ≠ account) ∨
      ∃ old, m.table.find? account = some old ∧ row = ranked (rank % 2 ^ 8) representative old := by
  obtain ⟨_, _, rfl⟩ := setRank_eq_ok h
  have hmem := @Table.mem_modify _ _ _ _ m.table account
    (ranked (rank % 2 ^ 8) representative) (fun _ => rfl) row
  rcases hmem.mp hrow with hother | ⟨old, hold, hnew⟩
  · exact .inl hother
  · exact .inr ⟨old, hold, hnew.symm⟩

/-- A member that waits gets its rank. -/
theorem Ranked.setRank (h : Ranked m waits) {account representative : Name} {rank : Nat}
    (hrank : setRank m account rank representative = .ok m')
    (hactive : isActive m.table account = true) (hwaits : waits account = true)
    (hlater : ∀ a, waits' a = (waits a && decide (a ≠ account))) : Ranked m' waits' := by
  obtain ⟨row, hrow, hm'⟩ := setRank_eq_ok hrank
  obtain ⟨row', hrow', hstatus⟩ := isActive_iff.mp hactive
  rw [hrow, Option.some.injEq] at hrow'
  subst hrow'
  have hkey : row.account = account := Table.key_of_find? hrow
  have hsame := (sameCounts_setRank hrank).rows .activeMember
  have hbound : m'.table.count (hasStatus .activeMember) < 2 ^ 16 := by
    rw [hsame]
    exact h.bound
  refine ⟨hbound, fun k => ?_⟩
  -- the other rows count as before, and the old row did not count
  have hothers : (m.table.erase account).count (counts waits' k) =
      (m.table.erase account).count (counts waits k) := by
    refine count_congr fun other hother => ?_
    have hne := (Table.mem_erase.mp hother).2
    simp only [counts, hlater, hne, ne_eq, not_false_eq_true, decide_true, Bool.and_true]
  have hold : counts waits k row = false := by
    simp only [counts, hkey, hwaits, Bool.not_true, Bool.and_false]
  have hcount : m'.table.count (counts waits' k) = m.table.count (counts waits k) +
      if counts waits' k (ranked (rank % 2 ^ 8) representative row) then 1 else 0 := by
    have hbefore := Table.count_erase hrow (counts waits k)
    rw [hold] at hbefore
    rw [hm', count_setRank hrow, hothers, hbefore]
    rfl
  have hnew : counts waits' k (ranked (rank % 2 ^ 8) representative row) =
      (decide (rank % 2 ^ 8 = k) && decide (representative ≠ invalidName)) := by
    have hnow : waits' account = false := by
      rw [hlater, decide_eq_false fun hne => hne rfl, Bool.and_false]
    simp only [counts, hasRank, ranked, reindexed, hkey, hnow, hstatus, decide_true,
      Bool.true_and, Bool.not_false, Bool.and_true]
  have hle : m'.table.count (counts waits' k) ≤ m'.table.count (hasStatus .activeMember) := by
    refine List.countP_mono_left fun other _ hother => ?_
    simp only [counts, hasRank, Bool.and_eq_true] at hother
    exact hother.1.1.1
  have hranks : m'.stats.ranks = countRank m.stats.ranks (rank % 2 ^ 8) representative := by
    rw [hm']
  rw [hranks, hcount, hnew]
  rw [hcount, hnew] at hle
  unfold countRank
  by_cases hinvalid : representative = invalidName
  · simp only [hinvalid, if_true, ne_eq, not_true_eq_false, decide_false, Bool.and_false,
      Bool.false_eq_true, if_false, Nat.add_zero]
    exact h.ranks k
  · simp only [hinvalid, if_false, ne_eq, not_false_eq_true, decide_true, Bool.and_true,
      decide_eq_true_eq] at hle ⊢
    rw [getD_incrementRank, h.ranks, h.ranks]
    by_cases hk : k = rank % 2 ^ 8
    · subst hk
      rw [if_pos rfl] at hle ⊢
      rw [if_pos rfl]
      exact Nat.mod_eq_of_lt (by omega)
    · rw [if_neg hk, if_neg (Ne.symm hk), Nat.add_zero]

/-- Members that wait get their rank, each of them once. -/
theorem Ranked.setRanksOf {voters : List Name} {representative : Name} {rank : Nat}
    (hnodup : voters.Nodup) (h : Ranked m waits)
    (hranks : setRanksOf m voters rank representative = .ok m')
    (hactive : ∀ a ∈ voters, isActive m.table a = true) (hwaits : ∀ a ∈ voters, waits a = true)
    (hlater : ∀ a, waits' a = (waits a && decide (a ∉ voters))) : Ranked m' waits' := by
  induction voters generalizing m waits with
  | nil =>
      rw [ElectionRounds.setRanksOf, List.foldlM_nil, pure_eq_ok] at hranks
      subst hranks
      refine h.congr fun row _ _ _ => ?_
      rw [hlater]
      simp
  | cons voter voters ih =>
      rw [ElectionRounds.setRanksOf, List.foldlM_cons, bind_eq_ok] at hranks
      obtain ⟨m₁, hfirst, hrest⟩ := hranks
      obtain ⟨hnew, hnodup⟩ := List.nodup_cons.mp hnodup
      have hnext : Ranked m₁ fun a => waits a && decide (a ≠ voter) :=
        h.setRank hfirst (hactive voter List.mem_cons_self) (hwaits voter List.mem_cons_self)
          fun _ => rfl
      refine ih hnodup hnext hrest ?_ ?_ ?_
      · intro a ha
        rw [isActive_of_status (statusOf_setRank hfirst a)]
        exact hactive a (List.mem_cons_of_mem voter ha)
      · intro a ha
        have hne : a ≠ voter := fun heq => hnew (heq ▸ ha)
        simp only [hwaits a (List.mem_cons_of_mem voter ha), hne, ne_eq, not_false_eq_true,
          decide_true, Bool.and_true]
      · intro a
        rw [hlater]
        by_cases hfirst : a = voter
        · simp [hfirst]
        · simp [hfirst]

/-! ### Groups of a round -/

theorem nodup_rankOrder {group : List Vote} (h : (group.map Vote.member).Nodup) :
    (rankOrder group).Nodup := by
  have hperm := List.filter_append_perm (fun v : Vote => v.candidate ≠ emptyName) group
  have hfilter : group.filter (fun v => v.candidate = emptyName) =
      group.filter fun v => !decide (v.candidate ≠ emptyName) := by
    congr 1
    funext v
    simp
  unfold rankOrder
  rw [hfilter]
  exact ((hperm.map Vote.member).nodup_iff).mpr h

theorem mem_rankOrder {group : List Vote} {a : Name} :
    a ∈ rankOrder group ↔ ∃ v ∈ group, v.member = a := by
  simp only [rankOrder, List.mem_map, List.mem_append, List.mem_filter, decide_eq_true_eq]
  constructor
  · rintro ⟨v, ⟨hv, _⟩ | ⟨hv, _⟩, hmember⟩
    · exact ⟨v, hv, hmember⟩
    · exact ⟨v, hv, hmember⟩
  · rintro ⟨v, hv, hmember⟩
    by_cases hcandidate : v.candidate = emptyName
    · exact ⟨v, .inr ⟨hv, hcandidate⟩, hmember⟩
    · exact ⟨v, .inl ⟨hv, hcandidate⟩, hmember⟩

theorem isSome_find? {votes : VoteTable} {a : Name} :
    (votes.find? a).isSome = true ↔ ∃ v ∈ votes.rows, v.member = a := by
  rw [Option.isSome_iff_exists]
  constructor
  · rintro ⟨v, hv⟩
    exact ⟨v, Table.mem_of_find? hv, Table.key_of_find? hv⟩
  · rintro ⟨v, hv, rfl⟩
    exact ⟨v, Table.find?_of_mem hv⟩

theorem isSome_eraseVotes {votes : VoteTable} {group : List Vote} {a : Name} :
    ((eraseVotes votes group).find? a).isSome = true ↔
      (votes.find? a).isSome = true ∧ ∀ v ∈ group, v.member ≠ a := by
  simp only [isSome_find?, mem_eraseVotes]
  constructor
  · rintro ⟨v, ⟨hv, hother⟩, rfl⟩
    exact ⟨⟨v, hv, rfl⟩, fun u hu heq => hother u hu heq.symm⟩
  · rintro ⟨⟨v, hv, rfl⟩, hother⟩
    exact ⟨v, ⟨hv, fun u hu heq => hother u hu heq.symm⟩, rfl⟩

theorem isSome_addVoter {votes votes' : VoteTable} {rng rng' : ElectionRng} {round next : Nat}
    {member : Name} (h : addVoter p votes rng round next member = .ok (votes', rng')) (a : Name) :
    (votes'.find? a).isSome = true ↔ (votes.find? a).isSome = true ∨ a = member := by
  rcases addVoter_eq_ok h with hemplace | ⟨old, pos, _, hold, _, hemplace⟩
  · rw [Table.find?_emplace? hemplace]
    by_cases ha : member = a
    · simp [ha]
    · simp [ha, Ne.symm ha]
  · rw [Table.find?_emplace? hemplace, Table.find?_replace]
    by_cases ha : member = a
    · simp [ha]
    · rw [if_neg ha]
      simp only [Ne.symm ha, or_false]
      split
      · rw [Option.isSome_map]
      · rfl

/-- What holds at each turn of the loop over the groups. -/
structure Tallying (P : Name → Prop) (rest : List Vote) (b : Ballot) (data : PostRound) : Prop where
  turning : Turning P rest b data
  active : ∀ a, P a → isActive b.members.table a = true
  ranked : Ranked b.members fun a => (b.votes.find? a).isSome

theorem Tallying.next {P : Name → Prop} (hP : ∀ a, P a → isAccountName a = true)
    {rest : List Vote} {b b' : Ballot} {data data' : PostRound} {electionTime k : Nat}
    (h : Tallying P rest b data) (hpos : 0 < k) (hk : k ≤ rest.length)
    (hsize : k = data.prevConfig.groupSizeAt data.nextInputIndex)
    (hgroup : finishGroup p electionTime b data (rest.take k) = .ok (b', data')) :
    Tallying P (rest.drop k) b' data' := by
  have hrest : rest ≠ [] := by
    rintro rfl
    exact absurd (hpos.trans_le hk) (lt_irrefl 0)
  have hrows : ∀ v ∈ rest.take k, v ∈ b.votes.rows :=
    fun v hv => ((h.turning.order.mem v).mp (List.mem_of_mem_take hv)).1
  have hnames : ((rest.take k).map Vote.member).Nodup := by
    have hall : (rest.map Vote.member).Nodup := by
      have hindices : (rest.map Vote.index).Nodup := by
        rw [h.turning.order.indices]
        exact List.nodup_range'
      refine List.Nodup.map_on ?_ hindices.of_map
      intro v hv w hw heq
      exact Table.eq_of_key_eq ((h.turning.order.mem v).mp hv).1
        ((h.turning.order.mem w).mp hw).1 heq
    rw [List.map_take]
    exact hall.sublist (List.take_sublist k _)
  obtain ⟨rng, hranks, hcases⟩ := finishGroup_eq_ok hgroup
  have hactive : ∀ a, P a → isActive b'.members.table a = true := by
    intro a ha
    rw [isActive_of_status (statusOf_setRanksOf hranks a)]
    exact h.active a ha
  refine ⟨h.turning.next hP hpos hk hsize hgroup, hactive, ?_⟩
  refine h.ranked.setRanksOf ((nodup_rankOrder hnames).filter _) hranks ?_ ?_ ?_
  · intro a ha
    obtain ⟨v, hv, rfl⟩ := mem_rankOrder.mp (List.mem_of_mem_filter ha)
    exact h.active _ (h.turning.voters v (hrows v hv)).1
  · intro a ha
    obtain ⟨v, hv, rfl⟩ := mem_rankOrder.mp (List.mem_of_mem_filter ha)
    exact isSome_find?.mpr ⟨v, hrows v hv, rfl⟩
  · intro a
    -- the members of the group leave the table, but for the winner
    rw [Bool.eq_iff_iff, Bool.and_eq_true, decide_eq_true_eq, List.mem_filter, mem_rankOrder,
      decide_eq_true_eq]
    rcases hcases with ⟨hgoes, hadd, _⟩ | ⟨hnot, hvotes, _⟩
    · have hwinner : ∃ w ∈ rest.take k, w.member = groupWinner (rest.take k) := by
        obtain ⟨g, _, hindex, hsizeAt, hgroupPos, _⟩ := h.turning.group hrest
        have horder := h.turning.order
        rw [hindex] at horder
        rw [hsizeAt] at hsize
        subst hsize
        refine winner_mem h.turning.settled.divisible horder h.turning.settled.cast
          (fun v hv => hP _ (h.turning.voters v hv).1) ?_ hgoes
        intro hnil
        have hlength := congrArg List.length hnil
        rw [List.length_take, List.length_nil] at hlength
        omega
      obtain ⟨w, hw, hmember⟩ := hwinner
      rw [isSome_addVoter hadd, isSome_eraseVotes]
      constructor
      · rintro (⟨hsome, hother⟩ | rfl)
        · exact ⟨hsome, fun hranked => by
            obtain ⟨v, hv, hva⟩ := hranked.1
            exact hother v hv hva⟩
        · exact ⟨isSome_find?.mpr ⟨w, hrows w hw, hmember⟩, fun hranked => hranked.2 rfl⟩
      · rintro ⟨hsome, hnot⟩
        by_cases ha : a = groupWinner (rest.take k)
        · exact .inr ha
        · exact .inl ⟨hsome, fun v hv hva => hnot ⟨⟨v, hv, hva⟩, ha⟩⟩
    · rw [hvotes, isSome_eraseVotes]
      refine and_congr_right fun _ => ⟨fun hother hranked => ?_, fun hother v hv hva => ?_⟩
      · obtain ⟨v, hv, hva⟩ := hranked.1
        exact hother v hv hva
      · refine hother ⟨⟨v, hv, hva⟩, ?_⟩
        -- a winner that is a member would go on
        rintro rfl
        have hname := hP _ (h.turning.voters v (hrows v hv)).1
        rw [hva] at hname
        simp only [isAccountName, Bool.and_eq_true, decide_eq_true_eq] at hname
        exact hnot hname.2

/-! ### From step to step -/

/-- Whether a name is behind those that have been visited at the start of an election. -/
def unvisited : Option ElectionState → Name → Bool
  | some (.initVoters data), a => data.lastProcessed < a
  | _, _ => false

/-- Whether a member still waits for its rank: it is a voter, or has not been visited yet. -/
def waiting (current : Option ElectionState) (votes : VoteTable) (a : Name) : Bool :=
  (votes.find? a).isSome || unvisited current a

theorem waiting_initVoters {data : InitVoters} {votes : VoteTable} {a : Name} :
    waiting (some (.initVoters data)) votes a = true ↔
      (votes.find? a).isSome = true ∨ data.lastProcessed < a := by
  rw [waiting, Bool.or_eq_true, unvisited, decide_eq_true_eq]

/-- When all members have been visited, only the voters wait. -/
theorem waiting_of_above_nil {data : InitVoters} {votes : VoteTable} {table : Table Member.account}
    {row : Member} (habove : table.above data.lastProcessed = []) (hrow : row ∈ table.rows) :
    waiting (some (.initVoters data)) votes row.account = (votes.find? row.account).isSome := by
  have hvisited : ¬ data.lastProcessed < row.account := by
    intro hlt
    have hmem : row ∈ table.above data.lastProcessed := Table.mem_above.mpr ⟨hrow, hlt⟩
    rw [habove] at hmem
    exact List.not_mem_nil hmem
  rw [Bool.eq_iff_iff, waiting_initVoters]
  tauto

/-- What is known of the ranks at any time. -/
structure Histogram (s : State) : Prop extends Progressing s where
  ranked : Ranked s.members (waiting s.elections.current s.elections.votes)

theorem bound_of_arranged {s : State} (h : Arranged s) :
    s.members.table.count (hasStatus .activeMember) < 2 ^ 16 := by
  rw [← h.counted.active]
  exact lt_of_le_of_lt h.capped (by decide)

/-- Nobody waits between elections. -/
theorem waiting_idle {s : State} (h : Enrolled s) (hidle : isIdle s.elections.current = true)
    (a : Name) : waiting s.elections.current s.elections.votes a = false := by
  rw [waiting, h.idle hidle]
  unfold unvisited
  split
  · rename_i data _ hcurrent
    rw [hcurrent] at hidle
    cases hidle
  · rfl

/-- A row that has no rank comes or goes. -/
theorem Ranked.emplace {row : Member} (h : Ranked m waits)
    (htable : m.table.emplace? row = some m'.table) (hstats : m'.stats.ranks = m.stats.ranks)
    (hbound : m'.table.count (hasStatus .activeMember) < 2 ^ 16)
    (hnone : ∀ rank, hasRank rank row = false) : Ranked m' waits := by
  refine ⟨hbound, fun rank => ?_⟩
  rw [hstats, h.ranks, Table.count_emplace? htable, counts, hnone]
  rfl

theorem Ranked.erase {row : Member} (h : Ranked m waits)
    (hrow : m.table.find? row.account = some row) (htable : m'.table = m.table.erase row.account)
    (hstats : m'.stats.ranks = m.stats.ranks)
    (hbound : m'.table.count (hasStatus .activeMember) < 2 ^ 16)
    (hnone : ∀ rank, hasRank rank row = false) : Ranked m' waits := by
  refine ⟨hbound, fun rank => ?_⟩
  have herase := Table.count_erase hrow (counts waits rank)
  rw [hstats, h.ranks, htable, herase, counts, hnone]
  rfl

theorem hasRank_pending {row : Member} (h : row.status = .pendingMembership) (rank : Nat) :
    hasRank rank row = false := by
  simp [hasRank, h]

/-- A member that does not wait leaves, and is taken out of the histogram. -/
theorem Ranked.uncount {row : Member} {stats : MemberStats} (h : Ranked m waits)
    (hrow : m.table.find? row.account = some row) (hactive : row.status = .activeMember)
    (hstats : uncount m.stats row = .ok stats) (hwaits : waits row.account = false) :
    Ranked (withoutMember m row.account stats) waits := by
  simp only [MemberTable.uncount, hactive, bind_eq_ok, check_eq_ok, exists_const, pure_eq_ok]
    at hstats
  obtain ⟨_, ranks, hranks, rfl⟩ := hstats
  have hle := Table.count_erase hrow (hasStatus .activeMember)
  have hbound := h.bound
  refine ⟨?_, fun rank => ?_⟩
  · change (m.table.erase row.account).count _ < _
    omega
  · have hcount := Table.count_erase hrow (counts waits rank)
    have hmost : m.table.count (counts waits rank) ≤ m.table.count (hasStatus .activeMember) := by
      refine List.countP_mono_left fun other _ hother => ?_
      simp only [counts, hasRank, Bool.and_eq_true] at hother
      exact hother.1.1.1
    have hself : counts waits rank row =
        (decide (row.electionRank = rank) && decide (row.representative ≠ invalidName)) := by
      simp only [counts, hasRank, hactive, hwaits, decide_true, Bool.true_and, Bool.not_false,
        Bool.and_true]
    rw [hself] at hcount
    change ranks.getD rank 0 = (m.table.erase row.account).count (counts waits rank)
    split at hranks
    · rename_i hinvalid
      rw [Except.ok.injEq] at hranks
      simp only [hinvalid, ne_eq, not_true_eq_false, decide_false, Bool.and_false,
        Bool.false_eq_true, if_false, Nat.add_zero] at hcount
      rw [← hranks, h.ranks, hcount]
    · rename_i hvalid
      simp only [hvalid, ne_eq, not_false_eq_true, decide_true, Bool.and_true,
        decide_eq_true_eq] at hcount
      rw [getD_decrementRank hranks, h.ranks, h.ranks]
      by_cases hrank : rank = row.electionRank
      · subst hrank
        rw [if_pos rfl] at hcount ⊢
        omega
      · rw [if_neg (Ne.symm hrank)] at hcount
        rw [if_neg hrank, hcount, Nat.add_zero]

theorem hasRank_renameRepresentative {account newAccount : Name} (haccount : account ≠ invalidName)
    (hnew : newAccount ≠ invalidName) (limit rank : Nat) (row : Member) :
    hasRank rank (renameRepresentative account newAccount limit row) = hasRank rank row := by
  unfold renameRepresentative
  split
  · rename_i hsame
    simp only [Bool.and_eq_true, decide_eq_true_eq] at hsame
    simp only [hasRank, hsame.1.2, haccount, hnew, ne_eq, not_false_eq_true, decide_true]
  · rfl

/-- A new name changes no rank, as long as nobody waits. -/
theorem Ranked.rename {row : Member} {newAccount : Name} {table : Table Member.account}
    (h : Ranked m waits) (hrow : m.table.find? row.account = some row)
    (htable : m.table.emplace? { row with account := newAccount, inByRep := true } = some table)
    (hnone : ∀ a, waits a = false) (haccount : row.account ≠ invalidName)
    (hnew : newAccount ≠ invalidName) (limit : Nat) :
    Ranked { m with table := renameRows table row.account newAccount limit } waits := by
  have hne : newAccount ≠ row.account := by
    intro heq
    have hnone : m.table.find? newAccount = none := Table.emplace?_new htable
    rw [heq, hrow] at hnone
    cases hnone
  have hold : table.find? row.account = some row := by
    rw [Table.find?_emplace? htable, if_neg hne]
    exact hrow
  refine ⟨?_, fun rank => ?_⟩
  · rw [(sameCounts_renameRows hrow htable limit).rows]
    exact h.bound
  · have hupdate : (renameRows table row.account newAccount limit).count (counts waits rank) =
        (table.erase row.account).count (counts waits rank) := by
      rw [renameRows, Table.count_eq_total, Table.total_update, Table.count_eq_total]
      refine Table.total_congr fun other _ => ?_
      simp only [counts, hasRank_renameRepresentative haccount hnew, hnone]
    have hinsert := Table.count_emplace? htable (counts waits rank)
    have herase := Table.count_erase hold (counts waits rank)
    have hsame : counts waits rank { row with account := newAccount, inByRep := true } =
        counts waits rank row := by
      simp only [counts, hnone]
      rfl
    rw [hsame] at hinsert
    change m.stats.ranks.getD rank 0 = _
    rw [h.ranks, hupdate]
    omega

theorem invalid_not_account {a : Name} (h : isAccountName a = true) : a ≠ invalidName := by
  rintro rfl
  revert h
  decide

/-- The next member is visited: a voter goes on waiting, and the others have no representative. -/
theorem ranked_visitMember {s : State} (hs : Histogram s) {b : Ballot} {data data' : InitVoters}
    {member : Member} {rest : List Member}
    (hcurrent : s.elections.current = some (.initVoters data))
    (habove : s.members.table.above data.lastProcessed = member :: rest)
    (h : visitMember p (ballot s) data member = .ok (b, data')) :
    Ranked b.members (waiting (some (.initVoters data')) b.votes) := by
  obtain ⟨hrow, hlater⟩ := Table.mem_above.mp (habove ▸ List.mem_cons_self)
  have hranked := hs.ranked
  rw [hcurrent] at hranked
  -- the members up to this one have been visited
  have hnext : ∀ row ∈ s.members.table.rows, data.lastProcessed < row.account ↔
      member.account < row.account ∨ row.account = member.account := by
    intro row hother
    constructor
    · intro hlt
      have hmem : row ∈ member :: rest := habove ▸ Table.mem_above.mpr ⟨hother, hlt⟩
      rcases List.mem_cons.mp hmem with rfl | hmem
      · exact .inr rfl
      · have hafter := Table.above_of_above_cons habove
        rw [← hafter] at hmem
        exact .inl (Table.mem_above.mp hmem).2
    · rintro (hlt | heq)
      · exact hlater.trans hlt
      · exact heq ▸ hlater
  unfold visitMember at h
  split at h
  · rename_i hactive
    split at h
    · simp only [bind_eq_ok, pure_eq_ok, Prod.mk.injEq] at h
      obtain ⟨⟨votes, rng⟩, hadd, rfl, rfl⟩ := h
      have hkept : Ranked { s.members with
          rankHistory := s.members.rankHistory ++ [.visit member.account] ++
            [.enrol member.account] }
          (waiting (some (.initVoters data)) s.elections.votes) := Ranked.of_core hranked rfl rfl
      refine hkept.congr fun row hother _ _ => ?_
      rw [Bool.eq_iff_iff, waiting_initVoters, waiting_initVoters, isSome_addVoter hadd,
        hnext row hother]
      tauto
    · simp only [bind_eq_ok, pure_eq_ok, Prod.mk.injEq] at h
      obtain ⟨members, hrank, rfl, rfl⟩ := h
      have hvisited : Ranked { s.members with
          rankHistory := s.members.rankHistory ++ [.visit member.account] }
          (waiting (some (.initVoters data)) s.elections.votes) := Ranked.of_core hranked rfl rfl
      have hself : waiting (some (.initVoters data)) s.elections.votes member.account = true :=
        waiting_initVoters.mpr (.inr hlater)
      refine (hvisited.setRank hrank (isActive_iff_mem.mpr ⟨member, hrow, rfl, hactive⟩) hself
        fun _ => rfl).congr fun row hother rank hrank' => ?_
      rcases mem_setRank hrank hother with ⟨hother, hne⟩ | ⟨old, _, rfl⟩
      · rw [Bool.eq_iff_iff, Bool.and_eq_true, waiting_initVoters, waiting_initVoters,
          hnext row hother, decide_eq_true_eq]
        tauto
      · simp only [hasRank, ranked, reindexed, ne_eq, not_true_eq_false, decide_false,
          Bool.and_false, Bool.false_eq_true] at hrank'
  · rename_i hpending
    simp only [pure_eq_ok, Prod.mk.injEq] at h
    obtain ⟨rfl, rfl⟩ := h
    refine hranked.congr fun row hother rank hrank => ?_
    have hne : row.account ≠ member.account := by
      intro heq
      have hsame := Table.eq_of_key_eq hother hrow heq
      subst hsame
      simp only [hasRank, hpending, decide_false, Bool.false_and, Bool.false_eq_true] at hrank
    rw [Bool.eq_iff_iff, waiting_initVoters, waiting_initVoters, hnext row hother]
    tauto

/-- Groups are finished: who leaves the table for good gets a rank. -/
theorem ranked_finishGroups {s : State} (hs : Histogram s) {electionTime maxSteps remaining : Nat}
    {b : Ballot} {data data' : PostRound}
    (hcurrent : s.elections.current = some (.postRound data))
    (h : finishGroups p electionTime maxSteps (remainingVotes s.elections.votes data) (ballot s)
      data = .ok (remaining, b, data')) :
    Ranked b.members fun a => (b.votes.find? a).isSome := by
  have hranked := hs.ranked
  rw [hcurrent] at hranked
  have hstart : Tallying (fun a => isActive s.members.table a = true)
      (remainingVotes s.elections.votes data) (ballot s) data := by
    refine ⟨hs.turning hcurrent, fun _ ha => ha, hranked.congr fun row _ _ _ => ?_⟩
    exact (Bool.or_false _).symm
  obtain ⟨_, htallying, _⟩ := finishGroups_preserves
    (Tallying fun a => isActive s.members.table a = true)
    (fun _ _ _ _ _ _ hpos hk hsize hgroup ht => ht.next hs.enrolled.named hpos hk hsize hgroup) h
    hstart
  exact htallying.ranked

/-- The board gets its ranks, and nobody waits any more. -/
theorem ranked_rankBoard {s : State} (hs : Histogram s) {winner : Name} {members : Members}
    (hround : InLastRound s)
    (hwinner : winner ∈ (s.elections.votes.index Vote.byIndex).map Vote.member)
    (h : rankBoard s.members ((s.elections.votes.index Vote.byIndex).map Vote.member) winner
      (boardRank s.members) = .ok members) : Ranked members fun _ => false := by
  simp only [rankBoard, bind_eq_ok] at h
  obtain ⟨m, hothers, hlast⟩ := h
  have hmem : ∀ a, a ∈ (s.elections.votes.index Vote.byIndex).map Vote.member ↔
      (s.elections.votes.find? a).isSome = true := by
    intro a
    simp only [List.mem_map, Table.mem_index, isSome_find?]
  have hnodup : ((s.elections.votes.index Vote.byIndex).map Vote.member).Nodup :=
    ((s.elections.votes.index_perm Vote.byIndex).map Vote.member).nodup_iff.mpr
      s.elections.votes.nodup_keys
  have hactive : ∀ a, (s.elections.votes.find? a).isSome = true →
      isActive s.members.table a = true := by
    intro a ha
    obtain ⟨v, hv, rfl⟩ := isSome_find?.mp ha
    exact (hs.enrolled.voters v hv).1
  -- all members have been visited, so only voters wait
  have hranked : Ranked s.members fun a => (s.elections.votes.find? a).isSome := by
    refine hs.ranked.congr fun row hrow _ _ => ?_
    rcases hround with ⟨data, _, hcurrent, habove, _⟩ | ⟨seeder, hcurrent⟩
    · rw [hcurrent, waiting_of_above_nil habove hrow]
    · rw [waiting, hcurrent]
      exact (Bool.or_false _).symm
  have hfirst : Ranked m fun a => decide (a = winner) := by
    refine hranked.setRanksOf (hnodup.filter _) hothers ?_ ?_ ?_
    · exact fun a ha => hactive a ((hmem a).mp (List.mem_of_mem_filter ha))
    · exact fun a ha => (hmem a).mp (List.mem_of_mem_filter ha)
    · intro a
      rw [Bool.eq_iff_iff, Bool.and_eq_true, decide_eq_true_eq, decide_eq_true_eq, List.mem_filter,
        hmem, decide_eq_true_eq]
      constructor
      · rintro rfl
        exact ⟨(hmem a).mp hwinner, fun hother => hother.2 rfl⟩
      · rintro ⟨hsome, hother⟩
        by_contra hne
        exact hother ⟨hsome, hne⟩
  refine hfirst.setRank hlast ?_ (decide_eq_true rfl) ?_
  · rw [isActive_of_status (statusOf_setRanksOf hothers winner)]
    exact hactive winner ((hmem winner).mp hwinner)
  · intro a
    simp only [ne_eq, decide_not, Bool.and_not_self]

/-- Calls that neither break an election off nor change the histogram by hand. -/
def unforced : Call → Bool
  | .action (.changerank ..) => false
  | .action (.clearrank ..) => false
  | call => uninterrupted call

theorem uninterrupted_of_unforced (h : unforced call = true) : uninterrupted call = true := by
  unfold unforced at h
  split at h
  · cases h
  · cases h
  · exact h

theorem step_histogram {s s' : State} (h : Step p call s s') (hcall : unforced call = true)
    (hs : Histogram s) : Histogram s' := by
  have hnext := step_progressing h (uninterrupted_of_unforced hcall) hs.toProgressing
  have hbound := bound_of_arranged hnext.toArranged
  refine ⟨hnext, ?_⟩
  cases h with
  | aside haside =>
      rw [haside.current, haside.votes]
      exact hs.ranked.of_core haside.stats haside.rows
  | enters _ hcreate =>
      simp only [create, bind_eq_ok, check_eq_ok, exists_const, expect_eq_ok, pure_eq_ok]
        at hcreate
      obtain ⟨_, table, htable, rfl⟩ := hcreate
      exact hs.ranked.emplace htable rfl hbound (hasRank_pending rfl)
  | activates _ _ hactive =>
      simp only [setActive, bind_eq_ok, check_eq_ok, exists_const, checkPendingMember_eq_ok,
        decide_eq_true_eq, pure_eq_ok] at hactive
      obtain ⟨_, _, ⟨row, hrow, hpending⟩, rfl⟩ := hactive
      refine hs.ranked.modify hrow rfl rfl hbound fun rank => ?_
      rw [hasRank_pending hpending]
      simp only [hasRank, reindexed, ne_eq, not_true_eq_false, decide_false, Bool.and_false]
  | drops _ hmember hpending _ =>
      exact hs.ranked.erase hmember rfl rfl hbound (hasRank_pending hpending)
  | opts hopt =>
      simp only [electionOpt, bind_eq_ok, check_eq_ok, exists_const, pure_eq_ok, getMember_eq_ok]
        at hopt
      obtain ⟨row, hrow, _, _, _, _, rfl⟩ := hopt
      exact hs.ranked.modify hrow rfl rfl hbound fun _ => rfl
  | resigns hrunning hmember hactive _ hstats =>
      have hidle := isIdle_of_not_running hrunning
      exact hs.ranked.uncount hmember hactive hstats (waiting_idle hs.enrolled hidle _)
  | renames hrunning hnew hmember hactive _ _ _ htable =>
      have hidle := isIdle_of_not_running hrunning
      have hname := hs.enrolled.named _ (isActive_iff.mpr ⟨_, hmember, hactive⟩)
      exact hs.ranked.rename hmember htable (waiting_idle hs.enrolled hidle)
        (invalid_not_account hname) (invalid_not_account hnew) _
  | schedules _ _ hreschedules =>
      have hidle : isIdle s.elections.current = true := by
        rcases hreschedules with ⟨hnone, _⟩ | ⟨_, _, _, hregistration, _⟩
        · rw [hnone]
          rfl
        · rw [hregistration]
          rfl
      refine hs.ranked.congr fun row _ _ _ => ?_
      rw [waiting_idle hs.enrolled hidle, waiting_idle hnext.enrolled rfl]
  | unschedules _ _ hg hunset => exact absurd hunset (hs.enrolled.started _ hg)
  | aborts => exact absurd hcall (by simp [unforced, uninterrupted])
  | clears => exact absurd hcall (by simp [unforced, uninterrupted])
  | «extends» => exact absurd hcall (by simp [unforced])
  | empties => exact absurd hcall (by simp [unforced])
  | seeds hseed =>
      have hranked := hs.ranked
      rcases seed_eq_ok hseed with ⟨_, _, _, _, _, hcurrent, _, _, _, rfl⟩ |
        ⟨_, _, _, _, hcurrent, _, _, rfl⟩ | ⟨_, _, _, hcurrent, _, _, rfl⟩
      · rw [hcurrent] at hranked
        exact hranked
      · rw [hcurrent] at hranked
        exact hranked
      · rw [hcurrent] at hranked
        exact hranked
  | starts hcurrent hstart _ =>
      obtain ⟨_, rfl, _, _, _, _, _, rfl⟩ := startElection_eq_ok hstart
      refine ⟨hbound, fun rank => ?_⟩
      change ([] : List Nat).getD rank 0 = s.members.table.count _
      symm
      rw [List.getD_nil, Table.count, List.countP_eq_zero]
      intro row hrow hcounts
      simp only [counts, hasRank, Bool.and_eq_true, decide_eq_true_eq, Bool.not_eq_true'] at hcounts
      have hname := hs.enrolled.named _ (isActive_iff_mem.mpr ⟨row, hrow, rfl, hcounts.1.1.1⟩)
      have hunvisited := hcounts.2
      rw [← Bool.not_eq_true, waiting_initVoters] at hunvisited
      refine hunvisited (.inr (Nat.pos_of_ne_zero ?_))
      intro hzero
      rw [hzero] at hname
      exact absurd hname (by decide)
  | visits hcurrent habove hvisit => exact ranked_visitMember hs hcurrent habove hvisit
  | reports hcurrent _ =>
      have hranked := hs.ranked
      rw [hcurrent] at hranked
      exact hranked
  | opens hcurrent habove _ _ _ _ _ =>
      have hranked := hs.ranked
      rw [hcurrent] at hranked
      refine hranked.congr fun row hrow _ _ => ?_
      rw [waiting_of_above_nil habove hrow]
      exact Bool.or_false _
  | votes hvote =>
      obtain ⟨round, own, _, hcurrent, _, _, hown, _, _, _, _, rfl⟩ := vote_eq_ok hvote
      refine hs.ranked.congr fun row _ _ _ => ?_
      change waiting _ (s.elections.votes.replace _) _ = _
      rw [waiting, waiting, Table.find?_replace]
      split
      · rw [Option.isSome_map]
      · rfl
  | closes hcurrent _ _ =>
      have hranked := hs.ranked
      rw [hcurrent] at hranked
      exact hranked
  | groups hcurrent hgroups =>
      refine (ranked_finishGroups hs hcurrent hgroups).congr fun row _ _ _ => ?_
      exact Bool.or_false _
  | rereports hcurrent _ =>
      have hranked := hs.ranked
      rw [hcurrent] at hranked
      exact hranked
  | advances hcurrent hgroups _ _ _ hcases _ =>
      refine (ranked_finishGroups hs hcurrent hgroups).congr fun row _ _ _ => ?_
      rcases hcases with ⟨_, _, _, rfl⟩ | ⟨_, _, rfl⟩
      · exact Bool.or_false _
      · exact Bool.or_false _
  | concludes _ _ hround hboard _ hwinner hranks _ _ =>
      subst hboard
      refine (ranked_rankBoard hs hround hwinner hranks).congr fun row _ _ _ => ?_
      exact waiting_idle hnext.enrolled rfl _
  | migrates _ _ _ hrows _ => exact hs.ranked.of_core rfl hrows
  | _ => exact hs.ranked

theorem untouched_histogram {s : State} (h : Untouched s) : Histogram s := by
  refine ⟨⟨untouched_arranged h, ?_⟩, ?_⟩
  · rw [h.1]
    exact trivial
  · rw [h.1]
    exact ⟨Nat.two_pow_pos 16, fun _ => rfl⟩

theorem Histogram.at_time {s : State} (h : Histogram s) (now : Nat) :
    Histogram { s with now := now } :=
  ⟨⟨h.toArranged.at_time now, h.ready⟩, h.ranked⟩

theorem reachable_histogram {s : State}
    (h : Reachable p (fun _ call => unforced call = true) s) : Histogram s :=
  reachable_of_steps Histogram h (fun _ hs => untouched_histogram hs)
    (fun _ now _ _ hs => hs.at_time now)
    fun _ _ _ hcall hstep hs => step_histogram hstep hcall hs

/-- The statistics are exact in every run: the numbers of pending and active members, and for each
rank the number of active members with a representative, in an election only of those who are
neither voters nor still to be visited. -/
theorem statistics_exact (p : Platform) (s : State)
    (h : Reachable p (fun _ call => unforced call = true) s) :
    s.members.stats.pendingMembers = s.members.table.count (hasStatus .pendingMembership) ∧
    s.members.stats.activeMembers = s.members.table.count (hasStatus .activeMember) ∧
    (∀ rank, s.members.stats.ranks.getD rank 0 = s.members.table.count fun row =>
      hasRank rank row && !waiting s.elections.current s.elections.votes row.account) ∧
    (isIdle s.elections.current = true → ∀ rank,
      s.members.stats.ranks.getD rank 0 = s.members.table.count (hasRank rank)) := by
  have hs := reachable_histogram h
  refine ⟨hs.counted.pending, hs.counted.active, hs.ranked.ranks, fun hidle rank => ?_⟩
  rw [hs.ranked.ranks]
  refine count_congr fun row _ => ?_
  rw [counts, waiting_idle hs.enrolled hidle, Bool.not_false, Bool.and_true]

/-- Three members of the first group have a rank, and nine members wait. -/
theorem firstGroup_ranked :
    ∃ s, runFromGenesis host (fun _ call => unforced call = true) firstGroup = some s ∧
      s.members.stats.ranks = [3] ∧ s.elections.votes.rows.length = 9 ∧
      ∀ rank, s.members.stats.ranks.getD rank 0 = s.members.table.count fun row =>
        hasRank rank row && !waiting s.elections.current s.elections.votes row.account := by
  have hrun : (runFromGenesis host (fun _ call => unforced call = true) firstGroup).any
      (fun s => s.members.stats.ranks = [3] && s.elections.votes.rows.length = 9) = true := by
    decide +kernel
  obtain ⟨s, hs, hstate⟩ := (Option.any_eq_true _ _).mp hrun
  rw [Bool.and_eq_true, decide_eq_true_eq, decide_eq_true_eq] at hstate
  exact ⟨s, hs, hstate.1, hstate.2, (statistics_exact host s (reachable_of_run hs)).2.2.1⟩

end Eden.RankHistogram
