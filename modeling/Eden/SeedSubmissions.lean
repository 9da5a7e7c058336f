import Eden.BylawsHistory
import Eden.ElectionSchedule
import Mathlib.Data.List.MinMax

/-!
The seed of an election: who submits block headers to it and when it is used. The order in which
headers come does not matter, and only a better header of the window changes it.
-/

namespace Eden.SeedSubmissions

open Eden.ExceptReasoning
open Eden.SortedTable
open Eden.TransactionRuns
open Eden.ChainPrimitives
open Eden.ElectionPlan
open Eden.ContractState
open Eden.Runtime
open Eden.MemberTable
open Eden.ElectionRounds
open Eden.ElectionPhases
open Eden.ContractActions
open Eden.Transactions
open Eden.HostFunctions
open Eden.ContractSteps
open Eden.ActionSteps
open Eden.Electorate
open Eden.ElectionSchedule
open Eden.BylawsHistory

variable {p : Platform} {call : Call} {env : Env}

/-! ### The least hash -/

theorem bigEndian_append (b : Bytes) (byte : UInt8) :
    bigEndian (b ++ [byte]) = bigEndian b * 256 + byte.toNat := by
  simp [bigEndian]

theorem bigEndian_injective {b c : Bytes} (hlength : b.length = c.length)
    (h : bigEndian b = bigEndian c) : b = c := by
  induction b using List.reverseRecOn generalizing c with
  | nil => exact (List.eq_nil_of_length_eq_zero hlength.symm).symm
  | append_singleton b x ih =>
      rcases List.eq_nil_or_concat c with rfl | ⟨c, y, rfl⟩
      · simp at hlength
      · rw [List.concat_eq_append] at h hlength ⊢
        rw [bigEndian_append, bigEndian_append] at h
        have hx := x.toNat_lt
        have hy := y.toNat_lt
        have hbyte : x = y := UInt8.toNat_inj.mp (by omega)
        have hrest : b = c := ih (by simpa using hlength) (by omega)
        rw [hbyte, hrest]

/-- The first of two hashes unless the second one is lower. -/
def lowerHash (best hash : Checksum) : Checksum :=
  if bigEndian hash < bigEndian best then hash else best

theorem foldl_lowerHash (best : Checksum) (hashes : List Checksum) :
    (best :: hashes).argmin bigEndian = some (hashes.foldl lowerHash best) := by
  have hfold : ∀ hashes best, List.foldl (List.argAux fun b c => bigEndian b < bigEndian c)
      (some best) hashes = some (hashes.foldl lowerHash best) := by
    intro hashes
    induction hashes with
    | nil => exact fun _ => rfl
    | cons hash hashes ih =>
        intro best
        have hstep : List.argAux (fun b c => bigEndian b < bigEndian c) (some best) hash =
            some (lowerHash best hash) := by
          simp only [List.argAux, lowerHash]
          split <;> rfl
        rw [List.foldl_cons, List.foldl_cons, hstep, ih]
  exact hfold hashes best

theorem foldl_lowerHash_lt (best : Checksum) (hashes : List Checksum) :
    hashes.foldl lowerHash best = best ∨
      (hashes.foldl lowerHash best ∈ hashes ∧
        bigEndian (hashes.foldl lowerHash best) < bigEndian best) := by
  induction hashes generalizing best with
  | nil => exact .inl rfl
  | cons hash hashes ih =>
      rw [List.foldl_cons, lowerHash]
      split
      · rename_i hlt
        rcases ih hash with heq | ⟨hmem, hlower⟩
        · rw [heq]
          exact .inr ⟨List.mem_cons_self, hlt⟩
        · exact .inr ⟨List.mem_cons_of_mem _ hmem, hlower.trans hlt⟩
      · rcases ih best with heq | ⟨hmem, hlower⟩
        · exact .inl heq
        · exact .inr ⟨List.mem_cons_of_mem _ hmem, hlower⟩

theorem foldl_lowerHash_le (best : Checksum) (hashes : List Checksum) {hash : Checksum}
    (h : hash ∈ best :: hashes) : bigEndian (hashes.foldl lowerHash best) ≤ bigEndian hash :=
  List.le_of_mem_argmin h (foldl_lowerHash best hashes)

/-- Hashes of one length have one least element, in whatever order they come. -/
theorem foldl_lowerHash_perm {best : Checksum} {l l' : List Checksum} (h : l.Perm l') {n : Nat}
    (hlength : ∀ hash ∈ l, hash.length = n) :
    l.foldl lowerHash best = l'.foldl lowerHash best := by
  have hmem : ∀ {hash}, hash ∈ best :: l ↔ hash ∈ best :: l' := (h.cons best).mem_iff
  have hleast := List.argmin_mem (f := bigEndian) (foldl_lowerHash best l)
  have hleast' := List.argmin_mem (f := bigEndian) (foldl_lowerHash best l')
  have hkey := le_antisymm (foldl_lowerHash_le best l (hmem.mpr hleast'))
    (foldl_lowerHash_le best l' (hmem.mp hleast))
  rcases foldl_lowerHash_lt best l with heq | ⟨hl, hlower⟩
  · rcases foldl_lowerHash_lt best l' with heq' | ⟨_, hlower'⟩
    · rw [heq, heq']
    · rw [heq] at hkey
      omega
  · rcases foldl_lowerHash_lt best l' with heq' | ⟨hl', _⟩
    · rw [heq'] at hkey
      omega
    · have hl'' := h.mem_iff.mpr hl'
      exact bigEndian_injective ((hlength _ hl).trans (hlength _ hl'').symm) hkey

/-! ### Headers -/

/-- The time stamp of a header lies in the window of the seeder. -/
def inWindow (seeder : ElectionSeeder) (header : Bytes) : Bool :=
  secOfTimePoint (toTimePoint seeder.startTime) ≤ ElectionSeeder.blockTime header &&
    ElectionSeeder.blockTime header < secOfTimePoint (toTimePoint seeder.endTime)

theorem update_eq_ok {sha256 : Bytes → Checksum} {seeder seeder' : ElectionSeeder}
    {header : Bytes} : seeder.update sha256 header = .ok seeder' ↔
      80 ≤ header.length ∧
        bigEndian (ElectionSeeder.blockHash sha256 header) < bigEndian seeder.current ∧
        inWindow seeder header = true ∧
        seeder' = { seeder with current := ElectionSeeder.blockHash sha256 header } := by
  simp only [ElectionSeeder.update, bind_eq_ok, check_eq_ok, exists_const, decide_eq_true_eq,
    pure_eq_ok, inWindow, Bool.and_eq_true]
  constructor
  · rintro ⟨hlength, hlower, hearly, hlate, rfl⟩
    exact ⟨hlength, hlower, ⟨hearly, hlate⟩, rfl⟩
  · rintro ⟨hlength, hlower, ⟨hearly, hlate⟩, rfl⟩
    exact ⟨hlength, hlower, hearly, hlate, rfl⟩

/-- The seeder of an election that is being seeded, at its start or before the last draw. -/
def seederOf : ElectionState → Option ElectionSeeder
  | .seeding seeder _ => some seeder
  | .final seeder => some seeder
  | _ => none

/-- The state with another seeder. -/
def withSeeder (state : ElectionState) (seeder : ElectionSeeder) : ElectionState :=
  match state with
  | .seeding _ version => .seeding seeder version
  | .final _ => .final seeder
  | state => state

theorem seederOf_withSeeder {state : ElectionState} {seeder : ElectionSeeder}
    (h : seederOf state = some seeder) (seeder' : ElectionSeeder) :
    seederOf (withSeeder state seeder') = some seeder' := by
  cases state with
  | seeding | final => rfl
  | _ => exact absurd h (by simp [seederOf])

theorem withSeeder_self {state : ElectionState} {seeder : ElectionSeeder}
    (h : seederOf state = some seeder) : withSeeder state seeder = state := by
  cases state with
  | seeding | final =>
      simp only [seederOf, Option.some.injEq] at h
      rw [withSeeder, h]
  | _ => exact absurd h (by simp [seederOf])

theorem seed_update {s s' : State} {header : Bytes} {state : ElectionState}
    {seeder : ElectionSeeder} (h : seed p s header = .ok s') (hcurrent : s.elections.current = some state)
    (hstate : seederOf state = some seeder) :
    header.length = 80 ∧ ∃ seeder', seeder.update p.sha256 header = .ok seeder' ∧
      s'.elections.current = some (withSeeder state seeder') := by
  simp only [seed, bind_eq_ok, check_eq_ok, exists_const, decide_eq_true_eq, getSingleton_eq_ok,
    hcurrent, Option.some.injEq, exists_eq_left'] at h
  obtain ⟨hlength, h⟩ := h
  refine ⟨hlength, ?_⟩
  cases state with
  | seeding seeder₁ version =>
      simp only [seederOf, Option.some.injEq] at hstate
      subst hstate
      simp only [bind_eq_ok] at h
      obtain ⟨seeder', hseeder, h⟩ := h
      obtain ⟨o, _, rfl⟩ := setStateSing_eq_ok h
      exact ⟨seeder', hseeder, rfl⟩
  | final seeder₁ =>
      simp only [seederOf, Option.some.injEq] at hstate
      subst hstate
      simp only [bind_eq_ok] at h
      obtain ⟨seeder', hseeder, h⟩ := h
      obtain ⟨o, _, rfl⟩ := setStateSing_eq_ok h
      exact ⟨seeder', hseeder, rfl⟩
  | _ => exact absurd hstate (by simp [seederOf])

/-! ### What becomes of a seed -/

/-- What a call does to a seed: it keeps it, lowers it, uses it or breaks the election off. -/
inductive Fate (p : Platform) (e : Record) (state : ElectionState) (seeder : ElectionSeeder) : Prop
  | kept : e.after.elections.current = some state → Fate p e state seeder
  | lowered {header : Bytes} : e.input.2 = .action (.electseed header) → header.length = 80 →
      inWindow seeder header = true →
      bigEndian (ElectionSeeder.blockHash p.sha256 header) < bigEndian seeder.current →
      e.after.elections.current = some (withSeeder state
        { seeder with current := ElectionSeeder.blockHash p.sha256 header }) →
      Fate p e state seeder
  | used {n : Nat} : e.input.2 = .action (.electprocess n) → seeder.endTime ≤ e.before.now →
      (∀ seeder', e.after.elections.current ≠ some (withSeeder state seeder')) →
      Fate p e state seeder
  | brokenOff : uninterrupted e.input.2 = false → Fate p e state seeder

/-- Calls that have nothing to do with a seed. -/
def leavesSeed : Call → Bool
  | .action (.electseed _) => false
  | .action (.electprocess _) => false
  | call => uninterrupted call

theorem step_seed {s s' : State} (h : Step p call s s') (hcall : leavesSeed call = true)
    (hs : Named s) {state : ElectionState} {seeder : ElectionSeeder}
    (hcurrent : s.elections.current = some state) (hstate : seederOf state = some seeder) :
    s'.elections.current = some state := by
  have hother : ∀ {state'}, s.elections.current = some state' → seederOf state' ≠ none := by
    intro state' hcurrent'
    rw [hcurrent, Option.some.injEq] at hcurrent'
    rw [← hcurrent', hstate]
    simp
  cases h with
  | aside haside => rw [haside.current, hcurrent]
  | schedules _ _ hreschedules =>
      rcases hreschedules with ⟨hnone, _⟩ | ⟨_, _, _, hregistered, _⟩
      · exact absurd hnone (by simp [hcurrent])
      · exact absurd rfl (hother hregistered)
  | unschedules _ _ hg hunset => exact absurd hunset (hs.started _ hg)
  | votes hvote =>
      obtain ⟨_, _, _, _, _, _, _, _, _, _, _, rfl⟩ := vote_eq_ok hvote
      exact hcurrent
  | aborts => exact absurd hcall (by simp [leavesSeed, uninterrupted])
  | clears => exact absurd hcall (by simp [leavesSeed, uninterrupted])
  | seeds => exact absurd hcall (by simp [leavesSeed])
  | starts => exact absurd hcall (by simp [leavesSeed])
  | visits => exact absurd hcall (by simp [leavesSeed])
  | reports => exact absurd hcall (by simp [leavesSeed])
  | opens => exact absurd hcall (by simp [leavesSeed])
  | closes => exact absurd hcall (by simp [leavesSeed])
  | groups => exact absurd hcall (by simp [leavesSeed])
  | rereports => exact absurd hcall (by simp [leavesSeed])
  | advances => exact absurd hcall (by simp [leavesSeed])
  | concludes => exact absurd hcall (by simp [leavesSeed])
  | _ => exact hcurrent

theorem steps_seed {s s' : State} (h : Steps p call s s') (hcall : leavesSeed call = true)
    (hs : Named s) {state : ElectionState} {seeder : ElectionSeeder}
    (hcurrent : s.elections.current = some state) (hstate : seederOf state = some seeder) :
    s'.elections.current = some state :=
  (steps_preserve (fun t => Named t ∧ t.elections.current = some state)
    (fun _ _ hstep ht => ⟨step_named hstep ht.1, step_seed hstep hcall ht.1 ht.2 hstate⟩) h
    ⟨hs, hcurrent⟩).2

/-- The state is not one of seeding. -/
def Seeded (state : Option ElectionState) : Prop :=
  ∀ seeder version, state ≠ some (.seeding seeder version)

theorem step_seeded {n : Nat} {s s' : State} (h : Step p (.action (.electprocess n)) s s') :
    s'.elections.current = s.elections.current ∨
      (∀ seeder version, s.elections.current = some (.seeding seeder version) →
        seeder.endTime ≤ s.now) ∧ Seeded s'.elections.current := by
  have hvoting : ∀ {state state' : ElectionState}, s.elections.current = some state →
      (∀ seeder version, state ≠ .seeding seeder version) →
      (∀ seeder version, state' ≠ .seeding seeder version) →
      (∀ seeder version, s.elections.current = some (.seeding seeder version) →
        seeder.endTime ≤ s.now) ∧ Seeded (some state') := by
    intro state state' hcurrent hstate hstate'
    refine ⟨fun seeder version hseeding => ?_, fun seeder version heq => ?_⟩
    · rw [hcurrent, Option.some.injEq] at hseeding
      exact absurd hseeding (hstate seeder version)
    · rw [Option.some.injEq] at heq
      exact hstate' seeder version heq
  cases h with
  | aside haside => exact .inl haside.current
  | starts hcurrent hstart _ =>
      obtain ⟨hend, rfl, _, _, _, _, _, rfl⟩ := startElection_eq_ok hstart
      refine .inr ⟨fun seeder version hseeding => ?_, by simp [Seeded]⟩
      rw [hcurrent, Option.some.injEq, ElectionState.seeding.injEq] at hseeding
      rw [← hseeding.1]
      exact hend
  | visits hcurrent | reports hcurrent | opens hcurrent | closes hcurrent | groups hcurrent
  | rereports hcurrent => exact .inr (hvoting hcurrent (by simp) (by simp))
  | advances hcurrent _ _ _ _ hnext _ =>
      rcases hnext with ⟨_, _, _, rfl⟩ | ⟨_, _, rfl⟩
      · exact .inr (hvoting hcurrent (by simp) (by simp))
      · exact .inr (hvoting hcurrent (by simp) (by simp))
  | concludes _ _ hlast =>
      rcases hlast with ⟨_, _, hcurrent, _⟩ | ⟨_, hcurrent⟩
      · exact .inr (hvoting hcurrent (by simp) (by simp))
      · exact .inr (hvoting hcurrent (by simp) (by simp))
  | schedules hcall => exact absurd hcall (by simp [reschedules])
  | unschedules hcall => exact absurd hcall (by simp [reschedules])
  | donates hdonation =>
      rcases hdonation with ⟨heq, _⟩ | ⟨_, _, heq, _⟩
      · exact absurd heq (by simp)
      · exact absurd heq (by simp)
  | _ => exact .inl rfl

theorem electprocess_seeding {n : Nat} {s s' : State}
    (h : Steps p (.action (.electprocess n)) s s') {seeder : ElectionSeeder} {version : Nat}
    (hcurrent : s.elections.current = some (.seeding seeder version)) :
    s'.elections.current = s.elections.current ∨
      (seeder.endTime ≤ s.now ∧ Seeded s'.elections.current) := by
  refine (steps_preserve (fun t => t.now = s.now ∧ (t.elections.current = s.elections.current ∨
    (seeder.endTime ≤ s.now ∧ Seeded t.elections.current))) ?_ h ⟨rfl, .inl rfl⟩).2
  rintro t t' hstep ⟨hnow, ht⟩
  refine ⟨(step_now hstep).trans hnow, ?_⟩
  rcases step_seeded hstep with heq | ⟨hend, hseeded⟩
  · rwa [heq]
  · refine .inr ⟨?_, hseeded⟩
    rcases ht with ht | ht
    · rw [← hnow]
      exact hend seeder version (ht.trans hcurrent)
    · exact ht.1

theorem electprocess_final {n : Nat} {s s' : State} (h : electprocess p s n = .ok s')
    {seeder : ElectionSeeder} (hcurrent : s.elections.current = some (.final seeder)) :
    s'.elections.current = s.elections.current ∨
      (seeder.endTime ≤ s.now ∧ ∃ startTime threshold version,
        s'.elections.current = some (.registration startTime threshold version)) := by
  simp only [electprocess, prepareElection, finishRound, finishFinal, bind_eq_ok, getSingleton_eq_ok,
    hcurrent, Option.some.injEq, exists_eq_left', pure_eq_ok] at h
  obtain ⟨_, _, ⟨t, remaining⟩, ⟨results, _, h⟩, _, _, rfl⟩ := h
  split at h
  · rename_i hend
    simp only [bind_eq_ok, pure_eq_ok, Prod.mk.injEq] at h
    obtain ⟨u, ⟨⟨v, board⟩, _, winner, _, hfinish⟩, rfl, _⟩ := h
    obtain ⟨_, _, _, _, _, _, _, _, _, _, _, rfl⟩ := finishElection_eq_ok hfinish
    exact .inr ⟨hend.2, _, _, _, rfl⟩
  · rw [pure_eq_ok, Prod.mk.injEq] at h
    rw [← h.1]
    exact .inl rfl

theorem exec_seed {s s' : State} (hsteps : Steps p call s s') (h : exec p env s call = .ok s')
    (hs : Named s) {state : ElectionState} {seeder : ElectionSeeder}
    (hcurrent : s.elections.current = some state) (hstate : seederOf state = some seeder) :
    Fate p ⟨s, (env, call), s'⟩ state seeder := by
  by_cases huninterrupted : uninterrupted call = true
  swap
  · exact .brokenOff (by simpa using huninterrupted)
  by_cases hcall : leavesSeed call = true
  · exact .kept (steps_seed hsteps hcall hs hcurrent hstate)
  cases call with
  | action a =>
      simp only [exec, applyAction, bind_eq_ok, pure_eq_ok] at h
      obtain ⟨t, ht, heq⟩ := h
      have hafter : t.elections.current = s'.elections.current := by rw [← heq]
      cases a with
      | electseed header =>
          simp only [dispatch, bind_eq_ok] at ht
          obtain ⟨_, _, ht⟩ := ht
          obtain ⟨hlength, seeder', hupdate, hcurrent'⟩ := seed_update ht hcurrent hstate
          obtain ⟨_, hlower, hwindow, rfl⟩ := update_eq_ok.mp hupdate
          exact .lowered rfl hlength hwindow hlower (hafter.symm.trans hcurrent')
      | electprocess n =>
          cases state with
          | seeding seeder₁ version =>
              simp only [seederOf, Option.some.injEq] at hstate
              subst hstate
              rcases electprocess_seeding hsteps hcurrent with hsame | ⟨hend, hseeded⟩
              · exact .kept (hsame.trans hcurrent)
              · exact .used rfl hend fun seeder' => hseeded seeder' version
          | final seeder₁ =>
              simp only [seederOf, Option.some.injEq] at hstate
              subst hstate
              have hcases := electprocess_final ht hcurrent
              rcases hcases with hsame | ⟨hend, _, _, _, hregistered⟩
              · exact .kept (hafter.symm.trans (hsame.trans hcurrent))
              · refine .used rfl hend fun seeder' => ?_
                rw [← hafter, hregistered]
                simp [withSeeder]
          | _ => exact absurd hstate (by simp [seederOf])
      | _ => exact absurd huninterrupted hcall
  | _ => exact absurd huninterrupted hcall

/-- In every run a seed only changes by a header of its window with a lower hash, also when the
window is over, until `start_election` or `finish_round` uses it or the election is broken off. -/
theorem seed_fate {es : List Record} {s : State} (h : History p (fun _ _ => True) es s) :
    ∀ es₁ e es₂, es = es₁ ++ e :: es₂ → ∀ state seeder, e.before.elections.current = some state →
      seederOf state = some seeder → Fate p e state seeder := by
  refine history_entries (fun _ s => Named s) (fun _ e => ∀ state seeder,
    e.before.elections.current = some state → seederOf state = some seeder →
    Fate p e state seeder) h ?_ ?_ ?_
  · exact fun s hs => untouched_named hs
  · exact fun _ s now _ _ hs => hs.of_members rfl rfl fun _ ha => ha
  · intro es env call s s' _ hexec hsteps hs
    refine ⟨steps_preserve Named (fun _ _ => step_named) hsteps hs, ?_⟩
    exact fun state seeder hcurrent hstate => exec_seed hsteps hexec hs hcurrent hstate

theorem first_seed_fate :
    ∃ es e s seeder version, traceFromGenesis host (fun _ _ => True) firstElection =
        some (es ++ [e], s) ∧ e.before.elections.current = some (.seeding seeder version) ∧
      Fate host e (.seeding seeder version) seeder := by
  have hrun : (traceFromGenesis host (fun _ _ => True) firstElection).any (fun result =>
      result.1.getLast?.any fun e => (e.before.elections.current.bind seederOf).isSome &&
        phase e.before.elections.current = .seeding) = true := by decide +kernel
  obtain ⟨⟨es, s⟩, htrace, hstate⟩ := (Option.any_eq_true _ _).mp hrun
  obtain ⟨e, hlast, hseeding⟩ := (Option.any_eq_true _ _).mp hstate
  obtain ⟨es₁, rfl⟩ := List.getLast?_eq_some_iff.mp hlast
  simp only [Bool.and_eq_true, decide_eq_true_eq] at hseeding
  rcases hcurrent : e.before.elections.current with _ | state
  · exact absurd hseeding.2 (by simp [hcurrent, phase])
  · cases state with
    | seeding seeder version =>
        exact ⟨es₁, e, s, seeder, version, htrace, hcurrent,
          seed_fate (history_of_trace htrace) es₁ e [] rfl _ _ hcurrent rfl⟩
    | _ => exact absurd hseeding.2 (by simp [hcurrent, phase])

/-- The call lowers a seed whose window is over. -/
def lowersLate (e : Record) : Bool :=
  match e.before.elections.current, e.after.elections.current with
  | some (.seeding seeder _), some (.seeding seeder' _) =>
      seeder.endTime ≤ e.before.now && seeder'.current != seeder.current
  | _, _ => false

/-- A second header of the window comes when the window is over. -/
def lateSeed : List Transaction :=
  foundation ++
    [(1900000, [(signedBy alice, .action (.electseed (headerAt 947600000)))]),
      (1987300, [(signedBy bob, .action (.electseed (headerAt 947600002)))])]

/-- Whoever submits last can still choose among headers when the window is over. -/
theorem lateSeed_lowers :
    ∃ es e s, traceFromGenesis host (fun _ _ => True) lateSeed = some (es ++ [e], s) ∧
      History host (fun _ _ => True) (es ++ [e]) s ∧ lowersLate e = true := by
  have hrun : (traceFromGenesis host (fun _ _ => True) lateSeed).any
      (fun result => result.1.getLast?.any lowersLate) = true := by decide +kernel
  obtain ⟨⟨es, s⟩, htrace, hstate⟩ := (Option.any_eq_true _ _).mp hrun
  obtain ⟨e, hlast, hlate⟩ := (Option.any_eq_true _ _).mp hstate
  obtain ⟨es₁, rfl⟩ := List.getLast?_eq_some_iff.mp hlast
  exact ⟨es₁, e, s, htrace, history_of_trace htrace, hlate⟩

/-! ### Submissions in any order -/

theorem step_results {s s' : State} (h : Step p call s s') (hcall : call ≠ .action .clearall)
    (hs : phase s.elections.current = .voting → s.elections.results ≠ none) :
    phase s'.elections.current = .voting → s'.elections.results ≠ none := by
  cases h with
  | aside haside =>
      rw [haside.current, haside.results]
      exact hs
  | resigns | renames =>
      intro hvoting
      simpa using hs hvoting
  | seeds hseed =>
      rcases seed_eq_ok hseed with ⟨_, _, _, _, _, _, _, _, _, rfl⟩ | ⟨_, _, _, _, _, _, _, rfl⟩ |
        ⟨_, _, _, hcurrent, _, _, rfl⟩
      · exact fun hvoting => absurd hvoting (by simp [withCurrent, phase])
      · exact fun hvoting => absurd hvoting (by simp [withCurrent, phase])
      · exact fun _ => hs (by rw [hcurrent]; rfl)
  | starts _ hstart _ =>
      obtain ⟨_, _, _, _, _, _, _, rfl⟩ := startElection_eq_ok hstart
      simp
  | votes hvote =>
      obtain ⟨_, _, _, _, _, _, _, _, _, _, _, rfl⟩ := vote_eq_ok hvote
      exact hs
  | visits hcurrent | reports hcurrent | opens hcurrent | closes hcurrent | groups hcurrent
  | rereports hcurrent | advances hcurrent => exact fun _ => hs (by rw [hcurrent]; rfl)
  | concludes => simp [concluded]
  | schedules | unschedules | aborts =>
      exact fun hvoting => absurd hvoting (by simp [withCurrent, phase])
  | clears => exact absurd rfl hcall
  | _ => exact hs

/-- The state of a contract that has been founded. -/
structure Sound (s : State) : Prop where
  named : Named s
  clean : s.output.serializedEvents = []
  founded : s.elections.current ≠ none → s.globals ≠ none
  results : phase s.elections.current = .voting → s.elections.results ≠ none

theorem step_undated {s s' : State} (h : Step p call s s') (hcall : reschedules call = false)
    (huninterrupted : uninterrupted call = true) (hs : s.elections.current = none) :
    s'.elections.current = none := by
  cases h with
  | aside haside => rw [haside.current, hs]
  | schedules hreschedules => exact absurd hreschedules (by simp [hcall])
  | unschedules hreschedules => exact absurd hreschedules (by simp [hcall])
  | aborts => exact absurd huninterrupted (by simp [uninterrupted])
  | clears => exact absurd huninterrupted (by simp [uninterrupted])
  | seeds hseed =>
      rcases seed_eq_ok hseed with ⟨_, _, _, _, _, hcurrent, _⟩ | ⟨_, _, _, _, hcurrent, _⟩ |
        ⟨_, _, _, hcurrent, _⟩
      all_goals exact absurd hcurrent (by simp [hs])
  | starts hcurrent | visits hcurrent | reports hcurrent | opens hcurrent | closes hcurrent
  | groups hcurrent | rereports hcurrent | advances hcurrent =>
      exact absurd hcurrent (by simp [hs])
  | votes hvote =>
      obtain ⟨_, _, _, hcurrent, _⟩ := vote_eq_ok hvote
      exact absurd hcurrent (by simp [hs])
  | concludes _ _ hlast =>
      rcases hlast with ⟨_, _, hcurrent, _⟩ | ⟨_, hcurrent⟩
      all_goals exact absurd hcurrent (by simp [hs])
  | _ => exact hs

/-- Only genesis works without the globals and dates an election. -/
theorem exec_unfounded {s s' : State} (hsteps : Steps p call s s')
    (h : exec p env s call = .ok s') (hglobals : s.globals = none)
    (hs : s.elections.current = none) : s'.elections.current = none ∨ s'.globals ≠ none := by
  by_cases hcall : reschedules call = false ∧ uninterrupted call = true
  · exact .inl (steps_preserve (fun t => t.elections.current = none)
      (fun _ _ hstep => step_undated hstep hcall.1 hcall.2) hsteps hs)
  · have hmissing : ∀ {g : Globals}, s.globals ≠ some g := by simp [hglobals]
    cases call with
    | action a =>
        simp only [exec, applyAction, bind_eq_ok, pure_eq_ok] at h
        obtain ⟨t, ht, rfl⟩ := h
        cases a with
        | genesis =>
            obtain ⟨u, hu, _, hfounded⟩ := genesis_steps_of ht
            have hglobals' : t.globals ≠ none := steps_globals hfounded (by simp) hu
            exact .inr hglobals'
        | electsettime =>
            simp only [dispatch, electsettime, bind_eq_ok, getGlobals_eq_ok] at ht
            obtain ⟨_, _, g, hg, _⟩ := ht
            exact absurd hg hmissing
        | electconfig =>
            simp only [dispatch, electconfig, bind_eq_ok] at ht
            obtain ⟨_, _, u, hu, _⟩ := ht
            obtain ⟨g, _, hg, _⟩ := setTime_eq_ok hu
            exact absurd hg hmissing
        | inductdonate =>
            simp only [dispatch, inductdonate, bind_eq_ok, getGlobals_eq_ok] at ht
            obtain ⟨_, _, g, hg, _⟩ := ht
            exact absurd hg hmissing
        | inducted =>
            simp only [dispatch, inducted, bind_eq_ok, getGlobals_eq_ok] at ht
            obtain ⟨_, _, g, hg, _⟩ := ht
            exact absurd hg hmissing
        | resign =>
            simp only [dispatch, resign, bind_eq_ok, getGlobals_eq_ok] at ht
            obtain ⟨_, _, g, hg, _⟩ := ht
            exact absurd hg hmissing
        | finishelect =>
            simp only [dispatch, finishelect, bind_eq_ok, getGlobals_eq_ok] at ht
            obtain ⟨_, _, g, hg, _⟩ := ht
            exact absurd hg hmissing
        | clearall =>
            simp only [dispatch, clearall, bind_eq_ok, getGlobals_eq_ok] at ht
            obtain ⟨_, _, g, hg, _⟩ := ht
            exact absurd hg hmissing
        | _ => exact absurd ⟨rfl, rfl⟩ hcall
    | _ => exact absurd ⟨rfl, rfl⟩ hcall

theorem exec_sound {s s' : State} (h : exec p env s call = .ok s') (hs : Sound s) : Sound s' := by
  obtain ⟨hsteps, hclean⟩ := exec_steps hs.clean h
  have hnamed := steps_preserve Named (fun _ _ => step_named) hsteps hs.named
  by_cases hcall : call = .action .clearall
  · subst hcall
    simp only [exec, applyAction, dispatch, clearall, bind_eq_ok, pure_eq_ok] at h
    obtain ⟨t, ⟨_, _, _, _, rfl⟩, rfl⟩ := h
    exact ⟨hnamed, hclean, fun hdated => absurd rfl hdated, fun hvoting => absurd hvoting (by simp [phase])⟩
  · refine ⟨hnamed, hclean, fun hdated => ?_, ?_⟩
    · by_cases hglobals : s.globals = none
      · have hundated : s.elections.current = none := by
          by_contra hcurrent
          exact hs.founded hcurrent hglobals
        rcases exec_unfounded hsteps h hglobals hundated with hnone | hfounded
        · exact absurd hnone hdated
        · exact hfounded
      · exact steps_globals hsteps hcall hglobals
    · exact steps_preserve (fun t => phase t.elections.current = .voting → t.elections.results ≠ none)
        (fun _ _ hstep => step_results hstep hcall) hsteps hs.results

theorem reachable_sound {s : State} (h : Reachable p (fun _ _ => True) s) : Sound s := by
  refine reachable_invariant Sound h ?_ ?_ ?_
  · intro s hs
    refine ⟨untouched_named hs, by rw [hs.1], ?_, ?_⟩
    · rw [hs.1]
      exact fun hdated => absurd rfl hdated
    · rw [hs.1]
      exact fun hvoting => absurd hvoting (by simp [phase])
  · exact fun s now _ _ hs =>
      ⟨hs.named.of_members rfl rfl fun _ ha => ha, hs.clean, hs.founded, hs.results⟩
  · exact fun env s call s' _ hexec hs => exec_sound hexec hs

theorem setStateSing_ok {s : State} {newValue : ElectionState}
    (h : phase (some newValue) = .voting → s.elections.results ≠ none) :
    ∃ s', setStateSing p s newValue = .ok s' := by
  unfold setStateSing
  split
  · exact ⟨s, rfl⟩
  · have hevent : ∃ event, stateEvent s.elections.results newValue = .ok event := by
      cases newValue with
      | final seeder =>
          obtain ⟨results, hresults⟩ := Option.ne_none_iff_exists'.mp (h rfl)
          simp [stateEvent, hresults, getSingleton, expect]
      | _ => exact ⟨_, rfl⟩
    obtain ⟨event, hevent⟩ := hevent
    rw [hevent]
    cases event with
    | none => exact ⟨_, rfl⟩
    | some e => exact ⟨_, rfl⟩

/-- A better header of the window is accepted. -/
theorem electseed_ok {s : State} (hs : Sound s) {state : ElectionState} {seeder : ElectionSeeder}
    (hcurrent : s.elections.current = some state) (hstate : seederOf state = some seeder)
    {header : Bytes} (hlength : header.length = 80) (hwindow : inWindow seeder header = true)
    (hlower : bigEndian (ElectionSeeder.blockHash p.sha256 header) < bigEndian seeder.current) :
    ∃ s', exec p env s (.action (.electseed header)) = .ok s' := by
  have hupdate : seeder.update p.sha256 header = .ok _ :=
    update_eq_ok.mpr ⟨hlength.ge, hlower, hwindow, rfl⟩
  obtain ⟨g, hg⟩ := Option.ne_none_iff_exists'.mp (hs.founded (by simp [hcurrent]))
  have hseed : ∃ t, seed p (record s (.action (.electseed header))) header = .ok t := by
    cases state with
    | seeding seeder₁ version =>
        simp only [seederOf, Option.some.injEq] at hstate
        subst hstate
        obtain ⟨t, ht⟩ := @setStateSing_ok p (record s (.action (.electseed header)))
          (.seeding _ version) (by simp [phase])
        refine ⟨t, ?_⟩
        simp only [seed, bind_eq_ok, check_eq_ok, exists_const, decide_eq_true_eq,
          getSingleton_eq_ok]
        exact ⟨hlength, _, hcurrent, bind_eq_ok.mpr ⟨_, hupdate, ht⟩⟩
    | final seeder₁ =>
        simp only [seederOf, Option.some.injEq] at hstate
        subst hstate
        obtain ⟨t, ht⟩ := @setStateSing_ok p (record s (.action (.electseed header)))
          (.final _) fun _ => hs.results (by rw [hcurrent]; rfl)
        refine ⟨t, ?_⟩
        simp only [seed, bind_eq_ok, check_eq_ok, exists_const, decide_eq_true_eq,
          getSingleton_eq_ok]
        exact ⟨hlength, _, hcurrent, bind_eq_ok.mpr ⟨_, hupdate, ht⟩⟩
    | _ => exact absurd hstate (by simp [seederOf])
  obtain ⟨t, ht⟩ := hseed
  refine ⟨{ t with output := sendEvents t.output }, ?_⟩
  simp only [exec, applyAction, dispatch, bind_eq_ok, pure_eq_ok, getGlobals_eq_ok]
  exact ⟨t, ⟨g, hg, ht⟩, rfl⟩

/-- A transaction of one call, with its block time. -/
abbrev Attempt := Nat × Env × Call

/-- The state after an attempt: a rejected call leaves it as it is. -/
def attempt (p : Platform) (s : State) (a : Attempt) : State :=
  match exec p a.2.1 { s with now := a.1 } a.2.2 with
  | .ok s' => s'
  | .error _ => s

/-- The header that a call submits. -/
def headerOf : Call → Option Bytes
  | .action (.electseed header) => some header
  | _ => none

def headersOf (attempts : List Attempt) : List Bytes := attempts.filterMap fun a => headerOf a.2.2

/-- Calls that neither use a seed nor break the election off. -/
def sparesSeed : Call → Bool
  | .action (.electprocess _) => false
  | call => uninterrupted call

/-- The hashes of the headers in the window. -/
def eligible (p : Platform) (seeder : ElectionSeeder) (headers : List Bytes) : List Checksum :=
  (headers.filter (inWindow seeder)).map (ElectionSeeder.blockHash p.sha256)

/-- The seeder with the best of its seed and of headers. -/
def lowered (p : Platform) (seeder : ElectionSeeder) (headers : List Bytes) : ElectionSeeder :=
  { seeder with current := (eligible p seeder headers).foldl lowerHash seeder.current }

theorem lowered_append (p : Platform) (seeder : ElectionSeeder) (headers headers' : List Bytes) :
    lowered p seeder (headers ++ headers') = lowered p (lowered p seeder headers) headers' := by
  have hwindow : inWindow (lowered p seeder headers) = inWindow seeder := rfl
  simp only [lowered, eligible, List.filter_append, List.map_append, List.foldl_append]
  rfl

theorem attempt_sound {s : State} (hs : Sound s) (a : Attempt) : Sound (attempt p s a) := by
  have htime : Sound { s with now := a.1 } :=
    ⟨hs.named.of_members rfl rfl fun _ ha => ha, hs.clean, hs.founded, hs.results⟩
  unfold attempt
  split
  · rename_i s' hexec
    exact exec_sound hexec htime
  · exact hs

theorem lowered_singleton (p : Platform) (seeder : ElectionSeeder) (header : Bytes) :
    (inWindow seeder header = true ∧
        bigEndian (ElectionSeeder.blockHash p.sha256 header) < bigEndian seeder.current ∧
        lowered p seeder [header] =
          { seeder with current := ElectionSeeder.blockHash p.sha256 header }) ∨
      (¬ (inWindow seeder header = true ∧
          bigEndian (ElectionSeeder.blockHash p.sha256 header) < bigEndian seeder.current) ∧
        lowered p seeder [header] = seeder) := by
  by_cases hwindow : inWindow seeder header = true
  · by_cases hlower : bigEndian (ElectionSeeder.blockHash p.sha256 header) <
        bigEndian seeder.current
    · exact .inl ⟨hwindow, hlower, by simp [lowered, eligible, hwindow, lowerHash, hlower]⟩
    · refine .inr ⟨fun haccepted => hlower haccepted.2, ?_⟩
      simp [lowered, eligible, hwindow, lowerHash, hlower]
  · exact .inr ⟨fun haccepted => hwindow haccepted.1, by simp [lowered, eligible, hwindow]⟩

theorem uninterrupted_of_sparesSeed (h : sparesSeed call = true) : uninterrupted call = true := by
  unfold sparesSeed at h
  split at h
  · exact absurd h (by simp)
  · exact h

/-- What a submission does to a seed, whether it is accepted or not. -/
theorem submission_seed {s : State} (hs : Sound s) {state : ElectionState}
    {seeder : ElectionSeeder} (hcurrent : s.elections.current = some state)
    (hstate : seederOf state = some seeder) {now : Nat} {header : Bytes}
    (hlength : header.length = 80) :
    (attempt p s (now, env, .action (.electseed header))).elections.current =
      some (withSeeder state (lowered p seeder [header])) := by
  have htime : Sound { s with now := now } :=
    ⟨hs.named.of_members rfl rfl fun _ ha => ha, hs.clean, hs.founded, hs.results⟩
  unfold attempt
  split
  · rename_i s' hexec
    simp only [exec, applyAction, dispatch, bind_eq_ok, pure_eq_ok] at hexec
    obtain ⟨t, ⟨_, _, ht⟩, rfl⟩ := hexec
    obtain ⟨_, seeder', hupdate, hafter⟩ := seed_update ht hcurrent hstate
    obtain ⟨_, hlower, hwindow, rfl⟩ := update_eq_ok.mp hupdate
    rcases lowered_singleton p seeder header with ⟨_, _, heq⟩ | ⟨hnot, _⟩
    · rw [heq]
      exact hafter
    · exact absurd ⟨hwindow, hlower⟩ hnot
  · rename_i e hexec
    rcases lowered_singleton p seeder header with ⟨hwindow, hlower, _⟩ | ⟨_, heq⟩
    · obtain ⟨s', hok⟩ := @electseed_ok p env _ htime state seeder hcurrent hstate header hlength hwindow hlower
      rw [hexec] at hok
      exact absurd hok (by simp)
    · rw [heq, withSeeder_self hstate]
      exact hcurrent

/-- What an attempt does to a seed. -/
theorem attempt_seed {s : State} (hs : Sound s) {state : ElectionState} {seeder : ElectionSeeder}
    (hcurrent : s.elections.current = some state) (hstate : seederOf state = some seeder)
    (a : Attempt) (hcall : sparesSeed a.2.2 = true)
    (hlength : ∀ header, headerOf a.2.2 = some header → header.length = 80) :
    (attempt p s a).elections.current =
      some (withSeeder state (lowered p seeder (headerOf a.2.2).toList)) := by
  obtain ⟨now, env, call⟩ := a
  have htime : Sound { s with now := now } :=
    ⟨hs.named.of_members rfl rfl fun _ ha => ha, hs.clean, hs.founded, hs.results⟩
  have hkeep : withSeeder state (lowered p seeder []) = state := withSeeder_self hstate
  by_cases hsubmits : ∃ header, call = .action (.electseed header)
  · obtain ⟨header, rfl⟩ := hsubmits
    exact submission_seed hs hcurrent hstate (hlength header rfl)
  · have hnone : headerOf call = none := by
      unfold headerOf
      split
      · exact absurd ⟨_, rfl⟩ hsubmits
      · rfl
    rw [hnone, Option.toList_none, hkeep]
    unfold attempt
    split
    · rename_i s' hexec
      obtain ⟨hsteps, _⟩ := exec_steps htime.clean hexec
      have hfate := exec_seed hsteps hexec htime.named hcurrent hstate
      cases hfate with
      | kept hafter => exact hafter
      | lowered hcall' => exact absurd ⟨_, hcall'⟩ hsubmits
      | used hcall' =>
          obtain rfl : call = _ := hcall'
          exact absurd hcall (by simp [sparesSeed])
      | brokenOff hbroken =>
          have hbroken' : uninterrupted call = false := hbroken
          exact absurd (uninterrupted_of_sparesSeed hcall) (by simp [hbroken'])
    · exact hcurrent

/-- The seed after any attempts is the best of the seed before and the headers of the window. -/
theorem attempts_seed {s : State} (hs : Sound s) {state : ElectionState} {seeder : ElectionSeeder}
    (hcurrent : s.elections.current = some state) (hstate : seederOf state = some seeder)
    (attempts : List Attempt) (hcalls : ∀ a ∈ attempts, sparesSeed a.2.2 = true)
    (hlength : ∀ header ∈ headersOf attempts, header.length = 80) :
    (attempts.foldl (attempt p) s).elections.current =
      some (withSeeder state (lowered p seeder (headersOf attempts))) := by
  induction attempts generalizing s state seeder with
  | nil =>
      rw [List.foldl_nil, hcurrent, Option.some.injEq]
      exact (withSeeder_self hstate).symm
  | cons a attempts ih =>
      have hheaders : headersOf (a :: attempts) =
          (headerOf a.2.2).toList ++ headersOf attempts := by
        unfold headersOf
        rw [List.filterMap_cons]
        rcases headerOf a.2.2 with _ | header <;> rfl
      have hfirst := attempt_seed (p := p) hs hcurrent hstate a (hcalls a List.mem_cons_self)
        fun header hheader => hlength header (by rw [hheaders, hheader]; simp)
      have hrest := ih (attempt_sound hs a) hfirst (seederOf_withSeeder hstate _)
        (fun b hb => hcalls b (List.mem_cons_of_mem _ hb))
        fun header hheader => hlength header (by rw [hheaders]; exact List.mem_append_right _ hheader)
      rw [List.foldl_cons, hrest, hheaders, lowered_append, Option.some.injEq]
      cases state <;> rfl

/-- Submissions commute, whatever else happens in between: the seed becomes the least of the seed
and the hashes of the headers in the window, and a rejected call leaves the state as it is. -/
theorem submissions_commute (hhash : ∀ message, (p.sha256 message).length = 32) {s : State}
    (h : Reachable p (fun _ _ => True) s) {state : ElectionState} {seeder : ElectionSeeder}
    (hcurrent : s.elections.current = some state) (hstate : seederOf state = some seeder)
    (attempts : List Attempt) (hcalls : ∀ a ∈ attempts, sparesSeed a.2.2 = true)
    (hlength : ∀ header ∈ headersOf attempts, header.length = 80) :
    (∃ least, (seeder.current :: eligible p seeder (headersOf attempts)).argmin bigEndian =
        some least ∧
      (attempts.foldl (attempt p) s).elections.current =
        some (withSeeder state { seeder with current := least })) ∧
    (∀ attempts' : List Attempt, (∀ a ∈ attempts', sparesSeed a.2.2 = true) →
      (headersOf attempts').Perm (headersOf attempts) →
      (attempts'.foldl (attempt p) s).elections.current =
        (attempts.foldl (attempt p) s).elections.current) ∧
    ∀ t a e, exec p a.2.1 { t with now := a.1 } a.2.2 = .error e → attempt p t a = t := by
  have hs := reachable_sound h
  have hseed := attempts_seed (p := p) hs hcurrent hstate attempts hcalls hlength
  refine ⟨⟨_, foldl_lowerHash _ _, hseed⟩, ?_, ?_⟩
  · intro attempts' hcalls' hperm
    have hseed' := attempts_seed (p := p) hs hcurrent hstate attempts' hcalls'
      fun header hheader => hlength header (hperm.mem_iff.mp hheader)
    have hhashes : (eligible p seeder (headersOf attempts')).Perm
        (eligible p seeder (headersOf attempts)) := (hperm.filter _).map _
    have hleast : lowered p seeder (headersOf attempts') =
        lowered p seeder (headersOf attempts) := by
      unfold lowered
      rw [foldl_lowerHash_perm hhashes (n := 32)]
      intro hash hmem
      obtain ⟨header, _, rfl⟩ := List.mem_map.mp hmem
      rw [ElectionSeeder.blockHash, List.length_reverse, hhash]
    rw [hseed', hseed, hleast]
  · intro t a e hexec
    rw [attempt, hexec]

theorem sha256_length (message : Bytes) : (HostFunctions.sha256 message).length = 32 := by
  have hround : ∀ v kw, (compressRound v kw).length = v.length := by
    intro v kw
    unfold compressRound
    split <;> rfl
  have hrounds : ∀ (kws v : List Nat), (kws.foldl compressRound v).length = v.length := by
    intro kws
    induction kws with
    | nil => exact fun _ => rfl
    | cons kw kws ih =>
        intro v
        rw [List.foldl_cons, ih, hround]
  have hblock : ∀ hash block, (compress hash block).length = hash.length := by
    intro hash block
    rw [compress, List.length_zipWith, hrounds, min_self]
  have hblocks : ∀ (hash : List Nat) (l : List Nat) (f : Nat → Bytes),
      (l.foldl (fun hash i => compress hash (f i)) hash).length = hash.length := by
    intro hash l f
    induction l generalizing hash with
    | nil => rfl
    | cons i l ih => rw [List.foldl_cons, ih, hblock]
  have hwords : ∀ words : List Nat,
      (words.flatMap fun word => (littleEndianBytes 4 word).reverse).length =
        4 * words.length := by
    intro words
    induction words with
    | nil => rfl
    | cons word words ih =>
        rw [List.flatMap_cons, List.length_append, ih, List.length_cons]
        have hword : (littleEndianBytes 4 word).reverse.length = 4 := rfl
        omega
  rw [HostFunctions.sha256, hwords, hblocks]
  rfl

/-- One header has been submitted. -/
def firstSeed : List Transaction :=
  foundation ++ [(1900000, [(signedBy alice, .action (.electseed (headerAt 947600000)))])]

/-- A better header and a worse one. -/
def moreHeaders : List Attempt :=
  [(1900010, signedBy bob, .action (.electseed (headerAt 947600002))),
    (1900020, signedBy alice, .action (.electseed (headerAt 947600001)))]

theorem moreHeaders_commute :
    ∃ s seeder version least, runFromGenesis host (fun _ _ => True) firstSeed = some s ∧
      s.elections.current = some (.seeding seeder version) ∧
      (seeder.current :: eligible host seeder (headersOf moreHeaders)).argmin bigEndian =
        some least ∧
      (moreHeaders.foldl (attempt host) s).elections.current =
        some (.seeding { seeder with current := least } version) := by
  have hrun : (runFromGenesis host (fun _ _ => True) firstSeed).any
      (fun s => phase s.elections.current = .seeding) = true := by decide +kernel
  obtain ⟨s, hs, hseeding⟩ := (Option.any_eq_true _ _).mp hrun
  rw [decide_eq_true_eq] at hseeding
  rcases hcurrent : s.elections.current with _ | state
  · exact absurd hseeding (by simp [hcurrent, phase])
  · cases state with
    | seeding seeder version =>
        obtain ⟨⟨least, hleast, hafter⟩, _⟩ := submissions_commute (p := host) sha256_length
          (reachable_of_run hs) hcurrent rfl moreHeaders (by decide) (by decide)
        exact ⟨s, seeder, version, least, hs, hcurrent, hleast, hafter⟩
    | _ => exact absurd hseeding (by simp [hcurrent, phase])

end Eden.SeedSubmissions
