import Eden.MigrationSteps

/-!
Calls of `migrate` one after the other: when the last stage is reached, and when a stage with
nothing left keeps every call from going on.
-/

namespace Eden.MigrationProgress

open Eden.ExceptReasoning
open Eden.ChainPrimitives
open Eden.ContractState
open Eden.Runtime
open Eden.Maintenance
open Eden.ContractActions
open Eden.Transactions
open Eden.HostFunctions
open Eden.MigrationStages
open Eden.AccountMigration
open Eden.MasterMigration
open Eden.MigrationSteps

variable {p : Platform} {env : Env} {s s' : State}

/-- The migration with which a call goes on. -/
def currentMigration (s : State) : Migration := s.migration.getD (.auction 0)

def Finished (s : State) : Prop := migrationIndex (currentMigration s) = 5

/-! ### One call -/

theorem clear_record {e : Executed} {m : Migration} : Clear (record s e) m ↔ Clear s m := by
  cases m with
  | _ => exact Iff.rfl

theorem stepsLeft_record (e : Executed) (m : Migration) :
    stepsLeft env (record s e) m = stepsLeft env s m := by
  cases m with
  | _ => rfl

/-- A call succeeds when its loop takes some step. -/
theorem exec_migrate {n r : Nat} {t : State}
    (h : migrateFrom p env 6 (record s (.action (.migrate n))) n (currentMigration s) = .ok (r, t)) :
    exec p env s (.action (.migrate n)) =
      if r = n then .error (.check "Nothing to do")
      else .ok { t with output := sendEvents t.output } := by
  have hsome : migrateSome p env (record s (.action (.migrate n))) n = .ok (r, t) := h
  change applyAction p env s (.migrate n) = _
  unfold applyAction
  change (migrate p env (record s (.action (.migrate n))) n >>= _) = _
  unfold migrate
  rw [hsome]
  by_cases hr : r = n
  · simp [hr, check]
    rfl
  · simp [hr, check]

theorem exec_migrate_error {n : Nat} {e : Abort}
    (h : migrateFrom p env 6 (record s (.action (.migrate n))) n (currentMigration s) = .error e) :
    exec p env s (.action (.migrate n)) = .error e := by
  have hsome : migrateSome p env (record s (.action (.migrate n))) n = .error e := h
  change applyAction p env s (.migrate n) = _
  unfold applyAction
  change (migrate p env (record s (.action (.migrate n))) n >>= _) = _
  unfold migrate
  rw [hsome]
  rfl

theorem migrateFrom_not_idle {fuel n : Nat} {m : Migration} :
    migrateFrom p env fuel s n m ≠ .error (.check "Nothing to do") := by
  refine migrateFrom_ne_error (fun _ _ => True) (by simp) (fun t n m _ _ _ h => ?_) trivial
  rcases migrateStage_error h with hmem | hjams | hjams
  · simp [amountErrors] at hmem
  · simp at hjams
  · simp at hjams

/-- A call takes its steps as long as any are left, and stops in the last stage only with steps
that it could not take. -/
theorem migrate_steps {n : Nat}
    (hmarket : env.market.Pairwise fun a b => a.auctionId < b.auctionId)
    (hnames : ∀ a ∈ memberNames s, a < 2 ^ 64) (hclear : Clear s (currentMigration s))
    (hn : 0 < n) :
    (stepsLeft env s (currentMigration s) = 0 ∧
        exec p env s (.action (.migrate n)) = .error (.check "Nothing to do")) ∨
      (0 < stepsLeft env s (currentMigration s) ∧
        ∃ s', exec p env s (.action (.migrate n)) = .ok s' ∧ memberNames s' = memberNames s ∧
          Clear s' (currentMigration s') ∧
          ((n ≤ stepsLeft env s (currentMigration s) ∧ ¬ Finished s' ∧
              stepsLeft env s' (currentMigration s') =
                leftAfter env s (currentMigration s) n) ∨
            (stepsLeft env s (currentMigration s) < n ∧ Finished s'))) := by
  obtain ⟨r, t, m, hrun, hkeys, hclear', hend⟩ := @migrateFrom_steps p env
    (record s (.action (.migrate n))) hmarket 6 n (currentMigration s) hnames
    (clear_record.mpr hclear) hn (by omega)
  have hafter : leftAfter env (record s (.action (.migrate n))) (currentMigration s) n =
      leftAfter env s (currentMigration s) n :=
    leftAfter_congr rfl (by rw [stepsLeft_record])
  rw [stepsLeft_record, hafter] at hend
  rw [exec_migrate hrun]
  rcases Nat.eq_zero_or_pos (stepsLeft env s (currentMigration s)) with hzero | hpos
  · rw [hzero] at hend
    refine .inl ⟨hzero, if_pos ?_⟩
    rcases hend with ⟨hle, _⟩ | ⟨_, hr, _⟩
    · omega
    · exact hr
  · refine .inr ⟨hpos, _, if_neg (by omega), hkeys, hclear', ?_⟩
    rcases hend with ⟨hle, _, hm, hleft⟩ | ⟨hlt, _, hm⟩
    · exact .inl ⟨hle, hm, hleft⟩
    · exact .inr ⟨hlt, hm⟩

theorem clear_of_finished (h : Finished s) : Clear s (currentMigration s) := by
  unfold Finished at h
  cases hm : currentMigration s with
  | fixInductdonateExpirationCheck => trivial
  | _ =>
      rw [hm] at h
      exact absurd h (by simp [migrationIndex])

/-- When the accounts do not add up a call fails with another error, or leaves them so. -/
theorem migrate_stuck {n : Nat} (hn : 0 < n) (hclear : ¬ Clear s (currentMigration s)) :
    exec p env s (.action (.migrate n)) ≠ .error (.check "Nothing to do") ∧
      ∀ s', exec p env s (.action (.migrate n)) = .ok s' → ¬ Clear s' (currentMigration s') := by
  have hstart : ¬ Clear (record s (.action (.migrate n))) (currentMigration s) :=
    fun h => hclear (clear_record.mp h)
  have hstage : ∀ t n m r m' t', 0 < n → migrationIndex m ≠ 5 →
      migrateStage p env t n m = .ok (r, m', t') → ¬ Clear t m →
      (r = 0 → ¬ Clear t' m') ∧
        (r ≠ 0 → ¬ Clear (emit p t' (.migration (migrationIndex m))) (nextMigration m')) :=
    fun _ _ _ _ _ _ _ _ h ht => migrateStage_stuck h ht
  constructor
  · cases hrun : migrateFrom p env 6 (record s (.action (.migrate n))) n (currentMigration s) with
    | error e =>
        rw [exec_migrate_error hrun]
        rw [ne_eq, Except.error.injEq]
        rintro rfl
        exact migrateFrom_not_idle hrun
    | ok result =>
        obtain ⟨r, t⟩ := result
        obtain ⟨u, m, hu, rfl⟩ :=
          migrateFrom_preserves (fun t m => ¬ Clear t m) hstage hrun hstart
        rw [exec_migrate hrun, if_neg]
        · simp
        · rcases migrateFrom_spent hrun (by omega) with hr | hlast
          · omega
          · rw [Option.map_some, Option.some.injEq] at hlast
            cases m with
            | fixInductdonateExpirationCheck => exact absurd trivial hu
            | _ => exact absurd hlast (by simp [migrationIndex])
  · intro s' h
    obtain ⟨r, t, hrun, _, rfl⟩ := migrate_eq_ok h
    obtain ⟨u, m, hu, rfl⟩ := migrateFrom_preserves (fun t m => ¬ Clear t m) hstage hrun hstart
    exact hu

/-! ### Calls one after the other -/

/-- A call of `migrate`, with its block time. -/
structure Attempt where
  env : Env
  now : Nat
  steps : Nat

/-- The state after a call, which changes nothing when it fails. -/
def attempt (p : Platform) (s : State) (a : Attempt) : State :=
  (exec p a.env { s with now := a.now } (.action (.migrate a.steps))).toOption.getD s

/-- The state after the first calls. -/
def attempts (p : Platform) : (k : Nat) → (Nat → Attempt) → State → State
  | 0, _, s => s
  | k + 1, calls, s => attempts p k (fun i => calls (i + 1)) (attempt p s (calls 0))

/-- The first calls have exactly so many steps. -/
def Lands (calls : Nat → Attempt) (w : Nat) : Prop :=
  ∃ k, ∑ i ∈ Finset.range k, (calls i).steps = w

theorem lands_iff {calls : Nat → Attempt} {w : Nat} :
    Lands calls w ↔ w = 0 ∨ ((calls 0).steps ≤ w ∧
      Lands (fun i => calls (i + 1)) (w - (calls 0).steps)) := by
  constructor
  · rintro ⟨k, hk⟩
    cases k with
    | zero => exact .inl hk.symm
    | succ k =>
        rw [Finset.sum_range_succ'] at hk
        refine .inr ⟨by omega, k, ?_⟩
        simp only
        omega
  · rintro (rfl | ⟨hle, k, hk⟩)
    · exact ⟨0, rfl⟩
    · refine ⟨k + 1, ?_⟩
      simp only at hk
      rw [Finset.sum_range_succ']
      omega

theorem lands_first {calls : Nat → Attempt} {w : Nat} (hpos : 0 < (calls 0).steps)
    (hle : (calls 0).steps ≤ w) :
    Lands calls w ↔ Lands (fun i => calls (i + 1)) (w - (calls 0).steps) := by
  rw [lands_iff]
  constructor
  · rintro (hzero | ⟨_, hrest⟩)
    · omega
    · exact hrest
  · exact fun hrest => .inr ⟨hle, hrest⟩

theorem not_lands {calls : Nat → Attempt} {w : Nat} (hw : 0 < w) (hlt : w < (calls 0).steps) :
    ¬ Lands calls w := by
  rw [lands_iff]
  rintro (hzero | ⟨hle, _⟩)
  · omega
  · omega

theorem stepsLeft_of_market {env' : Env} (h : env'.market = env.market) (m : Migration) :
    stepsLeft env' s m = stepsLeft env s m := by
  cases m with
  | auction lastId => rw [stepsLeft, h, stepsLeft]
  | _ => rfl

/-- The steps that are left before the last stage. -/
def toGo (env : Env) (s : State) : Nat := stepsLeft env s (currentMigration s)

def memberCount (s : State) : Nat := s.members.table.rows.length

/-- The calls come to the end of what is left, then so many times to the end of the members, and
then not again. -/
structure PassesAt (env : Env) (s : State) (calls : Nat → Attempt) (j : Nat) : Prop where
  again : j = 0 ∨ (0 < toGo env s ∧ StartsOver s)
  lands : ∀ i < j, Lands calls (toGo env s + i * memberCount s)
  passes : ¬ Lands calls (toGo env s + j * memberCount s)

theorem attempt_cases {a : Attempt} (ha : a.env.market = env.market)
    (hmarket : env.market.Pairwise fun a b => a.auctionId < b.auctionId)
    (hnames : ∀ a ∈ memberNames s, a < 2 ^ 64) (hclear : Clear s (currentMigration s))
    (hn : 0 < a.steps) :
    (toGo env s = 0 ∧ attempt p s a = s) ∨
      (0 < toGo env s ∧ memberNames (attempt p s a) = memberNames s ∧
        Clear (attempt p s a) (currentMigration (attempt p s a)) ∧
        ((a.steps ≤ toGo env s ∧ ¬ Finished (attempt p s a) ∧ toGo env (attempt p s a) =
            if a.steps = toGo env s ∧ StartsOver s then memberCount s else toGo env s - a.steps) ∨
          (toGo env s < a.steps ∧ Finished (attempt p s a)))) := by
  have htime : ∀ m, stepsLeft a.env { s with now := a.now } m = stepsLeft env s m := by
    intro m
    refine Eq.trans ?_ (stepsLeft_of_market ha m)
    cases m with
    | _ => rfl
  have hclear' : Clear { s with now := a.now } (currentMigration s) := by
    cases hm : currentMigration s with
    | _ => rwa [hm] at hclear
  rcases migrate_steps (p := p) (s := { s with now := a.now }) (ha ▸ hmarket) hnames hclear' hn with
    ⟨hzero, herror⟩ | ⟨hpos, s', hok, hkeys, hclear'', hend⟩
  · refine .inl ⟨(htime _).symm.trans hzero, ?_⟩
    rw [attempt, herror]
    rfl
  · have hattempt : attempt p s a = s' := by
      rw [attempt, hok]
      rfl
    rw [htime] at hpos hend
    have hafter : leftAfter a.env { s with now := a.now } (currentMigration s) a.steps =
        if a.steps = toGo env s ∧ StartsOver s then memberCount s else toGo env s - a.steps := by
      rw [leftAfter, htime]
      rfl
    rw [hattempt]
    refine .inr ⟨hpos, hkeys, hclear'', ?_⟩
    rcases hend with ⟨hle, hunfinished, hleft⟩ | ⟨hlt, hfinished⟩
    · refine .inl ⟨hle, hunfinished, ?_⟩
      rw [toGo, ← stepsLeft_of_market ha]
      exact hleft.trans hafter
    · exact .inr ⟨hlt, hfinished⟩

/-- What the calls do after the first one. -/
theorem passesAt_attempt {calls : Nat → Attempt} (hn : 0 < (calls 0).steps)
    (hle : (calls 0).steps ≤ toGo env s) (hkeys : memberNames s' = memberNames s)
    (hleft : toGo env s' = if (calls 0).steps = toGo env s ∧ StartsOver s then memberCount s
      else toGo env s - (calls 0).steps) :
    (∀ j, PassesAt env s calls j → ∃ j', PassesAt env s' (fun i => calls (i + 1)) j' ∧
      toGo env s' + j' * memberCount s' + (calls 0).steps = toGo env s + j * memberCount s) ∧
    ((∃ j', PassesAt env s' (fun i => calls (i + 1)) j') → ∃ j, PassesAt env s calls j) := by
  have hover : StartsOver s' ↔ StartsOver s := by rw [StartsOver, hkeys, StartsOver]
  have hcount : memberCount s' = memberCount s := by
    rw [memberCount, ← length_memberNames, hkeys, length_memberNames, memberCount]
  have hfirst : ∀ i, Lands calls (toGo env s + i * memberCount s) ↔
      Lands (fun i => calls (i + 1)) (toGo env s + i * memberCount s - (calls 0).steps) :=
    fun i => lands_first hn (by omega)
  by_cases hend : (calls 0).steps = toGo env s ∧ StartsOver s
  · rw [if_pos hend] at hleft
    have hshift : ∀ i, toGo env s + (i + 1) * memberCount s - (calls 0).steps =
        toGo env s' + i * memberCount s' := by
      intro i
      rw [hleft, hcount, hend.1, Nat.add_sub_cancel_left, Nat.succ_mul, Nat.add_comm]
    have hpos : 0 < memberCount s := hend.2.length_pos
    constructor
    · intro j hj
      cases j with
      | zero =>
          refine absurd ?_ hj.passes
          rw [hfirst, Nat.zero_mul, Nat.add_zero, hend.1, Nat.sub_self]
          exact lands_iff.mpr (.inl rfl)
      | succ j =>
          refine ⟨j, ⟨.inr ⟨hleft ▸ hpos, hover.mpr hend.2⟩, fun i hi => ?_, ?_⟩, ?_⟩
          · rw [← hshift, ← hfirst]
            exact hj.lands (i + 1) (by omega)
          · rw [← hshift, ← hfirst]
            exact hj.passes
          · rw [← hshift]
            have hbound : toGo env s ≤ toGo env s + (j + 1) * memberCount s := Nat.le_add_right _ _
            omega
    · rintro ⟨j, hj⟩
      refine ⟨j + 1, .inr ⟨by omega, hend.2⟩, fun i hi => ?_, ?_⟩
      · rw [hfirst]
        cases i with
        | zero =>
            rw [Nat.zero_mul, Nat.add_zero, hend.1, Nat.sub_self]
            exact lands_iff.mpr (.inl rfl)
        | succ i =>
            rw [hshift]
            exact hj.lands i (by omega)
      · rw [hfirst, hshift]
        exact hj.passes
  · rw [if_neg hend] at hleft
    have hshift : ∀ i, toGo env s + i * memberCount s - (calls 0).steps =
        toGo env s' + i * memberCount s' := by
      intro i
      rw [hleft, hcount]
      omega
    constructor
    · intro j hj
      refine ⟨j, ⟨hj.again.imp_right fun h => ⟨?_, hover.mpr h.2⟩, fun i hi => ?_, ?_⟩, ?_⟩
      · by_contra hzero
        exact hend ⟨by omega, h.2⟩
      · rw [← hshift, ← hfirst]
        exact hj.lands i hi
      · rw [← hshift, ← hfirst]
        exact hj.passes
      · rw [← hshift]
        omega
    · rintro ⟨j, hj⟩
      refine ⟨j, hj.again.imp_right fun h => ⟨by omega, hover.mp h.2⟩, fun i hi => ?_, ?_⟩
      · rw [hfirst, hshift]
        exact hj.lands i hi
      · rw [hfirst, hshift]
        exact hj.passes

section Sequences

variable {calls : Nat → Attempt}

theorem unfinished_of_stuck (hclear : ¬ Clear s (currentMigration s)) : ¬ Finished s :=
  fun h => hclear (clear_of_finished h)

theorem attempts_stuck (hpos : ∀ i, 0 < (calls i).steps)
    (hclear : ¬ Clear s (currentMigration s)) (k : Nat) :
    ¬ Clear (attempts p k calls s) (currentMigration (attempts p k calls s)) := by
  induction k generalizing s calls with
  | zero => exact hclear
  | succ k ih =>
      refine ih (fun i => hpos (i + 1)) ?_
      have hclear' : ¬ Clear { s with now := (calls 0).now } (currentMigration s) := by
        cases hm : currentMigration s with
        | _ => rwa [hm] at hclear
      have hstuck := (@migrate_stuck p (calls 0).env { s with now := (calls 0).now } _ (hpos 0) hclear').2
      unfold attempt
      cases hexec : exec p (calls 0).env { s with now := (calls 0).now }
          (.action (.migrate (calls 0).steps)) with
      | error e => exact hclear
      | ok s' => exact hstuck s' hexec

/-- Nothing left is never passed. -/
theorem PassesAt.pos {j : Nat} (h : PassesAt env s calls j) : 0 < toGo env s := by
  by_contra hzero
  refine h.passes (lands_iff.mpr (.inl ?_))
  rcases h.again with rfl | ⟨hpos, _⟩
  · omega
  · exact absurd hpos hzero

variable (hmarket : env.market.Pairwise fun a b => a.auctionId < b.auctionId)
  (hsame : ∀ i, (calls i).env.market = env.market) (hpos : ∀ i, 0 < (calls i).steps)
  (hnames : ∀ a ∈ memberNames s, a < 2 ^ 64) (hclear : Clear s (currentMigration s))
  (hunfinished : ¬ Finished s)

include hmarket hsame hpos hnames hclear

theorem reaches_of_passesAt {j : Nat} (h : PassesAt env s calls j) :
    ∃ k, Finished (attempts p k calls s) := by
  induction hw : toGo env s + j * memberCount s using Nat.strong_induction_on
    generalizing s calls j with
  | _ w ih =>
      have hleft := h.pos
      rcases attempt_cases (p := p) (hsame 0) hmarket hnames hclear (hpos 0) with
        ⟨hzero, _⟩ | ⟨_, hkeys, hclear', ⟨hle, _, hafter⟩ | ⟨_, hfinished⟩⟩
      · omega
      · obtain ⟨j', hj', hsum⟩ := (passesAt_attempt (hpos 0) hle hkeys hafter).1 j h
        have hn := hpos 0
        obtain ⟨k, hk⟩ := ih _ (by omega) (fun i => hsame (i + 1)) (fun i => hpos (i + 1))
          (by rwa [hkeys]) hclear' hj' rfl
        exact ⟨k + 1, hk⟩
      · exact ⟨1, hfinished⟩

include hunfinished

theorem passesAt_of_reaches {k : Nat} (h : Finished (attempts p k calls s)) :
    ∃ j, PassesAt env s calls j := by
  induction k generalizing s calls with
  | zero => exact absurd h hunfinished
  | succ k ih =>
      rcases attempt_cases (p := p) (hsame 0) hmarket hnames hclear (hpos 0) with
        ⟨hzero, hidle⟩ | ⟨hleft, hkeys, hclear', ⟨hle, hunfinished', hafter⟩ | ⟨hlt, hfinished⟩⟩
      · rw [attempts, hidle] at h
        obtain ⟨j, hj⟩ := ih (fun i => hsame (i + 1)) (fun i => hpos (i + 1)) hnames hclear
          hunfinished h
        exact absurd hj.pos (by omega)
      · exact (passesAt_attempt (hpos 0) hle hkeys hafter).2
          (ih (fun i => hsame (i + 1)) (fun i => hpos (i + 1)) (by rwa [hkeys]) hclear'
            hunfinished' h)
      · refine ⟨0, .inl rfl, fun i hi => absurd hi (Nat.not_lt_zero i), ?_⟩
        rw [Nat.zero_mul, Nat.add_zero]
        exact not_lands hleft hlt

end Sequences

/-- A call finds nothing to do when all checks pass and no steps are left, and calls reach the last
stage when all checks pass and their steps do not come to exactly what is left. -/
theorem migration_progress
    (hmarket : env.market.Pairwise fun a b => a.auctionId < b.auctionId)
    (hnames : ∀ a ∈ memberNames s, a < 2 ^ 64) (hunfinished : ¬ Finished s) :
    (∀ n, 0 < n → (exec p env s (.action (.migrate n)) ≠ .error (.check "Nothing to do") ↔
      ¬ (Clear s (currentMigration s) ∧ toGo env s = 0))) ∧
    ∀ calls : Nat → Attempt, (∀ i, (calls i).env.market = env.market) →
      (∀ i, 0 < (calls i).steps) → ((∃ k, Finished (attempts p k calls s)) ↔
        Clear s (currentMigration s) ∧ ∃ j, PassesAt env s calls j) := by
  refine ⟨fun n hn => ?_, fun calls hsame hpos => ?_⟩
  · by_cases hclear : Clear s (currentMigration s)
    · rcases migrate_steps (p := p) hmarket hnames hclear hn with
        ⟨hzero, herror⟩ | ⟨hleft, s', hok, _⟩
      · rw [herror]
        exact ⟨fun h => absurd rfl h, fun h => absurd ⟨hclear, hzero⟩ h⟩
      · rw [hok]
        exact ⟨fun _ h => absurd h.2 (Nat.ne_of_gt hleft), fun _ => by simp⟩
    · exact ⟨fun _ h => hclear h.1, fun _ => (migrate_stuck hn hclear).1⟩
  · constructor
    · rintro ⟨k, hk⟩
      have hclear : Clear s (currentMigration s) := by
        by_contra hclear
        exact attempts_stuck hpos hclear k (clear_of_finished hk)
      exact ⟨hclear, passesAt_of_reaches hmarket hsame hpos hnames hclear hunfinished hk⟩
    · rintro ⟨hclear, j, hj⟩
      exact reaches_of_passesAt hmarket hsame hpos hnames hclear hj

/-! ### Two members again -/

/-- The migrations start over. -/
def startsOver : Option State := runFromGenesis host (fun _ _ => True) (halfMigrated.take 6)

/-- Calls of four steps each. -/
def fourSteps (_ : Nat) : Attempt := ⟨signedBy alice, 1000200, 4⟩

theorem fourSteps_progress :
    ∃ s, startsOver = some s ∧ Finished (attempts host 2 fourSteps s) ∧
      Clear s (currentMigration s) ∧ ∃ j, PassesAt (signedBy alice) s fourSteps j := by
  have hrun : startsOver.any (fun s => decide (migrationIndex (currentMigration s) ≠ 5) &&
      decide (∀ a ∈ memberNames s, a < 2 ^ 64) &&
      decide (migrationIndex (currentMigration (attempts host 2 fourSteps s)) = 5)) = true := by
    decide +kernel
  obtain ⟨s, hs, hstate⟩ := (Option.any_eq_true _ _).mp hrun
  simp only [Bool.and_eq_true, decide_eq_true_eq] at hstate
  obtain ⟨⟨hunfinished, hnames⟩, hfinished⟩ := hstate
  have hprogress := (@migration_progress host (signedBy alice) s List.Pairwise.nil hnames
    hunfinished).2 fourSteps (fun _ => rfl) (fun _ => Nat.succ_pos 3)
  exact ⟨s, hs, hfinished, hprogress.mp ⟨2, hfinished⟩⟩

/-- A call that takes exactly the five steps that are left leaves nothing to the ones after it. -/
theorem migration_stops_short :
    ∃ s s', Reachable host (fun _ _ => True) s ∧
      exec host (signedBy alice) s (.action (.migrate 5)) = .ok s' ∧ ¬ Finished s' ∧
      ∀ n, 0 < n → exec host (signedBy alice) s' (.action (.migrate n)) =
        .error (.check "Nothing to do") := by
  have hrun : startsOver.any (fun s =>
      (exec host (signedBy alice) s (.action (.migrate 5))).toOption.any fun s' =>
        decide (migrationIndex (currentMigration s') = 3) &&
          decide (∀ a ∈ memberNames s', a < 2 ^ 64) &&
          decide (toGo (signedBy alice) s' = 0)) = true := by
    decide +kernel
  obtain ⟨s, hs, hstate⟩ := (Option.any_eq_true _ _).mp hrun
  obtain ⟨s', hs', hstate⟩ := (Option.any_eq_true _ _).mp hstate
  simp only [Bool.and_eq_true, decide_eq_true_eq] at hstate
  obtain ⟨⟨hindex, hnames⟩, hzero⟩ := hstate
  refine ⟨s, s', reachable_of_run hs, step_of_toOption hs', ?_, fun n hn => ?_⟩
  · unfold Finished
    omega
  · have hclear : Clear s' (currentMigration s') := by
      cases hm : currentMigration s' with
      | auction | account =>
          rw [hm] at hindex
          exact absurd hindex (by simp [migrationIndex])
      | _ => trivial
    rcases @migrate_steps host (signedBy alice) s' n List.Pairwise.nil hnames hclear hn with
      ⟨_, herror⟩ | ⟨hpos, _⟩
    · exact herror
    · exact absurd hzero (Nat.ne_of_gt hpos)

end Eden.MigrationProgress
