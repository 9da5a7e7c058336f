import Mathlib

/-!
Computations with fuel. A computation that runs out of fuel gives nothing, one that ends gives a
value or an error, and more fuel changes no result.
-/

namespace Eden.FueledRuns

variable {α β ε : Type}

/-- A computation with some fuel. -/
abbrev Run (ε α : Type) := ExceptT ε Option α

/-- A computation that has run out of fuel. -/
def outOfFuel : Run ε α := (none : Option (Except ε α))

/-- A computation that has ended. -/
def ended (r : Except ε α) : Run ε α := some r

theorem ended_inj {r r' : Except ε α} (h : ended r = ended r') : r = r' := Option.some.inj h

theorem outOfFuel_ne_ended {r : Except ε α} : (outOfFuel : Run ε α) ≠ ended r :=
  Option.some_ne_none r |>.symm

theorem pure_eq_ended (a : α) : (pure a : Run ε α) = ended (.ok a) := rfl

theorem throw_eq_ended (e : ε) : (throw e : Run ε α) = ended (.error e) := rfl

theorem run_cases (x : Run ε α) :
    x = outOfFuel ∨ (∃ e, x = ended (.error e)) ∨ ∃ a, x = ended (.ok a) := by
  cases x with
  | none => exact .inl rfl
  | some r =>
      cases r with
      | error e => exact .inr (.inl ⟨e, rfl⟩)
      | ok a => exact .inr (.inr ⟨a, rfl⟩)

@[simp] theorem outOfFuel_bind (f : α → Run ε β) : (outOfFuel >>= f) = outOfFuel := rfl

@[simp] theorem error_bind (e : ε) (f : α → Run ε β) :
    (ended (.error e) >>= f) = ended (.error e) := rfl

@[simp] theorem ok_bind (a : α) (f : α → Run ε β) : (ended (.ok a) >>= f) = f a := rfl

theorem bind_eq_ended {x : Run ε α} {f : α → Run ε β} {r : Except ε β} :
    (x >>= f) = ended r ↔
      (∃ e, x = ended (.error e) ∧ r = .error e) ∨ ∃ a, x = ended (.ok a) ∧ f a = ended r := by
  rcases run_cases x with rfl | ⟨e, rfl⟩ | ⟨a, rfl⟩
  · rw [outOfFuel_bind]
    refine iff_of_false outOfFuel_ne_ended ?_
    rintro (⟨e, he, -⟩ | ⟨a, ha, -⟩)
    · exact outOfFuel_ne_ended he
    · exact outOfFuel_ne_ended ha
  · rw [error_bind]
    constructor
    · exact fun h => .inl ⟨e, rfl, (ended_inj h).symm⟩
    · rintro (⟨e', he, rfl⟩ | ⟨a, ha, -⟩)
      · cases ended_inj he
        rfl
      · cases ended_inj ha
  · rw [ok_bind]
    constructor
    · exact fun h => .inr ⟨a, rfl, h⟩
    · rintro (⟨e, he, -⟩ | ⟨a', ha, h⟩)
      · cases ended_inj he
      · cases ended_inj ha
        exact h

theorem bind_eq_ok {x : Run ε α} {f : α → Run ε β} {b : β} :
    (x >>= f) = ended (.ok b) ↔ ∃ a, x = ended (.ok a) ∧ f a = ended (.ok b) := by
  rw [bind_eq_ended]
  refine or_iff_right ?_
  rintro ⟨e, -, he⟩
  cases he

/-! ### More fuel -/

/-- A computation that ends in the same way, or had too little fuel. -/
def Extends (x y : Run ε α) : Prop := ∀ r, x = ended r → y = ended r

theorem Extends.refl (x : Run ε α) : Extends x x := fun _ h => h

theorem Extends.trans {x y z : Run ε α} (h : Extends x y) (h' : Extends y z) : Extends x z :=
  fun r hr => h' r (h r hr)

theorem extends_outOfFuel (x : Run ε α) : Extends outOfFuel x :=
  fun _ h => absurd h outOfFuel_ne_ended

theorem Extends.bind {x y : Run ε α} {f g : α → Run ε β} (h : Extends x y)
    (hf : ∀ a, Extends (f a) (g a)) : Extends (x >>= f) (y >>= g) := by
  intro r hr
  rcases bind_eq_ended.mp hr with ⟨e, he, rfl⟩ | ⟨a, ha, hr⟩
  · exact bind_eq_ended.mpr (.inl ⟨e, h _ he, rfl⟩)
  · exact bind_eq_ended.mpr (.inr ⟨a, h _ ha, hf a r hr⟩)

/-- A family of computations, each with more fuel than the one before. -/
def Stable (f : Nat → Run ε α) : Prop := ∀ n, Extends (f n) (f (n + 1))

theorem Stable.le {f : Nat → Run ε α} (h : Stable f) {n m : Nat} (hle : n ≤ m) :
    Extends (f n) (f m) := by
  induction hle with
  | refl => exact .refl _
  | step _ ih => exact ih.trans (h _)

/-- The computation ends with a result, given enough fuel. -/
def Returns (f : Nat → Run ε α) (r : Except ε α) : Prop := ∃ n, f n = ended r

/-- The result does not depend on the fuel. -/
theorem Stable.unique {f : Nat → Run ε α} (h : Stable f) {r r' : Except ε α} (hr : Returns f r)
    (hr' : Returns f r') : r = r' := by
  obtain ⟨n, hn⟩ := hr
  obtain ⟨m, hm⟩ := hr'
  have hlarge := h.le (le_max_left n m) r hn
  have hlarge' := h.le (le_max_right n m) r' hm
  exact ended_inj (hlarge.symm.trans hlarge')

/-- A step that takes one unit of fuel. -/
theorem returns_succ {f g : Nat → Run ε α} (hzero : f 0 = outOfFuel)
    (hsucc : ∀ n, f (n + 1) = g n) {r : Except ε α} : Returns f r ↔ Returns g r := by
  constructor
  · rintro ⟨n, hn⟩
    cases n with
    | zero => exact absurd (hzero.symm.trans hn) outOfFuel_ne_ended
    | succ n => exact ⟨n, (hsucc n).symm.trans hn⟩
  · rintro ⟨n, hn⟩
    exact ⟨n + 1, (hsucc n).trans hn⟩

theorem returns_const {x : Run ε α} {r : Except ε α} : Returns (fun _ => x) r ↔ x = ended r :=
  ⟨fun ⟨_, h⟩ => h, fun h => ⟨0, h⟩⟩

theorem stable_const (x : Run ε α) : Stable fun _ => x := fun _ => .refl x

theorem Stable.bind {f : Nat → Run ε α} {g : Nat → α → Run ε β} (hf : Stable f)
    (hg : ∀ a, Stable fun n => g n a) : Stable fun n => f n >>= g n :=
  fun n => (hf n).bind fun a => hg a n

theorem Stable.bind_const {f : Nat → Run ε α} {k : α → Run ε β} (hf : Stable f) :
    Stable fun n => f n >>= k := hf.bind fun a => stable_const (k a)

/-- A sequence of two computations ends when the first one fails, or both end. -/
theorem returns_bind {f : Nat → Run ε α} {g : Nat → α → Run ε β} (hf : Stable f)
    (hg : ∀ a, Stable fun n => g n a) {r : Except ε β} :
    Returns (fun n => f n >>= g n) r ↔
      (∃ e, Returns f (.error e) ∧ r = .error e) ∨
        ∃ a, Returns f (.ok a) ∧ Returns (fun n => g n a) r := by
  constructor
  · rintro ⟨n, hn⟩
    rcases bind_eq_ended.mp hn with ⟨e, he, rfl⟩ | ⟨a, ha, hr⟩
    · exact .inl ⟨e, ⟨n, he⟩, rfl⟩
    · exact .inr ⟨a, ⟨n, ha⟩, ⟨n, hr⟩⟩
  · rintro (⟨e, ⟨n, hn⟩, rfl⟩ | ⟨a, ⟨n, hn⟩, ⟨m, hm⟩⟩)
    · exact ⟨n, bind_eq_ended.mpr (.inl ⟨e, hn, rfl⟩)⟩
    · refine ⟨max n m, bind_eq_ended.mpr (.inr ⟨a, ?_, ?_⟩)⟩
      · exact hf.le (le_max_left n m) _ hn
      · exact (hg a).le (le_max_right n m) _ hm

theorem Returns.bind_const {f : Nat → Run ε α} {k : α → Run ε β} {a : α} (ha : Returns f (.ok a))
    {r : Except ε β} (hr : k a = ended r) : Returns (fun n => f n >>= k) r := by
  obtain ⟨n, hn⟩ := ha
  exact ⟨n, bind_eq_ended.mpr (.inr ⟨a, hn, hr⟩)⟩

theorem Stable.returns_ok_bind {f : Nat → Run ε α} {g : Nat → α → Run ε β} (hf : Stable f)
    (hg : ∀ a, Stable fun n => g n a) {a : α} (ha : Returns f (.ok a)) {r : Except ε β}
    (hr : Returns (fun n => g n a) r) : Returns (fun n => f n >>= g n) r :=
  (returns_bind hf hg).mpr (.inr ⟨a, ha, hr⟩)

/-! ### Computations that end -/

/-- With enough fuel the computation ends, with a value or an allowed error. -/
def Ends (allowed : ε → Prop) (f : Nat → Run ε α) : Prop :=
  ∃ r, Returns f r ∧ ∀ e, r = .error e → allowed e

variable {allowed : ε → Prop}

theorem Ends.of_ok {f : Nat → Run ε α} {a : α} (h : Returns f (.ok a)) : Ends allowed f :=
  ⟨_, h, fun _ he => nomatch he⟩

theorem Ends.of_error {f : Nat → Run ε α} {e : ε} (h : Returns f (.error e)) (he : allowed e) :
    Ends allowed f := by
  refine ⟨_, h, ?_⟩
  intro e' heq
  cases heq
  exact he

theorem ends_pure (a : α) : Ends allowed fun _ => (ended (.ok a) : Run ε α) :=
  .of_ok (returns_const.mpr rfl)

theorem ends_succ {f g : Nat → Run ε α} (hzero : f 0 = outOfFuel)
    (hsucc : ∀ n, f (n + 1) = g n) : Ends allowed f ↔ Ends allowed g :=
  exists_congr fun _ => and_congr_left fun _ => returns_succ hzero hsucc

/-- A sequence ends when its first part does, and its second part after every value of the first. -/
theorem ends_bind {f : Nat → Run ε α} {g : Nat → α → Run ε β} (hf : Stable f)
    (hg : ∀ a, Stable fun n => g n a) :
    Ends allowed (fun n => f n >>= g n) ↔
      Ends allowed f ∧ ∀ a, Returns f (.ok a) → Ends allowed fun n => g n a := by
  constructor
  · rintro ⟨r, hr, hallowed⟩
    rcases (returns_bind hf hg).mp hr with ⟨e, he, rfl⟩ | ⟨a, ha, hrest⟩
    · refine ⟨.of_error he (hallowed e rfl), ?_⟩
      intro a ha
      cases hf.unique he ha
    · refine ⟨.of_ok ha, ?_⟩
      intro a' ha'
      cases hf.unique ha ha'
      exact ⟨r, hrest, hallowed⟩
  · rintro ⟨⟨r, hr, hallowed⟩, hrest⟩
    cases r with
    | error e =>
        exact .of_error ((returns_bind hf hg).mpr (.inl ⟨e, hr, rfl⟩)) (hallowed e rfl)
    | ok a =>
        obtain ⟨r, hr', hallowed'⟩ := hrest a hr
        exact ⟨r, (returns_bind hf hg).mpr (.inr ⟨a, hr, hr'⟩), hallowed'⟩

theorem Ends.bind_const {f : Nat → Run ε α} {k : α → Run ε β} (h : Ends allowed f)
    (hk : ∀ a, Ends allowed fun _ => k a) : Ends allowed fun n => f n >>= k := by
  obtain ⟨r, ⟨n, hn⟩, hallowed⟩ := h
  cases r with
  | error e => exact .of_error ⟨n, bind_eq_ended.mpr (.inl ⟨e, hn, rfl⟩)⟩ (hallowed e rfl)
  | ok a =>
      obtain ⟨r, hr, hallowed'⟩ := hk a
      exact ⟨r, ⟨n, bind_eq_ended.mpr (.inr ⟨a, hn, returns_const.mp hr⟩)⟩, hallowed'⟩

/-- What always ends does not matter at the end of a sequence. -/
theorem ends_bind_const {f : Nat → Run ε α} {k : α → Run ε β}
    (hk : ∀ a, Ends allowed fun _ => k a) : Ends allowed (fun n => f n >>= k) ↔ Ends allowed f := by
  refine ⟨?_, fun h => h.bind_const hk⟩
  rintro ⟨r, ⟨n, hn⟩, hallowed⟩
  rcases bind_eq_ended.mp hn with ⟨e, he, rfl⟩ | ⟨a, ha, -⟩
  · exact .of_error ⟨n, he⟩ (hallowed e rfl)
  · exact .of_ok ⟨n, ha⟩

theorem Ends.const_bind {x : Run ε α} {g : Nat → α → Run ε β} (h : Ends allowed fun _ => x)
    (hg : ∀ a, x = ended (.ok a) → Ends allowed fun n => g n a) :
    Ends allowed fun n => x >>= g n := by
  obtain ⟨r, hr, hallowed⟩ := h
  cases r with
  | error e =>
      have hx := returns_const.mp hr
      exact .of_error ⟨0, bind_eq_ended.mpr (.inl ⟨e, hx, rfl⟩)⟩ (hallowed e rfl)
  | ok a =>
      have hx := returns_const.mp hr
      simp only [hx, ok_bind]
      exact hg a hx

/-- A sequence of computations without fuel ends. -/
theorem ended_bind {x : Run ε α} {f : α → Run ε β} (hx : ∃ r, x = ended r)
    (hf : ∀ a, ∃ r, f a = ended r) : ∃ r, (x >>= f) = ended r := by
  obtain ⟨r, rfl⟩ := hx
  cases r with
  | error e => exact ⟨_, rfl⟩
  | ok a => exact hf a

end Eden.FueledRuns
