import Eden.QuerySelections

/-!
When queries end. Every loop over tokens ends, except for the one that skips a selection set: it
never gets past an error token.
-/

namespace Eden.QueryTermination

open Eden.ChainPrimitives
open Eden.FueledRuns
open Eden.QueryTokens
open Eden.QueryEvaluation
open Eden.QuerySelections

variable {s t u : GqlStream}

/-! ### Tokens that are left -/

theorem weight_le_of_balanced (h : Balanced s t) : t.weight ≤ s.weight := by
  induction h with
  | refl => exact le_refl _
  | token _ _ _ _ ih => exact ih.trans (GqlStream.weight_skip_le _)
  | braces _ _ _ _ ihinner ihrest =>
      exact ((ihrest.trans (GqlStream.weight_skip_le _)).trans ihinner).trans
        (GqlStream.weight_skip_le _)

theorem weight_skip_lt_of_punctuator {c : Char} (h : s.currentPunctuator = some c) :
    s.skip.weight < s.weight := by
  have htype := type_of_punctuator h
  exact GqlStream.weight_skip_lt (GqlStream.weight_pos (by simp [htype]) (by simp [htype]))

theorem weight_skip_lt_of_name (h : s.currentType = .name) : s.skip.weight < s.weight :=
  GqlStream.weight_skip_lt (GqlStream.weight_pos (by simp [h]) (by simp [h]))

/-! ### Errors inside selection sets -/

/-- A token inside a selection set, seen from a position in the set. -/
inductive Inside : GqlStream → GqlStream → Prop
  | here (s : GqlStream) : Inside s s
  | token {s u : GqlStream} (heof : s.currentType ≠ .eof)
      (hopening : s.currentPunctuator ≠ some '{') (hclosing : s.currentPunctuator ≠ some '}')
      (hrest : Inside s.skip u) : Inside s u
  | inner {s u : GqlStream} (hopening : s.currentPunctuator = some '{')
      (hrest : Inside s.skip u) : Inside s u
  | past {s v u : GqlStream} (hopening : s.currentPunctuator = some '{')
      (hinner : Balanced s.skip v) (hclosing : v.currentPunctuator = some '}')
      (hrest : Inside v.skip u) : Inside s u

/-- The selection set at this position has an error token in it. -/
def ErrorInside (s : GqlStream) : Prop :=
  s.currentPunctuator = some '{' ∧ ∃ u, Inside s.skip u ∧ u.currentType = .error

theorem skipLoop_error (h : s.currentType = .error) (n : Nat) : skipLoop n s = outOfFuel := by
  have hnone := GqlStream.punctuator_eq_none (s := s) (by simp [h])
  have hskip : s.skip = s := by rw [GqlStream.skip, if_pos h]
  induction n with
  | zero => rfl
  | succ n ih =>
      rw [skipLoop_token n (by simp [h]) (by simp [hnone]) (by simp [hnone]), hskip]
      exact ih

/-- The loop never gets past an error token. -/
theorem skipLoop_stuck (h : Inside s u) (herror : u.currentType = .error) (n : Nat) :
    skipLoop n s = outOfFuel := by
  induction h generalizing n with
  | here => exact skipLoop_error herror n
  | token heof hopening hclosing _ ih =>
      cases n with
      | zero => rfl
      | succ n =>
          rw [skipLoop_token n heof hopening hclosing]
          exact ih herror n
  | inner hopening _ ih =>
      cases n with
      | zero => rfl
      | succ n =>
          rw [skipLoop_opening n hopening, ih herror n, outOfFuel_bind]
  | @past s v u hopening hinner hclosing _ ih =>
      cases n with
      | zero => rfl
      | succ n =>
          rw [skipLoop_opening n hopening]
          rcases run_cases (skipLoop n s.skip) with hnone | ⟨e, he⟩ | ⟨t, ht⟩
          · rw [hnone, outOfFuel_bind]
          · have hreturns := hinner.returns_skipLoop (returns_skipLoop_closing hclosing)
            cases (skipLoop_stable s.skip).unique ⟨n, he⟩ hreturns
          · have hreturns := hinner.returns_skipLoop (returns_skipLoop_closing hclosing)
            cases (skipLoop_stable s.skip).unique ⟨n, ht⟩ hreturns
            rw [ht, ok_bind]
            exact ih herror n

/-- Errors that are reported. -/
def Reported (e : Failure) : Prop := e ≠ .abort

theorem not_ends_outOfFuel {α : Type} {allowed : Failure → Prop} {f : Nat → Eval α}
    (h : ∀ n, f n = outOfFuel) : ¬ Ends allowed f := by
  rintro ⟨r, ⟨n, hn⟩, -⟩
  exact outOfFuel_ne_ended ((h n).symm.trans hn)

theorem ends_fail {α : Type} (message : String) :
    Ends Reported fun _ => (fail message : Eval α) :=
  .of_error (returns_const.mpr rfl) (by simp [Reported])

/-- The loop ends when there is no error token in front of it. -/
theorem skipLoop_ends (h : ∀ u, Inside s u → u.currentType ≠ .error) :
    Ends Reported fun n => skipLoop n s := by
  induction hweight : s.weight using Nat.strong_induction_on generalizing s with
  | h w ih =>
      subst hweight
      rcases token_cases s with heof | hopening | hclosing | ⟨heof, hopening, hclosing⟩
      · exact (ends_succ rfl fun n => skipLoop_eof n heof).mpr (ends_fail _)
      · have hlt := weight_skip_lt_of_punctuator hopening
        refine (ends_succ rfl fun n => skipLoop_opening n hopening).mpr ?_
        refine (ends_bind (skipLoop_stable _) skipLoop_stable).mpr ⟨?_, ?_⟩
        · exact ih _ hlt (fun u hu => h u (.inner hopening hu)) rfl
        · rintro t ⟨n, hn⟩
          rcases balanced_of_skipLoop hn with ⟨v, hinner, hclosing, rfl⟩
          have hle := (GqlStream.weight_skip_le v).trans (weight_le_of_balanced hinner)
          exact ih _ (hle.trans_lt hlt) (fun u hu => h u (.past hopening hinner hclosing hu)) rfl
      · exact .of_ok (returns_skipLoop_closing hclosing)
      · have hlt := GqlStream.weight_skip_lt (GqlStream.weight_pos heof (h s (.here s)))
        refine (ends_succ rfl fun n => skipLoop_token n heof hopening hclosing).mpr ?_
        exact ih _ hlt (fun u hu => h u (.token heof hopening hclosing hu)) rfl

/-- `gql_skip_selection_set` ends unless there is an error token in the set. -/
theorem skipSelectionSet_ends_iff :
    Ends Reported (fun n => gqlSkipSelectionSet n s) ↔ ¬ ErrorInside s := by
  unfold gqlSkipSelectionSet ErrorInside
  by_cases hopening : s.currentPunctuator = some '{'
  · simp only [hopening, true_and]
    constructor
    · rintro hends ⟨u, hu, herror⟩
      exact not_ends_outOfFuel (skipLoop_stuck hu herror) hends
    · intro h
      exact skipLoop_ends fun u hu herror => h ⟨u, hu, herror⟩
  · simp only [hopening, false_and, not_false_eq_true, iff_true]
    exact ends_pure _

/-! ### More fuel -/

theorem args_stable (args : List (Param × Option Arg)) (s : GqlStream) :
    Stable fun n => gqlArgs n args s := by
  intro n
  induction n generalizing args s with
  | zero => exact extends_outOfFuel _
  | succ n ih =>
      simp only [gqlArgs]
      split
      · refine (Extends.refl _).bind ?_
        rintro (_ | ⟨args', s'⟩)
        · exact .refl _
        · exact ih args' s'
      · exact .refl _

theorem argList_stable (params : List Param) (s : GqlStream) :
    Stable fun n => gqlArgList n params s := by
  unfold gqlArgList
  refine Stable.bind ?_ fun _ => stable_const _
  split
  · split
    · exact stable_const _
    · exact args_stable _ _
  · exact stable_const _

variable {ω : Type} {data : Data ω}

theorem member_stable (members : List (Member ω)) (fieldName : Text) (s : GqlStream) :
    Stable fun n => gqlMember n members fieldName s := by
  unfold gqlMember
  split
  · exact stable_const _
  · exact stable_const _
  · exact (argList_stable _ _).bind fun _ => stable_const _

theorem field_stable (members : List (Member ω)) (s : GqlStream) :
    Stable fun n => gqlField n members s :=
  Stable.bind (stable_const _) fun _ => (member_stable _ _ _).bind fun _ => stable_const _

theorem elements_extends {query query' : Value ω → Eval Text}
    (h : ∀ v, Extends (query v) (query' v)) (first : Bool) (values : List (Value ω)) :
    Extends (gqlElements query first values) (gqlElements query' first values) := by
  induction values generalizing first with
  | nil => exact .refl _
  | cons v values ih => exact (h v).bind fun _ => (ih false).bind fun _ => .refl _

theorem query_extends (n : Nat) :
    (∀ v s, Extends (gqlQuery data n v s) (gqlQuery data (n + 1) v s)) ∧
      ∀ o first s, Extends (gqlFields data n o first s) (gqlFields data (n + 1) o first s) := by
  induction n with
  | zero =>
      constructor
      · intro v s
        rw [gqlQuery]
        exact extends_outOfFuel _
      · intro o first s
        rw [gqlFields]
        exact extends_outOfFuel _
  | succ n ih =>
      constructor
      · intro v s
        cases v with
        | scalar json =>
            rw [gqlQuery, gqlQuery]
            exact .refl _
        | null =>
            rw [gqlQuery, gqlQuery]
            exact (skipSelectionSet_stable s n).bind fun _ => .refl _
        | object o =>
            rw [gqlQuery, gqlQuery]
            split
            · exact .refl _
            · exact (ih.2 o true s.skip).bind fun _ => .refl _
        | list values =>
            rw [gqlQuery, gqlQuery]
            refine (elements_extends ?_ true values).bind fun _ => ?_
            · exact fun v => (ih.1 v s).bind fun _ => .refl _
            · exact (skipSelectionSet_stable s n).bind fun _ => .refl _
      · intro o first s
        rw [gqlFields, gqlFields]
        split
        · refine (field_stable _ s n).bind fun r => ?_
          exact (ih.1 _ _).bind fun _ => (ih.2 _ _ _).bind fun _ => .refl _
        · exact .refl _

theorem query_stable (v : Value ω) (s : GqlStream) : Stable fun n => gqlQuery data n v s :=
  fun n => (query_extends n).1 v s

theorem fields_stable (o : ω) (first : Bool) (s : GqlStream) :
    Stable fun n => gqlFields data n o first s := fun n => (query_extends n).2 o first s

/-! ### Steps of the evaluation -/

theorem query_zero (v : Value ω) : gqlQuery data 0 v s = outOfFuel := by
  rw [gqlQuery]

theorem fields_zero (o : ω) (first : Bool) : gqlFields data 0 o first s = outOfFuel := by
  rw [gqlFields]

theorem query_scalar (n : Nat) (json : Text) :
    gqlQuery data (n + 1) (.scalar json) s = ended (.ok (s, json)) := by
  rw [gqlQuery]
  rfl

theorem query_null (n : Nat) :
    gqlQuery data (n + 1) .null s =
      gqlSkipSelectionSet n s >>= fun t => ended (.ok (t, ['n', 'u', 'l', 'l'])) := by
  rw [gqlQuery]
  rfl

/-- The JSON of an element, read from a copy of the stream. -/
def queryElement (data : Data ω) (s : GqlStream) (n : Nat) (v : Value ω) : Eval Text :=
  gqlQuery data n v s >>= fun r => ended (.ok r.2)

theorem query_list (n : Nat) (values : List (Value ω)) :
    gqlQuery data (n + 1) (.list values) s =
      gqlElements (queryElement data s n) true values >>= fun json =>
        gqlSkipSelectionSet n s >>= fun t => ended (.ok (t, '[' :: json ++ [']'])) := by
  rw [gqlQuery]
  rfl

/-- The end of an object. -/
def closeObject (r : GqlStream × Text) : Eval (GqlStream × Text) :=
  if r.1.currentPunctuator ≠ some '}' then fail "expected \x7d"
  else ended (.ok (r.1.skip, '{' :: r.2 ++ ['}']))

theorem query_object (n : Nat) (o : ω) (h : s.currentPunctuator = some '{') :
    gqlQuery data (n + 1) (.object o) s = gqlFields data n o true s.skip >>= closeObject := by
  rw [gqlQuery, if_neg (not_not.mpr h)]
  rfl

theorem query_object_error (n : Nat) (o : ω) (h : s.currentPunctuator ≠ some '{') :
    gqlQuery data (n + 1) (.object o) s = fail "expected \x7b" := by
  rw [gqlQuery, if_pos h]

/-- What is written for a field. -/
def fieldText (first : Bool) (label json : Text) : Text :=
  (if first then [] else [',']) ++ '"' :: label ++ ['"', ':'] ++ json

theorem fields_name (n : Nat) (o : ω) (first : Bool) (h : s.currentType = .name) :
    gqlFields data (n + 1) o first s =
      gqlField n (data o) s >>= fun r =>
        gqlQuery data n r.1.2 r.2 >>= fun q =>
          gqlFields data n o false q.1 >>= fun last =>
            ended (.ok (last.1, fieldText first r.1.1 q.2 ++ last.2)) := by
  rw [gqlFields, if_pos h]
  rfl

theorem fields_done (n : Nat) (o : ω) (first : Bool) (h : s.currentType ≠ .name) :
    gqlFields data (n + 1) o first s = ended (.ok (s, [])) := by
  rw [gqlFields, if_neg h]
  rfl

theorem queryElement_stable (v : Value ω) : Stable fun n => queryElement data s n v :=
  (query_stable v s).bind fun _ => stable_const _

theorem elements_stable (first : Bool) (values : List (Value ω)) :
    Stable fun n => gqlElements (queryElement data s n) first values :=
  fun n => elements_extends (fun v => queryElement_stable v n) first values

/-! ### Arguments -/

theorem parseArg_ended (s : GqlStream) (type : ParamType) : ∃ r, gqlParseArg s type = ended r := by
  cases type with
  | string =>
      rw [gqlParseArg]
      split <;> exact ⟨_, rfl⟩
  | boolean =>
      rw [gqlParseArg]
      split
      · exact ⟨_, rfl⟩
      · split <;> exact ⟨_, rfl⟩
  | number fromChars =>
      rw [gqlParseArg]
      split
      · split <;> exact ⟨_, rfl⟩
      · exact ⟨_, rfl⟩
  | converted accepts =>
      rw [gqlParseArg]
      split
      · split <;> exact ⟨_, rfl⟩
      · exact ⟨_, rfl⟩

theorem parseValue_ended (param : Param) (s : GqlStream) :
    ∃ r, gqlParseValue param s = ended r := by
  unfold gqlParseValue
  split
  · exact ⟨_, rfl⟩
  · exact parseArg_ended s param.type

theorem parseArgs_ended (args : List (Param × Option Arg)) (s : GqlStream) :
    ∃ r, gqlParseArgs args s = ended r := by
  induction args with
  | nil => exact ⟨_, rfl⟩
  | cons head rest ih =>
      obtain ⟨param, arg⟩ := head
      rw [gqlParseArgs]
      split
      · exact ended_bind ih fun _ => ⟨_, rfl⟩
      · split
        · exact ⟨_, rfl⟩
        · split
          · exact ⟨_, rfl⟩
          · exact ended_bind (parseValue_ended _ _) fun _ => ⟨_, rfl⟩

theorem fillArgs_ended (args : List (Param × Option Arg)) : ∃ r, fillArgs args = ended r := by
  induction args with
  | nil => exact ⟨_, rfl⟩
  | cons head rest ih =>
      obtain ⟨param, arg⟩ := head
      have hrest : ∀ value, ∃ r, (fillArgs rest >>= fun later =>
          (ended (.ok (value :: later)) : Eval (List Arg))) = ended r :=
        fun value => ended_bind ih fun _ => ⟨_, rfl⟩
      cases arg with
      | some value => exact hrest value
      | none =>
          refine ended_bind (x := if param.optional then ended (.ok .null) else fail _) ?_ hrest
          split <;> exact ⟨_, rfl⟩

/-- A computation without fuel that ends in some way. -/
theorem ends_of_ended {α : Type} {x : Eval α} (h : ∃ r, x = ended r) :
    Ends (fun _ => True) fun _ => x := by
  obtain ⟨r, hr⟩ := h
  exact ⟨r, returns_const.mpr hr, fun _ _ => trivial⟩

/-- Every argument takes a token, and so the loop over them ends. -/
theorem args_ends (args : List (Param × Option Arg)) (s : GqlStream) :
    Ends (fun _ => True) fun n => gqlArgs n args s := by
  induction hweight : s.weight using Nat.strong_induction_on generalizing args s with
  | h w ih =>
      subst hweight
      refine (ends_succ rfl fun n => gqlArgs.eq_2 args s n).mpr ?_
      by_cases hname : s.currentType = .name
      · simp only [if_pos hname]
        refine .const_bind (ends_of_ended (parseArgs_ended _ _)) ?_
        rintro (_ | ⟨args', s'⟩) hfilled
        · exact ends_of_ended ⟨_, rfl⟩
        · have hle := weight_le_of_balanced (parseArgs_balanced hfilled)
          exact ih _ (hle.trans_lt (weight_skip_lt_of_name hname)) _ _ rfl
      · simp only [if_neg hname]
        split
        · exact ends_of_ended ⟨_, rfl⟩
        · exact ends_of_ended ⟨_, rfl⟩

theorem argList_ends (params : List Param) (s : GqlStream) :
    Ends (fun _ => True) fun n => gqlArgList n params s := by
  unfold gqlArgList
  refine .bind_const ?_ fun r => ends_of_ended (ended_bind (fillArgs_ended _) fun _ => ⟨_, rfl⟩)
  split
  · split
    · exact ends_of_ended ⟨_, rfl⟩
    · exact args_ends _ _
  · exact ends_of_ended ⟨_, rfl⟩

theorem member_ends (members : List (Member ω)) (fieldName : Text) (s : GqlStream) :
    Ends (fun _ => True) fun n => gqlMember n members fieldName s := by
  unfold gqlMember
  split
  · exact ends_of_ended ⟨_, rfl⟩
  · exact ends_of_ended ⟨_, rfl⟩
  · exact (argList_ends _ _).bind_const fun _ => ends_of_ended ⟨_, rfl⟩

theorem fieldName_ended (s : GqlStream) : ∃ r, gqlFieldName s = ended r := by
  unfold gqlFieldName
  split
  · split <;> exact ⟨_, rfl⟩
  · exact ⟨_, rfl⟩

theorem field_ends (members : List (Member ω)) (s : GqlStream) :
    Ends (fun _ => True) fun n => gqlField n members s :=
  .const_bind (ends_of_ended (fieldName_ended s)) fun _ _ =>
    (member_ends _ _ _).bind_const fun _ => ends_of_ended ⟨_, rfl⟩

/-! ### Evaluations that end -/

theorem ends_null_iff : Ends Reported (fun n => gqlQuery data n .null s) ↔ ¬ ErrorInside s := by
  rw [ends_succ (query_zero _) query_null, ends_bind_const fun _ => ends_pure _]
  exact skipSelectionSet_ends_iff

theorem ends_list_iff (values : List (Value ω)) :
    Ends Reported (fun n => gqlQuery data n (.list values) s) ↔
      Ends Reported (fun n => gqlElements (queryElement data s n) true values) ∧
        ∀ json, Returns (fun n => gqlElements (queryElement data s n) true values) (.ok json) →
          ¬ ErrorInside s := by
  rw [ends_succ (query_zero _) fun n => query_list n values]
  refine (ends_bind (elements_stable true values) fun _ =>
    (skipSelectionSet_stable s).bind_const).trans ?_
  refine and_congr_right fun _ => forall₂_congr fun json _ => ?_
  rw [ends_bind_const fun _ => ends_pure _]
  exact skipSelectionSet_ends_iff

theorem returns_element {v : Value ω} {json : Text}
    (h : Returns (fun n => queryElement data s n v) (.ok json)) :
    ∃ t, Returns (fun n => gqlQuery data n v s) (.ok (t, json)) := by
  obtain ⟨n, hn⟩ := h
  obtain ⟨⟨t, text⟩, ht, heq⟩ := bind_eq_ok.mp hn
  cases ended_inj heq
  exact ⟨t, n, ht⟩

theorem ends_cons_iff (first : Bool) (v : Value ω) (values : List (Value ω)) :
    Ends Reported (fun n => gqlElements (queryElement data s n) first (v :: values)) ↔
      Ends Reported (fun n => gqlQuery data n v s) ∧
        ∀ json, Returns (fun n => queryElement data s n v) (.ok json) →
          Ends Reported fun n => gqlElements (queryElement data s n) false values := by
  refine (ends_bind (queryElement_stable v) fun _ =>
    (elements_stable false values).bind_const).trans ?_
  refine and_congr (ends_bind_const fun _ => ends_pure _) (forall₂_congr fun json _ => ?_)
  exact ends_bind_const fun _ => ends_pure _

theorem ends_closeObject (r : GqlStream × Text) : Ends Reported fun _ => closeObject r := by
  unfold closeObject
  split
  · exact ends_fail _
  · exact ends_pure _

theorem ends_object_iff (o : ω) (h : s.currentPunctuator = some '{') :
    Ends Reported (fun n => gqlQuery data n (.object o) s) ↔
      Ends Reported fun n => gqlFields data n o true s.skip := by
  rw [ends_succ (query_zero _) fun n => query_object n o h]
  exact ends_bind_const ends_closeObject

theorem ends_fields_iff (o : ω) (first : Bool) (h : s.currentType = .name) :
    Ends Reported (fun n => gqlFields data n o first s) ↔
      Ends Reported (fun n => gqlField n (data o) s) ∧
        ∀ r, Returns (fun n => gqlField n (data o) s) (.ok r) →
          Ends Reported (fun n => gqlQuery data n r.1.2 r.2) ∧
            ∀ q, Returns (fun n => gqlQuery data n r.1.2 r.2) (.ok q) →
              Ends Reported fun n => gqlFields data n o false q.1 := by
  rw [ends_succ (fields_zero o first) fun n => fields_name n o first h]
  refine (ends_bind (field_stable _ _) fun r => (query_stable _ _).bind fun q =>
    (fields_stable o false q.1).bind_const).trans ?_
  refine and_congr_right fun _ => forall₂_congr fun r _ => ?_
  refine (ends_bind (query_stable _ _) fun q => (fields_stable o false q.1).bind_const).trans ?_
  refine and_congr_right fun _ => forall₂_congr fun q _ => ?_
  exact ends_bind_const fun _ => ends_pure _

/-! ### Queries that fit -/

/-- A target that is evaluated with success. -/
def Evaluates (data : Data ω) : Target ω → GqlStream → GqlStream → Prop
  | .value v, s, t => ∃ json, Returns (fun n => gqlQuery data n v s) (.ok (t, json))
  | .elements values, s, _ => ∀ first, ∃ json,
      Returns (fun n => gqlElements (queryElement data s n) first values) (.ok json)
  | .fields o, s, t => ∀ first, ∃ json,
      Returns (fun n => gqlFields data n o first s) (.ok (t, json))

theorem evaluates_of_fits {target : Target ω} (h : Fits data target s t) :
    Evaluates data target s t := by
  induction h with
  | scalar json s => exact ⟨json, 1, query_scalar 0 json⟩
  | null hselection =>
      refine ⟨['n', 'u', 'l', 'l'], (returns_succ (query_zero _) query_null).mpr ?_⟩
      exact (returns_skipSelectionSet_iff.mpr hselection).bind_const rfl
  | @list values s t _ hselection ih =>
      obtain ⟨json, hjson⟩ := ih true
      refine ⟨'[' :: json ++ [']'], (returns_succ (query_zero _) fun n =>
        query_list n values).mpr ?_⟩
      refine (elements_stable true values).returns_ok_bind
        (fun _ => (skipSelectionSet_stable s).bind_const) hjson ?_
      exact (returns_skipSelectionSet_iff.mpr hselection).bind_const rfl
  | @object o s t hopening _ hclosing ih =>
      obtain ⟨json, hjson⟩ := ih true
      refine ⟨'{' :: json ++ ['}'], (returns_succ (query_zero _) fun n =>
        query_object n o hopening).mpr ?_⟩
      refine hjson.bind_const ?_
      rw [closeObject, if_neg (not_not.mpr hclosing)]
  | nil s => exact fun first => ⟨[], returns_const.mpr rfl⟩
  | @cons v values s t _ _ ihfirst ihrest =>
      intro first
      obtain ⟨json, hjson⟩ := ihfirst
      obtain ⟨rest, hrest⟩ := ihrest false
      refine ⟨(if first then [] else [',']) ++ json ++ rest, (queryElement_stable v).returns_ok_bind
        (fun _ => (elements_stable false values).bind_const) (hjson.bind_const rfl) ?_⟩
      exact hrest.bind_const rfl
  | done hend => exact fun first => ⟨[], 1, fields_done 0 _ first hend⟩
  | @field o label v s t u w hname hfield _ _ ihvalue ihrest =>
      intro first
      obtain ⟨json, hjson⟩ := ihvalue
      obtain ⟨rest, hrest⟩ := ihrest false
      refine ⟨fieldText first label json ++ rest, (returns_succ (fields_zero o first) fun n =>
        fields_name n o first hname).mpr ?_⟩
      refine (field_stable _ _).returns_ok_bind (fun r => (query_stable _ _).bind fun q =>
        (fields_stable o false q.1).bind_const) hfield ?_
      refine (query_stable v t).returns_ok_bind
        (fun q => (fields_stable o false q.1).bind_const) hjson ?_
      exact hrest.bind_const rfl

/-! ### Queries that derail -/

/-- The query comes to a selection set that is skipped and has an error token in it, or to an
argument whose text aborts. -/
inductive Derails (data : Data ω) : Target ω → GqlStream → Prop
  | null {s : GqlStream} (herror : ErrorInside s) : Derails data (.value .null) s
  | element {values : List (Value ω)} {s : GqlStream} (h : Derails data (.elements values) s) :
      Derails data (.value (.list values)) s
  | list {values : List (Value ω)} {s : GqlStream} (helements : Fits data (.elements values) s s)
      (herror : ErrorInside s) : Derails data (.value (.list values)) s
  | object {o : ω} {s : GqlStream} (hopening : s.currentPunctuator = some '{')
      (h : Derails data (.fields o) s.skip) : Derails data (.value (.object o)) s
  | first {v : Value ω} {values : List (Value ω)} {s : GqlStream}
      (h : Derails data (.value v) s) : Derails data (.elements (v :: values)) s
  | rest {v : Value ω} {values : List (Value ω)} {s t : GqlStream}
      (hfirst : Fits data (.value v) s t) (h : Derails data (.elements values) s) :
      Derails data (.elements (v :: values)) s
  | argument {o : ω} {s : GqlStream} (hname : s.currentType = .name)
      (hfield : Returns (fun n => gqlField n (data o) s) (.error .abort)) :
      Derails data (.fields o) s
  | field {o : ω} {label : Text} {v : Value ω} {s t : GqlStream} (hname : s.currentType = .name)
      (hfield : Returns (fun n => gqlField n (data o) s) (.ok ((label, v), t)))
      (h : Derails data (.value v) t) : Derails data (.fields o) s
  | next {o : ω} {label : Text} {v : Value ω} {s t u : GqlStream} (hname : s.currentType = .name)
      (hfield : Returns (fun n => gqlField n (data o) s) (.ok ((label, v), t)))
      (hvalue : Fits data (.value v) t u) (h : Derails data (.fields o) u) :
      Derails data (.fields o) s

/-- A target whose evaluation reports nothing and gives nothing. -/
def Hangs (data : Data ω) : Target ω → GqlStream → Prop
  | .value v, s => ¬ Ends Reported fun n => gqlQuery data n v s
  | .elements values, s => ∀ first,
      ¬ Ends Reported fun n => gqlElements (queryElement data s n) first values
  | .fields o, s => ∀ first, ¬ Ends Reported fun n => gqlFields data n o first s

theorem hangs_of_derails {target : Target ω} (h : Derails data target s) :
    Hangs data target s := by
  induction h with
  | null herror => exact fun hends => ends_null_iff.mp hends herror
  | element _ ih => exact fun hends => ih true ((ends_list_iff _).mp hends).1
  | list helements herror =>
      intro hends
      obtain ⟨json, hjson⟩ := evaluates_of_fits helements true
      exact ((ends_list_iff _).mp hends).2 json hjson herror
  | object hopening _ ih => exact fun hends => ih true ((ends_object_iff _ hopening).mp hends)
  | first _ ih => exact fun first hends => ih ((ends_cons_iff first _ _).mp hends).1
  | @rest v values s t hfirst _ ih =>
      intro first hends
      obtain ⟨json, hjson⟩ := evaluates_of_fits hfirst
      exact ih false (((ends_cons_iff first v values).mp hends).2 json (hjson.bind_const rfl))
  | argument hname hfield =>
      intro first hends
      obtain ⟨r, hr, hreported⟩ := ((ends_fields_iff _ first hname).mp hends).1
      cases (field_stable _ _).unique hfield hr
      exact hreported .abort rfl rfl
  | field hname hfield _ ih =>
      exact fun first hends => ih (((ends_fields_iff _ first hname).mp hends).2 _ hfield).1
  | next hname hfield hvalue _ ih =>
      intro first hends
      obtain ⟨json, hjson⟩ := evaluates_of_fits hvalue
      have hlater := (((ends_fields_iff _ first hname).mp hends).2 _ hfield).2 _ hjson
      exact ih false hlater

theorem fits_of_returns {v : Value ω} {json : Text}
    (h : Returns (fun n => gqlQuery data n v s) (.ok (t, json))) : Fits data (.value v) s t := by
  obtain ⟨n, hn⟩ := h
  exact (fits_of_query n).1 _ _ _ _ hn

theorem fits_of_elements {first : Bool} {values : List (Value ω)} {json : Text}
    (h : Returns (fun n => gqlElements (queryElement data s n) first values) (.ok json)) :
    Fits data (.elements values) s s := by
  obtain ⟨n, hn⟩ := h
  refine fits_elements ?_ hn
  intro v text hv
  obtain ⟨t, ht⟩ := returns_element ⟨n, hv⟩
  exact ⟨t, fits_of_returns ht⟩

theorem value_induction {P : Value ω → Prop} (scalar : ∀ json, P (.scalar json)) (null : P .null)
    (object : ∀ o, P (.object o)) (list : ∀ values, (∀ v ∈ values, P v) → P (.list values)) :
    ∀ v, P v
  | .scalar json => scalar json
  | .null => null
  | .object o => object o
  | .list values => list values fun v _ => value_induction scalar null object list v

theorem elements_end {values : List (Value ω)}
    (hvalues : ∀ v ∈ values, ¬ Derails data (.value v) s →
      Ends Reported fun n => gqlQuery data n v s)
    (h : ¬ Derails data (.elements values) s) (first : Bool) :
    Ends Reported fun n => gqlElements (queryElement data s n) first values := by
  induction values generalizing first with
  | nil => exact ends_pure _
  | cons v values ih =>
      refine (ends_cons_iff first v values).mpr ⟨?_, fun json hjson => ?_⟩
      · exact hvalues v List.mem_cons_self fun hv => h (.first hv)
      · obtain ⟨t, ht⟩ := returns_element hjson
        refine ih (fun v' hv' => hvalues v' (List.mem_cons_of_mem v hv')) ?_ false
        exact fun hrest => h (.rest (fits_of_returns ht) hrest)

/-- The loop over fields ends when values do that have fewer tokens left. -/
theorem fields_end {w : Nat}
    (hvalues : ∀ v (t : GqlStream), t.weight < w → ¬ Derails data (.value v) t →
      Ends Reported fun n => gqlQuery data n v t)
    {o : ω} (hlt : s.weight < w) (h : ¬ Derails data (.fields o) s) (first : Bool) :
    Ends Reported fun n => gqlFields data n o first s := by
  induction hweight : s.weight using Nat.strong_induction_on generalizing s first with
  | h k ih =>
      subst hweight
      by_cases hname : s.currentType = .name
      · refine (ends_fields_iff o first hname).mpr ⟨?_, ?_⟩
        · obtain ⟨r, hr, -⟩ := field_ends (data o) s
          refine ⟨r, hr, ?_⟩
          rintro e rfl rfl
          exact h (.argument hname hr)
        · rintro ⟨⟨label, v⟩, t⟩ hfield
          obtain ⟨n, hn⟩ := hfield
          have hle := weight_le_of_balanced (field_balanced hn)
          have hdrop : t.weight < s.weight := hle.trans_lt (weight_skip_lt_of_name hname)
          refine ⟨?_, ?_⟩
          · exact hvalues v t (hdrop.trans hlt) fun hv => h (.field hname ⟨n, hn⟩ hv)
          · rintro ⟨u, json⟩ hquery
            have hfits := fits_of_returns hquery
            have hrest := weight_le_of_balanced (Target.shape_balanced hfits.shape)
            have hless : u.weight < s.weight := hrest.trans_lt hdrop
            exact ih u.weight hless (hless.trans hlt)
              (fun hu => h (.next hname ⟨n, hn⟩ hfits hu)) false rfl
      · exact .of_ok ⟨1, fields_done 0 o first hname⟩

theorem query_ends {v : Value ω} (h : ¬ Derails data (.value v) s) :
    Ends Reported fun n => gqlQuery data n v s := by
  induction hweight : s.weight using Nat.strong_induction_on generalizing v s with
  | h w ih =>
      subst hweight
      induction v using value_induction with
      | scalar json => exact .of_ok ⟨1, query_scalar 0 json⟩
      | null => exact ends_null_iff.mpr fun herror => h (.null herror)
      | object o =>
          by_cases hopening : s.currentPunctuator = some '{'
          · refine (ends_object_iff o hopening).mpr ?_
            refine fields_end (fun v t hlt hv => ih t.weight hlt hv rfl)
              (weight_skip_lt_of_punctuator hopening) ?_ true
            exact fun hfields => h (.object hopening hfields)
          · exact (ends_succ (query_zero _) fun n => query_object_error n o hopening).mpr
              (ends_fail _)
      | list values ihvalues =>
          refine (ends_list_iff values).mpr ⟨?_, ?_⟩
          · exact elements_end ihvalues (fun helements => h (.element helements)) true
          · intro json hjson herror
            exact h (.list (fits_of_elements hjson) herror)

/-- The evaluation of a value ends unless the query derails. -/
theorem query_ends_iff (v : Value ω) (s : GqlStream) :
    Ends Reported (fun n => gqlQuery data n v s) ↔ ¬ Derails data (.value v) s :=
  ⟨fun hends hderails => hangs_of_derails hderails hends, query_ends⟩

/-! ### Replies -/

theorem operation_reported (s : GqlStream) :
    ∃ r, gqlOperation s = ended r ∧ ∀ e, r = .error e → Reported e := by
  have hfail : ∀ message : String, ∃ r, (fail message : Eval GqlStream) = ended r ∧
      ∀ e, r = .error e → Reported e := by
    intro message
    refine ⟨_, rfl, ?_⟩
    rintro e heq rfl
    cases heq
  have hreturn : ∀ s : GqlStream, ∃ r, (ended (.ok s) : Eval GqlStream) = ended r ∧
      ∀ e, r = .error e → Reported e := fun s => ⟨_, rfl, fun e heq => nomatch heq⟩
  unfold gqlOperation
  split
  · split
    · simp only
      generalize (if s.skip.currentType = .name then s.skip.skip else s.skip) = later
      split
      · exact hfail _
      · split
        · exact hfail _
        · exact hreturn _
    · split
      · exact hfail _
      · split
        · exact hfail _
        · split <;> exact hfail _
  · exact hreturn _

theorem ends_gqlEnd (s : GqlStream) : Ends Reported fun _ => gqlEnd s := by
  unfold gqlEnd
  split
  · exact ends_pure ()
  · split
    · exact ends_fail _
    · split
      · exact ends_fail _
      · split
        · exact ends_fail _
        · split <;> exact ends_fail _

/-- The whole query ends when the value that it selects from does. -/
theorem ends_queryRoot_iff (root : Value ω) (s : GqlStream) :
    Ends Reported (fun n => gqlQueryRoot data n root s) ↔
      ∀ t, gqlOperation s = ended (.ok t) → ¬ Derails data (.value root) t := by
  have hend : ∀ q : GqlStream × Text, Ends Reported fun _ =>
      (gqlEnd q.1 >>= fun _ => ended (.ok q.2) : Eval Text) :=
    fun q => (ends_gqlEnd q.1).bind_const fun _ => ends_pure _
  have hquery : ∀ t, Stable fun n => gqlQuery data n root t >>= fun q =>
      (gqlEnd q.1 >>= fun _ => ended (.ok q.2) : Eval Text) :=
    fun t => (query_stable root t).bind_const
  refine (ends_bind (stable_const _) hquery).trans ⟨?_, ?_⟩
  · rintro ⟨-, hends⟩ t ht
    exact (query_ends_iff root t).mp ((ends_bind_const hend).mp (hends t (returns_const.mpr ht)))
  · intro h
    obtain ⟨r, hr, hreported⟩ := operation_reported s
    refine ⟨⟨r, returns_const.mpr hr, hreported⟩, fun t ht => ?_⟩
    exact (ends_bind_const hend).mpr ((query_ends_iff root t).mpr (h t (returns_const.mp ht)))

theorem reply_of_outOfFuel {root : Value ω} {query : Text} {n : Nat}
    (h : gqlQueryRoot data n root (.start query) = outOfFuel) :
    gqlReply data root query [] n = outOfFuel := by
  rw [gqlReply, if_neg (not_not.mpr rfl), h]
  rfl

theorem reply_of_error {root : Value ω} {query : Text} {n : Nat} {message : String}
    (h : gqlQueryRoot data n root (.start query) = ended (.error (.error message))) :
    gqlReply data root query [] n = ended (.ok (.errors message)) := by
  rw [gqlReply, if_neg (not_not.mpr rfl), h]
  rfl

theorem reply_of_abort {root : Value ω} {query : Text} {n : Nat}
    (h : gqlQueryRoot data n root (.start query) = ended (.error .abort)) :
    gqlReply data root query [] n = ended (.error .abort) := by
  rw [gqlReply, if_neg (not_not.mpr rfl), h]
  rfl

theorem reply_of_ok {root : Value ω} {query json : Text} {n : Nat}
    (h : gqlQueryRoot data n root (.start query) = ended (.ok json)) :
    gqlReply data root query [] n = ended (.ok (.data json)) := by
  rw [gqlReply, if_neg (not_not.mpr rfl), h]
  rfl

theorem reply_iff_ends (root : Value ω) (query : Text) :
    (∃ reply, Returns (gqlReply data root query []) (.ok reply)) ↔
      Ends Reported fun n => gqlQueryRoot data n root (.start query) := by
  constructor
  · rintro ⟨reply, n, hn⟩
    rcases run_cases (gqlQueryRoot data n root (.start query)) with hnone | ⟨e, he⟩ | ⟨json, hjson⟩
    · rw [reply_of_outOfFuel hnone] at hn
      exact absurd hn outOfFuel_ne_ended
    · refine .of_error ⟨n, he⟩ ?_
      rintro rfl
      rw [reply_of_abort he] at hn
      cases ended_inj hn
    · exact .of_ok ⟨n, hjson⟩
  · rintro ⟨r, ⟨n, hn⟩, hreported⟩
    cases r with
    | error e =>
        cases e with
        | error message => exact ⟨.errors message, n, reply_of_error hn⟩
        | abort => exact absurd rfl (hreported .abort rfl)
    | ok json => exact ⟨.data json, n, reply_of_ok hn⟩

/-- A query is answered unless it derails. -/
theorem reply_iff (data : Data ω) (root : Value ω) (query given : Text) :
    (∃ reply, Returns (gqlReply data root query given) (.ok reply)) ↔
      (given = [] → ∀ s, gqlOperation (.start query) = ended (.ok s) →
        ¬ Derails data (.value root) s) := by
  by_cases hgiven : given = []
  · subst hgiven
    rw [reply_iff_ends, ends_queryRoot_iff]
    exact ⟨fun h _ => h, fun h => h rfl⟩
  · refine iff_of_true ⟨.errors "variables not supported; argument must be empty", 0, ?_⟩
      fun h => absurd h hgiven
    rw [gqlReply, if_pos hgiven]
    rfl

/-- An object whose only field is null. -/
def emptyField : Data Unit := fun _ => [.field ['a'] .null]

/-- The query `{a{;}}` has a character in it that starts no token. -/
def strayCharacter : Text := ['{', 'a', '{', ';', '}', '}']

theorem strayCharacter_not_answered :
    ¬ ∃ reply, Returns (gqlReply emptyField (.object ()) strayCharacter []) (.ok reply) := by
  rw [reply_iff_ends, ends_queryRoot_iff]
  intro h
  have herror : ErrorInside (GqlStream.start ['{', ';', '}', '}']) :=
    ⟨rfl, _, .here _, rfl⟩
  have hfield : Returns (fun n => gqlField n (emptyField ()) (GqlStream.start strayCharacter).skip)
      (.ok ((['a'], .null), .start ['{', ';', '}', '}'])) := ⟨0, rfl⟩
  exact h (.start strayCharacter) rfl (.object rfl (.field rfl hfield (.null herror)))

end Eden.QueryTermination
