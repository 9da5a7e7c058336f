import Eden.QueryEvaluation

/-!
Selection sets as a grammar. A value that is evaluated and a selection set that is skipped leave
the same tokens.
-/

namespace Eden.QuerySelections

open Eden.ChainPrimitives
open Eden.FueledRuns
open Eden.QueryTokens
open Eden.QueryEvaluation

/-! ### Balanced braces -/

/-- Tokens with balanced braces, from one position to another. -/
inductive Balanced : GqlStream → GqlStream → Prop
  | refl (s : GqlStream) : Balanced s s
  | token {s t : GqlStream} (heof : s.currentType ≠ .eof)
      (hopening : s.currentPunctuator ≠ some '{') (hclosing : s.currentPunctuator ≠ some '}')
      (hrest : Balanced s.skip t) : Balanced s t
  | braces {s u t : GqlStream} (hopening : s.currentPunctuator = some '{')
      (hinner : Balanced s.skip u) (hclosing : u.currentPunctuator = some '}')
      (hrest : Balanced u.skip t) : Balanced s t

/-- The tokens that `gql_skip_selection_set` reads: a selection set, or nothing. -/
def Selection (s t : GqlStream) : Prop :=
  if s.currentPunctuator = some '{' then
    ∃ u, Balanced s.skip u ∧ u.currentPunctuator = some '}' ∧ t = u.skip
  else t = s

variable {s t u : GqlStream}

theorem Balanced.trans (h : Balanced s t) (h' : Balanced t u) : Balanced s u := by
  induction h with
  | refl => exact h'
  | token heof hopening hclosing _ ih => exact .token heof hopening hclosing (ih h')
  | braces hopening hinner hclosing _ _ ih => exact .braces hopening hinner hclosing (ih h')

theorem Selection.balanced (h : Selection s t) : Balanced s t := by
  unfold Selection at h
  split at h
  · rename_i hopening
    rcases h with ⟨u, hinner, hclosing, rfl⟩
    exact .braces hopening hinner hclosing (.refl _)
  · subst h
    exact .refl _

theorem type_of_punctuator {c : Char} (h : s.currentPunctuator = some c) :
    s.currentType = .punctuator :=
  s.punctuator_type (by simp [h])

theorem ne_eof_of_punctuator {c : Char} (h : s.currentPunctuator = some c) :
    s.currentType ≠ .eof := by
  simp [type_of_punctuator h]

theorem balanced_skip_of_type (heof : s.currentType ≠ .eof)
    (htype : s.currentType ≠ .punctuator) : Balanced s s.skip := by
  have hnone := GqlStream.punctuator_eq_none htype
  exact .token heof (by simp [hnone]) (by simp [hnone]) (.refl _)

theorem balanced_skip_of_punctuator {c : Char} (h : s.currentPunctuator = some c)
    (hopening : c ≠ '{') (hclosing : c ≠ '}') : Balanced s s.skip :=
  .token (ne_eof_of_punctuator h) (by simpa [h] using hopening) (by simpa [h] using hclosing)
    (.refl _)

theorem balanced_skip_of_name (h : s.currentType = .name) : Balanced s s.skip :=
  balanced_skip_of_type (by simp [h]) (by simp [h])

/-! ### Skipping -/

theorem skipLoop_eof (n : Nat) (h : s.currentType = .eof) :
    skipLoop (n + 1) s = fail "expected \x7d" := by
  rw [skipLoop, if_pos h]

theorem skipLoop_opening (n : Nat) (h : s.currentPunctuator = some '{') :
    skipLoop (n + 1) s = skipLoop n s.skip >>= skipLoop n := by
  rw [skipLoop, if_neg (ne_eof_of_punctuator h), if_pos h]

theorem skipLoop_closing (n : Nat) (h : s.currentPunctuator = some '}') :
    skipLoop (n + 1) s = ended (.ok s.skip) := by
  rw [skipLoop, if_neg (ne_eof_of_punctuator h), if_neg (by simp [h]), if_pos h]
  rfl

theorem skipLoop_token (n : Nat) (heof : s.currentType ≠ .eof)
    (hopening : s.currentPunctuator ≠ some '{') (hclosing : s.currentPunctuator ≠ some '}') :
    skipLoop (n + 1) s = skipLoop n s.skip := by
  rw [skipLoop, if_neg heof, if_neg hopening, if_neg hclosing]

/-- The cases of a token inside a selection set. -/
theorem token_cases (s : GqlStream) :
    s.currentType = .eof ∨ s.currentPunctuator = some '{' ∨ s.currentPunctuator = some '}' ∨
      (s.currentType ≠ .eof ∧ s.currentPunctuator ≠ some '{' ∧ s.currentPunctuator ≠ some '}') := by
  tauto

theorem skipLoop_stable (s : GqlStream) : Stable fun n => skipLoop n s := by
  intro n
  induction n generalizing s with
  | zero => exact extends_outOfFuel _
  | succ n ih =>
      simp only
      rcases token_cases s with heof | hopening | hclosing | ⟨heof, hopening, hclosing⟩
      · rw [skipLoop_eof n heof, skipLoop_eof (n + 1) heof]
        exact .refl _
      · rw [skipLoop_opening n hopening, skipLoop_opening (n + 1) hopening]
        exact (ih _).bind ih
      · rw [skipLoop_closing n hclosing, skipLoop_closing (n + 1) hclosing]
        exact .refl _
      · rw [skipLoop_token n heof hopening hclosing, skipLoop_token (n + 1) heof hopening hclosing]
        exact ih _

/-- A run of the loop that succeeds has read balanced tokens up to a closing brace. -/
theorem balanced_of_skipLoop {n : Nat} (h : skipLoop n s = ended (.ok t)) :
    ∃ u, Balanced s u ∧ u.currentPunctuator = some '}' ∧ t = u.skip := by
  induction n generalizing s t with
  | zero => exact absurd h outOfFuel_ne_ended
  | succ n ih =>
      rcases token_cases s with heof | hopening | hclosing | ⟨heof, hopening, hclosing⟩
      · rw [skipLoop_eof n heof] at h
        cases ended_inj h
      · rw [skipLoop_opening n hopening] at h
        obtain ⟨inner, hinner, hrest⟩ := bind_eq_ok.mp h
        rcases ih hinner with ⟨v, hbalanced, hclosing, rfl⟩
        rcases ih hrest with ⟨u, hlater, hlast, rfl⟩
        exact ⟨u, .braces hopening hbalanced hclosing hlater, hlast, rfl⟩
      · rw [skipLoop_closing n hclosing] at h
        cases ended_inj h
        exact ⟨s, .refl _, hclosing, rfl⟩
      · rw [skipLoop_token n heof hopening hclosing] at h
        rcases ih h with ⟨u, hlater, hlast, rfl⟩
        exact ⟨u, .token heof hopening hclosing hlater, hlast, rfl⟩

theorem returns_skipLoop_closing (h : s.currentPunctuator = some '}') :
    Returns (fun n => skipLoop n s) (.ok s.skip) := ⟨1, skipLoop_closing 0 h⟩

/-- The loop passes over balanced tokens. -/
theorem Balanced.returns_skipLoop (h : Balanced s t) {r : Except Failure GqlStream}
    (ht : Returns (fun n => skipLoop n t) r) : Returns (fun n => skipLoop n s) r := by
  induction h generalizing r with
  | refl => exact ht
  | token heof hopening hclosing _ ih =>
      exact (returns_succ rfl fun n => skipLoop_token n heof hopening hclosing).mpr (ih ht)
  | braces hopening _ hclosing _ ihinner ihrest =>
      refine (returns_succ rfl fun n => skipLoop_opening n hopening).mpr ?_
      refine (returns_bind (skipLoop_stable _) skipLoop_stable).mpr (.inr ⟨_, ?_, ihrest ht⟩)
      exact ihinner (returns_skipLoop_closing hclosing)

theorem skipSelectionSet_stable (s : GqlStream) : Stable fun n => gqlSkipSelectionSet n s := by
  unfold gqlSkipSelectionSet
  split
  · exact skipLoop_stable _
  · exact stable_const _

theorem selection_of_skipSelectionSet {n : Nat} (h : gqlSkipSelectionSet n s = ended (.ok t)) :
    Selection s t := by
  unfold gqlSkipSelectionSet at h
  unfold Selection
  split
  · rename_i hopening
    rw [if_pos hopening] at h
    exact balanced_of_skipLoop h
  · rename_i hopening
    rw [if_neg hopening] at h
    cases ended_inj h
    rfl

/-- `gql_skip_selection_set` reads a selection set. -/
theorem returns_skipSelectionSet_iff :
    Returns (fun n => gqlSkipSelectionSet n s) (.ok t) ↔ Selection s t := by
  constructor
  · exact fun ⟨n, hn⟩ => selection_of_skipSelectionSet hn
  · intro h
    unfold Selection at h
    unfold gqlSkipSelectionSet
    split at h
    · rename_i hopening
      rcases h with ⟨u, hinner, hclosing, rfl⟩
      simp only [if_pos hopening]
      exact hinner.returns_skipLoop (returns_skipLoop_closing hclosing)
    · rename_i hopening
      subst h
      simp only [if_neg hopening]
      exact returns_const.mpr rfl

/-! ### Fields -/

theorem parseArg_balanced {type : ParamType} {arg : Arg}
    (h : gqlParseArg s type = ended (.ok (arg, t))) : Balanced s t := by
  cases type with
  | string =>
      rw [gqlParseArg] at h
      split at h
      · rename_i htype
        cases ended_inj h
        exact balanced_skip_of_type (by simp [htype]) (by simp [htype])
      · cases ended_inj h
  | boolean =>
      rw [gqlParseArg] at h
      split at h
      · rename_i hname
        cases ended_inj h
        exact balanced_skip_of_name hname.1
      · split at h
        · rename_i hname
          cases ended_inj h
          exact balanced_skip_of_name hname.1
        · cases ended_inj h
  | number fromChars =>
      rw [gqlParseArg] at h
      split at h
      · rename_i htype
        split at h
        · cases ended_inj h
          exact balanced_skip_of_type (by rintro heof; simp [heof] at htype)
            (by rintro hpunctuator; simp [hpunctuator] at htype)
        · cases ended_inj h
        · cases ended_inj h
      · cases ended_inj h
  | converted accepts =>
      rw [gqlParseArg] at h
      split at h
      · rename_i htype
        split at h
        · cases ended_inj h
          exact balanced_skip_of_type (by simp [htype]) (by simp [htype])
        · cases ended_inj h
      · cases ended_inj h

theorem parseValue_balanced {param : Param} {arg : Arg}
    (h : gqlParseValue param s = ended (.ok (arg, t))) : Balanced s t := by
  unfold gqlParseValue at h
  split at h
  · rename_i hnull
    cases ended_inj h
    exact balanced_skip_of_name hnull.2.1
  · exact parseArg_balanced h

theorem parseArgs_balanced {args args' : List (Param × Option Arg)}
    (h : gqlParseArgs args s = ended (.ok (some (args', t)))) : Balanced s.skip t := by
  induction args generalizing args' with
  | nil => cases ended_inj h
  | cons head rest ih =>
      obtain ⟨param, arg⟩ := head
      rw [gqlParseArgs] at h
      split at h
      · obtain ⟨filled, hfilled, heq⟩ := bind_eq_ok.mp h
        obtain ⟨⟨later, stream⟩, rfl, hpair⟩ :=
          Option.map_eq_some_iff.mp (Except.ok.inj (ended_inj heq))
        cases hpair
        exact ih hfilled
      · split at h
        · cases ended_inj h
        · rename_i hcolon
          rw [not_not] at hcolon
          split at h
          · cases ended_inj h
          · obtain ⟨⟨value, stream⟩, hvalue, heq⟩ := bind_eq_ok.mp h
            cases ended_inj heq
            exact (balanced_skip_of_punctuator hcolon (by decide) (by decide)).trans
              (parseValue_balanced hvalue)

theorem args_balanced {n : Nat} {args args' : List (Param × Option Arg)}
    (h : gqlArgs n args s = ended (.ok (args', t))) : Balanced s t := by
  induction n generalizing args s with
  | zero => exact absurd h outOfFuel_ne_ended
  | succ n ih =>
      rw [gqlArgs] at h
      split at h
      · rename_i hname
        obtain ⟨filled, hfilled, hrest⟩ := bind_eq_ok.mp h
        cases filled with
        | none => cases ended_inj hrest
        | some r =>
            exact ((balanced_skip_of_name hname).trans (parseArgs_balanced hfilled)).trans
              (ih hrest)
      · split at h
        · cases ended_inj h
        · rename_i hclosing
          rw [not_not] at hclosing
          cases ended_inj h
          exact balanced_skip_of_punctuator hclosing (by decide) (by decide)

theorem argList_balanced {n : Nat} {params : List Param} {args : List Arg}
    (h : gqlArgList n params s = ended (.ok (args, t))) : Balanced s t := by
  unfold gqlArgList at h
  obtain ⟨⟨given, stream⟩, hgiven, hrest⟩ := bind_eq_ok.mp h
  obtain ⟨values, -, heq⟩ := bind_eq_ok.mp hrest
  cases ended_inj heq
  split at hgiven
  · rename_i hopening
    split at hgiven
    · cases ended_inj hgiven
    · exact (balanced_skip_of_punctuator hopening (by decide) (by decide)).trans
        (args_balanced hgiven)
  · cases ended_inj hgiven
    exact .refl _

theorem fieldName_balanced {names : Text × Text}
    (h : gqlFieldName s = ended (.ok (names, t))) : Balanced s.skip t := by
  unfold gqlFieldName at h
  split at h
  · rename_i hcolon
    split at h
    · cases ended_inj h
    · rename_i hname
      rw [not_not] at hname
      cases ended_inj h
      exact (balanced_skip_of_punctuator hcolon (by decide) (by decide)).trans
        (balanced_skip_of_name hname)
  · cases ended_inj h
    exact .refl _

variable {ω : Type}

theorem member_balanced {n : Nat} {members : List (Member ω)} {fieldName : Text} {v : Value ω}
    (h : gqlMember n members fieldName s = ended (.ok (v, t))) : Balanced s t := by
  unfold gqlMember at h
  split at h
  · cases ended_inj h
  · cases ended_inj h
    exact .refl _
  · obtain ⟨⟨args, stream⟩, hargs, heq⟩ := bind_eq_ok.mp h
    cases ended_inj heq
    exact argList_balanced hargs

/-- What comes between the first name of a field and its selection set. -/
theorem field_balanced {n : Nat} {members : List (Member ω)} {field : Text × Value ω}
    (h : gqlField n members s = ended (.ok (field, t))) : Balanced s.skip t := by
  unfold gqlField at h
  obtain ⟨⟨names, stream⟩, hnames, hrest⟩ := bind_eq_ok.mp h
  obtain ⟨⟨value, later⟩, hvalue, heq⟩ := bind_eq_ok.mp hrest
  cases ended_inj heq
  exact (fieldName_balanced hnames).trans (member_balanced hvalue)

/-! ### Values -/

/-- What is read along a query. -/
inductive Target (ω : Type)
  | value (v : Value ω)
  | elements (values : List (Value ω))
  | fields (o : ω)

/-- The query from one position to another fits the data. All elements of a list read the same
selection set. -/
inductive Fits (data : Data ω) : Target ω → GqlStream → GqlStream → Prop
  | scalar (json : Text) (s : GqlStream) : Fits data (.value (.scalar json)) s s
  | null {s t : GqlStream} (hselection : Selection s t) : Fits data (.value .null) s t
  | list {values : List (Value ω)} {s t : GqlStream} (helements : Fits data (.elements values) s s)
      (hselection : Selection s t) : Fits data (.value (.list values)) s t
  | object {o : ω} {s t : GqlStream} (hopening : s.currentPunctuator = some '{')
      (hfields : Fits data (.fields o) s.skip t) (hclosing : t.currentPunctuator = some '}') :
      Fits data (.value (.object o)) s t.skip
  | nil (s : GqlStream) : Fits data (.elements []) s s
  | cons {v : Value ω} {values : List (Value ω)} {s t : GqlStream}
      (hfirst : Fits data (.value v) s t) (hrest : Fits data (.elements values) s s) :
      Fits data (.elements (v :: values)) s s
  | done {o : ω} {s : GqlStream} (hend : s.currentType ≠ .name) : Fits data (.fields o) s s
  | field {o : ω} {label : Text} {v : Value ω} {s t u w : GqlStream} (hname : s.currentType = .name)
      (hfield : Returns (fun n => gqlField n (data o) s) (.ok ((label, v), t)))
      (hvalue : Fits data (.value v) t u) (hrest : Fits data (.fields o) u w) :
      Fits data (.fields o) s w

variable {data : Data ω}

theorem fits_elements {query : Value ω → Eval Text}
    (hquery : ∀ v json, query v = ended (.ok json) → ∃ t, Fits data (.value v) s t) {first : Bool}
    {values : List (Value ω)} {json : Text}
    (h : gqlElements query first values = ended (.ok json)) : Fits data (.elements values) s s := by
  induction values generalizing first json with
  | nil => exact .nil _
  | cons v values ih =>
      rw [gqlElements] at h
      obtain ⟨head, hhead, hrest⟩ := bind_eq_ok.mp h
      obtain ⟨tail, htail, -⟩ := bind_eq_ok.mp hrest
      obtain ⟨t, ht⟩ := hquery v head hhead
      exact .cons ht (ih htail)

/-- A query that is evaluated with success fits the data. -/
theorem fits_of_query (n : Nat) :
    (∀ v s t json, gqlQuery data n v s = ended (.ok (t, json)) → Fits data (.value v) s t) ∧
      ∀ o first s t json,
        gqlFields data n o first s = ended (.ok (t, json)) → Fits data (.fields o) s t := by
  induction n with
  | zero =>
      constructor
      · intro v s t json h
        rw [gqlQuery] at h
        exact absurd h outOfFuel_ne_ended
      · intro o first s t json h
        rw [gqlFields] at h
        exact absurd h outOfFuel_ne_ended
  | succ n ih =>
      constructor
      · intro v s t json h
        cases v with
        | scalar text =>
            rw [gqlQuery] at h
            cases ended_inj h
            exact .scalar _ _
        | null =>
            rw [gqlQuery] at h
            obtain ⟨stream, hskip, heq⟩ := bind_eq_ok.mp h
            cases ended_inj heq
            exact .null (selection_of_skipSelectionSet hskip)
        | object o =>
            rw [gqlQuery] at h
            split at h
            · cases ended_inj h
            · rename_i hopening
              obtain ⟨⟨stream, text⟩, hfields, hrest⟩ := bind_eq_ok.mp h
              simp only at hrest
              split at hrest
              · cases ended_inj hrest
              · rename_i hclosing
                cases ended_inj hrest
                exact .object (not_not.mp hopening) (ih.2 _ _ _ _ _ hfields)
                  (not_not.mp hclosing)
        | list values =>
            rw [gqlQuery] at h
            obtain ⟨text, helements, hrest⟩ := bind_eq_ok.mp h
            obtain ⟨stream, hskip, heq⟩ := bind_eq_ok.mp hrest
            cases ended_inj heq
            refine .list (fits_elements ?_ helements) (selection_of_skipSelectionSet hskip)
            intro v json hv
            obtain ⟨⟨t, text⟩, ht, -⟩ := bind_eq_ok.mp hv
            exact ⟨t, ih.1 _ _ _ _ ht⟩
      · intro o first s t json h
        rw [gqlFields] at h
        split at h
        · rename_i hname
          obtain ⟨⟨⟨label, value⟩, stream⟩, hfield, hrest⟩ := bind_eq_ok.mp h
          obtain ⟨⟨later, text⟩, hvalue, hrest⟩ := bind_eq_ok.mp hrest
          obtain ⟨⟨last, texts⟩, hfields, heq⟩ := bind_eq_ok.mp hrest
          cases ended_inj heq
          exact .field hname ⟨n, hfield⟩ (ih.1 _ _ _ _ hvalue) (ih.2 _ _ _ _ _ hfields)
        · rename_i hend
          cases ended_inj h
          exact .done hend

/-- Scalars have no selection sets. -/
def HasSelection : Value ω → Prop
  | .scalar _ => False
  | .null => True
  | .object _ => True
  | .list _ => True

/-- How the tokens look that are read for a target. -/
def Target.Shape : Target ω → GqlStream → GqlStream → Prop
  | .value (.scalar _), s, t => t = s
  | .value _, s, t => Selection s t
  | .elements _, s, t => t = s
  | .fields _, s, t => Balanced s t

theorem Target.shape_balanced {v : Value ω} (h : (Target.value v).Shape s t) : Balanced s t := by
  cases v with
  | scalar json =>
      rw [show t = s from h]
      exact .refl _
  | null => exact Selection.balanced h
  | object o => exact Selection.balanced h
  | list values => exact Selection.balanced h

theorem Fits.shape {target : Target ω} (h : Fits data target s t) : target.Shape s t := by
  induction h with
  | scalar => exact rfl
  | null hselection => exact hselection
  | list _ hselection => exact hselection
  | object hopening _ hclosing ih =>
      change Selection _ _
      rw [Selection, if_pos hopening]
      exact ⟨_, ih, hclosing, rfl⟩
  | nil => exact rfl
  | cons => exact rfl
  | done => exact .refl _
  | field hname hfield _ _ ihvalue ihrest =>
      obtain ⟨n, hn⟩ := hfield
      exact (((balanced_skip_of_name hname).trans (field_balanced hn)).trans
        (Target.shape_balanced ihvalue)).trans ihrest

theorem Fits.selection {v : Value ω} (h : Fits data (.value v) s t) (hv : HasSelection v) :
    Selection s t := by
  cases v with
  | scalar => exact hv.elim
  | null => exact h.shape
  | object => exact h.shape
  | list => exact h.shape

/-- A value that is evaluated leaves the stream where `gql_skip_selection_set` leaves it, and so
does every other value. -/
theorem selection_consumed {v : Value ω} (hv : HasSelection v) {json : Text}
    (h : Returns (fun n => gqlQuery data n v s) (.ok (t, json))) :
    Returns (fun n => gqlSkipSelectionSet n s) (.ok t) ∧
      ∀ (ω' : Type) (data' : Data ω') (v' : Value ω'), HasSelection v' → ∀ t' json',
        Returns (fun n => gqlQuery data' n v' s) (.ok (t', json')) → t' = t := by
  have hskip : ∀ (ω' : Type) (data' : Data ω') (v' : Value ω'), HasSelection v' → ∀ t' json',
      Returns (fun n => gqlQuery data' n v' s) (.ok (t', json')) →
        Returns (fun n => gqlSkipSelectionSet n s) (.ok t') := by
    intro ω' data' v' hv' t' json' ⟨n, hn⟩
    have hfits := (fits_of_query n).1 _ _ _ _ hn
    exact returns_skipSelectionSet_iff.mpr (hfits.selection hv')
  have ht := hskip ω data v hv t json h
  refine ⟨ht, ?_⟩
  intro ω' data' v' hv' t' json' h'
  have ht' := hskip ω' data' v' hv' t' json' h'
  exact Except.ok.inj ((skipSelectionSet_stable s).unique ht' ht)

/-- An object with a method that gives null, and with a list of another object. -/
def sampleData : Data Bool
  | true =>
      [.method ['a'] [⟨['k'], .string, false⟩] fun _ => .null, .field ['b'] (.list [.object false])]
  | false => [.field ['x'] (.scalar ['1'])]

/-- `{a(k:"}"){x}b{x}}`, with a brace in a string. -/
def sampleQuery : Text :=
  ['{', 'a', '(', 'k', ':', '"', '}', '"', ')', '{', 'x', '}', 'b', '{', 'x', '}', '}']

theorem sampleQuery_consumed :
    Returns (fun n => gqlSkipSelectionSet n (.start sampleQuery)) (.ok .atEof) := by
  have hselection : HasSelection (Value.object true) := trivial
  have hquery : Returns (fun n => gqlQuery sampleData n (.object true) (.start sampleQuery))
      (.ok (.atEof, ['{', '"', 'a', '"', ':', 'n', 'u', 'l', 'l', ',', '"', 'b', '"', ':', '[',
        '{', '"', 'x', '"', ':', '1', '}', ']', '}'])) := ⟨10, rfl⟩
  exact (selection_consumed hselection hquery).1

end Eden.QuerySelections
