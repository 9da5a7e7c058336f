import Eden.ChainPrimitives

/-!
The tokens of queries. A query is a string of bytes, and each byte is the character with its code.
-/

namespace Eden.QueryTokens

open Eden.ChainPrimitives

/-- `token_type` -/
inductive TokenType
  | unstarted
  | eof
  | error
  | punctuator
  | name
  | string
  | integer
  | floating
  deriving DecidableEq, Repr

/-- `gql_stream`: the input that is left, and the current token. -/
structure GqlStream where
  input : Text
  currentType : TokenType
  currentValue : Text
  currentPunctuator : Option Char
  punctuator_type : currentPunctuator ≠ none → currentType = .punctuator
  eof_input : currentType = .eof → input = []
  deriving DecidableEq, Repr

namespace GqlStream

def atEof : GqlStream := ⟨[], .eof, [], none, by simp, fun _ => rfl⟩

def punctuator (c : Char) (value rest : Text) : GqlStream :=
  ⟨rest, .punctuator, value, some c, fun _ => rfl, by simp⟩

/-- A token that is no punctuator. -/
def plain (type : TokenType) (value rest : Text) (htype : type ≠ .eof) : GqlStream :=
  ⟨rest, type, value, none, by simp, fun h => absurd h htype⟩

/-- A string without an end keeps the type of the token before. -/
def unterminated (type : TokenType) : GqlStream := ⟨[], type, [], none, by simp, fun _ => rfl⟩

end GqlStream

/-! ### Characters -/

/-- Blanks and commas. -/
def isBlank (c : Char) : Bool := c ∈ ['\n', '\r', ' ', '\t', ',']

def isPunctuator (c : Char) : Bool :=
  c ∈ ['$', '!', '&', '(', ')', ':', '=', '@', '[', ']', '{', '|', '}']

def isNameStart (c : Char) : Bool := c = '_' || c.isAlpha

def isNameChar (c : Char) : Bool := c = '_' || c.isAlphanum

/-- What the loop of `skip` passes over: blanks, commas, byte order marks and comments. -/
def passIgnored : (comment : Bool) → Text → Text
  | _, [] => []
  | true, c :: rest => passIgnored (c ≠ '\n' && c ≠ '\r') rest
  | false, c :: rest =>
      if isBlank c then passIgnored false rest
      else if c = '#' then passIgnored true rest
      else match rest with
        | c₂ :: c₃ :: later =>
            if c = '\u00EF' ∧ c₂ = '\u00BB' ∧ c₃ = '\u00BF' then passIgnored false later
            else c :: rest
        | _ => c :: rest

/-- The rest of a string and what follows its closing quote, if it has one. -/
def readString : Text → Option (Text × Text)
  | [] => none
  | c :: rest =>
      if c = '"' then some ([], rest)
      else if c = '\\' then
        match rest with
        | [] => none
        | escaped :: later => (readString later).map fun r => (c :: escaped :: r.1, r.2)
      else (readString rest).map fun r => (c :: r.1, r.2)

/-! ### Numbers -/

/-- The types of number tokens. -/
inductive NumberType
  | integer
  | floating
  | error
  deriving DecidableEq, Repr

def NumberType.tokenType : NumberType → TokenType
  | .integer => .integer
  | .floating => .floating
  | .error => .error

theorem NumberType.tokenType_ne_eof (t : NumberType) : t.tokenType ≠ .eof := by
  cases t <;> decide

def startsWith (p : Char → Bool) (t : Text) : Bool := t.head?.any p

/-- No name may follow a number. -/
def endNumber (type : NumberType) (t : Text) : NumberType × Text :=
  if startsWith isNameChar t then (.error, t) else (type, t)

def readExponent (type : NumberType) (t : Text) : NumberType × Text :=
  if startsWith (fun c => c = 'e' || c = 'E') t then
    let t := if startsWith (· = '-') t.tail then t.tail.tail else t.tail
    if startsWith Char.isDigit t then endNumber .floating (t.dropWhile Char.isDigit)
    else (.error, t)
  else endNumber type t

def readFraction (t : Text) : NumberType × Text :=
  if startsWith (· = '.') t then
    if startsWith Char.isDigit t.tail then readExponent .floating (t.tail.dropWhile Char.isDigit)
    else (.error, t.tail)
  else readExponent .integer t

/-- The type of a number and what follows it. -/
def readNumber (t : Text) : NumberType × Text :=
  let digits := if startsWith (· = '-') t then t.tail else t
  if startsWith Char.isDigit digits then
    readFraction (if startsWith (· = '0') digits then digits.tail
      else digits.dropWhile Char.isDigit)
  else (.error, digits)

/-- The characters of a text before a rest of it. -/
def before (t rest : Text) : Text := t.take (t.length - rest.length)

/-! ### Tokens -/

/-- The token at the start of the input. -/
def readToken (type : TokenType) : Text → GqlStream
  | [] => .atEof
  | c :: rest =>
      if isPunctuator c then .punctuator c [c] rest
      else if c = '.' ∧ rest.take 2 = ['.', '.'] then .punctuator '.' ['.', '.', '.'] (rest.drop 2)
      else if c = '"' then
        if rest.take 2 = ['"', '"'] then .plain .error [] (c :: rest) (by decide)
        else match readString rest with
          | none => .unterminated type
          | some (value, later) => .plain .string value later (by decide)
      else if isNameStart c then
        .plain .name ((c :: rest).takeWhile isNameChar) ((c :: rest).dropWhile isNameChar)
          (by decide)
      else if c = '-' ∨ c.isDigit then
        let number := readNumber (c :: rest)
        .plain number.1.tokenType
          (if number.1 = .error then [] else before (c :: rest) number.2) number.2
          number.1.tokenType_ne_eof
      else .plain .error [] (c :: rest) (by decide)

/-- `skip` -/
def GqlStream.skip (s : GqlStream) : GqlStream :=
  if s.currentType = .error then s else readToken s.currentType (passIgnored false s.input)

/-- A stream at its first token. -/
def GqlStream.start (query : Text) : GqlStream :=
  GqlStream.skip ⟨query, .unstarted, [], none, by simp, by simp⟩

/-! ### Progress -/

theorem length_passIgnored_le (comment : Bool) (t : Text) :
    (passIgnored comment t).length ≤ t.length := by
  fun_induction passIgnored comment t with
  | case1 => exact le_refl _
  | case2 c rest ih => exact ih.trans (Nat.le_succ _)
  | case3 c rest _ ih => exact ih.trans (Nat.le_succ _)
  | case4 rest _ ih => exact ih.trans (Nat.le_succ _)
  | case5 c _ _ c₂ c₃ later _ ih =>
      simp only [List.length_cons]
      omega
  | case6 => exact le_refl _
  | case7 => exact le_refl _

theorem length_readString_lt {t value later : Text} (h : readString t = some (value, later)) :
    later.length < t.length := by
  fun_induction readString t generalizing value later with
  | case1 => cases h
  | case2 rest =>
      cases h
      exact Nat.lt_succ_self _
  | case3 => cases h
  | case4 _ escaped rest ih =>
      obtain ⟨⟨value', later'⟩, hrest, heq⟩ := Option.map_eq_some_iff.mp h
      cases heq
      exact (ih hrest).trans (by simp)
  | case5 c rest _ _ ih =>
      obtain ⟨⟨value', later'⟩, hrest, heq⟩ := Option.map_eq_some_iff.mp h
      cases heq
      exact (ih hrest).trans (Nat.lt_succ_self _)

theorem length_dropWhile_le (p : Char → Bool) (t : Text) : (t.dropWhile p).length ≤ t.length :=
  (List.dropWhile_sublist p).length_le

theorem length_endNumber_le (type : NumberType) (t : Text) :
    (endNumber type t).2.length ≤ t.length := by
  unfold endNumber
  split <;> exact le_refl _

theorem length_tail_le (t : Text) : t.tail.length ≤ t.length := by
  rw [List.length_tail]
  exact Nat.sub_le _ _

theorem length_readExponent_le (type : NumberType) (t : Text) :
    (readExponent type t).2.length ≤ t.length := by
  unfold readExponent
  split
  · have hsign : (if startsWith (· = '-') t.tail then t.tail.tail else t.tail).length ≤
        t.length := by
      split
      · exact (length_tail_le _).trans (length_tail_le _)
      · exact length_tail_le _
    generalize (if startsWith (· = '-') t.tail then t.tail.tail else t.tail) = digits at hsign
    simp only
    split
    · exact ((length_endNumber_le _ _).trans (length_dropWhile_le _ _)).trans hsign
    · exact hsign
  · exact length_endNumber_le _ _

theorem length_readFraction_le (t : Text) : (readFraction t).2.length ≤ t.length := by
  unfold readFraction
  split
  · split
    · exact ((length_readExponent_le _ _).trans (length_dropWhile_le _ _)).trans (length_tail_le _)
    · exact length_tail_le _
  · exact length_readExponent_le _ _

theorem length_readNumber_lt {c : Char} {rest : Text} (h : c = '-' ∨ c.isDigit = true) :
    (readNumber (c :: rest)).2.length < (c :: rest).length := by
  unfold readNumber
  by_cases hsign : c = '-'
  · subst hsign
    have hdigits : (if startsWith (· = '-') ('-' :: rest) then ('-' :: rest).tail
        else '-' :: rest) = rest := rfl
    simp only [hdigits, List.length_cons]
    refine Nat.lt_succ_of_le ?_
    split
    · refine (length_readFraction_le _).trans ?_
      split
      · exact length_tail_le _
      · exact length_dropWhile_le _ _
    · exact le_refl _
  · have hdigit : c.isDigit = true := h.resolve_left hsign
    have hdigits : (if startsWith (· = '-') (c :: rest) then (c :: rest).tail
        else c :: rest) = c :: rest := by
      simp [startsWith, hsign]
    simp only [hdigits, List.length_cons]
    have hfirst : startsWith Char.isDigit (c :: rest) = true := hdigit
    rw [if_pos hfirst]
    refine Nat.lt_succ_of_le ((length_readFraction_le _).trans ?_)
    split
    · exact le_refl _
    · rw [List.dropWhile_cons_of_pos hdigit]
      exact length_dropWhile_le _ _

namespace GqlStream

/-- What is left to read. Each token makes it less, until the end or an error. -/
def weight (s : GqlStream) : Nat :=
  if s.currentType = .eof ∨ s.currentType = .error then 0 else s.input.length + 1

theorem weight_le (s : GqlStream) : s.weight ≤ s.input.length + 1 := by
  unfold weight
  split
  · exact Nat.zero_le _
  · exact le_refl _

end GqlStream

theorem weight_readToken_le (type : TokenType) (t : Text) :
    (readToken type t).weight ≤ t.length := by
  cases t with
  | nil => exact le_refl _
  | cons c rest =>
      rw [readToken]
      split
      · exact GqlStream.weight_le _
      · split
        · refine (GqlStream.weight_le _).trans (Nat.succ_le_succ ?_)
          exact (List.length_drop ..).trans_le (Nat.sub_le _ _)
        · split
          · split
            · exact Nat.zero_le _
            · split
              · refine (GqlStream.weight_le _).trans ?_
                simp [GqlStream.unterminated]
              · rename_i value later hstring
                have hlength := length_readString_lt hstring
                refine (GqlStream.weight_le _).trans ?_
                exact Nat.succ_le_succ hlength.le
          · split
            · rename_i hstart
              have hchar : isNameChar c = true := by
                simp only [isNameStart, isNameChar, Bool.or_eq_true, decide_eq_true_eq,
                  Char.isAlphanum] at hstart ⊢
                exact hstart.imp_right .inl
              refine (GqlStream.weight_le _).trans (Nat.succ_le_succ ?_)
              change ((c :: rest).dropWhile isNameChar).length ≤ rest.length
              rw [List.dropWhile_cons_of_pos hchar]
              exact length_dropWhile_le _ _
            · split
              · rename_i hnumber
                exact (GqlStream.weight_le _).trans (length_readNumber_lt hnumber)
              · exact Nat.zero_le _

namespace GqlStream

theorem weight_skip_lt {s : GqlStream} (h : 0 < s.weight) : s.skip.weight < s.weight := by
  unfold weight at h
  split at h
  · cases h
  · rename_i htype
    rw [not_or] at htype
    have hweight : s.weight = s.input.length + 1 := if_neg (not_or.mpr htype)
    rw [skip, if_neg htype.2, hweight]
    exact Nat.lt_succ_of_le
      ((weight_readToken_le _ _).trans (length_passIgnored_le _ _))

theorem weight_skip_le (s : GqlStream) : s.skip.weight ≤ s.weight := by
  by_cases hweight : 0 < s.weight
  · exact (weight_skip_lt hweight).le
  · have htype : s.currentType = .eof ∨ s.currentType = .error := by
      by_contra hother
      rw [weight, if_neg hother] at hweight
      exact hweight (Nat.succ_pos _)
    rcases htype with heof | herror
    · have hskip : s.skip = atEof := by
        rw [skip, if_neg (by simp [heof]), s.eof_input heof]
        rfl
      rw [hskip]
      exact Nat.zero_le _
    · rw [skip, if_pos herror]

/-- A token of some type is no brace. -/
theorem punctuator_eq_none {s : GqlStream} (h : s.currentType ≠ .punctuator) :
    s.currentPunctuator = none := by
  by_contra hsome
  exact h (s.punctuator_type hsome)

theorem weight_pos {s : GqlStream} (heof : s.currentType ≠ .eof) (herror : s.currentType ≠ .error) :
    0 < s.weight := by
  rw [weight, if_neg (not_or.mpr ⟨heof, herror⟩)]
  exact Nat.succ_pos _

end GqlStream

end Eden.QueryTokens
