import Eden.FueledRuns
import Eden.QueryTokens

/-!
The evaluation of queries over reflected objects. Loops over tokens take fuel, one unit for each
turn.
-/

namespace Eden.QueryEvaluation

open Eden.ChainPrimitives
open Eden.FueledRuns
open Eden.QueryTokens

/-! ### Data -/

/-- A value that is queried. An optional, a pointer or a reference is the value it has, or null. A
scalar is given by its JSON. -/
inductive Value (ω : Type)
  | scalar (json : Text)
  | null
  | object (o : ω)
  | list (values : List (Value ω))

/-- `std::from_chars`: all characters are a number, a number is out of range, or anything else. -/
inductive CharsResult
  | all
  | outOfRange
  | other
  deriving DecidableEq, Repr

/-- Types of arguments. `convert_from_string` aborts on texts that it does not accept. -/
inductive ParamType
  | string
  | boolean
  | number (fromChars : Text → CharsResult)
  | converted (accepts : Text → Bool)

structure Param where
  name : Text
  type : ParamType
  optional : Bool

inductive Arg
  | null
  | text (value : Text)
  | boolean (value : Bool)
  deriving DecidableEq, Repr

/-- A field or a const method of a reflected type. -/
inductive Member (ω : Type)
  | field (name : Text) (value : Value ω)
  | method (name : Text) (params : List Param) (apply : List Arg → Value ω)

def Member.name {ω : Type} : Member ω → Text
  | .field name _ => name
  | .method name _ _ => name

/-- The members of each object. Objects may lead back to each other. -/
abbrev Data (ω : Type) := ω → List (Member ω)

/-- Why a query fails: an error that is reported, or an abort of the program. -/
inductive Failure
  | error (message : String)
  | abort
  deriving DecidableEq, Repr

abbrev Eval (α : Type) := Run Failure α

def fail {α : Type} (message : String) : Eval α := ended (.error (.error message))

/-! ### Selection sets -/

/-- The loop of `gql_skip_selection_set`, after the opening brace. -/
def skipLoop : (fuel : Nat) → GqlStream → Eval GqlStream
  | 0, _ => outOfFuel
  | fuel + 1, s =>
      if s.currentType = .eof then fail "expected \x7d"
      else if s.currentPunctuator = some '{' then do
        let s ← skipLoop fuel s.skip
        skipLoop fuel s
      else if s.currentPunctuator = some '}' then return s.skip
      else skipLoop fuel s.skip

def gqlSkipSelectionSet (fuel : Nat) (s : GqlStream) : Eval GqlStream :=
  if s.currentPunctuator = some '{' then skipLoop fuel s.skip else return s

/-! ### Arguments -/

def gqlParseArg (s : GqlStream) : ParamType → Eval (Arg × GqlStream)
  | .string =>
      if s.currentType = .string then return (.text s.currentValue, s.skip)
      else fail "expected String"
  | .boolean =>
      if s.currentType = .name ∧ s.currentValue = ['t', 'r', 'u', 'e'] then
        return (.boolean true, s.skip)
      else if s.currentType = .name ∧ s.currentValue = ['f', 'a', 'l', 's', 'e'] then
        return (.boolean false, s.skip)
      else fail "expected Boolean"
  | .number fromChars =>
      if s.currentType = .integer ∨ s.currentType = .floating ∨ s.currentType = .string then
        match fromChars s.currentValue with
        | .all => return (.text s.currentValue, s.skip)
        | .outOfRange => fail "number is out of range"
        | .other => fail "expected number or stringified number"
      else fail "expected number or stringified number"
  | .converted accepts =>
      if s.currentType = .string then
        if accepts s.currentValue then return (.text s.currentValue, s.skip)
        else ended (.error .abort)
      else fail "expected String"

/-- The value of a parameter, which may be `null` when it is optional. -/
def gqlParseValue (param : Param) (s : GqlStream) : Eval (Arg × GqlStream) :=
  if param.optional ∧ s.currentType = .name ∧ s.currentValue = ['n', 'u', 'l', 'l'] then
    return (.null, s.skip)
  else gqlParseArg s param.type

/-- `gql_parse_args`: fill the parameter that the current token names, if there is one. -/
def gqlParseArgs : List (Param × Option Arg) → GqlStream →
    Eval (Option (List (Param × Option Arg) × GqlStream))
  | [], _ => return none
  | (param, arg) :: rest, s =>
      if s.currentValue ≠ param.name then do
        let filled ← gqlParseArgs rest s
        return filled.map fun r => ((param, arg) :: r.1, r.2)
      else if s.skip.currentPunctuator ≠ some ':' then fail "expected :"
      else if arg.isSome then fail "duplicate arg"
      else do
        let (value, s) ← gqlParseValue param s.skip.skip
        return some ((param, some value) :: rest, s)

/-- The loop over the arguments up to the closing parenthesis. -/
def gqlArgs : (fuel : Nat) → List (Param × Option Arg) → GqlStream →
    Eval (List (Param × Option Arg) × GqlStream)
  | 0, _, _ => outOfFuel
  | fuel + 1, args, s =>
      if s.currentType = .name then do
        match ← gqlParseArgs args s with
        | none => fail ("unknown arg '" ++ String.ofList s.currentValue ++ "'")
        | some (args, s) => gqlArgs fuel args s
      else if s.currentPunctuator ≠ some ')' then fail "expected )"
      else return (args, s.skip)

/-- All arguments of a call; those that are optional may be missing. -/
def fillArgs : List (Param × Option Arg) → Eval (List Arg)
  | [] => return []
  | (param, arg) :: rest => do
      let value ← (match arg with
        | some value => return value
        | none =>
            if param.optional then return .null
            else fail ("function missing required arg '" ++ String.ofList param.name ++ "'")
        : Eval Arg)
      return value :: (← fillArgs rest)

def gqlArgList (fuel : Nat) (params : List Param) (s : GqlStream) :
    Eval (List Arg × GqlStream) := do
  let args := params.map fun param => (param, none)
  let (args, s) ← (if s.currentPunctuator = some '(' then
      if s.skip.currentPunctuator = some ')' then fail "empty arg list"
      else gqlArgs fuel args s.skip
    else return (args, s) : Eval (List (Param × Option Arg) × GqlStream))
  return (← fillArgs args, s)

/-! ### Fields -/

/-- The alias of a field and its name. -/
def gqlFieldName (s : GqlStream) : Eval ((Text × Text) × GqlStream) :=
  if s.skip.currentPunctuator = some ':' then
    if s.skip.skip.currentType ≠ .name then fail "expected name after :"
    else return ((s.currentValue, s.skip.skip.currentValue), s.skip.skip.skip)
  else return ((s.currentValue, s.currentValue), s.skip)

variable {ω : Type}

/-- The value of a member, after its arguments. -/
def gqlMember (fuel : Nat) (members : List (Member ω)) (fieldName : Text) (s : GqlStream) :
    Eval (Value ω × GqlStream) :=
  match members.find? fun m => m.name = fieldName with
  | none => fail (String.ofList fieldName ++ " not found")
  | some (.field _ value) => return (value, s)
  | some (.method _ params apply) => do
      let (args, s) ← gqlArgList fuel params s
      return (apply args, s)

/-- A field up to its selection set: its alias and its value. -/
def gqlField (fuel : Nat) (members : List (Member ω)) (s : GqlStream) :
    Eval ((Text × Value ω) × GqlStream) := do
  let ((label, fieldName), s) ← gqlFieldName s
  let (value, s) ← gqlMember fuel members fieldName s
  return ((label, value), s)

/-! ### `gql_query` -/

def gqlElements (query : Value ω → Eval Text) : (first : Bool) → List (Value ω) → Eval Text
  | _, [] => return []
  | first, v :: vs => do
      let json ← query v
      let rest ← gqlElements query false vs
      return (if first then [] else [',']) ++ json ++ rest

mutual

/-- What is written for a value, and the stream after its selection set. The elements of a list all
read a copy of the stream. -/
def gqlQuery (data : Data ω) : (fuel : Nat) → Value ω → GqlStream → Eval (GqlStream × Text)
  | 0, _, _ => outOfFuel
  | _ + 1, .scalar json, s => return (s, json)
  | fuel + 1, .null, s => do
      let s ← gqlSkipSelectionSet fuel s
      return (s, ['n', 'u', 'l', 'l'])
  | fuel + 1, .list values, s => do
      let json ← gqlElements
        (fun v => do
          let r ← gqlQuery data fuel v s
          return r.2) true values
      let s ← gqlSkipSelectionSet fuel s
      return (s, '[' :: json ++ [']'])
  | fuel + 1, .object o, s =>
      if s.currentPunctuator ≠ some '{' then fail "expected \x7b"
      else do
        let (s, json) ← gqlFields data fuel o true s.skip
        if s.currentPunctuator ≠ some '}' then fail "expected \x7d"
        else return (s.skip, '{' :: json ++ ['}'])

/-- The loop over the fields of an object. -/
def gqlFields (data : Data ω) : (fuel : Nat) → ω → (first : Bool) → GqlStream →
    Eval (GqlStream × Text)
  | 0, _, _, _ => outOfFuel
  | fuel + 1, o, first, s =>
      if s.currentType = .name then do
        let ((label, value), s) ← gqlField fuel (data o) s
        let (s, json) ← gqlQuery data fuel value s
        let (s, rest) ← gqlFields data fuel o false s
        return (s, (if first then [] else [',']) ++ '"' :: label ++ ['"', ':'] ++ json ++ rest)
      else return (s, [])

end

/-! ### Replies -/

/-- What comes before the selection set of a query. -/
def gqlOperation (s : GqlStream) : Eval GqlStream :=
  if s.currentType = .name then
    if s.currentValue = ['q', 'u', 'e', 'r', 'y'] then
      let s := if s.skip.currentType = .name then s.skip.skip else s.skip
      if s.currentPunctuator = some '(' then fail "variables not supported"
      else if s.currentPunctuator = some '@' then fail "directives not supported"
      else return s
    else if s.currentValue = ['s', 'u', 'b', 's', 'c', 'r', 'i', 'p', 't', 'i', 'o', 'n', 's'] then
      fail "subscriptions not supported"
    else if s.currentValue = ['m', 'u', 't', 'a', 't', 'i', 'o', 'n'] then
      fail "mutations not supported"
    else if s.currentValue = ['f', 'r', 'a', 'g', 'm', 'e', 'n', 't'] then
      fail "fragments not supported"
    else fail "expected query"
  else return s

/-- What comes after it. -/
def gqlEnd (s : GqlStream) : Eval Unit :=
  if s.currentType = .eof then return ()
  else if s.currentType = .name ∧ s.currentValue = ['q', 'u', 'e', 'r', 'y'] then
    fail "multiple queries not supported"
  else if s.currentType = .name ∧ s.currentValue = ['f', 'r', 'a', 'g', 'm', 'e', 'n', 't'] then
    fail "fragments not supported"
  else if s.currentType = .name ∧
      s.currentValue = ['s', 'u', 'b', 's', 'c', 'r', 'i', 'p', 't', 'i', 'o', 'n'] then
    fail "subscriptions not supported"
  else if s.currentType = .name ∧ s.currentValue = ['m', 'u', 't', 'a', 't', 'i', 'o', 'n'] then
    fail "mutations not supported"
  else fail "expected end of input"

def gqlQueryRoot (data : Data ω) (fuel : Nat) (root : Value ω) (s : GqlStream) : Eval Text := do
  let s ← gqlOperation s
  let (s, json) ← gqlQuery data fuel root s
  gqlEnd s
  return json

/-- The two kinds of documents. -/
inductive Reply
  | data (json : Text)
  | errors (message : String)
  deriving DecidableEq, Repr

/-- The reply to a query. Only an abort has none. -/
def gqlReply (data : Data ω) (root : Value ω) (query given : Text) (fuel : Nat) : Eval Reply :=
  if given ≠ [] then return .errors "variables not supported; argument must be empty"
  else tryCatch (do return .data (← gqlQueryRoot data fuel root (.start query))) fun e =>
    match e with
    | .error message => return .errors message
    | .abort => throw .abort

end Eden.QueryEvaluation
