import Eden.ExceptReasoning

namespace Eden.ChainPrimitives

open Eden.ExceptReasoning

/-- Why a transaction is rolled back. -/
inductive Abort
  /-- `eosio::check` failed with a message. -/
  | check (message : String)
  | missingAuthority (account : Nat)
  /-- A row with the same primary key is stored already. -/
  | duplicateKey
  /-- The program leaves the range in which C++ defines its behaviour. -/
  | undefined (operation : String)
  /-- A loop that does not end within the transaction. -/
  | timeout
  deriving DecidableEq, Repr

/-- Computations of the contract: a value, or the reason of the abort. -/
abbrev Outcome (α : Type) := Except Abort α

def check (condition : Bool) (message : String) : Outcome Unit :=
  ensure condition (.check message)

@[simp] theorem check_eq_ok {condition : Bool} {message : String} {x : Unit} :
    check condition message = .ok x ↔ condition = true := ensure_eq_ok

@[simp] theorem check_eq_error {condition : Bool} {message : String} {e : Abort} :
    check condition message = .error e ↔ condition = false ∧ .check message = e :=
  ensure_eq_error

theorem check_bind_eq_ok {α : Type} {condition : Bool} {message : String} {f : Unit → Outcome α}
    {a : α} : (check condition message >>= f) = .ok a ↔ condition = true ∧ f () = .ok a :=
  ensure_bind_eq_ok

theorem check_bind_eq_error {α : Type} {condition : Bool} {message : String}
    {f : Unit → Outcome α} {e : Abort} : (check condition message >>= f) = .error e ↔
      (condition = false ∧ .check message = e) ∨ (condition = true ∧ f () = .error e) :=
  ensure_bind_eq_error

/-! ### Names -/

/-- A `std::string` that is data of the contract, one character for each byte. -/
abbrev Text := List Char

/-- An `eosio::name`, given by its 64-bit value. -/
abbrev Name := Nat

/-- `name()`. -/
def emptyName : Name := 0

/-- `name(-1)`. -/
def invalidName : Name := 2 ^ 64 - 1

/-- `name{~n.value}`. -/
def complementName (n : Name) : Name := 2 ^ 64 - 1 - n

/-- The name of an account has at most twelve characters, which leaves its last four bits 0. -/
def isAccountName (n : Name) : Bool := n ≠ 0 && n < 2 ^ 64 && n % 16 = 0

/-- `"master"_n` -/
def masterName : Name := 10498336428746866688

/-- `"edendelegate"_n` -/
def edenDelegate : Name := 5932705989590626976

/-- `"eosio"_n` -/
def eosioName : Name := 6138663577826885632

/-- The character of a base 32 digit. -/
def nameChar (digit : Nat) : Char :=
  ['.', '1', '2', '3', '4', '5', 'a', 'b', 'c', 'd', 'e', 'f', 'g', 'h', 'i', 'j', 'k', 'l', 'm',
    'n', 'o', 'p', 'q', 'r', 's', 't', 'u', 'v', 'w', 'x', 'y', 'z'].getD digit '.'

/-- `char_to_name_digit_strict` -/
def charToNameDigit (c : Char) : Option Nat :=
  if 'a' ≤ c ∧ c ≤ 'z' then some (c.toNat - 'a'.toNat + 6)
  else if '1' ≤ c ∧ c ≤ '5' then some (c.toNat - '1'.toNat + 1)
  else if c = '.' then some 0
  else none

/-- Twelve digits of five bits, then one of four. -/
def nameDigits (n : Name) : List Nat :=
  (List.range 12).map (fun i => n / 2 ^ (59 - 5 * i) % 32) ++ [n % 16]

/-- `name_to_string`: the characters of the digits, without the dots at the end. -/
def nameToText (n : Name) : Text := ((nameDigits n).map nameChar).rdropWhile (· = '.')

/-- The loop of `try_string_to_name_strict` from the character at position `i` on. -/
def nameOfTextFrom : (i : Nat) → Text → Name → Outcome Name
  | _, [], value => return value
  | i, c :: rest, value => do
      check (i ≤ 12) "Name too long"
      let digit ← expect (charToNameDigit c) (.check "Invalid character in name")
      if i < 12 then
        nameOfTextFrom (i + 1) rest (value + digit * 2 ^ (59 - 5 * i))
      else do
        check (digit ≤ 15) "Invalid 13th character in name"
        nameOfTextFrom (i + 1) rest (value + digit)

/-- `name(string)` -/
def nameOfText (t : Text) : Outcome Name := nameOfTextFrom 0 t 0

/-- A name inside an error message. -/
def nameString (n : Name) : String := String.ofList (nameToText n)

theorem charToNameDigit_nameChar {digit : Nat} (h : digit < 32) :
    charToNameDigit (nameChar digit) = some digit := by
  revert digit
  decide

theorem nameOfTextFrom_dots (i k : Nat) (value : Name) (h : i + k ≤ 13) :
    nameOfTextFrom i (List.replicate k '.') value = .ok value := by
  induction k generalizing i with
  | zero => rfl
  | succ k ih =>
      have hi : i ≤ 12 := by omega
      have hdot : charToNameDigit '.' = some 0 := by decide
      rw [List.replicate_succ, nameOfTextFrom]
      simp only [check, hi, decide_true, ensure_true, ok_bind, hdot, expect_some, Nat.zero_mul,
        Nat.add_zero, Nat.zero_le]
      rw [ih (i + 1) (by omega)]
      exact ite_self _

/-- Dots at the end of a text do not change the name it denotes. -/
theorem nameOfTextFrom_append_dots (t : Text) (i k : Nat) (value result : Name)
    (h : i + t.length + k ≤ 13)
    (hok : nameOfTextFrom i (t ++ List.replicate k '.') value = .ok result) :
    nameOfTextFrom i t value = .ok result := by
  induction t generalizing i value with
  | nil =>
      rw [List.nil_append, nameOfTextFrom_dots i k value (by simpa using h)] at hok
      exact hok
  | cons c rest ih =>
      rw [List.length_cons] at h
      rw [List.cons_append, nameOfTextFrom, check_bind_eq_ok, bind_eq_ok] at hok
      obtain ⟨hi, digit, hdigit, hok⟩ := hok
      rw [nameOfTextFrom, check_bind_eq_ok, bind_eq_ok]
      refine ⟨hi, digit, hdigit, ?_⟩
      split at hok
      · rename_i hlt
        rw [if_pos hlt]
        exact ih (i + 1) _ (by omega) hok
      · rename_i hlt
        rw [if_neg hlt]
        rw [check_bind_eq_ok] at hok ⊢
        exact ⟨hok.1, ih (i + 1) _ (by omega) hok.2⟩

theorem nameOfTextFrom_nameChar {digit : Nat} (hdigit : digit < 32) (i : Nat) (rest : Text)
    (value : Name) (hi : i < 12) :
    nameOfTextFrom i (nameChar digit :: rest) value =
      nameOfTextFrom (i + 1) rest (value + digit * 2 ^ (59 - 5 * i)) := by
  rw [nameOfTextFrom, charToNameDigit_nameChar hdigit]
  simp [check, hi, Nat.le_of_lt hi]

theorem nameOfTextFrom_last {digit : Nat} (hdigit : digit < 16) (value : Name) :
    nameOfTextFrom 12 [nameChar digit] value = .ok (value + digit) := by
  have hle : digit ≤ 15 := by omega
  rw [nameOfTextFrom, charToNameDigit_nameChar (by omega)]
  simp [check, hle, nameOfTextFrom]

/-- Before the digit at position `i` the value holds the digits above it. -/
theorem nameOfTextFrom_digits (n k i : Nat) (hk : i + k = 12) :
    nameOfTextFrom i (((List.range' i k).map (fun i => n / 2 ^ (59 - 5 * i) % 32) ++
      [n % 16]).map nameChar) (n / 2 ^ (64 - 5 * i) * 2 ^ (64 - 5 * i)) = .ok n := by
  induction k generalizing i with
  | zero =>
      obtain rfl : i = 12 := by omega
      rw [List.range'_zero, List.map_nil, List.nil_append, List.map_singleton,
        nameOfTextFrom_last (Nat.mod_lt _ (by decide))]
      exact congrArg Except.ok (Nat.div_add_mod' n 16)
  | succ k ih =>
      have hvalue : n / 2 ^ (64 - 5 * i) * 2 ^ (64 - 5 * i) +
          n / 2 ^ (59 - 5 * i) % 32 * 2 ^ (59 - 5 * i) =
            n / 2 ^ (64 - 5 * (i + 1)) * 2 ^ (64 - 5 * (i + 1)) := by
        have hexp : 64 - 5 * i = 59 - 5 * i + 5 := by omega
        have hnext : 64 - 5 * (i + 1) = 59 - 5 * i := by omega
        rw [hnext, hexp, Nat.pow_add, ← Nat.div_div_eq_div_mul, Nat.mul_comm (2 ^ (59 - 5 * i)),
          ← Nat.mul_assoc, ← Nat.add_mul]
        exact congrArg (· * 2 ^ (59 - 5 * i)) (Nat.div_add_mod' _ 32)
      rw [List.range'_succ, List.map_cons, List.cons_append, List.map_cons,
        nameOfTextFrom_nameChar (Nat.mod_lt _ (by decide)) _ _ _ (by omega), hvalue]
      exact ih (i + 1) (by omega)

/-- Writing a name and reading it back gives the name. -/
theorem nameOfText_nameToText {n : Name} (h : n < 2 ^ 64) : nameOfText (nameToText n) = .ok n := by
  have hfull : nameOfTextFrom 0 ((nameDigits n).map nameChar) 0 = .ok n := by
    have hdigits := nameOfTextFrom_digits n 12 0 rfl
    rw [Nat.mul_zero, Nat.sub_zero, Nat.div_eq_of_lt h, Nat.zero_mul,
      ← List.range_eq_range'] at hdigits
    exact hdigits
  obtain ⟨dots, hsplit, hdots⟩ : ∃ dots : Text,
      (nameDigits n).map nameChar = nameToText n ++ dots ∧ ∀ c ∈ dots, c = '.' := by
    refine ⟨((nameDigits n).map nameChar).rtakeWhile (· = '.'), ?_, ?_⟩
    · exact List.rdropWhile_append_rtakeWhile.symm
    · intro c hc
      simpa using List.mem_rtakeWhile_imp hc
  have hreplicate : dots = List.replicate dots.length '.' :=
    List.eq_replicate_iff.mpr ⟨rfl, hdots⟩
  have hlength : (nameToText n).length + dots.length = 13 := by
    have := congrArg List.length hsplit
    simpa [nameDigits] using this.symm
  rw [hsplit, hreplicate] at hfull
  exact nameOfTextFrom_append_dots _ 0 dots.length 0 n (by omega) hfull

/-! ### Time

A `block_timestamp` is a number of half seconds since 2000-01-01 in 32 bits, a `time_point` a
signed number of microseconds since 1970-01-01, a `time_point_sec` a number of seconds since
1970-01-01 in 32 bits. -/

/-- `block_timestamp::block_timestamp_epoch`, in milliseconds. -/
def blockTimestampEpoch : Int := 946684800000

def seconds (s : Int) : Int := s * 1000000

def days (d : Int) : Int := seconds (d * 86400)

def toTimePoint (t : Nat) : Int := ((t : Int) * 500 + blockTimestampEpoch) * 1000

def ofTimePoint (t : Int) : Nat :=
  (((t.tdiv 1000 - blockTimestampEpoch).tdiv 500) % 2 ^ 32).toNat

def secOfTimePoint (t : Int) : Nat := ((t.tdiv 1000000) % 2 ^ 32).toNat

def timePointOfSec (s : Nat) : Int := seconds s

def ofSec (s : Nat) : Nat :=
  ((((s : Int) * 1000 - blockTimestampEpoch).tdiv 500) % 2 ^ 32).toNat

theorem toTimePoint_lt {s t : Nat} : toTimePoint s < toTimePoint t ↔ s < t := by
  unfold toTimePoint blockTimestampEpoch
  omega

theorem toTimePoint_le {s t : Nat} : toTimePoint s ≤ toTimePoint t ↔ s ≤ t := by
  unfold toTimePoint blockTimestampEpoch
  omega

/-- Moving a block time by whole seconds moves its slot by two for each second. -/
theorem ofTimePoint_add_seconds (t : Nat) (s : Int) (h : 0 ≤ t + 2 * s) :
    ofTimePoint (toTimePoint t + seconds s) = ((t : Int) + 2 * s).toNat % 2 ^ 32 := by
  have hms : (toTimePoint t + seconds s).tdiv 1000 =
      (t : Int) * 500 + blockTimestampEpoch + s * 1000 := by
    have heq : toTimePoint t + seconds s =
        ((t : Int) * 500 + blockTimestampEpoch + s * 1000) * 1000 := by
      unfold toTimePoint seconds blockTimestampEpoch
      ring
    rw [heq, Int.mul_tdiv_cancel _ (by norm_num)]
  have hslot : ((t : Int) * 500 + blockTimestampEpoch + s * 1000 - blockTimestampEpoch).tdiv 500 =
      (t : Int) + 2 * s := by
    have heq : (t : Int) * 500 + blockTimestampEpoch + s * 1000 - blockTimestampEpoch =
        ((t : Int) + 2 * s) * 500 := by ring
    rw [heq, Int.mul_tdiv_cancel _ (by norm_num)]
  unfold ofTimePoint
  rw [hms, hslot]
  omega

/-! ### Assets -/

structure Symbol where
  /-- `symbol_code`, the letters in base 256, the first one lowest. -/
  code : Nat
  precision : Nat
  deriving DecidableEq, Repr, Inhabited

/-- Letters `A` to `Z`, then only zero bytes, in at most `length` bytes. -/
def validSymbolCode : (length : Nat) → Nat → Bool
  | 0, code => code = 0
  | length + 1, code =>
      65 ≤ code % 256 && code % 256 ≤ 90 &&
        (code / 256 = 0 || validSymbolCode length (code / 256))

def Symbol.isValid (s : Symbol) : Bool := validSymbolCode 7 s.code

/-- `symbol("EOS", 4)` -/
def eosSymbol : Symbol := ⟨5459781, 4⟩

structure Asset where
  amount : Int
  symbol : Symbol
  deriving DecidableEq, Repr, Inhabited

/-- `asset::max_amount` -/
def maxAmount : Int := 2 ^ 62 - 1

/-- The checked constructor `asset(amount, symbol)`. -/
def asset (amount : Int) (symbol : Symbol) : Outcome Asset := do
  check (-maxAmount ≤ amount && amount ≤ maxAmount)
    "magnitude of asset amount must be less than 2^62"
  check symbol.isValid "invalid symbol name"
  return ⟨amount, symbol⟩

namespace Asset

def neg (a : Asset) : Asset := ⟨-a.amount, a.symbol⟩

def sub (a b : Asset) : Outcome Asset := do
  check (b.symbol = a.symbol) "attempt to subtract asset with different symbol"
  check (-maxAmount ≤ a.amount - b.amount) "subtraction underflow"
  check (a.amount - b.amount ≤ maxAmount) "subtraction overflow"
  return ⟨a.amount - b.amount, a.symbol⟩

def add (a b : Asset) : Outcome Asset := do
  check (b.symbol = a.symbol) "attempt to add asset with different symbol"
  check (-maxAmount ≤ a.amount + b.amount) "addition underflow"
  check (a.amount + b.amount ≤ maxAmount) "addition overflow"
  return ⟨a.amount + b.amount, a.symbol⟩

def mul (a : Asset) (k : Int) : Outcome Asset := do
  check (a.amount * k ≤ maxAmount) "multiplication overflow"
  check (-maxAmount ≤ a.amount * k) "multiplication underflow"
  return ⟨a.amount * k, a.symbol⟩

def div (a : Asset) (k : Int) : Outcome Asset := do
  check (k ≠ 0) "divide by zero"
  check (¬(a.amount = -2 ^ 63 ∧ k = -1)) "signed division overflow"
  return ⟨a.amount.tdiv k, a.symbol⟩

private def comparable (a b : Asset) : Outcome Unit :=
  check (a.symbol = b.symbol) "comparison of assets with different symbols is not allowed"

/-- `a == b` -/
def eq (a b : Asset) : Outcome Bool := do
  comparable a b
  return a.amount = b.amount

/-- `a >= b` -/
def ge (a b : Asset) : Outcome Bool := do
  comparable a b
  return b.amount ≤ a.amount

@[simp] theorem sub_eq_ok {a b c : Asset} :
    a.sub b = .ok c ↔ b.symbol = a.symbol ∧ -maxAmount ≤ a.amount - b.amount ∧
      a.amount - b.amount ≤ maxAmount ∧ ⟨a.amount - b.amount, a.symbol⟩ = c := by
  simp only [sub, check_bind_eq_ok, decide_eq_true_eq, pure_eq_ok]

@[simp] theorem add_eq_ok {a b c : Asset} :
    a.add b = .ok c ↔ b.symbol = a.symbol ∧ -maxAmount ≤ a.amount + b.amount ∧
      a.amount + b.amount ≤ maxAmount ∧ ⟨a.amount + b.amount, a.symbol⟩ = c := by
  simp only [add, check_bind_eq_ok, decide_eq_true_eq, pure_eq_ok]

@[simp] theorem mul_eq_ok {a c : Asset} {k : Int} :
    a.mul k = .ok c ↔ a.amount * k ≤ maxAmount ∧ -maxAmount ≤ a.amount * k ∧
      ⟨a.amount * k, a.symbol⟩ = c := by
  simp only [mul, check_bind_eq_ok, decide_eq_true_eq, pure_eq_ok]

@[simp] theorem div_eq_ok {a c : Asset} {k : Int} :
    a.div k = .ok c ↔ k ≠ 0 ∧ ¬(a.amount = -2 ^ 63 ∧ k = -1) ∧
      ⟨a.amount.tdiv k, a.symbol⟩ = c := by
  simp only [div, check_bind_eq_ok, decide_eq_true_eq, pure_eq_ok]

@[simp] theorem eq_eq_ok {a b : Asset} {r : Bool} :
    a.eq b = .ok r ↔ a.symbol = b.symbol ∧ decide (a.amount = b.amount) = r := by
  simp only [eq, comparable, check_bind_eq_ok, decide_eq_true_eq, pure_eq_ok]

@[simp] theorem ge_eq_ok {a b : Asset} {r : Bool} :
    a.ge b = .ok r ↔ a.symbol = b.symbol ∧ decide (b.amount ≤ a.amount) = r := by
  simp only [ge, comparable, check_bind_eq_ok, decide_eq_true_eq, pure_eq_ok]

theorem eq_eq_error {a b : Asset} {e : Abort} :
    a.eq b = .error e ↔ a.symbol ≠ b.symbol ∧
      .check "comparison of assets with different symbols is not allowed" = e := by
  simp only [eq, comparable, check_bind_eq_error, decide_eq_false_iff_not, pure_ne_error,
    and_false, or_false, ne_eq]

theorem ge_eq_error {a b : Asset} {e : Abort} :
    a.ge b = .error e ↔ a.symbol ≠ b.symbol ∧
      .check "comparison of assets with different symbols is not allowed" = e := by
  simp only [ge, comparable, check_bind_eq_error, decide_eq_false_iff_not, pure_ne_error,
    and_false, or_false, ne_eq]

end Asset

@[simp] theorem asset_eq_ok {amount : Int} {symbol : Symbol} {a : Asset} :
    asset amount symbol = .ok a ↔ (-maxAmount ≤ amount ∧ amount ≤ maxAmount) ∧
      symbol.isValid = true ∧ ⟨amount, symbol⟩ = a := by
  simp only [asset, check_bind_eq_ok, Bool.and_eq_true, decide_eq_true_eq, pure_eq_ok]

/-! ### Bytes -/

abbrev Bytes := List UInt8

/-- A `checksum256`, as its 32 bytes. -/
abbrev Checksum := Bytes

/-- The number whose base 256 digits are the bytes, the first one highest. -/
def bigEndian (b : Bytes) : Nat := b.foldl (fun n byte => n * 256 + byte.toNat) 0

/-- The number whose base 256 digits are the bytes, the first one lowest. -/
def littleEndian (b : Bytes) : Nat := b.foldr (fun byte n => byte.toNat + 256 * n) 0

/-- The lowest `length` base 256 digits of a number, the lowest one first. -/
def littleEndianBytes : (length : Nat) → Nat → Bytes
  | 0, _ => []
  | length + 1, n => UInt8.ofNat n :: littleEndianBytes length (n / 256)

/-- A public key, by a number that orders keys as the program does. -/
abbrev PublicKey := Nat

end Eden.ChainPrimitives
