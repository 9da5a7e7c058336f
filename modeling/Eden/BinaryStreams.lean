import Mathlib.Data.List.Basic
import Mathlib.Data.Nat.Bitwise

/-!
Binary streams: numbers of 32 bits in a variable number of bytes, and vectors with their size in
front.
-/

namespace Eden.BinaryStreams

inductive StreamError
  | overrun
  | invalidVaruintEncoding
  deriving DecidableEq, Repr

/-! ### Numbers -/

/-- Seven bits in each byte, the low ones first; all bytes but the last have their high bit set. -/
def varuintDigits : (length : Nat) → Nat → List UInt8
  | 0, _ => []
  | length + 1, n =>
      if n < 128 then [UInt8.ofNat n]
      else UInt8.ofNat (n % 128 + 128) :: varuintDigits length (n / 128)

/-- `varuint32_to_bin`: 32 bits fit in five bytes. -/
def varuint32ToBin (n : Nat) : List UInt8 := varuintDigits 5 n

/-- The loop of `varuint32_from_bin`. -/
def varuint32From (result shift : Nat) : List UInt8 → Except StreamError (Nat × List UInt8)
  | [] => .error (if shift < 35 then .overrun else .invalidVaruintEncoding)
  | b :: rest =>
      if shift < 35 then
        let result := result ||| (b.toNat % 128) <<< shift % 2 ^ 32
        if 128 ≤ b.toNat then varuint32From result (shift + 7) rest else .ok (result, rest)
      else .error .invalidVaruintEncoding

def varuint32FromBin (bytes : List UInt8) : Except StreamError (Nat × List UInt8) :=
  varuint32From 0 0 bytes

theorem varuintDigits_length_le (length n : Nat) : (varuintDigits length n).length ≤ length := by
  induction length generalizing n with
  | zero => exact le_rfl
  | succ length ih =>
      rw [varuintDigits]
      split
      · exact Nat.succ_le_succ (Nat.zero_le length)
      · exact Nat.succ_le_succ (ih _)

theorem varuint32ToBin_length_le (n : Nat) : (varuint32ToBin n).length ≤ 5 :=
  varuintDigits_length_le 5 n

theorem varuint32ToBin_of_lt {n : Nat} (h : n < 128) : varuint32ToBin n = [UInt8.ofNat n] := by
  rw [varuint32ToBin, varuintDigits, if_pos h]

/-- One more digit above the bits that have been read. -/
theorem or_shiftLeft {result shift digit : Nat} (hresult : result < 2 ^ shift)
    (hdigit : digit * 2 ^ shift < 2 ^ 32) :
    result ||| digit <<< shift % 2 ^ 32 = result + digit * 2 ^ shift := by
  rw [Nat.shiftLeft_eq, Nat.mod_eq_of_lt hdigit, Nat.lor_comm, ← Nat.shiftLeft_eq,
    ← Nat.shiftLeft_add_eq_or_of_lt hresult, Nat.add_comm]

theorem toNat_ofNat_of_lt {n : Nat} (h : n < 256) : (UInt8.ofNat n).toNat = n := by
  rw [UInt8.toNat_ofNat', Nat.mod_eq_of_lt h]

/-- The digits of a number are read back above the bits that have been read before. -/
theorem varuint32From_digits {length n result shift : Nat} (rest : List UInt8)
    (hlength : shift + 7 * (length + 1) = 35) (hn : n < 128 ^ (length + 1))
    (hfits : n * 2 ^ shift < 2 ^ 32) (hresult : result < 2 ^ shift) :
    varuint32From result shift (varuintDigits (length + 1) n ++ rest) =
      .ok (result + n * 2 ^ shift, rest) := by
  have hshift : shift < 35 := by omega
  induction length generalizing n result shift with
  | zero =>
      have hsmall : n < 128 := by simpa using hn
      rw [varuintDigits, if_pos hsmall, List.singleton_append, varuint32From, if_pos hshift,
        toNat_ofNat_of_lt (by omega), if_neg (by omega), Nat.mod_eq_of_lt hsmall,
        or_shiftLeft hresult hfits]
  | succ length ih =>
      rw [varuintDigits]
      split
      · rename_i hsmall
        rw [List.singleton_append, varuint32From, if_pos hshift, toNat_ofNat_of_lt (by omega),
          if_neg (by omega), Nat.mod_eq_of_lt hsmall, or_shiftLeft hresult hfits]
      · have hbyte : n % 128 + 128 < 256 := by omega
        have hdigit : (n % 128 + 128) % 128 = n % 128 := by omega
        have hsplit : n % 128 * 2 ^ shift + n / 128 * 2 ^ (shift + 7) = n * 2 ^ shift := by
          rw [Nat.pow_add, Nat.mul_comm (2 ^ shift), ← Nat.mul_assoc, ← Nat.add_mul]
          congr 1
          omega
        have hlow : n % 128 * 2 ^ shift < 2 ^ 32 := by omega
        have hread : result + n % 128 * 2 ^ shift < 2 ^ (shift + 7) := by
          have hle : n % 128 * 2 ^ shift ≤ 127 * 2 ^ shift :=
            Nat.mul_le_mul_right _ (by omega)
          rw [Nat.pow_add]
          omega
        rw [List.cons_append, varuint32From, if_pos hshift, toNat_ofNat_of_lt hbyte,
          if_pos (by omega), hdigit, or_shiftLeft hresult hlow]
        rw [Nat.pow_succ] at hn
        rw [ih (by omega) (by omega) (by omega) hread (by omega), Nat.add_assoc, hsplit]

theorem varuint32FromBin_toBin {n : Nat} (h : n < 2 ^ 32) (rest : List UInt8) :
    varuint32FromBin (varuint32ToBin n ++ rest) = .ok (n, rest) := by
  have hread : varuint32From 0 0 (varuintDigits 5 n ++ rest) = .ok (0 + n * 2 ^ 0, rest) :=
    varuint32From_digits rest rfl (lt_trans h (by decide)) (by omega) (by decide)
  rwa [Nat.pow_zero, Nat.mul_one, Nat.zero_add] at hread

/-! ### Vectors -/

/-- The binary form of the values of a type, and how it is read from a stream. -/
structure Codec (α : Type) where
  toBin : α → List UInt8
  fromBin : List UInt8 → Except StreamError (α × List UInt8)

namespace Codec

variable {α : Type} (c : Codec α)

/-- A value is read back, whatever follows it. -/
def Inverts (a : α) : Prop := ∀ rest, c.fromBin (c.toBin a ++ rest) = .ok (a, rest)

/-- The elements one after the other. -/
def elementsToBin (l : List α) : List UInt8 := l.flatMap c.toBin

def vectorToBin (l : List α) : List UInt8 := varuint32ToBin l.length ++ c.elementsToBin l

def elementsFromBin : (size : Nat) → List UInt8 → Except StreamError (List α × List UInt8)
  | 0, bytes => .ok ([], bytes)
  | size + 1, bytes => do
      let (a, bytes) ← c.fromBin bytes
      let (l, bytes) ← elementsFromBin size bytes
      return (a :: l, bytes)

/-- `convert_from_bin` for a vector. -/
def vectorFromBin (bytes : List UInt8) : Except StreamError (List α) := do
  let (size, bytes) ← varuint32FromBin bytes
  let (l, _) ← c.elementsFromBin size bytes
  return l

variable {c}

theorem elementsFromBin_toBin {l : List α} (hl : ∀ a ∈ l, c.Inverts a) (rest : List UInt8) :
    c.elementsFromBin l.length (c.elementsToBin l ++ rest) = .ok (l, rest) := by
  induction l with
  | nil => rfl
  | cons a l ih =>
      rw [List.forall_mem_cons] at hl
      have hfirst := hl.1 (c.elementsToBin l ++ rest)
      have hbytes : c.elementsToBin (a :: l) ++ rest =
          c.toBin a ++ (c.elementsToBin l ++ rest) := by
        rw [elementsToBin, List.flatMap_cons, List.append_assoc]
        rfl
      rw [List.length_cons, elementsFromBin, hbytes, hfirst]
      change (c.elementsFromBin l.length _ >>= _) = _
      rw [ih hl.2]
      rfl

theorem vectorFromBin_toBin {l : List α} (hl : ∀ a ∈ l, c.Inverts a)
    (hlength : l.length < 2 ^ 32) : c.vectorFromBin (c.vectorToBin l) = .ok l := by
  have helements := elementsFromBin_toBin hl []
  rw [List.append_nil] at helements
  rw [vectorFromBin, vectorToBin, varuint32FromBin_toBin hlength]
  change (c.elementsFromBin l.length _ >>= _) = _
  rw [helements]
  rfl

theorem elementsToBin_append (l₁ l₂ : List α) :
    c.elementsToBin (l₁ ++ l₂) = c.elementsToBin l₁ ++ c.elementsToBin l₂ :=
  List.flatMap_append

theorem elementsToBin_singleton (a : α) : c.elementsToBin [a] = c.toBin a :=
  List.flatMap_singleton c.toBin a

end Codec

end Eden.BinaryStreams
