import MotaTool.Base.Utf8
import MotaTool.Base.Words

/-!
# Decimal numbers

`parseU32` reads a numeral digit by digit with checked arithmetic. On digits
alone it returns their value, as long as that has 32 bits, and the numeral that
is printed for a number is read back as the number.
-/

namespace MotaTool.Base

def checkedMul (bits a b : ℕ) : Option ℕ := if a * b < 2 ^ bits then some (a * b) else none

def isAsciiDigit (b : UInt8) : Bool := 0x30 ≤ b && b ≤ 0x39

def parseDigits : List Char → ℕ → Option ℕ
  | [], value => some value
  | ch :: rest, value =>
    if ch.isDigit then do
      let scaled ← checkedMul 32 value 10
      let value ← checkedAdd 32 scaled (ch.toNat - '0'.toNat)
      parseDigits rest value
    else none

def parseU32 : List Char → Option ℕ
  | [] => none
  | ['+'] => none
  | '+' :: rest => parseDigits rest 0
  | chars => parseDigits chars 0

def decimal (chars : List Char) : ℕ := Nat.ofDigitChars 10 chars 0

section Digits

variable {chars : List Char}

theorem isDigit_iff (ch : Char) : ch.isDigit = true ↔ 48 ≤ ch.toNat ∧ ch.toNat ≤ 57 := by
  simp only [Char.isDigit, Bool.and_eq_true, decide_eq_true_eq, ge_iff_le, UInt32.le_iff_toNat_le]
  rfl

theorem isAsciiDigit_iff (b : UInt8) : isAsciiDigit b = true ↔ 48 ≤ b.toNat ∧ b.toNat ≤ 57 := by
  simp [isAsciiDigit, UInt8.le_iff_toNat_le]

theorem utf8_digits_iff : (utf8 (String.ofList chars)).all isAsciiDigit = true ↔
    ∀ ch ∈ chars, ch.isDigit = true := by
  rw [utf8_ofList, List.all_eq_true]
  simp only [List.mem_flatMap, forall_exists_index, and_imp, isAsciiDigit_iff, isDigit_iff]
  constructor
  · intro h ch hch
    by_cases hlow : ch.toNat < 128
    · have hbyte := h (UInt8.ofNat ch.toNat) ch hch (by rw [utf8EncodeChar_ascii hlow]; simp)
      rw [UInt8.toNat_ofNat'] at hbyte
      omega
    · obtain ⟨b, hb⟩ := List.exists_mem_of_ne_nil _ (@String.utf8EncodeChar_ne_nil ch)
      have hdigit := h b ch hch hb
      have hhigh := utf8EncodeChar_high (not_lt.mp hlow) hb
      omega
  · intro h b ch hch hb
    have hdigit := h ch hch
    rw [utf8EncodeChar_ascii (by omega), List.mem_singleton] at hb
    rw [hb, UInt8.toNat_ofNat']
    omega

theorem le_ofDigitChars (chars : List Char) (value : ℕ) :
    value ≤ Nat.ofDigitChars 10 chars value := by
  induction chars generalizing value with
  | nil => rw [Nat.ofDigitChars_nil]
  | cons ch chars ih =>
    rw [Nat.ofDigitChars_cons]
    exact le_trans (by omega) (ih _)

theorem parseDigits_eq (h : ∀ ch ∈ chars, ch.isDigit = true) {value : ℕ} (hvalue : value < 2 ^ 32) :
    parseDigits chars value = if Nat.ofDigitChars 10 chars value < 2 ^ 32 then
      some (Nat.ofDigitChars 10 chars value) else none := by
  induction chars generalizing value with
  | nil => rw [parseDigits, Nat.ofDigitChars_nil, if_pos hvalue]
  | cons ch chars ih =>
    have hgrow := le_ofDigitChars chars (10 * value + (ch.toNat - '0'.toNat))
    rw [Nat.ofDigitChars_cons, parseDigits, if_pos (h ch List.mem_cons_self), checkedMul]
    by_cases hscaled : value * 10 < 2 ^ 32
    · rw [if_pos hscaled, Option.bind_eq_bind, Option.bind_some, checkedAdd, Nat.mul_comm value]
      by_cases hsum : 10 * value + (ch.toNat - '0'.toNat) < 2 ^ 32
      · rw [if_pos hsum]
        exact ih (fun d hd => h d (List.mem_cons_of_mem ch hd)) hsum
      · rw [if_neg hsum, if_neg (by omega)]
        rfl
    · rw [if_neg hscaled, if_neg (by omega)]
      rfl

theorem parseU32_digits (hne : chars ≠ []) (h : ∀ ch ∈ chars, ch.isDigit = true) :
    parseU32 chars = if decimal chars < 2 ^ 32 then some (decimal chars) else none := by
  have hparse : parseU32 chars = parseDigits chars 0 := by
    unfold parseU32
    split
    · exact absurd rfl hne
    · exact absurd (h '+' List.mem_cons_self) (by decide)
    · exact absurd (h '+' List.mem_cons_self) (by decide)
    · rfl
  rw [hparse, parseDigits_eq h (by decide)]
  rfl

theorem decimal_toDigits (n : ℕ) : decimal (Nat.toDigits 10 n) = n :=
  Nat.ofDigitChars_ten_toDigits

end Digits

end MotaTool.Base
