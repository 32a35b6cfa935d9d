import MotaTool.Base.Utf8
import Mathlib.Data.List.DropRight

/-!
# Hexadecimal text

`hexDecode` reads two digits of either case for each byte, and a text of odd
length has no value. What is printed for a byte string is read back, and what
can be read consists of digits alone. Texts are trimmed at both ends.
-/

namespace MotaTool.Base

def hexValue (b : UInt8) : Option ℕ :=
  if 0x41 ≤ b ∧ b ≤ 0x46 then some (b.toNat - 0x41 + 10)
  else if 0x61 ≤ b ∧ b ≤ 0x66 then some (b.toNat - 0x61 + 10)
  else if 0x30 ≤ b ∧ b ≤ 0x39 then some (b.toNat - 0x30)
  else none

def hexDecode : Bytes → Option Bytes
  | [] => some []
  | [_] => none
  | hi :: lo :: rest => do
    let high ← hexValue hi
    let low ← hexValue lo
    let bytes ← hexDecode rest
    some (UInt8.ofNat (16 * high + low) :: bytes)

section Digits

theorem hexValue_hexChar : ∀ d < 16, hexValue (hexChar d).val.toUInt8 = some d := by decide

theorem hexValue_ascii {b : UInt8} (h : (hexValue b).isSome = true) :
    48 ≤ b.toNat ∧ b.toNat ≤ 102 := by
  unfold hexValue at h
  simp only [UInt8.le_iff_toNat_le] at h
  split_ifs at h with hupper hlower hdigit
  · exact ⟨le_trans (by decide) hupper.1, le_trans hupper.2 (by decide)⟩
  · exact ⟨le_trans (by decide) hlower.1, hlower.2⟩
  · exact ⟨hdigit.1, le_trans hdigit.2 (by decide)⟩
  · cases h

theorem hexDecode_digits {text bytes : Bytes} (h : hexDecode text = some bytes) :
    text.length = 2 * bytes.length ∧ ∀ b ∈ text, (hexValue b).isSome = true := by
  induction text using hexDecode.induct generalizing bytes with
  | case1 =>
    cases h
    exact ⟨rfl, by simp⟩
  | case2 b => cases h
  | case3 hi lo rest ih =>
    obtain ⟨high, hhigh, h⟩ := Option.bind_eq_some_iff.mp h
    obtain ⟨low, hlow, h⟩ := Option.bind_eq_some_iff.mp h
    obtain ⟨tail, htail, h⟩ := Option.bind_eq_some_iff.mp h
    cases h
    obtain ⟨hlength, hdigits⟩ := ih htail
    constructor
    · simp only [List.length_cons, hlength]
      omega
    · intro b hb
      rcases List.mem_cons.mp hb with rfl | hb
      · rw [hhigh]
        rfl
      · rcases List.mem_cons.mp hb with rfl | hb
        · rw [hlow]
          rfl
        · exact hdigits b hb

theorem hexPadded_two (b : UInt8) : utf8 (hexPadded 2 b.toNat) =
    [(hexChar (b.toNat / 16)).val.toUInt8, (hexChar (b.toNat % 16)).val.toUInt8] := by
  have hb := b.toNat_lt
  have hhigh : b.toNat / 16 % 16 = b.toNat / 16 := Nat.mod_eq_of_lt (by omega)
  rw [utf8_hexPadded (show b.toNat < 16 ^ (1 + 1) from hb)]
  simp [hexTail, hhigh]

theorem utf8_join (parts : List String) : utf8 (String.join parts) = parts.flatMap utf8 := by
  induction parts with
  | nil => rfl
  | cons part parts ih => rw [String.join_cons, utf8_append, ih, List.flatMap_cons]

theorem hexDecode_hexBytes (bytes : Bytes) : hexDecode (utf8 (hexBytes bytes)) = some bytes := by
  rw [hexBytes, utf8_join, List.flatMap_map]
  induction bytes with
  | nil => rfl
  | cons b bytes ih =>
    have hb := b.toNat_lt
    have hvalue : 16 * (b.toNat / 16) + b.toNat % 16 = b.toNat := Nat.div_add_mod _ _
    rw [List.flatMap_cons, hexPadded_two, List.cons_append, List.cons_append, List.nil_append,
      hexDecode, hexValue_hexChar _ (by omega), hexValue_hexChar _ (by omega), ih]
    simp only [Option.bind_eq_bind, Option.bind_some, hvalue, UInt8.ofNat_toNat]

theorem hexBytes_injective {a b : Bytes} (h : hexBytes a = hexBytes b) : a = b := by
  have hdecode := hexDecode_hexBytes a
  rw [h, hexDecode_hexBytes] at hdecode
  exact (Option.some.inj hdecode).symm

theorem hexPadded_length {w n : ℕ} (h : n < 16 ^ (w + 1)) :
    (hexPadded (w + 1) n).toList.length = w + 1 := by
  rw [hexPadded_eq h, String.toList_ofList, hexTail_length]

theorem hexBytes_length (bytes : Bytes) : (hexBytes bytes).toList.length = 2 * bytes.length := by
  induction bytes with
  | nil => rfl
  | cons b bytes ih =>
    have hb : b.toNat < 16 ^ (1 + 1) := b.toNat_lt
    have hcons : hexBytes (b :: bytes) = hexPadded 2 b.toNat ++ hexBytes bytes := by
      rw [hexBytes, List.map_cons, String.join_cons, ← hexBytes]
    rw [hcons, String.toList_append, List.length_append, ih, hexPadded_length hb,
      List.length_cons]
    omega

end Digits

section LowerCase

variable {w n m : ℕ}

def hexLower (w n : ℕ) : String :=
  String.ofList (List.replicate (w - (Nat.toDigits 16 n).length) '0' ++ Nat.toDigits 16 n)

theorem hexLower_upper (w n : ℕ) :
    String.ofList ((hexLower w n).toList.map Char.toUpper) = hexPadded w n := by
  rw [hexLower, String.toList_ofList, List.map_append, List.map_replicate, hexPadded, hexDigits,
    List.length_map]
  rfl

theorem hexLower_length (h : n < 16 ^ (w + 1)) : (hexLower (w + 1) n).toList.length = w + 1 := by
  have hupper := hexPadded_length h
  rwa [← hexLower_upper, String.toList_ofList, List.length_map] at hupper

theorem hexLower_injective (hn : n < 16 ^ (w + 1)) (hm : m < 16 ^ (w + 1))
    (h : hexLower (w + 1) n = hexLower (w + 1) m) : n = m := by
  have hupper := hexLower_upper (w + 1) n
  rw [h, hexLower_upper] at hupper
  exact hexPadded_injective hn hm hupper.symm

end LowerCase

section Trim

variable {α : Type} {p : α → Bool} {before middle after l : List α}

def trimWhile (p : α → Bool) (l : List α) : List α := (l.dropWhile p).rdropWhile p

theorem trimWhile_split (p : α → Bool) (l : List α) : ∃ before after,
    l = before ++ trimWhile p l ++ after ∧ (∀ a ∈ before, p a = true) ∧
      ∀ a ∈ after, p a = true := by
  refine ⟨l.takeWhile p, (l.dropWhile p).rtakeWhile p, ?_, fun a ha => List.mem_takeWhile_imp ha,
    fun a ha => List.mem_rtakeWhile_imp ha⟩
  rw [trimWhile, List.append_assoc, List.rdropWhile_append_rtakeWhile,
    List.takeWhile_append_dropWhile]

theorem dropWhile_append (hbefore : ∀ a ∈ before, p a = true)
    (hmiddle : ∀ a ∈ middle, p a = false) (hne : middle ≠ []) :
    (before ++ (middle ++ after)).dropWhile p = middle ++ after := by
  rw [List.dropWhile_append_of_pos hbefore]
  cases middle with
  | nil => exact absurd rfl hne
  | cons a middle => exact List.dropWhile_cons_of_neg (by simp [hmiddle a List.mem_cons_self])

theorem trimWhile_append (hbefore : ∀ a ∈ before, p a = true) (hafter : ∀ a ∈ after, p a = true)
    (hmiddle : ∀ a ∈ middle, p a = false) (hne : middle ≠ []) :
    trimWhile p (before ++ middle ++ after) = middle := by
  have hback := @dropWhile_append α p after.reverse middle.reverse []
    (fun a ha => hafter a (List.mem_reverse.mp ha))
    (fun a ha => hmiddle a (List.mem_reverse.mp ha)) (by simpa using hne)
  rw [trimWhile, List.append_assoc, dropWhile_append hbefore hmiddle hne, List.rdropWhile,
    List.reverse_append, ← List.append_nil middle.reverse, hback, List.append_nil,
    List.reverse_reverse]

end Trim

end MotaTool.Base
