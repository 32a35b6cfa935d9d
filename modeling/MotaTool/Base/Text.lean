import MotaTool.Base.Octets

/-!
# Text: UTF-8 bytes, lossy decoding and hexadecimal rendering

`utf8Lossy` follows the table of well-formed UTF-8 sequences: every maximal
prefix of an ill-formed sequence becomes one replacement character.
-/

namespace MotaTool.Base

def utf8 (s : String) : Bytes := s.toByteArray.data.toList

def ascii (cs : List Char) : Bytes := cs.map Char.toUInt8

section Utf8

theorem utf8_append (s t : String) : utf8 (s ++ t) = utf8 s ++ utf8 t := by
  rw [utf8, String.toByteArray_append, ByteArray.data_append, Array.toList_append]
  rfl

theorem utf8_injective {s t : String} (h : utf8 s = utf8 t) : s = t :=
  String.toByteArray_inj.mp (ByteArray.ext (Array.toList_inj.mp h))

theorem utf8_ofList (l : List Char) :
    utf8 (String.ofList l) = l.flatMap String.utf8EncodeChar := by
  rw [utf8, String.toByteArray_ofList, List.utf8Encode, List.data_toByteArray]

theorem utf8_ofList_ascii {l : List Char} (h : ∀ c ∈ l, c.val ≤ 0x7f) :
    utf8 (String.ofList l) = l.map fun c => c.val.toUInt8 := by
  rw [utf8_ofList]
  induction l with
  | nil => rfl
  | cons c l ih =>
    have hsize : c.utf8Size = 1 := if_pos (h c List.mem_cons_self)
    rw [List.flatMap_cons, String.utf8EncodeChar_eq_singleton hsize,
      ih fun d hd => h d (List.mem_cons_of_mem c hd)]
    rfl

end Utf8

section Lossy

def isCont (b : UInt8) : Bool := 0x80 ≤ b && b ≤ 0xbf

def secondOk (lead b : UInt8) : Bool :=
  if lead = 0xe0 then 0xa0 ≤ b && b ≤ 0xbf
  else if lead = 0xed then 0x80 ≤ b && b ≤ 0x9f
  else if lead = 0xf0 then 0x90 ≤ b && b ≤ 0xbf
  else if lead = 0xf4 then 0x80 ≤ b && b ≤ 0x8f
  else isCont b

def leadWidth (b : UInt8) : ℕ :=
  if b < 0x80 then 1
  else if 0xc2 ≤ b && b ≤ 0xdf then 2
  else if 0xe0 ≤ b && b ≤ 0xef then 3
  else if 0xf0 ≤ b && b ≤ 0xf4 then 4
  else 0

def contBits (b : UInt8) : ℕ := b.toNat % 64

def decodeStep (lead : UInt8) (rest : Bytes) : ℕ × Option Char :=
  let low := fun i => contBits (rest.getD i 0)
  let width := leadWidth lead
  if width = 0 then (1, none)
  else if width = 1 then (1, some (Char.ofNat lead.toNat))
  else if width = 2 then
    if isCont (rest.getD 0 0) then (2, some (Char.ofNat (lead.toNat % 32 * 64 + low 0)))
    else (1, none)
  else if !secondOk lead (rest.getD 0 0) then (1, none)
  else if !isCont (rest.getD 1 0) then (2, none)
  else if width = 3 then
    (3, some (Char.ofNat (lead.toNat % 16 * 4096 + low 0 * 64 + low 1)))
  else if !isCont (rest.getD 2 0) then (3, none)
  else (4, some (Char.ofNat (lead.toNat % 8 * 262144 + low 0 * 4096 + low 1 * 64 + low 2)))

def lossyChars : ℕ → Bytes → List Char
  | 0, _ => []
  | _, [] => []
  | fuel + 1, b :: rest =>
    let (width, c) := decodeStep b rest
    c.getD '\uFFFD' :: lossyChars fuel (rest.drop (width - 1))

/-- Every step takes at least one byte, so the length bounds the number of steps. -/
def utf8Lossy (bytes : Bytes) : String := String.ofList (lossyChars bytes.length bytes)

def utf8Error : ℕ → ℕ → Bytes → String
  | 0, _, _ => ""
  | _, _, [] => ""
  | fuel + 1, start, b :: rest =>
    match decodeStep b rest with
    | (width, some _) => utf8Error fuel (start + width) (rest.drop (width - 1))
    | (width, none) =>
      if leadWidth b ≠ 0 ∧ rest.length < width then
        s!"incomplete utf-8 byte sequence from index {start}"
      else s!"invalid utf-8 sequence of {width} bytes from index {start}"

/-- `std::str::from_utf8`. -/
def fromUtf8 (bytes : Bytes) : Run String :=
  match String.fromUTF8? ⟨bytes.toArray⟩ with
  | some text => .ok text
  | none => Run.bail (utf8Error bytes.length 0 bytes)

end Lossy

section Hexadecimal

def hexDigits (n : ℕ) : List Char := (Nat.toDigits 16 n).map Char.toUpper

def hexUpper (n : ℕ) : String := String.ofList (hexDigits n)

def hex32 (v : UInt32) : String := hexUpper v.toNat

def hexPadded (w n : ℕ) : String :=
  String.ofList (List.replicate (w - (hexDigits n).length) '0' ++ hexDigits n)

def hexBytes (bytes : Bytes) : String := String.join (bytes.map fun b => hexPadded 2 b.toNat)

def hexLowerBytes (bytes : Bytes) : String :=
  String.ofList (bytes.flatMap fun b =>
    [Nat.digitChar (b.toNat / 16), Nat.digitChar (b.toNat % 16)])

def hexChar (d : ℕ) : Char := (Nat.digitChar d).toUpper

def hexTail : ℕ → ℕ → List Char
  | 0, _ => []
  | w + 1, n => hexTail w (n / 16) ++ [hexChar (n % 16)]

theorem hexDigits_eq (n : ℕ) : hexDigits n =
    if n < 16 then [hexChar n] else hexDigits (n / 16) ++ [hexChar (n % 16)] := by
  rw [hexDigits, Nat.toDigits_eq_if (by decide)]
  split_ifs
  · rfl
  · rw [List.map_append]
    rfl

theorem hexPadded_eq {w n : ℕ} (h : n < 16 ^ (w + 1)) :
    hexPadded (w + 1) n = String.ofList (hexTail (w + 1) n) := by
  rw [hexPadded]
  congr 1
  induction w generalizing n with
  | zero =>
    have hn : n < 16 := by rwa [Nat.zero_add, Nat.pow_one] at h
    rw [hexDigits_eq, if_pos hn]
    simp [hexTail, Nat.mod_eq_of_lt hn]
  | succ w ih =>
    have hrest : n / 16 < 16 ^ (w + 1) := by
      rw [Nat.pow_succ] at h
      omega
    rw [hexTail, ← ih hrest, hexDigits_eq]
    by_cases hn : n < 16
    · have hzero : hexDigits (n / 16) = ['0'] := by
        rw [Nat.div_eq_of_lt hn]
        decide
      rw [if_pos hn, hzero, Nat.mod_eq_of_lt hn, List.length_singleton, List.length_singleton,
        Nat.add_sub_cancel, Nat.add_sub_cancel, ← List.replicate_succ']
    · rw [if_neg hn, List.length_append, List.length_singleton, Nat.add_sub_add_right,
        List.append_assoc]

theorem hexTail_length (w n : ℕ) : (hexTail w n).length = w := by
  induction w generalizing n with
  | zero => rfl
  | succ w ih => rw [hexTail, List.length_append, ih, List.length_singleton]

theorem mem_hexTail {c : Char} {w n : ℕ} (h : c ∈ hexTail w n) : ∃ d < 16, c = hexChar d := by
  induction w generalizing n with
  | zero => cases h
  | succ w ih =>
    rcases List.mem_append.mp h with h | h
    · exact ih h
    · exact ⟨n % 16, Nat.mod_lt n (by decide), List.mem_singleton.mp h⟩

theorem hexChar_ascii {c : Char} {w n : ℕ} (h : c ∈ hexTail w n) :
    c.val ≤ 0x7f ∧ c.val.toUInt8 ≠ 0 := by
  have hall : ∀ d < 16, (hexChar d).val ≤ 0x7f ∧ (hexChar d).val.toUInt8 ≠ 0 := by decide
  obtain ⟨d, hd, rfl⟩ := mem_hexTail h
  exact hall d hd

theorem hexTail_injective {w n m : ℕ} (hn : n < 16 ^ w) (hm : m < 16 ^ w)
    (h : hexTail w n = hexTail w m) : n = m := by
  have hchar : ∀ a < 16, ∀ b < 16, hexChar a = hexChar b → a = b := by decide
  induction w generalizing n m with
  | zero =>
    rw [Nat.pow_zero] at hn hm
    omega
  | succ w ih =>
    obtain ⟨hhigh, hlow⟩ := List.append_inj' h rfl
    rw [Nat.pow_succ] at hn hm
    have hdiv := ih (n := n / 16) (m := m / 16) (by omega) (by omega) hhigh
    have hmod := hchar _ (Nat.mod_lt n (by decide)) _ (Nat.mod_lt m (by decide))
      (List.cons.inj hlow).1
    omega

theorem hexPadded_injective {w n m : ℕ} (hn : n < 16 ^ (w + 1)) (hm : m < 16 ^ (w + 1))
    (h : hexPadded (w + 1) n = hexPadded (w + 1) m) : n = m := by
  rw [hexPadded_eq hn, hexPadded_eq hm] at h
  exact hexTail_injective hn hm (String.ofList_injective h)

theorem utf8_hexPadded {w n : ℕ} (h : n < 16 ^ (w + 1)) :
    utf8 (hexPadded (w + 1) n) = (hexTail (w + 1) n).map fun c => c.val.toUInt8 := by
  rw [hexPadded_eq h, utf8_ofList_ascii fun c hc => (hexChar_ascii hc).1]

end Hexadecimal

end MotaTool.Base
