import MotaTool.Base.Hex
import MotaTool.Crypto
import MotaTool.Serve.Attach

/-!
# Key files

A key file holds 64 hexadecimal digits between white space, or the 32 bytes of
the key themselves. The digits alone are longer than the bytes, so a file is
never both, and it means at most one key.
-/

namespace MotaTool.Cli

open Base Run Serve

/-- What `create_dir_all` was asked for. -/
inductive Asked
  | directory (path : String)
  | parentOf (path : String)

/-- The file every path leads to, what each file reads as or the cause that it does not, and the
cause why a path cannot be written once the directories that were asked for are there. -/
structure Host where
  file : String → ℕ
  content : ℕ → Except String Bytes
  asked : List Asked
  refuses : List Asked → String → Option String

namespace Host

def read (host : Host) (path : String) : Except String Bytes := host.content (host.file path)

def createDirAll (host : Host) (asked : Asked) : Host :=
  { host with asked := host.asked ++ [asked] }

def write (host : Host) (path : String) (bytes : Bytes) : Except String Host :=
  match host.refuses host.asked path with
  | some cause => .error cause
  | none => .ok { host with content := Function.update host.content (host.file path) (.ok bytes) }

end Host

def trim (s : String) : String := String.ofList (trimWhile isWhitespace s.toList)

def asKey (bytes : Bytes) : Option (Octets 32) :=
  if h : bytes.length = 32 then some ⟨bytes, h⟩ else none

def hexKey (raw : Bytes) : Option (Octets 32) := do
  let text ← (fromUtf8 raw).toOption
  let bytes ← hexDecode (utf8 (trim text))
  asKey bytes

def loadKey32 (host : Host) (path : String) : Run (Octets 32) :=
  match host.read path with
  | .error cause => .error (.error [s!"cannot read key file {path}", cause])
  | .ok raw =>
    ofOption ((hexKey raw).or (asKey raw)) s!"key must be 64 hex chars or 32 raw bytes: {path}"

def keyLine (key : Octets 32) : Bytes := utf8 (hexBytes key.val ++ "\n")

/-- A text that spells the key out between white space. -/
def HexText (raw : Bytes) (key : Octets 32) : Prop :=
  ∃ before digits after, raw = utf8 (String.ofList (before ++ digits ++ after)) ∧
    (∀ ch ∈ before, isWhitespace ch = true) ∧ (∀ ch ∈ after, isWhitespace ch = true) ∧
    hexDecode (utf8 (String.ofList digits)) = some key.val

section Keys

variable {raw : Bytes} {key : Octets 32}

theorem fromUtf8_eq_ok {text : String} : fromUtf8 raw = .ok text ↔ raw = utf8 text := by
  have hbytes : (⟨(utf8 text).toArray⟩ : ByteArray) = text.toByteArray := rfl
  unfold fromUtf8 String.fromUTF8?
  constructor
  · intro h
    split_ifs at h with hvalid
    · cases h
      rfl
    · simp [bail] at h
  · rintro rfl
    rw [hbytes, dif_pos text.isValidUTF8]
    rfl

theorem asKey_eq_some : asKey raw = some key ↔ raw = key.val := by
  unfold asKey
  constructor
  · intro h
    split_ifs at h with hlength
    cases h
    rfl
  · rintro rfl
    rw [dif_pos key.length_val]

theorem hexDecode_solid {digits : List Char} {bytes : Bytes}
    (h : hexDecode (utf8 (String.ofList digits)) = some bytes) :
    ∀ ch ∈ digits, isWhitespace ch = false := by
  intro ch hch
  have hdigits : ∀ b ∈ String.utf8EncodeChar ch, 48 ≤ b.toNat ∧ b.toNat ≤ 102 := by
    intro b hb
    apply hexValue_ascii
    apply (hexDecode_digits h).2
    rw [utf8_ofList]
    exact List.mem_flatMap.mpr ⟨ch, hch, hb⟩
  by_cases hlow : ch.toNat < 128
  · rw [utf8EncodeChar_ascii hlow] at hdigits
    have hrange := hdigits _ (List.mem_singleton_self _)
    rw [UInt8.toNat_ofNat', Nat.mod_eq_of_lt (by omega)] at hrange
    simp only [isWhitespace, Bool.or_eq_false_iff, Bool.and_eq_false_iff, decide_eq_false_iff_not,
      beq_eq_false_iff_ne]
    omega
  · obtain ⟨b, hb⟩ := List.exists_mem_of_ne_nil _ (@String.utf8EncodeChar_ne_nil ch)
    have hhigh := utf8EncodeChar_high (not_lt.mp hlow) hb
    have hrange := hdigits b hb
    omega

theorem trim_solid {before digits after : List Char}
    (hbefore : ∀ ch ∈ before, isWhitespace ch = true)
    (hafter : ∀ ch ∈ after, isWhitespace ch = true)
    (hdigits : hexDecode (utf8 (String.ofList digits)) = some key.val) :
    trim (String.ofList (before ++ digits ++ after)) = String.ofList digits := by
  have hne : digits ≠ [] := by
    rintro rfl
    have hlength := (hexDecode_digits hdigits).1
    rw [key.length_val, utf8_ofList] at hlength
    cases hlength
  rw [trim, String.toList_ofList,
    trimWhile_append hbefore hafter (hexDecode_solid hdigits) hne]

theorem hexKey_eq_some : hexKey raw = some key ↔ HexText raw key := by
  constructor
  · intro h
    obtain ⟨text, htext, h⟩ := Option.bind_eq_some_iff.mp h
    obtain ⟨bytes, hbytes, h⟩ := Option.bind_eq_some_iff.mp h
    obtain rfl := asKey_eq_some.mp h
    have hraw : raw = utf8 text := by
      cases hread : fromUtf8 raw with
      | error fault =>
        rw [hread] at htext
        cases htext
      | ok read =>
        rw [hread] at htext
        cases htext
        exact fromUtf8_eq_ok.mp hread
    obtain ⟨before, after, hsplit, hbefore, hafter⟩ := trimWhile_split isWhitespace text.toList
    refine ⟨before, trimWhile isWhitespace text.toList, after, ?_, hbefore, hafter, hbytes⟩
    rw [← hsplit, String.ofList_toList, hraw]
  · rintro ⟨before, digits, after, rfl, hbefore, hafter, hdigits⟩
    rw [hexKey, fromUtf8_eq_ok.mpr rfl]
    simp only [Except.toOption, Option.bind_eq_bind, Option.bind_some,
      trim_solid hbefore hafter hdigits, hdigits]
    exact asKey_eq_some.mpr rfl

theorem HexText.length (h : HexText raw key) : 64 ≤ raw.length := by
  obtain ⟨before, digits, after, rfl, -, -, hdigits⟩ := h
  have hlength := (hexDecode_digits hdigits).1
  rw [key.length_val] at hlength
  simp only [utf8_ofList, List.flatMap_append, List.length_append] at hlength ⊢
  omega

theorem hexText_keyLine (key : Octets 32) : HexText (keyLine key) key := by
  refine ⟨[], (hexBytes key.val).toList, ['\n'], ?_, by simp, by simp [isWhitespace], ?_⟩
  · rw [keyLine, List.nil_append, String.ofList_append, String.ofList_toList]
  · rw [String.ofList_toList]
    exact hexDecode_hexBytes key.val

theorem loadKey32_ok {host : Host} {path : String} : loadKey32 host path = .ok key ↔
    ∃ raw, host.read path = .ok raw ∧ (HexText raw key ∨ raw = key.val) := by
  unfold loadKey32
  cases hread : host.read path with
  | error cause => simp
  | ok raw =>
    simp only [ofOption_eq_ok, Option.or_eq_some_iff, hexKey_eq_some, asKey_eq_some,
      Except.ok.injEq, exists_eq_left']
    constructor
    · exact Or.imp_right And.right
    · rintro (htext | rfl)
      · exact .inl htext
      · refine .inr ⟨Option.eq_none_iff_forall_ne_some.mpr fun other hother => ?_, rfl⟩
        have hlong := (hexKey_eq_some.mp hother).length
        rw [key.length_val] at hlong
        omega

end Keys

/-- A key file is read exactly when it spells a key out in digits or is the bytes of one; it
means one key, which for a file that `keygen` wrote is the key it was written for. Otherwise the
error names the file. -/
theorem loadKey32_exact (host : Host) (path : String) :
    (∀ key, loadKey32 host path = .ok key ↔
      ∃ raw, host.read path = .ok raw ∧ (HexText raw key ∨ raw = key.val)) ∧
    (∀ key, host.read path = .ok (keyLine key) → loadKey32 host path = .ok key) ∧
    ((∃ key, loadKey32 host path = .ok key) ∨
      (∃ cause, host.read path = .error cause ∧
        loadKey32 host path = .error (.error [s!"cannot read key file {path}", cause])) ∨
      ∃ raw, host.read path = .ok raw ∧ (∀ key, ¬HexText raw key) ∧ raw.length ≠ 32 ∧
        loadKey32 host path =
          .error (.error [s!"key must be 64 hex chars or 32 raw bytes: {path}"])) := by
  refine ⟨fun key => loadKey32_ok, fun key hread => ?_, ?_⟩
  · exact loadKey32_ok.mpr ⟨_, hread, .inl (hexText_keyLine key)⟩
  · cases hread : host.read path with
    | error cause => exact .inr (.inl ⟨cause, rfl, by rw [loadKey32, hread]⟩)
    | ok raw =>
      cases hkey : (hexKey raw).or (asKey raw) with
      | some key => exact .inl ⟨key, by rw [loadKey32, hread]; exact ofOption_eq_ok.mpr hkey⟩
      | none =>
        obtain ⟨hhex, hbytes⟩ := Option.or_eq_none_iff.mp hkey
        refine .inr (.inr ⟨raw, rfl, fun key htext => ?_, fun hlength => ?_, ?_⟩)
        · rw [hexKey_eq_some.mpr htext] at hhex
          cases hhex
        · rw [asKey, dif_pos hlength] at hbytes
          cases hbytes
        · simp only [loadKey32, hread, hkey]
          rfl

end MotaTool.Cli
