import MotaTool.Base.Utf8
import MotaTool.Endf

/-!
# The identity in a trailer

A trailer is a record of six fields. Reading the identity back from the fields
that were written returns it, as long as its hardware tag fits the NUL-padded
field; an image that has a trailer is never given a second one.
-/

namespace MotaTool.Endf

open Base Run Format

def trailerFields (c : Crypto) (image : Bytes) (ident : FwIdent) : List (ℕ × Bytes) :=
  [(0, ENDF_MAGIC), (4, toLe 4 image.length), (8, (c.mh8 image).val),
    (ENDF_OFF_FWVER, u32Le ident.fwVersion), (ENDF_OFF_TARGET, u32Le ident.targetId),
    (ENDF_OFF_HWID, (Octets.padded HW_ID_LEN (utf8 ident.hwId)).val)]

def hwField (image : Bytes) : Bytes :=
  ((image.drop (image.length - ENDF_LEN)).drop ENDF_OFF_HWID).take HW_ID_LEN

structure FitsField (hwId : String) : Prop where
  length : (utf8 hwId).length ≤ HW_ID_LEN
  nonzero : ∀ b ∈ utf8 hwId, b ≠ 0

theorem cstr_padded {hwId : String} (h : FitsField hwId) :
    cstr (Octets.padded HW_ID_LEN (utf8 hwId)).val = hwId := by
  rw [Octets.padded_val h.length, cstr, (takeWhile_padded _ h.nonzero).1, utf8Lossy_utf8]

section Fields

variable {c : Crypto} {image : Bytes} {ident : FwIdent}

theorem trailer_fields : trailer c image ident = fieldBytes (trailerFields c image ident) := by
  simp [trailer, fieldBytes, trailerFields]

theorem trailerFields_tile : Tiles 0 (trailerFields c image ident) ENDF_LEN := by
  have hmagic : ENDF_MAGIC.length = 4 := rfl
  simp [trailerFields, tiles_cons, tiles_nil, Octets.length_val, hmagic, ENDF_OFF_FWVER,
    ENDF_OFF_TARGET, ENDF_OFF_HWID, HW_ID_LEN, ENDF_LEN]

theorem trailer_read {off : ℕ} {bytes : Bytes}
    (h : (off, bytes) ∈ trailerFields c image ident) :
    ((trailer c image ident).drop off).take bytes.length = bytes := by
  obtain ⟨-, hread⟩ := trailerFields_tile.read_back h
  rwa [Nat.sub_zero, ← trailer_fields] at hread

theorem trailer_rdU32 {off : ℕ} {v : UInt32} (hoff : off + 4 ≤ ENDF_LEN)
    (h : (off, u32Le v) ∈ trailerFields c image ident) :
    rdU32 (trailer c image ident) off = .ok v := by
  refine rdU32_eq_ok.mpr ⟨by rwa [trailer_length], ?_⟩
  have hread := trailer_read h
  rw [u32Le_length] at hread
  exact hread.symm

theorem drop_trailer : (image ++ trailer c image ident).drop
    ((image ++ trailer c image ident).length - ENDF_LEN) = trailer c image ident := by
  rw [trailed_body, List.drop_left]

theorem hwField_trailer : hwField (image ++ trailer c image ident) =
    (Octets.padded HW_ID_LEN (utf8 ident.hwId)).val := by
  have hread := @trailer_read c image ident ENDF_OFF_HWID
    (Octets.padded HW_ID_LEN (utf8 ident.hwId)).val (by simp [trailerFields])
  rw [Octets.length_val] at hread
  rw [hwField, drop_trailer, hread]

theorem trailing_length (h : hasEndf c image = .ok true) :
    (image.drop (image.length - ENDF_LEN)).length = ENDF_LEN := by
  have hlen := hasEndf_length h
  rw [List.length_drop]
  omega

theorem parseIdent_trailed (h : hasEndf c image = .ok true) {fwVersion targetId : UInt32}
    (hversion : rdU32 (image.drop (image.length - ENDF_LEN)) ENDF_OFF_FWVER = .ok fwVersion)
    (htarget : rdU32 (image.drop (image.length - ENDF_LEN)) ENDF_OFF_TARGET = .ok targetId) :
    parseIdent c image = .ok ⟨fwVersion, targetId, cstr (hwField image)⟩ := by
  have hfit := trailing_length h
  have htake := List.take_of_length_le hfit.le
  have hsub : image.length - (image.length - ENDF_LEN) = ENDF_LEN := by
    rw [← List.length_drop, hfit]
  rw [parseIdent, h, ok_bind, if_pos rfl, slice_ok (Nat.sub_le _ _) le_rfl, ok_bind, hsub, htake,
    hversion, ok_bind, htarget, ok_bind,
    slice_ok (Nat.le_add_right _ _) (by rw [hfit]; decide), ok_bind, Nat.add_sub_cancel_left,
    hwField]

theorem parseIdent_reads (h : hasEndf c image = .ok true) : ∃ fwVersion targetId,
    parseIdent c image = .ok ⟨fwVersion, targetId, cstr (hwField image)⟩ := by
  have hfit := trailing_length h
  exact ⟨_, _, parseIdent_trailed h (rdU32_ok (by rw [hfit]; decide))
    (rdU32_ok (by rw [hfit]; decide))⟩

theorem parseIdent_hwId (h : hasEndf c image = .ok true) (hread : parseIdent c image = .ok ident) :
    ident.hwId = cstr (hwField image) := by
  obtain ⟨fwVersion, targetId, hok⟩ := parseIdent_reads h
  cases hok.symm.trans hread
  rfl

theorem parseIdent_raw (h : hasEndf c image = .ok false) :
    parseIdent c image = .ok FwIdent.default := by
  rw [parseIdent, h]
  rfl

theorem parseIdent_ok (image : Bytes) : ∃ ident, parseIdent c image = .ok ident := by
  obtain ⟨trailed, htrailed⟩ := @hasEndf_ok c image
  cases trailed with
  | false => exact ⟨FwIdent.default, parseIdent_raw htrailed⟩
  | true =>
    obtain ⟨fwVersion, targetId, hok⟩ := parseIdent_reads htrailed
    exact ⟨_, hok⟩

theorem parseIdent_trailer (hlen : image.length < 2 ^ 32) (hfits : FitsField ident.hwId) :
    parseIdent c (image ++ trailer c image ident) = .ok ident := by
  have hversion := @trailer_rdU32 c image ident ENDF_OFF_FWVER ident.fwVersion (by decide)
    (by simp [trailerFields])
  have htarget := @trailer_rdU32 c image ident ENDF_OFF_TARGET ident.targetId (by decide)
    (by simp [trailerFields])
  rw [parseIdent_trailed (hasEndf_trailer hlen ident) (by rw [drop_trailer]; exact hversion)
    (by rw [drop_trailer]; exact htarget), hwField_trailer, cstr_padded hfits]

theorem ensureEndf_idempotent (hlen : image.length < 2 ^ 32) (other : FwIdent) :
    ensureEndf c (image ++ trailer c image ident) other =
      .ok (image ++ trailer c image ident, c.mh8 image) := by
  have htrailed := @hasEndf_trailer c image hlen ident
  have hhash := hasEndf_hash htrailed
  have hends := @trailed_body c image ident
  have htake := List.take_of_length_le (@trailer_length c image ident).le
  have hsub : (image ++ trailer c image ident).length - image.length = ENDF_LEN := by
    rw [List.length_append, trailer_length, Nat.add_sub_cancel_left]
  rw [hends, List.drop_left, List.take_left] at hhash
  rw [ensureEndf, htrailed, ok_bind, if_pos rfl, hends,
    slice_ok (by rw [List.length_append]; exact Nat.le_add_right _ _) le_rfl, ok_bind,
    List.drop_left, hsub, htake, hhash, ok_bind]

end Fields

end MotaTool.Endf
