import MotaTool.Base.Record
import MotaTool.Base.Words
import MotaTool.Crypto
import MotaTool.Format

/-!
# Firmware trailers and flash layout records

An image may end with a trailer that carries its identity and authenticates
its body, and the body may end with a record of the flash geometry it was
linked for. A layout is valid only for the exact combinations of regions and
flags that `validate` accepts.
-/

namespace MotaTool.Endf

open Base Run Format

structure Nrf52Layout where
  appBase : UInt32
  linkedAppEnd : UInt32
  stageCeiling : UInt32
  flags : UInt8
  deriving DecidableEq, Repr

namespace Nrf52Layout

def sdBacked (l : Nrf52Layout) : Bool := l.flags &&& NRF52_LAYOUT_FLAG_SD != 0

def qspiBacked (l : Nrf52Layout) : Bool := l.flags &&& NRF52_LAYOUT_FLAG_QSPI != 0

def externalBacked (l : Nrf52Layout) : Bool := l.sdBacked || l.qspiBacked

def usesInternalExtrafs (l : Nrf52Layout) : Bool :=
  l.flags &&& NRF52_LAYOUT_FLAG_INTERNAL_EXTRAFS != 0

def bootloaderScratch (l : Nrf52Layout) : Bool :=
  l.flags &&& NRF52_LAYOUT_FLAG_BOOTLOADER_SCRATCH != 0

def hybridRam (l : Nrf52Layout) : Bool := l.flags &&& NRF52_LAYOUT_FLAG_HYBRID_RAM != 0

def autoStore (l : Nrf52Layout) : Bool := l.flags &&& NRF52_LAYOUT_FLAG_AUTO_STORE != 0

def applicationCeiling (l : Nrf52Layout) : UInt32 :=
  if l.bootloaderScratch then l.linkedAppEnd else NRF52_APP_END

def expectedCeiling (l : Nrf52Layout) : UInt32 :=
  if l.externalBacked then NRF52_APP_END
  else if l.usesInternalExtrafs then NRF52_EXTRAFS_START
  else NRF52_APP_END

def validateScratch (l : Nrf52Layout) : Run Unit :=
  if l.bootloaderScratch then
    ensure (l.qspiBacked ∧ ¬ l.sdBacked ∧ l.linkedAppEnd = NRF52_BOOT_SCRATCH_START)
      "nRF52 bootloader scratch requires the QSPI scratch layout"
  else
    ensure (l.linkedAppEnd ≠ NRF52_BOOT_SCRATCH_START)
      "reserved bootloader geometry requires the bootloader-scratch flag"

def validateHybrid (l : Nrf52Layout) : Run Unit :=
  if l.hybridRam then
    ensure (¬ l.externalBacked ∧ ¬ l.usesInternalExtrafs ∧ l.linkedAppEnd = NRF52_APP_END ∧
        l.stageCeiling = NRF52_APP_END)
      "nRF52 hybrid RAM staging requires the exact 0xED000 internal-only profile"
  else .ok ()

def validate (l : Nrf52Layout) : Run Unit := do
  ensure (l.appBase = NRF52_APP_BASE_S140_V6 ∨ l.appBase = NRF52_APP_BASE_S140_V7)
    s!"unsupported nRF52 app base 0x{hex32 l.appBase}"
  ensure (l.linkedAppEnd = NRF52_EXTRAFS_START ∨ l.linkedAppEnd = NRF52_BOOT_SCRATCH_START ∨
      l.linkedAppEnd = NRF52_APP_END)
    s!"unsupported nRF52 linked app end 0x{hex32 l.linkedAppEnd}"
  ensure (l.stageCeiling = NRF52_EXTRAFS_START ∨ l.stageCeiling = NRF52_APP_END)
    s!"unsupported nRF52 staging ceiling 0x{hex32 l.stageCeiling}"
  ensure (l.appBase < l.linkedAppEnd ∧ l.linkedAppEnd ≤ NRF52_APP_END)
    s!"invalid nRF52 app region 0x{hex32 l.appBase}..0x{hex32 l.linkedAppEnd}"
  ensure (l.flags &&& ~~~NRF52_LAYOUT_FLAGS_KNOWN = 0)
    s!"unsupported nRF52 layout flags 0x{hexUpper l.flags.toNat}"
  ensure (¬ (l.sdBacked ∧ l.qspiBacked)) "nRF52 layout cannot use both SD and QSPI staging"
  ensure (¬ (l.externalBacked ∧ l.usesInternalExtrafs))
    "nRF52 external staging cannot also reserve internal ExtraFS"
  ensure (¬ l.autoStore ∨ (¬ l.externalBacked ∧ ¬ l.usesInternalExtrafs))
    "nRF52 adaptive staging requires an exclusive internal layout"
  validateHybrid l
  validateScratch l
  ensure (l.stageCeiling = expectedCeiling l)
    s!"nRF52 staging ceiling 0x{hex32 l.stageCeiling} is inconsistent with layout flags"

/-- What acceptance says about the two ends of the staging region. -/
structure Valid (l : Nrf52Layout) : Prop where
  appBase : l.appBase = NRF52_APP_BASE_S140_V6 ∨ l.appBase = NRF52_APP_BASE_S140_V7
  stageCeiling : l.stageCeiling = NRF52_EXTRAFS_START ∨ l.stageCeiling = NRF52_APP_END
  scratch : l.bootloaderScratch = true → l.externalBacked = true

theorem validate_valid {l : Nrf52Layout} (h : l.validate = .ok ()) : l.Valid := by
  simp only [validate, bind_eq_ok, ensure_eq_ok, exists_unit] at h
  obtain ⟨hbase, -, hstage, -, -, -, -, -, -, hscratch, -⟩ := h
  refine ⟨hbase, hstage, fun hflag => ?_⟩
  rw [validateScratch, if_pos hflag, ensure_eq_ok] at hscratch
  simp [externalBacked, hscratch.1]

theorem Valid.stage_le {l : Nrf52Layout} (h : l.Valid) (hint : l.externalBacked = false) :
    l.stageCeiling.toNat ≤ l.applicationCeiling.toNat := by
  have hscratch : l.bootloaderScratch = false := by
    by_contra hflag
    simp [h.scratch (by simpa using hflag)] at hint
  rw [applicationCeiling, if_neg (by simp [hscratch])]
  rcases h.stageCeiling with hstage | hstage
  · rw [hstage]
    decide
  · rw [hstage]

end Nrf52Layout

def buildNrf52Layout (l : Nrf52Layout) : Run Bytes := do
  l.validate
  writeFields (List.replicate NRF52_LAYOUT_LEN 0) [
    (0, NRF52_LAYOUT_MAGIC),
    (8, [NRF52_LAYOUT_VERSION]),
    (9, [l.flags]),
    (10, toLe 2 NRF52_LAYOUT_LEN),
    (12, u32Le l.appBase),
    (16, u32Le l.linkedAppEnd),
    (20, u32Le l.stageCeiling)]

variable (c : Crypto)

def hasEndf (image : Bytes) : Run Bool :=
  if image.length < ENDF_LEN then .ok false
  else do
    let (body, t) := image.splitAt (image.length - ENDF_LEN)
    let magic ← slice t 0 4
    if magic = ENDF_MAGIC then
      let bodyLen ← rdU32 t 4
      if bodyLen.toNat = body.length then
        let hash ← octets 8 t 8
        .ok (c.mh8 body == hash)
      else .ok false
    else .ok false

def parseIdent (image : Bytes) : Run FwIdent := do
  let trailed ← hasEndf c image
  if trailed then
    let t ← slice image (image.length - ENDF_LEN) image.length
    let fwVersion ← rdU32 t ENDF_OFF_FWVER
    let targetId ← rdU32 t ENDF_OFF_TARGET
    let hwId ← slice t ENDF_OFF_HWID (ENDF_OFF_HWID + HW_ID_LEN)
    .ok ⟨fwVersion, targetId, cstr hwId⟩
  else .ok FwIdent.default

def trailer (image : Bytes) (ident : FwIdent) : Bytes :=
  ENDF_MAGIC ++ toLe 4 image.length ++ (c.mh8 image).val ++ u32Le ident.fwVersion ++
    u32Le ident.targetId ++ (Octets.padded HW_ID_LEN (utf8 ident.hwId)).val

def ensureEndf (image : Bytes) (ident : FwIdent) : Run (Bytes × Octets 8) := do
  let trailed ← hasEndf c image
  if trailed then
    let t ← slice image (image.length - ENDF_LEN) image.length
    let hash ← octets 8 t 8
    .ok (image, hash)
  else .ok (image ++ trailer c image ident, c.mh8 image)

def parseRecord (record : Bytes) : Run (Option Nrf52Layout) := do
  let magic ← slice record 0 8
  if magic ≠ NRF52_LAYOUT_MAGIC then .ok none
  else
    let version ← index record 8
    ensure (version = NRF52_LAYOUT_VERSION) s!"unsupported nRF52 layout version {version.toNat}"
    let length ← slice record 10 12
    ensure (ofLe length = NRF52_LAYOUT_LEN) s!"invalid nRF52 layout record length {ofLe length}"
    let flags ← index record 9
    let appBase ← rdU32 record 12
    let linkedAppEnd ← rdU32 record 16
    let stageCeiling ← rdU32 record 20
    let layout : Nrf52Layout := ⟨appBase, linkedAppEnd, stageCeiling, flags⟩
    layout.validate
    .ok (some layout)

def parseNrf52Layout (image : Bytes) : Run (Option Nrf52Layout) := do
  let trailed ← hasEndf c image
  if !trailed || decide (image.length < ENDF_LEN + NRF52_LAYOUT_LEN) then .ok none
  else
    let start := image.length - ENDF_LEN - NRF52_LAYOUT_LEN
    let record ← slice image start (start + NRF52_LAYOUT_LEN)
    parseRecord record

section Facts

variable {c : Crypto}

theorem hasEndf_ok (image : Bytes) : ∃ b, hasEndf c image = .ok b := by
  unfold hasEndf
  split_ifs with hshort
  · exact ⟨false, rfl⟩
  · have hlen : (image.drop (image.length - ENDF_LEN)).length = 56 := by
      rw [List.length_drop]
      simp only [ENDF_LEN] at hshort ⊢
      omega
    simp only [List.splitAt_eq]
    rw [slice_ok (by omega) (by omega), rdU32_ok (by omega), octets_ok (by omega)]
    simp only [ok_bind]
    split_ifs <;> exact ⟨_, rfl⟩

theorem hasEndf_length {image : Bytes} (h : hasEndf c image = .ok true) :
    ENDF_LEN ≤ image.length := by
  by_contra hshort
  rw [hasEndf, if_pos (by omega)] at h
  cases h

theorem hasEndf_hash {image : Bytes} (h : hasEndf c image = .ok true) :
    octets 8 (image.drop (image.length - ENDF_LEN)) 8 =
      .ok (c.mh8 (image.take (image.length - ENDF_LEN))) := by
  rw [hasEndf, if_neg (Nat.not_lt.mpr (hasEndf_length h))] at h
  simp only [List.splitAt_eq, bind_eq_ok] at h
  obtain ⟨magic, -, h⟩ := h
  split_ifs at h
  · simp only [bind_eq_ok] at h
    obtain ⟨bodyLen, -, h⟩ := h
    split_ifs at h
    · simp only [bind_eq_ok, Except.ok.injEq, beq_iff_eq] at h
      obtain ⟨hash, hread, rfl⟩ := h
      exact hread
    · cases h
  · cases h

theorem ensureEndf_trailed {image out : Bytes} {ident : FwIdent} {hash : Octets 8}
    (hendf : hasEndf c image = .ok true) (h : ensureEndf c image ident = .ok (out, hash)) :
    out = image := by
  rw [ensureEndf, hendf, ok_bind, if_pos rfl] at h
  simp only [bind_eq_ok] at h
  obtain ⟨t, -, w, -, hout⟩ := h
  cases hout
  rfl

theorem trailer_length (image : Bytes) (ident : FwIdent) :
    (trailer c image ident).length = ENDF_LEN := by
  have hmagic : ENDF_MAGIC.length = 4 := rfl
  simp [trailer, Octets.length_val, hmagic, ENDF_LEN, HW_ID_LEN]

theorem trailed_body (image : Bytes) (ident : FwIdent) :
    (image ++ trailer c image ident).length - ENDF_LEN = image.length := by
  rw [List.length_append, trailer_length, Nat.add_sub_cancel]

theorem ensureEndf_raw {image : Bytes} (h : hasEndf c image = .ok false) (ident : FwIdent) :
    ensureEndf c image ident = .ok (image ++ trailer c image ident, c.mh8 image) := by
  rw [ensureEndf, h, ok_bind, if_neg (by decide)]

/-- A trailer written after an image is recognised, as long as its length field holds. -/
theorem hasEndf_trailer {image : Bytes} (hlen : image.length < 2 ^ 32) (ident : FwIdent) :
    hasEndf c (image ++ trailer c image ident) = .ok true := by
  have hsize := @trailer_length c image ident
  have hends := @trailed_body c image ident
  have hmagic : slice (trailer c image ident) 0 4 = .ok ENDF_MAGIC := by
    rw [slice_ok (Nat.zero_le _) (by rw [hsize]; decide)]
    rfl
  have hbody : rdU32 (trailer c image ident) 4 = .ok (UInt32.ofNat image.length) := by
    rw [rdU32_eq_ok]
    refine ⟨by rw [hsize]; decide, ?_⟩
    rw [← toLe_eq_u32Le]
    rfl
  have hhash : octets 8 (trailer c image ident) 8 = .ok (c.mh8 image) := by
    rw [octets_eq_ok]
    have hpre : (ENDF_MAGIC ++ toLe 4 image.length).length = 8 := by simp; rfl
    rw [trailer, List.append_assoc, List.append_assoc, List.append_assoc _ (c.mh8 image).val,
      List.drop_left' hpre, List.take_left' (c.mh8 image).length_val]
  rw [hasEndf, if_neg (by rw [List.length_append, hsize]; omega)]
  simp only [List.splitAt_eq, hends, List.take_left, List.drop_left, hmagic, hbody, hhash, ok_bind,
    if_true]
  rw [UInt32.toNat_ofNat', Nat.mod_eq_of_lt hlen, if_pos rfl, beq_self_eq_true]

theorem ensureEndf_hash {image out : Bytes} {ident : FwIdent} {hash : Octets 8}
    (h : ensureEndf c image ident = .ok (out, hash)) :
    hash = c.mh8 (out.take (out.length - ENDF_LEN)) := by
  obtain ⟨trailed, htrailed⟩ := @hasEndf_ok c image
  cases trailed with
  | true =>
    have hlen := hasEndf_length htrailed
    rw [ensureEndf, htrailed, ok_bind, if_pos rfl, slice_ok (by omega) (Nat.le_refl _), ok_bind,
      List.take_of_length_le (by rw [List.length_drop]), hasEndf_hash htrailed] at h
    cases h
    rfl
  | false =>
    cases (ensureEndf_raw htrailed ident).symm.trans h
    rw [trailed_body, List.take_left]

theorem ensureEndf_hasEndf {image out : Bytes} {ident : FwIdent} {hash : Octets 8}
    (h : ensureEndf c image ident = .ok (out, hash)) (hlen : out.length < 2 ^ 32) :
    hasEndf c out = .ok true := by
  obtain ⟨trailed, htrailed⟩ := @hasEndf_ok c image
  cases trailed with
  | true => rwa [ensureEndf_trailed htrailed h]
  | false =>
    cases (ensureEndf_raw htrailed ident).symm.trans h
    rw [List.length_append] at hlen
    exact hasEndf_trailer (by omega) ident

theorem parseNrf52Layout_valid {image : Bytes} {l : Nrf52Layout}
    (h : parseNrf52Layout c image = .ok (some l)) : l.Valid := by
  simp only [parseNrf52Layout, bind_eq_ok] at h
  obtain ⟨trailed, -, h⟩ := h
  split_ifs at h with hnone
  · cases h
  · simp only [bind_eq_ok, parseRecord] at h
    obtain ⟨record, -, magic, -, h⟩ := h
    split_ifs at h with hmagic
    · cases h
    · simp only [bind_eq_ok, ensure_eq_ok, exists_unit] at h
      obtain ⟨_, -, -, _, -, -, _, -, _, -, _, -, _, -, hvalid, h⟩ := h
      cases h
      exact Nrf52Layout.validate_valid hvalid

end Facts

end MotaTool.Endf
