import MotaTool.Base.Words
import MotaTool.Crypto
import MotaTool.Format

/-!
# The identity inside a bootloader image

A bootloader image of exactly 40 KiB starts with a vector table, carries one
self-checking manifest followed by its continuity extension, and one capability
marker. `validateBootloaderImage` binds what they say to the identity of the
container around the image. The scans step through the image in words and
index it as the source does, so that a panic would show.
-/

namespace MotaTool.Bootloader

open Base Run Format

def IMAGE_START : UInt32 := 0x000f4000
def IMAGE_SIZE : ℕ := 0x0000a000
def MANIFEST_MAGIC : Bytes := ascii ['B', 'L', 'M', 'F', 'C', 'R', 'C', '1']
def MANIFEST_VERSION : UInt16 := 1
def MANIFEST_SIZE : ℕ := 44
def CONTINUITY_MAGIC : Bytes := ascii ['B', 'L', 'M', '2', 'S', 'O', 'F', 'T']
def CONTINUITY_VERSION : UInt16 := 2
def CONTINUITY_SIZE : ℕ := 32
def ENVELOPE_SIZE : ℕ := MANIFEST_SIZE + CONTINUITY_SIZE
def CANDIDATE_MANIFEST_OFFSET : ℕ := IMAGE_SIZE - ENVELOPE_SIZE
def CAPS_MAGIC : Bytes := ascii ['M', 'O', 'T', 'A', 'B', 'L', 'D', 'R']

def STORAGE_SD : UInt8 := 0x01
def STORAGE_STAGE_CEILING : UInt8 := 0x02
def STORAGE_QSPI : UInt8 := 0x04
def STORAGE_UPDATE : UInt8 := 0x08
def STORAGE_HEADER_W25 : UInt8 := 0x10
def STORAGE_KNOWN : UInt8 := 0x1f
def STORAGE_SD_UPDATE : UInt8 := STORAGE_SD ||| STORAGE_UPDATE
def STORAGE_QSPI_UPDATE : UInt8 := STORAGE_STAGE_CEILING ||| STORAGE_QSPI ||| STORAGE_UPDATE
def STORAGE_INTERNAL_UPDATE : UInt8 := STORAGE_STAGE_CEILING ||| STORAGE_UPDATE
def STORAGE_RAK_AUTO_RECOVERY : UInt8 :=
  STORAGE_STAGE_CEILING ||| STORAGE_QSPI ||| STORAGE_HEADER_W25

def REQUIRED_FORMAT_ABI : UInt16 := 3
def REQUIRED_APP_CODEC_MASK : UInt16 := (1 : UInt16) <<< 0 ||| (1 : UInt16) <<< 2
def FAMILY_S140 : UInt16 := 140
def S140_V6_FWID : UInt16 := 0x00b6
def S140_V7_FWID : UInt16 := 0x0123
def APP_BASE_S140_V6 : UInt32 := 0x00026000
def APP_BASE_S140_V7 : UInt32 := 0x00027000
def LAYOUT_ABI : UInt16 := 1
def XIAO_BASE : UInt32 := 0x28860044
def XIAO_SENSE : UInt32 := 0x28860045

def INTERNAL_IDENTITIES : List (UInt32 × String) := [
  (0x239a0029, "GAT562_DFU"),
  (0x239a0071, "TOWER_V2_OTA"),
  (0x239a0071, "T096_DFU"),
  (0x239a0071, "T1_DFU"),
  (0x239a0071, "T114_DFU"),
  (0x239a0071, "MESH_POCKET_OTA"),
  (0x239a00b3, "KeepteenLT1_OTA"),
  (0x239a0029, "MX25_DFU"),
  (0x239a00b3, "PROM_DFU"),
  (0x28860057, "T1KE_DFU"),
  (0x239a00da, "TNM3_DFU"),
  (0x239a0029, "3401_DFU"),
  (0x239a0029, "4631_DFU"),
  (0x239a0029, "RTAG_DFU"),
  (0x239a0029, "LGTE_DFU"),
  (0x239a00da, "LTEL_DFU"),
  (0x239a00da, "N056_DFU"),
  (0x28860044, "SCAP_DFU"),
  (0x239a00da, "TNM1_DFU"),
  (0x239a00da, "TNM6_DFU"),
  (0x28861667, "WTL1_DFU"),
  (0x239a0029, "3401_W25Q16_DFU"),
  (0x239a0029, "4631_15001C_DFU"),
  (0x239a0029, "4631_W25Q16_DFU")]

def RAK_AUTO_RECOVERY_IDENTITIES : List (UInt32 × String) := [
  (0x239a0029, "3401_AUTO_DFU"),
  (0x239a0029, "4631_AUTO_DFU")]

def S140_V7_IDENTITIES : List (UInt32 × String) := [
  (XIAO_BASE, "XIAO_DFU"),
  (XIAO_SENSE, "XIAO_DFU"),
  (0x239a0029, "MX25_DFU"),
  (0x28860057, "T1KE_DFU"),
  (0x28860044, "SCAP_DFU"),
  (0x28861667, "WTL1_DFU")]

def QSPI_IDENTITIES : List (UInt32 × String) := [
  (0x239a0029, "LGTE_DFU"),
  (0x239a00da, "LTEL_DFU"),
  (0x239a00da, "N056_DFU"),
  (0x28860044, "SCAP_DFU"),
  (0x239a00da, "TNM1_DFU"),
  (0x239a00da, "TNM6_DFU"),
  (0x28861667, "WTL1_DFU"),
  (0x239a0029, "3401_W25Q16_DFU"),
  (0x239a0029, "4631_15001C_DFU"),
  (0x239a0029, "4631_W25Q16_DFU")]

def isXiao (boardId : UInt32) (name : String) : Bool :=
  (boardId == XIAO_BASE || boardId == XIAO_SENSE) && name == "XIAO_DFU"

def qualifiedStorage (boardId : UInt32) (name : String) : List UInt8 :=
  if isXiao boardId name then [STORAGE_QSPI_UPDATE]
  else if RAK_AUTO_RECOVERY_IDENTITIES.contains (boardId, name) then [STORAGE_RAK_AUTO_RECOVERY]
  else if QSPI_IDENTITIES.contains (boardId, name) then [STORAGE_QSPI_UPDATE]
  else if boardId == 0x239a0071 && name == "TOWER_V2_OTA" then
    [STORAGE_INTERNAL_UPDATE, STORAGE_SD_UPDATE]
  else [STORAGE_INTERNAL_UPDATE]

structure Compatibility where
  softdeviceFamily : UInt16
  softdeviceFwid : UInt16
  appBase : UInt32
  layoutAbi : UInt16
  deriving DecidableEq, Repr

def qualifiedPlatform (boardId : UInt32) (name : String) : Option Compatibility :=
  let qualified := isXiao boardId name || INTERNAL_IDENTITIES.contains (boardId, name) ||
    RAK_AUTO_RECOVERY_IDENTITIES.contains (boardId, name)
  if !qualified then none
  else if S140_V7_IDENTITIES.contains (boardId, name) then
    some ⟨FAMILY_S140, S140_V7_FWID, APP_BASE_S140_V7, LAYOUT_ABI⟩
  else some ⟨FAMILY_S140, S140_V6_FWID, APP_BASE_S140_V6, LAYOUT_ABI⟩

def versionValid (version : UInt32) : Bool :=
  version != 0 && version != 0xffffffff && version &&& 0xff != 0

def paddedName (name : Bytes) : Run (Octets 16) := do
  ensure (name.length ≤ 15) "bootloader device name exceeds 15 bytes"
  .ok (Octets.padded 16 name)

def asciiText (bytes : Bytes) : String := String.ofList (bytes.map fun b => Char.ofNat b.toNat)

def printable (b : UInt8) : Bool := 0x21 ≤ b && b ≤ 0x7e

def validDeviceName (boardId : UInt32) (raw : Octets 16) : Option String :=
  if boardId == 0 || boardId == 0xffffffff then none
  else if (boardId == XIAO_BASE || boardId == XIAO_SENSE) &&
      raw.val == utf8 "XIAO_DFU" ++ List.replicate 8 0 then some "XIAO_DFU"
  else
    let name := raw.val.takeWhile (· ≠ 0)
    let rest := raw.val.dropWhile (· ≠ 0)
    if rest.isEmpty || name.isEmpty || rest.any (· ≠ 0) || name.any (!printable ·) then none
    else some (asciiText name)

def nameMatches (boardId : UInt32) (deviceName : String) : Run Bool :=
  let nameRaw := utf8 deviceName
  if nameRaw.length ≤ 15 then do
    let padded ← paddedName nameRaw
    .ok (validDeviceName boardId padded == some deviceName)
  else .ok false

def hwIdText (boardId : UInt32) (deviceName : String) : String :=
  if boardId == XIAO_BASE && deviceName == "XIAO_DFU" then "XIAO_BL_28860044"
  else if boardId == XIAO_SENSE && deviceName == "XIAO_DFU" then "XIAO_BL_28860045"
  else "NRF_BL_" ++ hexPadded 8 boardId.toNat ++ "_" ++ deviceName

def bootloaderHwId (boardId : UInt32) (deviceName : String) : Run (Octets 32) := do
  let valid ← nameMatches boardId deviceName
  ensure (valid = true) "invalid embedded bootloader board/name identity"
  let text := utf8 (hwIdText boardId deviceName)
  ensure (text.length ≤ 32) "canonical bootloader hw_id exceeds 32 bytes"
  .ok (Octets.padded 32 text)

def bootloaderTargetId (c : Crypto) (boardId : UInt32) (deviceName : String) : Run UInt32 :=
  if isXiao boardId deviceName then .ok boardId
  else do
    let hw ← bootloaderHwId boardId deviceName
    .ok (UInt32.ofNat (ofLe (c.mh4 hw.val).val))

structure BootloaderIdentity where
  manifestOffset : ℕ
  boardId : UInt32
  deviceName : String
  bootVersion : UInt32
  platform : Compatibility
  storageFlags : UInt8

def rdU16 (buf : Bytes) (off : ℕ) : Run UInt16 := do
  let bytes ← slice buf off (off + 2)
  .ok (UInt16.ofNat (ofLe bytes))

def crcBit (crc : UInt32) : UInt32 := (crc >>> 1) ^^^ (0xedb88320 &&& (0 - (crc &&& 1)))

def crcByte (crc : UInt32) (byte : UInt8) : UInt32 :=
  (List.range 8).foldl (fun crc _ => crcBit crc) (crc ^^^ byte.toUInt32)

def crc32WithZeroed (bytes : Bytes) (lo hi : ℕ) : UInt32 :=
  ~~~ (bytes.zipIdx.foldl (fun crc (stored, i) =>
    crcByte crc (if lo ≤ i ∧ i < hi then 0 else stored)) 0xffffffff)

def validateVector (image : Bytes) : Run Unit := do
  let sp ← rdU32 image 0
  let reset ← rdU32 image 4
  let entry := reset &&& ~~~ 1
  ensure (sp &&& 7 = 0 ∧ 0x20000000 ≤ sp ∧ sp ≤ 0x20040000 ∧ reset &&& 1 ≠ 0 ∧
      IMAGE_START ≤ entry ∧ entry < IMAGE_START + UInt32.ofNat IMAGE_SIZE)
    "bootloader vector table is invalid"

def wordOffsets (image : Bytes) (size : ℕ) : Run (List ℕ) := do
  let last ← unwrap (checkedSub image.length size)
  .ok ((List.range (last / 4 + 1)).map (· * 4))

structure FoundManifest where
  offset : ℕ
  boardId : UInt32
  deviceName : String

def manifestAt (image : Bytes) (off : ℕ) : Run (Option FoundManifest) := do
  let magic ← slice image off (off + 8)
  if magic ≠ MANIFEST_MAGIC then .ok none
  else
    let version ← rdU16 image (off + 8)
    let size ← rdU16 image (off + 10)
    let start ← rdU32 image (off + 12)
    let imageSize ← rdU32 image (off + 16)
    let boardId ← rdU32 image (off + 20)
    let nameRaw ← octets 16 image (off + 24)
    match validDeviceName boardId nameRaw with
    | none => .ok none
    | some deviceName =>
      let storedCrc ← rdU32 image (off + 40)
      if version ≠ MANIFEST_VERSION ∨ size.toNat ≠ MANIFEST_SIZE ∨ start ≠ IMAGE_START ∨
          imageSize.toNat ≠ IMAGE_SIZE ∨
          crc32WithZeroed image (off + 40) (off + 44) ≠ storedCrc then .ok none
      else .ok (some ⟨off, boardId, deviceName⟩)

def findManifestStep (image : Bytes) (found : Option FoundManifest) (off : ℕ) :
    Run (Option FoundManifest) := do
  match ← manifestAt image off with
  | none => .ok found
  | some m =>
    ensure (found.isNone = true) "bootloader embedded manifest/CRC is ambiguous"
    .ok (some m)

def findManifest (image : Bytes) : Run FoundManifest := do
  let offsets ← wordOffsets image MANIFEST_SIZE
  let found ← offsets.foldlM (findManifestStep image) none
  ofOption found "bootloader embedded manifest/CRC is invalid"

def getRange (v : Bytes) (lo hi : ℕ) : Option Bytes :=
  if lo ≤ hi ∧ hi ≤ v.length then some ((v.drop lo).take (hi - lo)) else none

def parseIdentity (image : Bytes) : Run BootloaderIdentity := do
  let found ← findManifest image
  let ext ← ofOption
    (getRange image (found.offset + MANIFEST_SIZE) (found.offset + ENVELOPE_SIZE))
    "bootloader continuity extension is truncated"
  let magic ← slice ext 0 8
  ensure (magic = CONTINUITY_MAGIC) "bootloader lacks the BLM2/SOFT continuity extension"
  let version ← rdU16 ext 8
  let size ← rdU16 ext 10
  ensure (version = CONTINUITY_VERSION ∧ size.toNat = CONTINUITY_SIZE)
    "bootloader continuity extension has an invalid version/size"
  let bootVersion ← rdU32 ext 12
  let family ← rdU16 ext 16
  let fwid ← rdU16 ext 18
  let appBase ← rdU32 ext 20
  let layoutAbi ← rdU16 ext 24
  let compat ← rdU16 ext 26
  let reserved ← rdU32 ext 28
  ensure (versionValid bootVersion = true ∧ family ≠ 0 ∧ fwid ≠ 0 ∧ appBase ≠ 0 ∧
      layoutAbi ≠ 0 ∧ compat = 0 ∧ reserved = 0)
    "bootloader continuity metadata is invalid"
  .ok ⟨found.offset, found.boardId, found.deviceName, bootVersion,
    ⟨family, fwid, appBase, layoutAbi⟩, 0⟩

def minimumAbi (storage : UInt8) : UInt16 :=
  if storage = STORAGE_RAK_AUTO_RECOVERY then 2 else REQUIRED_FORMAT_ABI

def capabilityAt (image : Bytes) (off : ℕ) : Run (Option UInt8) := do
  let magic ← slice image off (off + 8)
  if magic ≠ CAPS_MAGIC then .ok none
  else
    let abi ← rdU16 image (off + 8)
    let codecs ← rdU16 image (off + 10)
    let storage ← index image (off + 12)
    let padding ← slice image (off + 13) (off + 16)
    if abi < minimumAbi storage ∨ abi = 0xffff ∨
        codecs &&& REQUIRED_APP_CODEC_MASK ≠ REQUIRED_APP_CODEC_MASK ∨
        storage &&& ~~~STORAGE_KNOWN ≠ 0 ∨
        (storage &&& STORAGE_HEADER_W25 ≠ 0 ∧ storage ≠ STORAGE_RAK_AUTO_RECOVERY) ∨
        (storage &&& STORAGE_UPDATE = 0 ∧ storage ≠ STORAGE_RAK_AUTO_RECOVERY) ∨
        padding ≠ [0, 0, 0] then .ok none
    else .ok (some storage)

def updateProfile (storage : UInt8) : Bool :=
  storage == STORAGE_SD_UPDATE || storage == STORAGE_QSPI_UPDATE ||
    storage == STORAGE_INTERNAL_UPDATE || storage == STORAGE_RAK_AUTO_RECOVERY

/-- A second valid marker ends the scan without a result. -/
def capabilityScan (image : Bytes) : List ℕ → Option UInt8 → ℕ → Run (Option UInt8)
  | [], found, validCount => .ok (if validCount = 1 then found else none)
  | off :: offs, found, validCount => do
    match ← capabilityAt image off with
    | none => capabilityScan image offs found validCount
    | some storage =>
      let validCount := min (validCount + 1) 255
      let found := if updateProfile storage then some storage else found
      if validCount ≠ 1 then .ok none else capabilityScan image offs found validCount

def capabilityStorage (image : Bytes) : Run (Option UInt8) := do
  let offsets ← wordOffsets image 16
  capabilityScan image offsets none 0

def platformQualified (id : BootloaderIdentity) : Run Unit :=
  match qualifiedPlatform id.boardId id.deviceName with
  | none => .ok ()
  | some expected =>
    ensure (id.platform = expected)
      "bootloader continuity platform does not match its qualified profile"

def validateBootloaderImage (c : Crypto) (image : Bytes) (targetId : UInt32)
    (signedHwId : Octets 32) (outerVersion : UInt32) : Run BootloaderIdentity := do
  ensure (image.length = IMAGE_SIZE) s!"bootloader image must be exactly {IMAGE_SIZE} bytes"
  validateVector image
  let embedded ← parseIdentity image
  ensure (embedded.manifestOffset = CANDIDATE_MANIFEST_OFFSET)
    ("bootloader continuity envelope must be at exact offset 0x" ++
      hexPadded 4 CANDIDATE_MANIFEST_OFFSET)
  ensure (outerVersion = embedded.bootVersion)
    "outer bootloader version does not match BLM2 metadata"
  let expectedTarget ← bootloaderTargetId c embedded.boardId embedded.deviceName
  ensure (targetId = expectedTarget) "bootloader target ID does not match embedded identity"
  let expectedHwId ← bootloaderHwId embedded.boardId embedded.deviceName
  ensure (signedHwId = expectedHwId) "bootloader signed hw_id does not match embedded identity"
  let marker ← capabilityStorage image
  let storage ← ofOption marker
    "bootloader lacks one unambiguous qualified update/recovery marker"
  ensure ((qualifiedStorage embedded.boardId embedded.deviceName).contains storage = true)
    (s!"bootloader update/recovery storage profile 0x{hexPadded 2 storage.toNat} is not valid " ++
      "for its identity")
  platformQualified embedded
  .ok { embedded with storageFlags := storage }

end MotaTool.Bootloader
