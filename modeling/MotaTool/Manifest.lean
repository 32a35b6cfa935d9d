import MotaTool.Base.Record
import MotaTool.Bootloader.Identity

/-!
# The manifest

`parse` validates the framing, the version profile and the geometry of a whole
container. `fields` lists the manifest's fields at their offsets, and
`serialize` writes a container from them. The field list is the single place
where the layout is stated; that it tiles the manifest is what makes parsing
lossless.
-/

namespace MotaTool

open Base Run Format

structure Manifest where
  formatVer : UInt8
  flags : UInt8
  hashAlgo : UInt8
  targetId : UInt32
  fwVersion : UInt32
  imageSize : UInt32
  payloadSize : UInt32
  blockSizeLog2 : UInt8
  blockCount : ℕ
  merkleRoot : Octets 4
  imageHash : Octets 32
  codecId : UInt8
  hwId : Octets 32
  baseHash : Octets 8
  signer : Octets 32
  signature : Octets 64
  approval : Octets 4

namespace Manifest

def isFull (m : Manifest) : Bool := m.flags &&& MFLAG_FULL != 0

def isSigned (m : Manifest) : Bool := m.flags &&& MFLAG_SIGNED != 0

def isBootloader (m : Manifest) : Bool := m.flags &&& MFLAG_BOOTLOADER != 0

def blockSize (m : Manifest) : ℕ := 2 ^ m.blockSizeLog2.toNat

def codec (m : Manifest) : Option Codec := Codec.fromU8 m.codecId

def hwIdStr (m : Manifest) : String := cstr m.hwId.val

def leavesOff (_ : Manifest) : ℕ := HEADER_LEN + MFL

def payloadOff (m : Manifest) : ℕ := m.leavesOff + m.blockCount * 4

def totalSize (m : Manifest) : ℕ := m.payloadOff + m.payloadSize.toNat + TRAILER_LEN

def checkFlags (formatVer flags : UInt8) : Run Unit :=
  if formatVer = APP_FORMAT_VER then
    ensure (flags &&& MFLAG_BOOTLOADER = 0 ∧ flags &&& ~~~MFLAG_KNOWN = 0)
      "v2 application manifest has invalid flags"
  else if formatVer = BOOT_FORMAT_VER then
    ensure (flags = MFLAG_FULL ||| MFLAG_SIGNED ||| MFLAG_BOOTLOADER)
      "v3 bootloader manifest requires exact FULL|SIGNED|BOOTLOADER flags"
  else bail s!"unsupported format_ver {formatVer.toNat}"

/-- The last branch is unreachable in the source. -/
def checkBlockSize (formatVer log2 : UInt8) : Run Unit :=
  if formatVer = APP_FORMAT_VER then do
    ensure (1 ≤ log2) "bad block_size/payload"
    ensure (log2.toNat ≤ Nat.log2 MAX_APPLICATION_BLOCK_SIZE)
      s!"v2 application block size must be at most {MAX_APPLICATION_BLOCK_SIZE} bytes"
  else if formatVer = BOOT_FORMAT_VER then
    ensure (log2.toNat = Nat.log2 BOOTLOADER_BLOCK_SIZE)
      "v3 bootloader manifest requires 1 KiB blocks"
  else Run.panic

def readFields (mf : Bytes) (formatVer flags : UInt8) (payloadSize : UInt32) (log2 : UInt8)
    (blockCount : ℕ) : Run Manifest := do
  let hashAlgo ← index mf off.HASH_ALGO
  let targetId ← rdU32 mf off.TARGET_ID
  let fwVersion ← rdU32 mf off.FW_VERSION
  let imageSize ← rdU32 mf off.IMAGE_SIZE
  let merkleRoot ← octets 4 mf off.MERKLE_ROOT
  let imageHash ← octets 32 mf off.IMAGE_HASH
  let codecId ← index mf off.CODEC_ID
  let hwId ← octets 32 mf off.HW_ID
  let baseHash ← octets 8 mf off.BASE_HASH
  let signer ← octets 32 mf off.SIGNER
  let signature ← octets 64 mf off.SIGNATURE
  let approval ← octets 4 mf off.APPROVAL
  .ok ⟨formatVer, flags, hashAlgo, targetId, fwVersion, imageSize, payloadSize, log2, blockCount,
    merkleRoot, imageHash, codecId, hwId, baseHash, signer, signature, approval⟩

def contractError (chain : List String) : List String :=
  ["v3 bootloader image contract: " ++ String.intercalate ": " chain]

def checkBootloader (c : Crypto) (blob : Bytes) (m : Manifest) : Run Unit :=
  if m.isBootloader then do
    ensure (m.hashAlgo = HASH_ALGO_SHA256 ∧ Bootloader.versionValid m.fwVersion = true ∧
        m.codecId = Codec.full.toU8 ∧ m.imageSize.toNat = Bootloader.IMAGE_SIZE ∧
        m.payloadSize.toNat = Bootloader.IMAGE_SIZE ∧ m.blockSize = BOOTLOADER_BLOCK_SIZE ∧
        m.blockCount = 40 ∧ m.baseHash = Octets.zero 8)
      "v3 bootloader manifest geometry/identity is invalid"
    let payload ← slice blob m.payloadOff (m.payloadOff + m.payloadSize.toNat)
    let _ ← mapChain contractError
      (Bootloader.validateBootloaderImage c payload m.targetId m.hwId m.fwVersion)
    .ok ()
  else .ok ()

def parse (c : Crypto) (blob : Bytes) : Run Manifest := do
  ensure (HEADER_LEN + MFL + TRAILER_LEN ≤ blob.length) "too small for a .mota"
  let magic ← slice blob 0 4
  ensure (magic = MAGIC) "bad MAGIC (not a .mota)"
  let total ← rdU32 blob 4
  ensure (total.toNat = blob.length) "MOTA_TOTAL_SIZE != file length"
  let trailer ← slice blob (blob.length - TRAILER_LEN) blob.length
  ensure (trailer = TRAILER) "bad TRAILER"
  let mf ← slice blob HEADER_LEN blob.length
  let formatVer ← index mf off.FORMAT_VER
  let flags ← index mf off.FLAGS
  checkFlags formatVer flags
  let log2 ← index mf off.BLOCK_SIZE_LOG2
  let payloadSize ← rdU32 mf off.PAYLOAD_SIZE
  ensure (payloadSize ≠ 0) "bad block_size/payload"
  checkBlockSize formatVer log2
  -- `1u32 << block_size_log2` overflows from 32 on
  assert (log2.toNat < 32)
  let blockCount := divCeil payloadSize.toNat (2 ^ log2.toNat)
  ensure (1 ≤ blockCount ∧ blockCount ≤ 0xffff) "block_count out of range"
  let m ← readFields mf formatVer flags payloadSize log2 blockCount
  ensure (m.totalSize = blob.length) "geometry (leaves+payload) != file length"
  checkBootloader c blob m
  .ok m

def leavesOf (m : Manifest) (blob : Bytes) : Bytes :=
  (blob.drop m.leavesOff).take (m.payloadOff - m.leavesOff)

def payloadOf (m : Manifest) (blob : Bytes) : Bytes :=
  (blob.drop m.payloadOff).take m.payloadSize.toNat

def fields (m : Manifest) : List (ℕ × Bytes) := [
  (off.FORMAT_VER, [m.formatVer]),
  (off.FLAGS, [m.flags]),
  (off.HASH_ALGO, [m.hashAlgo]),
  (off.TARGET_ID, u32Le m.targetId),
  (off.FW_VERSION, u32Le m.fwVersion),
  (off.IMAGE_SIZE, u32Le m.imageSize),
  (off.PAYLOAD_SIZE, u32Le m.payloadSize),
  (off.BLOCK_SIZE_LOG2, [m.blockSizeLog2]),
  (off.MERKLE_ROOT, m.merkleRoot.val),
  (off.IMAGE_HASH, m.imageHash.val),
  (off.CODEC_ID, [m.codecId]),
  (off.HW_ID, m.hwId.val),
  (off.BASE_HASH, m.baseHash.val),
  (off.SIGNER, m.signer.val),
  (off.SIGNATURE, m.signature.val),
  (off.APPROVAL, m.approval.val)]

def serialize (m : Manifest) (leaves payload : Bytes) : Run Bytes := do
  let mf ← writeFields (List.replicate MFL 0) m.fields
  .ok (MAGIC ++ (toLe 4 m.totalSize ++ (mf ++ (leaves ++ (payload ++ TRAILER)))))

/-- The offset table covers the manifest: every byte belongs to exactly one field. -/
theorem fields_tile (m : Manifest) : Tiles 0 m.fields MFL := by
  simp [fields, tiles_cons, tiles_nil, Octets.length_val, MFL, off.FORMAT_VER, off.FLAGS,
    off.HASH_ALGO, off.TARGET_ID, off.FW_VERSION, off.IMAGE_SIZE, off.PAYLOAD_SIZE,
    off.BLOCK_SIZE_LOG2, off.MERKLE_ROOT, off.IMAGE_HASH, off.CODEC_ID, off.HW_ID,
    off.BASE_HASH, off.SIGNER, off.SIGNATURE, off.APPROVAL]

end Manifest

end MotaTool
