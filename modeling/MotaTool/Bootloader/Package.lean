import MotaTool.Bootloader.Board
import MotaTool.Build.Assemble

/-!
# Bootloader packages

`buildBootloader` validates the image for the selected board and storage
profile, and assembles a signed container of the bootloader profile.
-/

namespace MotaTool.Bootloader

open Base Run Format Merkle Build

structure BootloaderBuildOpts where
  image : Bytes
  board : BootloaderBoard
  storageProfile : UInt8
  signSeed : Octets 32

def BLOCK_COUNT : ℕ := IMAGE_SIZE / BOOTLOADER_BLOCK_SIZE
def PACKAGE_SIZE : ℕ := HEADER_LEN + MFL + BLOCK_COUNT * 4 + IMAGE_SIZE + TRAILER_LEN

def bootloaderVersionStr (version : UInt32) : String :=
  let base := s!"{(version >>> 24).toNat}.{((version >>> 16) &&& 0xff).toNat}." ++
    s!"{((version >>> 8) &&& 0xff).toNat}"
  let preview := (version &&& 0xff).toNat
  if preview = 0xff then base else s!"{base}-preview.{preview}"

def writeManifest (c : Crypto) (o : BootloaderBuildOpts) (targetId : UInt32) (hwId : Octets 32)
    (bootVersion : UInt32) (root : Octets 4) : Run Bytes := do
  let mf ← writeFields (List.replicate MFL 0) [
    (off.FORMAT_VER, [BOOT_FORMAT_VER]),
    (off.FLAGS, [MFLAG_FULL ||| MFLAG_SIGNED ||| MFLAG_BOOTLOADER]),
    (off.HASH_ALGO, [HASH_ALGO_SHA256]),
    (off.TARGET_ID, u32Le targetId),
    (off.FW_VERSION, u32Le bootVersion),
    (off.IMAGE_SIZE, toLe 4 IMAGE_SIZE),
    (off.PAYLOAD_SIZE, toLe 4 IMAGE_SIZE),
    (off.BLOCK_SIZE_LOG2, [UInt8.ofNat (Nat.log2 BOOTLOADER_BLOCK_SIZE)]),
    (off.MERKLE_ROOT, root.val),
    (off.IMAGE_HASH, (c.sha256 o.image).val),
    (off.CODEC_ID, [Codec.full.toU8]),
    (off.HW_ID, hwId.val)]
  -- the base hash is never written and stays zero
  let mf ← signManifest c (some o.signSeed) mf
  copyAt mf off.APPROVAL APPROVAL_NONE.val

def buildBootloader (c : Crypto) (envName : UInt32 → Option String) (o : BootloaderBuildOpts) :
    Run Built := do
  let identity ← validateBootloaderImageForProfile c envName o.image o.board o.storageProfile
  let leaves := leafHashes c o.image BOOTLOADER_BLOCK_SIZE
  ensure (leaves.length = BLOCK_COUNT)
    s!"bootloader payload must yield exactly {BLOCK_COUNT} blocks"
  let root ← root c leaves
  let targetId ← o.board.targetId c
  let hwId ← o.board.hwId
  let mf ← writeManifest c o targetId hwId identity.bootVersion root
  let bytes := MAGIC ++ (toLe 4 PACKAGE_SIZE ++ (mf ++ (flatten leaves ++ (o.image ++ TRAILER))))
  ensure (bytes.length = PACKAGE_SIZE)
    s!"bootloader package geometry drifted from {PACKAGE_SIZE} bytes"
  let manifest ← Manifest.parse c bytes
  let hwText ← o.board.hwIdStr
  .ok ⟨bytes, s!"{hwText}_v{bootloaderVersionStr identity.bootVersion}_bootloader_" ++
    s!"{hexBytes root.val}.mota", manifest, none⟩

end MotaTool.Bootloader
