import MotaTool.Build.Plan
import MotaTool.Manifest
import MotaTool.Merkle

/-!
# Assembling a package

`build` resolves the identity, trails the target image, chooses the payload,
writes the manifest field by field at its offsets and puts the container
together. Its own output has to parse.
-/

namespace MotaTool.Build

open Base Run Format Endf Encode Merkle

structure Built where
  bytes : Bytes
  suggestedName : String
  manifest : Manifest
  inplaceMemory : Option UInt32

structure DeltaBuilt where
  codec : Codec
  payload : Bytes
  baseHash : Octets 8
  inplace : Option InplacePlan

variable (c : Crypto) (escaped : Char → Bool)

/-- `{:?}` of a string; which characters beyond ASCII it escapes is up to the tables of the
standard library. -/
def quoted (s : String) : String :=
  String.ofList ('"' :: s.toList.flatMap fun ch =>
    if ch = '"' then ['\\', '"'] else if ch = '\\' then ['\\', '\\']
    else if ch = '\n' then ['\\', 'n'] else if ch = '\r' then ['\\', 'r']
    else if ch = '\t' then ['\\', 't'] else if ch = '\x00' then ['\\', '0']
    else if ch.toNat < 0x20 ∨ ch.toNat = 0x7f ∨ 0x7f < ch.toNat ∧ escaped ch = true then
      ['\\', 'u', '\x7b'] ++ Nat.toDigits 16 ch.toNat ++ ['\x7d']
    else [ch]) ++ "\""

def noEscapes : Char → Bool := fun _ => false

def versionStr (v : UInt32) : String :=
  let core := s!"{(v >>> 24).toNat}.{((v >>> 16) &&& 0xff).toNat}.{((v >>> 8) &&& 0xff).toNat}"
  let fourth := (v &&& 0xff).toNat
  if fourth = 0 then core else s!"{core}.{fourth}"

def suggestedName (ident : FwIdent) (codec : Codec) (root : Octets 4) : String :=
  let hw := if ident.hwId.isEmpty then "fw" else ident.hwId
  s!"{hw}_{hexPadded 8 ident.targetId.toNat}_v{versionStr ident.fwVersion}_{codec.nameTag}_" ++
    s!"{hexBytes root.val}.mota"

def blockSizeLog2 (bs : ℕ) : UInt8 := UInt8.ofNat (Nat.log2 (max bs 1))

/-- Explicit options win over the identity in the firmware's trailer. -/
def resolveIdent (o : BuildOpts) : Run FwIdent := do
  let fromFw ← parseIdent c o.fw
  .ok ⟨o.fwVersion.getD fromFw.fwVersion, o.targetId.getD fromFw.targetId,
    o.hwId.getD fromFw.hwId⟩

def encodeDelta (o : BuildOpts) (baseImage image : Bytes) (baseHash : Octets 8) :
    Run DeltaBuilt :=
  match o.patchType with
  | .sequential => do
    let payload ← encodeSequential baseImage image
    .ok ⟨.detoolsSequential, payload, baseHash, none⟩
  | .inPlace => do
    let plan ← planInplace c o baseImage image
    let payload ← encodeInPlace baseImage image plan.memory.toNat o.segmentSize.toNat
    .ok ⟨.detoolsInplace, payload, baseHash, some plan⟩

def buildDelta (o : BuildOpts) (ident : FwIdent) (image baseFw : Bytes) : Run DeltaBuilt := do
  let trailed ← hasEndf c baseFw
  ensure (trailed = true)
    ("--base must be a real firmware image with its EndF trailer (the device's running image); " ++
      "this one has none")
  let baseIdent ← parseIdent c baseFw
  ensure (o.force = true ∨ baseIdent.hwId = ident.hwId)
    (s!"base hardware {quoted escaped baseIdent.hwId} != " ++
      s!"target hardware {quoted escaped ident.hwId}; " ++
      "a cross-hardware delta will not apply (use --force to override)")
  let (baseImage, baseHash) ← ensureEndf c baseFw baseIdent
  encodeDelta c o baseImage image baseHash

def buildPayload (o : BuildOpts) (ident : FwIdent) (image : Bytes) : Run DeltaBuilt :=
  match o.base with
  | none => .ok ⟨.full, image, Octets.zero 8, none⟩
  | some baseFw => buildDelta c escaped o ident image baseFw

def flagByte (o : BuildOpts) (codec : Codec) : UInt8 :=
  (if codec = .full then MFLAG_FULL else 0) ||| (if o.signSeed.isSome then MFLAG_SIGNED else 0)

def signManifest (signSeed : Option (Octets 32)) (mf : Bytes) : Run Bytes :=
  match signSeed with
  | none => .ok mf
  | some seed => do
    let mf ← copyAt mf off.SIGNER (c.publicFromSeed seed).val
    let signed ← slice mf 0 SIGNED_LEN
    copyAt mf off.SIGNATURE (c.sign seed signed).val

def writeManifest (o : BuildOpts) (ident : FwIdent) (image : Bytes) (delta : DeltaBuilt)
    (root : Octets 4) : Run Bytes := do
  let mf ← writeFields (List.replicate MFL 0) [
    (off.FORMAT_VER, [FORMAT_VER]),
    (off.FLAGS, [flagByte o delta.codec]),
    (off.HASH_ALGO, [HASH_ALGO_SHA256]),
    (off.TARGET_ID, u32Le ident.targetId),
    (off.FW_VERSION, u32Le ident.fwVersion),
    (off.IMAGE_SIZE, toLe 4 image.length),
    (off.PAYLOAD_SIZE, toLe 4 delta.payload.length),
    (off.BLOCK_SIZE_LOG2, [blockSizeLog2 o.blockSize.toNat]),
    (off.MERKLE_ROOT, root.val),
    (off.IMAGE_HASH, (c.sha256 image).val),
    (off.CODEC_ID, [delta.codec.toU8]),
    (off.HW_ID, (utf8 ident.hwId).take HW_ID_LEN)]
  let mf ← copyAt mf off.BASE_HASH delta.baseHash.val
  let mf ← signManifest c o.signSeed mf
  copyAt mf off.APPROVAL APPROVAL_NONE.val

def checkStaging (inplace : Option InplacePlan) (total : ℕ) : Run Unit :=
  match inplace with
  | none => .ok ()
  | some plan => validateStagingFit plan total

def build (o : BuildOpts) : Run Built := do
  let blockSize := o.blockSize.toNat
  ensure (1 < blockSize ∧ blockSize ≤ MAX_APPLICATION_BLOCK_SIZE ∧
      isPowerOfTwo blockSize = true)
    ("application block size must be a power of two between 2 and " ++
      s!"{MAX_APPLICATION_BLOCK_SIZE} bytes")
  let ident ← resolveIdent c o
  let (image, _) ← ensureEndf c o.fw ident
  let delta ← buildPayload c escaped o ident image
  let leaves := leafHashes c delta.payload blockSize
  let blockCount := leaves.length
  ensure (1 ≤ blockCount ∧ blockCount ≤ 0xffff)
    s!"payload yields an invalid block count ({blockCount})"
  let root ← root c leaves
  let mf ← writeManifest c o ident image delta root
  let leavesBytes := flatten leaves
  let total := HEADER_LEN + MFL + leavesBytes.length + delta.payload.length + TRAILER_LEN
  ensure (total ≤ 2 ^ 32 - 1) ".mota container is too large"
  checkStaging delta.inplace total
  let bytes := MAGIC ++ (toLe 4 total ++ (mf ++ (leavesBytes ++ (delta.payload ++ TRAILER))))
  let manifest ← Manifest.parse c bytes
  .ok ⟨bytes, suggestedName ident delta.codec root, manifest,
    delta.inplace.map InplacePlan.memory⟩

end MotaTool.Build
