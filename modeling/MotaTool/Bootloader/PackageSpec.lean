import MotaTool.Bootloader.Package
import MotaTool.Build.AssembleSpec

/-!
# What the bootloader writer has produced

The bootloader writer fills the same manifest as the application writer, with
fixed geometry, a zero base hash and an obligatory signature.
-/

namespace MotaTool.Bootloader

open Base Run Format Endf Encode Merkle Build

def unsignedManifest (c : Crypto) (o : BootloaderBuildOpts) (targetId : UInt32)
    (hwId : Octets 32) (bootVersion : UInt32) (root : Octets 4) : Manifest where
  formatVer := BOOT_FORMAT_VER
  flags := MFLAG_FULL ||| MFLAG_SIGNED ||| MFLAG_BOOTLOADER
  hashAlgo := HASH_ALGO_SHA256
  targetId := targetId
  fwVersion := bootVersion
  imageSize := UInt32.ofNat IMAGE_SIZE
  payloadSize := UInt32.ofNat IMAGE_SIZE
  blockSizeLog2 := UInt8.ofNat (Nat.log2 BOOTLOADER_BLOCK_SIZE)
  blockCount := BLOCK_COUNT
  merkleRoot := root
  imageHash := c.sha256 o.image
  codecId := Codec.full.toU8
  hwId := hwId
  baseHash := Octets.zero 8
  signer := c.publicFromSeed o.signSeed
  signature := Octets.zero 64
  approval := APPROVAL_NONE

def bootManifest (c : Crypto) (o : BootloaderBuildOpts) (targetId : UInt32) (hwId : Octets 32)
    (bootVersion : UInt32) (root : Octets 4) : Manifest :=
  withSignature c (some o.signSeed) (unsignedManifest c o targetId hwId bootVersion root)

section Manifest

variable {c : Crypto} {o : BootloaderBuildOpts} {targetId : UInt32} {hwId : Octets 32}
  {bootVersion : UInt32} {root : Octets 4}

theorem leading_tile (m : Manifest) : Tiles 0 (m.fields.take 12) off.BASE_HASH := by
  simp [Manifest.fields, tiles_cons, tiles_nil, Octets.length_val, off.FORMAT_VER, off.FLAGS,
    off.HASH_ALGO, off.TARGET_ID, off.FW_VERSION, off.IMAGE_SIZE, off.PAYLOAD_SIZE,
    off.BLOCK_SIZE_LOG2, off.MERKLE_ROOT, off.IMAGE_HASH, off.CODEC_ID, off.HW_ID, off.BASE_HASH]

theorem writeManifest_eq : writeManifest c o targetId hwId bootVersion root =
    .ok (fieldBytes (bootManifest c o targetId hwId bootVersion root).fields) := by
  obtain ⟨m, hm⟩ : ∃ m, m = unsignedManifest c o targetId hwId bootVersion root := ⟨_, rfl⟩
  have hlead : writeFields (List.replicate MFL 0) (m.fields.take 12) =
      .ok (overlay (bodyBytes m) (List.replicate MFL 0)) := by
    have hwrite := @Tiles.write _ [] (List.replicate MFL (0 : UInt8)) _ _ (leading_tile m)
      (by rw [List.length_replicate]; decide)
    rw [overlay_nil, List.nil_append] at hwrite
    have hzero : m.baseHash.val = List.replicate 8 0 := by
      rw [hm]
      rfl
    rw [hwrite, bodyBytes_eq, hzero, overlay_replicate]
    rw [leading_length]
    decide
  have hseal := @signManifest_seals c m (some o.signSeed) (by rw [hm]; rfl) (by rw [hm]; rfl)
  rw [writeManifest, toLe_eq_u32Le]
  rw [hm] at hlead hseal
  change (writeFields (List.replicate MFL 0)
    ((unsignedManifest c o targetId hwId bootVersion root).fields.take 12) >>= _) = _
  rw [hlead, ok_bind, hseal]
  rfl

end Manifest

section Sealed

variable {c : Crypto} {envName : UInt32 → Option String} {o : BootloaderBuildOpts} {built : Built}

theorem forProfile_size {image : Bytes} {board : BootloaderBoard} {profile : UInt8}
    {identity : BootloaderIdentity}
    (h : validateBootloaderImageForProfile c envName image board profile = .ok identity) :
    image.length = IMAGE_SIZE := by
  simp only [validateBootloaderImageForProfile, bind_eq_ok, ensure_eq_ok, exists_unit] at h
  exact h.2.2.1

theorem buildBootloader_parse (h : buildBootloader c envName o = .ok built) :
    Manifest.parse c built.bytes = .ok built.manifest := by
  simp only [buildBootloader, bind_eq_ok, ensure_eq_ok, exists_unit] at h
  obtain ⟨_, -, -, _, -, _, -, _, -, _, -, -, manifest, hparse, _, -, hbuilt⟩ := h
  cases hbuilt
  exact hparse

theorem buildBootloader_sealed (hc : c.AcceptsSigned)
    (h : buildBootloader c envName o = .ok built) :
    o.image.length = IMAGE_SIZE ∧ (∃ targetId hwId bootVersion root,
      built.manifest = bootManifest c o targetId hwId bootVersion root) ∧
      built.manifest.payloadOf built.bytes = o.image ∧
      Verified c built.bytes built.manifest := by
  simp only [buildBootloader, bind_eq_ok, ensure_eq_ok, exists_unit, writeManifest_eq,
    Except.ok.injEq, exists_eq_left'] at h
  obtain ⟨identity, hvalid, -, root, hroot, targetId, -, hwId, -, -, manifest, hparse, -, -, rfl⟩ :=
    h
  have hlen := forProfile_size hvalid
  obtain ⟨n, hn⟩ : ∃ n, n = bootManifest c o targetId hwId identity.bootVersion root := ⟨_, rfl⟩
  have hblock : n.blockSize = BOOTLOADER_BLOCK_SIZE := by
    rw [hn]
    rfl
  have hsealed := @seal_verified c _ o.image manifest n PACKAGE_SIZE
    (leafHashes c o.image BOOTLOADER_BLOCK_SIZE) (by rw [hn]) hparse
    (by rw [hn, hlen]; rfl) (by rw [hblock, hlen, hn]; rfl) (by rw [hblock])
    (by rw [hroot, hn]; rfl) (fun _ => by rw [hn]; rfl)
    (fun _ => by rw [hn]; exact withSignature_verifies hc rfl rfl) (by rw [hn]; rfl)
  obtain ⟨rfl, hpayload, hverified⟩ := hsealed
  exact ⟨hlen, ⟨targetId, hwId, identity.bootVersion, root, hn⟩, hpayload, hverified⟩

end Sealed

end MotaTool.Bootloader
