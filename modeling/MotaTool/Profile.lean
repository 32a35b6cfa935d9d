import MotaTool.VerifySpec

/-!
# The profiles of the two formats

Parsing decides exactly the conditions that `Parsed` lists. A bootloader container
has every field of its narrow profile checked. An application container is checked for
its framing, its geometry and its content only: every other field may be replaced by any
value and the container still verifies, as long as a claimed signature covers it.
-/

namespace MotaTool

open Base Run Format Merkle

namespace Manifest

section Complete

variable {c : Crypto} {blob : Bytes} {m : Manifest}

theorem readFields_of_fields {mf : Bytes} (hlen : MFL ≤ mf.length)
    (h : ∀ field ∈ m.fields, field.2 = (mf.drop field.1).take field.2.length) :
    readFields mf m.formatVer m.flags m.payloadSize m.blockSizeLog2 m.blockCount = .ok m := by
  have hword : ∀ {v : UInt32} {o : ℕ}, o + 4 ≤ MFL →
      u32Le v = (mf.drop o).take (u32Le v).length → rdU32 mf o = .ok v := fun ho hv => by
    rw [u32Le_length] at hv
    exact rdU32_eq_ok.mpr ⟨by omega, hv⟩
  have hfixed : ∀ {n o : ℕ} {w : Octets n}, w.val = (mf.drop o).take w.val.length →
      octets n mf o = .ok w := fun hw => by
    rw [Octets.length_val] at hw
    exact octets_eq_ok.mpr hw
  simp only [fields, List.forall_mem_cons] at h
  obtain ⟨-, -, hhash, htarget, hfw, himage, -, -, hroot, hdigest, hcodec, hhw, hbase, hsigner,
    hsig, happ, -⟩ := h
  simp only [readFields, index_of_take hhash, hword (by decide) htarget, hword (by decide) hfw,
    hword (by decide) himage, hfixed hroot, hfixed hdigest, index_of_take hcodec, hfixed hhw,
    hfixed hbase, hfixed hsigner, hfixed hsig, hfixed happ, ok_bind]

theorem Parsed.length_lt (h : Parsed c blob m) : blob.length < 2 ^ 32 := by
  have hend := h.payload_end
  have hoff := m.payloadOff_eq
  have hcover := h.blocks_cover.2
  have hhigh := h.high
  have hpayload : m.payloadSize.toNat ≤ 65535 * 2048 :=
    hcover.trans (Nat.mul_le_mul hhigh h.blockSize_le)
  simp only [leavesOff, HEADER_LEN, MFL, TRAILER_LEN] at hend hoff
  omega

theorem Parsed.parse (h : Parsed c blob m) : Manifest.parse c blob = .ok m := by
  have hsize := h.size
  simp only [HEADER_LEN, MFL, TRAILER_LEN] at hsize
  have hmagic : slice blob 0 4 = .ok MAGIC := slice_eq_ok.mpr ⟨by omega, by omega, h.magic.symm⟩
  have htotal : rdU32 blob 4 = .ok (UInt32.ofNat blob.length) :=
    rdU32_eq_ok.mpr ⟨by omega, by rw [h.total, toLe_eq_u32Le]⟩
  have hlength : (UInt32.ofNat blob.length).toNat = blob.length := by
    rw [UInt32.toNat_ofNat', Nat.mod_eq_of_lt h.length_lt]
  have htrailer : slice blob (blob.length - TRAILER_LEN) blob.length = .ok TRAILER := by
    refine slice_eq_ok.mpr ⟨by omega, le_rfl, ?_⟩
    rw [h.trailer, List.take_of_length_le (by simp [TRAILER, ascii, TRAILER_LEN]; omega)]
  have hmf : slice blob HEADER_LEN blob.length = .ok (blob.drop HEADER_LEN) := by
    refine slice_eq_ok.mpr ⟨by simp only [HEADER_LEN]; omega, le_rfl, ?_⟩
    rw [List.take_of_length_le (by rw [List.length_drop])]
  have hmfl : MFL ≤ (blob.drop HEADER_LEN).length := by
    rw [List.length_drop]
    simp only [MFL, HEADER_LEN]
    omega
  have hread := h.fields
  simp only [Manifest.fields, List.forall_mem_cons] at hread
  obtain ⟨hver, hflags, -, -, -, -, hpayload, hlog, -⟩ := hread
  have hpayload : rdU32 (blob.drop HEADER_LEN) off.PAYLOAD_SIZE = .ok m.payloadSize := by
    rw [u32Le_length] at hpayload
    exact rdU32_eq_ok.mpr ⟨le_trans (by decide) hmfl, hpayload⟩
  have hshift : m.blockSizeLog2.toNat < 32 := by
    have hbounds := checkBlockSize_bounds h.log2
    omega
  have hcount : divCeil m.payloadSize.toNat (2 ^ m.blockSizeLog2.toNat) = m.blockCount :=
    h.count.symm
  rw [Manifest.parse, ensure_of h.size, ok_bind, hmagic, ok_bind, ensure_of rfl, ok_bind, htotal,
    ok_bind, ensure_of hlength, ok_bind, htrailer, ok_bind, ensure_of rfl, ok_bind, hmf, ok_bind,
    index_of_take hver, ok_bind, index_of_take hflags, ok_bind, h.flags, ok_bind,
    index_of_take hlog, ok_bind, hpayload, ok_bind, ensure_of h.payload, ok_bind, h.log2, ok_bind,
    assert_of hshift, ok_bind, hcount]
  dsimp only
  rw [ensure_of ⟨h.low, h.high⟩, ok_bind, readFields_of_fields hmfl h.fields, ok_bind,
    ensure_of h.geometry, ok_bind, h.bootloader, ok_bind]

end Complete

section Assemble

variable {c : Crypto} {n : Manifest} {leaves payload : Bytes}

def assembled (n : Manifest) (leaves payload : Bytes) : Bytes :=
  MAGIC ++ (toLe 4 n.totalSize ++ (fieldBytes n.fields ++ (leaves ++ (payload ++ TRAILER))))

structure Shaped (n : Manifest) (leaves payload : Bytes) : Prop where
  flags : checkFlags n.formatVer n.flags = .ok ()
  log2 : checkBlockSize n.formatVer n.blockSizeLog2 = .ok ()
  nonzero : n.payloadSize ≠ 0
  count : n.blockCount = divCeil n.payloadSize.toNat n.blockSize
  low : 1 ≤ n.blockCount
  high : n.blockCount ≤ 0xffff
  leaves : leaves.length = 4 * n.blockCount
  payload : payload.length = n.payloadSize.toNat

structure Fits (n : Manifest) (leaves payload : Bytes) : Prop extends n.Shaped leaves payload where
  format : n.formatVer = APP_FORMAT_VER

theorem serialize_assembled (n : Manifest) (leaves payload : Bytes) :
    n.serialize leaves payload = .ok (n.assembled leaves payload) := by
  rw [serialize, writeFields_fields, ok_bind, assembled]

theorem assembled_manifest (n : Manifest) (leaves payload : Bytes) :
    (n.assembled leaves payload).drop HEADER_LEN =
      fieldBytes n.fields ++ (leaves ++ (payload ++ TRAILER)) := by
  rw [assembled, ← List.append_assoc,
    List.drop_left' (by rw [List.length_append, toLe_length]; rfl)]

theorem assembled_leaves (n : Manifest) (leaves payload : Bytes) :
    (n.assembled leaves payload).drop n.leavesOff = leaves ++ (payload ++ TRAILER) := by
  rw [leavesOff, ← List.drop_drop, assembled_manifest, List.drop_left' n.fieldBytes_length]

theorem Shaped.length (h : n.Shaped leaves payload) :
    (n.assembled leaves payload).length = n.totalSize := by
  have hoff := n.payloadOff_eq
  simp only [assembled, List.length_append, toLe_length, fieldBytes_length, h.leaves, h.payload,
    totalSize, hoff, leavesOff, MAGIC, TRAILER, ascii, List.length_map, List.length_cons,
    List.length_nil, HEADER_LEN, TRAILER_LEN]
  omega

theorem Shaped.payload_drop (h : n.Shaped leaves payload) :
    (n.assembled leaves payload).drop n.payloadOff = payload ++ TRAILER := by
  rw [payloadOff_eq, ← List.drop_drop, assembled_leaves, List.drop_left' h.leaves]

theorem Shaped.leavesOf (h : n.Shaped leaves payload) :
    n.leavesOf (n.assembled leaves payload) = leaves := by
  have hoff := n.payloadOff_eq
  rw [Manifest.leavesOf, assembled_leaves, List.take_left' (by rw [h.leaves]; omega)]

theorem Shaped.payloadOf (h : n.Shaped leaves payload) :
    n.payloadOf (n.assembled leaves payload) = payload := by
  rw [Manifest.payloadOf, h.payload_drop, List.take_left' h.payload]

theorem Shaped.payload_slice (h : n.Shaped leaves payload) :
    slice (n.assembled leaves payload) n.payloadOff (n.payloadOff + n.payloadSize.toNat) =
      .ok payload := by
  refine slice_eq_ok.mpr ⟨by omega, ?_, ?_⟩
  · rw [h.length, totalSize]
    omega
  · rw [h.payload_drop, Nat.add_sub_cancel_left, List.take_left' h.payload]

theorem Shaped.parsed (h : n.Shaped leaves payload)
    (hboot : checkBootloader c (n.assembled leaves payload) n = .ok ()) :
    n.Parsed c (n.assembled leaves payload) := by
  have hlength := h.length
  have hoff := n.payloadOff_eq
  refine ⟨?_, ?_, ?_, ?_, ?_, h.flags, h.log2, h.nonzero, h.count, h.low, h.high, hlength.symm,
    hboot⟩
  · rw [hlength, totalSize, hoff, leavesOff]
    omega
  · exact List.take_left' rfl
  · rw [hlength, assembled, List.drop_left' (show MAGIC.length = 4 from rfl),
      List.take_left' (toLe_length 4 _)]
  · have hend : (n.assembled leaves payload).length - TRAILER_LEN =
        n.payloadOff + payload.length := by
      rw [hlength, totalSize, h.payload, Nat.add_sub_cancel]
    rw [hend, ← List.drop_drop, h.payload_drop, List.drop_left]
  · intro field hfield
    rw [assembled_manifest, n.fields_tile.read_front hfield]

theorem Fits.not_bootloader (h : n.Fits leaves payload) : n.isBootloader = false := by
  have hflags := h.flags
  rw [checkFlags, if_pos h.format, ensure_eq_ok] at hflags
  simp [isBootloader, hflags.1]

theorem Fits.parsed (h : n.Fits leaves payload) : n.Parsed c (n.assembled leaves payload) :=
  h.toShaped.parsed (by rw [checkBootloader, if_neg (by simp [h.not_bootloader])])

end Assemble

end Manifest

section Verifying

variable {c : Crypto} {n : Manifest} {leaves payload : Bytes}

theorem verify_assembled (h : n.Fits leaves payload) :
    verify c (n.assembled leaves payload) = .ok [] ↔
      flatten (leafHashes c payload n.blockSize) = leaves ∧
      root c (chunksExact4 leaves) = .ok n.merkleRoot ∧
      (n.isFull = true → c.sha256 payload = n.imageHash) ∧
      (n.isSigned = true → c.verify n.signer n.signedPrefix n.signature = true) ∧
      n.approval = APPROVAL_NONE := by
  have hparsed := @Manifest.Fits.parsed c n leaves payload h
  have hsigned : ((n.assembled leaves payload).drop HEADER_LEN).take SIGNED_LEN =
      n.signedPrefix := by
    rw [Manifest.assembled_manifest, Manifest.signedPrefix,
      List.take_append_of_le_length (by rw [Manifest.fieldBytes_length]; decide)]
  rw [verify, hparsed.parse]
  refine (problems_eq_nil hparsed).trans ?_
  constructor
  · rintro ⟨-, hleaves, hroot, himage, hsig, happ⟩
    rw [h.leavesOf] at hleaves hroot
    rw [h.payloadOf] at hleaves himage
    rw [hsigned] at hsig
    exact ⟨hleaves, hroot, himage, hsig, happ⟩
  · rintro ⟨hleaves, hroot, himage, hsig, happ⟩
    refine ⟨hparsed, ?_, ?_, ?_, ?_, happ⟩
    · rw [h.leavesOf, h.payloadOf, hleaves]
    · rw [h.leavesOf, hroot]
    · rw [h.payloadOf]
      exact himage
    · rw [hsigned]
      exact hsig

end Verifying

section Profiles

/-- The field values an application container is documented to have. -/
structure Manifest.SelfConsistent (m : Manifest) : Prop where
  hashAlgo : m.hashAlgo = HASH_ALGO_SHA256
  full : m.isFull = true → m.codecId = Codec.full.toU8 ∧ m.imageSize = m.payloadSize ∧
    m.baseHash = Octets.zero 8
  delta : m.isFull = false → m.codecId = Codec.detoolsSequential.toU8 ∨
    m.codecId = Codec.detoolsInplace.toU8
  unsigned : m.isSigned = false → m.signer = Octets.zero 32 ∧ m.signature = Octets.zero 64

structure Manifest.SameContent (m n : Manifest) : Prop where
  formatVer : n.formatVer = m.formatVer
  flags : n.flags = m.flags
  payloadSize : n.payloadSize = m.payloadSize
  blockSizeLog2 : n.blockSizeLog2 = m.blockSizeLog2
  blockCount : n.blockCount = m.blockCount
  merkleRoot : n.merkleRoot = m.merkleRoot
  imageHash : m.isFull = true → n.imageHash = m.imageHash
  approval : n.approval = m.approval

variable {c : Crypto} {blob : Bytes} {m n : Manifest}

theorem Manifest.SameContent.fits (hsame : m.SameContent n) (h : m.Parsed c blob)
    (happ : m.formatVer = APP_FORMAT_VER) : n.Fits (m.leavesOf blob) (m.payloadOf blob) := by
  have hblock : n.blockSize = m.blockSize := by
    rw [Manifest.blockSize, Manifest.blockSize, hsame.blockSizeLog2]
  refine ⟨⟨?_, ?_, ?_, ?_, ?_, ?_, ?_, ?_⟩, hsame.formatVer.trans happ⟩
  · rw [hsame.formatVer, hsame.flags, h.flags]
  · rw [hsame.formatVer, hsame.blockSizeLog2, h.log2]
  · rw [hsame.payloadSize]
    exact h.payload
  · rw [hsame.blockCount, hsame.payloadSize, hblock, h.count]
  · rw [hsame.blockCount]
    exact h.low
  · rw [hsame.blockCount]
    exact h.high
  · rw [hsame.blockCount, h.leaves_length]
  · rw [hsame.payloadSize, h.payload_length]

theorem Verified.rewrite (h : Verified c blob m) (happ : m.formatVer = APP_FORMAT_VER)
    (hsame : m.SameContent n) :
    verify c (n.assembled (m.leavesOf blob) (m.payloadOf blob)) = .ok [] ↔
      (n.isSigned = true → c.verify n.signer n.signedPrefix n.signature = true) := by
  have hblock : n.blockSize = m.blockSize := by
    rw [Manifest.blockSize, Manifest.blockSize, hsame.blockSizeLog2]
  have himage : n.isFull = true → c.sha256 (m.payloadOf blob) = n.imageHash := by
    rw [Manifest.isFull, hsame.flags]
    intro hfull
    rw [hsame.imageHash hfull, h.image hfull]
  rw [verify_assembled (hsame.fits h.parsed happ), hblock, hsame.merkleRoot, hsame.approval]
  constructor
  · exact fun hv => hv.2.2.2.1
  · exact fun hsig => ⟨h.leaves, h.root, himage, hsig, h.approval⟩

theorem Manifest.Parsed.bootloader_profile (h : m.Parsed c blob)
    (hboot : m.formatVer = BOOT_FORMAT_VER) :
    m.isFull = true ∧ m.isSigned = true ∧ m.SelfConsistent := by
  have hflags := h.flags
  have hchecked := h.bootloader
  rw [Manifest.checkFlags, if_neg (by rw [hboot]; decide), if_pos hboot, ensure_eq_ok] at hflags
  have hfull : m.isFull = true := by
    rw [Manifest.isFull, hflags]
    decide
  have hsigned : m.isSigned = true := by
    rw [Manifest.isSigned, hflags]
    decide
  have hprofile : m.isBootloader = true := by
    rw [Manifest.isBootloader, hflags]
    decide
  simp only [Manifest.checkBootloader, hprofile, if_true, bind_eq_ok, ensure_eq_ok,
    exists_unit] at hchecked
  obtain ⟨⟨halgo, -, hcodec, himage, hpayload, -, -, hbase⟩, -⟩ := hchecked
  refine ⟨hfull, hsigned, halgo, fun _ => ⟨hcodec, ?_, hbase⟩, ?_, ?_⟩
  · rw [← UInt32.toNat_inj, himage, hpayload]
  · simp [hfull]
  · simp [hsigned]

/-- A verified container is bound to its content. The bootloader profile fixes the other
fields as well; in an application container they are free, up to a claimed signature. -/
theorem verify_profile (c : Crypto) (blob : Bytes) (hv : verify c blob = .ok []) :
    ∃ m, Manifest.parse c blob = .ok m ∧
      (flatten (leafHashes c (m.payloadOf blob) m.blockSize) = m.leavesOf blob ∧
        root c (chunksExact4 (m.leavesOf blob)) = .ok m.merkleRoot ∧
        m.approval = APPROVAL_NONE) ∧
      (m.isFull = true → c.sha256 (m.payloadOf blob) = m.imageHash) ∧
      (m.isSigned = true →
        c.verify m.signer ((blob.drop HEADER_LEN).take SIGNED_LEN) m.signature = true) ∧
      (m.formatVer = BOOT_FORMAT_VER →
        m.isFull = true ∧ m.isSigned = true ∧ m.SelfConsistent) ∧
      (m.formatVer = APP_FORMAT_VER → ∀ n, m.SameContent n →
        ∃ y, n.serialize (m.leavesOf blob) (m.payloadOf blob) = .ok y ∧
          Manifest.parse c y = .ok n ∧
          (verify c y = .ok [] ↔
            (n.isSigned = true → c.verify n.signer n.signedPrefix n.signature = true))) := by
  obtain ⟨m, hparse, h⟩ := verify_eq_nil.mp hv
  refine ⟨m, hparse, ⟨h.leaves, h.root, h.approval⟩, h.image, h.signature,
    h.parsed.bootloader_profile, fun happ n hsame => ?_⟩
  exact ⟨_, n.serialize_assembled _ _, (hsame.fits h.parsed happ).parsed.parse,
    h.rewrite happ hsame⟩

set_option maxRecDepth 4000 in
theorem verify_profile_tiny : ∃ m, Manifest.parse Crypto.plain tinyUnsigned = .ok m ∧
    (flatten (leafHashes Crypto.plain (m.payloadOf tinyUnsigned) m.blockSize) =
        m.leavesOf tinyUnsigned ∧
      root Crypto.plain (chunksExact4 (m.leavesOf tinyUnsigned)) = .ok m.merkleRoot ∧
      m.approval = APPROVAL_NONE) ∧
    (m.isFull = true → Crypto.plain.sha256 (m.payloadOf tinyUnsigned) = m.imageHash) ∧
    (m.isSigned = true → Crypto.plain.verify m.signer
      ((tinyUnsigned.drop HEADER_LEN).take SIGNED_LEN) m.signature = true) ∧
    (m.formatVer = BOOT_FORMAT_VER → m.isFull = true ∧ m.isSigned = true ∧ m.SelfConsistent) ∧
    (m.formatVer = APP_FORMAT_VER → ∀ n, m.SameContent n →
      ∃ y, n.serialize (m.leavesOf tinyUnsigned) (m.payloadOf tinyUnsigned) = .ok y ∧
        Manifest.parse Crypto.plain y = .ok n ∧
        (verify Crypto.plain y = .ok [] ↔
          (n.isSigned = true → Crypto.plain.verify n.signer n.signedPrefix n.signature = true))) :=
  verify_profile Crypto.plain tinyUnsigned rfl

/-- A one-byte full image under the digests of `c`, with another hash algorithm, a delta
codec, a wrong image size, a base, and a signer and signature although it is unsigned. -/
def oddManifest (c : Crypto) : Manifest :=
  ⟨APP_FORMAT_VER, MFLAG_FULL, 0, 1, 2, 5, 1, 1, 1, c.mh4 [7], c.sha256 [7],
    Codec.detoolsSequential.toU8, Octets.zero 32, Octets.padded 8 [1], Octets.padded 32 [1],
    Octets.padded 64 [1], APPROVAL_NONE⟩

theorem oddManifest_fits (c : Crypto) : (oddManifest c).Fits (c.mh4 [7]).val [7] := by
  have hflags : Manifest.checkFlags APP_FORMAT_VER MFLAG_FULL = .ok () := rfl
  have hlog : Manifest.checkBlockSize APP_FORMAT_VER 1 = .ok () := rfl
  have hcount : 1 = divCeil (1 : UInt32).toNat 2 := by decide
  have hnonzero : (1 : UInt32) ≠ 0 := by decide
  have hhigh : 1 ≤ 0xffff := by decide
  exact ⟨⟨hflags, hlog, hnonzero, hcount, le_rfl, hhigh, Octets.length_val _, rfl⟩, rfl⟩

/-- Under no digest and signature scheme does verification imply the documented values. -/
theorem verify_inconsistent : ¬ ∃ c : Crypto, ∀ blob m, Manifest.parse c blob = .ok m →
    verify c blob = .ok [] → m.formatVer = APP_FORMAT_VER → m.SelfConsistent := by
  rintro ⟨c, hclaim⟩
  have hfits := oddManifest_fits c
  have hone : (c.mh4 [7]).val = flatten [c.mh4 [7]] := (List.append_nil _).symm
  have hchunks : chunks (oddManifest c).blockSize [7] = [[7]] := show chunks 2 [7] = _ by decide
  have hleaves : leafHashes c [7] (oddManifest c).blockSize = [c.mh4 [7]] := by
    rw [leafHashes, hchunks]
    rfl
  have hverify : verify c ((oddManifest c).assembled (c.mh4 [7]).val [7]) = .ok [] := by
    rw [verify_assembled hfits, hleaves, hone, chunksExact4_flatten]
    have hunsigned : ¬ (MFLAG_FULL &&& MFLAG_SIGNED != 0) = true := by decide
    exact ⟨rfl, rfl, fun _ => rfl, fun hsigned => absurd hsigned hunsigned, rfl⟩
  have hodd := hclaim _ _ hfits.parsed.parse hverify rfl
  have halgo : (0 : UInt8) = HASH_ALGO_SHA256 := hodd.hashAlgo
  exact absurd halgo (by decide)

end Profiles

end MotaTool
