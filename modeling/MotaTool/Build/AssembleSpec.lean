import MotaTool.Build.Assemble
import MotaTool.Build.PlanSpec
import MotaTool.VerifySpec

/-!
# What a successful build has produced

The bytes written for the manifest are those of `appManifest`, and since the
package parses, that is the manifest parsing returns. Everything the verifier
recomputes is then what the builder computed.
-/

namespace MotaTool.Build

open Base Run Format Endf Encode Merkle

def unsignedManifest (c : Crypto) (o : BuildOpts) (ident : FwIdent) (image : Bytes)
    (delta : DeltaBuilt) (root : Octets 4) : Manifest where
  formatVer := FORMAT_VER
  flags := flagByte o delta.codec
  hashAlgo := HASH_ALGO_SHA256
  targetId := ident.targetId
  fwVersion := ident.fwVersion
  imageSize := UInt32.ofNat image.length
  payloadSize := UInt32.ofNat delta.payload.length
  blockSizeLog2 := blockSizeLog2 o.blockSize.toNat
  blockCount := divCeil delta.payload.length o.blockSize.toNat
  merkleRoot := root
  imageHash := c.sha256 image
  codecId := delta.codec.toU8
  hwId := Octets.padded HW_ID_LEN (utf8 ident.hwId)
  baseHash := delta.baseHash
  signer := (o.signSeed.map c.publicFromSeed).getD (Octets.zero 32)
  signature := Octets.zero 64
  approval := APPROVAL_NONE

def signatureOf (c : Crypto) (signSeed : Option (Octets 32)) (m : Manifest) : Octets 64 :=
  (signSeed.map fun seed => c.sign seed (m.signedPrefix)).getD (Octets.zero 64)

def withSignature (c : Crypto) (signSeed : Option (Octets 32)) (m : Manifest) : Manifest :=
  { m with signature := signatureOf c signSeed m }

def appManifest (c : Crypto) (o : BuildOpts) (ident : FwIdent) (image : Bytes)
    (delta : DeltaBuilt) (root : Octets 4) : Manifest :=
  withSignature c o.signSeed (unsignedManifest c o ident image delta root)

def leadingFields (c : Crypto) (o : BuildOpts) (ident : FwIdent) (image : Bytes)
    (delta : DeltaBuilt) (root : Octets 4) : List (ℕ × Bytes) :=
  (unsignedManifest c o ident image delta root).fields.take 11 ++
    [(off.HW_ID, (utf8 ident.hwId).take HW_ID_LEN)]

section Manifest

variable {c : Crypto} {escaped : Char → Bool} {o : BuildOpts} {ident : FwIdent} {image : Bytes}
  {delta : DeltaBuilt}
  {root : Octets 4}

theorem leadingFields_tile : Tiles 0 (leadingFields c o ident image delta root)
    (off.HW_ID + ((utf8 ident.hwId).take HW_ID_LEN).length) := by
  simp [leadingFields, Manifest.fields, tiles_cons, tiles_nil, Octets.length_val,
    off.FORMAT_VER, off.FLAGS, off.HASH_ALGO, off.TARGET_ID, off.FW_VERSION, off.IMAGE_SIZE,
    off.PAYLOAD_SIZE, off.BLOCK_SIZE_LOG2, off.MERKLE_ROOT, off.IMAGE_HASH, off.CODEC_ID,
    off.HW_ID]

theorem leadingFields_bytes : fieldBytes (leadingFields c o ident image delta root) ++
      List.replicate (HW_ID_LEN - ((utf8 ident.hwId).take HW_ID_LEN).length) 0 =
    fieldBytes ((unsignedManifest c o ident image delta root).fields.take 12) := by
  have hsplit : (unsignedManifest c o ident image delta root).fields.take 12 =
      (unsignedManifest c o ident image delta root).fields.take 11 ++
        [(off.HW_ID, (Octets.padded HW_ID_LEN (utf8 ident.hwId)).val)] := rfl
  rw [leadingFields, hsplit, fieldBytes_append, fieldBytes_append, List.append_assoc]
  congr 1
  simp [fieldBytes, Octets.padded_take]

theorem signManifest_overlay {signSeed : Option (Octets 32)} {written : Bytes}
    (hlen : written.length = off.SIGNER) {m : Manifest}
    (hm : m.signedPrefix = written ++ m.signer.val)
    (hsigner : m.signer = (signSeed.map c.publicFromSeed).getD (Octets.zero 32)) :
    signManifest c signSeed (overlay written (List.replicate MFL 0)) =
      .ok (overlay (written ++ m.signer.val ++ (signatureOf c signSeed m).val)
        (List.replicate MFL 0)) := by
  have hsignerLen := m.signer.length_val
  cases signSeed with
  | none =>
    have hzero : m.signer.val ++ (signatureOf c none m).val = List.replicate 96 0 := by
      rw [hsigner]
      rfl
    rw [List.append_assoc, hzero, overlay_replicate (by rw [hlen]; decide)]
    rfl
  | some seed =>
    rw [Option.map_some, Option.getD_some] at hsigner
    have hcopy := @copyAt_overlay _ written (List.replicate MFL 0) m.signer.val off.SIGNER hlen.symm
      (by rw [hsignerLen, List.length_replicate]; decide)
    have hwhole : (written ++ m.signer.val).length = SIGNED_LEN := by
      rw [List.length_append, hlen, hsignerLen]
      rfl
    have hslice : slice (overlay (written ++ m.signer.val) (List.replicate MFL 0)) 0 SIGNED_LEN =
        .ok (m.signedPrefix) := by
      have hfit : (written ++ m.signer.val).length ≤ (List.replicate MFL (0 : UInt8)).length := by
        rw [hwhole, List.length_replicate]
        decide
      have htake := overlay_take (written ++ m.signer.val) (List.replicate MFL (0 : UInt8))
      rw [hwhole] at htake
      rw [slice_ok (Nat.zero_le _)
        (by rw [overlay_length hfit, List.length_replicate]; decide), hm, List.drop_zero,
        Nat.sub_zero, htake]
    simp only [signManifest, ← hsigner, hcopy, ok_bind, hslice]
    exact copyAt_overlay (by rw [hwhole]; rfl)
      (by rw [Octets.length_val, List.length_replicate]; decide)

def bodyBytes (m : Manifest) : Bytes := fieldBytes (m.fields.take 13)

theorem bodyBytes_eq (m : Manifest) :
    bodyBytes m = fieldBytes (m.fields.take 12) ++ m.baseHash.val := by
  simp [bodyBytes, fieldBytes, Manifest.fields]

theorem leading_length (m : Manifest) : (fieldBytes (m.fields.take 12)).length = off.BASE_HASH := by
  simp [fieldBytes, Manifest.fields, Octets.length_val, off.BASE_HASH]

theorem bodyBytes_length (m : Manifest) : (bodyBytes m).length = off.SIGNER := by
  rw [bodyBytes_eq, List.length_append, leading_length, Octets.length_val]
  rfl

theorem fieldBytes_split (m : Manifest) : fieldBytes m.fields =
    bodyBytes m ++ m.signer.val ++ m.signature.val ++ m.approval.val := by
  simp [bodyBytes, fieldBytes, Manifest.fields]

theorem signedPrefix_eq (m : Manifest) : m.signedPrefix = bodyBytes m ++ m.signer.val := by
  have hlen : (bodyBytes m ++ m.signer.val).length = SIGNED_LEN := by
    rw [List.length_append, bodyBytes_length, Octets.length_val]
    rfl
  rw [Manifest.signedPrefix, fieldBytes_split, List.append_assoc _ m.signature.val,
    List.take_left' hlen]

theorem signManifest_seals {m : Manifest} {signSeed : Option (Octets 32)}
    (hsigner : m.signer = (signSeed.map c.publicFromSeed).getD (Octets.zero 32))
    (happroval : m.approval = APPROVAL_NONE) :
    (do
      let mf ← signManifest c signSeed (overlay (bodyBytes m) (List.replicate MFL 0))
      copyAt mf off.APPROVAL APPROVAL_NONE.val) =
      .ok (fieldBytes (withSignature c signSeed m).fields) := by
  have hsign := @signManifest_overlay c signSeed _ (bodyBytes_length m) m (signedPrefix_eq m)
    hsigner
  have hwhole : (bodyBytes m ++ m.signer.val ++ (signatureOf c signSeed m).val).length =
      off.APPROVAL := by
    rw [List.length_append, List.length_append, bodyBytes_length, Octets.length_val,
      Octets.length_val]
    rfl
  have hcopy := @copyAt_overlay _ _ (List.replicate MFL 0) APPROVAL_NONE.val off.APPROVAL
    hwhole.symm (by rw [Octets.length_val, List.length_replicate]; decide)
  have hfields : fieldBytes (withSignature c signSeed m).fields =
      bodyBytes m ++ m.signer.val ++ (signatureOf c signSeed m).val ++ APPROVAL_NONE.val := by
    rw [fieldBytes_split, ← happroval]
    rfl
  rw [hsign, ok_bind, hcopy, overlay_full, hfields]
  rw [List.length_append, hwhole, Octets.length_val, List.length_replicate]
  decide

theorem writeManifest_eq : writeManifest c o ident image delta root =
    .ok (fieldBytes (appManifest c o ident image delta root).fields) := by
  obtain ⟨m, hm⟩ : ∃ m, m = unsignedManifest c o ident image delta root := ⟨_, rfl⟩
  have hlead : writeFields (List.replicate MFL 0) (leadingFields c o ident image delta root) =
      .ok (overlay (fieldBytes (m.fields.take 12)) (List.replicate MFL 0)) := by
    have hcut : ((utf8 ident.hwId).take HW_ID_LEN).length ≤ HW_ID_LEN := List.length_take_le _ _
    have hfit : off.HW_ID + ((utf8 ident.hwId).take HW_ID_LEN).length ≤ MFL := by
      simp only [off.HW_ID, HW_ID_LEN, MFL] at hcut ⊢
      omega
    have htile := @leadingFields_tile c o ident image delta root
    have hlen := htile.length
    have hwrite := @Tiles.write _ [] (List.replicate MFL (0 : UInt8)) _ _ htile
      (by rw [List.length_replicate]; exact hfit)
    rw [overlay_nil, List.nil_append] at hwrite
    rw [hwrite, hm, ← leadingFields_bytes, overlay_replicate]
    simp only [off.HW_ID, HW_ID_LEN, MFL] at hcut hlen ⊢
    omega
  have hbase := @copyAt_overlay _ _ (List.replicate MFL 0) delta.baseHash.val off.BASE_HASH
    (leading_length m).symm (by rw [Octets.length_val, List.length_replicate]; decide)
  have hbody : fieldBytes (m.fields.take 12) ++ delta.baseHash.val = bodyBytes m := by
    rw [bodyBytes_eq, hm]
    rfl
  rw [hbody] at hbase
  have hseal := @signManifest_seals c m o.signSeed (by rw [hm]; rfl) (by rw [hm]; rfl)
  rw [writeManifest, toLe_eq_u32Le, toLe_eq_u32Le]
  change (writeFields (List.replicate MFL 0) (leadingFields c o ident image delta root) >>= _) = _
  rw [hlead, ok_bind, hbase, ok_bind, hseal, hm]
  rfl

end Manifest

def containerLen (leaves : List (Octets 4)) (payload : Bytes) : ℕ :=
  HEADER_LEN + MFL + (flatten leaves).length + payload.length + TRAILER_LEN

/-- What a successful build has computed on the way to its container. -/
structure Assembled (c : Crypto) (escaped : Char → Bool) (o : BuildOpts) (ident : FwIdent)
    (image : Bytes) (delta : DeltaBuilt) (root : Octets 4) (built : Built) : Prop where
  block_size : 1 < o.blockSize.toNat ∧ o.blockSize.toNat ≤ MAX_APPLICATION_BLOCK_SIZE
  power : isPowerOfTwo o.blockSize.toNat = true
  identity : resolveIdent c o = .ok ident
  trailed : ∃ hash, ensureEndf c o.fw ident = .ok (image, hash)
  payload : buildPayload c escaped o ident image = .ok delta
  folded : Merkle.root c (leafHashes c delta.payload o.blockSize.toNat) = .ok root
  total : built.bytes.length < 2 ^ 32
  staging : checkStaging delta.inplace built.bytes.length = .ok ()
  bytes : built.bytes = MAGIC ++ (toLe 4 built.bytes.length ++
    (fieldBytes (appManifest c o ident image delta root).fields ++
      (flatten (leafHashes c delta.payload o.blockSize.toNat) ++ (delta.payload ++ TRAILER))))
  parse : Manifest.parse c built.bytes = .ok built.manifest
  memory : built.inplaceMemory = delta.inplace.map InplacePlan.memory

theorem container_length (m : Manifest) (leaves : List (Octets 4)) (payload : Bytes) (total : ℕ) :
    (MAGIC ++ (toLe 4 total ++ (fieldBytes m.fields ++
      (flatten leaves ++ (payload ++ TRAILER))))).length = containerLen leaves payload := by
  have hmagic : MAGIC.length = 4 := rfl
  have htrailer : TRAILER.length = 5 := rfl
  simp only [List.length_append, Manifest.fieldBytes_length, toLe_length, hmagic, htrailer,
    containerLen, HEADER_LEN, TRAILER_LEN]
  omega

theorem build_assembled {c : Crypto} {escaped : Char → Bool} {o : BuildOpts} {built : Built}
    (h : build c escaped o = .ok built) :
    ∃ ident image delta root, Assembled c escaped o ident image delta root built := by
  simp only [build, bind_eq_ok, ensure_eq_ok, exists_unit, writeManifest_eq, Except.ok.injEq,
    exists_eq_left'] at h
  obtain ⟨⟨hlow, hhigh, hpower⟩, ident, hident, ⟨image, hash⟩, himage, delta, hdelta, -, root,
    hroot, htotal, hstaging, manifest, hparse, rfl⟩ := h
  have hlen := container_length (appManifest c o ident image delta root)
    (leafHashes c delta.payload o.blockSize.toNat) delta.payload
    (containerLen (leafHashes c delta.payload o.blockSize.toNat) delta.payload)
  refine ⟨ident, image, delta, root, ⟨hlow, hhigh⟩, hpower, hident, ⟨hash, himage⟩, hdelta, hroot,
    ?_, ?_, ?_, hparse, rfl⟩
  · exact lt_of_eq_of_lt hlen (Nat.lt_succ_of_le htotal)
  · exact (congrArg _ hlen).trans hstaging
  · exact congrArg (fun n => MAGIC ++ (toLe 4 n ++ _)) hlen.symm

section Sealed

variable {c : Crypto} {escaped : Char → Bool} {o : BuildOpts} {ident : FwIdent} {image : Bytes}
  {delta : DeltaBuilt}
  {root : Octets 4} {built : Built}

theorem blockSizeLog2_pow {bs : ℕ} (hpower : isPowerOfTwo bs = true) (hpos : 1 < bs)
    (hmax : bs ≤ MAX_APPLICATION_BLOCK_SIZE) : 2 ^ (blockSizeLog2 bs).toNat = bs := by
  have hlog : Nat.log2 bs ≤ bs := Nat.log2_le_self bs
  have hlt : Nat.log2 bs < 256 := by
    have hbig : Nat.log2 bs < 12 :=
      (Nat.log2_lt (by omega)).mpr (lt_of_le_of_lt hmax (by decide))
    omega
  rw [blockSizeLog2, Nat.max_eq_left (by omega), UInt8.toNat_ofNat', Nat.mod_eq_of_lt hlt]
  exact (beq_iff_eq.mp hpower).symm

theorem appManifest_isFull :
    (appManifest c o ident image delta root).isFull = decide (delta.codec = .full) := by
  change (flagByte o delta.codec &&& MFLAG_FULL != 0) = _
  cases delta.codec <;> cases hseed : o.signSeed <;> simp [flagByte, hseed] <;> decide

theorem appManifest_isSigned :
    (appManifest c o ident image delta root).isSigned = o.signSeed.isSome := by
  change (flagByte o delta.codec &&& MFLAG_SIGNED != 0) = _
  cases delta.codec <;> cases hseed : o.signSeed <;> simp [flagByte, hseed] <;> decide

theorem withSignature_signedPrefix (signSeed : Option (Octets 32)) (m : Manifest) :
    (withSignature c signSeed m).signedPrefix = m.signedPrefix := by
  rw [signedPrefix_eq, signedPrefix_eq]
  rfl

theorem withSignature_verifies (hc : c.AcceptsSigned) {m : Manifest}
    {signSeed : Option (Octets 32)} {seed : Octets 32} (hseed : signSeed = some seed)
    (hsigner : m.signer = c.publicFromSeed seed) :
    c.verify (withSignature c signSeed m).signer (withSignature c signSeed m).signedPrefix
      (withSignature c signSeed m).signature = true := by
  have hsigned : (withSignature c signSeed m).signature = c.sign seed m.signedPrefix := by
    rw [hseed]
    rfl
  rw [withSignature_signedPrefix, hsigned,
      show (withSignature c signSeed m).signer = _ from hsigner]
  exact hc seed _

theorem appManifest_signature (hc : c.AcceptsSigned)
    (hsigned : (appManifest c o ident image delta root).isSigned = true) :
    c.verify (appManifest c o ident image delta root).signer
      (appManifest c o ident image delta root).signedPrefix
      (appManifest c o ident image delta root).signature = true := by
  rw [appManifest_isSigned] at hsigned
  obtain ⟨seed, hseed⟩ := Option.isSome_iff_exists.mp hsigned
  refine withSignature_verifies hc hseed ?_
  rw [unsignedManifest, hseed]
  rfl

theorem buildPayload_full (h : buildPayload c escaped o ident image = .ok delta)
    (hfull : delta.codec = .full) : delta.payload = image := by
  rw [buildPayload] at h
  split at h
  · cases h
    rfl
  · simp only [buildDelta, bind_eq_ok, encodeDelta] at h
    obtain ⟨_, -, _, -, _, -, _, -, _, -, h⟩ := h
    split at h
    · simp only [bind_eq_ok] at h
      obtain ⟨_, -, h⟩ := h
      cases h
      cases hfull
    · simp only [bind_eq_ok] at h
      obtain ⟨_, -, _, -, h⟩ := h
      cases h
      cases hfull

theorem Assembled.payload_lt (h : Assembled c escaped o ident image delta root built) :
    delta.payload.length < 2 ^ 32 := by
  have hlen := congrArg List.length h.bytes
  rw [container_length] at hlen
  have htotal := h.total
  rw [hlen, containerLen] at htotal
  omega

theorem Assembled.blockSize (h : Assembled c escaped o ident image delta root built) :
    (appManifest c o ident image delta root).blockSize = o.blockSize.toNat :=
  blockSizeLog2_pow h.power h.block_size.1 h.block_size.2

theorem Assembled.payloadSize (h : Assembled c escaped o ident image delta root built) :
    (appManifest c o ident image delta root).payloadSize.toNat = delta.payload.length :=
  UInt32.toNat_ofNat'.trans (Nat.mod_eq_of_lt h.payload_lt)

theorem Assembled.manifest (h : Assembled c escaped o ident image delta root built) :
    built.manifest = appManifest c o ident image delta root := by
  refine (seal_parsed h.bytes h.parse ?_).1
  rw [h.payloadSize, h.blockSize]
  rfl

/-- The manifest is the one that was written, the payload is where it says, and every check of
the verifier succeeds. -/
theorem Assembled.sealed (h : Assembled c escaped o ident image delta root built)
    (hc : c.AcceptsSigned) : built.manifest = appManifest c o ident image delta root ∧
      built.manifest.payloadOf built.bytes = delta.payload ∧
      Verified c built.bytes built.manifest := by
  have hblock := h.blockSize
  have hbytes := h.bytes
  have hfolded := h.folded
  rw [← hblock] at hbytes hfolded
  refine seal_verified hbytes h.parse h.payloadSize ?_ rfl hfolded ?_ (appManifest_signature hc) rfl
  · rw [hblock]
    rfl
  · rw [appManifest_isFull, decide_eq_true_iff]
    intro hfull
    rw [buildPayload_full h.payload hfull]
    rfl

end Sealed

end MotaTool.Build
