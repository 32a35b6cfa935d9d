import MotaTool.Bootloader.BoardSpec
import MotaTool.Build.AssembleSpec

/-!
# Every package verifies

Packages of either kind are sealed, so the verifier finds nothing wrong with
what a successful build returns, and they contain what they were built from.
-/

namespace MotaTool.Bootloader

open Base Run Format Endf Encode Merkle Build

/-- The contents of an application package: the trailed image or the encoder's patch against
the base, and the digest of the base's body. -/
structure AppContents (c : Crypto) (o : BuildOpts) (image : Bytes) (built : Built) : Prop where
  image_size : image.length < 2 ^ 32 → built.manifest.imageSize.toNat = image.length
  image_hash : built.manifest.imageHash = c.sha256 image
  full : o.base = none → built.manifest.payloadOf built.bytes = image ∧
    built.manifest.baseHash = Octets.zero 8
  base_hash : ∀ base, o.base = some base → hasEndf c base = .ok true ∧
    built.manifest.baseHash = c.mh8 (base.take (base.length - ENDF_LEN))
  sequential : ∀ base, o.base = some base → o.patchType = .sequential →
    encodeSequential base image = .ok (built.manifest.payloadOf built.bytes)
  inPlace : ∀ base, o.base = some base → o.patchType = .inPlace → ∃ memory,
    built.inplaceMemory = some memory ∧ encodeInPlace base image memory.toNat
      o.segmentSize.toNat = .ok (built.manifest.payloadOf built.bytes)

section Contents

variable {c : Crypto} {escaped : Char → Bool} {o : BuildOpts} {ident : FwIdent}
  {base image : Bytes} {delta : DeltaBuilt}

theorem buildDelta_contents (h : buildDelta c escaped o ident image base = .ok delta) :
    hasEndf c base = .ok true ∧
      delta.baseHash = c.mh8 (base.take (base.length - ENDF_LEN)) ∧
      (o.patchType = .sequential → encodeSequential base image = .ok delta.payload) ∧
      (o.patchType = .inPlace → ∃ plan, delta.inplace = some plan ∧
        encodeInPlace base image plan.memory.toNat o.segmentSize.toNat = .ok delta.payload) := by
  simp only [buildDelta, bind_eq_ok, ensure_eq_ok, exists_unit] at h
  obtain ⟨_, htrailed, rfl, baseIdent, -, -, ⟨out, hash⟩, hensure, h⟩ := h
  have hhash := ensureEndf_hash hensure
  obtain rfl := ensureEndf_trailed htrailed hensure
  cases hpatch : o.patchType with
  | sequential =>
    simp only [encodeDelta, hpatch, bind_eq_ok] at h
    obtain ⟨payload, hencode, h⟩ := h
    cases h
    exact ⟨htrailed, hhash, fun _ => hencode, fun hother => by cases hother⟩
  | inPlace =>
    simp only [encodeDelta, hpatch, bind_eq_ok] at h
    obtain ⟨plan, -, payload, hencode, h⟩ := h
    cases h
    exact ⟨htrailed, hhash, (fun hother => by cases hother), fun _ => ⟨plan, rfl, hencode⟩⟩

theorem buildPayload_base {baseFw : Bytes} (hbase : o.base = some baseFw) :
    buildPayload c escaped o ident image = buildDelta c escaped o ident image baseFw := by
  rw [buildPayload, hbase]

theorem appContents {root : Octets 4} {built : Built}
    (h : Assembled c escaped o ident image delta root built) (hc : c.AcceptsSigned) :
    AppContents c o image built := by
  obtain ⟨hmanifest, hpayload, -⟩ := h.sealed hc
  have hbaseHash : built.manifest.baseHash = delta.baseHash := by
    rw [hmanifest]
    rfl
  refine ⟨fun hlen => ?_, by rw [hmanifest]; rfl, fun hnone => ?_, fun base hbase => ?_,
    fun base hbase hpatch => ?_, fun base hbase hpatch => ?_⟩
  · rw [hmanifest]
    exact (UInt32.toNat_ofNat').trans (Nat.mod_eq_of_lt hlen)
  · have hbuilt := h.payload
    rw [buildPayload, hnone] at hbuilt
    cases hbuilt
    exact ⟨hpayload, hbaseHash⟩
  · have hdelta := h.payload
    rw [buildPayload_base hbase] at hdelta
    obtain ⟨htrailed, hhash, -, -⟩ := buildDelta_contents hdelta
    exact ⟨htrailed, hbaseHash.trans hhash⟩
  · have hdelta := h.payload
    rw [buildPayload_base hbase] at hdelta
    rw [hpayload]
    exact (buildDelta_contents hdelta).2.2.1 hpatch
  · have hdelta := h.payload
    rw [buildPayload_base hbase] at hdelta
    obtain ⟨plan, hplan, hencode⟩ := (buildDelta_contents hdelta).2.2.2 hpatch
    refine ⟨plan.memory, ?_, ?_⟩
    · rw [h.memory, hplan]
      rfl
    · rw [hpayload]
      exact hencode

end Contents

/-- Every package that either builder returns verifies, its manifest is what parsing its bytes
returns, and it contains what it was built from. -/
theorem build_verifies (c : Crypto) (escaped : Char → Bool) (hc : c.AcceptsSigned) :
    (∀ o built, build c escaped o = .ok built →
      verify c built.bytes = .ok [] ∧ Manifest.parse c built.bytes = .ok built.manifest ∧
        ∃ ident image hash, resolveIdent c o = .ok ident ∧
          ensureEndf c o.fw ident = .ok (image, hash) ∧
          (image.length < 2 ^ 32 → hasEndf c image = .ok true) ∧ AppContents c o image built) ∧
      ∀ envName o built, buildBootloader c envName o = .ok built →
        verify c built.bytes = .ok [] ∧ Manifest.parse c built.bytes = .ok built.manifest ∧
          o.image.length = 40 * 1024 ∧ built.manifest.imageSize.toNat = 40 * 1024 ∧
          built.manifest.imageHash = c.sha256 o.image ∧
          built.manifest.baseHash = Octets.zero 8 ∧
          built.manifest.payloadOf built.bytes = o.image := by
  refine ⟨fun o built hbuild => ?_, fun envName o built hbuild => ?_⟩
  · obtain ⟨ident, image, delta, root, h⟩ := build_assembled hbuild
    obtain ⟨hash, himage⟩ := h.trailed
    have hverified := (h.sealed hc).2.2
    exact ⟨verify_eq_nil.mpr ⟨_, h.parse, hverified⟩, h.parse, ident, image, hash, h.identity,
      himage, ensureEndf_hasEndf himage, appContents h hc⟩
  · obtain ⟨hlen, ⟨targetId, hwId, bootVersion, root, hmanifest⟩, hpayload, hverified⟩ :=
      buildBootloader_sealed hc hbuild
    have hparse := buildBootloader_parse hbuild
    refine ⟨verify_eq_nil.mpr ⟨_, hparse, hverified⟩, hparse, hlen, ?_, ?_, ?_, hpayload⟩
    all_goals
      rw [hmanifest]
      rfl

def emptyOpts : BuildOpts where
  fw := []
  base := none
  patchType := .sequential
  inplaceMemory := none
  segmentSize := 4096
  targetId := some 7
  fwVersion := none
  hwId := some "fw"
  signSeed := some (Octets.zero 32)
  blockSize := 16
  force := false

def deltaOpts : BuildOpts :=
  { emptyOpts with
    fw := [1, 2, 9, 4, 5]
    base := some ([1, 2, 3, 4] ++ trailer rolling [1, 2, 3, 4] FwIdent.default)
    targetId := none
    hwId := none
    signSeed := none }

theorem build_verifies_each : ∃ full patch boot,
    build rolling noEscapes emptyOpts = .ok full ∧ build rolling noEscapes deltaOpts = .ok patch ∧
      buildBootloader rolling (fun _ => none)
        ⟨sampleImage, .xiaoNrf52840Ble, STORAGE_QSPI_UPDATE, Octets.zero 32⟩ = .ok boot ∧
      verify rolling full.bytes = .ok [] ∧ verify rolling patch.bytes = .ok [] ∧
      verify rolling boot.bytes = .ok [] := by
  obtain ⟨full, hfull⟩ := @exists_ok _ (build rolling noEscapes emptyOpts) (by decide +kernel)
  obtain ⟨patch, hpatch⟩ := @exists_ok _ (build rolling noEscapes deltaOpts) (by decide +kernel)
  obtain ⟨boot, hboot⟩ := sample_builds
  obtain ⟨happ, hloader⟩ := build_verifies rolling noEscapes fun _ _ => decide_eq_true rfl
  exact ⟨full, patch, boot, hfull, hpatch, hboot, (happ emptyOpts full hfull).1,
    (happ deltaOpts patch hpatch).1, (hloader _ _ boot hboot).1⟩

end MotaTool.Bootloader
