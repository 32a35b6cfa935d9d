import MotaTool.Build.AssembleSpec
import MotaTool.TrailerSpec

/-!
# The identity of a package

The identity comes from the options or from the trailer of the firmware, and
both ways lead to the same package when they say the same. With a base, the
gate compares hardware tags as texts, while the trailer and the manifest hold
fields of 32 bytes.
-/

namespace MotaTool.Build

open Base Run Format Endf

def BuildOpts.withIdent (o : BuildOpts) (ident : FwIdent) : BuildOpts :=
  { o with
    fwVersion := some ident.fwVersion, targetId := some ident.targetId, hwId := some ident.hwId }

def BuildOpts.selfDescribing (o : BuildOpts) (image : Bytes) : BuildOpts :=
  { o with fw := image, fwVersion := none, targetId := none, hwId := none }

section Identity

variable {c : Crypto} {escaped : Char → Bool} {o : BuildOpts} {ident : FwIdent} {image : Bytes}

theorem resolveIdent_withIdent : resolveIdent c (o.withIdent ident) = .ok ident := by
  obtain ⟨fromFw, hfrom⟩ := @parseIdent_ok c o.fw
  have hread : parseIdent c (o.withIdent ident).fw = .ok fromFw := hfrom
  rw [resolveIdent, hread]
  rfl

theorem resolveIdent_selfDescribing (h : parseIdent c image = .ok ident) :
    resolveIdent c (o.selfDescribing image) = .ok ident := by
  have hread : parseIdent c (o.selfDescribing image).fw = .ok ident := h
  rw [resolveIdent, hread]
  rfl

/-- Nothing after the identity and the image looks at the options that chose them. -/
theorem build_selfDescribed {hash hash' : Octets 8} (hident : parseIdent c image = .ok ident)
    (hraw : ensureEndf c o.fw ident = .ok (image, hash))
    (hagain : ensureEndf c image ident = .ok (image, hash')) :
    build c escaped (o.withIdent ident) = build c escaped (o.selfDescribing image) := by
  have himage : ensureEndf c (o.withIdent ident).fw ident = .ok (image, hash) := hraw
  have himage' : ensureEndf c (o.selfDescribing image).fw ident = .ok (image, hash') := hagain
  simp only [build, resolveIdent_withIdent, resolveIdent_selfDescribing hident, himage, himage',
    ok_bind]
  rfl

end Identity

/-- Raw firmware with an identity and the image that carries it give the same package, or the
same error; the image is read back as that identity and never trailed again. -/
theorem build_selfDescribing (c : Crypto) (escaped : Char → Bool) (o : BuildOpts) (ident : FwIdent)
    (hraw : hasEndf c o.fw = .ok false) (hlen : o.fw.length < 2 ^ 32)
    (hfit : (utf8 ident.hwId).length ≤ 32) (hnul : ∀ b ∈ utf8 ident.hwId, b ≠ 0) :
    ∃ image hash, ensureEndf c o.fw ident = .ok (image, hash) ∧
      build c escaped (o.withIdent ident) = build c escaped (o.selfDescribing image) ∧
      parseIdent c image = .ok ident ∧
      ∀ other, ensureEndf c image other = .ok (image, hash) := by
  have hread := @parseIdent_trailer c o.fw ident hlen ⟨hfit, hnul⟩
  have hagain := @ensureEndf_idempotent c o.fw ident hlen
  exact ⟨_, _, ensureEndf_raw hraw ident,
    build_selfDescribed hread (ensureEndf_raw hraw ident) (hagain ident), hread, hagain⟩

def byteOpts : BuildOpts where
  fw := [1]
  base := none
  patchType := .sequential
  inplaceMemory := none
  segmentSize := 4096
  targetId := none
  fwVersion := none
  hwId := none
  signSeed := none
  blockSize := 64
  force := false

def byteIdent : FwIdent := ⟨0x01110000, 7, "RAK4631"⟩

theorem build_selfDescribing_byte :
    ∃ image hash, ensureEndf Crypto.plain [1] byteIdent = .ok (image, hash) ∧
      build Crypto.plain noEscapes (byteOpts.withIdent byteIdent) =
        build Crypto.plain noEscapes (byteOpts.selfDescribing image) ∧
      parseIdent Crypto.plain image = .ok byteIdent ∧
      ∀ other, ensureEndf Crypto.plain image other = .ok (image, hash) :=
  build_selfDescribing Crypto.plain noEscapes byteOpts byteIdent rfl (by decide) (by decide +kernel)
    (by decide +kernel)

section Gate

variable {c : Crypto} {escaped : Char → Bool} {o : BuildOpts} {ident : FwIdent}
  {base image : Bytes} {delta : DeltaBuilt}

theorem buildDelta_gate (hforce : o.force = false)
    (h : buildDelta c escaped o ident image base = .ok delta) :
    ident.hwId = cstr (hwField base) := by
  simp only [buildDelta, bind_eq_ok, ensure_eq_ok, exists_unit] at h
  obtain ⟨_, htrailed, rfl, baseIdent, hbase, hgate, -⟩ := h
  rcases hgate with hforced | hsame
  · rw [hforce] at hforced
    cases hforced
  · rw [← hsame, parseIdent_hwId htrailed hbase]

theorem build_hwId {built : Built} (hbase : o.base = some base) (hforce : o.force = false)
    (hbuild : build c escaped o = .ok built) :
    ∃ ident, resolveIdent c o = .ok ident ∧ ident.hwId = cstr (hwField base) ∧
      built.manifest.hwId = Octets.padded 32 (utf8 ident.hwId) := by
  obtain ⟨ident, image, delta, root, h⟩ := build_assembled hbuild
  have hpayload := h.payload
  rw [buildPayload, hbase] at hpayload
  exact ⟨ident, h.identity, buildDelta_gate hforce hpayload, by rw [h.manifest]; rfl⟩

end Gate

/-- Past the gate the identity has the text of the base's field, and the manifest holds that
text encoded anew. It is the field itself exactly when the field is the encoding of its own
text, as is every field that was written from a text it holds whole. -/
theorem build_hwField (c : Crypto) (escaped : Char → Bool) (o : BuildOpts) (base : Bytes)
    (built : Built) (hbase : o.base = some base) (hforce : o.force = false)
    (hbuild : build c escaped o = .ok built) :
    (∃ ident, resolveIdent c o = .ok ident ∧ ident.hwId = cstr (hwField base)) ∧
      built.manifest.hwId = Octets.padded 32 (utf8 (cstr (hwField base))) ∧
      (built.manifest.hwId.val = hwField base ↔
        (Octets.padded 32 (utf8 (cstr (hwField base)))).val = hwField base) ∧
      ∀ text, (utf8 text).length ≤ 32 → (∀ b ∈ utf8 text, b ≠ 0) →
        hwField base = (Octets.padded 32 (utf8 text)).val →
        built.manifest.hwId.val = hwField base := by
  obtain ⟨ident, hident, htext, hwritten⟩ := build_hwId hbase hforce hbuild
  rw [htext] at hwritten
  refine ⟨⟨ident, hident, htext⟩, hwritten, by rw [hwritten], fun text hfit hnul hfield => ?_⟩
  have hback : cstr (Octets.padded 32 (utf8 text)).val = text := cstr_padded ⟨hfit, hnul⟩
  rw [hwritten, hfield, hback]

/-- An image without a body whose field holds a byte behind its first NUL. -/
def taggedFw : Bytes :=
  ENDF_MAGIC ++ toLe 4 0 ++ (Crypto.plain.mh8 []).val ++ u32Le 1 ++ u32Le 2 ++
    ([0x41, 0, 0x42] ++ List.replicate 29 0)

def taggedOpts : BuildOpts := { byteOpts with fw := taggedFw, base := some taggedFw }

theorem taggedOpts_builds : ∃ built, build Crypto.plain noEscapes taggedOpts = .ok built :=
  exists_ok (by decide +kernel)

/-- The byte behind the NUL is in both images and not in the manifest. -/
theorem build_hwField_cut : hasEndf Crypto.plain taggedFw = .ok true ∧
    taggedOpts.base = some taggedFw ∧ taggedOpts.force = false ∧
    ∃ built, build Crypto.plain noEscapes taggedOpts = .ok built ∧
      built.manifest.hwId.val ≠ hwField taggedFw := by
  obtain ⟨built, hbuild⟩ := taggedOpts_builds
  obtain ⟨ident, -, htext, hwritten⟩ := build_hwId rfl rfl hbuild
  refine ⟨rfl, rfl, rfl, built, hbuild, ?_⟩
  rw [hwritten, htext]
  decide +kernel

theorem build_hwField_tagged : ∃ built, build Crypto.plain noEscapes taggedOpts = .ok built ∧
    (∃ ident, resolveIdent Crypto.plain taggedOpts = .ok ident ∧
      ident.hwId = cstr (hwField taggedFw)) ∧
    built.manifest.hwId = Octets.padded 32 (utf8 (cstr (hwField taggedFw))) ∧
    (built.manifest.hwId.val = hwField taggedFw ↔
      (Octets.padded 32 (utf8 (cstr (hwField taggedFw)))).val = hwField taggedFw) ∧
    ∀ text, (utf8 text).length ≤ 32 → (∀ b ∈ utf8 text, b ≠ 0) →
      hwField taggedFw = (Octets.padded 32 (utf8 text)).val →
      built.manifest.hwId.val = hwField taggedFw := by
  obtain ⟨built, hbuild⟩ := taggedOpts_builds
  exact ⟨built, hbuild,
    build_hwField Crypto.plain noEscapes taggedOpts taggedFw built rfl rfl hbuild⟩

end MotaTool.Build
