import MotaTool.Bootloader.Contents
import MotaTool.Build.Geometry
import MotaTool.Serve.Demux
import MotaTool.Serve.Described

/-!
# From the builder to the device

A package that was built and is served in a folder reaches a device that reads
it in pieces, and the device that applies it ends with the image that was
packaged. The device is the documented decoders behind the checks of a
container; the pieces may be of any size a read request can ask for.
-/

namespace MotaTool.Serve

open Base Run Format Endf Encode Build Bootloader seeder

section Download

variable {σ : Type} (core : Handler σ) (i : UInt8) (piece : ℕ)

def fetchPiece (total : ℕ) (got : Bytes × σ) (k : ℕ) : Option (Bytes × σ) :=
  match core OP_READ (readArgs i (k * piece) (min piece (total - k * piece))) got.2 with
  | .ok (some (status, bytes), s) => if status = STATUS_OK then some (got.1 ++ bytes, s) else none
  | _ => none

def download (s : σ) : Option (Bytes × σ) :=
  match core OP_DESCRIBE [i] s with
  | .ok (some (status, description), s) =>
    if status = STATUS_OK then
      let total := (Descriptor.decode description).total
      (List.range (divCeil total piece)).foldlM (fetchPiece core i piece total) ([], s)
    else none
  | _ => none

end Download

section Served

variable {c : Crypto} {φ : Type} {core : SeederCore c} {fs : FileSystem φ} {z : Compressors}
  {i : UInt8} {served : ServedMota c} {piece : ℕ}

theorem fetchPiece_next (hserved : core.folder[i.toNat]? = some served) (hpiece : piece < 2 ^ 16)
    {k : ℕ} (hk : k * piece < served.bytes.length) (files : φ) :
    fetchPiece (core.handle fs z) i piece served.bytes.length
        (served.bytes.take (k * piece), files) k =
      some (served.bytes.take ((k + 1) * piece), files) := by
  have hbytes := served.bytes_lt
  have hread := @handle_read c φ core fs z i served (k * piece)
    (min piece (served.bytes.length - k * piece)) files hserved (by omega) (by omega)
  rw [if_pos (by omega)] at hread
  have hnext : served.bytes.take (k * piece) ++
      (served.bytes.drop (k * piece)).take (min piece (served.bytes.length - k * piece)) =
      served.bytes.take ((k + 1) * piece) := by
    rw [Nat.succ_mul, List.take_add, ← List.length_drop, ← List.take_eq_take_min]
  simp only [fetchPiece, hread, if_true, hnext]

theorem fetchPieces (hserved : core.folder[i.toNat]? = some served) (hpos : 0 < piece)
    (hpiece : piece < 2 ^ 16) (files : φ) {n : ℕ}
    (hn : n ≤ divCeil served.bytes.length piece) :
    (List.range n).foldlM (fetchPiece (core.handle fs z) i piece served.bytes.length)
        ([], files) = some (served.bytes.take (n * piece), files) := by
  induction n with
  | zero => simp
  | succ n ih =>
    have hin : n * piece < served.bytes.length := (lt_divCeil_iff hpos).mp (by omega)
    rw [List.range_succ, List.foldlM_append, ih (by omega), Option.bind_eq_bind, Option.bind_some,
      List.foldlM_cons, fetchPiece_next hserved hpiece hin, Option.bind_eq_bind, Option.bind_some]
    rfl

theorem download_served (hserved : core.folder[i.toNat]? = some served) (hpos : 0 < piece)
    (hpiece : piece < 2 ^ 16) (files : φ) :
    download (core.handle fs z) i piece files = some (served.bytes, files) := by
  have hop : OP_DESCRIBE ≠ OP_COUNT := by decide
  have hdescribe : core.handle fs z OP_DESCRIBE [i] files =
      .ok (some (STATUS_OK, served.describe), files) := by
    rw [SeederCore.handle, if_neg hop, if_pos rfl, SeederCore.describe, List.head?_cons,
      Option.map_some, hserved]
  have htotal : (Descriptor.decode served.describe).total = served.bytes.length := by
    rw [describe_decodes]
    rfl
  have hall : served.bytes.take (divCeil served.bytes.length piece * piece) = served.bytes :=
    List.take_of_length_le (le_divCeil_mul _ hpos)
  simp only [download, hdescribe, if_true, htotal]
  rw [fetchPieces hserved hpos hpiece files le_rfl, hall]

end Served

def decodePayload (m : Manifest) (running flash payload : Bytes) : Option Bytes :=
  match m.codec with
  | some .full => some payload
  | some .detoolsSequential => decodeSequential running payload
  | some .detoolsInplace =>
    (decodeInPlace flash payload).map fun device => device.cells.take m.imageSize.toNat
  | none => none

/-- A patch is for one running image, known by the digest of its body. -/
def baseMatches (c : Crypto) (m : Manifest) (running : Bytes) : Prop :=
  m.isFull = true ∨ m.baseHash = c.mh8 (running.take (running.length - ENDF_LEN))

instance (c : Crypto) (m : Manifest) (running : Bytes) : Decidable (baseMatches c m running) :=
  inferInstanceAs (Decidable (_ ∨ _))

/-- A device takes a container that verifies and is meant for what it runs, and keeps an image
that has the promised length and digest. -/
def applyContainer (c : Crypto) (running flash container : Bytes) : Option Bytes :=
  match verify c container, Manifest.parse c container with
  | .ok [], .ok m => do
    let image ← decodePayload m running flash (m.payloadOf container)
    if baseMatches c m running ∧ image.length = m.imageSize.toNat ∧ c.sha256 image = m.imageHash
    then some image
    else none
  | _, _ => none

/-- A device that runs the base of the package, with the memory the package was planned for. -/
structure Suits (o : BuildOpts) (built : Built) (running flash : Bytes) : Prop where
  base : ∀ base, o.base = some base → running = base
  bottom : flash.take running.length = running
  window : ∀ memory, built.inplaceMemory = some memory → flash.length = memory.toNat

theorem encodeSequential_yields (old new : Bytes) : Yields (encodeSequential old new)
    (fun patch => decodeSequential old patch = some new) := by
  refine (sequentialBody_yields old new).bind fun body hbody => ?_
  refine (crleCompress_expands body).bind fun compressed hexpand => Yields.ok ?_
  obtain ⟨es, cursor, rfl, hreplay⟩ := hbody
  have hdecode := decodeTriples_encode hreplay (le_refl new.length) le_rfl []
  rw [List.append_nil] at hdecode
  have hformat := unpackSize_packSize 0 (encodeEdits es)
  have hheader : PATCH_TYPE_SEQUENTIAL <<< 4 ||| COMPRESSION_CRLE = 0x02 := by decide
  simp only [decodeSequential, List.cons_append, List.nil_append, unpackSize_packSize,
    Option.bind_eq_bind, Option.bind_some, hexpand, hformat, hheader, Int.toNat_natCast,
    Nat.cast_nonneg, true_and, and_self, if_true, hdecode]

section Applied

variable {c : Crypto} {escaped : Char → Bool} {o : BuildOpts} {ident : FwIdent}
  {image running flash : Bytes}
  {delta : DeltaBuilt} {root : Octets 4} {built : Built}

theorem assembled_codec (h : Assembled c escaped o ident image delta root built) :
    built.manifest.codec = some delta.codec := by
  rw [h.manifest]
  exact Codec.fromU8_toU8 delta.codec

theorem assembled_imageSize (h : Assembled c escaped o ident image delta root built)
    (hlen : image.length < 2 ^ 32) : built.manifest.imageSize.toNat = image.length := by
  rw [h.manifest]
  exact UInt32.toNat_ofNat'.trans (Nat.mod_eq_of_lt hlen)

theorem buildDelta_codec {base : Bytes} (h : buildDelta c escaped o ident image base = .ok delta) :
    (o.patchType = .sequential → delta.codec = .detoolsSequential) ∧
      (o.patchType = .inPlace → delta.codec = .detoolsInplace) := by
  simp only [buildDelta, bind_eq_ok, ensure_eq_ok, exists_unit] at h
  obtain ⟨_, -, -, baseIdent, -, -, ⟨out, hash⟩, -, h⟩ := h
  cases hpatch : o.patchType with
  | sequential =>
    simp only [encodeDelta, hpatch, bind_eq_ok] at h
    obtain ⟨payload, -, h⟩ := h
    cases h
    exact ⟨fun _ => rfl, by simp⟩
  | inPlace =>
    simp only [encodeDelta, hpatch, bind_eq_ok] at h
    obtain ⟨plan, -, payload, -, h⟩ := h
    cases h
    exact ⟨by simp, fun _ => rfl⟩

theorem assembled_decodes (h : Assembled c escaped o ident image delta root built)
    (hlen : image.length < 2 ^ 32) (hsuits : Suits o built running flash) :
    decodePayload built.manifest running flash delta.payload = some image := by
  have hpayload := h.payload
  rw [decodePayload, assembled_codec h]
  cases hbase : o.base with
  | none =>
    rw [buildPayload, hbase] at hpayload
    cases hpayload
    rfl
  | some base =>
    obtain rfl := hsuits.base base hbase
    rw [buildPayload, hbase] at hpayload
    obtain ⟨-, -, hsequential, hinPlace⟩ := buildDelta_contents hpayload
    obtain ⟨hcodecS, hcodecI⟩ := buildDelta_codec hpayload
    cases hpatch : o.patchType with
    | sequential =>
      obtain ⟨patch, hencode, hdecode⟩ := encodeSequential_yields running image
      rw [hsequential hpatch, Except.ok.injEq] at hencode
      rw [hcodecS hpatch, hencode]
      exact hdecode
    | inPlace =>
      obtain ⟨plan, hplan, hencode⟩ := hinPlace hpatch
      obtain ⟨plan', targetLayout, hplan', hplanned⟩ := buildDelta_planned hpatch hpayload
      obtain rfl : plan = plan' := Option.some.inj (hplan.symm.trans hplan')
      obtain ⟨patch, hpatched, hrebuilds⟩ := encodeInPlace_rebuilds hplanned.window
      have hmemory : flash.length = plan.memory.toNat :=
        hsuits.window plan.memory (by rw [h.memory, hplan]; rfl)
      obtain ⟨device, hdevice, -, hcells, -⟩ := hrebuilds flash hmemory hsuits.bottom
      rw [hencode, Except.ok.injEq] at hpatched
      rw [hcodecI hpatch, hpatched]
      simp only [hdevice, Option.map_some, assembled_imageSize h hlen, hcells]

theorem assembled_matches (h : Assembled c escaped o ident image delta root built)
    (hsuits : Suits o built running flash) : baseMatches c built.manifest running := by
  have hpayload := h.payload
  cases hbase : o.base with
  | none =>
    left
    rw [buildPayload, hbase] at hpayload
    cases hpayload
    rw [h.manifest, appManifest_isFull]
    rfl
  | some base =>
    right
    obtain rfl := hsuits.base base hbase
    rw [buildPayload, hbase] at hpayload
    rw [← (buildDelta_contents hpayload).2.1, h.manifest]
    rfl

end Applied

/-- A package that was built and is served is read from the folder as it was written, and every
device it suits ends with the image that was packaged. -/
theorem build_delivers {c : Crypto} {φ : Type} (hc : c.AcceptsSigned) (escaped : Char → Bool)
    (o : BuildOpts) (built : Built) (hbuild : build c escaped o = .ok built) (core : SeederCore c)
    (fs : FileSystem φ) (z : Compressors) (i : UInt8) (served : ServedMota c)
    (hserved : core.folder[i.toNat]? = some served) (hbytes : served.bytes = built.bytes)
    (piece : ℕ) (hpos : 0 < piece) (hpiece : piece < 2 ^ 16) (files : φ) :
    download (core.handle fs z) i piece files = some (built.bytes, files) ∧
      ∃ ident image hash, resolveIdent c o = .ok ident ∧
        ensureEndf c o.fw ident = .ok (image, hash) ∧
        (image.length < 2 ^ 32 → ∀ running flash, Suits o built running flash →
          applyContainer c running flash built.bytes = some image) := by
  obtain ⟨ident, image, delta, root, h⟩ := build_assembled hbuild
  obtain ⟨hash, himage⟩ := h.trailed
  refine ⟨?_, ident, image, hash, h.identity, himage, fun hlen running flash hsuits => ?_⟩
  · rw [← hbytes]
    exact download_served hserved hpos hpiece files
  · obtain ⟨-, hpayload, hverified⟩ := h.sealed hc
    have hverify : verify c built.bytes = .ok [] := verify_eq_nil.mpr ⟨_, h.parse, hverified⟩
    have hhash : c.sha256 image = built.manifest.imageHash := by
      rw [h.manifest]
      rfl
    have hdecodes := assembled_decodes h hlen hsuits
    rw [← hpayload] at hdecodes
    simp only [applyContainer, hverify, h.parse, hdecodes, Option.bind_eq_bind, Option.bind_some]
    rw [if_pos ⟨assembled_matches h hsuits, (assembled_imageSize h hlen).symm, hhash⟩]

theorem recordOpts_served : ∃ built memory, build Crypto.plain noEscapes recordOpts = .ok built ∧
    built.inplaceMemory = some memory ∧ recordFw.length ≤ memory.toNat ∧
    ∃ served : ServedMota Crypto.plain, served.bytes = built.bytes := by
  obtain ⟨built, hbuild⟩ := recordOpts_builds
  obtain ⟨ident, image, delta, root, h⟩ := build_assembled hbuild
  have hverified := (h.sealed Crypto.plain_acceptsSigned).2.2
  obtain ⟨plan, targetLayout, hplan, hplanned⟩ := buildDelta_planned rfl h.payload
  have hbase := hplanned.window.base
  have hfit := le_divCeil_mul recordFw.length hplanned.window.seg_pos
  refine ⟨built, plan.memory, hbuild, by rw [h.memory, hplan]; rfl, by omega,
    ⟨built.bytes, built.manifest, h.parse, verify_eq_nil.mpr ⟨_, h.parse, hverified⟩⟩, rfl⟩

/-- The device has the planned memory and runs the base. -/
theorem build_delivers_record : ∃ built flash, build Crypto.plain noEscapes recordOpts = .ok built ∧
    ∃ core : SeederCore Crypto.plain,
      download (core.handle noFiles noCompressors) 0 100 () = some (built.bytes, ()) ∧
      applyContainer Crypto.plain recordFw (recordFw ++ flash) built.bytes = some recordFw := by
  obtain ⟨built, memory, hbuild, hmemory, hfit, served, hbytes⟩ := recordOpts_served
  obtain ⟨hdownload, ident, image, hash, -, himage, happly⟩ := build_delivers
    Crypto.plain_acceptsSigned noEscapes recordOpts built hbuild ⟨[served], none, none⟩ noFiles
    noCompressors 0 served rfl hbytes 100 (by decide) (by decide) ()
  have htrailed : hasEndf Crypto.plain recordFw = .ok true := by decide +kernel
  have hlength : recordFw.length = 80 := by decide +kernel
  obtain rfl := ensureEndf_trailed htrailed himage
  refine ⟨built, List.replicate (memory.toNat - recordFw.length) 0, hbuild, _, hdownload,
    happly ?_ recordFw _ ⟨?_, ?_, ?_⟩⟩
  · exact lt_of_eq_of_lt hlength (by decide)
  · rintro base ⟨⟩
    rfl
  · exact List.take_left
  · intro other hsome
    obtain rfl := Option.some.inj (hmemory.symm.trans hsome)
    rw [List.length_append, List.length_replicate]
    omega

end MotaTool.Serve
