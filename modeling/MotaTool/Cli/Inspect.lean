import MotaTool.Base.Report
import MotaTool.Cli.CommandsSpec
import MotaTool.Serve.Mirror

/-!
# Inspecting a package

`inspect` prints the manifest of a container, and for a bootloader the identity
of its image. Every line starts with its name, numbers end where the text goes
on, and the other values have one length, so the report determines what it
shows. The root is shown, so for packages that verify it determines the payload
too, as far as the truncated hash does.
-/

namespace MotaTool.Cli

open Base Run Format Merkle Bootloader Serve

def APPROVAL_YES : Octets 4 := ⟨"APRV".toList.map fun ch => ch.val.toUInt8, rfl⟩

def isApproved (m : Manifest) : Bool := m.approval == APPROVAL_YES

def codecLabel : Codec → String
  | .full => "full"
  | .detoolsSequential => "detools-sequential"
  | .detoolsInplace => "detools-in-place"

def hwShown (m : Manifest) : String := if m.hwIdStr.isEmpty then "(none)" else m.hwIdStr

def headLines (m : Manifest) (size : ℕ) (label : String) : List String :=
  let codec := (m.codec.map codecLabel).getD "?"
  [s!"total_size     : {size}",
    s!"package_kind   : {kindLabel m}",
    s!"format_ver     : {m.formatVer}",
    s!"flags          : 0x{hexLower 2 m.flags.toNat}  FULL={m.isFull} SIGNED={m.isSigned} " ++
      s!"BOOTLOADER={m.isBootloader}",
    s!"hash_algo      : 0x{hexLower 2 m.hashAlgo.toNat} (sha2-256)",
    s!"target_id      : 0x{hexLower 8 m.targetId.toNat}  ({label})",
    s!"fw_version     : {packageVersionStr m}  (0x{hexLower 8 m.fwVersion.toNat})",
    s!"image_size     : {m.imageSize}",
    s!"payload_size   : {m.payloadSize}",
    s!"block_size     : {m.blockSize}  (log2={m.blockSizeLog2})  block_count={m.blockCount}",
    s!"codec_id       : {m.codecId} ({codec})",
    s!"merkle_root    : {hexBytes m.merkleRoot.val}",
    s!"image_hash     : {hexBytes m.imageHash.val}",
    s!"hw_id          : {hwShown m}"]

def baseLines (m : Manifest) : List String :=
  if m.isFull then []
  else
    let zero := if m.baseHash.val.all (· == 0) then "  (zero)" else ""
    [s!"base_hash      : {hexBytes m.baseHash.val}{zero}"]

def signerLines (m : Manifest) : List String :=
  if m.isSigned then
    [s!"signer_pubkey  : {hexBytes m.signer.val}", s!"signature      : {hexBytes m.signature.val}"]
  else []

def identityLines (identity : BootloaderIdentity) : List String :=
  let platform := identity.platform
  let profile := (identityLabel identity).getD "unsupported"
  [s!"bootloader_profile: {profile}",
    s!"bootloader_offset: 0x{hexLower 4 identity.manifestOffset}",
    s!"bootloader_board: 0x{hexLower 8 identity.boardId.toNat}",
    s!"bootloader_name : {identity.deviceName}",
    s!"bootloader_version: {bootloaderVersionStr identity.bootVersion}  " ++
      s!"(0x{hexLower 8 identity.bootVersion.toNat})",
    s!"bootloader_cont : S{platform.softdeviceFamily} " ++
      s!"fwid=0x{hexLower 4 platform.softdeviceFwid.toNat} " ++
      s!"app=0x{hexLower 0 platform.appBase.toNat} ABI{platform.layoutAbi}",
    s!"bootloader_store: 0x{hexLower 2 identity.storageFlags.toNat}"]

def tailLines (m : Manifest) : List String :=
  let approved := if isApproved m then "APPROVED" else "not approved"
  [s!"approval       : {hexBytes m.approval.val}  ({approved})",
    s!"leaves[]       : {m.blockCount} x 4 bytes"]

def inspectIdentity (c : Crypto) (m : Manifest) (blob : Bytes) : Run (List String) :=
  if m.isBootloader then do
    let payload ← slice blob m.payloadOff (m.payloadOff + m.payloadSize.toNat)
    let identity ← validateBootloaderImage c payload m.targetId m.hwId m.fwVersion
    .ok (identityLines identity)
  else .ok []

/-- The identity of a bootloader is validated once more, between two lines of the report. -/
def cmdInspect (w : Outside) (host : Host) (file : String) : Run (List String) := do
  let blob ← context s!"cannot read {file}" ((host.read file).mapError fun cause => .error [cause])
  let m ← context "not a valid .mota" (Manifest.parse w.crypto blob)
  let label ← packageTargetLabel w.crypto w.envName m blob
  let identity ← inspectIdentity w.crypto m blob
  .ok (headLines m blob.length label ++ (baseLines m ++ (signerLines m ++
    (identity ++ tailLines m))))

structure ShownAlike (m n : Manifest) : Prop where
  formatVer : m.formatVer = n.formatVer
  flags : m.flags = n.flags
  hashAlgo : m.hashAlgo = n.hashAlgo
  targetId : m.targetId = n.targetId
  fwVersion : m.fwVersion = n.fwVersion
  imageSize : m.imageSize = n.imageSize
  payloadSize : m.payloadSize = n.payloadSize
  blockSizeLog2 : m.blockSizeLog2 = n.blockSizeLog2
  codecId : m.codecId = n.codecId
  merkleRoot : m.merkleRoot = n.merkleRoot
  imageHash : m.imageHash = n.imageHash
  hardware : hwShown m = hwShown n
  base : m.isFull = false → m.baseHash = n.baseHash
  key : m.isSigned = true → m.signer = n.signer ∧ m.signature = n.signature
  approval : m.approval = n.approval

section Lines

variable {m n : Manifest} {size size' : ℕ} {label label' : String}

theorem hexLower_byte {a b : UInt8} (h : hexLower 2 a.toNat = hexLower 2 b.toNat) : a = b :=
  UInt8.toNat_inj.mp (hexLower_injective a.toNat_lt b.toNat_lt h)

theorem hexLower_word {a b : UInt32} (h : hexLower 8 a.toNat = hexLower 8 b.toNat) : a = b :=
  UInt32.toNat_inj.mp (hexLower_injective a.toNat_lt b.toNat_lt h)

theorem byte_head {a b : UInt8} {s t : String}
    (h : hexLower 2 a.toNat ++ s = hexLower 2 b.toNat ++ t) : a = b :=
  hexLower_byte (fixed_head (by rw [hexLower_length a.toNat_lt, hexLower_length b.toNat_lt]) h).1

theorem word_head {a b : UInt32} {s t : String}
    (h : hexLower 8 a.toNat ++ s = hexLower 8 b.toNat ++ t) : a = b :=
  hexLower_word (fixed_head (by rw [hexLower_length a.toNat_lt, hexLower_length b.toNat_lt]) h).1

theorem version_tail {a b : UInt32} {s t : String}
    (h : s ++ ("  (0x" ++ (hexLower 8 a.toNat ++ ")")) =
      t ++ ("  (0x" ++ (hexLower 8 b.toNat ++ ")"))) : a = b := by
  have htail := fixed_tail (by
    simp only [String.toList_append, List.length_append]
    rw [hexLower_length a.toNat_lt, hexLower_length b.toNat_lt]) h
  exact word_head (String.append_right_inj _ |>.mp htail)

theorem octets_head {k : ℕ} {a b : Octets k} {s t : String}
    (h : hexBytes a.val ++ s = hexBytes b.val ++ t) : a = b := by
  have hhead := (fixed_head (by
    rw [hexBytes_length, hexBytes_length, a.property, b.property]) h).1
  exact Subtype.ext (hexBytes_injective hhead)

theorem headLines_length : (headLines m size label).length = 14 := rfl

theorem headLines_alike (h : headLines m size label = headLines n size' label') :
    m.formatVer = n.formatVer ∧ m.flags = n.flags ∧ m.hashAlgo = n.hashAlgo ∧
      m.targetId = n.targetId ∧ m.fwVersion = n.fwVersion ∧ m.imageSize = n.imageSize ∧
      m.payloadSize = n.payloadSize ∧ m.blockSizeLog2 = n.blockSizeLog2 ∧
      m.codecId = n.codecId ∧ m.merkleRoot = n.merkleRoot ∧ m.imageHash = n.imageHash ∧
      hwShown m = hwShown n := by
  have hcodec : " (" = " " ++ "(" := rfl
  have hlog : "  (log2=" = " " ++ " (log2=" := rfl
  simp only [headLines, List.cons.injEq, toString, hcodec, hlog, String.append_assoc,
    String.append_right_inj, and_true] at h
  obtain ⟨-, -, hformat, hflags, halgo, htarget, hversion, himage, hpayload, hblock, hcodec,
    hroot, hhash, hhw⟩ := h
  have hlogs : m.blockSizeLog2.toNat = n.blockSizeLog2.toNat :=
    Nat.pow_right_injective (Nat.le_refl 2) (number_head hblock)
  exact ⟨UInt8.toNat_inj.mp (repr_injective hformat), byte_head hflags, byte_head halgo,
    word_head htarget, version_tail hversion, UInt32.toNat_inj.mp (repr_injective himage),
    UInt32.toNat_inj.mp (repr_injective hpayload), UInt8.toNat_inj.mp hlogs,
    UInt8.toNat_inj.mp (number_head hcodec), Subtype.ext (hexBytes_injective hroot),
    Subtype.ext (hexBytes_injective hhash), hhw⟩

theorem baseLines_alike (hfull : m.isFull = n.isFull) (h : baseLines m = baseLines n) :
    m.isFull = false → m.baseHash = n.baseHash := by
  intro hdelta
  unfold baseLines at h
  rw [← hfull, hdelta] at h
  simp only [Bool.false_eq_true, if_false, List.cons.injEq, toString, String.append_assoc,
    String.append_right_inj, and_true] at h
  exact octets_head h

theorem signerLines_alike (hsigned : m.isSigned = n.isSigned)
    (h : signerLines m = signerLines n) :
    m.isSigned = true → m.signer = n.signer ∧ m.signature = n.signature := by
  intro htrue
  unfold signerLines at h
  rw [← hsigned, htrue] at h
  simp only [if_true, List.cons.injEq, toString, String.append_right_inj, and_true] at h
  exact ⟨Subtype.ext (hexBytes_injective h.1), Subtype.ext (hexBytes_injective h.2)⟩

theorem tailLines_alike (h : tailLines m = tailLines n) : m.approval = n.approval := by
  simp only [tailLines, List.cons.injEq, toString, String.append_assoc,
    String.append_right_inj, and_true] at h
  exact octets_head h.1

theorem report_alike {identity identity' : List String}
    (hidentity : m.isBootloader = n.isBootloader → identity.length = identity'.length)
    (h : headLines m size label ++ (baseLines m ++ (signerLines m ++
        (identity ++ tailLines m))) =
      headLines n size' label' ++ (baseLines n ++ (signerLines n ++
        (identity' ++ tailLines n)))) : ShownAlike m n := by
  obtain ⟨hhead, h⟩ := List.append_inj h (by rw [headLines_length, headLines_length])
  obtain ⟨hformat, hflags, halgo, htarget, hversion, himage, hpayload, hlog, hcodec, hroot, hhash,
    hhw⟩ := headLines_alike hhead
  have hfull : m.isFull = n.isFull := by rw [Manifest.isFull, Manifest.isFull, hflags]
  have hsigned : m.isSigned = n.isSigned := by
    rw [Manifest.isSigned, Manifest.isSigned, hflags]
  have hboot : m.isBootloader = n.isBootloader := by
    rw [Manifest.isBootloader, Manifest.isBootloader, hflags]
  obtain ⟨hbase, h⟩ := List.append_inj h (by
    unfold baseLines
    rw [hfull]
    split_ifs <;> rfl)
  obtain ⟨hsigner, h⟩ := List.append_inj h (by
    unfold signerLines
    rw [hsigned]
    split_ifs <;> rfl)
  obtain ⟨-, htail⟩ := List.append_inj h (hidentity hboot)
  exact ⟨hformat, hflags, halgo, htarget, hversion, himage, hpayload, hlog, hcodec, hroot, hhash,
    hhw, baseLines_alike hfull hbase, signerLines_alike hsigned hsigner, tailLines_alike htail⟩

end Lines

section Running

variable {w : Outside} {host : Host} {file : String} {lines : List String}

theorem cmdInspect_ok (h : cmdInspect w host file = .ok lines) : ∃ blob m label identity,
    host.read file = .ok blob ∧ Manifest.parse w.crypto blob = .ok m ∧
      identity.length = (if m.isBootloader then 7 else 0) ∧
      lines = headLines m blob.length label ++ (baseLines m ++ (signerLines m ++
        (identity ++ tailLines m))) := by
  simp only [cmdInspect, bind_eq_ok, context_eq_ok, mapError_eq_ok] at h
  obtain ⟨blob, hread, m, hparse, label, -, identity, hidentity, h⟩ := h
  refine ⟨blob, m, label, identity, hread, hparse, ?_, (Except.ok.inj h).symm⟩
  unfold inspectIdentity at hidentity
  split_ifs at hidentity ⊢
  · simp only [bind_eq_ok] at hidentity
    obtain ⟨payload, -, found, -, hidentity⟩ := hidentity
    cases hidentity
    rfl
  · cases hidentity
    rfl

theorem cmdInspect_parsed {blob : Bytes} {m : Manifest} (hread : host.read file = .ok blob)
    (hparse : Manifest.parse w.crypto blob = .ok m) :
    ∃ lines, cmdInspect w host file = .ok lines := by
  obtain ⟨label, hlabel⟩ := packageTargetLabel_parsed hparse
  have hidentity : ∃ identity, inspectIdentity w.crypto m blob = .ok identity := by
    unfold inspectIdentity
    split_ifs with hboot
    · obtain ⟨identity, hvalid⟩ := parsed_accepted hparse hboot
      rw [(Manifest.parse_parsed hparse).slices.2.1, ok_bind, hvalid]
      exact ⟨_, rfl⟩
    · exact ⟨_, rfl⟩
  obtain ⟨identity, hidentity⟩ := hidentity
  simp only [cmdInspect, hread, Except.mapError, context, hparse, hlabel, hidentity, ok_bind]
  exact ⟨_, rfl⟩

end Running

/-- `inspect` ends without a panic: it prints a report exactly for the files that hold a
container, and two files with one report have the same manifest wherever the report shows it, and
one payload if they verify, unless the truncated digest collides on them. -/
theorem cmdInspect_exact (w : Outside) (host : Host) :
    (∀ file, (∃ blob m lines, host.read file = .ok blob ∧ Manifest.parse w.crypto blob = .ok m ∧
        cmdInspect w host file = .ok lines) ∨
      ∃ chain, cmdInspect w host file = .error (.error chain) ∧
        ∀ blob, host.read file = .ok blob → ∀ m, Manifest.parse w.crypto blob ≠ .ok m) ∧
    ∀ file other lines, cmdInspect w host file = .ok lines →
      cmdInspect w host other = .ok lines → ∃ x y m n, host.read file = .ok x ∧
        host.read other = .ok y ∧ Manifest.parse w.crypto x = .ok m ∧
        Manifest.parse w.crypto y = .ok n ∧ ShownAlike m n ∧
        (verify w.crypto x = .ok [] → verify w.crypto y = .ok [] →
          m.payloadOf x = n.payloadOf y ∨
          BlockCollision w.crypto m.blockSize (m.payloadOf x) (n.payloadOf y) ∨
          NodeCollision w.crypto (chunksExact4 (m.leavesOf x)) (chunksExact4 (n.leavesOf y))) := by
  constructor
  · intro file
    cases hread : host.read file with
    | error cause =>
      refine .inr ⟨[s!"cannot read {file}", cause], ?_, fun blob hblob => by cases hblob⟩
      rw [cmdInspect, hread]
      rfl
    | ok blob =>
      have hreturns := Manifest.parse_returns w.crypto blob
      cases hparse : Manifest.parse w.crypto blob with
      | ok m =>
        obtain ⟨lines, hlines⟩ := cmdInspect_parsed hread hparse
        exact .inl ⟨blob, m, lines, rfl, hparse, hlines⟩
      | error fault =>
        rw [hparse] at hreturns
        cases fault with
        | error chain =>
          refine .inr ⟨"not a valid .mota" :: chain, ?_, fun other hother m hm => ?_⟩
          · simp only [cmdInspect, hread, Except.mapError, context, hparse, ok_bind]
            rfl
          · cases hother
            cases hparse.symm.trans hm
        | panic => exact absurd rfl hreturns.1
        | spin => exact absurd rfl hreturns.2
  · intro file other lines hfile hother
    obtain ⟨x, m, label, identity, hx, hm, hlength, rfl⟩ := cmdInspect_ok hfile
    obtain ⟨y, n, label', identity', hy, hn, hlength', hlines⟩ := cmdInspect_ok hother
    have halike := report_alike (fun hboot => by rw [hlength, hlength', hboot]) hlines
    refine ⟨x, y, m, n, hx, hy, hm, hn, halike, fun hvx hvy => ?_⟩
    obtain ⟨m', hm', hvx⟩ := verify_eq_nil.mp hvx
    obtain ⟨n', hn', hvy⟩ := verify_eq_nil.mp hvy
    obtain rfl := Except.ok.inj (hm.symm.trans hm')
    obtain rfl := Except.ok.inj (hn.symm.trans hn')
    have hblock : m.blockSize = n.blockSize := by
      rw [Manifest.blockSize, Manifest.blockSize, halike.blockSizeLog2]
    exact verified_payload hvx hvy halike.payloadSize hblock halike.merkleRoot

end MotaTool.Cli
