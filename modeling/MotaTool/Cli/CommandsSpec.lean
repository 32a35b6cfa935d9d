import MotaTool.Cli.Commands

/-!
# What the commands agree on

`verify` succeeds exactly on files that can be read, verify and, if a key is
asked for, are signed by it. The packages that a run of build commands writes
under one key pass it together.
-/

namespace MotaTool.Cli

open Base Run Format Endf IntelHex Build Bootloader Serve

/-- A file that holds a package without a problem, signed by the key if one is asked for. -/
structure Trusted (w : Outside) (host : Host) (want : Option (Octets 32)) (file : String)
    (blob : Bytes) (m : Manifest) : Prop where
  read : host.read file = .ok blob
  parsed : Manifest.parse w.crypto blob = .ok m
  verified : Verified w.crypto blob m
  key : ∀ key, want = some key → m.isSigned = true ∧ m.signer = key ∧
    w.crypto.verify key ((blob.drop HEADER_LEN).take SIGNED_LEN) m.signature = true

def Reports (w : Outside) (host : Host) (want : Option (Octets 32)) (file line : String) : Prop :=
  (∃ blob m label, Trusted w host want file blob m ∧
    packageTargetLabel w.crypto w.envName m blob = .ok label ∧
    line = okLine file m label blob.length) ∨
  (∀ blob m, ¬Trusted w host want file blob m) ∧ ∃ reasons, line = s!"FAIL  {file} :" ++ reasons

section Verifying

variable {w : Outside} {host : Host} {want : Option (Octets 32)} {file : String} {blob : Bytes}
  {m : Manifest}

theorem keyProblems_eq_nil : keyProblems want (some m) = [] ↔
    ∀ key, want = some key → m.isSigned = true ∧ m.signer = key := by
  cases want with
  | none => simp [keyProblems]
  | some key =>
    simp only [keyProblems, Option.some.injEq, forall_eq']
    split_ifs with hsigned
    · simp [hsigned]
    · rw [problem_eq_nil, not_not]
      exact (and_iff_right (by simpa using hsigned)).symm

theorem packageTargetLabel_parsed (h : Manifest.parse w.crypto blob = .ok m) :
    ∃ label, packageTargetLabel w.crypto w.envName m blob = .ok label := by
  by_cases hboot : m.isBootloader = true
  · obtain ⟨identity, hvalid⟩ := parsed_accepted h hboot
    exact ⟨_, packageTargetLabel_accepted h hboot hvalid⟩
  · exact ⟨_, if_neg hboot⟩

theorem attempt_parse (c : Crypto) (blob : Bytes) :
    attempt (Manifest.parse c blob) = .ok (Manifest.parse c blob).toOption := by
  have hreturns := Manifest.parse_returns c blob
  cases hparse : Manifest.parse c blob with
  | ok m => rfl
  | error fault =>
    rw [hparse] at hreturns
    cases fault with
    | error chain => rfl
    | panic => exact absurd rfl hreturns.1
    | spin => exact absurd rfl hreturns.2

theorem trusted_iff (hread : host.read file = .ok blob) : Trusted w host want file blob m ↔
    Manifest.parse w.crypto blob = .ok m ∧
      found w.crypto blob ++ keyProblems want (some m) = [] := by
  have hnil : found w.crypto blob = [] ↔ verify w.crypto blob = .ok [] := by
    rw [verify_found, Except.ok.injEq]
  rw [List.append_eq_nil_iff, hnil, verify_eq_nil, keyProblems_eq_nil]
  constructor
  · rintro ⟨-, hparsed, hverified, hkey⟩
    exact ⟨hparsed, ⟨m, hparsed, hverified⟩, fun key hwant => ⟨(hkey key hwant).1,
      (hkey key hwant).2.1⟩⟩
  · rintro ⟨hparsed, ⟨other, hother, hverified⟩, hkey⟩
    obtain rfl := Except.ok.inj (hparsed.symm.trans hother)
    refine ⟨hread, hparsed, hverified, fun key hwant => ?_⟩
    obtain ⟨hsigned, rfl⟩ := hkey key hwant
    exact ⟨hsigned, rfl, hverified.signature hsigned⟩

theorem verifyFile_reports (w : Outside) (host : Host) (want : Option (Octets 32))
    (file : String) : ∃ good line, verifyFile w host want file = .ok (good, line) ∧
      Reports w host want file line ∧
      (good = true ↔ ∃ blob m, Trusted w host want file blob m) := by
  unfold verifyFile
  cases hread : host.read file with
  | error cause =>
    have hnone : ∀ blob m, ¬Trusted w host want file blob m := by
      intro blob m htrusted
      rw [htrusted.read] at hread
      cases hread
    have hline : s!"FAIL  {file} : cannot read" = s!"FAIL  {file} :" ++ " cannot read" := by
      have hsplit : " : cannot read" = " :" ++ " cannot read" := rfl
      simp only [toString, String.append_assoc, ← hsplit]
    exact ⟨false, _, rfl, .inr ⟨hnone, _, hline⟩, by simp [hnone]⟩
  | ok blob =>
    have hbad : (∀ m, ¬Trusted w host want file blob m) → ∀ other m,
        ¬Trusted w host want file other m := by
      intro hbad other m htrusted
      obtain rfl := Except.ok.inj (htrusted.read.symm.trans hread)
      exact hbad m htrusted
    simp only [verify_found, attempt_parse, ok_bind]
    cases hparse : Manifest.parse w.crypto blob with
    | error fault =>
      have hnone := hbad fun m htrusted => by cases htrusted.parsed.symm.trans hparse
      exact ⟨false, _, rfl, .inr ⟨hnone, _, rfl⟩, by simp [hnone]⟩
    | ok m =>
      cases hproblems : found w.crypto blob ++ keyProblems want (some m) with
      | nil =>
        obtain ⟨label, hlabel⟩ := packageTargetLabel_parsed hparse
        have htrusted := (trusted_iff hread).mpr ⟨hparse, hproblems⟩
        simp only [Except.toOption, hproblems, hlabel, ok_bind]
        exact ⟨true, _, rfl, .inl ⟨blob, m, label, htrusted, hlabel, rfl⟩,
          iff_of_true rfl ⟨blob, m, htrusted⟩⟩
      | cons problem problems =>
        have hnone := hbad fun other htrusted => by
          obtain ⟨hother, hnil⟩ := (trusted_iff hread).mp htrusted
          obtain rfl := Except.ok.inj (hparse.symm.trans hother)
          cases hproblems.symm.trans hnil
        simp only [Except.toOption, hproblems]
        exact ⟨false, _, rfl, .inr ⟨hnone, _, rfl⟩, by simp [hnone]⟩

theorem verifyFiles_reports {files out : List String} {bad : ℕ}
    (hfit : bad + files.length < 2 ^ 32) : ∃ lines count,
      files.foldlM (verifyStep w host want) (out, bad) = .ok (out ++ lines, bad + count) ∧
      List.Forall₂ (Reports w host want) files lines ∧
      (count = 0 ↔ ∀ file ∈ files, ∃ blob m, Trusted w host want file blob m) := by
  induction files generalizing out bad with
  | nil => exact ⟨[], 0, by simp, .nil, by simp⟩
  | cons file files ih =>
    obtain ⟨good, line, hfile, hreports, hgood⟩ := verifyFile_reports w host want file
    rw [List.length_cons] at hfit
    simp only [List.foldlM_cons, verifyStep, hfile, ok_bind, List.forall_mem_cons, ← hgood]
    cases good with
    | true =>
      obtain ⟨lines, count, hrun, hlines, hcount⟩ := @ih (out ++ [line]) bad (by omega)
      refine ⟨line :: lines, count, ?_, .cons hreports hlines, ?_⟩
      · rw [if_pos rfl, ok_bind]
        simpa using hrun
      · rw [hcount]
        simp
    | false =>
      obtain ⟨lines, count, hrun, hlines, -⟩ := @ih (out ++ [line]) (bad + 1) (by omega)
      have hnext : checkedAdd 32 bad 1 = some (bad + 1) := if_pos (by omega)
      refine ⟨line :: lines, count + 1, ?_, .cons hreports hlines, by simp⟩
      rw [hnext]
      simp only [Bool.false_eq_true, if_false, unwrap, ok_bind]
      rw [hrun, List.append_assoc, List.singleton_append, Nat.add_assoc, Nat.add_comm 1]

theorem loadKey32_returns (host : Host) (path : String) : Returns (loadKey32 host path) := by
  unfold loadKey32
  cases host.read path with
  | error cause => simp [Returns]
  | ok raw => exact returns_ofOption _ _

theorem cmdVerify_reports {a : VerifyArgs} (hfiles : a.files.length < 2 ^ 32)
    (hwant : a.pubKey.mapM (loadKey32 host) = .ok want) : ∃ out success,
      cmdVerify w host a = .ok ⟨out, [], success⟩ ∧
      List.Forall₂ (Reports w host want) a.files out ∧
      (success = true ↔ ∀ file ∈ a.files, ∃ blob m, Trusted w host want file blob m) := by
  obtain ⟨out, count, hrun, hout, hcount⟩ :=
    @verifyFiles_reports w host want a.files [] 0 (by omega)
  refine ⟨out, count == 0, ?_, hout, by rw [beq_iff_eq, hcount]⟩
  simp only [cmdVerify, hwant, hrun, ok_bind, List.nil_append, Nat.zero_add]

end Verifying

/-- `verify` ends on every list of files. Without a key that can be read it fails at once; else it
prints a line for every file, and succeeds exactly if each can be read, verifies and, if a key is
asked for, has a signature that verifies under that key. -/
theorem cmdVerify_exact (w : Outside) (host : Host) (a : VerifyArgs)
    (hfiles : a.files.length < 2 ^ 32) :
    (∃ path chain, a.pubKey = some path ∧ loadKey32 host path = .error (.error chain) ∧
      cmdVerify w host a = .ok ⟨[], ["error: " ++ ": ".intercalate chain], false⟩) ∨
    ∃ want out success, a.pubKey.mapM (loadKey32 host) = .ok want ∧
      cmdVerify w host a = .ok ⟨out, [], success⟩ ∧
      List.Forall₂ (Reports w host want) a.files out ∧
      (success = true ↔ ∀ file ∈ a.files, ∃ blob m, Trusted w host want file blob m) := by
  cases hpub : a.pubKey with
  | none =>
    have hwant : a.pubKey.mapM (loadKey32 host) = .ok none := by rw [hpub]; rfl
    exact .inr ⟨none, by rw [← hpub]; simpa [hwant] using cmdVerify_reports hfiles hwant⟩
  | some path =>
    cases hload : loadKey32 host path with
    | ok key =>
      have hwant : a.pubKey.mapM (loadKey32 host) = .ok (some key) := by
        rw [hpub, Option.mapM_some, hload]
        rfl
      exact .inr ⟨some key, by rw [← hpub]; simpa [hwant] using cmdVerify_reports hfiles hwant⟩
    | error fault =>
      have hreturns := loadKey32_returns host path
      rw [hload] at hreturns
      cases fault with
      | error chain =>
        refine .inl ⟨path, chain, rfl, hload, ?_⟩
        rw [cmdVerify, hpub, Option.mapM_some, hload]
        rfl
      | panic => exact absurd rfl hreturns.1
      | spin => exact absurd rfl hreturns.2

def byteHost : Host where
  file path := if path = "fw.bin" then 0 else if path = "key" then 1 else
    if path = "key.pub" then 2 else 3
  content file := if file = 0 then .ok [1] else .error "No such file or directory (os error 2)"
  asked := []
  refuses _ _ := none

def byteArgs : BuildArgs where
  fw := "fw.bin"
  base := none
  patchType := .sequential
  inplaceMemory := none
  segmentSize := 4096
  targetEnv := none
  targetId := none
  fwVersion := none
  hwId := none
  sign := some "key"
  blockSize := 64
  force := false
  outDir := "."
  out := some "fw.mota"

def offline : Outside where
  crypto := Crypto.plain
  fetch _ := .error ["offline"]
  reader _ := []
  envName _ := none
  escaped := noEscapes

def signedOpts : BuildOpts := { byteOpts with signSeed := some (Octets.zero 32) }

def keyHost (package : Bytes) : Host :=
  { byteHost with
    content := fun file => .ok (if file = 2 then (Octets.zero 32).val else
      if file = 1 then (Octets.padded 32 [1]).val else package) }

theorem keyHost_loads (package : Bytes) :
    loadKey32 (keyHost package) "key.pub" = .ok (Octets.zero 32) ∧
      loadKey32 (keyHost package) "key" = .ok (Octets.padded 32 [1]) := by
  have hload : ∀ (path : String) (key : Octets 32), (keyHost package).read path = .ok key.val →
      (hexKey key.val).or (asKey key.val) = some key →
      loadKey32 (keyHost package) path = .ok key := by
    intro path key hread hkey
    rw [loadKey32, hread]
    simp only [hkey, ofOption]
  exact ⟨hload "key.pub" _ rfl (by decide +kernel), hload "key" _ rfl (by decide +kernel)⟩

/-- A signed package, with no key asked for, under its key and under another one. -/
theorem cmdVerify_exact_signed : ∃ built out out' out'',
    build Crypto.plain noEscapes signedOpts = .ok built ∧
    cmdVerify offline (keyHost built.bytes) ⟨["a.mota", "b.mota"], none⟩ = .ok ⟨out, [], true⟩ ∧
    cmdVerify offline (keyHost built.bytes) ⟨["a.mota", "b.mota"], some "key.pub"⟩ =
      .ok ⟨out', [], true⟩ ∧
    cmdVerify offline (keyHost built.bytes) ⟨["a.mota", "b.mota"], some "key"⟩ =
      .ok ⟨out'', [], false⟩ := by
  obtain ⟨built, hbuild, hsigned⟩ := @exists_any _ (build Crypto.plain noEscapes signedOpts)
    (fun built => built.manifest.isSigned && decide (built.manifest.signer = Octets.zero 32) &&
      Crypto.plain.verify (Octets.zero 32) ((built.bytes.drop HEADER_LEN).take SIGNED_LEN)
        built.manifest.signature) (by decide +kernel)
  simp only [Bool.and_eq_true, decide_eq_true_eq, and_assoc] at hsigned
  obtain ⟨ident, image, delta, root, hassembled⟩ := build_assembled hbuild
  have hparse := hassembled.parse
  have hverified := (hassembled.sealed Crypto.plain_acceptsSigned).2.2
  have hfile : ∀ file ∈ ["a.mota", "b.mota"],
      (keyHost built.bytes).read file = .ok built.bytes := by
    intro file hfile
    simp only [List.mem_cons, List.not_mem_nil, or_false] at hfile
    rcases hfile with rfl | rfl <;> rfl
  obtain ⟨hown, hother⟩ := keyHost_loads built.bytes
  have hkeyed : ∀ path key, loadKey32 (keyHost built.bytes) path = .ok key → ∃ out success,
      cmdVerify offline (keyHost built.bytes) ⟨["a.mota", "b.mota"], some path⟩ =
        .ok ⟨out, [], success⟩ ∧
      (success = true ↔ ∀ file ∈ ["a.mota", "b.mota"], ∃ blob m,
        Trusted offline (keyHost built.bytes) (some key) file blob m) := by
    intro path key hkey
    rcases cmdVerify_exact offline (keyHost built.bytes) ⟨["a.mota", "b.mota"], some path⟩
      (by simp) with ⟨path', chain, hpub, hfail, -⟩ |
        ⟨want, out, success, hwant, hrun, -, hsuccess⟩
    · cases hpub
      rw [hkey] at hfail
      cases hfail
    · obtain rfl : some key = want := by
        rw [Option.mapM_some, hkey] at hwant
        exact Except.ok.inj hwant
      exact ⟨out, success, hrun, hsuccess⟩
  rcases cmdVerify_exact offline (keyHost built.bytes) ⟨["a.mota", "b.mota"], none⟩ (by decide)
    with ⟨path, chain, hpub, -⟩ | ⟨want, out, success, hwant, hrun, -, hsuccess⟩
  · cases hpub
  cases hwant
  obtain ⟨out', success', hrun', hsuccess'⟩ := hkeyed "key.pub" _ hown
  obtain ⟨out'', success'', hrun'', hsuccess''⟩ := hkeyed "key" _ hother
  refine ⟨built, out, out', out'', hbuild, ?_, ?_, ?_⟩
  · rw [hrun, hsuccess.mpr fun file hmem =>
      ⟨built.bytes, built.manifest, hfile file hmem, hparse, hverified, nofun⟩]
  · rw [hrun', hsuccess'.mpr fun file hmem =>
      ⟨built.bytes, built.manifest, hfile file hmem, hparse, hverified, by
        rintro key ⟨⟩
        exact hsigned⟩]
  · have hrefused : success'' = false := by
      refine Bool.eq_false_iff.mpr fun htrue => ?_
      obtain ⟨blob, m, htrusted⟩ := hsuccess''.mp htrue "a.mota" List.mem_cons_self
      obtain rfl := Except.ok.inj ((hfile _ List.mem_cons_self).symm.trans htrusted.read)
      obtain rfl := Except.ok.inj (hparse.symm.trans htrusted.parsed)
      have hsigner := (htrusted.key _ rfl).2.1
      rw [hsigned.2.1] at hsigner
      exact absurd hsigner (by decide)
    rw [hrun'', hrefused]

def builtIdentity (c : Crypto) (built : Built) : BootloaderIdentity :=
  let m := built.manifest
  (validateBootloaderImage c (m.payloadOf built.bytes) m.targetId m.hwId m.fwVersion).toOption.getD
    ⟨0, 0, "", 0, ⟨0, 0, 0, 0⟩, 0⟩

section Settling

variable {w : Outside} {host : Host} {built : Built} {what : String}

theorem ok_bind_congr {α β : Type} {x : Run α} {f g : α → Run β}
    (h : ∀ a, x = .ok a → f a = g a) : x >>= f = x >>= g := by
  cases x with
  | error fault => rfl
  | ok a => exact h a rfl

theorem selfCheck_verified (h : verify w.crypto built.bytes = .ok []) :
    selfCheck w what built = .ok () := by
  rw [selfCheck, h, ok_bind]
  exact ensure_of rfl _

theorem build_selfCheck (hc : w.crypto.AcceptsSigned) {opts : BuildOpts}
    (h : build w.crypto w.escaped opts = .ok built) : selfCheck w what built = .ok () := by
  obtain ⟨ident, image, delta, root, hassembled⟩ := build_assembled h
  exact selfCheck_verified (verify_eq_nil.mpr ⟨_, hassembled.parse, (hassembled.sealed hc).2.2⟩)

theorem buildBootloader_selfCheck (hc : w.crypto.AcceptsSigned) {opts : BootloaderBuildOpts}
    (h : buildBootloader w.crypto w.envName opts = .ok built) :
    selfCheck w what built = .ok () ∧ ∃ payload identity,
      slice built.bytes built.manifest.payloadOff
        (built.manifest.payloadOff + built.manifest.payloadSize.toNat) = .ok payload ∧
      validateBootloaderImage w.crypto payload built.manifest.targetId built.manifest.hwId
        built.manifest.fwVersion = .ok identity ∧
      builtIdentity w.crypto built = identity := by
  obtain ⟨-, -, -, hverified⟩ := buildBootloader_sealed hc h
  obtain ⟨-, hboot, -, -⟩ := buildBootloader_identified h
  have hparse := buildBootloader_parse h
  obtain ⟨identity, hvalid⟩ := parsed_accepted hparse hboot
  exact ⟨selfCheck_verified (verify_eq_nil.mpr ⟨_, hparse, hverified⟩), _, identity,
    hverified.parsed.slices.2.1, hvalid, by simp only [builtIdentity, hvalid]; rfl⟩

end Settling

/-- `build` without its check. -/
def buildUnchecked (w : Outside) (host : Host) (a : BuildArgs) : Run Wrote := do
  let opts ← buildOpts w host a
  let built ← build w.crypto w.escaped opts
  let (host, path) ← writeOut host a.out a.outDir built
  .ok ⟨host, path, buildLines a built path⟩

/-- `build-bootloader` without its check, and with nothing that fails after the write. -/
def buildBootloaderUnchecked (w : Outside) (host : Host) (a : BuildBootloaderArgs) :
    Run Wrote := do
  let (board, storageProfile) := a.board.profile
  let image ← readBootloaderHex w host a.fw
  let signSeed ← context "--sign" (loadKey32 host a.sign)
  let built ← buildBootloader w.crypto w.envName ⟨image, board, storageProfile, signSeed⟩
  assertVersion w a.fwVersion built.manifest
  let (host, path) ← writeOut host a.out a.outDir built
  .ok ⟨host, path, bootloaderLines board storageProfile built path
    (builtIdentity w.crypto built)⟩

/-- The checks that the build commands make of what they built always pass, also the one that
comes after the package is written. -/
theorem cmdBuild_unchecked (w : Outside) (hc : w.crypto.AcceptsSigned) (host : Host) :
    (∀ a, cmdBuild w host a = buildUnchecked w host a) ∧
      ∀ a, cmdBuildBootloader w host a = buildBootloaderUnchecked w host a := by
  refine ⟨fun a => ?_, fun a => ?_⟩
  · refine bind_congr fun opts => ok_bind_congr fun built hbuild => ?_
    rw [build_selfCheck hc hbuild, ok_bind]
  · rw [cmdBuildBootloader, buildBootloaderUnchecked]
    cases a.board.profile with
    | mk board profile =>
      refine bind_congr fun image => bind_congr fun seed => ok_bind_congr fun built hbuild => ?_
      obtain ⟨hcheck, payload, identity, hpayload, hvalid, hidentity⟩ :=
        buildBootloader_selfCheck hc hbuild
      refine bind_congr fun _ => ?_
      rw [hcheck, ok_bind]
      refine bind_congr fun written => ?_
      simp only [hpayload, hvalid, hidentity, ok_bind]

theorem writeOut_accepted {host : Host} {path outDir : String} {built : Built}
    (h : ∀ asked path, host.refuses asked path = none) :
    ∃ host', writeOut host (some path) outDir built = .ok (host', path) := by
  have hname : String.ofList (outPath (some path) outDir built) = path := String.ofList_toList
  simp only [writeOut, hname, Host.write, Host.createDirAll, h]
  exact ⟨_, rfl⟩

def hexLine (kind : UInt8) (offset : UInt16) (value : Bytes) : String :=
  let body := UInt8.ofNat value.length :: (offset >>> 8).toUInt8 :: offset.toUInt8 :: kind :: value
  ":" ++ (hexBytes (body ++ [body.foldl (fun sum b => sum - b) 0]) ++ "\n")

/-- The image as an Intel HEX file. -/
def hexText (image : Bytes) : String :=
  hexLine 4 0 [0x00, 0x0F] ++ (String.join ((List.range 2560).map fun i =>
    hexLine 0 (UInt16.ofNat (0x4000 + 16 * i)) (span image i).val) ++ hexLine 1 0 [])

theorem hexText_nonempty (image : Bytes) : utf8 (hexText image) ≠ [] := by
  have hcolon : utf8 ":" = [0x3a] := rfl
  simp [hexText, hexLine, utf8_append, hcolon]

def unitHost : Host where
  file path := if path = "fw.bin" then 0 else if path = "base.bin" then 1 else
    if path = "key" then 2 else if path = "boot.hex" then 3 else 4
  content file := if file = 0 then .ok [1, 2, 9, 4, 5] else
    if file = 1 then .ok ([1, 2, 3, 4] ++ trailer rolling [1, 2, 3, 4] FwIdent.default) else
    if file = 2 then .ok (Octets.zero 32).val else
    if file = 3 then .ok (utf8 (hexText sampleImage)) else
      .error "No such file or directory (os error 2)"
  asked := []
  refuses _ _ := none

def bootLines : List IntelHex.Line := (spelled sampleImage).map .ok ++ [.ok .endOfFile]

def unitOutside : Outside where
  crypto := rolling
  fetch _ := .error ["offline"]
  reader := listed (hexText sampleImage) bootLines
  envName _ := none
  escaped := noEscapes

def bootArgs : BuildBootloaderArgs := ⟨"boot.hex", .xiaoNrf52840Ble, "key", none, ".",
  some "boot.mota"⟩

theorem unitHost_image : readBootloaderHex unitOutside unitHost "boot.hex" = .ok sampleImage := by
  have hurl : isUrl "boot.hex" = false := by decide
  have hraw : readRawInput unitOutside unitHost "boot.hex" = .ok (utf8 (hexText sampleImage)) := by
    have hread : unitHost.read "boot.hex" = .ok (utf8 (hexText sampleImage)) := rfl
    have hsource : ∀ msg, context msg ((unitHost.read "boot.hex").mapError
        fun cause => .error [cause]) = .ok (utf8 (hexText sampleImage)) := fun msg => by
      rw [hread]
      rfl
    rw [readRawInput, if_neg (by simp [hurl]), hsource, ok_bind]
    dsimp only
    rw [ensure_of (hexText_nonempty sampleImage), ok_bind]
  have htext : fromUtf8 (utf8 (hexText sampleImage)) = .ok (hexText sampleImage) :=
    fromUtf8_eq_ok.mpr rfl
  have hreader : unitOutside.reader = listed (hexText sampleImage) bootLines := rfl
  have hlines : unitOutside.reader (hexText sampleImage) = bootLines := by
    rw [hreader, listed_lines]
  obtain ⟨embedded, storage, haccepted, -⟩ := validate_eq_ok.mp (sampleImage_accepted rolling)
  rw [readBootloaderHex, hraw, ok_bind, context_eq_ok]
  exact extract_spelled haccepted.size htext hlines

theorem boot_written : ∃ wrote,
    buildBootloaderUnchecked unitOutside unitHost bootArgs = .ok wrote := by
  have hprofile : bootArgs.board.profile = (.xiaoNrf52840Ble, STORAGE_QSPI_UPDATE) := rfl
  have himage : readBootloaderHex unitOutside unitHost bootArgs.fw = .ok sampleImage :=
    unitHost_image
  have hseed : loadKey32 unitHost bootArgs.sign = .ok (Octets.zero 32) :=
    loadKey32_ok.mpr ⟨_, rfl, .inr rfl⟩
  obtain ⟨built, hbuild⟩ : ∃ built, buildBootloader unitOutside.crypto unitOutside.envName
      ⟨sampleImage, .xiaoNrf52840Ble, STORAGE_QSPI_UPDATE, Octets.zero 32⟩ = .ok built :=
    sample_builds
  obtain ⟨host', hout⟩ : ∃ host',
      writeOut unitHost bootArgs.out bootArgs.outDir built = .ok (host', "boot.mota") :=
    writeOut_accepted fun _ _ => rfl
  rw [buildBootloaderUnchecked, hprofile]
  dsimp only
  rw [himage, ok_bind, context_eq_ok.mpr hseed, ok_bind, hbuild, ok_bind, hout]
  exact ⟨_, rfl⟩

/-- A signed full image, a signed patch and a bootloader. -/
theorem cmdBuild_unchecked_each : ∃ full patch boot,
    buildUnchecked unitOutside unitHost byteArgs = .ok full ∧
    buildUnchecked unitOutside unitHost { byteArgs with base := some "base.bin" } = .ok patch ∧
    buildBootloaderUnchecked unitOutside unitHost bootArgs = .ok boot ∧
    cmdBuild unitOutside unitHost byteArgs = .ok full ∧
    cmdBuild unitOutside unitHost { byteArgs with base := some "base.bin" } = .ok patch ∧
    cmdBuildBootloader unitOutside unitHost bootArgs = .ok boot := by
  obtain ⟨happ, hloader⟩ := cmdBuild_unchecked unitOutside Crypto.plain_acceptsSigned unitHost
  obtain ⟨full, hfull⟩ := @exists_ok _ (buildUnchecked unitOutside unitHost byteArgs)
    (by decide +kernel)
  obtain ⟨patch, hpatch⟩ := @exists_ok _
    (buildUnchecked unitOutside unitHost { byteArgs with base := some "base.bin" })
    (by decide +kernel)
  obtain ⟨boot, hboot⟩ := boot_written
  exact ⟨full, patch, boot, hfull, hpatch, hboot, (happ _).trans hfull, (happ _).trans hpatch,
    (hloader _).trans hboot⟩

inductive Packaging
  | app (args : BuildArgs)
  | bootloader (args : BuildBootloaderArgs)

namespace Packaging

def run (w : Outside) (host : Host) : Packaging → Run Wrote
  | app args => cmdBuild w host args
  | bootloader args => cmdBuildBootloader w host args

def Signs (keyFile : String) : Packaging → Prop
  | app args => args.sign = some keyFile
  | bootloader args => args.sign = keyFile

end Packaging

def release (w : Outside) : Host → List Packaging → Run (Host × List String)
  | host, [] => .ok (host, [])
  | host, packaging :: rest => do
    let wrote ← packaging.run w host
    let (host, paths) ← release w wrote.host rest
    .ok (host, wrote.path :: paths)

section Writing

variable {w : Outside} {host host' : Host} {path : String} {bytes : Bytes} {built : Built}
  {seed : Octets 32} {keyFile : String}

structure Keeps (host host' : Host) (files : List String) : Prop where
  file : host'.file = host.file
  refuses : host'.refuses = host.refuses
  read : ∀ path, host.file path ∉ files.map host.file → host'.read path = host.read path

theorem mapError_eq_ok {ε ε' α : Type} {f : ε → ε'} {x : Except ε α} {a : α} :
    x.mapError f = .ok a ↔ x = .ok a := by
  cases x <;> simp [Except.mapError]

theorem Host.write_ok (h : host.write path bytes = .ok host') :
    Keeps host host' [path] ∧ host'.read path = .ok bytes := by
  unfold Host.write at h
  split at h
  · cases h
  · cases h
    refine ⟨⟨rfl, rfl, fun other hother => ?_⟩, Function.update_self _ _ _⟩
    exact Function.update_of_ne (by simpa using hother) _ _

theorem writeOut_ok {out : Option String} {outDir : String}
    (h : writeOut host out outDir built = .ok (host', path)) :
    Keeps host host' [path] ∧ host'.read path = .ok built.bytes := by
  simp only [writeOut, bind_eq_ok, context_eq_ok, mapError_eq_ok, Except.ok.injEq,
    Prod.mk.injEq] at h
  obtain ⟨written, hwrite, rfl, rfl⟩ := h
  obtain ⟨hkeeps, hread⟩ := Host.write_ok hwrite
  exact ⟨⟨hkeeps.file, hkeeps.refuses, hkeeps.read⟩, hread⟩

theorem signed_trusted (hread : host.read path = .ok built.bytes)
    (hparsed : Manifest.parse w.crypto built.bytes = .ok built.manifest)
    (hverified : Verified w.crypto built.bytes built.manifest)
    (hsigned : built.manifest.isSigned = true)
    (hsigner : built.manifest.signer = w.crypto.publicFromSeed seed) :
    ∃ m, Trusted w host (some (w.crypto.publicFromSeed seed)) path built.bytes m := by
  refine ⟨built.manifest, hread, hparsed, hverified, fun key hkey => ?_⟩
  obtain rfl := Option.some.inj hkey
  exact ⟨hsigned, hsigner, by rw [← hsigner]; exact hverified.signature hsigned⟩

theorem buildOpts_signSeed {args : BuildArgs} {opts : BuildOpts}
    (h : buildOpts w host args = .ok opts) (hsign : args.sign = some keyFile)
    (hseed : loadKey32 host keyFile = .ok seed) : opts.signSeed = some seed := by
  have hload : args.sign.mapM (loadKey32 host) = .ok (some seed) := by
    rw [hsign, Option.mapM_some, hseed]
    rfl
  simp only [buildOpts, bind_eq_ok, Except.ok.injEq] at h
  obtain ⟨-, -, -, -, -, -, -, -, loaded, hloaded, -, -, rfl⟩ := h
  exact Except.ok.inj (hloaded.symm.trans hload)

theorem Packaging.run_ok (hc : w.crypto.AcceptsSigned) {packaging : Packaging} {wrote : Wrote}
    (hsigns : packaging.Signs keyFile) (hseed : loadKey32 host keyFile = .ok seed)
    (h : packaging.run w host = .ok wrote) : Keeps host wrote.host [wrote.path] ∧
      ∃ blob m, Trusted w wrote.host (some (w.crypto.publicFromSeed seed)) wrote.path blob m := by
  cases packaging with
  | app args =>
    simp only [Packaging.run, cmdBuild, bind_eq_ok] at h
    obtain ⟨opts, hopts, built, hbuild, -, -, ⟨host', path⟩, hout, h⟩ := h
    cases h
    obtain ⟨hkeeps, hread⟩ := writeOut_ok hout
    obtain ⟨ident, image, delta, root, hassembled⟩ := build_assembled hbuild
    obtain ⟨hmanifest, -, hverified⟩ := hassembled.sealed hc
    have hsign := buildOpts_signSeed hopts hsigns hseed
    refine ⟨hkeeps, built.bytes, signed_trusted hread hassembled.parse hverified ?_ ?_⟩
    · rw [hmanifest, appManifest_isSigned, hsign]
      rfl
    · rw [hmanifest]
      exact congrArg (fun s => (s.map w.crypto.publicFromSeed).getD (Octets.zero 32)) hsign
  | bootloader args =>
    simp only [Packaging.run, cmdBuildBootloader, bind_eq_ok, context_eq_ok] at h
    obtain ⟨image, -, seed', hseed', built, hbuild, -, -, -, -, ⟨host', path⟩, hout, h⟩ := h
    obtain ⟨payload, -, identity, -, h⟩ := h
    cases h
    cases hsigns
    obtain rfl := Except.ok.inj (hseed'.symm.trans hseed)
    obtain ⟨hkeeps, hread⟩ := writeOut_ok hout
    obtain ⟨-, ⟨targetId, hwId, version, root, hmanifest⟩, -, hverified⟩ :=
      buildBootloader_sealed hc hbuild
    refine ⟨hkeeps, built.bytes, signed_trusted hread (buildBootloader_parse hbuild) hverified
      ?_ ?_⟩
    · have hsigned : (MFLAG_FULL ||| MFLAG_SIGNED ||| MFLAG_BOOTLOADER) &&& MFLAG_SIGNED != 0 := by
        decide
      rw [hmanifest]
      exact hsigned
    · rw [hmanifest]
      rfl

theorem Keeps.trans {host'' : Host} {files more : List String} (h : Keeps host host' files)
    (hmore : Keeps host' host'' more) : Keeps host host'' (files ++ more) := by
  refine ⟨hmore.file.trans h.file, hmore.refuses.trans h.refuses, fun path hpath => ?_⟩
  rw [List.map_append, List.mem_append, not_or] at hpath
  rw [hmore.read path (by rw [h.file]; exact hpath.2), h.read path hpath.1]

theorem Keeps.loads {files : List String} (h : Keeps host host' files)
    (hfile : host.file keyFile ∉ files.map host.file) :
    loadKey32 host' keyFile = loadKey32 host keyFile := by
  rw [loadKey32, loadKey32, h.read keyFile hfile]

theorem Keeps.trusted {files : List String} {want : Option (Octets 32)} {blob : Bytes}
    {m : Manifest} (h : Keeps host host' files) (hfile : host.file path ∉ files.map host.file)
    (htrusted : Trusted w host want path blob m) : Trusted w host' want path blob m :=
  { htrusted with read := (h.read path hfile).trans htrusted.read }

/-- No build command touches the key file or what another has written. -/
theorem release_ok (hc : w.crypto.AcceptsSigned) {packagings : List Packaging}
    {paths : List String} (hsigns : ∀ packaging ∈ packagings, packaging.Signs keyFile)
    (hseed : loadKey32 host keyFile = .ok seed)
    (h : release w host packagings = .ok (host', paths))
    (hdistinct : (host.file keyFile :: paths.map host.file).Nodup) :
    Keeps host host' paths ∧ paths.length = packagings.length ∧ ∀ path ∈ paths, ∃ blob m,
      Trusted w host' (some (w.crypto.publicFromSeed seed)) path blob m := by
  induction packagings generalizing host paths with
  | nil =>
    cases h
    exact ⟨⟨rfl, rfl, fun _ _ => rfl⟩, rfl, by simp⟩
  | cons packaging packagings ih =>
    obtain ⟨hhead, htail⟩ := List.forall_mem_cons.mp hsigns
    simp only [release, bind_eq_ok] at h
    obtain ⟨wrote, hwrote, ⟨last, rest⟩, hrest, h⟩ := h
    cases h
    obtain ⟨hkeeps, blob, m, htrusted⟩ := Packaging.run_ok hc hhead hseed hwrote
    rw [List.map_cons, List.nodup_cons, List.mem_cons, not_or, List.nodup_cons] at hdistinct
    obtain ⟨⟨hkey, hkeys⟩, hpath, hpaths⟩ := hdistinct
    have hload : loadKey32 wrote.host keyFile = .ok seed := by
      rw [hkeeps.loads (by simpa using hkey), hseed]
    obtain ⟨hmore, hlength, hothers⟩ := ih htail hload hrest (by
      rw [hkeeps.file]
      exact List.nodup_cons.mpr ⟨hkeys, hpaths⟩)
    refine ⟨hkeeps.trans hmore, by rw [List.length_cons, List.length_cons, hlength], ?_⟩
    rw [List.forall_mem_cons]
    exact ⟨⟨blob, m, hmore.trusted (by rwa [hkeeps.file]) htrusted⟩, hothers⟩

theorem cmdKeygen_ok {printed : List String}
    (h : cmdKeygen w.crypto host seed (some keyFile) = .ok (host', printed))
    (hfile : host.file keyFile ≠ host.file s!"{keyFile}.pub") :
    Keeps host host' [keyFile, s!"{keyFile}.pub"] ∧ loadKey32 host' keyFile = .ok seed ∧
      loadKey32 host' s!"{keyFile}.pub" = .ok (w.crypto.publicFromSeed seed) := by
  simp only [cmdKeygen, bind_eq_ok, context_eq_ok, mapError_eq_ok, Except.ok.injEq,
    Prod.mk.injEq] at h
  obtain ⟨first, hfirst, second, hsecond, rfl, -⟩ := h
  obtain ⟨hkeepFirst, hseed⟩ := Host.write_ok hfirst
  obtain ⟨hkeepSecond, hpub⟩ := Host.write_ok hsecond
  have hkept : second.read keyFile = first.read keyFile :=
    hkeepSecond.read keyFile (by simpa [hkeepFirst.file] using hfile)
  refine ⟨hkeepFirst.trans hkeepSecond, ?_, ?_⟩
  · exact loadKey32_ok.mpr ⟨_, hkept.trans hseed, .inl (hexText_keyLine seed)⟩
  · exact loadKey32_ok.mpr ⟨_, hpub, .inl (hexText_keyLine _)⟩

theorem Trusted.unique {key other : Octets 32} {blob blob' : Bytes} {m m' : Manifest}
    (h : Trusted w host (some key) path blob m)
    (hother : Trusted w host (some other) path blob' m') : key = other := by
  obtain rfl := Except.ok.inj (h.read.symm.trans hother.read)
  obtain rfl := Except.ok.inj (h.parsed.symm.trans hother.parsed)
  exact (h.key key rfl).2.1.symm.trans (hother.key other rfl).2.1

end Writing

/-- The packages that a run of build commands signs and writes, each to a file of its own, pass
`verify` together under the key that `keygen` wrote for it, and under no other. -/
theorem release_verifies (w : Outside) (hc : w.crypto.AcceptsSigned) (host host₁ host₂ : Host)
    (seed : Octets 32) (keyFile : String) (printed : List String)
    (hkeys : cmdKeygen w.crypto host seed (some keyFile) = .ok (host₁, printed))
    (packagings : List Packaging) (paths : List String)
    (hsigns : ∀ packaging ∈ packagings, packaging.Signs keyFile) (hne : packagings ≠ [])
    (hrun : release w host₁ packagings = .ok (host₂, paths))
    (hdistinct : (host.file keyFile :: host.file s!"{keyFile}.pub" :: paths.map host.file).Nodup)
    (hcount : paths.length < 2 ^ 32) :
    loadKey32 host₂ s!"{keyFile}.pub" = .ok (w.crypto.publicFromSeed seed) ∧
    ∀ pubFile key, loadKey32 host₂ pubFile = .ok key → ∃ out success,
      cmdVerify w host₂ ⟨paths, some pubFile⟩ = .ok ⟨out, [], success⟩ ∧
      List.Forall₂ (Reports w host₂ (some key)) paths out ∧
      (success = true ↔ key = w.crypto.publicFromSeed seed) := by
  simp only [List.nodup_cons, List.mem_cons, not_or] at hdistinct
  obtain ⟨⟨hkey, hseedFile⟩, hpubFile, hpaths⟩ := hdistinct
  obtain ⟨hkeyed, hseed, hpub⟩ := cmdKeygen_ok hkeys hkey
  have hfile := hkeyed.file
  obtain ⟨hkeeps, hlength, htrusted⟩ := release_ok hc hsigns hseed hrun
    (by rw [hfile]; exact List.nodup_cons.mpr ⟨hseedFile, hpaths⟩)
  refine ⟨by rw [hkeeps.loads (by rwa [hfile]), hpub], fun pubFile key hload => ?_⟩
  have hwant : (some pubFile).mapM (loadKey32 host₂) = .ok (some key) := by
    rw [Option.mapM_some, hload]
    rfl
  obtain ⟨out, success, hverify, hreports, hsuccess⟩ :=
    @cmdVerify_reports w host₂ (some key) ⟨paths, some pubFile⟩ hcount hwant
  refine ⟨out, success, hverify, hreports, hsuccess.trans ⟨fun hall => ?_, ?_⟩⟩
  · obtain ⟨path, hpath⟩ : ∃ path, path ∈ paths := by
      apply List.exists_mem_of_length_pos
      rw [hlength]
      exact List.length_pos_of_ne_nil hne
    obtain ⟨blob, m, hunder⟩ := hall path hpath
    obtain ⟨blob', m', hsigned⟩ := htrusted path hpath
    exact hunder.unique hsigned
  · rintro rfl
    exact htrusted

theorem byteArgs_opts {host : Host} {seed : Octets 32} (hkeeps : host.read "fw.bin" = .ok [1])
    (hseed : loadKey32 host "key" = .ok seed) :
    buildOpts offline host byteArgs = .ok { byteOpts with signSeed := some seed } := by
  have hurl : isUrl "fw.bin" = false := by decide
  have hhex : isHexName "fw.bin" = false := by decide
  have hfw : readInput offline host "fw.bin" = .ok [1] := by
    simp only [readInput, readRawInput, hurl, hhex, hkeeps]
    rfl
  have hload : (some "key").mapM (loadKey32 host) = .ok (some seed) := by
    rw [Option.mapM_some, hseed]
    rfl
  simp only [buildOpts, byteArgs, hfw, hload, ok_bind]
  rfl

theorem release_byte : ∃ host₁ printed host₂,
    cmdKeygen offline.crypto byteHost (Octets.zero 32) (some "key") = .ok (host₁, printed) ∧
      release offline host₁ [.app byteArgs] = .ok (host₂, ["fw.mota"]) := by
  obtain ⟨⟨host₁, printed⟩, hkeys⟩ := @exists_ok _
    (cmdKeygen offline.crypto byteHost (Octets.zero 32) (some "key")) rfl
  obtain ⟨built, hbuild⟩ := @exists_ok _
    (build Crypto.plain noEscapes { byteOpts with signSeed := some (Octets.zero 32) })
    (by decide +kernel)
  obtain ⟨hkeyed, hseed, -⟩ := cmdKeygen_ok hkeys (by decide +kernel)
  have hfw : host₁.read "fw.bin" = .ok [1] := hkeyed.read "fw.bin" (by decide +kernel)
  obtain ⟨host₂, hout⟩ := @writeOut_accepted host₁ "fw.mota" "." built (by
    rw [hkeyed.refuses]
    exact fun _ _ => rfl)
  have hcheck := @build_selfCheck offline built ".mota" Crypto.plain_acceptsSigned _ hbuild
  have hwrote : cmdBuild offline host₁ byteArgs =
      .ok ⟨host₂, "fw.mota", buildLines byteArgs built "fw.mota"⟩ := by
    rw [cmdBuild, byteArgs_opts hfw hseed, ok_bind, show offline.crypto = Crypto.plain from rfl,
      show offline.escaped = noEscapes from rfl, hbuild, ok_bind, hcheck, ok_bind]
    exact bind_eq_ok.mpr ⟨_, hout, rfl⟩
  refine ⟨host₁, printed, host₂, hkeys, ?_⟩
  rw [release, Packaging.run, hwrote]
  rfl

theorem release_verifies_byte : ∃ host₁ printed host₂ paths out,
    cmdKeygen offline.crypto byteHost (Octets.zero 32) (some "key") = .ok (host₁, printed) ∧
    release offline host₁ [.app byteArgs] = .ok (host₂, paths) ∧
    cmdVerify offline host₂ ⟨paths, some "key.pub"⟩ = .ok ⟨out, [], true⟩ := by
  obtain ⟨host₁, printed, host₂, hkeys, hrelease⟩ := release_byte
  obtain ⟨hpub, hverify⟩ := release_verifies offline Crypto.plain_acceptsSigned byteHost host₁
    host₂ (Octets.zero 32) "key" printed hkeys [.app byteArgs] ["fw.mota"]
    (by simp [Packaging.Signs, byteArgs]) (by simp) hrelease (by decide +kernel) (by simp)
  obtain ⟨out, success, hrun, -, hsuccess⟩ := hverify _ _ hpub
  rw [hsuccess.mpr rfl] at hrun
  exact ⟨host₁, printed, host₂, ["fw.mota"], out, hkeys, hrelease, hrun⟩

end MotaTool.Cli
