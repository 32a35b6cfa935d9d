import MotaTool.Bootloader.Region
import MotaTool.Build.NameSpec
import MotaTool.Cli.Labels
import MotaTool.Cli.Options
import MotaTool.Input
import MotaTool.Serve.Folder

/-!
# Commands

A build command reads its inputs, builds a package, verifies what it built and
writes it. `verify` prints a line for every file and fails if one of them is
bad. What comes from outside the program is a parameter.
-/

namespace MotaTool.Cli

open Base Run Format Encode Build Bootloader Serve

structure Outside where
  crypto : Crypto
  fetch : String → Except (List String) Bytes
  reader : IntelHex.Reader
  envName : UInt32 → Option String
  escaped : Char → Bool

def isUrl (s : String) : Bool :=
  "http://".toList.isPrefixOf s.toList || "https://".toList.isPrefixOf s.toList

section Inputs

variable (w : Outside) (host : Host)

def readRawInput (src : String) : Run Bytes := do
  let raw ←
    if isUrl src then context s!"downloading {src}" ((w.fetch src).mapError Fault.error)
    else context s!"cannot read file: {src}" ((host.read src).mapError fun cause => .error [cause])
  ensure (raw ≠ []) s!"input is empty: {src}"
  .ok raw

def isHexName (src : String) : Bool := ".hex".toList.isSuffixOf (src.toList.map Char.toLower)

def readInput (src : String) : Run Bytes := do
  let raw ← readRawInput w host src
  if isHexName src then
    context s!"parsing Intel HEX: {src}" (Input.parseIntelHex w.reader raw)
  else .ok raw

def readBootloaderHex (src : String) : Run Bytes := do
  let raw ← readRawInput w host src
  context s!"extracting OTAFIX bootloader region from Intel HEX: {src}"
    (extractBootloaderRegionFromHex w.reader raw)

end Inputs

def targetIdForEnv (c : Crypto) (env : String) : UInt32 :=
  UInt32.ofNat (ofLe (c.mh4 (utf8 env)).val)

/-- The seed is the randomness that is drawn. -/
def cmdKeygen (c : Crypto) (host : Host) (seed : Octets 32) (out : Option String) :
    Run (Host × List String) :=
  let pub := c.publicFromSeed seed
  let pubLine := s!"pubkey: {hexBytes pub.val}"
  match out with
  | none => .ok (host, [pubLine])
  | some out => do
    let host ← context s!"writing {out}"
      ((host.write out (keyLine seed)).mapError fun cause => .error [cause])
    let host ← context s!"writing {out}.pub"
      ((host.write s!"{out}.pub" (keyLine pub)).mapError fun cause => .error [cause])
    .ok (host, [s!"private -> {out}", s!"public  -> {out}.pub", pubLine])

structure BuildArgs where
  fw : String
  base : Option String
  patchType : PatchType
  inplaceMemory : Option String
  segmentSize : UInt32
  targetEnv : Option String
  targetId : Option String
  fwVersion : Option String
  hwId : Option String
  sign : Option String
  blockSize : UInt32
  force : Bool
  outDir : String
  out : Option String

structure BuildBootloaderArgs where
  fw : String
  board : CliBootloaderBoard
  sign : String
  fwVersion : Option String
  outDir : String
  out : Option String

structure Wrote where
  host : Host
  path : String
  out : List String

section Building

variable (w : Outside) (host : Host)

def resolveTargetId (targetId targetEnv : Option String) : Run (Option UInt32) :=
  match targetId, targetEnv with
  | some id, _ => do
    let id ← context "--target-id" (parseU32Auto w.escaped id)
    .ok (some id)
  | none, some env => .ok (some (targetIdForEnv w.crypto env))
  | none, none => .ok none

def buildOpts (a : BuildArgs) : Run BuildOpts := do
  let fw ← readInput w host a.fw
  let base ← a.base.mapM (readInput w host)
  let targetId ← resolveTargetId w a.targetId a.targetEnv
  let fwVersion ← a.fwVersion.mapM (packVersion w.escaped)
  let signSeed ← a.sign.mapM (loadKey32 host)
  let inplaceMemory ← context "--inplace-memory" (a.inplaceMemory.mapM (parseU32Auto w.escaped))
  .ok ⟨fw, base, a.patchType, inplaceMemory, a.segmentSize, targetId, fwVersion, a.hwId, signSeed,
    a.blockSize, a.force⟩

def selfCheck (what : String) (built : Built) : Run Unit := do
  let problems ← verify w.crypto built.bytes
  ensure (problems = [])
    (s!"internal error: built {what} fails verification: " ++ "; ".intercalate problems)

def writeOut (out : Option String) (outDir : String) (built : Built) : Run (Host × String) := do
  let host := host.createDirAll (out.elim (.directory outDir) .parentOf)
  let path := String.ofList (outPath out outDir built)
  let host ← context s!"cannot write {path}"
    ((host.write path built.bytes).mapError fun cause => .error [cause])
  .ok (host, path)

def hwLabel (m : Manifest) : String := if m.hwIdStr.isEmpty then "?" else m.hwIdStr

def signedLabel (m : Manifest) : String := if m.isSigned then "signed" else "unsigned"

def buildLines (a : BuildArgs) (built : Built) (path : String) : List String :=
  let m := built.manifest
  [s!"wrote {path}",
    s!"  {kindLabel m}  target={hexPadded 8 m.targetId.toNat}  v{versionStr m.fwVersion}  " ++
      s!"hw={hwLabel m}  {signedLabel m}",
    s!"  image={m.imageSize}B  payload={m.payloadSize}B  blocks={m.blockCount}  " ++
      s!"total={built.bytes.length}B"] ++
  match built.inplaceMemory with
  | none => []
  | some memory => [s!"  in-place memory=0x{hex32 memory}  segment={a.segmentSize}B"]

def cmdBuild (a : BuildArgs) : Run Wrote := do
  let opts ← buildOpts w host a
  let built ← build w.crypto w.escaped opts
  selfCheck w ".mota" built
  let (host, path) ← writeOut host a.out a.outDir built
  .ok ⟨host, path, buildLines a built path⟩

def assertVersion (fwVersion : Option String) (m : Manifest) : Run Unit :=
  match fwVersion with
  | none => .ok ()
  | some text => do
    let asserted ← context "--fw-version" (packVersion w.escaped text)
    ensure (asserted = m.fwVersion)
      (s!"--fw-version {bootloaderVersionStr asserted} does not match embedded bootloader " ++
        s!"version {bootloaderVersionStr m.fwVersion}")

def bootloaderLines (board : BootloaderBoard) (profile : UInt8) (built : Built) (path : String)
    (identity : BootloaderIdentity) : List String :=
  let m := built.manifest
  let platform := identity.platform
  let imageEnd := IMAGE_START + UInt32.ofNat IMAGE_SIZE
  [s!"wrote {path}",
    s!"  bootloader  board={(board.profileName profile).getD board.name}  " ++
      s!"target={hexPadded 8 m.targetId.toNat}  v{bootloaderVersionStr m.fwVersion}  signed",
    s!"  region=0x{hexPadded 8 IMAGE_START.toNat}..0x{hexPadded 8 imageEnd.toNat}  " ++
      s!"image={m.imageSize}B  blocks={m.blockCount}  total={built.bytes.length}B",
    s!"  continuity=S{platform.softdeviceFamily} " ++
      s!"FWID=0x{hexPadded 4 platform.softdeviceFwid.toNat} " ++
      s!"app_base=0x{hexPadded 8 platform.appBase.toNat} layout_abi={platform.layoutAbi}"]

def cmdBuildBootloader (a : BuildBootloaderArgs) : Run Wrote := do
  let (board, storageProfile) := a.board.profile
  let image ← readBootloaderHex w host a.fw
  let signSeed ← context "--sign" (loadKey32 host a.sign)
  let built ← buildBootloader w.crypto w.envName ⟨image, board, storageProfile, signSeed⟩
  assertVersion w a.fwVersion built.manifest
  selfCheck w "bootloader .mota" built
  let (host, path) ← writeOut host a.out a.outDir built
  let m := built.manifest
  let payload ← slice built.bytes m.payloadOff (m.payloadOff + m.payloadSize.toNat)
  let identity ← validateBootloaderImage w.crypto payload m.targetId m.hwId m.fwVersion
  .ok ⟨host, path, bootloaderLines board storageProfile built path identity⟩

end Building

structure VerifyArgs where
  files : List String
  pubKey : Option String

structure Outcome where
  out : List String
  err : List String
  success : Bool

section Verifying

variable (w : Outside) (host : Host)

/-- `Result::ok`: an error counts as nothing, a panic is one. -/
def attempt {α : Type} (x : Run α) : Run (Option α) :=
  match x with
  | .ok a => .ok (some a)
  | .error (.error _) => .ok none
  | .error fault => .error fault

def keyProblems (want : Option (Octets 32)) (parsed : Option Manifest) : List String :=
  match parsed, want with
  | some m, some key =>
    if m.isSigned = false then ["not signed (but --pub was given)"]
    else problem (m.signer ≠ key) "signed by a different key than --pub"
  | _, _ => []

def okLine (file : String) (m : Manifest) (label : String) (size : ℕ) : String :=
  s!"OK    {file} : {kindLabel m} target={hexPadded 8 m.targetId.toNat} [{label}] " ++
    s!"v{packageVersionStr m} hw={hwLabel m} {signedLabel m} blocks={m.blockCount} size={size}"

def failLine (file : String) (problems : List String) : String :=
  s!"FAIL  {file} :" ++ String.join (problems.map fun p => s!" [{p}]")

def verifyFile (want : Option (Octets 32)) (file : String) : Run (Bool × String) :=
  match host.read file with
  | .error _ => .ok (false, s!"FAIL  {file} : cannot read")
  | .ok blob => do
    let found ← verify w.crypto blob
    let parsed ← attempt (Manifest.parse w.crypto blob)
    match parsed, found ++ keyProblems want parsed with
    | some m, [] => do
      let label ← packageTargetLabel w.crypto w.envName m blob
      .ok (true, okLine file m label blob.length)
    | _, problems => .ok (false, failLine file problems)

def verifyStep (want : Option (Octets 32)) (state : List String × ℕ) (file : String) :
    Run (List String × ℕ) := do
  let (good, line) ← verifyFile w host want file
  let bad ← if good then .ok state.2 else unwrap (checkedAdd 32 state.2 1)
  .ok (state.1 ++ [line], bad)

def cmdVerify (a : VerifyArgs) : Run Outcome :=
  match a.pubKey.mapM (loadKey32 host) with
  | .error (.error chain) => .ok ⟨[], ["error: " ++ ": ".intercalate chain], false⟩
  | .error fault => .error fault
  | .ok want => do
    let (out, bad) ← a.files.foldlM (verifyStep w host want) ([], 0)
    .ok ⟨out, [], bad == 0⟩

end Verifying

end MotaTool.Cli
