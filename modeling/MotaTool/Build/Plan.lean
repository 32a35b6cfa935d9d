import MotaTool.Encode.InPlaceSpec
import MotaTool.Endf

/-!
# Planning an in-place package

The planner picks the memory window of an in-place delta from the layout
records of the base and the target, an explicit override, or the legacy
default, and checks it against the flash the device has. The staged container
is checked separately once its length is known.
-/

namespace MotaTool.Build

open Base Run Format Endf Encode

structure BuildOpts where
  fw : Bytes
  base : Option Bytes
  patchType : PatchType
  inplaceMemory : Option UInt32
  segmentSize : UInt32
  targetId : Option UInt32
  fwVersion : Option UInt32
  hwId : Option String
  signSeed : Option (Octets 32)
  blockSize : UInt32
  force : Bool

structure InplacePlan where
  memory : UInt32
  baseLayout : Option Nrf52Layout
  legacyAuto : Bool

/-- `try_from(..).context(text)`; the text of the conversion's own error is left out. -/
def tryFrom (bits n : ℕ) (text : String) : Run ℕ :=
  ofOption (if n < 2 ^ bits then some n else none) text

def alignSegment (seg n : ℕ) : Run ℕ := do
  let n ← tryFrom 64 n "firmware image length does not fit u64"
  ofOption ((checkedAdd 64 n (seg - 1)).map fun v => v / seg * seg)
    "in-place memory calculation overflow"

def minimumInplaceMemory (baseLen targetLen : ℕ) (segment : UInt32) : Run UInt32 := do
  ensure (segment ≠ 0) "in-place: --segment-size must be non-zero"
  let seg := segment.toNat
  let aligned ← alignSegment seg baseLen
  let base ← ofOption (checkedAdd 64 aligned (2 * seg))
    "in-place base/shift memory calculation overflow"
  let target ← alignSegment seg targetLen
  let memory ← tryFrom 32 (max base target) "required in-place memory exceeds 32 bits"
  .ok (UInt32.ofNat memory)

def imageFitsLayout (which : String) (imageLen : ℕ) (layout : Nrf52Layout) : Run Unit := do
  let ceiling := min layout.linkedAppEnd.toNat layout.stageCeiling.toNat
  let capacity ← ofOption (checkedSub ceiling layout.appBase.toNat) "invalid nRF52 image layout"
  ensure (imageLen ≤ capacity)
    (s!"{which} image is {imageLen} bytes but its authenticated nRF52 layout permits only " ++
      s!"{capacity} bytes")

def imageFitsRecord (which : String) (imageLen : ℕ) (record : Option Nrf52Layout) : Run Unit :=
  match record with
  | some layout => imageFitsLayout which imageLen layout
  | none => .ok ()

def sameAppBase : Option Nrf52Layout → Option Nrf52Layout → Run Unit
  | some base, some target =>
    ensure (base.appBase = target.appBase)
      (s!"in-place: base app address 0x{hex32 base.appBase} != target app address " ++
        s!"0x{hex32 target.appBase}; refusing a cross-SoftDevice layout")
  | _, _ => .ok ()

def segmentMatchesLayout (o : BuildOpts) (baseLayout : Option Nrf52Layout) : Run Unit :=
  if baseLayout.isSome then
    ensure (o.segmentSize = NRF52_INPLACE_SEGMENT)
      ("in-place: an authenticated nRF52 base layout requires --segment-size " ++
        s!"{NRF52_INPLACE_SEGMENT.toNat}")
  else .ok ()

def chooseMemory (o : BuildOpts) (layoutAuto : Bool) (minimum : UInt32) : UInt32 × Bool :=
  match o.inplaceMemory with
  | some memory => (memory, false)
  | none => if layoutAuto then (minimum, false) else (NRF52_FALLBACK_INPLACE_MEMORY, true)

def tooSmall (memory minimum : UInt32) (baseLen targetLen : ℕ) (legacyAuto : Bool) : String :=
  if legacyAuto then
    s!"in-place: legacy default memory 0x{hex32 memory} is too small for base={baseLen}B " ++
      s!"target={targetLen}B; at least 0x{hex32 minimum} is required. Build both images with " ++
      "an authenticated mOTALay1 record for automatic sizing, or pass --inplace-memory " ++
      s!"0x{hex32 minimum} only after verifying the installed bootloader/storage ceiling"
  else
    s!"in-place: --inplace-memory 0x{hex32 memory} is too small for base={baseLen}B " ++
      s!"target={targetLen}B; at least 0x{hex32 minimum} is required"

def legacySegment (o : BuildOpts) (legacyAuto : Bool) : Run Unit :=
  if legacyAuto then
    ensure (o.segmentSize = NRF52_INPLACE_SEGMENT)
      (s!"in-place: legacy automatic sizing requires --segment-size {NRF52_INPLACE_SEGMENT.toNat}"
        ++ "; use an explicit --inplace-memory only for a separately verified custom layout")
  else .ok ()

def workspaceSpan (layout : Nrf52Layout) (applySpan : ℕ) : Run ℕ :=
  if layout.externalBacked then .ok applySpan
  else ofOption (checkedSub layout.stageCeiling.toNat layout.appBase.toNat)
    "invalid nRF52 internal staging workspace"

def fitsWorkspace (memory : UInt32) (targetLen : ℕ) : Option Nrf52Layout → Run Unit
  | none => .ok ()
  | some layout => do
    let applySpan ← ofOption (checkedSub layout.applicationCeiling.toNat layout.appBase.toNat)
      "invalid nRF52 application workspace"
    let span ← workspaceSpan layout applySpan
    ensure (memory.toNat ≤ span)
      (s!"in-place: memory 0x{hex32 memory} exceeds authenticated nRF52 workspace " ++
        s!"0x{hexUpper span}")
    ensure (targetLen ≤ applySpan)
      (s!"in-place: target image is {targetLen} bytes but the running layout's application " ++
        s!"workspace is {applySpan} bytes")

def planInplace (c : Crypto) (o : BuildOpts) (baseImage targetImage : Bytes) :
    Run InplacePlan := do
  ensure (o.segmentSize ≠ 0) "in-place: --segment-size must be non-zero"
  let baseLayout ← context "base nRF52 layout record" (parseNrf52Layout c baseImage)
  let targetLayout ← context "target nRF52 layout record" (parseNrf52Layout c targetImage)
  imageFitsRecord "base" baseImage.length baseLayout
  imageFitsRecord "target" targetImage.length targetLayout
  sameAppBase baseLayout targetLayout
  segmentMatchesLayout o baseLayout
  let minimum ← minimumInplaceMemory baseImage.length targetImage.length o.segmentSize
  let layoutAuto := baseLayout.isSome && targetLayout.isSome
  let (memory, legacyAuto) := chooseMemory o layoutAuto minimum
  ensure (memory ≠ 0 ∧ memory % o.segmentSize = 0)
    (s!"in-place: --inplace-memory ({memory.toNat}) must be a non-zero multiple of " ++
      s!"--segment-size ({o.segmentSize.toNat})")
  ensure (¬ memory < minimum)
    (tooSmall memory minimum baseImage.length targetImage.length legacyAuto)
  legacySegment o legacyAuto
  fitsWorkspace memory targetImage.length baseLayout
  .ok ⟨memory, baseLayout, legacyAuto⟩

def pageRoundUp (value : ℕ) : Run ℕ :=
  ofOption ((checkedAdd 64 value (NRF52_INPLACE_SEGMENT.toNat - 1)).map fun v =>
    v / NRF52_INPLACE_SEGMENT.toNat * NRF52_INPLACE_SEGMENT.toNat)
    "staged container size overflow"

/-- The flash a container takes when a suffix of it may be kept in retained memory. -/
def hybridCharge (total : ℕ) : Run ℕ := do
  let overflow := total - NRF52_HYBRID_RAM_SIZE
  let rounded ← pageRoundUp overflow
  let flashCharge := max rounded NRF52_INPLACE_SEGMENT.toNat
  ensure (flashCharge < total → total - flashCharge ≤ NRF52_HYBRID_RAM_SIZE)
    s!"in-place: hybrid RAM suffix exceeds {NRF52_HYBRID_RAM_SIZE} bytes"
  .ok flashCharge

def stagingSpan (plan : InplacePlan) : Run (Option ℕ) :=
  match plan.baseLayout with
  | some layout =>
    if layout.externalBacked then .ok none
    else do
      let span ← ofOption (checkedSub layout.stageCeiling.toNat layout.appBase.toNat)
        "invalid nRF52 staging span"
      .ok (some span)
  | none => .ok (if plan.legacyAuto then some NRF52_FALLBACK_FLASH_SPAN else none)

def stagedCharge (plan : InplacePlan) (total : ℕ) : Run ℕ :=
  if plan.baseLayout.any Nrf52Layout.hybridRam then hybridCharge total else pageRoundUp total

def validateStagingFit (plan : InplacePlan) (total : ℕ) : Run Unit := do
  let some span ← stagingSpan plan | .ok ()
  let total ← tryFrom 64 total ".mota length does not fit u64"
  let staged ← stagedCharge plan total
  let used ← ofOption (checkedAdd 64 plan.memory.toNat staged)
    "in-place workspace calculation overflow"
  ensure (used ≤ span)
    (s!"in-place: memory 0x{hex32 plan.memory} plus the {total}-byte container ({staged} bytes " ++
      s!"page-rounded) exceeds the authenticated staging span 0x{hexUpper span}")

end MotaTool.Build
