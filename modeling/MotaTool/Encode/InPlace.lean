import MotaTool.Base.Words
import MotaTool.Encode.Sequential

/-!
# In-place patches

`encodeInPlace` diffs every segment of the target against the part of the base
that is still intact when the device rewrites that segment. `decodeInPlace` is
the device: it shifts the base up, then rewrites its memory from the bottom,
one segment after another, reading base bytes out of the very memory it writes
to. A read or a write outside the memory has no result, and every read of a
base byte is logged together with the segment it served.
-/

namespace MotaTool.Encode

open Base Run

inductive PatchType
  | sequential
  | inPlace
  deriving DecidableEq, Repr

def calcShift (memorySize segmentSize minimumShift fromSize : ℕ) : ℕ :=
  let memorySegments := divCeil memorySize segmentSize
  let fromSegments := divCeil fromSize segmentSize
  let shiftSegments := memorySegments - fromSegments
  max (shiftSegments * segmentSize) minimumShift

def getFrom (v : Bytes) (start : ℕ) : Option Bytes :=
  if start ≤ v.length then some (v.drop start) else none

def encodeSegment (fromData new : Bytes) (seg shiftSize : ℕ) (segments : Bytes) (s : ℕ) :
    Run Bytes := do
  let toOffset := s * seg
  let fromOffset := toOffset + seg - shiftSize
  let segFrom := (getFrom fromData fromOffset).getD []
  let segTo ← slice new toOffset (min (toOffset + seg) new.length)
  bsdiff segFrom segTo (segments ++ packSize 0)

def inPlaceHeader (mem seg shiftSize fromSize toSize : ℕ) : Bytes :=
  [PATCH_TYPE_IN_PLACE <<< 4 ||| COMPRESSION_CRLE] ++ packSize mem ++ packSize seg ++
    packSize shiftSize ++ packSize fromSize ++ packSize toSize

def encodeInPlace (old new : Bytes) (mem seg : ℕ) : Run Bytes := do
  assert (0 < seg ∧ mem % seg = 0)
  let minimumShift := 2 * seg
  let shiftSize := calcShift mem seg minimumShift old.length
  let shiftedSize ← unwrap (checkedSub mem shiftSize)
  let fromData ← slice old 0 (min old.length shiftedSize)
  let nSeg := divCeil new.length seg
  let segments ← (List.range nSeg).foldlM (encodeSegment fromData new seg shiftSize) []
  let patch := inPlaceHeader mem seg shiftSize old.length new.length
  if new.isEmpty then .ok patch
  else do
    let compressed ← crleCompress segments
    .ok (patch ++ compressed)

structure Read where
  segment : ℕ
  address : ℕ
  value : UInt8

structure Device where
  cells : Bytes
  reads : List Read

/-- The registers of the decoder inside a segment. -/
structure Patching where
  device : Device
  target : ℕ
  cursor : ℤ
  stream : Bytes

def readBase (segment : ℕ) (p : Patching) : Option (UInt8 × Patching) :=
  if 0 ≤ p.cursor then do
    let b ← p.device.cells[p.cursor.toNat]?
    some (b, { p with
      device := ⟨p.device.cells, p.device.reads ++ [⟨segment, p.cursor.toNat, b⟩]⟩,
      cursor := p.cursor + 1 })
  else none

def writeByte (p : Patching) (b : UInt8) : Option Patching :=
  if p.target < p.device.cells.length then
    some { p with
      device := ⟨p.device.cells.set p.target b, p.device.reads⟩, target := p.target + 1 }
  else none

def patchByte (segment : ℕ) (p : Patching) (d : UInt8) : Option Patching := do
  let (b, p) ← readBase segment p
  writeByte p (d + b)

def patchTriple (segment : ℕ) (p : Patching) : Option Patching := do
  let (diff, stream) ← readBlock p.stream
  let p ← diff.foldlM (patchByte segment) { p with stream := stream }
  let (extra, stream) ← readBlock p.stream
  let p ← extra.foldlM writeByte { p with stream := stream }
  let (seek, stream) ← unpackSize p.stream
  some { p with cursor := p.cursor + seek, stream := stream }

def patchTriples (segment stop : ℕ) : ℕ → Patching → Option Patching
  | 0, p => if p.target < stop then none else some p
  | fuel + 1, p =>
    if p.target < stop then patchTriple segment p >>= patchTriples segment stop fuel else some p

/-- Segment `s` starts with its data-format marker and fills its part of the target exactly. -/
def patchSegment (seg shiftSize toSize : ℕ) (state : Device × Bytes) (s : ℕ) :
    Option (Device × Bytes) := do
  let (format, stream) ← unpackSize state.2
  let stop := min ((s + 1) * seg) toSize
  let p ← patchTriples s stop stream.length
    ⟨state.1, s * seg, (shiftSize + ((s + 1) * seg - shiftSize) : ℕ), stream⟩
  if format = 0 ∧ p.target = stop then some (p.device, p.stream) else none

/-- Base byte `k` is copied to `shiftSize + k` as long as that address exists. -/
def shiftBase (memory : Bytes) (shiftSize fromSize : ℕ) : Bytes :=
  memory.take shiftSize ++ (memory.take fromSize).take (memory.length - shiftSize) ++
    memory.drop (shiftSize + fromSize)

def patchSegments (seg shiftSize toSize : ℕ) (device : Device) (stream : Bytes) :
    Option (Device × Bytes) :=
  (List.range (divCeil toSize seg)).foldlM (patchSegment seg shiftSize toSize) (device, stream)

def patchBody (seg shiftSize toSize : ℕ) (device : Device) (body : Bytes) : Option Device :=
  if toSize = 0 then if body = [] then some device else none
  else do
    let stream ← crleExpand body
    let (device, stream) ← patchSegments seg shiftSize toSize device stream
    if stream = [] then some device else none

def decodeInPlace (memory patch : Bytes) : Option Device :=
  match patch with
  | [] => none
  | header :: rest => do
    let (memorySize, rest) ← unpackSize rest
    let (seg, rest) ← unpackSize rest
    let (shiftSize, rest) ← unpackSize rest
    let (fromSize, rest) ← unpackSize rest
    let (toSize, rest) ← unpackSize rest
    if header = 0x12 ∧ memorySize = memory.length ∧ 0 < seg ∧ 0 ≤ shiftSize ∧
        0 ≤ fromSize ∧ 0 ≤ toSize then
      patchBody seg.toNat shiftSize.toNat toSize.toNat
        ⟨shiftBase memory shiftSize.toNat fromSize.toNat, []⟩ rest
    else none

end MotaTool.Encode
