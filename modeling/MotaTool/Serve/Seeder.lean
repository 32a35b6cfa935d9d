import MotaTool.Base.Path
import MotaTool.Verify

/-!
# The seeder core

Requests are a known opcode and its arguments; `handle` turns one into a
status and a payload. The read side serves the containers of a folder, which
are parsed and verified when they enter it. The storage side captures
containers in files. The file system and the compressors are parameters.
-/

namespace MotaTool.Serve

open Base Run Format

namespace seeder

def REQ_MAGIC : UInt8 × UInt8 := (0x4d, 0x53)
def RSP_MAGIC : Bytes := ascii ['m', 's']
def OP_COUNT : UInt8 := 0x01
def OP_DESCRIBE : UInt8 := 0x02
def OP_READ : UInt8 := 0x03
def OP_STAT : UInt8 := 0x04
def OP_BEGIN : UInt8 := 0x05
def OP_WRITE : UInt8 := 0x06
def OP_SREAD : UInt8 := 0x07
def OP_FIN : UInt8 := 0x08
def OP_DEFLATE_BLOCK : UInt8 := 0x09
def STATUS_OK : UInt8 := 0x00
def STATUS_ERR : UInt8 := 0x01
def SOURCE_CAP_DEFLATE_BLOCK : UInt8 := 0x01
def WRITE_MAX : ℕ := 512
def DEFLATE_READ_MAX : ℕ := 190

def requestHeaderLen (op : UInt8) : Option ℕ :=
  if op = OP_COUNT then some 0
  else if op = OP_DESCRIBE then some 1
  else if op = OP_READ ∨ op = OP_DEFLATE_BLOCK then some 7
  else if op = OP_STAT ∨ op = OP_FIN then some 4
  else if op = OP_BEGIN then some 8
  else if op = OP_SREAD ∨ op = OP_WRITE then some 10
  else none

theorem requestHeaderLen_isSome (op : UInt8) :
    (requestHeaderLen op).isSome = true ↔ 1 ≤ op ∧ op ≤ 9 := by
  have hall : ∀ n < 256, (requestHeaderLen (UInt8.ofNat n)).isSome = true ↔
      1 ≤ UInt8.ofNat n ∧ UInt8.ofNat n ≤ 9 := by decide +kernel
  have hop := hall op.toNat op.toNat_lt
  rwa [UInt8.ofNat_toNat] at hop

theorem known_cases {op : UInt8} (h : 1 ≤ op ∧ op ≤ 9) :
    op = OP_COUNT ∨ op = OP_DESCRIBE ∨ op = OP_READ ∨ op = OP_DEFLATE_BLOCK ∨
      (op = OP_STAT ∨ op = OP_BEGIN ∨ op = OP_WRITE ∨ op = OP_SREAD ∨ op = OP_FIN) := by
  simp only [UInt8.le_iff_toNat_le] at h
  simp only [← UInt8.toNat_inj, OP_COUNT, OP_DESCRIBE, OP_READ, OP_STAT, OP_BEGIN, OP_WRITE,
    OP_SREAD, OP_FIN, OP_DEFLATE_BLOCK] at h ⊢
  simp only [UInt8.reduceToNat] at h ⊢
  omega

end seeder

open seeder

abbrev Reply := UInt8 × Bytes

/-- What answers a request. It may change the state of type `σ`, and `none` leaves the request
unanswered. -/
abbrev Handler (σ : Type) := UInt8 → Bytes → σ → Run (Option Reply × σ)

structure Compressors where
  zopfliRaw : Bytes → ℕ → Option Bytes
  zlibBestRaw : Bytes → Option Bytes

def MAX_TRANSPORT_BLOCK_SIZE : ℕ := MAX_APPLICATION_BLOCK_SIZE
def ZOPFLI_ITERATIONS : ℕ := 1000

def shorter (best : Bytes) (candidate : Option Bytes) : Bytes :=
  match candidate with
  | some candidate => if candidate.length < best.length then candidate else best
  | none => best

def deflateRaw (z : Compressors) (input : Bytes) : Option Bytes :=
  (z.zopfliRaw input ZOPFLI_ITERATIONS).map fun best =>
    shorter ([15, 100].foldl (fun best iterations => shorter best (z.zopfliRaw input iterations))
      best) (z.zlibBestRaw input)

/-- A container in the folder: scanning keeps only those that verify. -/
structure ServedMota (c : Crypto) where
  bytes : Bytes
  manifest : Manifest
  parsed : Manifest.parse c bytes = .ok manifest
  verified : verify c bytes = .ok []

namespace ServedMota

variable {c : Crypto} (z : Compressors) (served : ServedMota c)

def rawBlock (block : ℕ) : Option Bytes :=
  let m := served.manifest
  if m.blockCount ≤ block then none
  else if m.blockSize = 0 ∨ MAX_TRANSPORT_BLOCK_SIZE < m.blockSize then none
  else
    let start := m.payloadOff + block * m.blockSize
    let payloadEnd := m.payloadOff + m.payloadSize.toNat
    let stop := min (start + m.blockSize) payloadEnd
    if start < stop ∧ stop ≤ served.bytes.length then
      some ((served.bytes.drop start).take (stop - start))
    else none

/-- The cache has one entry for each block and is filled once, so it is not part of the state. -/
def cachedDeflateBlock (block : ℕ) : Option Bytes := do
  let raw ← served.rawBlock block
  (deflateRaw z raw).filter fun encoded =>
    !encoded.isEmpty && decide (encoded.length < raw.length) && decide (encoded.length ≤ 0xffff)

def describe : Bytes :=
  let m := served.manifest
  m.merkleRoot.val ++ u32Le m.targetId ++ u32Le m.fwVersion ++ [m.codecId, m.flags] ++
    toLe 4 served.bytes.length ++ toLe 4 m.leavesOff ++ toLe 4 m.blockCount ++
    toLe 4 m.payloadOff ++ u32Le m.payloadSize ++ [m.blockSizeLog2, SOURCE_CAP_DEFLATE_BLOCK] ++
    [0, 0]

end ServedMota

/-- The calls of the file system the core makes, on a state of files. Each may fail. -/
structure FileSystem (φ : Type) where
  metadataLen : φ → String → Option ℕ
  write : φ → String → Bytes → Bool × φ
  writeAllAt : φ → String → ℕ → Bytes → Bool × φ
  readExactAt : φ → String → ℕ → ℕ → Option Bytes
  rename : φ → String → String → Bool × φ

structure SeederCore (c : Crypto) where
  folder : List (ServedMota c)
  storeDir : Option String
  seed : Option (Bytes × UInt32)

def storeName (mid : Bytes) (part : Bool) : String :=
  hexLowerBytes mid ++ (if part then ".mota.part" else ".mota")

def storePath (storeDir : String) (mid : Bytes) (part : Bool) : String :=
  String.ofList (Path.join storeDir.toList (storeName mid part).toList)

def status (r : Bool) : Reply := if r then (STATUS_OK, []) else (STATUS_ERR, [])

def refused : Reply := (STATUS_ERR, [])

namespace SeederCore

variable {c : Crypto} {φ : Type} (core : SeederCore c) (fs : FileSystem φ) (z : Compressors)

def freshPart (total : ℕ) : Bytes :=
  let buf := List.replicate total (0xff : UInt8)
  match core.seed with
  | some (payload, blockCount) =>
    let off := HEADER_LEN + MFL + blockCount.toNat * 4
    if off < buf.length then
      let n := min payload.length (buf.length - off)
      buf.take off ++ payload.take n ++ buf.drop (off + n)
    else buf
  | none => buf

def publish (part done : String) (files : φ) : Bool × φ :=
  match fs.metadataLen files part, fs.readExactAt files part 0 8 with
  | some size, some head =>
    if head.take 4 ≠ MAGIC ∨ ofLe ((head.drop 4).take 4) ≠ size then (false, files)
    else fs.rename files part done
  | _, _ => (false, files)

def stat (part done : String) (files : φ) : Reply :=
  match (fs.metadataLen files done).or (fs.metadataLen files part) with
  | some len => (STATUS_OK, [1] ++ toLe 4 len)
  | none => (STATUS_OK, [0] ++ toLe 4 0)

def replyTo (r : Bool × φ) : Reply × φ := (status r.1, r.2)

def handleStorage (op : UInt8) (args : Bytes) (files : φ) : Run (Reply × φ) :=
  match core.storeDir with
  | none => .ok (refused, files)
  | some store => do
    let mid ← slice args 0 4
    let part := storePath store mid true
    let done := storePath store mid false
    if op = OP_STAT then .ok (stat fs part done files, files)
    else if op = OP_BEGIN then do
      let total ← rdU32 args 4
      .ok (replyTo (fs.write files part (core.freshPart total.toNat)))
    else if op = OP_WRITE then do
      let off ← rdU32 args 4
      let len ← slice args 8 10
      if 10 + ofLe len ≤ args.length then
        .ok (replyTo (fs.writeAllAt files part off.toNat ((args.drop 10).take (ofLe len))))
      else .ok (refused, files)
    else if op = OP_SREAD then do
      let off ← rdU32 args 4
      let len ← slice args 8 10
      let src := if (fs.metadataLen files part).isSome then part else done
      match fs.readExactAt files src off.toNat (ofLe len) with
      | some buf => .ok ((STATUS_OK, buf), files)
      | none => .ok (refused, files)
    else if op = OP_FIN then .ok (replyTo (publish fs part done files))
    else .ok (refused, files)

def deflateBlock (args : Bytes) : Run Reply :=
  if args.length ≠ 7 then .ok refused
  else do
    let folderIndex ← index args 0
    let block ← slice args 1 3
    let off ← slice args 3 5
    let len ← slice args 5 7
    if DEFLATE_READ_MAX < ofLe len ∨ ofLe len = 0 ∧ ofLe off ≠ 0 then .ok refused
    else match core.folder[folderIndex.toNat]? with
    | none => .ok refused
    | some served =>
      match served.cachedDeflateBlock z (ofLe block) with
      | none => .ok refused
      | some encoded =>
        if encoded.length < ofLe off + ofLe len then .ok refused
        else .ok (STATUS_OK,
          toLe 2 encoded.length ++ (encoded.drop (ofLe off)).take (ofLe len))

def read (args : Bytes) : Run Reply := do
  let off ← rdU32 args 1
  let len ← slice args 5 7
  let folderIndex ← index args 0
  match core.folder[folderIndex.toNat]? with
  | some served =>
    if off.toNat + ofLe len ≤ served.bytes.length then
      .ok (STATUS_OK, (served.bytes.drop off.toNat).take (ofLe len))
    else .ok refused
  | none => .ok refused

def describe (args : Bytes) : Option Reply :=
  args.head?.map fun i =>
    match core.folder[i.toNat]? with
    | some served => (STATUS_OK, served.describe)
    | none => refused

def handle : Handler φ := fun op args files =>
  if op = OP_COUNT then
    .ok (some (STATUS_OK, [UInt8.ofNat (min core.folder.length 255)]), files)
  else if op = OP_DESCRIBE then .ok (core.describe args, files)
  else if op = OP_READ then do
    let reply ← core.read args
    .ok (some reply, files)
  else if op = OP_DEFLATE_BLOCK then do
    let reply ← core.deflateBlock z args
    .ok (some reply, files)
  else if op = OP_STAT ∨ op = OP_BEGIN ∨ op = OP_WRITE ∨ op = OP_SREAD ∨ op = OP_FIN then do
    let (reply, files) ← core.handleStorage fs op args files
    .ok (some reply, files)
  else .ok (none, files)

end SeederCore

end MotaTool.Serve
