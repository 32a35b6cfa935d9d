import MotaTool.Serve.Relay

/-!
# Reading what was described

A descriptor gives the id of a container, its size and the offsets of its
leaves and blocks. A peer that reads the leaves and the blocks at the places it
computes from the descriptor gets blocks that hash to the leaves, and leaves
whose root is the id.
-/

namespace MotaTool.Serve

open Base Run Format Merkle seeder

/-- The wire layout of a descriptor; the last two bytes are reserved. -/
structure Descriptor where
  mid : Bytes
  targetId : ℕ
  fwVersion : ℕ
  codecId : UInt8
  flags : UInt8
  total : ℕ
  leavesOff : ℕ
  blockCount : ℕ
  payloadOff : ℕ
  payloadSize : ℕ
  blockSizeLog2 : UInt8
  sourceCaps : UInt8

namespace Descriptor

def byte (w : Bytes) (off : ℕ) : UInt8 := w.getD off 0

def word (w : Bytes) (off : ℕ) : ℕ := ofLe ((w.drop off).take 4)

def decode (w : Bytes) : Descriptor where
  mid := w.take 4
  targetId := word w 4
  fwVersion := word w 8
  codecId := byte w 12
  flags := byte w 13
  total := word w 14
  leavesOff := word w 18
  blockCount := word w 22
  payloadOff := word w 26
  payloadSize := word w 30
  blockSizeLog2 := byte w 34
  sourceCaps := byte w 35

def blockSize (d : Descriptor) : ℕ := 2 ^ d.blockSizeLog2.toNat

def blockLength (d : Descriptor) (block : ℕ) : ℕ :=
  min d.blockSize (d.payloadSize - block * d.blockSize)

end Descriptor

section Described

variable {c : Crypto} (served : ServedMota c)

theorem ServedMota.bytes_lt : served.bytes.length < 2 ^ 32 := by
  have h := served.content.parsed
  have hend := h.payload_end
  have hoff := Manifest.payloadOff_eq served.manifest
  have hleaves : served.manifest.leavesOff = 205 := rfl
  have hhigh := h.high
  have hmul : served.manifest.blockCount * served.manifest.blockSize ≤
      0xffff * MAX_APPLICATION_BLOCK_SIZE := Nat.mul_le_mul hhigh h.blockSize_le
  have hcover := h.blocks_cover.2
  simp only [MAX_APPLICATION_BLOCK_SIZE, TRAILER_LEN] at hmul hend
  omega

def ServedMota.descriptor : Descriptor where
  mid := served.manifest.merkleRoot.val
  targetId := served.manifest.targetId.toNat
  fwVersion := served.manifest.fwVersion.toNat
  codecId := served.manifest.codecId
  flags := served.manifest.flags
  total := served.bytes.length
  leavesOff := served.manifest.leavesOff
  blockCount := served.manifest.blockCount
  payloadOff := served.manifest.payloadOff
  payloadSize := served.manifest.payloadSize.toNat
  blockSizeLog2 := served.manifest.blockSizeLog2
  sourceCaps := SOURCE_CAP_DEFLATE_BLOCK

def ServedMota.describeFields : List (ℕ × Bytes) :=
  let m := served.manifest
  [(0, m.merkleRoot.val), (4, u32Le m.targetId), (8, u32Le m.fwVersion), (12, [m.codecId]),
    (13, [m.flags]), (14, toLe 4 served.bytes.length), (18, toLe 4 m.leavesOff),
    (22, toLe 4 m.blockCount), (26, toLe 4 m.payloadOff), (30, u32Le m.payloadSize),
    (34, [m.blockSizeLog2]), (35, [SOURCE_CAP_DEFLATE_BLOCK]), (36, [0, 0])]

theorem describeFields_tile : Tiles 0 served.describeFields 38 := by
  simp [ServedMota.describeFields, tiles_cons, tiles_nil, Octets.length_val]

theorem describe_eq : served.describe = fieldBytes served.describeFields := by
  simp [ServedMota.describe, ServedMota.describeFields, fieldBytes]

theorem describe_length : served.describe.length = 38 := by
  rw [describe_eq, ← Nat.zero_add (fieldBytes served.describeFields).length]
  exact (describeFields_tile served).length

theorem describe_word {off v : ℕ} (hmem : (off, toLe 4 v) ∈ served.describeFields)
    (hv : v < 2 ^ 32) : Descriptor.word served.describe off = v := by
  have hread := ((describeFields_tile served).read_back hmem).2
  rw [toLe_length, Nat.sub_zero, ← describe_eq] at hread
  rw [Descriptor.word, hread]
  exact ofLe_toLe hv

theorem describe_byte {off : ℕ} {b : UInt8} (hmem : (off, [b]) ∈ served.describeFields) :
    Descriptor.byte served.describe off = b := by
  have hread := ((describeFields_tile served).read_back hmem).2
  rw [Nat.sub_zero, ← describe_eq] at hread
  rw [Descriptor.byte, List.getD_eq_getElem?_getD,
    index_eq_ok.mp (index_of_take hread.symm), Option.getD_some]

theorem describe_decodes : Descriptor.decode served.describe = served.descriptor := by
  have hbytes := served.bytes_lt
  have hend := served.content.parsed.payload_end
  have hoff := Manifest.payloadOff_eq served.manifest
  have hmid : served.describe.take 4 = served.manifest.merkleRoot.val := by
    have hread := ((describeFields_tile served).read_back
      (show (0, served.manifest.merkleRoot.val) ∈ _ from List.mem_cons_self)).2
    rw [Octets.length_val, ← describe_eq] at hread
    exact hread
  have hword : ∀ off v, (off, toLe 4 v) ∈ served.describeFields → v < 2 ^ 32 →
      Descriptor.word served.describe off = v := fun _ _ => describe_word served
  have hbyte : ∀ off b, (off, [b]) ∈ served.describeFields →
      Descriptor.byte served.describe off = b := fun _ _ => describe_byte served
  simp only [ServedMota.describeFields, u32Le] at hword hbyte
  rw [Descriptor.decode, hmid,
    hword 4 served.manifest.targetId.toNat (by simp) (UInt32.toNat_lt _),
    hword 8 served.manifest.fwVersion.toNat (by simp) (UInt32.toNat_lt _),
    hbyte 12 served.manifest.codecId (by simp), hbyte 13 served.manifest.flags (by simp),
    hword 14 served.bytes.length (by simp) hbytes,
    hword 18 served.manifest.leavesOff (by simp) (by omega),
    hword 22 served.manifest.blockCount (by simp) (by omega),
    hword 26 served.manifest.payloadOff (by simp) (by omega),
    hword 30 served.manifest.payloadSize.toNat (by simp) (UInt32.toNat_lt _),
    hbyte 34 served.manifest.blockSizeLog2 (by simp),
    hbyte 35 SOURCE_CAP_DEFLATE_BLOCK (by simp), ServedMota.descriptor]

end Described

def readArgs (i : UInt8) (off len : ℕ) : Bytes := i :: (toLe 4 off ++ toLe 2 len)

section Reading

variable {c : Crypto} {φ : Type} {core : SeederCore c} {fs : FileSystem φ} {z : Compressors}
  {i : UInt8} {served : ServedMota c} {off len : ℕ}

theorem handle_read (files : φ) (hserved : core.folder[i.toNat]? = some served)
    (hoff : off < 2 ^ 32) (hlen : len < 2 ^ 16) :
    core.handle fs z OP_READ (readArgs i off len) files =
      .ok (some (if off + len ≤ served.bytes.length then
        (STATUS_OK, (served.bytes.drop off).take len) else refused), files) := by
  have hword : rdU32 (readArgs i off len) 1 = .ok (UInt32.ofNat off) := by
    have hpiece : ((readArgs i off len).drop 1).take 4 = toLe 4 off := rfl
    rw [rdU32_ok (by simp [readArgs]), hpiece, ofLe_toLe (show off < 256 ^ 4 from hoff)]
  have hslice : slice (readArgs i off len) 5 7 = .ok (toLe 2 len) := rfl
  have hindex : index (readArgs i off len) 0 = .ok i := rfl
  have hread : core.read (readArgs i off len) =
      .ok (if off + len ≤ served.bytes.length then
        (STATUS_OK, (served.bytes.drop off).take len) else refused) := by
    rw [SeederCore.read, hword, ok_bind, hslice, ok_bind, hindex, ok_bind]
    simp only [hserved, UInt32.toNat_ofNat_of_lt' hoff, ofLe_toLe (show len < 256 ^ 2 from hlen)]
    split_ifs <;> rfl
  have hop : OP_READ ≠ OP_COUNT ∧ OP_READ ≠ OP_DESCRIBE := by decide
  rw [SeederCore.handle, if_neg hop.1, if_neg hop.2, if_pos rfl, hread]
  rfl

theorem handle_describe {files files' : φ} {description : Bytes}
    (h : core.handle fs z OP_DESCRIBE [i] files = .ok (some (STATUS_OK, description), files')) :
    ∃ served, core.folder[i.toNat]? = some served ∧ description = served.describe := by
  have hop : OP_DESCRIBE ≠ OP_COUNT := by decide
  rw [SeederCore.handle, if_neg hop, if_pos rfl, SeederCore.describe, List.head?_cons,
    Option.map_some] at h
  cases hserved : core.folder[i.toNat]? with
  | none =>
    rw [hserved] at h
    cases h
  | some served =>
    rw [hserved] at h
    cases h
    exact ⟨served, rfl, rfl⟩

end Reading

section Pieces

variable {c : Crypto} (served : ServedMota c) {b : ℕ}

theorem flatten_piece {leaves : List (Octets 4)} {l : Octets 4} (h : leaves[b]? = some l) :
    ((flatten leaves).drop (4 * b)).take 4 = l.val := by
  induction leaves generalizing b with
  | nil => simp at h
  | cons first leaves ih =>
    rw [flatten, List.flatMap_cons, ← flatten]
    cases b with
    | zero =>
      rw [List.getElem?_cons_zero, Option.some.injEq] at h
      rw [Nat.mul_zero, List.drop_zero, List.take_left' first.property, h]
    | succ b =>
      rw [List.getElem?_cons_succ] at h
      rw [Nat.mul_succ, Nat.add_comm, ← List.drop_drop, List.drop_left' first.property, ih h]

theorem leaf_piece {l : Octets 4}
    (h : (chunksExact4 (served.manifest.leavesOf served.bytes))[b]? = some l) :
    (served.bytes.drop (served.manifest.leavesOff + 4 * b)).take 4 = l.val := by
  have hcontent := served.content
  have hoff := Manifest.payloadOff_eq served.manifest
  have hb : b < served.manifest.blockCount := by
    have hlt := (List.getElem?_eq_some_iff.mp h).1
    rwa [hcontent.stored, leafHashes_length, hcontent.parsed.payload_length,
      ← hcontent.parsed.count] at hlt
  have hpiece := flatten_piece h
  rw [hcontent.stored, hcontent.leaves, Manifest.leavesOf, List.drop_take, List.take_take,
    List.drop_drop, Nat.min_eq_left (by omega)] at hpiece
  exact hpiece

theorem block_piece {block : Bytes} (h : served.blocks[b]? = some block) :
    (served.bytes.drop (served.manifest.payloadOff + b * served.manifest.blockSize)).take
      (served.descriptor.blockLength b) = block := by
  have hb := (List.getElem?_eq_some_iff.mp h).1
  rw [ServedMota.blocks, chunks_length] at hb
  rw [ServedMota.blocks, chunks_getElem? hb, Option.some.injEq, ServedMota.payload,
    Manifest.payloadOf, List.drop_take, List.take_take, List.drop_drop] at h
  exact h

end Pieces

/-- What a peer reads at the places a descriptor gives verifies against its id: the leaves have
that root, and every block hashes to its leaf. -/
theorem described_verifies {c : Crypto} {φ : Type} (core : SeederCore c) (fs : FileSystem φ)
    (z : Compressors) (i : UInt8) (description : Bytes) (files files' : φ)
    (h : core.handle fs z OP_DESCRIBE [i] files = .ok (some (STATUS_OK, description), files')) :
    ∃ d, Descriptor.decode description = d ∧ description.length = 38 ∧
      d.leavesOff + 4 * d.blockCount = d.payloadOff ∧
      d.payloadOff + d.payloadSize + TRAILER_LEN = d.total ∧
      ∃ leaves : List (Octets 4), leaves.length = d.blockCount ∧
        (∃ r, root c leaves = .ok r ∧ r.val = d.mid) ∧
        ∀ b l, leaves[b]? = some l → ∀ other : φ,
          core.handle fs z OP_READ (readArgs i (d.leavesOff + 4 * b) 4) other =
            .ok (some (STATUS_OK, l.val), other) ∧
          ∃ block, core.handle fs z OP_READ
              (readArgs i (d.payloadOff + b * d.blockSize) (d.blockLength b)) other =
                .ok (some (STATUS_OK, block), other) ∧
            block ≠ [] ∧ leaf c block = l := by
  obtain ⟨served, hserved, rfl⟩ := handle_describe h
  have hcontent := served.content
  have hend := hcontent.parsed.payload_end
  have hoff := Manifest.payloadOff_eq served.manifest
  have hbytes := served.bytes_lt
  refine ⟨served.descriptor, describe_decodes served, describe_length served, ?_⟩
  simp only [ServedMota.descriptor, Descriptor.blockSize]
  refine ⟨hoff.symm, hend, chunksExact4 (served.manifest.leavesOf served.bytes), ?_,
    ⟨_, hcontent.root, rfl⟩, fun b l hl other => ?_⟩
  · rw [← served.blocks_leaves, List.length_map, served.blocks_length]
  · have hleaf := hl
    rw [← served.blocks_leaves, List.getElem?_map, Option.map_eq_some_iff] at hleaf
    obtain ⟨block, hblock, hhash⟩ := hleaf
    have hb := (List.getElem?_eq_some_iff.mp hblock).1
    rw [served.blocks_length] at hb
    have hstart : b * served.manifest.blockSize < served.manifest.payloadSize.toNat := by
      rw [hcontent.parsed.count] at hb
      exact (lt_divCeil_iff served.manifest.blockSize_pos).mp hb
    have hlength : served.descriptor.blockLength b ≤
        served.manifest.payloadSize.toNat - b * served.manifest.blockSize := Nat.min_le_right _ _
    have hsmall : served.descriptor.blockLength b ≤ MAX_APPLICATION_BLOCK_SIZE :=
      (Nat.min_le_left _ _).trans hcontent.parsed.blockSize_le
    have hnarrow : MAX_APPLICATION_BLOCK_SIZE < 2 ^ 16 := by decide
    constructor
    · rw [handle_read other hserved (by omega) (by decide), if_pos (by omega), leaf_piece served hl]
    · refine ⟨block, ?_, fun hnil => blocks_ne_nil served (hnil ▸ List.mem_of_getElem? hblock),
        hhash⟩
      have hread := @handle_read c φ core fs z i served
        (served.manifest.payloadOff + b * served.manifest.blockSize)
        (served.descriptor.blockLength b) other hserved (by omega) (by omega)
      rw [if_pos (by omega), block_piece served hblock] at hread
      exact hread

/-- The short last block of a container of zeros is read at offset 221. -/
theorem described_verifies_zeros : ∃ leaves first block,
    zeroCore.handle noFiles zeroCompressors OP_READ (readArgs 0 221 6) () =
      .ok (some (STATUS_OK, block), ()) ∧ leaves = [first, leaf Crypto.plain block] := by
  obtain ⟨d, rfl, -, -, -, leaves, hlength, -, hread⟩ := described_verifies zeroCore noFiles
    zeroCompressors 0 zeroServed.describe () () rfl
  rw [describe_decodes] at hlength hread
  obtain ⟨first, l, rfl⟩ := List.length_eq_two.mp hlength
  obtain ⟨-, block, hblock, -, hleaf⟩ := hread 1 l rfl ()
  exact ⟨[first, l], first, block, hblock, by rw [hleaf]⟩

end MotaTool.Serve
