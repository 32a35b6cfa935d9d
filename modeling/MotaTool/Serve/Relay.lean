import MotaTool.Base.WriteAt
import MotaTool.Serve.SeederSpec
import MotaTool.VerifySpec

/-!
# Blocks served compressed

The blocks a served container is sliced into are those its leaves were hashed from. A
block is served either never, or from one compressed stream, of which every admissible
slice is answered; the answered slices of a cover, written at their offsets in any order,
give the stream back. The cache that holds the streams only ever holds what computing them
again would give.
-/

namespace MotaTool.Serve

open Base Run Format Merkle seeder

section Blocks

variable {c : Crypto} (served : ServedMota c)

theorem ServedMota.content : Verified c served.bytes served.manifest := by
  obtain ⟨m, hparse, h⟩ := verify_eq_nil.mp served.verified
  rw [served.parsed] at hparse
  cases hparse
  exact h

def ServedMota.payload : Bytes := served.manifest.payloadOf served.bytes

def ServedMota.blocks : List Bytes := chunks served.manifest.blockSize served.payload

theorem ServedMota.payload_length :
    served.payload.length = served.manifest.payloadSize.toNat :=
  served.content.parsed.payload_length

theorem ServedMota.blocks_length : served.blocks.length = served.manifest.blockCount := by
  rw [ServedMota.blocks, chunks_length, served.payload_length, served.content.parsed.count]

theorem ServedMota.blocks_flatten : served.blocks.flatten = served.payload :=
  chunks_flatten served.manifest.blockSize_pos _

theorem ServedMota.blocks_leaves :
    served.blocks.map (leaf c) = chunksExact4 (served.manifest.leavesOf served.bytes) :=
  served.content.stored.symm

theorem chunks_getElem? {size : ℕ} {v : Bytes} {b : ℕ} (hb : b < divCeil v.length size) :
    (chunks size v)[b]? = some ((v.drop (b * size)).take size) := by
  rw [chunks, List.getElem?_map, List.getElem?_range hb]
  rfl

theorem rawBlock_eq (b : ℕ) : served.rawBlock b = served.blocks[b]? := by
  have hparsed := served.content.parsed
  have hpos := served.manifest.blockSize_pos
  have hle : served.manifest.blockSize ≤ MAX_TRANSPORT_BLOCK_SIZE := hparsed.blockSize_le
  have hend := hparsed.payload_end
  have hlen := served.payload_length
  unfold ServedMota.rawBlock
  simp only
  by_cases hb : b < served.manifest.blockCount
  · have hin : b < divCeil served.payload.length served.manifest.blockSize := by
      rw [hlen, ← hparsed.count]
      exact hb
    have hstart := (lt_divCeil_iff hpos).mp hin
    rw [hlen] at hstart
    rw [if_neg (by omega), if_neg (by omega), if_pos (by omega), ServedMota.blocks,
      chunks_getElem? hin, ServedMota.payload, Manifest.payloadOf, List.drop_take, List.take_take,
      List.drop_drop]
    congr 2
    omega
  · rw [if_pos (by omega), List.getElem?_eq_none (by rw [served.blocks_length]; omega)]

theorem blocks_ne_nil : [] ∉ served.blocks := by
  intro hmem
  obtain ⟨b, hb⟩ := List.getElem?_of_mem hmem
  have hin : b < divCeil served.payload.length served.manifest.blockSize := by
    rw [← chunks_length]
    exact (List.getElem?_eq_some_iff.mp hb).1
  rw [ServedMota.blocks, chunks_getElem? hin, Option.some.injEq, List.take_eq_nil_iff,
    List.drop_eq_nil_iff] at hb
  have hstart := (lt_divCeil_iff served.manifest.blockSize_pos).mp hin
  have hpos := served.manifest.blockSize_pos
  omega

end Blocks

section Streams

variable {c : Crypto} {z : Compressors} {inflate : Bytes → Option Bytes}

structure Compressors.Inflates (z : Compressors) (inflate : Bytes → Option Bytes) : Prop where
  zopfli : ∀ raw iterations encoded, z.zopfliRaw raw iterations = some encoded →
    inflate encoded = some raw
  zlib : ∀ raw encoded, z.zlibBestRaw raw = some encoded → inflate encoded = some raw

theorem shorter_inflates {raw best : Bytes} {candidate : Option Bytes}
    (hbest : inflate best = some raw)
    (hcandidate : ∀ encoded, candidate = some encoded → inflate encoded = some raw) :
    inflate (shorter best candidate) = some raw := by
  unfold shorter
  split
  · split_ifs
    · exact hcandidate _ rfl
    · exact hbest
  · exact hbest

theorem deflateRaw_inflates (hz : z.Inflates inflate) {raw encoded : Bytes}
    (h : deflateRaw z raw = some encoded) : inflate encoded = some raw := by
  rw [deflateRaw, Option.map_eq_some_iff] at h
  obtain ⟨best, hbest, rfl⟩ := h
  refine shorter_inflates ?_ (hz.zlib raw)
  exact shorter_inflates (shorter_inflates (hz.zopfli _ _ _ hbest) (hz.zopfli raw 15))
    (hz.zopfli raw 100)

theorem cachedDeflateBlock_eq_some {served : ServedMota c} {b : ℕ} {encoded : Bytes} :
    served.cachedDeflateBlock z b = some encoded ↔ ∃ raw, served.rawBlock b = some raw ∧
      deflateRaw z raw = some encoded ∧ encoded ≠ [] ∧ encoded.length < raw.length ∧
      encoded.length ≤ 0xffff := by
  rw [ServedMota.cachedDeflateBlock, Option.bind_eq_bind, Option.bind_eq_some_iff]
  simp only [Option.filter_eq_some_iff, Bool.and_eq_true, Bool.not_eq_true',
    List.isEmpty_eq_false_iff, decide_eq_true_eq, and_assoc]

/-- The size limit of the length field never decides. -/
theorem rawBlock_length_le (served : ServedMota c) {b : ℕ} {raw : Bytes}
    (h : served.rawBlock b = some raw) : raw.length ≤ MAX_TRANSPORT_BLOCK_SIZE := by
  rw [rawBlock_eq] at h
  have hb := (List.getElem?_eq_some_iff.mp h).1
  rw [ServedMota.blocks, chunks_length] at hb
  rw [ServedMota.blocks, chunks_getElem? hb, Option.some.injEq] at h
  rw [← h]
  exact (List.length_take_le _ _).trans served.content.parsed.blockSize_le

end Streams

section Requests

variable {c : Crypto} {φ : Type} {core : SeederCore c} {fs : FileSystem φ} {z : Compressors}

def deflateRequest (folderIndex : UInt8) (block off len : UInt16) : Bytes :=
  folderIndex :: (toLe 2 block.toNat ++ (toLe 2 off.toNat ++ toLe 2 len.toNat))

def Admissible (encoded : Bytes) (off len : UInt16) : Prop :=
  len.toNat ≤ DEFLATE_READ_MAX ∧ off.toNat + len.toNat ≤ encoded.length ∧
    ¬ (len.toNat = 0 ∧ off.toNat ≠ 0)

instance (encoded : Bytes) (off len : UInt16) : Decidable (Admissible encoded off len) :=
  inferInstanceAs (Decidable (_ ∧ _ ∧ ¬ (_ ∧ _)))

theorem ofLe_toLe_u16 (v : UInt16) : ofLe (toLe 2 v.toNat) = v.toNat := ofLe_toLe v.toNat_lt

def sliceReply (encoded : Bytes) (off len : UInt16) : Reply :=
  if Admissible encoded off len then
    (STATUS_OK, toLe 2 encoded.length ++ (encoded.drop off.toNat).take len.toNat)
  else refused

theorem handle_deflate (files : φ) (i : UInt8) (b off len : UInt16) {served : ServedMota c}
    (hserved : core.folder[i.toNat]? = some served) :
    core.handle fs z OP_DEFLATE_BLOCK (deflateRequest i b off len) files =
      .ok (some (((served.cachedDeflateBlock z b.toNat).map
        fun encoded => sliceReply encoded off len).getD refused), files) := by
  have hlength : (deflateRequest i b off len).length = 7 := rfl
  have hindex : index (deflateRequest i b off len) 0 = .ok i := rfl
  have hblock : slice (deflateRequest i b off len) 1 3 = .ok (toLe 2 b.toNat) := rfl
  have hoff : slice (deflateRequest i b off len) 3 5 = .ok (toLe 2 off.toNat) := rfl
  have hlen : slice (deflateRequest i b off len) 5 7 = .ok (toLe 2 len.toNat) := rfl
  have hreply : core.deflateBlock z (deflateRequest i b off len) =
      .ok (((served.cachedDeflateBlock z b.toNat).map
        fun encoded => sliceReply encoded off len).getD refused) := by
    rw [SeederCore.deflateBlock, if_neg (by rw [hlength]; decide), hindex, ok_bind, hblock, ok_bind,
      hoff, ok_bind, hlen, ok_bind]
    simp only [ofLe_toLe_u16, hserved]
    cases served.cachedDeflateBlock z b.toNat with
    | none => split_ifs <;> rfl
    | some encoded =>
      simp only [Option.map_some, Option.getD_some, sliceReply]
      by_cases hadm : Admissible encoded off len
      · obtain ⟨hmax, hfit, hprobe⟩ := id hadm
        rw [if_neg (not_or.mpr ⟨by omega, hprobe⟩), if_neg (by omega), if_pos hadm]
      · rw [if_neg hadm]
        split_ifs with hargs hshort
        · rfl
        · rfl
        · exact absurd ⟨by omega, by omega, fun hprobe => hargs (.inr hprobe)⟩ hadm
  have hop : OP_DEFLATE_BLOCK ≠ OP_COUNT ∧ OP_DEFLATE_BLOCK ≠ OP_DESCRIBE ∧
      OP_DEFLATE_BLOCK ≠ OP_READ := by decide
  rw [SeederCore.handle, if_neg hop.1, if_neg hop.2.1, if_neg hop.2.2, if_pos rfl, hreply]
  rfl

def answeredSlice (core : SeederCore c) (fs : FileSystem φ) (z : Compressors) (files : φ)
    (i : UInt8) (b : UInt16) (request : UInt16 × UInt16) : ℕ × Bytes :=
  (request.1.toNat,
    match core.handle fs z OP_DEFLATE_BLOCK (deflateRequest i b request.1 request.2) files with
    | .ok (some (_, payload), _) => payload.drop 2
    | _ => [])

def Spans (encoded : Bytes) (requests : List (UInt16 × UInt16)) : Prop :=
  (∀ r ∈ requests, Admissible encoded r.1 r.2) ∧
    ∀ k < encoded.length, ∃ r ∈ requests, r.1.toNat ≤ k ∧ k < r.1.toNat + r.2.toNat

section Stream

variable {files : φ} {i : UInt8} {b : UInt16} {served : ServedMota c} {encoded : Bytes}
  (hserved : core.folder[i.toNat]? = some served)
  (hstream : served.cachedDeflateBlock z b.toNat = some encoded)
include hserved hstream

theorem answeredSlice_eq {r : UInt16 × UInt16} (hr : Admissible encoded r.1 r.2) :
    answeredSlice core fs z files i b r =
      (r.1.toNat, (encoded.drop r.1.toNat).take r.2.toNat) := by
  rw [answeredSlice, handle_deflate files i b r.1 r.2 hserved, hstream]
  simp only [Option.map_some, Option.getD_some, sliceReply, if_pos hr]
  rw [List.drop_left' (toLe_length 2 _)]

theorem answeredSlice_window {r : UInt16 × UInt16} (hr : Admissible encoded r.1 r.2) :
    Window encoded (answeredSlice core fs z files i b r) ∧
      (answeredSlice core fs z files i b r).2.length = r.2.toNat := by
  obtain ⟨-, hfit, -⟩ := id hr
  have hlen : ((encoded.drop r.1.toNat).take r.2.toNat).length = r.2.toNat := by
    rw [List.length_take, List.length_drop]
    omega
  rw [answeredSlice_eq hserved hstream hr]
  refine ⟨⟨?_, ?_⟩, hlen⟩
  · rw [hlen]
    exact hfit
  · rw [hlen]

theorem answers_reassemble {requests : List (UInt16 × UInt16)} (h : Spans encoded requests)
    {buffer : Bytes} (hbuffer : buffer.length = encoded.length) :
    (requests.map (answeredSlice core fs z files i b)).foldl
      (fun buf w => writeAt 0 buf w.1 w.2) buffer = encoded := by
  refine writeWindows_cover 0 _ ?_ ?_ hbuffer
  · intro w hw
    obtain ⟨r, hr, rfl⟩ := List.mem_map.mp hw
    exact (answeredSlice_window hserved hstream (h.1 r hr)).1
  · intro k hk
    obtain ⟨r, hr, hlow, hhigh⟩ := h.2 k hk
    refine ⟨_, List.mem_map_of_mem hr, hlow, ?_⟩
    rw [(answeredSlice_window hserved hstream (h.1 r hr)).2]
    exact hhigh

end Stream

end Requests

section Cache

variable {c : Crypto} {z : Compressors} {served : ServedMota c}

/-- One cell for each block; the first request for a block fills it. -/
abbrev DeflateCache := List (Option (Option Bytes))

def ServedMota.freshCache (served : ServedMota c) : DeflateCache :=
  List.replicate served.manifest.blockCount none

def smallerStream (z : Compressors) (raw : Bytes) : Option Bytes :=
  (deflateRaw z raw).filter fun encoded =>
    !encoded.isEmpty && decide (encoded.length < raw.length) && decide (encoded.length ≤ 0xffff)

def ServedMota.getOrInit (served : ServedMota c) (z : Compressors) (block : ℕ)
    (cache : DeflateCache) : Option Bytes × DeflateCache :=
  match served.rawBlock block, cache[block]? with
  | some _, some (some entry) => (entry, cache)
  | some raw, some none => (smallerStream z raw, cache.set block (some (smallerStream z raw)))
  | _, _ => (none, cache)

/-- Every filled cell holds what computing it again would give. -/
structure Coherent (z : Compressors) (served : ServedMota c) (cache : DeflateCache) : Prop where
  length : cache.length = served.manifest.blockCount
  filled : ∀ b entry, cache[b]? = some (some entry) → entry = served.cachedDeflateBlock z b

theorem freshCache_coherent : Coherent z served served.freshCache := by
  refine ⟨List.length_replicate, fun b entry hb => ?_⟩
  rw [ServedMota.freshCache, List.getElem?_replicate] at hb
  split_ifs at hb
  simp at hb

theorem cachedDeflateBlock_eq {b : ℕ} : served.cachedDeflateBlock z b =
    (served.rawBlock b).bind (smallerStream z) := rfl

theorem getOrInit_coherent {cache : DeflateCache} (h : Coherent z served cache) (b : ℕ) :
    (served.getOrInit z b cache).1 = served.cachedDeflateBlock z b ∧
      Coherent z served (served.getOrInit z b cache).2 := by
  rw [cachedDeflateBlock_eq, ServedMota.getOrInit]
  cases hraw : served.rawBlock b with
  | none => exact ⟨rfl, h⟩
  | some raw =>
    have hb : b < cache.length := by
      rw [rawBlock_eq] at hraw
      rw [h.length, ← served.blocks_length]
      exact (List.getElem?_eq_some_iff.mp hraw).1
    rw [List.getElem?_eq_getElem hb]
    cases hcell : cache[b] with
    | some entry =>
      refine ⟨?_, h⟩
      have hentry := h.filled b entry (by rw [List.getElem?_eq_getElem hb, hcell])
      rw [hentry, cachedDeflateBlock_eq, hraw]
    | none =>
      refine ⟨rfl, by rw [List.length_set, h.length], fun k entry hk => ?_⟩
      rw [List.getElem?_set] at hk
      split_ifs at hk with hsame
      · obtain rfl := hsame
        cases hk
        rw [cachedDeflateBlock_eq, hraw]
        rfl
      · exact h.filled k entry hk

def ServedMota.streams (served : ServedMota c) (z : Compressors) :
    List ℕ → DeflateCache → List (Option Bytes) × DeflateCache
  | [], cache => ([], cache)
  | b :: blocks, cache =>
    let first := served.getOrInit z b cache
    let rest := served.streams z blocks first.2
    (first.1 :: rest.1, rest.2)

end Cache

section Fidelity

variable {c : Crypto} {φ : Type}

/-- The blocks of a served container are its payload and match its leaves, and each is
relayed either never or as one stream that inflates to it. -/
theorem relay_faithful (core : SeederCore c) (fs : FileSystem φ) (z : Compressors)
    (inflate : Bytes → Option Bytes) (hz : z.Inflates inflate) (i : UInt8) (served : ServedMota c)
    (hserved : core.folder[i.toNat]? = some served) :
    (∃ blocks : List Bytes, blocks.length = served.manifest.blockCount ∧
      (∀ b, served.rawBlock b = blocks[b]?) ∧ [] ∉ blocks ∧
      blocks.flatten = served.manifest.payloadOf served.bytes ∧
      blocks.map (leaf c) = chunksExact4 (served.manifest.leavesOf served.bytes) ∧
      flatten (blocks.map (leaf c)) = served.manifest.leavesOf served.bytes) ∧
    ∀ b : UInt16,
      (∀ files off len, core.handle fs z OP_DEFLATE_BLOCK (deflateRequest i b off len) files =
        .ok (some refused, files)) ∨
      ∃ raw encoded, served.rawBlock b.toNat = some raw ∧ encoded ≠ [] ∧
        encoded.length < raw.length ∧ inflate encoded = some raw ∧
        ofLe (toLe 2 encoded.length) = encoded.length ∧
        (∀ files off len, core.handle fs z OP_DEFLATE_BLOCK (deflateRequest i b off len) files =
          .ok (some (if Admissible encoded off len then
            (STATUS_OK, toLe 2 encoded.length ++ (encoded.drop off.toNat).take len.toNat)
            else (STATUS_ERR, [])), files)) ∧
        ∀ files requests buffer, Spans encoded requests → buffer.length = encoded.length →
          (requests.map (answeredSlice core fs z files i b)).foldl
            (fun buf w => writeAt 0 buf w.1 w.2) buffer = encoded := by
  refine ⟨⟨served.blocks, served.blocks_length, rawBlock_eq served, blocks_ne_nil served,
    served.blocks_flatten, served.blocks_leaves, served.content.leaves⟩, fun b => ?_⟩
  cases hstream : served.cachedDeflateBlock z b.toNat with
  | none =>
    refine .inl fun files off len => ?_
    rw [handle_deflate files i b off len hserved, hstream]
    rfl
  | some encoded =>
    obtain ⟨raw, hraw, hdeflate, hne, hshorter, hlimit⟩ := cachedDeflateBlock_eq_some.mp hstream
    refine .inr ⟨raw, encoded, hraw, hne, hshorter, deflateRaw_inflates hz hdeflate,
      ofLe_toLe (Nat.lt_of_le_of_lt hlimit (by decide)), fun files off len => ?_,
      fun files requests buffer hcover => answers_reassemble hserved hstream hcover⟩
    rw [handle_deflate files i b off len hserved, hstream]
    rfl

/-- A full block and a short one, each with the zopfli and the zlib stream for it. -/
def zeroStreams : List (Bytes × Bytes × Bytes) :=
  [(List.replicate 8 0, [99, 128, 2, 0], [99, 96, 128, 0, 0]),
    (List.replicate 6 0, [99, 0, 3, 0], [99, 96, 0, 1, 0])]

def zeroCompressors : Compressors where
  zopfliRaw raw _ := (zeroStreams.find? fun s => s.1 = raw).map fun s => s.2.1
  zlibBestRaw raw := (zeroStreams.find? fun s => s.1 = raw).map fun s => s.2.2

def zeroInflate (encoded : Bytes) : Option Bytes :=
  (zeroStreams.find? fun s => s.2.1 = encoded ∨ s.2.2 = encoded).map Prod.fst

theorem zeroStreams_inflate : ∀ s ∈ zeroStreams,
    zeroInflate s.2.1 = some s.1 ∧ zeroInflate s.2.2 = some s.1 := by decide +kernel

theorem zeroCompressors_inflates : zeroCompressors.Inflates zeroInflate where
  zopfli raw iterations encoded h := by
    obtain ⟨s, hs, rfl⟩ := Option.map_eq_some_iff.mp h
    have hraw : s.1 = raw := by simpa using List.find?_some hs
    rw [(zeroStreams_inflate s (List.mem_of_find?_eq_some hs)).1, hraw]
  zlib raw encoded h := by
    obtain ⟨s, hs, rfl⟩ := Option.map_eq_some_iff.mp h
    have hraw : s.1 = raw := by simpa using List.find?_some hs
    rw [(zeroStreams_inflate s (List.mem_of_find?_eq_some hs)).2, hraw]

def zeroManifest : Manifest :=
  ⟨APP_FORMAT_VER, MFLAG_FULL, HASH_ALGO_SHA256, 1, 2, 14, 14, 3, 2, Octets.zero 4,
    Octets.zero 32, 0, Octets.zero 32, Octets.zero 8, Octets.zero 32, Octets.zero 64,
    APPROVAL_NONE⟩

def zeroContainer : Bytes :=
  MAGIC ++ (toLe 4 232 ++ (fieldBytes zeroManifest.fields ++ (List.replicate 8 0 ++
    (List.replicate 14 0 ++ TRAILER))))

set_option maxRecDepth 4000 in
def zeroServed : ServedMota Crypto.plain := ⟨zeroContainer, zeroManifest, rfl, rfl⟩

def zeroCore : SeederCore Crypto.plain := ⟨[zeroServed], none, none⟩

/-- The block is sent as a stream that is shorter than it and inflates to it. -/
def ZeroBlockSent (b : UInt16) : Prop :=
  ∃ raw encoded, zeroServed.rawBlock b.toNat = some raw ∧ encoded ≠ [] ∧
    encoded.length < raw.length ∧ zeroInflate encoded = some raw

theorem relay_faithful_zeros : ZeroBlockSent 0 ∧ ZeroBlockSent 1 := by
  have hsent : ∀ b : UInt16, b.toNat = 0 ∨ b.toNat = 1 → ZeroBlockSent b := by
    intro b hb
    rcases (relay_faithful zeroCore noFiles zeroCompressors zeroInflate zeroCompressors_inflates 0
      zeroServed rfl).2 b with hrefused | ⟨raw, encoded, hraw, hne, hshorter, hinflate, -⟩
    · have hanswer : zeroCore.handle noFiles zeroCompressors OP_DEFLATE_BLOCK
          (deflateRequest 0 b 0 0) () = .ok (some (STATUS_OK, [4, 0]), ()) := by
        rw [handle_deflate () 0 b 0 0 (show zeroCore.folder[_]? = some zeroServed from rfl)]
        rcases hb with hb | hb
        · rw [hb]
          decide +kernel
        · rw [hb]
          decide +kernel
      rw [hrefused () 0 0] at hanswer
      cases hanswer
    · exact ⟨raw, encoded, hraw, hne, hshorter, hinflate⟩
  exact ⟨hsent 0 (.inl rfl), hsent 1 (.inr rfl)⟩

end Fidelity

end MotaTool.Serve
