import MotaTool.Serve.Relay

/-!
# The transport estimate

The estimate compresses the blocks of a payload one by one and adds up what the radio
would carry. On the payload of a served container it makes, for every block, the choice
the seeder announces.
-/

namespace MotaTool.Serve

open Base Run Format Merkle seeder

structure DeflateTransportSize where
  payloadBytes : ℕ
  blockSize : ℕ
  blockCount : ℕ
  wireBytes : ℕ
  deflateBytes : ℕ
  deflateBlocks : ℕ
  dataPackets : ℕ

structure Totals where
  wireBytes : ℕ
  deflateBytes : ℕ
  deflateBlocks : ℕ
  dataPackets : ℕ

def USIZE_BITS : ℕ := 64

def DATA_PACKET : ℕ := 171

def addTotal (a b : ℕ) : Run ℕ := ofOption (checkedAdd USIZE_BITS a b) "transport size overflow"

def addDeflated (t : Totals) (encoded : Bytes) : Run Totals := do
  let deflateBytes ← addTotal t.deflateBytes encoded.length
  assert (t.deflateBlocks + 1 < 2 ^ USIZE_BITS)
  .ok { t with deflateBytes := deflateBytes, deflateBlocks := t.deflateBlocks + 1 }

def addSelected (t : Totals) (selectedLen : ℕ) : Run Totals := do
  let wireBytes ← addTotal t.wireBytes selectedLen
  let dataPackets ← addTotal t.dataPackets (divCeil selectedLen DATA_PACKET)
  .ok { t with wireBytes := wireBytes, dataPackets := dataPackets }

def addBlock (z : Compressors) (t : Totals) (block : Bytes) : Run Totals := do
  let encoded ← ofOption (deflateRaw z block) "raw DEFLATE encoder failed"
  if encoded.isEmpty = false ∧ encoded.length < block.length then do
    let t ← addDeflated t encoded
    addSelected t encoded.length
  else addSelected t block.length

def deflateTransportSize (z : Compressors) (payload : Bytes) (blockSize : ℕ) :
    Run DeflateTransportSize := do
  ensure (payload.isEmpty = false) "payload is empty"
  ensure (2 ≤ blockSize ∧ blockSize ≤ MAX_TRANSPORT_BLOCK_SIZE ∧ isPowerOfTwo blockSize = true)
    "block size must be a power of two between 2 and 2048 bytes"
  let t ← (chunks blockSize payload).foldlM (addBlock z) ⟨0, 0, 0, 0⟩
  .ok ⟨payload.length, blockSize, divCeil payload.length blockSize, t.wireBytes, t.deflateBytes,
    t.deflateBlocks, t.dataPackets⟩

section Adding

variable {z : Compressors} {t : Totals} {block : Bytes} {n : ℕ}

def streamLength (z : Compressors) (block : Bytes) : Option ℕ :=
  (smallerStream z block).map List.length

def Totals.add (t : Totals) (stream : Option ℕ) (raw : ℕ) : Totals :=
  ⟨t.wireBytes + stream.getD raw, t.deflateBytes + stream.getD 0,
    t.deflateBlocks + (if stream.isSome then 1 else 0),
    t.dataPackets + divCeil (stream.getD raw) DATA_PACKET⟩

def Totals.Room (t : Totals) (n : ℕ) : Prop :=
  t.wireBytes + n < 2 ^ USIZE_BITS ∧ t.deflateBytes + n < 2 ^ USIZE_BITS ∧
    t.deflateBlocks + n < 2 ^ USIZE_BITS ∧ t.dataPackets + n < 2 ^ USIZE_BITS

theorem streamLength_lt {len : ℕ} (h : streamLength z block = some len) : len < block.length := by
  rw [streamLength, Option.map_eq_some_iff] at h
  obtain ⟨encoded, hencoded, rfl⟩ := h
  rw [smallerStream, Option.filter_eq_some_iff] at hencoded
  simp only [Bool.and_eq_true, decide_eq_true_eq] at hencoded
  exact hencoded.2.1.2

theorem streamLength_eq {encoded : Bytes} (hblock : block.length ≤ MAX_TRANSPORT_BLOCK_SIZE)
    (hencoded : deflateRaw z block = some encoded) : streamLength z block =
      if encoded.isEmpty = false ∧ encoded.length < block.length then some encoded.length
      else none := by
  rw [streamLength, smallerStream, hencoded, Option.filter_some]
  have hmax : MAX_TRANSPORT_BLOCK_SIZE ≤ 0xffff := by decide
  by_cases hshorter : encoded.isEmpty = false ∧ encoded.length < block.length
  · rw [if_pos hshorter, if_pos]
    · rfl
    · simp only [hshorter.1, Bool.not_false, Bool.true_and, Bool.and_eq_true, decide_eq_true_eq]
      omega
  · rw [if_neg hshorter, if_neg]
    · rfl
    · simp only [Bool.and_eq_true, Bool.not_eq_true', decide_eq_true_eq]
      exact fun hall => hshorter hall.1

theorem addTotal_ok {a b : ℕ} (h : a + b < 2 ^ USIZE_BITS) : addTotal a b = .ok (a + b) := by
  rw [addTotal, ofOption_eq_ok]
  exact checkedAdd_eq_some.mpr ⟨h, rfl⟩

theorem addSelected_ok {len : ℕ} (hwire : t.wireBytes + len < 2 ^ USIZE_BITS)
    (hpackets : t.dataPackets + len < 2 ^ USIZE_BITS) : addSelected t len =
    .ok { t with
      wireBytes := t.wireBytes + len, dataPackets := t.dataPackets + divCeil len DATA_PACKET } := by
  have hceil : divCeil len DATA_PACKET ≤ len := divCeil_le_self len (by decide)
  rw [addSelected, addTotal_ok hwire, ok_bind, addTotal_ok (by omega), ok_bind]

theorem addDeflated_ok {encoded : Bytes}
    (hdeflate : t.deflateBytes + encoded.length < 2 ^ USIZE_BITS)
    (hblocks : t.deflateBlocks + 1 < 2 ^ USIZE_BITS) : addDeflated t encoded =
    .ok { t with
      deflateBytes := t.deflateBytes + encoded.length, deflateBlocks := t.deflateBlocks + 1 } := by
  rw [addDeflated, addTotal_ok hdeflate, ok_bind, assert_of hblocks, ok_bind]

theorem addBlock_ok (hblock : block.length ≤ MAX_TRANSPORT_BLOCK_SIZE)
    (hencodes : (deflateRaw z block).isSome = true) (hroom : t.Room block.length) :
    addBlock z t block = .ok (t.add (streamLength z block) block.length) := by
  obtain ⟨encoded, hencoded⟩ := Option.isSome_iff_exists.mp hencodes
  obtain ⟨hwire, hdeflate, hblocks, hpackets⟩ := hroom
  rw [addBlock, ofOption_eq_ok.mpr hencoded, ok_bind, streamLength_eq hblock hencoded]
  by_cases hshorter : encoded.isEmpty = false ∧ encoded.length < block.length
  · obtain ⟨-, hlt⟩ := id hshorter
    rw [if_pos hshorter, if_pos hshorter, addDeflated_ok (by omega) (by omega), ok_bind,
      addSelected_ok (by simp only; omega) (by simp only; omega)]
    rfl
  · rw [if_neg hshorter, if_neg hshorter, addSelected_ok hwire hpackets]
    rfl

theorem Totals.Room.add (h : t.Room (block.length + n)) :
    (t.add (streamLength z block) block.length).Room n := by
  obtain ⟨hwire, hdeflate, hblocks, hpackets⟩ := h
  unfold Totals.add Totals.Room
  cases hstream : streamLength z block with
  | none =>
    have hceil := divCeil_le_self block.length (show 0 < DATA_PACKET by decide)
    simp only [Option.getD_none, Option.isSome_none, Bool.false_eq_true, if_false]
    omega
  | some len =>
    have hlt := streamLength_lt hstream
    have hceil := divCeil_le_self len (show 0 < DATA_PACKET by decide)
    simp only [Option.getD_some, Option.isSome_some, if_true]
    omega

theorem foldlM_addBlock {blocks : List Bytes}
    (hsmall : ∀ block ∈ blocks, block.length ≤ MAX_TRANSPORT_BLOCK_SIZE)
    (hencodes : ∀ block ∈ blocks, (deflateRaw z block).isSome = true)
    (hroom : t.Room (blocks.map List.length).sum) :
    blocks.foldlM (addBlock z) t = .ok
      ⟨t.wireBytes + (blocks.map fun b => (streamLength z b).getD b.length).sum,
        t.deflateBytes + (blocks.map fun b => (streamLength z b).getD 0).sum,
        t.deflateBlocks + (blocks.map (streamLength z)).countP Option.isSome,
        t.dataPackets +
          (blocks.map fun b => divCeil ((streamLength z b).getD b.length) DATA_PACKET).sum⟩ := by
  induction blocks generalizing t with
  | nil => rfl
  | cons block blocks ih =>
    rw [List.map_cons, List.sum_cons] at hroom
    have hfirst : t.Room block.length := by
      unfold Totals.Room at hroom ⊢
      omega
    rw [List.foldlM_cons, addBlock_ok (hsmall _ List.mem_cons_self) (hencodes _ List.mem_cons_self)
      hfirst, ok_bind, ih (fun b hb => hsmall b (List.mem_cons_of_mem _ hb))
      (fun b hb => hencodes b (List.mem_cons_of_mem _ hb)) hroom.add]
    simp only [List.map_cons, List.sum_cons, List.countP_cons, Totals.add, Nat.add_assoc,
      Nat.add_comm (List.countP _ _)]

end Adding

section Estimate

variable {c : Crypto} {φ : Type}

def announced (core : SeederCore c) (fs : FileSystem φ) (z : Compressors) (files : φ) (i : UInt8)
    (b : ℕ) : Option ℕ :=
  match core.handle fs z OP_DEFLATE_BLOCK (deflateRequest i (UInt16.ofNat b) 0 0) files with
  | .ok (some (status, payload), _) => if status = STATUS_OK then some (ofLe payload) else none
  | _ => none

/-- What the radio carries of a block: the announced total, or else the raw block. -/
def wireLength (core : SeederCore c) (fs : FileSystem φ) (z : Compressors) (files : φ) (i : UInt8)
    (served : ServedMota c) (b : ℕ) : ℕ :=
  (announced core fs z files i b).getD (((served.rawBlock b).map List.length).getD 0)

section Probe

variable {core : SeederCore c} {fs : FileSystem φ} {z : Compressors} {files : φ} {i : UInt8}
  {served : ServedMota c} (hserved : core.folder[i.toNat]? = some served)
include hserved

theorem announced_eq {b : ℕ} {raw : Bytes} (hraw : served.blocks[b]? = some raw) :
    announced core fs z files i b = streamLength z raw := by
  have hb : b < 2 ^ 16 := by
    have hin := (List.getElem?_eq_some_iff.mp hraw).1
    rw [served.blocks_length] at hin
    have hhigh := served.content.parsed.high
    omega
  have hindex : (UInt16.ofNat b).toNat = b := by
    rw [UInt16.toNat_ofNat', Nat.mod_eq_of_lt hb]
  have hstream : served.cachedDeflateBlock z b = smallerStream z raw := by
    rw [cachedDeflateBlock_eq, rawBlock_eq, hraw, Option.bind_some]
  rw [announced, handle_deflate files i _ 0 0 hserved, hindex, hstream, streamLength]
  cases hsmaller : smallerStream z raw with
  | none => rfl
  | some encoded =>
    obtain ⟨-, -, -, -, -, hlimit⟩ := cachedDeflateBlock_eq_some.mp (hstream.trans hsmaller)
    have hprobe : Admissible encoded 0 0 := by
      refine ⟨Nat.zero_le _, Nat.zero_le _, ?_⟩
      simp
    simp only [Option.map_some, Option.getD_some, sliceReply, if_pos hprobe, if_true]
    rw [UInt16.toNat_zero, List.take_zero, List.append_nil,
      ofLe_toLe (Nat.lt_of_le_of_lt hlimit (by decide))]

theorem wireLength_eq {b : ℕ} {raw : Bytes} (hraw : served.blocks[b]? = some raw) :
    wireLength core fs z files i served b = (streamLength z raw).getD raw.length := by
  rw [wireLength, announced_eq hserved hraw, rawBlock_eq, hraw]
  rfl

end Probe

theorem blocks_map {served : ServedMota c} {α : Type} {f : Bytes → α} {g : ℕ → α}
    (h : ∀ b raw, served.blocks[b]? = some raw → g b = f raw) :
    served.blocks.map f = (List.range served.manifest.blockCount).map g := by
  refine List.ext_getElem (by simp [served.blocks_length]) fun b hb _ => ?_
  rw [List.length_map] at hb
  rw [List.getElem_map, List.getElem_map, List.getElem_range,
    h b _ (List.getElem?_eq_getElem hb)]

/-- The estimate of a served payload is what the seeder announces, block for block. -/
theorem transport_estimate (core : SeederCore c) (fs : FileSystem φ) (z : Compressors) (files : φ)
    (i : UInt8) (served : ServedMota c) (hserved : core.folder[i.toNat]? = some served)
    (hencodes : ∀ b raw, served.rawBlock b = some raw → (deflateRaw z raw).isSome = true) :
    ∃ s, deflateTransportSize z (served.manifest.payloadOf served.bytes)
        served.manifest.blockSize = .ok s ∧
      s.payloadBytes = served.manifest.payloadSize.toNat ∧
      s.blockSize = served.manifest.blockSize ∧ s.blockCount = served.manifest.blockCount ∧
      s.wireBytes = ((List.range served.manifest.blockCount).map
        (wireLength core fs z files i served)).sum ∧
      s.dataPackets = ((List.range served.manifest.blockCount).map fun b =>
        divCeil (wireLength core fs z files i served b) 171).sum ∧
      s.deflateBlocks = (List.range served.manifest.blockCount).countP
        (Option.isSome ∘ announced core fs z files i) ∧
      s.deflateBytes = ((List.range served.manifest.blockCount).map fun b =>
        (announced core fs z files i b).getD 0).sum := by
  have hparsed := served.content.parsed
  have hlen := served.payload_length
  have hpayload : (served.manifest.payloadOf served.bytes).isEmpty = false := by
    rw [List.isEmpty_eq_false_iff, ← List.length_pos_iff, hparsed.payload_length]
    exact Nat.pos_of_ne_zero fun hzero => hparsed.payload (UInt32.toNat_inj.mp hzero)
  have hsize : 2 ≤ served.manifest.blockSize ∧
      served.manifest.blockSize ≤ MAX_TRANSPORT_BLOCK_SIZE ∧
      isPowerOfTwo served.manifest.blockSize = true := by
    refine ⟨?_, hparsed.blockSize_le, isPowerOfTwo_two_pow _⟩
    calc 2 = 2 ^ 1 := rfl
      _ ≤ 2 ^ served.manifest.blockSizeLog2.toNat :=
        Nat.pow_le_pow_right (by decide) (Manifest.checkBlockSize_bounds hparsed.log2).1
  have hsmall : ∀ block ∈ served.blocks, block.length ≤ MAX_TRANSPORT_BLOCK_SIZE := by
    intro block hblock
    obtain ⟨b, hb⟩ := List.getElem?_of_mem hblock
    exact rawBlock_length_le served ((rawBlock_eq served b).trans hb)
  have hstreams : ∀ block ∈ served.blocks, (deflateRaw z block).isSome = true := by
    intro block hblock
    obtain ⟨b, hb⟩ := List.getElem?_of_mem hblock
    exact hencodes b block ((rawBlock_eq served b).trans hb)
  have hroom : (⟨0, 0, 0, 0⟩ : Totals).Room (served.blocks.map List.length).sum := by
    rw [← List.length_flatten, served.blocks_flatten, hlen]
    have hword := served.manifest.payloadSize.toNat_lt
    unfold Totals.Room USIZE_BITS
    simp only
    omega
  have hannounced := fun b raw hraw => @announced_eq c φ core fs z files i served hserved b raw hraw
  have hwire := fun b raw hraw => @wireLength_eq c φ core fs z files i served hserved b raw hraw
  have hloop := foldlM_addBlock hsmall hstreams hroom
  rw [ServedMota.blocks, ServedMota.payload] at hloop
  rw [deflateTransportSize, ensure_of hpayload, ok_bind, ensure_of hsize, ok_bind, hloop, ok_bind]
  refine ⟨_, rfl, hparsed.payload_length, rfl, ?_, ?_, ?_, ?_, ?_⟩
  · rw [hparsed.payload_length, hparsed.count]
  · rw [← blocks_map hwire]
    exact Nat.zero_add _
  · rw [← blocks_map fun b raw hraw => congrArg (divCeil · 171) (hwire b raw hraw)]
    exact Nat.zero_add _
  · rw [← List.countP_map, ← blocks_map hannounced]
    exact Nat.zero_add _
  · rw [← blocks_map fun b raw hraw => congrArg (Option.getD · 0) (hannounced b raw hraw)]
    exact Nat.zero_add _

theorem zeroServed_encodes (b : ℕ) (raw : Bytes) (h : zeroServed.rawBlock b = some raw) :
    (deflateRaw zeroCompressors raw).isSome = true := by
  have hfirst : zeroServed.rawBlock 0 = some (List.replicate 8 0) := by decide +kernel
  have hsecond : zeroServed.rawBlock 1 = some (List.replicate 6 0) := by decide +kernel
  have hcount : zeroServed.manifest.blockCount = 2 := rfl
  obtain rfl | rfl | hb : b = 0 ∨ b = 1 ∨ 2 ≤ b := by omega
  · obtain rfl := Option.some.inj (hfirst.symm.trans h)
    decide +kernel
  · obtain rfl := Option.some.inj (hsecond.symm.trans h)
    decide +kernel
  · rw [rawBlock_eq,
      List.getElem?_eq_none (by rw [zeroServed.blocks_length, hcount]; exact hb)] at h
    cases h

theorem transport_estimate_zeros : ∃ s, deflateTransportSize zeroCompressors
      (zeroServed.manifest.payloadOf zeroServed.bytes) zeroServed.manifest.blockSize = .ok s ∧
    s.blockCount = 2 ∧ s.wireBytes = 8 ∧ s.dataPackets = 2 ∧ s.deflateBlocks = 2 ∧
    s.deflateBytes = 8 := by
  obtain ⟨s, hs, -, -, hcount, hwire, hpackets, hblocks, hbytes⟩ := transport_estimate zeroCore
    noFiles zeroCompressors () 0 zeroServed rfl zeroServed_encodes
  refine ⟨s, hs, hcount, ?_, ?_, ?_, ?_⟩
  · rw [hwire]
    decide +kernel
  · rw [hpackets]
    decide +kernel
  · rw [hblocks]
    decide +kernel
  · rw [hbytes]
    decide +kernel

end Estimate

end MotaTool.Serve
