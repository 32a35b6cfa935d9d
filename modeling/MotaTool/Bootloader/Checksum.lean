import MotaTool.Base.Crc
import MotaTool.Bootloader.Accepted

/-!
# What the embedded checksum detects

An accepted image carries the checksum of its own bytes, with the checksum field read as
zero. The bitwise loop is a reflected register of 32 bits that absorbs bytes, so no burst
of up to four bytes outside the field keeps the checksum, and none inside the field keeps
the stored value. An accepted image is exhibited at the end.
-/

namespace MotaTool.Bootloader

open Base Run Format

section Register

def CRC_POLY : BitVec 32 := 0xedb88320#32

def symbol (byte : UInt8) : BitVec 32 := byte.toBitVec.setWidth 32

theorem CRC_POLY_msb : CRC_POLY.msb = true := by decide

theorem crcBit_toBitVec (x : UInt32) : (crcBit x).toBitVec = Crc.shift CRC_POLY x.toBitVec := by
  have hlow : (x &&& 1).toBitVec = (BitVec.ofBool (x.toBitVec.getLsbD 0)).setWidth 32 := by
    rw [UInt32.toBitVec_and]
    exact BitVec.and_one_eq_setWidth_ofBool_getLsbD
  rw [crcBit, Crc.shift, UInt32.toBitVec_xor, UInt32.toBitVec_and, UInt32.toBitVec_sub, hlow]
  cases x.toBitVec.getLsbD 0 <;> rfl

theorem crcByte_toBitVec (x : UInt32) (b : UInt8) :
    (crcByte x b).toBitVec = Crc.absorb CRC_POLY 8 x.toBitVec (symbol b) := by
  have hbits : ∀ (l : List ℕ) (y : UInt32), (l.foldl (fun crc _ => crcBit crc) y).toBitVec =
      Crc.shifts CRC_POLY l.length y.toBitVec := fun l => by
    induction l with
    | nil => exact fun _ => rfl
    | cons a l ih =>
      intro y
      rw [List.foldl_cons, ih, crcBit_toBitVec]
      rfl
  rw [crcByte, hbits, List.length_range, Crc.absorb, UInt32.toBitVec_xor]
  rfl

theorem foldl_crcByte (bytes : Bytes) (x : UInt32) : (bytes.foldl crcByte x).toBitVec =
    Crc.digest CRC_POLY 8 x.toBitVec (bytes.map symbol) := by
  induction bytes generalizing x with
  | nil => rfl
  | cons b bytes ih =>
    rw [List.foldl_cons, ih, crcByte_toBitVec]
    rfl

theorem symbol_lt (byte : UInt8) : (symbol byte).toNat < 2 ^ 8 := by
  have hlt := byte.toBitVec.isLt
  rw [symbol, BitVec.toNat_setWidth, Nat.mod_eq_of_lt (by omega)]
  exact hlt

theorem symbol_injective : Function.Injective symbol := by
  intro a b h
  have hnat := congrArg BitVec.toNat h
  have ha := a.toBitVec.isLt
  have hb := b.toBitVec.isLt
  rw [symbol, symbol, BitVec.toNat_setWidth, BitVec.toNat_setWidth, Nat.mod_eq_of_lt (by omega),
    Nat.mod_eq_of_lt (by omega)] at hnat
  exact UInt8.toNat_inj.mp hnat

def AgreeOutside (start n : ℕ) (x y : Bytes) : Prop :=
  ∀ i, i < start ∨ start + n ≤ i → x[i]? = y[i]?

theorem crc_differs {x y : Bytes} {start n : ℕ} (hn : n ≤ 4) (hlen : x.length = y.length)
    (hsame : AgreeOutside start n x y) (hne : x ≠ y) (init : UInt32) :
    x.foldl crcByte init ≠ y.foldl crcByte init := by
  have hfront : x.take start = y.take start := by
    refine List.ext_getElem? fun i => ?_
    rw [List.getElem?_take, List.getElem?_take]
    split_ifs with hi
    · exact hsame i (.inl hi)
    · rfl
  have hback : x.drop (start + n) = y.drop (start + n) := by
    refine List.ext_getElem? fun i => ?_
    rw [List.getElem?_drop, List.getElem?_drop]
    exact hsame _ (.inr (by omega))
  have hsplit : ∀ z : Bytes,
      z = z.take start ++ ((z.drop start).take n ++ z.drop (start + n)) := fun z => by
    rw [← List.drop_drop, List.take_append_drop, List.take_append_drop]
  have hwindow : (x.drop start).take n ≠ (y.drop start).take n := by
    intro hwin
    apply hne
    rw [hsplit x, hsplit y, hfront, hback, hwin]
  intro hcrc
  have hregister := congrArg UInt32.toBitVec hcrc
  rw [foldl_crcByte, foldl_crcByte, hsplit x, hsplit y, hfront, hback, List.map_append,
    List.map_append, List.map_append, List.map_append] at hregister
  refine Crc.burst_detected CRC_POLY_msb (by decide) init.toBitVec ?_ ?_ ?_ ?_ ?_ hregister
  · rintro e he
    obtain ⟨b, -, rfl⟩ := List.mem_map.mp he
    exact symbol_lt b
  · rintro e he
    obtain ⟨b, -, rfl⟩ := List.mem_map.mp he
    exact symbol_lt b
  · rw [List.length_map, List.length_map, List.length_take, List.length_take, List.length_drop,
      List.length_drop, hlen]
  · rw [List.length_map, List.length_take]
    omega
  · exact fun hmap => hwindow (List.map_injective_iff.mpr symbol_injective hmap)

end Register

section Field

variable {c : Crypto} {image image' : Bytes} {lo hi start n : ℕ}

def zeroed (bytes : Bytes) (lo hi : ℕ) : Bytes :=
  bytes.zipIdx.map fun (stored, i) => if lo ≤ i ∧ i < hi then 0 else stored

theorem crc32WithZeroed_eq (bytes : Bytes) (lo hi : ℕ) :
    crc32WithZeroed bytes lo hi = ~~~ ((zeroed bytes lo hi).foldl crcByte 0xffffffff) := by
  rw [zeroed, List.foldl_map]
  rfl

theorem zeroed_length (bytes : Bytes) : (zeroed bytes lo hi).length = bytes.length := by
  simp [zeroed]

theorem zeroed_getElem? (bytes : Bytes) (i : ℕ) : (zeroed bytes lo hi)[i]? =
    bytes[i]?.map fun stored => if lo ≤ i ∧ i < hi then 0 else stored := by
  rw [zeroed, List.getElem?_map, List.getElem?_zipIdx, Option.map_map, Nat.zero_add]
  rfl

theorem zeroed_behind (a v : Bytes) :
    zeroed (a ++ v) (a.length + lo) (a.length + hi) = a ++ zeroed v lo hi := by
  refine List.ext_getElem? fun i => ?_
  rw [zeroed_getElem?]
  by_cases hin : i < a.length
  · rw [List.getElem?_append_left hin, List.getElem?_append_left hin,
      List.getElem?_eq_getElem hin, Option.map_some, if_neg (by omega)]
  · have hrange : a.length + lo ≤ i ∧ i < a.length + hi ↔
        lo ≤ i - a.length ∧ i - a.length < hi := by omega
    rw [List.getElem?_append_right (by omega), List.getElem?_append_right (by omega),
      zeroed_getElem?]
    simp only [hrange]

def CRC_FIELD : ℕ := CANDIDATE_MANIFEST_OFFSET + 40

theorem Accepted.crc {targetId version : UInt32} {hwId : Octets 32} {e : BootloaderIdentity}
    {storage : UInt8} (h : Accepted c image targetId hwId version e storage) :
    rdU32 image CRC_FIELD = .ok (crc32WithZeroed image CRC_FIELD (CRC_FIELD + 4)) := by
  have hfound := (parseIdentity_found h.parsed).crc
  rw [h.offset] at hfound
  exact hfound

theorem crc_inside (hlen : image'.length = image.length)
    (hsame : AgreeOutside start n image image') (hin : lo ≤ start ∧ start + n ≤ hi) :
    crc32WithZeroed image' lo hi = crc32WithZeroed image lo hi := by
  rw [crc32WithZeroed_eq, crc32WithZeroed_eq]
  congr 2
  refine List.ext_getElem? fun i => ?_
  rw [zeroed_getElem?, zeroed_getElem?]
  by_cases hfield : lo ≤ i ∧ i < hi
  · simp only [hfield, and_self, if_true]
    by_cases hlt : i < image.length
    · rw [List.getElem?_eq_getElem hlt, List.getElem?_eq_getElem (by omega)]
      rfl
    · rw [List.getElem?_eq_none (by omega), List.getElem?_eq_none (by omega)]
  · rw [hsame i (by omega)]

theorem stored_differs (hne : image' ≠ image) (hsame : AgreeOutside start n image image')
    (hin : lo ≤ start ∧ start + n ≤ lo + 4) {v v' : UInt32}
    (hv : rdU32 image lo = .ok v) (hv' : rdU32 image' lo = .ok v') : v' ≠ v := by
  intro heq
  have hword := (rdU32_eq_ok.mp hv).2
  have hword' := (rdU32_eq_ok.mp hv').2
  rw [heq, hword] at hword'
  refine hne (List.ext_getElem? fun i => ?_)
  by_cases hi : lo ≤ i ∧ i < lo + 4
  · have hcell := congrArg (·[i - lo]?) hword'
    simp only [List.getElem?_take_of_lt (show i - lo < 4 by omega), List.getElem?_drop,
      Nat.add_sub_cancel' hi.1] at hcell
    exact hcell.symm
  · exact (hsame i (by omega)).symm

theorem crc_outside (hn : n ≤ 4) (hlen : image'.length = image.length) (hne : image' ≠ image)
    (hsame : AgreeOutside start n image image') (hout : start + n ≤ lo ∨ hi ≤ start) :
    crc32WithZeroed image' lo hi ≠ crc32WithZeroed image lo hi := by
  have houtside : AgreeOutside start n (zeroed image lo hi) (zeroed image' lo hi) := by
    intro i hi'
    rw [zeroed_getElem?, zeroed_getElem?, hsame i hi']
  have hdiffer : zeroed image lo hi ≠ zeroed image' lo hi := by
    intro hzeroed
    refine hne (List.ext_getElem? fun i => ?_)
    by_cases hwin : i < start ∨ start + n ≤ i
    · exact (hsame i hwin).symm
    · have hcell := congrArg (·[i]?) hzeroed
      have hkept : ¬ (lo ≤ i ∧ i < hi) := by omega
      simp only [zeroed_getElem?, if_neg hkept, Option.map_id'] at hcell
      exact hcell.symm
  intro hcrc
  rw [crc32WithZeroed_eq, crc32WithZeroed_eq, UInt32.not_inj] at hcrc
  exact crc_differs hn (by rw [zeroed_length, zeroed_length, hlen]) houtside hdiffer _ hcrc.symm

/-- No burst of up to four bytes, inside the checksum field or outside it, leaves an
accepted image acceptable. -/
theorem postprocessing_detected (c : Crypto) (image image' : Bytes) (targetId version : UInt32)
    (hwId : Octets 32) (id : BootloaderIdentity)
    (haccepted : validateBootloaderImage c image targetId hwId version = .ok id)
    (hlen : image'.length = image.length) (hne : image' ≠ image) (start n : ℕ) (hn : n ≤ 4)
    (hsame : AgreeOutside start n image image')
    (hwindow : (CRC_FIELD ≤ start ∧ start + n ≤ CRC_FIELD + 4) ∨
      (start + n ≤ CRC_FIELD ∨ CRC_FIELD + 4 ≤ start)) :
    ∀ targetId' hwId' version', ∃ chain,
      validateBootloaderImage c image' targetId' hwId' version' = .error (.error chain) := by
  intro targetId' hwId' version'
  have hreturns := validateBootloaderImage_returns c image' targetId' hwId' version'
  cases hresult : validateBootloaderImage c image' targetId' hwId' version' with
  | error fault =>
    rw [hresult] at hreturns
    cases fault with
    | error chain => exact ⟨chain, rfl⟩
    | panic => exact absurd rfl hreturns.1
    | spin => exact absurd rfl hreturns.2
  | ok id' =>
    exfalso
    obtain ⟨e, storage, h, -⟩ := validate_eq_ok.mp haccepted
    obtain ⟨e', storage', h', -⟩ := validate_eq_ok.mp hresult
    rcases hwindow with hin | hout
    · exact stored_differs hne hsame hin h.crc h'.crc (crc_inside hlen hsame hin)
    · obtain ⟨-, hstored⟩ := rdU32_eq_ok.mp h.crc
      obtain ⟨-, hstored'⟩ := rdU32_eq_ok.mp h'.crc
      refine crc_outside hn hlen hne hsame hout (u32Le_inj ?_)
      rw [hstored', hstored]
      refine List.ext_getElem? fun i => ?_
      rw [List.getElem?_take, List.getElem?_take, List.getElem?_drop, List.getElem?_drop]
      split_ifs with hi
      · exact (hsame _ (by omega)).symm
      · rfl

end Field

section Sample

def sampleMarker : Bytes := CAPS_MAGIC ++ [3, 0, 5, 0, 0x0e, 0, 0, 0]

def sampleManifest : Bytes :=
  MANIFEST_MAGIC ++ [1, 0, 44, 0, 0, 0x40, 0x0f, 0, 0, 0xa0, 0, 0, 0x44, 0, 0x86, 0x28] ++
    (ascii ['X', 'I', 'A', 'O', '_', 'D', 'F', 'U'] ++ List.replicate 8 0 ++ [2, 223, 29, 237])

def sampleExtension : Bytes :=
  CONTINUITY_MAGIC ++ [2, 0, 32, 0, 1, 0, 0, 0, 140, 0, 0x23, 1, 0, 0x70, 2, 0, 1, 0] ++
    List.replicate 6 0

def sampleTail : Bytes := sampleMarker ++ (sampleManifest ++ sampleExtension)

/-- What an image has in front of the sample records: a vector table, no start of a record, and
bytes that leave the checksum register clear. -/
structure Front (front : Bytes) : Prop where
  length : front.length = 40868
  vector : validateVector front = .ok ()
  blank : ∀ b ∈ front, b ≠ 0x42 ∧ b ≠ 0x4d
  crc : front.foldl crcByte 0xffffffff = 0

theorem validateVector_front {a v : Bytes} (h : 8 ≤ a.length) :
    validateVector (a ++ v) = validateVector a := by
  have hword : ∀ o, o + 4 ≤ 8 → rdU32 (a ++ v) o = rdU32 a o := fun o ho => by
    rw [rdU32, rdU32, slice_ok (by omega) (by rw [List.length_append]; omega),
      slice_ok (by omega) (by omega), List.drop_append_of_le_length (by omega),
      List.take_append_of_le_length (by rw [List.length_drop]; omega)]
  rw [validateVector, hword 0 (by decide), hword 4 (by decide), validateVector]

variable {front : Bytes} (h : Front front)
include h

theorem Front.image_length : (front ++ sampleTail).length = IMAGE_SIZE := by
  rw [List.length_append, h.length]
  rfl

theorem Front.slice (lo hi : ℕ) :
    slice (front ++ sampleTail) (40868 + lo) (40868 + hi) = Base.slice sampleTail lo hi := by
  rw [← h.length, slice_behind]

theorem Front.u16 (o : ℕ) : rdU16 (front ++ sampleTail) (40868 + o) = rdU16 sampleTail o := by
  rw [rdU16, Nat.add_assoc, h.slice, rdU16]

theorem Front.u32 (o : ℕ) : rdU32 (front ++ sampleTail) (40868 + o) = rdU32 sampleTail o := by
  rw [rdU32, Nat.add_assoc, h.slice, rdU32]

theorem Front.drop (o : ℕ) : (front ++ sampleTail).drop (40868 + o) = sampleTail.drop o := by
  rw [← h.length, List.drop_length_add_append]

theorem Front.before {o : ℕ} (ho : o < 40868) : ∃ b rest, b ≠ 0x42 ∧ b ≠ 0x4d ∧
    Base.slice (front ++ sampleTail) o (o + 8) = .ok (b :: rest) := by
  have hin : o < front.length := by
    rw [h.length]
    exact ho
  have hlen : o < (front ++ sampleTail).length := by
    rw [List.length_append]
    omega
  have hfit : o + 8 ≤ (front ++ sampleTail).length := by
    rw [h.image_length]
    exact (show o + 8 ≤ 40960 by omega)
  obtain ⟨hb, hm⟩ := h.blank _ (List.getElem_mem hin)
  refine ⟨front[o], ((front ++ sampleTail).drop (o + 1)).take 7, hb, hm, ?_⟩
  rw [slice_ok (by omega) hfit, Nat.add_sub_cancel_left, List.drop_eq_getElem_cons hlen,
    List.take_succ_cons, List.getElem_append_left hin]

theorem Front.checksum :
    crc32WithZeroed (front ++ sampleTail) CRC_FIELD (CRC_FIELD + 4) = 0xed1ddf02 := by
  have htail : (zeroed sampleTail 56 60).foldl crcByte 0 = 0x12e220fd := by decide +kernel
  have hfield : zeroed (front ++ sampleTail) CRC_FIELD (CRC_FIELD + 4) =
      front ++ zeroed sampleTail 56 60 := by
    rw [← zeroed_behind front, h.length]
    rfl
  rw [crc32WithZeroed_eq, hfield, List.foldl_append, h.crc, htail]
  rfl

theorem Front.manifestAt : manifestAt (front ++ sampleTail) CANDIDATE_MANIFEST_OFFSET =
    .ok (some ⟨CANDIDATE_MANIFEST_OFFSET, XIAO_BASE, "XIAO_DFU"⟩) := by
  have hmagic : Base.slice (front ++ sampleTail) CANDIDATE_MANIFEST_OFFSET
      (CANDIDATE_MANIFEST_OFFSET + 8) = .ok MANIFEST_MAGIC := (h.slice 16 24).trans rfl
  have hversion : rdU16 (front ++ sampleTail) (CANDIDATE_MANIFEST_OFFSET + 8) =
      .ok MANIFEST_VERSION := (h.u16 24).trans rfl
  have hsize : rdU16 (front ++ sampleTail) (CANDIDATE_MANIFEST_OFFSET + 10) = .ok 44 :=
    (h.u16 26).trans rfl
  have hstart : rdU32 (front ++ sampleTail) (CANDIDATE_MANIFEST_OFFSET + 12) = .ok IMAGE_START :=
    (h.u32 28).trans rfl
  have himage : rdU32 (front ++ sampleTail) (CANDIDATE_MANIFEST_OFFSET + 16) = .ok 40960 :=
    (h.u32 32).trans rfl
  have hboard : rdU32 (front ++ sampleTail) (CANDIDATE_MANIFEST_OFFSET + 20) = .ok XIAO_BASE :=
    (h.u32 36).trans rfl
  have hstored : rdU32 (front ++ sampleTail) (CANDIDATE_MANIFEST_OFFSET + 40) =
      .ok 0xed1ddf02 := (h.u32 56).trans rfl
  have hraw : octets 16 (front ++ sampleTail) (CANDIDATE_MANIFEST_OFFSET + 24) =
      .ok (Octets.padded 16 (utf8 "XIAO_DFU")) := by
    rw [octets_eq_ok]
    change _ = ((front ++ sampleTail).drop (40868 + 40)).take 16
    rw [h.drop]
    decide +kernel
  have hname : validDeviceName XIAO_BASE (Octets.padded 16 (utf8 "XIAO_DFU")) =
      some "XIAO_DFU" := by decide +kernel
  have hcrc := h.checksum
  rw [CRC_FIELD] at hcrc
  rw [Bootloader.manifestAt, hmagic, ok_bind, if_neg (by simp), hversion, ok_bind, hsize, ok_bind,
    hstart, ok_bind, himage, ok_bind, hboard, ok_bind, hraw, ok_bind, hname]
  simp only
  rw [hstored, ok_bind, if_neg]
  rw [hcrc]
  decide

theorem Front.findManifest : findManifest (front ++ sampleTail) =
    .ok ⟨CANDIDATE_MANIFEST_OFFSET, XIAO_BASE, "XIAO_DFU"⟩ := by
  have hlen := h.image_length
  refine findManifest_unique (by decide) (by rw [hlen]; decide) h.manifestAt
    fun o hword hfit hne => ?_
  by_cases ho : o < 40868
  · obtain ⟨b, rest, hb, -, hslice⟩ := h.before ho
    refine manifestAt_other hslice fun hmagic => hb ?_
    exact (List.cons.inj hmagic).1
  · rw [hlen] at hfit
    have hbound : o + 44 ≤ 40960 := hfit
    obtain ⟨k, rfl⟩ : ∃ k, o = 40868 + 4 * k := ⟨(o - 40868) / 4, by omega⟩
    have hother : ∀ k < 13, k ≠ 4 → (sampleTail.drop (4 * k)).take 8 ≠ MANIFEST_MAGIC := by decide
    have hne' : k ≠ 4 := fun hk => hne (by rw [hk]; rfl)
    refine manifestAt_other ?_ (hother k (by omega) hne')
    rw [Nat.add_assoc, h.slice, slice_ok (by omega) (show 4 * k + 8 ≤ 92 by omega),
      Nat.add_sub_cancel_left]

theorem Front.capability : capabilityStorage (front ++ sampleTail) =
    .ok (some STORAGE_QSPI_UPDATE) := by
  have hlen := h.image_length
  have hmagic : Base.slice (front ++ sampleTail) 40868 (40868 + 8) = .ok CAPS_MAGIC :=
    (h.slice 0 8).trans rfl
  have habi : rdU16 (front ++ sampleTail) (40868 + 8) = .ok 3 := (h.u16 8).trans rfl
  have hcodecs : rdU16 (front ++ sampleTail) (40868 + 10) = .ok 5 := (h.u16 10).trans rfl
  have hstorage : index (front ++ sampleTail) (40868 + 12) = .ok STORAGE_QSPI_UPDATE := by
    refine index_of_take ?_
    rw [h.drop]
    rfl
  have hpadding : Base.slice (front ++ sampleTail) (40868 + 13) (40868 + 16) = .ok [0, 0, 0] :=
    (h.slice 13 16).trans rfl
  have hat : capabilityAt (front ++ sampleTail) 40868 = .ok (some STORAGE_QSPI_UPDATE) := by
    rw [capabilityAt, hmagic, ok_bind, if_neg (by simp), habi, ok_bind, hcodecs, ok_bind, hstorage,
      ok_bind, hpadding, ok_bind, if_neg (by decide)]
  refine capabilityStorage_unique (by decide) (by rw [hlen]; decide) hat (by decide)
    fun o hword hfit hne => ?_
  by_cases ho : o < 40868
  · obtain ⟨b, rest, -, hm, hslice⟩ := h.before ho
    refine capabilityAt_other hslice fun hmagic => hm ?_
    exact (List.cons.inj hmagic).1
  · rw [hlen] at hfit
    have hbound : o + 16 ≤ 40960 := hfit
    obtain ⟨k, rfl⟩ : ∃ k, o = 40868 + 4 * k := ⟨(o - 40868) / 4, by omega⟩
    have hother : ∀ k < 20, k ≠ 0 → (sampleTail.drop (4 * k)).take 8 ≠ CAPS_MAGIC := by decide
    refine capabilityAt_other ?_ (hother k (by omega) fun hk => hne (by rw [hk]))
    rw [Nat.add_assoc, h.slice, slice_ok (by omega) (show 4 * k + 8 ≤ 92 by omega),
      Nat.add_sub_cancel_left]

def sampleIdentity : BootloaderIdentity :=
  ⟨CANDIDATE_MANIFEST_OFFSET, XIAO_BASE, "XIAO_DFU", 1,
    ⟨FAMILY_S140, S140_V7_FWID, APP_BASE_S140_V7, LAYOUT_ABI⟩, 0⟩

theorem Front.parseIdentity : parseIdentity (front ++ sampleTail) = .ok sampleIdentity := by
  have hrange : getRange (front ++ sampleTail) (CANDIDATE_MANIFEST_OFFSET + MANIFEST_SIZE)
      (CANDIDATE_MANIFEST_OFFSET + ENVELOPE_SIZE) = some sampleExtension := by
    rw [getRange, if_pos ⟨by decide, by rw [h.image_length]; decide⟩]
    change some (((front ++ sampleTail).drop (40868 + 60)).take 32) = _
    rw [h.drop]
    rfl
  rw [Bootloader.parseIdentity, h.findManifest, ok_bind, hrange]
  rfl

def sampleHwId : Octets 32 := Octets.padded 32 (utf8 "XIAO_BL_28860044")

theorem Front.accepted (c : Crypto) : Accepted c (front ++ sampleTail) XIAO_BASE sampleHwId 1
    sampleIdentity STORAGE_QSPI_UPDATE where
  size := h.image_length
  vector := by
    rw [validateVector_front (by rw [h.length]; decide)]
    exact h.vector
  parsed := h.parseIdentity
  offset := rfl
  outer := rfl
  target := rfl
  hardware := by
    have hvalid : nameMatches XIAO_BASE "XIAO_DFU" = .ok true := by decide +kernel
    have hfits : (utf8 (hwIdText XIAO_BASE "XIAO_DFU")).length ≤ 32 := by decide +kernel
    change bootloaderHwId XIAO_BASE "XIAO_DFU" = _
    rw [bootloaderHwId, hvalid, ok_bind, ensure_of rfl, ok_bind]
    simp only
    rw [ensure_of hfits, ok_bind]
    rfl
  marker := h.capability
  qualified := by decide +kernel
  platform := by decide +kernel

end Sample

theorem zeros_keep_clear (n : ℕ) : (List.replicate n 0).foldl crcByte 0 = 0 := by
  have hzero : crcByte 0 0 = 0 := by decide
  induction n with
  | zero => rfl
  | succ n ih => rw [List.replicate_succ, List.foldl_cons, hzero, ih]

theorem head_front {head : Bytes} {n : ℕ} (hn : n = 40856) (hlength : head.length = 12)
    (hvector : validateVector head = .ok ()) (hblank : ∀ b ∈ head, b ≠ 0x42 ∧ b ≠ 0x4d)
    (hcrc : head.foldl crcByte 0xffffffff = 0) : Front (head ++ List.replicate n 0) where
  length := by
    rw [List.length_append, List.length_replicate, hn, hlength]
  vector := by
    rw [validateVector_front (by rw [hlength]; decide)]
    exact hvector
  blank := by
    intro b hb
    rcases List.mem_append.mp hb with hb | hb
    · exact hblank b hb
    · rw [List.eq_of_mem_replicate hb]
      decide
  crc := by
    rw [List.foldl_append, hcrc, zeros_keep_clear]

def sampleHead : Bytes := [0, 0, 0, 0x20, 1, 0x40, 0x0f, 0, 248, 249, 162, 20]

theorem sampleHead_front {n : ℕ} (hn : n = 40856) : Front (sampleHead ++ List.replicate n 0) :=
  head_front hn rfl rfl (by decide +kernel) (by decide +kernel)

def sampleImage : Bytes := sampleHead ++ List.replicate 40856 0 ++ sampleTail

theorem sampleImage_accepted (c : Crypto) :
    validateBootloaderImage c sampleImage XIAO_BASE sampleHwId 1 =
      .ok { sampleIdentity with storageFlags := STORAGE_QSPI_UPDATE } :=
  validate_eq_ok.mpr ⟨_, _, (sampleHead_front rfl).accepted c, rfl⟩

def patchedImage : Bytes := (8 :: sampleHead.tail) ++ List.replicate 40856 0 ++ sampleTail

theorem postprocessing_detected_vector : ∃ chain,
    validateBootloaderImage Crypto.plain patchedImage XIAO_BASE sampleHwId 1 =
      .error (.error chain) := by
  have hlen : patchedImage.length = sampleImage.length := by
    have hhead : (8 :: sampleHead.tail).length = sampleHead.length := rfl
    rw [patchedImage, sampleImage, List.length_append, List.length_append, List.length_append,
      List.length_append, hhead]
  refine postprocessing_detected Crypto.plain sampleImage patchedImage XIAO_BASE 1 sampleHwId _
    (sampleImage_accepted Crypto.plain) hlen ?_ 0 1 (by decide) ?_ (.inr (.inl (by decide)))
    XIAO_BASE sampleHwId 1
  · intro heq
    exact absurd (List.cons.inj heq).1 (by decide)
  · intro i hi
    obtain ⟨k, rfl⟩ : ∃ k, i = k + 1 := ⟨i - 1, by omega⟩
    rfl

end MotaTool.Bootloader
