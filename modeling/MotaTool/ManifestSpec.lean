import MotaTool.Bootloader.IdentitySpec
import MotaTool.Manifest

/-!
# What a parsed manifest says about its container

The parser is unfolded once, into the facts about the container that its
acceptance establishes. The fields tile the manifest and the geometry equation
fixes the two variable parts, so that the container is the concatenation of
what the parser has looked at.
-/

namespace MotaTool.Manifest

open Base Run Format

/-- The container's facts behind an accepted manifest. -/
structure Parsed (c : Crypto) (blob : Bytes) (m : Manifest) : Prop where
  size : HEADER_LEN + MFL + TRAILER_LEN ≤ blob.length
  magic : blob.take 4 = MAGIC
  total : (blob.drop 4).take 4 = toLe 4 blob.length
  trailer : blob.drop (blob.length - TRAILER_LEN) = TRAILER
  fields : ∀ field ∈ m.fields, field.2 = ((blob.drop HEADER_LEN).drop field.1).take field.2.length
  flags : checkFlags m.formatVer m.flags = .ok ()
  log2 : checkBlockSize m.formatVer m.blockSizeLog2 = .ok ()
  payload : m.payloadSize ≠ 0
  count : m.blockCount = divCeil m.payloadSize.toNat m.blockSize
  low : 1 ≤ m.blockCount
  high : m.blockCount ≤ 0xffff
  geometry : m.totalSize = blob.length
  bootloader : checkBootloader c blob m = .ok ()

theorem readFields_fields {mf : Bytes} {formatVer flags log2 : UInt8} {payloadSize : UInt32}
    {blockCount : ℕ} {m : Manifest}
    (hver : index mf off.FORMAT_VER = .ok formatVer) (hflags : index mf off.FLAGS = .ok flags)
    (hlog : index mf off.BLOCK_SIZE_LOG2 = .ok log2)
    (hsize : rdU32 mf off.PAYLOAD_SIZE = .ok payloadSize)
    (h : readFields mf formatVer flags payloadSize log2 blockCount = .ok m) :
    (∀ field ∈ m.fields, field.2 = (mf.drop field.1).take field.2.length) ∧
      m.formatVer = formatVer ∧ m.flags = flags ∧ m.payloadSize = payloadSize ∧
      m.blockSizeLog2 = log2 ∧ m.blockCount = blockCount := by
  simp only [readFields, bind_eq_ok] at h
  obtain ⟨hashAlgo, hhash, targetId, htarget, fwVersion, hfw, imageSize, himage, merkleRoot, hroot,
    imageHash, hdigest, codecId, hcodec, hwId, hhw, baseHash, hbase, signer, hsigner, signature,
    hsig, approval, happ, hm⟩ := h
  cases hm
  have hword : ∀ {v : UInt32} {o : ℕ}, rdU32 mf o = .ok v →
      u32Le v = (mf.drop o).take (u32Le v).length := fun hv => by
    rw [u32Le_length, (rdU32_eq_ok.mp hv).2]
  have hfixed : ∀ {n o : ℕ} {w : Octets n}, octets n mf o = .ok w →
      w.val = (mf.drop o).take w.val.length := fun hw => by
    rw [Octets.length_val, octets_eq_ok.mp hw]
  refine ⟨?_, rfl, rfl, rfl, rfl, rfl⟩
  simp only [Manifest.fields, List.forall_mem_cons]
  exact ⟨index_take hver, index_take hflags, index_take hhash, hword htarget, hword hfw,
    hword himage, hword hsize, index_take hlog, hfixed hroot, hfixed hdigest, index_take hcodec,
    hfixed hhw, hfixed hbase, hfixed hsigner, hfixed hsig, hfixed happ, by simp⟩

theorem parse_parsed {c : Crypto} {blob : Bytes} {m : Manifest} (h : parse c blob = .ok m) :
    Parsed c blob m := by
  simp only [parse, bind_eq_ok, ensure_eq_ok, assert_eq_ok, exists_unit] at h
  obtain ⟨hsize, magic, hmagic, rfl, total, htotal, hlen, trailer, htrailer, rfl, mf, hmf,
    formatVer, hver, flags, hflags, hcheckFlags, log2, hlog, payloadSize, hpayload, hne, hcheckLog,
    hshift, hrange, m', hfields, hgeometry, hboot, hm⟩ := h
  cases hm
  obtain ⟨-, -, hmagic⟩ := slice_eq_ok.mp hmagic
  obtain ⟨hle, -, htrailer⟩ := slice_eq_ok.mp htrailer
  obtain ⟨-, -, rfl⟩ := slice_eq_ok.mp hmf
  have hbody : (blob.drop HEADER_LEN).take (blob.length - HEADER_LEN) = blob.drop HEADER_LEN :=
    List.take_of_length_le (by rw [List.length_drop])
  rw [hbody] at hver hflags hlog hpayload hfields
  obtain ⟨hall, rfl, rfl, rfl, rfl, hcount⟩ := readFields_fields hver hflags hlog hpayload hfields
  refine ⟨hsize, hmagic.symm, ?_, ?_, hall, hcheckFlags, hcheckLog, hne, hcount, ?_, ?_,
    hgeometry, hboot⟩
  · rw [← (rdU32_eq_ok.mp htotal).2, u32Le, hlen]
  · rw [htrailer, List.take_of_length_le (by rw [List.length_drop])]
  · rw [hcount]
    exact hrange.1
  · rw [hcount]
    exact hrange.2

section Geometry

variable {c : Crypto} {blob : Bytes} {m : Manifest}

theorem Parsed.payload_end (h : Parsed c blob m) :
    m.payloadOff + m.payloadSize.toNat + TRAILER_LEN = blob.length := h.geometry

theorem payloadOff_eq (m : Manifest) : m.payloadOff = m.leavesOff + 4 * m.blockCount := by
  rw [payloadOff, Nat.mul_comm]

theorem Parsed.leaves_length (h : Parsed c blob m) :
    (m.leavesOf blob).length = 4 * m.blockCount := by
  have hend := h.payload_end
  have hoff := payloadOff_eq m
  rw [leavesOf, List.length_take, List.length_drop]
  omega

theorem Parsed.payload_length (h : Parsed c blob m) :
    (m.payloadOf blob).length = m.payloadSize.toNat := by
  have hend := h.payload_end
  rw [payloadOf, List.length_take, List.length_drop]
  omega

theorem blockSize_pos (m : Manifest) : 0 < m.blockSize := Nat.two_pow_pos _

theorem Parsed.blocks_cover (h : Parsed c blob m) :
    (m.blockCount - 1) * m.blockSize < m.payloadSize.toNat ∧
      m.payloadSize.toNat ≤ m.blockCount * m.blockSize := by
  have hlow := h.low
  have hcover := le_divCeil_mul m.payloadSize.toNat m.blockSize_pos
  rw [← h.count] at hcover
  refine ⟨(lt_divCeil_iff m.blockSize_pos).mp ?_, hcover⟩
  rw [← h.count]
  omega

end Geometry

theorem fieldBytes_length (m : Manifest) : (fieldBytes m.fields).length = MFL := by
  have hlen := m.fields_tile.length
  omega

theorem ext_fields {m n : Manifest} (h : fieldBytes m.fields = fieldBytes n.fields)
    (hcount : m.blockCount = n.blockCount) : m = n := by
  have hall := fieldBytes_inj (by simp [fields, Octets.length_val]) h
  simp only [fields, List.map_cons, List.map_nil, List.cons.injEq, and_true] at hall
  obtain ⟨h0, h1, h2, h3, h4, h5, h6, h7, h8, h9, h10, h11, h12, h13, h14, h15⟩ := hall
  cases m
  cases n
  simp only [mk.injEq]
  exact ⟨h0, h1, h2, u32Le_inj h3, u32Le_inj h4, u32Le_inj h5, u32Le_inj h6, h7, hcount,
    Subtype.ext h8, Subtype.ext h9, h10, Subtype.ext h11, Subtype.ext h12, Subtype.ext h13,
    Subtype.ext h14, Subtype.ext h15⟩

theorem fields_geometry {m n : Manifest} (h : fieldBytes m.fields = fieldBytes n.fields) :
    m.payloadSize = n.payloadSize ∧ m.blockSize = n.blockSize := by
  have hall := fieldBytes_inj (by simp [fields, Octets.length_val]) h
  simp only [fields, List.map_cons, List.map_nil, List.cons.injEq, and_true] at hall
  obtain ⟨-, -, -, -, -, -, h6, h7, -⟩ := hall
  exact ⟨u32Le_inj h6, by rw [blockSize, blockSize, h7]⟩

def signedPrefix (m : Manifest) : Bytes := (fieldBytes m.fields).take SIGNED_LEN

theorem writeFields_fields (m : Manifest) :
    writeFields (List.replicate MFL 0) m.fields = .ok (fieldBytes m.fields) := by
  have hwrite := @Tiles.write _ [] (List.replicate MFL 0) MFL m.fields (fields_tile m) (by simp)
  rw [overlay_nil, List.nil_append,
    overlay_full (by rw [List.length_replicate, fieldBytes_length])] at hwrite
  exact hwrite

section Split

variable {c : Crypto} {blob : Bytes} {m : Manifest}

theorem Parsed.header (h : Parsed c blob m) :
    blob.take HEADER_LEN = MAGIC ++ toLe 4 blob.length := by
  rw [show HEADER_LEN = 4 + 4 from rfl, List.take_add, h.magic, h.total]

theorem Parsed.body (h : Parsed c blob m) :
    blob.drop (HEADER_LEN + MFL) = m.leavesOf blob ++ (m.payloadOf blob ++ TRAILER) := by
  have hend := h.payload_end
  have hoff := payloadOff_eq m
  have htrailer : blob.drop (m.payloadOff + m.payloadSize.toNat) = TRAILER := by
    rw [← h.trailer]
    congr 1
    omega
  have hpayload : blob.drop m.payloadOff = m.payloadOf blob ++ TRAILER := by
    rw [← htrailer, payloadOf, ← List.drop_drop, List.take_append_drop]
  have hnext : blob.drop m.payloadOff =
      (blob.drop m.leavesOff).drop (m.payloadOff - m.leavesOff) := by
    rw [List.drop_drop, Nat.add_sub_cancel' (by omega)]
  rw [← hpayload, hnext, leavesOf, List.take_append_drop]
  rfl

theorem Parsed.split (h : Parsed c blob m) :
    blob = MAGIC ++ (toLe 4 m.totalSize ++ (fieldBytes m.fields ++
      (m.leavesOf blob ++ (m.payloadOf blob ++ TRAILER)))) := by
  have hfields : fieldBytes m.fields = (blob.drop HEADER_LEN).take MFL :=
    (fields_tile m).read h.fields
  rw [← h.body, hfields, ← List.drop_drop, List.take_append_drop, h.geometry,
    ← List.append_assoc, ← h.header, List.take_append_drop]

end Split

theorem Parsed.serialize {c : Crypto} {blob : Bytes} {m : Manifest} (h : Parsed c blob m) :
    m.serialize (m.leavesOf blob) (m.payloadOf blob) = .ok blob := by
  rw [Manifest.serialize, writeFields_fields, ok_bind, ← h.split]

section Returns

theorem checkFlags_version {formatVer flags : UInt8} (h : checkFlags formatVer flags = .ok ()) :
    formatVer = APP_FORMAT_VER ∨ formatVer = BOOT_FORMAT_VER := by
  unfold checkFlags at h
  split_ifs at h with happ hboot
  · exact .inl happ
  · exact .inr hboot
  · exact absurd h bail_ne_ok

theorem checkBlockSize_bounds {formatVer log2 : UInt8}
    (h : checkBlockSize formatVer log2 = .ok ()) : 1 ≤ log2.toNat ∧ log2.toNat ≤ 11 := by
  have happ : Nat.log2 MAX_APPLICATION_BLOCK_SIZE = 11 := by decide
  have hboot : Nat.log2 BOOTLOADER_BLOCK_SIZE = 10 := by decide
  unfold checkBlockSize at h
  split_ifs at h
  · simp only [bind_eq_ok, ensure_eq_ok, exists_unit, happ, UInt8.le_iff_toNat_le] at h
    exact h
  · rw [ensure_eq_ok, hboot] at h
    omega
  · simp [Run.panic] at h

theorem checkFlags_returns (formatVer flags : UInt8) : Returns (checkFlags formatVer flags) := by
  unfold checkFlags
  split_ifs <;> simp

theorem checkBlockSize_returns {formatVer : UInt8}
    (h : formatVer = APP_FORMAT_VER ∨ formatVer = BOOT_FORMAT_VER) (log2 : UInt8) :
    Returns (checkBlockSize formatVer log2) := by
  unfold checkBlockSize
  split_ifs with happ hboot
  · exact (returns_ensure _ _).bind fun _ _ => returns_ensure _ _
  · exact returns_ensure _ _
  · exact absurd h (not_or.mpr ⟨happ, hboot⟩)

theorem Parsed.blockSize_le {c : Crypto} {blob : Bytes} {m : Manifest} (h : Parsed c blob m) :
    m.blockSize ≤ MAX_APPLICATION_BLOCK_SIZE := by
  calc m.blockSize = 2 ^ m.blockSizeLog2.toNat := rfl
    _ ≤ 2 ^ 11 := Nat.pow_le_pow_right (by decide) (checkBlockSize_bounds h.log2).2
    _ = MAX_APPLICATION_BLOCK_SIZE := by decide

open Bootloader in
theorem readFields_returns {mf : Bytes} (h : MFL ≤ mf.length) (formatVer flags : UInt8)
    (payloadSize : UInt32) (log2 : UInt8) (blockCount : ℕ) :
    Returns (readFields mf formatVer flags payloadSize log2 blockCount) := by
  simp only [MFL] at h
  refine (index_returns (by simp only [off.HASH_ALGO]; omega)).bind fun _ _ => ?_
  refine (rdU32_returns (by simp only [off.TARGET_ID]; omega)).bind fun _ _ => ?_
  refine (rdU32_returns (by simp only [off.FW_VERSION]; omega)).bind fun _ _ => ?_
  refine (rdU32_returns (by simp only [off.IMAGE_SIZE]; omega)).bind fun _ _ => ?_
  refine (octets_returns (by simp only [off.MERKLE_ROOT]; omega)).bind fun _ _ => ?_
  refine (octets_returns (by simp only [off.IMAGE_HASH]; omega)).bind fun _ _ => ?_
  refine (index_returns (by simp only [off.CODEC_ID]; omega)).bind fun _ _ => ?_
  refine (octets_returns (by simp only [off.HW_ID]; omega)).bind fun _ _ => ?_
  refine (octets_returns (by simp only [off.BASE_HASH]; omega)).bind fun _ _ => ?_
  refine (octets_returns (by simp only [off.SIGNER]; omega)).bind fun _ _ => ?_
  refine (octets_returns (by simp only [off.SIGNATURE]; omega)).bind fun _ _ => ?_
  exact (octets_returns (by simp only [off.APPROVAL]; omega)).bind fun _ _ => returns_ok _

theorem checkBootloader_returns (c : Crypto) {blob : Bytes} {m : Manifest}
    (h : m.totalSize = blob.length) : Returns (checkBootloader c blob m) := by
  unfold checkBootloader
  split_ifs
  · refine (returns_ensure _ _).bind fun _ _ => ?_
    have hfit : m.payloadOff + m.payloadSize.toNat ≤ blob.length := by
      rw [totalSize] at h
      omega
    refine (slice_returns (by omega) hfit).bind fun payload _ => ?_
    exact ((Bootloader.validateBootloaderImage_returns c _ _ _ _).mapChain _).bind
      fun _ _ => returns_ok _
  · exact returns_ok _

open Bootloader in
theorem parse_returns (c : Crypto) (blob : Bytes) : Returns (parse c blob) := by
  refine (returns_ensure _ _).bind fun _ hsize => ?_
  have hlen : 8 + 197 + 5 ≤ blob.length := ensure_eq_ok.mp hsize
  refine (slice_returns (by omega) (by omega)).bind fun magic _ => ?_
  refine (returns_ensure _ _).bind fun _ _ => ?_
  refine (rdU32_returns (by omega)).bind fun total _ => ?_
  refine (returns_ensure _ _).bind fun _ _ => ?_
  refine (slice_returns (by omega) (by omega)).bind fun trailer _ => ?_
  refine (returns_ensure _ _).bind fun _ _ => ?_
  refine (slice_returns (by simp only [HEADER_LEN]; omega) le_rfl).bind fun mf hmf => ?_
  have hmfl : MFL ≤ mf.length := by
    rw [slice_length hmf]
    simp only [MFL, HEADER_LEN]
    omega
  have hbody := hmfl
  simp only [MFL] at hbody
  refine (index_returns (by simp only [off.FORMAT_VER]; omega)).bind fun formatVer _ => ?_
  refine (index_returns (by simp only [off.FLAGS]; omega)).bind fun flags _ => ?_
  refine (checkFlags_returns formatVer flags).bind fun _ hflags => ?_
  refine (index_returns (by simp only [off.BLOCK_SIZE_LOG2]; omega)).bind fun log2 _ => ?_
  refine (rdU32_returns (by simp only [off.PAYLOAD_SIZE]; omega)).bind fun payloadSize _ => ?_
  refine (returns_ensure _ _).bind fun _ _ => ?_
  refine (checkBlockSize_returns (checkFlags_version hflags) log2).bind fun _ hlog => ?_
  have hshift : log2.toNat < 32 := by
    have hbounds := checkBlockSize_bounds hlog
    omega
  rw [assert_of hshift, ok_bind]
  refine (returns_ensure _ _).bind fun _ _ => ?_
  refine (readFields_returns hmfl formatVer flags payloadSize log2 _).bind fun m _ => ?_
  refine (returns_ensure _ _).bind fun _ hgeometry => ?_
  refine (checkBootloader_returns c (ensure_eq_ok.mp hgeometry)).bind fun _ _ => returns_ok _

end Returns

end MotaTool.Manifest
