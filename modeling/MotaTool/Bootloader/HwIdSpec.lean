import MotaTool.Bootloader.Checksum

/-!
# What the hardware id says

The device name passes through a NUL-padded field and a printable-ASCII filter, and the
hardware id is a text of it behind the board number. The text is never cut, and no two
identities share one, so that the signed id fixes the identity inside the image.
-/

namespace MotaTool.Bootloader

open Base Run Format

section Names

variable {boardId : UInt32} {deviceName : String} {raw : Octets 16} {bytes : Bytes}

def Printable (bytes : Bytes) : Prop := ∀ b ∈ bytes, 0x21 ≤ b ∧ b ≤ 0x7e

theorem Printable.ne_zero (h : Printable bytes) : ∀ b ∈ bytes, b ≠ 0 := by
  rintro b hb rfl
  exact absurd (h 0 hb).1 (by decide)

theorem Printable.ascii (h : Printable bytes) : ∀ b ∈ bytes, b.toNat < 0x80 := by
  intro b hb
  have hle := UInt8.le_iff_toNat_le.mp (h b hb).2
  exact Nat.lt_of_le_of_lt hle (by decide)

theorem utf8_asciiText (h : ∀ b ∈ bytes, b.toNat < 0x80) : utf8 (asciiText bytes) = bytes := by
  have hchar : ∀ n < 0x80, (Char.ofNat n).val ≤ 0x7f ∧
      (Char.ofNat n).val.toUInt8 = UInt8.ofNat n := by
    decide +kernel
  rw [asciiText, utf8_ofList_ascii, List.map_map]
  · refine (List.map_congr_left fun b hb => ?_).trans (List.map_id bytes)
    exact ((hchar _ (h b hb)).2).trans (UInt8.ofNat_toNat)
  · intro c hc
    obtain ⟨b, hb, rfl⟩ := List.mem_map.mp hc
    exact (hchar _ (h b hb)).1

theorem asciiText_utf8 (h : ∀ b ∈ utf8 deviceName, b.toNat < 0x80) :
    asciiText (utf8 deviceName) = deviceName := utf8_injective (utf8_asciiText h)

def xiaoName : Bytes := [0x58, 0x49, 0x41, 0x4f, 0x5f, 0x44, 0x46, 0x55]

theorem utf8_xiao : utf8 "XIAO_DFU" = xiaoName := rfl

theorem asciiText_xiao : asciiText xiaoName = "XIAO_DFU" := rfl

theorem xiaoName_printable : Printable xiaoName := by
  simp [Printable, xiaoName]

theorem proper_board : (boardId == 0 || boardId == 0xffffffff) = false ↔
    boardId ≠ 0 ∧ boardId ≠ 0xffffffff := by
  simp

theorem split_padded (hzeros : (raw.val.dropWhile (· ≠ 0)).any (· ≠ 0) = false) :
    raw.val = raw.val.takeWhile (· ≠ 0) ++
      List.replicate (16 - (raw.val.takeWhile (· ≠ 0)).length) 0 := by
  have hsplit := List.takeWhile_append_dropWhile (p := fun x : UInt8 => decide (x ≠ 0))
    (l := raw.val)
  have hrest : raw.val.dropWhile (· ≠ 0) =
      List.replicate (raw.val.dropWhile (· ≠ 0)).length 0 := by
    rw [List.eq_replicate_iff]
    refine ⟨rfl, fun b hb => ?_⟩
    rw [List.any_eq_false] at hzeros
    simpa using hzeros b hb
  have hlen := congrArg List.length hsplit
  rw [List.length_append, raw.length_val] at hlen
  rw [← Nat.eq_sub_of_add_eq' hlen, ← hrest, hsplit]

theorem validDeviceName_eq_some : validDeviceName boardId raw = some deviceName ↔
    (boardId ≠ 0 ∧ boardId ≠ 0xffffffff) ∧ ∃ bytes, bytes ≠ [] ∧ bytes.length ≤ 15 ∧
      Printable bytes ∧ raw.val = bytes ++ List.replicate (16 - bytes.length) 0 ∧
      deviceName = asciiText bytes := by
  rw [← proper_board]
  constructor
  · intro h
    unfold validDeviceName at h
    dsimp only at h
    split_ifs at h with hboard hxiao hbad
    · rw [Bool.and_eq_true, beq_iff_eq, utf8_xiao] at hxiao
      cases h
      exact ⟨by simpa using hboard, xiaoName, by decide, by decide, xiaoName_printable, hxiao.2,
        asciiText_xiao.symm⟩
    · cases h
      simp only [Bool.or_eq_true, not_or, Bool.not_eq_true] at hbad
      obtain ⟨⟨⟨hrest, hname⟩, hzeros⟩, hprintable⟩ := hbad
      have hsplit := congrArg List.length (List.takeWhile_append_dropWhile
        (p := fun x : UInt8 => decide (x ≠ 0)) (l := raw.val))
      rw [List.length_append, raw.length_val] at hsplit
      rw [List.isEmpty_eq_false_iff, ← List.length_pos_iff] at hrest
      refine ⟨by simpa using hboard, raw.val.takeWhile (· ≠ 0), List.isEmpty_eq_false_iff.mp hname,
        by omega, fun b hb => ?_, split_padded hzeros, rfl⟩
      have hchar := List.any_eq_false.mp hprintable b hb
      simpa [printable] using hchar
  · rintro ⟨hboard, bytes, hne, hlen, hprintable, hraw, rfl⟩
    obtain ⟨htake, hdrop⟩ := takeWhile_padded (16 - bytes.length) hprintable.ne_zero
    unfold validDeviceName
    rw [if_neg (by rw [hboard]; decide)]
    by_cases hxiao : ((boardId == XIAO_BASE || boardId == XIAO_SENSE) &&
        raw.val == utf8 "XIAO_DFU" ++ List.replicate 8 0) = true
    · rw [if_pos hxiao]
      rw [Bool.and_eq_true, beq_iff_eq, utf8_xiao, hraw] at hxiao
      rw [padding_injective hprintable.ne_zero xiaoName_printable.ne_zero hxiao.2, asciiText_xiao]
    · rw [if_neg hxiao]
      dsimp only
      rw [hraw, htake, hdrop, if_neg]
      simp only [Bool.or_eq_true, not_or, Bool.not_eq_true, List.isEmpty_eq_false_iff]
      refine ⟨⟨⟨?_, hne⟩, ?_⟩, ?_⟩
      · rw [ne_eq, List.replicate_eq_nil_iff]
        omega
      · rw [List.any_replicate]
        simp
      · rw [List.any_eq_false]
        intro b hb
        simp [printable, hprintable b hb]

structure ValidIdentity (boardId : UInt32) (deviceName : String) : Prop where
  board : boardId ≠ 0 ∧ boardId ≠ 0xffffffff
  length : 1 ≤ (utf8 deviceName).length ∧ (utf8 deviceName).length ≤ 15
  printable : Printable (utf8 deviceName)

theorem nameMatches_ok : ∃ r, nameMatches boardId deviceName = .ok r ∧
    (r = true ↔ ValidIdentity boardId deviceName) := by
  unfold nameMatches
  dsimp only
  by_cases hlen : (utf8 deviceName).length ≤ 15
  · rw [if_pos hlen, paddedName, ensure_of hlen, ok_bind, ok_bind]
    refine ⟨_, rfl, ?_⟩
    rw [beq_iff_eq, validDeviceName_eq_some]
    constructor
    · rintro ⟨hboard, bytes, hne, hfit, hprintable, -, hname⟩
      have hbytes : utf8 deviceName = bytes := by
        rw [hname, utf8_asciiText hprintable.ascii]
      exact ⟨hboard, by rw [hbytes]; exact ⟨List.length_pos_iff.mpr hne, hfit⟩,
        by rw [hbytes]; exact hprintable⟩
    · rintro ⟨hboard, ⟨hpos, -⟩, hprintable⟩
      exact ⟨hboard, utf8 deviceName, List.length_pos_iff.mp hpos, hlen, hprintable,
        Octets.padded_val (by omega), (asciiText_utf8 hprintable.ascii).symm⟩
  · rw [if_neg hlen]
    exact ⟨false, rfl, by simp, fun h => absurd h.length.2 hlen⟩

end Names

section Texts

variable {boardId boardId' : UInt32} {deviceName deviceName' : String} {hw : Octets 32}

def nrfText (boardId : UInt32) (deviceName : String) : String :=
  "NRF_BL_" ++ hexPadded 8 boardId.toNat ++ "_" ++ deviceName

theorem hwIdText_cases (boardId : UInt32) (deviceName : String) :
    (boardId = XIAO_BASE ∧ deviceName = "XIAO_DFU" ∧
      hwIdText boardId deviceName = "XIAO_BL_28860044") ∨
    (boardId = XIAO_SENSE ∧ deviceName = "XIAO_DFU" ∧
      hwIdText boardId deviceName = "XIAO_BL_28860045") ∨
    hwIdText boardId deviceName = nrfText boardId deviceName := by
  unfold hwIdText
  split_ifs with hbase hsense
  · simp only [Bool.and_eq_true, beq_iff_eq] at hbase
    exact .inl ⟨hbase.1, hbase.2, rfl⟩
  · simp only [Bool.and_eq_true, beq_iff_eq] at hsense
    exact .inr (.inl ⟨hsense.1, hsense.2, rfl⟩)
  · exact .inr (.inr rfl)

theorem board_lt (boardId : UInt32) : boardId.toNat < 16 ^ (7 + 1) := boardId.toNat_lt

theorem utf8_nrfText (boardId : UInt32) (deviceName : String) : utf8 (nrfText boardId deviceName) =
    utf8 "NRF_BL_" ++ (utf8 (hexPadded 8 boardId.toNat) ++ (utf8 "_" ++ utf8 deviceName)) := by
  rw [nrfText, utf8_append, utf8_append, utf8_append, List.append_assoc, List.append_assoc]

theorem hexPadded_length (boardId : UInt32) : (utf8 (hexPadded 8 boardId.toNat)).length = 8 := by
  rw [utf8_hexPadded (board_lt boardId), List.length_map, hexTail_length]

theorem nrfText_injective
    (h : utf8 (nrfText boardId deviceName) = utf8 (nrfText boardId' deviceName')) :
    boardId = boardId' ∧ deviceName = deviceName' := by
  rw [utf8_nrfText, utf8_nrfText] at h
  obtain ⟨hboard, hname⟩ := List.append_inj (List.append_cancel_left h)
    (by rw [hexPadded_length, hexPadded_length])
  refine ⟨?_, utf8_injective (List.append_cancel_left hname)⟩
  have hnat := hexPadded_injective (board_lt boardId) (board_lt boardId') (utf8_injective hboard)
  exact UInt32.toNat_inj.mp hnat

theorem utf8_nrfLead : utf8 "NRF_BL_" = [0x4e, 0x52, 0x46, 0x5f, 0x42, 0x4c, 0x5f] := rfl

theorem nrfText_head (boardId : UInt32) (deviceName : String) :
    (utf8 (nrfText boardId deviceName)).head? = some 0x4e := by
  rw [utf8_nrfText, utf8_nrfLead]
  rfl

theorem utf8_xiaoBase : utf8 "XIAO_BL_28860044" = xiaoName.take 5 ++
    [0x42, 0x4c, 0x5f, 0x32, 0x38, 0x38, 0x36, 0x30, 0x30, 0x34, 0x34] := rfl

theorem utf8_xiaoSense : utf8 "XIAO_BL_28860045" = xiaoName.take 5 ++
    [0x42, 0x4c, 0x5f, 0x32, 0x38, 0x38, 0x36, 0x30, 0x30, 0x34, 0x35] := rfl

theorem hwIdText_injective
    (h : utf8 (hwIdText boardId deviceName) = utf8 (hwIdText boardId' deviceName')) :
    boardId = boardId' ∧ deviceName = deviceName' := by
  have hhead := congrArg List.head? h
  rcases hwIdText_cases boardId deviceName with ⟨rfl, rfl, ht⟩ | ⟨rfl, rfl, ht⟩ | ht <;>
    rcases hwIdText_cases boardId' deviceName' with ⟨rfl, rfl, ht'⟩ | ⟨rfl, rfl, ht'⟩ | ht'
  · exact ⟨rfl, rfl⟩
  · rw [ht, ht', utf8_xiaoBase, utf8_xiaoSense] at h
    exact absurd h (by decide)
  · rw [ht, ht', nrfText_head, utf8_xiaoBase] at hhead
    exact absurd hhead (by decide)
  · rw [ht, ht', utf8_xiaoBase, utf8_xiaoSense] at h
    exact absurd h (by decide)
  · exact ⟨rfl, rfl⟩
  · rw [ht, ht', nrfText_head, utf8_xiaoSense] at hhead
    exact absurd hhead (by decide)
  · rw [ht, ht', nrfText_head, utf8_xiaoBase] at hhead
    exact absurd hhead (by decide)
  · rw [ht, ht', nrfText_head, utf8_xiaoSense] at hhead
    exact absurd hhead (by decide)
  · rw [ht, ht'] at h
    exact nrfText_injective h

theorem hwIdText_fits (h : ValidIdentity boardId deviceName) :
    (utf8 (hwIdText boardId deviceName)).length ≤ 32 ∧
      ∀ b ∈ utf8 (hwIdText boardId deviceName), b ≠ 0 := by
  rcases hwIdText_cases boardId deviceName with ⟨-, -, ht⟩ | ⟨-, -, ht⟩ | ht
  · rw [ht, utf8_xiaoBase]
    simp [xiaoName]
  · rw [ht, utf8_xiaoSense]
    simp [xiaoName]
  · have hlead : (utf8 "NRF_BL_").length = 7 ∧ ∀ b ∈ utf8 "NRF_BL_", b ≠ 0 := by
      simp [utf8_nrfLead]
    have hmark : (utf8 "_").length = 1 ∧ ∀ b ∈ utf8 "_", b ≠ 0 := by decide +kernel
    have hlen := h.length.2
    rw [ht, utf8_nrfText]
    constructor
    · rw [List.length_append, List.length_append, List.length_append, hlead.1, hexPadded_length,
        hmark.1]
      omega
    · intro b hb
      rcases List.mem_append.mp hb with hb | hb
      · exact hlead.2 b hb
      rcases List.mem_append.mp hb with hb | hb
      · rw [utf8_hexPadded (board_lt boardId)] at hb
        obtain ⟨c, hc, rfl⟩ := List.mem_map.mp hb
        exact (hexChar_ascii hc).2
      rcases List.mem_append.mp hb with hb | hb
      · exact hmark.2 b hb
      · exact h.printable.ne_zero b hb

theorem bootloaderHwId_eq_ok : bootloaderHwId boardId deviceName = .ok hw ↔
    ValidIdentity boardId deviceName ∧
      hw = Octets.padded 32 (utf8 (hwIdText boardId deviceName)) := by
  obtain ⟨r, hr, hiff⟩ := @nameMatches_ok boardId deviceName
  simp only [bootloaderHwId, hr, ok_bind, bind_eq_ok, ensure_eq_ok, exists_unit, Except.ok.injEq]
  rw [hiff]
  constructor
  · rintro ⟨hvalid, -, hhw⟩
    exact ⟨hvalid, hhw.symm⟩
  · rintro ⟨hvalid, hhw⟩
    exact ⟨hvalid, (hwIdText_fits hvalid).1, hhw.symm⟩

theorem bootloaderHwId_injective (h : bootloaderHwId boardId deviceName = .ok hw)
    (h' : bootloaderHwId boardId' deviceName' = .ok hw) :
    boardId = boardId' ∧ deviceName = deviceName' := by
  obtain ⟨hvalid, rfl⟩ := bootloaderHwId_eq_ok.mp h
  obtain ⟨hvalid', hhw⟩ := bootloaderHwId_eq_ok.mp h'
  obtain ⟨hfit, hnul⟩ := hwIdText_fits hvalid
  obtain ⟨hfit', hnul'⟩ := hwIdText_fits hvalid'
  exact hwIdText_injective (padded_injective hnul hnul' hfit hfit' hhw)

/-- The hardware id is defined exactly on the valid identities, fits its field, and tells
them apart. Images accepted under one signed id therefore embed one identity. -/
theorem hwId_binding (c : Crypto) :
    (∀ boardId deviceName, (∃ hw, bootloaderHwId boardId deviceName = .ok hw) ↔
      boardId ≠ 0 ∧ boardId ≠ 0xffffffff ∧ 1 ≤ (utf8 deviceName).length ∧
        (utf8 deviceName).length ≤ 15 ∧ ∀ b ∈ utf8 deviceName, 0x21 ≤ b ∧ b ≤ 0x7e) ∧
    (∀ boardId deviceName hw, bootloaderHwId boardId deviceName = .ok hw →
      (utf8 (hwIdText boardId deviceName)).length ≤ 32 ∧
        hw = Octets.padded 32 (utf8 (hwIdText boardId deviceName))) ∧
    (∀ boardId deviceName boardId' deviceName' hw,
      bootloaderHwId boardId deviceName = .ok hw → bootloaderHwId boardId' deviceName' = .ok hw →
        boardId = boardId' ∧ deviceName = deviceName') ∧
    ∀ image image' targetId targetId' version version' signedHwId id id',
      validateBootloaderImage c image targetId signedHwId version = .ok id →
      validateBootloaderImage c image' targetId' signedHwId version' = .ok id' →
        id.boardId = id'.boardId ∧ id.deviceName = id'.deviceName ∧ targetId = targetId' := by
  refine ⟨fun boardId deviceName => ?_, fun boardId deviceName hw h => ?_,
    fun _ _ _ _ _ => bootloaderHwId_injective, ?_⟩
  · constructor
    · rintro ⟨hw, h⟩
      obtain ⟨hvalid, -⟩ := bootloaderHwId_eq_ok.mp h
      exact ⟨hvalid.board.1, hvalid.board.2, hvalid.length.1, hvalid.length.2, hvalid.printable⟩
    · rintro ⟨hzero, hones, hpos, hlen, hprintable⟩
      exact ⟨_, bootloaderHwId_eq_ok.mpr ⟨⟨⟨hzero, hones⟩, ⟨hpos, hlen⟩, hprintable⟩, rfl⟩⟩
  · obtain ⟨hvalid, hhw⟩ := bootloaderHwId_eq_ok.mp h
    exact ⟨(hwIdText_fits hvalid).1, hhw⟩
  · intro image image' targetId targetId' version version' signedHwId id id' h h'
    obtain ⟨e, storage, haccepted, rfl⟩ := validate_eq_ok.mp h
    obtain ⟨e', storage', haccepted', rfl⟩ := validate_eq_ok.mp h'
    obtain ⟨hboard, hname⟩ := bootloaderHwId_injective haccepted.hardware haccepted'.hardware
    refine ⟨hboard, hname, ?_⟩
    have htarget := haccepted'.target
    rw [← hboard, ← hname, haccepted.target] at htarget
    exact Except.ok.inj htarget

def otherHead : Bytes := [16, 0, 0, 0x20, 1, 0x40, 0x0f, 0, 211, 200, 25, 104]

def otherImage : Bytes := otherHead ++ List.replicate 40856 0 ++ sampleTail

theorem otherImage_accepted (c : Crypto) :
    validateBootloaderImage c otherImage XIAO_BASE sampleHwId 1 =
      .ok { sampleIdentity with storageFlags := STORAGE_QSPI_UPDATE } :=
  validate_eq_ok.mpr
    ⟨_, _, (head_front rfl rfl rfl (by decide +kernel) (by decide +kernel)).accepted c, rfl⟩

theorem hwId_binding_sample : ∃ id id',
    validateBootloaderImage Crypto.plain sampleImage XIAO_BASE sampleHwId 1 = .ok id ∧
      validateBootloaderImage Crypto.plain otherImage XIAO_BASE sampleHwId 1 = .ok id' ∧
      id.boardId = id'.boardId ∧ id.deviceName = id'.deviceName ∧ XIAO_BASE = XIAO_BASE :=
  ⟨_, _, sampleImage_accepted Crypto.plain, otherImage_accepted Crypto.plain,
    (hwId_binding Crypto.plain).2.2.2 _ _ _ _ _ _ _ _ _ (sampleImage_accepted Crypto.plain)
      (otherImage_accepted Crypto.plain)⟩

end Texts

end MotaTool.Bootloader
