import MotaTool.Bootloader.Identity

/-!
# The validators never panic

Every scan stays inside the image, whatever the image holds: a record is read
at an offset only when the whole record fits. The validators therefore end in
a value or in a reported error on every byte string.
-/

namespace MotaTool.Bootloader

open Base Run Format

theorem rdU16_returns {v : Bytes} {o : ℕ} (h : o + 2 ≤ v.length) : Returns (rdU16 v o) :=
  (slice_returns (by omega) h).bind fun _ _ => returns_ok _

section Scans

variable {image : Bytes}

theorem wordOffsets_yields {size : ℕ} (h : size ≤ image.length) :
    Yields (wordOffsets image size) (fun offs => ∀ o ∈ offs, o + size ≤ image.length) := by
  have hsub : checkedSub image.length size = some (image.length - size) := if_pos h
  simp only [wordOffsets, hsub, unwrap, ok_bind]
  refine Yields.ok fun o ho => ?_
  obtain ⟨i, hi, rfl⟩ := List.mem_map.mp ho
  have hlast := Nat.div_mul_le_self (image.length - size) 4
  have hle : i ≤ (image.length - size) / 4 := by
    have := List.mem_range.mp hi
    omega
  have hmul := Nat.mul_le_mul_right 4 hle
  omega

theorem manifestAt_returns {o : ℕ} (h : o + MANIFEST_SIZE ≤ image.length) :
    Returns (manifestAt image o) := by
  simp only [MANIFEST_SIZE] at h
  refine (slice_returns (by omega) (by omega)).bind fun magic _ => ?_
  split_ifs
  · exact returns_ok _
  · refine (rdU16_returns (by omega)).bind fun version _ => ?_
    refine (rdU16_returns (by omega)).bind fun size _ => ?_
    refine (rdU32_returns (by omega)).bind fun start _ => ?_
    refine (rdU32_returns (by omega)).bind fun imageSize _ => ?_
    refine (rdU32_returns (by omega)).bind fun boardId _ => ?_
    refine (octets_returns (by omega)).bind fun nameRaw _ => ?_
    split
    · exact returns_ok _
    · refine (rdU32_returns (by omega)).bind fun storedCrc _ => ?_
      split_ifs <;> exact returns_ok _

theorem findManifest_returns (h : MANIFEST_SIZE ≤ image.length) :
    Returns (findManifest image) := by
  obtain ⟨offs, hoffs, hall⟩ := wordOffsets_yields h
  rw [findManifest, hoffs, ok_bind]
  refine (foldlM_returns (fun found o ho => ?_) none).bind fun found _ => by simp
  refine (manifestAt_returns (hall o ho)).bind fun at_ _ => ?_
  split
  · exact returns_ok _
  · exact (returns_ensure _ _).bind fun _ _ => returns_ok _

theorem getRange_length {lo hi : ℕ} {w : Bytes} (h : getRange image lo hi = some w) :
    w.length = hi - lo := by
  unfold getRange at h
  split_ifs at h with hfit
  cases h
  rw [List.length_take, List.length_drop]
  omega

theorem parseIdentity_returns (h : MANIFEST_SIZE ≤ image.length) :
    Returns (parseIdentity image) := by
  refine (findManifest_returns h).bind fun found _ => ?_
  refine (returns_ofOption _ _).bind fun ext hext => ?_
  have hlen : ext.length = 32 := by
    rw [getRange_length (ofOption_eq_ok.mp hext)]
    simp only [ENVELOPE_SIZE, MANIFEST_SIZE, CONTINUITY_SIZE]
    omega
  refine (slice_returns (by omega) (by omega)).bind fun magic _ => ?_
  refine (returns_ensure _ _).bind fun _ _ => ?_
  refine (rdU16_returns (by omega)).bind fun version _ => ?_
  refine (rdU16_returns (by omega)).bind fun size _ => ?_
  refine (returns_ensure _ _).bind fun _ _ => ?_
  refine (rdU32_returns (by omega)).bind fun bootVersion _ => ?_
  refine (rdU16_returns (by omega)).bind fun family _ => ?_
  refine (rdU16_returns (by omega)).bind fun fwid _ => ?_
  refine (rdU32_returns (by omega)).bind fun appBase _ => ?_
  refine (rdU16_returns (by omega)).bind fun layoutAbi _ => ?_
  refine (rdU16_returns (by omega)).bind fun compat _ => ?_
  refine (rdU32_returns (by omega)).bind fun reserved _ => ?_
  exact (returns_ensure _ _).bind fun _ _ => returns_ok _

theorem capabilityAt_returns {o : ℕ} (h : o + 16 ≤ image.length) :
    Returns (capabilityAt image o) := by
  refine (slice_returns (by omega) (by omega)).bind fun magic _ => ?_
  split_ifs
  · exact returns_ok _
  · refine (rdU16_returns (by omega)).bind fun abi _ => ?_
    refine (rdU16_returns (by omega)).bind fun codecs _ => ?_
    refine (index_returns (by omega)).bind fun storage _ => ?_
    refine (slice_returns (by omega) (by omega)).bind fun padding _ => ?_
    split_ifs <;> exact returns_ok _

theorem capabilityScan_returns {offs : List ℕ} (h : ∀ o ∈ offs, o + 16 ≤ image.length)
    (found : Option UInt8) (validCount : ℕ) :
    Returns (capabilityScan image offs found validCount) := by
  induction offs generalizing found validCount with
  | nil => exact returns_ok _
  | cons o offs ih =>
    have hrest : ∀ p ∈ offs, p + 16 ≤ image.length := fun p hp => h p (List.mem_cons_of_mem o hp)
    refine (capabilityAt_returns (h o List.mem_cons_self)).bind fun marker _ => ?_
    split
    · exact ih hrest _ _
    · dsimp only
      split_ifs <;> first | exact returns_ok _ | exact ih hrest _ _

theorem capabilityStorage_returns (h : 16 ≤ image.length) : Returns (capabilityStorage image) := by
  obtain ⟨offs, hoffs, hall⟩ := wordOffsets_yields h
  rw [capabilityStorage, hoffs, ok_bind]
  exact capabilityScan_returns hall none 0

end Scans

theorem bootloaderHwId_returns (boardId : UInt32) (deviceName : String) :
    Returns (bootloaderHwId boardId deviceName) := by
  have hmatches : Returns (nameMatches boardId deviceName) := by
    unfold nameMatches
    dsimp only
    split_ifs
    · exact ((returns_ensure _ _).bind fun _ _ => returns_ok _).bind fun _ _ => returns_ok _
    · exact returns_ok _
  refine hmatches.bind fun valid _ => ?_
  refine (returns_ensure _ _).bind fun _ _ => ?_
  exact (returns_ensure _ _).bind fun _ _ => returns_ok _

theorem bootloaderTargetId_returns (c : Crypto) (boardId : UInt32) (deviceName : String) :
    Returns (bootloaderTargetId c boardId deviceName) := by
  unfold bootloaderTargetId
  split_ifs
  · exact returns_ok _
  · exact (bootloaderHwId_returns boardId deviceName).bind fun _ _ => returns_ok _

theorem validateBootloaderImage_returns (c : Crypto) (image : Bytes) (targetId : UInt32)
    (signedHwId : Octets 32) (outerVersion : UInt32) :
    Returns (validateBootloaderImage c image targetId signedHwId outerVersion) := by
  refine (returns_ensure _ _).bind fun _ hlen => ?_
  have hsize : image.length = 0xa000 := ensure_eq_ok.mp hlen
  have hvector : Returns (validateVector image) := by
    refine (rdU32_returns (by omega)).bind fun sp _ => ?_
    exact (rdU32_returns (by omega)).bind fun reset _ => returns_ensure _ _
  refine hvector.bind fun _ _ => ?_
  refine (parseIdentity_returns (by simp only [MANIFEST_SIZE]; omega)).bind fun embedded _ => ?_
  refine (returns_ensure _ _).bind fun _ _ => ?_
  refine (returns_ensure _ _).bind fun _ _ => ?_
  refine (bootloaderTargetId_returns c _ _).bind fun expectedTarget _ => ?_
  refine (returns_ensure _ _).bind fun _ _ => ?_
  refine (bootloaderHwId_returns _ _).bind fun expectedHwId _ => ?_
  refine (returns_ensure _ _).bind fun _ _ => ?_
  refine (capabilityStorage_returns (by omega)).bind fun marker _ => ?_
  refine (returns_ofOption _ _).bind fun storage _ => ?_
  refine (returns_ensure _ _).bind fun _ _ => ?_
  have hplatform : Returns (platformQualified embedded) := by
    unfold platformQualified
    split <;> simp
  exact hplatform.bind fun _ _ => returns_ok _

end MotaTool.Bootloader
