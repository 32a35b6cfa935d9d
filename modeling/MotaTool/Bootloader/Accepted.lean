import Mathlib.Data.List.Nodup
import MotaTool.Bootloader.IdentitySpec

/-!
# What an accepted image says

The validators are unfolded once, into the facts their acceptance establishes: of a
manifest found at an offset, of the parsed identity, and of an accepted image.
-/

namespace MotaTool.Bootloader

open Base Run Format

section Found

variable {image : Bytes} {off : ℕ} {found : FoundManifest} {id : BootloaderIdentity}

structure ManifestAt (image : Bytes) (found : FoundManifest) : Prop where
  name : ∃ raw, octets 16 image (found.offset + 24) = .ok raw ∧
    validDeviceName found.boardId raw = some found.deviceName
  crc : rdU32 image (found.offset + 40) =
    .ok (crc32WithZeroed image (found.offset + 40) (found.offset + 44))

theorem manifestAt_some (h : manifestAt image off = .ok (some found)) :
    ManifestAt image found := by
  rw [manifestAt, bind_eq_ok] at h
  obtain ⟨magic, -, h⟩ := h
  split_ifs at h
  · cases h
  simp only [bind_eq_ok] at h
  obtain ⟨version, -, size, -, start, -, imageSize, -, boardId, -, raw, hraw, h⟩ := h
  cases hname : validDeviceName boardId raw with
  | none =>
    rw [hname] at h
    cases h
  | some deviceName =>
    rw [hname] at h
    simp only [bind_eq_ok] at h
    obtain ⟨stored, hstored, h⟩ := h
    split_ifs at h with hbad
    · cases h
    · cases h
      simp only [not_or, not_not] at hbad
      exact ⟨⟨raw, hraw, hname⟩, by rw [hbad.2.2.2.2]; exact hstored⟩

theorem findManifest_found (h : findManifest image = .ok found) : ManifestAt image found := by
  simp only [findManifest, bind_eq_ok, ofOption_eq_ok] at h
  obtain ⟨offsets, -, last, hloop, hlast⟩ := h
  refine foldlM_keeps (fun b => ∀ m, b = some m → ManifestAt image m) ?_ (by simp) hloop found hlast
  intro b o b' _ hb hstep
  simp only [findManifestStep, bind_eq_ok] at hstep
  obtain ⟨at_, hat, hstep⟩ := hstep
  cases at_ with
  | none =>
    cases hstep
    exact hb
  | some m =>
    simp only [bind_eq_ok, ensure_eq_ok, exists_unit] at hstep
    obtain ⟨-, hstep⟩ := hstep
    cases hstep
    rintro n hn
    cases hn
    exact manifestAt_some hat

theorem parseIdentity_found (h : parseIdentity image = .ok id) :
    ManifestAt image ⟨id.manifestOffset, id.boardId, id.deviceName⟩ := by
  simp only [parseIdentity, bind_eq_ok, ensure_eq_ok, exists_unit] at h
  obtain ⟨found, hfound, h⟩ := h
  obtain ⟨ext, -, magic, -, -, version, -, size, -, -, bootVersion, -, family, -, fwid, -, appBase,
    -, layoutAbi, -, compat, -, reserved, -, -, hid⟩ := h
  cases hid
  exact findManifest_found hfound

end Found

section Unique

variable {image : Bytes} {size off : ℕ} {found : FoundManifest} {storage : UInt8}

theorem wordOffsets_split (hword : off % 4 = 0) (hfit : off + size ≤ image.length) :
    ∃ before after, wordOffsets image size = .ok (before ++ off :: after) ∧
      ∀ o ∈ before ++ after, o % 4 = 0 ∧ o + size ≤ image.length ∧ o ≠ off := by
  have hsub : checkedSub image.length size = some (image.length - size) := if_pos (by omega)
  have hnodup : ((List.range ((image.length - size) / 4 + 1)).map (· * 4)).Nodup := by
    refine List.nodup_range.map fun i j hij => ?_
    omega
  have hmem : off ∈ (List.range ((image.length - size) / 4 + 1)).map (· * 4) :=
    List.mem_map.mpr ⟨off / 4, List.mem_range.mpr (by omega), by omega⟩
  obtain ⟨before, after, hsplit⟩ := List.append_of_mem hmem
  refine ⟨before, after, by rw [wordOffsets, hsub, ← hsplit]; rfl, fun o ho => ?_⟩
  have hin : o ∈ (List.range ((image.length - size) / 4 + 1)).map (· * 4) := by
    rw [hsplit, List.mem_append, List.mem_cons]
    rcases List.mem_append.mp ho with ho | ho
    · exact .inl ho
    · exact .inr (.inr ho)
  rw [hsplit, List.nodup_middle, List.nodup_cons] at hnodup
  obtain ⟨i, hi, rfl⟩ := List.mem_map.mp hin
  rw [List.mem_range] at hi
  exact ⟨by omega, by omega, fun heq => hnodup.1 (heq ▸ ho)⟩

theorem manifestAt_other {magic : Bytes} (hslice : slice image off (off + 8) = .ok magic)
    (hmagic : magic ≠ MANIFEST_MAGIC) : manifestAt image off = .ok none := by
  rw [manifestAt, hslice, ok_bind, if_pos hmagic]

theorem findManifest_skip {offs : List ℕ} {m : Option FoundManifest}
    (h : ∀ o ∈ offs, manifestAt image o = .ok none) :
    offs.foldlM (findManifestStep image) m = .ok m := by
  induction offs with
  | nil => rfl
  | cons o offs ih =>
    rw [List.foldlM_cons, findManifestStep, h o List.mem_cons_self]
    exact ih fun p hp => h p (List.mem_cons_of_mem o hp)

theorem findManifest_unique (hword : off % 4 = 0) (hfit : off + MANIFEST_SIZE ≤ image.length)
    (hat : manifestAt image off = .ok (some found))
    (hother : ∀ o, o % 4 = 0 → o + MANIFEST_SIZE ≤ image.length → o ≠ off →
      manifestAt image o = .ok none) : findManifest image = .ok found := by
  obtain ⟨before, after, hoffs, hrest⟩ := wordOffsets_split hword hfit
  have hskip : ∀ o ∈ before ++ after, manifestAt image o = .ok none := by
    intro o ho
    obtain ⟨howord, hofit, hne⟩ := hrest o ho
    exact hother o howord hofit hne
  rw [findManifest, hoffs, ok_bind, List.foldlM_append,
    findManifest_skip fun o ho => hskip o (List.mem_append_left _ ho), ok_bind, List.foldlM_cons,
    findManifestStep, hat, ok_bind]
  simp only [Option.isNone_none, ensure_of, ok_bind]
  rw [findManifest_skip fun o ho => hskip o (List.mem_append_right _ ho), ok_bind]
  rfl

theorem capabilityAt_other {magic : Bytes} (hslice : slice image off (off + 8) = .ok magic)
    (hmagic : magic ≠ CAPS_MAGIC) : capabilityAt image off = .ok none := by
  rw [capabilityAt, hslice, ok_bind, if_pos hmagic]

theorem capabilityScan_skip {offs more : List ℕ} {m : Option UInt8} {n : ℕ}
    (h : ∀ o ∈ offs, capabilityAt image o = .ok none) :
    capabilityScan image (offs ++ more) m n = capabilityScan image more m n := by
  induction offs with
  | nil => rfl
  | cons o offs ih =>
    rw [List.cons_append, capabilityScan, h o List.mem_cons_self]
    exact ih fun p hp => h p (List.mem_cons_of_mem o hp)

theorem capabilityStorage_unique (hword : off % 4 = 0) (hfit : off + 16 ≤ image.length)
    (hat : capabilityAt image off = .ok (some storage))
    (hprofile : updateProfile storage = true)
    (hother : ∀ o, o % 4 = 0 → o + 16 ≤ image.length → o ≠ off →
      capabilityAt image o = .ok none) : capabilityStorage image = .ok (some storage) := by
  obtain ⟨before, after, hoffs, hrest⟩ := wordOffsets_split hword hfit
  have hskip : ∀ o ∈ before ++ after, capabilityAt image o = .ok none := by
    intro o ho
    obtain ⟨howord, hofit, hne⟩ := hrest o ho
    exact hother o howord hofit hne
  rw [capabilityStorage, hoffs, ok_bind,
    capabilityScan_skip fun o ho => hskip o (List.mem_append_left _ ho), capabilityScan, hat,
    ok_bind]
  have hafter := @capabilityScan_skip image after [] (some storage) 1
    fun o ho => hskip o (List.mem_append_right _ ho)
  rw [List.append_nil] at hafter
  simp only [hprofile, if_true]
  exact hafter

end Unique

section Accepted

variable {c : Crypto} {image : Bytes} {targetId version : UInt32} {hwId : Octets 32}
  {id : BootloaderIdentity}

/-- The complete contract: what the validator accepts, and what it returns. -/
structure Accepted (c : Crypto) (image : Bytes) (targetId : UInt32) (hwId : Octets 32)
    (version : UInt32) (embedded : BootloaderIdentity) (storage : UInt8) : Prop where
  size : image.length = IMAGE_SIZE
  vector : validateVector image = .ok ()
  parsed : parseIdentity image = .ok embedded
  offset : embedded.manifestOffset = CANDIDATE_MANIFEST_OFFSET
  outer : version = embedded.bootVersion
  target : bootloaderTargetId c embedded.boardId embedded.deviceName = .ok targetId
  hardware : bootloaderHwId embedded.boardId embedded.deviceName = .ok hwId
  marker : capabilityStorage image = .ok (some storage)
  qualified : (qualifiedStorage embedded.boardId embedded.deviceName).contains storage = true
  platform : platformQualified embedded = .ok ()

theorem validate_eq_ok : validateBootloaderImage c image targetId hwId version = .ok id ↔
    ∃ embedded storage, Accepted c image targetId hwId version embedded storage ∧
      id = { embedded with storageFlags := storage } := by
  simp only [validateBootloaderImage, bind_eq_ok, ensure_eq_ok, ofOption_eq_ok, exists_unit]
  constructor
  · rintro ⟨hsize, hvector, e, he, hoff, hver, target, htarget, rfl, hw, hhw, rfl, marker, hmarker,
      storage, rfl, hqualified, hplatform, hid⟩
    cases hid
    exact ⟨e, storage, ⟨hsize, hvector, he, hoff, hver, htarget, hhw, hmarker, hqualified,
      hplatform⟩, rfl⟩
  · rintro ⟨e, storage, h, rfl⟩
    exact ⟨h.size, h.vector, e, h.parsed, h.offset, h.outer, targetId, h.target, rfl, hwId,
      h.hardware, rfl, some storage, h.marker, storage, rfl, h.qualified, h.platform, rfl⟩

end Accepted

end MotaTool.Bootloader
