import MotaTool.Bootloader.Checksum
import MotaTool.Bootloader.HwIdSpec
import MotaTool.Bootloader.PackageSpec
import MotaTool.Profile

/-!
# Writer and reader accept the same images

The writer selects an image by board and storage profile, the reader by the identity inside
the image. Their tables agree on every board, and the hardware id leaves the reader no other
identity than the board's, so each accepts what the other accepts. Everything behind the
selection succeeds: the writer's own parse sees the manifest it wrote and the same image.
-/

namespace MotaTool.Bootloader

open Base Run Format Merkle Build

section Boards

variable {c : Crypto} {board : BootloaderBoard} {p : UInt8} {hw : Octets 32} {targetId : UInt32}

theorem expectOk_eq_ok {α : Type} {x : Run α} {a : α} :
    BootloaderBoard.expectOk x = .ok a ↔ x = .ok a := by
  cases x with
  | ok b => rfl
  | error e => cases e <;> simp [BootloaderBoard.expectOk, Run.panic]

theorem hwId_eq_ok :
    board.hwId = .ok hw ↔ bootloaderHwId board.boardId board.deviceName = .ok hw := expectOk_eq_ok

def boardProfiles (board : BootloaderBoard) : List UInt8 :=
  if board = .heltecMeshTowerV2 then [STORAGE_INTERNAL_UPDATE, STORAGE_SD_UPDATE]
  else [board.storageProfile]

theorem qualifiedStorage_board (board : BootloaderBoard) :
    qualifiedStorage board.boardId board.deviceName = boardProfiles board := by
  cases board <;> decide +kernel

theorem qualifiedPlatform_board (board : BootloaderBoard) :
    qualifiedPlatform board.boardId board.deviceName = some board.compatibility := by
  cases board <;> decide +kernel

theorem acceptsStorageProfile_iff : board.acceptsStorageProfile p = true ↔
    (qualifiedStorage board.boardId board.deviceName).contains p = true := by
  rw [qualifiedStorage_board]
  cases board <;> simp [boardProfiles, BootloaderBoard.acceptsStorageProfile]

end Boards

section Selecting

variable {c : Crypto} {envName : UInt32 → Option String} {image : Bytes} {board : BootloaderBoard}
  {p : UInt8} {targetId version : UInt32} {hw : Octets 32} {id embedded : BootloaderIdentity}
  {storage : UInt8}

theorem parseIdentity_version (h : parseIdentity image = .ok id) :
    versionValid id.bootVersion = true := by
  simp only [parseIdentity, bind_eq_ok, ensure_eq_ok, exists_unit] at h
  obtain ⟨found, -, h⟩ := h
  obtain ⟨ext, -, magic, -, -, version, -, size, -, -, bootVersion, -, family, -, fwid, -, appBase,
    -, layoutAbi, -, compat, -, reserved, -, hvalid, hid⟩ := h
  cases hid
  exact hvalid.1

theorem Accepted.identity (h : Accepted c image targetId hw version embedded storage)
    (hboard : board.hwId = .ok hw) :
    embedded.boardId = board.boardId ∧ embedded.deviceName = board.deviceName :=
  bootloaderHwId_injective h.hardware (hwId_eq_ok.mp hboard)

theorem Accepted.accepts (h : Accepted c image targetId hw version embedded storage)
    (hboard : board.hwId = .ok hw) : board.acceptsStorageProfile storage = true := by
  obtain ⟨hid, hname⟩ := h.identity hboard
  rw [acceptsStorageProfile_iff, ← hid, ← hname]
  exact h.qualified

theorem Accepted.compatible (h : Accepted c image targetId hw version embedded storage)
    (hboard : board.hwId = .ok hw) : embedded.platform = board.compatibility := by
  obtain ⟨hid, hname⟩ := h.identity hboard
  have hplatform := h.platform
  rw [platformQualified, hid, hname, qualifiedPlatform_board] at hplatform
  exact ensure_eq_ok.mp hplatform

def validateForBoard (c : Crypto) (image : Bytes) (board : BootloaderBoard) (version : UInt32) :
    Run BootloaderIdentity := do
  let targetId ← board.targetId c
  let hwId ← board.hwId
  validateBootloaderImage c image targetId hwId version

theorem validateForBoard_eq_ok : validateForBoard c image board version = .ok id ↔
    ∃ targetId hw, board.targetId c = .ok targetId ∧ board.hwId = .ok hw ∧
      validateBootloaderImage c image targetId hw version = .ok id := by
  simp only [validateForBoard, bind_eq_ok]
  constructor
  · rintro ⟨targetId, htarget, hw, hhw, hvalid⟩
    exact ⟨targetId, hw, htarget, hhw, hvalid⟩
  · rintro ⟨targetId, hw, htarget, hhw, hvalid⟩
    exact ⟨targetId, htarget, hw, hhw, hvalid⟩

/-- With a sound inventory, the selection accepts what the reader accepts under the board's
ids, and returns the same identity. -/
theorem forProfile_eq_ok (hinv : validateBootloaderInventory c envName = .ok ()) :
    validateBootloaderImageForProfile c envName image board p = .ok id ↔
      validateForBoard c image board id.bootVersion = .ok id ∧ id.storageFlags = p := by
  rw [validateForBoard_eq_ok]
  simp only [validateBootloaderImageForProfile, hinv, bind_eq_ok, ensure_eq_ok, exists_unit,
    Except.ok.injEq]
  constructor
  · rintro ⟨-, -, -, -, parsed, -, -, targetId, htarget, hw, hhw, identity, hvalid, hstorage, -,
      rfl⟩
    obtain ⟨embedded, storage, haccepted, rfl⟩ := validate_eq_ok.mp hvalid
    rw [haccepted.outer] at hvalid
    exact ⟨⟨targetId, hw, htarget, hhw, hvalid⟩, hstorage⟩
  · rintro ⟨⟨targetId, hw, htarget, hhw, hvalid⟩, hstorage⟩
    obtain ⟨embedded, storage, haccepted, rfl⟩ := validate_eq_ok.mp hvalid
    obtain rfl : storage = p := hstorage
    exact ⟨trivial, haccepted.accepts hhw, haccepted.size, haccepted.vector, embedded,
      haccepted.parsed, haccepted.identity hhw, targetId, htarget, hw, hhw, _, hvalid, rfl,
      haccepted.compatible hhw, rfl⟩

end Selecting

section Building

variable {c : Crypto} {envName : UInt32 → Option String} {o : BootloaderBuildOpts}
  {targetId version : UInt32} {hw : Octets 32} {root : Octets 4} {id : BootloaderIdentity}

theorem bootManifest_shaped (hlen : o.image.length = IMAGE_SIZE) :
    (bootManifest c o targetId hw version root).Shaped
      (flatten (leafHashes c o.image BOOTLOADER_BLOCK_SIZE)) o.image := by
  have hflags : Manifest.checkFlags BOOT_FORMAT_VER
    (MFLAG_FULL ||| MFLAG_SIGNED ||| MFLAG_BOOTLOADER) = .ok () := rfl
  have hlog : Manifest.checkBlockSize BOOT_FORMAT_VER 10 = .ok () := rfl
  have hnonzero : (40960 : UInt32) ≠ 0 := by decide
  have hcount : 40 = divCeil (40960 : UInt32).toNat 1024 := by decide
  have hlow : 1 ≤ 40 := by decide
  have hhigh : 40 ≤ 0xffff := by decide
  have hleaves : (flatten (leafHashes c o.image BOOTLOADER_BLOCK_SIZE)).length = 4 * 40 := by
    rw [flatten_length, leafHashes_length, hlen]
    rfl
  exact ⟨hflags, hlog, hnonzero, hcount, hlow, hhigh, hleaves, hlen⟩

theorem bootManifest_checked (hlen : o.image.length = IMAGE_SIZE)
    (hversion : versionValid version = true)
    (hvalid : validateBootloaderImage c o.image targetId hw version = .ok id) :
    Manifest.checkBootloader c ((bootManifest c o targetId hw version root).assembled
        (flatten (leafHashes c o.image BOOTLOADER_BLOCK_SIZE)) o.image)
      (bootManifest c o targetId hw version root) = .ok () := by
  obtain ⟨n, hn⟩ : ∃ n, n = bootManifest c o targetId hw version root := ⟨_, rfl⟩
  have hshaped := @bootManifest_shaped c o targetId version hw root hlen
  have hboot : (MFLAG_FULL ||| MFLAG_SIGNED ||| MFLAG_BOOTLOADER) &&& MFLAG_BOOTLOADER != 0 := by
    decide
  have hfields : n.isBootloader = true ∧ n.hashAlgo = HASH_ALGO_SHA256 ∧
      versionValid n.fwVersion = true ∧ n.codecId = Codec.full.toU8 ∧
      n.imageSize.toNat = IMAGE_SIZE ∧ n.payloadSize.toNat = IMAGE_SIZE ∧
      n.blockSize = BOOTLOADER_BLOCK_SIZE ∧ n.blockCount = 40 ∧ n.baseHash = Octets.zero 8 := by
    rw [hn]
    exact ⟨hboot, rfl, hversion, rfl, rfl, rfl, rfl, rfl, rfl⟩
  have hcontract : validateBootloaderImage c o.image n.targetId n.hwId n.fwVersion = .ok id := by
    rw [hn]
    exact hvalid
  rw [← hn] at hshaped ⊢
  rw [Manifest.checkBootloader, if_pos hfields.1, ensure_of hfields.2, ok_bind,
    hshaped.payload_slice, ok_bind, mapChain_eq_ok.mpr hcontract, ok_bind]

theorem bootManifest_parse (hlen : o.image.length = IMAGE_SIZE)
    (hversion : versionValid version = true)
    (hvalid : validateBootloaderImage c o.image targetId hw version = .ok id) :
    Manifest.parse c ((bootManifest c o targetId hw version root).assembled
        (flatten (leafHashes c o.image BOOTLOADER_BLOCK_SIZE)) o.image) =
      .ok (bootManifest c o targetId hw version root) :=
  ((bootManifest_shaped hlen).parsed (bootManifest_checked hlen hversion hvalid)).parse

theorem bootManifest_total : (bootManifest c o targetId hw version root).totalSize =
    PACKAGE_SIZE := rfl

theorem buildBootloader_ok
    (hprofile : validateBootloaderImageForProfile c envName o.image o.board o.storageProfile =
      .ok id)
    (htarget : o.board.targetId c = .ok targetId) (hhw : o.board.hwId = .ok hw)
    (hvalid : validateBootloaderImage c o.image targetId hw id.bootVersion = .ok id) :
    ∃ built, buildBootloader c envName o = .ok built := by
  have hlen := forProfile_size hprofile
  have hversion : versionValid id.bootVersion = true := by
    obtain ⟨embedded, storage, haccepted, rfl⟩ := validate_eq_ok.mp hvalid
    exact @parseIdentity_version _ embedded haccepted.parsed
  have hleaves : (leafHashes c o.image BOOTLOADER_BLOCK_SIZE).length = BLOCK_COUNT := by
    rw [leafHashes_length, hlen]
    rfl
  have htext : o.board.hwIdStr = .ok (asciiText (hw.val.takeWhile (· ≠ 0))) := by
    rw [BootloaderBoard.hwIdStr, hhw, ok_bind]
  obtain ⟨root, hroot⟩ := root_ok (leafHashes c o.image BOOTLOADER_BLOCK_SIZE)
  have hbytes : MAGIC ++ (toLe 4 PACKAGE_SIZE ++ (fieldBytes (bootManifest c o targetId hw
      id.bootVersion root).fields ++ (flatten (leafHashes c o.image BOOTLOADER_BLOCK_SIZE) ++
        (o.image ++ TRAILER)))) = (bootManifest c o targetId hw id.bootVersion root).assembled
          (flatten (leafHashes c o.image BOOTLOADER_BLOCK_SIZE)) o.image := by
    rw [Manifest.assembled, bootManifest_total]
  have hsize := (@bootManifest_shaped c o targetId id.bootVersion hw root hlen).length
  rw [bootManifest_total] at hsize
  have hparse := @bootManifest_parse c o targetId id.bootVersion hw root id hlen hversion hvalid
  rw [buildBootloader, hprofile, ok_bind]
  dsimp only
  rw [ensure_of hleaves, ok_bind, hroot, ok_bind, htarget, ok_bind, hhw, ok_bind, writeManifest_eq,
    ok_bind, hbytes, ensure_of hsize, ok_bind, hparse, ok_bind, htext, ok_bind]
  exact ⟨_, rfl⟩

end Building

/-- With a sound inventory, a package is built exactly from the images of the right size that
the reader accepts, at some version, under the ids and with the profile of the selection. -/
theorem package_acceptance (c : Crypto) (envName : UInt32 → Option String)
    (hinv : validateBootloaderInventory c envName = .ok ()) (image : Bytes)
    (board : BootloaderBoard) (p : UInt8) (seed : Octets 32) :
    (∃ built, buildBootloader c envName ⟨image, board, p, seed⟩ = .ok built) ↔
      image.length = IMAGE_SIZE ∧ ∃ v id,
        validateForBoard c image board v = .ok id ∧ id.storageFlags = p := by
  constructor
  · rintro ⟨built, hbuilt⟩
    rw [buildBootloader, bind_eq_ok] at hbuilt
    obtain ⟨id, hprofile, -⟩ := hbuilt
    exact ⟨forProfile_size hprofile, id.bootVersion, id, (forProfile_eq_ok hinv).mp hprofile⟩
  · rintro ⟨-, v, id, hvalid, hstorage⟩
    obtain ⟨targetId, hw, htarget, hhw, haccept⟩ := validateForBoard_eq_ok.mp hvalid
    obtain ⟨embedded, storage, haccepted, hid⟩ := validate_eq_ok.mp haccept
    have hversion : v = id.bootVersion := by
      rw [haccepted.outer, hid]
    subst hversion
    exact buildBootloader_ok ((forProfile_eq_ok hinv).mpr ⟨hvalid, hstorage⟩) htarget hhw haccept

/-- A digest that, unlike a prefix of the data, tells the boards' hardware ids apart. -/
def rolling : Crypto where
  sha256 data := Octets.padded 32 (toLe 4 (data.foldl (fun h b => 31 * h + b.toNat) 0))
  publicFromSeed := Crypto.plain.publicFromSeed
  sign := Crypto.plain.sign
  verify := Crypto.plain.verify

theorem rolling_inventory : validateBootloaderInventory rolling (fun _ => none) = .ok () := by
  decide +kernel

theorem sample_hwId : BootloaderBoard.hwId .xiaoNrf52840Ble = .ok sampleHwId :=
  hwId_eq_ok.mpr ((sampleHead_front rfl).accepted rolling).hardware

theorem sample_forBoard : validateForBoard rolling sampleImage .xiaoNrf52840Ble 1 =
    .ok { sampleIdentity with storageFlags := STORAGE_QSPI_UPDATE } :=
  validateForBoard_eq_ok.mpr ⟨XIAO_BASE, sampleHwId, rfl, sample_hwId, sampleImage_accepted rolling⟩

theorem package_acceptance_sample : ∃ built, buildBootloader rolling (fun _ => none)
    ⟨sampleImage, .xiaoNrf52840Ble, STORAGE_QSPI_UPDATE, Octets.zero 32⟩ = .ok built :=
  (package_acceptance rolling (fun _ => none) rolling_inventory sampleImage .xiaoNrf52840Ble
    STORAGE_QSPI_UPDATE (Octets.zero 32)).mpr
      ⟨((sampleHead_front rfl).accepted rolling).size, 1, _, sample_forBoard, rfl⟩

theorem sample_builds : ∃ built, buildBootloader rolling (fun _ => none)
    ⟨sampleImage, .xiaoNrf52840Ble, STORAGE_QSPI_UPDATE, Octets.zero 32⟩ = .ok built := by
  have htarget : BootloaderBoard.targetId rolling .xiaoNrf52840Ble = .ok XIAO_BASE := rfl
  have hprofile : validateBootloaderImageForProfile rolling (fun _ => none) sampleImage
      .xiaoNrf52840Ble STORAGE_QSPI_UPDATE =
        .ok { sampleIdentity with storageFlags := STORAGE_QSPI_UPDATE } :=
    (forProfile_eq_ok rolling_inventory).mpr ⟨sample_forBoard, rfl⟩
  exact @buildBootloader_ok rolling (fun _ => none)
    ⟨sampleImage, .xiaoNrf52840Ble, STORAGE_QSPI_UPDATE, Octets.zero 32⟩ _ _ _ hprofile htarget
    sample_hwId (sampleImage_accepted rolling)

end MotaTool.Bootloader
