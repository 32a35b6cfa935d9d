import MotaTool.Bootloader.BoardSpec

/-!
# Labels of packages

A bootloader is built for one of the boards of the command line, each a board
with a storage profile. The label of a package is the name of its application
target, or of the board its bootloader was built for, which is looked up by the
identity inside the image.
-/

namespace MotaTool.Bootloader.BootloaderBoard

def profileName (board : BootloaderBoard) (profile : UInt8) : Option String :=
  if board = heltecMeshTowerV2 ∧ profile = STORAGE_SD_UPDATE then
    some "heltec_mesh_tower_v2_sdcard"
  else if profile = board.storageProfile then some board.name
  else none

def fromIdentity (boardId : UInt32) (deviceName : String) : Option BootloaderBoard :=
  BOOTLOADER_BOARDS.find? fun board =>
    board.boardId == boardId && board.deviceName == deviceName

end MotaTool.Bootloader.BootloaderBoard

namespace MotaTool.Cli

open Base Run Format Build Bootloader

inductive CliBootloaderBoard
  | xiaoNrf52840Ble
  | xiaoNrf52840BleSense
  | gat562
  | heltecMeshTowerV2
  | heltecMeshTowerV2Sdcard
  | heltecMeshPocket
  | heltecT096
  | heltecT1
  | heltecT114
  | keepteenLt1
  | minewsemiMx25le01
  | promicroNrf52840
  | t1000E
  | thinknodeM3
  | wiscoreRak3401
  | wiscoreRak4631Board
  | wiscoreRak3401Auto
  | wiscoreRak4631Auto
  | wismeshTag
  | lilygoTecho
  | lilygoTechoLite
  | pca10056
  | sensecapSolarP1
  | thinknodeM1
  | thinknodeM6
  | wioTrackerL1
  | wiscoreRak3401Rak13302W25q16
  | wiscoreRak4631BoardRak15001SlotC
  | wiscoreRak4631W25q16
  deriving DecidableEq, Repr

namespace CliBootloaderBoard

def value : CliBootloaderBoard → String
  | xiaoNrf52840Ble => "xiao_nrf52840_ble"
  | xiaoNrf52840BleSense => "xiao_nrf52840_ble_sense"
  | gat562 => "gat562"
  | heltecMeshTowerV2 => "heltec_mesh_tower_v2"
  | heltecMeshTowerV2Sdcard => "heltec_mesh_tower_v2_sdcard"
  | heltecMeshPocket => "heltec_mesh_pocket"
  | heltecT096 => "heltec_t096"
  | heltecT1 => "heltec_t1"
  | heltecT114 => "heltec_t114"
  | keepteenLt1 => "keepteen_lt1"
  | minewsemiMx25le01 => "minewsemi_mx25le01"
  | promicroNrf52840 => "promicro_nrf52840"
  | t1000E => "t1000_e"
  | thinknodeM3 => "thinknode_m3"
  | wiscoreRak3401 => "wiscore_rak3401"
  | wiscoreRak4631Board => "wiscore_rak4631_board"
  | wiscoreRak3401Auto => "wiscore_rak3401_auto"
  | wiscoreRak4631Auto => "wiscore_rak4631_auto"
  | wismeshTag => "wismesh_tag"
  | lilygoTecho => "lilygo_techo"
  | lilygoTechoLite => "lilygo_techo_lite"
  | pca10056 => "pca10056"
  | sensecapSolarP1 => "sensecap_solar_p1"
  | thinknodeM1 => "thinknode_m1"
  | thinknodeM6 => "thinknode_m6"
  | wioTrackerL1 => "wio_tracker_l1"
  | wiscoreRak3401Rak13302W25q16 => "wiscore_rak3401_rak13302_w25q16"
  | wiscoreRak4631BoardRak15001SlotC => "wiscore_rak4631_board_rak15001_slot_c"
  | wiscoreRak4631W25q16 => "wiscore_rak4631_w25q16"

def board : CliBootloaderBoard → BootloaderBoard
  | xiaoNrf52840Ble => .xiaoNrf52840Ble
  | xiaoNrf52840BleSense => .xiaoNrf52840BleSense
  | gat562 => .gat562
  | heltecMeshTowerV2 | heltecMeshTowerV2Sdcard => .heltecMeshTowerV2
  | heltecMeshPocket => .heltecMeshPocket
  | heltecT096 => .heltecT096
  | heltecT1 => .heltecT1
  | heltecT114 => .heltecT114
  | keepteenLt1 => .keepteenLt1
  | minewsemiMx25le01 => .minewsemiMx25le01
  | promicroNrf52840 => .promicroNrf52840
  | t1000E => .t1000E
  | thinknodeM3 => .thinknodeM3
  | wiscoreRak3401 => .wiscoreRak3401
  | wiscoreRak4631Board => .wiscoreRak4631Board
  | wiscoreRak3401Auto => .wiscoreRak3401Auto
  | wiscoreRak4631Auto => .wiscoreRak4631Auto
  | wismeshTag => .wismeshTag
  | lilygoTecho => .lilygoTecho
  | lilygoTechoLite => .lilygoTechoLite
  | pca10056 => .pca10056
  | sensecapSolarP1 => .sensecapSolarP1
  | thinknodeM1 => .thinknodeM1
  | thinknodeM6 => .thinknodeM6
  | wioTrackerL1 => .wioTrackerL1
  | wiscoreRak3401Rak13302W25q16 => .wiscoreRak3401Rak13302W25q16
  | wiscoreRak4631BoardRak15001SlotC => .wiscoreRak4631BoardRak15001SlotC
  | wiscoreRak4631W25q16 => .wiscoreRak4631W25q16

def profile (cli : CliBootloaderBoard) : BootloaderBoard × UInt8 :=
  (cli.board, if cli = heltecMeshTowerV2Sdcard then STORAGE_SD_UPDATE
    else cli.board.storageProfile)

theorem value_eq {cli : CliBootloaderBoard} (h : cli ≠ heltecMeshTowerV2Sdcard) :
    cli.value = cli.board.name := by
  cases cli <;> first | rfl | exact absurd rfl h

end CliBootloaderBoard

section Boards

variable {board other : BootloaderBoard} {cli : CliBootloaderBoard} {p : UInt8}

theorem find_name (board : BootloaderBoard) :
    BOOTLOADER_BOARDS.find? (fun other => other.name == board.name) = some board := by
  cases board <;> rfl

theorem name_injective (h : board.name = other.name) : board = other := by
  have hboard := find_name board
  rw [h, find_name other] at hboard
  exact (Option.some.inj hboard).symm

theorem name_ne_sdcard (board : BootloaderBoard) : board.name ≠ "heltec_mesh_tower_v2_sdcard" := by
  cases board <;> decide

theorem fromIdentity_board (board : BootloaderBoard) :
    BootloaderBoard.fromIdentity board.boardId board.deviceName = some board := by
  cases board <;> rfl

theorem profileName_eq_value :
    board.profileName p = some cli.value ↔ (board, p) = cli.profile := by
  constructor
  · intro h
    unfold BootloaderBoard.profileName at h
    split_ifs at h with hsd hown
    · obtain ⟨rfl, rfl⟩ := hsd
      by_cases hcli : cli = .heltecMeshTowerV2Sdcard
      · rw [hcli]
        rfl
      · rw [CliBootloaderBoard.value_eq hcli, Option.some.injEq] at h
        exact absurd h.symm (name_ne_sdcard cli.board)
    · rw [Option.some.injEq] at h
      by_cases hcli : cli = .heltecMeshTowerV2Sdcard
      · rw [hcli] at h
        exact absurd h (name_ne_sdcard board)
      · rw [CliBootloaderBoard.value_eq hcli] at h
        rw [CliBootloaderBoard.profile, if_neg hcli, ← name_injective h, hown]
  · intro h
    obtain ⟨rfl, rfl⟩ := Prod.mk.inj h
    cases cli <;> rfl

end Boards

def kindLabel (m : Manifest) : String :=
  if m.isBootloader then "bootloader"
  else match m.codec with
  | some .detoolsInplace => "in-place delta"
  | some .detoolsSequential => "sequential delta"
  | some .full | none => if m.isFull then "full" else "sequential delta"

def packageVersionStr (m : Manifest) : String :=
  if m.isBootloader then bootloaderVersionStr m.fwVersion else versionStr m.fwVersion

def targetLabel (envName : UInt32 → Option String) (targetId : UInt32) : String :=
  (envName targetId).getD "N/A"

def identityLabel (identity : BootloaderIdentity) : Option String :=
  (BootloaderBoard.fromIdentity identity.boardId identity.deviceName).bind fun board =>
    board.profileName identity.storageFlags

/-- An image that is not there or not accepted has no board, unless looking at it panics. -/
def packageTargetLabel (c : Crypto) (envName : UInt32 → Option String) (m : Manifest)
    (blob : Bytes) : Run String :=
  if m.isBootloader then
    match getRange blob m.payloadOff (m.payloadOff + m.payloadSize.toNat) with
    | none => .ok "unsupported bootloader"
    | some payload =>
      match validateBootloaderImage c payload m.targetId m.hwId m.fwVersion with
      | .ok identity => .ok ((identityLabel identity).getD "unsupported bootloader")
      | .error (.error _) => .ok "unsupported bootloader"
      | .error fault => .error fault
  else .ok (targetLabel envName m.targetId)

section Accepted

variable {c : Crypto} {envName : UInt32 → Option String} {blob : Bytes} {m : Manifest}
  {identity : BootloaderIdentity} {cli : CliBootloaderBoard}

theorem identityLabel_eq_value : identityLabel identity = some cli.value ↔
    identity.boardId = cli.board.boardId ∧ identity.deviceName = cli.board.deviceName ∧
      identity.storageFlags = cli.profile.2 := by
  unfold identityLabel
  constructor
  · intro h
    obtain ⟨board, hfound, hname⟩ := Option.bind_eq_some_iff.mp h
    have hmatches := List.find?_some hfound
    simp only [Bool.and_eq_true, beq_iff_eq] at hmatches
    obtain ⟨rfl, hstorage⟩ := Prod.mk.inj (profileName_eq_value.mp hname)
    exact ⟨hmatches.1.symm, hmatches.2.symm, hstorage⟩
  · rintro ⟨hid, hname, hstorage⟩
    rw [hid, hname, hstorage, fromIdentity_board, Option.bind_some]
    exact profileName_eq_value.mpr rfl

theorem value_ne_unsupported (cli : CliBootloaderBoard) :
    cli.value ≠ "unsupported bootloader" := by
  cases cli <;> decide

/-- An image that is accepted under a hardware id has the identity of a board exactly when the
hardware id is the board's. -/
theorem accepted_board {image : Bytes} {targetId version : UInt32} {hw : Octets 32}
    (h : validateBootloaderImage c image targetId hw version = .ok identity)
    (board : BootloaderBoard) :
    board.hwId = .ok hw ↔
      identity.boardId = board.boardId ∧ identity.deviceName = board.deviceName := by
  obtain ⟨embedded, storage, haccepted, rfl⟩ := validate_eq_ok.mp h
  constructor
  · exact haccepted.identity
  · rintro ⟨hid, hname⟩
    rw [hwId_eq_ok, ← hid, ← hname]
    exact haccepted.hardware

theorem parsed_accepted (h : Manifest.parse c blob = .ok m) (hboot : m.isBootloader = true) :
    ∃ identity, validateBootloaderImage c (m.payloadOf blob) m.targetId m.hwId m.fwVersion =
      .ok identity := by
  have hparsed := Manifest.parse_parsed h
  have hcheck := hparsed.bootloader
  rw [Manifest.checkBootloader, if_pos hboot] at hcheck
  simp only [bind_eq_ok, ensure_eq_ok, exists_unit, mapChain_eq_ok, hparsed.slices.2.1,
    Except.ok.injEq, exists_eq_left'] at hcheck
  obtain ⟨-, identity, hvalid, -⟩ := hcheck
  exact ⟨identity, hvalid⟩

theorem packageTargetLabel_accepted (h : Manifest.parse c blob = .ok m)
    (hboot : m.isBootloader = true)
    (hvalid : validateBootloaderImage c (m.payloadOf blob) m.targetId m.hwId m.fwVersion =
      .ok identity) :
    packageTargetLabel c envName m blob =
      .ok ((identityLabel identity).getD "unsupported bootloader") := by
  have hend := (Manifest.parse_parsed h).payload_end
  have hrange : getRange blob m.payloadOff (m.payloadOff + m.payloadSize.toNat) =
      some (m.payloadOf blob) := by
    rw [getRange, if_pos (by omega), Nat.add_sub_cancel_left]
    rfl
  rw [packageTargetLabel, if_pos hboot, hrange]
  simp only [hvalid]

theorem packageTargetLabel_eq_value (h : Manifest.parse c blob = .ok m)
    (hboot : m.isBootloader = true)
    (hvalid : validateBootloaderImage c (m.payloadOf blob) m.targetId m.hwId m.fwVersion =
      .ok identity) :
    packageTargetLabel c envName m blob = .ok cli.value ↔
      cli.board.hwId = .ok m.hwId ∧ identity.storageFlags = cli.profile.2 := by
  rw [packageTargetLabel_accepted h hboot hvalid, accepted_board hvalid, and_assoc,
    ← identityLabel_eq_value, Except.ok.injEq]
  constructor
  · intro hlabel
    cases hidentity : identityLabel identity with
    | none =>
      rw [hidentity] at hlabel
      exact absurd hlabel.symm (value_ne_unsupported cli)
    | some name =>
      rw [hidentity] at hlabel
      exact congrArg some hlabel
  · intro hlabel
    rw [hlabel]
    rfl

variable {o : BootloaderBuildOpts} {built : Built}

theorem buildBootloader_identified (h : buildBootloader c envName o = .ok built) :
    o.board.hwId = .ok built.manifest.hwId ∧ built.manifest.isBootloader = true ∧
      built.manifest.payloadOf built.bytes = o.image ∧ ∃ identity,
        validateBootloaderImage c o.image built.manifest.targetId built.manifest.hwId
          built.manifest.fwVersion = .ok identity ∧ identity.storageFlags = o.storageProfile := by
  have hinv : validateBootloaderInventory c envName = .ok () := by
    simp only [buildBootloader, validateBootloaderImageForProfile, bind_eq_ok, exists_unit] at h
    obtain ⟨_, ⟨hinv, -⟩, -⟩ := h
    exact hinv
  simp only [buildBootloader, bind_eq_ok, ensure_eq_ok, exists_unit,
    Bootloader.writeManifest_eq, Except.ok.injEq, exists_eq_left'] at h
  obtain ⟨identity, hprofile, -, root, -, targetId, htarget, hw, hhw, -, manifest, hparse, -, -,
    rfl⟩ := h
  obtain ⟨hvalid, hstorage⟩ := (forProfile_eq_ok hinv).mp hprofile
  obtain ⟨targetId', hw', htarget', hhw', hvalid⟩ := validateForBoard_eq_ok.mp hvalid
  obtain rfl := Except.ok.inj (htarget.symm.trans htarget')
  obtain rfl := Except.ok.inj (hhw.symm.trans hhw')
  have hboot : (MFLAG_FULL ||| MFLAG_SIGNED ||| MFLAG_BOOTLOADER) &&& MFLAG_BOOTLOADER != 0 := by
    decide
  have hlen := forProfile_size hprofile
  have hparsed := Manifest.parse_parsed hparse
  obtain ⟨rfl, hbody⟩ := seal_parsed rfl hparse (bootManifest_shaped hlen).count
  have hleaves := hparsed.leaves_length.trans (bootManifest_shaped hlen).leaves.symm
  have hpayload := List.append_cancel_right (List.append_inj hbody hleaves).2
  exact ⟨hhw, hboot, hpayload, identity, hvalid, hstorage⟩

end Accepted

/-- The label of a package that parses as a bootloader is a board of the command line exactly when
the package is signed under the hardware id of that board and its image has that board's storage
profile; a package that was built for a board of the command line is labelled with it. -/
theorem packageTargetLabel_exact (c : Crypto) (envName : UInt32 → Option String) :
    (∀ blob m, Manifest.parse c blob = .ok m → m.isBootloader = true → ∃ identity,
      validateBootloaderImage c (m.payloadOf blob) m.targetId m.hwId m.fwVersion = .ok identity ∧
        ∀ cli : CliBootloaderBoard, packageTargetLabel c envName m blob = .ok cli.value ↔
          cli.board.hwId = .ok m.hwId ∧ identity.storageFlags = cli.profile.2) ∧
    ∀ (cli : CliBootloaderBoard) image seed built,
      buildBootloader c envName ⟨image, cli.profile.1, cli.profile.2, seed⟩ = .ok built →
        packageTargetLabel c envName built.manifest built.bytes = .ok cli.value := by
  refine ⟨fun blob m hparse hboot => ?_, fun cli image seed built hbuild => ?_⟩
  · obtain ⟨identity, hvalid⟩ := parsed_accepted hparse hboot
    exact ⟨identity, hvalid, fun cli => packageTargetLabel_eq_value hparse hboot hvalid⟩
  · have hparse := buildBootloader_parse hbuild
    obtain ⟨hhw, hboot, hpayload, identity, hvalid, hstorage⟩ := buildBootloader_identified hbuild
    rw [← hpayload] at hvalid
    exact (packageTargetLabel_eq_value hparse hboot hvalid).mpr ⟨hhw, hstorage⟩

theorem packageTargetLabel_exact_sample : ∃ built,
    buildBootloader rolling (fun _ => none)
        ⟨sampleImage, .xiaoNrf52840Ble, STORAGE_QSPI_UPDATE, Octets.zero 32⟩ = .ok built ∧
      packageTargetLabel rolling (fun _ => none) built.manifest built.bytes =
        .ok "xiao_nrf52840_ble" := by
  obtain ⟨built, hbuild⟩ := sample_builds
  exact ⟨built, hbuild, (packageTargetLabel_exact rolling (fun _ => none)).2 .xiaoNrf52840Ble
    sampleImage (Octets.zero 32) built hbuild⟩

end MotaTool.Cli
