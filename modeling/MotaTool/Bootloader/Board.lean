import MotaTool.Bootloader.Identity

/-!
# Qualified boards

The boards a bootloader package can be built for, with the identity, storage
profile and platform of each, and the check of this inventory against the
qualified identities and against the application targets. The table of
application targets is generated data and a parameter.
-/

namespace MotaTool.Bootloader

open Base Run Format

inductive BootloaderBoard
  | xiaoNrf52840Ble
  | xiaoNrf52840BleSense
  | gat562
  | heltecMeshTowerV2
  | heltecMeshPocket
  | heltecT096
  | heltecT1
  | heltecT114
  | keepteenLt1
  | minewsemiMx25le01
  | promicroNrf52840
  | t1000E
  | thinknodeM3
  | wiscoreRak3401
  | wiscoreRak4631Board
  | wiscoreRak3401Auto
  | wiscoreRak4631Auto
  | wismeshTag
  | lilygoTecho
  | lilygoTechoLite
  | pca10056
  | sensecapSolarP1
  | thinknodeM1
  | thinknodeM6
  | wioTrackerL1
  | wiscoreRak3401Rak13302W25q16
  | wiscoreRak4631BoardRak15001SlotC
  | wiscoreRak4631W25q16
  deriving DecidableEq, Repr

def BOOTLOADER_BOARDS : List BootloaderBoard := [
  .xiaoNrf52840Ble, .xiaoNrf52840BleSense, .gat562, .heltecMeshTowerV2, .heltecMeshPocket,
  .heltecT096, .heltecT1, .heltecT114, .keepteenLt1, .minewsemiMx25le01, .promicroNrf52840,
  .t1000E, .thinknodeM3, .wiscoreRak3401, .wiscoreRak4631Board, .wiscoreRak3401Auto,
  .wiscoreRak4631Auto, .wismeshTag, .lilygoTecho, .lilygoTechoLite, .pca10056,
  .sensecapSolarP1, .thinknodeM1, .thinknodeM6, .wioTrackerL1, .wiscoreRak3401Rak13302W25q16,
  .wiscoreRak4631BoardRak15001SlotC, .wiscoreRak4631W25q16]

namespace BootloaderBoard

def boardId : BootloaderBoard → UInt32
  | xiaoNrf52840Ble => XIAO_BASE
  | xiaoNrf52840BleSense => XIAO_SENSE
  | heltecMeshTowerV2 | heltecMeshPocket | heltecT096 | heltecT1 | heltecT114 => 0x239a0071
  | keepteenLt1 | promicroNrf52840 => 0x239a00b3
  | gat562 | lilygoTecho | wiscoreRak3401Rak13302W25q16 | wiscoreRak4631BoardRak15001SlotC
  | wiscoreRak4631W25q16 | minewsemiMx25le01 | wiscoreRak3401 | wiscoreRak4631Board
  | wiscoreRak3401Auto | wiscoreRak4631Auto | wismeshTag => 0x239a0029
  | t1000E => 0x28860057
  | sensecapSolarP1 => 0x28860044
  | wioTrackerL1 => 0x28861667
  | thinknodeM3 | lilygoTechoLite | pca10056 | thinknodeM1 | thinknodeM6 => 0x239a00da

def name : BootloaderBoard → String
  | xiaoNrf52840Ble => "xiao_nrf52840_ble"
  | xiaoNrf52840BleSense => "xiao_nrf52840_ble_sense"
  | gat562 => "gat562"
  | heltecMeshTowerV2 => "heltec_mesh_tower_v2"
  | heltecMeshPocket => "heltec_mesh_pocket"
  | heltecT096 => "heltec_t096"
  | heltecT1 => "heltec_t1"
  | heltecT114 => "heltec_t114"
  | keepteenLt1 => "keepteen_lt1"
  | minewsemiMx25le01 => "minewsemi_mx25le01"
  | promicroNrf52840 => "promicro_nrf52840"
  | t1000E => "t1000_e"
  | thinknodeM3 => "thinknode_m3"
  | wiscoreRak3401 => "wiscore_rak3401"
  | wiscoreRak4631Board => "wiscore_rak4631_board"
  | wiscoreRak3401Auto => "wiscore_rak3401_auto"
  | wiscoreRak4631Auto => "wiscore_rak4631_auto"
  | wismeshTag => "wismesh_tag"
  | lilygoTecho => "lilygo_techo"
  | lilygoTechoLite => "lilygo_techo_lite"
  | pca10056 => "pca10056"
  | sensecapSolarP1 => "sensecap_solar_p1"
  | thinknodeM1 => "thinknode_m1"
  | thinknodeM6 => "thinknode_m6"
  | wioTrackerL1 => "wio_tracker_l1"
  | wiscoreRak3401Rak13302W25q16 => "wiscore_rak3401_rak13302_w25q16"
  | wiscoreRak4631BoardRak15001SlotC => "wiscore_rak4631_board_rak15001_slot_c"
  | wiscoreRak4631W25q16 => "wiscore_rak4631_w25q16"

def deviceName : BootloaderBoard → String
  | xiaoNrf52840Ble | xiaoNrf52840BleSense => "XIAO_DFU"
  | gat562 => "GAT562_DFU"
  | heltecMeshTowerV2 => "TOWER_V2_OTA"
  | heltecMeshPocket => "MESH_POCKET_OTA"
  | heltecT096 => "T096_DFU"
  | heltecT1 => "T1_DFU"
  | heltecT114 => "T114_DFU"
  | keepteenLt1 => "KeepteenLT1_OTA"
  | minewsemiMx25le01 => "MX25_DFU"
  | promicroNrf52840 => "PROM_DFU"
  | t1000E => "T1KE_DFU"
  | thinknodeM3 => "TNM3_DFU"
  | wiscoreRak3401 => "3401_DFU"
  | wiscoreRak4631Board => "4631_DFU"
  | wiscoreRak3401Auto => "3401_AUTO_DFU"
  | wiscoreRak4631Auto => "4631_AUTO_DFU"
  | wismeshTag => "RTAG_DFU"
  | lilygoTecho => "LGTE_DFU"
  | lilygoTechoLite => "LTEL_DFU"
  | pca10056 => "N056_DFU"
  | sensecapSolarP1 => "SCAP_DFU"
  | thinknodeM1 => "TNM1_DFU"
  | thinknodeM6 => "TNM6_DFU"
  | wioTrackerL1 => "WTL1_DFU"
  | wiscoreRak3401Rak13302W25q16 => "3401_W25Q16_DFU"
  | wiscoreRak4631BoardRak15001SlotC => "4631_15001C_DFU"
  | wiscoreRak4631W25q16 => "4631_W25Q16_DFU"

def storageProfile : BootloaderBoard → UInt8
  | xiaoNrf52840Ble | xiaoNrf52840BleSense | lilygoTecho | lilygoTechoLite | pca10056
  | sensecapSolarP1 | thinknodeM1 | thinknodeM6 | wioTrackerL1 | wiscoreRak3401Rak13302W25q16
  | wiscoreRak4631BoardRak15001SlotC | wiscoreRak4631W25q16 => STORAGE_QSPI_UPDATE
  | wiscoreRak3401Auto | wiscoreRak4631Auto => STORAGE_RAK_AUTO_RECOVERY
  | _ => STORAGE_INTERNAL_UPDATE

def acceptsStorageProfile (board : BootloaderBoard) (profile : UInt8) : Bool :=
  match board with
  | heltecMeshTowerV2 => profile == STORAGE_INTERNAL_UPDATE || profile == STORAGE_SD_UPDATE
  | _ => profile == board.storageProfile

def compatibility : BootloaderBoard → Compatibility
  | xiaoNrf52840Ble | xiaoNrf52840BleSense | minewsemiMx25le01 | t1000E | sensecapSolarP1
  | wioTrackerL1 => ⟨FAMILY_S140, S140_V7_FWID, APP_BASE_S140_V7, LAYOUT_ABI⟩
  | _ => ⟨FAMILY_S140, S140_V6_FWID, APP_BASE_S140_V6, LAYOUT_ABI⟩

/-- `expect`: an error is a panic. -/
def expectOk {α : Type} (x : Run α) : Run α :=
  match x with
  | .error (.error _) => Run.panic
  | other => other

def hwId (board : BootloaderBoard) : Run (Octets 32) :=
  expectOk (bootloaderHwId board.boardId board.deviceName)

def hwIdStr (board : BootloaderBoard) : Run String := do
  let value ← board.hwId
  .ok (asciiText (value.val.takeWhile (· ≠ 0)))

def targetId (c : Crypto) (board : BootloaderBoard) : Run UInt32 :=
  expectOk (bootloaderTargetId c board.boardId board.deviceName)

end BootloaderBoard

section Inventory

variable (c : Crypto) (envName : UInt32 → Option String)

def noCollision (targetId : UInt32) (board : BootloaderBoard) : Run Unit :=
  match envName targetId with
  | none => .ok ()
  | some application =>
    bail (s!"bootloader target ID 0x{hexPadded 8 targetId.toNat} for {board.name} collides with " ++
      s!"application target {application}")

def distinctBoards (hwId : Octets 32) (targetId : UInt32) (board other : BootloaderBoard) :
    Run Unit := do
  ensure ((board.boardId, board.deviceName) ≠ (other.boardId, other.deviceName))
    s!"duplicate bootloader identity: {board.name} and {other.name}"
  let otherHwId ← other.hwId
  ensure (hwId ≠ otherHwId) s!"bootloader hw_id collision: {board.name} and {other.name}"
  let otherTargetId ← other.targetId c
  ensure (targetId ≠ otherTargetId)
    s!"bootloader target ID collision: {board.name} and {other.name}"

def validateBoard (board : BootloaderBoard) (others : List BootloaderBoard) : Run Unit := do
  let hwId ← board.hwId
  let targetId ← board.targetId c
  ensure (targetId ≠ 0 ∧ targetId ≠ 0xffffffff)
    s!"invalid bootloader target ID for {board.name}"
  ensure ((qualifiedStorage board.boardId board.deviceName).contains board.storageProfile = true)
    s!"invalid bootloader storage inventory for {board.name}"
  ensure (qualifiedPlatform board.boardId board.deviceName = some board.compatibility)
    s!"invalid bootloader platform inventory for {board.name}"
  noCollision envName targetId board
  others.forM (distinctBoards c hwId targetId board)

def validateBoards : List BootloaderBoard → Run Unit
  | [] => .ok ()
  | board :: others => do
    validateBoard c envName board others
    validateBoards others

def validateBootloaderInventory : Run Unit := validateBoards c envName BOOTLOADER_BOARDS

def validateBootloaderImageForProfile (image : Bytes) (board : BootloaderBoard)
    (storageProfile : UInt8) : Run BootloaderIdentity := do
  validateBootloaderInventory c envName
  ensure (board.acceptsStorageProfile storageProfile = true)
    s!"storage profile 0x{hexPadded 2 storageProfile.toNat} is not valid for {board.name}"
  ensure (image.length = IMAGE_SIZE) s!"bootloader image must be exactly {IMAGE_SIZE} bytes"
  validateVector image
  let parsed ← parseIdentity image
  ensure (parsed.boardId = board.boardId ∧ parsed.deviceName = board.deviceName)
    s!"embedded bootloader identity does not match selected board {board.name}"
  let targetId ← board.targetId c
  let hwId ← board.hwId
  let identity ← validateBootloaderImage c image targetId hwId parsed.bootVersion
  ensure (identity.storageFlags = storageProfile)
    (s!"embedded storage profile 0x{hexPadded 2 identity.storageFlags.toNat} does not match " ++
      s!"selected profile 0x{hexPadded 2 storageProfile.toNat}")
  ensure (identity.platform = board.compatibility)
    s!"embedded continuity metadata does not match selected board {board.name}"
  .ok identity

end Inventory

end MotaTool.Bootloader
