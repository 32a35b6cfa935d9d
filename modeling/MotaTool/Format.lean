import MotaTool.Base.Text

/-!
# The container format

Constants of the framing, the manifest, the firmware trailer and the flash
layout record, the field offsets of the manifest, and the identity a firmware
image carries.
-/

namespace MotaTool.Format

open Base Run

def MAGIC : Bytes := ascii ['m', 'O', 'T', 'A']
def TRAILER : Bytes := ascii ['v', 'k', '4', '9', '6']
def HEADER_LEN : ℕ := 8
def TRAILER_LEN : ℕ := 5

def FORMAT_VER : UInt8 := 0x02
def APP_FORMAT_VER : UInt8 := 0x02
def BOOT_FORMAT_VER : UInt8 := 0x03
def HASH_ALGO_SHA256 : UInt8 := 0x12
def MFLAG_FULL : UInt8 := 0x01
def MFLAG_SIGNED : UInt8 := 0x02
def MFLAG_BOOTLOADER : UInt8 := 0x04
def MFLAG_KNOWN : UInt8 := MFLAG_FULL ||| MFLAG_SIGNED ||| MFLAG_BOOTLOADER
def APPROVAL_NONE : Octets 4 := ⟨[0xff, 0xff, 0xff, 0xff], rfl⟩
def MFL : ℕ := 197
def SIGNED_LEN : ℕ := 129
def HW_ID_LEN : ℕ := 32
def MAX_APPLICATION_BLOCK_SIZE : ℕ := 2048
def BOOTLOADER_BLOCK_SIZE : ℕ := 1024

namespace off

def FORMAT_VER : ℕ := 0
def FLAGS : ℕ := 1
def HASH_ALGO : ℕ := 2
def TARGET_ID : ℕ := 3
def FW_VERSION : ℕ := 7
def IMAGE_SIZE : ℕ := 11
def PAYLOAD_SIZE : ℕ := 15
def BLOCK_SIZE_LOG2 : ℕ := 19
def MERKLE_ROOT : ℕ := 20
def IMAGE_HASH : ℕ := 24
def CODEC_ID : ℕ := 56
def HW_ID : ℕ := 57
def BASE_HASH : ℕ := 89
def SIGNER : ℕ := 97
def SIGNATURE : ℕ := 129
def APPROVAL : ℕ := 193

end off

def ENDF_MAGIC : Bytes := ascii ['E', 'n', 'd', 'F']
def ENDF_LEN : ℕ := 56
def ENDF_OFF_FWVER : ℕ := 16
def ENDF_OFF_TARGET : ℕ := 20
def ENDF_OFF_HWID : ℕ := 24

def NRF52_FALLBACK_INPLACE_MEMORY : UInt32 := 0x00098000
def NRF52_INPLACE_SEGMENT : UInt32 := 4096

def NRF52_APP_BASE_S140_V6 : UInt32 := 0x00026000
def NRF52_APP_BASE_S140_V7 : UInt32 := 0x00027000
def NRF52_EXTRAFS_START : UInt32 := 0x000d4000
def NRF52_BOOT_SCRATCH_START : UInt32 := 0x000e0000
def NRF52_APP_END : UInt32 := 0x000ed000

def NRF52_LAYOUT_MAGIC : Bytes := ascii ['m', 'O', 'T', 'A', 'L', 'a', 'y', '1']
def NRF52_LAYOUT_VERSION : UInt8 := 1
def NRF52_LAYOUT_LEN : ℕ := 24
def NRF52_LAYOUT_FLAG_SD : UInt8 := 0x01
def NRF52_LAYOUT_FLAG_INTERNAL_EXTRAFS : UInt8 := 0x02
def NRF52_LAYOUT_FLAG_QSPI : UInt8 := 0x04
def NRF52_LAYOUT_FLAG_BOOTLOADER_SCRATCH : UInt8 := 0x08
def NRF52_LAYOUT_FLAG_HYBRID_RAM : UInt8 := 0x10
def NRF52_LAYOUT_FLAG_AUTO_STORE : UInt8 := 0x20
def NRF52_LAYOUT_FLAGS_KNOWN : UInt8 :=
  NRF52_LAYOUT_FLAG_SD ||| NRF52_LAYOUT_FLAG_INTERNAL_EXTRAFS ||| NRF52_LAYOUT_FLAG_QSPI |||
    NRF52_LAYOUT_FLAG_BOOTLOADER_SCRATCH ||| NRF52_LAYOUT_FLAG_HYBRID_RAM |||
    NRF52_LAYOUT_FLAG_AUTO_STORE

def NRF52_HYBRID_RAM_SIZE : ℕ := 64 * 1024
def NRF52_FALLBACK_FLASH_SPAN : ℕ :=
  NRF52_EXTRAFS_START.toNat - NRF52_APP_BASE_S140_V7.toNat

inductive Codec
  | full
  | detoolsSequential
  | detoolsInplace
  deriving DecidableEq, Repr

def Codec.toU8 : Codec → UInt8
  | .full => 0
  | .detoolsSequential => 1
  | .detoolsInplace => 2

def Codec.fromU8 (v : UInt8) : Option Codec :=
  if v = 0 then some .full
  else if v = 1 then some .detoolsSequential
  else if v = 2 then some .detoolsInplace
  else none

theorem Codec.fromU8_toU8 (codec : Codec) : Codec.fromU8 codec.toU8 = some codec := by
  cases codec <;> rfl

def Codec.nameTag : Codec → String
  | .full => "full"
  | .detoolsSequential => "seqdelta"
  | .detoolsInplace => "ipdelta"

structure FwIdent where
  fwVersion : UInt32
  targetId : UInt32
  hwId : String
  deriving DecidableEq, Repr

def FwIdent.default : FwIdent := ⟨0, 0, ""⟩

def rdU32 (buf : Bytes) (off : ℕ) : Run UInt32 := do
  let bytes ← slice buf off (off + 4)
  .ok (UInt32.ofNat (ofLe bytes))

def u32Le (v : UInt32) : Bytes := toLe 4 v.toNat

def cstr (bytes : Bytes) : String := utf8Lossy (bytes.takeWhile (· ≠ 0))

@[simp] theorem u32Le_length (v : UInt32) : (u32Le v).length = 4 := toLe_length 4 _

theorem toLe_eq_u32Le (n : ℕ) : toLe 4 n = u32Le (UInt32.ofNat n) := by
  rw [u32Le, UInt32.toNat_ofNat', show 2 ^ 32 = 256 ^ 4 from rfl, toLe_mod]

theorem rdU32_ok {buf : Bytes} {off : ℕ} (h : off + 4 ≤ buf.length) :
    rdU32 buf off = .ok (UInt32.ofNat (ofLe ((buf.drop off).take 4))) := by
  rw [rdU32, slice_ok (by omega) h, Nat.add_sub_cancel_left, ok_bind]

theorem rdU32_returns {buf : Bytes} {off : ℕ} (h : off + 4 ≤ buf.length) :
    Returns (rdU32 buf off) := by simp [rdU32_ok h]

theorem ofLe_lt_u32 {bytes : Bytes} (h : bytes.length = 4) : ofLe bytes < 2 ^ 32 := by
  have hlt := ofLe_lt bytes
  rw [h] at hlt
  exact hlt

theorem ofLe_u32Le (v : UInt32) : ofLe (u32Le v) = v.toNat := ofLe_toLe v.toNat_lt

theorem u32Le_inj {a b : UInt32} (h : u32Le a = u32Le b) : a = b := by
  rw [← UInt32.toNat_inj, ← ofLe_u32Le a, ← ofLe_u32Le b, h]

theorem rdU32_eq_ok {buf : Bytes} {off : ℕ} {v : UInt32} :
    rdU32 buf off = .ok v ↔ off + 4 ≤ buf.length ∧ u32Le v = (buf.drop off).take 4 := by
  have hread : ∀ h : off + 4 ≤ buf.length,
      u32Le (UInt32.ofNat (ofLe ((buf.drop off).take 4))) = (buf.drop off).take 4 := fun h => by
    have hlen : ((buf.drop off).take 4).length = 4 := by
      rw [List.length_take, List.length_drop]
      omega
    have hinv := toLe_ofLe ((buf.drop off).take 4)
    rw [hlen] at hinv
    rw [u32Le, UInt32.toNat_ofNat', Nat.mod_eq_of_lt (ofLe_lt_u32 hlen), hinv]
  constructor
  · intro h
    rw [rdU32, bind_eq_ok] at h
    obtain ⟨bytes, hs, hv⟩ := h
    obtain ⟨-, hfit, -⟩ := slice_eq_ok.mp hs
    have hok := rdU32_ok hfit
    rw [rdU32, hs, ok_bind, hv] at hok
    cases hok
    exact ⟨hfit, hread hfit⟩
  · rintro ⟨hfit, hv⟩
    rw [rdU32_ok hfit, u32Le_inj (hv.trans (hread hfit).symm)]

end MotaTool.Format
