import MotaTool.Build.AssembleSpec
import MotaTool.Build.PlanSpec

/-!
# The flash an in-place package needs

The window of a package, its staged container and the images it was made from
fit the flash of the device together. With an authenticated record the two
regions are disjoint: the window is at the bottom of the staging region and
the container's flash charge at the top.
-/

namespace MotaTool.Build

open Base Run Format Endf Encode Merkle

structure RecordGeometry (o : BuildOpts) (base image : Bytes) (memory : UInt32) (total : ℕ)
    (l : Nrf52Layout) (targetLayout : Option Nrf52Layout) : Prop where
  segment : o.segmentSize.toNat = 4096
  baseRegion : base.length ≤ imageRegion l
  targetRegion : ∀ t, targetLayout = some t → image.length ≤ imageRegion t
  sameBase : ∀ t, targetLayout = some t → l.appBase = t.appBase
  memory_apply : l.appBase.toNat + memory.toNat ≤ l.applicationCeiling.toNat
  target_apply : l.appBase.toNat + image.length ≤ l.applicationCeiling.toNat
  staged : l.externalBacked = false → ∃ charge, 4096 ∣ charge ∧ 4096 ≤ charge ∧
    total ≤ (if l.hybridRam then charge + 65536 else charge) ∧
    l.appBase.toNat + memory.toNat + charge ≤ l.stageCeiling.toNat

/-- What holds between the options, the images, the window and the container of an in-place
package. -/
structure InplaceGeometry (c : Crypto) (o : BuildOpts) (base image : Bytes) (memory : UInt32)
    (total : ℕ) : Prop where
  segment_pos : 0 < o.segmentSize.toNat
  segment_dvd : o.segmentSize.toNat ∣ memory.toNat
  base_window :
    divCeil base.length o.segmentSize.toNat * o.segmentSize.toNat + 2 * o.segmentSize.toNat ≤
      memory.toNat
  target_window : image.length ≤ memory.toNat
  record : ∀ l, parseNrf52Layout c base = .ok (some l) → ∃ targetLayout,
    parseNrf52Layout c image = .ok targetLayout ∧
      RecordGeometry o base image memory total l targetLayout
  fallback : parseNrf52Layout c base = .ok none → o.inplaceMemory = none →
    memory.toNat = 0x98000 ∧ o.segmentSize.toNat = 4096 ∧
      memory.toNat + divCeil total 4096 * 4096 ≤ NRF52_FALLBACK_FLASH_SPAN

section Plan

variable {c : Crypto} {escaped : Char → Bool} {o : BuildOpts} {base image : Bytes}
  {plan : InplacePlan} {total : ℕ}

theorem Planned.memory_pos {targetLayout : Option Nrf52Layout}
    (h : Planned c o base image targetLayout plan) : 0 < plan.memory.toNat := by
  have hseg := h.window.seg_pos
  have hbase := h.window.base
  omega

theorem Planned.staged {targetLayout : Option Nrf52Layout} {l : Nrf52Layout}
    (h : Planned c o base image targetLayout plan) (hlayout : plan.baseLayout = some l)
    (htotal : 0 < total) (hfit : validateStagingFit plan total = .ok ())
    (hint : l.externalBacked = false) : ∃ charge, 4096 ∣ charge ∧ 4096 ≤ charge ∧
      total ≤ (if l.hybridRam then charge + 65536 else charge) ∧
      l.appBase.toNat + plan.memory.toNat + charge ≤ l.stageCeiling.toNat := by
  have hspan := stagingSpan_internal hlayout hint hfit
  obtain ⟨charge, -, hcharged, hused⟩ := validateStagingFit_charge htotal hspan hfit
  have hholds := hcharged.holds
  rw [hlayout] at hholds
  have hpos := h.memory_pos
  exact ⟨charge, hcharged.page, hcharged.pos, hholds, by omega⟩

theorem Planned.recordGeometry {targetLayout : Option Nrf52Layout} {l : Nrf52Layout}
    (h : Planned c o base image targetLayout plan) (hlayout : plan.baseLayout = some l)
    (htotal : 0 < total) (hfit : validateStagingFit plan total = .ok ()) :
    RecordGeometry o base image plan.memory total l targetLayout := by
  have hvalid : l.Valid := by
    refine @parseNrf52Layout_valid c base l ?_
    rw [← hlayout]
    exact h.baseRecord
  have hrunning := h.running l hlayout
  have hmemory := hrunning.memory_le hvalid
  have htarget := hrunning.target
  have hpos := h.memory_pos
  refine ⟨?_, h.baseRegion l hlayout, h.targetRegion, fun t => h.sameBase l t hlayout,
    by omega, by omega, h.staged hlayout htotal hfit⟩
  rw [h.segment (by simp [hlayout])]
  rfl

theorem Planned.geometry {targetLayout : Option Nrf52Layout}
    (h : Planned c o base image targetLayout plan) (htotal : 0 < total)
    (hfit : validateStagingFit plan total = .ok ()) :
    InplaceGeometry c o base image plan.memory total := by
  refine ⟨h.window.seg_pos, h.window.dvd, h.window.base, h.window.target, fun l hl => ?_,
    fun hnone hauto => ?_⟩
  · have hlayout : plan.baseLayout = some l := Except.ok.inj (h.baseRecord.symm.trans hl)
    exact ⟨targetLayout, h.targetRecord, h.recordGeometry hlayout htotal hfit⟩
  · have hlayout : plan.baseLayout = none := Except.ok.inj (h.baseRecord.symm.trans hnone)
    obtain ⟨hmemory, hsegment, hlegacy⟩ := h.legacy hlayout hauto
    have hspan : stagingSpan plan = .ok (some NRF52_FALLBACK_FLASH_SPAN) := by
      simp [stagingSpan, hlayout, hlegacy]
    obtain ⟨charge, hcharge, -, hused⟩ := validateStagingFit_charge htotal hspan hfit
    rw [stagedCharge, hlayout, Option.any_none, if_neg (by simp)] at hcharge
    rw [pageRoundUp_eq hcharge] at hused
    exact ⟨by rw [hmemory]; rfl, by rw [hsegment]; rfl, hused⟩

end Plan

section Build

variable {c : Crypto} {escaped : Char → Bool} {o : BuildOpts} {ident : FwIdent}
  {base image : Bytes} {delta : DeltaBuilt}
  {built : Built}

theorem buildDelta_planned (hpatch : o.patchType = .inPlace)
    (h : buildDelta c escaped o ident image base = .ok delta) :
    ∃ plan targetLayout, delta.inplace = some plan ∧ Planned c o base image targetLayout plan := by
  simp only [buildDelta, bind_eq_ok, ensure_eq_ok, exists_unit] at h
  obtain ⟨_, htrailed, rfl, baseIdent, -, -, ⟨out, hash⟩, hensure, h⟩ := h
  obtain rfl := ensureEndf_trailed htrailed hensure
  rw [encodeDelta, hpatch] at h
  simp only [bind_eq_ok] at h
  obtain ⟨plan, hplan, payload, -, h⟩ := h
  cases h
  obtain ⟨targetLayout, hplanned⟩ := planInplace_planned hplan
  exact ⟨plan, targetLayout, rfl, hplanned⟩

end Build

/-- An in-place package that was built fits the flash it is meant for. -/
theorem build_inplaceGeometry (c : Crypto) (escaped : Char → Bool) (o : BuildOpts) (base : Bytes)
    (built : Built) (hbase : o.base = some base) (hpatch : o.patchType = .inPlace)
    (hbuild : build c escaped o = .ok built) :
    ∃ ident image hash memory, resolveIdent c o = .ok ident ∧
      ensureEndf c o.fw ident = .ok (image, hash) ∧ built.inplaceMemory = some memory ∧
      InplaceGeometry c o base image memory built.bytes.length := by
  obtain ⟨ident, image, delta, root, h⟩ := build_assembled hbuild
  obtain ⟨hash, himage⟩ := h.trailed
  have hpayload := h.payload
  rw [buildPayload, hbase] at hpayload
  obtain ⟨plan, targetLayout, hinplace, hplanned⟩ := buildDelta_planned hpatch hpayload
  have hfit := h.staging
  rw [hinplace] at hfit
  have htotal : 0 < built.bytes.length := by
    rw [h.bytes]
    exact Nat.succ_pos _
  refine ⟨ident, image, hash, plan.memory, h.identity, himage, ?_, hplanned.geometry htotal hfit⟩
  rw [h.memory, hinplace]
  rfl

def recordBytes : Bytes :=
  NRF52_LAYOUT_MAGIC ++ [NRF52_LAYOUT_VERSION, 0] ++ toLe 2 NRF52_LAYOUT_LEN ++
    u32Le NRF52_APP_BASE_S140_V6 ++ u32Le NRF52_APP_END ++ u32Le NRF52_APP_END

def recordFw : Bytes := recordBytes ++ trailer Crypto.plain recordBytes FwIdent.default

def recordOpts : BuildOpts where
  fw := recordFw
  base := some recordFw
  patchType := .inPlace
  inplaceMemory := none
  segmentSize := 4096
  targetId := none
  fwVersion := none
  hwId := none
  signSeed := none
  blockSize := 64
  force := false

theorem recordOpts_builds : ∃ built, build Crypto.plain noEscapes recordOpts = .ok built :=
  exists_ok (by decide +kernel)

theorem build_inplaceGeometry_record : ∃ built,
    build Crypto.plain noEscapes recordOpts = .ok built ∧
    ∃ ident image hash memory, resolveIdent Crypto.plain recordOpts = .ok ident ∧
      ensureEndf Crypto.plain recordOpts.fw ident = .ok (image, hash) ∧
      built.inplaceMemory = some memory ∧
      InplaceGeometry Crypto.plain recordOpts recordFw image memory built.bytes.length := by
  obtain ⟨built, hbuild⟩ := recordOpts_builds
  exact ⟨built, hbuild,
    build_inplaceGeometry Crypto.plain noEscapes recordOpts recordFw built rfl rfl hbuild⟩

end MotaTool.Build
