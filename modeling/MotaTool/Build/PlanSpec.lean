import MotaTool.Build.Plan

/-!
# An accepted plan respects the flash

Acceptance by the planner is unfolded once, into the numbers that have to hold
for the window, and acceptance of the staged container once more, into a flash
charge that fits above the window. What the in-place encoder needs of a window
is among them.
-/

namespace MotaTool.Build

open Base Run Format Endf Encode

theorem tryFrom_eq_ok {bits n m : ℕ} {text : String} :
    tryFrom bits n text = .ok m ↔ n < 2 ^ bits ∧ m = n := by
  unfold tryFrom
  rw [ofOption_eq_ok]
  split_ifs with h <;> simp [h, eq_comm]

theorem alignSegment_eq {seg n m : ℕ} (hseg : 0 < seg) (h : alignSegment seg n = .ok m) :
    m = divCeil n seg * seg := by
  simp only [alignSegment, bind_eq_ok, tryFrom_eq_ok, ofOption_eq_ok, Option.map_eq_some_iff,
    checkedAdd_eq_some] at h
  obtain ⟨k, ⟨-, rfl⟩, v, ⟨-, rfl⟩, rfl⟩ := h
  rw [divCeil, Nat.add_sub_assoc (by omega)]

theorem minimumInplaceMemory_eq {baseLen targetLen : ℕ} {segment memory : UInt32}
    (h : minimumInplaceMemory baseLen targetLen segment = .ok memory) :
    0 < segment.toNat ∧
      memory.toNat = max (divCeil baseLen segment.toNat * segment.toNat + 2 * segment.toNat)
        (divCeil targetLen segment.toNat * segment.toNat) := by
  simp only [minimumInplaceMemory, bind_eq_ok, ensure_eq_ok, exists_unit, tryFrom_eq_ok,
    ofOption_eq_ok, checkedAdd_eq_some] at h
  obtain ⟨hseg, aligned, hbase, _, ⟨-, rfl⟩, target, htarget, m, ⟨hlt, rfl⟩, hm⟩ := h
  have hpos : 0 < segment.toNat := by
    rcases Nat.eq_zero_or_pos segment.toNat with hzero | hpos
    · exact absurd (UInt32.toNat_inj.mp hzero) hseg
    · exact hpos
  cases hm
  rw [UInt32.toNat_ofNat', Nat.mod_eq_of_lt hlt, alignSegment_eq hpos hbase,
    alignSegment_eq hpos htarget]
  exact ⟨hpos, rfl⟩

/-- A window that is a multiple of the segment and at least the minimum suffices. -/
theorem window_of_minimum {baseLen targetLen : ℕ} {segment memory minimum : UInt32}
    (hmin : minimumInplaceMemory baseLen targetLen segment = .ok minimum)
    (hdvd : segment.toNat ∣ memory.toNat) (hmem : minimum.toNat ≤ memory.toNat) :
    Window memory.toNat segment.toNat baseLen targetLen := by
  obtain ⟨hpos, heq⟩ := minimumInplaceMemory_eq hmin
  have htarget := le_divCeil_mul targetLen hpos
  exact ⟨hpos, hdvd, by omega, by omega⟩

/-- In every window the planner may use, encoding ends without a panic, the device rebuilds
the target at the bottom of its memory, and each base byte it reads while rewriting a segment
is an original byte of the shifted base above that segment. -/
theorem encodeInPlace_decodes {old new : Bytes} {memory segment minimum : UInt32}
    (hmin : minimumInplaceMemory old.length new.length segment = .ok minimum)
    (hdvd : segment.toNat ∣ memory.toNat) (hmem : minimum.toNat ≤ memory.toNat) :
    ∃ patch, encodeInPlace old new memory.toNat segment.toNat = .ok patch ∧
      ∀ cells : Bytes, cells.length = memory.toNat → cells.take old.length = old →
        ∃ device, decodeInPlace cells patch = some device ∧
          device.cells.length = memory.toNat ∧ device.cells.take new.length = new ∧
          ∀ r ∈ device.reads, r.Original old segment.toNat
            (calcShift memory.toNat segment.toNat (2 * segment.toNat) old.length) memory.toNat :=
  encodeInPlace_rebuilds (window_of_minimum hmin hdvd hmem)

theorem encodeInPlace_decodes_small :
    ∃ patch, encodeInPlace [1, 2, 3] [2, 3, 4, 5] 16 2 = .ok patch ∧
      ∀ cells : Bytes, cells.length = 16 → cells.take 3 = [1, 2, 3] →
        ∃ device, decodeInPlace cells patch = some device ∧
          device.cells.length = 16 ∧ device.cells.take 4 = [2, 3, 4, 5] ∧
          ∀ r ∈ device.reads, r.Original [1, 2, 3] 2 (calcShift 16 2 4 3) 16 :=
  @encodeInPlace_decodes [1, 2, 3] [2, 3, 4, 5] 16 2 8 rfl (by decide) (by decide)

def imageRegion (l : Nrf52Layout) : ℕ :=
  min l.linkedAppEnd.toNat l.stageCeiling.toNat - l.appBase.toNat

theorem imageFitsLayout_region {which : String} {len : ℕ} {l : Nrf52Layout}
    (h : imageFitsLayout which len l = .ok ()) : len ≤ imageRegion l := by
  simp only [imageFitsLayout, bind_eq_ok, ensure_eq_ok, ofOption_eq_ok,
    checkedSub_eq_some] at h
  obtain ⟨capacity, ⟨-, rfl⟩, hlen⟩ := h
  exact hlen

structure FitsRunning (l : Nrf52Layout) (memory : UInt32) (targetLen : ℕ) : Prop where
  memory_stage : l.externalBacked = false →
    memory.toNat ≤ l.stageCeiling.toNat - l.appBase.toNat
  memory_apply : l.externalBacked = true →
    memory.toNat ≤ l.applicationCeiling.toNat - l.appBase.toNat
  target : targetLen ≤ l.applicationCeiling.toNat - l.appBase.toNat

theorem fitsWorkspace_running {memory : UInt32} {targetLen : ℕ} {l : Nrf52Layout}
    (h : fitsWorkspace memory targetLen (some l) = .ok ()) : FitsRunning l memory targetLen := by
  simp only [fitsWorkspace, bind_eq_ok, ensure_eq_ok, exists_unit, ofOption_eq_ok,
    checkedSub_eq_some] at h
  obtain ⟨applySpan, ⟨-, rfl⟩, span, hspan, hmem, htarget⟩ := h
  refine ⟨fun hint => ?_, fun hext => ?_, htarget⟩
  · rw [workspaceSpan, if_neg (by simp [hint]), ofOption_eq_ok, checkedSub_eq_some] at hspan
    obtain ⟨-, rfl⟩ := hspan
    exact hmem
  · rw [workspaceSpan, if_pos hext] at hspan
    cases hspan
    exact hmem

theorem FitsRunning.memory_le {l : Nrf52Layout} {memory : UInt32} {targetLen : ℕ}
    (h : FitsRunning l memory targetLen) (hvalid : l.Valid) :
    memory.toNat ≤ l.applicationCeiling.toNat - l.appBase.toNat := by
  cases hext : l.externalBacked with
  | true => exact h.memory_apply hext
  | false =>
    have hmem := h.memory_stage hext
    have hstage := hvalid.stage_le hext
    omega

/-- Everything the planner guarantees about the plan it returns. -/
structure Planned (c : Crypto) (o : BuildOpts) (base image : Bytes)
    (targetLayout : Option Nrf52Layout) (plan : InplacePlan) : Prop where
  baseRecord : parseNrf52Layout c base = .ok plan.baseLayout
  targetRecord : parseNrf52Layout c image = .ok targetLayout
  window : Window plan.memory.toNat o.segmentSize.toNat base.length image.length
  segment : plan.baseLayout ≠ none → o.segmentSize = NRF52_INPLACE_SEGMENT
  baseRegion : ∀ l, plan.baseLayout = some l → base.length ≤ imageRegion l
  targetRegion : ∀ t, targetLayout = some t → image.length ≤ imageRegion t
  sameBase : ∀ l t, plan.baseLayout = some l → targetLayout = some t → l.appBase = t.appBase
  running : ∀ l, plan.baseLayout = some l → FitsRunning l plan.memory image.length
  legacy : plan.baseLayout = none → o.inplaceMemory = none →
    plan.memory = NRF52_FALLBACK_INPLACE_MEMORY ∧ o.segmentSize = NRF52_INPLACE_SEGMENT ∧
      plan.legacyAuto = true

theorem planInplace_planned {c : Crypto} {o : BuildOpts} {base image : Bytes}
    {plan : InplacePlan} (h : planInplace c o base image = .ok plan) :
    ∃ targetLayout, Planned c o base image targetLayout plan := by
  simp only [planInplace, bind_eq_ok, ensure_eq_ok, exists_unit, context_eq_ok] at h
  obtain ⟨-, baseLayout, hbase, targetLayout, htarget, hfitsBase, hfitsTarget, hsame, hsegment,
    minimum, hmin, ⟨-, hmod⟩, hlt, hlegacy, hfits, hplan⟩ := h
  obtain ⟨memory, hmemory⟩ :
    ∃ m, chooseMemory o (baseLayout.isSome && targetLayout.isSome) minimum = m := ⟨_, rfl⟩
  simp only [hmemory] at hmod hlt hlegacy hfits hplan
  cases hplan
  have hdvd : o.segmentSize.toNat ∣ memory.1.toNat := by
    rw [← UInt32.toNat_inj, UInt32.toNat_mod] at hmod
    exact Nat.dvd_of_mod_eq_zero hmod
  have hle : minimum.toNat ≤ memory.1.toNat := by
    rw [UInt32.lt_iff_toNat_lt] at hlt
    omega
  refine ⟨targetLayout, hbase, htarget, window_of_minimum hmin hdvd hle, ?_, ?_, ?_, ?_, ?_, ?_⟩
  · intro hsome
    cases baseLayout with
    | none => exact absurd rfl hsome
    | some l => simpa [segmentMatchesLayout] using hsegment
  · rintro l rfl
    exact imageFitsLayout_region hfitsBase
  · rintro t rfl
    exact imageFitsLayout_region hfitsTarget
  · rintro l t rfl rfl
    simpa [sameAppBase] using hsame
  · rintro l rfl
    exact fitsWorkspace_running hfits
  · rintro rfl hnone
    have hfallback : memory = (NRF52_FALLBACK_INPLACE_MEMORY, true) := by
      rw [← hmemory, chooseMemory, hnone]
      rfl
    subst hfallback
    exact ⟨rfl, by simpa [legacySegment] using hlegacy, rfl⟩

structure Charged (hybrid : Bool) (total charge : ℕ) : Prop where
  page : 4096 ∣ charge
  pos : 4096 ≤ charge
  holds : total ≤ if hybrid then charge + 65536 else charge

theorem pageRoundUp_eq {value n : ℕ} (h : pageRoundUp value = .ok n) :
    n = divCeil value 4096 * 4096 := by
  simp only [pageRoundUp, ofOption_eq_ok, Option.map_eq_some_iff, checkedAdd_eq_some] at h
  obtain ⟨v, ⟨-, rfl⟩, rfl⟩ := h
  rfl

theorem hybridCharge_charged {total n : ℕ} (h : hybridCharge total = .ok n) :
    Charged true total n := by
  simp only [hybridCharge, bind_eq_ok, ensure_eq_ok, exists_unit] at h
  obtain ⟨rounded, hround, -, hn⟩ := h
  cases hn
  have heq := pageRoundUp_eq hround
  have hle := le_divCeil_mul (total - NRF52_HYBRID_RAM_SIZE) (b := 4096) (by decide)
  have hsize : NRF52_HYBRID_RAM_SIZE = 65536 := rfl
  have hpage : NRF52_INPLACE_SEGMENT.toNat = 4096 := rfl
  rw [hsize] at hle heq
  rw [hpage]
  refine ⟨?_, by omega, by simp only [if_true]; omega⟩
  rcases max_choice rounded 4096 with hmax | hmax <;> rw [hmax]
  exact ⟨divCeil (total - 65536) 4096, by rw [heq, Nat.mul_comm]⟩

theorem stagedCharge_charged {plan : InplacePlan} {total n : ℕ} (hpos : 0 < total)
    (h : stagedCharge plan total = .ok n) :
    Charged (plan.baseLayout.any Nrf52Layout.hybridRam) total n := by
  rw [stagedCharge] at h
  split_ifs at h with hybrid
  · rw [hybrid]
    exact hybridCharge_charged h
  · have heq := pageRoundUp_eq h
    have hle := le_divCeil_mul total (b := 4096) (by decide)
    have hne : divCeil total 4096 ≠ 0 := fun hzero => by
      rw [divCeil_eq_zero (by decide)] at hzero
      omega
    rw [Bool.not_eq_true] at hybrid
    rw [hybrid]
    exact ⟨⟨divCeil total 4096, by omega⟩, by omega, by simpa [heq] using hle⟩

theorem validateStagingFit_charge {plan : InplacePlan} {total span : ℕ} (hpos : 0 < total)
    (hspan : stagingSpan plan = .ok (some span)) (h : validateStagingFit plan total = .ok ()) :
    ∃ charge, stagedCharge plan total = .ok charge ∧
      Charged (plan.baseLayout.any Nrf52Layout.hybridRam) total charge ∧
      plan.memory.toNat + charge ≤ span := by
  simp only [validateStagingFit, hspan, ok_bind, bind_eq_ok, ensure_eq_ok, tryFrom_eq_ok,
    ofOption_eq_ok, checkedAdd_eq_some] at h
  obtain ⟨_, ⟨-, rfl⟩, charge, hcharge, used, ⟨-, rfl⟩, hfit⟩ := h
  exact ⟨charge, hcharge, stagedCharge_charged hpos hcharge, hfit⟩

theorem stagingSpan_internal {plan : InplacePlan} {l : Nrf52Layout}
    (hlayout : plan.baseLayout = some l) (hint : l.externalBacked = false) {total : ℕ}
    (h : validateStagingFit plan total = .ok ()) :
    stagingSpan plan = .ok (some (l.stageCeiling.toNat - l.appBase.toNat)) := by
  rw [validateStagingFit, stagingSpan, hlayout] at h
  simp only [hint, Bool.false_eq_true, if_false, bind_eq_ok] at h
  obtain ⟨_, ⟨span, hspan, -⟩, -⟩ := h
  rw [ofOption_eq_ok] at hspan
  have heq := (checkedSub_eq_some.mp hspan).2
  rw [stagingSpan, hlayout]
  simp [hint, hspan, ofOption, heq]

end MotaTool.Build
