import MotaTool.Build.PlanSpec
import Mathlib.Order.Bounds.Defs

/-!
# The automatic window and the staging check are exact

In units of whole segments the window has to cover the target, and the base
with two segments to spare. The planner's minimum is the least window that does
both, and the encoder keeps the whole base in exactly those windows. The
staging check accepts a container exactly when some whole number of flash pages
above the window holds it.
-/

namespace MotaTool.Build

open Base Run Format Endf Encode

/-- The target fits in a window of `mem` bytes, and so does the whole base after the shift. -/
structure KeepsBase (seg baseLen targetLen mem : ℕ) : Prop where
  target : targetLen ≤ mem
  base : (baseLen : ℤ) ≤ mem - calcShift mem seg (2 * seg) baseLen

theorem keepsBase_iff {seg baseLen targetLen mem : ℕ} (hseg : 0 < seg) (hdvd : seg ∣ mem) :
    KeepsBase seg baseLen targetLen mem ↔
      divCeil baseLen seg * seg + 2 * seg ≤ mem ∧ divCeil targetLen seg * seg ≤ mem := by
  rw [divCeil_mul_le_iff hseg hdvd]
  constructor
  · intro h
    refine ⟨?_, h.target⟩
    have hbase := h.base
    have hshift : 2 * seg ≤ calcShift mem seg (2 * seg) baseLen := le_max_right _ _
    have hfit : baseLen ≤ mem - 2 * seg := by omega
    have hrest : seg ∣ mem - 2 * seg := Nat.dvd_sub hdvd (Nat.dvd_mul_left seg 2)
    rw [← divCeil_mul_le_iff hseg hrest] at hfit
    omega
  · rintro ⟨hbase, htarget⟩
    have hshifted := (Window.mk hseg hdvd hbase htarget).shifted_fits
    exact ⟨htarget, by omega⟩

def leastWindow (seg baseLen targetLen : ℕ) : ℕ :=
  max (divCeil baseLen seg * seg + 2 * seg) (divCeil targetLen seg * seg)

theorem keepsBase_leastWindow {seg baseLen targetLen mem : ℕ} (hseg : 0 < seg)
    (hdvd : seg ∣ mem) :
    KeepsBase seg baseLen targetLen mem ↔ leastWindow seg baseLen targetLen ≤ mem := by
  rw [keepsBase_iff hseg hdvd, leastWindow, max_le_iff]

theorem leastWindow_dvd (seg baseLen targetLen : ℕ) :
    seg ∣ leastWindow seg baseLen targetLen := by
  rcases max_choice (divCeil baseLen seg * seg + 2 * seg) (divCeil targetLen seg * seg)
    with hmax | hmax <;> rw [leastWindow, hmax]
  · exact Nat.dvd_add (Nat.dvd_mul_left seg _) (Nat.dvd_mul_left seg 2)
  · exact Nat.dvd_mul_left seg _

theorem leastWindow_isLeast {seg : ℕ} (hseg : 0 < seg) (baseLen targetLen : ℕ) :
    IsLeast {mem | seg ∣ mem ∧ KeepsBase seg baseLen targetLen mem}
      (leastWindow seg baseLen targetLen) := by
  have hdvd := leastWindow_dvd seg baseLen targetLen
  refine ⟨⟨hdvd, (keepsBase_leastWindow hseg hdvd).mpr (Nat.le_refl _)⟩, ?_⟩
  rintro mem ⟨hmem, hkeeps⟩
  exact (keepsBase_leastWindow hseg hmem).mp hkeeps

theorem tryFrom_returns (bits n : ℕ) (text : String) : Returns (tryFrom bits n text) :=
  returns_ofOption _ _

theorem alignSegment_returns (seg n : ℕ) : Returns (alignSegment seg n) :=
  (tryFrom_returns 64 n _).bind fun _ _ => returns_ofOption _ _

theorem alignSegment_ok {seg n : ℕ} (hseg : 0 < seg) (hfit : n + (seg - 1) < 2 ^ 64) :
    alignSegment seg n = .ok (divCeil n seg * seg) := by
  have hlen : ∀ text, tryFrom 64 n text = .ok n := fun text => by
    rw [tryFrom, if_pos (by omega)]
    rfl
  have hadd : checkedAdd 64 n (seg - 1) = some (n + (seg - 1)) := if_pos hfit
  simp only [alignSegment, hlen, hadd, divCeil, Nat.add_sub_assoc hseg, ok_bind,
    Option.map_some, ofOption]

section Minimum

variable {baseLen targetLen : ℕ} {segment : UInt32}

theorem minimumInplaceMemory_returns :
    Returns (minimumInplaceMemory baseLen targetLen segment) := by
  refine (returns_ensure _ _).bind fun _ _ => ?_
  refine (alignSegment_returns _ _).bind fun _ _ => ?_
  refine (returns_ofOption _ _).bind fun _ _ => ?_
  refine (alignSegment_returns _ _).bind fun _ _ => ?_
  exact (tryFrom_returns _ _ _).bind fun _ _ => returns_ok _

theorem toNat_pos {n : UInt32} (h : n ≠ 0) : 0 < n.toNat := by
  apply Nat.pos_of_ne_zero
  intro hzero
  exact h (UInt32.toNat_inj.mp hzero)

theorem minimumInplaceMemory_ok (hseg : segment ≠ 0)
    (hleast : leastWindow segment.toNat baseLen targetLen < 2 ^ 32) :
    minimumInplaceMemory baseLen targetLen segment =
      .ok (UInt32.ofNat (leastWindow segment.toNat baseLen targetLen)) := by
  have hpos := toNat_pos hseg
  have hsize := segment.toNat_lt
  have hbase := le_divCeil_mul baseLen hpos
  have htarget := le_divCeil_mul targetLen hpos
  obtain ⟨hlow, hhigh⟩ := max_lt_iff.mp hleast
  have hadd : checkedAdd 64 (divCeil baseLen segment.toNat * segment.toNat) (2 * segment.toNat) =
      some (divCeil baseLen segment.toNat * segment.toNat + 2 * segment.toNat) :=
    if_pos (by omega)
  rw [minimumInplaceMemory, ensure_of hseg, ok_bind]
  simp only [alignSegment_ok hpos (show baseLen + (segment.toNat - 1) < 2 ^ 64 by omega),
    alignSegment_ok hpos (show targetLen + (segment.toNat - 1) < 2 ^ 64 by omega), hadd, ok_bind,
    ofOption]
  rw [← leastWindow, tryFrom, if_pos hleast]
  rfl

theorem minimumInplaceMemory_eq_ok (hseg : segment ≠ 0) (memory : UInt32) :
    minimumInplaceMemory baseLen targetLen segment = .ok memory ↔
      memory.toNat = leastWindow segment.toNat baseLen targetLen := by
  constructor
  · intro h
    exact (minimumInplaceMemory_eq h).2
  · intro h
    have hlt : leastWindow segment.toNat baseLen targetLen < 2 ^ 32 := by
      rw [← h]
      exact memory.toNat_lt
    rw [minimumInplaceMemory_ok hseg hlt, ← h, UInt32.ofNat_toNat]

theorem minimumInplaceMemory_fails_iff (hseg : segment ≠ 0) :
    (∃ chain, minimumInplaceMemory baseLen targetLen segment = .error (.error chain)) ↔
      2 ^ 32 ≤ leastWindow segment.toNat baseLen targetLen := by
  rw [minimumInplaceMemory_returns.fails_iff]
  constructor
  · intro h
    by_contra hlt
    exact h _ (minimumInplaceMemory_ok hseg (Nat.lt_of_not_le hlt))
  · intro h memory hok
    rw [minimumInplaceMemory_eq_ok hseg] at hok
    have hlt := memory.toNat_lt
    omega

theorem KeepsBase.slice_base {seg mem : ℕ} {old : Bytes}
    (h : KeepsBase seg old.length targetLen mem) :
    ∃ shifted, checkedSub mem (calcShift mem seg (2 * seg) old.length) = some shifted ∧
      slice old 0 (min old.length shifted) = .ok old := by
  have hbase := h.base
  refine ⟨_, checkedSub_eq_some.mpr ⟨by omega, rfl⟩, ?_⟩
  rw [slice_eq_ok]
  refine ⟨Nat.zero_le _, Nat.min_le_left _ _, ?_⟩
  rw [List.drop_zero, Nat.sub_zero, List.take_of_length_le (by omega)]

/-- The planner's minimum is the least multiple of the segment that holds the target and keeps
the base. It fails exactly when that window has no 32-bit length, every larger multiple keeps
the base as well, and in each of them the encoder reads all of it. -/
theorem minimumInplaceMemory_exact (baseLen targetLen : ℕ) {segment : UInt32}
    (hseg : segment ≠ 0) :
    ∃ least, IsLeast {mem | segment.toNat ∣ mem ∧
        KeepsBase segment.toNat baseLen targetLen mem} least ∧
      (∀ memory, minimumInplaceMemory baseLen targetLen segment = .ok memory ↔
        memory.toNat = least) ∧
      ((∃ chain, minimumInplaceMemory baseLen targetLen segment = .error (.error chain)) ↔
        2 ^ 32 ≤ least) ∧
      ∀ mem, segment.toNat ∣ mem → least ≤ mem →
        KeepsBase segment.toNat baseLen targetLen mem ∧
          ∀ old : Bytes, old.length = baseLen → ∃ shifted,
            checkedSub mem (calcShift mem segment.toNat (2 * segment.toNat) old.length) =
              some shifted ∧ slice old 0 (min old.length shifted) = .ok old := by
  have hpos := toNat_pos hseg
  refine ⟨leastWindow segment.toNat baseLen targetLen, leastWindow_isLeast hpos _ _,
    minimumInplaceMemory_eq_ok hseg, minimumInplaceMemory_fails_iff hseg, ?_⟩
  intro mem hdvd hle
  have hkeeps := (keepsBase_leastWindow hpos hdvd).mpr hle
  refine ⟨hkeeps, ?_⟩
  rintro old rfl
  exact hkeeps.slice_base

theorem minimumInplaceMemory_exact_page :
    ∃ least, IsLeast {mem | (4096 : UInt32).toNat ∣ mem ∧
        KeepsBase (4096 : UInt32).toNat 1 0x6001 mem} least ∧
      (∀ memory, minimumInplaceMemory 1 0x6001 4096 = .ok memory ↔ memory.toNat = least) ∧
      ((∃ chain, minimumInplaceMemory 1 0x6001 4096 = .error (.error chain)) ↔
        2 ^ 32 ≤ least) ∧
      ∀ mem, (4096 : UInt32).toNat ∣ mem → least ≤ mem →
        KeepsBase (4096 : UInt32).toNat 1 0x6001 mem ∧
          ∀ old : Bytes, old.length = 1 → ∃ shifted,
            checkedSub mem (calcShift mem (4096 : UInt32).toNat (2 * (4096 : UInt32).toNat)
              old.length) = some shifted ∧ slice old 0 (min old.length shifted) = .ok old :=
  minimumInplaceMemory_exact 1 0x6001 (by decide)

end Minimum

/-- The plans whose container shares a flash span with the window. -/
inductive Spanned : InplacePlan → Bool → ℕ → Prop
  | internal {memory : UInt32} {l : Nrf52Layout} {legacyAuto : Bool} (hvalid : l.validate = .ok ())
      (hint : l.externalBacked = false) :
      Spanned ⟨memory, some l, legacyAuto⟩ l.hybridRam (l.stageCeiling.toNat - l.appBase.toNat)
  | legacy {memory : UInt32} : Spanned ⟨memory, none, true⟩ false NRF52_FALLBACK_FLASH_SPAN

def Stageable (hybrid : Bool) (memory span total : ℕ) : Prop :=
  ∃ charge, Charged hybrid total charge ∧ memory + charge ≤ span

def chargeOf (hybrid : Bool) (total : ℕ) : ℕ :=
  if hybrid then max (divCeil (total - NRF52_HYBRID_RAM_SIZE) 4096 * 4096) 4096
  else divCeil total 4096 * 4096

theorem divCeil_mono {a b n : ℕ} (hn : 0 < n) (h : a ≤ b) : divCeil a n ≤ divCeil b n := by
  rw [divCeil_le_iff hn]
  exact h.trans (le_divCeil_mul b hn)

theorem chargeOf_mono (hybrid : Bool) {smaller total : ℕ} (h : smaller ≤ total) :
    chargeOf hybrid smaller ≤ chargeOf hybrid total := by
  have hcut := divCeil_mono (n := 4096) (by decide)
    (Nat.sub_le_sub_right h NRF52_HYBRID_RAM_SIZE)
  have hwhole := divCeil_mono (n := 4096) (by decide) h
  unfold chargeOf
  split_ifs
  · exact max_le_max (Nat.mul_le_mul_right 4096 hcut) (Nat.le_refl 4096)
  · exact Nat.mul_le_mul_right 4096 hwhole

theorem chargeOf_lt (hybrid : Bool) (total : ℕ) : chargeOf hybrid total < total + 4097 := by
  have hcut := divCeil_mul_lt (total - NRF52_HYBRID_RAM_SIZE) (b := 4096) (by decide)
  have hsub : total - NRF52_HYBRID_RAM_SIZE ≤ total := Nat.sub_le _ _
  have hwhole := divCeil_mul_lt total (b := 4096) (by decide)
  unfold chargeOf
  split_ifs
  · exact max_lt (hcut.trans_le (by omega)) (by omega)
  · exact Nat.lt_succ_of_lt hwhole

theorem chargeOf_le {hybrid : Bool} {total charge : ℕ} (h : Charged hybrid total charge) :
    chargeOf hybrid total ≤ charge := by
  have hholds := h.holds
  unfold chargeOf
  split_ifs at hholds ⊢
  · have hcut : total - NRF52_HYBRID_RAM_SIZE ≤ charge := Nat.sub_le_of_le_add hholds
    exact max_le ((divCeil_mul_le_iff (by decide) h.page).mpr hcut) h.pos
  · rwa [divCeil_mul_le_iff (by decide) h.page]

theorem pageRoundUp_ok {value : ℕ} (h : value + 4095 < 2 ^ 64) :
    pageRoundUp value = .ok (divCeil value 4096 * 4096) := by
  have hadd : checkedAdd 64 value (NRF52_INPLACE_SEGMENT.toNat - 1) = some (value + 4095) :=
    if_pos h
  rw [pageRoundUp, hadd]
  rfl

theorem hybridCharge_eq (total : ℕ) :
    hybridCharge total =
      (pageRoundUp (total - NRF52_HYBRID_RAM_SIZE)).map
        fun rounded => max rounded NRF52_INPLACE_SEGMENT.toNat := by
  rw [hybridCharge]
  cases hround : pageRoundUp (total - NRF52_HYBRID_RAM_SIZE) with
  | error e => rfl
  | ok rounded =>
    have hle := le_divCeil_mul (total - NRF52_HYBRID_RAM_SIZE) (b := 4096) (by decide)
    rw [← pageRoundUp_eq hround] at hle
    have hsuffix : max rounded NRF52_INPLACE_SEGMENT.toNat < total →
        total - max rounded NRF52_INPLACE_SEGMENT.toNat ≤ NRF52_HYBRID_RAM_SIZE := by omega
    simp only [ok_bind, ensure_of hsuffix, Except.map]

theorem stagedCharge_ok {plan : InplacePlan} {total : ℕ} (h : total + 4095 < 2 ^ 64) :
    stagedCharge plan total =
      .ok (chargeOf (plan.baseLayout.any Nrf52Layout.hybridRam) total) := by
  rw [stagedCharge, chargeOf]
  split_ifs
  · rw [hybridCharge_eq, pageRoundUp_ok (by omega)]
    rfl
  · exact pageRoundUp_ok h

section Spanned

variable {plan : InplacePlan} {hybrid : Bool} {span total : ℕ}

theorem Spanned.span_eq (h : Spanned plan hybrid span) : stagingSpan plan = .ok (some span) := by
  cases h with
  | @internal memory l legacyAuto hvalid hint =>
    have hle : l.appBase.toNat ≤ l.stageCeiling.toNat := by
      have hvalid := Nrf52Layout.validate_valid hvalid
      rcases hvalid.appBase with hbase | hbase <;>
        rcases hvalid.stageCeiling with hstage | hstage <;>
        rw [hbase, hstage] <;> decide
    simp only [stagingSpan, hint, Bool.false_eq_true, if_false, checkedSub_eq_some.mpr ⟨hle, rfl⟩,
      ofOption, ok_bind]
  | legacy => rfl

theorem Spanned.hybrid_eq (h : Spanned plan hybrid span) :
    plan.baseLayout.any Nrf52Layout.hybridRam = hybrid := by
  cases h with
  | internal => rfl
  | legacy => rfl

theorem Spanned.span_lt (h : Spanned plan hybrid span) : span < 2 ^ 32 := by
  cases h with
  | @internal memory l legacyAuto =>
    exact Nat.lt_of_le_of_lt (Nat.sub_le _ _) l.stageCeiling.toNat_lt
  | legacy => decide

theorem Charged.le_add {charge : ℕ} (h : Charged hybrid total charge) :
    total ≤ charge + 65536 := by
  have hholds := h.holds
  split_ifs at hholds
  · exact hholds
  · exact hholds.trans (Nat.le_add_right _ _)

theorem chargeOf_charged (hpos : 0 < total) : Charged hybrid total (chargeOf hybrid total) := by
  have hpage : 4096 ∣ chargeOf hybrid total := by
    unfold chargeOf
    split_ifs
    · rcases max_choice (divCeil (total - NRF52_HYBRID_RAM_SIZE) 4096 * 4096) 4096 with h | h <;>
        rw [h]
      exact Nat.dvd_mul_left 4096 _
    · exact Nat.dvd_mul_left 4096 _
  unfold chargeOf at hpage ⊢
  split_ifs at hpage ⊢ with hflag
  · have hcut := (le_divCeil_mul (total - NRF52_HYBRID_RAM_SIZE) (b := 4096) (by decide)).trans
      (le_max_left _ 4096)
    refine ⟨hpage, le_max_right _ _, ?_⟩
    rw [if_pos hflag]
    exact Nat.le_add_of_sub_le hcut
  · have hwhole := le_divCeil_mul total (b := 4096) (by decide)
    refine ⟨hpage, Nat.le_of_dvd (by omega) hpage, ?_⟩
    rwa [if_neg hflag]

theorem Spanned.fit_of_small (h : Spanned plan hybrid span) (hsmall : total < 2 ^ 63) :
    validateStagingFit plan total = .ok () ↔ plan.memory.toNat + chargeOf hybrid total ≤ span := by
  have htotal : ∀ text, tryFrom 64 total text = .ok total := fun text => by
    rw [tryFrom, if_pos (by omega)]
    rfl
  have hmemory := plan.memory.toNat_lt
  have hcharge := chargeOf_lt hybrid total
  have hadd : checkedAdd 64 plan.memory.toNat (chargeOf hybrid total) =
      some (plan.memory.toNat + chargeOf hybrid total) := checkedAdd_eq_some.mpr ⟨by omega, rfl⟩
  have hstaged := @stagedCharge_ok plan total (by omega)
  rw [h.hybrid_eq] at hstaged
  simp only [validateStagingFit, h.span_eq, htotal, hstaged, hadd, ofOption, ok_bind,
    ensure_eq_ok]

theorem Spanned.fit_iff (h : Spanned plan hybrid span) :
    validateStagingFit plan total = .ok () ↔ plan.memory.toNat + chargeOf hybrid total ≤ span := by
  by_cases hsmall : total < 2 ^ 63
  · exact h.fit_of_small hsmall
  · have hspan := h.span_lt
    have hpos : 0 < total := by omega
    have hlow := (@chargeOf_charged hybrid total hpos).le_add
    refine iff_of_false ?_ (by omega)
    intro hfit
    obtain ⟨charge, -, hcharged, hused⟩ := validateStagingFit_charge hpos h.span_eq hfit
    have htotal := hcharged.le_add
    omega

theorem Spanned.fit_iff_stageable (h : Spanned plan hybrid span) (hpos : 0 < total) :
    validateStagingFit plan total = .ok () ↔
      Stageable hybrid plan.memory.toNat span total := by
  rw [h.fit_iff]
  constructor
  · intro hfit
    exact ⟨_, chargeOf_charged hpos, hfit⟩
  · rintro ⟨charge, hcharged, hfit⟩
    exact (Nat.add_le_add_left (chargeOf_le hcharged) _).trans hfit

theorem Spanned.smaller_memory (h : Spanned plan hybrid span) (memory : UInt32) :
    Spanned { plan with memory := memory } hybrid span := by
  cases h with
  | internal hvalid hint => exact .internal hvalid hint
  | legacy => exact .legacy

end Spanned

def suffixExceeds : String :=
  s!"in-place: hybrid RAM suffix exceeds {NRF52_HYBRID_RAM_SIZE} bytes"

theorem suffixExceeds_take : suffixExceeds.toList.take 11 = "in-place: h".toList := by
  unfold suffixExceeds
  rw [String.toList_append, String.toList_append, List.append_assoc,
    List.take_append_of_le_length]
  · rfl
  · decide

theorem ne_suffixExceeds {msg : String} (h : msg.toList.take 11 ≠ "in-place: h".toList) :
    msg ≠ suffixExceeds := by
  rintro rfl
  exact h suffixExceeds_take

theorem pageRoundUp_ne_suffix (value : ℕ) : pageRoundUp value ≠ bail suffixExceeds :=
  ofOption_ne_bail (ne_suffixExceeds (by simp))

theorem hybridCharge_ne_suffix (total : ℕ) : hybridCharge total ≠ bail suffixExceeds := by
  rw [hybridCharge_eq]
  intro h
  cases hround : pageRoundUp (total - NRF52_HYBRID_RAM_SIZE) with
  | ok rounded =>
    rw [hround] at h
    cases h
  | error e =>
    rw [hround] at h
    cases h
    exact pageRoundUp_ne_suffix _ hround

theorem stagingSpan_ne_suffix (plan : InplacePlan) : stagingSpan plan ≠ bail suffixExceeds := by
  unfold stagingSpan
  split
  · split_ifs
    · simp [bail]
    · refine bind_ne_bail (ofOption_ne_bail (ne_suffixExceeds (by simp))) ?_
      simp [bail]
  · simp [bail]

theorem validateStagingFit_ne_suffix (plan : InplacePlan) (total : ℕ) :
    validateStagingFit plan total ≠ bail suffixExceeds := by
  refine bind_ne_bail (stagingSpan_ne_suffix plan) ?_
  rintro (_ | span)
  · simp [bail]
  refine bind_ne_bail (ofOption_ne_bail (ne_suffixExceeds (by simp))) fun total => ?_
  refine bind_ne_bail ?_ fun staged => ?_
  · rw [stagedCharge]
    split_ifs
    · exact hybridCharge_ne_suffix total
    · exact pageRoundUp_ne_suffix total
  refine bind_ne_bail (ofOption_ne_bail (ne_suffixExceeds (by simp))) fun used => ?_
  apply ensure_ne_bail
  apply ne_suffixExceeds
  simp [toString, String.toList_append]

/-- The check accepts a container exactly when whole pages above the window hold it, never
reports too long a suffix, and accepts every smaller container beside every smaller window. -/
theorem validateStagingFit_exact {plan : InplacePlan} {hybrid : Bool} {span total : ℕ}
    (h : Spanned plan hybrid span) (hpos : 0 < total) :
    (validateStagingFit plan total = .ok () ↔
      ∃ charge, 4096 ∣ charge ∧ 4096 ≤ charge ∧ plan.memory.toNat + charge ≤ span ∧
        total ≤ if hybrid then charge + 65536 else charge) ∧
      validateStagingFit plan total ≠ bail suffixExceeds ∧
      (validateStagingFit plan total = .ok () → ∀ memory ≤ plan.memory, ∀ smaller ≤ total,
        validateStagingFit { plan with memory := memory } smaller = .ok ()) := by
  refine ⟨?_, validateStagingFit_ne_suffix plan total, ?_⟩
  · rw [h.fit_iff_stageable hpos]
    constructor
    · rintro ⟨charge, hcharged, hfit⟩
      exact ⟨charge, hcharged.page, hcharged.pos, hfit, hcharged.holds⟩
    · rintro ⟨charge, hpage, hmin, hfit, hholds⟩
      exact ⟨charge, ⟨hpage, hmin, hholds⟩, hfit⟩
  · intro hfit memory hmemory smaller hsmaller
    rw [h.fit_iff] at hfit
    rw [(h.smaller_memory memory).fit_iff]
    exact (Nat.add_le_add hmemory (chargeOf_mono hybrid hsmaller)).trans hfit

theorem validateStagingFit_exact_hybrid :
    (validateStagingFit ⟨0x98000, some ⟨0x26000, 0xED000, 0xED000, 0x10⟩, false⟩ 70000 = .ok () ↔
      ∃ charge, 4096 ∣ charge ∧ 4096 ≤ charge ∧ (0x98000 : UInt32).toNat + charge ≤ 0xC7000 ∧
        70000 ≤ if (true : Bool) then charge + 65536 else charge) ∧
      validateStagingFit ⟨0x98000, some ⟨0x26000, 0xED000, 0xED000, 0x10⟩, false⟩ 70000 ≠
        bail suffixExceeds ∧
      (validateStagingFit ⟨0x98000, some ⟨0x26000, 0xED000, 0xED000, 0x10⟩, false⟩ 70000 =
          .ok () → ∀ memory ≤ (0x98000 : UInt32), ∀ smaller ≤ 70000,
        validateStagingFit ⟨memory, some ⟨0x26000, 0xED000, 0xED000, 0x10⟩, false⟩ smaller =
          .ok ()) :=
  validateStagingFit_exact (.internal rfl rfl) (by decide)

end MotaTool.Build
