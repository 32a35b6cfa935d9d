import MotaTool.Encode.Varint

/-!
# The varints on machine words

The encoders work on an `i64` and a `u64`. On every word but the least `i64`,
which has no negation, they compute what the encoders of the integers compute,
so that the readers take exactly their output from the front of any input.
-/

namespace MotaTool.Encode

open Base Run

def negI64 (value : Int64) : Run Int64 :=
  if value = Int64.minValue then Run.panic else .ok (-value)

def lowByte (value : Int64) : UInt8 := value.toUInt64.toUInt8

def packLoopI64 : ℕ → Int64 → UInt8 → Run Bytes
  | 0, _, _ => .error .spin
  | fuel + 1, v, byte =>
    if v > 0 then do
      let out ← packLoopI64 fuel (v >>> 7) (lowByte v &&& 0x7f)
      .ok ((byte ||| 0x80) :: out)
    else .ok [byte]

def packSizeI64 (value : Int64) : Run Bytes := do
  let (sign, v) ←
    if value < 0 then do
      let v ← negI64 value
      .ok ((0x40 : UInt8), v)
    else .ok (0, value)
  packLoopI64 64 (v >>> 6) (sign ||| (lowByte v &&& 0x3f))

def crlePackLoopU64 : ℕ → UInt64 → Run Bytes
  | 0, _ => .error .spin
  | fuel + 1, value =>
    if value > 0 then do
      let out ← crlePackLoopU64 fuel (value >>> 7)
      .ok ((0x80 ||| (value.toUInt8 &&& 0x7f)) :: out)
    else .ok []

def crlePackSizeU64 (value : UInt64) : Run Bytes := do
  let rest ← crlePackLoopU64 65 (value >>> 7)
  let out := (0x80 ||| (value.toUInt8 &&& 0x7f)) :: rest
  let last ← index out (out.length - 1)
  store out (out.length - 1) (last &&& 0x7f)

section Words

variable {v : Int64}

theorem toInt_shiftRight (v : Int64) :
    (v >>> 6).toInt = v.toInt / 64 ∧ (v >>> 7).toInt = v.toInt / 128 := by
  constructor
  · change (BitVec.sshiftRight' v.toBitVec _).toInt = _
    rw [BitVec.sshiftRight', BitVec.toInt_sshiftRight]
    exact Int.shiftRight_eq_div_pow v.toInt 6
  · change (BitVec.sshiftRight' v.toBitVec _).toInt = _
    rw [BitVec.sshiftRight', BitVec.toInt_sshiftRight]
    exact Int.shiftRight_eq_div_pow v.toInt 7

theorem toNat_of_nonneg (h : 0 ≤ v.toInt) : v.toUInt64.toNat = v.toInt.toNat := by
  have hbits : v.toInt = v.toBitVec.toInt := rfl
  have hword : v.toUInt64.toNat = v.toBitVec.toNat := rfl
  have hlt := v.toBitVec.isLt
  have hcond := BitVec.toInt_eq_toNat_cond v.toBitVec
  split_ifs at hcond <;> omega

theorem lowByte_eq (h : 0 ≤ v.toInt) : lowByte v = UInt8.ofNat v.toInt.toNat := by
  rw [lowByte, ← UInt8.ofNat_uInt64ToNat, toNat_of_nonneg h]

theorem pos_iff (v : Int64) : v > 0 ↔ 0 < v.toInt := Int64.lt_iff_toInt_lt

theorem neg_iff (v : Int64) : v < 0 ↔ v.toInt < 0 := Int64.lt_iff_toInt_lt

theorem negI64_ok (h : v ≠ Int64.minValue) : negI64 v = .ok (-v) ∧ (-v).toInt = -v.toInt := by
  refine ⟨if_neg h, ?_⟩
  have hlow := v.le_toInt
  have hhigh := v.toInt_lt
  have hne : v.toInt ≠ -2 ^ 63 := fun heq => h (Int64.toInt_inj.mp heq)
  rw [Int64.toInt_neg]
  exact Int.bmod_eq_of_le (by omega) (by omega)

end Words

theorem packSizeLoop_zero (fuel : ℕ) (byte : UInt8) : packSizeLoop fuel 0 byte = [byte] := by
  cases fuel with
  | zero => rfl
  | succ fuel => rfl

theorem shift_toNat {v : Int64} (h : 0 ≤ v.toInt) :
    0 ≤ (v >>> 7).toInt ∧ (v >>> 7).toInt.toNat = v.toInt.toNat >>> 7 := by
  rw [(toInt_shiftRight v).2, Nat.shiftRight_eq_div_pow]
  omega

theorem packLoopI64_eq {fuel : ℕ} {v : Int64} (hnonneg : 0 ≤ v.toInt) (hlt : v.toInt < 2 ^ fuel)
    (bound : ℕ) (hbound : v.toInt.toNat ≤ bound) (byte : UInt8) :
    packLoopI64 (fuel + 1) v byte = .ok (packSizeLoop bound v.toInt.toNat byte) := by
  induction fuel generalizing v bound byte with
  | zero =>
    have hzero : v.toInt = 0 := by omega
    rw [packLoopI64, if_neg (by rw [pos_iff]; omega), hzero, Int.toNat_zero, packSizeLoop_zero]
  | succ fuel ih =>
    by_cases hpos : 0 < v.toInt
    · obtain ⟨bound, rfl⟩ : ∃ b, bound = b + 1 := ⟨bound - 1, by omega⟩
      obtain ⟨hshift, hnat⟩ := shift_toNat hnonneg
      have hdiv := (toInt_shiftRight v).2
      have hsmall : v.toInt.toNat >>> 7 ≤ bound := by
        rw [Nat.shiftRight_eq_div_pow]
        omega
      rw [packLoopI64, if_pos ((pos_iff v).mpr hpos),
        ih hshift (by omega) bound (by rwa [hnat]), ok_bind, packSizeLoop, if_pos (by omega), hnat,
        lowByte_eq hnonneg]
    · have hzero : v.toInt = 0 := by omega
      rw [packLoopI64, if_neg (by rw [pos_iff]; omega), hzero, Int.toNat_zero, packSizeLoop_zero]

theorem packMagnitude_eq {v : Int64} (h : 0 ≤ v.toInt) (sign : UInt8) :
    packLoopI64 64 (v >>> 6) (sign ||| (lowByte v &&& 0x3f)) =
      .ok (packSizeLoop v.toInt.toNat (v.toInt.toNat >>> 6)
        (sign ||| (UInt8.ofNat v.toInt.toNat &&& 0x3f))) := by
  have hdiv := (toInt_shiftRight v).1
  have hlt := v.toInt_lt
  have hnat : (v >>> 6).toInt.toNat = v.toInt.toNat >>> 6 := by
    rw [hdiv, Nat.shiftRight_eq_div_pow]
    omega
  rw [packLoopI64_eq (by omega) (by omega) v.toInt.toNat (by omega), hnat, lowByte_eq h]

theorem packSizeI64_eq {value : Int64} (h : value ≠ Int64.minValue) :
    packSizeI64 value = .ok (packSize value.toInt) := by
  rw [packSizeI64, packSize]
  by_cases hneg : value.toInt < 0
  · obtain ⟨hok, hval⟩ := negI64_ok h
    have hmag : (-value).toInt.toNat = value.toInt.natAbs := by omega
    have hpack := packMagnitude_eq (v := -value) (by omega) 0x40
    rw [hmag] at hpack
    rw [if_pos ((neg_iff value).mpr hneg), hok, if_pos hneg]
    exact hpack
  · have hmag : value.toInt.toNat = value.toInt.natAbs := by omega
    have hpack := packMagnitude_eq (v := value) (by omega) 0
    rw [hmag] at hpack
    rw [if_neg (by rw [neg_iff]; exact hneg), if_neg hneg]
    exact hpack

theorem crlePackLoop_zero (fuel : ℕ) : crlePackLoop fuel 0 = [] := by
  cases fuel with
  | zero => rfl
  | succ fuel => rfl

theorem shiftU64_toNat (value : UInt64) : (value >>> 7).toNat = value.toNat >>> 7 := rfl

theorem crlePackLoopU64_eq {fuel : ℕ} {value : UInt64} (hlt : value.toNat < 2 ^ fuel) (bound : ℕ)
    (hbound : value.toNat ≤ bound) :
    crlePackLoopU64 (fuel + 1) value = .ok (crlePackLoop bound value.toNat) := by
  have hiff : value > 0 ↔ 0 < value.toNat := UInt64.lt_iff_toNat_lt
  induction fuel generalizing value bound with
  | zero =>
    have hzero : value.toNat = 0 := by omega
    rw [crlePackLoopU64, if_neg (by rw [hiff]; omega), hzero, crlePackLoop_zero]
  | succ fuel ih =>
    by_cases hpos : 0 < value.toNat
    · obtain ⟨bound, rfl⟩ : ∃ b, bound = b + 1 := ⟨bound - 1, by omega⟩
      have hdiv : value.toNat >>> 7 = value.toNat / 128 := Nat.shiftRight_eq_div_pow _ 7
      have hnext := shiftU64_toNat value
      rw [crlePackLoopU64, if_pos (hiff.mpr hpos),
        ih (by omega) bound (by omega) UInt64.lt_iff_toNat_lt, ok_bind, crlePackLoop,
        if_pos hpos, hnext, UInt8.ofNat_uInt64ToNat]
    · have hzero : value.toNat = 0 := by omega
      rw [crlePackLoopU64, if_neg (by rw [hiff]; omega), hzero, crlePackLoop_zero]

theorem clearLast_store {out : Bytes} (h : out ≠ []) :
    (do let last ← index out (out.length - 1)
        store out (out.length - 1) (last &&& 0x7f)) = .ok (clearLast out) := by
  have hlast : out.length - 1 < out.length := by
    have := List.length_pos_iff.mpr h
    omega
  rw [index_ok hlast, ok_bind, store_ok hlast, clearLast, List.modify_eq_set_getElem?]
  simp [hlast]

theorem crlePackSizeU64_eq (value : UInt64) :
    crlePackSizeU64 value = .ok (crlePackSize value.toNat) := by
  have hnext := shiftU64_toNat value
  have hdiv : value.toNat >>> 7 = value.toNat / 128 := Nat.shiftRight_eq_div_pow _ 7
  have hlt := value.toNat_lt
  rw [crlePackSizeU64, crlePackLoopU64_eq (by omega) value.toNat (by omega), ok_bind, hnext]
  exact clearLast_store (List.cons_ne_nil _ _)

/-- In front of any input the readers take exactly the varint of a word, for every `i64` that has
a negation and for every `u64`. -/
theorem varints_selfDelimiting :
    (∀ value : Int64, value ≠ Int64.minValue → ∀ rest, ∃ out, packSizeI64 value = .ok out ∧
      unpackSize (out ++ rest) = some (value.toInt, rest)) ∧
    ∀ (value : UInt64) rest, ∃ out, crlePackSizeU64 value = .ok out ∧
      crleUnpackSize (out ++ rest) = some (value.toNat, rest) := by
  constructor
  · intro value hvalue rest
    exact ⟨_, packSizeI64_eq hvalue, unpackSize_packSize value.toInt rest⟩
  · intro value rest
    exact ⟨_, crlePackSizeU64_eq value, crleUnpackSize_crlePackSize value.toNat rest⟩

theorem varints_selfDelimiting_negative :
    ∃ out, packSizeI64 (-64) = .ok out ∧ unpackSize (out ++ [7]) = some (-64, [7]) :=
  varints_selfDelimiting.1 (-64) (by decide) [7]

end MotaTool.Encode
