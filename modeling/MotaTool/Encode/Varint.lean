import MotaTool.Base.Octets
import Mathlib.Tactic.Linarith

/-!
# The two length varints of a patch

`packSize` is the signed varint of the patch structure: a sign bit, six value
bits and a continuation bit in the first byte, then seven value bits a byte.
`crlePackSize` is the unsigned seven-bit varint of the run-length segments; it
marks every byte as continued and clears the mark of the last one afterwards.
The readers are the ones the decoder documents, and each inverts its writer in
front of any remaining input.
-/

namespace MotaTool.Encode

open Base

/-- `while v > 0` of `pack_size`; every turn shrinks `v`, which bounds the fuel. -/
def packSizeLoop : ℕ → ℕ → UInt8 → Bytes
  | 0, _, byte => [byte]
  | fuel + 1, v, byte =>
    if v > 0 then (byte ||| 0x80) :: packSizeLoop fuel (v >>> 7) (UInt8.ofNat v &&& 0x7f)
    else [byte]

def packSize (value : ℤ) : Bytes :=
  let sign : UInt8 := if value < 0 then 0x40 else 0
  let v := value.natAbs
  packSizeLoop v (v >>> 6) (sign ||| (UInt8.ofNat v &&& 0x3f))

def crlePackLoop : ℕ → ℕ → Bytes
  | 0, _ => []
  | fuel + 1, value =>
    if value > 0 then (0x80 ||| (UInt8.ofNat value &&& 0x7f)) :: crlePackLoop fuel (value >>> 7)
    else []

def crlePackSize (value : ℕ) : Bytes :=
  let out := (0x80 ||| (UInt8.ofNat value &&& 0x7f)) :: crlePackLoop value (value >>> 7)
  out.modify (out.length - 1) (· &&& 0x7f)

def unpackGroups : Bytes → ℕ → ℕ → Option (ℕ × Bytes)
  | [], _, _ => none
  | b :: rest, shift, value =>
    let value := value + ((b &&& 0x7f).toNat <<< shift)
    if b &&& 0x80 ≠ 0 then unpackGroups rest (shift + 7) value else some (value, rest)

def unpackSize : Bytes → Option (ℤ × Bytes)
  | [] => none
  | b :: rest =>
    let low := (b &&& 0x3f).toNat
    let magnitude := if b &&& 0x80 ≠ 0 then unpackGroups rest 6 low else some (low, rest)
    magnitude.map fun (v, rest) => (if b &&& 0x40 ≠ 0 then -(v : ℤ) else v, rest)

def crleUnpackSize (stream : Bytes) : Option (ℕ × Bytes) := unpackGroups stream 0 0

theorem low_group (v : ℕ) : (UInt8.ofNat v &&& 0x7f).toNat = v % 128 := by
  rw [toNat_and_7f, UInt8.toNat_ofNat']
  omega

theorem low_first (v : ℕ) : (UInt8.ofNat v &&& 0x3f).toNat = v % 64 := by
  rw [toNat_and_3f, UInt8.toNat_ofNat']
  omega

theorem unpackGroups_more {b : UInt8} (hb : 128 ≤ b.toNat) (rest : Bytes) (shift value : ℕ) :
    unpackGroups (b :: rest) shift value =
      unpackGroups rest (shift + 7) (value + (b.toNat - 128) * 2 ^ shift) := by
  have hlow : b.toNat % 128 = b.toNat - 128 := by have := b.toNat_lt; omega
  simp only [unpackGroups, if_pos ((and_80_ne_zero b).mpr hb), toNat_and_7f, hlow,
    Nat.shiftLeft_eq]

theorem unpackGroups_last {b : UInt8} (hb : b.toNat < 128) (rest : Bytes) (shift value : ℕ) :
    unpackGroups (b :: rest) shift value = some (value + b.toNat * 2 ^ shift, rest) := by
  have hlow : b.toNat % 128 = b.toNat := by omega
  have hstop : ¬ (b &&& 0x80 ≠ 0) := by rw [and_80_ne_zero]; omega
  simp only [unpackGroups, if_neg hstop, toNat_and_7f, hlow, Nat.shiftLeft_eq]

/-- The group read at `shift` and the groups still to come add up to the value. -/
theorem group_step (low v shift : ℕ) :
    low * 2 ^ shift + (v % 128 + 128 * (v >>> 7)) * 2 ^ (shift + 7) =
      (low + 128 * v) * 2 ^ shift := by
  rw [Nat.shiftRight_eq_div_pow, pow_add]
  have hv : v % 128 + 128 * (v / 2 ^ 7) = v := by norm_num; omega
  rw [hv]
  ring

theorem unpackGroups_packSizeLoop {fuel v : ℕ} (hv : v ≤ fuel) {byte : UInt8}
    (hbyte : byte.toNat < 128) (rest : Bytes) (shift value : ℕ) :
    unpackGroups (packSizeLoop fuel v byte ++ rest) shift value =
      some (value + (byte.toNat + 128 * v) * 2 ^ shift, rest) := by
  induction fuel generalizing v byte shift value with
  | zero =>
    obtain rfl : v = 0 := by omega
    simp [packSizeLoop, unpackGroups_last hbyte]
  | succ fuel ih =>
    rw [packSizeLoop]
    split_ifs with hpos
    · have hnext : v >>> 7 ≤ fuel := by rw [Nat.shiftRight_eq_div_pow]; omega
      have hlow : (UInt8.ofNat v &&& 0x7f).toNat < 128 := by rw [low_group]; omega
      have hset := toNat_or_80 hbyte
      rw [List.cons_append, unpackGroups_more (by omega), ih hnext hlow, low_group, hset,
        Nat.add_sub_cancel, Nat.add_assoc, group_step]
    · obtain rfl : v = 0 := by omega
      simp [unpackGroups_last hbyte]

theorem first_byte (value : ℤ) :
    ((if value < 0 then (0x40 : UInt8) else 0) ||| (UInt8.ofNat value.natAbs &&& 0x3f)).toNat =
      (if value < 0 then 64 else 0) + value.natAbs % 64 := by
  have hlow := low_first value.natAbs
  split_ifs with h
  · rw [toNat_or_40 (by omega), hlow, Nat.add_comm]
  · rw [UInt8.toNat_or, hlow]
    simp

theorem unpackSize_cons {b : UInt8} {rest tail : Bytes} {value : ℤ}
    (hlow : b.toNat % 64 = value.natAbs % 64) (hsign : 64 ≤ b.toNat % 128 ↔ value < 0)
    (hread : (if 128 ≤ b.toNat then unpackGroups rest 6 (value.natAbs % 64)
      else some (value.natAbs % 64, rest)) = some (value.natAbs, tail)) :
    unpackSize (b :: rest) = some (value, tail) := by
  simp only [unpackSize, and_80_ne_zero, toNat_and_3f, hlow, hread, Option.map_some,
    and_40_ne_zero, hsign]
  congr 2
  split_ifs <;> omega

theorem unpackSize_packSize (value : ℤ) (rest : Bytes) :
    unpackSize (packSize value ++ rest) = some (value, rest) := by
  have hfirst := first_byte value
  simp only [packSize]
  set byte := (if value < 0 then (0x40 : UInt8) else 0) |||
    (UInt8.ofNat value.natAbs &&& 0x3f)
  have hlt : byte.toNat < 128 := by split_ifs at hfirst <;> omega
  have hlow : byte.toNat % 64 = value.natAbs % 64 := by split_ifs at hfirst <;> omega
  have hsign : 64 ≤ byte.toNat ↔ value < 0 := by split_ifs at hfirst <;> omega
  have hshift : value.natAbs >>> 6 = value.natAbs / 64 := Nat.shiftRight_eq_div_pow _ 6
  obtain hzero | ⟨fuel, hfuel⟩ : value.natAbs = 0 ∨ ∃ f, value.natAbs = f + 1 :=
    Nat.eq_zero_or_eq_succ_pred _ |>.imp_right fun h => ⟨_, h⟩
  · rw [hzero] at hlow hshift ⊢
    refine unpackSize_cons (by omega) (by omega) ?_
    rw [if_neg (by omega), hzero]
    rfl
  · rw [hfuel, packSizeLoop, ← hfuel, hshift]
    split_ifs with hpos
    · have hset := toNat_or_80 hlt
      have hgroup : (UInt8.ofNat (value.natAbs / 64) &&& 0x7f).toNat < 128 := by
        rw [low_group]; omega
      have hnext : (value.natAbs / 64) >>> 7 ≤ fuel := by
        rw [Nat.shiftRight_eq_div_pow]; omega
      rw [List.cons_append]
      refine unpackSize_cons (by omega) (by omega) ?_
      rw [if_pos (by omega), unpackGroups_packSizeLoop hnext hgroup, low_group]
      have hsplit : value.natAbs / 64 % 128 + 128 * ((value.natAbs / 64) >>> 7) =
          value.natAbs / 64 := by
        rw [Nat.shiftRight_eq_div_pow]; omega
      rw [hsplit]
      congr 2
      omega
    · refine unpackSize_cons hlow (by omega) ?_
      rw [if_neg (by omega)]
      congr 2
      omega

def clearLast (out : Bytes) : Bytes := out.modify (out.length - 1) (· &&& 0x7f)

theorem clearLast_singleton (b : UInt8) : clearLast [b] = [b &&& 0x7f] := rfl

theorem clearLast_cons (b c : UInt8) (out : Bytes) :
    clearLast (b :: c :: out) = b :: clearLast (c :: out) := by
  simp [clearLast]

theorem toNat_marked_group (v : ℕ) :
    (0x80 ||| (UInt8.ofNat v &&& 0x7f)).toNat = v % 128 + 128 := by
  have hlow := low_group v
  have hor := toNat_or_80 (b := UInt8.ofNat v &&& 0x7f) (by omega)
  rw [UInt8.or_comm, hor, hlow]

theorem unpackGroups_clearLast_single {v : ℕ} (hv : v < 128) (rest : Bytes) (shift value : ℕ) :
    unpackGroups (clearLast [0x80 ||| (UInt8.ofNat v &&& 0x7f)] ++ rest) shift value =
      some (value + v * 2 ^ shift, rest) := by
  have hcleared := toNat_and_7f (0x80 ||| (UInt8.ofNat v &&& 0x7f))
  have hval : (v % 128 + 128) % 128 = v := by omega
  rw [toNat_marked_group, hval] at hcleared
  rw [clearLast_singleton, List.singleton_append, unpackGroups_last (by omega), hcleared]

theorem unpackGroups_clearLast {fuel v : ℕ} (hv : v >>> 7 ≤ fuel) (rest : Bytes)
    (shift value : ℕ) :
    unpackGroups (clearLast ((0x80 ||| (UInt8.ofNat v &&& 0x7f)) :: crlePackLoop fuel (v >>> 7)) ++
      rest) shift value = some (value + v * 2 ^ shift, rest) := by
  have hdiv : v >>> 7 = v / 128 := Nat.shiftRight_eq_div_pow v 7
  induction fuel generalizing v shift value with
  | zero => exact unpackGroups_clearLast_single (by omega) rest shift value
  | succ fuel ih =>
    rw [crlePackLoop]
    split_ifs with hpos
    · have hnext : v >>> 7 >>> 7 ≤ fuel := by
        have := Nat.shiftRight_eq_div_pow (v >>> 7) 7
        omega
      have hmark := toNat_marked_group v
      have hsum : v % 128 * 2 ^ shift + (v >>> 7) * 2 ^ (shift + 7) = v * 2 ^ shift := by
        rw [hdiv, pow_add, ← Nat.mod_add_div v 128]
        simp only [Nat.add_mul_mod_self_left, Nat.mod_mod]
        have hq : (v % 128 + 128 * (v / 128)) / 128 = v / 128 := by omega
        rw [hq]
        ring
      rw [clearLast_cons, List.cons_append, unpackGroups_more (by omega),
        ih hnext (shift + 7) _ (Nat.shiftRight_eq_div_pow _ 7), hmark, Nat.add_sub_cancel,
        Nat.add_assoc, hsum]
    · exact unpackGroups_clearLast_single (by omega) rest shift value

theorem crleUnpackSize_crlePackSize (value : ℕ) (rest : Bytes) :
    crleUnpackSize (crlePackSize value ++ rest) = some (value, rest) := by
  have hfuel : value >>> 7 ≤ value := by rw [Nat.shiftRight_eq_div_pow]; omega
  have h := unpackGroups_clearLast hfuel rest 0 0
  simpa [crleUnpackSize, crlePackSize, clearLast] using h

theorem packSize_ne_nil (value : ℤ) : packSize value ≠ [] := by
  intro h
  have := unpackSize_packSize value []
  simp [h, unpackSize] at this

end MotaTool.Encode
