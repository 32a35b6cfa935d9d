import Mathlib.Data.Nat.Notation
import Mathlib.Tactic.Common
import Mathlib.Tactic.Ring

/-!
# Reflected cyclic redundancy checks

A register of `w` bits absorbs symbols of `k` bits: a symbol is added to the low end and
`k` bits are shifted out, each one bit answered by the polynomial. Everything is linear
in exclusive or. If the top bit of the polynomial is set no shift loses information, and
two inputs that differ in one burst of at most `w` bits leave different registers.
-/

namespace MotaTool.Base.Crc

variable {w : ℕ} (poly : BitVec w)

def shift (x : BitVec w) : BitVec w := (x >>> 1) ^^^ (if x.getLsbD 0 then poly else 0#w)

def shifts : ℕ → BitVec w → BitVec w
  | 0, x => x
  | k + 1, x => shifts k (shift poly x)

def absorb (k : ℕ) (x symbol : BitVec w) : BitVec w := shifts poly k (x ^^^ symbol)

def digest (k : ℕ) (x : BitVec w) (symbols : List (BitVec w)) : BitVec w :=
  symbols.foldl (absorb poly k) x

theorem digest_append (k : ℕ) (x : BitVec w) (a b : List (BitVec w)) :
    digest poly k x (a ++ b) = digest poly k (digest poly k x a) b := List.foldl_append

theorem shift_xor (x y : BitVec w) : shift poly (x ^^^ y) = shift poly x ^^^ shift poly y := by
  unfold shift
  rw [BitVec.ushiftRight_xor_distrib, BitVec.getLsbD_xor]
  cases x.getLsbD 0 <;> cases y.getLsbD 0
  · simp
  · simp [BitVec.xor_assoc]
  · simp [BitVec.xor_assoc, BitVec.xor_comm poly]
  · simp only [Bool.xor_self, Bool.false_eq_true, if_false, if_true, BitVec.xor_zero]
    rw [BitVec.xor_assoc, BitVec.xor_comm poly, BitVec.xor_assoc, BitVec.xor_self,
      BitVec.xor_zero]

theorem shifts_xor (k : ℕ) (x y : BitVec w) :
    shifts poly k (x ^^^ y) = shifts poly k x ^^^ shifts poly k y := by
  induction k generalizing x y with
  | zero => rfl
  | succ k ih => rw [shifts, shift_xor, ih, shifts, shifts]

theorem absorb_xor (k : ℕ) (x y e f : BitVec w) :
    absorb poly k x e ^^^ absorb poly k y f = absorb poly k (x ^^^ y) (e ^^^ f) := by
  rw [absorb, absorb, absorb, ← shifts_xor]
  congr 1
  rw [BitVec.xor_assoc, BitVec.xor_assoc, ← BitVec.xor_assoc e, BitVec.xor_comm e,
    BitVec.xor_assoc]

/-- The difference of two runs is the run of the difference. -/
theorem digest_xor (k : ℕ) {es fs : List (BitVec w)} (h : es.length = fs.length)
    (x y : BitVec w) : digest poly k x es ^^^ digest poly k y fs =
      digest poly k (x ^^^ y) (List.zipWith (· ^^^ ·) es fs) := by
  induction es generalizing fs x y with
  | nil =>
    rw [List.length_nil, eq_comm, List.length_eq_zero_iff] at h
    rw [h]
    rfl
  | cons e es ih =>
    obtain - | ⟨f, fs⟩ := fs
    · simp at h
    · have hrest := ih (Nat.succ.inj h) (absorb poly k x e) (absorb poly k y f)
      rw [absorb_xor] at hrest
      exact hrest

theorem msb_shifted (x : BitVec w) : (x >>> 1).msb = false := by
  have hx := x.isLt
  rw [BitVec.msb_eq_decide, decide_eq_false_iff_not, BitVec.toNat_ushiftRight,
    Nat.shiftRight_one]
  cases w with
  | zero =>
    rw [Nat.pow_zero] at hx
    simp only [Nat.zero_sub, Nat.pow_zero]
    omega
  | succ w =>
    rw [Nat.pow_succ] at hx
    rw [Nat.add_sub_cancel]
    omega

theorem eq_of_zipWith_xor {es fs : List (BitVec w)} (hlen : es.length = fs.length)
    (h : ∀ e ∈ List.zipWith (· ^^^ ·) es fs, e = 0#w) : es = fs := by
  refine List.ext_getElem hlen fun i hi hi' => ?_
  have hin : i < (List.zipWith (· ^^^ ·) es fs).length := by
    rw [List.length_zipWith]
    omega
  have hzero := h _ (List.getElem_mem hin)
  rw [List.getElem_zipWith] at hzero
  exact BitVec.xor_eq_zero_iff.mp hzero

theorem zipWith_xor_lt {k : ℕ} {es fs : List (BitVec w)} (hes : ∀ e ∈ es, e.toNat < 2 ^ k)
    (hfs : ∀ f ∈ fs, f.toNat < 2 ^ k) :
    ∀ e ∈ List.zipWith (· ^^^ ·) es fs, e.toNat < 2 ^ k := by
  intro e he
  obtain ⟨i, hi, rfl⟩ := List.getElem_of_mem he
  rw [List.getElem_zipWith, BitVec.toNat_xor]
  exact Nat.xor_lt_two_pow (hes _ (List.getElem_mem _)) (hfs _ (List.getElem_mem _))

section Reversible

variable {poly} (hp : poly.msb = true)
include hp

theorem shift_small {x : BitVec w} (h : (shift poly x).toNat < 2 ^ (w - 1)) :
    x.toNat = 2 * (shift poly x).toNat := by
  cases hx : x.getLsbD 0 with
  | false =>
    have heven : x.toNat % 2 = 0 := by
      rw [BitVec.getLsbD, Nat.testBit_zero, decide_eq_false_iff_not] at hx
      omega
    have hshift : (shift poly x).toNat = x.toNat / 2 := by
      rw [shift, hx, if_neg Bool.false_ne_true, BitVec.xor_zero, BitVec.toNat_ushiftRight,
        Nat.shiftRight_one]
    omega
  | true =>
    have htop : (shift poly x).msb = true := by
      rw [shift, hx, if_pos rfl, BitVec.msb_xor, hp, msb_shifted, Bool.false_xor]
    rw [BitVec.msb_eq_decide, decide_eq_true_eq] at htop
    omega

theorem shifts_small {k : ℕ} (hk : k ≤ w) {x : BitVec w}
    (h : (shifts poly k x).toNat < 2 ^ (w - k)) : x.toNat = 2 ^ k * (shifts poly k x).toNat := by
  induction k generalizing x with
  | zero => simp [shifts]
  | succ k ih =>
    rw [shifts] at h ⊢
    have hle : 2 ^ (w - (k + 1)) ≤ 2 ^ (w - k) := Nat.pow_le_pow_right (by decide) (by omega)
    have hrest := ih (by omega) (h.trans_le hle)
    have hfirst : (shift poly x).toNat < 2 ^ (w - 1) := by
      have hsplit : 2 ^ (w - 1) = 2 ^ k * 2 ^ (w - (k + 1)) := by
        rw [← Nat.pow_add]
        congr 1
        omega
      rw [hrest, hsplit]
      exact Nat.mul_lt_mul_of_pos_left h (Nat.two_pow_pos k)
    rw [shift_small hp hfirst, hrest, Nat.pow_succ']
    ring

theorem absorb_injective {k : ℕ} (hk : k ≤ w) {x y e : BitVec w}
    (h : absorb poly k x e = absorb poly k y e) : x = y := by
  have hzero : shifts poly k (x ^^^ y) = 0#w := by
    have hxor := absorb_xor poly k x y e e
    rw [h, BitVec.xor_self, BitVec.xor_self, absorb, BitVec.xor_zero] at hxor
    exact hxor.symm
  have hdiff := @shifts_small w poly hp k hk (x ^^^ y) (by rw [hzero]; simp)
  rw [hzero, BitVec.toNat_zero, Nat.mul_zero] at hdiff
  exact BitVec.xor_eq_zero_iff.mp (BitVec.eq_of_toNat_eq hdiff)

theorem digest_injective {k : ℕ} (hk : k ≤ w) {x y : BitVec w} {es : List (BitVec w)}
    (h : digest poly k x es = digest poly k y es) : x = y := by
  induction es generalizing x y with
  | nil => exact h
  | cons e es ih => exact absorb_injective hp hk (ih h)

theorem digest_zero_bound {k : ℕ} {d : BitVec w} {es : List (BitVec w)}
    (hes : ∀ e ∈ es, e.toNat < 2 ^ k) (hlen : (es.length + 1) * k ≤ w)
    (h : digest poly k d es = 0#w) : d.toNat < 2 ^ (es.length * k) := by
  induction es generalizing d with
  | nil =>
    have hd : d = 0#w := h
    rw [hd]
    simp
  | cons e es ih =>
    rw [List.length_cons] at hlen ⊢
    have hfit : es.length * k + k ≤ w := by
      rw [Nat.add_mul, Nat.add_mul] at hlen
      omega
    have hk : k ≤ w := by omega
    have hrest := ih (fun f hf => hes f (List.mem_cons_of_mem _ hf))
      (by rw [Nat.add_mul]; omega) h
    have hsmall : (shifts poly k (d ^^^ e)).toNat < 2 ^ (w - k) :=
      hrest.trans_le (Nat.pow_le_pow_right (by decide) (by omega))
    have hdiff : (d ^^^ e).toNat < 2 ^ ((es.length + 1) * k) := by
      rw [shifts_small hp hk hsmall, Nat.add_mul, Nat.one_mul, Nat.pow_add, Nat.mul_comm]
      exact Nat.mul_lt_mul_of_pos_right hrest (Nat.two_pow_pos k)
    have hsymbol : e.toNat < 2 ^ ((es.length + 1) * k) :=
      (hes e List.mem_cons_self).trans_le
        (Nat.pow_le_pow_right (by decide) (Nat.le_mul_of_pos_left k (Nat.succ_pos _)))
    have hback : d = (d ^^^ e) ^^^ e := by
      rw [BitVec.xor_assoc, BitVec.xor_self, BitVec.xor_zero]
    rw [hback, BitVec.toNat_xor]
    exact Nat.xor_lt_two_pow hdiff hsymbol

theorem digest_zero {k : ℕ} {es : List (BitVec w)} (hes : ∀ e ∈ es, e.toNat < 2 ^ k)
    (hlen : es.length * k ≤ w) (h : digest poly k 0#w es = 0#w) : ∀ e ∈ es, e = 0#w := by
  induction es with
  | nil => exact fun e he => absurd he List.not_mem_nil
  | cons e es ih =>
    have hrest : ∀ f ∈ es, f.toNat < 2 ^ k := fun f hf => hes f (List.mem_cons_of_mem _ hf)
    rw [List.length_cons] at hlen
    have hfit : es.length * k + k ≤ w := by
      rw [Nat.add_mul] at hlen
      omega
    have hbound := digest_zero_bound hp hrest hlen h
    rw [absorb, BitVec.zero_xor] at hbound
    have hsmall : (shifts poly k e).toNat < 2 ^ (w - k) :=
      hbound.trans_le (Nat.pow_le_pow_right (by decide) (by omega))
    have hvalue := shifts_small hp (by omega) hsmall
    have hclear : (shifts poly k e).toNat = 0 := by
      have hlt := hes e List.mem_cons_self
      rw [hvalue] at hlt
      exact Nat.eq_zero_of_not_pos fun hpos =>
        absurd (Nat.le_mul_of_pos_right (2 ^ k) hpos) (by omega)
    have he : e = 0#w := by
      rw [hclear, Nat.mul_zero] at hvalue
      exact BitVec.eq_of_toNat_eq hvalue
    have habsorb : absorb poly k 0#w e = 0#w := by
      rw [absorb, BitVec.zero_xor]
      exact BitVec.eq_of_toNat_eq hclear
    have htail : digest poly k (absorb poly k 0#w e) es = 0#w := h
    rw [habsorb] at htail
    intro f hf
    rcases List.mem_cons.mp hf with rfl | hf
    · exact he
    · exact ih hrest (by omega) htail f hf

/-- Two inputs that differ in a burst of at most `w` bits leave different registers. -/
theorem burst_detected {k : ℕ} (hk : k ≤ w) {a u v b : List (BitVec w)} (x : BitVec w)
    (hu : ∀ e ∈ u, e.toNat < 2 ^ k) (hv : ∀ e ∈ v, e.toNat < 2 ^ k)
    (hsame : u.length = v.length) (hlen : u.length * k ≤ w) (hne : u ≠ v) :
    digest poly k x (a ++ (u ++ b)) ≠ digest poly k x (a ++ (v ++ b)) := by
  intro h
  simp only [digest_append] at h
  have hburst := digest_injective hp hk h
  have hzero := digest_xor poly k hsame (digest poly k x a) (digest poly k x a)
  rw [hburst, BitVec.xor_self, BitVec.xor_self] at hzero
  refine hne (eq_of_zipWith_xor hsame (digest_zero hp (zipWith_xor_lt hu hv) ?_ hzero.symm))
  rw [List.length_zipWith, ← hsame, Nat.min_self]
  exact hlen

end Reversible

end MotaTool.Base.Crc
