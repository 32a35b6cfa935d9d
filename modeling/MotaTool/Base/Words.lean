import Mathlib.Data.Nat.Notation
import Mathlib.Tactic.Common
import Mathlib.Tactic.Ring

/-!
# Machine arithmetic on natural numbers

Checked addition and subtraction, and division rounded up with the bounds that
relate a length to the units covering it.
-/

namespace MotaTool.Base

def checkedAdd (bits a b : ℕ) : Option ℕ := if a + b < 2 ^ bits then some (a + b) else none

def checkedSub (a b : ℕ) : Option ℕ := if b ≤ a then some (a - b) else none

theorem checkedAdd_eq_some {bits a b c : ℕ} :
    checkedAdd bits a b = some c ↔ a + b < 2 ^ bits ∧ c = a + b := by
  unfold checkedAdd
  split_ifs with h <;> simp [h, eq_comm]

theorem checkedSub_eq_some {a b c : ℕ} : checkedSub a b = some c ↔ b ≤ a ∧ c = a - b := by
  unfold checkedSub
  split_ifs with h <;> simp [h, eq_comm]

def isPowerOfTwo (n : ℕ) : Bool := n == 2 ^ Nat.log2 n

theorem isPowerOfTwo_two_pow (k : ℕ) : isPowerOfTwo (2 ^ k) = true := by
  rw [isPowerOfTwo, Nat.log2_two_pow, beq_self_eq_true]

def divCeil (a b : ℕ) : ℕ := (a + b - 1) / b

theorem le_divCeil_mul (a : ℕ) {b : ℕ} (h : 0 < b) : a ≤ divCeil a b * b := by
  have hdiv := Nat.div_add_mod (a + b - 1) b
  have hmod := Nat.mod_lt (a + b - 1) h
  rw [Nat.mul_comm] at hdiv
  simp only [divCeil]
  omega

theorem divCeil_mul_lt (a : ℕ) {b : ℕ} (h : 0 < b) : divCeil a b * b < a + b := by
  have hdiv := Nat.div_mul_le_self (a + b - 1) b
  simp only [divCeil]
  omega

theorem divCeil_of_dvd {a b : ℕ} (hb : 0 < b) (h : b ∣ a) : divCeil a b * b = a := by
  obtain ⟨c, rfl⟩ := h
  have hlow := le_divCeil_mul (b * c) hb
  have hhigh := divCeil_mul_lt (b * c) hb
  obtain ⟨d, hd⟩ : ∃ d, divCeil (b * c) b = d := ⟨_, rfl⟩
  rw [hd] at hlow hhigh ⊢
  have hle : c ≤ d := by
    refine Nat.le_of_mul_le_mul_left ?_ hb
    rwa [Nat.mul_comm d] at hlow
  have hlt : d < c + 1 := by
    refine Nat.lt_of_mul_lt_mul_left (a := b) ?_
    rwa [Nat.mul_comm d, ← Nat.mul_succ] at hhigh
  rw [Nat.mul_comm, show d = c by omega]

theorem lt_divCeil_iff {i a b : ℕ} (hb : 0 < b) : i < divCeil a b ↔ i * b < a := by
  rw [divCeil, Nat.lt_iff_add_one_le, Nat.le_div_iff_mul_le hb, Nat.add_mul]
  omega

theorem divCeil_le_iff {i a b : ℕ} (hb : 0 < b) : divCeil a b ≤ i ↔ a ≤ i * b := by
  have h := lt_divCeil_iff (i := i) (a := a) hb
  omega

theorem divCeil_mul_le_iff {n a b : ℕ} (hb : 0 < b) (hn : b ∣ n) :
    divCeil a b * b ≤ n ↔ a ≤ n := by
  obtain ⟨i, rfl⟩ := hn
  rw [Nat.mul_comm b i, Nat.mul_le_mul_right_iff hb, divCeil_le_iff hb]

theorem divCeil_le_self (a : ℕ) {b : ℕ} (hb : 0 < b) : divCeil a b ≤ a := by
  rw [divCeil, Nat.div_le_iff_le_mul_add_pred hb]
  have hmul : a ≤ b * a := Nat.le_mul_of_pos_left a hb
  omega

theorem divCeil_eq_zero {a b : ℕ} (hb : 0 < b) : divCeil a b = 0 ↔ a = 0 := by
  have h := lt_divCeil_iff (i := 0) (a := a) hb
  omega

end MotaTool.Base
