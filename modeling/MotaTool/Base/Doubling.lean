import Mathlib.Algebra.Order.Ring.Int
import Mathlib.Data.List.Sort
import Mathlib.Data.Prod.Lex

/-!
# Ordering suffixes by doubled prefixes

A rank function orders the suffixes of a list by their first `k` elements. The
pair of the rank of a position and the rank of the position `k` further on then
orders them by their first `2 * k`, a missing position counting as less than
every rank. Walking along positions sorted by a key and counting the rises of
the key gives ranks that order them as the key does.
-/

namespace MotaTool.Base

universe u

section Prefixes

variable {α : Type u} [LT α]

theorem take_add_lt (k m : ℕ) (s t : List α) : s.take (k + m) < t.take (k + m) ↔
    s.take k < t.take k ∨ s.take k = t.take k ∧ (s.drop k).take m < (t.drop k).take m := by
  induction k generalizing s t with
  | zero => simp
  | succ k ih =>
    rw [Nat.add_right_comm]
    cases s with
    | nil => cases t <;> simp
    | cons a s =>
      cases t with
      | nil => simp
      | cons b t =>
        simp only [List.take_succ_cons, List.cons_lt_cons_iff, List.drop_succ_cons,
          List.cons.injEq, ih s t]
        tauto

theorem lt_of_take_lt {k : ℕ} {s t : List α} (h : s.take k < t.take k) : s < t := by
  have hfirst := (take_add_lt k (s.length + t.length) s t).mpr (.inl h)
  rwa [List.take_of_length_le (by omega), List.take_of_length_le (by omega)] at hfirst

end Prefixes

/-- The ranks of the positions order the suffixes by their first `k` elements. -/
structure RanksBy {α : Type u} [LT α] (s : List α) (k : ℕ) (rank : ℕ → ℤ) : Prop where
  nonneg : ∀ i < s.length, 0 ≤ rank i
  lt_iff : ∀ i < s.length, ∀ j < s.length,
    (rank i < rank j ↔ (s.drop i).take k < (s.drop j).take k)

def pairKey (n : ℕ) (rank : ℕ → ℤ) (k i : ℕ) : ℤ ×ₗ ℤ :=
  toLex (rank i, if i + k < n then rank (i + k) else -1)

section Ranks

variable {α : Type u} [LT α] {s : List α} {k : ℕ} {rank : ℕ → ℤ}

theorem RanksBy.second_lt (h : RanksBy s k rank) (hk : 0 < k) (i j : ℕ) :
    (if i < s.length then rank i else -1) < (if j < s.length then rank j else -1) ↔
      (s.drop i).take k < (s.drop j).take k := by
  by_cases hj : j < s.length
  · rw [if_pos hj]
    by_cases hi : i < s.length
    · rw [if_pos hi]
      exact h.lt_iff i hi j hj
    · have hrank := h.nonneg j hj
      rw [if_neg hi, List.drop_of_length_le (not_lt.mp hi), List.take_nil]
      refine iff_of_true (by omega) ?_
      rw [List.drop_eq_getElem_cons hj, ← Nat.sub_add_cancel hk, List.take_succ_cons]
      exact List.nil_lt_cons _ _
  · rw [if_neg hj, List.drop_of_length_le (not_lt.mp hj), List.take_nil]
    refine iff_of_false ?_ (List.not_lt_nil _)
    split_ifs with hi
    · have hrank := h.nonneg i hi
      omega
    · exact lt_irrefl _

variable [Std.Irrefl (· < · : α → α → Prop)] [Std.Trichotomous (· < · : α → α → Prop)]

theorem RanksBy.eq_iff (h : RanksBy s k rank) {i j : ℕ} (hi : i < s.length) (hj : j < s.length) :
    rank i = rank j ↔ (s.drop i).take k = (s.drop j).take k := by
  have hlt := h.lt_iff i hi j hj
  have hgt := h.lt_iff j hj i hi
  constructor
  · intro heq
    rw [heq, iff_false_left (lt_irrefl _)] at hlt
    rw [heq, iff_false_left (lt_irrefl _)] at hgt
    exact List.le_antisymm (List.not_lt.mp hgt) (List.not_lt.mp hlt)
  · intro heq
    rw [heq, iff_false_right (List.lt_irrefl _)] at hlt
    rw [heq, iff_false_right (List.lt_irrefl _)] at hgt
    omega

theorem RanksBy.pairKey_lt (h : RanksBy s k rank) (hk : 0 < k) {i j : ℕ} (hi : i < s.length)
    (hj : j < s.length) : pairKey s.length rank k i < pairKey s.length rank k j ↔
      (s.drop i).take (2 * k) < (s.drop j).take (2 * k) := by
  rw [pairKey, pairKey, Prod.Lex.toLex_lt_toLex, h.lt_iff i hi j hj, h.eq_iff hi hj,
    h.second_lt hk, Nat.two_mul, take_add_lt, List.drop_drop, List.drop_drop]

end Ranks

section Rises

variable {β : Type u} [LinearOrder β] {f : ℕ → β}

def rises (f : ℕ → β) : ℕ → ℤ
  | 0 => 0
  | w + 1 => rises f w + if f (w + 1) ≠ f w then 1 else 0

theorem rises_step (f : ℕ → β) {u w : ℕ} (h : u ≤ w) :
    rises f u ≤ rises f w ∧ rises f w ≤ rises f u + (w - u : ℕ) := by
  induction w, h using Nat.le_induction with
  | base => simp
  | succ w huw ih =>
    rw [rises]
    split_ifs <;> omega

theorem rises_lt_of_le {n u w : ℕ} (hmono : ∀ u w, u ≤ w → w < n → f u ≤ f w) (h : u ≤ w)
    (hw : w < n) : rises f u < rises f w ↔ f u < f w := by
  induction w, h using Nat.le_induction with
  | base => simp
  | succ w huw ih =>
    have hprev := ih (by omega)
    rw [rises]
    split_ifs with hrise
    · have hlt := lt_of_le_of_ne (hmono w (w + 1) (by omega) hw) (Ne.symm hrise)
      refine iff_of_true ?_ ((hmono u w huw (by omega)).trans_lt hlt)
      have hstep := (rises_step f huw).1
      omega
    · rw [not_not] at hrise
      rw [add_zero, hrise]
      exact hprev

theorem rises_lt_iff {n u w : ℕ} (hmono : ∀ u w, u ≤ w → w < n → f u ≤ f w) (hu : u < n)
    (hw : w < n) : rises f u < rises f w ↔ f u < f w := by
  rcases Nat.le_total u w with h | h
  · exact rises_lt_of_le hmono h hw
  · exact iff_of_false (not_lt.mpr (rises_step f h).1) (not_lt.mpr (hmono w u h hu))

theorem rises_full {n u w : ℕ} (hmono : ∀ u w, u ≤ w → w < n → f u ≤ f w)
    (hfull : rises f (n - 1) = (n - 1 : ℕ)) (h : u < w) (hw : w < n) : f u < f w := by
  have hlow := (rises_step f (Nat.zero_le u)).2
  have hhigh := (rises_step f (show w ≤ n - 1 by omega)).2
  have hzero : rises f 0 = 0 := rfl
  exact (rises_lt_iff hmono (by omega) hw).mp (by omega)

end Rises

/-- Rises of the pairs, counted along the positions sorted by their pairs, are ranks by twice as
many elements. -/
theorem RanksBy.double {α : Type u} [LT α] [Std.Irrefl (· < · : α → α → Prop)]
    [Std.Trichotomous (· < · : α → α → Prop)] {s : List α} {k : ℕ} {rank next : ℕ → ℤ}
    (h : RanksBy s k rank) (hk : 0 < k) {pos : ℕ → ℕ} (hsurj : ∀ i < s.length, ∃ w < s.length,
      pos w = i)
    (hmono : ∀ u w, u ≤ w → w < s.length →
      pairKey s.length rank k (pos u) ≤ pairKey s.length rank k (pos w))
    (hnext : ∀ w < s.length, next (pos w) = rises (fun w => pairKey s.length rank k (pos w)) w) :
    RanksBy s (2 * k) next := by
  constructor
  · intro i hi
    obtain ⟨w, hw, rfl⟩ := hsurj i hi
    rw [hnext w hw]
    exact (rises_step _ (Nat.zero_le w)).1
  · intro i hi j hj
    rw [← h.pairKey_lt hk hi hj]
    obtain ⟨u, hu, rfl⟩ := hsurj i hi
    obtain ⟨w, hw, rfl⟩ := hsurj j hj
    rw [hnext u hu, hnext w hw]
    exact rises_lt_iff hmono hu hw

end MotaTool.Base
