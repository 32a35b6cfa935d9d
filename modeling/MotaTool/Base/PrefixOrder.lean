import Mathlib.Data.List.Infix
import Mathlib.Tactic.Common

/-!
# Prefixes in the lexicographic order

The lists that start with a given list are an interval of the order. Between
two of them in a sorted table there are no others, so the neighbours of a list
in a sorted table share the longest prefixes with it.
-/

namespace MotaTool.Base

universe u

section Prefixes

variable {α : Type u} [LT α] {p a b c : List α}

theorem lt_iff_take_drop (k : ℕ) (s t : List α) :
    s < t ↔ s.take k < t.take k ∨ s.take k = t.take k ∧ s.drop k < t.drop k := by
  induction k generalizing s t with
  | zero => simp
  | succ k ih =>
    cases s with
    | nil => cases t <;> simp
    | cons a s =>
      cases t with
      | nil => simp
      | cons b t =>
        simp only [List.take_succ_cons, List.cons_lt_cons_iff, List.drop_succ_cons,
          List.cons.injEq, ih s t]
        tauto

theorem prefix_between [Std.Trichotomous fun a b : α => a < b] (hab : a ≤ b) (hbc : b ≤ c)
    (ha : p <+: a) (hc : p <+: c) : p <+: b := by
  induction p generalizing a b c with
  | nil => exact List.nil_prefix
  | cons x p ih =>
    obtain ⟨front, rfl⟩ := ha
    obtain ⟨back, rfl⟩ := hc
    cases b with
    | nil => exact absurd (List.nil_lt_cons _ _) hab
    | cons y b =>
      rw [List.cons_append, ← List.not_lt, List.cons_lt_cons_iff, not_or, not_and] at hab hbc
      obtain rfl : x = y := Std.Trichotomous.trichotomous x y hbc.1 hab.1
      have hrest := ih (List.not_lt.mp (hab.2 rfl)) (List.not_lt.mp (hbc.2 rfl))
        (List.prefix_append p front) (List.prefix_append p back)
      exact List.cons_prefix_cons.mpr ⟨rfl, hrest⟩

end Prefixes

end MotaTool.Base
