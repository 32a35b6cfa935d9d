import Mathlib.Data.List.Basic
import Mathlib.Tactic.Common

/-!
# Rewriting a memory from the bottom up

An overlay is a memory whose low cells have been rewritten and whose other
cells still hold their original values. A write at the frontier moves the
frontier by one cell, and a read at or above the frontier sees the original.
-/

namespace MotaTool.Base

variable {α : Type*}

def overlay (written original : List α) : List α := written ++ original.drop written.length

@[simp] theorem overlay_nil (original : List α) : overlay [] original = original := rfl

theorem overlay_length {written original : List α} (h : written.length ≤ original.length) :
    (overlay written original).length = original.length := by
  simp [overlay, h]

theorem overlay_take (written original : List α) :
    (overlay written original).take written.length = written := List.take_left

theorem overlay_getElem? {written original : List α} {i : ℕ} (h : written.length ≤ i) :
    (overlay written original)[i]? = original[i]? := by
  rw [overlay, List.getElem?_append_right h, List.getElem?_drop]
  congr 1
  omega

theorem overlay_set {written original : List α} (h : written.length < original.length) (a : α) :
    (overlay written original).set written.length a = overlay (written ++ [a]) original := by
  rw [overlay, overlay, List.set_append_right _ _ (Nat.le_refl _), Nat.sub_self,
    List.drop_eq_getElem_cons h, List.set_cons_zero, List.length_append, List.length_singleton,
    List.append_assoc, List.singleton_append]

theorem overlay_replicate {written : List α} {n k : ℕ} (h : written.length + k ≤ n) (a : α) :
    overlay (written ++ List.replicate k a) (List.replicate n a) =
      overlay written (List.replicate n a) := by
  rw [overlay, overlay, List.length_append, List.length_replicate, List.append_assoc,
    List.drop_replicate, List.drop_replicate, List.replicate_append_replicate]
  congr 2
  omega

theorem overlay_full {written original : List α} (h : original.length ≤ written.length) :
    overlay written original = written := by
  rw [overlay, List.drop_eq_nil_of_le h, List.append_nil]

end MotaTool.Base
