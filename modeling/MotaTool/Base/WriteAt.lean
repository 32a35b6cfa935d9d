import Mathlib.Data.List.Basic
import Mathlib.Tactic.Common

/-!
# Writing into a file

A write at an offset replaces the cells it covers. Beyond the end the file
grows, and a gap before the written cells is filled; a write of nothing leaves
even the length alone.
-/

namespace MotaTool.Base

variable {α : Type*}

def writeAt (fill : α) (old : List α) (off : ℕ) (data : List α) : List α :=
  if data.isEmpty then old
  else (old ++ List.replicate (off - old.length) fill).take off ++ data ++
    old.drop (off + data.length)

variable {fill : α} {old data : List α} {off i : ℕ}

@[simp] theorem writeAt_nil : writeAt fill old off [] = old := rfl

theorem writeAt_front (fill : α) (old : List α) (off : ℕ) :
    ((old ++ List.replicate (off - old.length) fill).take off).length = off := by
  rw [List.length_take, List.length_append, List.length_replicate]
  omega

theorem writeAt_length (h : data ≠ []) :
    (writeAt fill old off data).length = max old.length (off + data.length) := by
  rw [writeAt, if_neg (by simpa using h), List.length_append, List.length_append, writeAt_front,
    List.length_drop]
  omega

theorem writeAt_length_within (h : off + data.length ≤ old.length) :
    (writeAt fill old off data).length = old.length := by
  cases data with
  | nil => rfl
  | cons a data =>
    rw [writeAt_length (by simp)]
    omega

theorem writeAt_inside (hlow : off ≤ i) (hhigh : i < off + data.length) :
    (writeAt fill old off data)[i]? = data[i - off]? := by
  have hne : data ≠ [] := by
    rintro rfl
    rw [List.length_nil] at hhigh
    omega
  rw [writeAt, if_neg (by simpa using hne), List.getElem?_append_left, List.getElem?_append_right,
    writeAt_front]
  · rw [writeAt_front]
    exact hlow
  · rw [List.length_append, writeAt_front]
    exact hhigh

theorem writeAt_outside (h : ¬ (off ≤ i ∧ i < off + data.length)) (hi : i < old.length) :
    (writeAt fill old off data)[i]? = old[i]? := by
  unfold writeAt
  split_ifs with hempty
  · rfl
  · by_cases hlow : i < off
    · rw [List.append_assoc, List.getElem?_append_left (by rw [writeAt_front]; exact hlow),
        List.getElem?_take_of_lt hlow, List.getElem?_append_left hi]
    · rw [List.getElem?_append_right, List.length_append, writeAt_front, List.getElem?_drop]
      · congr 1
        omega
      · rw [List.length_append, writeAt_front]
        omega

def Window (target : List α) (w : ℕ × List α) : Prop :=
  w.1 + w.2.length ≤ target.length ∧ w.2 = (target.drop w.1).take w.2.length

def Touches (w : ℕ × List α) (i : ℕ) : Prop := w.1 ≤ i ∧ i < w.1 + w.2.length

theorem Window.getElem? {target : List α} {w : ℕ × List α} (h : Window target w)
    (hi : Touches w i) : w.2[i - w.1]? = target[i]? := by
  obtain ⟨hlow, hhigh⟩ := hi
  rw [h.2, List.getElem?_take_of_lt (by omega), List.getElem?_drop, Nat.add_sub_cancel' hlow]

theorem Window.write_length {target : List α} {w : ℕ × List α} (h : Window target w)
    (hold : old.length = target.length) :
    (writeAt fill old w.1 w.2).length = target.length := by
  rw [writeAt_length_within (by rw [hold]; exact h.1), hold]

/-- Windows written in any order onto a buffer of the target's length leave the target in
every cell that one of them reaches or that was right before. -/
theorem writeWindows (fill : α) {target : List α} (ws : List (ℕ × List α))
    (hws : ∀ w ∈ ws, Window target w) (hold : old.length = target.length) :
    (ws.foldl (fun buf w => writeAt fill buf w.1 w.2) old).length = target.length ∧
      ∀ i < target.length, ((∃ w ∈ ws, Touches w i) ∨ old[i]? = target[i]?) →
        (ws.foldl (fun buf w => writeAt fill buf w.1 w.2) old)[i]? = target[i]? := by
  induction ws generalizing old with
  | nil => exact ⟨hold, fun i _ h => h.elim (fun ⟨w, hw, _⟩ => absurd hw List.not_mem_nil) id⟩
  | cons w ws ih =>
    have hw := hws w List.mem_cons_self
    have hlen : (writeAt fill old w.1 w.2).length = target.length := hw.write_length hold
    have hrest := ih (fun v hv => hws v (List.mem_cons_of_mem _ hv)) hlen
    refine ⟨hrest.1, fun i hi h => hrest.2 i hi ?_⟩
    by_cases htouch : Touches w i
    · exact .inr ((writeAt_inside htouch.1 htouch.2).trans (hw.getElem? htouch))
    · rcases h with ⟨v, hv, htouched⟩ | hsame
      · rcases List.mem_cons.mp hv with rfl | hv
        · exact absurd htouched htouch
        · exact .inl ⟨v, hv, htouched⟩
      · exact .inr ((writeAt_outside htouch (by rw [hold]; exact hi)).trans hsame)

theorem writeWindows_cover (fill : α) {target : List α} (ws : List (ℕ × List α))
    (hws : ∀ w ∈ ws, Window target w) (hcover : ∀ i < target.length, ∃ w ∈ ws, Touches w i)
    (hold : old.length = target.length) :
    ws.foldl (fun buf w => writeAt fill buf w.1 w.2) old = target := by
  obtain ⟨hlen, hcells⟩ := writeWindows fill ws hws hold
  refine List.ext_getElem? fun i => ?_
  by_cases hi : i < target.length
  · exact hcells i hi (.inl (hcover i hi))
  · rw [List.getElem?_eq_none (by omega), List.getElem?_eq_none (by omega)]

end MotaTool.Base
