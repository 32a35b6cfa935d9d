import Mathlib.Algebra.GroupWithZero.Nat
import Mathlib.Data.Int.Notation
import Mathlib.Data.List.Basic
import Mathlib.Tactic.Common

/-!
# Edit scripts

An edit adds values to a window of a base string at a cursor, appends literal
values, and moves the cursor. A script rebuilds a target of a known length by
replaying its edits, each of them while the target is still incomplete. Replay
is the abstract meaning that a patch encoder aims at and that a patch decoder,
whatever its representation of the base, has to realise.
-/

namespace MotaTool.Base

structure Edit (α : Type*) where
  diff : List α
  extra : List α
  seek : ℤ

structure Replay (α : Type*) where
  out : List α
  cursor : ℤ

variable {α : Type*}

def Edit.size (e : Edit α) : ℕ := e.diff.length + e.extra.length

def window (base : List α) (start : ℤ) (n : ℕ) : List α := (base.drop start.toNat).take n

theorem window_length {base : List α} {start : ℤ} {n : ℕ} (h0 : 0 ≤ start)
    (h : start + n ≤ base.length) : (window base start n).length = n := by
  simp only [window, List.length_take, List.length_drop]
  omega

theorem window_getElem? {base : List α} {start : ℤ} {n i : ℕ} (h0 : 0 ≤ start) (hi : i < n) :
    (window base start n)[i]? = base[(start + i).toNat]? := by
  rw [window, List.getElem?_take_of_lt hi, List.getElem?_drop]
  congr 1
  omega

variable [Add α]

structure Edit.Applies (base : List α) (e : Edit α) (s t : Replay α) : Prop where
  low : 0 ≤ s.cursor
  high : s.cursor + e.diff.length ≤ base.length
  out : t.out = s.out ++ List.zipWith (· + ·) e.diff (window base s.cursor e.diff.length) ++ e.extra
  cursor : t.cursor = s.cursor + e.diff.length + e.seek

/-- Every edit starts while fewer than `total` values have been rebuilt. -/
inductive Replays (base : List α) (total : ℕ) : List (Edit α) → Replay α → Replay α → Prop
  | nil {s : Replay α} : Replays base total [] s s
  | cons {e : Edit α} {es : List (Edit α)} {s t u : Replay α} : s.out.length < total →
      e.Applies base s t → Replays base total es t u → Replays base total (e :: es) s u

theorem Replays.snoc {base : List α} {total : ℕ} {es : List (Edit α)} {e : Edit α}
    {s t u : Replay α} (h : Replays base total es s t) (hlt : t.out.length < total)
    (he : e.Applies base t u) : Replays base total (es ++ [e]) s u := by
  induction h with
  | nil => exact .cons hlt he .nil
  | cons hlen hap _ ih => exact .cons hlen hap (ih hlt he)

theorem Edit.Applies.out_length {base : List α} {e : Edit α} {s t : Replay α}
    (h : e.Applies base s t) :
    t.out.length = s.out.length + e.diff.length + e.extra.length := by
  rw [h.out]
  simp [window_length h.low h.high, Nat.add_assoc]

theorem Replays.out_length {base : List α} {total : ℕ} {es : List (Edit α)} {s t : Replay α}
    (h : Replays base total es s t) : t.out.length = s.out.length + (es.map Edit.size).sum := by
  induction h with
  | nil => simp
  | cons _ hap _ ih =>
    rw [ih, hap.out_length, List.map_cons, List.sum_cons, Edit.size]
    omega

variable [Sub α]

theorem zipWith_add_sub (cancel : ∀ a b : α, a - b + b = a) {xs ys : List α}
    (h : xs.length = ys.length) :
    List.zipWith (· + ·) (List.zipWith (· - ·) xs ys) ys = xs := by
  induction xs generalizing ys with
  | nil => simp
  | cons x xs ih =>
    obtain - | ⟨y, ys⟩ := ys
    · simp at h
    · simp only [List.zipWith_cons_cons, cancel]
      rw [ih (by simpa using h)]

theorem Edit.applies_take (cancel : ∀ a b : α, a - b + b = a) {base target : List α}
    {cursor seek : ℤ} {start middle stop : ℕ} (h0 : 0 ≤ cursor)
    (hwindow : cursor + (middle - start : ℕ) ≤ base.length) (hmiddle : start ≤ middle)
    (hstop : middle ≤ stop) (htarget : stop ≤ target.length) :
    Edit.Applies base
      ⟨List.zipWith (· - ·) (window target start (middle - start))
          (window base cursor (middle - start)),
        window target middle (stop - middle), seek⟩
      ⟨target.take start, cursor⟩
      ⟨target.take stop, cursor + (middle - start : ℕ) + seek⟩ := by
  have htlen : (window target start (middle - start)).length = middle - start :=
    window_length (by omega) (by omega)
  have hblen := window_length h0 hwindow
  have hdiff : (List.zipWith (· - ·) (window target start (middle - start))
      (window base cursor (middle - start))).length = middle - start := by
    rw [List.length_zipWith, htlen, hblen, Nat.min_self]
  refine ⟨h0, by rw [hdiff]; exact hwindow, ?_, by rw [hdiff]⟩
  simp only
  rw [hdiff, zipWith_add_sub cancel (htlen.trans hblen.symm)]
  simp only [window, Int.toNat_natCast]
  have hone : target.take middle = target.take start ++
      (target.drop start).take (middle - start) := by
    rw [← List.take_add]; congr 1; omega
  have htwo : target.take stop = target.take middle ++
      (target.drop middle).take (stop - middle) := by
    rw [← List.take_add]; congr 1; omega
  rw [htwo, hone]

end MotaTool.Base
