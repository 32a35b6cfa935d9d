import MotaTool.Base.Peaks
import Mathlib.Algebra.Group.Nat.Defs
import Mathlib.Data.Nat.Log
import Mathlib.Order.Bounds.Basic

/-!
# The tree behind a binary counter

The value of a list is defined by recursion: the list is split after the
largest power of two below its length, and the values of the two parts are
combined. The counter computes the same value. Each of its peaks is the value
of a segment of a power-of-two length, the higher peaks covering the earlier
segments, and bagging from the lowest peak up follows the splits in reverse.
-/

namespace MotaTool.Base

universe u

variable {α : Type u}

/-- The largest power of two below a number that is at least two. -/
def halfPower (n : ℕ) : ℕ := 2 ^ Nat.log 2 (n - 1)

theorem halfPower_lt {n : ℕ} (h : 2 ≤ n) : halfPower n < n := by
  have hle := Nat.pow_log_le_self 2 (show n - 1 ≠ 0 by omega)
  unfold halfPower
  omega

theorem halfPower_isGreatest {n : ℕ} (h : 2 ≤ n) :
    IsGreatest {k | (∃ j, k = 2 ^ j) ∧ k < n} (halfPower n) := by
  refine ⟨⟨⟨_, rfl⟩, halfPower_lt h⟩, ?_⟩
  rintro k ⟨⟨j, rfl⟩, hlt⟩
  apply Nat.pow_le_pow_right (by decide)
  exact Nat.le_log_of_pow_le (by decide) (by omega)

theorem halfPower_add {k n : ℕ} (hpos : 0 < n) (hle : n ≤ 2 ^ k) :
    halfPower (2 ^ k + n) = 2 ^ k := by
  have hlog : Nat.log 2 (2 ^ k + n - 1) = k := by
    apply Nat.log_eq_of_pow_le_of_lt_pow
    · omega
    · rw [Nat.pow_succ]
      omega
  rw [halfPower, hlog]

section Tree

variable (combine : α → α → α) (zero : α)

def treeRoot : List α → α
  | [] => zero
  | [x] => x
  | x :: y :: rest =>
    combine (treeRoot ((x :: y :: rest).take (halfPower (rest.length + 2))))
      (treeRoot ((x :: y :: rest).drop (halfPower (rest.length + 2))))
termination_by values => values.length
decreasing_by
  · have hlt := halfPower_lt (n := rest.length + 2) (by omega)
    rw [List.length_take, List.length_cons, List.length_cons]
    omega
  · have hpos : 0 < halfPower (rest.length + 2) := Nat.two_pow_pos _
    rw [List.length_drop, List.length_cons, List.length_cons]
    omega

variable {combine zero}

theorem treeRoot_split {values : List α} (h : 2 ≤ values.length) :
    treeRoot combine zero values =
      combine (treeRoot combine zero (values.take (halfPower values.length)))
        (treeRoot combine zero (values.drop (halfPower values.length))) := by
  obtain - | ⟨x, - | ⟨y, rest⟩⟩ := values
  · simp at h
  · simp at h
  · rw [treeRoot]
    rfl

theorem treeRoot_append {xs ys : List α} {k : ℕ} (hxs : xs.length = 2 ^ k) (hpos : 0 < ys.length)
    (hle : ys.length ≤ 2 ^ k) :
    treeRoot combine zero (xs ++ ys) =
      combine (treeRoot combine zero xs) (treeRoot combine zero ys) := by
  have hone : 0 < 2 ^ k := Nat.two_pow_pos k
  have hlen : (xs ++ ys).length = 2 ^ k + ys.length := by rw [List.length_append, hxs]
  rw [treeRoot_split (by omega), hlen, halfPower_add hpos hle, List.take_left' hxs,
    List.drop_left' hxs]

variable (combine zero) in
/-- From level `k` up the peaks are the values of the segments of the list, the lowest one
last. -/
inductive Covers : ℕ → List (Option α) → List α → Prop
  | nil (k : ℕ) : Covers k [] []
  | empty {k : ℕ} {peaks : List (Option α)} {values : List α} :
      Covers (k + 1) peaks values → Covers k (none :: peaks) values
  | peak {k : ℕ} {peaks : List (Option α)} {values segment : List α} :
      Covers (k + 1) peaks values → segment.length = 2 ^ k →
      Covers k (some (treeRoot combine zero segment) :: peaks) (values ++ segment)

variable {k : ℕ} {peaks : List (Option α)} {values : List α}

theorem Covers.carry (h : Covers combine zero k peaks values) {segment : List α}
    (hlen : segment.length = 2 ^ k) :
    Covers combine zero k (carry combine peaks (treeRoot combine zero segment))
      (values ++ segment) := by
  induction h generalizing segment with
  | nil k => exact .peak (.nil (k + 1)) hlen
  | empty hrest _ => exact .peak hrest hlen
  | @peak k peaks values first hrest hfirst ih =>
    have hone : 0 < 2 ^ k := Nat.two_pow_pos k
    have hjoin : combine (treeRoot combine zero first) (treeRoot combine zero segment) =
        treeRoot combine zero (first ++ segment) :=
      (treeRoot_append hfirst (by omega) hlen.le).symm
    rw [Base.carry, hjoin, List.append_assoc]
    refine .empty (ih ?_)
    rw [List.length_append, hfirst, hlen, Nat.pow_succ]
    omega

theorem Covers.pushAll (h : Covers combine zero 0 peaks values) (more : List α) :
    Covers combine zero 0 (pushAll combine peaks more) (values ++ more) := by
  induction more generalizing peaks values with
  | nil => rwa [List.append_nil]
  | cons x more ih =>
    have hx : treeRoot combine zero [x] = x := by rw [treeRoot]
    have hcarry := @Covers.carry _ _ _ _ _ _ h [x] rfl
    rw [hx] at hcarry
    have hrest := ih hcarry
    rwa [List.append_assoc, List.singleton_append] at hrest

theorem Covers.bag (h : Covers combine zero k peaks values) {low : List α} (hpos : 0 < low.length)
    (hle : low.length ≤ 2 ^ k) :
    bag combine (treeRoot combine zero low) peaks.reduceOption =
      treeRoot combine zero (values ++ low) := by
  induction h generalizing low with
  | nil k => rfl
  | @empty k peaks values _ ih =>
    rw [List.reduceOption_cons_of_none]
    apply ih hpos
    rw [Nat.pow_succ]
    omega
  | @peak k peaks values segment _ hlen ih =>
    have hjoin : combine (treeRoot combine zero segment) (treeRoot combine zero low) =
        treeRoot combine zero (segment ++ low) := (treeRoot_append hlen hpos hle).symm
    rw [List.reduceOption_cons_of_some, Base.bag, List.foldl_cons, hjoin, List.append_assoc]
    apply ih
    · rw [List.length_append]
      omega
    · rw [List.length_append, hlen, Nat.pow_succ]
      omega

theorem Covers.bagged (h : Covers combine zero k peaks values) {acc : α} {higher : List α}
    (hpeaks : peaks.reduceOption = acc :: higher) :
    Base.bag combine acc higher = treeRoot combine zero values := by
  induction h with
  | nil k => cases hpeaks
  | empty _ ih => exact ih (by rwa [List.reduceOption_cons_of_none] at hpeaks)
  | @peak k peaks values segment hrest hlen _ =>
    have hone : 0 < 2 ^ k := Nat.two_pow_pos k
    rw [List.reduceOption_cons_of_some] at hpeaks
    cases hpeaks
    apply hrest.bag
    · omega
    · rw [hlen, Nat.pow_succ]
      omega

/-- The counter computes the value of the tree. -/
theorem accumulate_eq_treeRoot (hne : values ≠ []) :
    accumulate combine values = some (treeRoot combine zero values) := by
  have hcovers := @Covers.pushAll _ combine zero _ _ (.nil 0) values
  rw [List.nil_append] at hcovers
  have hpeaks := @pushAll_values_ne_nil _ combine _ hne []
  unfold accumulate
  cases hreduce : (Base.pushAll combine [] values).reduceOption with
  | nil => exact absurd hreduce hpeaks
  | cons acc higher => exact congrArg some (hcovers.bagged hreduce)

end Tree

end MotaTool.Base
