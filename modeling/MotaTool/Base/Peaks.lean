import Mathlib.Data.List.Basic
import Mathlib.Data.List.Forall2
import Mathlib.Data.List.ReduceOption
import Mathlib.Tactic.Common

/-!
# Binary-counter accumulators

Values are pushed into a counter whose digit `k` is either empty or the
accumulated value of `2 ^ k` consecutive pushes, and the digits left at the end
are bagged from the lowest up. The pairs handed to `combine` are listed in the
order in which they are combined. Two runs over equally many values combine
their pairs in lockstep, so that equal results come from equal values or from
two different pairs combined to one value at the same step.
-/

namespace MotaTool.Base

universe u

variable {α : Type u} (combine : α → α → α)

def carry : List (Option α) → α → List (Option α)
  | [], cur => [some cur]
  | none :: peaks, cur => some cur :: peaks
  | some peak :: peaks, cur => none :: carry peaks (combine peak cur)

def pushAll (peaks : List (Option α)) (values : List α) : List (Option α) :=
  values.foldl (carry combine) peaks

def bag (acc : α) (peaks : List α) : α := peaks.foldl (fun acc higher => combine higher acc) acc

def accumulate (values : List α) : Option α :=
  match (pushAll combine [] values).reduceOption with
  | [] => none
  | acc :: higher => some (bag combine acc higher)

def carryPairs : List (Option α) → α → List (α × α)
  | some peak :: peaks, cur => (peak, cur) :: carryPairs peaks (combine peak cur)
  | _, _ => []

def pushPairs : List (Option α) → List α → List (α × α)
  | _, [] => []
  | peaks, v :: values => carryPairs combine peaks v ++ pushPairs (carry combine peaks v) values

def bagPairs : α → List α → List (α × α)
  | _, [] => []
  | acc, higher :: peaks => (higher, acc) :: bagPairs (combine higher acc) peaks

def accumulatePairs (values : List α) : List (α × α) :=
  pushPairs combine [] values ++
    match (pushAll combine [] values).reduceOption with
    | [] => []
    | acc :: higher => bagPairs combine acc higher

def Collision (xs ys : List (α × α)) : Prop :=
  ∃ pair ∈ xs.zip ys, pair.1 ≠ pair.2 ∧
    combine pair.1.1 pair.1.2 = combine pair.2.1 pair.2.2

variable {combine}

theorem carry_values_ne_nil (peaks : List (Option α)) (cur : α) :
    (carry combine peaks cur).reduceOption ≠ [] := by
  induction peaks generalizing cur with
  | nil => simp [carry]
  | cons p peaks ih =>
    cases p with
    | none => simp [carry]
    | some p => simpa [carry] using ih (combine p cur)

theorem pushAll_values_ne_nil {values : List α} (h : values ≠ []) (peaks : List (Option α)) :
    (pushAll combine peaks values).reduceOption ≠ [] := by
  obtain ⟨init, last, rfl⟩ := List.eq_nil_or_concat'  values |>.resolve_left h
  rw [pushAll, List.foldl_append]
  exact carry_values_ne_nil _ last

theorem accumulate_isSome {values : List α} (h : values ≠ []) :
    ∃ v, accumulate combine values = some v := by
  have hne := @pushAll_values_ne_nil _ combine _ h []
  unfold accumulate
  split
  · contradiction
  · exact ⟨_, rfl⟩

theorem Collision.head {x y : α × α} (hne : x ≠ y)
    (heq : combine x.1 x.2 = combine y.1 y.2) (xs ys : List (α × α)) :
    Collision combine (x :: xs) (y :: ys) := ⟨(x, y), List.mem_cons_self, hne, heq⟩

theorem Collision.tail {xs ys : List (α × α)} (h : Collision combine xs ys) (x y : α × α) :
    Collision combine (x :: xs) (y :: ys) := by
  obtain ⟨pair, hmem, hpair⟩ := h
  exact ⟨pair, List.mem_cons_of_mem _ hmem, hpair⟩

theorem Collision.left {xs ys : List (α × α)} (h : Collision combine xs ys)
    (hlen : xs.length = ys.length) (us vs : List (α × α)) :
    Collision combine (xs ++ us) (ys ++ vs) := by
  obtain ⟨pair, hmem, hpair⟩ := h
  refine ⟨pair, ?_, hpair⟩
  rw [List.zip_append hlen]
  exact List.mem_append_left _ hmem

theorem Collision.right {us vs : List (α × α)} (h : Collision combine us vs)
    {xs ys : List (α × α)} (hlen : xs.length = ys.length) :
    Collision combine (xs ++ us) (ys ++ vs) := by
  obtain ⟨pair, hmem, hpair⟩ := h
  refine ⟨pair, ?_, hpair⟩
  rw [List.zip_append hlen]
  exact List.mem_append_right _ hmem

inductive SameShape : List (Option α) → List (Option α) → Prop
  | nil : SameShape [] []
  | empty {ps qs : List (Option α)} : SameShape ps qs → SameShape (none :: ps) (none :: qs)
  | peak {ps qs : List (Option α)} (p q : α) :
      SameShape ps qs → SameShape (some p :: ps) (some q :: qs)

section Carry

variable {ps qs : List (Option α)}

theorem SameShape.carry (h : SameShape ps qs) (x y : α) :
    SameShape (carry combine ps x) (carry combine qs y) := by
  induction h generalizing x y with
  | nil => exact .peak x y .nil
  | empty hrest => exact .peak x y hrest
  | peak p q _ ih => exact .empty (ih (combine p x) (combine q y))

theorem SameShape.carryPairs_length (h : SameShape ps qs) (x y : α) :
    (carryPairs combine ps x).length = (carryPairs combine qs y).length := by
  induction h generalizing x y with
  | nil => rfl
  | empty _ => rfl
  | peak p q _ ih => simpa only [carryPairs, List.length_cons] using congrArg (· + 1) (ih _ _)

theorem carry_binding (h : SameShape ps qs) {x y : α}
    (heq : carry combine ps x = carry combine qs y) :
    (ps = qs ∧ x = y) ∨ Collision combine (carryPairs combine ps x) (carryPairs combine qs y) := by
  induction h generalizing x y with
  | nil => exact .inl ⟨rfl, by simpa [carry] using heq⟩
  | empty _ =>
    simp only [carry, List.cons.injEq, Option.some.injEq] at heq
    exact .inl ⟨by rw [heq.2], heq.1⟩
  | peak p q _ ih =>
    simp only [carry, List.cons.injEq, true_and] at heq
    rcases ih heq with ⟨rfl, hcombine⟩ | hcollide
    · by_cases hpair : (p, x) = (q, y)
      · cases hpair
        exact .inl ⟨rfl, rfl⟩
      · exact .inr (.head hpair hcombine _ _)
    · exact .inr (hcollide.tail _ _)

theorem SameShape.eq_of_values (h : SameShape ps qs)
    (hvalues : ps.reduceOption = qs.reduceOption) : ps = qs := by
  induction h with
  | nil => rfl
  | empty _ ih => rw [ih (by simpa using hvalues)]
  | peak p q _ ih =>
    simp only [List.reduceOption_cons_of_some, List.cons.injEq] at hvalues
    rw [hvalues.1, ih hvalues.2]

theorem SameShape.values_length (h : SameShape ps qs) :
    ps.reduceOption.length = qs.reduceOption.length := by
  induction h with
  | nil => rfl
  | empty _ ih => simpa using ih
  | peak p q _ ih => simpa using ih

end Carry

theorem forall₂_of_length {xs ys : List α} (h : xs.length = ys.length) :
    List.Forall₂ (fun _ _ => True) xs ys := List.forall₂_iff_zip.mpr ⟨h, fun _ => trivial⟩

theorem SameShape.pushAll {ps qs : List (Option α)} (h : SameShape ps qs) {xs ys : List α}
    (hlen : List.Forall₂ (fun _ _ => True) xs ys) :
    SameShape (pushAll combine ps xs) (pushAll combine qs ys) := by
  induction hlen generalizing ps qs with
  | nil => exact h
  | cons _ _ ih => exact ih (h.carry _ _)

theorem pushAll_binding {ps qs : List (Option α)} (h : SameShape ps qs) {xs ys : List α}
    (hlen : List.Forall₂ (fun _ _ => True) xs ys)
    (heq : pushAll combine ps xs = pushAll combine qs ys) :
    (ps = qs ∧ xs = ys) ∨
      Collision combine (pushPairs combine ps xs) (pushPairs combine qs ys) := by
  induction hlen generalizing ps qs with
  | nil => exact .inl ⟨heq, rfl⟩
  | @cons x y xs ys _ _ ih =>
    have hpairs := @SameShape.carryPairs_length _ combine _ _ h x y
    rcases ih (h.carry x y) heq with ⟨hcarry, rfl⟩ | hcollide
    · rcases carry_binding h hcarry with ⟨rfl, rfl⟩ | hcollide
      · exact .inl ⟨rfl, rfl⟩
      · exact .inr (hcollide.left hpairs _ _)
    · exact .inr (hcollide.right hpairs)

theorem pushPairs_length {ps qs : List (Option α)} (h : SameShape ps qs) {xs ys : List α}
    (hlen : List.Forall₂ (fun _ _ => True) xs ys) :
    (pushPairs combine ps xs).length = (pushPairs combine qs ys).length := by
  induction hlen generalizing ps qs with
  | nil => rfl
  | @cons x y xs ys _ _ ih =>
    rw [pushPairs, pushPairs, List.length_append, List.length_append,
      h.carryPairs_length x y, ih (h.carry x y)]

theorem bag_binding {ps qs : List α} (hlen : List.Forall₂ (fun _ _ => True) ps qs) {x y : α}
    (heq : bag combine x ps = bag combine y qs) :
    (x = y ∧ ps = qs) ∨ Collision combine (bagPairs combine x ps) (bagPairs combine y qs) := by
  induction hlen generalizing x y with
  | nil => exact .inl ⟨heq, rfl⟩
  | @cons p q ps qs _ _ ih =>
    rcases ih heq with ⟨hcombine, rfl⟩ | hcollide
    · by_cases hpair : (p, x) = (q, y)
      · cases hpair
        exact .inl ⟨rfl, rfl⟩
      · exact .inr (Collision.head hpair hcombine _ _)
    · exact .inr (hcollide.tail _ _)

/-- Equal results of equally many values: the values are equal, or two pairs collide. -/
theorem accumulate_binding {xs ys : List α} (hlen : xs.length = ys.length)
    (heq : accumulate combine xs = accumulate combine ys) :
    xs = ys ∨ Collision combine (accumulatePairs combine xs) (accumulatePairs combine ys) := by
  have hall := forall₂_of_length hlen
  have hshape := @SameShape.pushAll _ combine _ _ .nil _ _ hall
  have hpairs := @pushPairs_length _ combine _ _ .nil _ _ hall
  have hvalues := hshape.values_length
  have hpush : (pushAll combine [] xs).reduceOption = (pushAll combine [] ys).reduceOption →
      xs = ys ∨ Collision combine (pushPairs combine [] xs) (pushPairs combine [] ys) :=
    fun hreduce => (pushAll_binding .nil hall (hshape.eq_of_values hreduce)).imp_left And.right
  unfold accumulate at heq
  unfold accumulatePairs
  cases hx : (pushAll combine [] xs).reduceOption with
  | nil =>
    have hy : (pushAll combine [] ys).reduceOption = [] := by
      rw [hx, List.length_nil, eq_comm, List.length_eq_zero_iff] at hvalues
      exact hvalues
    rw [hy]
    exact (hpush (hx.trans hy.symm)).imp_right fun h => h.left hpairs _ _
  | cons x higher =>
    cases hy : (pushAll combine [] ys).reduceOption with
    | nil => simp [hx, hy] at hvalues
    | cons y higher' =>
      rw [hx, hy, List.length_cons, List.length_cons, Nat.succ_inj] at hvalues
      rw [hx, hy] at heq
      rcases bag_binding (forall₂_of_length hvalues) (Option.some.inj heq) with
        ⟨rfl, rfl⟩ | hcollide
      · exact (hpush (hx.trans hy.symm)).imp_right fun h => h.left hpairs _ _
      · exact .inr (hcollide.right hpairs)

end MotaTool.Base
