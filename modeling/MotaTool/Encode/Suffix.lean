import MotaTool.Base.Loop
import MotaTool.Base.Octets
import Mathlib.Data.List.Sort

/-!
# Suffix array and longest-prefix search

`suffixArray` sorts the positions of a byte string by prefix doubling: each
round stably sorts by the pair of ranks of a position and of the position `k`
further on, and ranks the positions anew. `search` bisects the array for a
prefix of the bytes to encode. A search in any array that has an entry for each
suffix answers inside both strings.
-/

namespace MotaTool.Encode

open Base

def suffixKey (rank : List ℤ) (k i : ℕ) : Run (ℤ × ℤ) := do
  let first ← index rank i
  if i + k < rank.length then do
    let second ← index rank (i + k)
    .ok (first, second)
  else .ok (first, -1)

abbrev keyLE (a b : ℤ × ℤ) : Prop := a.1 < b.1 ∨ a.1 = b.1 ∧ a.2 ≤ b.2

/-- `sa.sort_by_key(..)`: a stable sort; a key that panics makes the sort panic. -/
def sortByKey (key : ℕ → Run (ℤ × ℤ)) (sa : List ℕ) : Run (List ℕ) := do
  let keyed ← sa.mapM fun a => do
    let k ← key a
    .ok (k, a)
  .ok ((keyed.insertionSort fun x y => keyLE x.1 y.1).map Prod.snd)

structure Doubling where
  sa : List ℕ
  rank : List ℤ
  tmp : List ℤ
  k : ℕ

def rerank (rank : List ℤ) (k : ℕ) (sa : List ℕ) (tmp : List ℤ) (w : ℕ) : Run (List ℤ) := do
  let before ← index sa (w - 1)
  let here ← index sa w
  let prev ← suffixKey rank k before
  let cur ← suffixKey rank k here
  let t ← index tmp before
  store tmp here (t + if cur ≠ prev then 1 else 0)

def doublingTurn (n : ℕ) (s : Doubling) : Run (Flow Doubling (List ℕ)) := do
  let sa ← sortByKey (suffixKey s.rank s.k) s.sa
  let first ← index sa 0
  let tmp ← store s.tmp first 0
  let tmp ← (List.range' 1 (n - 1)).foldlM (rerank s.rank s.k sa) tmp
  let last ← index sa (n - 1)
  let top ← index tmp last
  if top = n - 1 then .ok (.done sa)
  else if 2 * s.k ≥ n then .ok (.done sa)
  else .ok (.next ⟨sa, tmp, tmp, 2 * s.k⟩)

/-- The step `k` doubles every round and stops at `n`, so `n` rounds are enough. -/
def suffixArray (s : Bytes) : Run (List ℕ) :=
  let n := s.length
  if n = 0 then .ok []
  else iterate (doublingTurn n) n
    ⟨List.range n, s.map fun b => (b.toNat : ℤ), List.replicate n 0, 1⟩

def suffixArrayWithSentinel (s : Bytes) : Run (List ℕ) := do
  let sa ← suffixArray s
  .ok (s.length :: sa)

def matchlen : Bytes → Bytes → ℕ
  | x :: xs, y :: ys => if x = y then matchlen xs ys + 1 else 0
  | _, _ => 0

/-- The interval `st..=en` halves at every call, so its length bounds the fuel. -/
def search (sa : List ℕ) (old new : Bytes) : ℕ → ℕ → ℕ → Run (ℕ × ℕ)
  | 0, _, _ => .error .spin
  | fuel + 1, st, en =>
    if en - st < 2 then do
      let p ← index sa st
      let q ← index sa en
      let x := matchlen (← slice old p old.length) new
      let y := matchlen (← slice old q old.length) new
      if x > y then .ok (x, p) else .ok (y, q)
    else do
      let x := st + (en - st) / 2
      let oi ← index sa x
      let n := min (old.length - oi) new.length
      let left ← slice old oi (oi + n)
      let right ← slice new 0 n
      if left < right then search sa old new fuel x en else search sa old new fuel st x

/-- What the search relies on: an entry for each suffix, the empty one included. -/
structure Indexes (sa : List ℕ) (old : Bytes) : Prop where
  length : sa.length = old.length + 1
  bound : ∀ p ∈ sa, p ≤ old.length

theorem Indexes.index {sa : List ℕ} {old : Bytes} (h : Indexes sa old) {i : ℕ}
    (hi : i ≤ old.length) : Yields (Base.index sa i) fun p => p ≤ old.length := by
  have hlt : i < sa.length := by rw [h.length]; omega
  exact ⟨sa[i], index_ok hlt, h.bound _ (List.getElem_mem hlt)⟩

theorem matchlen_le_left (a b : Bytes) : matchlen a b ≤ a.length := by
  fun_induction matchlen a b with
  | case1 x xs ys ih => simpa using ih
  | case2 => simp
  | case3 => simp

theorem matchlen_le_right (a b : Bytes) : matchlen a b ≤ b.length := by
  fun_induction matchlen a b with
  | case1 x xs ys ih => simpa using ih
  | case2 => simp
  | case3 => simp

def Match.Within (old new : Bytes) (m : ℕ × ℕ) : Prop :=
  m.1 ≤ new.length ∧ m.2 + m.1 ≤ old.length

theorem matchlen_within {old new : Bytes} {p : ℕ} (hp : p ≤ old.length) :
    Match.Within old new (matchlen ((old.drop p).take (old.length - p)) new, p) := by
  refine ⟨matchlen_le_right _ _, ?_⟩
  have hleft := matchlen_le_left ((old.drop p).take (old.length - p)) new
  rw [List.length_take, List.length_drop] at hleft
  dsimp only
  omega

theorem search_yields {sa : List ℕ} {old new : Bytes} (h : Indexes sa old) {fuel st en : ℕ}
    (hst : st ≤ en) (hen : en ≤ old.length) (hfuel : en - st < fuel) :
    Yields (search sa old new fuel st en) (Match.Within old new) := by
  induction fuel generalizing st en with
  | zero => omega
  | succ fuel ih =>
    rw [search]
    split_ifs with hshort
    · refine (h.index (hst.trans hen)).bind fun p hp => ?_
      refine (h.index hen).bind fun q hq => ?_
      simp only [slice_ok hp le_rfl, slice_ok hq le_rfl, Run.ok_bind]
      split_ifs
      · exact Yields.ok (matchlen_within hp)
      · exact Yields.ok (matchlen_within hq)
    · refine (h.index (show st + (en - st) / 2 ≤ old.length by omega)).bind fun oi hoi => ?_
      dsimp only
      rw [slice_ok (Nat.le_add_right _ _) (by omega), Run.ok_bind,
        slice_ok (Nat.zero_le _) (min_le_right _ _), Run.ok_bind]
      split_ifs
      · exact ih (by omega) hen (by omega)
      · exact ih (by omega) (by omega) (by omega)

end MotaTool.Encode
