import MotaTool.Base.PeakTree
import MotaTool.Base.Words
import MotaTool.Crypto

/-!
# The payload tree

Payload blocks are hashed to leaves, and the leaves are folded by a binary
counter whose peaks are bagged from the lowest up. The root of a known number
of leaves binds all of them, up to two blocks or two pairs of nodes with equal
digests.
-/

namespace MotaTool.Merkle

open Base Run

variable (c : Crypto)

def leaf (block : Bytes) : Octets 4 := c.mh4 block

def combine (left right : Octets 4) : Octets 4 := c.mh4 (left.val ++ right.val)

def chunks (size : ℕ) (v : Bytes) : List Bytes :=
  (List.range (divCeil v.length size)).map fun i => (v.drop (i * size)).take size

def leafHashes (payload : Bytes) (blockSize : ℕ) : List (Octets 4) :=
  (chunks blockSize payload).map (leaf c)

/-- Without a peak the source panics. -/
def root : List (Octets 4) → Run (Octets 4)
  | [] => .ok (Octets.zero 4)
  | [only] => .ok only
  | leaves => unwrap (accumulate (combine c) leaves)

def flatten (leaves : List (Octets 4)) : Bytes := leaves.flatMap Subtype.val

/-- `chunks_exact(4)`: a last incomplete chunk is dropped. -/
def chunksExact4 : Bytes → List (Octets 4)
  | b0 :: b1 :: b2 :: b3 :: rest => ⟨[b0, b1, b2, b3], rfl⟩ :: chunksExact4 rest
  | _ => []

variable {c}

theorem chunks_length (size : ℕ) (v : Bytes) : (chunks size v).length = divCeil v.length size := by
  simp [chunks]

theorem leafHashes_length (payload : Bytes) (blockSize : ℕ) :
    (leafHashes c payload blockSize).length = divCeil payload.length blockSize := by
  simp [leafHashes, chunks_length]

theorem flatten_length (leaves : List (Octets 4)) :
    (flatten leaves).length = 4 * leaves.length := by
  induction leaves with
  | nil => rfl
  | cons l leaves ih =>
    have hl := l.property
    rw [flatten, List.flatMap_cons, List.length_append, List.length_cons]
    rw [flatten] at ih
    omega

theorem chunksExact4_flatten (leaves : List (Octets 4)) :
    chunksExact4 (flatten leaves) = leaves := by
  induction leaves with
  | nil => rfl
  | cons l leaves ih =>
    obtain ⟨l, hl⟩ := l
    obtain ⟨b0, b1, b2, b3, rfl⟩ : ∃ b0 b1 b2 b3, l = [b0, b1, b2, b3] := by
      obtain - | ⟨b0, - | ⟨b1, - | ⟨b2, - | ⟨b3, - | ⟨b4, l⟩⟩⟩⟩⟩ := l <;> simp at hl
      exact ⟨b0, b1, b2, b3, rfl⟩
    rw [flatten, List.flatMap_cons]
    simp only [List.cons_append, List.nil_append, chunksExact4]
    rw [← flatten, ih]

theorem chunks_flatten {size : ℕ} (h : 0 < size) (v : Bytes) : (chunks size v).flatten = v := by
  have htaken : ∀ n, ((List.range n).map fun i => (v.drop (i * size)).take size).flatten =
      v.take (n * size) := fun n => by
    induction n with
    | zero => simp
    | succ n ih =>
      rw [List.range_succ, List.map_append, List.flatten_append, ih, Nat.succ_mul, List.take_add]
      simp
  rw [chunks, htaken, List.take_of_length_le (le_divCeil_mul v.length h)]

/-- Two different blocks at one index with one leaf. -/
def BlockCollision (c : Crypto) (size : ℕ) (v w : Bytes) : Prop :=
  ∃ pair ∈ (chunks size v).zip (chunks size w), pair.1 ≠ pair.2 ∧ leaf c pair.1 = leaf c pair.2

theorem map_binding {α β : Type*} {f : α → β} {xs ys : List α} (h : xs.map f = ys.map f) :
    xs = ys ∨ ∃ pair ∈ xs.zip ys, pair.1 ≠ pair.2 ∧ f pair.1 = f pair.2 := by
  induction xs generalizing ys with
  | nil => exact .inl (by simpa [eq_comm] using h)
  | cons x xs ih =>
    obtain - | ⟨y, ys⟩ := ys
    · simp at h
    · simp only [List.map_cons, List.cons.injEq] at h
      by_cases hxy : x = y
      · rcases ih h.2 with rfl | ⟨pair, hmem, hpair⟩
        · exact .inl (by rw [hxy])
        · exact .inr ⟨pair, List.mem_cons_of_mem _ hmem, hpair⟩
      · exact .inr ⟨(x, y), List.mem_cons_self, hxy, h.1⟩

theorem leafHashes_binding {size : ℕ} (hsize : 0 < size) {v w : Bytes}
    (h : leafHashes c v size = leafHashes c w size) : v = w ∨ BlockCollision c size v w := by
  rcases map_binding h with hchunks | hcollide
  · exact .inl (by rw [← chunks_flatten hsize v, hchunks, chunks_flatten hsize w])
  · exact .inr hcollide

/-- Two different eight-byte inputs with one digest, at the same step of two root runs. -/
def NodeCollision (c : Crypto) (xs ys : List (Octets 4)) : Prop :=
  Collision (combine c) (accumulatePairs (combine c) xs) (accumulatePairs (combine c) ys)

theorem root_eq {leaves : List (Octets 4)} (h : leaves ≠ []) :
    root c leaves = unwrap (accumulate (combine c) leaves) := by
  match leaves with
  | [only] => rfl
  | _ :: _ :: _ => rfl

theorem root_ok (leaves : List (Octets 4)) : ∃ r, root c leaves = .ok r := by
  by_cases hnil : leaves = []
  · exact ⟨_, by rw [hnil]; rfl⟩
  · obtain ⟨v, hv⟩ := @accumulate_isSome _ (combine c) _ hnil
    exact ⟨v, by rw [root_eq hnil, hv]; rfl⟩

theorem root_binding {xs ys : List (Octets 4)} {r : Octets 4} (hlen : xs.length = ys.length)
    (hx : root c xs = .ok r) (hy : root c ys = .ok r) : xs = ys ∨ NodeCollision c xs ys := by
  by_cases hnil : xs = []
  · rw [hnil, List.length_nil, eq_comm, List.length_eq_zero_iff] at hlen
    exact .inl (by rw [hnil, hlen])
  · have hnil' : ys ≠ [] := fun h => hnil (by rw [h] at hlen; simpa using hlen)
    rw [root_eq hnil, unwrap_eq_ok] at hx
    rw [root_eq hnil', unwrap_eq_ok] at hy
    exact accumulate_binding hlen (hx.trans hy.symm)

/-- A digest under which two nodes combine as any given function does. -/
def combining (f : Octets 4 → Octets 4 → Octets 4) : Crypto :=
  { Crypto.plain with
    sha256 := fun data =>
      Octets.padded 32 (f (Octets.padded 4 (data.take 4)) (Octets.padded 4 (data.drop 4))).val }

theorem padded_self {n : ℕ} (w : Octets n) : Octets.padded n w.val = w := by
  rw [Subtype.ext_iff, Octets.padded_val w.property.le, w.property, Nat.sub_self,
    List.replicate_zero, List.append_nil]

theorem combine_combining (f : Octets 4 → Octets 4 → Octets 4) : combine (combining f) = f := by
  funext left right
  have hleft : (left.val ++ right.val).take 4 = left.val := List.take_left' left.property
  have hright : (left.val ++ right.val).drop 4 = right.val := List.drop_left' left.property
  have hpad := @Octets.padded_val 32 (f left right).val (by rw [(f left right).property]; decide)
  rw [Subtype.ext_iff, combine, Crypto.mh4, Crypto.mh]
  simp only [combining, hleft, hright, padded_self, hpad]
  exact List.take_left' (f left right).property

theorem root_eq_treeRoot (leaves : List (Octets 4)) :
    root c leaves = .ok (treeRoot (combine c) (Octets.zero 4) leaves) := by
  by_cases hnil : leaves = []
  · rw [hnil, treeRoot]
    rfl
  · rw [root_eq hnil, accumulate_eq_treeRoot hnil]
    rfl

/-- The root satisfies the recursion over the largest power of two below the number of leaves,
and nothing about how two nodes combine is used. -/
theorem root_recursive :
    (∀ f : Octets 4 → Octets 4 → Octets 4, ∃ c : Crypto, combine c = f) ∧
      ∀ c : Crypto, ∃ R : List (Octets 4) → Octets 4,
        R [] = Octets.zero 4 ∧ (∀ leaf, R [leaf] = leaf) ∧
          (∀ leaves k, 2 ≤ leaves.length →
            IsGreatest {k | (∃ j, k = 2 ^ j) ∧ k < leaves.length} k →
            R leaves = combine c (R (leaves.take k)) (R (leaves.drop k))) ∧
          ∀ leaves, root c leaves = .ok (R leaves) := by
  refine ⟨fun f => ⟨combining f, combine_combining f⟩, fun c => ?_⟩
  refine ⟨treeRoot (combine c) (Octets.zero 4), by rw [treeRoot], fun leaf => by rw [treeRoot], ?_,
    root_eq_treeRoot⟩
  intro leaves k hlen hk
  rw [hk.unique (halfPower_isGreatest hlen)]
  exact treeRoot_split hlen

end MotaTool.Merkle
