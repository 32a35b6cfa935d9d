import MotaTool.Base.Doubling
import MotaTool.Encode.Suffix

/-!
# The suffix array is sorted

At the head of round `k` the rank table orders the suffixes by their first `k`
bytes. The round sorts the positions by the pairs of ranks, so the array it
leaves is in the order of the first `2 * k` bytes, and both ways out of the
loop leave no two suffixes undecided.
-/

namespace MotaTool.Encode

open Base

/-- The positions of the string, each once, in the order of their suffixes. -/
structure SuffixSorted (s : Bytes) (sa : List ℕ) : Prop where
  perm : sa.Perm (List.range s.length)
  increasing : sa.Pairwise fun i j => s.drop i < s.drop j

section Tables

variable {n k : ℕ} {rank tmp : List ℤ} {sa : List ℕ}

theorem index_getD {α : Type} {v : List α} {i : ℕ} (h : i < v.length) (d : α) :
    index v i = .ok (v.getD i d) := by
  rw [index_ok h, List.getD_eq_getElem v d h]

abbrev tableKey (n : ℕ) (rank : List ℤ) (k i : ℕ) : ℤ ×ₗ ℤ := pairKey n (fun i => rank.getD i 0) k i

theorem suffixKey_ok (hrank : rank.length = n) {i : ℕ} (h : i < n) (k : ℕ) :
    suffixKey rank k i = .ok (ofLex (tableKey n rank k i)) := by
  rw [suffixKey, index_getD (by omega) 0, Run.ok_bind, hrank]
  by_cases hk : i + k < n
  · rw [if_pos hk, index_getD (by omega) 0]
    simp [pairKey, hk]
  · rw [if_neg hk]
    simp [pairKey, hk]

theorem keyLE_iff (a b : ℤ ×ₗ ℤ) : keyLE (ofLex a) (ofLex b) ↔ a ≤ b := Prod.Lex.le_iff.symm

theorem sortByKey_ok {f : ℕ → Run (ℤ × ℤ)} {key : ℕ → ℤ ×ₗ ℤ}
    (h : ∀ a ∈ sa, f a = .ok (ofLex (key a))) :
    sortByKey f sa = .ok (sa.insertionSort fun a b => key a ≤ key b) := by
  have hkeyed : (sa.mapM fun a => do let k ← f a; .ok (k, a)) =
      (.ok (sa.map fun a => (ofLex (key a), a)) : Run _) := by
    induction sa with
    | nil => rfl
    | cons a sa ih =>
      rw [List.mapM_cons, h a List.mem_cons_self, ih fun b hb => h b (List.mem_cons_of_mem a hb)]
      rfl
  have hsort := List.map_insertionSort (fun a b => key a ≤ key b) (fun x y => keyLE x.1 y.1)
    (fun a => (ofLex (key a), a)) sa fun a _ b _ => (keyLE_iff (key a) (key b)).symm
  rw [sortByKey, hkeyed, Run.ok_bind, ← hsort, List.map_map]
  exact congrArg _ (List.map_id _)

theorem positions_length (h : sa.Perm (List.range n)) : sa.length = n := by
  rw [h.length_eq, List.length_range]

theorem getD_lt (h : sa.Perm (List.range n)) {w : ℕ} (hw : w < n) : sa.getD w 0 < n := by
  have hlen := positions_length h
  rw [List.getD_eq_getElem sa 0 (by omega)]
  exact List.mem_range.mp (h.subset (List.getElem_mem _))

theorem getD_surjective (h : sa.Perm (List.range n)) {i : ℕ} (hi : i < n) :
    ∃ w < n, sa.getD w 0 = i := by
  have hlen := positions_length h
  obtain ⟨w, hw, hget⟩ := List.mem_iff_getElem.mp (h.symm.subset (List.mem_range.mpr hi))
  exact ⟨w, by omega, by rw [List.getD_eq_getElem sa 0 hw, hget]⟩

theorem getD_injective (h : sa.Perm (List.range n)) {u w : ℕ} (hu : u < n) (hw : w < n)
    (heq : sa.getD u 0 = sa.getD w 0) : u = w := by
  have hlen := positions_length h
  rw [List.getD_eq_getElem sa 0 (by omega), List.getD_eq_getElem sa 0 (by omega)] at heq
  exact (h.nodup_iff.mpr List.nodup_range).getElem_inj_iff.mp heq

theorem getD_mono {key : ℕ → ℤ ×ₗ ℤ} (hlen : sa.length = n)
    (h : sa.Pairwise fun a b => key a ≤ key b) {u w : ℕ} (huw : u ≤ w) (hw : w < n) :
    key (sa.getD u 0) ≤ key (sa.getD w 0) := by
  rw [List.getD_eq_getElem sa 0 (by omega), List.getD_eq_getElem sa 0 (by omega)]
  rcases Nat.lt_or_eq_of_le huw with hlt | rfl
  · exact List.pairwise_iff_getElem.mp h u w (by omega) (by omega) hlt
  · exact le_rfl

/-- The table after turn `w`: the rises of the key up to each position walked so far. -/
structure Reranked (sa : List ℕ) (f : ℕ → ℤ ×ₗ ℤ) (n w : ℕ) (tmp : List ℤ) : Prop where
  length : tmp.length = n
  counts : ∀ v ≤ w, tmp.getD (sa.getD v 0) 0 = rises f v

theorem Reranked.store (hsa : sa.Perm (List.range n)) {f : ℕ → ℤ ×ₗ ℤ} {w : ℕ} (hw : w < n)
    (hlen : tmp.length = n) (hcounts : ∀ v < w, tmp.getD (sa.getD v 0) 0 = rises f v) :
    Reranked sa f n w (tmp.set (sa.getD w 0) (rises f w)) := by
  refine ⟨by rw [List.length_set, hlen], fun v hv => ?_⟩
  rcases Nat.lt_or_eq_of_le hv with hlt | rfl
  · have hne : sa.getD w 0 ≠ sa.getD v 0 := fun heq => by
      have := getD_injective hsa hw (by omega) heq
      omega
    rw [List.getD_eq_getElem?_getD, List.getElem?_set_ne hne, ← List.getD_eq_getElem?_getD]
    exact hcounts v hlt
  · have hpos : sa.getD v 0 < tmp.length := by
      rw [hlen]
      exact getD_lt hsa hw
    rw [List.getD_eq_getElem?_getD, List.getElem?_set_self hpos, Option.getD_some]

theorem rerank_counts (hsa : sa.Perm (List.range n)) (hrank : rank.length = n) {w : ℕ}
    (hw : w + 1 < n) (h : Reranked sa (fun v => tableKey n rank k (sa.getD v 0)) n w tmp) :
    Yields (rerank rank k sa tmp (1 + w))
      (Reranked sa (fun v => tableKey n rank k (sa.getD v 0)) n (w + 1)) := by
  have hlen := positions_length hsa
  have hbefore := getD_lt hsa (show w < n by omega)
  have hhere := getD_lt hsa hw
  have hrise : rises (fun v => tableKey n rank k (sa.getD v 0)) (w + 1) =
      tmp.getD (sa.getD w 0) 0 + if ofLex (tableKey n rank k (sa.getD (w + 1) 0)) ≠
        ofLex (tableKey n rank k (sa.getD w 0)) then 1 else 0 := by
    rw [rises, h.counts w le_rfl]
    rfl
  rw [rerank, Nat.add_sub_cancel_left, Nat.add_comm 1 w, index_getD (by omega) 0, Run.ok_bind,
    index_getD (by omega) 0, Run.ok_bind, suffixKey_ok hrank hbefore, Run.ok_bind,
    suffixKey_ok hrank hhere, Run.ok_bind, index_getD (by rw [h.length]; exact hbefore) 0,
    Run.ok_bind, store_ok (by rw [h.length]; exact hhere), ← hrise]
  exact Yields.ok (Reranked.store hsa hw h.length fun v hv => h.counts v (by omega))

end Tables

structure Doubling.Inv (n : ℕ) (s : Doubling) : Prop where
  perm : s.sa.Perm (List.range n)
  rank : s.rank.length = n
  tmp : s.tmp.length = n
  pos : 0 < s.k

structure Doubling.Ranked (s : Bytes) (t : Doubling) : Prop extends t.Inv s.length where
  ranks : RanksBy s t.k fun i => t.rank.getD i 0

section Rounds

variable {s : Bytes} {t : Doubling} {sa : List ℕ}

theorem Doubling.Ranked.initial (s : Bytes) :
    Doubling.Ranked s ⟨List.range s.length, s.map fun b => (b.toNat : ℤ),
      List.replicate s.length 0, 1⟩ := by
  refine ⟨⟨.refl _, by simp, by simp, Nat.one_pos⟩, fun i hi => ?_, fun i hi j hj => ?_⟩
  · simp [List.getD_eq_getElem?_getD, hi]
  · rw [List.drop_eq_getElem_cons hi, List.drop_eq_getElem_cons hj, List.take_succ_cons,
      List.take_succ_cons, List.take_zero, List.take_zero, List.cons_lt_cons_iff]
    simp [List.getD_eq_getElem?_getD, hi, hj, UInt8.lt_iff_toNat_lt]

theorem sorted_of_keys (h : t.Ranked s) (hsa : sa.Perm (List.range s.length))
    (hstrict : ∀ u w, u < w → w < s.length →
      tableKey s.length t.rank t.k (sa.getD u 0) < tableKey s.length t.rank t.k (sa.getD w 0)) :
    SuffixSorted s sa := by
  have hlen := positions_length hsa
  refine ⟨hsa, List.pairwise_iff_getElem.mpr fun u w hu hw huw => ?_⟩
  have hlt := hstrict u w huw (by omega)
  rw [h.ranks.pairKey_lt h.pos (getD_lt hsa (by omega)) (getD_lt hsa (by omega)),
    List.getD_eq_getElem sa 0 hu, List.getD_eq_getElem sa 0 hw] at hlt
  exact lt_of_take_lt hlt

theorem keys_ne (h : t.Ranked s) (hk : s.length ≤ 2 * t.k) {i j : ℕ} (hi : i < s.length)
    (hj : j < s.length) (hne : i ≠ j) :
    tableKey s.length t.rank t.k i ≠ tableKey s.length t.rank t.k j := by
  intro heq
  have hlow := h.ranks.pairKey_lt h.pos hi hj
  have hhigh := h.ranks.pairKey_lt h.pos hj hi
  rw [List.take_of_length_le (by rw [List.length_drop]; omega),
    List.take_of_length_le (by rw [List.length_drop]; omega)] at hlow hhigh
  have hsame : s.drop i = s.drop j :=
    List.le_antisymm (List.not_lt.mp fun hlt => (hhigh.mpr hlt).ne heq.symm)
      (List.not_lt.mp fun hlt => (hlow.mpr hlt).ne heq)
  have hlen := congrArg List.length hsame
  rw [List.length_drop, List.length_drop] at hlen
  omega

/-- The array in the order of the keys of a round. -/
structure RoundSorted (s : Bytes) (t : Doubling) (sa : List ℕ) : Prop where
  perm : sa.Perm (List.range s.length)
  mono : ∀ u w, u ≤ w → w < s.length →
    tableKey s.length t.rank t.k (sa.getD u 0) ≤ tableKey s.length t.rank t.k (sa.getD w 0)

theorem roundSort_yields (h : t.Ranked s) :
    Yields (sortByKey (suffixKey t.rank t.k) t.sa) (RoundSorted s t) := by
  have hsort := sortByKey_ok fun a ha =>
    suffixKey_ok h.rank (List.mem_range.mp (h.perm.subset ha)) t.k
  have hperm := (List.perm_insertionSort (fun a b => tableKey s.length t.rank t.k a ≤
    tableKey s.length t.rank t.k b) t.sa).trans h.perm
  have hlen := positions_length hperm
  rw [hsort]
  exact Yields.ok ⟨hperm, fun u w => getD_mono hlen (List.pairwise_insertionSort _ t.sa)⟩

/-- The first way out: every position has a rank of its own. -/
theorem RoundSorted.sorted_of_full (hsa : RoundSorted s t sa) (h : t.Ranked s)
    (hfull : rises (fun v => tableKey s.length t.rank t.k (sa.getD v 0)) (s.length - 1) =
      (s.length - 1 : ℕ)) : SuffixSorted s sa := by
  refine sorted_of_keys h hsa.perm fun u w huw hw => ?_
  exact rises_full (f := fun v => tableKey s.length t.rank t.k (sa.getD v 0)) hsa.mono hfull huw hw

/-- The second way out: the keys reach to the end of the string. -/
theorem RoundSorted.sorted_of_long (hsa : RoundSorted s t sa) (h : t.Ranked s)
    (hk : s.length ≤ 2 * t.k) : SuffixSorted s sa := by
  refine sorted_of_keys h hsa.perm fun u w huw hw => ?_
  refine lt_of_le_of_ne (hsa.mono u w huw.le hw) (keys_ne h hk ?_ ?_ fun heq => ?_)
  · exact getD_lt hsa.perm (by omega)
  · exact getD_lt hsa.perm hw
  · have hsame := getD_injective hsa.perm (by omega) hw heq
    omega

theorem RoundSorted.ranked {tmp : List ℤ} (hsa : RoundSorted s t sa) (h : t.Ranked s)
    (htmp : Reranked sa (fun v => tableKey s.length t.rank t.k (sa.getD v 0)) s.length
      (s.length - 1) tmp) : Doubling.Ranked s ⟨sa, tmp, tmp, 2 * t.k⟩ := by
  have hpos := h.pos
  have hdouble : RanksBy s (2 * t.k) fun i => tmp.getD i 0 :=
    h.ranks.double hpos (fun i hi => getD_surjective hsa.perm hi) hsa.mono
      fun w hw => htmp.counts w (by omega)
  exact ⟨⟨hsa.perm, htmp.length, htmp.length, Nat.mul_pos two_pos hpos⟩, hdouble⟩

theorem doublingTurn_yields (hn : 0 < s.length) (h : t.Ranked s) :
    Yields (doublingTurn s.length t) (Flow.Progress (Doubling.Ranked s) (SuffixSorted s)
      (fun t => s.length - t.k) t) := by
  have hpos := h.pos
  rw [doublingTurn]
  refine Yields.bind (roundSort_yields h) fun sa hsa => ?_
  have hlen := positions_length hsa.perm
  have hfirst := getD_lt hsa.perm hn
  have hlast := getD_lt hsa.perm (show s.length - 1 < s.length by omega)
  rw [index_getD (by omega) 0, Run.ok_bind, store_ok (by rw [h.tmp]; exact hfirst), Run.ok_bind]
  refine Yields.bind (foldlM_count_yields
    (fun w => Reranked sa (fun v => tableKey s.length t.rank t.k (sa.getD v 0)) s.length w)
    (fun tmp w hw htmp => rerank_counts hsa.perm h.rank (by omega) htmp)
    (Reranked.store hsa.perm hn h.tmp nofun)) fun tmp htmp => ?_
  rw [index_getD (by omega) 0, Run.ok_bind, index_getD (by rw [htmp.length]; exact hlast) 0,
    Run.ok_bind, htmp.counts _ le_rfl]
  split_ifs with htop hk
  · exact Yields.ok (hsa.sorted_of_full h (by omega))
  · exact Yields.ok (hsa.sorted_of_long h hk)
  · exact Yields.ok ⟨hsa.ranked h htmp, by dsimp only; omega⟩

end Rounds

theorem suffixArray_yields (s : Bytes) : Yields (suffixArray s) (SuffixSorted s) := by
  unfold suffixArray
  simp only
  split_ifs with hn
  · exact Yields.ok ⟨by rw [hn]; exact .nil, .nil⟩
  · exact iterate_yields (Doubling.Ranked s) _ (fun t => s.length - t.k)
      (fun t ht => doublingTurn_yields (by omega) ht) (Doubling.Ranked.initial s)
      (by dsimp only; omega)

theorem suffixArrayWithSentinel_yields (s : Bytes) :
    Yields (suffixArrayWithSentinel s) fun sa => Indexes sa s := by
  refine (suffixArray_yields s).bind fun sa hsa => Yields.ok ⟨?_, fun p hp => ?_⟩
  · rw [List.length_cons, positions_length hsa.perm]
  · rcases List.mem_cons.mp hp with rfl | hp
    · exact le_rfl
    · exact (List.mem_range.mp (hsa.perm.subset hp)).le

/-- For every byte string the doubling ends, by either way out, and what it returns lists every
position once, by strictly increasing suffix. -/
theorem suffixArray_sorted (s : Bytes) :
    ∃ sa, suffixArray s = .ok sa ∧ sa.Perm (List.range s.length) ∧
      sa.Pairwise fun i j => s.drop i < s.drop j := by
  obtain ⟨sa, hrun, hsa⟩ := suffixArray_yields s
  exact ⟨sa, hrun, hsa.perm, hsa.increasing⟩

end MotaTool.Encode
