import MotaTool.Base.PrefixOrder
import MotaTool.Encode.SuffixSpec

/-!
# What the search finds

The search bisects the suffixes in their order, by comparing as many bytes as
both strings have. Unless a suffix runs out within the bytes to encode, the
comparison is that of the order, the bytes to encode end up between two
neighbours, and one of them starts with as much of them as any suffix does.
-/

namespace MotaTool.Encode

open Base

theorem le_matchlen_iff {a b : Bytes} {k : ℕ} :
    k ≤ matchlen a b ↔ k ≤ b.length ∧ b.take k <+: a := by
  fun_induction matchlen a b generalizing k with
  | case1 x xs ys ih =>
    cases k with
    | zero => simp
    | succ k =>
      rw [List.length_cons, List.take_succ_cons, List.cons_prefix_cons, Nat.succ_le_succ_iff,
        Nat.succ_le_succ_iff, ih]
      simp
  | case2 x xs y ys hne =>
    cases k with
    | zero => simp
    | succ k =>
      rw [List.take_succ_cons, List.cons_prefix_cons]
      simp [Ne.symm hne]
  | case3 a b hnil =>
    cases k with
    | zero => simp
    | succ k =>
      cases b with
      | nil => simp
      | cons y ys =>
        cases a with
        | nil => simp
        | cons x xs => exact absurd rfl (hnil x xs y ys rfl)

def suffixAt (old : Bytes) (sa : List ℕ) (x : ℕ) : Bytes := old.drop (sa.getD x 0)

structure SentinelSorted (old : Bytes) (sa : List ℕ) : Prop where
  indexes : Indexes sa old
  sentinel : suffixAt old sa 0 = []
  increasing : sa.Pairwise fun i j => old.drop i < old.drop j
  complete : ∀ i ≤ old.length, i ∈ sa

theorem suffixArrayWithSentinel_sorted (old : Bytes) :
    Yields (suffixArrayWithSentinel old) (SentinelSorted old) := by
  refine (suffixArray_yields old).bind fun sa hsa => Yields.ok ?_
  have hmem : ∀ {p}, p ∈ sa ↔ p < old.length := fun {p} => by
    rw [hsa.perm.mem_iff, List.mem_range]
  refine ⟨⟨by rw [List.length_cons, positions_length hsa.perm], fun p hp => ?_⟩, ?_, ?_, ?_⟩
  · rcases List.mem_cons.mp hp with rfl | hp
    · exact le_rfl
    · exact (hmem.mp hp).le
  · rw [suffixAt, List.getD_cons_zero, List.drop_length]
  · refine List.pairwise_cons.mpr ⟨fun p hp => ?_, hsa.increasing⟩
    rw [List.drop_length, List.drop_eq_getElem_cons (hmem.mp hp)]
    exact List.nil_lt_cons _ _
  · intro i hi
    rcases Nat.eq_or_lt_of_le hi with rfl | hlt
    · exact List.mem_cons_self
    · exact List.mem_cons_of_mem _ (hmem.mpr hlt)

section Sorted

variable {old new p : Bytes} {sa : List ℕ} {x y st en : ℕ}

theorem SentinelSorted.index (h : SentinelSorted old sa) (hx : x ≤ old.length) :
    Base.index sa x = .ok (sa.getD x 0) ∧ sa.getD x 0 ≤ old.length := by
  have hlt : x < sa.length := by rw [h.indexes.length]; omega
  rw [index_getD hlt 0, List.getD_eq_getElem sa 0 hlt]
  exact ⟨rfl, h.indexes.bound _ (List.getElem_mem hlt)⟩

theorem SentinelSorted.mono (h : SentinelSorted old sa) (hxy : x ≤ y) (hy : y ≤ old.length) :
    suffixAt old sa x ≤ suffixAt old sa y := by
  rcases Nat.eq_or_lt_of_le hxy with rfl | hlt
  · exact List.le_refl _
  · have hsize := h.indexes.length
    have hpair := List.pairwise_iff_getElem.mp h.increasing x y (by omega) (by omega) hlt
    rw [suffixAt, suffixAt, List.getD_eq_getElem sa 0 (by omega),
      List.getD_eq_getElem sa 0 (by omega)]
    exact List.le_of_lt hpair

theorem SentinelSorted.exists_at (h : SentinelSorted old sa) {i : ℕ} (hi : i ≤ old.length) :
    ∃ x ≤ old.length, suffixAt old sa x = old.drop i := by
  obtain ⟨x, hx, hat⟩ := List.mem_iff_getElem.mp (h.complete i hi)
  have hsize := h.indexes.length
  refine ⟨x, by omega, ?_⟩
  rw [suffixAt, List.getD_eq_getElem sa 0 hx, hat]

/-- The bytes to encode lie between the two ends, unless they are greater than every suffix. -/
structure Bracket (old new : Bytes) (sa : List ℕ) (st en : ℕ) : Prop where
  le : st ≤ en
  bound : en ≤ old.length
  low : suffixAt old sa st ≤ new
  high : en = old.length ∨ new ≤ suffixAt old sa en

theorem Bracket.neighbour (hb : Bracket old new sa st en) (h : SentinelSorted old sa)
    (hshort : en ≤ st + 1) (hx : x ≤ old.length) (hp : p <+: suffixAt old sa x) (hnew : p <+: new) :
    p <+: suffixAt old sa st ∨ p <+: suffixAt old sa en := by
  rcases Nat.lt_or_ge st x with hafter | hbefore
  · right
    have hright := h.mono (show en ≤ x by omega) hx
    rcases hb.high with hend | hhigh
    · obtain rfl : x = en := by omega
      exact hp
    · exact prefix_between hhigh hright hnew hp
  · left
    exact prefix_between (h.mono hbefore (hb.le.trans hb.bound)) hb.low hp hnew

def RunsOut (old new : Bytes) : Prop :=
  ∃ i < old.length, old.drop i <+: new ∧ (old.drop i).length < new.length

theorem SentinelSorted.nonempty (h : SentinelSorted old sa) (hpos : 0 < x) (hx : x ≤ old.length) :
    sa.getD x 0 < old.length := by
  have hsize := h.indexes.length
  have hpair := List.pairwise_iff_getElem.mp h.increasing 0 x (by omega) (by omega) hpos
  have hempty := h.sentinel
  rw [suffixAt, List.getD_eq_getElem sa 0 (by omega)] at hempty
  rw [hempty] at hpair
  rw [List.getD_eq_getElem sa 0 (by omega)]
  by_contra hge
  rw [List.drop_eq_nil_of_le (by omega)] at hpair
  exact List.not_lt_nil _ hpair

theorem probe_decides {i : ℕ} (hi : i < old.length) (hruns : ¬RunsOut old new)
    (hprobe : ¬(old.drop i).take (min (old.length - i) new.length) <
      new.take (min (old.length - i) new.length)) : new ≤ old.drop i := by
  obtain ⟨s, hs⟩ : ∃ s, s = old.drop i := ⟨_, rfl⟩
  have hlength : s.length = old.length - i := by rw [hs, List.length_drop]
  rw [← hs, ← hlength] at hprobe
  rw [← hs, ← List.not_lt]
  intro hlt
  rcases (lt_iff_take_drop (min s.length new.length) s new).mp hlt with hlt | ⟨hsame, hrest⟩
  · exact hprobe hlt
  · rcases Nat.lt_or_ge s.length new.length with hshort | hlong
    · rw [Nat.min_eq_left hshort.le, List.take_length] at hsame
      refine hruns ⟨i, hi, ?_, by rwa [← hs]⟩
      rw [← hs, hsame]
      exact List.take_prefix _ _
    · rw [Nat.min_eq_right hlong, List.drop_length] at hrest
      exact List.not_lt_nil _ hrest

theorem infix_at {part whole : Bytes} (h : part <:+: whole) :
    ∃ i ≤ whole.length, part <+: whole.drop i := by
  obtain ⟨before, after, rfl⟩ := h
  refine ⟨before.length, by simp only [List.length_append]; omega, ?_⟩
  rw [List.append_assoc, List.drop_left]
  exact List.prefix_append _ _

def Found (old new : Bytes) (m : ℕ × ℕ) : Prop :=
  m.1 ≤ new.length ∧ new.take m.1 <+: old.drop m.2

/-- No longer prefix of the bytes to encode occurs in the base. -/
def Longest (old new : Bytes) (m : ℕ × ℕ) : Prop :=
  ∀ k ≤ new.length, new.take k <:+: old → k ≤ m.1

theorem Bracket.longest (hb : Bracket old new sa st en) (h : SentinelSorted old sa)
    (hshort : en ≤ st + 1) {m : ℕ × ℕ} (hst : matchlen (suffixAt old sa st) new ≤ m.1)
    (hen : matchlen (suffixAt old sa en) new ≤ m.1) : Longest old new m := by
  intro k hk hinfix
  obtain ⟨i, hi, hprefix⟩ := infix_at hinfix
  obtain ⟨x, hx, hat⟩ := h.exists_at hi
  rw [← hat] at hprefix
  rcases hb.neighbour h hshort hx hprefix (List.take_prefix _ _) with hleft | hright
  · exact (le_matchlen_iff.mpr ⟨hk, hleft⟩).trans hst
  · exact (le_matchlen_iff.mpr ⟨hk, hright⟩).trans hen

theorem search_finds (h : SentinelSorted old sa) {fuel : ℕ} (hst : st ≤ en)
    (hen : en ≤ old.length) (hfuel : en - st < fuel) :
    Yields (search sa old new fuel st en) fun m => Found old new m ∧
      (¬RunsOut old new → Bracket old new sa st en → Longest old new m) := by
  induction fuel generalizing st en with
  | zero => omega
  | succ fuel ih =>
    rw [search]
    split_ifs with hshort
    · obtain ⟨hatSt, hboundSt⟩ := h.index (hst.trans hen)
      obtain ⟨hatEn, hboundEn⟩ := h.index hen
      have hwhole : ∀ {i}, i ≤ old.length → slice old i old.length = .ok (old.drop i) :=
        fun {i} hi => by
          rw [slice_ok hi le_rfl, List.take_of_length_le (by rw [List.length_drop])]
      simp only [hatSt, hatEn, hwhole hboundSt, hwhole hboundEn, Run.ok_bind]
      have hfound : ∀ x, Found old new (matchlen (suffixAt old sa x) new, sa.getD x 0) :=
        fun x => le_matchlen_iff.mp le_rfl
      split_ifs with hbetter
      · exact Yields.ok ⟨hfound st, fun _ hb => hb.longest h (by omega) le_rfl hbetter.le⟩
      · exact Yields.ok ⟨hfound en, fun _ hb =>
          hb.longest h (by omega) (not_lt.mp hbetter) le_rfl⟩
    · obtain ⟨x, hx⟩ : ∃ x, x = st + (en - st) / 2 := ⟨_, rfl⟩
      obtain ⟨hat, hbound⟩ := h.index (show x ≤ old.length by omega)
      simp only [← hx, hat, Run.ok_bind]
      rw [slice_ok (Nat.le_add_right _ _) (by omega), Run.ok_bind,
        slice_ok (Nat.zero_le _) (min_le_right _ _), Run.ok_bind, Nat.add_sub_cancel_left,
        Nat.sub_zero, List.drop_zero]
      split_ifs with hprobe
      · refine (ih (by omega) hen (by omega)).mono fun m hm => ⟨hm.1, fun hruns hb => ?_⟩
        exact hm.2 hruns ⟨by omega, hen, List.le_of_lt (lt_of_take_lt hprobe), hb.high⟩
      · refine (ih (by omega) (by omega) (by omega)).mono fun m hm => ⟨hm.1, fun hruns hb => ?_⟩
        have hprobed := probe_decides (h.nonempty (by omega) (by omega)) hruns hprobe
        exact hm.2 hruns ⟨by omega, by omega, hb.low, .inr hprobed⟩

theorem SentinelSorted.bracket (h : SentinelSorted old sa) (new : Bytes) :
    Bracket old new sa 0 old.length := by
  refine ⟨Nat.zero_le _, le_rfl, ?_, .inl rfl⟩
  rw [h.sentinel]
  exact List.nil_le _

end Sorted

/-- What the search returns occurs in the base, and it is the longest prefix of the bytes to encode
that does, unless a suffix of the base runs out within them. -/
theorem search_longest (old new : Bytes) :
    ∃ sa len pos, suffixArrayWithSentinel old = .ok sa ∧
      search sa old new (old.length + 1) 0 old.length = .ok (len, pos) ∧
      len ≤ new.length ∧ new.take len <+: old.drop pos ∧
      (RunsOut old new ∨ ∀ k ≤ new.length, new.take k <:+: old → k ≤ len) := by
  obtain ⟨sa, hsa, hsorted⟩ := suffixArrayWithSentinel_sorted old
  obtain ⟨⟨len, pos⟩, hsearch, ⟨hlen, hfound⟩, hlongest⟩ :=
    @search_finds old new sa 0 old.length hsorted (old.length + 1) (Nat.zero_le _) le_rfl (by omega)
  refine ⟨sa, len, pos, hsa, hsearch, hlen, hfound, ?_⟩
  by_cases hruns : RunsOut old new
  · exact .inl hruns
  · exact .inr (hlongest hruns (hsorted.bracket new))

/-- The suffix that runs out hides the longer match at the front. -/
example : search [3, 2, 0, 1] [1, 2, 1] [1, 2] 4 0 3 = .ok (1, 2) := by decide

end MotaTool.Encode
