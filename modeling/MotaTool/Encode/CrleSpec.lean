import MotaTool.Encode.Crle

/-!
# The segmentation depends only on the content

The segments of a compressed string are laid out along its maximal runs. The
scan only ever starts between two runs, so the first long run it finds is
maximal and none that starts before it is long. By induction over the rest of
the string the repeated segments are the long maximal runs in order, and one
scattered segment fills every gap.
-/

namespace MotaTool.Encode

open Base

structure MaximalRun (data : Bytes) (o l : ℕ) (b : UInt8) : Prop where
  pos : 0 < l
  run : RunAt data o l b
  stops : data[o + l]? ≠ some b
  starts : o = 0 ∨ data[o - 1]? ≠ some b

def Boundary (data : Bytes) (o : ℕ) : Prop := o = 0 ∨ data[o - 1]? ≠ data[o]?

section Runs

variable {data : Bytes} {o l o' l' : ℕ} {b b' : UInt8}

theorem MaximalRun.byte (h : MaximalRun data o l b) : data[o]? = some b := h.run 0 h.pos

theorem MaximalRun.le_length (h : MaximalRun data o l b) : o + l ≤ data.length := by
  apply h.run.le_length
  exact (List.getElem?_eq_some_iff.mp h.byte).1.le

theorem MaximalRun.boundary (h : MaximalRun data o l b) : Boundary data o := by
  refine h.starts.imp_right ?_
  rw [h.byte]
  exact id

theorem MaximalRun.boundary_end (h : MaximalRun data o l b) : Boundary data (o + l) := by
  have hpos := h.pos
  have hlast : data[o + l - 1]? = some b := by
    rw [Nat.add_sub_assoc hpos]
    exact h.run (l - 1) (by omega)
  refine .inr ?_
  rw [hlast]
  exact h.stops.symm

theorem RunAt.maximal (h : RunAt data o l b) (hstop : data[o + l]? ≠ some b)
    (hbyte : data[o]? = some b) (hbound : Boundary data o) : MaximalRun data o l b := by
  have hpos : 0 < l := by
    rcases Nat.eq_zero_or_pos l with rfl | hpos
    · exact absurd hbyte hstop
    · exact hpos
  refine ⟨hpos, h, hstop, hbound.imp_right ?_⟩
  rw [hbyte]
  exact id

theorem MaximalRun.unique (h : MaximalRun data o l b) (h' : MaximalRun data o l' b') :
    l = l' ∧ b = b' := by
  have hbyte : b = b' := Option.some.inj (h.byte.symm.trans h'.byte)
  subst hbyte
  refine ⟨?_, rfl⟩
  rcases Nat.lt_trichotomy l l' with hlt | heq | hlt
  · exact absurd (h'.run l hlt) h.stops
  · exact heq
  · exact absurd (h.run l' hlt) h'.stops

theorem MaximalRun.disjoint (h : MaximalRun data o l b) (h' : MaximalRun data o' l' b')
    (hlt : o < o') : o + l ≤ o' := by
  by_contra hinside
  have hat := h.run (o' - o) (by omega)
  have hbefore := h.run (o' - 1 - o) (by omega)
  rw [Nat.add_sub_cancel' (by omega)] at hat hbefore
  have hbyte : b = b' := Option.some.inj (hat.symm.trans h'.byte)
  rcases h'.starts with hzero | hne
  · omega
  · exact hne (hbyte ▸ hbefore)

theorem exists_maximalRun {p : ℕ} (hp : p < data.length) :
    ∃ o l b, MaximalRun data o l b ∧ o ≤ p ∧ p < o + l := by
  -- the run that contains the byte before, unless a run starts here
  induction p with
  | zero =>
    obtain ⟨l, -, hrun, hstop⟩ := runLength_yields data (o := 0) (b := data[0]) (Nat.zero_le _)
    have hmax := hrun.maximal hstop (List.getElem?_eq_getElem hp) (.inl rfl)
    exact ⟨0, l, _, hmax, Nat.le_refl 0, by have := hmax.pos; omega⟩
  | succ p ih =>
    obtain ⟨o, l, b, hmax, hlow, hhigh⟩ := ih (by omega)
    by_cases hin : p + 1 < o + l
    · exact ⟨o, l, b, hmax, by omega, hin⟩
    · have hend : o + l = p + 1 := by omega
      obtain ⟨m, -, hrun, hstop⟩ :=
        runLength_yields data (o := p + 1) (b := data[p + 1]) (by omega)
      have hnext := hrun.maximal hstop (List.getElem?_eq_getElem hp) (hend ▸ hmax.boundary_end)
      exact ⟨p + 1, m, _, hnext, Nat.le_refl _, by have := hnext.pos; omega⟩

theorem RunAt.within (h : RunAt data o l b) (hpos : 0 < l) :
    ∃ o' l', MaximalRun data o' l' b ∧ o' ≤ o ∧ o + l ≤ o' + l' := by
  have hbyte := h 0 hpos
  rw [Nat.add_zero] at hbyte
  obtain ⟨o', l', b', hmax, hlow, hhigh⟩ :=
    exists_maximalRun (List.getElem?_eq_some_iff.mp hbyte).1
  have hin := hmax.run (o - o') (by omega)
  rw [Nat.add_sub_cancel' hlow, hbyte] at hin
  cases hin
  refine ⟨o', l', hmax, hlow, ?_⟩
  by_contra hshort
  have hover := h (o' + l' - o) (by omega)
  rw [Nat.add_sub_cancel' (by omega)] at hover
  exact hmax.stops hover

end Runs

def ShortRuns (data : Bytes) (start stop : ℕ) : Prop :=
  ∀ o l b, MaximalRun data o l b → start ≤ o → o < stop → l < CRLE_MIN_REPEAT

def FirstLongRun (data : Bytes) (start : ℕ) : Option (ℕ × ℕ) → Prop
  | none => ShortRuns data start data.length
  | some (j, l) => start ≤ j ∧ CRLE_MIN_REPEAT ≤ l ∧ ShortRuns data start j ∧
      ∃ b, MaximalRun data j l b

theorem ShortRuns.step {data : Bytes} {start o l : ℕ} {b : UInt8} (h : ShortRuns data start o)
    (hmax : MaximalRun data o l b) (hshort : l < CRLE_MIN_REPEAT) :
    ShortRuns data start (o + l) := by
  intro o' l' b' hmax' hstart hstop
  rcases Nat.lt_trichotomy o' o with hlt | rfl | hlt
  · exact h o' l' b' hmax' hstart hlt
  · rwa [(hmax'.unique hmax).1]
  · exact absurd (hmax.disjoint hmax' hlt) (by omega)

theorem firstRun_first {data : Bytes} {start : ℕ} (hstart : start ≤ data.length)
    (hbound : Boundary data start) :
    Yields (firstRun data start) (FirstLongRun data start) := by
  refine iterate_yields
    (fun o => start ≤ o ∧ o ≤ data.length ∧ Boundary data o ∧ ShortRuns data start o) _
    (fun o => data.length - o) ?_ ⟨le_rfl, hstart, hbound, ?_⟩ (by omega)
  · rintro o ⟨hlow, hhigh, hbound, hshort⟩
    unfold firstRunTurn
    split_ifs with hlt
    · rw [index_ok hlt, Run.ok_bind]
      refine (runLength_yields data hhigh).bind fun l hl => ?_
      have hmax := hl.1.maximal hl.2 (List.getElem?_eq_getElem hlt) hbound
      have hpos := hmax.pos
      split_ifs with hlong
      · exact Yields.ok ⟨hlow, hlong, hshort, data[o], hmax⟩
      · refine Yields.ok ⟨⟨by omega, hmax.le_length, hmax.boundary_end, ?_⟩, ?_⟩
        · exact hshort.step hmax (Nat.lt_of_not_le hlong)
        · dsimp only
          omega
    · obtain rfl : o = data.length := by omega
      exact Yields.ok hshort
  · intro o l b _ hlow hhigh
    omega

def gap (data : Bytes) (i j : ℕ) : List Segment :=
  if i < j then [.scattered ((data.drop i).take (j - i))] else []

def layout (data : Bytes) : ℕ → List (ℕ × ℕ × UInt8) → List Segment
  | i, [] => gap data i data.length
  | i, (o, l, b) :: runs => gap data i o ++ .repeated l b :: layout data (o + l) runs

/-- All long maximal runs from `i` on, in order. -/
structure LongRuns (data : Bytes) (i : ℕ) (runs : List (ℕ × ℕ × UInt8)) : Prop where
  ordered : runs.Pairwise fun r s => r.1 + r.2.1 ≤ s.1
  complete : ∀ o l b, (o, l, b) ∈ runs ↔
    CRLE_MIN_REPEAT ≤ l ∧ MaximalRun data o l b ∧ i ≤ o

section Layout

variable {data : Bytes} {i j l : ℕ} {b : UInt8} {runs : List (ℕ × ℕ × UInt8)}

theorem longRuns_nil (h : ShortRuns data i data.length) : LongRuns data i [] := by
  refine ⟨.nil, ?_⟩
  intro o l b
  refine iff_of_false List.not_mem_nil ?_
  rintro ⟨hlong, hmax, hi⟩
  have hpos := hmax.pos
  have hend := hmax.le_length
  exact absurd (h o l b hmax hi (by omega)) (Nat.not_lt.mpr hlong)

theorem LongRuns.cons (h : LongRuns data (j + l) runs) (hmax : MaximalRun data j l b)
    (hlong : CRLE_MIN_REPEAT ≤ l) : LongRuns data j ((j, l, b) :: runs) := by
  refine ⟨?_, ?_⟩
  · rw [List.pairwise_cons]
    refine ⟨?_, h.ordered⟩
    rintro ⟨o, m, x⟩ hmem
    exact ((h.complete o m x).mp hmem).2.2
  · intro o m x
    rw [List.mem_cons, h.complete]
    constructor
    · rintro (heq | ⟨hm, hrun, hafter⟩)
      · cases heq
        exact ⟨hlong, hmax, Nat.le_refl _⟩
      · exact ⟨hm, hrun, by omega⟩
    · rintro ⟨hm, hrun, hlow⟩
      rcases Nat.eq_or_lt_of_le hlow with rfl | hlt
      · obtain ⟨rfl, rfl⟩ := hrun.unique hmax
        exact .inl rfl
      · exact .inr ⟨hm, hrun, hmax.disjoint hrun hlt⟩

theorem LongRuns.before (h : LongRuns data j runs) (hshort : ShortRuns data i j) (hij : i ≤ j) :
    LongRuns data i runs := by
  refine ⟨h.ordered, ?_⟩
  intro o l b
  rw [h.complete]
  constructor
  · rintro ⟨hlong, hmax, hlow⟩
    exact ⟨hlong, hmax, hij.trans hlow⟩
  · rintro ⟨hlong, hmax, hlow⟩
    refine ⟨hlong, hmax, ?_⟩
    by_contra hlt
    exact absurd (hshort o l b hmax hlow (Nat.lt_of_not_le hlt)) (Nat.not_lt.mpr hlong)

theorem layout_gap (h : LongRuns data j runs) (hlong : CRLE_MIN_REPEAT ≤ l)
    (hmax : MaximalRun data j l b) (hij : i < j) :
    layout data i runs = .scattered ((data.drop i).take (j - i)) :: layout data j runs := by
  obtain - | ⟨⟨o, m, x⟩, rest⟩ := runs
  · exact absurd ((h.complete j l b).mpr ⟨hlong, hmax, Nat.le_refl _⟩) List.not_mem_nil
  · have hfirst : o = j := by
      rcases List.mem_cons.mp ((h.complete j l b).mpr ⟨hlong, hmax, Nat.le_refl _⟩) with heq | hrest
      · cases heq
        rfl
      · have hord := (List.pairwise_cons.mp h.ordered).1 _ hrest
        have hlow := ((h.complete o m x).mp List.mem_cons_self).2.2
        dsimp only at hord
        omega
    subst hfirst
    simp [layout, gap, hij]

theorem layout_repeated (h : .repeated l b ∈ layout data i runs) : ∃ o, (o, l, b) ∈ runs := by
  induction runs generalizing i with
  | nil =>
    unfold layout gap at h
    split_ifs at h <;> simp at h
  | cons run runs ih =>
    obtain ⟨o, m, x⟩ := run
    rcases List.mem_append.mp h with hgap | hrest
    · unfold gap at hgap
      split_ifs at hgap <;> simp at hgap
    · rcases List.mem_cons.mp hrest with heq | hrest
      · cases heq
        exact ⟨o, List.mem_cons_self⟩
      · obtain ⟨o', hmem⟩ := ih hrest
        exact ⟨o', List.mem_cons_of_mem _ hmem⟩

theorem layout_scattered {bytes : Bytes} (hord : runs.Pairwise fun r s => r.1 + r.2.1 ≤ s.1)
    (hfit : ∀ r ∈ runs, i ≤ r.1 ∧ r.1 ≤ data.length)
    (h : .scattered bytes ∈ layout data i runs) :
    ∃ lo hi, i ≤ lo ∧ lo < hi ∧ hi ≤ data.length ∧ bytes = (data.drop lo).take (hi - lo) ∧
      ∀ r ∈ runs, r.1 + r.2.1 ≤ lo ∨ hi ≤ r.1 := by
  induction runs generalizing i with
  | nil =>
    unfold layout gap at h
    split_ifs at h with hlt
    · cases List.mem_singleton.mp h
      exact ⟨i, data.length, Nat.le_refl _, hlt, Nat.le_refl _, rfl, fun r hr => by cases hr⟩
    · cases h
  | cons run runs ih =>
    obtain ⟨o, m, x⟩ := run
    obtain ⟨hlater, hord⟩ := List.pairwise_cons.mp hord
    obtain ⟨hlow, hhigh⟩ := hfit (o, m, x) List.mem_cons_self
    dsimp only at hlater hlow hhigh
    rcases List.mem_append.mp h with hgap | hrest
    · unfold gap at hgap
      split_ifs at hgap with hlt
      · cases List.mem_singleton.mp hgap
        refine ⟨i, o, Nat.le_refl _, hlt, hhigh, rfl, ?_⟩
        intro r hr
        right
        rcases List.mem_cons.mp hr with rfl | hr
        · exact Nat.le_refl _
        · have hr := hlater r hr
          omega
      · cases hgap
    · rcases List.mem_cons.mp hrest with heq | hrest
      · cases heq
      · have hafter : ∀ r ∈ runs, o + m ≤ r.1 ∧ r.1 ≤ data.length := fun r hr =>
          ⟨hlater r hr, (hfit r (List.mem_cons_of_mem _ hr)).2⟩
        obtain ⟨lo, hi, hlo, hlt, hhi, hbytes, hapart⟩ := ih hord hafter hrest
        refine ⟨lo, hi, by omega, hlt, hhi, hbytes, ?_⟩
        intro r hr
        rcases List.mem_cons.mp hr with rfl | hr
        · exact .inl hlo
        · exact hapart r hr

end Layout

theorem boundary_length (data : Bytes) : Boundary data data.length := by
  rcases Nat.eq_zero_or_pos data.length with hzero | hpos
  · exact .inl hzero
  · refine .inr ?_
    rw [List.getElem?_eq_none (Nat.le_refl _), List.getElem?_eq_getElem (by omega)]
    simp

theorem LongRuns.at_end {data : Bytes} {runs : List (ℕ × ℕ × UInt8)}
    (h : LongRuns data data.length runs) : runs = [] := by
  obtain - | ⟨⟨o, l, b⟩, runs⟩ := runs
  · rfl
  · obtain ⟨-, hmax, hlow⟩ := (h.complete o l b).mp List.mem_cons_self
    have hpos := hmax.pos
    have hend := hmax.le_length
    omega

theorem crleTurn_gap {data : Bytes} {s : CrleState} {j l : ℕ} (hi : s.i < data.length)
    (hfound : firstRun data s.i = .ok (some (j, l))) (hij : s.i < j) (hj : j ≤ data.length) :
    crleTurn data s = .ok (.next
      ⟨j, s.out ++ (Segment.scattered ((data.drop s.i).take (j - s.i))).encode⟩) := by
  rw [crleTurn, if_pos hi, hfound, Run.ok_bind]
  dsimp only
  rw [if_pos hij, slice_ok hij.le hj, Run.ok_bind, emitScattered_eq]

theorem crleTurn_run {data : Bytes} {s : CrleState} {l : ℕ} {b : UInt8} (hi : s.i < data.length)
    (hfound : firstRun data s.i = .ok (some (s.i, l))) (hb : data[s.i]? = some b) :
    crleTurn data s = .ok (.next ⟨s.i + l, s.out ++ (Segment.repeated l b).encode⟩) := by
  rw [crleTurn, if_pos hi, hfound, Run.ok_bind]
  dsimp only
  rw [if_neg (Nat.lt_irrefl _), index_eq_ok.mpr hb, Run.ok_bind, Segment.encode,
    List.append_assoc, List.append_assoc, List.append_assoc]

theorem crleTurn_rest {data : Bytes} {s : CrleState} (hi : s.i < data.length)
    (hfound : firstRun data s.i = .ok none) :
    crleTurn data s = .ok (.next ⟨data.length, s.out ++
      (Segment.scattered ((data.drop s.i).take (data.length - s.i))).encode⟩) := by
  rw [crleTurn, if_pos hi, hfound, Run.ok_bind]
  dsimp only
  rw [slice_ok hi.le le_rfl, Run.ok_bind, emitScattered_eq]

/-- What is still to be written from a position between two runs is the layout from there. -/
theorem crleLoop_layout {data : Bytes} {fuel : ℕ} {s : CrleState}
    (hfuel : data.length - s.i < fuel) (hi : s.i ≤ data.length) (hbound : Boundary data s.i) :
    ∃ runs, LongRuns data s.i runs ∧ iterate (crleTurn data) fuel s =
      .ok (s.out ++ (layout data s.i runs).flatMap Segment.encode) := by
  induction fuel generalizing s with
  | zero => omega
  | succ fuel ih =>
    by_cases hend : s.i = data.length
    · have hturn : crleTurn data s = .ok (.done s.out) := if_neg (by omega)
      refine ⟨[], longRuns_nil ?_, ?_⟩
      · intro o l b _ hlow hhigh
        omega
      · rw [iterate_done hturn, layout, gap, if_neg (by omega), List.flatMap_nil, List.append_nil]
    have hlt : s.i < data.length := by omega
    obtain ⟨found, hfirst, hfound⟩ := firstRun_first hi hbound
    obtain - | ⟨j, l⟩ := found
    · obtain ⟨runs, hruns, hrest⟩ := @ih ⟨data.length, _⟩ (by dsimp only; omega) (Nat.le_refl _)
        (boundary_length data)
      obtain rfl := hruns.at_end
      refine ⟨[], longRuns_nil hfound, ?_⟩
      rw [iterate_next (crleTurn_rest hlt hfirst), hrest]
      simp [layout, gap, hlt]
    · obtain ⟨hij, hlong, hshort, b, hmax⟩ := hfound
      have hmin : CRLE_MIN_REPEAT = 6 := rfl
      have hend := hmax.le_length
      rcases Nat.eq_or_lt_of_le hij with rfl | hij
      · obtain ⟨runs, hruns, hrest⟩ := @ih ⟨s.i + l, _⟩ (by dsimp only; omega) hend
          hmax.boundary_end
        refine ⟨(s.i, l, b) :: runs, hruns.cons hmax hlong, ?_⟩
        rw [iterate_next (crleTurn_run hlt hfirst hmax.byte), hrest]
        simp [layout, gap]
      · obtain ⟨runs, hruns, hrest⟩ := @ih ⟨j, _⟩ (by dsimp only; omega) (by dsimp only; omega)
          hmax.boundary
        refine ⟨runs, hruns.before hshort hij.le, ?_⟩
        rw [iterate_next (crleTurn_gap hlt hfirst hij (by omega)), hrest,
          layout_gap hruns hlong hmax hij]
        simp

def Segment.isScattered : Segment → Bool
  | .scattered _ => true
  | .repeated _ _ => false

/-- The segments are the long maximal runs of the string in order and the non-empty gaps
between them. -/
structure Canonical (data : Bytes) (segments : List Segment) : Prop where
  along : ∃ runs, LongRuns data 0 runs ∧ segments = layout data 0 runs
  nonempty : ∀ segment ∈ segments, segment.expand ≠ []
  separated : segments.IsChain fun a b => ¬ (a.isScattered = true ∧ b.isScattered = true)
  short : ∀ bytes, .scattered bytes ∈ segments → ∀ o b, ¬ RunAt bytes o CRLE_MIN_REPEAT b

section Canonical

variable {data : Bytes} {runs : List (ℕ × ℕ × UInt8)}

theorem layout_separated (i : ℕ) : (layout data i runs).IsChain
    fun a b => ¬ (a.isScattered = true ∧ b.isScattered = true) := by
  induction runs generalizing i with
  | nil =>
    unfold layout gap
    split_ifs <;> simp
  | cons run runs ih =>
    obtain ⟨o, l, b⟩ := run
    have hrest : (.repeated l b :: layout data (o + l) runs : List Segment).IsChain
        fun a b => ¬ (a.isScattered = true ∧ b.isScattered = true) := by
      have hnext := ih (o + l)
      cases hlayout : layout data (o + l) runs with
      | nil => exact .singleton _
      | cons first rest =>
        rw [hlayout] at hnext
        exact .cons_cons (by simp [Segment.isScattered]) hnext
    unfold layout gap
    split_ifs
    · exact .cons_cons (by simp [Segment.isScattered]) hrest
    · exact hrest

theorem LongRuns.scattered (h : LongRuns data 0 runs) {bytes : Bytes}
    (hmem : .scattered bytes ∈ layout data 0 runs) :
    ∃ lo hi, lo < hi ∧ hi ≤ data.length ∧ bytes = (data.drop lo).take (hi - lo) ∧
      ∀ r ∈ runs, r.1 + r.2.1 ≤ lo ∨ hi ≤ r.1 := by
  have hfit : ∀ r ∈ runs, 0 ≤ r.1 ∧ r.1 ≤ data.length := by
    rintro ⟨o, l, b⟩ hr
    have hend := ((h.complete o l b).mp hr).2.1.le_length
    exact ⟨Nat.zero_le _, by dsimp only; omega⟩
  obtain ⟨lo, hi, -, hrest⟩ := layout_scattered h.ordered hfit hmem
  exact ⟨lo, hi, hrest⟩

theorem LongRuns.nonempty (h : LongRuns data 0 runs) {segment : Segment}
    (hmem : segment ∈ layout data 0 runs) : segment.expand ≠ [] := by
  cases segment with
  | scattered bytes =>
    obtain ⟨lo, hi, hlt, hhi, rfl, -⟩ := h.scattered hmem
    apply List.ne_nil_of_length_pos
    rw [Segment.expand, List.length_take, List.length_drop]
    omega
  | repeated count byte =>
    obtain ⟨o, hrun⟩ := layout_repeated hmem
    have hpos := ((h.complete o count byte).mp hrun).2.1.pos
    apply List.ne_nil_of_length_pos
    rwa [Segment.expand, List.length_replicate]

theorem LongRuns.short (h : LongRuns data 0 runs) {bytes : Bytes}
    (hmem : .scattered bytes ∈ layout data 0 runs) (o : ℕ) (b : UInt8) :
    ¬ RunAt bytes o CRLE_MIN_REPEAT b := by
  obtain ⟨lo, hi, hlt, hhi, rfl, hapart⟩ := h.scattered hmem
  intro hrun
  have hmin : CRLE_MIN_REPEAT = 6 := rfl
  have hinside : ∀ k < CRLE_MIN_REPEAT, o + k < hi - lo := by
    intro k hk
    have hlen := (List.getElem?_eq_some_iff.mp (hrun k hk)).1
    rw [List.length_take] at hlen
    omega
  have hwhole : RunAt data (lo + o) CRLE_MIN_REPEAT b := by
    intro k hk
    have hat := hrun k hk
    rw [List.getElem?_take_of_lt (hinside k hk), List.getElem?_drop, ← Nat.add_assoc] at hat
    exact hat
  obtain ⟨o', l', hmax, hlow, hhigh⟩ := hwhole.within (by omega)
  have hlast := hinside 5 (by omega)
  have hrunMem := (h.complete o' l' b).mpr ⟨by omega, hmax, Nat.zero_le _⟩
  rcases hapart _ hrunMem with hbefore | hafter
  · dsimp only at hbefore
    omega
  · dsimp only at hafter
    omega

theorem LongRuns.canonical (h : LongRuns data 0 runs) : Canonical data (layout data 0 runs) :=
  ⟨⟨runs, h, rfl⟩, fun _ hmem => h.nonempty hmem, layout_separated 0, fun _ hmem => h.short hmem⟩

end Canonical

/-- Compression ends, its output is read back to the last byte as segments that expand to the
data, and the segments of a non-empty string are the canonical ones. -/
theorem crleCompress_canonical (data : Bytes) :
    ∃ out segments, crleCompress data = .ok out ∧
      readSegments out.length out = some segments ∧
      segments.flatMap Segment.expand = data ∧ (data ≠ [] → Canonical data segments) := by
  obtain ⟨out, hout, segments, hencode, hexpand⟩ := crleCompress_segments data
  have hread : readSegments out.length out = some segments := by
    rw [hencode]
    exact readSegments_encode segments le_rfl
  refine ⟨out, segments, hout, hread, hexpand, ?_⟩
  intro hne
  obtain ⟨runs, hruns, hloop⟩ := @crleLoop_layout data (data.length + 1) ⟨0, []⟩
    (by dsimp only; omega) (Nat.zero_le _) (.inl rfl)
  rw [crleCompress, if_neg (by simpa using hne), hloop] at hout
  have heq : out = (layout data 0 runs).flatMap Segment.encode := by
    simpa using hout.symm
  have hlayout : readSegments out.length out = some (layout data 0 runs) := by
    rw [heq]
    exact readSegments_encode _ le_rfl
  rw [hread, Option.some.injEq] at hlayout
  rw [hlayout]
  exact hruns.canonical

end MotaTool.Encode
