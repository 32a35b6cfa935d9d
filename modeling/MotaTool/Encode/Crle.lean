import MotaTool.Base.Loop
import MotaTool.Encode.Varint

/-!
# Conditional run-length compression

`crleCompress` scans for the next run of at least six equal bytes, emits the
gap before it as one SCATTERED segment and the run as one REPEATED segment.
The compressed stream is the encoding of a list of segments whose expansion is
the input, and the segment reader recovers that list to the last byte.
-/

namespace MotaTool.Encode

open Base

def CRLE_SCATTERED : UInt8 := 0
def CRLE_REPEATED : UInt8 := 1
def CRLE_MIN_REPEAT : ℕ := 6

def runLength (data : Bytes) (o : ℕ) (b : UInt8) : Run ℕ :=
  iterate (whileTurn (fun l => data[o + l]? == some b) (fun l => .ok (l + 1)))
    (data.length + 1) 0

def firstRunTurn (data : Bytes) (o : ℕ) : Run (Flow ℕ (Option (ℕ × ℕ))) :=
  if o < data.length then do
    let b ← index data o
    let l ← runLength data o b
    if l ≥ CRLE_MIN_REPEAT then .ok (.done (some (o, l))) else .ok (.next (o + l))
  else .ok (.done none)

def firstRun (data : Bytes) (start : ℕ) : Run (Option (ℕ × ℕ)) :=
  iterate (firstRunTurn data) (data.length + 1) start

def emitScattered (out bytes : Bytes) : Bytes :=
  out ++ [CRLE_SCATTERED] ++ crlePackSize bytes.length ++ bytes

structure CrleState where
  i : ℕ
  out : Bytes

def crleTurn (data : Bytes) (s : CrleState) : Run (Flow CrleState Bytes) :=
  if s.i < data.length then do
    match ← firstRun data s.i with
    | none =>
      let rest ← slice data s.i data.length
      .ok (.next ⟨data.length, emitScattered s.out rest⟩)
    | some (j, rlen) =>
      if j > s.i then do
        let gap ← slice data s.i j
        .ok (.next ⟨j, emitScattered s.out gap⟩)
      else do
        let b ← index data s.i
        .ok (.next ⟨s.i + rlen, s.out ++ [CRLE_REPEATED] ++ crlePackSize rlen ++ [b]⟩)
  else .ok (.done s.out)

def crleCompress (data : Bytes) : Run Bytes :=
  if data.isEmpty then .ok ([CRLE_SCATTERED] ++ crlePackSize 0)
  else iterate (crleTurn data) (data.length + 1) ⟨0, []⟩

inductive Segment
  | scattered (bytes : Bytes)
  | repeated (count : ℕ) (byte : UInt8)
  deriving DecidableEq

def Segment.encode : Segment → Bytes
  | .scattered bytes => [CRLE_SCATTERED] ++ crlePackSize bytes.length ++ bytes
  | .repeated count byte => [CRLE_REPEATED] ++ crlePackSize count ++ [byte]

def Segment.expand : Segment → Bytes
  | .scattered bytes => bytes
  | .repeated count byte => List.replicate count byte

def readSegment : Bytes → Option (Segment × Bytes)
  | [] => none
  | kind :: rest => do
    let (count, rest) ← crleUnpackSize rest
    if kind = CRLE_SCATTERED then
      if count ≤ rest.length then some (.scattered (rest.take count), rest.drop count) else none
    else if kind = CRLE_REPEATED then
      match rest with
      | [] => none
      | byte :: rest => some (.repeated count byte, rest)
    else none

def readSegments : ℕ → Bytes → Option (List Segment)
  | _, [] => some []
  | 0, _ => none
  | fuel + 1, stream => do
    let (segment, rest) ← readSegment stream
    let segments ← readSegments fuel rest
    some (segment :: segments)

def crleExpand (stream : Bytes) : Option Bytes :=
  (readSegments stream.length stream).map (List.flatMap Segment.expand)

theorem Segment.encode_ne_nil (segment : Segment) : segment.encode ≠ [] := by
  cases segment <;> simp [Segment.encode]

theorem readSegment_encode (segment : Segment) (rest : Bytes) :
    readSegment (segment.encode ++ rest) = some (segment, rest) := by
  cases segment with
  | scattered bytes =>
    simp [Segment.encode, readSegment, crleUnpackSize_crlePackSize]
  | repeated count byte =>
    simp [Segment.encode, readSegment, crleUnpackSize_crlePackSize, CRLE_REPEATED,
      CRLE_SCATTERED]

theorem readSegments_encode (segments : List Segment) {fuel : ℕ}
    (hfuel : (segments.flatMap Segment.encode).length ≤ fuel) :
    readSegments fuel (segments.flatMap Segment.encode) = some segments := by
  induction segments generalizing fuel with
  | nil => cases fuel <;> rfl
  | cons segment segments ih =>
    have hpos : 0 < segment.encode.length :=
      List.length_pos_iff.mpr segment.encode_ne_nil
    rw [List.flatMap_cons, List.length_append] at hfuel
    obtain ⟨fuel, rfl⟩ : ∃ f, fuel = f + 1 := ⟨fuel - 1, by omega⟩
    obtain ⟨b, tail, hcons⟩ := List.exists_cons_of_ne_nil segment.encode_ne_nil
    have hread := readSegment_encode segment (segments.flatMap Segment.encode)
    rw [List.flatMap_cons]
    rw [hcons] at hread ⊢
    simp only [List.cons_append] at hread ⊢
    have hrest := @ih fuel (by omega)
    simp [readSegments, hread, hrest]

theorem crleExpand_encode (segments : List Segment) :
    crleExpand (segments.flatMap Segment.encode) =
      some (segments.flatMap Segment.expand) := by
  rw [crleExpand, readSegments_encode segments le_rfl, Option.map_some]

def RunAt (data : Bytes) (o l : ℕ) (b : UInt8) : Prop := ∀ k < l, data[o + k]? = some b

theorem RunAt.le_length {data : Bytes} {o l : ℕ} {b : UInt8} (h : RunAt data o l b)
    (ho : o ≤ data.length) : o + l ≤ data.length := by
  by_contra hlt
  have hk := h (data.length - o) (by omega)
  rw [List.getElem?_eq_none (by omega)] at hk
  cases hk

theorem RunAt.take_add {data : Bytes} {o l : ℕ} {b : UInt8} (h : RunAt data o l b)
    (ho : o ≤ data.length) : data.take (o + l) = data.take o ++ List.replicate l b := by
  have hlen := h.le_length ho
  rw [List.take_add]
  congr 1
  refine List.eq_replicate_iff.mpr ⟨by simp; omega, fun c hc => ?_⟩
  obtain ⟨k, hk, rfl⟩ := List.getElem_of_mem hc
  have hkl : k < l := by simp at hk; omega
  have hat := h k hkl
  rw [List.getElem?_eq_getElem (by omega)] at hat
  simpa using hat

theorem runLength_yields (data : Bytes) {o : ℕ} {b : UInt8} (ho : o ≤ data.length) :
    Yields (runLength data o b) fun l => RunAt data o l b ∧ data[o + l]? ≠ some b := by
  refine (iterate_while_yields (fun l => RunAt data o l b) (fun l => data.length - o - l)
    (fun l hl hc => ?_) (fun k hk => absurd hk (Nat.not_lt_zero k)) (by omega)).mono
    fun l hl => ⟨hl.1, by simpa using hl.2⟩
  have hat : data[o + l]? = some b := by simpa using hc
  have hlt : o + l < data.length := by
    by_contra hge
    rw [List.getElem?_eq_none (by omega)] at hat
    cases hat
  refine Yields.ok ⟨fun k hk => ?_, by omega⟩
  rcases Nat.lt_succ_iff_lt_or_eq.mp hk with hk | rfl
  · exact hl k hk
  · exact hat

def FoundRun (data : Bytes) (start : ℕ) : Option (ℕ × ℕ) → Prop
  | none => True
  | some (j, l) => start ≤ j ∧ j < data.length ∧ CRLE_MIN_REPEAT ≤ l ∧
      ∃ b, data[j]? = some b ∧ RunAt data j l b

theorem firstRun_yields (data : Bytes) {start : ℕ} (hstart : start ≤ data.length) :
    Yields (firstRun data start) (FoundRun data start) := by
  refine iterate_yields (fun o => start ≤ o ∧ o ≤ data.length) _ (fun o => data.length - o)
    (fun o ho => ?_) ⟨le_rfl, hstart⟩ (by omega)
  unfold firstRunTurn
  split_ifs with hlt
  · rw [index_ok hlt, Run.ok_bind]
    refine (runLength_yields data ho.2).bind fun l hl => ?_
    have hat : data[o]? = some data[o] := List.getElem?_eq_getElem hlt
    have hend := hl.1.le_length ho.2
    have hpos : 0 < l := by
      rcases Nat.eq_zero_or_pos l with rfl | h
      · exact absurd hat hl.2
      · exact h
    split_ifs with hlong
    · exact Yields.ok ⟨ho.1, hlt, hlong, data[o], hat, hl.1⟩
    · exact Yields.ok ⟨⟨by omega, hend⟩, by dsimp only; omega⟩
  · exact Yields.ok trivial

theorem emitScattered_eq (out bytes : Bytes) :
    emitScattered out bytes = out ++ (Segment.scattered bytes).encode := by
  simp [emitScattered, Segment.encode]

def CrleInv (data : Bytes) (s : CrleState) : Prop :=
  s.i ≤ data.length ∧ ∃ segments : List Segment,
    s.out = segments.flatMap Segment.encode ∧ segments.flatMap Segment.expand = data.take s.i

theorem CrleInv.push {data : Bytes} {s : CrleState} (h : CrleInv data s) {j : ℕ}
    (hj : j ≤ data.length) (segment : Segment)
    (hexpand : data.take j = data.take s.i ++ segment.expand) :
    CrleInv data ⟨j, s.out ++ segment.encode⟩ := by
  obtain ⟨-, segments, hout, hdata⟩ := h
  refine ⟨hj, segments ++ [segment], ?_, ?_⟩
  · simp [hout]
  · simp [hdata, hexpand]

theorem crleTurn_yields {data : Bytes} {s : CrleState} (h : CrleInv data s) :
    Yields (crleTurn data s) (Flow.Progress (CrleInv data)
      (fun out => ∃ segments : List Segment, out = segments.flatMap Segment.encode ∧
        segments.flatMap Segment.expand = data) (fun s => data.length - s.i) s) := by
  have hgap : ∀ j, s.i ≤ j → data.take j = data.take s.i ++ (data.drop s.i).take (j - s.i) := by
    intro j hj
    rw [← List.take_add]
    congr 1
    omega
  unfold crleTurn
  split_ifs with hlt
  · refine (firstRun_yields data h.1).bind fun found hfound => ?_
    rcases found with - | ⟨j, rlen⟩
    · simp only [slice_ok h.1 le_rfl, Run.ok_bind]
      refine Yields.ok ⟨?_, by simp only; omega⟩
      rw [emitScattered_eq]
      exact h.push le_rfl _ (hgap _ h.1)
    · obtain ⟨hij, hjlt, hlong, b, hb, hrun⟩ := hfound
      simp only
      split_ifs with hgt
      · rw [slice_ok hij hjlt.le, Run.ok_bind]
        refine Yields.ok ⟨?_, by simp only; omega⟩
        rw [emitScattered_eq]
        exact h.push hjlt.le _ (hgap _ hij)
      · obtain rfl : j = s.i := by omega
        have hend := hrun.le_length h.1
        have hmin : CRLE_MIN_REPEAT = 6 := rfl
        rw [index_eq_ok.mpr hb, Run.ok_bind]
        refine Yields.ok ⟨?_, by simp only; omega⟩
        have hpush := h.push hend (.repeated rlen b) (hrun.take_add h.1)
        simpa [Segment.encode] using hpush
  · have hi : s.i = data.length := by have := h.1; omega
    obtain ⟨-, segments, hout, hdata⟩ := h
    exact Yields.ok ⟨segments, hout, by rw [hdata, hi, List.take_length]⟩

theorem crleCompress_segments (data : Bytes) :
    Yields (crleCompress data) fun out => ∃ segments : List Segment,
      out = segments.flatMap Segment.encode ∧ segments.flatMap Segment.expand = data := by
  unfold crleCompress
  split_ifs with hempty
  · have hnil : data = [] := by simpa using hempty
    exact Yields.ok ⟨[.scattered []], by simp [Segment.encode], by simp [Segment.expand, hnil]⟩
  · exact iterate_yields (CrleInv data) _ (fun s => data.length - s.i)
      (fun s hs => crleTurn_yields hs) ⟨Nat.zero_le _, [], rfl, by simp⟩ (by simp)

theorem crleCompress_expands (data : Bytes) :
    Yields (crleCompress data) fun out => crleExpand out = some data := by
  refine (crleCompress_segments data).mono fun out hout => ?_
  obtain ⟨segments, rfl, hdata⟩ := hout
  rw [crleExpand_encode, hdata]

end MotaTool.Encode
