import MotaTool.Base.Record
import MotaTool.Base.Words
import MotaTool.IntelHex
import Mathlib.Data.List.Induction

/-!
# Flattening an application's Intel HEX file

The data records are collected with the span they cover and then copied, in
their order, into an image of that span. The addresses are added without a
check, so that an addition that does not fit 32 bits is a panic.
-/

namespace MotaTool.Input

open Base Run IntelHex

structure Collected where
  base : ℕ
  segments : List (ℕ × Bytes)
  lo : ℕ
  hi : ℕ

def collectRecord (s : Collected) : Record → Run Collected
  | .data offset value => do
    let addr ← unwrap (checkedAdd 32 s.base offset.toNat)
    let stop ← unwrap (checkedAdd 32 addr value.val.length)
    .ok { s with
      lo := min s.lo addr
      hi := max s.hi stop
      segments := s.segments ++ [(addr, value.val)] }
  | .extendedLinearAddress upper => .ok { s with base := upper.toNat <<< 16 }
  | .extendedSegmentAddress segment => .ok { s with base := segment.toNat <<< 4 }
  | _ => .ok s

def copySegment (lo : ℕ) (out : Bytes) (segment : ℕ × Bytes) : Run Bytes := do
  let start ← unwrap (checkedSub segment.1 lo)
  copyAt out start segment.2

def parseIntelHex (reader : Reader) (bytes : Bytes) : Run Bytes := do
  let text ← context "Intel HEX is not valid UTF-8" (fromUtf8 bytes)
  let (s, sawEof) ← untilEof collectRecord ⟨0, [], 2 ^ 32 - 1, 0⟩ (reader text)
  ensure (s.segments ≠ []) "no data records in Intel HEX"
  ensure sawEof "Intel HEX missing EOF record"
  let span ← unwrap (checkedSub s.hi s.lo)
  s.segments.foldlM (copySegment s.lo) (List.replicate span 0xFF)

structure Collects (s : Collected) (chunks : List (ℕ × Bytes)) : Prop where
  segments : s.segments = chunks
  span : Spans chunks s.lo s.hi ∨ (chunks = [] ∧ s.lo = 2 ^ 32 - 1 ∧ s.hi = 0)

section Collect

variable {s : Collected} {done : List (ℕ × Bytes)} {offset : UInt16} {value : Value}

def Collected.push (s : Collected) (segment : ℕ × Bytes) : Collected :=
  ⟨s.base, s.segments ++ [segment], min s.lo segment.1, max s.hi (segment.1 + segment.2.length)⟩

theorem Collects.push (h : Collects s done) {segment : ℕ × Bytes}
    (hfit : segment.1 + segment.2.length < 2 ^ 32) :
    Collects (s.push segment) (done ++ [segment]) := by
  refine ⟨by rw [Collected.push, h.segments], .inl ?_⟩
  rcases h.span with hspan | ⟨rfl, hlo, hhi⟩
  · exact hspan.append segment
  · simp only [Collected.push, hlo, hhi, List.nil_append, Nat.zero_max]
    rw [Nat.min_eq_right (by omega)]
    exact spans_singleton segment

theorem collectRecord_data (hfit : s.base + offset.toNat + value.val.length < 2 ^ 32) :
    collectRecord s (.data offset value) = .ok (s.push (s.base + offset.toNat, value.val)) := by
  have hstart : checkedAdd 32 s.base offset.toNat = some (s.base + offset.toNat) :=
    if_pos (by omega)
  have hstop : checkedAdd 32 (s.base + offset.toNat) value.val.length =
      some (s.base + offset.toNat + value.val.length) := if_pos hfit
  simp only [collectRecord, hstart, hstop, unwrap, ok_bind, Collected.push]

theorem collectRecord_overflow (h : ¬ s.base + offset.toNat + value.val.length < 2 ^ 32) :
    collectRecord s (.data offset value) = panic := by
  by_cases hstart : s.base + offset.toNat < 2 ^ 32
  · have hstop : checkedAdd 32 (s.base + offset.toNat) value.val.length = none := if_neg h
    simp only [collectRecord, checkedAdd_eq_some.mpr ⟨hstart, rfl⟩, hstop, unwrap, ok_bind]
    rfl
  · have hnone : checkedAdd 32 s.base offset.toNat = none := if_neg hstart
    simp only [collectRecord, hnone, unwrap]
    rfl

theorem collectRecord_other {record : Record} (h : ∀ offset value, record ≠ .data offset value) :
    collectRecord s record = .ok { s with base := nextBase s.base record } := by
  cases record with
  | data offset value => exact absurd rfl (h offset value)
  | endOfFile => rfl
  | extendedSegmentAddress segment => rfl
  | startSegmentAddress cs ip => rfl
  | extendedLinearAddress upper => rfl
  | startLinearAddress address => rfl

theorem collectRecords_fit {records : List Record} (h : Collects s done)
    (hfit : Addressable (placed s.base records)) :
    ∃ s', records.foldlM collectRecord s = .ok s' ∧
      Collects s' (done ++ placed s.base records) := by
  induction records generalizing s done with
  | nil => exact ⟨s, rfl, by rwa [placed, List.append_nil]⟩
  | cons record records ih =>
    rw [List.foldlM_cons]
    obtain ⟨offset, value, rfl⟩ | hother := record.data_or
    · rw [placed_data] at hfit ⊢
      obtain ⟨hhead, htail⟩ := List.forall_mem_cons.mp hfit
      have hrest := ih (h.push hhead) htail
      rw [List.append_assoc, List.singleton_append] at hrest
      rw [collectRecord_data hhead, ok_bind]
      exact hrest
    · rw [placed_other hother] at hfit ⊢
      rw [collectRecord_other hother, ok_bind]
      exact @ih { s with base := nextBase s.base record } done ⟨h.segments, h.span⟩ hfit

theorem collectRecords_overflow {records : List Record}
    (hover : ¬ Addressable (placed s.base records)) :
    records.foldlM collectRecord s = panic := by
  induction records generalizing s with
  | nil => exact absurd (fun _ h => absurd h List.not_mem_nil) hover
  | cons record records ih =>
    rw [List.foldlM_cons]
    obtain ⟨offset, value, rfl⟩ | hother := record.data_or
    · by_cases hhead : s.base + offset.toNat + value.val.length < 2 ^ 32
      · rw [collectRecord_data hhead, ok_bind]
        apply ih
        intro htail
        exact hover (List.forall_mem_cons.mpr ⟨hhead, htail⟩)
      · rw [collectRecord_overflow hhead]
        rfl
    · rw [placed_other hother] at hover
      rw [collectRecord_other hother, ok_bind]
      exact @ih { s with base := nextBase s.base record } hover

end Collect

/-- The image of a span: the last segment to reach an address decides, and holes are erased. -/
def Flattens (chunks : List (ℕ × Bytes)) (out : Bytes) : Prop :=
  ∃ lo hi, Spans chunks lo hi ∧ out.length = hi - lo ∧
    ∀ a, lo ≤ a → a < hi → out[a - lo]? = some ((lastCell chunks a).getD 0xFF)

theorem copySegments_flatten {chunks : List (ℕ × Bytes)} {lo hi : ℕ}
    (hinside : ∀ chunk ∈ chunks, lo ≤ chunk.1 ∧ chunk.1 + chunk.2.length ≤ hi) :
    ∃ out, chunks.foldlM (copySegment lo) (List.replicate (hi - lo) 0xFF) = .ok out ∧
      out.length = hi - lo ∧
      ∀ a, lo ≤ a → a < hi → out[a - lo]? = some ((lastCell chunks a).getD 0xFF) := by
  induction chunks using List.reverseRecOn with
  | nil =>
    refine ⟨_, rfl, List.length_replicate, ?_⟩
    intro a hlow hhigh
    rw [List.getElem?_replicate, if_pos (by omega)]
    rfl
  | append_singleton chunks chunk ih =>
    obtain ⟨out, hrun, hlen, hcells⟩ := ih fun c hc => hinside c (List.mem_append_left _ hc)
    obtain ⟨hlow, hhigh⟩ := hinside chunk (by simp)
    have hstart : checkedSub chunk.1 lo = some (chunk.1 - lo) := if_pos hlow
    obtain ⟨next, hcopy, hnext, hcell⟩ :=
      @copyAt_cells _ (chunk.1 - lo, chunk.2) out (by dsimp only; omega)
    refine ⟨next, ?_, hnext.trans hlen, ?_⟩
    · rw [List.foldlM_append, hrun, ok_bind, List.foldlM_cons, copySegment, hstart, unwrap,
        ok_bind, hcopy]
      rfl
    · intro a hla hah
      rw [hcell, cellAt_shift hlow hla, hcells a hla hah, lastCell_append_singleton]
      cases cellAt chunk a <;> rfl

section Flat

variable {reader : Reader} {bytes : Bytes} {text : String}

theorem parseIntelHex_overflow (htext : fromUtf8 bytes = .ok text)
    (h : ¬ Addressable (placed 0 (leading (reader text)))) :
    parseIntelHex reader bytes = panic := by
  have hrecords := @collectRecords_overflow ⟨0, [], 2 ^ 32 - 1, 0⟩ _ h
  rw [parseIntelHex, context_eq_ok.mpr htext, ok_bind, untilEof_eq, hrecords]
  rfl

theorem parseIntelHex_settles (htext : fromUtf8 bytes = .ok text)
    (h : Addressable (placed 0 (leading (reader text)))) :
    (∃ out records, parseIntelHex reader bytes = .ok out ∧ Ends (reader text) records ∧
      Flattens (placed 0 records) out) ∨
    ((∃ chain, parseIntelHex reader bytes = .error (.error chain)) ∧
      ∀ records, Ends (reader text) records → placed 0 records = []) := by
  have hfresh : Collects ⟨0, [], 2 ^ 32 - 1, 0⟩ [] := ⟨rfl, .inr ⟨rfl, rfl, rfl⟩⟩
  obtain ⟨s, hrun, hcollects⟩ := collectRecords_fit hfresh h
  have hsegments := hcollects.segments
  rw [List.nil_append] at hcollects hsegments
  rw [parseIntelHex, context_eq_ok.mpr htext, ok_bind]
  rcases hcollects.span with hspan | ⟨hempty, -, -⟩
  · have hne : s.segments ≠ [] := by
      rw [hsegments]
      rintro hempty
      obtain ⟨chunk, hmem, -⟩ := hspan.lo.1
      rw [hempty] at hmem
      cases hmem
    rcases untilEof_ends hrun with ⟨hseen, hends⟩ | ⟨hunseen, hnone⟩
    · obtain ⟨out, hout, hlen, hcells⟩ := copySegments_flatten fun chunk => hspan.inside
      refine .inl ⟨out, _, ?_, hends, s.lo, s.hi, hspan, hlen, hcells⟩
      simp only [hseen, ok_bind]
      rw [ensure_of hne, ok_bind, ensure_of trivial, ok_bind, checkedSub, if_pos hspan.le, unwrap,
        ok_bind, hsegments]
      exact hout
    · refine .inr ⟨?_, fun records hends => absurd hends (hnone records)⟩
      rcases hunseen with hseen | ⟨chain, hfail⟩
      · simp only [hseen, ok_bind]
        rw [ensure_of hne]
        exact ⟨_, rfl⟩
      · rw [hfail]
        exact ⟨chain, rfl⟩
  · refine .inr ⟨?_, ?_⟩
    · rcases untilEof_ends hrun with ⟨hseen, -⟩ | ⟨hseen | ⟨chain, hfail⟩, -⟩
      · simp only [hseen, ok_bind, hsegments, hempty]
        exact ⟨_, rfl⟩
      · simp only [hseen, ok_bind, hsegments, hempty]
        exact ⟨_, rfl⟩
      · rw [hfail]
        exact ⟨chain, rfl⟩
    · intro records hends
      rw [(ends_iff.mp hends).1]
      exact hempty

/-- What flattening is meant to do: it returns, and an image it returns is that of the records
before the end of the file. -/
def FlattensFile (run : Run Bytes) (lines : List Line) : Prop :=
  Returns run ∧ ∀ out, run = .ok out → ∃ records, Ends lines records ∧
    Flattens (placed 0 records) out

/-- Flattening does what it is meant to exactly when no data record that it reads ends above
the address space; then it fails only on files that have no data or do not end. -/
theorem parseIntelHex_flattens_iff (htext : fromUtf8 bytes = .ok text) :
    (FlattensFile (parseIntelHex reader bytes) (reader text) ↔
      ∀ chunk ∈ placed 0 (leading (reader text)), chunk.1 + chunk.2.length < 2 ^ 32) ∧
    (Addressable (placed 0 (leading (reader text))) → ∀ records, Ends (reader text) records →
      placed 0 records ≠ [] → ∃ out, parseIntelHex reader bytes = .ok out) := by
  refine ⟨⟨?_, ?_⟩, ?_⟩
  · rintro ⟨hreturns, -⟩
    by_contra hover
    exact hreturns.1 (parseIntelHex_overflow htext hover)
  · intro hfit
    rcases parseIntelHex_settles htext hfit with
      ⟨out, records, hrun, hends, hflat⟩ | ⟨⟨chain, hrun⟩, -⟩
    · rw [hrun]
      refine ⟨returns_ok _, ?_⟩
      intro other hother
      cases hother
      exact ⟨records, hends, hflat⟩
    · rw [hrun]
      refine ⟨by simp [Returns], ?_⟩
      intro other hother
      cases hother
  · intro hfit records hends hne
    rcases parseIntelHex_settles htext hfit with ⟨out, -, hrun, -⟩ | ⟨-, hnone⟩
    · exact ⟨out, hrun⟩
    · exact absurd (hnone records hends) hne

def holedText : String := ":020010000102EB\n:0100140003E8\n:00000001FF\n"

def holedLines : List Line :=
  [.ok (.data 0x10 ⟨[1, 2], by decide⟩), .ok (.data 0x14 (.byte 3)), .ok .endOfFile]

theorem parseIntelHex_flattens_iff_holed :
    FlattensFile (parseIntelHex (listed holedText holedLines) (utf8 holedText)) holedLines ∧
      parseIntelHex (listed holedText holedLines) (utf8 holedText) =
        .ok [1, 2, 0xFF, 0xFF, 3] := by
  have htext : fromUtf8 (utf8 holedText) = .ok holedText := by decide +kernel
  have hfit : ∀ chunk ∈ placed 0 (leading holedLines), chunk.1 + chunk.2.length < 2 ^ 32 := by
    simp [holedLines, leading, placed, Value.byte]
  have hflattens := (@parseIntelHex_flattens_iff (listed holedText holedLines) _ _ htext).1.mpr
  rw [listed_lines] at hflattens
  exact ⟨hflattens hfit, by decide +kernel⟩

/-- Two bytes at either end of the address space: the end of the upper one is no 32-bit
number. -/
def bothEnds : List Line :=
  [.ok (.extendedLinearAddress 0xFFFF), .ok (.data 0xFFFF (.byte 0xAA)),
    .ok (.extendedLinearAddress 0), .ok (.data 0 (.byte 0x01)), .ok .endOfFile]

def bothEndsText : String :=
  ":02000004FFFFFC\n:01FFFF00AA57\n:020000040000FA\n:0100000001FE\n:00000001FF\n"

theorem bothEnds_panics :
    parseIntelHex (listed bothEndsText bothEnds) (utf8 bothEndsText) = .error .panic ∧
      ¬ FlattensFile (parseIntelHex (listed bothEndsText bothEnds) (utf8 bothEndsText))
        bothEnds := by
  have hpanic : parseIntelHex (listed bothEndsText bothEnds) (utf8 bothEndsText) =
      .error .panic := by decide +kernel
  refine ⟨hpanic, ?_⟩
  rintro ⟨hreturns, -⟩
  exact hreturns.1 hpanic

end Flat

end MotaTool.Input
