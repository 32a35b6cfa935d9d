import MotaTool.Encode.CrleSpec
import MotaTool.Encode.InPlaceSpec
import MotaTool.Encode.ScanSpec

/-!
# How large a patch can get

A run that is worth a segment pays for the gap before it, so run-length
compression adds a few bytes to any string. A triple is emitted before the end
of the new string only for a match that is nine bytes longer than nothing, so
the number of triples is at most a ninth of the bytes they encode. A patch is
therefore never much larger than what it encodes, however the two strings differ.
-/

namespace MotaTool.Encode

open Base

/-- The bytes that a signed length of magnitude at most `n` takes. -/
def lengthWidth (n : ℕ) : ℕ := (packSize n).length

theorem packSizeLoop_length_pos (fuel v : ℕ) (byte : UInt8) :
    0 < (packSizeLoop fuel v byte).length := by
  cases fuel with
  | zero => exact Nat.one_pos
  | succ fuel =>
    rw [packSizeLoop]
    split_ifs <;> simp

theorem packSizeLoop_length_mono {fuel fuel' v v' : ℕ} {byte byte' : UInt8} (hv : v ≤ v')
    (hfuel : v' ≤ fuel') :
    (packSizeLoop fuel v byte).length ≤ (packSizeLoop fuel' v' byte').length := by
  induction fuel generalizing fuel' v v' byte byte' with
  | zero => exact packSizeLoop_length_pos fuel' v' byte'
  | succ fuel ih =>
    rw [packSizeLoop]
    split_ifs with hpos
    · obtain ⟨fuel', rfl⟩ : ∃ f, fuel' = f + 1 := ⟨fuel' - 1, by omega⟩
      have hshift := Nat.shiftRight_eq_div_pow v 7
      have hshift' := Nat.shiftRight_eq_div_pow v' 7
      have hrest := @ih fuel' (v >>> 7) (v' >>> 7) (UInt8.ofNat v &&& 0x7f)
        (UInt8.ofNat v' &&& 0x7f) (by omega) (by omega)
      rw [packSizeLoop, if_pos (by omega), List.length_cons, List.length_cons]
      exact Nat.succ_le_succ hrest
    · exact packSizeLoop_length_pos fuel' v' byte'

theorem packSize_length_le {value : ℤ} {n : ℕ} (h : value.natAbs ≤ n) :
    (packSize value).length ≤ lengthWidth n := by
  have hshift := Nat.shiftRight_eq_div_pow value.natAbs 6
  have hshift' := Nat.shiftRight_eq_div_pow n 6
  exact packSizeLoop_length_mono (by rw [Int.natAbs_natCast]; omega)
    (by rw [Int.natAbs_natCast]; omega)

/-- Images of at most a mebibyte have lengths of three bytes. -/
example : lengthWidth (2 ^ 20 - 1) = 3 := by decide

theorem crlePackLoop_length (fuel v : ℕ) : (crlePackLoop fuel v).length ≤ v := by
  induction fuel generalizing v with
  | zero => exact Nat.zero_le v
  | succ fuel ih =>
    rw [crlePackLoop]
    split_ifs with hpos
    · have hshift := Nat.shiftRight_eq_div_pow v 7
      have hnext := ih (v >>> 7)
      rw [List.length_cons]
      omega
    · exact Nat.zero_le v

theorem crlePackSize_length (v : ℕ) : (crlePackSize v).length ≤ 2 + v / 2 ^ 14 ∧
    (v < 2 ^ 7 → (crlePackSize v).length = 1) := by
  simp only [crlePackSize, List.length_modify, List.length_cons]
  have hshift := Nat.shiftRight_eq_div_pow v 7
  have hshift' := Nat.shiftRight_eq_div_pow (v >>> 7) 7
  have hloop := crlePackLoop_length (v - 1) (v >>> 7 >>> 7)
  cases v with
  | zero => simp [crlePackLoop]
  | succ v =>
    rw [crlePackLoop]
    rw [Nat.add_sub_cancel] at hloop
    split_ifs with hpos
    · rw [List.length_cons]
      omega
    · rw [List.length_nil]
      omega

theorem crlePackSize_length_le {v n : ℕ} (h : v ≤ n) :
    (crlePackSize v).length ≤ lengthWidth n := by
  have hloop : ∀ fuel fuel' u u' byte, u ≤ u' → u' ≤ fuel' →
      (crlePackLoop fuel u).length + 1 ≤ (packSizeLoop fuel' u' byte).length := by
    intro fuel
    induction fuel with
    | zero => exact fun fuel' u u' byte _ _ => packSizeLoop_length_pos fuel' u' byte
    | succ fuel ih =>
      intro fuel' u u' byte hu hfuel
      rw [crlePackLoop]
      split_ifs with hpos
      · obtain ⟨fuel', rfl⟩ : ∃ f, fuel' = f + 1 := ⟨fuel' - 1, by omega⟩
        have hshift := Nat.shiftRight_eq_div_pow u 7
        have hshift' := Nat.shiftRight_eq_div_pow u' 7
        rw [packSizeLoop, if_pos (by omega), List.length_cons, List.length_cons]
        exact Nat.succ_le_succ (ih _ _ _ _ (by omega) (by omega))
      · exact packSizeLoop_length_pos fuel' u' byte
  have hshift := Nat.shiftRight_eq_div_pow v 7
  have hshift' := Nat.shiftRight_eq_div_pow n 6
  simp only [crlePackSize, List.length_modify, List.length_cons, lengthWidth, packSize]
  rw [Int.natAbs_natCast]
  exact hloop _ _ _ _ _ (by omega) (by omega)

theorem scattered_length (bytes : Bytes) :
    (Segment.scattered bytes).encode.length ≤ bytes.length + bytes.length / 2 ^ 14 + 3 := by
  have hsize := (crlePackSize_length bytes.length).1
  simp only [Segment.encode, List.length_append, List.length_singleton]
  omega

/-- A run that is long enough for a segment of its own saves three bytes. -/
theorem repeated_length {l : ℕ} (b : UInt8) (h : CRLE_MIN_REPEAT ≤ l) :
    (Segment.repeated l b).encode.length + 3 ≤ l := by
  have hmin : CRLE_MIN_REPEAT = 6 := rfl
  obtain ⟨hsize, hshort⟩ := crlePackSize_length l
  simp only [Segment.encode, List.length_append, List.length_singleton]
  by_cases hl : l < 2 ^ 7
  · rw [hshort hl]
    omega
  · omega

theorem gap_length (data : Bytes) (i j : ℕ) : ((gap data i j).flatMap Segment.encode).length ≤
    ((gap data i j).flatMap Segment.expand).length +
      ((gap data i j).flatMap Segment.expand).length / 2 ^ 14 + 3 := by
  unfold gap
  split_ifs
  · simp only [List.flatMap_cons, List.flatMap_nil, List.append_nil]
    exact scattered_length _
  · simp

/-- Those three bytes pay for the segment of a gap. -/
theorem layout_length {data : Bytes} {i : ℕ} {runs : List (ℕ × ℕ × UInt8)}
    (h : ∀ r ∈ runs, CRLE_MIN_REPEAT ≤ r.2.1) :
    ((layout data i runs).flatMap Segment.encode).length ≤
      ((layout data i runs).flatMap Segment.expand).length +
        ((layout data i runs).flatMap Segment.expand).length / 2 ^ 14 + 3 := by
  induction runs generalizing i with
  | nil => exact gap_length data i data.length
  | cons run runs ih =>
    obtain ⟨o, l, b⟩ := run
    obtain ⟨hlong, hruns⟩ := List.forall_mem_cons.mp h
    have hrun : (Segment.repeated l b).encode.length + 3 ≤ l := repeated_length b hlong
    have hbefore := gap_length data i o
    have hrest := @ih (o + l) hruns
    simp only [layout, List.flatMap_append, List.flatMap_cons, List.length_append]
    rw [show (Segment.repeated l b).expand.length = l from List.length_replicate]
    omega

def crleBound (n : ℕ) : ℕ := n + n / 2 ^ 14 + 3

theorem crleCompress_layout {data : Bytes} (hne : data ≠ []) : ∃ runs,
    LongRuns data 0 runs ∧ (layout data 0 runs).flatMap Segment.expand = data ∧
      crleCompress data = .ok ((layout data 0 runs).flatMap Segment.encode) := by
  obtain ⟨out, hout, segments, hencode, hexpand⟩ := crleCompress_segments data
  obtain ⟨runs, hruns, hloop⟩ := @crleLoop_layout data (data.length + 1) ⟨0, []⟩
    (by dsimp only; omega) (Nat.zero_le _) (.inl rfl)
  rw [List.nil_append] at hloop
  have hcompress : crleCompress data = .ok ((layout data 0 runs).flatMap Segment.encode) := by
    rw [crleCompress, if_neg (by simpa using hne), hloop]
  rw [hcompress, Except.ok.injEq] at hout
  -- the segments that expand to the data are those of the layout
  have hread := readSegments_encode segments (Nat.le_refl _)
  rw [← hencode, ← hout, readSegments_encode _ (Nat.le_refl _), Option.some.injEq] at hread
  exact ⟨runs, hruns, by rw [hread, hexpand], hcompress⟩

theorem crleCompress_length (data : Bytes) :
    Yields (crleCompress data) fun out => out.length ≤ crleBound data.length := by
  by_cases hne : data = []
  · subst hne
    exact Yields.ok (by decide)
  obtain ⟨runs, hruns, hexpand, hcompress⟩ := crleCompress_layout hne
  have hlength := @layout_length data 0 runs fun r hr => ((hruns.complete _ _ _).mp hr).1
  rw [hexpand] at hlength
  exact ⟨_, hcompress, hlength⟩

theorem layout_run_length {data : Bytes} {i o l : ℕ} {b : UInt8} {runs : List (ℕ × ℕ × UInt8)}
    (h : ∀ r ∈ runs, CRLE_MIN_REPEAT ≤ r.2.1) (hmem : (o, l, b) ∈ runs) :
    ∃ rest, ((layout data i runs).flatMap Segment.expand).length = rest + l ∧
      ((layout data i runs).flatMap Segment.encode).length ≤
        rest + rest / 2 ^ 14 + 6 + (Segment.repeated l b).encode.length := by
  induction runs generalizing i with
  | nil => cases hmem
  | cons run runs ih =>
    obtain ⟨o', l', b'⟩ := run
    obtain ⟨hlong, hruns⟩ := List.forall_mem_cons.mp h
    have hbefore := gap_length data i o'
    have hexpand : (Segment.repeated l' b').expand.length = l' := List.length_replicate
    simp only [layout, List.flatMap_append, List.flatMap_cons, List.length_append, hexpand]
    rcases List.mem_cons.mp hmem with heq | hmem
    · cases heq
      have hrest := @layout_length data (o + l) runs hruns
      exact ⟨_, by rw [Nat.add_comm l, ← Nat.add_assoc], by omega⟩
    · have hrun : (Segment.repeated l' b').encode.length + 3 ≤ l' := repeated_length b' hlong
      obtain ⟨rest, hlength, hrest⟩ := @ih (o' + l') hruns hmem
      refine ⟨((gap data i o').flatMap Segment.expand).length + (l' + rest), ?_, ?_⟩
      · rw [hlength]
        omega
      · omega

theorem crleCompress_run_length {data : Bytes} {o l : ℕ} {b : UInt8} (h : RunAt data o l b)
    (hlong : CRLE_MIN_REPEAT ≤ l) : Yields (crleCompress data) fun out =>
      out.length ≤ crleBound (data.length - l) + 5 + lengthWidth data.length := by
  have hmin : CRLE_MIN_REPEAT = 6 := rfl
  obtain ⟨o', l', hmax, hlow, hcover⟩ := h.within (by omega)
  have hne : data ≠ [] := List.ne_nil_of_length_pos (by
    have hend := hmax.le_length
    omega)
  obtain ⟨runs, hruns, hexpand, hcompress⟩ := crleCompress_layout hne
  obtain ⟨rest, hlength, hout⟩ := @layout_run_length data 0 o' l' b runs
    (fun r hr => ((hruns.complete _ _ _).mp hr).1)
    ((hruns.complete o' l' b).mpr ⟨by omega, hmax, Nat.zero_le _⟩)
  refine ⟨_, hcompress, ?_⟩
  rw [hexpand] at hlength
  have hwidth := @crlePackSize_length_le l' data.length (by omega)
  simp only [Segment.encode, List.length_append, List.length_singleton] at hout
  rw [crleBound]
  omega

section Turns

variable {sa : List ℕ} {old new body : Bytes}

/-- What an outer turn makes of the state in which its scan ends: it emits the triple of the two
regions around it, or keeps scanning. Before the end of the bytes it emits only for a match that
is more than eight bytes longer than the score. -/
inductive Turned (old new : Bytes) (s : Diffing) (t : Scan) : Diffing → Prop
  | keeps : t.scan < new.length → t.len = t.oldscore →
      Turned old new s t { s with scan := t.scan, len := t.len, pos := t.pos }
  | emits {lenf lenb : ℤ} {r : ℤ × ℤ} :
      (t.scan < new.length → 0 ≤ t.oldscore ∧ t.oldscore + 8 < t.len) →
      forwardExtend old new t.scan s.lastscan s.lastpos = .ok lenf →
      backwardExtend old new t.scan t.pos s.lastscan = .ok lenb →
      resolveOverlap old new t.scan t.pos s.lastscan s.lastpos lenf lenb = .ok r →
      Regions old new t.scan t.pos s.lastscan s.lastpos r →
      Turned old new s t ⟨t.scan, t.len, t.pos, t.scan - r.2, t.pos - r.2, t.pos - t.scan,
        s.body ++ Edit.encode (regionEdit old new s t r)⟩

structure Settles (old new : Bytes) (lastoffset : ℤ) (t : Scan) : Prop where
  settled : t.settled = true
  score : t.oldscore = hits old new lastoffset t.scan t.scsc
  low : 0 ≤ t.scan
  covered : t.scan + t.len ≤ t.scsc
  inside : t.scsc ≤ new.length

theorem DiffInv.settles (hsa : Indexes sa old) {s : Diffing} (h : DiffInv old new body s)
    (hlt : s.scan < new.length) {t : Scan}
    (ht : iterate (scanTurn sa old new s.lastoffset) (new.length + 1) s.entry = .ok t)
    (hin : t.scan < new.length) : Settles old new s.lastoffset t := by
  have hstart := h.lastscan
  have hlen := h.len
  have hoff := h.offset
  obtain ⟨u, hu, hdone⟩ := iterate_reaches ht
  have hinv : ScanInv old new s.lastoffset (s.scan + s.len) u :=
    hu.invariant _ (h.entry hlt) fun v w hv hvw =>
      ((scanTurn_yields hsa (by omega) (by omega) hv).of_ok hvw).1
  by_cases hend : u.scan < new.length
  · obtain ⟨t', ht', hpost⟩ := h.breakTests hsa hlt hu hend
    have hsearched := (breakTest_searched hsa (by omega) (by omega) hend hinv).of_ok ht'
    obtain ⟨rfl, hsettled⟩ := scanTurn_breaks hend ht' hdone
    have hlow := hinv.low
    have hscan := hsearched.scan
    have hfits := hsearched.fits
    have hhigh := hsearched.high
    have hscsc := hinv.scscHigh
    exact ⟨hsettled, hpost.score, by omega, hsearched.covered, by omega⟩
  · rw [scanTurn, if_neg hend] at hdone
    cases hdone
    exact absurd hin hend

theorem bsdiffTurn_turned (hsa : Indexes sa old) {s : Diffing} (h : DiffInv old new body s)
    (hlt : s.scan < new.length) : ∃ t s',
      iterate (scanTurn sa old new s.lastoffset) (new.length + 1) s.entry = .ok t ∧
      ScanPost old new (s.scan + s.len) t ∧ Turned old new s t s' ∧
      bsdiffTurn sa old new s = .ok (.next s') := by
  obtain ⟨hls, hlsScan⟩ := h.lastscan
  obtain ⟨hlp, hlpOld⟩ := h.lastpos
  have hlen := h.len
  have hoffset := h.offset
  obtain ⟨t, ht, hpost⟩ := @scan_yields old new s.lastoffset (s.scan + s.len) sa hsa (by omega)
    (by omega) (h.resume hlt) s.len s.pos hlen h.pos
  have hturn : bsdiffTurn sa old new s = iterate (scanTurn sa old new s.lastoffset)
      (new.length + 1) s.entry >>= _ := if_pos hlt
  obtain ⟨htpos, htold⟩ := hpost.pos
  have htlow := hpost.low
  change iterate _ _ s.entry = .ok t at ht
  rw [hturn, ht, Run.ok_bind]
  by_cases hemit : t.len ≠ t.oldscore ∨ t.scan = new.length
  · obtain ⟨lenf, hforward, hf⟩ := forwardExtend_yields hls (by omega) hpost.high hlp hlpOld
    obtain ⟨lenb, hbackward, hb⟩ := backwardExtend_yields hls (by omega) hpost.high htpos htold
    obtain ⟨r, hresolve, hr⟩ := resolveOverlap_yields hls hpost.high hlp htold hf hb
    rw [if_pos hemit, hforward, Run.ok_bind, hbackward, Run.ok_bind, hresolve, Run.ok_bind]
    dsimp only
    rw [emit_ok hls hlp hpost.high hr]
    refine ⟨t, _, rfl, hpost, .emits (fun hin => ?_) hforward hbackward hresolve hr, rfl⟩
    have hscore := hemit.resolve_right hin.ne
    obtain ⟨hsettled, hcount, -⟩ := h.settles hsa hlt ht hin
    simp only [Scan.settled, decide_eq_true_eq] at hsettled
    omega
  · rw [if_neg hemit]
    rw [not_or, not_not] at hemit
    exact ⟨t, _, rfl, hpost, .keeps (lt_of_le_of_ne hpost.high hemit.2) hemit.1, rfl⟩

/-- The bytes of a script for `n` bytes with lengths of `w` bytes at most. -/
def scriptBound (w n : ℕ) : ℕ := n + (n / 9 + 1) * (3 * w)

theorem Edit.encode_length {e : Edit UInt8} {bound : ℕ} (hsize : e.size ≤ bound)
    (hseek : e.seek.natAbs ≤ bound) :
    (Edit.encode e).length ≤ e.size + 3 * lengthWidth bound := by
  rw [Edit.size] at hsize ⊢
  have hdiff := @packSize_length_le e.diff.length bound (by omega)
  have hextra := @packSize_length_le e.extra.length bound (by omega)
  have hseek := packSize_length_le hseek
  simp only [Edit.encode, List.length_append]
  omega

/-- The body so far ends with a script, of at most one triple for nine bytes that the scan has
passed and one more at the end. -/
def Priced (new body : Bytes) (w : ℕ) (s : Diffing) : Prop :=
  ∃ edits : List (Edit UInt8), s.body = body ++ edits.flatMap Edit.encode ∧
    s.body.length ≤ body.length + s.lastscan.toNat + edits.length * (3 * w) ∧
    9 * edits.length ≤ new.length + 9 ∧ (s.scan < new.length → 9 * edits.length ≤ s.scan + s.len)

structure Scripted (w n : ℕ) (body out : Bytes) (edits : List (Edit UInt8)) : Prop where
  bytes : out = body ++ edits.flatMap Edit.encode
  count : 9 * edits.length ≤ n + 9
  length : out.length ≤ body.length + scriptBound w n

theorem Turned.priced {s s' : Diffing} {t : Scan} {bound : ℕ} (h : Turned old new s t s')
    (hinv : DiffInv old new body s) (hlt : s.scan < new.length)
    (hpost : ScanPost old new (s.scan + s.len) t) (hold : old.length ≤ bound)
    (hnew : new.length ≤ bound) (hs : Priced new body (lengthWidth bound) s) :
    Priced new body (lengthWidth bound) s' := by
  obtain ⟨edits, hbytes, hbody, hmost, hcount⟩ := hs
  obtain ⟨hlow, hhigh, hlen, hpos, hsettled⟩ := hpost
  specialize hcount hlt
  cases h with
  | keeps hin =>
    have hresume := hsettled hin
    exact ⟨edits, hbytes, hbody, hmost, fun _ => by dsimp only; omega⟩
  | @emits lenf lenb r hworth hforward hbackward hresolve hr =>
    obtain ⟨hls, hlsScan⟩ := hinv.lastscan
    obtain ⟨hlp, hlpOld⟩ := hinv.lastpos
    have happlies := (regionEdit_applies hls hlp hhigh hr).out_length
    obtain ⟨hfront, hback, hapart, hfold, hbold, hlast⟩ := hr
    dsimp only at happlies
    rw [List.length_take, List.length_take, Nat.min_eq_left (by omega),
      Nat.min_eq_left (by omega), Nat.add_assoc] at happlies
    have hsize : (regionEdit old new s t r).size = (t.scan - r.2).toNat - s.lastscan.toNat := by
      rw [Edit.size]
      omega
    have hseek : (regionEdit old new s t r).seek = (t.pos - r.2) - (s.lastpos + r.1) := rfl
    have hedit := @Edit.encode_length (regionEdit old new s t r) bound (by omega) (by omega)
    refine ⟨edits ++ [regionEdit old new s t r], ?_, ?_, ?_, ?_⟩
    · dsimp only
      rw [hbytes, List.flatMap_append, List.flatMap_singleton, List.append_assoc]
    · dsimp only
      rw [List.length_append, List.length_append, List.length_singleton, Nat.succ_mul]
      omega
    · rw [List.length_append, List.length_singleton]
      omega
    · intro hin
      have hnine := hworth hin
      dsimp only
      rw [List.length_append, List.length_singleton]
      omega

theorem bsdiff_scripted (old new body : Bytes) {bound : ℕ} (hold : old.length ≤ bound)
    (hnew : new.length ≤ bound) : Yields (bsdiff old new body) fun out =>
      ∃ edits, Scripted (lengthWidth bound) new.length body out edits := by
  refine (suffixArrayWithSentinel_yields old).bind fun sa hsa => ?_
  refine iterate_yields
    (fun s => DiffInv old new body s ∧ Priced new body (lengthWidth bound) s) _ (diffMeasure new)
    ?_ ⟨DiffInv.initial old new body, [], by simp, by simp, by simp, fun _ => by simp⟩ ?_
  · rintro s ⟨hinv, hpriced⟩
    by_cases hlt : s.scan < new.length
    · obtain ⟨t, s', -, hpost, hturned, hturn⟩ := bsdiffTurn_turned hsa hinv hlt
      have hnext := (bsdiffTurn_yields hsa hinv).of_ok hturn
      exact ⟨_, hturn, ⟨hnext.1, hturned.priced hinv hlt hpost hold hnew hpriced⟩, hnext.2⟩
    · obtain ⟨edits, hbytes, hbody, hmost, -⟩ := hpriced
      have hscan := hinv.scan
      have hlastscan := hinv.lastscan
      have hcost := Nat.mul_le_mul_right (3 * lengthWidth bound)
        (show edits.length ≤ new.length / 9 + 1 by omega)
      have hlength : s.body.length ≤
          body.length + scriptBound (lengthWidth bound) new.length := by
        rw [scriptBound]
        omega
      rw [bsdiffTurn, if_neg hlt]
      exact Yields.ok ⟨edits, hbytes, hmost, hlength⟩
  · simp only [diffMeasure]
    split_ifs <;> omega

end Turns

section Patches

variable {old new : Bytes} {mem seg : ℕ}

theorem sequentialBody_scripted (old new : Bytes) : Yields (sequentialBody old new) fun body =>
    ∃ edits, Scripted (lengthWidth (max old.length new.length)) new.length (packSize 0) body
      edits := by
  unfold sequentialBody
  split_ifs with hempty
  · exact Yields.ok ⟨[], by simp, by simp, by omega⟩
  · exact bsdiff_scripted old new (packSize 0) (le_max_left _ _) (le_max_right _ _)

/-- The streams of `k` segments, each with its marker and one more triple. -/
def segmentsBound (w k n : ℕ) : ℕ := n + n / 9 * (3 * w) + k * (1 + 3 * w)

def segmentStream (edits : List (Edit UInt8)) : Bytes := packSize 0 ++ edits.flatMap Edit.encode

/-- The streams of segments of `seg` bytes, which are `n` bytes together. -/
structure Streamed (w seg n : ℕ) (segments : Bytes) (scripts : List (List (Edit UInt8))) :
    Prop where
  bytes : segments = scripts.flatMap segmentStream
  each : ∀ edits ∈ scripts, 9 * edits.length ≤ seg + 9
  total : 9 * (scripts.map List.length).sum ≤ n + 9 * scripts.length
  length : segments.length ≤ segmentsBound w scripts.length n

theorem encodeSegment_streamed {segments : Bytes} {shiftSize k bound : ℕ}
    {scripts : List (List (Edit UInt8))} (hold : old.length ≤ bound) (hnew : new.length ≤ bound)
    (hk : k * seg ≤ new.length) (h : Streamed (lengthWidth bound) seg (k * seg) segments scripts) :
    Yields (encodeSegment old new seg shiftSize segments k) fun out => ∃ edits,
      Streamed (lengthWidth bound) seg (min ((k + 1) * seg) new.length) out
        (scripts ++ [edits]) := by
  have hmarker : (packSize 0).length = 1 := rfl
  simp only [encodeSegment, getFrom_getD]
  rw [slice_ok (by omega) (min_le_right _ _), Run.ok_bind]
  obtain ⟨n, hn⟩ : ∃ n, min ((k + 1) * seg) new.length = k * seg + n :=
    ⟨_, (Nat.add_sub_cancel' (by rw [Nat.succ_mul]; omega)).symm⟩
  have hnseg : n ≤ seg := by
    rw [Nat.succ_mul] at hn
    omega
  have hto : ((new.drop (k * seg)).take (min (k * seg + seg) new.length - k * seg)).length = n := by
    rw [List.length_take, List.length_drop]
    rw [Nat.succ_mul] at hn
    omega
  have hbase : (old.drop (k * seg + seg - shiftSize)).length ≤ bound := by
    rw [List.length_drop]
    omega
  refine (bsdiff_scripted _ _ _ hbase (by rw [hto]; omega)).mono fun out hout => ?_
  rw [hto] at hout
  obtain ⟨edits, hbytes, hcount, hlength⟩ := hout
  obtain ⟨hsegments, heach, htotal, hbound⟩ := h
  refine ⟨edits, ?_, ?_, ?_, ?_⟩
  · rw [hbytes, hsegments, List.flatMap_append, List.flatMap_singleton, segmentStream,
      List.append_assoc]
  · intro other hmem
    rcases List.mem_append.mp hmem with hmem | hmem
    · exact heach other hmem
    · obtain rfl := List.mem_singleton.mp hmem
      omega
  · rw [hn, List.map_append, List.sum_append, List.map_singleton, List.sum_singleton,
      List.length_append, List.length_singleton]
    omega
  · have hninth : k * seg / 9 * (3 * lengthWidth bound) + n / 9 * (3 * lengthWidth bound) ≤
        (k * seg + n) / 9 * (3 * lengthWidth bound) := by
      rw [← Nat.add_mul]
      exact Nat.mul_le_mul_right _ (by omega)
    rw [List.length_append, hmarker, scriptBound, Nat.add_mul, Nat.one_mul] at hlength
    rw [segmentsBound] at hbound
    rw [hn, segmentsBound, List.length_append, List.length_singleton,
      Nat.add_mul scripts.length 1, Nat.one_mul]
    omega

theorem encodeSegments_streamed {shiftSize k bound : ℕ} (hold : old.length ≤ bound)
    (hnew : new.length ≤ bound) (hseg : 0 < seg) (hk : k ≤ divCeil new.length seg) :
    Yields ((List.range k).foldlM (encodeSegment old new seg shiftSize) []) fun out =>
      ∃ scripts, scripts.length = k ∧
        Streamed (lengthWidth bound) seg (min (k * seg) new.length) out scripts := by
  induction k with
  | zero => exact Yields.ok ⟨[], rfl, rfl, nofun, by simp, Nat.zero_le _⟩
  | succ k ih =>
    have hlt : k * seg < new.length := (lt_divCeil_iff hseg).mp (by omega)
    rw [List.range_succ, List.foldlM_append]
    refine (ih (by omega)).bind fun segments hsegments => ?_
    obtain ⟨scripts, hcount, hstreamed⟩ := hsegments
    rw [Nat.min_eq_left hlt.le] at hstreamed
    rw [List.foldlM_cons]
    refine (encodeSegment_streamed hold hnew hlt.le hstreamed).bind fun out hout => ?_
    obtain ⟨edits, hout⟩ := hout
    exact Yields.ok ⟨scripts ++ [edits], by rw [List.length_append, hcount]; rfl, hout⟩

/-- With lengths of `w` bytes: a header, five lengths and the compressed streams. -/
def inPlaceBound (w k n : ℕ) : ℕ := 1 + 5 * w + crleBound (segmentsBound w k n)

theorem encodeInPlace_streamed {patch : Bytes} (h : encodeInPlace old new mem seg = .ok patch) :
    patch.length ≤ inPlaceBound (lengthWidth (max mem (max old.length new.length)))
        (divCeil new.length seg) new.length ∧
      ∃ segments scripts, scripts.length = divCeil new.length seg ∧
        Streamed (lengthWidth (max mem (max old.length new.length))) seg new.length segments
          scripts ∧
        (new ≠ [] → ∃ compressed, crleCompress segments = .ok compressed ∧
          patch = inPlaceHeader mem seg (calcShift mem seg (2 * seg) old.length) old.length
            new.length ++ compressed) := by
  simp only [encodeInPlace, Run.bind_eq_ok, Run.exists_unit, Run.assert_eq_ok,
    Run.unwrap_eq_ok] at h
  obtain ⟨⟨hseg, -⟩, shifted, hshifted, fromData, hfrom, segments, hsegments, h⟩ := h
  obtain ⟨bound, hbound⟩ : ∃ b, b = max mem (max old.length new.length) := ⟨_, rfl⟩
  have hshift := (checkedSub_eq_some.mp hshifted).1
  have hdouble : 2 * seg ≤ calcShift mem seg (2 * seg) old.length := le_max_right _ _
  have hfromLength := slice_length hfrom
  obtain ⟨scripts, hcount, hstreamed⟩ := (@encodeSegments_streamed fromData new seg
    (calcShift mem seg (2 * seg) old.length) (divCeil new.length seg) bound (by omega) (by omega)
    hseg (Nat.le_refl _)).of_ok hsegments
  rw [Nat.min_eq_right (le_divCeil_mul new.length hseg)] at hstreamed
  have hsegmentsLength := hstreamed.length
  rw [hcount] at hsegmentsLength
  have hheader : (inPlaceHeader mem seg (calcShift mem seg (2 * seg) old.length) old.length
      new.length).length ≤ 1 + 5 * lengthWidth bound := by
    have hwidth : ∀ n : ℕ, n ≤ bound → (packSize n).length ≤ lengthWidth bound := fun n hn =>
      packSize_length_le (by omega)
    have hmem := hwidth mem (by omega)
    have hsegWidth := hwidth seg (by omega)
    have hshiftWidth := hwidth (calcShift mem seg (2 * seg) old.length) (by omega)
    have hfromWidth := hwidth old.length (by omega)
    have htoWidth := hwidth new.length (by omega)
    simp only [inPlaceHeader, List.length_append, List.length_singleton]
    omega
  rw [inPlaceBound, ← hbound]
  split_ifs at h with hempty
  · cases h
    exact ⟨by omega, segments, scripts, hcount, hstreamed,
      fun hne => absurd (List.isEmpty_iff.mp hempty) hne⟩
  · rw [Run.bind_eq_ok] at h
    obtain ⟨compressed, hcompressed, h⟩ := h
    cases h
    have hlength := (crleCompress_length segments).of_ok hcompressed
    rw [crleBound] at hlength ⊢
    refine ⟨?_, segments, scripts, hcount, hstreamed, fun _ => ⟨compressed, hcompressed, rfl⟩⟩
    rw [List.length_append]
    omega

def sequentialBound (w n : ℕ) : ℕ := 1 + w + crleBound (1 + scriptBound w n)

end Patches

/-- However the two images differ, a patch is not much larger than the target: a sequential one
has at most one triple for nine bytes and one more, an in-place one a marker and one more for
each segment, and the compression adds no more than a gap costs. -/
theorem encode_overhead (old new : Bytes) :
    (∀ data, ∃ out, crleCompress data = .ok out ∧
      out.length ≤ data.length + data.length / 2 ^ 14 + 3) ∧
    (∃ (edits : List (Edit UInt8)) (patch : Bytes),
      sequentialBody old new = .ok (packSize 0 ++ edits.flatMap Edit.encode) ∧
      9 * edits.length ≤ new.length + 9 ∧ encodeSequential old new = .ok patch ∧ patch.length ≤
        sequentialBound (lengthWidth (max old.length new.length)) new.length) ∧
    ∀ mem seg patch, encodeInPlace old new mem seg = .ok patch →
      patch.length ≤ inPlaceBound (lengthWidth (max mem (max old.length new.length)))
        (divCeil new.length seg) new.length ∧
      ∃ scripts : List (List (Edit UInt8)), scripts.length = divCeil new.length seg ∧
        (∀ edits ∈ scripts, 9 * edits.length ≤ seg + 9) ∧
        9 * (scripts.map List.length).sum ≤ new.length + 9 * divCeil new.length seg ∧
        (new ≠ [] → ∃ compressed,
          crleCompress (scripts.flatMap fun edits => packSize 0 ++ edits.flatMap Edit.encode) =
            .ok compressed ∧
          patch = inPlaceHeader mem seg (calcShift mem seg (2 * seg) old.length) old.length
            new.length ++ compressed) := by
  refine ⟨crleCompress_length, ?_, fun mem seg patch h => ?_⟩
  · obtain ⟨body, hrun, edits, hbytes, hcount, hbody⟩ := sequentialBody_scripted old new
    obtain ⟨compressed, hcompress, hcompressed⟩ := crleCompress_length body
    have hmarker : (packSize 0).length = 1 := rfl
    have hwidth := @packSize_length_le new.length (max old.length new.length) (by omega)
    have hpatch : encodeSequential old new =
        .ok ([PATCH_TYPE_SEQUENTIAL <<< 4 ||| COMPRESSION_CRLE] ++ packSize new.length ++
          compressed) := by
      rw [encodeSequential, hrun, Run.ok_bind, hcompress, Run.ok_bind]
    refine ⟨edits, _, hbytes ▸ hrun, hcount, hpatch, ?_⟩
    rw [crleBound] at hcompressed
    simp only [sequentialBound, crleBound, List.length_append, List.length_singleton]
    omega
  · obtain ⟨hlength, segments, scripts, hcount, ⟨rfl, heach, htotal, -⟩, hpatch⟩ :=
      encodeInPlace_streamed h
    exact ⟨hlength, scripts, hcount, heach, hcount ▸ htotal, hpatch⟩

end MotaTool.Encode
