import MotaTool.Encode.Bsdiff
import MotaTool.Encode.SuffixSpec
import Mathlib.Tactic.Linarith

/-!
# What bsdiff emits

Whatever the search returns, the encoder stays inside both strings, ends, and
appends the encoding of an edit script that replays the new string from the
old one. The invariant of the outer loop ties the two cursors of the replayed
part to `lastscan` and `lastpos`, and keeps `scan + lastoffset` non-negative;
termination uses only that a scan can not settle on an empty match in its
first turn.
-/

namespace MotaTool.Encode

open Base

theorem get_yields {v : Bytes} {i : ℤ} (h0 : 0 ≤ i) (h : i < v.length) :
    Yields (get v i) fun b => v[i.toNat]? = some b := by
  have hlt : i.toNat < v.length := by omega
  rw [get, if_pos h0]
  exact ⟨v[i.toNat], index_ok hlt, List.getElem?_eq_getElem hlt⟩

theorem sliceAt_ok {v : Bytes} {lo hi : ℤ} (h0 : 0 ≤ lo) (h : lo ≤ hi) (hv : hi ≤ v.length) :
    sliceAt v lo hi = .ok (window v lo (hi - lo).toNat) := by
  rw [sliceAt, if_pos ⟨h0, h0.trans h⟩, slice_ok (by omega) (by omega), window]
  congr 2
  omega

theorem matchAt_yields {old new : Bytes} {a b : ℤ} (ha : 0 ≤ a) (hb0 : 0 ≤ b)
    (hb : b < new.length) : Yields (matchAt old new a b) fun _ => True := by
  unfold matchAt
  split_ifs with hlt
  · refine (get_yields ha hlt).bind fun x _ => ?_
    exact (get_yields hb0 hb).bind fun y _ => Yields.ok trivial
  · exact Yields.ok trivial

section Scanning

variable {old new : Bytes} {lastoffset start : ℤ}

structure Rescored (s t : Scan) : Prop where
  scan : t.scan = s.scan
  len : t.len = s.len
  pos : t.pos = s.pos
  low : s.scsc ≤ t.scsc
  high : t.scsc ≤ max s.scsc (s.scan + s.len)
  idle : t.scsc = s.scsc → t.oldscore = s.oldscore

theorem rescore_yields {s t : Scan} (h0 : 0 ≤ s.scsc) (hoff : 0 ≤ s.scsc + lastoffset)
    (hend : s.scan + s.len ≤ new.length) (hst : Rescored s t)
    (hc : t.scsc < t.scan + t.len) :
    Yields (rescore old new lastoffset t) fun u => Rescored s u ∧
      (u.scan + u.len - u.scsc).toNat < (t.scan + t.len - t.scsc).toNat := by
  have hlow := hst.low
  have hhigh := hst.high
  rw [hst.scan, hst.len] at hc
  refine (matchAt_yields (by omega) (by omega) (by omega)).bind fun hit _ => Yields.ok ⟨⟨?_, ?_,
    ?_, ?_, ?_, ?_⟩, ?_⟩
  · exact hst.scan
  · exact hst.len
  · exact hst.pos
  · dsimp only; omega
  · dsimp only; omega
  · dsimp only; intro h; omega
  · dsimp only; rw [hst.scan, hst.len]; omega

theorem rescore_loop_yields {s : Scan} (h0 : 0 ≤ s.scsc) (hoff : 0 ≤ s.scsc + lastoffset)
    (hend : s.scan + s.len ≤ new.length) :
    Yields (iterate (whileTurn (fun s => decide (s.scsc < s.scan + s.len))
      (rescore old new lastoffset)) (new.length + 1) s)
      fun t => Rescored s t ∧ t.scan + t.len ≤ t.scsc := by
  have hinit : Rescored s s := ⟨rfl, rfl, rfl, le_rfl, le_max_left _ _, fun _ => rfl⟩
  refine (iterate_while_yields (Rescored s) (fun t => (t.scan + t.len - t.scsc).toNat)
    (fun t ht hc => rescore_yields h0 hoff hend ht (of_decide_eq_true hc)) hinit
    (by omega)).mono fun t ht => ⟨ht.1, ?_⟩
  have hstop := of_decide_eq_false ht.2
  omega

/-- Head of the inner loop that was entered at `start`: before its first turn nothing has
been counted yet, afterwards the scan has moved on. -/
structure ScanInv (old new : Bytes) (lastoffset start : ℤ) (s : Scan) : Prop where
  low : start ≤ s.scan
  high : s.scan ≤ new.length
  scsc : start ≤ s.scsc
  scscHigh : s.scsc ≤ new.length
  len : 0 ≤ s.len
  pos : 0 ≤ s.pos ∧ s.pos ≤ old.length
  fresh : s.scan = start → s.oldscore = 0 ∧ s.scsc = start

structure ScanPost (old new : Bytes) (start : ℤ) (t : Scan) : Prop where
  low : start ≤ t.scan
  high : t.scan ≤ new.length
  len : 0 ≤ t.len
  pos : 0 ≤ t.pos ∧ t.pos ≤ old.length
  settled : t.scan < new.length → t.scan + t.len ≤ new.length ∧ start < t.scan + t.len

variable {sa : List ℕ}

def breakTest (sa : List ℕ) (old new : Bytes) (lastoffset : ℤ) (s : Scan) : Run Scan := do
  let rest ← sliceAt new s.scan new.length
  let (len, pos) ← search sa old rest (old.length + 1) 0 old.length
  iterate (whileTurn (fun s => decide (s.scsc < s.scan + s.len)) (rescore old new lastoffset))
    (new.length + 1) { s with len := len, pos := pos }

theorem scanTurn_breakTest {s : Scan} (h : s.scan < new.length) :
    scanTurn sa old new lastoffset s = breakTest sa old new lastoffset s >>= fun t =>
      if t.settled then .ok (.done t)
      else matchAt old new (t.scan + lastoffset) t.scan >>= fun hit => .ok (.next { t with
        oldscore := if hit then t.oldscore - 1 else t.oldscore, scan := t.scan + 1 }) := by
  simp only [scanTurn, breakTest, if_pos h, bind_assoc]

/-- What a turn that starts in `s` has at its break test: a match inside both strings, and
every byte of it scored. -/
structure Searched (old new : Bytes) (s t : Scan) : Prop where
  scan : t.scan = s.scan
  len : 0 ≤ t.len
  fits : t.scan + t.len ≤ new.length
  pos : 0 ≤ t.pos ∧ t.pos ≤ old.length
  low : s.scsc ≤ t.scsc
  high : t.scsc ≤ max s.scsc (t.scan + t.len)
  covered : t.scan + t.len ≤ t.scsc
  idle : t.scsc = s.scsc → t.oldscore = s.oldscore

theorem breakTest_searched (hsa : Indexes sa old) (h0 : 0 ≤ start)
    (hoff : 0 ≤ start + lastoffset) {s : Scan} (hlt : s.scan < new.length)
    (h : ScanInv old new lastoffset start s) :
    Yields (breakTest sa old new lastoffset s) (Searched old new s) := by
  have hlow := h.low
  have hscsc := h.scsc
  unfold breakTest
  rw [sliceAt_ok (by omega) hlt.le le_rfl, Run.ok_bind]
  refine (search_yields hsa (Nat.zero_le _) le_rfl (by omega)).bind fun m hm => ?_
  have hlen := hm.1
  have hpos := hm.2
  rw [window_length (by omega) (by omega)] at hlen
  refine (rescore_loop_yields (by dsimp only; omega) (by dsimp only; omega)
    (by dsimp only; omega)).mono fun t ht => ?_
  obtain ⟨⟨hscan, htlen, htpos, hge, hle, hidle⟩, hcovered⟩ := ht
  dsimp only at hscan htlen htpos hge hle hidle
  exact ⟨hscan, by omega, by omega, by omega, hge, by omega, hcovered, hidle⟩

theorem scanTurn_yields (hsa : Indexes sa old) (h0 : 0 ≤ start) (hoff : 0 ≤ start + lastoffset)
    {s : Scan} (h : ScanInv old new lastoffset start s) :
    Yields (scanTurn sa old new lastoffset s)
      (Flow.Progress (ScanInv old new lastoffset start) (ScanPost old new start)
        (fun s => (new.length - s.scan).toNat) s) := by
  have hlow := h.low
  have hscsc := h.scsc
  have hscscHigh := h.scscHigh
  by_cases hlt : s.scan < new.length
  · rw [scanTurn_breakTest hlt]
    refine (breakTest_searched hsa h0 hoff hlt h).bind fun t ht => ?_
    obtain ⟨hscan, hlen, hfits, hpos, hge, hhigh, hcovered, hidle⟩ := ht
    split_ifs with hsettled
    · refine Yields.ok ⟨by omega, by omega, hlen, hpos, fun _ => ⟨hfits, ?_⟩⟩
      -- An empty match settles nothing while the score is still zero.
      by_contra hstay
      obtain ⟨hscore, hfresh⟩ := h.fresh (by omega)
      have hzero : t.oldscore = 0 := by rw [hidle (by omega), hscore]
      simp only [Scan.settled, decide_eq_true_eq] at hsettled
      omega
    · refine (matchAt_yields (by omega) (by omega) (by omega)).bind fun hit _ => ?_
      exact Yields.ok ⟨⟨by dsimp only; omega, by dsimp only; omega, by dsimp only; omega,
        by dsimp only; omega, hlen, hpos, fun heq => absurd heq (by dsimp only; omega)⟩,
        by dsimp only; omega⟩
  · rw [scanTurn, if_neg hlt]
    exact Yields.ok ⟨hlow, h.high, h.len, h.pos, fun hin => absurd hin hlt⟩

theorem scan_yields (hsa : Indexes sa old) (h0 : 0 ≤ start) (hoff : 0 ≤ start + lastoffset)
    (hstart : start ≤ new.length) {len pos : ℤ} (hlen : 0 ≤ len)
    (hpos : 0 ≤ pos ∧ pos ≤ old.length) :
    Yields (iterate (scanTurn sa old new lastoffset) (new.length + 1)
      ⟨start, len, pos, start, 0⟩) (ScanPost old new start) :=
  iterate_yields (ScanInv old new lastoffset start) _ (fun s => (new.length - s.scan).toNat)
    (fun _ hs => scanTurn_yields hsa h0 hoff hs)
    ⟨le_rfl, hstart, le_rfl, hstart, hlen, hpos, fun _ => ⟨rfl, rfl⟩⟩ (by dsimp only; omega)

end Scanning

section Regions

variable {old new : Bytes} {scan pos lastscan lastpos : ℤ}

theorem forwardExtend_yields (hls : 0 ≤ lastscan) (hscan : lastscan ≤ scan)
    (hnew : scan ≤ new.length) (hlp : 0 ≤ lastpos) (hold : lastpos ≤ old.length) :
    Yields (forwardExtend old new scan lastscan lastpos) fun lenf =>
      0 ≤ lenf ∧ lastscan + lenf ≤ scan ∧ lastpos + lenf ≤ old.length := by
  refine (iterate_while_yields
    (fun e => 0 ≤ e.len ∧ e.len ≤ e.i ∧ lastscan + e.i ≤ scan ∧ lastpos + e.i ≤ old.length)
    (fun e => (scan - lastscan - e.i).toNat) (fun e he hc => ?_)
    ⟨le_rfl, le_rfl, by dsimp only; omega, by dsimp only; omega⟩ (by dsimp only; omega)).bind
    fun e he => Yields.ok ⟨he.1.1, by omega, by omega⟩
  have hin := of_decide_eq_true hc
  unfold forwardStep
  refine (get_yields (by omega) (by omega)).bind fun x _ => ?_
  refine (get_yields (by omega) (by omega)).bind fun y _ => ?_
  dsimp only
  split_ifs <;> exact Yields.ok (by dsimp only; omega)

theorem backwardExtend_yields (hls : 0 ≤ lastscan) (hscan : lastscan ≤ scan)
    (hnew : scan ≤ new.length) (hpos : 0 ≤ pos) (hold : pos ≤ old.length) :
    Yields (backwardExtend old new scan pos lastscan) fun lenb =>
      0 ≤ lenb ∧ lenb ≤ scan - lastscan ∧ lenb ≤ pos ∧ (scan = new.length → lenb = 0) := by
  unfold backwardExtend
  split_ifs with hlt
  · refine (iterate_while_yields
      (fun e => 1 ≤ e.i ∧ 0 ≤ e.len ∧ e.len < e.i ∧ e.len ≤ scan - lastscan ∧ e.len ≤ pos)
      (fun e => (scan - lastscan + 1 - e.i).toNat) (fun e he hc => ?_)
      (by dsimp only; omega) (by dsimp only; omega)).bind
      fun e he => Yields.ok ⟨he.1.2.1, he.1.2.2.2.1, he.1.2.2.2.2, by omega⟩
    have hin := of_decide_eq_true hc
    unfold backwardStep
    refine (get_yields (by omega) (by omega)).bind fun x _ => ?_
    refine (get_yields (by omega) (by omega)).bind fun y _ => ?_
    dsimp only
    split_ifs <;> exact Yields.ok (by dsimp only; omega)
  · exact Yields.ok ⟨le_rfl, by omega, hpos, fun _ => rfl⟩

structure Regions (old new : Bytes) (scan pos lastscan lastpos : ℤ) (r : ℤ × ℤ) : Prop where
  forward : 0 ≤ r.1
  backward : 0 ≤ r.2
  apart : lastscan + r.1 ≤ scan - r.2
  fold : lastpos + r.1 ≤ old.length
  bold : r.2 ≤ pos
  last : scan = new.length → r.2 = 0

theorem resolveOverlap_yields {lenf lenb : ℤ} (hls : 0 ≤ lastscan) (hnew : scan ≤ new.length)
    (hlp : 0 ≤ lastpos) (hpos : pos ≤ old.length)
    (hf : 0 ≤ lenf ∧ lastscan + lenf ≤ scan ∧ lastpos + lenf ≤ old.length)
    (hb : 0 ≤ lenb ∧ lenb ≤ scan - lastscan ∧ lenb ≤ pos ∧ (scan = new.length → lenb = 0)) :
    Yields (resolveOverlap old new scan pos lastscan lastpos lenf lenb)
      (Regions old new scan pos lastscan lastpos) := by
  unfold resolveOverlap
  split_ifs with hover
  · dsimp only
    refine (iterate_while_yields
      (fun e => 0 ≤ e.i ∧ 0 ≤ e.len ∧ e.len ≤ e.i ∧ e.i ≤ (lastscan + lenf) - (scan - lenb))
      (fun e => ((lastscan + lenf) - (scan - lenb) - e.i).toNat) (fun e he hc => ?_)
      (by dsimp only; omega) (by dsimp only; omega)).bind fun e he => Yields.ok ?_
    · have hin := of_decide_eq_true hc
      unfold overlapStep
      refine (get_yields (by omega) (by omega)).bind fun y _ => ?_
      refine (get_yields (by omega) (by omega)).bind fun x _ => ?_
      refine (get_yields (by omega) (by omega)).bind fun y' _ => ?_
      refine (get_yields (by omega) (by omega)).bind fun x' _ => ?_
      dsimp only
      split_ifs <;> exact Yields.ok (by dsimp only; omega)
    · have hbound := he.1
      exact ⟨by dsimp only; omega, by dsimp only; omega, by dsimp only; omega,
        by dsimp only; omega, by dsimp only; omega,
        fun hend => by have := hb.2.2.2 hend; dsimp only; omega⟩
  · exact Yields.ok ⟨hf.1, hb.1, by dsimp only; omega, hf.2.2, hb.2.2.1, hb.2.2.2⟩

end Regions

def Edit.encode (e : Edit UInt8) : Bytes :=
  packSize e.diff.length ++ e.diff ++ packSize e.extra.length ++ e.extra ++ packSize e.seek

def encodeEdits (es : List (Edit UInt8)) : Bytes := es.flatMap Edit.encode

theorem sub_add_cancel_byte (a b : UInt8) : a - b + b = a := UInt8.sub_add_cancel a b

theorem diffByte_yields {old new : Bytes} {lastscan lastpos : ℤ} {n i : ℕ} (hls : 0 ≤ lastscan)
    (hnew : lastscan + n ≤ new.length) (hlp : 0 ≤ lastpos) (hold : lastpos + n ≤ old.length)
    (hi : i < n) : Yields (diffByte old new lastscan lastpos i) fun b =>
      ∃ y x, new[(lastscan + i).toNat]? = some y ∧ old[(lastpos + i).toNat]? = some x ∧
        b = y - x := by
  refine (get_yields (by omega) (by omega)).bind fun y hy => ?_
  refine (get_yields (by omega) (by omega)).bind fun x hx => ?_
  exact Yields.ok ⟨y, x, hy, hx, rfl⟩

theorem diffBytes_ok {old new : Bytes} {lastscan lastpos : ℤ} {n : ℕ} (hls : 0 ≤ lastscan)
    (hnew : lastscan + n ≤ new.length) (hlp : 0 ≤ lastpos) (hold : lastpos + n ≤ old.length) :
    diffBytes old new lastscan lastpos n =
      .ok (List.zipWith (· - ·) (window new lastscan n) (window old lastpos n)) := by
  obtain ⟨diff, hdiff, hbytes⟩ := mapM_yields (l := List.range n) fun i hi =>
    diffByte_yields hls hnew hlp hold (List.mem_range.mp hi)
  rw [diffBytes, Int.toNat_natCast, hdiff]
  congr 1
  have hlen : diff.length = n := by rw [← hbytes.length_eq, List.length_range]
  refine List.ext_getElem? fun i => ?_
  by_cases hi : i < n
  · obtain ⟨y, x, hy, hx, hb⟩ := (List.forall₂_iff_get.mp hbytes).2 i (by simpa) (by omega)
    simp only [List.get_eq_getElem, List.getElem_range] at hy hx hb
    rw [List.getElem?_eq_getElem (by omega), hb, List.getElem?_zipWith,
      window_getElem? hls hi, window_getElem? hlp hi, hy, hx]
  · rw [List.getElem?_eq_none (by omega), List.getElem?_eq_none]
    simp only [List.length_zipWith, window, List.length_take]
    omega

def regionEdit (old new : Bytes) (s : Diffing) (t : Scan) (r : ℤ × ℤ) : Edit UInt8 where
  diff := List.zipWith (· - ·) (window new s.lastscan r.1.toNat) (window old s.lastpos r.1.toNat)
  extra := window new (s.lastscan + r.1) ((t.scan - r.2) - (s.lastscan + r.1)).toNat
  seek := (t.pos - r.2) - (s.lastpos + r.1)

theorem emit_ok {old new : Bytes} {s : Diffing} {t : Scan} {r : ℤ × ℤ}
    (hls : 0 ≤ s.lastscan) (hlp : 0 ≤ s.lastpos) (hnew : t.scan ≤ new.length)
    (h : Regions old new t.scan t.pos s.lastscan s.lastpos r) :
    emit old new s t r.1 r.2 = .ok (s.body ++ Edit.encode (regionEdit old new s t r)) := by
  obtain ⟨hforward, hbackward, hapart, hfold, -, -⟩ := h
  obtain ⟨n, hn⟩ := Int.eq_ofNat_of_zero_le hforward
  have hdiff := diffBytes_ok (n := n) hls (show s.lastscan + n ≤ new.length by omega) hlp
    (show s.lastpos + n ≤ old.length by omega)
  have hextra := @sliceAt_ok new (s.lastscan + r.1) (t.scan - r.2)
    (by omega) (by omega) (by omega)
  have hdlen : ((List.zipWith (· - ·) (window new s.lastscan n)
      (window old s.lastpos n)).length : ℤ) = n := by
    rw [List.length_zipWith, window_length hls (by omega), window_length hlp (by omega),
      Nat.min_self]
  have helen : ((window new (s.lastscan + r.1)
      ((t.scan - r.2) - (s.lastscan + r.1)).toNat).length : ℤ) =
        (t.scan - r.2) - (s.lastscan + r.1) := by
    rw [window_length (by omega) (by omega)]
    omega
  have hn' : r.1.toNat = n := by omega
  rw [← hn] at hdiff hdlen
  rw [emit, hdiff, Run.ok_bind]
  dsimp only
  rw [hextra, Run.ok_bind]
  simp only [regionEdit, Edit.encode, hn', hdlen, helen, List.append_assoc]

theorem regionEdit_applies {old new : Bytes} {s : Diffing} {t : Scan} {r : ℤ × ℤ}
    (hls : 0 ≤ s.lastscan) (hlp : 0 ≤ s.lastpos) (hnew : t.scan ≤ new.length)
    (h : Regions old new t.scan t.pos s.lastscan s.lastpos r) :
    (regionEdit old new s t r).Applies old ⟨new.take s.lastscan.toNat, s.lastpos⟩
      ⟨new.take (t.scan - r.2).toNat, t.pos - r.2⟩ := by
  obtain ⟨hforward, hbackward, hapart, hfold, -, -⟩ := h
  obtain ⟨a, ha⟩ := Int.eq_ofNat_of_zero_le hls
  obtain ⟨n, hn⟩ := Int.eq_ofNat_of_zero_le hforward
  obtain ⟨c, hc⟩ := Int.eq_ofNat_of_zero_le (show 0 ≤ t.scan - r.2 by omega)
  have hap := @Edit.applies_take _ _ _ sub_add_cancel_byte old new s.lastpos
    ((t.pos - r.2) - (s.lastpos + r.1)) a (a + n) c hlp (by omega) (by omega) (by omega)
    (by omega)
  have hcursor : s.lastpos + ((a + n - a : ℕ) : ℤ) + ((t.pos - r.2) - (s.lastpos + r.1)) =
      t.pos - r.2 := by omega
  have hlen : a + n - a = n := by omega
  have hextra : ((c : ℤ) - ((a : ℤ) + n)).toNat = c - (a + n) := by omega
  rw [hcursor, hlen] at hap
  simpa only [regionEdit, ha, hn, hc, Int.toNat_natCast, hextra, Nat.cast_add] using hap

/-- The body encodes a script that replays the first `lastscan` bytes and leaves the
cursor at `lastpos`; the next turn resumes at `scan + len`. -/
structure DiffInv (old new body : Bytes) (s : Diffing) : Prop where
  script : ∃ es, s.body = body ++ encodeEdits es ∧
    Replays old new.length es ⟨[], 0⟩ ⟨new.take s.lastscan.toNat, s.lastpos⟩
  lastscan : 0 ≤ s.lastscan ∧ s.lastscan ≤ s.scan
  scan : s.scan ≤ new.length
  finished : s.scan = new.length → s.lastscan = new.length
  resume : s.scan < new.length → s.scan + s.len ≤ new.length
  len : 0 ≤ s.len
  lastpos : 0 ≤ s.lastpos ∧ s.lastpos ≤ old.length
  pos : 0 ≤ s.pos ∧ s.pos ≤ old.length
  offset : 0 ≤ s.scan + s.lastoffset

def DiffPost (old new body : Bytes) (out : Bytes) : Prop :=
  ∃ es cursor, out = body ++ encodeEdits es ∧
    Replays old new.length es ⟨[], 0⟩ ⟨new, cursor⟩

def diffMeasure (new : Bytes) (s : Diffing) : ℕ :=
  if s.scan < new.length then (new.length - (s.scan + s.len)).toNat + 1 else 0

theorem bsdiffTurn_yields {sa : List ℕ} {old new body : Bytes} (hsa : Indexes sa old)
    {s : Diffing} (h : DiffInv old new body s) :
    Yields (bsdiffTurn sa old new s) (Flow.Progress (DiffInv old new body)
      (DiffPost old new body) (diffMeasure new) s) := by
  obtain ⟨hls, hlsScan⟩ := h.lastscan
  obtain ⟨hlp, hlpOld⟩ := h.lastpos
  have hlen := h.len
  have hoffset := h.offset
  unfold bsdiffTurn
  split_ifs with hlt
  · have hresume := h.resume hlt
    dsimp only
    refine (scan_yields hsa (by omega) (by omega) hresume hlen h.pos).bind fun t ht => ?_
    obtain ⟨htpos, htold⟩ := ht.pos
    have htlow := ht.low
    have hmeasure : t.scan < new.length →
        (new.length - (t.scan + t.len)).toNat < (new.length - (s.scan + s.len)).toNat := by
      intro hin
      have := ht.settled hin
      omega
    split_ifs with hemit
    · refine (forwardExtend_yields hls (by omega) ht.high hlp hlpOld).bind fun lenf hf => ?_
      refine (backwardExtend_yields hls (by omega) ht.high htpos htold).bind fun lenb hb => ?_
      refine (resolveOverlap_yields hls ht.high hlp htold hf hb).bind fun r hr => ?_
      have hap := regionEdit_applies hls hlp ht.high hr
      have hback := hr.backward
      have hbold := hr.bold
      have hapart := hr.apart
      have hforward := hr.forward
      rw [emit_ok hls hlp ht.high hr, Run.ok_bind]
      obtain ⟨es, hbody, hreplay⟩ := h.script
      have hlast := hr.last
      refine Yields.ok ⟨⟨⟨es ++ [regionEdit old new s t r], ?_, ?_⟩, ?_, ht.high, ?_,
        fun hin => (ht.settled hin).1, ht.len, ?_, ⟨htpos, htold⟩, ?_⟩, ?_⟩
      · simp [hbody, encodeEdits]
      · refine hreplay.snoc ?_ hap
        rw [List.length_take]
        omega
      · dsimp only; omega
      · dsimp only; intro hend; have := hlast hend; omega
      · dsimp only; omega
      · dsimp only; omega
      · simp only [diffMeasure, hlt, if_true]
        split_ifs with hin
        · have := hmeasure hin; omega
        · omega
    · have hin : t.scan < new.length := lt_of_le_of_ne ht.high fun heq => hemit (Or.inr heq)
      refine Yields.ok ⟨⟨h.script, ?_, ht.high, fun heq => absurd heq hin.ne,
        fun _ => (ht.settled hin).1, ht.len, h.lastpos, ⟨htpos, htold⟩, ?_⟩, ?_⟩
      · dsimp only; omega
      · dsimp only; omega
      · have := hmeasure hin
        simp only [diffMeasure, hlt, hin, if_true]
        omega
  · have hend : s.scan = new.length := le_antisymm h.scan (not_lt.mp hlt)
    obtain ⟨es, hbody, hreplay⟩ := h.script
    refine Yields.ok ⟨es, s.lastpos, hbody, ?_⟩
    rwa [h.finished hend, Int.toNat_natCast, List.take_length] at hreplay

theorem DiffInv.initial (old new body : Bytes) :
    DiffInv old new body ⟨0, 0, 0, 0, 0, 0, body⟩ :=
  ⟨⟨[], by simp [encodeEdits], .nil⟩, ⟨le_rfl, le_rfl⟩, by dsimp only; omega, fun heq => heq,
    by dsimp only; omega, le_rfl, ⟨le_rfl, by dsimp only; omega⟩, ⟨le_rfl, by dsimp only; omega⟩,
    le_rfl⟩

theorem bsdiff_yields (old new body : Bytes) :
    Yields (bsdiff old new body) (DiffPost old new body) := by
  refine (suffixArrayWithSentinel_yields old).bind fun sa hsa => ?_
  refine iterate_yields (DiffInv old new body) _ (diffMeasure new)
    (fun s hs => bsdiffTurn_yields hsa hs) (DiffInv.initial old new body) ?_
  simp only [diffMeasure]
  split_ifs <;> omega

end MotaTool.Encode
