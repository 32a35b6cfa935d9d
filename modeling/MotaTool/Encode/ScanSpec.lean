import MotaTool.Encode.BsdiffSpec
import Mathlib.Data.Finset.Card

/-!
# The score of the scan

Between two break tests the scan moves `scsc` over the bytes it counts and
`scan` over the bytes it takes out of the count again. Counted from the entry
of the loop, the two sides balance at every step, also while `scsc` lags behind
`scan`; at the break test `scsc` has caught up, so the score is the number of
hits between the two and an empty match settles nothing.
-/

namespace MotaTool.Encode

open Base

section Hits

variable (old new : Bytes) (lastoffset : ℤ)

def Hit (p : ℤ) : Prop :=
  0 ≤ p + lastoffset ∧ p + lastoffset < old.length ∧
    old[(p + lastoffset).toNat]? = new[p.toNat]?

instance : DecidablePred (Hit old new lastoffset) := fun _ =>
  inferInstanceAs (Decidable (_ ∧ _ ∧ _))

def hits (lo hi : ℤ) : ℕ :=
  ((Finset.range (hi - lo).toNat).filter fun i : ℕ => Hit old new lastoffset (lo + i)).card

variable {old new lastoffset}

theorem hits_self (lo : ℤ) : hits old new lastoffset lo lo = 0 := by simp [hits]

theorem hits_succ {lo hi : ℤ} (h : lo ≤ hi) : hits old new lastoffset lo (hi + 1) =
    hits old new lastoffset lo hi + if Hit old new lastoffset hi then 1 else 0 := by
  have hcount : (hi + 1 - lo).toNat = (hi - lo).toNat + 1 := by omega
  have hlast : lo + ((hi - lo).toNat : ℤ) = hi := by omega
  rw [hits, hcount, Finset.range_add_one, Finset.filter_insert, hlast]
  split_ifs with hhit
  · rw [Finset.card_insert_of_notMem (by simp), hits]
  · rfl

theorem hits_append {lo mid hi : ℤ} (hlo : lo ≤ mid) (hhi : mid ≤ hi) :
    hits old new lastoffset lo hi =
      hits old new lastoffset lo mid + hits old new lastoffset mid hi := by
  induction hi, hhi using Int.leInduction with
  | base => rw [hits_self, Nat.add_zero]
  | succ hi hmid ih => rw [hits_succ (hlo.trans hmid), hits_succ hmid, ih, Nat.add_assoc]

theorem get_eq_ok {v : Bytes} {i : ℤ} {b : UInt8} :
    get v i = .ok b ↔ 0 ≤ i ∧ v[i.toNat]? = some b := by
  unfold get
  split_ifs with h0
  · simp [h0, index_eq_ok]
  · simp [h0, Run.panic]

theorem matchAt_hit {p : ℤ} {hit : Bool}
    (h : matchAt old new (p + lastoffset) p = .ok hit) :
    hit = decide (Hit old new lastoffset p) := by
  unfold matchAt at h
  split_ifs at h with hlt
  · simp only [Run.bind_eq_ok, get_eq_ok] at h
    obtain ⟨x, ⟨hx0, hx⟩, y, ⟨-, hy⟩, hxy⟩ := h
    cases hxy
    simp only [Hit, hx0, hlt, hx, hy, true_and, Option.some.injEq, beq_eq_decide]
  · cases h
    simp [Hit, hlt]

end Hits

section Balance

variable {sa : List ℕ} {old new : Bytes} {lastoffset start : ℤ}

/-- The score and the hits already passed add up to the hits already seen. -/
structure Balanced (old new : Bytes) (lastoffset start : ℤ) (s : Scan) : Prop where
  scan : start ≤ s.scan
  scsc : start ≤ s.scsc
  score : s.oldscore + hits old new lastoffset start s.scan =
    hits old new lastoffset start s.scsc

theorem rescore_balanced {s t : Scan} (h : Balanced old new lastoffset start s)
    (hst : rescore old new lastoffset s = .ok t) : Balanced old new lastoffset start t := by
  rw [rescore, Run.bind_eq_ok] at hst
  obtain ⟨hit, hhit, hst⟩ := hst
  cases hst
  have hscsc := h.scsc
  have hscore := h.score
  refine ⟨h.scan, by dsimp only; omega, ?_⟩
  dsimp only
  rw [hits_succ hscsc, matchAt_hit hhit]
  by_cases hp : Hit old new lastoffset s.scsc
  · simp only [hp, decide_true, if_true]
    omega
  · simp only [hp, decide_false, if_false, Bool.false_eq_true]
    omega

theorem Balanced.search {s : Scan} (h : Balanced old new lastoffset start s) (len pos : ℤ) :
    Balanced old new lastoffset start { s with len := len, pos := pos } :=
  ⟨h.scan, h.scsc, h.score⟩

theorem scanTurn_breaks {s t t' : Scan} (h : s.scan < new.length)
    (ht : breakTest sa old new lastoffset s = .ok t)
    (hdone : scanTurn sa old new lastoffset s = .ok (.done t')) :
    t' = t ∧ t.settled = true := by
  rw [scanTurn_breakTest h, ht, Run.ok_bind] at hdone
  split_ifs at hdone with hsettled
  · cases hdone
    exact ⟨rfl, hsettled⟩
  · obtain ⟨hit, -, hnext⟩ := Run.bind_eq_ok.mp hdone
    cases hnext

theorem breakTest_balanced {s t : Scan} (h : Balanced old new lastoffset start s)
    (hst : breakTest sa old new lastoffset s = .ok t) : Balanced old new lastoffset start t := by
  simp only [breakTest, Run.bind_eq_ok] at hst
  obtain ⟨rest, -, ⟨len, pos⟩, -, hloop⟩ := hst
  exact iterate_while_keeps _ (fun _ _ => rescore_balanced) (h.search _ _) hloop

theorem scanTurn_balanced {s s' : Scan} (h : Balanced old new lastoffset start s)
    (hnext : scanTurn sa old new lastoffset s = .ok (.next s')) :
    Balanced old new lastoffset start s' := by
  have hlt : s.scan < new.length := by
    by_contra hge
    rw [scanTurn, if_neg hge] at hnext
    cases hnext
  rw [scanTurn_breakTest hlt, Run.bind_eq_ok] at hnext
  obtain ⟨t, ht, hnext⟩ := hnext
  obtain ⟨hscan, hscsc, hscore⟩ := breakTest_balanced h ht
  split_ifs at hnext
  · cases hnext
  · obtain ⟨hit, hhit, hnext⟩ := Run.bind_eq_ok.mp hnext
    cases hnext
    refine ⟨by dsimp only; omega, hscsc, ?_⟩
    dsimp only
    rw [hits_succ hscan, matchAt_hit hhit]
    by_cases hp : Hit old new lastoffset t.scan
    · simp only [hp, decide_true, if_true]
      omega
    · simp only [hp, decide_false, if_false, Bool.false_eq_true]
      omega

structure BreakPost (old new : Bytes) (lastoffset : ℤ) (t : Scan) : Prop where
  score : t.oldscore = hits old new lastoffset t.scan t.scsc
  settled : t.settled = true → 1 ≤ t.len

theorem Searched.breakPost {s t : Scan} (h : Searched old new s t)
    (hbal : Balanced old new lastoffset start t) : BreakPost old new lastoffset t := by
  obtain ⟨hstart, hseen, hscore⟩ := hbal
  have hlen := h.len
  have hcovered := h.covered
  have horder : t.scan ≤ t.scsc := by omega
  rw [hits_append hstart horder] at hscore
  have hcount : t.oldscore = hits old new lastoffset t.scan t.scsc := by omega
  refine ⟨hcount, fun hsettled => ?_⟩
  simp only [Scan.settled, decide_eq_true_eq] at hsettled
  omega

end Balance

section Loops

variable {sa : List ℕ} {old new body : Bytes}

def Diffing.entry (s : Diffing) : Scan := ⟨s.scan + s.len, s.len, s.pos, s.scan + s.len, 0⟩

theorem Diffing.entry_balanced (s : Diffing) :
    Balanced old new s.lastoffset (s.scan + s.len) s.entry :=
  ⟨le_rfl, le_rfl, by simp [Diffing.entry]⟩

theorem DiffInv.entry {s : Diffing} (h : DiffInv old new body s) (hlt : s.scan < new.length) :
    ScanInv old new s.lastoffset (s.scan + s.len) s.entry :=
  ⟨le_rfl, h.resume hlt, le_rfl, h.resume hlt, h.len, h.pos, fun _ => ⟨rfl, rfl⟩⟩

theorem DiffInv.breakTests (hsa : Indexes sa old) {s : Diffing} (h : DiffInv old new body s)
    (hlt : s.scan < new.length) {u : Scan}
    (hu : Reaches (scanTurn sa old new s.lastoffset) s.entry u) (hin : u.scan < new.length) :
    Yields (breakTest sa old new s.lastoffset u) (BreakPost old new s.lastoffset) := by
  have hstart := h.lastscan
  have hlen := h.len
  have hoff := h.offset
  have hinv : ScanInv old new s.lastoffset (s.scan + s.len) u :=
    hu.invariant _ (h.entry hlt) fun v w hv hvw =>
      ((scanTurn_yields hsa (by omega) (by omega) hv).of_ok hvw).1
  have hbal : Balanced old new s.lastoffset (s.scan + s.len) u :=
    hu.invariant _ s.entry_balanced fun v w => scanTurn_balanced
  obtain ⟨t, ht, hsearched⟩ := breakTest_searched hsa (by omega) (by omega) hin hinv
  exact ⟨t, ht, hsearched.breakPost (breakTest_balanced hbal ht)⟩

theorem DiffInv.advances (hsa : Indexes sa old) {s s' : Diffing} (h : DiffInv old new body s)
    (hnext : bsdiffTurn sa old new s = .ok (.next s')) (hlt : s.scan < new.length)
    (hin : s'.scan < new.length) : s.scan + s.len < s'.scan + s'.len := by
  obtain ⟨h', hmeasure⟩ := (bsdiffTurn_yields hsa h).of_ok hnext
  have hresume := h'.resume hin
  simp only [diffMeasure, hlt, hin, if_true] at hmeasure
  omega

/-- For every pair of byte strings the encoder ends. In each outer turn the inner loop ends,
the score at each of its break tests is the number of hits in `[scan, scsc)`, and it breaks on
a non-empty match only; the next outer turn resumes further on; and the last of the emitted
triples ends where the new string does. -/
theorem bsdiff_terminates (old new body : Bytes) :
    ∃ sa out, suffixArrayWithSentinel old = .ok sa ∧ bsdiff old new body = .ok out ∧
      (∀ s, Reaches (bsdiffTurn sa old new) ⟨0, 0, 0, 0, 0, 0, body⟩ s → s.scan < new.length →
        (∃ t, iterate (scanTurn sa old new s.lastoffset) (new.length + 1) s.entry = .ok t) ∧
        (∀ u, Reaches (scanTurn sa old new s.lastoffset) s.entry u → u.scan < new.length →
          ∃ t, breakTest sa old new s.lastoffset u = .ok t ∧
            t.oldscore = hits old new s.lastoffset t.scan t.scsc ∧
            ∀ t', scanTurn sa old new s.lastoffset u = .ok (.done t') → t' = t ∧ 1 ≤ t.len) ∧
        ∀ s', bsdiffTurn sa old new s = .ok (.next s') → s'.scan < new.length →
          s.scan + s.len < s'.scan + s'.len) ∧
      (new ≠ [] → ∃ es e cursor, out = body ++ encodeEdits (es ++ [e]) ∧
        Replays old new.length (es ++ [e]) ⟨[], 0⟩ ⟨new, cursor⟩ ∧
        (es.map Edit.size).sum + e.size = new.length) := by
  obtain ⟨sa, hsaEq, hsa⟩ := suffixArrayWithSentinel_yields old
  obtain ⟨out, hout, es, cursor, hbody, hreplay⟩ := bsdiff_yields old new body
  refine ⟨sa, out, hsaEq, hout, fun s hs hlt => ?_, fun hne => ?_⟩
  · have hinv : DiffInv old new body s :=
      hs.invariant _ (DiffInv.initial old new body) fun v w hv hvw =>
        ((bsdiffTurn_yields hsa hv).of_ok hvw).1
    have hstart := hinv.lastscan
    have hlen := hinv.len
    have hoff := hinv.offset
    have hentry : 0 ≤ s.scan + s.len + s.lastoffset := by omega
    obtain ⟨t, ht, -⟩ := scan_yields hsa (by omega) hentry (hinv.resume hlt) hinv.len hinv.pos
    refine ⟨⟨t, ht⟩, fun u hu hin => ?_, fun s' hnext hin => hinv.advances hsa hnext hlt hin⟩
    obtain ⟨t, ht, hpost⟩ := hinv.breakTests hsa hlt hu hin
    refine ⟨t, ht, hpost.score, fun t' hdone => ?_⟩
    obtain ⟨rfl, hsettled⟩ := scanTurn_breaks hin ht hdone
    exact ⟨rfl, hpost.settled hsettled⟩
  · have hlength := hreplay.out_length
    rcases List.eq_nil_or_concat es with rfl | ⟨init, e, rfl⟩
    · exact absurd (List.length_eq_zero_iff.mp (by simpa using hlength)) hne
    · rw [List.concat_eq_append] at hbody hreplay hlength
      refine ⟨init, e, cursor, hbody, hreplay, ?_⟩
      simpa using hlength.symm

end Loops

end MotaTool.Encode
