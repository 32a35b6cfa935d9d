import MotaTool.Encode.Overhead

/-!
# A patch of an image against itself

Every position hits, so the score of a scan is never below the match that the
search finds, however poor that is, and no triple is emitted before the end.
The one triple there is copies the whole image, and its zero bytes are one run.
-/

namespace MotaTool.Encode

open Base

variable {image body : Bytes}

theorem hits_unchanged {lo hi : ℤ} (hlo : 0 ≤ lo) (hhi : hi ≤ image.length) :
    hits image image 0 lo hi = (hi - lo).toNat := by
  have hall : ∀ i ∈ Finset.range (hi - lo).toNat, Hit image image 0 (lo + i) := by
    intro i hi
    rw [Finset.mem_range] at hi
    exact ⟨by omega, by omega, by rw [add_zero]⟩
  rw [hits, Finset.filter_true_of_mem hall, Finset.card_range]

theorem forwardExtend_unchanged (image : Bytes) :
    forwardExtend image image image.length 0 0 = .ok (image.length : ℤ) := by
  have hloop := @iterate_while_yields _
    (fun e : Extent => decide (0 + e.i < (image.length : ℤ) ∧ 0 + e.i < (image.length : ℤ)))
    (forwardStep image image 0 0)
    (fun e => 0 ≤ e.i ∧ e.i ≤ image.length ∧ e = ⟨e.i, e.i, e.i, e.i⟩)
    (fun e => ((image.length : ℤ) - e.i).toNat) ?_ (image.length + 1) ⟨0, 0, 0, 0⟩
    ⟨le_rfl, by dsimp only; omega, rfl⟩ (by dsimp only; omega)
  · obtain ⟨e, he, ⟨-, hhigh, heq⟩, hstop⟩ := hloop
    have hend := of_decide_eq_false hstop
    have hlen : e.len = e.i := by rw [heq]
    rw [forwardExtend, he, Run.ok_bind]
    exact congrArg Except.ok (by omega)
  · intro e ⟨hlow, hhigh, heq⟩ hc
    have hin := of_decide_eq_true hc
    obtain ⟨b, hb, -⟩ := @get_yields image (0 + e.i) (by omega) (by omega)
    rw [forwardStep, hb, Run.ok_bind, Run.ok_bind, heq]
    refine ⟨⟨e.i + 1, e.i + 1, e.i + 1, e.i + 1⟩, ?_, ⟨by dsimp only; omega, by dsimp only; omega,
      rfl⟩, by dsimp only; omega⟩
    simp only [beq_self_eq_true, if_true]
    rw [if_pos (by omega)]

def copyEdit (image : Bytes) (pos : ℤ) : Edit UInt8 where
  diff := List.replicate image.length 0
  extra := []
  seek := pos - image.length

structure Copying (image body : Bytes) (s : Diffing) : Prop where
  before : s.scan < image.length →
    s.lastscan = 0 ∧ s.lastpos = 0 ∧ s.lastoffset = 0 ∧ s.body = body
  after : s.scan = image.length → ∃ pos : ℤ, 0 ≤ pos ∧ pos ≤ image.length ∧
    s.body = body ++ Edit.encode (copyEdit image pos)

section Copying

variable {sa : List ℕ} {s s' : Diffing} {t : Scan}

/-- The score is not below the match, so before the end they are equal. -/
theorem Settles.unchanged (h : Settles image image 0 t) : t.len ≤ t.oldscore := by
  obtain ⟨-, hscore, hlow, hcovered, hinside⟩ := h
  by_cases horder : t.scan ≤ t.scsc
  · rw [hits_unchanged hlow hinside] at hscore
    omega
  · omega

theorem regionEdit_unchanged {r : ℤ × ℤ} (hscan : s.lastscan = 0) (hpos : s.lastpos = 0)
    (hend : t.scan = image.length) (hr : r = ((image.length : ℤ), 0)) :
    regionEdit image image s t r = copyEdit image t.pos := by
  rw [regionEdit, copyEdit, hscan, hpos, hend, hr]
  simp [window]

theorem Turned.copying (h : Turned image image s t s') (hs : Copying image body s)
    (hlt : s.scan < image.length) (hpost : ScanPost image image (s.scan + s.len) t)
    (hsettles : t.scan < image.length → Settles image image s.lastoffset t) :
    Copying image body s' := by
  obtain ⟨hscan, hlastpos, hoffset, hbody⟩ := hs.before hlt
  rw [hoffset] at hsettles
  have hhigh := hpost.high
  cases h with
  | keeps hin =>
    exact ⟨fun _ => ⟨hscan, hlastpos, hoffset, hbody⟩, fun hend => absurd hin (by
      dsimp only at hend
      omega)⟩
  | @emits lenf lenb r hworth hforward hbackward hresolve hr =>
    have hend : t.scan = image.length := by
      by_contra hne
      have hin : t.scan < image.length := lt_of_le_of_ne hhigh hne
      have hscore := (hsettles hin).unchanged
      have hlonger := hworth hin
      omega
    have hlenb : lenb = 0 := by
      rw [backwardExtend, if_neg (by omega)] at hbackward
      exact (Except.ok.inj hbackward).symm
    rw [hend, hscan, hlastpos, forwardExtend_unchanged] at hforward
    have hlenf := Except.ok.inj hforward
    have hregions : r = ((image.length : ℤ), 0) := by
      rw [resolveOverlap, if_neg (by omega), Except.ok.injEq] at hresolve
      rw [← hresolve, ← hlenf, hlenb]
    rw [regionEdit_unchanged hscan hlastpos hend hregions, hbody]
    exact ⟨fun hin => absurd hin (by dsimp only; omega), fun _ =>
      ⟨t.pos, hpost.pos.1, hpost.pos.2, rfl⟩⟩

theorem bsdiff_unchanged (hne : image ≠ []) (body : Bytes) :
    Yields (bsdiff image image body) fun out => ∃ pos : ℤ, 0 ≤ pos ∧ pos ≤ image.length ∧
      out = body ++ Edit.encode (copyEdit image pos) := by
  have hpos := List.length_pos_of_ne_nil hne
  refine (suffixArrayWithSentinel_yields image).bind fun sa hsa => ?_
  refine iterate_yields (fun s => DiffInv image image body s ∧ Copying image body s) _
    (diffMeasure image) ?_ ⟨DiffInv.initial image image body, fun _ => ⟨rfl, rfl, rfl, rfl⟩,
      fun hend => absurd hend (by dsimp only; omega)⟩ ?_
  · rintro s ⟨hinv, hcopying⟩
    by_cases hlt : s.scan < image.length
    · obtain ⟨t, s', hscan, hpost, hturned, hturn⟩ := bsdiffTurn_turned hsa hinv hlt
      have hnext := (bsdiffTurn_yields hsa hinv).of_ok hturn
      exact ⟨_, hturn, ⟨hnext.1, hturned.copying hcopying hlt hpost
        (hinv.settles hsa hlt hscan)⟩, hnext.2⟩
    · have hscan := hinv.scan
      rw [bsdiffTurn, if_neg hlt]
      exact Yields.ok (hcopying.after (by omega))
  · simp only [diffMeasure]
    split_ifs <;> omega

end Copying

theorem lengthWidth_le_succ (n : ℕ) : lengthWidth n ≤ n + 1 := by
  have hloop : ∀ fuel v byte, (packSizeLoop fuel v byte).length ≤ fuel + 1 := by
    intro fuel
    induction fuel with
    | zero => exact fun v byte => Nat.le_refl 1
    | succ fuel ih =>
      intro v byte
      rw [packSizeLoop]
      split_ifs
      · rw [List.length_cons]
        exact Nat.succ_le_succ (ih _ _)
      · simp
  rw [lengthWidth, packSize, Int.natAbs_natCast]
  exact hloop _ _ _

theorem copyEdit_encode (image : Bytes) (pos : ℤ) : Edit.encode (copyEdit image pos) =
    packSize image.length ++ List.replicate image.length 0 ++ packSize 0 ++
      packSize (pos - image.length) := by
  simp [Edit.encode, copyEdit]

theorem copyEdit_compressed {pos : ℤ} (hpos : 0 ≤ pos) (hle : pos ≤ image.length) {w : ℕ}
    (hw : w = lengthWidth (3 * image.length + 4)) :
    Yields (crleCompress (packSize 0 ++ Edit.encode (copyEdit image pos))) fun out =>
      out.length ≤ crleBound (2 * w + 2) + 5 + w := by
  obtain ⟨body, hbody⟩ : ∃ b, b = packSize 0 ++ Edit.encode (copyEdit image pos) := ⟨_, rfl⟩
  have hzero : (packSize 0).length = 1 := rfl
  have hsize := @packSize_length_le image.length (3 * image.length + 4) (by omega)
  have hseek := @packSize_length_le (pos - image.length) (3 * image.length + 4) (by omega)
  have hlength : body.length = 2 + (packSize image.length).length +
      (packSize (pos - image.length)).length + image.length := by
    simp only [hbody, copyEdit_encode, List.length_append, List.length_replicate, hzero]
    omega
  rw [← hw] at hsize hseek
  rw [← hbody]
  by_cases hlong : CRLE_MIN_REPEAT ≤ image.length
  · have hrun : RunAt body (1 + (packSize image.length).length) image.length 0 := by
      intro k hk
      have hskip : (packSize 0 ++ packSize image.length).length + k =
          1 + (packSize image.length).length + k := by rw [List.length_append, hzero]
      rw [hbody, copyEdit_encode, ← hskip]
      simp only [← List.append_assoc]
      rw [List.append_assoc _ (packSize 0), List.append_assoc,
        List.getElem?_append_right (by omega), Nat.add_sub_cancel_left,
        List.getElem?_append_left (by simpa using hk), List.getElem?_replicate, if_pos hk]
    refine (crleCompress_run_length hrun hlong).mono fun out hout => ?_
    have hwidth : lengthWidth body.length ≤ w := by
      have hsucc := lengthWidth_le_succ image.length
      have hsizeSucc := @packSize_length_le image.length image.length (by omega)
      have hseekSucc := @packSize_length_le (pos - image.length) image.length (by omega)
      rw [hw]
      exact packSize_length_le (by omega)
    rw [crleBound] at hout ⊢
    omega
  · have hmin : CRLE_MIN_REPEAT = 6 := rfl
    have hpositive : 0 < w := by
      rw [hw]
      exact packSizeLoop_length_pos _ _ _
    refine (crleCompress_length body).mono fun out hout => ?_
    rw [crleBound] at hout ⊢
    omega

/-- The patch of an image against itself is one triple that copies the whole image, and takes a
few bytes whatever the size of the image. -/
theorem encodeSequential_unchanged (image : Bytes) : ∃ patch w,
    w = lengthWidth (3 * image.length + 4) ∧ encodeSequential image image = .ok patch ∧
      patch.length ≤ crleBound (2 * w + 2) + 2 * w + 6 ∧
      (image ≠ [] → ∃ pos : ℤ, 0 ≤ pos ∧ pos ≤ image.length ∧ sequentialBody image image =
        .ok (packSize 0 ++ Edit.encode (copyEdit image pos))) := by
  obtain ⟨w, hw⟩ : ∃ w, w = lengthWidth (3 * image.length + 4) := ⟨_, rfl⟩
  by_cases hne : image = []
  · subst hne
    refine ⟨[2, 0, 0, 1, 0], w, hw, by decide, ?_, fun hne => absurd rfl hne⟩
    rw [List.length_cons, crleBound]
    simp
  obtain ⟨body, hbsdiff, pos, hpos, hle, hbody⟩ := bsdiff_unchanged hne (packSize 0)
  have hsequential : sequentialBody image image = .ok body := by
    rw [sequentialBody, if_neg (by simpa using hne), hbsdiff]
  subst hbody
  obtain ⟨out, hout, hlength⟩ := copyEdit_compressed hpos hle hw
  refine ⟨_, w, hw, by rw [encodeSequential, hsequential, Run.ok_bind, hout, Run.ok_bind], ?_,
    fun _ => ⟨pos, hpos, hle, hsequential⟩⟩
  have hsize := @packSize_length_le image.length (3 * image.length + 4) (by omega)
  simp only [List.length_append, List.length_singleton]
  omega

/-- At most 27 bytes for an image of a mebibyte. -/
example : lengthWidth (3 * 2 ^ 20 + 4) = 4 ∧ crleBound (2 * 4 + 2) + 2 * 4 + 6 = 27 := by decide

end MotaTool.Encode
