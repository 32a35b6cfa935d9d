import MotaTool.Base.Overlay
import MotaTool.Encode.InPlace

/-!
# In-place patches rebuild the target in place

While a segment is decoded the memory is an overlay: the target so far, over the
shifted base. The base slice of a segment starts at or above the end of that
segment, so every read happens above the frontier and sees an original byte.
The edits of a segment then act on the memory as they do on the abstract
replay, and the segments follow one another.
-/

namespace MotaTool.Encode

open Base Run

structure Window (mem seg fromSize toSize : ℕ) : Prop where
  seg_pos : 0 < seg
  dvd : seg ∣ mem
  base : divCeil fromSize seg * seg + 2 * seg ≤ mem
  target : toSize ≤ mem

section Geometry

variable {mem seg fromSize toSize : ℕ}

theorem Window.calcShift_add (h : Window mem seg fromSize toSize) :
    calcShift mem seg (2 * seg) fromSize + divCeil fromSize seg * seg = mem := by
  have hmem := divCeil_of_dvd h.seg_pos h.dvd
  have hbase := h.base
  have hspare : (divCeil mem seg - divCeil fromSize seg) * seg =
      mem - divCeil fromSize seg * seg := by rw [Nat.sub_mul, hmem]
  dsimp only [calcShift]
  rw [hspare]
  omega

theorem Window.shifted_fits (h : Window mem seg fromSize toSize) :
    calcShift mem seg (2 * seg) fromSize + fromSize ≤ mem := by
  have hshift := h.calcShift_add
  have hbase := le_divCeil_mul fromSize h.seg_pos
  omega

end Geometry

theorem shiftBase_length {memory : Bytes} {shiftSize fromSize : ℕ}
    (h : shiftSize + fromSize ≤ memory.length) :
    (shiftBase memory shiftSize fromSize).length = memory.length := by
  simp only [shiftBase, List.length_append, List.length_take, List.length_drop]
  omega

theorem shiftBase_getElem? {memory old : Bytes} {shiftSize k : ℕ} {b : UInt8}
    (hfit : shiftSize + old.length ≤ memory.length) (hold : memory.take old.length = old)
    (hb : old[k]? = some b) :
    (shiftBase memory shiftSize old.length)[shiftSize + k]? = some b := by
  have hk : k < old.length := (List.getElem?_eq_some_iff.mp hb).1
  have hlow : (memory.take shiftSize).length = shiftSize := by
    rw [List.length_take]
    omega
  have hmid : old.take (memory.length - shiftSize) = old :=
    List.take_of_length_le (by omega)
  rw [shiftBase, hold, hmid, List.append_assoc, List.getElem?_append_right (by omega), hlow,
    List.getElem?_append_left (by omega), Nat.add_sub_cancel_left, hb]

/-- What decoding a segment relies on: byte `k` of its base slice stands unshifted at
`start + k`, above everything the segment writes. -/
structure Region (shifted base : Bytes) (start stop segment : ℕ) (good : Read → Prop) :
    Prop where
  holds : ∀ k b, base[k]? = some b → shifted[start + k]? = some b
  good : ∀ k b, base[k]? = some b → good ⟨segment, start + k, b⟩
  above : stop ≤ start
  fits : stop ≤ shifted.length

/-- The memory holds `out` over the shifted base, and every read so far was a good one. -/
structure Mirrors (shifted : Bytes) (start : ℕ) (good : Read → Prop) (out : Bytes)
    (cursor : ℤ) (p : Patching) : Prop where
  cells : p.device.cells = overlay out shifted
  target : p.target = out.length
  cursor : p.cursor = start + cursor
  reads : ∀ r ∈ p.device.reads, good r

section Segment

variable {shifted base out : Bytes} {start stop segment : ℕ} {good : Read → Prop}
  {cursor : ℤ} {p : Patching}

theorem Mirrors.restream (h : Mirrors shifted start good out cursor p) (stream : Bytes) :
    Mirrors shifted start good out cursor { p with stream := stream } :=
  ⟨h.cells, h.target, h.cursor, h.reads⟩

theorem Mirrors.writeByte (h : Mirrors shifted start good out cursor p)
    (hout : out.length < shifted.length) (b : UInt8) :
    ∃ q, writeByte p b = some q ∧ Mirrors shifted start good (out ++ [b]) cursor q ∧
      q.stream = p.stream := by
  have hlen := overlay_length hout.le
  refine ⟨_, if_pos (by rw [h.cells, hlen, h.target]; exact hout), ⟨?_, ?_, h.cursor, h.reads⟩,
    rfl⟩
  · rw [h.cells, h.target, overlay_set hout]
  · simp [h.target]

theorem Mirrors.readBase (hr : Region shifted base start stop segment good)
    (h : Mirrors shifted start good out cursor p) (hout : out.length ≤ stop) {k : ℕ} {b : UInt8}
    (hk : cursor = k) (hb : base[k]? = some b) :
    ∃ q, readBase segment p = some (b, q) ∧
      Mirrors shifted start good out (cursor + 1) q ∧ q.stream = p.stream := by
  have habove := hr.above
  have hcursor : p.cursor = (start + k : ℕ) := by rw [h.cursor, hk]; simp
  have hcell : p.device.cells[start + k]? = some b := by
    rw [h.cells, overlay_getElem? (by omega), hr.holds k b hb]
  refine ⟨⟨⟨p.device.cells, p.device.reads ++ [⟨segment, start + k, b⟩]⟩, p.target,
    p.cursor + 1, p.stream⟩, ?_, ⟨h.cells, h.target, ?_, ?_⟩, rfl⟩
  · simp only [Encode.readBase, hcursor, Int.natCast_nonneg, if_true, Int.toNat_natCast, hcell,
      Option.bind_eq_bind, Option.bind_some]
  · dsimp only
    rw [h.cursor]
    omega
  · intro r hmem
    rcases List.mem_append.mp hmem with hold | hnew
    · exact h.reads r hold
    · rw [List.mem_singleton.mp hnew]
      exact hr.good k b hb

theorem Mirrors.patchDiff (hr : Region shifted base start stop segment good)
    (h : Mirrors shifted start good out cursor p) (diff : Bytes) (h0 : 0 ≤ cursor)
    (hbase : cursor + diff.length ≤ base.length) (hout : out.length + diff.length ≤ stop) :
    ∃ q, diff.foldlM (patchByte segment) p = some q ∧
      Mirrors shifted start good
        (out ++ List.zipWith (· + ·) diff (window base cursor diff.length))
        (cursor + diff.length) q ∧ q.stream = p.stream := by
  induction diff generalizing out cursor p with
  | nil => exact ⟨p, rfl, by simpa [window] using h, rfl⟩
  | cons d ds ih =>
    have hfits := hr.fits
    simp only [List.length_cons, Nat.cast_add, Nat.cast_one] at hbase hout
    obtain ⟨k, rfl⟩ := Int.eq_ofNat_of_zero_le h0
    have hk : k < base.length := by omega
    obtain ⟨q, hread, hq, hqs⟩ :=
      h.readBase hr (by omega) rfl (List.getElem?_eq_getElem hk)
    obtain ⟨t, hwrite, ht, hts⟩ := hq.writeByte (by omega) (d + base[k])
    obtain ⟨u, hrest, hu, hus⟩ := ih ht (by omega) (by omega) (by simp; omega)
    have hbyte : patchByte segment p d = some t := by
      simp only [patchByte, hread, Option.bind_eq_bind, Option.bind_some, hwrite]
    refine ⟨u, by rw [List.foldlM_cons, hbyte]; exact hrest, ?_, by rw [hus, hts, hqs]⟩
    have hwindow : window base k (ds.length + 1) =
        base[k] :: window base (k + 1 : ℤ) ds.length := by
      have hnext : ((k : ℤ) + 1).toNat = k + 1 := by omega
      rw [window, window, Int.toNat_natCast, List.drop_eq_getElem_cons hk, List.take_succ_cons,
        hnext]
    rw [List.length_cons, hwindow, List.zipWith_cons_cons, Nat.cast_add, Nat.cast_one]
    rw [List.append_assoc, List.singleton_append] at hu
    convert hu using 1
    omega

theorem Mirrors.writeExtra (h : Mirrors shifted start good out cursor p) (extra : Bytes)
    (hout : out.length + extra.length ≤ shifted.length) :
    ∃ q, extra.foldlM Encode.writeByte p = some q ∧
      Mirrors shifted start good (out ++ extra) cursor q ∧ q.stream = p.stream := by
  induction extra generalizing out p with
  | nil => exact ⟨p, rfl, by simpa using h, rfl⟩
  | cons b bs ih =>
    rw [List.length_cons] at hout
    obtain ⟨q, hwrite, hq, hqs⟩ := h.writeByte (by omega) b
    obtain ⟨t, hrest, ht, hts⟩ := ih hq (by simp; omega)
    refine ⟨t, by rw [List.foldlM_cons, hwrite]; exact hrest, ?_, by rw [hts, hqs]⟩
    simpa using ht

theorem Mirrors.patchTriple (hr : Region shifted base start stop segment good)
    {before : Bytes} {e : Edit UInt8} {s t : Replay UInt8} (hap : e.Applies base s t)
    (h : Mirrors shifted start good (before ++ s.out) s.cursor p) {rest : Bytes}
    (hstream : p.stream = Edit.encode e ++ rest)
    (hout : before.length + t.out.length ≤ stop) :
    ∃ q, patchTriple segment p = some q ∧
      Mirrors shifted start good (before ++ t.out) t.cursor q ∧ q.stream = rest := by
  have hlen := hap.out_length
  have hfits := hr.fits
  have hwindow := window_length hap.low hap.high
  obtain ⟨q, hdiff, hq, hqs⟩ := (h.restream
    (packSize e.extra.length ++ (e.extra ++ (packSize e.seek ++ rest)))).patchDiff hr
    e.diff hap.low hap.high (by rw [List.length_append]; omega)
  obtain ⟨u, hextra, hu, hus⟩ := (hq.restream (packSize e.seek ++ rest)).writeExtra
    e.extra (by simp only [List.length_append, List.length_zipWith, hwindow]; omega)
  refine ⟨{ u with cursor := u.cursor + e.seek, stream := rest }, ?_,
    ⟨?_, ?_, ?_, hu.reads⟩, rfl⟩
  · simp only [Encode.patchTriple, hstream, Edit.encode, List.append_assoc, readBlock_append,
      Option.bind_eq_bind, Option.bind_some, hdiff, hqs, hextra, hus, unpackSize_packSize]
  · rw [hap.out]
    simpa using hu.cells
  · rw [hap.out]
    simpa using hu.target
  · dsimp only
    rw [hu.cursor, hap.cursor]
    omega

theorem Replays.out_length_le {α : Type*} [Add α] {base : List α} {total : ℕ}
    {es : List (Edit α)} {s t : Replay α} (h : Replays base total es s t) :
    s.out.length ≤ t.out.length := by
  induction h with
  | nil => exact le_rfl
  | cons _ hap _ ih =>
    have hlen := hap.out_length
    omega

theorem Mirrors.patchTriples (hr : Region shifted base start stop segment good)
    {before : Bytes} {total : ℕ} (hstop : before.length + total = stop) {es : List (Edit UInt8)}
    {s t : Replay UInt8} (hreplay : Replays base total es s t) (hend : t.out.length = total)
    (h : Mirrors shifted start good (before ++ s.out) s.cursor p) {rest : Bytes}
    (hstream : p.stream = encodeEdits es ++ rest) {fuel : ℕ}
    (hfuel : (encodeEdits es).length ≤ fuel) :
    ∃ q, patchTriples segment stop fuel p = some q ∧
      Mirrors shifted start good (before ++ t.out) t.cursor q ∧ q.stream = rest := by
  induction hreplay generalizing p fuel with
  | nil =>
    have htarget := h.target
    rw [List.length_append] at htarget
    have hdone : ¬ p.target < stop := by omega
    refine ⟨p, ?_, h, by simpa [encodeEdits] using hstream⟩
    cases fuel <;> rw [Encode.patchTriples, if_neg hdone]
  | @cons e es s t u hlt hap hrest ih =>
    have hpos := List.length_pos_iff.mpr (Edit.encode_ne_nil e)
    have htarget := h.target
    have hmono := Replays.out_length_le hrest
    rw [List.length_append] at htarget
    rw [encodeEdits_cons, List.length_append] at hfuel
    rw [encodeEdits_cons, List.append_assoc] at hstream
    obtain ⟨fuel, rfl⟩ : ∃ f, fuel = f + 1 := ⟨fuel - 1, by omega⟩
    obtain ⟨q, htriple, hq, hqs⟩ := h.patchTriple hr hap hstream (by omega)
    have hleft : (encodeEdits es).length ≤ fuel := by omega
    obtain ⟨v, hmore, hv, hvs⟩ := ih hend hq hqs hleft
    refine ⟨v, ?_, hv, hvs⟩
    rw [Encode.patchTriples, if_pos (by omega), htriple]
    exact hmore

end Segment

def segmentBase (old : Bytes) (seg shiftSize k : ℕ) : Bytes :=
  old.drop ((k + 1) * seg - shiftSize)

def segmentTarget (new : Bytes) (seg k : ℕ) : Bytes := (new.drop (k * seg)).take seg

theorem take_segmentTarget (new : Bytes) (seg k : ℕ) :
    new.take (k * seg) ++ segmentTarget new seg k = new.take ((k + 1) * seg) := by
  rw [segmentTarget, Nat.succ_mul, List.take_add]

theorem segmentTarget_length {new : Bytes} {seg k : ℕ} (h : k * seg < new.length) :
    k * seg + (segmentTarget new seg k).length = min ((k + 1) * seg) new.length := by
  rw [segmentTarget, List.length_take, List.length_drop, Nat.succ_mul]
  omega

inductive Segments (old new : Bytes) (seg shiftSize : ℕ) : ℕ → Bytes → Prop
  | zero : Segments old new seg shiftSize 0 []
  | succ {k : ℕ} {segments : Bytes} {es : List (Edit UInt8)} {cursor : ℤ} :
      Segments old new seg shiftSize k segments →
      Replays (segmentBase old seg shiftSize k) (segmentTarget new seg k).length es ⟨[], 0⟩
        ⟨segmentTarget new seg k, cursor⟩ →
      Segments old new seg shiftSize (k + 1) (segments ++ packSize 0 ++ encodeEdits es)

theorem getFrom_getD (v : Bytes) (start : ℕ) : (getFrom v start).getD [] = v.drop start := by
  unfold getFrom
  split_ifs with h
  · rfl
  · exact (List.drop_eq_nil_of_le (by omega)).symm

theorem encodeSegment_yields {old new segments : Bytes} {seg shiftSize k : ℕ}
    (hk : k * seg < new.length) (h : Segments old new seg shiftSize k segments) :
    Yields (encodeSegment old new seg shiftSize segments k)
      (Segments old new seg shiftSize (k + 1)) := by
  have htarget : ((new.drop (k * seg)).take (min (k * seg + seg) new.length - k * seg)) =
      segmentTarget new seg k := by
    rw [segmentTarget, List.take_eq_take_iff, List.length_drop]
    omega
  have hbase : old.drop (k * seg + seg - shiftSize) = segmentBase old seg shiftSize k := by
    rw [segmentBase, Nat.succ_mul]
  simp only [encodeSegment, getFrom_getD, hbase]
  rw [slice_ok (by omega) (min_le_right _ _), ok_bind, htarget]
  refine (bsdiff_yields _ _ _).mono fun out hout => ?_
  obtain ⟨es, cursor, rfl, hreplay⟩ := hout
  exact .succ h hreplay

theorem encodeSegments_yields (old : Bytes) {new : Bytes} {seg : ℕ} (shiftSize : ℕ) {k : ℕ}
    (hseg : 0 < seg) (hk : k ≤ divCeil new.length seg) :
    Yields ((List.range k).foldlM (encodeSegment old new seg shiftSize) [])
      (Segments old new seg shiftSize k) := by
  induction k with
  | zero => exact Yields.ok .zero
  | succ k ih =>
    rw [List.range_succ, List.foldlM_append]
    refine (ih (by omega)).bind fun segments hsegments => ?_
    rw [List.foldlM_cons]
    refine (encodeSegment_yields ((lt_divCeil_iff hseg).mp (by omega)) hsegments).bind ?_
    exact fun out hout => Yields.ok hout

/-- A read that found an original base byte above everything its segment writes. -/
structure Read.Original (old : Bytes) (seg shiftSize memorySize : ℕ) (r : Read) : Prop where
  above : (r.segment + 1) * seg ≤ r.address
  inside : r.address < memorySize
  shifted : shiftSize ≤ r.address
  value : old[r.address - shiftSize]? = some r.value

section Device

variable {memory old new : Bytes} {seg shiftSize : ℕ}

theorem segment_region (hshift : shiftSize + old.length ≤ memory.length)
    (hnew : new.length ≤ memory.length) (hold : memory.take old.length = old) (seg k : ℕ) :
    Region (shiftBase memory shiftSize old.length) (segmentBase old seg shiftSize k)
      (shiftSize + ((k + 1) * seg - shiftSize)) (min ((k + 1) * seg) new.length) k
      (Read.Original old seg shiftSize memory.length) := by
  have hbyte : ∀ {i : ℕ} {b : UInt8}, (segmentBase old seg shiftSize k)[i]? = some b →
      old[(k + 1) * seg - shiftSize + i]? = some b := fun hb => by
    rwa [segmentBase, List.getElem?_drop] at hb
  refine ⟨fun i b hb => ?_, fun i b hb => ?_, by omega, ?_⟩
  · rw [Nat.add_assoc]
    exact shiftBase_getElem? hshift hold (hbyte hb)
  · have hlt := (List.getElem?_eq_some_iff.mp (hbyte hb)).1
    refine ⟨by dsimp only; omega, by dsimp only; omega, by dsimp only; omega, ?_⟩
    have haddr : shiftSize + ((k + 1) * seg - shiftSize) + i - shiftSize =
        (k + 1) * seg - shiftSize + i := by omega
    dsimp only
    rw [haddr, hbyte hb]
  · rw [shiftBase_length hshift]
    omega

theorem patchSegments_prefix (hshift : shiftSize + old.length ≤ memory.length)
    (hnew : new.length ≤ memory.length) (hold : memory.take old.length = old) (hseg : 0 < seg)
    {k : ℕ} (hk : k ≤ divCeil new.length seg) {segments : Bytes}
    (h : Segments old new seg shiftSize k segments) (rest : Bytes) :
    ∃ device, (List.range k).foldlM (patchSegment seg shiftSize new.length)
        (⟨shiftBase memory shiftSize old.length, []⟩, segments ++ rest) = some (device, rest) ∧
      device.cells = overlay (new.take (k * seg)) (shiftBase memory shiftSize old.length) ∧
      ∀ r ∈ device.reads, r.Original old seg shiftSize memory.length := by
  induction h generalizing rest with
  | zero => exact ⟨_, rfl, by simp, by simp⟩
  | @succ k segments es cursor _ hreplay ih =>
    have hlt : k * seg < new.length := (lt_divCeil_iff hseg).mp (by omega)
    have hwritten : (new.take (k * seg)).length = k * seg := by
      rw [List.length_take]
      omega
    have hstop := segmentTarget_length hlt
    obtain ⟨device, hfold, hcells, hreads⟩ :=
      ih (by omega) (packSize 0 ++ (encodeEdits es ++ rest))
    have hregion := segment_region hshift hnew hold seg k
    have hstart : Mirrors (shiftBase memory shiftSize old.length)
        (shiftSize + ((k + 1) * seg - shiftSize))
        (Read.Original old seg shiftSize memory.length) (new.take (k * seg) ++ []) 0
        ⟨device, k * seg, (shiftSize + ((k + 1) * seg - shiftSize) : ℕ),
          encodeEdits es ++ rest⟩ :=
      ⟨by simpa using hcells, by simp [hwritten], by simp, hreads⟩
    have hfuel : (encodeEdits es).length ≤ (encodeEdits es ++ rest).length := by simp
    obtain ⟨p, hp, hmirror, hstream⟩ :=
      hstart.patchTriples hregion (by rw [hwritten, hstop]) hreplay rfl rfl hfuel
    have htarget := hmirror.target
    rw [List.length_append, hwritten, hstop] at htarget
    refine ⟨p.device, ?_, ?_, hmirror.reads⟩
    · rw [List.range_succ, List.foldlM_append, List.append_assoc, List.append_assoc, hfold,
        Option.bind_eq_bind, Option.bind_some, List.foldlM_cons]
      simp only [patchSegment, unpackSize_packSize, Option.bind_eq_bind, Option.bind_some, hp,
        htarget, and_self, if_true, hstream, List.foldlM_nil, Option.pure_def]
    · rw [hmirror.cells, take_segmentTarget]

end Device

def Patch (old new : Bytes) (mem seg shiftSize : ℕ) (patch : Bytes) : Prop :=
  ∃ segments compressed,
    patch = inPlaceHeader mem seg shiftSize old.length new.length ++ compressed ∧
      Segments old new seg shiftSize (divCeil new.length seg) segments ∧
      (new = [] → compressed = []) ∧ (new ≠ [] → crleExpand compressed = some segments)

section Whole

variable {memory old new : Bytes} {mem seg shiftSize : ℕ}

theorem encodeInPlace_yields (h : Window mem seg old.length new.length) :
    Yields (encodeInPlace old new mem seg)
      (Patch old new mem seg (calcShift mem seg (2 * seg) old.length)) := by
  have hfits := h.shifted_fits
  have hassert : 0 < seg ∧ mem % seg = 0 := ⟨h.seg_pos, Nat.mod_eq_zero_of_dvd h.dvd⟩
  have hsub : checkedSub mem (calcShift mem seg (2 * seg) old.length) =
      some (mem - calcShift mem seg (2 * seg) old.length) := if_pos (by omega)
  have hslice : slice old 0
      (min old.length (mem - calcShift mem seg (2 * seg) old.length)) = .ok old := by
    rw [slice_ok (Nat.zero_le _) (min_le_left _ _), List.drop_zero,
      List.take_of_length_le (by omega)]
  simp only [encodeInPlace, assert_of hassert, ok_bind, hsub, unwrap, hslice]
  refine (encodeSegments_yields old _ h.seg_pos le_rfl).bind fun segments hseg => ?_
  by_cases hempty : new = []
  · rw [if_pos (by simp [hempty])]
    exact Yields.ok ⟨segments, [], by simp, hseg, fun _ => rfl, fun hne => absurd hempty hne⟩
  · rw [if_neg (by simp [hempty])]
    refine (crleCompress_expands segments).bind fun compressed hexpand => ?_
    exact Yields.ok ⟨segments, compressed, rfl, hseg, fun hnil => absurd hnil hempty,
      fun _ => hexpand⟩

theorem decodeInPlace_header (hseg : 0 < seg) (compressed : Bytes) :
    decodeInPlace memory
        (inPlaceHeader memory.length seg shiftSize old.length new.length ++ compressed) =
      patchBody seg shiftSize new.length ⟨shiftBase memory shiftSize old.length, []⟩
        compressed := by
  have hheader : PATCH_TYPE_IN_PLACE <<< 4 ||| COMPRESSION_CRLE = 0x12 := by decide
  have hpos : (0 : ℤ) < seg := by omega
  simp only [inPlaceHeader, hheader, List.append_assoc, List.cons_append, List.nil_append,
    decodeInPlace, unpackSize_packSize, Option.bind_eq_bind, Option.bind_some,
    Int.toNat_natCast, hpos, Int.natCast_nonneg, true_and, if_true]

theorem Patch.decodes {patch : Bytes} (hp : Patch old new memory.length seg shiftSize patch)
    (hseg : 0 < seg) (hshift : shiftSize + old.length ≤ memory.length)
    (hnew : new.length ≤ memory.length) (hold : memory.take old.length = old) :
    ∃ device, decodeInPlace memory patch = some device ∧
      device.cells = overlay new (shiftBase memory shiftSize old.length) ∧
      ∀ r ∈ device.reads, r.Original old seg shiftSize memory.length := by
  obtain ⟨segments, compressed, rfl, hsegments, hnil, hexpand⟩ := hp
  rw [decodeInPlace_header hseg, patchBody]
  by_cases hempty : new = []
  · rw [if_pos (by simp [hempty]), if_pos (hnil hempty)]
    exact ⟨_, rfl, by simp [hempty], by simp⟩
  · obtain ⟨device, hfold, hcells, hreads⟩ :=
      patchSegments_prefix hshift hnew hold hseg le_rfl hsegments []
    have hall : new.take (divCeil new.length seg * seg) = new :=
      List.take_of_length_le (le_divCeil_mul new.length hseg)
    rw [List.append_nil] at hfold
    rw [hall] at hcells
    refine ⟨device, ?_, hcells, hreads⟩
    rw [if_neg (by simpa using hempty), hexpand hempty, Option.bind_eq_bind, Option.bind_some,
      patchSegments, hfold, Option.bind_eq_bind, Option.bind_some]
    exact if_pos rfl

end Whole

/-- Encoding ends without a panic, and on any memory that starts with the base the device
ends with the target at the bottom of a memory of unchanged size. -/
theorem encodeInPlace_rebuilds {old new : Bytes} {mem seg : ℕ}
    (h : Window mem seg old.length new.length) :
    ∃ patch, encodeInPlace old new mem seg = .ok patch ∧
      ∀ memory : Bytes, memory.length = mem → memory.take old.length = old →
        ∃ device, decodeInPlace memory patch = some device ∧ device.cells.length = mem ∧
          device.cells.take new.length = new ∧
          ∀ r ∈ device.reads,
            r.Original old seg (calcShift mem seg (2 * seg) old.length) mem := by
  have hfits := h.shifted_fits
  obtain ⟨patch, hencode, hpatch⟩ := encodeInPlace_yields h
  refine ⟨patch, hencode, ?_⟩
  rintro memory rfl hold
  obtain ⟨device, hdecode, hcells, hreads⟩ :=
    hpatch.decodes h.seg_pos hfits h.target hold
  have hlen := shiftBase_length hfits
  refine ⟨device, hdecode, ?_, by rw [hcells, overlay_take], hreads⟩
  rw [hcells, overlay_length (by rw [hlen]; exact h.target), hlen]

end MotaTool.Encode
