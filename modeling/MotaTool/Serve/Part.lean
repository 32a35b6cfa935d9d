import MotaTool.Serve.Capture

/-!
# A part is an array with blanks

The log of an id is what was asked of it since its last `BEGIN`: the total and
the writes that were accepted. As long as writes end within the part, the part
has that total, and each of its cells holds the byte of the last write that
covered it or what the fresh part held there. A write that ends beyond the part
is accepted and makes it longer.
-/

namespace MotaTool.Serve

open Base Run Format seeder

/-- The total of a `BEGIN`, and the accepted writes since, the last one first. -/
structure Log where
  total : ℕ
  writes : List (ℕ × Bytes)

def Log.byte (seed : Option (Bytes × UInt32)) (log : Log) (i : ℕ) : UInt8 :=
  match log.writes.find? fun w => decide (w.1 ≤ i) && decide (i < w.1 + w.2.length) with
  | some (off, data) => data.getD (i - off) 0
  | none => unwritten seed i

def Log.record (log : Option Log) : Verb → Option Log
  | .begin total => some ⟨total, []⟩
  | .write off (some data) => log.map fun l => ⟨l.total, (off, data) :: l.writes⟩
  | .fin => none
  | _ => log

def Log.extend (mid : Bytes) (log : Option Log) (entry : Call × Reply) : Option Log :=
  if entry.1.mid = mid ∧ entry.2.1 = STATUS_OK then Log.record log entry.1.verb else log

def logOf (mid : Bytes) (history : List (Call × Reply)) : Option Log :=
  history.foldl (Log.extend mid) none

def Tracks (seed : Option (Bytes × UInt32)) (log : Option Log) (slot : Slot) : Prop :=
  match log with
  | some l => ∃ bytes, slot.part = some bytes ∧ bytes.length = l.total ∧
      ∀ i < l.total, bytes[i]? = some (l.byte seed i)
  | none => slot.part = none

def Within (slot : Slot) (verb : Verb) : Prop := ∀ off data bytes,
  verb = .write off (some data) → slot.part = some bytes → off + data.length ≤ bytes.length

section Steps

variable {c : Crypto} {core : SeederCore c} {log : Option Log} {slot : Slot} {verb : Verb}

theorem Log.byte_inside {seed : Option (Bytes × UInt32)} {log : Log} {off i : ℕ} {data : Bytes}
    (h : off ≤ i ∧ i < off + data.length) :
    Log.byte seed ⟨log.total, (off, data) :: log.writes⟩ i = data.getD (i - off) 0 := by
  rw [Log.byte, List.find?_cons_of_pos (by simpa using h)]

theorem Log.byte_outside {seed : Option (Bytes × UInt32)} {log : Log} {off i : ℕ} {data : Bytes}
    (h : ¬ (off ≤ i ∧ i < off + data.length)) :
    Log.byte seed ⟨log.total, (off, data) :: log.writes⟩ i = Log.byte seed log i := by
  rw [Log.byte, Log.byte, List.find?_cons_of_neg (by simpa using h)]

theorem Tracks.write {seed : Option (Bytes × UInt32)} {l : Log} {old data : Bytes} {off : ℕ}
    (h : Tracks seed (some l) slot) (hpart : slot.part = some old)
    (hfits : off + data.length ≤ old.length) :
    Tracks seed (some ⟨l.total, (off, data) :: l.writes⟩)
      { slot with part := some (writeAt 0 old off data) } := by
  obtain ⟨bytes, hbytes, hlength, hcells⟩ := h
  rw [hpart] at hbytes
  cases hbytes
  refine ⟨_, rfl, by rw [writeAt_length_within hfits, hlength], fun i hi => ?_⟩
  change i < l.total at hi
  by_cases hin : off ≤ i ∧ i < off + data.length
  · rw [writeAt_inside hin.1 hin.2, Log.byte_inside hin, List.getD_eq_getElem?_getD,
      List.getElem?_eq_getElem (by omega), Option.getD_some]
  · rw [writeAt_outside hin (by omega), Log.byte_outside hin, hcells i hi]

theorem Tracks.step (h : Tracks core.seed log slot) (hwithin : Within slot verb) :
    Tracks core.seed
      (if (slot.step core.freshPart verb).1.1 = STATUS_OK then Log.record log verb else log)
      (slot.step core.freshPart verb).2 := by
  have hrefused : ∀ r : Reply × Slot, r = (refused, slot) → Tracks core.seed
      (if r.1.1 = STATUS_OK then Log.record log verb else log) r.2 := fun r hr => by
    have hne : ¬ ((refused, slot) : Reply × Slot).1.1 = STATUS_OK := by
      change ¬ STATUS_ERR = STATUS_OK
      decide
    rw [hr, if_neg hne]
    exact h
  cases verb with
  | stat => simpa [Log.record] using h
  | begin total =>
    have hok : (slot.step core.freshPart (.begin total)).1.1 = STATUS_OK := rfl
    rw [if_pos hok]
    exact ⟨_, rfl, freshPart_length core total, fun i hi => by
      rw [freshPart_getElem?, if_pos hi]
      rfl⟩
  | write off data =>
    cases data with
    | none => exact hrefused _ rfl
    | some data =>
      cases hpart : slot.part with
      | none => exact hrefused _ (by simp only [Slot.step, hpart])
      | some old =>
        have hfits := hwithin off data old rfl hpart
        have hstep : slot.step core.freshPart (.write off (some data)) =
            (status true, { slot with part := some (writeAt 0 old off data) }) := by
          simp only [Slot.step, hpart]
        rw [hstep]
        cases log with
        | none =>
          rw [Tracks, hpart] at h
          cases h
        | some l => exact h.write hpart hfits
  | sread off len => simpa [Log.record] using h
  | fin =>
    cases hpart : slot.part with
    | none => exact hrefused _ (by simp only [Slot.step, hpart])
    | some bytes =>
      by_cases hready : Publishable bytes
      · have hstep : slot.step core.freshPart .fin = (status true, ⟨none, some bytes⟩) := by
          simp only [Slot.step, hpart, if_pos hready]
        rw [hstep]
        rfl
      · exact hrefused _ (by simp only [Slot.step, hpart, if_neg hready])

end Steps

section Runs

variable {c : Crypto} {core : SeederCore c} {z : Compressors} {store : String}
  {files files' : Files} {history : List (Call × Reply)} {mid : Bytes}

def WritesWithin (store : String) (files : Files) (call : Call) : Prop :=
  Within (slotOf store files call.mid) call.verb

theorem guarded_tracks (hstore : core.storeDir = some store) (hmid : mid.length = 4)
    {log : Option Log} (h : Guarded core z (WritesWithin store) files history files')
    (hslot : Tracks core.seed log (slotOf store files mid)) :
    Tracks core.seed (history.foldl (Log.extend mid) log) (slotOf store files' mid) := by
  induction h generalizing log with
  | nil => exact hslot
  | @cons call reply history files files' files'' hsafe hhead htail ih =>
    obtain ⟨hreply, hmoves⟩ := handle_moves hstore hhead
    refine ih ?_
    unfold Log.extend
    by_cases hown : call.mid = mid
    · rw [← hown] at hslot ⊢
      rw [hmoves.own, hreply]
      simpa only [true_and] using hslot.step hsafe
    · rw [if_neg fun h => hown h.1, hmoves.others call.mid_length hmid (Ne.symm hown)]
      exact hslot

/-- A part with its total length, from which the bytes of the log are read. -/
structure Faithful (core : SeederCore c) (z : Compressors) (store : String) (files : Files)
    (mid : Bytes) (log : Log) : Prop where
  size : (files (storePath store mid true)).map List.length = some log.total
  sread : ∀ call : Call, call.op = OP_SREAD → call.mid = mid → call.off + call.len ≤ log.total →
    core.handle posix z call.op call.args files = .ok (some (STATUS_OK,
      (List.range call.len).map fun j => log.byte core.seed (call.off + j)), files)

theorem Tracks.faithful (hstore : core.storeDir = some store) {log : Log}
    (h : Tracks core.seed (some log) (slotOf store files mid)) :
    Faithful core z store files mid log := by
  obtain ⟨bytes, hpart, hlength, hcells⟩ := h
  refine ⟨?_, fun call hop hmid hfits => ?_⟩
  · change ((slotOf store files mid).part).map List.length = _
    rw [hpart, Option.map_some, hlength]
  · obtain ⟨reply, files', hhandle, hreply, hmoves⟩ := @handle_call c core z store files hstore call
    rw [hmid, Call.verb_sread hop] at hreply hmoves
    rw [Slot.step_sread] at hmoves
    rw [hhandle, hmoves.unchanged, hreply]
    have hread : ((slotOf store files mid).step core.freshPart (.sread call.off call.len)).1 =
        (STATUS_OK, (bytes.drop call.off).take call.len) := by
      have hsome : (slotOf store files mid).part.or (slotOf store files mid).done = some bytes := by
        rw [hpart]
        rfl
      simp only [Slot.step, hsome, if_pos (show call.len = 0 ∨ call.off + call.len ≤ bytes.length
        by omega)]
    rw [hread]
    congr 4
    refine List.ext_getElem? fun j => ?_
    by_cases hj : j < call.len
    · rw [List.getElem?_take_of_lt hj, List.getElem?_drop, hcells _ (by omega),
        List.getElem?_map, List.getElem?_range hj, Option.map_some]
    · rw [List.getElem?_eq_none, List.getElem?_eq_none]
      · simpa using hj
      · rw [List.length_take]
        omega

/-- As long as every write ends within its part, parts are arrays of their totals, which hold the
last accepted write or what was there before any. -/
theorem parts_faithful (core : SeederCore c) (z : Compressors) (store : String)
    (hstore : core.storeDir = some store) (history : List (Call × Reply)) (files : Files)
    (h : Guarded core z (WritesWithin store) (fun _ => none) history files) (mid : Bytes)
    (hmid : mid.length = 4) :
    (∀ log, logOf mid history = some log → Faithful core z store files mid log) ∧
      (logOf mid history = none → files (storePath store mid true) = none) := by
  have htracks : Tracks core.seed (logOf mid history) (slotOf store files mid) :=
    guarded_tracks hstore hmid h rfl
  refine ⟨fun log hlog => ?_, fun hlog => ?_⟩
  · rw [hlog] at htracks
    exact htracks.faithful hstore
  · rw [hlog] at htracks
    exact htracks

/-- A write that ends beyond its part is never refused, and changes the length. -/
theorem write_beyond (hstore : core.storeDir = some store) {call : Call} {data bytes : Bytes}
    (hop : call.op = OP_WRITE) (hdata : call.data = some data)
    (hpart : files (storePath store call.mid true) = some bytes)
    (hbeyond : bytes.length < call.off + data.length) : ∃ files',
      core.handle posix z call.op call.args files = .ok (some (status true), files') ∧
      (data ≠ [] → (files' (storePath store call.mid true)).map List.length =
        some (call.off + data.length)) := by
  obtain ⟨reply, files', hhandle, hreply, hmoves⟩ := @handle_call c core z store files hstore call
  have hslot : (slotOf store files call.mid).part = some bytes := hpart
  have hstep : (slotOf store files call.mid).step core.freshPart (.write call.off (some data)) =
      (status true,
        { slotOf store files call.mid with part := some (writeAt 0 bytes call.off data) }) := by
    simp only [Slot.step, hslot]
  rw [Call.verb_write hop, hdata, hstep] at hreply hmoves
  refine ⟨files', by rw [hhandle, hreply], fun hne => ?_⟩
  have hnew := congrArg Slot.part hmoves.own
  change files' (storePath store call.mid true) = _ at hnew
  rw [hnew, Option.map_some, writeAt_length hne, Nat.max_eq_right (by omega)]

end Runs

theorem begin_tiny : ∃ files,
    storeCore.handle posix noCompressors (beginCall 1).op (beginCall 1).args (fun _ => none) =
      .ok (some (status true), files) ∧ slotOf "store" files tinyMid = ⟨some [0xff], none⟩ := by
  obtain ⟨reply, files, hhandle, rfl, hmoves⟩ :=
    @handle_call Crypto.plain storeCore noCompressors "store" (fun _ => none) rfl (beginCall 1)
  exact ⟨files, hhandle, hmoves.own⟩

theorem parts_faithful_tiny : ∃ history files,
    history.map Prod.fst = [beginCall 1, writeCall 0 1 [0x41]] ∧
      (∀ log, logOf tinyMid history = some log →
        Faithful storeCore noCompressors "store" files tinyMid log) ∧
      (logOf tinyMid history = none → files (storePath "store" tinyMid true) = none) := by
  obtain ⟨files, hbegin, hslot⟩ := begin_tiny
  have hpart : files (storePath "store" tinyMid true) = some [0xff] := congrArg Slot.part hslot
  obtain ⟨reply, files', hwrite, -, -⟩ :=
    @handle_call Crypto.plain storeCore noCompressors "store" files rfl (writeCall 0 1 [0x41])
  refine ⟨[(beginCall 1, status true), (writeCall 0 1 [0x41], reply)], files', rfl,
    parts_faithful storeCore noCompressors "store" rfl _ files'
      (.cons (fun _ _ _ hverb => by cases hverb) hbegin (.cons ?_ hwrite .nil)) tinyMid rfl⟩
  intro off data bytes hverb hbytes
  obtain ⟨rfl, rfl⟩ : off = 0 ∧ [0x41] = data := by
    have hcall : (writeCall 0 1 [0x41]).verb = .write 0 (some [0x41]) := rfl
    rw [hcall] at hverb
    cases hverb
    exact ⟨rfl, rfl⟩
  have hone : some [0xff] = some bytes := hpart.symm.trans hbytes
  cases hone
  decide

/-- A write of one byte behind a gap makes a part of one byte three bytes long. -/
theorem parts_extended : ∃ history files,
    Serves storeCore noCompressors (fun _ => none) history files ∧
      logOf tinyMid history = some ⟨1, [(2, [0x41])]⟩ ∧
      ¬ Faithful storeCore noCompressors "store" files tinyMid ⟨1, [(2, [0x41])]⟩ := by
  obtain ⟨files, hbegin, hslot⟩ := begin_tiny
  have hpart : files (storePath "store" tinyMid true) = some [0xff] := congrArg Slot.part hslot
  obtain ⟨files', hwrite, hlong⟩ := @write_beyond Crypto.plain storeCore noCompressors "store"
    files rfl (writeCall 2 1 [0x41]) [0x41] [0xff] rfl rfl hpart (by decide)
  refine ⟨[(beginCall 1, status true), (writeCall 2 1 [0x41], status true)], files',
    .cons hbegin (.cons hwrite .nil), rfl, fun hfaithful => ?_⟩
  have hsize := (hlong (by simp)).symm.trans hfaithful.size
  exact absurd hsize (by decide)

end MotaTool.Serve
