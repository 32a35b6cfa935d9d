import MotaTool.Serve.Part

/-!
# What is present and what is read

`STAT` prefers the published file of an id, `SREAD` the partial one. They
describe one object exactly while the two files, when both exist, have one
size, and that holds in a run as long as no request leaves a part of another
size beside a published file.
-/

namespace MotaTool.Serve

open Base Run Format seeder

/-- The total of `STAT` bounds what `SREAD` returns, and what is absent is not read. -/
def Agree {c : Crypto} (core : SeederCore c) (z : Compressors) (files : Files) (mid : Bytes) :
    Prop :=
  ∀ (stat sread : Call) (reply read : Reply) (files' files'' : Files),
    stat.op = OP_STAT → stat.mid = mid → sread.op = OP_SREAD → sread.mid = mid → 0 < sread.len →
    core.handle posix z stat.op stat.args files = .ok (some reply, files') →
    core.handle posix z sread.op sread.args files = .ok (some read, files'') →
    (∀ n < 2 ^ 32, reply = (STATUS_OK, [1] ++ toLe 4 n) →
      (read.1 = STATUS_OK ↔ sread.off + sread.len ≤ n)) ∧
    (reply = (STATUS_OK, [0] ++ toLe 4 0) → read.1 = STATUS_ERR)

def SameSize (slot : Slot) : Prop := ∀ part done,
  slot.part = some part → slot.done = some done → part.length = done.length

def Told (slot : Slot) : Prop := ∀ bytes,
  slot.part = some bytes ∨ slot.done = some bytes → bytes.length < 2 ^ 32

def KeepsSize (slot : Slot) (verb : Verb) : Prop := ∀ done, slot.done = some done →
  (∀ total, verb = .begin total → total = done.length) ∧
    ∀ off data part, verb = .write off (some data) → data ≠ [] → slot.part = some part →
      max part.length (off + data.length) = done.length

section Requests

variable {mid : Bytes} (hmid : mid.length = 4)

def readOne (mid : Bytes) (hmid : mid.length = 4) (off : ℕ) : Call :=
  ⟨OP_SREAD, mid ++ toLe 4 off ++ toLe 2 1, .inr (.inr (.inr (.inl rfl))), 10, rfl, by simp [hmid]⟩

def statCall (mid : Bytes) (hmid : mid.length = 4) : Call :=
  ⟨OP_STAT, mid, .inl rfl, 4, rfl, by rw [hmid]⟩

theorem statCall_mid : (statCall mid hmid).mid = mid :=
  List.take_of_length_le (by simp [statCall, hmid])

theorem readOne_mid (off : ℕ) : (readOne mid hmid off).mid = mid := by
  change (mid ++ toLe 4 off ++ toLe 2 1).take 4 = mid
  rw [List.append_assoc, ← hmid, List.take_left]

theorem readOne_off {off : ℕ} (h : off < 2 ^ 32) : (readOne mid hmid off).off = off := by
  change ofLe (((mid ++ toLe 4 off ++ toLe 2 1).drop 4).take 4) = off
  rw [List.append_assoc, List.drop_left' hmid, List.take_left' (toLe_length 4 off)]
  exact ofLe_toLe h

theorem readOne_len (off : ℕ) : (readOne mid hmid off).len = 1 := by
  change ofLe (((mid ++ toLe 4 off ++ toLe 2 1).drop 8).take 2) = 1
  rw [List.drop_left' (by rw [List.length_append, hmid, toLe_length])]
  rfl

end Requests

section Slots

variable {c : Crypto} {core : SeederCore c} {z : Compressors} {store : String} {files : Files}
  {mid : Bytes} {fresh : ℕ → Bytes} {slot : Slot} {verb : Verb}

theorem sread_ok {off len : ℕ} (hlen : 0 < len) :
    (slot.step fresh (.sread off len)).1.1 = STATUS_OK ↔
      ∃ bytes, slot.part.or slot.done = some bytes ∧ off + len ≤ bytes.length := by
  have herr : ¬ STATUS_ERR = STATUS_OK := by decide
  cases hsource : slot.part.or slot.done with
  | none =>
    simp only [Slot.step, hsource]
    refine ⟨fun h => absurd h herr, ?_⟩
    rintro ⟨_, h, -⟩
    cases h
  | some bytes =>
    simp only [Slot.step, hsource]
    split_ifs with hfits
    · exact ⟨fun _ => ⟨bytes, rfl, by omega⟩, fun _ => rfl⟩
    · refine ⟨fun h => absurd h herr, ?_⟩
      rintro ⟨_, heq, hle⟩
      cases heq
      exact absurd (.inr hle) hfits

theorem sread_status (off len : ℕ) : (slot.step fresh (.sread off len)).1.1 = STATUS_OK ∨
    (slot.step fresh (.sread off len)).1.1 = STATUS_ERR := by
  simp only [Slot.step]
  split
  · split_ifs
    · exact .inl rfl
    · exact .inr rfl
  · exact .inr rfl

theorem stat_present {bytes : Bytes} (h : slot.done.or slot.part = some bytes) :
    (slot.step fresh .stat).1 = (STATUS_OK, [1] ++ toLe 4 bytes.length) := by
  simp only [Slot.step, h]

theorem stat_absent (h : slot.done.or slot.part = none) :
    (slot.step fresh .stat).1 = (STATUS_OK, [0] ++ toLe 4 0) := by
  simp only [Slot.step, h]

theorem toLe_injective {m n : ℕ} (hm : m < 2 ^ 32) (hn : n < 2 ^ 32) (h : toLe 4 m = toLe 4 n) :
    m = n := by
  rw [← @ofLe_toLe 4 m hm, h, @ofLe_toLe 4 n hn]

theorem SameSize.sources (h : SameSize slot) : slot.done.or slot.part = none ∧
    slot.part.or slot.done = none ∨ ∃ bytes bytes', slot.done.or slot.part = some bytes ∧
      slot.part.or slot.done = some bytes' ∧ bytes'.length = bytes.length := by
  cases hpart : slot.part with
  | none =>
    cases hdone : slot.done with
    | none => exact .inl ⟨rfl, rfl⟩
    | some done => exact .inr ⟨done, done, rfl, rfl, rfl⟩
  | some part =>
    cases hdone : slot.done with
    | none => exact .inr ⟨part, part, rfl, rfl, rfl⟩
    | some done => exact .inr ⟨done, part, rfl, rfl, h part done hpart hdone⟩

theorem Told.source (h : Told slot) {bytes : Bytes} (hb : slot.done.or slot.part = some bytes) :
    bytes.length < 2 ^ 32 := by
  refine h bytes ?_
  cases hdone : slot.done with
  | none =>
    rw [hdone] at hb
    exact .inl hb
  | some done =>
    rw [hdone] at hb
    exact .inr hb

/-- In a store state, `STAT` and `SREAD` of an id agree exactly if its two files are of one
size or not both there. -/
theorem agree_iff (hstore : core.storeDir = some store) (hmid : mid.length = 4)
    (htold : Told (slotOf store files mid)) :
    Agree core z files mid ↔ SameSize (slotOf store files mid) := by
  constructor
  · intro hagree part done hpart hdone
    have hdoneTold := htold done (.inr hdone)
    have hpartTold := htold part (.inl hpart)
    -- the byte at offset `off` is there for the one request and not for the other
    have hcompare : ∀ off < 2 ^ 32, off + 1 ≤ part.length ↔ off + 1 ≤ done.length := by
      intro off hoff
      obtain ⟨reply, files', hstat, hreply, -⟩ :=
        @handle_call c core z store files hstore (statCall mid hmid)
      obtain ⟨read, files'', hsread, hread, -⟩ :=
        @handle_call c core z store files hstore (readOne mid hmid off)
      rw [statCall_mid, Call.verb_stat rfl, stat_present (by rw [hdone]; rfl)] at hreply
      rw [readOne_mid, Call.verb_sread rfl, readOne_off hmid hoff, readOne_len] at hread
      have hboth := (hagree _ _ _ _ _ _ rfl (statCall_mid hmid) rfl (readOne_mid hmid off)
        (by rw [readOne_len]; exact Nat.zero_lt_one) hstat hsread).1 done.length hdoneTold hreply
      rw [hread, sread_ok Nat.zero_lt_one, readOne_off hmid hoff, readOne_len, hpart] at hboth
      simpa using hboth
    rcases Nat.lt_trichotomy part.length done.length with hlt | heq | hgt
    · have hlast := (hcompare (done.length - 1) (by omega)).mpr (by omega)
      omega
    · exact heq
    · have hlast := (hcompare (part.length - 1) (by omega)).mp (by omega)
      omega
  · intro hsame stat sread reply read files' files'' hstat hstatMid hsread hsreadMid hlen hreply
      hread
    obtain ⟨hreply, -⟩ := handle_moves hstore hreply
    obtain ⟨hread, -⟩ := handle_moves hstore hread
    rw [hstatMid, Call.verb_stat hstat] at hreply
    rw [hsreadMid, Call.verb_sread hsread] at hread
    rw [hread, hreply]
    rcases hsame.sources with ⟨hfirst, hsecond⟩ | ⟨bytes, bytes', hfirst, hsecond, hlength⟩
    · rw [stat_absent hfirst]
      refine ⟨fun n hn hpresent => by simp at hpresent, fun _ => ?_⟩
      refine (sread_status _ _).resolve_left fun hok => ?_
      obtain ⟨bytes, hsource, -⟩ := (sread_ok hlen).mp hok
      rw [hsecond] at hsource
      cases hsource
    · rw [stat_present hfirst]
      refine ⟨fun n hn hpresent => ?_, fun habsent => by simp at habsent⟩
      obtain rfl : bytes.length = n := toLe_injective (htold.source hfirst) hn
        (List.append_cancel_left (Prod.mk.inj hpresent).2)
      rw [sread_ok hlen, ← hlength, hsecond]
      simp

end Slots

section Runs

variable {c : Crypto} {core : SeederCore c} {z : Compressors} {store : String}
  {files files' : Files} {history : List (Call × Reply)} {mid : Bytes} {slot : Slot} {verb : Verb}

theorem SameSize.step (h : SameSize slot) (hkeeps : KeepsSize slot verb) :
    SameSize (slot.step core.freshPart verb).2 := by
  cases verb with
  | stat => simpa using h
  | begin total =>
    intro part done hpart hdone
    obtain rfl := Option.some.inj hpart
    rw [freshPart_length]
    exact (hkeeps done hdone).1 total rfl
  | write off data =>
    cases data with
    | none => exact h
    | some data =>
      cases hold : slot.part with
      | none => simpa only [Slot.step, hold] using h
      | some old =>
        simp only [Slot.step, hold]
        intro part done hpart hdone
        obtain rfl := Option.some.inj hpart
        by_cases hempty : data = []
        · rw [hempty, writeAt_nil]
          exact h old done hold hdone
        · rw [writeAt_length hempty]
          exact (hkeeps done hdone).2 off data old rfl hempty hold
  | sread off len => simpa using h
  | fin =>
    cases hold : slot.part with
    | none => simpa only [Slot.step, hold] using h
    | some bytes =>
      simp only [Slot.step, hold]
      split_ifs
      · intro part done hpart
        cases hpart
      · exact h

def SizesKept (store : String) (files : Files) (call : Call) : Prop :=
  KeepsSize (slotOf store files call.mid) call.verb

theorem guarded_sameSize (hstore : core.storeDir = some store) (hmid : mid.length = 4)
    (h : Guarded core z (SizesKept store) files history files')
    (hslot : SameSize (slotOf store files mid)) : SameSize (slotOf store files' mid) := by
  induction h with
  | nil => exact hslot
  | @cons call reply history files files' files'' hsafe hhead htail ih =>
    obtain ⟨-, hmoves⟩ := handle_moves hstore hhead
    refine ih ?_
    by_cases hown : call.mid = mid
    · rw [← hown] at hslot ⊢
      rw [hmoves.own]
      exact hslot.step hsafe
    · rw [hmoves.others call.mid_length hmid (Ne.symm hown)]
      exact hslot

/-- In a run that never leaves a part of another size beside a published file, `STAT` and
`SREAD` describe one object in every state. -/
theorem stat_sread_agree (core : SeederCore c) (z : Compressors) (store : String)
    (hstore : core.storeDir = some store) (history : List (Call × Reply)) (files : Files)
    (h : Guarded core z (SizesKept store) (fun _ => none) history files) (mid : Bytes)
    (hmid : mid.length = 4) (htold : Told (slotOf store files mid)) : Agree core z files mid :=
  (agree_iff hstore hmid htold).mpr (guarded_sameSize hstore hmid h fun _ _ hpart => nomatch hpart)

end Runs

/-- A container is published and a part of its size begun beside it. -/
theorem stat_sread_agree_tiny : ∃ (history : List (Call × Reply)) (files : Files),
    history.map Prod.fst = [beginCall 8, writeCall 0 8 tinyContainer, finCall, beginCall 8] ∧
      slotOf "store" files tinyMid = ⟨some (List.replicate 8 0xff), some tinyContainer⟩ ∧
      Agree storeCore noCompressors files tinyMid := by
  obtain ⟨r₁, files₁, h₁, hslot₁⟩ := @handle_slot _ storeCore noCompressors "store"
    (fun _ => none) rfl (beginCall 8) tinyMid rfl
  have hfresh : slotOf "store" files₁ tinyMid = ⟨some (List.replicate 8 0xff), none⟩ := hslot₁
  obtain ⟨r₂, files₂, h₂, hslot₂⟩ := @handle_slot _ storeCore noCompressors "store" files₁ rfl
    (writeCall 0 8 tinyContainer) tinyMid rfl
  rw [hfresh] at hslot₂
  have hwritten : slotOf "store" files₂ tinyMid = ⟨some tinyContainer, none⟩ := hslot₂
  obtain ⟨r₃, files₃, h₃, hslot₃⟩ := @handle_slot _ storeCore noCompressors "store" files₂ rfl
    finCall tinyMid rfl
  rw [hwritten] at hslot₃
  have hpublished : slotOf "store" files₃ tinyMid = ⟨none, some tinyContainer⟩ := hslot₃
  obtain ⟨r₄, files₄, h₄, hslot₄⟩ := @handle_slot _ storeCore noCompressors "store" files₃ rfl
    (beginCall 8) tinyMid rfl
  rw [hpublished] at hslot₄
  have hagain : slotOf "store" files₄ tinyMid =
      ⟨some (List.replicate 8 0xff), some tinyContainer⟩ := hslot₄
  have hunpublished : ∀ {files : Files} {call : Call} {part : Option Bytes}, call.mid = tinyMid →
      slotOf "store" files tinyMid = ⟨part, none⟩ → SizesKept "store" files call := by
    intro files call part hown hslot done hdone
    rw [hown, hslot] at hdone
    cases hdone
  have hguarded : Guarded storeCore noCompressors (SizesKept "store") (fun _ => none)
      [(beginCall 8, r₁), (writeCall 0 8 tinyContainer, r₂), (finCall, r₃), (beginCall 8, r₄)]
      files₄ := by
    refine .cons (fun _ hdone => nomatch hdone) h₁ (.cons (hunpublished rfl hfresh) h₂
      (.cons (hunpublished rfl hwritten) h₃ (.cons (fun done hdone => ?_) h₄ .nil)))
    rw [show (beginCall 8).mid = tinyMid from rfl, hpublished] at hdone
    cases hdone
    exact ⟨fun total htotal => by cases htotal; rfl, fun _ _ _ hwrite => by cases hwrite⟩
  have htold : Told (slotOf "store" files₄ tinyMid) := by
    rw [hagain]
    rintro bytes (h | h)
    · cases h
      decide
    · cases h
      decide
  exact ⟨[(beginCall 8, r₁), (writeCall 0 8 tinyContainer, r₂), (finCall, r₃), (beginCall 8, r₄)],
    files₄, rfl, hagain,
    stat_sread_agree storeCore noCompressors "store" rfl _ files₄ hguarded tinyMid rfl htold⟩

def republishCalls : List Call := [beginCall 8, writeCall 0 8 tinyContainer, finCall, beginCall 1]

/-- The published file has eight bytes, and one byte can be read. -/
theorem stat_sread_differ : ∃ history files,
    Serves storeCore noCompressors (fun _ => none) history files ∧
      Told (slotOf "store" files tinyMid) ∧ ¬ Agree storeCore noCompressors files tinyMid := by
  have hown : ∀ call ∈ republishCalls, call.mid = tinyMid := by
    intro call hcall
    simp only [republishCalls, List.mem_cons, List.not_mem_nil, or_false] at hcall
    rcases hcall with rfl | rfl | rfl | rfl <;> rfl
  obtain ⟨history, files, hserves, -, hslot⟩ := @serves_own Crypto.plain storeCore noCompressors
    (fun _ => none) "store" tinyMid rfl republishCalls hown
  have hboth : slotOf "store" files tinyMid = ⟨some [0xff], some tinyContainer⟩ := hslot
  have htold : Told (slotOf "store" files tinyMid) := by
    rw [hboth]
    rintro bytes (h | h)
    · cases h
      decide
    · cases h
      decide
  refine ⟨history, files, hserves, htold, fun hagree => ?_⟩
  have hsame := (agree_iff rfl rfl htold).mp hagree
  rw [hboth] at hsame
  exact absurd (hsame _ _ rfl rfl) (by decide)

end MotaTool.Serve
