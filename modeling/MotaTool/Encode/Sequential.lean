import MotaTool.Encode.BsdiffSpec
import MotaTool.Encode.Crle

/-!
# Sequential patches

`encodeSequential` writes the header, the target size and the compressed
bsdiff stream. `decodeSequential` is the decoder of the documented wire format:
it has no result as soon as a length is negative, a diff byte would be added to
a byte outside the base, the target size is missed, or a byte of the patch is
left over. Decoding what was encoded gives back the target for every pair of
byte strings.
-/

namespace MotaTool.Encode

open Base

def PATCH_TYPE_SEQUENTIAL : UInt8 := 0
def PATCH_TYPE_IN_PLACE : UInt8 := 1
def COMPRESSION_CRLE : UInt8 := 2

def sequentialBody (old new : Bytes) : Run Bytes :=
  if new.isEmpty then .ok (packSize 0) else bsdiff old new (packSize 0)

/-- Lengths are written through `as i64`, which is exact for every length a vector has. -/
def encodeSequential (old new : Bytes) : Run Bytes := do
  let patch := [PATCH_TYPE_SEQUENTIAL <<< 4 ||| COMPRESSION_CRLE] ++ packSize new.length
  let body ← sequentialBody old new
  let compressed ← crleCompress body
  .ok (patch ++ compressed)

def readBlock (stream : Bytes) : Option (Bytes × Bytes) := do
  let (n, rest) ← unpackSize stream
  if 0 ≤ n ∧ n ≤ rest.length then some (rest.take n.toNat, rest.drop n.toNat) else none

def addDiff (old : Bytes) : Bytes → ℤ → Option Bytes
  | [], _ => some []
  | d :: ds, cursor =>
    if 0 ≤ cursor then do
      let b ← old[cursor.toNat]?
      let out ← addDiff old ds (cursor + 1)
      some ((d + b) :: out)
    else none

structure Decoding where
  out : Bytes
  cursor : ℤ
  stream : Bytes

def decodeTriple (old : Bytes) (s : Decoding) : Option Decoding := do
  let (diff, stream) ← readBlock s.stream
  let bytes ← addDiff old diff s.cursor
  let (extra, stream) ← readBlock stream
  let (seek, stream) ← unpackSize stream
  some ⟨s.out ++ bytes ++ extra, s.cursor + diff.length + seek, stream⟩

/-- Triples until the target size is reached; each of them takes bytes of the stream. -/
def decodeTriples (old : Bytes) (total : ℕ) : ℕ → Decoding → Option Decoding
  | 0, s => if s.out.length < total then none else some s
  | fuel + 1, s =>
    if s.out.length < total then decodeTriple old s >>= decodeTriples old total fuel else some s

def decodeSequential (old patch : Bytes) : Option Bytes :=
  match patch with
  | [] => none
  | header :: rest => do
    let (total, rest) ← unpackSize rest
    let stream ← crleExpand rest
    let (format, stream) ← unpackSize stream
    if header = 0x02 ∧ 0 ≤ total ∧ format = 0 then do
      let s ← decodeTriples old total.toNat stream.length ⟨[], 0, stream⟩
      if s.out.length = total.toNat ∧ s.stream = [] then some s.out else none
    else none

theorem readBlock_append (bytes rest : Bytes) :
    readBlock (packSize bytes.length ++ (bytes ++ rest)) = some (bytes, rest) := by
  have hfits : (0 : ℤ) ≤ bytes.length ∧ (bytes.length : ℤ) ≤ (bytes ++ rest).length := by
    rw [List.length_append]
    omega
  rw [readBlock, unpackSize_packSize, Option.bind_eq_bind, Option.bind_some]
  dsimp only
  rw [if_pos hfits, Int.toNat_natCast, List.take_left, List.drop_left]

theorem addDiff_window {old diff : Bytes} {cursor : ℤ} (h0 : 0 ≤ cursor)
    (h : cursor + diff.length ≤ old.length) :
    addDiff old diff cursor =
      some (List.zipWith (· + ·) diff (window old cursor diff.length)) := by
  induction diff generalizing cursor with
  | nil => rfl
  | cons d ds ih =>
    simp only [List.length_cons, Nat.cast_add, Nat.cast_one] at h
    have hlt : cursor.toNat < old.length := by omega
    have hnext : (cursor + 1).toNat = cursor.toNat + 1 := by omega
    rw [addDiff, if_pos h0, List.getElem?_eq_getElem hlt, ih (by omega) (by omega)]
    rw [Option.bind_eq_bind, Option.bind_some, Option.bind_eq_bind, Option.bind_some, window,
      window, List.length_cons, List.drop_eq_getElem_cons hlt, List.take_succ_cons,
      List.zipWith_cons_cons, hnext]

theorem decodeTriple_encode {old : Bytes} {e : Edit UInt8} {s t : Replay UInt8}
    (h : e.Applies old s t) (rest : Bytes) :
    decodeTriple old ⟨s.out, s.cursor, Edit.encode e ++ rest⟩ = some ⟨t.out, t.cursor, rest⟩ := by
  simp only [decodeTriple, Edit.encode, List.append_assoc, readBlock_append,
    addDiff_window h.low h.high, unpackSize_packSize, Option.bind_eq_bind, Option.bind_some,
    h.out, h.cursor]

theorem Edit.encode_ne_nil (e : Edit UInt8) : Edit.encode e ≠ [] := by
  simp [Edit.encode, packSize_ne_nil]

theorem encodeEdits_cons (e : Edit UInt8) (es : List (Edit UInt8)) :
    encodeEdits (e :: es) = Edit.encode e ++ encodeEdits es := List.flatMap_cons

theorem decodeTriples_encode {old : Bytes} {total : ℕ} {es : List (Edit UInt8)}
    {s t : Replay UInt8} (h : Replays old total es s t) (hend : total ≤ t.out.length)
    {fuel : ℕ} (hfuel : (encodeEdits es).length ≤ fuel) (rest : Bytes) :
    decodeTriples old total fuel ⟨s.out, s.cursor, encodeEdits es ++ rest⟩ =
      some ⟨t.out, t.cursor, rest⟩ := by
  induction h generalizing fuel with
  | nil =>
    cases fuel <;> simp [decodeTriples, encodeEdits, Nat.not_lt.mpr hend]
  | @cons e es s t u hlt hap _ ih =>
    have hpos := List.length_pos_iff.mpr (Edit.encode_ne_nil e)
    rw [encodeEdits_cons, List.length_append] at hfuel
    obtain ⟨fuel, rfl⟩ : ∃ f, fuel = f + 1 := ⟨fuel - 1, by omega⟩
    rw [encodeEdits_cons, List.append_assoc, decodeTriples, if_pos hlt,
      decodeTriple_encode hap, Option.bind_eq_bind, Option.bind_some]
    exact ih hend (by omega)

theorem sequentialBody_yields (old new : Bytes) :
    Yields (sequentialBody old new) (DiffPost old new (packSize 0)) := by
  unfold sequentialBody
  split_ifs with hempty
  · have hnil : new = [] := by simpa using hempty
    exact Yields.ok ⟨[], 0, by simp [encodeEdits], by rw [hnil]; exact .nil⟩
  · exact bsdiff_yields old new (packSize 0)

/-- Encoding ends without a panic on any pair of byte strings, and the decoder rebuilds
exactly the target from the patch. -/
theorem encodeSequential_decodes (old new : Bytes) :
    (∃ patch, encodeSequential old new = .ok patch ∧ decodeSequential old patch = some new) ∧
      ∀ body, ∃ out, bsdiff old new body = .ok out := by
  refine ⟨?_, fun body => (bsdiff_yields old new body).imp fun _ h => h.1⟩
  refine (sequentialBody_yields old new).bind fun body hbody => ?_
  refine (crleCompress_expands body).bind fun compressed hexpand => Yields.ok ?_
  obtain ⟨es, cursor, rfl, hreplay⟩ := hbody
  have hdecode := decodeTriples_encode hreplay (le_refl new.length) le_rfl []
  rw [List.append_nil] at hdecode
  have hformat := unpackSize_packSize 0 (encodeEdits es)
  have hheader : PATCH_TYPE_SEQUENTIAL <<< 4 ||| COMPRESSION_CRLE = 0x02 := by decide
  simp only [decodeSequential, List.cons_append, List.nil_append, unpackSize_packSize,
    Option.bind_eq_bind, Option.bind_some, hexpand, hformat, hheader, Int.toNat_natCast,
    Nat.cast_nonneg, true_and, and_self, if_true, hdecode]

end MotaTool.Encode
