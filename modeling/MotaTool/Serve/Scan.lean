import MotaTool.Serve.Stream

/-!
# The reading of a byte stream

`scan` says what a byte stream means, without buffers, lines or deferred
bytes: text, requests and damaged frames, in order. `Console` says how the
text is put into lines, remembering what a forced flush has already cut off
the line at hand.
-/

namespace MotaTool.Serve

open Base Run Format seeder

section Reading

theorem readByte_suffix (link : List Byte) : (readByte link).2 <:+ link := by
  rcases link with _ | ⟨_ | _ | _, rest⟩
  · exact List.suffix_rfl
  · exact List.suffix_cons _ _
  · exact List.suffix_cons _ _
  · exact List.suffix_rfl

theorem readFrameByte_suffix (link : List Byte) : (readFrameByte link).2 <:+ link := by
  have hsuffix := readByte_suffix link
  unfold readFrameByte
  split <;> simp_all

theorem readFrameBytes_suffix (n : ℕ) (link : List Byte) :
    (readFrameBytes n link).2 <:+ link := by
  induction n generalizing link with
  | zero => exact List.suffix_rfl
  | succ n ih =>
    have hfirst := readFrameByte_suffix link
    rw [readFrameBytes]
    split
    · next rest hread =>
      rw [hread] at hfirst
      exact hfirst
    · next b rest hread =>
      rw [hread] at hfirst
      have hrest := (ih rest).trans hfirst
      split <;> simp_all

theorem readData_suffix (op : UInt8) (args : Bytes) (link : List Byte) :
    (readData op args link).2 <:+ link := by
  have hdata := readFrameBytes_suffix (declaredLen args) link
  unfold readData
  split_ifs
  · exact List.suffix_rfl
  · split <;> simp_all
  · exact List.suffix_rfl

theorem readChecked_suffix (op : UInt8) (args : Bytes) (link : List Byte) :
    (readChecked op args link).2 <:+ link := by
  have hsum := readFrameByte_suffix link
  unfold readChecked
  split <;> simp_all

theorem readRequest_suffix (link : List Byte) : (readRequest link).2 <:+ link := by
  have hop := readFrameByte_suffix link
  unfold readRequest
  split
  · next rest hread =>
    rw [hread] at hop
    exact hop
  · next op rest hread =>
    rw [hread] at hop
    split
    · exact hop
    · next hdr _ =>
      have hhdr := (readFrameBytes_suffix hdr rest).trans hop
      split
      · simp_all
      · next args more hargs =>
        rw [hargs] at hhdr
        have hdata := (readData_suffix op args more).trans hhdr
        split
        · simp_all
        · next full last hfull =>
          rw [hfull] at hdata
          exact (readChecked_suffix op full last).trans hdata

theorem readRequest_length {link rest : List Byte} {r : RequestRead}
    (h : readRequest link = (r, rest)) : rest.length ≤ link.length := by
  have hle := (readRequest_suffix link).length_le
  rwa [h] at hle

theorem readFrameByte_eq_some {link rest : List Byte} {b : UInt8} :
    readFrameByte link = (some b, rest) ↔ link = .got b :: rest := by
  rcases link with _ | ⟨_ | _ | _, tail⟩ <;> simp [readFrameByte, readByte]

theorem readChecked_ne_unknown {op b : UInt8} {args : Bytes} {link rest : List Byte} :
    readChecked op args link ≠ (.unknown b, rest) := by
  unfold readChecked
  split
  · simp
  · split_ifs <;> simp

theorem readRequest_unknown {link rest : List Byte} {op : UInt8}
    (h : readRequest link = (.unknown op, rest)) :
    link = .got op :: rest ∧ requestHeaderLen op = none := by
  unfold readRequest at h
  split at h
  · cases h
  · next b more hread =>
    split at h
    · next hnone =>
      cases h
      exact ⟨readFrameByte_eq_some.mp hread, hnone⟩
    · split at h
      · cases h
      · split at h
        · cases h
        · exact absurd h readChecked_ne_unknown

end Reading

inductive Item
  | text (b : UInt8)
  | request (op : UInt8) (args : Bytes)
  | damaged
  deriving DecidableEq

/-- The items of a stream; `magic` tells whether an `M` is still open. -/
def scan (magic : Bool) (link : List Byte) : List Item :=
  match link with
  | [] => []
  | .timeout :: rest => scan magic rest
  | .closed :: _ => []
  | .got b :: rest =>
    if magic then
      if b = REQ_MAGIC.2 then
        match _hread : readRequest rest with
        | (.valid op args, more) => .request op args :: scan false more
        | (.malformedKnown, more) => .damaged :: scan false more
        | (.unknown op, more) =>
          .text REQ_MAGIC.1 :: .text REQ_MAGIC.2 :: scan false (.got op :: more)
      else .text REQ_MAGIC.1 :: scan false (.got b :: rest)
    else if b = REQ_MAGIC.1 then scan true rest
    else .text b :: scan false rest
termination_by 2 * link.length + (if magic then 1 else 0)
decreasing_by
  · simp
  · have hle := readRequest_length _hread
    simp only [List.length_cons, if_false]
    omega
  · have hle := readRequest_length _hread
    simp only [List.length_cons, if_false]
    omega
  · rw [(readRequest_unknown _hread).1]
    simp only [List.length_cons, if_false]
    omega
  · rename_i hmagic _
    simp only [hmagic, if_false, if_true]
    omega
  · simp only [List.length_cons, if_true]
    omega
  · simp only [List.length_cons, if_false]
    omega

section Scan

variable {b op : UInt8} {magic : Bool} {link rest : List Byte} {args : Bytes}

@[simp] theorem scan_nil : scan magic [] = [] := by rw [scan]

@[simp] theorem scan_timeout : scan magic (.timeout :: rest) = scan magic rest := by rw [scan]

@[simp] theorem scan_closed : scan magic (.closed :: rest) = [] := by rw [scan]

theorem scan_magic : scan false (.got REQ_MAGIC.1 :: rest) = scan true rest := by
  rw [scan, if_neg (by simp), if_pos rfl]

theorem scan_text (h : b ≠ REQ_MAGIC.1) :
    scan false (.got b :: rest) = .text b :: scan false rest := by
  rw [scan, if_neg (by simp), if_neg h]

theorem scan_pending (h : b ≠ REQ_MAGIC.2) :
    scan true (.got b :: rest) = .text REQ_MAGIC.1 :: scan false (.got b :: rest) := by
  rw [scan, if_pos rfl, if_neg h]

theorem scan_valid (h : readRequest link = (.valid op args, rest)) :
    scan true (.got REQ_MAGIC.2 :: link) = .request op args :: scan false rest := by
  rw [scan, if_pos rfl, if_pos rfl]
  split <;> simp_all

theorem scan_damaged (h : readRequest link = (.malformedKnown, rest)) :
    scan true (.got REQ_MAGIC.2 :: link) = .damaged :: scan false rest := by
  rw [scan, if_pos rfl, if_pos rfl]
  split <;> simp_all

theorem scan_unknown (h : readRequest link = (.unknown op, rest)) :
    scan true (.got REQ_MAGIC.2 :: link) =
      .text REQ_MAGIC.1 :: .text REQ_MAGIC.2 :: scan false (.got op :: rest) := by
  rw [scan, if_pos rfl, if_pos rfl]
  split <;> simp_all

end Scan

def Item.isText : Item → Bool
  | .text _ => true
  | _ => false

def texts (items : List Item) : Bytes := items.filterMap fun
  | .text b => some b
  | _ => none

def requests (items : List Item) : List (UInt8 × Bytes) := items.filterMap fun
  | .request op args => some (op, args)
  | _ => none

/-- A piece of a console line that the buffer gave out, and what was cut off before it. -/
structure Piece where
  cut : List Char
  text : List Char
  forced : Bool
  deriving DecidableEq

def Piece.shown (p : Piece) : Option (List Char) := shownLine p.text

structure Console where
  cut : List Char
  line : List Char

namespace Console

def start : Console := ⟨[], []⟩

def push (k : Console) (b : UInt8) : Option Piece × Console :=
  let line := k.line ++ [asChar b]
  if b = 0x0a then (some ⟨k.cut, line, false⟩, start)
  else if textLen line ≤ 512 then (none, ⟨k.cut, line⟩)
  else (some ⟨k.cut, line, true⟩, ⟨k.cut ++ line, []⟩)

/-- A frame is a hard boundary. -/
def take (k : Console) : Item → Option Piece × Console
  | .text b => k.push b
  | _ => (none, start)

def pieces (k : Console) : List Item → List Piece
  | [] => []
  | item :: items => (k.take item).1.toList ++ (k.take item).2.pieces items

def after (k : Console) (items : List Item) : Console :=
  items.foldl (fun k item => (k.take item).2) k

variable (k : Console)

@[simp] theorem after_nil : k.after [] = k := rfl

@[simp] theorem after_cons (item : Item) (items : List Item) :
    k.after (item :: items) = (k.take item).2.after items := rfl

theorem after_append (items more : List Item) :
    k.after (items ++ more) = (k.after items).after more := List.foldl_append

theorem pieces_append (items more : List Item) :
    k.pieces (items ++ more) = k.pieces items ++ (k.after items).pieces more := by
  induction items generalizing k with
  | nil => rfl
  | cons item items ih =>
    rw [List.cons_append, pieces, ih, pieces, after_cons, List.append_assoc]

theorem push_pushText (b : UInt8) : (k.push b).1.bind Piece.shown = (pushText k.line b).1 ∧
    (k.push b).2.line = (pushText k.line b).2 := by
  unfold push pushText
  by_cases hend : b = 0x0a
  · simp [hend, Piece.shown, start]
  · by_cases hlen : textLen (k.line ++ [asChar b]) ≤ 512
    · simp [hend, hlen]
    · simp [hend, hlen, Piece.shown]

end Console

end MotaTool.Serve
