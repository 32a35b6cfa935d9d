import MotaTool.Serve.Demux

/-!
# What the node sent

The text and the frames of a byte sequence, told from the bytes alone: a frame
reaches as far as its header says, however its bytes arrive and whatever the
link reads of it. On events that bring every frame whole this is what the scan
reads.
-/

namespace MotaTool.Serve

open Base Run Format seeder

def delivered : List Byte → Bytes
  | [] => []
  | .got b :: rest => b :: delivered rest
  | .timeout :: rest => delivered rest
  | .closed :: _ => []

/-- The length of a request's arguments: its header, and the data a write declares. -/
def argsLen (op : UInt8) (hdr : ℕ) (bytes : Bytes) : ℕ :=
  if op = OP_WRITE then hdr + declaredLen bytes else hdr

def frameItem (op : UInt8) (args : Bytes) (xsum : Option UInt8) : Item :=
  if xsum = some (xor args op) then .request op args else .damaged

/-- What an `M` turns out to be by the bytes behind it. -/
inductive Candidate
  | undecided
  | text
  | frame (item : Item) (length : ℕ)

def candidate : Bytes → Candidate
  | [] => .undecided
  | [s] => if s = REQ_MAGIC.2 then .undecided else .text
  | s :: op :: bytes =>
    if s = REQ_MAGIC.2 then
      match requestHeaderLen op with
      | none => .text
      | some hdr =>
        let n := argsLen op hdr bytes
        .frame (frameItem op (bytes.take n) bytes[n]?) (n + 3)
    else .text

/-- The items of a byte sequence, `skip` bytes of which belong to the frame at hand. -/
def itemsFrom (skip : ℕ) : Bytes → List Item
  | [] => []
  | b :: bytes =>
    match skip with
    | skip + 1 => itemsFrom skip bytes
    | 0 =>
      if b = REQ_MAGIC.1 then
        match candidate bytes with
        | .undecided => []
        | .text => .text b :: itemsFrom 0 bytes
        | .frame item length => item :: itemsFrom length bytes
      else .text b :: itemsFrom 0 bytes

/-- The text and the frames that the node sent. -/
def deviceItems (link : List Byte) : List Item := itemsFrom 0 (delivered link)

section Items

variable {b op : UInt8} {args bytes : Bytes}

theorem itemsFrom_nil (skip : ℕ) : itemsFrom skip [] = [] := by
  rw [itemsFrom.eq_def]

theorem itemsFrom_drop (skip : ℕ) (bytes : Bytes) :
    itemsFrom skip bytes = itemsFrom 0 (bytes.drop skip) := by
  induction bytes generalizing skip with
  | nil => rw [List.drop_nil, itemsFrom_nil, itemsFrom_nil]
  | cons b bytes ih =>
    cases skip with
    | zero => rfl
    | succ skip => exact ih skip

theorem itemsFrom_text (h : b ≠ REQ_MAGIC.1) :
    itemsFrom 0 (b :: bytes) = .text b :: itemsFrom 0 bytes := by
  rw [itemsFrom, if_neg h]

theorem itemsFrom_plain (h : b ≠ REQ_MAGIC.2) : itemsFrom 0 (REQ_MAGIC.1 :: b :: bytes) =
    .text REQ_MAGIC.1 :: itemsFrom 0 (b :: bytes) := by
  have hcandidate : candidate (b :: bytes) = .text := by
    cases bytes <;> rw [candidate, if_neg h]
  rw [itemsFrom, if_pos rfl, hcandidate]

theorem itemsFrom_unknown (h : requestHeaderLen op = none) :
    itemsFrom 0 (REQ_MAGIC.1 :: REQ_MAGIC.2 :: op :: bytes) =
      .text REQ_MAGIC.1 :: .text REQ_MAGIC.2 :: itemsFrom 0 (op :: bytes) := by
  have hcandidate : candidate (REQ_MAGIC.2 :: op :: bytes) = .text := by
    rw [candidate, if_pos rfl, h]
  rw [itemsFrom, if_pos rfl, hcandidate]
  simp only
  rw [itemsFrom_text (by decide)]

theorem WellFormed.argsLen (h : WellFormed op args) {hdr : ℕ}
    (hhdr : requestHeaderLen op = some hdr) : argsLen op hdr (args ++ bytes) = args.length := by
  obtain ⟨hdr', hhdr', hlen⟩ := h
  rw [hhdr] at hhdr'
  cases hhdr'
  unfold Serve.argsLen
  split_ifs at hlen ⊢ with hop
  · have hten : hdr = 10 := by
      rw [hop] at hhdr
      exact (Option.some.inj hhdr).symm
    have hsplit : declaredLen (args ++ bytes) = declaredLen args := by
      rw [declaredLen, declaredLen, List.drop_append_of_le_length (by omega),
        List.take_append_of_le_length (by rw [List.length_drop]; omega)]
    rw [hsplit, hlen.2]
  · exact hlen.symm

theorem itemsFrom_frame (h : WellFormed op args) (xsum : UInt8) :
    itemsFrom 0 (REQ_MAGIC.1 :: REQ_MAGIC.2 :: op :: (args ++ xsum :: bytes)) =
      frameItem op args (some xsum) :: itemsFrom 0 bytes := by
  obtain ⟨hdr, hhdr, -⟩ := h.header
  have hlen : argsLen op hdr (args ++ xsum :: bytes) = args.length := h.argsLen hhdr
  have hcandidate : candidate (REQ_MAGIC.2 :: op :: (args ++ xsum :: bytes)) =
      .frame (frameItem op args (some xsum)) (args.length + 3) := by
    rw [candidate, if_pos rfl, hhdr]
    simp only [hlen]
    rw [List.take_left, List.getElem?_append_right le_rfl, Nat.sub_self]
    rfl
  have hbehind : (args ++ xsum :: bytes).drop (args.length + 1) = bytes := by
    rw [← List.drop_drop, List.drop_left]
    rfl
  rw [itemsFrom, if_pos rfl, hcandidate]
  simp only
  rw [itemsFrom_drop, List.drop_succ_cons, List.drop_succ_cons, hbehind]

theorem scan_frame_items (h : WellFormed op args) (xsum : UInt8) (link : List Byte) :
    scan true (.got REQ_MAGIC.2 :: .got op :: (args.map .got ++ .got xsum :: link)) =
      frameItem op args (some xsum) :: scan false link := by
  have hread : readRequest (.got op :: (args.map .got ++ .got xsum :: link)) =
      (if xsum = xor args op then .valid op args else .malformedKnown, link) := by
    rw [readRequest_checked h, readChecked, readFrameByte_eq_some.mpr rfl]
  by_cases hxsum : xsum = xor args op
  · rw [if_pos hxsum] at hread
    rw [scan_valid hread, frameItem, if_pos (congrArg some hxsum)]
  · rw [if_neg hxsum] at hread
    rw [scan_damaged hread, frameItem, if_neg fun hsome => hxsum (Option.some.inj hsome)]

end Items

/-- Every frame arrives whole: no timeout stands behind its magic before its last byte, and no
write declares more data than is read; `magic` tells whether an `M` is open. -/
inductive Steady : Bool → List Byte → Prop
  | done (magic : Bool) : Steady magic []
  | idle {magic : Bool} {link : List Byte} (h : Steady magic link) : Steady magic (.timeout :: link)
  | text {b : UInt8} {link : List Byte} (hb : b ≠ REQ_MAGIC.1) (h : Steady false link) :
      Steady false (.got b :: link)
  | magic {link : List Byte} (h : Steady true link) : Steady false (.got REQ_MAGIC.1 :: link)
  | plain {b : UInt8} {link : List Byte} (hb : b ≠ REQ_MAGIC.2)
      (h : Steady false (.got b :: link)) : Steady true (.got b :: link)
  | unknown {op : UInt8} {link : List Byte} (hop : requestHeaderLen op = none)
      (h : Steady false (.got op :: link)) : Steady true (.got REQ_MAGIC.2 :: .got op :: link)
  | frame {op xsum : UInt8} {args : Bytes} {link : List Byte} (hwell : WellFormed op args)
      (h : Steady false link) :
      Steady true (.got REQ_MAGIC.2 :: .got op :: (args.map .got ++ .got xsum :: link))

section Steady

variable {magic : Bool} {link : List Byte}

def opened (magic : Bool) : Bytes := if magic then [REQ_MAGIC.1] else []

theorem delivered_got (bytes : Bytes) (link : List Byte) :
    delivered (bytes.map .got ++ link) = bytes ++ delivered link := by
  induction bytes with
  | nil => rfl
  | cons b bytes ih => exact congrArg (b :: ·) ih

theorem Steady.delivered_append (h : Steady magic link) (rest : List Byte) :
    delivered (link ++ rest) = delivered link ++ delivered rest := by
  induction h with
  | done magic => rfl
  | idle h ih => exact ih
  | text hb h ih => exact congrArg (_ :: ·) ih
  | magic h ih => exact congrArg (_ :: ·) ih
  | plain hb h ih => exact ih
  | unknown hop h ih => exact congrArg (_ :: ·) ih
  | @frame op xsum args link hwell h ih =>
    have hsplit : ∀ tail, Byte.got REQ_MAGIC.2 :: .got op :: (args.map .got ++ .got xsum :: tail) =
        (REQ_MAGIC.2 :: op :: (args ++ [xsum])).map .got ++ tail := fun tail => by simp
    have hfront :
        (Byte.got REQ_MAGIC.2 :: .got op :: (args.map .got ++ .got xsum :: link)) ++ rest =
        .got REQ_MAGIC.2 :: .got op :: (args.map .got ++ .got xsum :: (link ++ rest)) := by simp
    rw [hfront, hsplit, hsplit, delivered_got, delivered_got, ih, List.append_assoc]

/-- What steady events are read as is what the node sent, whatever follows. -/
theorem Steady.reads (h : Steady magic link) : ∃ items m,
    (∀ rest, scan magic (link ++ rest) = items ++ scan m rest) ∧
    ∀ bytes, itemsFrom 0 (opened magic ++ (delivered link ++ bytes)) =
      items ++ itemsFrom 0 (opened m ++ bytes) := by
  induction h with
  | done magic => exact ⟨[], magic, fun rest => rfl, fun bytes => rfl⟩
  | idle h ih =>
    obtain ⟨items, m, hscan, hitems⟩ := ih
    exact ⟨items, m, fun rest => by rw [List.cons_append, scan_timeout, hscan], hitems⟩
  | @text b link hb h ih =>
    obtain ⟨items, m, hscan, hitems⟩ := ih
    refine ⟨.text b :: items, m, fun rest => ?_, fun bytes => ?_⟩
    · rw [List.cons_append, scan_text hb, hscan, List.cons_append]
    · exact (itemsFrom_text hb).trans (congrArg (_ :: ·) (hitems bytes))
  | magic h ih =>
    obtain ⟨items, m, hscan, hitems⟩ := ih
    exact ⟨items, m, fun rest => by rw [List.cons_append, scan_magic, hscan], hitems⟩
  | @plain b link hb h ih =>
    obtain ⟨items, m, hscan, hitems⟩ := ih
    refine ⟨.text REQ_MAGIC.1 :: items, m, fun rest => ?_, fun bytes => ?_⟩
    · have hrest := hscan rest
      rw [List.cons_append] at hrest ⊢
      rw [scan_pending hb, hrest, List.cons_append]
    · exact (itemsFrom_plain hb).trans (congrArg (_ :: ·) (hitems bytes))
  | @unknown op link hop h ih =>
    obtain ⟨items, m, hscan, hitems⟩ := ih
    refine ⟨.text REQ_MAGIC.1 :: .text REQ_MAGIC.2 :: items, m, fun rest => ?_, fun bytes => ?_⟩
    · have hread : readRequest (.got op :: (link ++ rest)) = (.unknown op, link ++ rest) := by
        rw [readRequest, readFrameByte_eq_some.mpr rfl]
        simp only [hop]
      have hrest := hscan rest
      rw [List.cons_append] at hrest
      rw [List.cons_append, List.cons_append, scan_unknown hread, hrest]
      rfl
    · exact (itemsFrom_unknown hop).trans (congrArg (fun i => _ :: _ :: i) (hitems bytes))
  | @frame op xsum args link hwell h ih =>
    obtain ⟨items, m, hscan, hitems⟩ := ih
    refine ⟨frameItem op args (some xsum) :: items, m, fun rest => ?_, fun bytes => ?_⟩
    · have hlink : (Byte.got REQ_MAGIC.2 :: .got op :: (args.map .got ++ .got xsum :: link)) ++
          rest = .got REQ_MAGIC.2 :: .got op :: (args.map .got ++ .got xsum :: (link ++ rest)) := by
        simp
      rw [hlink, scan_frame_items hwell, hscan, List.cons_append]
    · have hsent : delivered (.got REQ_MAGIC.2 :: .got op ::
          (args.map .got ++ .got xsum :: link)) =
            REQ_MAGIC.2 :: op :: (args ++ xsum :: delivered link) :=
        congrArg (fun i => REQ_MAGIC.2 :: op :: i) (delivered_got args _)
      have hsplit :
          opened true ++ (REQ_MAGIC.2 :: op :: (args ++ xsum :: delivered link) ++ bytes) =
          REQ_MAGIC.1 :: REQ_MAGIC.2 :: op :: (args ++ xsum :: (delivered link ++ bytes)) := by
        simp [opened]
      rw [hsent, hsplit, itemsFrom_frame hwell]
      exact congrArg (_ :: ·) (hitems bytes)

theorem Steady.device (h : Steady false link) : ∃ m,
    (∀ rest, scan false (link ++ rest) = deviceItems link ++ scan m rest) ∧
    ∀ rest, deviceItems (link ++ rest) =
      deviceItems link ++ itemsFrom 0 (opened m ++ delivered rest) := by
  obtain ⟨items, m, hscan, hitems⟩ := h.reads
  have hitems : ∀ bytes, itemsFrom 0 (delivered link ++ bytes) =
      items ++ itemsFrom 0 (opened m ++ bytes) := hitems
  have hopen : itemsFrom 0 (opened m ++ []) = [] := by cases m <;> rfl
  have hdevice : deviceItems link = items := by
    have hall := hitems []
    rwa [hopen, List.append_nil, List.append_nil] at hall
  refine ⟨m, fun rest => by rw [hscan, hdevice], fun rest => ?_⟩
  rw [hdevice, ← hitems, deviceItems, h.delivered_append]

end Steady

end MotaTool.Serve
