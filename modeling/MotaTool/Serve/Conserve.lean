import MotaTool.Serve.Demux

/-!
# Console text is conserved

On a stream without requests every byte that was read is, apart from line
ends, in a line that was given out, in the buffer, pending or deferred, and in
the order read. A call moves text from the held bytes and the link into the
lines and the buffer; a run of calls is an induction on their number.
-/

namespace MotaTool.Serve

open Base Run Format seeder

def visible (text : List Char) : List Char := text.filter fun ch => !isLineEnd ch

theorem visible_append (text more : List Char) :
    visible (text ++ more) = visible text ++ visible more := List.filter_append _ _

theorem visible_lineEnds {text : List Char} (h : ∀ ch ∈ text, isLineEnd ch = true) :
    visible text = [] := by
  refine List.filter_eq_nil_iff.mpr fun ch hch => ?_
  simp [h ch hch]

theorem shownLine_visible (line : List Char) :
    visible (shownLine line).toList.flatten = visible line := by
  have htrimmed : visible (line.rdropWhile isLineEnd) = visible line := by
    calc visible (line.rdropWhile isLineEnd)
        = visible (line.rdropWhile isLineEnd) ++ visible (line.rtakeWhile isLineEnd) := by
          rw [visible_lineEnds fun ch hch => List.mem_rtakeWhile_imp hch, List.append_nil]
      _ = visible line := by rw [← visible_append, List.rdropWhile_append_rtakeWhile]
  unfold shownLine
  simp only
  split_ifs with hempty
  · rw [List.isEmpty_iff.mp hempty] at htrimmed
    exact htrimmed
  · simpa using htrimmed

theorem pushText_visible (line : List Char) (b : UInt8) :
    visible ((pushText line b).1.toList.flatten ++ (pushText line b).2) =
      visible (line ++ [asChar b]) := by
  unfold pushText
  simp only
  split_ifs
  · rfl
  · rw [List.append_nil, shownLine_visible]

theorem pieces_visible (k : Console) {items : List Item} (h : ∀ item ∈ items, item.isText = true) :
    visible (((k.pieces items).filterMap Piece.shown).flatten ++ (k.after items).line) =
      visible (k.line ++ (texts items).map asChar) := by
  induction items generalizing k with
  | nil => simp [Console.pieces, texts]
  | cons item items ih =>
    have htail := fun k => ih k fun i hi => h i (List.mem_cons_of_mem _ hi)
    cases item with
    | text b =>
      obtain ⟨hshown, hline⟩ := k.push_pushText b
      have hpush := pushText_visible k.line b
      rw [← hshown, ← hline, visible_append] at hpush
      have hgiven : (k.push b).1.toList.filterMap Piece.shown =
          ((k.push b).1.bind Piece.shown).toList := by
        cases (k.push b).1 with
        | none => rfl
        | some p => cases hp : p.shown <;> simp [hp]
      calc visible (((k.pieces (.text b :: items)).filterMap Piece.shown).flatten ++
            (k.after (.text b :: items)).line)
          = visible ((k.push b).1.bind Piece.shown).toList.flatten ++
              visible ((((k.push b).2.pieces items).filterMap Piece.shown).flatten ++
                ((k.push b).2.after items).line) := by
            rw [Console.pieces, Console.after_cons, Console.take, List.filterMap_append, hgiven,
              List.flatten_append, List.append_assoc, visible_append]
        _ = visible ((k.push b).1.bind Piece.shown).toList.flatten ++
              (visible (k.push b).2.line ++ visible ((texts items).map asChar)) := by
            rw [htail, visible_append]
        _ = visible (k.line ++ (texts (.text b :: items)).map asChar) := by
            rw [← List.append_assoc, hpush, ← visible_append, List.append_assoc]
            rfl
    | request op args => exact absurd (h _ List.mem_cons_self) (by simp [Item.isText])
    | damaged => exact absurd (h _ List.mem_cons_self) (by simp [Item.isText])

def MagicAnswered (bytes : Bytes) (link : List Byte) : Prop :=
  ∀ pre post : List Byte, link = pre ++ .got REQ_MAGIC.2 :: post →
    [REQ_MAGIC.1] <:+ bytes ++ bytesOf pre → ∃ b rest, post = .got b :: rest

section Streams

variable {bytes : Bytes} {link : List Byte} {b : UInt8}

theorem bytesOf_append (link more : List Byte) :
    bytesOf (link ++ more) = bytesOf link ++ bytesOf more := List.filterMap_append

theorem MagicAnswered.got (h : MagicAnswered bytes (.got b :: link)) :
    MagicAnswered (bytes ++ [b]) link := fun pre post hlink hmagic =>
  h (.got b :: pre) post (by rw [hlink, List.cons_append])
    (by rw [List.append_assoc] at hmagic; exact hmagic)

theorem MagicAnswered.timeout (h : MagicAnswered bytes (.timeout :: link)) :
    MagicAnswered bytes link := fun pre post hlink hmagic =>
  h (.timeout :: pre) post (by rw [hlink, List.cons_append]) hmagic

theorem MagicAnswered.nil (h : MagicAnswered bytes link) : MagicAnswered [] link :=
  fun pre post hlink hmagic => h pre post hlink <| by
    rw [List.nil_append] at hmagic
    exact hmagic.trans (List.suffix_append _ _)

theorem MagicAnswered.unknown
    (hmagic : MagicAnswered [REQ_MAGIC.1] (.got REQ_MAGIC.2 :: link))
    (hno : NoRequest ([REQ_MAGIC.1] ++ bytesOf (.got REQ_MAGIC.2 :: link))) :
    ∃ op rest, link = .got op :: rest ∧ requestHeaderLen op = none ∧
      readRequest link = (.unknown op, rest) := by
  obtain ⟨op, rest, rfl⟩ := hmagic [] link rfl List.suffix_rfl
  have hunknown : requestHeaderLen op = none := @NoRequest.unknown (bytesOf rest) op hno
  exact ⟨op, rest, rfl, hunknown, readRequest_of_unknown hunknown⟩

theorem scan_isText {magic : Bool}
    (hno : NoRequest ((if magic then [REQ_MAGIC.1] else []) ++ bytesOf link))
    (hmagic : MagicAnswered (if magic then [REQ_MAGIC.1] else []) link) :
    ∀ item ∈ scan magic link, item.isText = true := by
  fun_induction scan magic link with
  | case1 => simp
  | case2 magic rest ih => exact ih hno hmagic.timeout
  | case3 => simp
  | case4 rest op args more hread ih =>
    obtain ⟨b, tail, rfl, -, hunknown⟩ := hmagic.unknown hno
    rw [hunknown] at hread
    cases hread
  | case5 rest more hread ih =>
    obtain ⟨b, tail, rfl, -, hunknown⟩ := hmagic.unknown hno
    rw [hunknown] at hread
    cases hread
  | case6 rest op more hread ih =>
    obtain ⟨rfl, -⟩ := readRequest_unknown hread
    intro item hitem
    rcases List.mem_cons.mp hitem with rfl | hitem
    · rfl
    · rcases List.mem_cons.mp hitem with rfl | hitem
      · rfl
      · exact ih hno.tail.tail hmagic.got.nil item hitem
  | case7 b rest hb ih =>
    intro item hitem
    rcases List.mem_cons.mp hitem with rfl | hitem
    · rfl
    · exact ih hno.tail hmagic.nil item hitem
  | case8 magic rest hm ih =>
    obtain rfl : magic = false := by simpa using hm
    exact ih hno hmagic.got
  | case9 magic b rest hm hb ih =>
    obtain rfl : magic = false := by simpa using hm
    intro item hitem
    rcases List.mem_cons.mp hitem with rfl | hitem
    · rfl
    · exact ih hno.tail hmagic.got.nil item hitem

end Streams

section Pump

variable {σ : Type} (core : Handler σ) (verbose : Bool)

def pumpTimes : ℕ → StreamState → Session σ → Run (List PumpEvent × StreamState × Session σ)
  | 0, st, session => .ok ([], st, session)
  | n + 1, st, session => do
    let p ← pump core verbose st session
    let (events, st, session) ← pumpTimes n p.stream p.session
    .ok (p.event :: events, st, session)

variable {core verbose} {st : StreamState} {session : Session σ}

def given (events : List PumpEvent) : List Char := (events.flatMap PumpEvent.lines).flatten

theorem Pumps.conserves {p : Pumped σ} {items : List Item}
    (h : Pumps core verbose st session p items) (htext : ∀ item ∈ items, item.isText = true) :
    ∃ consumed, session.incoming = consumed ++ p.session.incoming ∧
      visible (given [p.event] ++ p.stream.line ++ (held p.stream).map asChar) =
        visible (st.line ++ (held st ++ bytesOf consumed).map asChar) := by
  obtain ⟨consumed, hconsumed⟩ := h.forward
  refine ⟨consumed, hconsumed.symm, ?_⟩
  have hbytes : held st ++ bytesOf consumed = texts items ++ held p.stream := by
    have hall := h.bytes htext
    rw [← hconsumed, bytesOf_append, ← List.append_assoc] at hall
    exact List.append_cancel_right hall
  obtain ⟨hline, hshown⟩ := h.lines ⟨[], st.line⟩ rfl
  have hpieces := pieces_visible ⟨[], st.line⟩ htext
  rw [hline, hshown] at hpieces
  have hgiven : given [p.event] = p.event.lines.flatten := by simp [given]
  rw [hgiven, visible_append, hpieces, hbytes, List.map_append, ← List.append_assoc,
    visible_append (st.line ++ _)]

theorem pumpTimes_visible (n : ℕ) (hst : st.Exclusive)
    (htext : ∀ item ∈ remaining st session.incoming, item.isText = true) :
    ∃ events st' session' consumed,
      pumpTimes core verbose n st session = .ok (events, st', session') ∧
      session.incoming = consumed ++ session'.incoming ∧
      visible (given events ++ st'.line ++ (held st').map asChar) =
        visible (st.line ++ (held st ++ bytesOf consumed).map asChar) := by
  induction n generalizing st session with
  | zero => exact ⟨[], st, session, [], rfl, rfl, by simp [given, bytesOf]⟩
  | succ n ih =>
    obtain ⟨p, hp⟩ := @pump_ok σ core verbose st session fun op args items more hremaining => by
      have hfirst := htext (.request op args) (by rw [hremaining]; exact List.mem_cons_self)
      cases hfirst
    obtain ⟨items, hpumps⟩ := pump_pumps hp hst
    have hitems : ∀ item ∈ items, item.isText = true := fun item hitem =>
      htext item (by rw [hpumps.scan]; exact List.mem_append_left _ hitem)
    obtain ⟨consumed, hincoming, hvisible⟩ := hpumps.conserves hitems
    obtain ⟨events, st', session', later, hrun, hlater, hrest⟩ := @ih p.stream p.session
      hpumps.exclusive fun item hitem =>
        htext item (by rw [hpumps.scan]; exact List.mem_append_right _ hitem)
    refine ⟨p.event :: events, st', session', consumed ++ later, ?_, ?_, ?_⟩
    · simp only [pumpTimes, hp, hrun, ok_bind]
    · rw [hincoming, hlater, List.append_assoc]
    · have hgiven : given (p.event :: events) = given [p.event] ++ given events := by
        simp [given]
      calc visible (given (p.event :: events) ++ st'.line ++ (held st').map asChar)
          = visible (given [p.event]) ++
              visible (given events ++ st'.line ++ (held st').map asChar) := by
            rw [hgiven, ← visible_append]
            simp only [List.append_assoc]
        _ = visible (given [p.event] ++ p.stream.line ++ (held p.stream).map asChar) ++
              visible ((bytesOf later).map asChar) := by
            rw [hrest, ← visible_append, ← visible_append, List.map_append]
            simp only [List.append_assoc]
        _ = visible (st.line ++ (held st ++ bytesOf (consumed ++ later)).map asChar) := by
            rw [hvisible, ← visible_append, bytesOf_append]
            simp only [List.append_assoc, List.map_append]

/-- On a stream without requests, the lines given out by any number of calls, then the buffer,
the pending `M` and the deferred byte, are the bytes consumed, up to line ends. -/
theorem pumpTimes_conserves (core : Handler σ) (verbose : Bool) (script : List Byte)
    (hno : NoRequest (bytesOf script)) (hmagic : MagicAnswered [] script) (n : ℕ) (s : σ) :
    ∃ events st session consumed,
      pumpTimes core verbose n StreamState.default ⟨script, s, []⟩ = .ok (events, st, session) ∧
      script = consumed ++ session.incoming ∧
      visible (given events ++ st.line ++
          (if st.pendingM then [asChar REQ_MAGIC.1] else []) ++ st.deferred.toList.map asChar) =
        visible ((bytesOf consumed).map asChar) := by
  obtain ⟨events, st, session, consumed, hrun, hscript, hvisible⟩ :=
    @pumpTimes_visible σ core verbose StreamState.default ⟨script, s, []⟩ n nofun
      (@scan_isText script false hno hmagic)
  refine ⟨events, st, session, consumed, hrun, hscript, ?_⟩
  have hheld : (held st).map asChar =
      (if st.pendingM then [asChar REQ_MAGIC.1] else []) ++ st.deferred.toList.map asChar := by
    cases hpending : st.pendingM <;> simp [held, hpending]
  rw [hheld, ← List.append_assoc] at hvisible
  exact hvisible

/-- The name of a message, with a timeout between its letters. -/
theorem pumpTimes_conserves_message : ∃ events st session consumed,
    pumpTimes (fun _ _ s => .ok (none, s)) true 4 StreamState.default
        ⟨[.got 0x4d, .timeout, .got 0x53, .got 0x47], (), []⟩ = .ok (events, st, session) ∧
      [.got 0x4d, .timeout, .got 0x53, .got 0x47] = consumed ++ session.incoming ∧
      visible (given events ++ st.line ++
          (if st.pendingM then [asChar REQ_MAGIC.1] else []) ++ st.deferred.toList.map asChar) =
        visible ((bytesOf consumed).map asChar) := by
  refine pumpTimes_conserves _ true [.got 0x4d, .timeout, .got 0x53, .got 0x47] ?_ ?_ 4 ()
  · intro b _ hhigh hpart
    have hb := hpart.eq_of_length rfl
    obtain rfl : b = 0x47 := by simpa [bytesOf, REQ_MAGIC] using hb
    exact absurd hhigh (by decide)
  · intro pre post hlink _
    rcases pre with _ | ⟨_, _ | ⟨_, _ | ⟨_, _ | ⟨_, pre⟩⟩⟩⟩ <;> simp_all [REQ_MAGIC]
    exact ⟨0x47, [], hlink.2.2.symm⟩

end Pump

end MotaTool.Serve
