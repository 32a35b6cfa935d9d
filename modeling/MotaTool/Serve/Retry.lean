import MotaTool.Serve.Attach

/-!
# Commands between frames

What the handshake has written and reported is in its trace, with what was
still unread when each command was written. A turn from a state in which the
line flush does not put back an `M` writes no command behind an `M`; a run of
such turns keeps the trace orderly.
-/

namespace MotaTool.Serve

open Base Run Format seeder

def Act.command : Act → Option (List Byte)
  | .sent chunk unread => if chunk = FOLDER_ON then some unread else none
  | _ => none

def Act.isFrame : Act → Bool
  | .reported event => event.isFrame
  | _ => false

def commands (trace : List Act) : List (List Byte) := trace.filterMap Act.command

/-- Few commands, none after a frame, and none while an `M` waits for its successor. -/
structure Orderly (policy : AttachPolicy) (script : List Byte) (trace : List Act) : Prop where
  attempts : (commands trace).length ≤ max 1 policy.maxAttempts
  framed : trace.Pairwise fun earlier later => earlier.isFrame = true → later.command = none
  between : ∀ unread ∈ commands trace, ∃ consumed, script = consumed ++ unread ∧
    (bytesOf consumed).getLast? ≠ some REQ_MAGIC.1

theorem commands_append (trace acts : List Act) :
    commands (trace ++ acts) = commands trace ++ commands acts := List.filterMap_append

theorem commands_eq_nil {acts : List Act} (h : ∀ act ∈ acts, act.command = none) :
    commands acts = [] := List.filterMap_eq_nil_iff.mpr h

section Orderly

variable {policy : AttachPolicy} {script unread consumed : List Byte} {trace acts : List Act}

theorem Orderly.append (h : Orderly policy script trace)
    (hacts : ∀ act ∈ acts, act.command = none) :
    Orderly policy script (trace ++ acts) := by
  have hcommands : commands (trace ++ acts) = commands trace := by
    rw [commands_append, commands_eq_nil hacts, List.append_nil]
  refine ⟨by rw [hcommands]; exact h.attempts, ?_, by rw [hcommands]; exact h.between⟩
  refine List.pairwise_append.mpr ⟨h.framed, ?_, fun _ _ later hlater _ => hacts later hlater⟩
  exact List.pairwise_of_forall_mem_list fun _ _ later hlater _ => hacts later hlater

theorem Orderly.send (h : Orderly policy script trace)
    (hcount : (commands trace).length < max 1 policy.maxAttempts)
    (hframes : ∀ act ∈ trace, act.isFrame = false) (hscript : script = consumed ++ unread)
    (hlast : (bytesOf consumed).getLast? ≠ some REQ_MAGIC.1) :
    Orderly policy script (trace ++ [.sent FOLDER_ON unread]) := by
  have hcommands : commands (trace ++ [.sent FOLDER_ON unread]) = commands trace ++ [unread] := by
    rw [commands_append]
    rfl
  refine ⟨?_, ?_, fun unread' hunread' => ?_⟩
  · rw [hcommands, List.length_append, List.length_singleton]
    omega
  · refine List.pairwise_append.mpr ⟨h.framed, List.pairwise_singleton _ _, ?_⟩
    intro earlier hearlier later _ hframe
    rw [hframes earlier hearlier] at hframe
    cases hframe
  · rw [hcommands] at hunread'
    rcases List.mem_append.mp hunread' with hold | hnew
    · exact h.between unread' hold
    · obtain rfl := List.mem_singleton.mp hnew
      exact ⟨consumed, hscript, hlast⟩

theorem orderly_nil : Orderly policy script [] :=
  ⟨Nat.zero_le _, List.Pairwise.nil, fun _ h => absurd h List.not_mem_nil⟩

end Orderly

/-- The next call completes a line with a pending `M` and puts back another `M`. -/
def FlushDefers (st : StreamState) (incoming : List Byte) : Prop :=
  st.pendingM = true ∧
    (512 ≤ textLen st.line ∧ (∃ rest, incoming = .got REQ_MAGIC.1 :: rest) ∨
      511 ≤ textLen st.line ∧
        ∃ rest, incoming = .got REQ_MAGIC.2 :: .got REQ_MAGIC.1 :: rest)

def flushedLine (line : List Char) : List Char :=
  if 512 ≤ textLen line then line ++ [asChar REQ_MAGIC.1]
  else line ++ [asChar REQ_MAGIC.1, asChar REQ_MAGIC.2]

section Flush

variable {line : List Char} {b : UInt8} {st : StreamState}

theorem textLen_append (text more : List Char) :
    textLen (text ++ more) = textLen text + textLen more := by simp [textLen]

theorem pushText_plain (hsize : (asChar b).utf8Size = 1) (hend : isLineEnd (asChar b) = false)
    (hb : b ≠ 0x0a) : pushText line b =
      if 512 ≤ textLen line then (some (line ++ [asChar b]), [])
      else (none, line ++ [asChar b]) := by
  have hlen : textLen (line ++ [asChar b]) = textLen line + 1 := by
    have hone : textLen [asChar b] = 1 := by simp [textLen, hsize]
    rw [textLen_append, hone]
  have hshown : shownLine (line ++ [asChar b]) = some (line ++ [asChar b]) := by
    simp [shownLine, List.rdropWhile_concat_neg, hend]
  unfold pushText
  simp only [hlen, hb, hshown, ne_eq, not_false_eq_true, true_and]
  split_ifs <;> first | rfl | omega

theorem pushText_M : pushText line REQ_MAGIC.1 = if 512 ≤ textLen line then
    (some (line ++ [asChar REQ_MAGIC.1]), []) else (none, line ++ [asChar REQ_MAGIC.1]) :=
  pushText_plain (by decide) (by decide) (by decide)

theorem pushText_S : pushText line REQ_MAGIC.2 = if 512 ≤ textLen line then
    (some (line ++ [asChar REQ_MAGIC.2]), []) else (none, line ++ [asChar REQ_MAGIC.2]) :=
  pushText_plain (by decide) (by decide) (by decide)

theorem pushLiteral_emitted {shown buffer : List Char}
    (h : pushLiteral line [REQ_MAGIC.1, REQ_MAGIC.2] = (some shown, buffer)) :
    511 ≤ textLen line ∧ shown = flushedLine line := by
  have hsize : textLen [asChar REQ_MAGIC.1] = 1 := by decide
  simp only [pushLiteral, pushText_M] at h
  unfold flushedLine
  split_ifs at h ⊢ with hlen
  · refine ⟨by omega, ?_⟩
    cases h
    rfl
  · simp only [pushText_S, textLen_append, hsize] at h
    split_ifs at h with hlen'
    · refine ⟨by omega, ?_⟩
      simpa using (Prod.mk.inj h).1.symm
    · cases h

variable {σ : Type} {core : Handler σ} {verbose : Bool} {session : Session σ} {p : Pumped σ}

theorem acceptUnframed_deferred (st : StreamState) (b : UInt8) :
    (acceptUnframed st b).2.deferred = st.deferred := by
  unfold acceptUnframed
  split_ifs
  · rfl
  · split <;> rfl

theorem pumpMagic_deferred (h : pumpMagic core verbose ⟨false, none, line⟩ session = .ok p)
    (hp : p.stream.deferred = some REQ_MAGIC.1) : 511 ≤ textLen line ∧
      (∃ rest, session.incoming = .got REQ_MAGIC.1 :: rest) ∧
        p.event = .deviceLine (flushedLine line) := by
  unfold pumpMagic at h
  split at h
  · rw [bind_eq_ok] at h
    obtain ⟨_, -, h⟩ := h
    cases h
    cases hp
  · cases h
    cases hp
  · next op more hrequest =>
    simp only at h
    split at h
    · next shown buffer hpush =>
      cases h
      cases hp
      obtain ⟨hlen, rfl⟩ := pushLiteral_emitted hpush
      exact ⟨hlen, ⟨more, (readRequest_unknown hrequest).1⟩, rfl⟩
    · cases h
      simp [acceptUnframed_deferred] at hp

theorem pumpByte_deferred {pending : Bool}
    (h : pumpByte core verbose b ⟨pending, none, line⟩ session = .ok p)
    (hp : p.stream.deferred = some REQ_MAGIC.1) : pending = true ∧
      (512 ≤ textLen line ∧ b = REQ_MAGIC.1 ∨ 511 ≤ textLen line ∧ b = REQ_MAGIC.2 ∧
        ∃ rest, session.incoming = .got REQ_MAGIC.1 :: rest) ∧
      p.event = .deviceLine (flushedLine line) := by
  unfold pumpByte at h
  split_ifs at h with hpending hb
  · obtain ⟨hlen, hrest, hevent⟩ := pumpMagic_deferred h hp
    exact ⟨hpending, .inr ⟨hlen, hb, hrest⟩, hevent⟩
  · simp only [pushText_M] at h
    split_ifs at h with hlen
    · cases h
      cases hp
      exact ⟨hpending, .inl ⟨hlen, rfl⟩, by rw [flushedLine, if_pos hlen]⟩
    · cases h
      simp [acceptUnframed_deferred] at hp
  · cases h
    simp [acceptUnframed_deferred] at hp

/-- Only a flush puts an `M` back. -/
theorem pump_deferred (h : pump core verbose st session = .ok p) (hst : st.Exclusive)
    (hp : p.stream.deferred = some REQ_MAGIC.1) :
    FlushDefers st session.incoming ∧ p.event = .deviceLine (flushedLine st.line) := by
  unfold pump at h
  split at h
  · next b hdeferred =>
    obtain ⟨hpending, -⟩ := pumpByte_deferred h hp
    rw [hst hpending] at hdeferred
    cases hdeferred
  · next hdeferred =>
    split at h
    · next b rest hread =>
      have hlink : session.incoming = .got b :: rest :=
        readFrameByte_eq_some.mp (by rw [readFrameByte, hread])
      have hst' : st = ⟨st.pendingM, none, st.line⟩ := by rw [← hdeferred]
      rw [hst'] at h
      obtain ⟨hpending, hcase, hevent⟩ := pumpByte_deferred h hp
      refine ⟨⟨hpending, ?_⟩, hevent⟩
      rcases hcase with ⟨hlen, rfl⟩ | ⟨hlen, rfl, more, hmore⟩
      · exact .inl ⟨hlen, rest, hlink⟩
      · exact .inr ⟨hlen, more, by rw [hlink]; congr 1⟩
    · cases h
      rw [hdeferred] at hp
      cases hp
    · cases h
      rw [hdeferred] at hp
      cases hp

theorem pump_flush (h : FlushDefers st session.incoming) (hst : st.Exclusive) :
    ∃ front rest buffer, session.incoming = front ++ .got REQ_MAGIC.1 :: rest ∧
      pump core verbose st session = .ok ⟨.deviceLine (flushedLine st.line),
        ⟨false, some REQ_MAGIC.1, buffer⟩, { session with incoming := rest }⟩ := by
  obtain ⟨hpending, hcase⟩ := h
  have hdeferred := hst hpending
  rcases hcase with ⟨hlen, rest, hlink⟩ | ⟨hlen, rest, hlink⟩
  · refine ⟨[], rest, [], hlink, ?_⟩
    have hread : readByte session.incoming = (.got REQ_MAGIC.1, rest) := by rw [hlink]; rfl
    have hflush : flushedLine st.line = st.line ++ [asChar REQ_MAGIC.1] := if_pos hlen
    rw [pump, hdeferred]
    simp only [hread]
    rw [pumpByte, if_pos hpending, if_neg (by decide)]
    simp only [pushText_M, if_pos hlen, hflush]
  · refine ⟨[.got REQ_MAGIC.2], rest, if 512 ≤ textLen st.line then [asChar REQ_MAGIC.2] else [],
      hlink, ?_⟩
    have hread : readByte session.incoming = (.got REQ_MAGIC.2, .got REQ_MAGIC.1 :: rest) := by
      rw [hlink]
      rfl
    have hrequest : readRequest (.got REQ_MAGIC.1 :: rest) = (.unknown REQ_MAGIC.1, rest) :=
      readRequest_of_unknown rfl
    have hpush : pushLiteral st.line [REQ_MAGIC.1, REQ_MAGIC.2] =
        (some (flushedLine st.line),
          if 512 ≤ textLen st.line then [asChar REQ_MAGIC.2] else []) := by
      have hsize : textLen [asChar REQ_MAGIC.1] = 1 := by decide
      simp only [pushLiteral, pushText_M, flushedLine]
      by_cases hfull : 512 ≤ textLen st.line
      · have hempty : ¬ 512 ≤ textLen [] := by decide
        simp only [if_pos hfull, pushText_S, if_neg hempty]
        rfl
      · have hflush : 512 ≤ textLen (st.line ++ [asChar REQ_MAGIC.1]) := by
          rw [textLen_append, hsize]
          omega
        simp only [if_neg hfull, pushText_S, if_pos hflush]
        simp
    rw [pump, hdeferred]
    simp only [hread]
    rw [pumpByte, if_pos hpending, if_pos rfl, pumpMagic]
    simp only [hrequest, hpush]

end Flush

section Handshake

variable {σ : Type} {core : Handler σ} {verbose : Bool} {env : Env} {policy : AttachPolicy}
  {script : List Byte} {state : σ} {s : AttachState σ} {session : Session σ} {p : Pumped σ}

/-- A retry is due while the flush puts an `M` back, and the flushed line is no reply. -/
def Exposed (env : Env) (policy : AttachPolicy) (s : AttachState σ) : Prop :=
  FlushDefers s.stream s.session.incoming ∧ replyResult (flushedLine s.stream.line) = none ∧
    env.stopped (s.turns + 1) = false ∧ env.now (2 * s.turns + 1) < s.deadline ∧
    s.protocolSeen = false ∧ s.attempts < policy.maxAttempts ∧
    s.retryAt ≤ env.now (2 * s.turns + 2)

/-- All bytes read are text or held, and an `M` is held until it is text. -/
def Unframed (script : List Byte) (st : StreamState) (incoming : List Byte) : Prop :=
  ∃ consumed text, script = consumed ++ incoming ∧ bytesOf consumed = text ++ held st ∧
    (held st = [] → text.getLast? ≠ some REQ_MAGIC.1)

structure Attending (policy : AttachPolicy) (script : List Byte) (s : AttachState σ) : Prop where
  exclusive : s.stream.Exclusive
  orderly : Orderly policy script s.session.trace
  counted : (commands s.session.trace).length = s.attempts
  seen : s.protocolSeen = false → ∀ act ∈ s.session.trace, act.isFrame = false
  unframed : s.protocolSeen = false → Unframed script s.stream s.session.incoming

theorem answer_quiet {verbose : Bool} {op : UInt8} {args : Bytes} {log : Option String}
    {after : Session σ} (h : answer core verbose op args session = .ok (log, after)) :
    ∃ acts, after.trace = session.trace ++ acts ∧
      ∀ act ∈ acts, act.command = none ∧ act.isFrame = false := by
  simp only [answer, bind_eq_ok] at h
  obtain ⟨⟨reply, state⟩, -, h⟩ := h
  have hhandled : Act.command (.handled op args) = none ∧
      Act.isFrame (.handled op args) = false := ⟨rfl, rfl⟩
  cases reply with
  | none =>
    cases h
    exact ⟨[.handled op args], rfl, by simpa using hhandled⟩
  | some reply =>
    obtain ⟨status, payload⟩ := reply
    simp only [bind_eq_ok] at h
    obtain ⟨_, -, h⟩ := h
    cases h
    have hresponse : responseFrame op status payload ≠ FOLDER_ON := fun heq => by
      have hfirst : (responseFrame op status payload).head? = some 0x6d := rfl
      rw [heq] at hfirst
      exact absurd hfirst (by decide)
    refine ⟨[.handled op args, .sent (responseFrame op status payload) session.incoming],
      by simp [sendResponse, Session.act], ?_⟩
    simp [Act.command, Act.isFrame, hresponse]

theorem Acted.quiet {verbose : Bool} {items : List Item} (h : Acted core verbose session p items) :
    ∃ acts, p.session.trace = session.trace ++ acts ∧
      ∀ act ∈ acts, act.command = none ∧ act.isFrame = false := by
  cases h with
  | text _ _ htrace _ => exact ⟨[], by simp [htrace], by simp⟩
  | damaged _ htrace _ => exact ⟨[], by simp [htrace], by simp⟩
  | request hanswer _ =>
    have hquiet := answer_quiet hanswer
    exact hquiet

theorem Pumps.unframed {verbose : Bool} {st : StreamState} {items : List Item}
    (h : Pumps core verbose st session p items) (htext : ∀ item ∈ items, item.isText = true)
    (hst : Unframed script st session.incoming) :
    Unframed script p.stream p.session.incoming := by
  obtain ⟨consumed, text, hscript, hbytes, hlast⟩ := hst
  obtain ⟨more, hmore⟩ := h.forward
  have hheld : held st ++ bytesOf more = texts items ++ held p.stream := by
    have hall := h.bytes htext
    rw [← hmore, bytesOf_append, ← List.append_assoc] at hall
    exact List.append_cancel_right hall
  refine ⟨consumed ++ more, text ++ texts items, ?_, ?_, fun hnone => ?_⟩
  · rw [hscript, ← hmore, List.append_assoc]
  · rw [bytesOf_append, hbytes, List.append_assoc, hheld, List.append_assoc]
  · rcases List.eq_nil_or_concat (texts items) with hempty | ⟨front, b, hconcat⟩
    · rw [hempty, hnone] at hheld
      rw [hempty, List.append_nil]
      exact hlast (List.append_eq_nil_iff.mp hheld).1
    · have hb := h.settled hnone b (by simp [hconcat])
      rw [hconcat, List.concat_eq_append, ← List.append_assoc, List.getLast?_concat]
      simpa using hb

theorem attending_considered (hs : Attending policy script s)
    (ht : Turned core verbose env s p session) :
    Attending policy script (s.considered p session) := by
  obtain ⟨items, hpumps⟩ := pump_pumps ht.pumped hs.exclusive
  obtain ⟨acts, hacts, hquiet⟩ := hpumps.acted.quiet
  obtain ⟨lines, htrace⟩ := ht.trace
  have happended : session.trace =
      s.session.trace ++ (acts ++ .reported p.event :: lines.map .shown) := by
    rw [htrace, hacts, List.append_assoc]
  have hcommands : ∀ act ∈ acts ++ .reported p.event :: lines.map .shown,
      act.command = none := by
    intro act hact
    rcases List.mem_append.mp hact with hact | hact
    · exact (hquiet act hact).1
    · rcases List.mem_cons.mp hact with rfl | hact
      · rfl
      · obtain ⟨line, -, rfl⟩ := List.mem_map.mp hact
        rfl
  refine ⟨hpumps.exclusive, ?_, ?_, fun hseen => ?_, fun hseen => ?_⟩
  · exact happended ▸ hs.orderly.append hcommands
  · change (commands session.trace).length = s.attempts
    rw [happended, commands_append, commands_eq_nil hcommands, List.append_nil, hs.counted]
  · obtain ⟨hseen, hevent⟩ : s.protocolSeen = false ∧ p.event.isFrame = false := by
      simpa [AttachState.considered] using hseen
    change ∀ act ∈ session.trace, act.isFrame = false
    intro act hact
    rw [happended] at hact
    rcases List.mem_append.mp hact with hact | hact
    · exact hs.seen hseen act hact
    · rcases List.mem_append.mp hact with hact | hact
      · exact (hquiet act hact).2
      · rcases List.mem_cons.mp hact with rfl | hact
        · exact hevent
        · obtain ⟨line, -, rfl⟩ := List.mem_map.mp hact
          rfl
  · obtain ⟨hseen, hevent⟩ : s.protocolSeen = false ∧ p.event.isFrame = false := by
      simpa [AttachState.considered] using hseen
    change Unframed script p.stream session.incoming
    rw [ht.incoming]
    refine hpumps.unframed ?_ (hs.unframed hseen)
    cases hpumps.acted with
    | text hitems _ _ _ => exact hitems
    | damaged _ _ hframe =>
      rw [hframe] at hevent
      cases hevent
    | request _ hframe =>
      rw [hframe] at hevent
      cases hevent

theorem Attending.resolved (hs : Attending policy script s)
    (ht : Turned core verbose env s p session) (hsafe : ¬ Exposed env policy s)
    (hdue : (s.considered p session).due env policy)
    (hreply : ∀ line, p.event = .deviceLine line → replyResult line = none) :
    ∃ consumed, script = consumed ++ session.incoming ∧
      (bytesOf consumed).getLast? ≠ some REQ_MAGIC.1 := by
  obtain ⟨hseen, hpending, hattempts, hretry⟩ := hdue
  obtain ⟨consumed, text, hscript, hbytes, hlast⟩ :=
    (attending_considered hs ht).unframed hseen
  refine ⟨consumed, hscript, ?_⟩
  change p.stream.pendingM = false at hpending
  change bytesOf consumed = text ++ held p.stream at hbytes
  change held p.stream = [] → text.getLast? ≠ some REQ_MAGIC.1 at hlast
  have hheld : held p.stream = p.stream.deferred.toList := by simp [held, hpending]
  rw [hbytes]
  cases hdeferred : p.stream.deferred with
  | none =>
    have hempty : held p.stream = [] := by rw [hheld, hdeferred, Option.toList_none]
    rw [hempty, List.append_nil]
    exact hlast hempty
  | some b =>
    rw [hheld, hdeferred, Option.toList_some, List.getLast?_concat]
    rintro hb
    obtain rfl : b = REQ_MAGIC.1 := Option.some.inj hb
    obtain ⟨hflush, hevent⟩ := pump_deferred ht.pumped hs.exclusive hdeferred
    have hunseen : s.protocolSeen = false := by
      have hboth : s.protocolSeen = false ∧ p.event.isFrame = false := by
        simpa [AttachState.considered] using hseen
      exact hboth.1
    exact hsafe ⟨hflush, hreply _ hevent, ht.stopped, ht.early, hunseen, hattempts, hretry⟩

theorem Attending.sent (hs : Attending policy script s) (hdue : s.due env policy)
    {consumed : List Byte} (hscript : script = consumed ++ s.session.incoming)
    (hlast : (bytesOf consumed).getLast? ≠ some REQ_MAGIC.1) (retryAt turns : ℕ) :
    Attending policy script { s with
      session := s.session.act (.sent FOLDER_ON s.session.incoming),
      attempts := s.attempts + 1, retryAt := retryAt, turns := turns } := by
  have hattempts := hdue.2.2.1
  have hcount := hs.counted
  refine ⟨hs.exclusive, hs.orderly.send (by omega) (hs.seen hdue.1) hscript hlast, ?_,
    fun hseen act hact => ?_, hs.unframed⟩
  · change (commands (s.session.trace ++ [.sent FOLDER_ON s.session.incoming])).length = _
    rw [commands_append, List.length_append, hcount]
    rfl
  · rcases List.mem_append.mp hact with hold | hnew
    · exact hs.seen hseen act hold
    · obtain rfl := List.mem_singleton.mp hnew
      rfl

/-- An exposed turn does write a command between the two. -/
theorem Exposed.breaks (h : Exposed env policy s) (hs : Attending policy script s) :
    ∃ flow, attachTurn core verbose env policy s = .ok flow ∧
      flow.Leaves (fun t => ¬ Orderly policy script t.session.trace)
        fun r => ¬ Orderly policy script r.2.trace := by
  obtain ⟨hflush, hreply, hstopped, hearly, hseen, hattempts, hretry⟩ := h
  obtain ⟨front, rest, buffer, hlink, hpump⟩ : ∃ front rest buffer,
      s.session.incoming = front ++ .got REQ_MAGIC.1 :: rest ∧
      pump core verbose s.stream s.session = .ok ⟨.deviceLine (flushedLine s.stream.line),
        ⟨false, some REQ_MAGIC.1, buffer⟩, { s.session with incoming := rest }⟩ :=
    pump_flush hflush hs.exclusive
  obtain ⟨consumed, -, hscript, -, -⟩ := hs.unframed hseen
  let session : Session σ := (({ s.session with incoming := rest } : Session σ).act
    (.reported (.deviceLine (flushedLine s.stream.line)))).act (.shown (flushedLine s.stream.line))
  let considered : AttachState σ :=
    { s with stream := ⟨false, some REQ_MAGIC.1, buffer⟩, session := session }
  have hbroken : ∀ trace, ¬ Orderly policy script (trace ++ [.sent FOLDER_ON rest]) := by
    intro trace horderly
    obtain ⟨before, hbefore, hlast⟩ := horderly.between rest (by simp [commands, Act.command])
    have hread : before = consumed ++ front ++ [.got REQ_MAGIC.1] := by
      have hcut : before ++ rest = consumed ++ front ++ [.got REQ_MAGIC.1] ++ rest := by
        rw [← hbefore, hscript, hlink]
        simp
      exact List.append_cancel_right hcut
    rw [hread, bytesOf_append] at hlast
    exact hlast List.getLast?_concat
  have hdue : considered.due env policy := ⟨hseen, rfl, hattempts, hretry⟩
  refine ⟨attachRetry env policy considered, ?_, ?_⟩
  · rw [attachTurn, if_neg (by simp [hstopped]), if_neg (by omega)]
    rw [hpump]
    simp only [ok_bind, hreply]
    rfl
  · rcases @attachRetry_cases σ env policy considered with
      ⟨hidle, -⟩ | ⟨-, ⟨result, hcase, -⟩ | ⟨retryAt, hcase⟩⟩
    · exact absurd hdue hidle
    · rw [hcase]
      exact hbroken session.trace
    · rw [hcase]
      exact hbroken session.trace

/-- The trace at some point of a handshake, all turns of which so far were from safe states. -/
inductive Attaching (core : Handler σ) (verbose : Bool) (env : Env) (policy : AttachPolicy)
    (safe : AttachState σ → Prop) (session : Session σ) : List Act → Prop
  | refused {r : AttachResult × Session σ} (hstart : attachStart env policy session = .done r) :
      Attaching core verbose env policy safe session r.2.trace
  | turning {s t : AttachState σ} (hstart : attachStart env policy session = .next s)
      (hrun : Follows (attachTurn core verbose env policy) safe s t) :
      Attaching core verbose env policy safe session t.session.trace
  | ended {s t : AttachState σ} {r : AttachResult × Session σ}
      (hstart : attachStart env policy session = .next s)
      (hrun : Follows (attachTurn core verbose env policy) safe s t) (hsafe : safe t)
      (hend : attachTurn core verbose env policy t = .ok (.done r)) :
      Attaching core verbose env policy safe session r.2.trace

theorem orderly_first (policy : AttachPolicy) (script : List Byte) :
    Orderly policy script [.sent FOLDER_ON script] :=
  orderly_nil.send (Nat.lt_of_lt_of_le Nat.zero_lt_one (le_max_left _ _)) (by simp)
    (List.nil_append script).symm (by simp [bytesOf])

theorem Attending.turn (hs : Attending policy script s) (hsafe : ¬ Exposed env policy s)
    {flow : Flow (AttachState σ) (AttachResult × Session σ)}
    (h : attachTurn core verbose env policy s = .ok flow) :
    flow.Leaves (Attending policy script) fun r => Orderly policy script r.2.trace := by
  rcases attachTurn_cases h with
    ⟨result, rfl, -⟩ | ⟨p, session, ht, ⟨result, rfl, -⟩ | ⟨rfl, hreply⟩⟩
  · exact hs.orderly
  · exact (attending_considered hs ht).orderly
  · have hconsidered := attending_considered hs ht
    rcases @attachRetry_cases σ env policy (s.considered p session) with
      ⟨-, hretry⟩ | ⟨hdue, ⟨result, hretry, -⟩ | ⟨retryAt, hretry⟩⟩
    · rw [hretry]
      exact ⟨hconsidered.exclusive, hconsidered.orderly, hconsidered.counted, hconsidered.seen,
        hconsidered.unframed⟩
    · obtain ⟨consumed, hscript, hlast⟩ := hs.resolved ht hsafe hdue hreply
      rw [hretry]
      exact (hconsidered.sent hdue hscript hlast 0 0).orderly
    · obtain ⟨consumed, hscript, hlast⟩ := hs.resolved ht hsafe hdue hreply
      rw [hretry]
      exact hconsidered.sent hdue hscript hlast retryAt _

theorem attending_start (hstart : attachStart env policy ⟨script, state, []⟩ = .next s) :
    Attending policy script s := by
  obtain ⟨retryAt, deadline, rfl⟩ := attachStart_next hstart
  exact ⟨nofun, orderly_first policy script, rfl, fun _ act hact => by
    obtain rfl := List.mem_singleton.mp hact
    rfl, fun _ => ⟨[], [], rfl, rfl, fun _ => nofun⟩⟩

/-- As long as no turn is exposed, the command is written at most `max_attempts` times, never
after a frame was reported and never between the magic bytes of a request. -/
theorem attach_neverInterleaves (core : Handler σ) (verbose : Bool) (env : Env)
    (policy : AttachPolicy) (script : List Byte) (state : σ) (trace : List Act)
    (h : Attaching core verbose env policy (fun s => ¬ Exposed env policy s) ⟨script, state, []⟩
      trace) : Orderly policy script trace := by
  cases h with
  | refused hstart =>
    rcases @attachStart_cases σ env policy ⟨script, state, []⟩ with
      ⟨_, hcase, -⟩ | ⟨_, hcase, -⟩ | ⟨_, _, hcase⟩
    · rw [hcase] at hstart
      cases hstart
      exact orderly_nil
    · rw [hcase] at hstart
      cases hstart
      exact orderly_first policy script
    · rw [hcase] at hstart
      cases hstart
  | turning hstart hrun =>
    refine (hrun.invariant (Attending policy script) (attending_start hstart) ?_).orderly
    exact fun u v hu hsafe hturn => hu.turn hsafe hturn
  | ended hstart hrun hsafe hend =>
    have hattending := hrun.invariant (Attending policy script) (attending_start hstart)
      fun u v hu hsafe hturn => hu.turn hsafe hturn
    exact hattending.turn hsafe hend

theorem Attaching.of_run {fuel : ℕ} {r : AttachResult × Session σ}
    (h : attachSerialFolder core verbose env policy fuel session = .ok r) :
    Attaching core verbose env policy (fun _ => True) session r.2.trace := by
  unfold attachSerialFolder at h
  split at h
  · next hstart =>
    cases h
    exact .refused hstart
  · next s hstart =>
    obtain ⟨t, hreach, hend⟩ := iterate_reaches h
    exact .ended hstart hreach.follows trivial hend

end Handshake

/-- The clock stands still for some readings, then a retry is due, then the time is over. -/
def dueAt (reading : ℕ) : Env :=
  ⟨fun _ => false, fun k => if k < reading then 0 else if k = reading then 3000 else 20000, 100000,
    fun _ => .delivered⟩

/-- A line that is flushed, then a frame with a timeout within its magic. -/
def framedScript : List Byte :=
  List.replicate 513 (.got 0x78) ++ (countFrame.events ++ [.timeout, .closed])

/-- Retries are due from the 200th reading of the clock on, and again while the `M` waits. -/
def framedEnv : Env :=
  ⟨fun _ => false, fun k => if k < 200 then 0 else if k < 1028 then 3000 else 6000, 100000,
    fun _ => .delivered⟩

theorem attach_neverInterleaves_framed : ∃ trace,
    Attaching (emptyCore.handle noFiles noCompressors) false framedEnv AttachPolicy.default
      (fun s => ¬ Exposed framedEnv AttachPolicy.default s) ⟨framedScript, (), []⟩ trace ∧
    (commands trace).length = 2 ∧ handledIn trace = [(OP_COUNT, [])] ∧
    Orderly AttachPolicy.default framedScript trace := by
  let first : AttachState Unit := ⟨StreamState.default,
    ⟨framedScript, (), [.sent FOLDER_ON framedScript]⟩, 1, 2000, 12000, false, 0⟩
  have hstart : attachStart framedEnv AttachPolicy.default ⟨framedScript, (), []⟩ = .next first :=
    rfl
  -- No `M` is held while the line is about to be flushed.
  have hsafe : ∀ s : AttachState Unit,
      (!(s.stream.pendingM && decide (511 ≤ textLen s.stream.line))) = true →
      ¬ Exposed framedEnv AttachPolicy.default s := by
    rintro s hcheck ⟨⟨hpending, hlong⟩, -⟩
    have hlength : 511 ≤ textLen s.stream.line := hlong.elim (fun h => by omega) fun h => h.1
    simp [hpending, hlength] at hcheck
  have hrun : (iterate (fun s => if !(s.stream.pendingM && decide (511 ≤ textLen s.stream.line))
      then attachTurn (emptyCore.handle noFiles noCompressors) false framedEnv
        AttachPolicy.default s else Run.panic) 600 first).toOption.any
        (fun r => decide ((commands r.2.trace).length = 2 ∧
          handledIn r.2.trace = [(OP_COUNT, [])])) = true := by
    decide +kernel
  obtain ⟨r, hr, hacts⟩ := exists_any hrun
  obtain ⟨hcommands, hhandled⟩ := of_decide_eq_true hacts
  obtain ⟨t, hfollows, ht, hdone⟩ := iterate_follows hsafe hr
  exact ⟨r.2.trace, .ended hstart hfollows ht hdone, hcommands, hhandled,
    attach_neverInterleaves (emptyCore.handle noFiles noCompressors) false framedEnv
      AttachPolicy.default framedScript () _ (.ended hstart hfollows ht hdone)⟩

def flushScript : List Byte := List.replicate 512 (.got 0x78) ++ [.got 0x4d, .got 0x4d]

/-- The command is written behind the second `M`, which the flush has put back. -/
theorem attach_interleaves : ∃ trace,
    Attaching (emptyCore.handle noFiles noCompressors) false (dueAt 1028) AttachPolicy.default
      (fun _ => True) ⟨flushScript, (), []⟩ trace ∧
    ¬ Orderly AttachPolicy.default flushScript trace := by
  have hrun : (attachSerialFolder (emptyCore.handle noFiles noCompressors) false (dueAt 1028)
      AttachPolicy.default 600 ⟨flushScript, (), []⟩).toOption.any
        (fun r => (commands r.2.trace).contains []) = true := by
    decide +kernel
  obtain ⟨r, hr, hsent⟩ := exists_any hrun
  refine ⟨r.2.trace, .of_run hr, fun horderly => ?_⟩
  obtain ⟨consumed, hconsumed, hlast⟩ := horderly.between [] (List.contains_iff_mem.mp hsent)
  rw [List.append_nil] at hconsumed
  rw [← hconsumed] at hlast
  exact hlast (by decide +kernel)

end MotaTool.Serve
