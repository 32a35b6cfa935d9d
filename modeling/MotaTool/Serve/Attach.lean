import MotaTool.Serve.Conserve

/-!
# Enabling the serial folder source

The command is sent once, and again while the node stays silent, until binary
framing begins or a reply line arrives. Clock, interrupt flag and the fate of
each write come from the environment; a clock may return anything. The
settling delay before the first command is not modelled.
-/

namespace MotaTool.Serve

open Base Run Format seeder

def isWhitespace (ch : Char) : Bool :=
  let n := ch.toNat
  (decide (0x09 ≤ n) && decide (n ≤ 0x0d)) || n == 0x20 || n == 0x85 || n == 0xa0 || n == 0x1680 ||
    (decide (0x2000 ≤ n) && decide (n ≤ 0x200a)) || n == 0x2028 || n == 0x2029 || n == 0x202f ||
    n == 0x205f || n == 0x3000

def replyMarker : List Char := "-> ".toList

/-- A command reply comes bare or behind the marker. -/
def normalizeConsoleReply (line : List Char) : List Char :=
  let line := line.dropWhile isWhitespace
  (replyMarker.isPrefixOf? line).getD line

def hasReplyPrefix (line words : List Char) : Bool :=
  match words.isPrefixOf? line with
  | none => false
  | some [] => true
  | some (ch :: _) => ch == ' ' || ch == ':'

def ATTACHED : List Char := "OK folder attached".toList
def REFRESHED : List Char := "OK folder refreshed".toList

def isAttachOk (line : List Char) : Bool :=
  hasReplyPrefix line ATTACHED || hasReplyPrefix line REFRESHED

def isRejection (reply : List Char) : Bool :=
  reply == "ERR".toList || "ERR ".toList.isPrefixOf reply || "ERR:".toList.isPrefixOf reply

def FOLDER_ON : Bytes :=
  [0x6f, 0x74, 0x61, 0x20, 0x66, 0x6f, 0x6c, 0x64, 0x65, 0x72, 0x20, 0x6f, 0x6e, 0x0d, 0x0a]

inductive Delivery
  | delivered
  | unsent (cause : String)
  | unflushed (cause : String)

/-- Polls of the flag, readings of the clock and writes of the command, each by its number, and
the last instant that can be represented. -/
structure Env where
  stopped : ℕ → Bool
  now : ℕ → ℕ
  latest : ℕ
  delivery : ℕ → Delivery

def Env.after (env : Env) (instant duration : ℕ) : Option ℕ :=
  if instant + duration ≤ env.latest then some (instant + duration) else none

structure AttachPolicy where
  retryAfter : ℕ
  timeout : ℕ
  maxAttempts : ℕ

def AttachPolicy.default : AttachPolicy := ⟨2000, 12000, 3⟩

inductive AttachResult
  | attached
  | failed (chain : List String)
  | panicked
  deriving DecidableEq

structure AttachState (σ : Type) where
  stream : StreamState
  session : Session σ
  attempts : ℕ
  retryAt : ℕ
  deadline : ℕ
  protocolSeen : Bool
  turns : ℕ

section Attach

variable {σ : Type} (core : Handler σ) (verbose : Bool) (env : Env) (policy : AttachPolicy)

/-- A command counts as written whether or not its write succeeds. -/
def sendFolderOn (attempt : ℕ) (session : Session σ) : Option (List String) × Session σ :=
  let session := session.act (.sent FOLDER_ON session.incoming)
  match env.delivery attempt with
  | .delivered => (none, session)
  | .unsent cause => (some ["sending `ota folder on`", cause], session)
  | .unflushed cause => (some ["flushing `ota folder on`", cause], session)

def attachStart (session : Session σ) : Flow (AttachState σ) (AttachResult × Session σ) :=
  if env.stopped 0 then
    .done (.failed ["interrupted before enabling the serial folder source"], session)
  else
    match sendFolderOn env 0 session with
    | (some chain, session) => .done (.failed chain, session)
    | (none, session) =>
      match env.after (env.now 0) policy.retryAfter, env.after (env.now 0) policy.timeout with
      | some retryAt, some deadline =>
        .next ⟨StreamState.default, session, 1, retryAt, deadline, false, 0⟩
      | _, _ => .done (.panicked, session)

def timedOut (attempts : ℕ) : String :=
  let plural := if attempts = 1 then "" else "s"
  s!"timed out waiting for `OK folder attached` after {attempts} enable attempt{plural}"

def AttachState.due (s : AttachState σ) : Prop :=
  s.protocolSeen = false ∧ s.stream.pendingM = false ∧ s.attempts < policy.maxAttempts ∧
    s.retryAt ≤ env.now (2 * s.turns + 2)

instance (s : AttachState σ) : Decidable (s.due env policy) :=
  inferInstanceAs (Decidable (_ ∧ _ ∧ _ ∧ _))

def attachRetry (s : AttachState σ) : Flow (AttachState σ) (AttachResult × Session σ) :=
  if s.due env policy then
    match sendFolderOn env s.attempts s.session with
    | (some chain, session) => .done (.failed chain, session)
    | (none, session) =>
      match env.after (env.now (2 * s.turns + 2)) policy.retryAfter with
      | some retryAt => .next { s with
          session := session, attempts := s.attempts + 1, retryAt := retryAt,
          turns := s.turns + 1 }
      | none => .done (.panicked, session)
  else .next { s with turns := s.turns + 1 }

def replyResult (line : List Char) : Option AttachResult :=
  let reply := normalizeConsoleReply line
  if isAttachOk reply then some .attached
  else if isRejection reply then
    let text := String.ofList reply
    some (.failed [s!"node rejected `ota folder on`: {text}"])
  else none

def showLog (log : Option String) (session : Session σ) : Session σ :=
  match log with
  | some log => session.act (.shown log.toList)
  | none => session

/-- One turn of the handshake: a poll of the flag, a reading of the clock, a call of the pump
and another reading of the clock. -/
def attachTurn (s : AttachState σ) :
    Run (Flow (AttachState σ) (AttachResult × Session σ)) :=
  if env.stopped (s.turns + 1) then
    .ok (.done (.failed ["interrupted while enabling the serial folder source"], s.session))
  else if s.deadline ≤ env.now (2 * s.turns + 1) then
    .ok (.done (.failed [timedOut s.attempts], s.session))
  else do
    let p ← pump core verbose s.stream s.session
    let session := p.session.act (.reported p.event)
    match p.event with
    | .closed =>
      .ok (.done (.failed ["serial link closed while enabling the folder source"], session))
    | .seederFrame log =>
      .ok (attachRetry env policy { s with
        stream := p.stream, session := showLog log session, protocolSeen := true })
    | .deviceLine line =>
      let session := session.act (.shown line)
      match replyResult line with
      | some result => .ok (.done (result, session))
      | none => .ok (attachRetry env policy { s with stream := p.stream, session := session })
    | _ => .ok (attachRetry env policy { s with stream := p.stream, session := session })

def attachSerialFolder (fuel : ℕ) (session : Session σ) : Run (AttachResult × Session σ) :=
  match attachStart env policy session with
  | .done r => .ok r
  | .next s => iterate (attachTurn core verbose env policy) fuel s

end Attach

section Turn

variable {σ : Type} {core : Handler σ} {verbose : Bool} {env : Env} {policy : AttachPolicy}

structure Turned (core : Handler σ) (verbose : Bool) (env : Env) (s : AttachState σ) (p : Pumped σ)
    (session : Session σ) : Prop where
  pumped : pump core verbose s.stream s.session = .ok p
  stopped : env.stopped (s.turns + 1) = false
  early : env.now (2 * s.turns + 1) < s.deadline
  incoming : session.incoming = p.session.incoming
  trace : ∃ lines : List (List Char),
    session.trace = p.session.trace ++ .reported p.event :: lines.map .shown

def AttachState.considered (s : AttachState σ) (p : Pumped σ) (session : Session σ) :
    AttachState σ :=
  { s with
    stream := p.stream, session := session, protocolSeen := s.protocolSeen || p.event.isFrame }

theorem sendFolderOn_session (attempt : ℕ) (session : Session σ) :
    (sendFolderOn env attempt session).2 = session.act (.sent FOLDER_ON session.incoming) := by
  unfold sendFolderOn
  simp only
  split <;> rfl

theorem attachRetry_cases (s : AttachState σ) :
    (¬ s.due env policy ∧ attachRetry env policy s = .next { s with turns := s.turns + 1 }) ∨
      s.due env policy ∧
        ((∃ result, attachRetry env policy s =
            .done (result, s.session.act (.sent FOLDER_ON s.session.incoming)) ∧
              result ≠ .attached) ∨
          ∃ retryAt, attachRetry env policy s = .next { s with
            session := s.session.act (.sent FOLDER_ON s.session.incoming),
            attempts := s.attempts + 1, retryAt := retryAt, turns := s.turns + 1 }) := by
  unfold attachRetry
  split_ifs with hdue
  · refine .inr ⟨hdue, ?_⟩
    have hsession := @sendFolderOn_session σ env s.attempts s.session
    split
    · next chain session hsend =>
      rw [hsend] at hsession
      exact .inl ⟨.failed chain, by rw [← hsession], nofun⟩
    · next session hsend =>
      rw [hsend] at hsession
      split
      · next retryAt _ => exact .inr ⟨retryAt, by rw [← hsession]⟩
      · exact .inl ⟨.panicked, by rw [← hsession], nofun⟩
  · exact .inl ⟨hdue, rfl⟩

theorem attachStart_cases (session : Session σ) :
    (∃ result, attachStart env policy session = .done (result, session) ∧ result ≠ .attached) ∨
      (∃ result, attachStart env policy session =
        .done (result, session.act (.sent FOLDER_ON session.incoming)) ∧ result ≠ .attached) ∨
      ∃ retryAt deadline, attachStart env policy session =
        .next ⟨StreamState.default, session.act (.sent FOLDER_ON session.incoming), 1, retryAt,
          deadline, false, 0⟩ := by
  unfold attachStart
  split_ifs
  · exact .inl ⟨_, rfl, nofun⟩
  · have hsession := @sendFolderOn_session σ env 0 session
    split
    · next chain after hsend =>
      rw [hsend] at hsession
      exact .inr (.inl ⟨.failed chain, by rw [← hsession], nofun⟩)
    · next after hsend =>
      rw [hsend] at hsession
      split
      · next retryAt deadline _ _ => exact .inr (.inr ⟨retryAt, deadline, by rw [← hsession]⟩)
      · exact .inr (.inl ⟨.panicked, by rw [← hsession], nofun⟩)

theorem attachStart_next {session : Session σ} {s : AttachState σ}
    (h : attachStart env policy session = .next s) : ∃ retryAt deadline,
      s = ⟨StreamState.default, session.act (.sent FOLDER_ON session.incoming), 1, retryAt,
        deadline, false, 0⟩ := by
  rcases @attachStart_cases σ env policy session with
    ⟨_, hcase, -⟩ | ⟨_, hcase, -⟩ | ⟨retryAt, deadline, hcase⟩
  · rw [hcase] at h
    cases h
  · rw [hcase] at h
    cases h
  · rw [hcase] at h
    cases h
    exact ⟨retryAt, deadline, rfl⟩

theorem replyResult_attached {line : List Char} (h : replyResult line = some .attached) :
    isAttachOk (normalizeConsoleReply line) = true := by
  unfold replyResult at h
  simp only at h
  split_ifs at h with hok hrejected
  · exact hok
  · cases h

theorem showLog_incoming (log : Option String) (session : Session σ) :
    (showLog log session).incoming = session.incoming := by
  cases log <;> rfl

theorem showLog_trace (log : Option String) (session : Session σ) : ∃ lines : List (List Char),
    (showLog log session).trace = session.trace ++ lines.map .shown := by
  cases log with
  | none => exact ⟨[], (List.append_nil _).symm⟩
  | some log => exact ⟨[log.toList], rfl⟩

theorem attachTurn_cases {s : AttachState σ}
    {flow : Flow (AttachState σ) (AttachResult × Session σ)}
    (h : attachTurn core verbose env policy s = .ok flow) :
    (∃ result, flow = .done (result, s.session) ∧ result ≠ .attached) ∨
      ∃ p session, Turned core verbose env s p session ∧
        ((∃ result, flow = .done (result, session) ∧ (result = .attached →
            ∃ line, p.event = .deviceLine line ∧
              isAttachOk (normalizeConsoleReply line) = true)) ∨
          flow = attachRetry env policy (s.considered p session) ∧
            ∀ line, p.event = .deviceLine line → replyResult line = none) := by
  unfold attachTurn at h
  split_ifs at h with hstopped hearly
  · cases h
    exact .inl ⟨_, rfl, nofun⟩
  · cases h
    exact .inl ⟨_, rfl, nofun⟩
  · rw [bind_eq_ok] at h
    obtain ⟨p, hp, h⟩ := h
    have hturned : ∀ session : Session σ, session.incoming = p.session.incoming →
        (∃ lines : List (List Char),
          session.trace = p.session.trace ++ .reported p.event :: lines.map .shown) →
        Turned core verbose env s p session := fun session hincoming htrace =>
      ⟨hp, by simpa using hstopped, by omega, hincoming, htrace⟩
    refine .inr ⟨p, ?_⟩
    split at h
    · next hevent =>
      cases h
      exact ⟨p.session.act (.reported p.event), hturned _ rfl ⟨[], rfl⟩, .inl ⟨_, rfl, nofun⟩⟩
    · next log hevent =>
      cases h
      refine ⟨showLog log (p.session.act (.reported p.event)),
        hturned _ (showLog_incoming log _) ?_, .inr ⟨?_, ?_⟩⟩
      · obtain ⟨lines, hlines⟩ := showLog_trace log (p.session.act (.reported p.event))
        exact ⟨lines, by rw [hlines, Session.act, List.append_assoc]; rfl⟩
      · simp [AttachState.considered, hevent, PumpEvent.isFrame]
      · simp [hevent]
    · next line hevent =>
      refine ⟨(p.session.act (.reported p.event)).act (.shown line), hturned _ rfl
        ⟨[line], by simp [Session.act]⟩, ?_⟩
      cases hreply : replyResult line with
      | some result =>
        simp only [hreply] at h
        cases h
        refine .inl ⟨result, rfl, fun hattached => ⟨line, hevent, ?_⟩⟩
        rw [hattached] at hreply
        exact replyResult_attached hreply
      | none =>
        simp only [hreply] at h
        cases h
        refine .inr ⟨by simp [AttachState.considered, hevent, PumpEvent.isFrame], fun l hl => ?_⟩
        rw [hevent] at hl
        cases hl
        exact hreply
    · next hclosed hframe hline =>
      cases h
      refine ⟨p.session.act (.reported p.event), hturned _ rfl ⟨[], rfl⟩,
        .inr ⟨?_, fun line hevent => absurd hevent (hline line)⟩⟩
      cases hevent : p.event <;> simp_all [AttachState.considered, PumpEvent.isFrame]

end Turn

end MotaTool.Serve
