import MotaTool.Serve.Acknowledge

/-!
# A whole session on a link

Serving a link enables the serial folder source, runs the serving loop until
the flag is set or the link ends, and disables the source again. A handshake
that fails is followed by the disabling command too, whose fate is then
ignored. What a session says is commands and responses; a step of either loop
keeps the conversation, and the bracket follows from how the two are joined.
The Ctrl-C handler and what the opening of the link reports are not modelled.
-/

namespace MotaTool.Serve

open Base Run Format seeder

def FOLDER_OFF : Bytes :=
  [0x6f, 0x74, 0x61, 0x20, 0x66, 0x6f, 0x6c, 0x64, 0x65, 0x72, 0x20, 0x6f, 0x66, 0x66, 0x0d, 0x0a]

/-- The options that decide what is written besides responses; the tuple of `tempradio` is given
by its bytes. -/
structure ServeArgs where
  useTcp : Bool
  noEnable : Bool
  tempradio : Option Bytes
  verbose : Bool

def ServeArgs.enable (a : ServeArgs) : Bool := !a.useTcp && !a.noEnable

def tempradioCommand (tuple : Bytes) : Bytes :=
  [0x74, 0x65, 0x6d, 0x70, 0x72, 0x61, 0x64, 0x69, 0x6f, 0x20] ++ tuple ++ [0x0d, 0x0a]

/-- The environment of the handshake, the polls of the flag by the serving loop, and the fate of
the two other commands. -/
structure LinkEnv where
  attach : Env
  stop : ℕ → Bool
  tempradio : Delivery
  off : Delivery

inductive ServeResult
  | bye
  | failed (chain : List String)
  | panicked
  deriving DecidableEq

section Session

variable {σ : Type} (core : Handler σ) (a : ServeArgs) (env : LinkEnv) (policy : AttachPolicy)

/-- `link.write_all(..)?; link.flush()?`, without context. -/
def sendTempradio (session : Session σ) : Option (List String) × Session σ :=
  match a.tempradio with
  | none => (none, session)
  | some tuple =>
    let session := session.act (.sent (tempradioCommand tuple) session.incoming)
    match env.tempradio with
    | .delivered => (none, session)
    | .unsent cause => (some [cause], session)
    | .unflushed cause => (some [cause], session)

def detachSerialFolder (delivery : Delivery) (session : Session σ) :
    Option (List String) × Session σ :=
  let session := session.act (.sent FOLDER_OFF session.incoming)
  match delivery with
  | .delivered => (none, session)
  | .unsent cause => (some ["sending `ota folder off`", cause], session)
  | .unflushed cause => (some ["flushing `ota folder off`", cause], session)

def serveAttached (fuel : ℕ) (session : Session σ) : Run (ServeResult × Session σ) := do
  let session ← serveLoop core a.verbose env.stop fuel session
  match detachSerialFolder env.off session with
  | (none, session) => .ok (.bye, session)
  | (some chain, session) => .ok (.failed chain, session)

/-- The part of `cmd_serve` that uses the link. A panic of the handshake unwinds past the command
that disables the source. -/
def serveLink (fuel : ℕ) (session : Session σ) : Run (ServeResult × Session σ) :=
  match sendTempradio a env session with
  | (some chain, session) => .ok (.failed chain, session)
  | (none, session) =>
    if a.enable then do
      let (result, session) ← attachSerialFolder core a.verbose env.attach policy fuel session
      match result with
      | .attached => serveAttached core a env fuel session
      | .failed chain =>
        .ok (.failed ("serial folder source did not attach" :: chain),
          (detachSerialFolder env.off session).2)
      | .panicked => .ok (.panicked, session)
    else do
      let session ← serveLoop core a.verbose env.stop fuel session
      .ok (.bye, session)

end Session

def isResponse (chunk : Bytes) : Bool := RSP_MAGIC.isPrefixOf chunk

def Act.Says (commands : List Bytes) : Act → Prop
  | .handled _ _ => False
  | .sent chunk _ => chunk ∈ commands
  | _ => True

/-- Every request that was handled has one response, in order, and the rest is commands. -/
structure Conversed {σ : Type} (core : Handler σ) (commands : List Bytes) (start : σ)
    (session : Session σ) : Prop where
  answers : Answers core start (handledIn session.trace)
    ((sentIn session.trace).filter isResponse) session.core
  spoken : ∀ chunk ∈ sentIn session.trace, isResponse chunk = true ∨ chunk ∈ commands

section Conversed

variable {σ : Type} {core : Handler σ} {commands : List Bytes} {start : σ}
  {session after : Session σ} {acts : List Act}

theorem handledIn_append (trace acts : List Act) :
    handledIn (trace ++ acts) = handledIn trace ++ handledIn acts := List.filterMap_append

theorem sentIn_append (trace acts : List Act) :
    sentIn (trace ++ acts) = sentIn trace ++ sentIn acts := List.filterMap_append

theorem handledIn_spoken (h : ∀ act ∈ acts, act.Says commands) : handledIn acts = [] := by
  refine List.filterMap_eq_nil_iff.mpr fun act hact => ?_
  have hsays := h act hact
  cases act with
  | handled op args => exact hsays.elim
  | _ => rfl

theorem handledIn_act {act : Act} (h : act.Says commands) :
    handledIn (session.act act).trace = handledIn session.trace := by
  have hnone : handledIn [act] = [] :=
    handledIn_spoken fun other hother => List.mem_singleton.mp hother ▸ h
  rw [Session.act, handledIn_append, hnone, List.append_nil]

theorem sentIn_spoken (h : ∀ act ∈ acts, act.Says commands) : ∀ chunk ∈ sentIn acts,
    chunk ∈ commands := by
  intro chunk hchunk
  obtain ⟨act, hact, hsent⟩ := List.mem_filterMap.mp hchunk
  have hsays := h act hact
  cases act with
  | sent written unread =>
    cases hsent
    exact hsays
  | _ => cases hsent

theorem isResponse_responseFrame (op status : UInt8) (payload : Bytes) :
    isResponse (responseFrame op status payload) = true := by
  simp [isResponse, responseFrame, RSP_MAGIC]

theorem Answers.isResponse {s s' : σ} {reqs : List (UInt8 × Bytes)} {frames : List Bytes}
    (h : Answers core s reqs frames s') : ∀ frame ∈ frames, Serve.isResponse frame = true := by
  induction h with
  | nil => simp
  | cons _ _ ih =>
    intro frame hframe
    rcases List.mem_cons.mp hframe with rfl | hframe
    · exact isResponse_responseFrame _ _ _
    · exact ih frame hframe

theorem Conversed.append (h : Conversed core commands start session)
    (hcommands : ∀ chunk ∈ commands, isResponse chunk = false)
    (hacts : ∀ act ∈ acts, act.Says commands) (hcore : after.core = session.core)
    (htrace : after.trace = session.trace ++ acts) : Conversed core commands start after := by
  have hsent := sentIn_spoken hacts
  have hfilter : (sentIn acts).filter isResponse = [] :=
    List.filter_eq_nil_iff.mpr fun chunk hchunk => by simp [hcommands chunk (hsent chunk hchunk)]
  constructor
  · rw [htrace, hcore, handledIn_append, handledIn_spoken hacts, List.append_nil, sentIn_append,
      List.filter_append, hfilter, List.append_nil]
    exact h.answers
  · intro chunk hchunk
    rw [htrace, sentIn_append] at hchunk
    rcases List.mem_append.mp hchunk with hold | hnew
    · exact h.spoken chunk hold
    · exact .inr (hsent chunk hnew)

theorem Conversed.of_eq (h : Conversed core commands start session)
    (hcore : after.core = session.core) (hhandled : handledIn after.trace = handledIn session.trace)
    (hsent : sentIn after.trace = sentIn session.trace) :
    Conversed core commands start after := by
  constructor
  · rw [hhandled, hsent, hcore]
    exact h.answers
  · rw [hsent]
    exact h.spoken

theorem Conversed.mono {more : List Bytes} (h : Conversed core commands start session)
    (hsub : commands ⊆ more) : Conversed core more start session :=
  ⟨h.answers, fun chunk hchunk => (h.spoken chunk hchunk).imp_right fun hc => hsub hc⟩

theorem Conversed.notMem {chunk : Bytes} (h : Conversed core commands start session)
    (hresponse : isResponse chunk = false) (hcommand : chunk ∉ commands) :
    chunk ∉ sentIn session.trace := by
  intro hchunk
  rcases h.spoken chunk hchunk with hyes | hyes
  · rw [hresponse] at hyes
    cases hyes
  · exact hcommand hyes

theorem Conversed.pump {verbose : Bool} {st : StreamState} {p : Pumped σ}
    (h : Conversed core commands start session) (hcore : Responsive core) (hst : st.Exclusive)
    (hp : Serve.pump core verbose st session = .ok p) :
    p.stream.Exclusive ∧ Conversed core commands start p.session := by
  obtain ⟨items, hpumps⟩ := pump_pumps hp hst
  obtain ⟨frames, hanswers, hhandled, hsent⟩ := hpumps.serves hcore
  have hframes : frames.filter Serve.isResponse = frames :=
    List.filter_eq_self.mpr hanswers.isResponse
  refine ⟨hpumps.exclusive, ?_, fun chunk hchunk => ?_⟩
  · rw [hhandled, hsent, List.filter_append, hframes]
    exact h.answers.append hanswers
  · rw [hsent] at hchunk
    rcases List.mem_append.mp hchunk with hold | hnew
    · exact h.spoken chunk hold
    · exact .inl (hanswers.isResponse chunk hnew)

end Conversed

section Loops

variable {σ : Type} {core : Handler σ} {verbose : Bool} {commands : List Bytes} {start : σ}
  {session final : Session σ} {stop : ℕ → Bool} {fuel : ℕ}

theorem serveTurn_conversed (hcore : Responsive core) {s : ServeState σ}
    (hst : s.stream.Exclusive) (hs : Conversed core commands start s.session)
    {flow : Flow (ServeState σ) (Session σ)} (h : serveTurn core verbose stop s = .ok flow) :
    flow.Leaves (fun t => t.stream.Exclusive ∧ Conversed core commands start t.session)
      (Conversed core commands start) := by
  by_cases hstop : stop s.polls = true
  · rw [serveTurn, if_pos hstop] at h
    cases h
    exact hs
  · replace hstop : stop s.polls = false := by simpa using hstop
    obtain ⟨p, hp⟩ := @pump_responsive σ core verbose s.session s.stream hcore
    obtain ⟨hexclusive, hconversed⟩ := hs.pump hcore hst hp
    by_cases hevent : p.event = .closed
    · rw [serveTurn_done hstop hp hevent] at h
      cases h
      exact hconversed
    · obtain ⟨shown, hturn, -, hshown, hhandled, hsent⟩ := serveTurn_next hstop hp hevent
      rw [hturn] at h
      cases h
      exact ⟨hexclusive, hconversed.of_eq hshown hhandled hsent⟩

theorem serveLoop_conversed (hcore : Responsive core) (hs : Conversed core commands start session)
    (h : serveLoop core verbose stop fuel session = .ok final) :
    Conversed core commands start final := by
  obtain ⟨t, hreach, hend⟩ := iterate_reaches h
  have ht : t.stream.Exclusive ∧ Conversed core commands start t.session :=
    hreach.invariant (fun t => t.stream.Exclusive ∧ Conversed core commands start t.session)
      ⟨nofun, hs⟩ fun u v hu hturn => by
        have hv := serveTurn_conversed hcore hu.1 hu.2 hturn
        exact hv
  exact serveTurn_conversed hcore ht.1 ht.2 hend

variable {env : Env} {policy : AttachPolicy} {s : AttachState σ}

def turnSession : Flow (AttachState σ) (AttachResult × Session σ) → Session σ
  | .next s => s.session
  | .done r => r.2

theorem attachRetry_spoken (s : AttachState σ) : ∃ acts : List Act,
    (∀ act ∈ acts, act.Says [FOLDER_ON]) ∧
      turnSession (attachRetry env policy s) =
        { s.session with trace := s.session.trace ++ acts } ∧
      ∀ t, attachRetry env policy s = .next t → t.stream = s.stream := by
  have hsays : ∀ act ∈ [Act.sent FOLDER_ON s.session.incoming], act.Says [FOLDER_ON] := by
    simp [Act.Says]
  rcases @attachRetry_cases σ env policy s with
    ⟨-, hcase⟩ | ⟨-, ⟨result, hcase, -⟩ | ⟨retryAt, hcase⟩⟩
  · refine ⟨[], by simp, by rw [hcase, List.append_nil]; rfl, fun t ht => ?_⟩
    rw [hcase] at ht
    cases ht
    rfl
  · refine ⟨_, hsays, by rw [hcase]; rfl, fun t ht => ?_⟩
    rw [hcase] at ht
    cases ht
  · refine ⟨_, hsays, by rw [hcase]; rfl, fun t ht => ?_⟩
    rw [hcase] at ht
    cases ht
    rfl

theorem attachTurn_spoken {flow : Flow (AttachState σ) (AttachResult × Session σ)}
    (h : attachTurn core verbose env policy s = .ok flow) :
    (turnSession flow = s.session ∧ ∀ t, flow ≠ .next t) ∨
      ∃ p acts, pump core verbose s.stream s.session = .ok p ∧
        (∀ act ∈ acts, act.Says [FOLDER_ON]) ∧
        turnSession flow = { p.session with trace := p.session.trace ++ acts } ∧
        ∀ t, flow = .next t → t.stream = p.stream := by
  unfold attachTurn at h
  split_ifs at h with hstopped hearly
  · cases h
    exact .inl ⟨rfl, by simp⟩
  · cases h
    exact .inl ⟨rfl, by simp⟩
  · obtain ⟨p, hp, h⟩ := bind_eq_ok.mp h
    refine .inr ⟨p, ?_⟩
    -- the reports of this turn, and then what a retry says
    have hretry : ∀ (t : AttachState σ) (reports : List Act), t.stream = p.stream →
        t.session = { p.session with trace := p.session.trace ++ reports } →
        (∀ act ∈ reports, act.Says [FOLDER_ON]) → flow = attachRetry env policy t →
        ∃ acts, pump core verbose s.stream s.session = .ok p ∧
          (∀ act ∈ acts, act.Says [FOLDER_ON]) ∧
          turnSession flow = { p.session with trace := p.session.trace ++ acts } ∧
          ∀ u, flow = .next u → u.stream = p.stream := by
      rintro t reports hstream hsession hreports rfl
      obtain ⟨acts, hacts, hflow, hnext⟩ := @attachRetry_spoken σ env policy t
      refine ⟨reports ++ acts, hp, fun act hact => ?_, ?_, fun u hu => ?_⟩
      · exact (List.mem_append.mp hact).elim (hreports act) (hacts act)
      · rw [hflow, hsession, List.append_assoc]
      · rw [hnext u hu, hstream]
    split at h
    · cases h
      exact ⟨[.reported p.event], hp, by simp [Act.Says], rfl, by simp⟩
    · next log hevent =>
      cases h
      obtain ⟨lines, hlines⟩ := showLog_trace log (p.session.act (.reported p.event))
      refine hretry _ (.reported p.event :: lines.map .shown) rfl ?_ (by simp [Act.Says]) rfl
      have hcore : (showLog log (p.session.act (.reported p.event))).core = p.session.core := by
        cases log <;> rfl
      have hincoming := showLog_incoming log (p.session.act (.reported p.event))
      cases hsession : showLog log (p.session.act (.reported p.event)) with
      | mk incoming state trace =>
        rw [hsession] at hcore hincoming hlines
        simp only at hcore hincoming hlines
        simp [hcore, hincoming, hlines, Session.act]
    · next line hevent =>
      split at h
      · cases h
        exact ⟨[.reported p.event, .shown line], hp, by simp [Act.Says],
          by simp [turnSession, Session.act], by simp⟩
      · cases h
        exact hretry _ [.reported p.event, .shown line] rfl (by simp [Session.act])
          (by simp [Act.Says]) rfl
    · cases h
      exact hretry _ [.reported p.event] rfl rfl (by simp [Act.Says]) rfl

theorem attachTurn_conversed (hcore : Responsive core) (hon : FOLDER_ON ∈ commands)
    (hcommands : ∀ chunk ∈ commands, isResponse chunk = false) (hst : s.stream.Exclusive)
    (hs : Conversed core commands start s.session)
    {flow : Flow (AttachState σ) (AttachResult × Session σ)}
    (h : attachTurn core verbose env policy s = .ok flow) :
    flow.Leaves (fun t => t.stream.Exclusive ∧ Conversed core commands start t.session)
      (fun r => Conversed core commands start r.2) := by
  rcases attachTurn_spoken h with ⟨hsame, hnext⟩ | ⟨p, acts, hp, hacts, hsession, hnext⟩
  · cases flow with
    | next t => exact absurd rfl (hnext t)
    | done r =>
      change Conversed core commands start r.2
      rw [show r.2 = s.session from hsame]
      exact hs
  · obtain ⟨hexclusive, hconversed⟩ := hs.pump hcore hst hp
    have hafter : Conversed core commands start (turnSession flow) := by
      rw [hsession]
      refine hconversed.append hcommands (fun act hact => ?_) rfl rfl
      have hsays := hacts act hact
      cases act with
      | sent chunk unread => exact List.mem_singleton.mp hsays ▸ hon
      | handled op args => exact hsays
      | _ => trivial
    cases flow with
    | next t => exact ⟨by rw [hnext t rfl]; exact hexclusive, hafter⟩
    | done r => exact hafter

theorem attachSerialFolder_conversed (hcore : Responsive core) (hon : FOLDER_ON ∈ commands)
    (hcommands : ∀ chunk ∈ commands, isResponse chunk = false)
    (hs : Conversed core commands start session) {result : AttachResult}
    (h : attachSerialFolder core verbose env policy fuel session = .ok (result, final)) :
    Conversed core commands start final := by
  have hsent : Conversed core commands start
      (session.act (.sent FOLDER_ON session.incoming)) :=
    hs.append hcommands
      (show ∀ act ∈ [Act.sent FOLDER_ON session.incoming], act.Says commands by
        simpa [Act.Says] using hon) rfl rfl
  unfold attachSerialFolder at h
  rcases @attachStart_cases σ env policy session with
    ⟨_, hcase, -⟩ | ⟨_, hcase, -⟩ | ⟨retryAt, deadline, hcase⟩
  · rw [hcase] at h
    cases h
    exact hs
  · rw [hcase] at h
    cases h
    exact hsent
  · rw [hcase] at h
    obtain ⟨t, hreach, hend⟩ := iterate_reaches h
    have ht : t.stream.Exclusive ∧ Conversed core commands start t.session :=
      hreach.invariant (fun t => t.stream.Exclusive ∧ Conversed core commands start t.session)
        ⟨nofun, hsent⟩ fun u v hu hturn => by
          have hv := attachTurn_conversed hcore hon hcommands hu.1 hu.2 hturn
          exact hv
    exact attachTurn_conversed hcore hon hcommands ht.1 ht.2 hend

end Loops

def ServeArgs.commands (a : ServeArgs) : List Bytes :=
  (a.tempradio.map tempradioCommand).toList ++ if a.enable then [FOLDER_ON, FOLDER_OFF] else []

/-- The last act is the command that disables the source, which was not written before. -/
def Closes {σ : Type} (session : Session σ) : Prop :=
  ∃ before unread, session.trace = before ++ [.sent FOLDER_OFF unread] ∧
    FOLDER_OFF ∉ sentIn before

section Bracket

variable {σ : Type} {core : Handler σ} {a : ServeArgs} {env : LinkEnv} {policy : AttachPolicy}
  {opening : List Bytes} {start : σ} {session final : Session σ} {fuel : ℕ}
  {result : ServeResult}

theorem tempradio_notResponse (tuple : Bytes) : isResponse (tempradioCommand tuple) = false :=
  rfl

theorem tempradio_ne_off (tuple : Bytes) : tempradioCommand tuple ≠ FOLDER_OFF := by
  simp [tempradioCommand, FOLDER_OFF]

theorem tempradio_ne_on (tuple : Bytes) : tempradioCommand tuple ≠ FOLDER_ON := by
  simp [tempradioCommand, FOLDER_ON]

theorem detachSerialFolder_session (delivery : Delivery) (session : Session σ) :
    (detachSerialFolder delivery session).2 =
      session.act (.sent FOLDER_OFF session.incoming) := by
  unfold detachSerialFolder
  cases delivery <;> rfl

theorem Conversed.detach (h : Conversed core (opening ++ [FOLDER_ON]) start session)
    (hopening : ∀ chunk ∈ opening, isResponse chunk = false ∧ chunk ≠ FOLDER_OFF)
    (delivery : Delivery) :
    Conversed core (opening ++ [FOLDER_ON, FOLDER_OFF]) start
        (detachSerialFolder delivery session).2 ∧
      Closes (detachSerialFolder delivery session).2 := by
  have hsub : opening ++ [FOLDER_ON] ⊆ opening ++ [FOLDER_ON, FOLDER_OFF] := by
    intro chunk hchunk
    rcases List.mem_append.mp hchunk with hold | hnew
    · exact List.mem_append_left _ hold
    · exact List.mem_append_right _ (List.mem_singleton.mp hnew ▸ List.mem_cons_self)
  rw [detachSerialFolder_session]
  constructor
  · have hoff : ∀ act ∈ [Act.sent FOLDER_OFF session.incoming],
        act.Says (opening ++ [FOLDER_ON, FOLDER_OFF]) := by simp [Act.Says]
    refine (h.mono hsub).append (fun chunk hchunk => ?_) hoff rfl rfl
    rcases List.mem_append.mp hchunk with hold | hnew
    · exact (hopening chunk hold).1
    · rcases List.mem_pair.mp hnew with rfl | rfl <;> decide
  · refine ⟨session.trace, session.incoming, rfl, h.notMem (by decide) fun hmem => ?_⟩
    rcases List.mem_append.mp hmem with hold | hnew
    · exact (hopening _ hold).2 rfl
    · exact absurd (List.mem_singleton.mp hnew) (by decide)

theorem serveAttached_closes (hcore : Responsive core)
    (hopening : ∀ chunk ∈ opening, isResponse chunk = false ∧ chunk ≠ FOLDER_OFF)
    (hs : Conversed core (opening ++ [FOLDER_ON]) start session)
    (h : serveAttached core a env fuel session = .ok (result, final)) :
    Conversed core (opening ++ [FOLDER_ON, FOLDER_OFF]) start final ∧ Closes final := by
  obtain ⟨served, hloop, h⟩ := bind_eq_ok.mp h
  have hdetach := (serveLoop_conversed hcore hs hloop).detach hopening env.off
  split at h
  · next after hoff =>
    cases h
    rw [hoff] at hdetach
    exact hdetach
  · next chain after hoff =>
    cases h
    rw [hoff] at hdetach
    exact hdetach

theorem sendTempradio_cases (a : ServeArgs) (env : LinkEnv) (session : Session σ) :
    (∃ after, (sendTempradio a env session).2 = after ∧ after.core = session.core ∧
      ∃ acts : List Act, after.trace = session.trace ++ acts ∧
        ∀ act ∈ acts, act.Says (a.tempradio.map tempradioCommand).toList) := by
  refine ⟨_, rfl, ?_⟩
  unfold sendTempradio
  cases a.tempradio with
  | none => exact ⟨rfl, [], by simp, by simp⟩
  | some tuple =>
    have hsays : ∀ act ∈ [Act.sent (tempradioCommand tuple) session.incoming],
        act.Says ((some tuple).map tempradioCommand).toList := by simp [Act.Says]
    cases env.tempradio <;> exact ⟨rfl, _, rfl, hsays⟩

theorem tempradio_opening (a : ServeArgs) :
    ∀ chunk ∈ (a.tempradio.map tempradioCommand).toList,
      isResponse chunk = false ∧ chunk ≠ FOLDER_OFF ∧ chunk ≠ FOLDER_ON := by
  intro chunk hchunk
  obtain ⟨tuple, -, rfl⟩ := Option.map_eq_some_iff.mp (Option.mem_toList.mp hchunk)
  exact ⟨tempradio_notResponse tuple, tempradio_ne_off tuple, tempradio_ne_on tuple⟩

def Bracketed {σ : Type} (result : ServeResult) (session : Session σ) : Prop :=
  FOLDER_ON ∈ sentIn session.trace → result ≠ .panicked → Closes session

theorem bracketed_of_closed (h : Conversed core (a.tempradio.map tempradioCommand).toList start
    final) : Bracketed result final := fun hon _ =>
  absurd hon (h.notMem (by decide) fun hmem => (tempradio_opening a _ hmem).2.2 rfl)

theorem serveLink_conversed (hcore : Responsive core) {incoming : List Byte}
    (h : serveLink core a env policy fuel ⟨incoming, start, []⟩ = .ok (result, final)) :
    Conversed core a.commands start final ∧ Bracketed result final := by
  have hopening := tempradio_opening a
  have hquiet : Conversed core (a.tempradio.map tempradioCommand).toList start
      (sendTempradio a env ⟨incoming, start, []⟩).2 := by
    obtain ⟨after, hafter, hstate, acts, htrace, hacts⟩ :=
      sendTempradio_cases a env (⟨incoming, start, []⟩ : Session σ)
    rw [hafter]
    have hempty : Conversed core (a.tempradio.map tempradioCommand).toList start
        ⟨incoming, start, []⟩ := ⟨.nil, by simp [sentIn]⟩
    exact hempty.append (fun chunk hchunk => (hopening chunk hchunk).1) hacts hstate htrace
  have hsub : (a.tempradio.map tempradioCommand).toList ⊆ a.commands :=
    fun chunk hchunk => List.mem_append_left _ hchunk
  unfold serveLink at h
  split at h
  · next chain session hsend =>
    cases h
    rw [hsend] at hquiet
    exact ⟨hquiet.mono hsub, bracketed_of_closed hquiet⟩
  · next session hsend =>
    rw [hsend] at hquiet
    by_cases henable : a.enable = true
    · rw [if_pos henable] at h
      obtain ⟨⟨reply, attached⟩, hattach, h⟩ := bind_eq_ok.mp h
      have hcommands : a.commands =
          (a.tempradio.map tempradioCommand).toList ++ [FOLDER_ON, FOLDER_OFF] := by
        rw [ServeArgs.commands, if_pos henable]
      have hspoken : Conversed core ((a.tempradio.map tempradioCommand).toList ++ [FOLDER_ON])
          start attached := by
        refine attachSerialFolder_conversed hcore (by simp) (fun chunk hchunk => ?_)
          (hquiet.mono (List.subset_append_left _ _)) hattach
        rcases List.mem_append.mp hchunk with hold | hnew
        · exact (hopening chunk hold).1
        · rw [List.mem_singleton.mp hnew]
          decide
      have hoff := fun chunk hchunk => (hopening chunk hchunk).imp_right And.left
      rw [hcommands]
      cases reply with
      | attached =>
        obtain ⟨hconversed, hcloses⟩ := serveAttached_closes hcore hoff hspoken h
        exact ⟨hconversed, fun _ _ => hcloses⟩
      | failed chain =>
        cases h
        obtain ⟨hconversed, hcloses⟩ := hspoken.detach hoff env.off
        exact ⟨hconversed, fun _ _ => hcloses⟩
      | panicked =>
        cases h
        refine ⟨hspoken.mono fun chunk hchunk => ?_, fun _ hpanicked => absurd rfl hpanicked⟩
        rcases List.mem_append.mp hchunk with hold | hnew
        · exact List.mem_append_left _ hold
        · exact List.mem_append_right _ (List.mem_singleton.mp hnew ▸ List.mem_cons_self)
    · rw [if_neg henable] at h
      obtain ⟨served, hloop, h⟩ := bind_eq_ok.mp h
      cases h
      have hserved := serveLoop_conversed hcore hquiet hloop
      exact ⟨hserved.mono hsub, bracketed_of_closed hserved⟩

end Bracket

/-- In every session each request that is handled is answered by one response, in order, what else
is written is commands, and a source that was enabled is disabled by the last write. -/
theorem serveLink_bracketed {c : Crypto} {φ : Type} (core : SeederCore c) (fs : FileSystem φ)
    (z : Compressors) (a : ServeArgs) (env : LinkEnv) (policy : AttachPolicy) (fuel : ℕ)
    (script : List Byte) (files : φ) {result : ServeResult} {final : Session φ}
    (h : serveLink (core.handle fs z) a env policy fuel ⟨script, files, []⟩ =
      .ok (result, final)) :
    Answers (core.handle fs z) files (handledIn final.trace)
        ((sentIn final.trace).filter isResponse) final.core ∧
      (∀ chunk ∈ sentIn final.trace, isResponse chunk = true ∨ chunk ∈ a.commands) ∧
      (FOLDER_ON ∈ sentIn final.trace → result ≠ .panicked → Closes final) := by
  obtain ⟨hconversed, hbracketed⟩ := serveLink_conversed (handle_responsive core fs z) h
  exact ⟨hconversed.answers, hconversed.spoken, hbracketed⟩

def steady : LinkEnv :=
  ⟨⟨fun _ => false, fun _ => 0, 100000, fun _ => .delivered⟩, fun _ => false, .delivered,
    .delivered⟩

def serialArgs : ServeArgs := ⟨false, false, none, true⟩

/-- The node acknowledges, asks for the count, and hangs up. -/
theorem serveLink_bracketed_count : ∃ final,
    serveLink (emptyCore.handle noFiles noCompressors) serialArgs steady AttachPolicy.default 40
        ⟨replyBytes.map .got ++ countFrame.events ++ [.closed], (), []⟩ = .ok (.bye, final) ∧
      Answers (emptyCore.handle noFiles noCompressors) () (handledIn final.trace)
        ((sentIn final.trace).filter isResponse) final.core ∧
      (∀ chunk ∈ sentIn final.trace, isResponse chunk = true ∨ chunk ∈ serialArgs.commands) ∧
      (FOLDER_ON ∈ sentIn final.trace → ServeResult.bye ≠ .panicked → Closes final) := by
  have hrun : (serveLink (emptyCore.handle noFiles noCompressors) serialArgs steady
      AttachPolicy.default 40 ⟨replyBytes.map .got ++ countFrame.events ++ [.closed], (),
        []⟩).toOption.any (fun r => decide (r.1 = .bye)) = true := by
    decide +kernel
  obtain ⟨⟨result, final⟩, hr, hbye⟩ := exists_any hrun
  obtain rfl : result = .bye := of_decide_eq_true hbye
  exact ⟨final, hr, serveLink_bracketed emptyCore noFiles noCompressors serialArgs steady
    AttachPolicy.default 40 (replyBytes.map .got ++ countFrame.events ++ [.closed]) () hr⟩

end MotaTool.Serve
