import MotaTool.Serve.Decide

/-!
# A patient session serves every request

The handshake and the serving loop each start with an empty stream state. When
the reply is a whole line nothing is held between them, so together they
handle exactly the requests of the script.
-/

namespace MotaTool.Serve

open Base Run Format seeder

section Whole

variable {σ : Type} {core : Handler σ} {a : ServeArgs} {env : LinkEnv} {policy : AttachPolicy}
  {script : List Byte} {n m fuel : ℕ}

/-- The first reply is a whole line that accepts the command. -/
def AcceptedWhole (script : List Byte) : Prop :=
  ∃ q, (Console.start.pieces (scan false script)).find? (fun q => q.reply.isSome) = some q ∧
    q.reply = some .attached ∧ q.forced = false

theorem findSome?_of_find? {pieces : List Piece} {q : Piece} {r : AttachResult}
    (h : pieces.find? (fun q => q.reply.isSome) = some q) (hq : q.reply = some r) :
    pieces.findSome? Piece.reply = some r := by
  induction pieces with
  | nil => cases h
  | cons p pieces ih =>
    cases hp : p.reply with
    | none =>
      rw [List.find?_cons_of_neg (by simp [hp])] at h
      rw [List.findSome?_cons, hp]
      exact ih h
    | some r' =>
      rw [List.find?_cons_of_pos (by simp [hp])] at h
      cases h
      rw [List.findSome?_cons, hp]
      exact hp.symm.trans hq

theorem AcceptedWhole.outcome (h : AcceptedWhole script) :
    scriptOutcome script = some .attached := by
  obtain ⟨q, hfind, hq, -⟩ := h
  rw [scriptOutcome, Serve.outcome, findSome?_of_find? hfind hq, Option.some_or]

theorem remaining_unheld {st : StreamState} (h : held st = []) (link : List Byte) :
    remaining st link = scan false link := by
  cases hpending : st.pendingM with
  | true => simp [held, hpending] at h
  | false =>
    have hdeferred : st.deferred = none := by simpa [held, hpending] using h
    rw [remaining, hpending, hdeferred]
    rfl

theorem attachSerialFolder_whole (hcore : Responsive core) (verbose : Bool) {env : Env}
    (hpatient : env.Patient policy n) (hn : 2 * script.length ≤ n) (hfuel : n < fuel)
    (before : List Act) (start : σ) (h : AcceptedWhole script) : ∃ session : Session σ,
      attachSerialFolder core verbose env policy fuel ⟨script, start, before⟩ =
        .ok (.attached, session) ∧
      session.incoming <:+ script ∧
      handledIn before ++ requests (scan false script) =
        handledIn session.trace ++ requests (scan false session.incoming) := by
  obtain ⟨session, st, items, hrun, hdecides⟩ :=
    attachSerialFolder_reply hcore verbose hpatient hn hfuel before start h.outcome
  obtain ⟨q, hfind, -, hforced⟩ := h
  have hheld : held st = [] := hdecides.unheld q hfind hforced
  have hscan : scan false script = items ++ scan false session.incoming := by
    rw [← remaining_unheld hheld session.incoming]
    exact hdecides.scan
  refine ⟨session, hrun, hdecides.forward, ?_⟩
  rw [hdecides.handled, attachFirst_handled, hscan]
  simp only [requests, List.filterMap_append, List.append_assoc]

theorem serveLoop_serves (hcore : Responsive core) (verbose : Bool) {stop : ℕ → Bool}
    (session : Session σ) (hm : 2 * session.incoming.length ≤ m) (hstop : stop m = true)
    (hrun : ∀ k < m, stop k = false) (hfuel : m < fuel) : ∃ final : Session σ,
      serveLoop core verbose stop fuel session = .ok final ∧
      handledIn final.trace =
        handledIn session.trace ++ requests (scan false session.incoming) := by
  obtain ⟨final, frames, hloop, -, hhandled, -⟩ := @serveTurns_serve σ core verbose session
    StreamState.default stop hcore nofun 0 m fuel
    (by simpa [weight, StreamState.default] using hm) (by simpa using hstop)
    (by simpa using hrun) hfuel
  exact ⟨final, hloop, hhandled⟩

theorem sendTempradio_delivered (a : ServeArgs) (env : LinkEnv) (h : env.tempradio = .delivered)
    (session : Session σ) : ∃ before : List Act, sendTempradio a env session =
      (none, { session with trace := session.trace ++ before }) ∧ handledIn before = [] := by
  unfold sendTempradio
  cases a.tempradio with
  | none => exact ⟨[], by simp, rfl⟩
  | some tuple =>
    simp only [h]
    exact ⟨[.sent (tempradioCommand tuple) session.incoming], rfl, rfl⟩

theorem serveLink_whole (hcore : Responsive core) (henable : a.enable = true)
    (htempradio : env.tempradio = .delivered) (hoff : env.off = .delivered)
    (hpatient : env.attach.Patient policy n) (hn : 2 * script.length ≤ n)
    (hm : 2 * script.length ≤ m) (hstop : env.stop m = true) (hrun : ∀ k < m, env.stop k = false)
    (hfuel : n < fuel ∧ m < fuel) (start : σ) (h : AcceptedWhole script) : ∃ final : Session σ,
      serveLink core a env policy fuel ⟨script, start, []⟩ = .ok (.bye, final) ∧
      handledIn final.trace = requests (scan false script) := by
  obtain ⟨before, hsend, hbefore⟩ := sendTempradio_delivered a env htempradio
    (⟨script, start, []⟩ : Session σ)
  rw [List.nil_append] at hsend
  obtain ⟨session, hattach, hforward, hsplit⟩ :=
    attachSerialFolder_whole hcore a.verbose hpatient hn hfuel.1 before start h
  have hle := hforward.length_le
  obtain ⟨served, hloop, hhandled⟩ := @serveLoop_serves σ core m fuel hcore a.verbose env.stop
    session (by omega) hstop hrun hfuel.2
  refine ⟨served.act (.sent FOLDER_OFF served.incoming), ?_, ?_⟩
  · rw [serveLink, hsend]
    simp only [if_pos henable, hattach, ok_bind, serveAttached, hloop, detachSerialFolder, hoff]
  · rw [Session.act, handledIn_append, hhandled, ← hsplit, hbefore]
    simp [handledIn]

end Whole

/-- In a patient session whose first reply is a whole accepting line, every request of the script
is handled once, in order, and answered by one response, and the source is disabled last. -/
theorem serveLink_serves {c : Crypto} {φ : Type} (core : SeederCore c) (fs : FileSystem φ)
    (z : Compressors) (a : ServeArgs) (env : LinkEnv) (policy : AttachPolicy) (script : List Byte)
    (files : φ) (n m fuel : ℕ) (henable : a.enable = true) (htempradio : env.tempradio = .delivered)
    (hoff : env.off = .delivered) (hpatient : env.attach.Patient policy n)
    (hn : 2 * script.length ≤ n) (hm : 2 * script.length ≤ m) (hstop : env.stop m = true)
    (hrun : ∀ k < m, env.stop k = false) (hfuel : n < fuel ∧ m < fuel)
    (haccepted : AcceptedWhole script) : ∃ final,
      serveLink (core.handle fs z) a env policy fuel ⟨script, files, []⟩ = .ok (.bye, final) ∧
      handledIn final.trace = requests (scan false script) ∧
      Answers (core.handle fs z) files (requests (scan false script))
        ((sentIn final.trace).filter isResponse) final.core := by
  have hcore := handle_responsive core fs z
  obtain ⟨final, hlink, hhandled⟩ := serveLink_whole hcore henable htempradio hoff hpatient hn hm
    hstop hrun hfuel files haccepted
  have hanswers := (serveLink_conversed hcore hlink).1.answers
  exact ⟨final, hlink, hhandled, hhandled ▸ hanswers⟩

def servedUntil (m : ℕ) : LinkEnv :=
  ⟨dueAt 200, fun k => decide (m ≤ k), .delivered, .delivered⟩

def countsAround : List Byte :=
  countFrame.events ++ (replyBytes.map .got ++ countFrame.events)

theorem countsAround_scan : scan false countsAround =
    .request OP_COUNT [] :: (replyBytes.map .text ++ [.request OP_COUNT []]) := by
  have hlast := scan_frame countFrame []
  rw [List.append_nil, scan_nil] at hlast
  rw [countsAround, scan_frame, scan_plain_append (by decide +kernel), hlast]
  rfl

theorem countsAround_accepted : AcceptedWhole countsAround := by
  refine ⟨⟨[], replyBytes.map asChar, false⟩, ?_, replyBytes_reply, rfl⟩
  have hpieces : Console.start.pieces (scan false countsAround) =
      [⟨[], replyBytes.map asChar, false⟩] := by
    rw [countsAround_scan]
    rfl
  rw [hpieces, List.find?_cons_of_pos (by rw [replyBytes_reply]; rfl)]

theorem serveLink_serves_counts :
    requests (scan false countsAround) = [(OP_COUNT, []), (OP_COUNT, [])] ∧ ∃ final,
      serveLink (emptyCore.handle noFiles noCompressors) serialArgs (servedUntil 60)
          AttachPolicy.default 101 ⟨countsAround, (), []⟩ = .ok (.bye, final) ∧
        handledIn final.trace = requests (scan false countsAround) ∧
        Answers (emptyCore.handle noFiles noCompressors) () (requests (scan false countsAround))
          ((sentIn final.trace).filter isResponse) final.core :=
  ⟨by rw [countsAround_scan]; rfl,
    serveLink_serves emptyCore noFiles noCompressors serialArgs (servedUntil 60)
      AttachPolicy.default countsAround () 100 60 101 rfl rfl rfl
      (dueAt_patient (n := 100) (by decide)) (by decide) (by decide) (by decide)
      (fun k hk => by simpa [servedUntil] using hk) (by decide) countsAround_accepted⟩

end MotaTool.Serve
