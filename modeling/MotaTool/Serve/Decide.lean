import MotaTool.Serve.Link

/-!
# The handshake is decided by the first reply

In an environment that neither interrupts nor delays the handshake, its
outcome is read off the console text: the first piece of a line that accepts
or rejects the command, the end of the link when there is none, and a timeout
on a link that stays silent. Retries, requests and timeouts on the way change
nothing. The turns are counted by the bytes still to be considered.
-/

namespace MotaTool.Serve

open Base Run Format seeder

section Closed

variable {kept : List Byte → Prop} {link : List Byte}

theorem readFrameByte_keeps (hkept : ∀ link, kept link → kept (readByte link).2)
    (h : kept link) : kept (readFrameByte link).2 := by
  have hread := hkept link h
  unfold readFrameByte
  split <;> simp_all

theorem readFrameBytes_keeps (hkept : ∀ link, kept link → kept (readByte link).2) (n : ℕ)
    (h : kept link) : kept (readFrameBytes n link).2 := by
  induction n generalizing link with
  | zero => exact h
  | succ n ih =>
    have hfirst := readFrameByte_keeps hkept h
    rw [readFrameBytes]
    split
    · next rest hread =>
      rw [hread] at hfirst
      exact hfirst
    · next b rest hread =>
      rw [hread] at hfirst
      have hrest := ih hfirst
      split <;> simp_all

theorem readData_keeps (hkept : ∀ link, kept link → kept (readByte link).2) (op : UInt8)
    (args : Bytes) (h : kept link) : kept (readData op args link).2 := by
  have hdata := readFrameBytes_keeps hkept (declaredLen args) h
  unfold readData
  split_ifs
  · exact h
  · split <;> simp_all
  · exact h

theorem readChecked_keeps (hkept : ∀ link, kept link → kept (readByte link).2) (op : UInt8)
    (args : Bytes) (h : kept link) : kept (readChecked op args link).2 := by
  have hsum := readFrameByte_keeps hkept h
  unfold readChecked
  split <;> simp_all

/-- What every single read keeps of a link, reading a request keeps. -/
theorem readRequest_keeps (hkept : ∀ link, kept link → kept (readByte link).2) (h : kept link) :
    kept (readRequest link).2 := by
  have hop := readFrameByte_keeps hkept h
  unfold readRequest
  split
  · next rest hread =>
    rw [hread] at hop
    exact hop
  · next op rest hread =>
    rw [hread] at hop
    split
    · exact hop
    · next hdr _ =>
      have hhdr := readFrameBytes_keeps hkept hdr hop
      split
      · simp_all
      · next args more hargs =>
        rw [hargs] at hhdr
        have hdata := readData_keeps hkept op args hhdr
        split
        · simp_all
        · next full last hfull =>
          rw [hfull] at hdata
          exact readChecked_keeps hkept op full hdata

theorem readByte_closed (link : List Byte) (h : .closed ∈ link) : .closed ∈ (readByte link).2 := by
  rcases link with _ | ⟨_ | _ | _, rest⟩ <;> simp_all [readByte]

variable {σ : Type} {core : Handler σ} {verbose : Bool} {st : StreamState} {b : UInt8}
  {session : Session σ} {p : Pumped σ}

theorem acceptUnframed_ne_closed (st : StreamState) (b : UInt8) :
    (acceptUnframed st b).1 ≠ .closed := by
  unfold acceptUnframed
  split_ifs
  · nofun
  · split <;> nofun

theorem pumpMagic_closed (h : pumpMagic core verbose st session = .ok p) :
    (.closed ∈ session.incoming → .closed ∈ p.session.incoming) ∧ p.event ≠ .closed := by
  have hrest := @readRequest_keeps (.closed ∈ ·) session.incoming readByte_closed
  unfold pumpMagic at h
  split at h
  · next op args rest hread =>
    rw [hread] at hrest
    obtain ⟨⟨log, after⟩, hanswer, h⟩ := bind_eq_ok.mp h
    cases h
    have hincoming : after.incoming = rest := answer_incoming hanswer
    exact ⟨fun hclosed => by rw [hincoming]; exact hrest hclosed, nofun⟩
  · next rest hread =>
    rw [hread] at hrest
    cases h
    exact ⟨hrest, nofun⟩
  · next op rest hread =>
    rw [hread] at hrest
    split at h
    · cases h
      exact ⟨hrest, nofun⟩
    · cases h
      exact ⟨hrest, acceptUnframed_ne_closed _ _⟩

theorem pumpByte_closed (h : pumpByte core verbose b st session = .ok p) :
    (.closed ∈ session.incoming → .closed ∈ p.session.incoming) ∧ p.event ≠ .closed := by
  unfold pumpByte at h
  split_ifs at h
  · exact pumpMagic_closed h
  · simp only at h
    split at h
    · cases h
      exact ⟨id, nofun⟩
    · cases h
      exact ⟨id, acceptUnframed_ne_closed _ _⟩
  · cases h
    exact ⟨id, acceptUnframed_ne_closed _ _⟩

theorem pump_closed (h : pump core verbose st session = .ok p) :
    (.closed ∈ session.incoming → .closed ∈ p.session.incoming) ∧
      (p.event = .closed → .closed ∈ session.incoming) := by
  have hread := readByte_closed session.incoming
  unfold pump at h
  split at h
  · obtain ⟨hkept, hevent⟩ := pumpByte_closed h
    exact ⟨hkept, fun hclosed => absurd hclosed hevent⟩
  · split at h
    · next b rest hgot =>
      rw [hgot] at hread
      obtain ⟨hkept, hevent⟩ := pumpByte_closed h
      exact ⟨fun hclosed => hkept (hread hclosed), fun hclosed => absurd hclosed hevent⟩
    · next rest hgot =>
      rw [hgot] at hread
      cases h
      exact ⟨hread, nofun⟩
    · next rest hgot =>
      rw [hgot] at hread
      cases h
      refine ⟨hread, fun _ => ?_⟩
      rcases hlink : session.incoming with _ | ⟨_ | _ | _, tail⟩ <;>
        simp_all [readByte]

end Closed

section Lines

variable {σ : Type} {core : Handler σ} {verbose : Bool} {st : StreamState} {b d : UInt8}
  {link : List Byte} {line : List Char} {session : Session σ} {p : Pumped σ}

theorem acceptUnframed_line (h : (acceptUnframed st b).1 = .deviceLine line) :
    (acceptUnframed st b).2.pendingM = st.pendingM ∧
      (acceptUnframed st b).2.deferred = st.deferred := by
  unfold acceptUnframed at h ⊢
  split_ifs at h ⊢
  · split at h
    · exact ⟨rfl, rfl⟩
    · cases h

theorem pumpMagic_line (h : pumpMagic core verbose ⟨false, none, line⟩ session = .ok p)
    {shown : List Char} (hevent : p.event = .deviceLine shown) : p.stream.pendingM = false ∧
      ∀ d, p.stream.deferred = some d →
        bytesOf session.incoming = d :: bytesOf p.session.incoming := by
  unfold pumpMagic at h
  split at h
  · obtain ⟨_, -, h⟩ := bind_eq_ok.mp h
    cases h
    cases hevent
  · cases h
    cases hevent
  · next op rest hread =>
    have hlink := (readRequest_unknown hread).1
    split at h
    · cases h
      refine ⟨rfl, fun d hd => ?_⟩
      obtain rfl : op = d := Option.some.inj hd
      rw [hlink]
      rfl
    · cases h
      obtain ⟨hpending, hdeferred⟩ := acceptUnframed_line hevent
      refine ⟨hpending, fun d hd => ?_⟩
      change (acceptUnframed _ op).2.deferred = some d at hd
      rw [hdeferred] at hd
      cases hd

theorem pumpByte_line {pending : Bool}
    (h : pumpByte core verbose b ⟨pending, none, line⟩ session = .ok p) {shown : List Char}
    (hevent : p.event = .deviceLine shown) : p.stream.pendingM = false ∧
      ∀ d, p.stream.deferred = some d → pending = true ∧ ∃ front : Bytes,
        (front = [] ∨ front = [REQ_MAGIC.2]) ∧
          b :: bytesOf session.incoming = front ++ d :: bytesOf p.session.incoming := by
  unfold pumpByte at h
  split_ifs at h with hpending hb
  · obtain ⟨hstream, hdeferred⟩ := pumpMagic_line h hevent
    refine ⟨hstream, fun d hd => ⟨hpending, [REQ_MAGIC.2], .inr rfl, ?_⟩⟩
    rw [hdeferred d hd, hb]
    rfl
  · simp only at h
    split at h
    · cases h
      refine ⟨rfl, fun d hd => ⟨hpending, [], .inl rfl, ?_⟩⟩
      obtain rfl : b = d := Option.some.inj hd
      rfl
    · cases h
      obtain ⟨hstream, hdeferred⟩ := acceptUnframed_line hevent
      refine ⟨hstream, fun d hd => ?_⟩
      change (acceptUnframed _ b).2.deferred = some d at hd
      rw [hdeferred] at hd
      cases hd
  · cases h
    obtain ⟨hstream, hdeferred⟩ := acceptUnframed_line hevent
    refine ⟨by rw [hstream]; simpa using hpending, fun d hd => ?_⟩
    change (acceptUnframed _ b).2.deferred = some d at hd
    rw [hdeferred] at hd
    cases hd

theorem pump_line (h : pump core verbose st session = .ok p) (hst : st.Exclusive)
    {shown : List Char} (hevent : p.event = .deviceLine shown) : p.stream.pendingM = false ∧
      ∀ d, p.stream.deferred = some d → ∃ front : Bytes,
        (front = [REQ_MAGIC.1] ∨ front = [REQ_MAGIC.1, REQ_MAGIC.2]) ∧
          held st ++ bytesOf session.incoming = front ++ d :: bytesOf p.session.incoming := by
  unfold pump at h
  split at h
  · next b hdeferred =>
    obtain ⟨hstream, hput⟩ := pumpByte_line h hevent
    refine ⟨hstream, fun d hd => ?_⟩
    obtain ⟨hpending, -⟩ := hput d hd
    rw [hst hpending] at hdeferred
    cases hdeferred
  · next hdeferred =>
    split at h
    · next b rest hread =>
      have hlink : session.incoming = .got b :: rest :=
        readFrameByte_eq_some.mp (by rw [readFrameByte, hread])
      have hst' : st = ⟨st.pendingM, none, st.line⟩ := by rw [← hdeferred]
      rw [hst'] at h
      obtain ⟨hstream, hput⟩ := pumpByte_line h hevent
      refine ⟨hstream, fun d hd => ?_⟩
      obtain ⟨hpending, front, hfront, hbytes⟩ := hput d hd
      refine ⟨REQ_MAGIC.1 :: front, ?_, ?_⟩
      · rcases hfront with rfl | rfl
        · exact .inl rfl
        · exact .inr rfl
      · have hheld : held st = [REQ_MAGIC.1] := by simp [held, hpending, hdeferred]
        rw [hheld, hlink]
        exact congrArg (REQ_MAGIC.1 :: ·) hbytes
    · cases h
      cases hevent
    · cases h
      cases hevent

theorem pieces_forced {items : List Item} (k : Console)
    (h : ∀ item ∈ items, item.isText = true) (hend : 0x0a ∉ texts items) :
    ∀ q ∈ k.pieces items, q.forced = true := by
  induction items generalizing k with
  | nil => simp [Console.pieces]
  | cons item items ih =>
    have htail := fun i hi => h i (List.mem_cons_of_mem item hi)
    cases item with
    | request op args => exact absurd (h _ List.mem_cons_self) (by simp [Item.isText])
    | damaged => exact absurd (h _ List.mem_cons_self) (by simp [Item.isText])
    | text b =>
      have hsplit : texts (.text b :: items) = b :: texts items := rfl
      rw [hsplit, List.mem_cons, not_or] at hend
      intro q hq
      rcases List.mem_append.mp hq with hnow | hlater
      · have hpush := Option.mem_toList.mp hnow
        simp only [Console.take, Console.push, if_neg fun hb : b = 0x0a => hend.1 hb.symm] at hpush
        split_ifs at hpush
        cases hpush
        rfl
      · exact ih _ htail hend.2 q hlater

theorem Acted.lineText {items : List Item} {shown : List Char}
    (h : Acted core verbose session p items) (hevent : p.event = .deviceLine shown) :
    ∀ item ∈ items, item.isText = true := by
  cases h with
  | text hitems _ _ _ => exact hitems
  | damaged _ _ hframe =>
    rw [hframe] at hevent
    cases hevent
  | request _ hframe =>
    rw [hframe] at hevent
    cases hevent

theorem Pumps.unheld {items : List Item} {shown : List Char}
    (h : Pumps core verbose st session p items) (hp : pump core verbose st session = .ok p)
    (hst : st.Exclusive) (hevent : p.event = .deviceLine shown) (k : Console)
    {q : Piece} (hq : q ∈ k.pieces items) (hforced : q.forced = false) : held p.stream = [] := by
  obtain ⟨hpending, hput⟩ := pump_line hp hst hevent
  have htext : ∀ item ∈ items, item.isText = true := h.acted.lineText hevent
  cases hdeferred : p.stream.deferred with
  | none => simp [held, hpending, hdeferred]
  | some d =>
    obtain ⟨front, hfront, hbytes⟩ := hput d hdeferred
    have hheld : held p.stream = [d] := by simp [held, hpending, hdeferred]
    have htexts : texts items = front := by
      have hall := h.bytes htext
      rw [hbytes, hheld, List.append_assoc] at hall
      exact (List.append_cancel_right hall).symm
    have hend : 0x0a ∉ texts items := by
      rw [htexts]
      rcases hfront with rfl | rfl <;> decide
    rw [pieces_forced k htext hend q hq] at hforced
    cases hforced

end Lines

/-- Up to turn `n` nothing interrupts the handshake and the time is not over; commands are
delivered, and every instant is representable. -/
structure Env.Patient (env : Env) (policy : AttachPolicy) (n : ℕ) : Prop where
  running : ∀ k ≤ n, env.stopped k = false
  early : ∀ k < n, env.now (2 * k + 1) < env.now 0 + policy.timeout
  delivered : ∀ k, env.delivery k = .delivered
  deadline : env.now 0 + policy.timeout ≤ env.latest
  instants : ∀ k, env.now k + policy.retryAfter ≤ env.latest

def linkClosed : AttachResult := .failed ["serial link closed while enabling the folder source"]

def outcome (pieces : List Piece) (link : List Byte) : Option AttachResult :=
  (pieces.findSome? Piece.reply).or (if .closed ∈ link then some linkClosed else none)

/-- The items up to the one that ends the first piece with an answer. -/
def untilReply (k : Console) : List Item → List Item
  | [] => []
  | item :: items =>
    item :: if (k.take item).1.any fun p => p.reply.isSome then []
      else untilReply (k.take item).2 items

section Until

variable {k : Console} {items rest : List Item}

theorem untilReply_quiet (h : (k.pieces items).findSome? Piece.reply = none) :
    untilReply k (items ++ rest) = items ++ untilReply (k.after items) rest := by
  induction items generalizing k with
  | nil => rfl
  | cons item items ih =>
    rw [Console.pieces, List.findSome?_append, Option.or_eq_none_iff] at h
    have hnow : ¬ ((k.take item).1.any fun p => p.reply.isSome) = true := by
      cases hpiece : (k.take item).1 with
      | none => simp
      | some p =>
        rw [hpiece] at h
        simpa using h.1
    rw [List.cons_append, untilReply, if_neg hnow, ih h.2]
    rfl

/-- With an answer among the items nothing behind them counts. -/
theorem untilReply_within (h : (k.pieces items).findSome? Piece.reply ≠ none) :
    untilReply k (items ++ rest) <+: items := by
  induction items generalizing k with
  | nil => exact absurd rfl h
  | cons item items ih =>
    rw [List.cons_append, untilReply]
    split_ifs with hnow
    · exact ⟨items, rfl⟩
    · have hquiet : (k.take item).1.toList.findSome? Piece.reply = none := by
        cases hpiece : (k.take item).1 with
        | none => rfl
        | some p =>
          rw [hpiece] at hnow
          simpa using hnow
      rw [Console.pieces, List.findSome?_append, hquiet, Option.none_or] at h
      exact List.prefix_cons_inj item |>.mpr (ih h)

theorem requests_allText (h : ∀ item ∈ items, item.isText = true) : requests items = [] := by
  refine List.filterMap_eq_nil_iff.mpr fun item hitem => ?_
  have htext := h item hitem
  cases item with
  | text b => rfl
  | request op args => cases htext
  | damaged => cases htext

end Until

section Patient

variable {σ : Type} {core : Handler σ} {verbose : Bool} {env : Env} {policy : AttachPolicy}
  {n : ℕ} {s t : AttachState σ} {k : Console} {p : Pumped σ} {items : List Item}

structure Advances (policy : AttachPolicy) (k : Console) (s t : AttachState σ)
    (items : List Item) : Prop where
  scan : remaining s.stream s.session.incoming = items ++ remaining t.stream t.session.incoming
  line : (k.after items).line = t.stream.line
  silent : (k.pieces items).findSome? Piece.reply = none
  exclusive : t.stream.Exclusive
  forward : t.session.incoming <:+ s.session.incoming
  closed : .closed ∈ s.session.incoming ↔ .closed ∈ t.session.incoming
  handled : handledIn t.session.trace = handledIn s.session.trace ++ requests items
  weight : weight t.stream t.session.incoming ≤ Serve.weight s.stream s.session.incoming - 1
  deadline : t.deadline = s.deadline
  turns : t.turns = s.turns + 1
  counted : (commands s.session.trace).length = s.attempts →
    (commands t.session.trace).length = t.attempts
  bounded : s.attempts ≤ max 1 policy.maxAttempts → t.attempts ≤ max 1 policy.maxAttempts

/-- What a turn that ends the handshake did: its requests are those up to the answer, and behind a
whole line nothing is held. -/
structure Decides (k : Console) (s : AttachState σ) (r : AttachResult) (session : Session σ)
    (st : StreamState) (items : List Item) : Prop where
  scan : remaining s.stream s.session.incoming = items ++ remaining st session.incoming
  forward : session.incoming <:+ s.session.incoming
  handled : handledIn session.trace = handledIn s.session.trace ++ requests items
  upTo : requests items = requests (untilReply k (remaining s.stream s.session.incoming))
  outcome : outcome (k.pieces (remaining s.stream s.session.incoming)) s.session.incoming = some r
  unheld : ∀ q, (k.pieces (remaining s.stream s.session.incoming)).find? (fun q => q.reply.isSome)
    = some q → q.forced = false → held st = []

theorem attachRetry_patient (h : env.Patient policy n) (s : AttachState σ) :
    ∃ acts t, attachRetry env policy s = .next t ∧
      t.session = { s.session with trace := s.session.trace ++ acts } ∧
      (∀ act ∈ acts, act.Says [FOLDER_ON]) ∧ t.stream = s.stream ∧ t.deadline = s.deadline ∧
      t.turns = s.turns + 1 ∧ s.attempts + (commands acts).length = t.attempts ∧
      (s.attempts ≤ max 1 policy.maxAttempts → t.attempts ≤ max 1 policy.maxAttempts) := by
  unfold attachRetry
  split_ifs with hdue
  · have hattempts := hdue.2.2.1
    have hafter : env.after (env.now (2 * s.turns + 2)) policy.retryAfter =
        some (env.now (2 * s.turns + 2) + policy.retryAfter) := if_pos (h.instants _)
    simp only [sendFolderOn, h.delivered, hafter]
    exact ⟨[.sent FOLDER_ON s.session.incoming], _, rfl, rfl, by simp [Act.Says], rfl, rfl, rfl,
      rfl, fun _ => le_max_of_le_right hattempts⟩
  · exact ⟨[], _, rfl, by simp, by simp, rfl, rfl, rfl, rfl, id⟩

theorem Advances.of_retry (hpatient : env.Patient policy n)
    (hp : pump core verbose s.stream s.session = .ok p)
    (hpumps : Pumps core verbose s.stream s.session p items) (hcore : Responsive core)
    (hk : k.line = s.stream.line) (hevent : p.event ≠ .closed)
    (hlines : p.event.lines.findSome? replyResult = none) {u : AttachState σ} {acts : List Act}
    (hacts : ∀ act ∈ acts, act.Says [] ∧ act.command = none) (hstream : u.stream = p.stream)
    (hsession : u.session = { p.session with trace := p.session.trace ++ acts })
    (hdeadline : u.deadline = s.deadline) (hturns : u.turns = s.turns)
    (hattempts : u.attempts = s.attempts) :
    ∃ t, attachRetry env policy u = .next t ∧ Advances policy k s t items := by
  obtain ⟨more, t, hretry, htsession, hmore, htstream, htdeadline, htturns, htattempts, hbound⟩ :=
    attachRetry_patient hpatient u
  obtain ⟨hline, hshown⟩ := hpumps.lines k hk
  obtain ⟨frames, -, hhandled, -⟩ := hpumps.serves hcore
  obtain ⟨quiet, hquiet, hnone⟩ := hpumps.acted.quiet
  obtain ⟨hkept, -⟩ := pump_closed hp
  have hincoming : t.session.incoming = p.session.incoming := by rw [htsession, hsession]
  have htrace : t.session.trace = p.session.trace ++ (acts ++ more) := by
    rw [htsession, hsession, List.append_assoc]
  refine ⟨t, hretry, ?_, ?_, ?_, ?_, ?_, ?_, ?_, ?_, ?_, ?_, fun hcount => ?_, fun hle => ?_⟩
  · rw [hpumps.scan, hincoming, htstream, hstream]
  · rw [hline, htstream, hstream]
  · rw [findSome?_reply, hshown, hlines]
  · rw [htstream, hstream]
    exact hpumps.exclusive
  · rw [hincoming]
    exact hpumps.forward
  · rw [hincoming]
    exact ⟨hkept, fun hclosed => hpumps.forward.subset hclosed⟩
  · have hacts' : handledIn acts = [] := handledIn_spoken fun act hact => (hacts act hact).1
    rw [htrace, handledIn_append, hhandled, handledIn_append, hacts', handledIn_spoken hmore]
    simp
  · rw [hincoming, htstream, hstream]
    exact hpumps.progress.resolve_left hevent
  · rw [htdeadline, hdeadline]
  · rw [htturns, hturns]
  · have hsilent : commands (quiet ++ acts) = [] := commands_eq_nil fun act hact =>
      (List.mem_append.mp hact).elim (fun hq => (hnone act hq).1) fun ha => (hacts act ha).2
    rw [htrace, hquiet, ← List.append_assoc, List.append_assoc _ quiet, commands_append,
      commands_append, hsilent, List.append_nil, List.length_append, hcount, ← htattempts,
      hattempts]
  · exact hbound (by rw [hattempts]; exact hle)

theorem Pumps.decided (hpumps : Pumps core verbose s.stream s.session p items)
    (hk : k.line = s.stream.line) :
    (k.pieces (remaining s.stream s.session.incoming)).findSome? Piece.reply =
      (p.event.lines.findSome? replyResult).or (((k.after items).pieces
        (remaining p.stream p.session.incoming)).findSome? Piece.reply) := by
  obtain ⟨-, hshown⟩ := hpumps.lines k hk
  rw [hpumps.scan, Console.pieces_append, List.findSome?_append, findSome?_reply, hshown]

theorem Decides.of_closed (hcore : Responsive core)
    (hp : pump core verbose s.stream s.session = .ok p)
    (hpumps : Pumps core verbose s.stream s.session p items) (hk : k.line = s.stream.line)
    (hevent : p.event = .closed) :
    Decides k s linkClosed (p.session.act (.reported p.event)) p.stream items := by
  obtain ⟨frames, -, hhandled, -⟩ := hpumps.serves hcore
  have hdecided := hpumps.decided hk
  have hnone : (k.pieces (remaining s.stream s.session.incoming)).findSome? Piece.reply = none := by
    rw [hdecided, hevent, hpumps.finish hevent]
    rfl
  refine ⟨hpumps.scan, hpumps.forward, ?_, ?_, ?_, fun q hq _ => ?_⟩
  · rw [@handledIn_act σ [] _ (.reported p.event) trivial, hhandled]
  · have hall := hpumps.scan
    rw [hpumps.finish hevent, List.append_nil] at hall
    rw [hall] at hnone ⊢
    have hquiet := @untilReply_quiet k items [] hnone
    rw [List.append_nil] at hquiet
    rw [hquiet, untilReply, List.append_nil]
  · rw [Serve.outcome, hdecided, hevent, hpumps.finish hevent,
      if_pos ((pump_closed hp).2 hevent)]
    rfl
  · have hreply := List.findSome?_eq_none_iff.mp hnone q (List.mem_of_find?_eq_some hq)
    have hsome := List.find?_some hq
    simp [hreply] at hsome

theorem Decides.of_reply (hcore : Responsive core)
    (hp : pump core verbose s.stream s.session = .ok p) (hst : s.stream.Exclusive)
    (hpumps : Pumps core verbose s.stream s.session p items) (hk : k.line = s.stream.line)
    {line : List Char} {r : AttachResult} (hevent : p.event = .deviceLine line)
    (hreply : replyResult line = some r) :
    Decides k s r ((p.session.act (.reported p.event)).act (.shown line)) p.stream items := by
  obtain ⟨frames, -, hhandled, -⟩ := hpumps.serves hcore
  have hdecided := hpumps.decided hk
  have hfirst : p.event.lines.findSome? replyResult = some r := by
    simp [hevent, PumpEvent.lines, hreply]
  have hanswered : (k.pieces items).findSome? Piece.reply ≠ none := by
    rw [findSome?_reply, (hpumps.lines k hk).2, hfirst]
    exact Option.some_ne_none r
  have htext : ∀ item ∈ items, item.isText = true := hpumps.acted.lineText hevent
  refine ⟨hpumps.scan, hpumps.forward, ?_, ?_, ?_, fun q hq hforced => ?_⟩
  · rw [@handledIn_act σ [] _ (.shown line) trivial,
      @handledIn_act σ [] _ (.reported p.event) trivial, hhandled]
  · have hwithin := @untilReply_within k items (remaining p.stream p.session.incoming) hanswered
    rw [hpumps.scan, requests_allText htext,
      requests_allText fun item hitem => htext item (hwithin.subset hitem)]
  · rw [Serve.outcome, hdecided, hfirst]
    rfl
  · -- the first reply is among the pieces of this turn
    refine hpumps.unheld hp hst hevent k ?_ hforced
    rw [hpumps.scan, Console.pieces_append, List.find?_append] at hq
    cases hhead : (k.pieces items).find? fun q => q.reply.isSome with
    | some q' =>
      rw [hhead] at hq
      cases hq
      exact List.mem_of_find?_eq_some hhead
    | none =>
      refine absurd (List.findSome?_eq_none_iff.mpr fun q' hq' => ?_) hanswered
      simpa using List.find?_eq_none.mp hhead q' hq'

theorem attachTurn_patient (hcore : Responsive core) (hpatient : env.Patient policy n)
    (hturns : s.turns < n) (hdeadline : s.deadline = env.now 0 + policy.timeout)
    (hst : s.stream.Exclusive) (hk : k.line = s.stream.line) :
    (∃ r session st items, attachTurn core verbose env policy s = .ok (.done (r, session)) ∧
      Decides k s r session st items) ∨
      ∃ t items, attachTurn core verbose env policy s = .ok (.next t) ∧
        Advances policy k s t items := by
  have hstopped : env.stopped (s.turns + 1) = false := hpatient.running _ (by omega)
  have hearly : env.now (2 * s.turns + 1) < s.deadline := by
    rw [hdeadline]
    exact hpatient.early _ hturns
  obtain ⟨p, hp⟩ := @pump_responsive σ core verbose s.session s.stream hcore
  obtain ⟨items, hpumps⟩ := pump_pumps hp hst
  rw [attachTurn, if_neg (by simp [hstopped]), if_neg (by omega), hp]
  simp only [ok_bind]
  split
  · next hevent =>
    exact .inl ⟨linkClosed, _, p.stream, items, rfl, .of_closed hcore hp hpumps hk hevent⟩
  · next log hevent =>
    obtain ⟨lines, hlines⟩ := showLog_trace log (p.session.act (.reported p.event))
    obtain ⟨t, hretry, hadvances⟩ := @Advances.of_retry σ core verbose env policy n s k p items
      hpatient hp hpumps hcore hk (by simp [hevent]) (by rw [hevent]; rfl)
      { s with
        stream := p.stream, session := showLog log (p.session.act (.reported p.event)),
        protocolSeen := true }
      (.reported p.event :: lines.map .shown) (by simp [Act.Says, Act.command]) rfl
      (by cases log <;> simp_all [showLog, Session.act]) rfl rfl rfl
    exact .inr ⟨t, items, by rw [← hretry, hevent], hadvances⟩
  · next line hevent =>
    cases hreply : replyResult line with
    | some r =>
      exact .inl ⟨r, _, p.stream, items, rfl, .of_reply hcore hp hst hpumps hk hevent hreply⟩
    | none =>
      obtain ⟨t, hretry, hadvances⟩ := @Advances.of_retry σ core verbose env policy n s k p items
        hpatient hp hpumps hcore hk (by simp [hevent])
        (by simp [hevent, PumpEvent.lines, hreply])
        { s with
          stream := p.stream,
          session := (p.session.act (.reported p.event)).act (.shown line) }
        [.reported p.event, .shown line] (by simp [Act.Says, Act.command]) rfl
        (by simp [Session.act]) rfl rfl rfl
      exact .inr ⟨t, items, by rw [← hretry, hevent], hadvances⟩
  · next hclosed hframe hline =>
    obtain ⟨t, hretry, hadvances⟩ := @Advances.of_retry σ core verbose env policy n s k p items
      hpatient hp hpumps hcore hk hclosed
      (by cases hevent : p.event <;> simp_all [PumpEvent.lines])
      { s with stream := p.stream, session := p.session.act (.reported p.event) }
      [.reported p.event] (by simp [Act.Says, Act.command]) rfl rfl rfl rfl rfl
    exact .inr ⟨t, items, by rw [← hretry], hadvances⟩

theorem Advances.outcome (h : Advances policy k s t items) :
    outcome (k.pieces (remaining s.stream s.session.incoming)) s.session.incoming =
      Serve.outcome ((k.after items).pieces (remaining t.stream t.session.incoming))
        t.session.incoming := by
  have hclosed := h.closed
  simp only [Serve.outcome]
  rw [h.scan, Console.pieces_append, List.findSome?_append, h.silent, Option.none_or]
  simp only [hclosed]

theorem Advances.decides {r : AttachResult} {session : Session σ} {st : StreamState}
    {later : List Item} (h : Advances policy k s t items)
    (hd : Decides (k.after items) t r session st later) :
    Decides k s r session st (items ++ later) := by
  refine ⟨?_, hd.forward.trans h.forward, ?_, ?_, ?_, fun q hq => hd.unheld q ?_⟩
  · rw [h.scan, hd.scan, List.append_assoc]
  · rw [hd.handled, h.handled, List.append_assoc]
    simp only [requests, List.filterMap_append]
  · have hlater := hd.upTo
    rw [h.scan, untilReply_quiet h.silent]
    simp only [requests, List.filterMap_append] at hlater ⊢
    rw [hlater]
  · rw [h.outcome]
    exact hd.outcome
  · have hnone : (k.pieces items).find? (fun q => q.reply.isSome) = none :=
      List.find?_eq_none.mpr fun q' hq' => by
        simp [List.findSome?_eq_none_iff.mp h.silent q' hq']
    rwa [h.scan, Console.pieces_append, List.find?_append, hnone, Option.none_or] at hq

/-- Within as many turns as there are bytes to be considered, twice each, the handshake ends with
what the link decides. -/
theorem attachTurns_decided (hcore : Responsive core) (hpatient : env.Patient policy n)
    {total fuel : ℕ} (hturns : s.turns + total = n)
    (hdeadline : s.deadline = env.now 0 + policy.timeout) (hst : s.stream.Exclusive)
    (hk : k.line = s.stream.line) (hweight : weight s.stream s.session.incoming ≤ total)
    (hfuel : total < fuel) {r : AttachResult}
    (hr : outcome (k.pieces (remaining s.stream s.session.incoming)) s.session.incoming = some r) :
    ∃ session st items, iterate (attachTurn core verbose env policy) fuel s = .ok (r, session) ∧
      Decides k s r session st items := by
  induction total generalizing s k fuel with
  | zero =>
    have hlink : s.session.incoming = [] := by
      have hzero := Nat.le_zero.mp hweight
      rw [weight, Nat.add_eq_zero_iff] at hzero
      exact List.length_eq_zero_iff.mp (by omega)
    rw [outcome, remaining_of_weight (Nat.le_zero.mp hweight), hlink] at hr
    cases hr
  | succ total ih =>
    obtain ⟨fuel, rfl⟩ : ∃ f, fuel = f + 1 := ⟨fuel - 1, by omega⟩
    rcases attachTurn_patient hcore hpatient (by omega) hdeadline hst hk with
      ⟨r', session, st, items, hturn, hdecides⟩ | ⟨t, items, hturn, hadvances⟩
    · have hsame := hdecides.outcome
      rw [hr] at hsame
      cases hsame
      exact ⟨session, st, items, iterate_done hturn, hdecides⟩
    · have hle := hadvances.weight
      have htturns := hadvances.turns
      rw [hadvances.outcome] at hr
      obtain ⟨session, st, later, hrun, hdecides⟩ := @ih t (k.after items) fuel (by omega)
        (by rw [hadvances.deadline, hdeadline]) hadvances.exclusive hadvances.line (by omega)
        (by omega) hr
      exact ⟨session, st, items ++ later, by rw [iterate_next hturn, hrun],
        hadvances.decides hdecides⟩

theorem attachTurns_silent (hcore : Responsive core) (hpatient : env.Patient policy n)
    {total fuel : ℕ} (hturns : s.turns + total = n)
    (hdeadline : s.deadline = env.now 0 + policy.timeout) (hst : s.stream.Exclusive)
    (hk : k.line = s.stream.line) (hcount : (commands s.session.trace).length = s.attempts)
    (hbound : s.attempts ≤ max 1 policy.maxAttempts)
    (hr : outcome (k.pieces (remaining s.stream s.session.incoming)) s.session.incoming = none) :
    ∃ t items, iterate (attachTurn core verbose env policy) (total + fuel) s =
        iterate (attachTurn core verbose env policy) fuel t ∧
      t.turns = n ∧ t.deadline = env.now 0 + policy.timeout ∧
      (commands t.session.trace).length = t.attempts ∧ t.attempts ≤ max 1 policy.maxAttempts ∧
      remaining s.stream s.session.incoming = items ++ remaining t.stream t.session.incoming ∧
      handledIn t.session.trace = handledIn s.session.trace ++ requests items ∧
      weight t.stream t.session.incoming ≤ weight s.stream s.session.incoming - total := by
  induction total generalizing s k with
  | zero =>
    exact ⟨s, [], by rw [Nat.zero_add], hturns, hdeadline, hcount, hbound, rfl, by simp [requests],
      le_rfl⟩
  | succ total ih =>
    rcases attachTurn_patient hcore hpatient (by omega) hdeadline hst hk with
      ⟨r, session, st, items, -, hdecides⟩ | ⟨t, items, hturn, hadvances⟩
    · have hsame := hdecides.outcome
      rw [hr] at hsame
      cases hsame
    · have htturns := hadvances.turns
      rw [hadvances.outcome] at hr
      obtain ⟨last, later, hrun, hlast, hover, hcommands, hattempts, hscan, hhandled, hweight⟩ :=
        @ih t (k.after items) (by omega) (by rw [hadvances.deadline, hdeadline])
          hadvances.exclusive hadvances.line (hadvances.counted hcount) (hadvances.bounded hbound)
          hr
      have hle := hadvances.weight
      refine ⟨last, items ++ later, ?_, hlast, hover, hcommands, hattempts, ?_, ?_, by omega⟩
      · rw [Nat.add_right_comm, iterate_next hturn, hrun]
      · rw [hadvances.scan, hscan, List.append_assoc]
      · rw [hhandled, hadvances.handled, List.append_assoc]
        simp only [requests, List.filterMap_append]

theorem attachStart_patient (h : env.Patient policy n) (session : Session σ) :
    attachStart env policy session = .next ⟨StreamState.default,
      session.act (.sent FOLDER_ON session.incoming), 1, env.now 0 + policy.retryAfter,
      env.now 0 + policy.timeout, false, 0⟩ := by
  have hstopped : env.stopped 0 = false := h.running 0 (Nat.zero_le n)
  have hretry : env.after (env.now 0) policy.retryAfter =
      some (env.now 0 + policy.retryAfter) := if_pos (h.instants 0)
  have htimeout : env.after (env.now 0) policy.timeout =
      some (env.now 0 + policy.timeout) := if_pos h.deadline
  rw [attachStart, if_neg (by simp [hstopped])]
  simp only [sendFolderOn, h.delivered, hretry, htimeout]

end Patient

def scriptOutcome (script : List Byte) : Option AttachResult :=
  outcome (Console.start.pieces (scan false script)) script

section Outcome

variable {σ : Type} {core : Handler σ} {env : Env} {policy : AttachPolicy} {n fuel : ℕ}
  {script : List Byte} {r : AttachResult}

def attachFirst (env : Env) (policy : AttachPolicy) (script : List Byte) (start : σ)
    (before : List Act) : AttachState σ :=
  ⟨StreamState.default, ⟨script, start, before ++ [.sent FOLDER_ON script]⟩, 1,
    env.now 0 + policy.retryAfter, env.now 0 + policy.timeout, false, 0⟩

theorem attachFirst_handled (env : Env) (policy : AttachPolicy) (script : List Byte) (start : σ)
    (before : List Act) :
    handledIn (attachFirst env policy script start before).session.trace = handledIn before := by
  simp [attachFirst, handledIn]

theorem attachSerialFolder_reply (hcore : Responsive core) (verbose : Bool)
    (hpatient : env.Patient policy n) (hn : 2 * script.length ≤ n) (hfuel : n < fuel)
    (before : List Act) (start : σ) (hr : scriptOutcome script = some r) :
    ∃ session st items,
      attachSerialFolder core verbose env policy fuel ⟨script, start, before⟩ = .ok (r, session) ∧
      Decides Console.start (attachFirst env policy script start before) r session st items := by
  obtain ⟨session, st, items, hrun, hdecides⟩ := @attachTurns_decided σ core verbose env policy n
    (attachFirst env policy script start before) Console.start hcore hpatient n fuel
    (Nat.zero_add n) rfl nofun rfl
    (by simpa [weight, attachFirst, StreamState.default] using hn) hfuel r hr
  refine ⟨session, st, items, ?_, hdecides⟩
  rw [attachSerialFolder, attachStart_patient hpatient]
  exact hrun

theorem attachSerialFolder_silent (hcore : Responsive core) (verbose : Bool)
    (hpatient : env.Patient policy n) (hn : 2 * script.length ≤ n) (start : σ)
    (hr : scriptOutcome script = none) (hstopped : env.stopped (n + 1) = false)
    (hexpired : env.now 0 + policy.timeout ≤ env.now (2 * n + 1)) :
    ∃ session, attachSerialFolder core verbose env policy (n + 1) ⟨script, start, []⟩ =
        .ok (.failed [timedOut (commands session.trace).length], session) ∧
      (commands session.trace).length ≤ max 1 policy.maxAttempts ∧
      handledIn session.trace = requests (scan false script) := by
  obtain ⟨t, items, hrun, hturns, hdeadline, hcommands, hattempts, hscan, hhandled, hweight⟩ :=
    @attachTurns_silent σ core verbose env policy n (attachFirst env policy script start [])
      Console.start hcore hpatient n 1 (Nat.zero_add n) rfl nofun rfl rfl (le_max_left _ _) hr
  have hturn : attachTurn core verbose env policy t =
      .ok (.done (.failed [timedOut (commands t.session.trace).length], t.session)) := by
    rw [attachTurn, hturns, if_neg (by simp [hstopped]), if_pos (by omega), hcommands]
  have hover : remaining t.stream t.session.incoming = [] := by
    refine remaining_of_weight (Nat.le_zero.mp (hweight.trans ?_))
    simp only [attachFirst, weight, StreamState.default, Option.toList_none, List.length_nil]
    omega
  have hitems : scan false script = items := by
    rw [hover, List.append_nil] at hscan
    exact hscan
  refine ⟨t.session, ?_, by rw [hcommands]; exact hattempts, ?_⟩
  · rw [attachSerialFolder, attachStart_patient hpatient]
    exact hrun.trans (iterate_done hturn)
  · rw [hhandled, attachFirst_handled, hitems]
    rfl

end Outcome

/-- In a patient environment the outcome of the handshake is what the script decides, and a
timeout if it decides nothing; the requests up to the answer, and no others, are handled and
answered, each once, in order. -/
theorem attachSerialFolder_decided {c : Crypto} {φ : Type} (core : SeederCore c)
    (fs : FileSystem φ) (z : Compressors) (verbose : Bool) (env : Env) (policy : AttachPolicy)
    (n : ℕ) (hpatient : env.Patient policy n) (script : List Byte) (files : φ)
    (hn : 2 * script.length ≤ n)
    (hexpired : scriptOutcome script = none →
      env.stopped (n + 1) = false ∧ env.now 0 + policy.timeout ≤ env.now (2 * n + 1)) :
    ∃ result session,
      attachSerialFolder (core.handle fs z) verbose env policy (n + 1) ⟨script, files, []⟩ =
        .ok (result, session) ∧
      handledIn session.trace = requests (untilReply Console.start (scan false script)) ∧
      Answers (core.handle fs z) files (requests (untilReply Console.start (scan false script)))
        ((sentIn session.trace).filter isResponse) session.core ∧
      match scriptOutcome script with
      | some r => result = r
      | none => result = .failed [timedOut (commands session.trace).length] ∧
          (commands session.trace).length ≤ max 1 policy.maxAttempts := by
  have hcore := handle_responsive core fs z
  have hempty : Conversed (core.handle fs z) [FOLDER_ON] files ⟨script, files, []⟩ :=
    ⟨.nil, by simp [sentIn]⟩
  have hcommands : ∀ chunk ∈ [FOLDER_ON], isResponse chunk = false := by decide
  cases hr : scriptOutcome script with
  | some r =>
    obtain ⟨session, st, items, hrun, hdecides⟩ :=
      attachSerialFolder_reply hcore verbose hpatient hn (Nat.lt_succ_self n) [] files hr
    have hanswers := (attachSerialFolder_conversed hcore List.mem_cons_self hcommands hempty
      hrun).answers
    have hhandled : handledIn session.trace =
        requests (untilReply Console.start (scan false script)) := by
      rw [hdecides.handled, attachFirst_handled, hdecides.upTo]
      rfl
    exact ⟨r, session, hrun, hhandled, hhandled ▸ hanswers, rfl⟩
  | none =>
    obtain ⟨hstopped, hover⟩ := hexpired hr
    obtain ⟨session, hrun, hattempts, hhandled⟩ :=
      attachSerialFolder_silent hcore verbose hpatient hn files hr hstopped hover
    have hanswers := (attachSerialFolder_conversed hcore List.mem_cons_self hcommands hempty
      hrun).answers
    have hall : untilReply Console.start (scan false script) = scan false script := by
      have hquiet := @untilReply_quiet Console.start (scan false script) []
        (Option.or_eq_none_iff.mp hr).1
      rwa [List.append_nil, untilReply, List.append_nil] at hquiet
    rw [← hall] at hhandled
    exact ⟨_, session, hrun, hhandled, hhandled ▸ hanswers, rfl, hattempts⟩

theorem scan_frame (f : Frame) (rest : List Byte) :
    scan false (f.events ++ rest) = .request f.op f.args :: scan false rest := by
  have hread : readRequest ((wire f.op f.args).map .got ++ rest) = (.valid f.op f.args, rest) :=
    readRequest_eq_valid.mpr ⟨f.wellFormed, rfl⟩
  rw [Frame.events, List.cons_append, scan_magic, List.append_assoc, scan_timeouts,
    List.cons_append, scan_valid hread]

theorem scan_plain_append {bytes : Bytes} (h : ∀ b ∈ bytes, b ≠ REQ_MAGIC.1) (rest : List Byte) :
    scan false (bytes.map .got ++ rest) = bytes.map .text ++ scan false rest := by
  induction bytes with
  | nil => rfl
  | cons b bytes ih =>
    rw [List.map_cons, List.cons_append, scan_text (h b List.mem_cons_self),
      ih fun d hd => h d (List.mem_cons_of_mem b hd), List.map_cons, List.cons_append]

theorem dueAt_patient {n : ℕ} (h : 0 < n) :
    (dueAt (2 * n)).Patient AttachPolicy.default n := by
  refine ⟨fun _ _ => rfl, fun k hk => ?_, fun _ => rfl, ?_, fun k => ?_⟩
  · have hbefore : 2 * k + 1 < 2 * n := by omega
    simp [dueAt, AttachPolicy.default, h, hbefore]
  · simp [dueAt, AttachPolicy.default, h]
  · simp only [dueAt, AttachPolicy.default]
    split_ifs <;> omega

theorem replyBytes_reply :
    (⟨[], replyBytes.map asChar, false⟩ : Piece).reply = some .attached := by decide +kernel

/-- The reply, then a request that the handshake leaves alone. -/
theorem attachSerialFolder_decided_reply : ∃ result session,
    attachSerialFolder (emptyCore.handle noFiles noCompressors) true (dueAt 100)
        AttachPolicy.default 51 ⟨replyBytes.map .got ++ countFrame.events, (), []⟩ =
      .ok (result, session) ∧
    handledIn session.trace = [] ∧ result = .attached := by
  have hscan : scan false (replyBytes.map .got ++ countFrame.events) =
      replyBytes.map .text ++ [.request OP_COUNT []] := by
    have hlast := scan_frame countFrame []
    rw [List.append_nil, scan_nil] at hlast
    rw [scan_plain_append (by decide +kernel), hlast]
    rfl
  have hpieces : Console.start.pieces (replyBytes.map .text ++ [.request OP_COUNT []]) =
      [⟨[], replyBytes.map asChar, false⟩] := rfl
  have houtcome : scriptOutcome (replyBytes.map .got ++ countFrame.events) = some .attached := by
    rw [scriptOutcome, outcome, hscan, hpieces, List.findSome?_cons, replyBytes_reply]
    rfl
  obtain ⟨result, session, hrun, hhandled, -, hresult⟩ :=
    attachSerialFolder_decided emptyCore noFiles noCompressors true (dueAt 100)
      AttachPolicy.default 50 (dueAt_patient (n := 50) (by decide))
      (replyBytes.map .got ++ countFrame.events) () (by decide) fun hnone => by
        rw [houtcome] at hnone
        cases hnone
  rw [houtcome] at hresult
  have hnone : requests (untilReply Console.start (replyBytes.map .text ++
      [.request OP_COUNT []])) = [] := by decide +kernel
  rw [hscan, hnone] at hhandled
  exact ⟨result, session, hrun, hhandled, hresult⟩

end MotaTool.Serve
