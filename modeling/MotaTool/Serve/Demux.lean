import MotaTool.Serve.SeederSpec
import MotaTool.Serve.StreamSpec

/-!
# Requests are told from text exactly

A request is read off the link exactly when its bytes are there. The scan of
text and frames finds the frames and nothing else, and the serving loop
handles what the scan finds, so text, line flushes and timeouts neither lose,
repeat nor invent a request.
-/

namespace MotaTool.Serve

open Base Run Format seeder

def wire (op : UInt8) (args : Bytes) : Bytes := op :: (args ++ [xor args op])

section Reading

variable {op : UInt8} {args bytes : Bytes} {link rest : List Byte} {n : ℕ}

theorem readFrameBytes_eq_some : readFrameBytes n link = (some bytes, rest) ↔
    bytes.length = n ∧ link = bytes.map .got ++ rest := by
  induction n generalizing link bytes with
  | zero =>
    rw [readFrameBytes, Prod.mk.injEq, Option.some.injEq, List.length_eq_zero_iff]
    constructor
    · rintro ⟨rfl, rfl⟩
      exact ⟨rfl, rfl⟩
    · rintro ⟨rfl, rfl⟩
      exact ⟨rfl, rfl⟩
  | succ n ih =>
    constructor
    · intro h
      rw [readFrameBytes] at h
      split at h
      · cases h
      · next b more hfirst =>
        split at h
        · next tail last htail =>
          cases h
          obtain ⟨hlen, rfl⟩ := ih.mp htail
          rw [readFrameByte_eq_some.mp hfirst]
          exact ⟨by rw [List.length_cons, hlen], rfl⟩
        · cases h
    · rintro ⟨hlen, rfl⟩
      obtain ⟨b, tail, rfl⟩ := List.exists_cons_of_length_eq_add_one hlen
      have htail := ih.mpr ⟨Nat.succ.inj hlen, rfl⟩
      rw [readFrameBytes, List.map_cons, List.cons_append, readFrameByte_eq_some.mpr rfl]
      simp only [htail]

theorem declaredLen_append {head data : Bytes} (h : head.length = 10) :
    declaredLen (head ++ data) = declaredLen head := by
  rw [declaredLen, declaredLen, List.drop_append_of_le_length (by omega),
    List.take_append_of_le_length (by rw [List.length_drop]; omega)]

theorem readData_eq_some {head : Bytes} {hdr : ℕ} (hhdr : requestHeaderLen op = some hdr)
    (hhead : head.length = hdr) : readData op head link = (some args, rest) ↔
      WellFormed op args ∧ ∃ data, args = head ++ data ∧ link = data.map .got ++ rest := by
  have hten : op = OP_WRITE → head.length = 10 := fun hop => by
    rw [hop] at hhdr
    rw [hhead]
    exact (Option.some.inj hhdr).symm
  unfold readData
  by_cases hop : op = OP_WRITE
  · rw [if_pos hop]
    constructor
    · intro h
      split_ifs at h with hmax
      · cases h
      · split at h
        · next data last hdata =>
          cases h
          obtain ⟨hlen, rfl⟩ := readFrameBytes_eq_some.mp hdata
          refine ⟨⟨hdr, hhdr, ?_⟩, data, rfl, rfl⟩
          rw [if_pos hop, declaredLen_append (hten hop), List.length_append]
          omega
        · cases h
    · rintro ⟨⟨hdr', hhdr', hlen⟩, data, rfl, rfl⟩
      rw [hhdr] at hhdr'
      cases hhdr'
      rw [if_pos hop, declaredLen_append (hten hop), List.length_append] at hlen
      have hdata := @readFrameBytes_eq_some data (data.map .got ++ rest) rest (declaredLen head)
      rw [if_neg (by omega), hdata.mpr ⟨by omega, rfl⟩]
  · rw [if_neg hop, Prod.mk.injEq, Option.some.injEq]
    constructor
    · rintro ⟨rfl, rfl⟩
      exact ⟨⟨hdr, hhdr, by rw [if_neg hop]; exact hhead⟩, [], by simp, by simp⟩
    · rintro ⟨hwell, data, rfl, rfl⟩
      have hlen := hwell.exact hhdr hop
      rw [List.length_append] at hlen
      obtain rfl : data = [] := List.length_eq_zero_iff.mp (by omega)
      simp

theorem readChecked_eq_valid {op' : UInt8} {args' : Bytes} :
    readChecked op args link = (.valid op' args', rest) ↔
      op = op' ∧ args = args' ∧ link = .got (xor args op) :: rest := by
  unfold readChecked
  constructor
  · intro h
    split at h
    · cases h
    · next xsum more hread =>
      split_ifs at h with hsum
      · cases h
        exact ⟨rfl, rfl, by rw [readFrameByte_eq_some.mp hread, hsum]⟩
      · cases h
  · rintro ⟨rfl, rfl, rfl⟩
    rw [readFrameByte_eq_some.mpr rfl]
    simp

theorem readRequest_checked (hwell : WellFormed op args) :
    readRequest (.got op :: (args.map .got ++ link)) = readChecked op args link := by
  obtain ⟨hdr, hhdr, hle⟩ := hwell.header
  have hhead : (args.take hdr).length = hdr := by
    rw [List.length_take]
    omega
  have hlink : Byte.got op :: (args.map .got ++ link) = .got op :: ((args.take hdr).map .got ++
      ((args.drop hdr).map .got ++ link)) := by
    rw [← List.append_assoc, ← List.map_append, List.take_append_drop]
  rw [hlink, readRequest, readFrameByte_eq_some.mpr rfl]
  simp only [hhdr, readFrameBytes_eq_some.mpr ⟨hhead, rfl⟩]
  rw [(readData_eq_some hhdr hhead).mpr ⟨hwell, args.drop hdr,
    (List.take_append_drop hdr args).symm, rfl⟩]

theorem readRequest_eq_valid : readRequest link = (.valid op args, rest) ↔
    WellFormed op args ∧ link = (wire op args).map .got ++ rest := by
  constructor
  · intro h
    unfold readRequest at h
    split at h
    · cases h
    · next b more hop =>
      rw [readFrameByte_eq_some.mp hop]
      split at h
      · cases h
      · next hdr hhdr =>
        split at h
        · cases h
        · next head tail hhead =>
          obtain ⟨hlen, rfl⟩ := readFrameBytes_eq_some.mp hhead
          split at h
          · cases h
          · next full last hfull =>
            obtain ⟨hwell, data, rfl, rfl⟩ := (readData_eq_some hhdr hlen).mp hfull
            obtain ⟨rfl, rfl, rfl⟩ := readChecked_eq_valid.mp h
            exact ⟨hwell, by simp [wire]⟩
  · rintro ⟨hwell, rfl⟩
    have hlink : (wire op args).map .got ++ rest =
        .got op :: (args.map .got ++ (.got (xor args op) :: rest)) := by simp [wire]
    rw [hlink, readRequest_checked hwell]
    exact readChecked_eq_valid.mpr ⟨rfl, rfl, rfl⟩

end Reading

def NoRequest (bytes : Bytes) : Prop :=
  ∀ b : UInt8, 1 ≤ b → b ≤ 9 → ¬ [REQ_MAGIC.1, REQ_MAGIC.2, b] <:+: bytes

structure Quiet (text : List Byte) : Prop where
  opened : .closed ∉ text
  noRequest : NoRequest (bytesOf text)

/-- A well-formed request, and the timeouts between its magic bytes. -/
structure Frame where
  op : UInt8
  args : Bytes
  wellFormed : WellFormed op args
  gap : ℕ

def Frame.events (f : Frame) : List Byte :=
  .got REQ_MAGIC.1 :: (List.replicate f.gap .timeout ++
    (.got REQ_MAGIC.2 :: (wire f.op f.args).map .got))

def Frame.request (f : Frame) : UInt8 × Bytes := (f.op, f.args)

def stream (segments : List (List Byte × Frame)) (last : List Byte) : List Byte :=
  match segments with
  | [] => last
  | (text, frame) :: segments => text ++ (frame.events ++ stream segments last)

def Opens (rest : List Byte) : Prop :=
  rest = [] ∨ rest = [.closed] ∨ ∃ more, rest = .got REQ_MAGIC.1 :: more

section Frames

variable {magic : Bool} {text rest : List Byte} {bytes : Bytes} {b : UInt8}

theorem NoRequest.tail (h : NoRequest (b :: bytes)) : NoRequest bytes := fun d hlow hhigh hpart =>
  h d hlow hhigh (hpart.trans (List.suffix_cons b bytes).isInfix)

theorem NoRequest.unknown (h : NoRequest (REQ_MAGIC.1 :: REQ_MAGIC.2 :: b :: bytes)) :
    requestHeaderLen b = none := by
  by_contra hsome
  obtain ⟨hlow, hhigh⟩ := (requestHeaderLen_isSome b).mp (Option.isSome_iff_ne_none.mpr hsome)
  exact h b hlow hhigh (List.prefix_append [REQ_MAGIC.1, REQ_MAGIC.2, b] bytes).isInfix

theorem readRequest_of_unknown (h : requestHeaderLen b = none) :
    readRequest (.got b :: rest) = (.unknown b, rest) := by
  rw [readRequest, readFrameByte_eq_some.mpr rfl]
  simp only [h]

theorem readRequest_of_timeout : readRequest (.timeout :: rest) = (.malformedKnown, rest) := rfl

theorem requests_text (items : List Item) : requests (.text b :: items) = requests items := rfl

theorem requests_damaged (items : List Item) : requests (.damaged :: items) = requests items := rfl

theorem requests_magic_end (h : Opens rest) :
    requests (scan true (.got REQ_MAGIC.2 :: rest)) = requests (scan false rest) := by
  rcases h with rfl | rfl | ⟨more, rfl⟩
  · have hread : readRequest [] = (.malformedKnown, []) := rfl
    rw [scan_damaged hread, requests_damaged]
  · have hread : readRequest [.closed] = (.malformedKnown, [.closed]) := rfl
    rw [scan_damaged hread, requests_damaged]
  · rw [scan_unknown (readRequest_of_unknown rfl), requests_text, requests_text]

theorem requests_quiet (hopened : .closed ∉ text)
    (hno : NoRequest ((if magic then [REQ_MAGIC.1] else []) ++ bytesOf text)) (hrest : Opens rest) :
    ∃ m, requests (scan magic (text ++ rest)) = requests (scan m rest) := by
  -- a pending `M` is dropped without consuming a byte, so it counts one
  induction hn : 2 * text.length + (if magic then 1 else 0) using Nat.strong_induction_on
    generalizing text magic with
  | _ n ih =>
    subst hn
    rcases text with _ | ⟨b | _ | _, text⟩
    · exact ⟨magic, rfl⟩
    · have hopened' : .closed ∉ text := fun h => hopened (List.mem_cons_of_mem _ h)
      cases magic with
      | false =>
        by_cases hb : b = REQ_MAGIC.1
        · obtain ⟨m, hm⟩ := @ih (2 * text.length + 1) (by simp only [List.length_cons]; omega) true
            text hopened' (by simpa [hb, bytesOf] using hno) rfl
          refine ⟨m, ?_⟩
          rw [hb, List.cons_append, scan_magic, hm]
        · obtain ⟨m, hm⟩ := @ih (2 * text.length) (by simp) false text hopened'
            (by simpa [bytesOf] using hno.tail) rfl
          refine ⟨m, ?_⟩
          rw [List.cons_append, scan_text hb, requests_text, hm]
      | true =>
        have hno' : NoRequest (REQ_MAGIC.1 :: b :: bytesOf text) := by simpa [bytesOf] using hno
        by_cases hb : b = REQ_MAGIC.2
        · rw [hb] at hno'
          rcases text with _ | ⟨d | _ | _, text⟩
          · exact ⟨false, by rw [hb]; exact requests_magic_end hrest⟩
          · have hunknown : requestHeaderLen d = none := @NoRequest.unknown (bytesOf text) d
              (by simpa [bytesOf] using hno')
            obtain ⟨m, hm⟩ := @ih (2 * (text.length + 1)) (by simp only [List.length_cons]; omega)
              false (.got d :: text) hopened' (by simpa [bytesOf] using hno'.tail.tail) rfl
            refine ⟨m, ?_⟩
            rw [hb, List.cons_append, List.cons_append,
              scan_unknown (readRequest_of_unknown hunknown), requests_text, requests_text]
            exact hm
          · obtain ⟨m, hm⟩ := @ih (2 * text.length) (by simp only [List.length_cons]; omega) false
              text (fun h => hopened' (List.mem_cons_of_mem _ h))
              (by simpa [bytesOf] using hno'.tail.tail) rfl
            refine ⟨m, ?_⟩
            rw [hb, List.cons_append, List.cons_append, scan_damaged readRequest_of_timeout,
              requests_damaged, hm]
          · exact absurd List.mem_cons_self hopened'
        · obtain ⟨m, hm⟩ := @ih (2 * (text.length + 1)) (by simp) false (.got b :: text)
            hopened (by simpa [bytesOf] using hno'.tail) rfl
          refine ⟨m, ?_⟩
          rw [List.cons_append, scan_pending hb, requests_text]
          exact hm
    · obtain ⟨m, hm⟩ := @ih (2 * text.length + (if magic then 1 else 0)) (by simp) magic text
        (fun h => hopened (List.mem_cons_of_mem _ h)) (by simpa [bytesOf] using hno) rfl
      refine ⟨m, ?_⟩
      rw [List.cons_append, scan_timeout, hm]
    · exact absurd List.mem_cons_self hopened

theorem scan_timeouts (n : ℕ) :
    scan magic (List.replicate n .timeout ++ rest) = scan magic rest := by
  induction n with
  | zero => rfl
  | succ n ih => rw [List.replicate_succ, List.cons_append, scan_timeout, ih]

theorem requests_frame (f : Frame) :
    requests (scan magic (f.events ++ rest)) = f.request :: requests (scan false rest) := by
  have hread : readRequest ((wire f.op f.args).map .got ++ rest) = (.valid f.op f.args, rest) :=
    readRequest_eq_valid.mpr ⟨f.wellFormed, rfl⟩
  have hframe : requests (scan false (f.events ++ rest)) =
      f.request :: requests (scan false rest) := by
    rw [Frame.events, List.cons_append, scan_magic, List.append_assoc, scan_timeouts,
      List.cons_append, scan_valid hread]
    rfl
  cases magic with
  | false => exact hframe
  | true =>
    have hpending : scan true (f.events ++ rest) =
        .text REQ_MAGIC.1 :: scan false (f.events ++ rest) := scan_pending (by decide)
    rw [hpending, requests_text, hframe]

theorem requests_stream (segments : List (List Byte × Frame)) {last ending : List Byte}
    (htexts : ∀ segment ∈ segments, Quiet segment.1) (hlast : Quiet last)
    (hending : ending = [] ∨ ending = [.closed]) :
    requests (scan false (stream segments (last ++ ending))) =
      segments.map fun segment => segment.2.request := by
  induction segments with
  | nil =>
    have hopens : Opens ending := by
      rcases hending with h | h
      · exact .inl h
      · exact .inr (.inl h)
    obtain ⟨m, hm⟩ := @requests_quiet false last ending hlast.opened hlast.noRequest hopens
    rw [stream, hm]
    rcases hending with rfl | rfl
    · rw [scan_nil]
      rfl
    · rw [scan_closed]
      rfl
  | cons segment segments ih =>
    obtain ⟨text, frame⟩ := segment
    have hquiet := htexts _ List.mem_cons_self
    have hopens : Opens (frame.events ++ stream segments (last ++ ending)) :=
      .inr (.inr ⟨_, rfl⟩)
    obtain ⟨m, hm⟩ := @requests_quiet false text _ hquiet.opened hquiet.noRequest hopens
    rw [stream, hm, requests_frame, ih fun s hs => htexts s (List.mem_cons_of_mem _ hs)]
    rfl

end Frames

def handledIn (trace : List Act) : List (UInt8 × Bytes) := trace.filterMap fun
  | .handled op args => some (op, args)
  | _ => none

def sentIn (trace : List Act) : List Bytes := trace.filterMap fun
  | .sent chunk _ => some chunk
  | _ => none

def Responsive {σ : Type} (core : Handler σ) : Prop :=
  ∀ op args s, WellFormed op args → ∃ reply s', core op args s = .ok (some reply, s')

/-- Requests answered one after the other, each with one response frame. -/
inductive Answers {σ : Type} (core : Handler σ) : σ → List (UInt8 × Bytes) → List Bytes → σ → Prop
  | nil {s : σ} : Answers core s [] [] s
  | cons {s s' s'' : σ} {op status : UInt8} {args payload : Bytes}
      {requests : List (UInt8 × Bytes)} {frames : List Bytes}
      (hhead : core op args s = .ok (some (status, payload), s'))
      (htail : Answers core s' requests frames s'') :
      Answers core s ((op, args) :: requests) (responseFrame op status payload :: frames) s''

theorem scan_wellFormed {magic : Bool} {link : List Byte} {op : UInt8} {args : Bytes}
    (h : .request op args ∈ scan magic link) : WellFormed op args := by
  fun_induction scan magic link with
  | case1 => cases h
  | case2 _ _ ih => exact ih h
  | case3 => cases h
  | case4 rest op' args' more hread ih =>
    rcases List.mem_cons.mp h with heq | hmem
    · cases heq
      exact (readRequest_eq_valid.mp hread).1
    · exact ih hmem
  | case5 rest more hread ih => exact ih (List.mem_of_ne_of_mem (by simp) h)
  | case6 rest op' more hread ih =>
    exact ih (List.mem_of_ne_of_mem (by simp) (List.mem_of_ne_of_mem (by simp) h))
  | case7 b rest hb ih => exact ih (List.mem_of_ne_of_mem (by simp) h)
  | case8 _ rest _ ih => exact ih h
  | case9 _ b rest _ hb ih => exact ih (List.mem_of_ne_of_mem (by simp) h)

section Serve

variable {σ : Type} {core : Handler σ} {verbose : Bool} {session : Session σ} {st : StreamState}
  {stop : ℕ → Bool}

theorem answer_responsive (hcore : Responsive core) {op : UInt8} {args : Bytes}
    (h : WellFormed op args) : ∃ log status payload s',
      core op args session.core = .ok (some (status, payload), s') ∧
      answer core verbose op args session = .ok (log, ⟨session.incoming, s', session.trace ++
        [.handled op args, .sent (responseFrame op status payload) session.incoming]⟩) := by
  obtain ⟨⟨status, payload⟩, s', hreply⟩ := hcore op args session.core h
  have hlog : ∃ log, logIfVerbose verbose op args status payload = .ok log := by
    unfold logIfVerbose
    split_ifs
    · exact requestLog_ok h
    · exact ⟨none, rfl⟩
  obtain ⟨log, hlog⟩ := hlog
  refine ⟨log, status, payload, s', hreply, ?_⟩
  simp only [answer, hreply, ok_bind, hlog, sendResponse, Session.act, List.append_assoc,
    List.singleton_append]

theorem Pumps.serves {p : Pumped σ} {items : List Item} (hcore : Responsive core)
    (h : Pumps core verbose st session p items) : ∃ frames,
      Answers core session.core (requests items) frames p.session.core ∧
      handledIn p.session.trace = handledIn session.trace ++ requests items ∧
      sentIn p.session.trace = sentIn session.trace ++ frames := by
  have hscan := h.scan
  cases h.acted with
  | text hitems hstate htrace hevent =>
    have hnone : requests items = [] := by
      rw [requests, List.filterMap_eq_nil_iff]
      intro item hitem
      cases item with
      | text b => rfl
      | request op args => cases hitems _ hitem
      | damaged => rfl
    rw [hnone, hstate, htrace]
    exact ⟨[], .nil, by simp, by simp⟩
  | damaged hstate htrace hevent =>
    rw [hstate, htrace]
    exact ⟨[], .nil, by simp [requests], by simp⟩
  | @request op args log hanswer hevent =>
    have hwell : WellFormed op args := by
      refine @scan_wellFormed st.pendingM (st.deferred.toList.map .got ++ session.incoming) _ _ ?_
      change _ ∈ remaining st session.incoming
      rw [hscan]
      exact List.mem_append_left _ List.mem_cons_self
    obtain ⟨log', status, payload, s', hreply, hok⟩ := @answer_responsive σ core verbose
      { session with incoming := p.session.incoming } hcore op args hwell
    rw [hanswer, Except.ok.injEq, Prod.mk.injEq] at hok
    obtain ⟨-, hsession⟩ := hok
    rw [hsession]
    exact ⟨[responseFrame op status payload], .cons hreply .nil,
      by simp [handledIn, requests], by simp [sentIn]⟩

theorem Answers.append {s s' s'' : σ} {reqs more : List (UInt8 × Bytes)} {frames rest : List Bytes}
    (h : Answers core s reqs frames s') (hmore : Answers core s' more rest s'') :
    Answers core s (reqs ++ more) (frames ++ rest) s'' := by
  induction h with
  | nil => exact hmore
  | cons hhead _ ih => exact .cons hhead (ih hmore)

theorem serveTurn_next {p : Pumped σ} {polls : ℕ} (hstop : stop polls = false)
    (hp : pump core verbose st session = .ok p) (hevent : p.event ≠ .closed) :
    ∃ shown : Session σ,
      serveTurn core verbose stop ⟨st, session, polls⟩ = .ok (.next ⟨p.stream, shown, polls + 1⟩) ∧
      shown.incoming = p.session.incoming ∧ shown.core = p.session.core ∧
      handledIn shown.trace = handledIn p.session.trace ∧
      sentIn shown.trace = sentIn p.session.trace := by
  rw [serveTurn, if_neg (by simp [hstop])]
  simp only [hp, ok_bind]
  split
  · next hclosed => exact absurd hclosed hevent
  · exact ⟨_, rfl, rfl, rfl, by simp [handledIn, Session.act], by simp [sentIn, Session.act]⟩
  · exact ⟨_, rfl, rfl, rfl, by simp [handledIn, Session.act], by simp [sentIn, Session.act]⟩
  · exact ⟨_, rfl, rfl, rfl, rfl, rfl⟩

theorem serveTurn_done {p : Pumped σ} {polls : ℕ} (hstop : stop polls = false)
    (hp : pump core verbose st session = .ok p) (hevent : p.event = .closed) :
    serveTurn core verbose stop ⟨st, session, polls⟩ = .ok (.done p.session) := by
  rw [serveTurn, if_neg (by simp [hstop])]
  simp only [hp, ok_bind, hevent]

theorem pump_responsive (hcore : Responsive core) :
    ∃ p, pump core verbose st session = .ok p := by
  refine pump_ok fun op args items more hremaining => ?_
  have hwell : WellFormed op args := by
    refine @scan_wellFormed st.pendingM (st.deferred.toList.map .got ++ session.incoming) _ _ ?_
    change _ ∈ remaining st session.incoming
    rw [hremaining]
    exact List.mem_cons_self
  obtain ⟨log, status, payload, s', -, hok⟩ := @answer_responsive σ core verbose
    { session with incoming := more } hcore op args hwell
  exact ⟨_, hok⟩

theorem remaining_of_weight (h : weight st session.incoming = 0) :
    remaining st session.incoming = [] := by
  rw [weight, Nat.add_eq_zero_iff] at h
  have hlink : session.incoming = [] := List.length_eq_zero_iff.mp (by omega)
  rw [remaining, List.length_eq_zero_iff.mp h.2, hlink]
  exact scan_nil

/-- From any state, the loop handles what remains to be scanned, provided it is stopped only
after every byte has been considered. -/
theorem serveTurns_serve (hcore : Responsive core) (hst : st.Exclusive) {polls total fuel : ℕ}
    (hweight : weight st session.incoming ≤ total) (hstop : stop (polls + total) = true)
    (hrun : ∀ k < polls + total, stop k = false) (hfuel : total < fuel) :
    ∃ final frames, iterate (serveTurn core verbose stop) fuel ⟨st, session, polls⟩ = .ok final ∧
      Answers core session.core (requests (remaining st session.incoming)) frames final.core ∧
      handledIn final.trace =
        handledIn session.trace ++ requests (remaining st session.incoming) ∧
      sentIn final.trace = sentIn session.trace ++ frames := by
  induction total generalizing st session polls fuel with
  | zero =>
    obtain ⟨fuel, rfl⟩ : ∃ f, fuel = f + 1 := ⟨fuel - 1, by omega⟩
    have hturn : serveTurn core verbose stop ⟨st, session, polls⟩ = .ok (.done session) := by
      rw [serveTurn, if_pos (by simpa using hstop)]
    rw [remaining_of_weight (Nat.le_zero.mp hweight)]
    exact ⟨session, [], iterate_done hturn, .nil, by simp [requests], by simp⟩
  | succ total ih =>
    obtain ⟨fuel, rfl⟩ : ∃ f, fuel = f + 1 := ⟨fuel - 1, by omega⟩
    obtain ⟨p, hp⟩ := @pump_responsive σ core verbose session st hcore
    obtain ⟨items, hpumps⟩ := pump_pumps hp hst
    obtain ⟨frames, hanswers, hhandled, hsent⟩ := hpumps.serves hcore
    have hpoll : stop polls = false := hrun polls (by omega)
    rw [hpumps.scan, requests, List.filterMap_append, ← requests]
    by_cases hevent : p.event = .closed
    · rw [hpumps.finish hevent]
      refine ⟨p.session, frames, iterate_done (serveTurn_done hpoll hp hevent), ?_, ?_, hsent⟩
      · simpa [requests] using hanswers
      · simpa [requests] using hhandled
    · obtain ⟨shown, hturn, hincoming, hcoreEq, hhandledEq, hsentEq⟩ :=
        serveTurn_next hpoll hp hevent
      have hprogress := hpumps.progress.resolve_left hevent
      rw [← hincoming] at hprogress
      obtain ⟨final, rest, hloop, hrest, hhandled', hsent'⟩ := @ih shown p.stream hpumps.exclusive
        (polls + 1) fuel (by omega) (by rw [← hstop]; congr 1; omega)
        (fun k hk => hrun k (by omega)) (by omega)
      rw [hincoming, hcoreEq] at hrest
      rw [hincoming, hhandledEq, hhandled] at hhandled'
      rw [hsentEq, hsent] at hsent'
      refine ⟨final, frames ++ rest, by rw [iterate_next hturn, hloop], hanswers.append hrest, ?_,
        ?_⟩
      · rw [hhandled', List.append_assoc]
        rfl
      · rw [hsent', List.append_assoc]

end Serve

theorem handle_responsive {c : Crypto} {φ : Type} (core : SeederCore c) (fs : FileSystem φ)
    (z : Compressors) : Responsive (core.handle fs z) := fun _ _ files h =>
  handle_replies core fs z files h

def noCompressors : Compressors := ⟨fun _ _ => none, fun _ => none⟩

def emptyCore : SeederCore Crypto.plain := ⟨[], none, none⟩

def countFrame : Frame := ⟨OP_COUNT, [], ⟨0, rfl, rfl⟩, 1⟩

theorem noRequest_short {bytes : Bytes} (h : bytes.length < 3) : NoRequest bytes :=
  fun _ _ _ hpart => by
    have hle := hpart.length_le
    simp only [List.length_cons, List.length_nil] at hle
    omega

end MotaTool.Serve
