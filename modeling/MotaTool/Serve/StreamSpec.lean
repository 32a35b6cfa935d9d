import MotaTool.Serve.Scan

/-!
# The pump reads what the scan says

Every call of `pump` produces the next few items of the stream: some text, one
request or one damaged frame. The buffer, the pending `M` and the deferred byte
are positions in this reading, so no later argument unfolds the pump again.
-/

namespace MotaTool.Serve

open Base Run Format seeder

def held (st : StreamState) : Bytes :=
  (if st.pendingM then [REQ_MAGIC.1] else []) ++ st.deferred.toList

def remaining (st : StreamState) (link : List Byte) : List Item :=
  scan st.pendingM (st.deferred.toList.map .got ++ link)

def bytesOf (link : List Byte) : Bytes := link.filterMap fun
  | .got b => some b
  | _ => none

def PumpEvent.lines : PumpEvent → List (List Char)
  | .deviceLine line => [line]
  | _ => []

def PumpEvent.isFrame : PumpEvent → Bool
  | .seederFrame _ => true
  | _ => false

def StreamState.Exclusive (st : StreamState) : Prop := st.pendingM = true → st.deferred = none

/-- A bound on the calls that still consume something. -/
def weight (st : StreamState) (link : List Byte) : ℕ := 2 * link.length + st.deferred.toList.length

/-- What the items of one call did: text changes nothing but the stream, a frame is reported,
and a request is answered. -/
inductive Acted {σ : Type} (core : Handler σ) (verbose : Bool) (session : Session σ)
    (p : Pumped σ) : List Item → Prop
  | text {items : List Item} (hitems : ∀ item ∈ items, item.isText = true)
      (hcore : p.session.core = session.core) (htrace : p.session.trace = session.trace)
      (hevent : p.event.isFrame = false) : Acted core verbose session p items
  | damaged (hcore : p.session.core = session.core) (htrace : p.session.trace = session.trace)
      (hevent : p.event = .seederFrame none) : Acted core verbose session p [.damaged]
  | request {op : UInt8} {args : Bytes} {log : Option String}
      (hanswer : answer core verbose op args
        { session with incoming := p.session.incoming } = .ok (log, p.session))
      (hevent : p.event = .seederFrame log) : Acted core verbose session p [.request op args]

structure Pumps {σ : Type} (core : Handler σ) (verbose : Bool) (st : StreamState)
    (session : Session σ) (p : Pumped σ) (items : List Item) : Prop where
  scan : remaining st session.incoming = items ++ remaining p.stream p.session.incoming
  lines : ∀ k : Console, k.line = st.line → (k.after items).line = p.stream.line ∧
    (k.pieces items).filterMap Piece.shown = p.event.lines
  exclusive : p.stream.Exclusive
  forward : p.session.incoming <:+ session.incoming
  progress : p.event = .closed ∨
    weight p.stream p.session.incoming ≤ weight st session.incoming - 1
  finish : p.event = .closed → remaining p.stream p.session.incoming = []
  bytes : (∀ item ∈ items, item.isText = true) → held st ++ bytesOf session.incoming =
    texts items ++ held p.stream ++ bytesOf p.session.incoming
  settled : held p.stream = [] → ∀ b ∈ (texts items).getLast?, b ≠ REQ_MAGIC.1
  acted : Acted core verbose session p items

section Text

variable {st : StreamState} {b : UInt8} {link : List Byte}

theorem pushText_lines (k : Console) (hk : k.line = st.line) :
    (k.after [.text b]).line = (pushText st.line b).2 ∧
      (k.pieces [.text b]).filterMap Piece.shown = (pushText st.line b).1.toList := by
  obtain ⟨hshown, hline⟩ := k.push_pushText b
  rw [hk] at hshown hline
  refine ⟨hline, ?_⟩
  rw [← hshown]
  simp only [Console.pieces, Console.take, List.append_nil]
  cases (k.push b).1 with
  | none => rfl
  | some p => cases h : p.shown <;> simp [h]

theorem pushText_flush {line shown buffer : List Char}
    (h : pushText line b = (some shown, buffer)) : buffer = [] := by
  unfold pushText at h
  simp only at h
  split_ifs at h
  · cases h
  · exact (Prod.mk.inj h).2.symm

theorem pushLiteral_lines (k : Console) (hk : k.line = st.line) :
    (k.after [.text REQ_MAGIC.1, .text REQ_MAGIC.2]).line =
        (pushLiteral st.line [REQ_MAGIC.1, REQ_MAGIC.2]).2 ∧
      (k.pieces [.text REQ_MAGIC.1, .text REQ_MAGIC.2]).filterMap Piece.shown =
        (pushLiteral st.line [REQ_MAGIC.1, REQ_MAGIC.2]).1.toList := by
  obtain ⟨hline, hshown⟩ := @pushText_lines st REQ_MAGIC.1 k hk
  obtain ⟨⟨first, buffer⟩, hfirst⟩ : ∃ r, pushText st.line REQ_MAGIC.1 = r := ⟨_, rfl⟩
  obtain ⟨⟨second, last⟩, hsecond⟩ : ∃ r, pushText buffer REQ_MAGIC.2 = r := ⟨_, rfl⟩
  rw [hfirst] at hline hshown
  obtain ⟨hline', hshown'⟩ := @pushText_lines ⟨false, none, buffer⟩ REQ_MAGIC.2 _ hline
  rw [hsecond] at hline' hshown'
  have hsplit : [Item.text REQ_MAGIC.1, .text REQ_MAGIC.2] =
      [.text REQ_MAGIC.1] ++ [.text REQ_MAGIC.2] := rfl
  have hone : first.toList ++ second.toList = (first.or second).toList := by
    cases first with
    | none => rfl
    | some shown =>
      rw [pushText_flush hfirst] at hsecond
      have hnone : second = none := (Prod.mk.inj hsecond).1.symm
      rw [hnone]
      rfl
  rw [hsplit, Console.after_append, Console.pieces_append, List.filterMap_append, hline', hshown,
    hshown', hone]
  simp [pushLiteral, hfirst, hsecond]

structure Accepts (st : StreamState) (b : UInt8) (link : List Byte) (r : PumpEvent × StreamState)
    (items : List Item) : Prop where
  scan : scan false (.got b :: link) = items ++ remaining r.2 link
  lines : ∀ k : Console, k.line = st.line → (k.after items).line = r.2.line ∧
    (k.pieces items).filterMap Piece.shown = r.1.lines
  undeferred : r.2.deferred = none
  bytes : b :: bytesOf link = texts items ++ held r.2 ++ bytesOf link
  text : ∀ item ∈ items, item.isText = true
  settled : held r.2 = [] → ∃ d, (texts items).getLast? = some d ∧ d ≠ REQ_MAGIC.1
  event : r.1 ≠ .closed ∧ r.1.isFrame = false

theorem acceptUnframed_accepts (hpending : st.pendingM = false) (hdeferred : st.deferred = none) :
    ∃ items, Accepts st b link (acceptUnframed st b) items := by
  by_cases hb : b = REQ_MAGIC.1
  · refine ⟨[], ?_⟩
    rw [acceptUnframed, if_pos hb]
    refine ⟨?_, fun k hk => ⟨hk, rfl⟩, hdeferred, ?_, by simp, ?_, nofun, rfl⟩
    · rw [hb, scan_magic]
      simp [remaining, hdeferred]
    · simp [held, hdeferred, hb, texts]
    · simp [held]
  · refine ⟨[.text b], ?_⟩
    have hlines := fun k hk => @pushText_lines st b k hk
    have hscan : scan false (.got b :: link) = [.text b] ++ scan false link := scan_text hb
    rw [acceptUnframed, if_neg hb]
    obtain ⟨⟨emitted, buffer⟩, hpush⟩ : ∃ r, pushText st.line b = r := ⟨_, rfl⟩
    simp only [hpush] at hlines ⊢
    cases emitted with
    | none =>
      refine ⟨?_, hlines, hdeferred, ?_, by simp [Item.isText], ?_, nofun, rfl⟩
      · simpa [remaining, hpending, hdeferred] using hscan
      · simp [held, hpending, hdeferred, texts]
      · simp [texts, hb]
    | some line =>
      refine ⟨?_, hlines, hdeferred, ?_, by simp [Item.isText], ?_, nofun, rfl⟩
      · simpa [remaining, hpending, hdeferred] using hscan
      · simp [held, hpending, hdeferred, texts]
      · simp [texts, hb]

end Text

section Pump

variable {σ : Type} {core : Handler σ} {verbose : Bool} {st : StreamState} {session : Session σ}
  {b : UInt8} {link : List Byte} {p : Pumped σ}

/-- The byte a call considers comes from the stream state or from the link. -/
def Takes (st : StreamState) (incoming : List Byte) (b : UInt8) (link : List Byte) : Prop :=
  st.deferred = some b ∧ link = incoming ∨ st.deferred = none ∧ incoming = .got b :: link

theorem Takes.forward {incoming : List Byte} (h : Takes st incoming b link) :
    link <:+ incoming := by
  rcases h with ⟨-, rfl⟩ | ⟨-, rfl⟩
  · exact List.suffix_rfl
  · exact List.suffix_cons _ _

theorem Takes.remaining {incoming : List Byte} (h : Takes st incoming b link) :
    remaining st incoming = Serve.scan st.pendingM (.got b :: link) := by
  rcases h with ⟨hdeferred, rfl⟩ | ⟨hdeferred, rfl⟩ <;> simp [Serve.remaining, hdeferred]

theorem Takes.bytes {incoming : List Byte} (h : Takes st incoming b link) :
    held st ++ bytesOf incoming =
      (if st.pendingM then [REQ_MAGIC.1] else []) ++ b :: bytesOf link := by
  rcases h with ⟨hdeferred, rfl⟩ | ⟨hdeferred, rfl⟩ <;> simp [held, hdeferred, bytesOf]

theorem Takes.weight {incoming : List Byte} (h : Takes st incoming b link) :
    2 * link.length < weight st incoming := by
  rcases h with ⟨hdeferred, rfl⟩ | ⟨hdeferred, rfl⟩ <;> simp [Serve.weight, hdeferred]

/-- A pending `M` excludes a deferred byte, so the byte came from the link. -/
theorem Takes.weight_pending {incoming : List Byte} (h : Takes st incoming b link)
    (hst : st.Exclusive) (hpending : st.pendingM = true) :
    2 * link.length + 1 < Serve.weight st incoming := by
  rcases h with ⟨hdeferred, -⟩ | ⟨hdeferred, rfl⟩
  · rw [hst hpending] at hdeferred
    cases hdeferred
  · simp only [Serve.weight, List.length_cons]
    omega

theorem Accepts.pumps {from_ : StreamState} {r : PumpEvent × StreamState} {items : List Item}
    {before : Bytes} (h : Accepts from_ b link r items)
    (hscan : remaining st session.incoming = before.map .text ++ Serve.scan false (.got b :: link))
    (hlines : ∀ k : Console, k.line = st.line → (k.after (before.map .text)).line = from_.line ∧
      (k.pieces (before.map .text)).filterMap Piece.shown = [])
    (hbytes : held st ++ bytesOf session.incoming = before ++ b :: bytesOf link)
    (hforward : link <:+ session.incoming)
    (hweight : 2 * link.length < weight st session.incoming) :
    Pumps core verbose st session ⟨r.1, r.2, { session with incoming := link }⟩
      (before.map .text ++ items) := by
  have htexts : texts (before.map .text ++ items) = before ++ texts items := by
    simp [texts, List.filterMap_append, List.filterMap_map]
  refine ⟨?_, fun k hk => ?_, fun _ => h.undeferred, hforward, .inr ?_,
    fun hclosed => absurd hclosed h.event.1, fun _ => ?_, fun hheld d hd => ?_, ?_⟩
  · rw [hscan, h.scan, List.append_assoc]
  · obtain ⟨hline, hnone⟩ := hlines k hk
    obtain ⟨hline', hshown⟩ := h.lines _ hline
    rw [Console.after_append, Console.pieces_append, List.filterMap_append, hnone, List.nil_append]
    exact ⟨hline', hshown⟩
  · simp only [weight, h.undeferred, Option.toList_none, List.length_nil] at hweight ⊢
    omega
  · rw [htexts, hbytes, h.bytes, List.append_assoc, List.append_assoc, List.append_assoc]
  · obtain ⟨last, hlast, hne⟩ := h.settled hheld
    rw [htexts, List.getLast?_append, hlast] at hd
    cases hd
    exact hne
  · refine .text (fun item hitem => ?_) rfl rfl h.event.2
    rcases List.mem_append.mp hitem with hbefore | hafter
    · obtain ⟨d, -, rfl⟩ := List.mem_map.mp hbefore
      rfl
    · exact h.text item hafter

theorem deferred_pumps {line buffer : List Char} {before : Bytes}
    (hscan : remaining st session.incoming = before.map .text ++ Serve.scan false (.got b :: link))
    (hlines : ∀ k : Console, k.line = st.line → (k.after (before.map .text)).line = buffer ∧
      (k.pieces (before.map .text)).filterMap Piece.shown = [line])
    (hbytes : held st ++ bytesOf session.incoming = before ++ b :: bytesOf link)
    (hforward : link <:+ session.incoming)
    (hweight : 2 * link.length + 1 < weight st session.incoming) :
    Pumps core verbose st session
      ⟨.deviceLine line, ⟨false, some b, buffer⟩, { session with incoming := link }⟩
      (before.map .text) := by
  refine ⟨by simpa [remaining] using hscan, hlines, nofun, hforward, .inr ?_, nofun,
    fun _ => ?_, nofun, ?_⟩
  · simp only [weight, Option.toList_some, List.length_singleton] at hweight ⊢
    omega
  · rw [hbytes]
    simp [held, texts, List.filterMap_map]
  · refine .text (fun item hitem => ?_) rfl rfl rfl
    obtain ⟨d, -, rfl⟩ := List.mem_map.mp hitem
    rfl

theorem answer_incoming {op : UInt8} {args : Bytes} {log : Option String} {after : Session σ}
    (h : answer core verbose op args session = .ok (log, after)) :
    after.incoming = session.incoming := by
  simp only [answer, bind_eq_ok] at h
  obtain ⟨⟨reply, state⟩, -, h⟩ := h
  cases reply with
  | none =>
    cases h
    rfl
  | some reply =>
    simp only [bind_eq_ok] at h
    obtain ⟨_, -, h⟩ := h
    cases h
    rfl

theorem Takes.request {incoming rest : List Byte} {r : RequestRead} (ht : Takes st incoming b link)
    (hread : readRequest link = (r, rest)) : rest <:+ incoming ∧
      2 * rest.length ≤ Serve.weight st incoming - 1 := by
  have hsuffix := readRequest_suffix link
  have hle : rest.length ≤ link.length := readRequest_length hread
  have hweight := ht.weight
  rw [hread] at hsuffix
  exact ⟨hsuffix.trans ht.forward, by omega⟩

theorem pumpMagic_pumps (hpending : st.pendingM = true)
    (ht : Takes st session.incoming REQ_MAGIC.2 link)
    (h : pumpMagic core verbose ⟨false, none, st.line⟩ { session with incoming := link } = .ok p) :
    ∃ items, Pumps core verbose st session p items := by
  have hscan := ht.remaining
  have hbytes := ht.bytes
  rw [hpending] at hscan
  simp only [hpending, if_true] at hbytes
  unfold pumpMagic at h
  split at h
  · next op args rest hread =>
    rw [bind_eq_ok] at h
    obtain ⟨⟨log, after⟩, hanswer, h⟩ := h
    cases h
    have hincoming : after.incoming = rest := answer_incoming hanswer
    refine ⟨[.request op args], ?_, fun k _ => ⟨rfl, rfl⟩, nofun, ?_, .inr ?_, nofun,
      fun htext => ?_, by simp [texts], ?_⟩
    · rw [hscan, scan_valid hread]
      simp [remaining, hincoming]
    · rw [hincoming]
      exact (ht.request hread).1
    · rw [weight, hincoming]
      exact (ht.request hread).2
    · exact absurd (htext _ (List.mem_singleton_self _)) (by simp [Item.isText])
    · refine .request ?_ rfl
      rw [hincoming]
      exact hanswer
  · next rest hread =>
    cases h
    refine ⟨[.damaged], ?_, fun k _ => ⟨rfl, rfl⟩, nofun, ?_, .inr ?_, nofun, fun htext => ?_,
      by simp [texts],
      .damaged rfl rfl rfl⟩
    · rw [hscan, scan_damaged hread]
      simp [remaining]
    · exact (ht.request hread).1
    · exact (ht.request hread).2
    · exact absurd (htext _ (List.mem_singleton_self _)) (by simp [Item.isText])
  · next op rest hread =>
    have hlink : link = .got op :: rest := (readRequest_unknown hread).1
    have hforward := (ht.request hread).1
    rw [scan_unknown hread] at hscan
    have hweight : 2 * rest.length + 1 < weight st session.incoming := by
      have hlt := ht.weight
      rw [hlink, List.length_cons] at hlt
      omega
    have hheld : held st ++ bytesOf session.incoming =
        [REQ_MAGIC.1, REQ_MAGIC.2] ++ op :: bytesOf rest := by
      rw [hbytes, hlink]
      rfl
    have hlines := fun k hk => @pushLiteral_lines st k hk
    obtain ⟨⟨emitted, buffer⟩, hpush⟩ :
      ∃ r, pushLiteral st.line [REQ_MAGIC.1, REQ_MAGIC.2] = r := ⟨_, rfl⟩
    simp only [hpush] at h hlines
    cases emitted with
    | some line =>
      cases h
      exact ⟨_, @deferred_pumps _ _ _ _ _ _ _ _ _ [REQ_MAGIC.1, REQ_MAGIC.2] hscan hlines hheld
        hforward hweight⟩
    | none =>
      cases h
      obtain ⟨items, haccepts⟩ := @acceptUnframed_accepts ⟨false, none, buffer⟩ op rest rfl rfl
      exact ⟨_, @Accepts.pumps _ _ _ _ _ _ _ _ _ _ [REQ_MAGIC.1, REQ_MAGIC.2] haccepts hscan hlines
        hheld hforward (by omega)⟩

theorem pumpByte_pumps (hst : st.Exclusive) (ht : Takes st session.incoming b link)
    (h : pumpByte core verbose b { st with deferred := none } { session with incoming := link } =
      .ok p) : ∃ items, Pumps core verbose st session p items := by
  have hscan := ht.remaining
  have hbytes := ht.bytes
  unfold pumpByte at h
  cases hpending : st.pendingM with
  | false =>
    simp only [hpending, Bool.false_eq_true, if_false] at h hbytes
    rw [hpending] at hscan
    cases h
    obtain ⟨items, haccepts⟩ := @acceptUnframed_accepts ⟨false, none, st.line⟩ b link rfl rfl
    exact ⟨_, @Accepts.pumps _ _ _ _ _ _ _ _ _ _ [] haccepts hscan (fun k hk => ⟨hk, rfl⟩) hbytes
      ht.forward ht.weight⟩
  | true =>
    simp only [hpending, if_true] at h hbytes
    by_cases hb : b = REQ_MAGIC.2
    · rw [if_pos hb] at h
      rw [hb] at ht
      exact pumpMagic_pumps hpending ht h
    · rw [if_neg hb] at h
      rw [hpending, scan_pending hb] at hscan
      have hlines := fun k hk => @pushText_lines st REQ_MAGIC.1 k hk
      obtain ⟨⟨emitted, buffer⟩, hpush⟩ : ∃ r, pushText st.line REQ_MAGIC.1 = r := ⟨_, rfl⟩
      simp only [hpush] at h hlines
      cases emitted with
      | some line =>
        cases h
        exact ⟨_, @deferred_pumps _ _ _ _ _ _ _ _ _ [REQ_MAGIC.1] hscan hlines hbytes ht.forward
          (ht.weight_pending hst hpending)⟩
      | none =>
        cases h
        obtain ⟨items, haccepts⟩ := @acceptUnframed_accepts ⟨false, none, buffer⟩ b link rfl rfl
        exact ⟨_, @Accepts.pumps _ _ _ _ _ _ _ _ _ _ [REQ_MAGIC.1] haccepts hscan hlines hbytes
          ht.forward ht.weight⟩

theorem idle_pumps {event : PumpEvent} {rest : List Byte} (hst : st.Exclusive)
    (hscan : remaining st session.incoming = remaining st rest)
    (hbytes : bytesOf session.incoming = bytesOf rest) (hforward : rest <:+ session.incoming)
    (hprogress : event = .closed ∨ weight st rest ≤ weight st session.incoming - 1)
    (hfinish : event = .closed → remaining st rest = []) (hlines : event.lines = [])
    (hevent : event.isFrame = false) :
    Pumps core verbose st session ⟨event, st, { session with incoming := rest }⟩ [] := by
  refine ⟨hscan, fun k hk => ⟨hk, hlines.symm⟩, hst, hforward, hprogress, hfinish,
    fun _ => ?_, by simp [texts],
    .text (by simp) rfl rfl hevent⟩
  rw [hbytes]
  rfl

theorem pump_pumps (h : pump core verbose st session = .ok p) (hst : st.Exclusive) :
    ∃ items, Pumps core verbose st session p items := by
  unfold pump at h
  split at h
  · next b hdeferred => exact pumpByte_pumps hst (.inl ⟨hdeferred, rfl⟩) h
  · next hdeferred =>
    split at h
    · next b rest hread =>
      have hlink : session.incoming = .got b :: rest :=
        readFrameByte_eq_some.mp (by rw [readFrameByte, hread])
      have hnone : st = { st with deferred := none } := by rw [← hdeferred]
      rw [hnone] at h
      exact pumpByte_pumps hst (.inr ⟨hdeferred, hlink⟩) h
    · next rest hread =>
      cases h
      have hsuffix := readByte_suffix session.incoming
      rw [hread] at hsuffix
      refine ⟨[], idle_pumps hst ?_ ?_ hsuffix (.inr ?_) (fun hclosed => by cases hclosed) rfl rfl⟩
      all_goals
        rcases hlink : session.incoming with _ | ⟨_ | _ | _, tail⟩ <;>
          simp_all [readByte, remaining, bytesOf, weight]
      omega
    · next rest hread =>
      cases h
      have hsuffix := readByte_suffix session.incoming
      rw [hread] at hsuffix
      refine ⟨[], idle_pumps hst ?_ ?_ hsuffix (.inl rfl) (fun _ => ?_) rfl rfl⟩
      all_goals
        rcases hlink : session.incoming with _ | ⟨_ | _ | _, tail⟩ <;>
          simp_all [readByte, remaining, bytesOf]
      rw [← hread]
      exact scan_closed

theorem pumpMagic_ok (hanswer : ∀ op args more, readRequest link = (.valid op args, more) →
      ∃ r, answer core verbose op args { session with incoming := more } = .ok r) :
    ∃ p, pumpMagic core verbose st { session with incoming := link } = .ok p := by
  unfold pumpMagic
  split
  · next op args rest hread =>
    obtain ⟨⟨log, after⟩, hok⟩ := hanswer op args rest hread
    simp only at hok ⊢
    rw [hok]
    exact ⟨_, rfl⟩
  · exact ⟨_, rfl⟩
  · split <;> exact ⟨_, rfl⟩

theorem pumpByte_ok (ht : Takes st session.incoming b link)
    (hanswer : ∀ op args items more, remaining st session.incoming = .request op args :: items →
      ∃ r, answer core verbose op args { session with incoming := more } = .ok r) :
    ∃ p, pumpByte core verbose b { st with deferred := none } { session with incoming := link } =
      .ok p := by
  unfold pumpByte
  split_ifs with hpending hb
  · refine pumpMagic_ok fun op args more hread => hanswer op args (scan false more) more ?_
    rw [ht.remaining, hpending, hb, scan_valid hread]
  · simp only
    split <;> exact ⟨_, rfl⟩
  · exact ⟨_, rfl⟩

theorem pump_ok
    (hanswer : ∀ op args items more, remaining st session.incoming = .request op args :: items →
      ∃ r, answer core verbose op args { session with incoming := more } = .ok r) :
    ∃ p, pump core verbose st session = .ok p := by
  unfold pump
  split
  · next b hdeferred => exact pumpByte_ok (.inl ⟨hdeferred, rfl⟩) hanswer
  · next hdeferred =>
    split
    · next b rest hread =>
      have hlink : session.incoming = .got b :: rest :=
        readFrameByte_eq_some.mp (by rw [readFrameByte, hread])
      have hnone : st = { st with deferred := none } := by rw [← hdeferred]
      rw [hnone]
      exact pumpByte_ok (.inr ⟨hdeferred, hlink⟩) hanswer
    · exact ⟨_, rfl⟩
    · exact ⟨_, rfl⟩

end Pump

end MotaTool.Serve
