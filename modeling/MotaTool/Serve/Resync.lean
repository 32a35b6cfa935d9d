import MotaTool.Serve.LinkSpec

/-!
# A silence restores the framing

A read that times out abandons the frame at hand, so reading never looks past
a silence it has not consumed. Whatever came before, damaged frames, pieces of
frames or binary noise, the frames behind one silence are read exactly.
-/

namespace MotaTool.Serve

open Base Run Format seeder

/-- On noise, a silence and any rest, the read ends within the noise, the same whatever follows,
or takes the silence and fails. -/
def Local {α : Type} (read : List Byte → α × List Byte) (failure : α) (noise : List Byte) : Prop :=
  (∃ result tail, tail <:+ noise ∧
    ∀ rest, read (noise ++ .timeout :: rest) = (result, tail ++ .timeout :: rest)) ∨
  ∀ rest, read (noise ++ .timeout :: rest) = (failure, rest)

section Local

variable {noise : List Byte}

theorem readFrameByte_local (hopen : .closed ∉ noise) : Local readFrameByte none noise := by
  rcases noise with _ | ⟨b | _ | _, noise⟩
  · exact .inr fun rest => rfl
  · exact .inl ⟨some b, noise, List.suffix_cons _ _, fun rest => rfl⟩
  · exact .inl ⟨none, noise, List.suffix_cons _ _, fun rest => rfl⟩
  · exact absurd List.mem_cons_self hopen

theorem readFrameBytes_local (n : ℕ) (hopen : .closed ∉ noise) :
    Local (readFrameBytes n) none noise := by
  induction n generalizing noise with
  | zero => exact .inl ⟨some [], noise, List.suffix_rfl, fun rest => rfl⟩
  | succ n ih =>
    rcases readFrameByte_local hopen with ⟨first, tail, htail, hfirst⟩ | hfirst
    · cases first with
      | none => exact .inl ⟨none, tail, htail, fun rest => by rw [readFrameBytes, hfirst]⟩
      | some b =>
        rcases ih fun h => hopen (htail.subset h) with ⟨bytes, last, hlast, hbytes⟩ | hbytes
        · refine .inl ⟨bytes.map (b :: ·), last, hlast.trans htail, fun rest => ?_⟩
          rw [readFrameBytes, hfirst]
          simp only [hbytes]
          cases bytes <;> rfl
        · refine .inr fun rest => ?_
          rw [readFrameBytes, hfirst]
          simp only [hbytes]
    · exact .inr fun rest => by rw [readFrameBytes, hfirst]

theorem readData_local (op : UInt8) (args : Bytes) (hopen : .closed ∉ noise) :
    Local (readData op args) none noise := by
  by_cases hop : op = OP_WRITE
  · by_cases hmax : WRITE_MAX < declaredLen args
    · exact .inl ⟨none, noise, List.suffix_rfl, fun rest => by
        rw [readData, if_pos hop, if_pos hmax]⟩
    · rcases readFrameBytes_local (declaredLen args) hopen with ⟨data, tail, htail, hdata⟩ | hdata
      · refine .inl ⟨data.map (args ++ ·), tail, htail, fun rest => ?_⟩
        rw [readData, if_pos hop, if_neg hmax, hdata]
        cases data <;> rfl
      · exact .inr fun rest => by rw [readData, if_pos hop, if_neg hmax, hdata]
  · exact .inl ⟨some args, noise, List.suffix_rfl, fun rest => by rw [readData, if_neg hop]⟩

theorem readChecked_local (op : UInt8) (args : Bytes) (hopen : .closed ∉ noise) :
    Local (readChecked op args) .malformedKnown noise := by
  rcases readFrameByte_local hopen with ⟨xsum, tail, htail, hxsum⟩ | hxsum
  · cases xsum with
    | none => exact .inl ⟨_, tail, htail, fun rest => by rw [readChecked, hxsum]⟩
    | some b => exact .inl ⟨_, tail, htail, fun rest => by rw [readChecked, hxsum]⟩
  · exact .inr fun rest => by rw [readChecked, hxsum]

theorem readRequest_local (hopen : .closed ∉ noise) :
    Local readRequest .malformedKnown noise := by
  rcases readFrameByte_local hopen with ⟨first, tail, htail, hfirst⟩ | hfirst
  swap
  · exact .inr fun rest => by rw [readRequest, hfirst]
  cases first with
  | none => exact .inl ⟨_, tail, htail, fun rest => by rw [readRequest, hfirst]⟩
  | some op =>
    cases hhdr : requestHeaderLen op with
    | none =>
      exact .inl ⟨.unknown op, tail, htail, fun rest => by
        rw [readRequest, hfirst]; simp only [hhdr]⟩
    | some hdr =>
      have hopen' : .closed ∉ tail := fun h => hopen (htail.subset h)
      rcases readFrameBytes_local hdr hopen' with ⟨head, mid, hmid, hhead⟩ | hhead
      swap
      · exact .inr fun rest => by rw [readRequest, hfirst]; simp only [hhdr, hhead]
      cases head with
      | none =>
        exact .inl ⟨.malformedKnown, mid, hmid.trans htail, fun rest => by
          rw [readRequest, hfirst]; simp only [hhdr, hhead]⟩
      | some args =>
        have hopen'' : .closed ∉ mid := fun h => hopen' (hmid.subset h)
        rcases readData_local op args hopen'' with ⟨data, last, hlast, hdata⟩ | hdata
        swap
        · exact .inr fun rest => by rw [readRequest, hfirst]; simp only [hhdr, hhead, hdata]
        have hsuffix := hlast.trans (hmid.trans htail)
        cases data with
        | none =>
          exact .inl ⟨.malformedKnown, last, hsuffix, fun rest => by
            rw [readRequest, hfirst]; simp only [hhdr, hhead, hdata]⟩
        | some full =>
          rcases readChecked_local op full fun h => hopen (hsuffix.subset h) with
            ⟨result, final, hfinal, hchecked⟩ | hchecked
          · exact .inl ⟨result, final, hfinal.trans hsuffix, fun rest => by
              rw [readRequest, hfirst]; simp only [hhdr, hhead, hdata, hchecked]⟩
          · exact .inr fun rest => by
              rw [readRequest, hfirst]; simp only [hhdr, hhead, hdata, hchecked]

end Local

section Scan

variable {noise : List Byte} {b : UInt8}

theorem bytesOf_last {tail : List Byte} (h : tail <:+ noise)
    (hlast : (bytesOf tail).getLast? = some b) : (bytesOf noise).getLast? = some b := by
  obtain ⟨front, rfl⟩ := h
  rw [bytesOf_append, List.getLast?_append, hlast, Option.some_or]

/-- An `M` that noise leaves open is its last byte, or was open before it. -/
def LeavesOpen (magic : Bool) (noise : List Byte) (m : Bool) : Prop :=
  m = true → magic = true ∧ bytesOf noise = [] ∨ (bytesOf noise).getLast? = some REQ_MAGIC.1

theorem LeavesOpen.behind {m : Bool} {tail : List Byte} (h : LeavesOpen false tail m)
    (hsuffix : tail <:+ noise) (magic : Bool) : LeavesOpen magic noise m := fun hm => by
  rcases h hm with ⟨hfalse, -⟩ | hlast
  · cases hfalse
  · exact .inr (bytesOf_last hsuffix hlast)

/-- What noise and the silence behind it are read as does not depend on what follows. -/
def Absorbs (magic : Bool) (noise : List Byte) : Prop :=
  ∃ items m, LeavesOpen magic noise m ∧
    ∀ rest, scan magic (noise ++ .timeout :: rest) = items ++ scan m rest

theorem Absorbs.behind {magic : Bool} {tail : List Byte} (h : Absorbs false tail)
    (htail : tail <:+ noise) (front : List Item)
    (hscan : ∀ rest, scan magic (noise ++ .timeout :: rest) =
      front ++ scan false (tail ++ .timeout :: rest)) : Absorbs magic noise := by
  obtain ⟨items, m, hm, hitems⟩ := h
  exact ⟨front ++ items, m, hm.behind htail magic, fun rest => by
    rw [hscan, hitems, List.append_assoc]⟩

theorem scan_local (magic : Bool) (hopen : .closed ∉ noise) : Absorbs magic noise := by
  -- a pending `M` is dropped without consuming a byte, so it counts one
  induction hn : 2 * noise.length + (if magic then 1 else 0) using Nat.strong_induction_on
    generalizing noise magic with
  | _ n ih =>
    subst hn
    rcases noise with _ | ⟨b | _ | _, noise⟩
    · exact ⟨[], magic, fun hm => .inl ⟨hm, rfl⟩, fun rest => scan_timeout⟩
    · have hopen' : .closed ∉ noise := fun h => hopen (List.mem_cons_of_mem _ h)
      have hcons : noise <:+ .got b :: noise := List.suffix_cons _ _
      cases magic with
      | false =>
        by_cases hb : b = REQ_MAGIC.1
        · obtain ⟨items, m, hm, hitems⟩ := ih (2 * noise.length + 1)
            (by simp only [List.length_cons]; omega) true hopen' rfl
          refine ⟨items, m, fun htrue => .inr ?_, fun rest => by
            rw [hb, List.cons_append, scan_magic, hitems]⟩
          rcases hm htrue with ⟨-, hnone⟩ | hlast
          · have hbytes : bytesOf (.got b :: noise) = b :: bytesOf noise := rfl
            rw [hbytes, hnone, hb]
            rfl
          · exact bytesOf_last hcons hlast
        · exact (ih (2 * noise.length) (by simp) false hopen' rfl).behind hcons
            [.text b] fun rest => scan_text hb
      | true =>
        by_cases hb : b = REQ_MAGIC.2
        · subst hb
          rcases readRequest_local hopen' with ⟨result, tail, htail, hread⟩ | hread
          · have hopen'' : .closed ∉ tail := fun h => hopen' (htail.subset h)
            have hle := htail.length_le
            have hlater : Absorbs false tail := ih (2 * tail.length)
              (by simp only [List.length_cons]; omega) false hopen'' rfl
            cases result with
            | valid op args =>
              exact hlater.behind (htail.trans hcons) [.request op args]
                fun rest => scan_valid (hread rest)
            | malformedKnown =>
              exact hlater.behind (htail.trans hcons) [.damaged]
                fun rest => scan_damaged (hread rest)
            | unknown op =>
              -- the opcode is considered anew, so the noise is shorter by the magic alone
              have hlink : noise = .got op :: tail := by
                have hcut := (readRequest_unknown (hread [])).1
                rw [← List.cons_append] at hcut
                exact List.append_cancel_right hcut
              have hanew : Absorbs false noise := @ih (2 * noise.length)
                (by simp only [List.length_cons]; omega) noise false hopen' rfl
              refine hanew.behind hcons [.text REQ_MAGIC.1, .text REQ_MAGIC.2]
                fun rest => ?_
              rw [List.cons_append, scan_unknown (hread rest), hlink]
              rfl
          · exact ⟨[.damaged], false, nofun, fun rest => by
              rw [List.cons_append, scan_damaged (hread rest), List.singleton_append]⟩
        · have hanew : Absorbs false (.got b :: noise) :=
            @ih (2 * (noise.length + 1)) (by simp) (.got b :: noise) false hopen rfl
          exact hanew.behind List.suffix_rfl [.text REQ_MAGIC.1]
            fun rest => scan_pending hb
    · obtain ⟨items, m, hm, hitems⟩ := @ih (2 * noise.length + (if magic then 1 else 0)) (by simp)
        noise magic (fun h => hopen (List.mem_cons_of_mem _ h)) rfl
      exact ⟨items, m, hm, fun rest => by rw [List.cons_append, scan_timeout, hitems]⟩
    · exact absurd List.mem_cons_self hopen

def firstText (segments : List (List Byte × Frame)) (last : List Byte) : List Byte :=
  (segments.head?.map Prod.fst).getD last

theorem requests_stream_pending (m : Bool) (segments : List (List Byte × Frame))
    {last ending : List Byte} (htexts : ∀ segment ∈ segments, Quiet segment.1) (hlast : Quiet last)
    (hending : ending = [] ∨ ending = [.closed])
    (hfirst : m = true → NoRequest (REQ_MAGIC.1 :: bytesOf (firstText segments last))) :
    requests (scan m (stream segments (last ++ ending))) =
      segments.map fun segment => segment.2.request := by
  cases m with
  | false => exact requests_stream segments htexts hlast hending
  | true =>
    cases segments with
    | nil =>
      have hopens : Opens ending := by
        rcases hending with h | h
        · exact .inl h
        · exact .inr (.inl h)
      obtain ⟨m, hm⟩ := @requests_quiet true last ending hlast.opened (hfirst rfl) hopens
      rw [stream, hm]
      rcases hending with rfl | rfl
      · rw [scan_nil]
        rfl
      · rw [scan_closed]
        rfl
    | cons segment segments =>
      obtain ⟨text, frame⟩ := segment
      have hquiet := htexts _ List.mem_cons_self
      have hopens : Opens (frame.events ++ stream segments (last ++ ending)) := .inr (.inr ⟨_, rfl⟩)
      obtain ⟨m, hm⟩ := @requests_quiet true text _ hquiet.opened (hfirst rfl) hopens
      rw [stream, hm, requests_frame, requests_stream segments
        (fun s hs => htexts s (List.mem_cons_of_mem _ hs)) hlast hending]
      rfl

/-- Behind noise and a silence, the requests are those of the frames. -/
theorem requests_resynchronised (hopen : .closed ∉ noise) (segments : List (List Byte × Frame))
    {last ending : List Byte} (htexts : ∀ segment ∈ segments, Quiet segment.1) (hlast : Quiet last)
    (hending : ending = [] ∨ ending = [.closed])
    (hfirst : (bytesOf noise).getLast? = some REQ_MAGIC.1 →
      NoRequest (REQ_MAGIC.1 :: bytesOf (firstText segments last))) :
    requests (scan false (noise ++ .timeout :: stream segments (last ++ ending))) =
      requests (scan false (noise ++ [.timeout])) ++
        segments.map fun segment => segment.2.request := by
  obtain ⟨items, m, hm, hitems⟩ := scan_local false hopen
  have halone := hitems []
  rw [scan_nil, List.append_nil] at halone
  have hclear : m = true → NoRequest (REQ_MAGIC.1 :: bytesOf (firstText segments last)) :=
    fun htrue => hfirst ((hm htrue).resolve_left fun h => by cases h.1)
  rw [hitems, halone, ← requests_stream_pending m segments htexts hlast hending hclear]
  simp only [requests, List.filterMap_append]

end Scan

/-- Whatever noise came before, the frames behind a silence are handled in order, each once, and
all answers go out in the order of the requests, unless a last `M` of the noise and the first text
make a request. -/
theorem serveLoop_resynchronises {c : Crypto} {φ : Type} (core : SeederCore c) (fs : FileSystem φ)
    (z : Compressors) (verbose : Bool) (files : φ) (noise : List Byte) (hopen : .closed ∉ noise)
    (segments : List (List Byte × Frame)) (last ending : List Byte)
    (htexts : ∀ segment ∈ segments, Quiet segment.1) (hlast : Quiet last)
    (hending : ending = [] ∨ ending = [.closed])
    (hfirst : (bytesOf noise).getLast? = some REQ_MAGIC.1 →
      NoRequest (REQ_MAGIC.1 :: bytesOf (firstText segments last))) (stop : ℕ → Bool) (n : ℕ)
    (hn : 2 * (noise ++ .timeout :: stream segments (last ++ ending)).length ≤ n)
    (hstop : stop n = true) (hrun : ∀ k < n, stop k = false) :
    ∃ final, serveLoop (core.handle fs z) verbose stop (n + 1)
        ⟨noise ++ .timeout :: stream segments (last ++ ending), files, []⟩ = .ok final ∧
      handledIn final.trace = requests (scan false (noise ++ [.timeout])) ++
        segments.map (fun segment => segment.2.request) ∧
      Answers (core.handle fs z) files (handledIn final.trace) (sentIn final.trace) final.core := by
  obtain ⟨final, frames, hloop, hanswers, hhandled, hsent⟩ := @serveTurns_serve φ
    (core.handle fs z) verbose ⟨noise ++ .timeout :: stream segments (last ++ ending), files, []⟩
    StreamState.default stop (handle_responsive core fs z) nofun 0 n (n + 1)
    (by simpa [weight, StreamState.default] using hn) (by simpa using hstop)
    (by simpa using hrun) (by omega)
  have hremaining : remaining StreamState.default
      (noise ++ .timeout :: stream segments (last ++ ending)) =
        scan false (noise ++ .timeout :: stream segments (last ++ ending)) := rfl
  simp only [hremaining, requests_resynchronised hopen segments htexts hlast hending hfirst]
    at hanswers hhandled
  refine ⟨final, hloop, hhandled, ?_⟩
  rw [hhandled, hsent]
  exact hanswers

def brokenWrite : List Byte :=
  [.got 0x4d, .got 0x53, .got OP_WRITE, .got 0xaa, .got 0x4d, .got 0x53, .timeout, .got 0x4d]

theorem serveLoop_resynchronises_write : ∃ final,
    serveLoop (emptyCore.handle noFiles noCompressors) false (fun k => decide (k = 40)) 41
        ⟨brokenWrite ++ .timeout :: stream [([], countFrame)] ([] ++ [.closed]), (), []⟩ =
      .ok final ∧
    handledIn final.trace = requests (scan false (brokenWrite ++ [.timeout])) ++
      [(OP_COUNT, [])] ∧
    Answers (emptyCore.handle noFiles noCompressors) () (handledIn final.trace)
      (sentIn final.trace) final.core :=
  serveLoop_resynchronises emptyCore noFiles noCompressors false () brokenWrite (by decide)
    [([], countFrame)] [] [.closed]
    (fun segment hsegment => by
      obtain rfl := List.mem_singleton.mp hsegment
      exact ⟨by decide, noRequest_short (by decide)⟩)
    ⟨by decide, noRequest_short (by decide)⟩ (.inr rfl) (fun _ => noRequest_short (by decide))
    (fun k => decide (k = 40)) 40 (by decide) (by decide) (by decide)

end MotaTool.Serve
