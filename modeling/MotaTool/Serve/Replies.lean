import MotaTool.Serve.Described
import MotaTool.Serve.Files
import MotaTool.Serve.LinkSpec

/-!
# Responses behind their requests

A response carries its opcode and its status but not its length. The request
it answers and the status decide how long the payload is, so whoever asked can
read the responses of a whole session back, one behind the other.
-/

namespace MotaTool.Serve

open Base Run Format seeder

def payloadLen (op : UInt8) (args : Bytes) : ℕ :=
  if op = OP_COUNT then 1
  else if op = OP_DESCRIBE then 38
  else if op = OP_READ then ofLe ((args.drop 5).take 2)
  else if op = OP_DEFLATE_BLOCK then 2 + ofLe ((args.drop 5).take 2)
  else if op = OP_STAT then 5
  else if op = OP_SREAD then declaredLen args
  else 0

def replyLen (op : UInt8) (args : Bytes) (status : UInt8) : ℕ :=
  if status = STATUS_OK then payloadLen op args else 0

def readReply (op : UInt8) (args bytes : Bytes) : Option (Reply × Bytes) := do
  let status ← bytes[3]?
  let len := replyLen op args status
  let payload := (bytes.drop 4).take len
  if bytes.take (5 + len) = responseFrame op status payload then
    some ((status, payload), bytes.drop (5 + len))
  else none

def readReplies : List (UInt8 × Bytes) → Bytes → Option (List Reply × Bytes)
  | [], bytes => some ([], bytes)
  | (op, args) :: requests, bytes => do
    let (reply, rest) ← readReply op args bytes
    let (replies, rest) ← readReplies requests rest
    some (reply :: replies, rest)

def repliesTo {σ : Type} (core : Handler σ) : List (UInt8 × Bytes) → σ → Run (List Reply × σ)
  | [], s => .ok ([], s)
  | (op, args) :: requests, s => do
    let (reply, s) ← core op args s
    let (replies, s) ← repliesTo core requests s
    .ok (reply.toList ++ replies, s)

section Frames

variable {op status : UInt8} {args payload bytes rest : Bytes} {reply : Reply}

theorem responseFrame_length (op status : UInt8) (payload : Bytes) :
    (responseFrame op status payload).length = 5 + payload.length := by
  simp [responseFrame, RSP_MAGIC, ascii]
  omega

theorem responseFrame_status (op status : UInt8) (payload rest : Bytes) :
    (responseFrame op status payload ++ rest)[3]? = some status := rfl

theorem responseFrame_payload (op status : UInt8) (payload rest : Bytes) :
    ((responseFrame op status payload ++ rest).drop 4).take payload.length = payload := by
  have hdrop : (responseFrame op status payload ++ rest).drop 4 =
      payload ++ ([xor (RSP_MAGIC ++ [op, status] ++ payload) 0] ++ rest) := by
    simp [responseFrame, RSP_MAGIC, ascii]
  rw [hdrop, List.take_left]

theorem readReply_eq_some : readReply op args bytes = some (reply, rest) ↔
    bytes = responseFrame op reply.1 reply.2 ++ rest ∧
      reply.2.length = replyLen op args reply.1 := by
  constructor
  · intro h
    obtain ⟨status, -, h⟩ := Option.bind_eq_some_iff.mp h
    simp only at h
    split_ifs at h with hframe
    cases h
    have hlength := congrArg List.length hframe
    rw [responseFrame_length, List.length_take] at hlength
    constructor
    · rw [← hframe, List.take_append_drop]
    · simp only [List.length_take, List.length_drop] at hlength ⊢
      omega
  · rintro ⟨rfl, hlen⟩
    have hframe : (responseFrame op reply.1 reply.2).length = 5 + replyLen op args reply.1 := by
      rw [responseFrame_length, hlen]
    have hpayload := responseFrame_payload op reply.1 reply.2 rest
    rw [hlen] at hpayload
    rw [readReply, responseFrame_status]
    simp only [Option.bind_eq_bind, Option.bind_some]
    rw [hpayload, List.take_left' hframe, List.drop_left' hframe, if_pos rfl]

end Frames

section Lengths

variable {c : Crypto} {φ : Type} {core : SeederCore c} {fs : FileSystem φ} {z : Compressors}
  {op : UInt8} {args : Bytes} {reply : Reply} {files files' : φ}

def FileSystem.ReadsExactly {φ : Type} (fs : FileSystem φ) : Prop :=
  ∀ files path off len buf, fs.readExactAt files path off len = some buf → buf.length = len

theorem refused_replyLen : refused.2.length = replyLen op args refused.1 := rfl

theorem status_replyLen (h : payloadLen op args = 0) (r : Bool) :
    (status r).2.length = replyLen op args (status r).1 := by
  cases r with
  | false => rfl
  | true => exact h.symm

theorem read_replyLen (h : core.read args = .ok reply) :
    reply.2.length = replyLen OP_READ args reply.1 := by
  obtain ⟨off, -, h⟩ := bind_eq_ok.mp h
  obtain ⟨len, hlen, h⟩ := bind_eq_ok.mp h
  obtain ⟨i, -, h⟩ := bind_eq_ok.mp h
  obtain ⟨-, -, hlen⟩ := slice_eq_ok.mp hlen
  split at h
  · split_ifs at h with hin
    · cases h
      have hdeclared : replyLen OP_READ args STATUS_OK = ofLe len := congrArg ofLe hlen.symm
      rw [hdeclared, List.length_take, List.length_drop]
      omega
    · cases h
      exact refused_replyLen
  · cases h
    exact refused_replyLen

theorem deflateBlock_replyLen (h : core.deflateBlock z args = .ok reply) :
    reply.2.length = replyLen OP_DEFLATE_BLOCK args reply.1 := by
  unfold SeederCore.deflateBlock at h
  split_ifs at h with hlength
  · cases h
    exact refused_replyLen
  · obtain ⟨i, -, h⟩ := bind_eq_ok.mp h
    obtain ⟨block, -, h⟩ := bind_eq_ok.mp h
    obtain ⟨off, -, h⟩ := bind_eq_ok.mp h
    obtain ⟨len, hlen, h⟩ := bind_eq_ok.mp h
    obtain ⟨-, -, hlen⟩ := slice_eq_ok.mp hlen
    split_ifs at h with hbound
    · cases h
      exact refused_replyLen
    · split at h
      · cases h
        exact refused_replyLen
      · split at h
        · cases h
          exact refused_replyLen
        · split_ifs at h with hin
          · cases h
            exact refused_replyLen
          · cases h
            have hdeclared : replyLen OP_DEFLATE_BLOCK args STATUS_OK = 2 + ofLe len :=
              congrArg (fun bytes => 2 + ofLe bytes) hlen.symm
            rw [hdeclared, List.length_append, toLe_length, List.length_take, List.length_drop]
            omega

theorem describe_replyLen (h : core.describe args = some reply) :
    reply.2.length = replyLen OP_DESCRIBE args reply.1 := by
  obtain ⟨i, -, rfl⟩ := Option.map_eq_some_iff.mp h
  split
  · exact describe_length _
  · exact refused_replyLen

theorem stat_replyLen (part done : String) :
    (SeederCore.stat fs part done files).2.length =
      replyLen OP_STAT args (SeederCore.stat fs part done files).1 := by
  have hlen : replyLen OP_STAT args STATUS_OK = 5 := rfl
  unfold SeederCore.stat
  split <;> rw [hlen, List.length_append, toLe_length] <;> rfl

theorem handleStorage_replyLen (hfs : fs.ReadsExactly)
    (h : core.handleStorage fs op args files = .ok (reply, files')) :
    reply.2.length = replyLen op args reply.1 := by
  unfold SeederCore.handleStorage at h
  split at h
  · cases h
    exact refused_replyLen
  · obtain ⟨mid, -, h⟩ := bind_eq_ok.mp h
    by_cases hstat : op = OP_STAT
    · rw [if_pos hstat] at h
      cases h
      rw [hstat]
      exact stat_replyLen _ _
    rw [if_neg hstat] at h
    by_cases hbegin : op = OP_BEGIN
    · rw [if_pos hbegin] at h
      obtain ⟨total, -, h⟩ := bind_eq_ok.mp h
      cases h
      exact status_replyLen (by rw [hbegin]; rfl) _
    rw [if_neg hbegin] at h
    by_cases hwrite : op = OP_WRITE
    · rw [if_pos hwrite] at h
      obtain ⟨off, -, h⟩ := bind_eq_ok.mp h
      obtain ⟨len, -, h⟩ := bind_eq_ok.mp h
      split_ifs at h with hin
      · cases h
        exact status_replyLen (by rw [hwrite]; rfl) _
      · cases h
        exact refused_replyLen
    rw [if_neg hwrite] at h
    by_cases hsread : op = OP_SREAD
    · rw [if_pos hsread] at h
      obtain ⟨off, -, h⟩ := bind_eq_ok.mp h
      obtain ⟨len, hlen, h⟩ := bind_eq_ok.mp h
      obtain ⟨-, -, rfl⟩ := slice_eq_ok.mp hlen
      simp only at h
      split at h
      · next buf hread =>
        cases h
        rw [hsread]
        exact hfs _ _ _ _ _ hread
      · cases h
        exact refused_replyLen
    rw [if_neg hsread] at h
    by_cases hfin : op = OP_FIN
    · rw [if_pos hfin] at h
      cases h
      exact status_replyLen (by rw [hfin]; rfl) _
    · rw [if_neg hfin] at h
      cases h
      exact refused_replyLen

theorem handle_replyLen (hfs : fs.ReadsExactly)
    (h : core.handle fs z op args files = .ok (some reply, files')) :
    reply.2.length = replyLen op args reply.1 := by
  unfold SeederCore.handle at h
  split_ifs at h with hcount hdescribe hread hdeflate hstorage
  · cases h
    rw [hcount]
    rfl
  · cases hreply : core.describe args with
    | none => simp [hreply] at h
    | some described =>
      rw [hreply] at h
      cases h
      rw [hdescribe]
      exact describe_replyLen hreply
  · obtain ⟨answered, hreply, h⟩ := bind_eq_ok.mp h
    cases h
    rw [hread]
    exact read_replyLen hreply
  · obtain ⟨answered, hreply, h⟩ := bind_eq_ok.mp h
    cases h
    rw [hdeflate]
    exact deflateBlock_replyLen hreply
  · obtain ⟨⟨answered, stored⟩, hreply, h⟩ := bind_eq_ok.mp h
    cases h
    exact handleStorage_replyLen hfs hreply
  · cases h

end Lengths

theorem Answers.read {σ : Type} {core : Handler σ} {s s' : σ} {requests : List (UInt8 × Bytes)}
    {frames : List Bytes} (h : Answers core s requests frames s')
    (hlen : ∀ op args s reply s', core op args s = .ok (some reply, s') →
      reply.2.length = replyLen op args reply.1) (rest : Bytes) :
    ∃ replies, repliesTo core requests s = .ok (replies, s') ∧
      readReplies requests (frames.flatten ++ rest) = some (replies, rest) := by
  induction h with
  | nil => exact ⟨[], rfl, rfl⟩
  | @cons s s' s'' op status args payload requests frames hhead htail ih =>
    obtain ⟨replies, hreplies, hread⟩ := ih
    have hfront : readReply op args (responseFrame op status payload ++ (frames.flatten ++ rest)) =
        some ((status, payload), frames.flatten ++ rest) :=
      readReply_eq_some.mpr ⟨rfl, hlen _ _ _ _ _ hhead⟩
    refine ⟨(status, payload) :: replies, ?_, ?_⟩
    · simp only [repliesTo, hhead, hreplies, ok_bind]
      rfl
    · rw [List.flatten_cons, List.append_assoc, readReplies, hfront]
      simp only [Option.bind_eq_bind, Option.bind_some, hread]

/-- In every session the requests that were handled suffice to read what was written in response
to them: the node recovers the replies of the core, in order, and nothing is left. -/
theorem serveLink_replies {c : Crypto} {φ : Type} (core : SeederCore c) (fs : FileSystem φ)
    (z : Compressors) (a : ServeArgs) (env : LinkEnv) (policy : AttachPolicy) (fuel : ℕ)
    (script : List Byte) (files : φ) (hfs : fs.ReadsExactly) {result : ServeResult}
    {final : Session φ}
    (h : serveLink (core.handle fs z) a env policy fuel ⟨script, files, []⟩ =
      .ok (result, final)) :
    ∃ replies, repliesTo (core.handle fs z) (handledIn final.trace) files =
        .ok (replies, final.core) ∧
      readReplies (handledIn final.trace) ((sentIn final.trace).filter isResponse).flatten =
        some (replies, []) := by
  have hanswers := (serveLink_conversed (handle_responsive core fs z) h).1.answers
  obtain ⟨replies, hreplies, hread⟩ :=
    hanswers.read (fun _ _ _ _ _ hreply => handle_replyLen hfs hreply) []
  rw [List.append_nil] at hread
  exact ⟨replies, hreplies, hread⟩

theorem posix_readsExactly : posix.ReadsExactly := by
  intro files path off len buf h
  obtain ⟨bytes, -, h⟩ := Option.bind_eq_some_iff.mp h
  split_ifs at h with hin
  cases h
  rw [List.length_take, List.length_drop]
  omega

theorem serveLink_replies_count : ∃ final replies,
    serveLink (emptyCore.handle posix noCompressors) serialArgs steady AttachPolicy.default 40
        ⟨replyBytes.map .got ++ countFrame.events ++ [.closed], fun _ => none, []⟩ =
      .ok (.bye, final) ∧
      repliesTo (emptyCore.handle posix noCompressors) (handledIn final.trace) (fun _ => none) =
        .ok (replies, final.core) ∧
      readReplies (handledIn final.trace) ((sentIn final.trace).filter isResponse).flatten =
        some (replies, []) := by
  have hrun : (serveLink (emptyCore.handle posix noCompressors) serialArgs steady
      AttachPolicy.default 40 ⟨replyBytes.map .got ++ countFrame.events ++ [.closed],
        fun _ => none, []⟩).toOption.any (fun r => decide (r.1 = .bye)) = true := by
    decide +kernel
  obtain ⟨⟨result, final⟩, hr, hbye⟩ := exists_any hrun
  obtain rfl : result = .bye := of_decide_eq_true hbye
  obtain ⟨replies, hreplies, hread⟩ := serveLink_replies emptyCore posix noCompressors serialArgs
    steady AttachPolicy.default 40 (replyBytes.map .got ++ countFrame.events ++ [.closed])
    (fun _ => none) posix_readsExactly hr
  exact ⟨final, replies, hr, hreplies, hread⟩

end MotaTool.Serve
