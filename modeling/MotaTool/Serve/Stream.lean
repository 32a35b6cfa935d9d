import MotaTool.Base.Loop
import MotaTool.Serve.Seeder
import Mathlib.Data.List.DropRight

/-!
# Requests and console text on one byte stream

The link is the list of what its reads will return; a list that is used up is
a silent link, whose reads time out. `pump` consumes one byte of text or one
request and answers it. What a session has done (requests handled, bytes
written, lines shown) is kept in its trace, together with what was still
unread when bytes were written.
-/

namespace MotaTool.Serve

open Base Run Format seeder

inductive Byte
  | got (b : UInt8)
  | timeout
  | closed
  deriving DecidableEq, Repr

inductive PumpEvent
  | activity
  | timeout
  | closed
  | seederFrame (log : Option String)
  | deviceLine (line : List Char)
  deriving DecidableEq

inductive Act
  | handled (op : UInt8) (args : Bytes)
  | sent (chunk : Bytes) (unread : List Byte)
  | shown (line : List Char)
  | reported (event : PumpEvent)
  deriving DecidableEq

structure Session (σ : Type) where
  incoming : List Byte
  core : σ
  trace : List Act

structure StreamState where
  pendingM : Bool
  deferred : Option UInt8
  line : List Char
  deriving DecidableEq

def StreamState.default : StreamState := ⟨false, none, []⟩

/-- A link that is closed stays closed. -/
def readByte : List Byte → Byte × List Byte
  | [] => (.timeout, [])
  | .closed :: rest => (.closed, .closed :: rest)
  | event :: rest => (event, rest)

def readFrameByte (link : List Byte) : Option UInt8 × List Byte :=
  match readByte link with
  | (.got b, rest) => (some b, rest)
  | (_, rest) => (none, rest)

def readFrameBytes : ℕ → List Byte → Option Bytes × List Byte
  | 0, link => (some [], link)
  | n + 1, link =>
    match readFrameByte link with
    | (none, rest) => (none, rest)
    | (some b, rest) =>
      match readFrameBytes n rest with
      | (some bytes, rest) => (some (b :: bytes), rest)
      | (none, rest) => (none, rest)

def xor (bytes : Bytes) (seed : UInt8) : UInt8 := bytes.foldl (fun x b => x ^^^ b) seed

inductive RequestRead
  | valid (op : UInt8) (args : Bytes)
  | malformedKnown
  | unknown (op : UInt8)
  deriving DecidableEq

def declaredLen (args : Bytes) : ℕ := ofLe ((args.drop 8).take 2)

/-- The arguments, after the data of a write request has been read behind its header. -/
def readData (op : UInt8) (args : Bytes) (link : List Byte) : Option Bytes × List Byte :=
  if op = OP_WRITE then
    if WRITE_MAX < declaredLen args then (none, link)
    else
      match readFrameBytes (declaredLen args) link with
      | (some data, rest) => (some (args ++ data), rest)
      | (none, rest) => (none, rest)
  else (some args, link)

def readChecked (op : UInt8) (args : Bytes) (link : List Byte) : RequestRead × List Byte :=
  match readFrameByte link with
  | (none, rest) => (.malformedKnown, rest)
  | (some xsum, rest) => (if xsum = xor args op then .valid op args else .malformedKnown, rest)

def readRequest (link : List Byte) : RequestRead × List Byte :=
  match readFrameByte link with
  | (none, rest) => (.malformedKnown, rest)
  | (some op, rest) =>
    match requestHeaderLen op with
    | none => (.unknown op, rest)
    | some hdr =>
      match readFrameBytes hdr rest with
      | (none, rest) => (.malformedKnown, rest)
      | (some args, rest) =>
        match readData op args rest with
        | (none, rest) => (.malformedKnown, rest)
        | (some args, rest) => readChecked op args rest

def responseFrame (op status : UInt8) (payload : Bytes) : Bytes :=
  let frame := RSP_MAGIC ++ [op, status] ++ payload
  frame ++ [xor frame 0]

def okText (status : UInt8) : String := if status = STATUS_OK then "OK" else "ERR"

/-- Storage requests are not logged. -/
def requestLog (op : UInt8) (args : Bytes) (status : UInt8) (payload : Bytes) :
    Run (Option String) :=
  if op = OP_COUNT then .ok (some s!"COUNT -> {(payload.head?.getD 0).toNat}")
  else if op = OP_DESCRIBE then do
    let i ← index args 0
    .ok (some s!"DESCRIBE {i.toNat} {okText status}")
  else if op = OP_READ then do
    let i ← index args 0
    let off ← rdU32 args 1
    .ok (some s!"READ {i.toNat} @{off.toNat} {okText status}")
  else if op = OP_DEFLATE_BLOCK then do
    let i ← index args 0
    let block ← slice args 1 3
    let off ← slice args 3 5
    .ok (some s!"DEFLATE {i.toNat} block={ofLe block} @{ofLe off} {okText status}")
  else .ok none

section Pump

variable {σ : Type} (core : Handler σ) (verbose : Bool)

def Session.act (session : Session σ) (act : Act) : Session σ :=
  { session with trace := session.trace ++ [act] }

/-- A failed write is ignored. -/
def sendResponse (session : Session σ) (op status : UInt8) (payload : Bytes) : Session σ :=
  session.act (.sent (responseFrame op status payload) session.incoming)

def logIfVerbose (op : UInt8) (args : Bytes) (status : UInt8) (payload : Bytes) :
    Run (Option String) :=
  if verbose then requestLog op args status payload else .ok none

def answer (op : UInt8) (args : Bytes) (session : Session σ) :
    Run (Option String × Session σ) := do
  let (reply, state) ← core op args session.core
  let session := ({ session with core := state } : Session σ).act (.handled op args)
  match reply with
  | some (status, payload) => do
    let log ← logIfVerbose verbose op args status payload
    .ok (log, sendResponse session op status payload)
  | none => .ok (none, session)

def asChar (b : UInt8) : Char := Char.ofNat b.toNat

def textLen (text : List Char) : ℕ := (text.map Char.utf8Size).sum

def isLineEnd (ch : Char) : Bool := ch == '\r' || ch == '\n'

def shownLine (line : List Char) : Option (List Char) :=
  let trimmed := line.rdropWhile isLineEnd
  if trimmed.isEmpty then none else some trimmed

def pushText (line : List Char) (b : UInt8) : Option (List Char) × List Char :=
  let line := line ++ [asChar b]
  if b ≠ 0x0a ∧ textLen line ≤ 512 then (none, line) else (shownLine line, [])

def pushLiteral (line : List Char) : Bytes → Option (List Char) × List Char
  | [] => (none, line)
  | b :: bytes =>
    let (emitted, line) := pushText line b
    let (later, line) := pushLiteral line bytes
    (emitted.or later, line)

def acceptUnframed (st : StreamState) (b : UInt8) : PumpEvent × StreamState :=
  if b = REQ_MAGIC.1 then (.activity, { st with pendingM := true })
  else
    match pushText st.line b with
    | (some line, buffer) => (.deviceLine line, { st with line := buffer })
    | (none, buffer) => (.activity, { st with line := buffer })

structure Pumped (σ : Type) where
  event : PumpEvent
  stream : StreamState
  session : Session σ

def accepted (r : PumpEvent × StreamState) (session : Session σ) : Run (Pumped σ) :=
  .ok ⟨r.1, r.2, session⟩

/-- After both magic bytes. An unknown opcode makes them text, and is itself considered anew. -/
def pumpMagic (st : StreamState) (session : Session σ) : Run (Pumped σ) :=
  match readRequest session.incoming with
  | (.valid op args, rest) => do
    let (log, session) ← answer core verbose op args { session with incoming := rest }
    .ok ⟨.seederFrame log, { st with line := [] }, session⟩
  | (.malformedKnown, rest) =>
    .ok ⟨.seederFrame none, { st with line := [] }, { session with incoming := rest }⟩
  | (.unknown op, rest) =>
    match pushLiteral st.line [REQ_MAGIC.1, REQ_MAGIC.2] with
    | (some line, buffer) =>
      .ok ⟨.deviceLine line, { st with line := buffer, deferred := some op },
        { session with incoming := rest }⟩
    | (none, buffer) =>
      accepted (acceptUnframed { st with line := buffer } op) { session with incoming := rest }

def pumpByte (b : UInt8) (st : StreamState) (session : Session σ) : Run (Pumped σ) :=
  if st.pendingM then
    let st := { st with pendingM := false }
    if b = REQ_MAGIC.2 then pumpMagic core verbose st session
    else
      match pushText st.line REQ_MAGIC.1 with
      | (some line, buffer) =>
        .ok ⟨.deviceLine line, { st with line := buffer, deferred := some b }, session⟩
      | (none, buffer) => accepted (acceptUnframed { st with line := buffer } b) session
  else accepted (acceptUnframed st b) session

def pump (st : StreamState) (session : Session σ) : Run (Pumped σ) :=
  match st.deferred with
  | some b => pumpByte core verbose b { st with deferred := none } session
  | none =>
    match readByte session.incoming with
    | (.got b, rest) => pumpByte core verbose b st { session with incoming := rest }
    | (.timeout, rest) => .ok ⟨.timeout, st, { session with incoming := rest }⟩
    | (.closed, rest) => .ok ⟨.closed, st, { session with incoming := rest }⟩

structure ServeState (σ : Type) where
  stream : StreamState
  session : Session σ
  polls : ℕ

/-- One turn; `stop` answers the polls of the flag in order. -/
def serveTurn (stop : ℕ → Bool) (s : ServeState σ) :
    Run (Flow (ServeState σ) (Session σ)) :=
  if stop s.polls then .ok (.done s.session)
  else do
    let p ← pump core verbose s.stream s.session
    match p.event with
    | .closed => .ok (.done p.session)
    | .deviceLine line => .ok (.next ⟨p.stream, p.session.act (.shown line), s.polls + 1⟩)
    | .seederFrame (some log) =>
      .ok (.next ⟨p.stream, p.session.act (.shown log.toList), s.polls + 1⟩)
    | _ => .ok (.next ⟨p.stream, p.session, s.polls + 1⟩)

def serveLoop (stop : ℕ → Bool) (fuel : ℕ) (session : Session σ) : Run (Session σ) :=
  iterate (serveTurn core verbose stop) fuel ⟨StreamState.default, session, 0⟩

end Pump

end MotaTool.Serve
