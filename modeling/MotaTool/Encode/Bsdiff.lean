import MotaTool.Base.EditScript
import MotaTool.Encode.Suffix
import MotaTool.Encode.Varint

/-!
# The bsdiff encoder

The model follows the loops of `bsdiff` one by one: the outer loop over the
bytes to encode, the scan for the next match worth switching to, the forward
and backward extensions and the resolution of their overlap. Cursors are
signed as in the source, and every access to either string panics when it is
out of range. The old string is `from` of the source, the new one `to`.
-/

namespace MotaTool.Encode

open Base

def get (v : Bytes) (i : ℤ) : Run UInt8 := if 0 ≤ i then index v i.toNat else Run.panic

/-- `&v[lo as usize..hi as usize]`: a negative bound is no index of any vector. -/
def sliceAt (v : Bytes) (lo hi : ℤ) : Run Bytes :=
  if 0 ≤ lo ∧ 0 ≤ hi then slice v lo.toNat hi.toNat else Run.panic

def matchAt (old new : Bytes) (a b : ℤ) : Run Bool :=
  if a < old.length then do
    let x ← get old a
    let y ← get new b
    .ok (x == y)
  else .ok false

structure Scan where
  scan : ℤ
  len : ℤ
  pos : ℤ
  scsc : ℤ
  oldscore : ℤ

def rescore (old new : Bytes) (lastoffset : ℤ) (s : Scan) : Run Scan := do
  let hit ← matchAt old new (s.scsc + lastoffset) s.scsc
  .ok { s with oldscore := if hit then s.oldscore + 1 else s.oldscore, scsc := s.scsc + 1 }

def Scan.settled (s : Scan) : Bool :=
  decide (s.len = s.oldscore ∧ s.len ≠ 0 ∨ s.len > s.oldscore + 8)

def scanTurn (sa : List ℕ) (old new : Bytes) (lastoffset : ℤ) (s : Scan) :
    Run (Flow Scan Scan) :=
  if s.scan < new.length then do
    let rest ← sliceAt new s.scan new.length
    let (len, pos) ← search sa old rest (old.length + 1) 0 old.length
    let s ← iterate (whileTurn (fun s => decide (s.scsc < s.scan + s.len))
      (rescore old new lastoffset)) (new.length + 1) { s with len := len, pos := pos }
    if s.settled then .ok (.done s)
    else do
      let hit ← matchAt old new (s.scan + lastoffset) s.scan
      .ok (.next { s with
        oldscore := if hit then s.oldscore - 1 else s.oldscore, scan := s.scan + 1 })
  else .ok (.done s)

structure Extent where
  i : ℤ
  s : ℤ
  best : ℤ
  len : ℤ

def forwardStep (old new : Bytes) (lastscan lastpos : ℤ) (e : Extent) : Run Extent := do
  let x ← get old (lastpos + e.i)
  let y ← get new (lastscan + e.i)
  let s := if x == y then e.s + 1 else e.s
  let i := e.i + 1
  if s * 2 - i > e.best * 2 - e.len then .ok ⟨i, s, s, i⟩ else .ok ⟨i, s, e.best, e.len⟩

def forwardExtend (old new : Bytes) (scan lastscan lastpos : ℤ) : Run ℤ := do
  let e ← iterate (whileTurn
    (fun e => decide (lastscan + e.i < scan ∧ lastpos + e.i < old.length))
    (forwardStep old new lastscan lastpos)) (new.length + 1) ⟨0, 0, 0, 0⟩
  .ok e.len

def backwardStep (old new : Bytes) (scan pos : ℤ) (e : Extent) : Run Extent := do
  let x ← get old (pos - e.i)
  let y ← get new (scan - e.i)
  let s := if x == y then e.s + 1 else e.s
  if s * 2 - e.i > e.best * 2 - e.len then .ok ⟨e.i + 1, s, s, e.i⟩
  else .ok ⟨e.i + 1, s, e.best, e.len⟩

def backwardExtend (old new : Bytes) (scan pos lastscan : ℤ) : Run ℤ :=
  if scan < new.length then do
    let e ← iterate (whileTurn (fun e => decide (scan ≥ lastscan + e.i ∧ pos ≥ e.i))
      (backwardStep old new scan pos)) (new.length + 1) ⟨1, 0, 0, 0⟩
    .ok e.len
  else .ok 0

def overlapStep (old new : Bytes) (fnew fold bnew bold : ℤ) (e : Extent) : Run Extent := do
  let y ← get new (fnew + e.i)
  let x ← get old (fold + e.i)
  let s := if y == x then e.s + 1 else e.s
  let y ← get new (bnew + e.i)
  let x ← get old (bold + e.i)
  let s := if y == x then s - 1 else s
  if s > e.best then .ok ⟨e.i + 1, s, s, e.i + 1⟩ else .ok ⟨e.i + 1, s, e.best, e.len⟩

def resolveOverlap (old new : Bytes) (scan pos lastscan lastpos lenf lenb : ℤ) :
    Run (ℤ × ℤ) :=
  if lastscan + lenf > scan - lenb then do
    let overlap := (lastscan + lenf) - (scan - lenb)
    let e ← iterate (whileTurn (fun e => decide (e.i < overlap))
      (overlapStep old new (lastscan + lenf - overlap) (lastpos + lenf - overlap)
        (scan - lenb) (pos - lenb))) (new.length + 1) ⟨0, 0, 0, 0⟩
    .ok (lenf + (e.len - overlap), lenb - e.len)
  else .ok (lenf, lenb)

structure Diffing where
  scan : ℤ
  len : ℤ
  pos : ℤ
  lastscan : ℤ
  lastpos : ℤ
  lastoffset : ℤ
  body : Bytes

def diffByte (old new : Bytes) (lastscan lastpos : ℤ) (i : ℕ) : Run UInt8 := do
  let y ← get new (lastscan + i)
  let x ← get old (lastpos + i)
  .ok (y - x)

def diffBytes (old new : Bytes) (lastscan lastpos diffLen : ℤ) : Run Bytes :=
  (List.range diffLen.toNat).mapM (diffByte old new lastscan lastpos)

def emit (old new : Bytes) (s : Diffing) (t : Scan) (lenf lenb : ℤ) : Run Bytes := do
  let diff ← diffBytes old new s.lastscan s.lastpos lenf
  let extraLen := (t.scan - lenb) - (s.lastscan + lenf)
  let extra ← sliceAt new (s.lastscan + lenf) (t.scan - lenb)
  let seek := (t.pos - lenb) - (s.lastpos + lenf)
  .ok (s.body ++ packSize lenf ++ diff ++ packSize extraLen ++ extra ++ packSize seek)

def bsdiffTurn (sa : List ℕ) (old new : Bytes) (s : Diffing) : Run (Flow Diffing Bytes) :=
  if s.scan < new.length then do
    let start := s.scan + s.len
    let t ← iterate (scanTurn sa old new s.lastoffset) (new.length + 1)
      ⟨start, s.len, s.pos, start, 0⟩
    if t.len ≠ t.oldscore ∨ t.scan = new.length then do
      let lenf ← forwardExtend old new t.scan s.lastscan s.lastpos
      let lenb ← backwardExtend old new t.scan t.pos s.lastscan
      let (lenf, lenb) ← resolveOverlap old new t.scan t.pos s.lastscan s.lastpos lenf lenb
      let body ← emit old new s t lenf lenb
      .ok (.next ⟨t.scan, t.len, t.pos, t.scan - lenb, t.pos - lenb, t.pos - t.scan, body⟩)
    else .ok (.next { s with scan := t.scan, len := t.len, pos := t.pos })
  else .ok (.done s.body)

/-- `scan + len` grows in every outer turn, so the length bounds the number of turns. -/
def bsdiff (old new body : Bytes) : Run Bytes := do
  let sa ← suffixArrayWithSentinel old
  iterate (bsdiffTurn sa old new) (new.length + 2) ⟨0, 0, 0, 0, 0, 0, body⟩

end MotaTool.Encode
