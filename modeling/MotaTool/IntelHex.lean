import MotaTool.Base.Placed
import MotaTool.Base.Text

/-!
# Intel HEX records

The reader of the text format comes from outside the program and is a
parameter: it yields a record or an error for every line. What the program does
with the records is here. It takes them one by one up to the first end-of-file
record, and an extended address record sets the base that the offsets of later
data records are added to.
-/

namespace MotaTool.IntelHex

open Base Run

abbrev Value := {value : Bytes // value.length ≤ 255}

theorem byte_length (b : UInt8) : [b].length ≤ 255 := Nat.le_add_left 1 254

def Value.byte (b : UInt8) : Value := ⟨[b], byte_length b⟩

inductive Record
  | data (offset : UInt16) (value : Value)
  | endOfFile
  | extendedSegmentAddress (segment : UInt16)
  | startSegmentAddress (cs ip : UInt16)
  | extendedLinearAddress (upper : UInt16)
  | startLinearAddress (address : UInt32)

/-- What the reader yields for a line: a record, or what is wrong with the line. -/
abbrev Line := Except String Record

abbrev Reader := String → List Line

/-- The reader of one file, given what it yields for the lines of that file. -/
def listed (text : String) (lines : List Line) : Reader := fun other =>
  if other = text then lines else []

theorem listed_lines (text : String) (lines : List Line) : listed text lines text = lines :=
  if_pos rfl

def wellFormed : Line → Run Record
  | .ok record => .ok record
  | .error reason => context "malformed Intel HEX record" (bail reason)

/-- One step for every record before the end of the file, and whether the end was seen. -/
def untilEof {σ : Type} (step : σ → Record → Run σ) : σ → List Line → Run (σ × Bool)
  | s, [] => .ok (s, false)
  | s, line :: lines => do
    match ← wellFormed line with
    | .endOfFile => .ok (s, true)
    | record => do
      let s ← step s record
      untilEof step s lines

def nextBase (base : ℕ) : Record → ℕ
  | .extendedLinearAddress upper => upper.toNat <<< 16
  | .extendedSegmentAddress segment => segment.toNat <<< 4
  | _ => base

def placed (base : ℕ) : List Record → List (ℕ × Bytes)
  | [] => []
  | .data offset value :: records => (base + offset.toNat, value.val) :: placed base records
  | record :: records => placed (nextBase base record) records

def Addressable (chunks : List (ℕ × Bytes)) : Prop :=
  ∀ chunk ∈ chunks, chunk.1 + chunk.2.length < 2 ^ 32

theorem Record.data_or (record : Record) :
    (∃ offset value, record = .data offset value) ∨
      ∀ offset value, record ≠ .data offset value := by
  by_cases h : ∃ offset value, record = .data offset value
  · exact .inl h
  · exact .inr fun offset value heq => h ⟨offset, value, heq⟩

theorem placed_data (base : ℕ) (offset : UInt16) (value : Value) (records : List Record) :
    placed base (.data offset value :: records) =
      (base + offset.toNat, value.val) :: placed base records := rfl

theorem placed_other {record : Record} (h : ∀ offset value, record ≠ .data offset value)
    (base : ℕ) (records : List Record) :
    placed base (record :: records) = placed (nextBase base record) records := by
  cases record with
  | data offset value => exact absurd rfl (h offset value)
  | endOfFile => rfl
  | extendedSegmentAddress segment => rfl
  | startSegmentAddress cs ip => rfl
  | extendedLinearAddress upper => rfl
  | startLinearAddress address => rfl

def leading : List Line → List Record
  | .ok .endOfFile :: _ => []
  | .ok record :: lines => record :: leading lines
  | _ => []

/-- These are the records before the first end-of-file record; no line up to it is malformed. -/
def Ends (lines : List Line) (records : List Record) : Prop :=
  .endOfFile ∉ records ∧ ∃ rest, lines = records.map .ok ++ .ok .endOfFile :: rest

def closing : List Line → Run Bool
  | [] => .ok false
  | line :: lines => do
    match ← wellFormed line with
    | .endOfFile => .ok true
    | _ => closing lines

theorem leading_cons {record : Record} (h : record ≠ .endOfFile) (lines : List Line) :
    leading (.ok record :: lines) = record :: leading lines := by
  cases record <;> first | rfl | exact absurd rfl h

theorem closing_cons {record : Record} (h : record ≠ .endOfFile) (lines : List Line) :
    closing (.ok record :: lines) = closing lines := by
  cases record <;> first | rfl | exact absurd rfl h

theorem untilEof_cons {σ : Type} {step : σ → Record → Run σ} {record : Record}
    (h : record ≠ .endOfFile) (s : σ) (lines : List Line) :
    untilEof step s (.ok record :: lines) = step s record >>= fun s => untilEof step s lines := by
  cases record <;> first | rfl | exact absurd rfl h

theorem untilEof_eq {σ : Type} (step : σ → Record → Run σ) (s : σ) (lines : List Line) :
    untilEof step s lines = (leading lines).foldlM step s >>= fun s =>
      closing lines >>= fun seen => .ok (s, seen) := by
  induction lines generalizing s with
  | nil => rfl
  | cons line lines ih =>
    obtain reason | record := line
    · rfl
    by_cases hend : record = .endOfFile
    · rw [hend]
      rfl
    · rw [untilEof_cons hend, leading_cons hend, closing_cons hend, List.foldlM_cons]
      cases step s record with
      | error e => rfl
      | ok next => exact ih next

theorem closing_returns (lines : List Line) : Returns (closing lines) := by
  induction lines with
  | nil => exact returns_ok _
  | cons line lines ih =>
    obtain reason | record := line
    · exact ((returns_bail _).context _).bind fun _ h => by cases h
    by_cases hend : record = .endOfFile
    · rw [hend]
      exact returns_ok _
    · rwa [closing_cons hend]

theorem ends_nil (records : List Record) : ¬ Ends [] records := by
  rintro ⟨-, rest, h⟩
  cases records <;> cases h

theorem ends_cons {record : Record} (h : record ≠ .endOfFile) {lines : List Line}
    {records : List Record} :
    Ends (.ok record :: lines) records ↔ ∃ more, records = record :: more ∧ Ends lines more := by
  constructor
  · rintro ⟨hmem, rest, heq⟩
    obtain - | ⟨first, more⟩ := records
    · cases heq
      exact absurd rfl h
    · rw [List.map_cons, List.cons_append, List.cons.injEq] at heq
      obtain ⟨hfirst, heq⟩ := heq
      cases hfirst
      exact ⟨more, rfl, fun hin => hmem (List.mem_cons_of_mem _ hin), rest, heq⟩
  · rintro ⟨more, rfl, hmem, rest, rfl⟩
    refine ⟨?_, rest, rfl⟩
    rw [List.mem_cons, not_or]
    exact ⟨h.symm, hmem⟩

/-- There is exactly one way to end, and the loop finds it. -/
theorem ends_iff {lines : List Line} {records : List Record} :
    Ends lines records ↔ records = leading lines ∧ closing lines = .ok true := by
  induction lines generalizing records with
  | nil => exact iff_of_false (ends_nil records) (fun h => by cases h.2)
  | cons line lines ih =>
    obtain reason | record := line
    · refine iff_of_false ?_ (fun h => by cases h.2)
      rintro ⟨-, rest, heq⟩
      cases records <;> cases heq
    by_cases hend : record = .endOfFile
    · subst hend
      constructor
      · rintro ⟨hmem, rest, heq⟩
        obtain - | ⟨first, more⟩ := records
        · exact ⟨rfl, rfl⟩
        · cases heq
          exact absurd List.mem_cons_self hmem
      · rintro ⟨rfl, -⟩
        exact ⟨List.not_mem_nil, lines, rfl⟩
    · rw [ends_cons hend, leading_cons hend, closing_cons hend]
      constructor
      · rintro ⟨more, rfl, hends⟩
        obtain ⟨rfl, hclosing⟩ := ih.mp hends
        exact ⟨rfl, hclosing⟩
      · rintro ⟨rfl, hclosing⟩
        exact ⟨_, rfl, ih.mpr ⟨rfl, hclosing⟩⟩

theorem untilEof_ends {σ : Type} {step : σ → Record → Run σ} {s t : σ} {lines : List Line}
    (hrun : (leading lines).foldlM step s = .ok t) :
    untilEof step s lines = .ok (t, true) ∧ Ends lines (leading lines) ∨
      (untilEof step s lines = .ok (t, false) ∨
        ∃ chain, untilEof step s lines = .error (.error chain)) ∧
      ∀ records, ¬ Ends lines records := by
  rw [untilEof_eq, hrun, ok_bind]
  cases hclosing : closing lines with
  | error e =>
    obtain ⟨chain, hchain⟩ := (closing_returns lines).fails_iff.mpr (by simp [hclosing])
    rw [hclosing] at hchain
    refine .inr ⟨.inr ⟨chain, by rw [hchain]; rfl⟩, fun records hends => ?_⟩
    rw [ends_iff, hclosing] at hends
    cases hends.2
  | ok seen =>
    cases seen with
    | false =>
      refine .inr ⟨.inl rfl, fun records hends => ?_⟩
      rw [ends_iff, hclosing] at hends
      cases hends.2
    | true => exact .inl ⟨rfl, ends_iff.mpr ⟨rfl, hclosing⟩⟩

theorem Ends.unique {lines : List Line} {records more : List Record} (h : Ends lines records)
    (hmore : Ends lines more) : records = more :=
  (ends_iff.mp h).1.trans (ends_iff.mp hmore).1.symm

end MotaTool.IntelHex
