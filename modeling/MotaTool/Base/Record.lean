import MotaTool.Base.Overlay
import MotaTool.Base.Run

/-!
# Records with fields at fixed offsets

A record is written field by field into a buffer and read field by field out
of one. When the fields tile a range, each of them starting where the one
before ends, writing all of them replaces exactly that range, and the range is
the concatenation of the fields read from it.
-/

namespace MotaTool.Base

universe u

variable {α : Type u}

def copyAt (buf : List α) (off : ℕ) (bytes : List α) : Run (List α) :=
  if off + bytes.length ≤ buf.length then
    .ok (buf.take off ++ (bytes ++ buf.drop (off + bytes.length)))
  else Run.panic

def writeFields (buf : List α) (fields : List (ℕ × List α)) : Run (List α) :=
  fields.foldlM (fun buf field => copyAt buf field.1 field.2) buf

def fieldBytes (fields : List (ℕ × List α)) : List α := fields.flatMap Prod.snd

/-- The fields cover the range from `start` to `stop` without a gap or an overlap. -/
inductive Tiles : ℕ → List (ℕ × List α) → ℕ → Prop
  | nil {start : ℕ} : Tiles start [] start
  | cons {start stop : ℕ} {bytes : List α} {fields : List (ℕ × List α)} :
      Tiles (start + bytes.length) fields stop → Tiles start ((start, bytes) :: fields) stop

theorem tiles_nil {start stop : ℕ} : Tiles start ([] : List (ℕ × List α)) stop ↔ start = stop := by
  constructor
  · rintro ⟨⟩
    rfl
  · rintro rfl
    exact .nil

theorem tiles_cons {start off stop : ℕ} {bytes : List α} {fields : List (ℕ × List α)} :
    Tiles start ((off, bytes) :: fields) stop ↔
      off = start ∧ Tiles (start + bytes.length) fields stop := by
  constructor
  · intro h
    cases h with
    | cons hrest => exact ⟨rfl, hrest⟩
  · rintro ⟨rfl, hrest⟩
    exact .cons hrest

theorem fieldBytes_cons (off : ℕ) (bytes : List α) (fields : List (ℕ × List α)) :
    fieldBytes ((off, bytes) :: fields) = bytes ++ fieldBytes fields := List.flatMap_cons

theorem fieldBytes_append (fields more : List (ℕ × List α)) :
    fieldBytes (fields ++ more) = fieldBytes fields ++ fieldBytes more := List.flatMap_append

theorem Tiles.length {start stop : ℕ} {fields : List (ℕ × List α)}
    (h : Tiles start fields stop) : start + (fieldBytes fields).length = stop := by
  induction h with
  | nil => rfl
  | cons _ ih =>
    rw [fieldBytes_cons, List.length_append]
    omega

theorem copyAt_overlay {written original bytes : List α} {off : ℕ} (hoff : off = written.length)
    (h : off + bytes.length ≤ original.length) :
    copyAt (overlay written original) off bytes =
      .ok (overlay (written ++ bytes) original) := by
  subst hoff
  have hlen := overlay_length (show written.length ≤ original.length by omega)
  have htake : (overlay written original).take written.length = written := overlay_take _ _
  have hdrop : (overlay written original).drop (written.length + bytes.length) =
      original.drop (written.length + bytes.length) := by
    rw [overlay, ← List.drop_drop, List.drop_left, List.drop_drop]
  rw [copyAt, if_pos (by omega), htake, hdrop, overlay, List.length_append, List.append_assoc]

theorem Tiles.write {written original : List α} {stop : ℕ} {fields : List (ℕ × List α)}
    (h : Tiles written.length fields stop) (hstop : stop ≤ original.length) :
    writeFields (overlay written original) fields =
      .ok (overlay (written ++ fieldBytes fields) original) := by
  induction fields generalizing written with
  | nil => simp [writeFields, fieldBytes]
  | cons field fields ih =>
    obtain ⟨off, bytes⟩ := field
    obtain ⟨rfl, hrest⟩ := tiles_cons.mp h
    have hlen := hrest.length
    have hfit : written.length + bytes.length ≤ original.length := by omega
    rw [← List.length_append] at hrest
    rw [writeFields, List.foldlM_cons, copyAt_overlay rfl hfit, Run.ok_bind, ← writeFields,
      ih hrest, fieldBytes_cons, List.append_assoc]

theorem Tiles.read_back {start stop : ℕ} {fields : List (ℕ × List α)} (h : Tiles start fields stop)
    {off : ℕ} {bytes : List α} (hmem : (off, bytes) ∈ fields) :
    start ≤ off ∧ ((fieldBytes fields).drop (off - start)).take bytes.length = bytes := by
  induction h with
  | nil => simp at hmem
  | @cons start stop first fields hrest ih =>
    rw [fieldBytes_cons]
    rcases List.mem_cons.mp hmem with heq | hmem
    · cases heq
      refine ⟨Nat.le_refl _, ?_⟩
      rw [Nat.sub_self, List.drop_zero, List.take_left]
    · obtain ⟨hle, hread⟩ := ih hmem
      refine ⟨by omega, ?_⟩
      have hsub : off - start = first.length + (off - (start + first.length)) := by omega
      rw [hsub, ← List.drop_drop, List.drop_left, hread]

theorem Tiles.read_front {stop : ℕ} {fields : List (ℕ × List α)} (h : Tiles 0 fields stop)
    {off : ℕ} {bytes : List α} (hmem : (off, bytes) ∈ fields) (rest : List α) :
    ((fieldBytes fields ++ rest).drop off).take bytes.length = bytes := by
  obtain ⟨-, hread⟩ := h.read_back hmem
  rw [Nat.sub_zero] at hread
  have hfit : bytes.length ≤ ((fieldBytes fields).drop off).length := by
    calc bytes.length = (((fieldBytes fields).drop off).take bytes.length).length := by rw [hread]
      _ ≤ ((fieldBytes fields).drop off).length := List.length_take_le' _ _
  rw [List.drop_append, List.take_append_of_le_length hfit, hread]

theorem fieldBytes_inj {fields more : List (ℕ × List α)}
    (hlen : fields.map (fun f => f.2.length) = more.map (fun f => f.2.length))
    (h : fieldBytes fields = fieldBytes more) : fields.map Prod.snd = more.map Prod.snd := by
  induction fields generalizing more with
  | nil =>
    rw [List.map_nil, eq_comm, List.map_eq_nil_iff] at hlen
    rw [hlen]
  | cons field fields ih =>
    obtain - | ⟨other, more⟩ := more
    · simp at hlen
    · simp only [List.map_cons, List.cons.injEq] at hlen
      obtain ⟨hhead, htail⟩ := List.append_inj h hlen.1
      rw [List.map_cons, List.map_cons, hhead, ih hlen.2 htail]

theorem Tiles.read {start stop : ℕ} {fields : List (ℕ × List α)} (h : Tiles start fields stop)
    {v : List α} (hread : ∀ field ∈ fields, field.2 = (v.drop field.1).take field.2.length) :
    fieldBytes fields = (v.drop start).take (stop - start) := by
  induction h with
  | nil => simp [fieldBytes]
  | @cons start stop bytes fields hrest ih =>
    have hlen := hrest.length
    have hhead := hread (start, bytes) List.mem_cons_self
    have htail := ih fun field hfield => hread field (List.mem_cons_of_mem _ hfield)
    have hsplit : stop - start = bytes.length + (stop - (start + bytes.length)) := by omega
    rw [fieldBytes_cons, htail, hsplit, List.take_add, List.drop_drop]
    congr 1

end MotaTool.Base
