import MotaTool.Base.Record
import Mathlib.Order.Bounds.Defs
import Mathlib.Order.MinMax

/-!
# Cells placed at addresses

A chunk is a list of cells with the address of the first one. Chunks may leave
holes and may overlap. `Places` is the relation between addresses and the cells
some chunk puts there, which does not depend on the order of the chunks;
`lastCell` is the function in which the last chunk to reach an address decides.
-/

namespace MotaTool.Base

variable {α : Type*}

def cellAt (chunk : ℕ × List α) (a : ℕ) : Option α :=
  if chunk.1 ≤ a then chunk.2[a - chunk.1]? else none

def Places (chunks : List (ℕ × List α)) (a : ℕ) (x : α) : Prop :=
  ∃ chunk ∈ chunks, cellAt chunk a = some x

/-- The last chunk that reaches the address. -/
def lastCell (chunks : List (ℕ × List α)) (a : ℕ) : Option α :=
  chunks.reverse.findSome? fun chunk => cellAt chunk a

variable {chunk : ℕ × List α} {chunks more : List (ℕ × List α)} {a : ℕ} {x : α}

theorem cellAt_eq_some : cellAt chunk a = some x ↔ ∃ i, a = chunk.1 + i ∧ chunk.2[i]? = some x := by
  unfold cellAt
  constructor
  · intro h
    split_ifs at h with hle
    exact ⟨a - chunk.1, (Nat.add_sub_cancel' hle).symm, h⟩
  · rintro ⟨i, rfl, hx⟩
    rw [if_pos (Nat.le_add_right _ _), Nat.add_sub_cancel_left, hx]

theorem cellAt_inside (h : cellAt chunk a = some x) :
    chunk.1 ≤ a ∧ a < chunk.1 + chunk.2.length := by
  obtain ⟨i, rfl, hx⟩ := cellAt_eq_some.mp h
  have hi := (List.getElem?_eq_some_iff.mp hx).1
  omega

theorem places_append :
    Places (chunks ++ more) a x ↔ Places chunks a x ∨ Places more a x := by
  unfold Places
  constructor
  · rintro ⟨chunk, hmem, hx⟩
    rcases List.mem_append.mp hmem with hmem | hmem
    · exact .inl ⟨chunk, hmem, hx⟩
    · exact .inr ⟨chunk, hmem, hx⟩
  · rintro (⟨chunk, hmem, hx⟩ | ⟨chunk, hmem, hx⟩)
    · exact ⟨chunk, List.mem_append_left _ hmem, hx⟩
    · exact ⟨chunk, List.mem_append_right _ hmem, hx⟩

theorem places_singleton : Places [chunk] a x ↔ cellAt chunk a = some x := by
  simp [Places]

theorem Places.perm (hperm : chunks.Perm more) (h : Places chunks a x) : Places more a x := by
  obtain ⟨chunk, hmem, hx⟩ := h
  exact ⟨chunk, hperm.mem_iff.mp hmem, hx⟩

theorem lastCell_append_singleton :
    lastCell (chunks ++ [chunk]) a = (cellAt chunk a).or (lastCell chunks a) := by
  rw [lastCell, List.reverse_append, List.reverse_singleton, List.singleton_append,
    List.findSome?_cons]
  cases cellAt chunk a <;> rfl

/-- The least start and the greatest end of the chunks, of which there is one. -/
structure Spans (chunks : List (ℕ × List α)) (lo hi : ℕ) : Prop where
  lo : IsLeast {start | ∃ chunk ∈ chunks, chunk.1 = start} lo
  hi : IsGreatest {stop | ∃ chunk ∈ chunks, chunk.1 + chunk.2.length = stop} hi

theorem spans_singleton (chunk : ℕ × List α) :
    Spans [chunk] chunk.1 (chunk.1 + chunk.2.length) := by
  refine ⟨⟨⟨chunk, List.mem_singleton_self _, rfl⟩, ?_⟩,
    ⟨⟨chunk, List.mem_singleton_self _, rfl⟩, ?_⟩⟩
  · rintro start ⟨other, hmem, rfl⟩
    exact (List.mem_singleton.mp hmem ▸ Nat.le_refl _)
  · rintro stop ⟨other, hmem, rfl⟩
    exact (List.mem_singleton.mp hmem ▸ Nat.le_refl _)

theorem Spans.append {lo hi : ℕ} (h : Spans chunks lo hi) (chunk : ℕ × List α) :
    Spans (chunks ++ [chunk]) (min lo chunk.1) (max hi (chunk.1 + chunk.2.length)) := by
  obtain ⟨⟨⟨first, hfirst, hlo⟩, hlow⟩, ⟨⟨last, hlast, hhi⟩, hhigh⟩⟩ := h
  refine ⟨⟨?_, ?_⟩, ⟨?_, ?_⟩⟩
  · rcases min_choice lo chunk.1 with hmin | hmin <;> rw [hmin]
    · exact ⟨first, List.mem_append_left _ hfirst, hlo⟩
    · exact ⟨chunk, by simp, rfl⟩
  · rintro start ⟨other, hmem, rfl⟩
    rcases List.mem_append.mp hmem with hmem | hmem
    · exact Nat.le_trans (min_le_left _ _) (hlow ⟨other, hmem, rfl⟩)
    · rw [List.mem_singleton.mp hmem]
      exact min_le_right _ _
  · rcases max_choice hi (chunk.1 + chunk.2.length) with hmax | hmax <;> rw [hmax]
    · exact ⟨last, List.mem_append_left _ hlast, hhi⟩
    · exact ⟨chunk, by simp, rfl⟩
  · rintro stop ⟨other, hmem, rfl⟩
    rcases List.mem_append.mp hmem with hmem | hmem
    · exact Nat.le_trans (hhigh ⟨other, hmem, rfl⟩) (le_max_left _ _)
    · rw [List.mem_singleton.mp hmem]
      exact le_max_right _ _

theorem Spans.inside {lo hi : ℕ} (h : Spans chunks lo hi) (hmem : chunk ∈ chunks) :
    lo ≤ chunk.1 ∧ chunk.1 + chunk.2.length ≤ hi :=
  ⟨h.lo.2 ⟨chunk, hmem, rfl⟩, h.hi.2 ⟨chunk, hmem, rfl⟩⟩

theorem Spans.le {lo hi : ℕ} (h : Spans chunks lo hi) : lo ≤ hi := by
  obtain ⟨chunk, hmem, -⟩ := h.lo.1
  obtain ⟨hlow, hhigh⟩ := h.inside hmem
  exact Nat.le_trans hlow (Nat.le_trans (Nat.le_add_right _ _) hhigh)

theorem cellAt_shift {lo : ℕ} (hlow : lo ≤ chunk.1) (ha : lo ≤ a) :
    cellAt (chunk.1 - lo, chunk.2) (a - lo) = cellAt chunk a := by
  unfold cellAt
  by_cases h : chunk.1 ≤ a
  · rw [if_pos h, if_pos (by dsimp only; omega)]
    congr 1
    dsimp only
    omega
  · rw [if_neg h, if_neg (by dsimp only; omega)]

theorem copyAt_cells {buf : List α} (h : chunk.1 + chunk.2.length ≤ buf.length) :
    ∃ out, copyAt buf chunk.1 chunk.2 = .ok out ∧ out.length = buf.length ∧
      ∀ i, out[i]? = (cellAt chunk i).or buf[i]? := by
  refine ⟨_, if_pos h, ?_, ?_⟩
  · simp only [List.length_append, List.length_take, List.length_drop]
    omega
  intro i
  have hfront : (buf.take chunk.1).length = chunk.1 := by
    rw [List.length_take]
    omega
  by_cases hlow : chunk.1 ≤ i
  · rw [List.getElem?_append_right (by omega), hfront, cellAt, if_pos hlow]
    by_cases hhigh : i < chunk.1 + chunk.2.length
    · rw [List.getElem?_append_left (by omega), List.getElem?_eq_getElem (by omega)]
      rfl
    · rw [List.getElem?_append_right (by omega), List.getElem?_drop,
        List.getElem?_eq_none (by omega : chunk.2.length ≤ i - chunk.1)]
      congr 1
      omega
  · rw [List.getElem?_append_left (by omega), List.getElem?_take_of_lt (by omega), cellAt,
      if_neg hlow]
    rfl

end MotaTool.Base
