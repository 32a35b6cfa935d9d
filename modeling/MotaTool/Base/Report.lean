import MotaTool.Base.Decimal

/-!
# Values inside a line

A line of a report puts values between texts. Two lines that are equal have
equal values where the values are of one length, and where a number ends
because the text after it goes on with another character.
-/

namespace MotaTool.Base

variable {a b s t : String} {n m : ℕ}

theorem fixed_head (hlength : a.toList.length = b.toList.length) (h : a ++ s = b ++ t) :
    a = b ∧ s = t := by
  have hchars := congrArg String.toList h
  rw [String.toList_append, String.toList_append] at hchars
  obtain ⟨hhead, htail⟩ := List.append_inj hchars hlength
  exact ⟨String.toList_injective hhead, String.toList_injective htail⟩

theorem fixed_tail (hlength : s.toList.length = t.toList.length) (h : a ++ s = b ++ t) :
    s = t := by
  have hchars := congrArg String.toList h
  rw [String.toList_append, String.toList_append] at hchars
  exact String.toList_injective (List.append_inj' hchars hlength).2

theorem repr_injective (h : n.repr = m.repr) : n = m := by
  have hdigits := congrArg String.toList h
  rw [Nat.toList_repr, Nat.toList_repr] at hdigits
  rw [← decimal_toDigits n, hdigits, decimal_toDigits]

theorem number_head (h : n.repr ++ (" " ++ s) = m.repr ++ (" " ++ t)) : n = m := by
  have hdigit : ∀ k : ℕ, ∀ ch ∈ Nat.toDigits 10 k, ch.isDigit = true := fun k ch hch =>
    Nat.isDigit_of_mem_toDigits (by decide) (by decide) hch
  have htake : ∀ (k : ℕ) (u : String),
      (k.repr ++ (" " ++ u)).toList.takeWhile Char.isDigit = Nat.toDigits 10 k := fun k u => by
    rw [String.toList_append, Nat.toList_repr, String.toList_append,
      List.takeWhile_append_of_pos (hdigit k)]
    simp
  have hdigits := htake n s
  rw [h, htake] at hdigits
  rw [← decimal_toDigits n, ← hdigits, decimal_toDigits]

end MotaTool.Base
