import MotaTool.Base.Run
import Mathlib.Data.Nat.Bitwise
import Mathlib.Tactic.Ring

/-!
# Byte strings: indexing, slicing, fixed widths and little-endian words

Indexing and slicing panic out of range. A byte array of a fixed length is a
subtype, so that a value of the wrong length cannot be built. Words are read
and written least significant byte first, and the masks the codecs use are
restated as division and remainder.
-/

namespace MotaTool.Base

open Run

universe u

variable {α : Type u}

abbrev Bytes := List UInt8

abbrev Octets (n : ℕ) := {bytes : Bytes // bytes.length = n}

def index (v : List α) (i : ℕ) : Run α := unwrap v[i]?

def slice (v : List α) (lo hi : ℕ) : Run (List α) :=
  if lo ≤ hi ∧ hi ≤ v.length then .ok ((v.drop lo).take (hi - lo)) else Run.panic

def store (v : List α) (i : ℕ) (a : α) : Run (List α) :=
  if i < v.length then .ok (v.set i a) else Run.panic

theorem store_ok {v : List α} {i : ℕ} (h : i < v.length) (a : α) :
    store v i a = .ok (v.set i a) := if_pos h

theorem index_ok {v : List α} {i : ℕ} (h : i < v.length) : index v i = .ok v[i] := by
  simp [index, unwrap, List.getElem?_eq_getElem h]

theorem index_eq_ok {v : List α} {i : ℕ} {a : α} : index v i = .ok a ↔ v[i]? = some a := by
  simp [index]

theorem index_take {v : List α} {i : ℕ} {a : α} (h : index v i = .ok a) :
    [a] = (v.drop i).take 1 := by
  obtain ⟨hlt, rfl⟩ := List.getElem?_eq_some_iff.mp (index_eq_ok.mp h)
  rw [List.drop_eq_getElem_cons hlt, List.take_succ_cons, List.take_zero]

theorem index_of_take {v : List α} {i : ℕ} {a : α} (h : [a] = (v.drop i).take 1) :
    index v i = .ok a := by
  rw [List.take_one, List.head?_drop] at h
  rw [index_eq_ok]
  cases hi : v[i]? with
  | none => simp [hi] at h
  | some b => simp_all

theorem slice_ok {v : List α} {lo hi : ℕ} (h : lo ≤ hi) (hv : hi ≤ v.length) :
    slice v lo hi = .ok ((v.drop lo).take (hi - lo)) := if_pos ⟨h, hv⟩

theorem slice_eq_ok {v w : List α} {lo hi : ℕ} :
    slice v lo hi = .ok w ↔ lo ≤ hi ∧ hi ≤ v.length ∧ w = (v.drop lo).take (hi - lo) := by
  unfold slice
  split_ifs with h
  · simp [h, eq_comm]
  · simp only [Run.panic, reduceCtorEq, false_iff]
    tauto

theorem slice_returns {v : List α} {lo hi : ℕ} (h : lo ≤ hi) (hv : hi ≤ v.length) :
    Returns (slice v lo hi) := by simp [slice_ok h hv]

theorem index_returns {v : List α} {i : ℕ} (h : i < v.length) : Returns (index v i) := by
  simp [index_ok h]

theorem slice_length {v w : List α} {lo hi : ℕ} (h : slice v lo hi = .ok w) :
    w.length = hi - lo := by
  obtain ⟨hlo, hhi, rfl⟩ := slice_eq_ok.mp h
  simp
  omega

theorem slice_behind (a v : List α) (lo hi : ℕ) :
    slice (a ++ v) (a.length + lo) (a.length + hi) = slice v lo hi := by
  unfold slice
  rw [List.length_append, List.drop_length_add_append, Nat.add_sub_add_left]
  simp only [Nat.add_le_add_iff_left]

def octets (n : ℕ) (v : Bytes) (off : ℕ) : Run (Octets n) :=
  if h : ((v.drop off).take n).length = n then .ok ⟨(v.drop off).take n, h⟩ else Run.panic

theorem take_drop_length {n : ℕ} {v : Bytes} {off : ℕ} (h : off + n ≤ v.length) :
    ((v.drop off).take n).length = n := by
  rw [List.length_take, List.length_drop]
  omega

theorem octets_ok {n : ℕ} {v : Bytes} {off : ℕ} (h : off + n ≤ v.length) :
    octets n v off = .ok ⟨(v.drop off).take n, take_drop_length h⟩ :=
  dif_pos (take_drop_length h)

theorem octets_returns {n : ℕ} {v : Bytes} {off : ℕ} (h : off + n ≤ v.length) :
    Returns (octets n v off) := by simp [octets_ok h]

theorem octets_eq_ok {n : ℕ} {v : Bytes} {off : ℕ} {w : Octets n} :
    octets n v off = .ok w ↔ w.val = (v.drop off).take n := by
  unfold octets
  split_ifs with h
  · simp [Subtype.ext_iff, eq_comm]
  · simp only [Run.panic, reduceCtorEq, false_iff]
    intro hw
    exact h (hw ▸ w.property)

theorem Octets.length_val {n : ℕ} (w : Octets n) : w.val.length = n := w.property

def Octets.zero (n : ℕ) : Octets n := ⟨List.replicate n 0, List.length_replicate⟩

def Octets.padded (n : ℕ) (bytes : Bytes) : Octets n :=
  ⟨(bytes ++ List.replicate n 0).take n, by simp⟩

theorem Octets.padded_val {n : ℕ} {bytes : Bytes} (h : bytes.length ≤ n) :
    (Octets.padded n bytes).val = bytes ++ List.replicate (n - bytes.length) 0 := by
  simp [Octets.padded, List.take_append, List.take_of_length_le h]

theorem Octets.padded_take (n : ℕ) (bytes : Bytes) : (Octets.padded n bytes).val =
    bytes.take n ++ List.replicate (n - (bytes.take n).length) 0 := by
  change (bytes ++ List.replicate n 0).take n = _
  rw [List.take_append, List.take_replicate, List.length_take]
  congr 2
  omega

section Padding

variable {a b : Bytes} {k l : ℕ}

theorem takeWhile_padded (k : ℕ) (h : ∀ x ∈ a, x ≠ 0) :
    (a ++ List.replicate k 0).takeWhile (fun x => decide (x ≠ 0)) = a ∧
      (a ++ List.replicate k 0).dropWhile (fun x => decide (x ≠ 0)) = List.replicate k 0 := by
  have hall : ∀ x ∈ a, decide (x ≠ 0) = true := fun x hx => decide_eq_true (h x hx)
  have hzeros : (List.replicate k (0 : UInt8)).takeWhile (fun x => decide (x ≠ 0)) = [] := by
    cases k <;> rfl
  have hkept : (List.replicate k (0 : UInt8)).dropWhile (fun x => decide (x ≠ 0)) =
      List.replicate k 0 := by
    cases k <;> rfl
  rw [List.takeWhile_append_of_pos hall, List.dropWhile_append_of_pos hall, hzeros, hkept,
    List.append_nil]
  exact ⟨rfl, rfl⟩

theorem padding_injective (ha : ∀ x ∈ a, x ≠ 0) (hb : ∀ x ∈ b, x ≠ 0)
    (h : a ++ List.replicate k 0 = b ++ List.replicate l 0) : a = b := by
  rw [← (takeWhile_padded k ha).1, h, (takeWhile_padded l hb).1]

theorem padded_injective {n : ℕ} (ha : ∀ x ∈ a, x ≠ 0) (hb : ∀ x ∈ b, x ≠ 0)
    (hal : a.length ≤ n) (hbl : b.length ≤ n) (h : Octets.padded n a = Octets.padded n b) :
    a = b := by
  have hval := congrArg Subtype.val h
  rw [Octets.padded_val hal, Octets.padded_val hbl] at hval
  exact padding_injective ha hb hval

end Padding

section LittleEndian

def toLe : ℕ → ℕ → Bytes
  | 0, _ => []
  | width + 1, n => UInt8.ofNat n :: toLe width (n / 256)

def ofLe : Bytes → ℕ
  | [] => 0
  | b :: rest => b.toNat + 256 * ofLe rest

@[simp] theorem toLe_length (width n : ℕ) : (toLe width n).length = width := by
  induction width generalizing n with
  | zero => rfl
  | succ width ih => simp [toLe, ih]

theorem ofLe_lt (bytes : Bytes) : ofLe bytes < 256 ^ bytes.length := by
  induction bytes with
  | nil => simp [ofLe]
  | cons b rest ih =>
    have hb := b.toNat_lt
    rw [ofLe, List.length_cons, pow_succ]
    omega

theorem ofLe_toLe {width n : ℕ} (h : n < 256 ^ width) : ofLe (toLe width n) = n := by
  induction width generalizing n with
  | zero => simp only [pow_zero] at h; simp only [toLe, ofLe]; omega
  | succ width ih =>
    have hdiv : n / 256 < 256 ^ width := by
      rw [Nat.div_lt_iff_lt_mul (by norm_num), ← pow_succ]
      exact h
    rw [toLe, ofLe, ih hdiv, UInt8.toNat_ofNat']
    omega

theorem toLe_mod (width n : ℕ) : toLe width (n % 256 ^ width) = toLe width n := by
  induction width generalizing n with
  | zero => rfl
  | succ width ih =>
    have hlow : UInt8.ofNat (n % 256 ^ (width + 1)) = UInt8.ofNat n := by
      apply UInt8.toNat_inj.mp
      rw [UInt8.toNat_ofNat', UInt8.toNat_ofNat']
      exact Nat.mod_mod_of_dvd n (Dvd.intro_left (256 ^ width) rfl)
    have hhigh : n % 256 ^ (width + 1) / 256 = n / 256 % 256 ^ width := by
      rw [pow_succ, Nat.mul_comm, Nat.mod_mul_right_div_self]
    rw [toLe, hlow, hhigh, ih, toLe]

theorem toLe_ofLe (bytes : Bytes) : toLe bytes.length (ofLe bytes) = bytes := by
  induction bytes with
  | nil => rfl
  | cons b rest ih =>
    have hb := b.toNat_lt
    have hlow : UInt8.ofNat (b.toNat + 256 * ofLe rest) = b := by
      apply UInt8.toNat_inj.mp
      rw [UInt8.toNat_ofNat']
      omega
    have hhigh : (b.toNat + 256 * ofLe rest) / 256 = ofLe rest := by omega
    rw [List.length_cons, ofLe, toLe, hlow, hhigh, ih]

end LittleEndian

section Masks

theorem toNat_and_3f (b : UInt8) : (b &&& 0x3f).toNat = b.toNat % 64 := by
  rw [UInt8.toNat_and]
  exact Nat.and_two_pow_sub_one_eq_mod b.toNat 6

theorem toNat_and_7f (b : UInt8) : (b &&& 0x7f).toNat = b.toNat % 128 := by
  rw [UInt8.toNat_and]
  exact Nat.and_two_pow_sub_one_eq_mod b.toNat 7

theorem toNat_or_80 {b : UInt8} (h : b.toNat < 128) : (b ||| 0x80).toNat = b.toNat + 128 := by
  have hor := Nat.two_pow_add_eq_or_of_lt (i := 7) h 1
  rw [UInt8.toNat_or, Nat.or_comm]
  exact hor.symm.trans (by omega)

theorem toNat_or_40 {b : UInt8} (h : b.toNat < 64) : (0x40 ||| b).toNat = b.toNat + 64 := by
  have hor := Nat.two_pow_add_eq_or_of_lt (i := 6) h 1
  rw [UInt8.toNat_or]
  exact hor.symm.trans (by omega)

theorem and_80_ne_zero (b : UInt8) : b &&& 0x80 ≠ 0 ↔ 128 ≤ b.toNat := by
  have hall : ∀ i : Fin 256, i.val &&& 128 = i.val / 128 * 128 := by decide +kernel
  have hb := hall ⟨b.toNat, b.toNat_lt⟩
  rw [ne_eq, ← UInt8.toNat_inj, UInt8.toNat_and]
  change ¬ b.toNat &&& 128 = 0 ↔ _
  simp only at hb
  have hlt := b.toNat_lt
  omega

theorem and_40_ne_zero (b : UInt8) : b &&& 0x40 ≠ 0 ↔ 64 ≤ b.toNat % 128 := by
  have hall : ∀ i : Fin 256, i.val &&& 64 = i.val % 128 / 64 * 64 := by decide +kernel
  have hb := hall ⟨b.toNat, b.toNat_lt⟩
  rw [ne_eq, ← UInt8.toNat_inj, UInt8.toNat_and]
  change ¬ b.toNat &&& 64 = 0 ↔ _
  simp only at hb
  omega

end Masks

end MotaTool.Base
