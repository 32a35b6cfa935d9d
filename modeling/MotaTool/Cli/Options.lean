import MotaTool.Build.Version
import MotaTool.Cli.Keys

/-!
# Numbers of the command line

A number is decimal, or hexadecimal behind `0x`, with an optional plus sign. It
is read digit by digit with checked arithmetic, and every number the program
prints in one of the two forms is read back.
-/

namespace MotaTool.Cli

open Base Run Build Serve

def toDigit (radix : ℕ) (ch : Char) : Option ℕ :=
  let n := ch.toNat
  let d :=
    if 48 ≤ n ∧ n ≤ 57 then n - 48
    else if 97 ≤ n ∧ n ≤ 122 then n - 97 + 10
    else if 65 ≤ n ∧ n ≤ 90 then n - 65 + 10
    else radix
  if d < radix then some d else none

def foldDigits (radix : ℕ) : List Char → ℕ → Except String ℕ
  | [], value => .ok value
  | ch :: rest, value =>
    match toDigit radix ch with
    | none => .error "invalid digit found in string"
    | some d =>
      match (checkedMul 32 value radix).bind fun scaled => checkedAdd 32 scaled d with
      | none => .error "number too large to fit in target type"
      | some value => foldDigits radix rest value

/-- `u32::from_str_radix`. A sign alone is an invalid digit, and so is a minus sign. -/
def fromStrRadix (radix : ℕ) : List Char → Except String ℕ
  | [] => .error "cannot parse integer from empty string"
  | ['+'] => .error "invalid digit found in string"
  | '+' :: rest => foldDigits radix rest 0
  | chars => foldDigits radix chars 0

def hexPrefix : List Char → Option (List Char)
  | '0' :: 'x' :: rest => some rest
  | '0' :: 'X' :: rest => some rest
  | _ => none

def parseU32Auto (escaped : Char → Bool) (s : String) : Run UInt32 :=
  let s := trim s
  let parsed := match hexPrefix s.toList with
    | some hex => fromStrRadix 16 hex
    | none => fromStrRadix 10 s.toList
  match parsed with
  | .ok value => .ok (UInt32.ofNat value)
  | .error cause => .error (.error [s!"not a valid number: {quoted escaped s}", cause])

def digitsValue (radix : ℕ) (digits : List ℕ) (value : ℕ) : ℕ :=
  digits.foldl (fun value d => value * radix + d) value

def Numeral (radix : ℕ) (chars : List Char) (value : ℕ) : Prop :=
  ∃ text digits, (chars = text ∨ chars = '+' :: text) ∧ text ≠ [] ∧
    text.map (toDigit radix) = digits.map some ∧ digitsValue radix digits 0 = value ∧
    value < 2 ^ 32

def NumberText (chars : List Char) (value : ℕ) : Prop :=
  (∃ hex, (chars = '0' :: 'x' :: hex ∨ chars = '0' :: 'X' :: hex) ∧ Numeral 16 hex value) ∨
    Numeral 10 chars value

section Numbers

variable {radix value v : ℕ} {chars : List Char}

theorem le_digitsValue (hradix : 0 < radix) (digits : List ℕ) (value : ℕ) :
    value ≤ digitsValue radix digits value := by
  induction digits generalizing value with
  | nil => exact Nat.le_refl value
  | cons d digits ih =>
    have hscale := Nat.le_mul_of_pos_right value hradix
    exact le_trans (Nat.le_add_right_of_le hscale) (ih (value * radix + d))

theorem digits_cons {ch : Char} {d : ℕ} (hdigit : toDigit radix ch = some d) :
    (∃ digits, (ch :: chars).map (toDigit radix) = digits.map some ∧
      digitsValue radix digits value = v ∧ v < 2 ^ 32) ↔
    ∃ digits, chars.map (toDigit radix) = digits.map some ∧
      digitsValue radix digits (value * radix + d) = v ∧ v < 2 ^ 32 := by
  constructor
  · rintro ⟨digits, hdigits, hv⟩
    cases digits with
    | nil => cases hdigits
    | cons e digits =>
      rw [List.map_cons, List.map_cons, hdigit] at hdigits
      obtain ⟨he, hrest⟩ := List.cons.inj hdigits
      obtain rfl := Option.some.inj he
      exact ⟨digits, hrest, hv⟩
  · rintro ⟨digits, hdigits, hv⟩
    exact ⟨d :: digits, by rw [List.map_cons, List.map_cons, hdigit, hdigits], hv⟩

theorem digits_ne {ch : Char} (hdigit : toDigit radix ch = none) (digits : List ℕ) :
    (ch :: chars).map (toDigit radix) ≠ digits.map some := by
  intro h
  cases digits with
  | nil => cases h
  | cons d digits =>
    rw [List.map_cons, List.map_cons, hdigit] at h
    cases (List.cons.inj h).1

theorem foldDigits_ok (hradix : 0 < radix) (hvalue : value < 2 ^ 32) :
    foldDigits radix chars value = .ok v ↔ ∃ digits, chars.map (toDigit radix) = digits.map some ∧
      digitsValue radix digits value = v ∧ v < 2 ^ 32 := by
  induction chars generalizing value with
  | nil =>
    rw [foldDigits, Except.ok.injEq]
    constructor
    · rintro rfl
      exact ⟨[], rfl, rfl, hvalue⟩
    · rintro ⟨digits, hdigits, rfl, -⟩
      obtain rfl := List.map_eq_nil_iff.mp hdigits.symm
      rfl
  | cons ch chars ih =>
    rw [foldDigits]
    cases hdigit : toDigit radix ch with
    | none =>
      simp only [reduceCtorEq, false_iff]
      rintro ⟨digits, hdigits, -⟩
      exact digits_ne hdigit digits hdigits
    | some d =>
      rw [digits_cons hdigit]
      by_cases hfit : value * radix + d < 2 ^ 32
      · have hmul : checkedMul 32 value radix = some (value * radix) := if_pos (by omega)
        have hadd : checkedAdd 32 (value * radix) d = some (value * radix + d) := if_pos hfit
        simp only [hmul, hadd, Option.bind_some]
        exact ih hfit
      · have hnone : (checkedMul 32 value radix).bind (fun scaled => checkedAdd 32 scaled d) =
            none := by
          rw [checkedMul]
          split_ifs with hmul
          · exact if_neg hfit
          · rfl
        simp only [hnone, reduceCtorEq, false_iff]
        rintro ⟨digits, -, rfl, hv⟩
        have hgrow := le_digitsValue hradix digits (value * radix + d)
        omega

theorem fromStrRadix_ok (hradix : 0 < radix) (hplus : toDigit radix '+' = none) :
    fromStrRadix radix chars = .ok v ↔ Numeral radix chars v := by
  unfold fromStrRadix
  split
  · simp only [reduceCtorEq, false_iff]
    rintro ⟨text, digits, rfl | htext, hne, -⟩
    · exact hne rfl
    · cases htext
  · simp only [reduceCtorEq, false_iff]
    rintro ⟨text, digits, rfl | htext, hne, hdigits, -⟩
    · exact digits_ne hplus digits hdigits
    · exact hne (List.cons.inj htext).2.symm
  · next rest hrest =>
    rw [foldDigits_ok hradix (by decide)]
    constructor
    · rintro ⟨digits, hdigits, hv⟩
      exact ⟨rest, digits, .inr rfl, fun hnil => hrest hnil, hdigits, hv⟩
    · rintro ⟨text, digits, rfl | htext, hne, hdigits, hv⟩
      · exact absurd hdigits (digits_ne hplus digits)
      · obtain rfl := (List.cons.inj htext).2
        exact ⟨digits, hdigits, hv⟩
  · next hempty hsign hrest =>
    rw [foldDigits_ok hradix (by decide)]
    constructor
    · rintro ⟨digits, hdigits, hv⟩
      exact ⟨chars, digits, .inl rfl, hempty, hdigits, hv⟩
    · rintro ⟨text, digits, rfl | rfl, hne, hdigits, hv⟩
      · exact ⟨digits, hdigits, hv⟩
      · exact absurd rfl (hrest text)

theorem hexPrefix_eq_some {hex : List Char} :
    hexPrefix chars = some hex ↔ chars = '0' :: 'x' :: hex ∨ chars = '0' :: 'X' :: hex := by
  unfold hexPrefix
  split
  · simp
  · simp
  · next hlower hupper =>
    simp only [reduceCtorEq, false_iff, not_or]
    exact ⟨hlower hex, hupper hex⟩

theorem Numeral.plain (h : Numeral 10 chars v) : hexPrefix chars = none := by
  apply Option.eq_none_iff_forall_ne_some.mpr
  intro hex hhex
  obtain ⟨text, digits, htext, -, hdigits, hvalue⟩ := h
  have hx : toDigit 10 'x' = none := rfl
  have hX : toDigit 10 'X' = none := rfl
  have hzero : toDigit 10 '0' = some 0 := rfl
  rcases hexPrefix_eq_some.mp hhex with rfl | rfl
  · rcases htext with rfl | htext
    · obtain ⟨rest, hrest, -⟩ := (digits_cons hzero).mp ⟨digits, hdigits, hvalue⟩
      exact digits_ne hx rest hrest
    · exact absurd (List.cons.inj htext).1 (by decide)
  · rcases htext with rfl | htext
    · obtain ⟨rest, hrest, -⟩ := (digits_cons hzero).mp ⟨digits, hdigits, hvalue⟩
      exact digits_ne hX rest hrest
    · exact absurd (List.cons.inj htext).1 (by decide)

def Prints (radix : ℕ) (digit : ℕ → Char) (printed : ℕ → List Char) : Prop :=
  (∀ d < radix, toDigit radix (digit d) = some d) ∧
    ∀ n, printed n =
      if n < radix then [digit n] else printed (n / radix) ++ [digit (n % radix)]

theorem prints_decimal : Prints 10 Nat.digitChar (Nat.toDigits 10) :=
  ⟨by decide, fun n => Nat.toDigits_eq_if (by decide)⟩

theorem prints_hex : Prints 16 hexChar hexDigits := ⟨by decide, hexDigits_eq⟩

theorem Prints.digits {digit : ℕ → Char} {printed : ℕ → List Char}
    (h : Prints radix digit printed) (hradix : 1 < radix) (n : ℕ) : ∃ digits,
      (printed n).map (toDigit radix) = digits.map some ∧ digitsValue radix digits 0 = n := by
  induction n using Nat.strong_induction_on with
  | _ n ih =>
    rw [h.2 n]
    by_cases hn : n < radix
    · rw [if_pos hn]
      exact ⟨[n], by rw [List.map_singleton, h.1 n hn, List.map_singleton],
        by simp [digitsValue]⟩
    · have hpos : 0 < n := by omega
      have hrest : n / radix < n := Nat.div_lt_self hpos hradix
      obtain ⟨digits, hdigits, hvalue⟩ := ih (n / radix) hrest
      have hlast : n % radix < radix := Nat.mod_lt n (by omega)
      refine ⟨digits ++ [n % radix], ?_, ?_⟩
      · rw [if_neg hn, List.map_append, List.map_append, hdigits, List.map_singleton,
          h.1 _ hlast, List.map_singleton]
      · rw [digitsValue] at hvalue ⊢
        rw [List.foldl_append, hvalue]
        exact Nat.div_add_mod' n radix

theorem Prints.numeral {digit : ℕ → Char} {printed : ℕ → List Char}
    (h : Prints radix digit printed) (hradix : 1 < radix) (n : UInt32) :
    Numeral radix (printed n.toNat) n.toNat := by
  obtain ⟨digits, hdigits, hvalue⟩ := h.digits hradix n.toNat
  refine ⟨printed n.toNat, digits, .inl rfl, ?_, hdigits, hvalue, n.toNat_lt⟩
  rw [h.2]
  split_ifs
  · exact List.cons_ne_nil _ _
  · exact List.append_ne_nil_of_right_ne_nil _ (List.cons_ne_nil _ _)

theorem toDigit_solid {ch : Char} {d : ℕ} (h : toDigit radix ch = some d) :
    isWhitespace ch = false := by
  have hrange : 48 ≤ ch.toNat ∧ ch.toNat ≤ 122 := by
    simp only [toDigit] at h
    split_ifs at h <;> omega
  simp only [isWhitespace, Bool.or_eq_false_iff, Bool.and_eq_false_iff, decide_eq_false_iff_not,
    beq_eq_false_iff_ne]
  omega

theorem Numeral.solid (h : Numeral radix chars v) :
    chars ≠ [] ∧ ∀ ch ∈ chars, isWhitespace ch = false := by
  obtain ⟨text, digits, hchars, hne, hdigits, -⟩ := h
  have htext : ∀ ch ∈ text, isWhitespace ch = false := by
    intro ch hch
    have hmem := List.mem_map_of_mem (f := toDigit radix) hch
    rw [hdigits] at hmem
    obtain ⟨d, -, hd⟩ := List.mem_map.mp hmem
    exact toDigit_solid hd.symm
  rcases hchars with rfl | rfl
  · exact ⟨hne, htext⟩
  · exact ⟨List.cons_ne_nil _ _, List.forall_mem_cons.mpr ⟨rfl, htext⟩⟩

theorem Numeral.lt (h : Numeral radix chars v) : v < 2 ^ 32 := by
  obtain ⟨text, digits, -, -, -, -, hlt⟩ := h
  exact hlt

theorem NumberText.solid (h : NumberText chars v) :
    chars ≠ [] ∧ ∀ ch ∈ chars, isWhitespace ch = false := by
  rcases h with ⟨hex, hchars, hhex⟩ | hdecimal
  · obtain ⟨-, hsolid⟩ := hhex.solid
    rcases hchars with rfl | rfl
    · exact ⟨List.cons_ne_nil _ _,
        List.forall_mem_cons.mpr ⟨rfl, List.forall_mem_cons.mpr ⟨rfl, hsolid⟩⟩⟩
    · exact ⟨List.cons_ne_nil _ _,
        List.forall_mem_cons.mpr ⟨rfl, List.forall_mem_cons.mpr ⟨rfl, hsolid⟩⟩⟩
  · exact hdecimal.solid

theorem NumberText.lt (h : NumberText chars v) : v < 2 ^ 32 := by
  rcases h with ⟨hex, -, hhex⟩ | hdecimal
  · exact hhex.lt
  · exact hdecimal.lt

theorem radixOf_ok : (match hexPrefix chars with
      | some hex => fromStrRadix 16 hex
      | none => fromStrRadix 10 chars) = .ok v ↔ NumberText chars v := by
  cases hprefix : hexPrefix chars with
  | some hex =>
    rw [fromStrRadix_ok (by decide) rfl]
    constructor
    · exact fun h => .inl ⟨hex, hexPrefix_eq_some.mp hprefix, h⟩
    · rintro (⟨hex', hchars, h⟩ | h)
      · rw [hexPrefix_eq_some.mpr hchars] at hprefix
        cases hprefix
        exact h
      · rw [h.plain] at hprefix
        cases hprefix
  | none =>
    rw [fromStrRadix_ok (by decide) rfl]
    constructor
    · exact .inr
    · rintro (⟨hex, hchars, h⟩ | h)
      · rw [hexPrefix_eq_some.mpr hchars] at hprefix
        cases hprefix
      · exact h

theorem parseU32Auto_ok {escaped : Char → Bool} {s : String} {n : UInt32} :
    parseU32Auto escaped s = .ok n ↔
    NumberText (trim s).toList n.toNat := by
  rw [parseU32Auto, ← radixOf_ok]
  cases hparsed : (match hexPrefix (trim s).toList with
    | some hex => fromStrRadix 16 hex
    | none => fromStrRadix 10 (trim s).toList) with
  | error cause => simp
  | ok read =>
    have hread := (radixOf_ok.mp hparsed).lt
    simp only [Except.ok.injEq]
    constructor
    · rintro rfl
      rw [UInt32.toNat_ofNat', Nat.mod_eq_of_lt hread]
    · rintro rfl
      exact UInt32.ofNat_toNat

end Numbers

/-- An option is a number exactly when it holds one between white space, in decimal or in
hexadecimal behind `0x`, that fits 32 bits; every number printed in either form is read back, and
the error quotes the trimmed text. -/
theorem parseU32Auto_exact (escaped : Char → Bool) (s : String) :
    (∀ n, parseU32Auto escaped s = .ok n ↔ ∃ before text after, s.toList = before ++ text ++ after ∧
      (∀ ch ∈ before, isWhitespace ch = true) ∧ (∀ ch ∈ after, isWhitespace ch = true) ∧
      NumberText text n.toNat) ∧
    (∀ n : UInt32, s = String.ofList (Nat.toDigits 10 n.toNat) ∨ s = "0x" ++ hex32 n →
      parseU32Auto escaped s = .ok n) ∧
    ((∃ n, parseU32Auto escaped s = .ok n) ∨ ∃ cause, parseU32Auto escaped s =
      .error (.error [s!"not a valid number: {quoted escaped (trim s)}", cause])) := by
  have hexact : ∀ n, parseU32Auto escaped s = .ok n ↔ ∃ before text after,
      s.toList = before ++ text ++ after ∧ (∀ ch ∈ before, isWhitespace ch = true) ∧
      (∀ ch ∈ after, isWhitespace ch = true) ∧ NumberText text n.toNat := by
    intro n
    rw [parseU32Auto_ok, trim, String.toList_ofList]
    constructor
    · intro h
      obtain ⟨before, after, hsplit, hbefore, hafter⟩ := trimWhile_split isWhitespace s.toList
      exact ⟨before, _, after, hsplit, hbefore, hafter, h⟩
    · rintro ⟨before, text, after, hs, hbefore, hafter, h⟩
      obtain ⟨hne, hsolid⟩ := h.solid
      rwa [hs, trimWhile_append hbefore hafter hsolid hne]
  refine ⟨hexact, fun n hprinted => ?_, ?_⟩
  · have htext : NumberText s.toList n.toNat := by
      rcases hprinted with rfl | rfl
      · rw [String.toList_ofList]
        exact .inr (prints_decimal.numeral (by decide) n)
      · have hlist : ("0x" ++ hex32 n).toList = '0' :: 'x' :: hexDigits n.toNat := by
          rw [String.toList_append, hex32, hexUpper]
          exact congrArg _ String.toList_ofList
        rw [hlist]
        exact .inl ⟨_, .inl rfl, prints_hex.numeral (by decide) n⟩
    exact (hexact n).mpr ⟨[], s.toList, [], by simp, by simp, by simp, htext⟩
  · unfold parseU32Auto
    dsimp only
    split
    · exact .inl ⟨_, rfl⟩
    · next cause _ => exact .inr ⟨cause, rfl⟩

end MotaTool.Cli
