import MotaTool.Base.Decimal
import MotaTool.Build.Assemble

/-!
# Version strings

`packVersion` reads one to four dot-separated components into the bytes of a
word from the top down; `versionStr` prints the first three and the fourth
unless it is zero. The grammar is stated on the components alone, and every
word is read back from what is printed for it.
-/

namespace MotaTool.Build

open Base Run

section Reading

variable (escaped : Char → Bool)

def packToken (s : String) (state : List UInt32 × ℕ) (tok : List Char) :
    Run (List UInt32 × ℕ) := do
  let (parts, n) := state
  ensure (n ≠ parts.length) s!"too many version components: {quoted escaped s}"
  ensure (tok ≠ [] ∧ (utf8 (String.ofList tok)).all isAsciiDigit = true)
    s!"bad version: {quoted escaped s}"
  let value ← ofOption (parseU32 tok) s!"version component too large: {quoted escaped s}"
  ensure (value ≤ 255) s!"version component exceeds 255: {quoted escaped s}"
  let parts ← store parts n (UInt32.ofNat value)
  .ok (parts, n + 1)

def joinParts (s : String) (state : List UInt32 × ℕ) : Run UInt32 := do
  let (parts, n) := state
  ensure (n ≠ 0) s!"bad version: {quoted escaped s}"
  let first ← index parts 0
  let second ← index parts 1
  let third ← index parts 2
  let fourth ← index parts 3
  .ok ((first <<< 24) ||| (second <<< 16) ||| (third <<< 8) ||| fourth)

def packVersion (s : String) : Run UInt32 := do
  let state ← (s.toList.splitOn '.').foldlM (packToken escaped s) (List.replicate 4 0, 0)
  joinParts escaped s state

end Reading

structure Component (tok : List Char) : Prop where
  nonempty : tok ≠ []
  digits : ∀ ch ∈ tok, ch.isDigit = true
  byte : decimal tok ≤ 255

/-- The string consists of these components with dots between them. -/
structure VersionOf (s : String) (toks : List (List Char)) : Prop where
  dotted : s.toList = ['.'].intercalate toks
  count : 1 ≤ toks.length ∧ toks.length ≤ 4
  components : ∀ tok ∈ toks, Component tok

def versionValue (toks : List (List Char)) : ℕ :=
  (toks.zipIdx.map fun (tok, i) => decimal tok * 256 ^ (3 - i)).sum

section Reading

variable {escaped : Char → Bool} {s : String} {tok : List Char} {toks : List (List Char)}

theorem Component.no_dot (h : Component tok) : '.' ∉ tok := fun hmem =>
  absurd (h.digits '.' hmem) (by decide)

theorem versionOf_iff : VersionOf s toks ↔ toks = s.toList.splitOn '.' ∧ toks.length ≤ 4 ∧
    ∀ tok ∈ toks, Component tok := by
  constructor
  · rintro ⟨hdotted, ⟨hpos, hlen⟩, hcomponents⟩
    have hne : toks ≠ [] := List.length_pos_iff.mp hpos
    refine ⟨?_, hlen, hcomponents⟩
    rw [hdotted, List.splitOn_intercalate '.' (fun tok htok => (hcomponents tok htok).no_dot) hne]
  · rintro ⟨rfl, hlen, hcomponents⟩
    refine ⟨(List.intercalate_splitOn '.').symm, ⟨?_, hlen⟩, hcomponents⟩
    exact List.length_pos_iff.mpr (List.splitOn_ne_nil _ _)

def filled (values : List UInt32) : List UInt32 × ℕ :=
  (values ++ List.replicate (4 - values.length) 0, values.length)

def component (tok : List Char) : UInt32 := UInt32.ofNat (decimal tok)

theorem filled_set {values : List UInt32} (hlen : values.length < 4) (value : UInt32) :
    ((filled values).1.set values.length value, values.length + 1) =
      filled (values ++ [value]) := by
  have hzeros : 4 - values.length = 4 - (values.length + 1) + 1 := by omega
  rw [filled, filled, List.set_append_right _ _ le_rfl, Nat.sub_self, hzeros, List.replicate_succ,
    List.set_cons_zero, List.length_append, List.length_singleton, List.append_assoc]
  rfl

theorem packToken_eq_ok {values : List UInt32} (hlen : values.length ≤ 4)
    {next : List UInt32 × ℕ} : packToken escaped s (filled values) tok = .ok next ↔
      values.length < 4 ∧ Component tok ∧ next = filled (values ++ [component tok]) := by
  have hparts : (filled values).1.length = 4 := by
    rw [filled, List.length_append, List.length_replicate]
    omega
  have hcount : (filled values).2 = values.length := rfl
  simp only [packToken, bind_eq_ok, ensure_eq_ok, exists_unit, ofOption_eq_ok, hparts, hcount,
    utf8_digits_iff]
  constructor
  · rintro ⟨hroom, ⟨hne, hdigits⟩, value, hvalue, hbyte, parts, hstore, hnext⟩
    have hlt : values.length < 4 := by omega
    rw [parseU32_digits hne hdigits] at hvalue
    split_ifs at hvalue with hfit
    cases hvalue
    rw [store_ok (by omega)] at hstore
    cases hstore
    cases hnext
    exact ⟨hlt, ⟨hne, hdigits, hbyte⟩, filled_set hlt _⟩
  · rintro ⟨hlt, hcomponent, rfl⟩
    have hbyte := hcomponent.byte
    refine ⟨by omega, ⟨hcomponent.nonempty, hcomponent.digits⟩, decimal tok, ?_, hbyte, _,
      store_ok (by omega) _, ?_⟩
    · rw [parseU32_digits hcomponent.nonempty hcomponent.digits, if_pos (by omega)]
    · rw [← filled_set hlt]
      rfl

theorem packTokens_eq_ok {values : List UInt32} (hlen : values.length ≤ 4)
    {last : List UInt32 × ℕ} : toks.foldlM (packToken escaped s) (filled values) = .ok last ↔
      values.length + toks.length ≤ 4 ∧ (∀ tok ∈ toks, Component tok) ∧
        last = filled (values ++ toks.map component) := by
  induction toks generalizing values with
  | nil => simp [hlen, eq_comm]
  | cons tok toks ih =>
    rw [List.foldlM_cons, bind_eq_ok]
    have hlonger : (values ++ [component tok]).length = values.length + 1 := by
      rw [List.length_append, List.length_singleton]
    constructor
    · rintro ⟨next, hstep, hrest⟩
      obtain ⟨hlt, hcomponent, rfl⟩ := (packToken_eq_ok hlen).mp hstep
      obtain ⟨hcount, hcomponents, rfl⟩ := (ih (by omega)).mp hrest
      refine ⟨by rw [List.length_cons]; omega, List.forall_mem_cons.mpr ⟨hcomponent, hcomponents⟩,
        ?_⟩
      rw [List.append_assoc, List.singleton_append, List.map_cons]
    · rintro ⟨hcount, hcomponents, rfl⟩
      rw [List.length_cons] at hcount
      obtain ⟨hcomponent, hcomponents⟩ := List.forall_mem_cons.mp hcomponents
      refine ⟨_, (packToken_eq_ok hlen).mpr ⟨by omega, hcomponent, rfl⟩,
        (ih (by omega)).mpr ⟨by omega, hcomponents, ?_⟩⟩
      rw [List.append_assoc, List.singleton_append, List.map_cons]

theorem packTokens_start {last : List UInt32 × ℕ} :
    toks.foldlM (packToken escaped s) (List.replicate 4 0, 0) = .ok last ↔
      toks.length ≤ 4 ∧ (∀ tok ∈ toks, Component tok) ∧ last = filled (toks.map component) := by
  have hstart : (List.replicate 4 0, 0) = filled [] := rfl
  rw [hstart, packTokens_eq_ok (Nat.zero_le _), List.length_nil, Nat.zero_add, List.nil_append]

end Reading

theorem or_toNat {x y : UInt32} {n k : ℕ} (hx : x.toNat = 2 ^ k * n) (hy : y.toNat < 2 ^ k) :
    (x ||| y).toNat = x.toNat + y.toNat := by
  rw [UInt32.toNat_or, hx, Nat.two_pow_add_eq_or_of_lt hy]

theorem joined_toNat {a b c d : UInt32} (ha : a.toNat ≤ 255) (hb : b.toNat ≤ 255)
    (hc : c.toNat ≤ 255) (hd : d.toNat ≤ 255) :
    ((a <<< 24) ||| (b <<< 16) ||| (c <<< 8) ||| d).toNat =
      a.toNat * 256 ^ 3 + b.toNat * 256 ^ 2 + c.toNat * 256 + d.toNat := by
  have htop : (a <<< 24).toNat = a.toNat * 2 ^ 24 := by
    simp only [UInt32.toNat_shiftLeft, UInt32.reduceToNat, Nat.reduceMod, Nat.shiftLeft_eq]
    omega
  have hmid : (b <<< 16).toNat = b.toNat * 2 ^ 16 := by
    simp only [UInt32.toNat_shiftLeft, UInt32.reduceToNat, Nat.reduceMod, Nat.shiftLeft_eq]
    omega
  have hlow : (c <<< 8).toNat = c.toNat * 2 ^ 8 := by
    simp only [UInt32.toNat_shiftLeft, UInt32.reduceToNat, Nat.reduceMod, Nat.shiftLeft_eq]
    omega
  have h1 := @or_toNat (a <<< 24) (b <<< 16) a.toNat 24 (by omega) (by omega)
  have h2 := @or_toNat (a <<< 24 ||| b <<< 16) (c <<< 8) (a.toNat * 256 + b.toNat) 16 (by omega)
    (by omega)
  have h3 := @or_toNat (a <<< 24 ||| b <<< 16 ||| c <<< 8) d
    (a.toNat * 65536 + b.toNat * 256 + c.toNat) 8 (by omega) (by omega)
  omega

theorem component_toNat {tok : List Char} (h : decimal tok ≤ 255) :
    (component tok).toNat = decimal tok := by
  rw [component, UInt32.toNat_ofNat']
  omega

theorem weights_cons (tok : List Char) (toks : List (List Char)) (i : ℕ) :
    (((tok :: toks).zipIdx i).map fun (tok, i) => decimal tok * 256 ^ (3 - i)).sum =
      decimal tok * 256 ^ (3 - i) +
        ((toks.zipIdx (i + 1)).map fun (tok, i) => decimal tok * 256 ^ (3 - i)).sum := by
  rw [List.zipIdx_cons, List.map_cons, List.sum_cons]

theorem versionValue_four (a b c d : List Char) : versionValue [a, b, c, d] =
    decimal a * 256 ^ 3 + (decimal b * 256 ^ 2 + (decimal c * 256 + decimal d)) := by
  have hsum : versionValue [a, b, c, d] = decimal a * 256 ^ 3 + (decimal b * 256 ^ 2 +
      (decimal c * 256 ^ 1 + (decimal d * 256 ^ 0 + 0))) := by
    rw [versionValue, weights_cons, weights_cons, weights_cons, weights_cons, List.zipIdx_nil,
      List.map_nil, List.sum_nil]
  rw [hsum, Nat.pow_one, Nat.pow_zero, Nat.mul_one, Nat.add_zero]

section Parts

variable {escaped : Char → Bool} {toks : List (List Char)}

def padded (toks : List (List Char)) : List (List Char) :=
  toks ++ List.replicate (4 - toks.length) []

theorem filled_padded (toks : List (List Char)) :
    (filled (toks.map component)).1 = (padded toks).map component := by
  rw [filled, padded, List.map_append, List.map_replicate, List.length_map]
  rfl

theorem versionValue_padded (toks : List (List Char)) :
    versionValue (padded toks) = versionValue toks := by
  have hempty : ∀ n k, (((List.replicate n ([] : List Char)).zipIdx k).map
      fun (tok, i) => decimal tok * 256 ^ (3 - i)).sum = 0 := by
    intro n
    induction n with
    | zero => intro k; rfl
    | succ n ih =>
      intro k
      rw [List.replicate_succ, List.zipIdx_cons, List.map_cons, List.sum_cons, ih]
      exact Nat.zero_mul _
  rw [versionValue, padded, List.zipIdx_append, List.map_append, List.sum_append, hempty]
  rfl

theorem versionValue_three (a b c : List Char) : versionValue [a, b, c] =
    decimal a * 256 ^ 3 + (decimal b * 256 ^ 2 + decimal c * 256) := by
  have hfourth : padded [a, b, c] = [a, b, c, []] := rfl
  have hnone : decimal [] = 0 := rfl
  rw [← versionValue_padded, hfourth, versionValue_four, hnone, Nat.add_zero]

theorem padded_joined (hlen : toks.length ≤ 4) (h : ∀ tok ∈ toks, Component tok) :
    ∃ a b c d, (padded toks).map component = [a, b, c, d] ∧
      ((a <<< 24) ||| (b <<< 16) ||| (c <<< 8) ||| d).toNat = versionValue toks := by
  have hbyte : ∀ tok ∈ padded toks, decimal tok ≤ 255 := by
    intro tok htok
    rcases List.mem_append.mp htok with htok | htok
    · exact (h tok htok).byte
    · rw [(List.mem_replicate.mp htok).2]
      decide
  have hfour : (padded toks).length = 4 := by
    rw [padded, List.length_append, List.length_replicate]
    omega
  rw [← versionValue_padded]
  obtain ⟨a, b, c, d, hpadded⟩ := List.length_eq_four.mp hfour
  rw [hpadded] at hbyte ⊢
  simp only [List.forall_mem_cons] at hbyte
  obtain ⟨ha, hb, hc, hd, -⟩ := hbyte
  have hva := component_toNat ha
  have hvb := component_toNat hb
  have hvc := component_toNat hc
  have hvd := component_toNat hd
  refine ⟨_, _, _, _, rfl, ?_⟩
  rw [joined_toNat (by omega) (by omega) (by omega) (by omega), hva, hvb, hvc, hvd,
    versionValue_four, Nat.add_assoc, Nat.add_assoc]

theorem joinParts_yields (s : String) (hne : toks ≠ []) (hlen : toks.length ≤ 4)
    (h : ∀ tok ∈ toks, Component tok) :
    Yields (joinParts escaped s (filled (toks.map component)))
      fun v => v.toNat = versionValue toks := by
  obtain ⟨a, b, c, d, hparts, hvalue⟩ := padded_joined hlen h
  rw [← filled_padded] at hparts
  have hcount : (filled (toks.map component)).2 = toks.length := List.length_map _
  have hnonzero : toks.length ≠ 0 := fun hzero => hne (List.length_eq_zero_iff.mp hzero)
  simp only [joinParts, hparts, hcount]
  rw [ensure_of hnonzero]
  exact Yields.ok hvalue

theorem packVersion_yields {s : String} (h : VersionOf s toks) :
    Yields (packVersion escaped s) fun v => v.toNat = versionValue toks := by
  have hne : s.toList.splitOn '.' ≠ [] := List.splitOn_ne_nil _ _
  obtain ⟨rfl, hcount, hcomponents⟩ := versionOf_iff.mp h
  have hrun := (@packTokens_start escaped s _ _).mpr ⟨hcount, hcomponents, rfl⟩
  rw [packVersion, hrun, ok_bind]
  exact joinParts_yields s hne hcount hcomponents

theorem versionOf_of_ok {s : String} {v : UInt32} (h : packVersion escaped s = .ok v) :
    VersionOf s (s.toList.splitOn '.') := by
  obtain ⟨last, hrun, -⟩ := bind_eq_ok.mp h
  obtain ⟨hcount, hcomponents, -⟩ := packTokens_start.mp hrun
  exact versionOf_iff.mpr ⟨rfl, hcount, hcomponents⟩

end Parts

def printed (v : UInt32) : List ℕ :=
  let high := [(v >>> 24).toNat, ((v >>> 16) &&& 0xff).toNat, ((v >>> 8) &&& 0xff).toNat]
  if (v &&& 0xff).toNat = 0 then high else high ++ [(v &&& 0xff).toNat]

theorem versionStr_dotted (v : UInt32) :
    (versionStr v).toList = ['.'].intercalate ((printed v).map (Nat.toDigits 10)) := by
  have htext : ∀ s : String, toString s = s := fun _ => rfl
  rw [versionStr, printed]
  split_ifs <;> simp [htext]

theorem and_ff (w : UInt32) : (w &&& 0xff).toNat = w.toNat % 256 := by
  rw [UInt32.toNat_and]
  exact Nat.and_two_pow_sub_one_eq_mod w.toNat 8

theorem bytes_toNat (v : UInt32) : (v >>> 24).toNat = v.toNat / 2 ^ 24 ∧
    (v >>> 16).toNat = v.toNat / 2 ^ 16 ∧ (v >>> 8).toNat = v.toNat / 2 ^ 8 := by
  simp only [UInt32.toNat_shiftRight, UInt32.reduceToNat, Nat.reduceMod,
    Nat.shiftRight_eq_div_pow, and_self]

theorem printed_byte {v : UInt32} {n : ℕ} (h : n ∈ printed v) : n ≤ 255 := by
  have hlt := v.toNat_lt
  obtain ⟨htop, hmid, hlow⟩ := bytes_toNat v
  simp only [printed, and_ff, htop, hmid, hlow] at h
  split_ifs at h
  · simp only [List.mem_cons, List.not_mem_nil, or_false] at h
    omega
  · simp only [List.cons_append, List.nil_append, List.mem_cons, List.not_mem_nil, or_false] at h
    omega

theorem component_printed {n : ℕ} (h : n ≤ 255) : Component (Nat.toDigits 10 n) :=
  ⟨Nat.toDigits_ne_nil, fun _ hch => Nat.isDigit_of_mem_toDigits (by decide) le_rfl hch,
    (decimal_toDigits n).trans_le h⟩

theorem printed_value (v : UInt32) :
    versionValue ((printed v).map (Nat.toDigits 10)) = v.toNat := by
  obtain ⟨htop, hmid, hlow⟩ := bytes_toNat v
  simp only [printed, and_ff, htop, hmid, hlow]
  split_ifs with hzero
  · rw [List.map_cons, List.map_cons, List.map_cons, List.map_nil, versionValue_three,
      decimal_toDigits, decimal_toDigits, decimal_toDigits]
    omega
  · rw [List.cons_append, List.cons_append, List.cons_append, List.nil_append, List.map_cons,
      List.map_cons, List.map_cons, List.map_cons, List.map_nil, versionValue_four,
      decimal_toDigits, decimal_toDigits, decimal_toDigits, decimal_toDigits]
    omega

theorem versionOf_printed (v : UInt32) :
    VersionOf (versionStr v) ((printed v).map (Nat.toDigits 10)) := by
  refine ⟨versionStr_dotted v, ?_, fun tok htok => ?_⟩
  · rw [List.length_map, printed]
    split_ifs <;> simp
  · obtain ⟨n, hn, rfl⟩ := List.mem_map.mp htok
    exact component_printed (printed_byte hn)

theorem packVersion_versionStr {escaped : Char → Bool} (v : UInt32) :
    packVersion escaped (versionStr v) = .ok v := by
  obtain ⟨w, hread, hvalue⟩ := packVersion_yields (versionOf_printed v)
  obtain rfl : w = v := UInt32.toNat_inj.mp (hvalue.trans (printed_value v))
  exact hread

/-- A string is read exactly when it follows the grammar, and then to what its components weigh;
every word is read back from its print, and no two words are printed alike. -/
theorem version_grammar (escaped : Char → Bool) :
    (∀ s, (∃ v, packVersion escaped s = .ok v) ↔ ∃ toks, VersionOf s toks) ∧
      (∀ s toks v, VersionOf s toks → packVersion escaped s = .ok v → v.toNat = versionValue toks) ∧
      (∀ v, packVersion escaped (versionStr v) = .ok v) ∧ Function.Injective versionStr := by
  refine ⟨fun s => ⟨?_, ?_⟩, ?_, packVersion_versionStr, ?_⟩
  · rintro ⟨v, hread⟩
    exact ⟨_, versionOf_of_ok hread⟩
  · rintro ⟨toks, hversion⟩
    obtain ⟨v, hread, -⟩ := packVersion_yields hversion
    exact ⟨v, hread⟩
  · intro s toks v hversion hread
    exact (packVersion_yields hversion).of_ok hread
  · intro v w hsame
    have hv := @packVersion_versionStr escaped v
    rw [hsame, packVersion_versionStr w] at hv
    exact (Except.ok.inj hv).symm

end MotaTool.Build
