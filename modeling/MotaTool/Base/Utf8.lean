import MotaTool.Base.Text

/-!
# Decoding an encoded text

The lossy decoder returns a text from its own encoding. The encoder of the
language splits a character into a lead byte and continuation bytes of six bits
each, and the step of the decoder accepts exactly that lead and those bytes:
the overlong and the surrogate ranges it refuses hold no character.
-/

namespace MotaTool.Base

theorem isCont_iff (b : UInt8) : isCont b = true ↔ 128 ≤ b.toNat ∧ b.toNat ≤ 191 := by
  simp [isCont, UInt8.le_iff_toNat_le]

theorem secondOk_iff (lead b : UInt8) : secondOk lead b = true ↔ isCont b = true ∧
    (lead = 0xe0 → 160 ≤ b.toNat) ∧ (lead = 0xed → b.toNat ≤ 159) ∧
    (lead = 0xf0 → 144 ≤ b.toNat) ∧ (lead = 0xf4 → b.toNat ≤ 143) := by
  unfold secondOk
  split_ifs with h1 h2 h3 h4
  · subst h1
    simp [isCont_iff, UInt8.le_iff_toNat_le]
    omega
  · subst h2
    simp [isCont_iff, UInt8.le_iff_toNat_le]
    omega
  · subst h3
    simp [isCont_iff, UInt8.le_iff_toNat_le]
    omega
  · subst h4
    simp [isCont_iff, UInt8.le_iff_toNat_le]
    omega
  · simp [h1, h2, h3, h4]

theorem leadWidth_eq (b : UInt8) : leadWidth b =
    if b.toNat < 128 then 1 else if 194 ≤ b.toNat ∧ b.toNat ≤ 223 then 2
    else if 224 ≤ b.toNat ∧ b.toNat ≤ 239 then 3
    else if 240 ≤ b.toNat ∧ b.toNat ≤ 244 then 4 else 0 := by
  simp [leadWidth, UInt8.le_iff_toNat_le, UInt8.lt_iff_toNat_lt]

theorem cont_toNat (x : ℕ) : (UInt8.ofNat (x % 64 + 128)).toNat = x % 64 + 128 :=
  by
  rw [UInt8.toNat_ofNat']
  omega

theorem isCont_cont (x : ℕ) : isCont (UInt8.ofNat (x % 64 + 128)) = true := by
  rw [isCont_iff, cont_toNat]
  omega

theorem contBits_cont (x : ℕ) : contBits (UInt8.ofNat (x % 64 + 128)) = x % 64 := by
  rw [contBits, cont_toNat]
  omega

theorem char_valid (c : Char) :
    c.toNat < 0xd800 ∨ 0xdfff < c.toNat ∧ c.toNat < 0x110000 := c.valid

section Widths

variable {lead a b d : UInt8} (rest : Bytes)

theorem decodeStep_one (h : leadWidth lead = 1) :
    decodeStep lead rest = (1, some (Char.ofNat lead.toNat)) := by
  simp [decodeStep, h]

theorem decodeStep_two (h : leadWidth lead = 2) (ha : isCont a = true) :
    decodeStep lead (a :: rest) =
      (2, some (Char.ofNat (lead.toNat % 32 * 64 + contBits a))) := by
  simp [decodeStep, h, ha]

theorem decodeStep_three (h : leadWidth lead = 3) (ha : secondOk lead a = true)
    (hb : isCont b = true) : decodeStep lead (a :: b :: rest) =
      (3, some (Char.ofNat (lead.toNat % 16 * 4096 + contBits a * 64 + contBits b))) := by
  simp [decodeStep, h, ha, hb]

theorem decodeStep_four (h : leadWidth lead = 4) (ha : secondOk lead a = true)
    (hb : isCont b = true) (hd : isCont d = true) : decodeStep lead (a :: b :: d :: rest) =
      (4, some (Char.ofNat (lead.toNat % 8 * 262144 + contBits a * 4096 + contBits b * 64 +
        contBits d))) := by
  simp [decodeStep, h, ha, hb, hd]

end Widths

theorem lead_toNat {v w : ℕ} {b : UInt8} (hb : b = UInt8.ofNat v) (h : v = w) (hw : w < 256) :
    b.toNat = w := by
  rw [hb, UInt8.toNat_ofNat']
  omega

theorem decodeStep_encode (c : Char) (rest : Bytes) : ∃ b tail,
    String.utf8EncodeChar c = b :: tail ∧
      decodeStep b (tail ++ rest) = (tail.length + 1, some c) := by
  have hvalid := char_valid c
  have hc := Char.ofNat_toNat c
  obtain ⟨v, hv⟩ : ∃ v, v = c.toNat := ⟨_, rfl⟩
  have hval : c.val.toNat = v := hv.symm
  rw [← hv] at hvalid hc
  unfold String.utf8EncodeChar
  simp only [hval]
  split_ifs with h1 h2 h3 <;> refine ⟨_, _, rfl, ?_⟩
  · have hlead : (UInt8.ofNat v).toNat = v := lead_toNat rfl rfl (by omega)
    have hwidth : leadWidth (UInt8.ofNat v) = 1 := by
      rw [leadWidth_eq, hlead, if_pos (by omega)]
    rw [List.nil_append, decodeStep_one _ hwidth, hlead, hc]
    rfl
  · obtain ⟨lead, hbyte⟩ : ∃ lead, lead = UInt8.ofNat (v / 64 % 0x20 + 0xc0) := ⟨_, rfl⟩
    have hlead : lead.toNat = v / 64 + 192 := lead_toNat hbyte (by omega) (by omega)
    have hwidth : leadWidth lead = 2 := by
      rw [leadWidth_eq, hlead, if_neg (by omega), if_pos (by omega)]
    have hbits : (v / 64 + 192) % 32 * 64 + v % 64 = v := by omega
    rw [← hbyte, List.singleton_append, decodeStep_two _ hwidth (isCont_cont v), hlead,
      contBits_cont, hbits, hc]
    rfl
  · obtain ⟨lead, hbyte⟩ : ∃ lead, lead = UInt8.ofNat (v / 4096 % 0x10 + 0xe0) := ⟨_, rfl⟩
    have hlead : lead.toNat = v / 4096 + 224 := lead_toNat hbyte (by omega) (by omega)
    have hwidth : leadWidth lead = 3 := by
      rw [leadWidth_eq, hlead, if_neg (by omega), if_neg (by omega), if_pos (by omega)]
    have hsecond : secondOk lead (UInt8.ofNat (v / 64 % 64 + 128)) = true := by
      rw [secondOk_iff]
      simp only [isCont_cont, cont_toNat, ← UInt8.toNat_inj, hlead, UInt8.reduceToNat, true_and]
      omega
    have hbits : (v / 4096 + 224) % 16 * 4096 + v / 64 % 64 * 64 + v % 64 = v := by omega
    rw [← hbyte, List.cons_append, List.singleton_append,
      decodeStep_three _ hwidth hsecond (isCont_cont v), hlead, contBits_cont, contBits_cont,
      hbits, hc]
    rfl
  · obtain ⟨lead, hbyte⟩ : ∃ lead, lead = UInt8.ofNat (v / 262144 % 0x08 + 0xf0) := ⟨_, rfl⟩
    have hlead : lead.toNat = v / 262144 + 240 := lead_toNat hbyte (by omega) (by omega)
    have hwidth : leadWidth lead = 4 := by
      rw [leadWidth_eq, hlead, if_neg (by omega), if_neg (by omega), if_neg (by omega),
        if_pos (by omega)]
    have hsecond : secondOk lead (UInt8.ofNat (v / 4096 % 64 + 128)) = true := by
      rw [secondOk_iff]
      simp only [isCont_cont, cont_toNat, ← UInt8.toNat_inj, hlead, UInt8.reduceToNat, true_and]
      omega
    have hbits : (v / 262144 + 240) % 8 * 262144 + v / 4096 % 64 * 4096 + v / 64 % 64 * 64 +
        v % 64 = v := by omega
    rw [← hbyte, List.cons_append, List.cons_append, List.singleton_append,
      decodeStep_four _ hwidth hsecond (isCont_cont _) (isCont_cont v), hlead, contBits_cont,
      contBits_cont, contBits_cont, hbits, hc]
    rfl

theorem lossyChars_encode (cs : List Char) (fuel : ℕ)
    (h : (cs.flatMap String.utf8EncodeChar).length ≤ fuel) :
    lossyChars fuel (cs.flatMap String.utf8EncodeChar) = cs := by
  induction cs generalizing fuel with
  | nil => cases fuel <;> rfl
  | cons c cs ih =>
    obtain ⟨b, tail, hencode, hstep⟩ := decodeStep_encode c (cs.flatMap String.utf8EncodeChar)
    rw [List.flatMap_cons, hencode, List.cons_append] at h ⊢
    rw [List.length_cons, List.length_append] at h
    obtain - | fuel := fuel
    · omega
    · rw [lossyChars, hstep]
      dsimp only
      rw [Option.getD_some, Nat.add_sub_cancel, List.drop_left, ih fuel (by omega)]

theorem utf8Lossy_utf8 (s : String) : utf8Lossy (utf8 s) = s := by
  have hbytes : utf8 s = s.toList.flatMap String.utf8EncodeChar := by
    rw [← utf8_ofList, String.ofList_toList]
  rw [utf8Lossy, hbytes, lossyChars_encode _ _ le_rfl, String.ofList_toList]

theorem utf8EncodeChar_ascii {c : Char} (h : c.toNat < 128) :
    String.utf8EncodeChar c = [UInt8.ofNat c.toNat] := by
  have hle : c.val ≤ 0x7f := UInt32.le_iff_toNat_le.mpr (Nat.le_of_lt_succ h)
  exact String.utf8EncodeChar_eq_singleton (if_pos hle)

theorem utf8EncodeChar_high {c : Char} (h : 128 ≤ c.toNat) {b : UInt8}
    (hb : b ∈ String.utf8EncodeChar c) : 128 ≤ b.toNat := by
  obtain ⟨v, hv⟩ : ∃ v, v = c.toNat := ⟨_, rfl⟩
  have hval : c.val.toNat = v := hv.symm
  rw [← hv] at h
  unfold String.utf8EncodeChar at hb
  simp only [hval] at hb
  split_ifs at hb with h1 h2 h3
  · omega
  all_goals
    simp only [List.mem_cons, List.not_mem_nil, or_false] at hb
    rcases hb with rfl | rfl | rfl | rfl <;> rw [UInt8.toNat_ofNat'] <;> omega

theorem ofNat_toNat {n : ℕ} (hvalid : n < 0xd800 ∨ 0xdfff < n ∧ n < 0x110000) :
    (Char.ofNat n).toNat = n := by
  rw [Char.ofNat, dif_pos hvalid]
  rfl

theorem secondOk_bits {lead a : UInt8} (h : secondOk lead a = true) :
    (128 ≤ a.toNat ∧ a.toNat ≤ 191) ∧ (lead.toNat = 224 → 32 ≤ contBits a) ∧
      (lead.toNat = 237 → contBits a ≤ 31) ∧ (lead.toNat = 240 → 16 ≤ contBits a) ∧
      (lead.toNat = 244 → contBits a ≤ 15) := by
  obtain ⟨hcont, he0, hed, hf0, hf4⟩ := (secondOk_iff lead a).mp h
  rw [isCont_iff] at hcont
  simp only [← UInt8.toNat_inj, UInt8.reduceToNat] at he0 hed hf0 hf4
  rw [contBits]
  omega

structure HighStep (rest : Bytes) (step : ℕ × Option Char) : Prop where
  char : 128 ≤ (step.2.getD '\uFFFD').toNat
  skipped : ∀ i < step.1 - 1, 128 ≤ (rest.getD i 0).toNat

theorem HighStep.take {rest : Bytes} {step : ℕ × Option Char} (h : HighStep rest step) {x : UInt8}
    (hx : x ∈ rest.take (step.1 - 1)) : 128 ≤ x.toNat := by
  obtain ⟨i, hi, rfl⟩ := List.mem_iff_getElem.mp hx
  rw [List.length_take] at hi
  have hhigh := h.skipped i (by omega)
  rw [List.getD_eq_getElem rest 0 (by omega)] at hhigh
  rwa [List.getElem_take]

theorem highStep_none {rest : Bytes} {n : ℕ} (h : ∀ i < n, 128 ≤ (rest.getD i 0).toNat) :
    HighStep rest (n + 1, none) := by
  have hchar : 128 ≤ '\uFFFD'.toNat := by decide
  exact ⟨hchar, h⟩

theorem highStep_some {rest : Bytes} {n v : ℕ} (hv : 128 ≤ v)
    (hvalid : v < 0xd800 ∨ 0xdfff < v ∧ v < 0x110000)
    (h : ∀ i < n, 128 ≤ (rest.getD i 0).toNat) : HighStep rest (n + 1, some (Char.ofNat v)) :=
  ⟨hv.trans_eq (ofNat_toNat hvalid).symm, h⟩

theorem decodeStep_ascii (b : UInt8) (rest : Bytes) :
    b.toNat < 128 ∧ decodeStep b rest = (1, some (Char.ofNat b.toNat)) ∨
      128 ≤ b.toNat ∧ HighStep rest (decodeStep b rest) := by
  have hwidth := leadWidth_eq b
  by_cases hb : b.toNat < 128
  · exact .inl ⟨hb, decodeStep_one rest (by rw [hwidth, if_pos hb])⟩
  rw [if_neg hb] at hwidth
  have hbits : ∀ i, contBits (rest.getD i 0) < 64 := fun i => Nat.mod_lt _ (by decide)
  have hfirst := hbits 0
  have hsecond := hbits 1
  have hthird := hbits 2
  refine .inr ⟨not_lt.mp hb, ?_⟩
  unfold decodeStep
  simp only [Bool.not_eq_true', Bool.eq_false_iff, ite_not]
  split_ifs with h0 h1 h2 hcont hok hcont1 h3 hcont2
  · exact highStep_none fun i hi => absurd hi (Nat.not_lt_zero i)
  · split_ifs at hwidth <;> omega
  · have hlead : 194 ≤ b.toNat ∧ b.toNat ≤ 223 := by split_ifs at hwidth <;> omega
    rw [isCont_iff] at hcont
    refine highStep_some (n := 1) (by omega) (by omega) fun i hi => ?_
    obtain rfl : i = 0 := by omega
    exact hcont.1
  · exact highStep_none fun i hi => absurd hi (Nat.not_lt_zero i)
  · have hs := secondOk_bits hok
    have hlead : 224 ≤ b.toNat ∧ b.toNat ≤ 239 := by split_ifs at hwidth <;> omega
    rw [isCont_iff] at hcont1
    refine highStep_some (n := 2) (by omega) (by omega) fun i hi => ?_
    obtain rfl | rfl : i = 0 ∨ i = 1 := by omega
    · exact hs.1.1
    · exact hcont1.1
  · have hs := secondOk_bits hok
    have hlead : 240 ≤ b.toNat ∧ b.toNat ≤ 244 := by split_ifs at hwidth <;> omega
    rw [isCont_iff] at hcont1 hcont2
    refine highStep_some (n := 3) (by omega) (by omega) fun i hi => ?_
    obtain rfl | rfl | rfl : i = 0 ∨ i = 1 ∨ i = 2 := by omega
    · exact hs.1.1
    · exact hcont1.1
    · exact hcont2.1
  · have hs := secondOk_bits hok
    rw [isCont_iff] at hcont1
    refine highStep_none (n := 2) fun i hi => ?_
    obtain rfl | rfl : i = 0 ∨ i = 1 := by omega
    · exact hs.1.1
    · exact hcont1.1
  · have hs := secondOk_bits hok
    refine highStep_none (n := 1) fun i hi => ?_
    obtain rfl : i = 0 := by omega
    exact hs.1.1
  · exact highStep_none fun i hi => absurd hi (Nat.not_lt_zero i)

theorem mem_lossyChars {ch : Char} (h : ch.toNat < 128) (fuel : ℕ) (bytes : Bytes)
    (hfuel : bytes.length ≤ fuel) :
    ch ∈ lossyChars fuel bytes ↔ UInt8.ofNat ch.toNat ∈ bytes := by
  have hbyte : (UInt8.ofNat ch.toNat).toNat = ch.toNat := by
    rw [UInt8.toNat_ofNat']
    omega
  induction fuel generalizing bytes with
  | zero =>
    obtain rfl := List.length_eq_zero_iff.mp (Nat.le_zero.mp hfuel)
    simp [lossyChars]
  | succ fuel ih =>
    cases bytes with
    | nil => simp [lossyChars]
    | cons b rest =>
      rw [List.length_cons] at hfuel
      obtain ⟨taken, htaken⟩ : ∃ taken, taken = (decodeStep b rest).1 - 1 := ⟨_, rfl⟩
      have hlength : (rest.drop taken).length ≤ fuel := by
        rw [List.length_drop]
        omega
      have hrest : ch ∈ lossyChars fuel (rest.drop taken) ↔
          UInt8.ofNat ch.toNat ∈ rest.drop taken := ih _ hlength
      have hstep := decodeStep_ascii b rest
      rw [lossyChars]
      dsimp only
      rw [← htaken, List.mem_cons, List.mem_cons, hrest]
      rcases hstep with ⟨hlow, hstep⟩ | ⟨hhigh, hstep⟩
      · rw [hstep] at htaken
        have hsame : ch = Char.ofNat b.toNat ↔ UInt8.ofNat ch.toNat = b := by
          rw [← UInt8.toNat_inj, hbyte, ← Char.toNat_inj, ofNat_toNat (.inl (by omega))]
        obtain rfl : taken = 0 := htaken
        rw [hstep, Option.getD_some, List.drop_zero, hsame]
      · have hchar : ch ≠ (decodeStep b rest).2.getD '\uFFFD' := by
          rintro rfl
          exact absurd hstep.char (not_le.mpr h)
        have hlead : UInt8.ofNat ch.toNat ≠ b := by
          rintro rfl
          omega
        have hnone : UInt8.ofNat ch.toNat ∉ rest.take taken := fun hmem => by
          have hbytes := hstep.take (htaken ▸ hmem)
          omega
        have hcut : UInt8.ofNat ch.toNat ∈ rest ↔ UInt8.ofNat ch.toNat ∈ rest.drop taken := by
          rw [← List.take_append_drop taken rest, List.mem_append, or_iff_right hnone,
            List.take_append_drop]
        rw [hcut, or_iff_right hchar, or_iff_right hlead]

theorem mem_utf8Lossy {ch : Char} (h : ch.toNat < 128) (bytes : Bytes) :
    ch ∈ (utf8Lossy bytes).toList ↔ UInt8.ofNat ch.toNat ∈ bytes := by
  rw [utf8Lossy, String.toList_ofList, mem_lossyChars h _ _ le_rfl]

end MotaTool.Base
