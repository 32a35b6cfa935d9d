import MotaTool.Base.Path
import MotaTool.Build.IdentSpec
import MotaTool.Build.Version

/-!
# The automatic file name

A package without a path of its own is written under a name made of the
hardware tag and five more parts. Those parts are letters, digits, dots and
underscores; the tag is taken as it is, from the option or from the trailer, so
the name is one component exactly when the tag has nothing that separates.
-/

namespace MotaTool.Build

open Base Run Format Endf
open Base.Path (Style SingleComponent PlainName components)

/-- Where `cmd_build` writes: the exact path, or the automatic name in the output directory. -/
def outPath (out : Option String) (outDir : String) (built : Built) : List Char :=
  match out with
  | some path => path.toList
  | none => Path.join outDir.toList built.suggestedName.toList

def nameChar (ch : Char) : Bool := ch.isAlphanum || ch == '_' || ch == '.'

def nameRest (ident : FwIdent) (codec : Codec) (root : Octets 4) : List Char :=
  '_' :: (hexPadded 8 ident.targetId.toNat).toList ++ '_' :: 'v' ::
    (versionStr ident.fwVersion).toList ++ '_' :: codec.nameTag.toList ++ '_' ::
    (hexBytes root.val).toList ++ ".mota".toList

def nameHw (hwId : String) : String := if hwId.isEmpty then "fw" else hwId

theorem mem_intercalate {α : Type*} {sep : List α} {pieces : List (List α)} {x : α}
    (h : x ∈ sep.intercalate pieces) : x ∈ sep ∨ ∃ piece ∈ pieces, x ∈ piece := by
  induction pieces with
  | nil => simp at h
  | cons piece rest ih =>
    cases rest with
    | nil => exact .inr ⟨piece, List.mem_cons_self, by simpa using h⟩
    | cons next rest =>
      rw [List.intercalate_cons_cons, List.mem_append, List.mem_append] at h
      rcases h with (h | h) | h
      · exact .inr ⟨piece, List.mem_cons_self, h⟩
      · exact .inl h
      · refine (ih h).imp_right fun ⟨found, hfound, hx⟩ => ?_
        exact ⟨found, List.mem_cons_of_mem piece hfound, hx⟩

section Name

variable {ident : FwIdent} {codec : Codec} {root : Octets 4} {ch : Char} {style : Style}

theorem suggestedName_chars : (suggestedName ident codec root).toList =
    (nameHw ident.hwId).toList ++ nameRest ident codec root := by
  have htext : ∀ s : String, toString s = s := fun _ => rfl
  simp [suggestedName, nameHw, nameRest, htext]

theorem nameChar_plain (h : nameChar ch = true) :
    style.isSeparator ch = false ∧ ch ≠ '\x00' := by
  have hne : ∀ other, nameChar other = false → ch ≠ other := by
    rintro other hother rfl
    rw [h] at hother
    cases hother
  have hslash := hne '/' rfl
  have hback := hne '\\' rfl
  refine ⟨?_, hne '\x00' rfl⟩
  cases style <;> simp [Style.isSeparator, hslash, hback]

theorem nameChar_hexPadded {w n : ℕ} (hn : n < 16 ^ (w + 1))
    (h : ch ∈ (hexPadded (w + 1) n).toList) : nameChar ch = true := by
  have hall : ∀ d < 16, nameChar (hexChar d) = true := by decide
  rw [hexPadded_eq hn, String.toList_ofList] at h
  obtain ⟨d, hd, rfl⟩ := mem_hexTail h
  exact hall d hd

theorem nameChar_hexBytes {bytes : Bytes} (h : ch ∈ (hexBytes bytes).toList) :
    nameChar ch = true := by
  rw [hexBytes, String.toList_join, List.mem_flatMap] at h
  obtain ⟨text, htext, hch⟩ := h
  obtain ⟨b, -, rfl⟩ := List.mem_map.mp htext
  exact nameChar_hexPadded b.toNat_lt hch

theorem nameChar_versionStr {v : UInt32} (h : ch ∈ (versionStr v).toList) :
    nameChar ch = true := by
  have hversion := versionOf_printed v
  rw [hversion.dotted] at h
  rcases mem_intercalate h with hdot | ⟨tok, htok, hch⟩
  · rw [List.mem_singleton.mp hdot]
    decide
  · have hdigit := (hversion.components tok htok).digits ch hch
    simp [nameChar, Char.isAlphanum, hdigit]

theorem nameChar_nameTag (h : ch ∈ codec.nameTag.toList) : nameChar ch = true := by
  have hall : codec.nameTag.toList.all nameChar = true := by
    cases codec <;> decide
  exact List.all_eq_true.mp hall ch h

theorem nameChar_rest (h : ch ∈ nameRest ident codec root) : nameChar ch = true := by
  have hext : ".mota".toList.all nameChar = true := by decide
  simp only [nameRest, List.mem_append, List.mem_cons, or_assoc, List.cons_append] at h
  rcases h with rfl | h | rfl | rfl | h | rfl | h | rfl | h | h
  · decide
  · exact nameChar_hexPadded ident.targetId.toNat_lt h
  · decide
  · decide
  · exact nameChar_versionStr h
  · decide
  · exact nameChar_nameTag h
  · decide
  · exact nameChar_hexBytes h
  · exact List.all_eq_true.mp hext ch h

theorem suggestedName_single :
    SingleComponent style (suggestedName ident codec root).toList ↔
      SingleComponent style ident.hwId.toList := by
  have hrest : SingleComponent style (nameRest ident codec root) := fun ch hch =>
    nameChar_plain (nameChar_rest hch)
  rw [suggestedName_chars, Path.singleComponent_append, and_iff_left hrest, nameHw]
  split_ifs with hempty
  · have hall : "fw".toList.all nameChar = true := by decide
    have hfw : SingleComponent style "fw".toList := fun ch hch =>
      nameChar_plain (List.all_eq_true.mp hall ch hch)
    have hnone : SingleComponent style ident.hwId.toList := by
      rw [String.isEmpty_iff.mp hempty]
      exact List.forall_mem_nil _
    exact iff_of_true hfw hnone
  · exact Iff.rfl

theorem suggestedName_plain (h : SingleComponent .unix (suggestedName ident codec root).toList) :
    PlainName (suggestedName ident codec root).toList := by
  have hlast : (suggestedName ident codec root).toList.getLast? = some 'a' := by
    have hext : ".mota".toList = ['.', 'm', 'o', 't'] ++ ['a'] := rfl
    rw [suggestedName_chars, nameRest, hext, ← List.append_assoc, ← List.append_assoc,
      List.getLast?_append, List.getLast?_singleton, Option.some_or]
  have hne : ∀ name : List Char, name.getLast? ≠ some 'a' →
      (suggestedName ident codec root).toList ≠ name :=
    fun name hname heq => hname (heq ▸ hlast)
  refine ⟨hne [] (by decide), hne ['.'] (by decide), hne ['.', '.'] (by decide), fun hmem => ?_⟩
  exact absurd (h '/' hmem).1 (by decide)

end Name

/-- The tag separates nothing: an option is taken whole, a field up to its first NUL. -/
def CleanTag (c : Crypto) (o : BuildOpts) (style : Style) : Prop :=
  match o.hwId with
  | some text => SingleComponent style text.toList
  | none => hasEndf c o.fw = .ok true → ∀ ch, style.isSeparator ch = true →
      UInt8.ofNat ch.toNat ∉ (hwField o.fw).takeWhile fun b => b ≠ 0

section Tag

variable {c : Crypto} {escaped : Char → Bool} {o : BuildOpts} {ident : FwIdent} {style : Style}
  {built : Built}

theorem single_cstr {field : Bytes} : SingleComponent style (cstr field).toList ↔
    ∀ ch, style.isSeparator ch = true →
      UInt8.ofNat ch.toNat ∉ field.takeWhile fun b => b ≠ 0 := by
  constructor
  · intro h ch hsep hmem
    have hin := (mem_utf8Lossy (Style.isSeparator_ascii hsep) _).mpr hmem
    rw [(h ch hin).1] at hsep
    cases hsep
  · intro h ch hch
    refine ⟨Bool.eq_false_iff.mpr fun hsep => ?_, ?_⟩
    · exact h ch hsep ((mem_utf8Lossy (Style.isSeparator_ascii hsep) _).mp hch)
    · rintro rfl
      have hmem := (mem_utf8Lossy (by decide) _).mp hch
      exact absurd (List.all_eq_true.mp List.all_takeWhile _ hmem) (by decide)

theorem resolveIdent_hwId (h : resolveIdent c o = .ok ident) :
    SingleComponent style ident.hwId.toList ↔ CleanTag c o style := by
  obtain ⟨fromFw, hfrom, hident⟩ := bind_eq_ok.mp h
  cases hident
  unfold CleanTag
  cases hoption : o.hwId with
  | some text => rfl
  | none =>
    obtain ⟨trailed, htrailed⟩ := @hasEndf_ok c o.fw
    cases trailed with
    | true =>
      have htag := parseIdent_hwId htrailed hfrom
      rw [Option.getD_none, htag, single_cstr, htrailed]
      exact ⟨fun h _ => h, fun h => h rfl⟩
    | false =>
      rw [parseIdent_raw htrailed] at hfrom
      cases hfrom
      have hempty : SingleComponent style FwIdent.default.hwId.toList := List.forall_mem_nil _
      refine iff_of_true hempty fun hendf => ?_
      rw [htrailed] at hendf
      cases hendf

theorem build_named (h : build c escaped o = .ok built) : ∃ ident codec root,
    resolveIdent c o = .ok ident ∧ built.suggestedName = suggestedName ident codec root := by
  simp only [build, bind_eq_ok, ensure_eq_ok, exists_unit, Except.ok.injEq] at h
  obtain ⟨-, ident, hident, -, -, delta, -, -, root, -, -, -, -, -, -, -, rfl⟩ := h
  exact ⟨ident, delta.codec, root, hident, rfl⟩

end Tag

/-- The automatic name is one component exactly when the hardware tag separates nothing. On Unix
that is also exactly when it is one and joining it to any output directory adds it and no more. -/
theorem suggestedName_inside (c : Crypto) (escaped : Char → Bool) (o : BuildOpts) (built : Built)
    (hbuild : build c escaped o = .ok built) :
    (∀ style, SingleComponent style built.suggestedName.toList ↔ CleanTag c o style) ∧
      ((SingleComponent .unix built.suggestedName.toList ∧
        ∀ outDir, components (outPath none outDir built) =
          components outDir.toList ++ [.normal built.suggestedName.toList]) ↔
        CleanTag c o .unix) := by
  obtain ⟨ident, codec, root, hident, hname⟩ := build_named hbuild
  have hclean : ∀ style, SingleComponent style built.suggestedName.toList ↔
      CleanTag c o style := by
    intro style
    rw [hname, suggestedName_single, resolveIdent_hwId hident]
  refine ⟨hclean, fun h => (hclean .unix).mp h.1, fun h => ?_⟩
  have hsingle := (hclean .unix).mpr h
  have hplain : PlainName built.suggestedName.toList := by
    rw [hname] at hsingle ⊢
    exact suggestedName_plain hsingle
  exact ⟨hsingle, fun outDir => Path.components_join hplain outDir.toList⟩

theorem suggestedName_inside_byte : ∃ built, build Crypto.plain noEscapes byteOpts = .ok built ∧
    (∀ style, SingleComponent style built.suggestedName.toList ↔
      CleanTag Crypto.plain byteOpts style) ∧
    ((SingleComponent .unix built.suggestedName.toList ∧
      ∀ outDir, components (outPath none outDir built) =
        components outDir.toList ++ [.normal built.suggestedName.toList]) ↔
      CleanTag Crypto.plain byteOpts .unix) := by
  obtain ⟨built, hbuild⟩ := @exists_ok _ (build Crypto.plain noEscapes byteOpts) (by decide +kernel)
  exact ⟨built, hbuild, suggestedName_inside Crypto.plain noEscapes byteOpts built hbuild⟩

/-- An image without a body whose trailer names a file beside the output directory. -/
def climbingFw : Bytes :=
  ENDF_MAGIC ++ toLe 4 0 ++ (Crypto.plain.mh8 []).val ++ u32Le 1 ++ u32Le 2 ++
    (ascii "../x".toList ++ List.replicate 28 0)

def climbingOpts : BuildOpts := { byteOpts with fw := climbingFw }

/-- No option names the hardware, and the package is written outside. -/
theorem suggestedName_climbs : hasEndf Crypto.plain climbingFw = .ok true ∧
    climbingOpts.hwId = none ∧ ∃ built, build Crypto.plain noEscapes climbingOpts = .ok built ∧
      ¬ SingleComponent .unix built.suggestedName.toList ∧
      ∃ last, components (outPath none "out" built) =
        [.normal "out".toList, .parent, .normal last] := by
  have hrun : (build Crypto.plain noEscapes climbingOpts).toOption.any (fun built =>
      built.suggestedName = "../x_00000002_v0.0.0.1_full_456E6446.mota") = true := by
    decide +kernel
  obtain ⟨built, hbuild, hname⟩ := exists_any hrun
  have hname := of_decide_eq_true hname
  refine ⟨by decide +kernel, rfl, built, hbuild, fun hsingle => ?_,
    "x_00000002_v0.0.0.1_full_456E6446.mota".toList, ?_⟩
  · rw [hname] at hsingle
    exact absurd (hsingle '/' (by decide)).1 (by decide)
  · rw [outPath, hname]
    decide +kernel

end MotaTool.Build
