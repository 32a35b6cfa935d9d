import MotaTool.Endf

/-!
# The layout record is an exact codec

The writer fills the record field by field and the parser reads the same fields
back, so a record is accepted exactly when it is what the writer produces for
the layout it stands for. A record that starts with the magic and is anything
else is an error. Where the record stands in an image is settled by the trailer.
-/

namespace MotaTool.Endf

open Base Run Format

def layoutFields (l : Nrf52Layout) : List (ℕ × Bytes) :=
  [(0, NRF52_LAYOUT_MAGIC), (8, [NRF52_LAYOUT_VERSION]), (9, [l.flags]),
    (10, toLe 2 NRF52_LAYOUT_LEN), (12, u32Le l.appBase), (16, u32Le l.linkedAppEnd),
    (20, u32Le l.stageCeiling)]

def layoutRecord (l : Nrf52Layout) : Bytes := fieldBytes (layoutFields l)

theorem layoutFields_tile (l : Nrf52Layout) : Tiles 0 (layoutFields l) NRF52_LAYOUT_LEN := by
  have hmagic : NRF52_LAYOUT_MAGIC.length = 8 := rfl
  simp [layoutFields, tiles_cons, tiles_nil, hmagic, NRF52_LAYOUT_LEN]

theorem layoutRecord_length (l : Nrf52Layout) : (layoutRecord l).length = 24 := by
  have hlen := (layoutFields_tile l).length
  rwa [Nat.zero_add] at hlen

theorem buildNrf52Layout_eq_ok {l : Nrf52Layout} {record : Bytes} :
    buildNrf52Layout l = .ok record ↔ l.validate = .ok () ∧ record = layoutRecord l := by
  have hwrite := @Tiles.write _ [] (List.replicate NRF52_LAYOUT_LEN 0) _ _ (layoutFields_tile l)
    (by simp)
  rw [overlay_nil, List.nil_append, overlay_full (by
    rw [List.length_replicate]
    exact (layoutRecord_length l).ge)] at hwrite
  simp only [buildNrf52Layout, bind_eq_ok, exists_unit]
  rw [← layoutFields, hwrite, layoutRecord, Except.ok.injEq, eq_comm (a := record)]

section Parse

variable {l : Nrf52Layout} {record : Bytes}

theorem parseRecord_sound (hlen : record.length = 24) (h : parseRecord record = .ok (some l)) :
    l.validate = .ok () ∧ record = layoutRecord l := by
  simp only [parseRecord, bind_eq_ok] at h
  obtain ⟨magic, hmagic, h⟩ := h
  split_ifs at h with hne
  · cases h
  simp only [bind_eq_ok, ensure_eq_ok, exists_unit] at h
  obtain ⟨version, hversion, rfl, length, hlength, hsize, flags, hflags, appBase, hbase,
    linkedAppEnd, hlinked, stageCeiling, hstage, hvalid, hl⟩ := h
  cases hl
  refine ⟨hvalid, ?_⟩
  have hwhole : record.take NRF52_LAYOUT_LEN = record := List.take_of_length_le hlen.le
  have htile := layoutFields_tile ⟨appBase, linkedAppEnd, stageCeiling, flags⟩
  have hfields := htile.read (v := record)
  rw [List.drop_zero, Nat.sub_zero, hwhole] at hfields
  refine (hfields ?_).symm
  obtain ⟨-, -, hlength⟩ := slice_eq_ok.mp hlength
  obtain ⟨-, -, hmagic⟩ := slice_eq_ok.mp hmagic
  have htwo : length.length = 2 := by
    rw [hlength, List.length_take, List.length_drop]
    omega
  have hle := toLe_ofLe length
  rw [htwo, hsize] at hle
  intro field hfield
  simp only [layoutFields, List.mem_cons, List.not_mem_nil, or_false] at hfield
  rcases hfield with rfl | rfl | rfl | rfl | rfl | rfl | rfl
  · exact (not_ne_iff.mp hne).symm.trans hmagic
  · exact index_take hversion
  · exact index_take hflags
  · exact hle.trans hlength
  · exact (rdU32_eq_ok.mp hbase).2
  · exact (rdU32_eq_ok.mp hlinked).2
  · exact (rdU32_eq_ok.mp hstage).2

theorem parseRecord_complete (hvalid : l.validate = .ok ()) :
    parseRecord (layoutRecord l) = .ok (some l) := by
  have hlen := layoutRecord_length l
  have hread : ∀ field ∈ layoutFields l,
      field.2 = ((layoutRecord l).drop field.1).take field.2.length := by
    intro field hfield
    have hfront := (layoutFields_tile l).read_front hfield []
    rw [List.append_nil] at hfront
    exact hfront.symm
  simp only [layoutFields, List.forall_mem_cons] at hread
  obtain ⟨hmagic, hversion, hflags, hlength, hbase, hlinked, hstage, -⟩ := hread
  have hmagic : slice (layoutRecord l) 0 8 = .ok NRF52_LAYOUT_MAGIC :=
    slice_eq_ok.mpr ⟨by omega, by omega, hmagic⟩
  have hlength : slice (layoutRecord l) 10 12 = .ok (toLe 2 NRF52_LAYOUT_LEN) :=
    slice_eq_ok.mpr ⟨by omega, by omega, hlength⟩
  have hbase : rdU32 (layoutRecord l) 12 = .ok l.appBase := rdU32_eq_ok.mpr ⟨by omega, hbase⟩
  have hlinked : rdU32 (layoutRecord l) 16 = .ok l.linkedAppEnd :=
    rdU32_eq_ok.mpr ⟨by omega, hlinked⟩
  have hstage : rdU32 (layoutRecord l) 20 = .ok l.stageCeiling :=
    rdU32_eq_ok.mpr ⟨by omega, hstage⟩
  have hsize : ofLe (toLe 2 NRF52_LAYOUT_LEN) = NRF52_LAYOUT_LEN := ofLe_toLe (by decide)
  simp only [parseRecord, hmagic, index_of_take hversion, index_of_take hflags, hlength, hbase,
    hlinked, hstage, hvalid, hsize, ok_bind, ne_eq, not_true_eq_false, if_false, ensure, if_true]

theorem parseRecord_eq_some (hlen : record.length = 24) :
    parseRecord record = .ok (some l) ↔ buildNrf52Layout l = .ok record := by
  rw [buildNrf52Layout_eq_ok]
  constructor
  · exact parseRecord_sound hlen
  · rintro ⟨hvalid, rfl⟩
    exact parseRecord_complete hvalid

theorem validate_returns (l : Nrf52Layout) : Returns l.validate := by
  have hhybrid : Returns l.validateHybrid := by
    unfold Nrf52Layout.validateHybrid
    split_ifs
    · exact returns_ensure _ _
    · exact returns_ok _
  have hscratch : Returns l.validateScratch := by
    unfold Nrf52Layout.validateScratch
    split_ifs <;> exact returns_ensure _ _
  unfold Nrf52Layout.validate
  iterate 8 refine (returns_ensure _ _).bind fun _ _ => ?_
  refine hhybrid.bind fun _ _ => ?_
  exact hscratch.bind fun _ _ => returns_ensure _ _

theorem parseRecord_returns (hlen : record.length = 24) : Returns (parseRecord record) := by
  refine (slice_returns (by omega) (by omega)).bind fun magic _ => ?_
  split_ifs
  · exact returns_ok _
  refine (index_returns (by omega)).bind fun version _ => ?_
  refine (returns_ensure _ _).bind fun _ _ => ?_
  refine (slice_returns (by omega) (by omega)).bind fun length _ => ?_
  refine (returns_ensure _ _).bind fun _ _ => ?_
  refine (index_returns (by omega)).bind fun flags _ => ?_
  refine (rdU32_returns (by omega)).bind fun appBase _ => ?_
  refine (rdU32_returns (by omega)).bind fun linkedAppEnd _ => ?_
  refine (rdU32_returns (by omega)).bind fun stageCeiling _ => ?_
  exact (validate_returns _).bind fun _ _ => returns_ok _

theorem parseRecord_eq_none (h : parseRecord record = .ok none) :
    record.take 8 ≠ NRF52_LAYOUT_MAGIC := by
  simp only [parseRecord, bind_eq_ok] at h
  obtain ⟨magic, hmagic, h⟩ := h
  obtain ⟨-, -, rfl⟩ := slice_eq_ok.mp hmagic
  split_ifs at h with hne
  · exact hne
  simp only [bind_eq_ok] at h
  obtain ⟨_, -, _, -, _, -, _, -, _, -, _, -, _, -, _, -, _, -, h⟩ := h
  cases h

/-- A record that starts with the magic is either what the writer produces or an error. -/
theorem parseRecord_closed (hlen : record.length = 24)
    (hmagic : record.take 8 = NRF52_LAYOUT_MAGIC)
    (hnone : ∀ l, buildNrf52Layout l ≠ .ok record) :
    ∃ chain, parseRecord record = .error (.error chain) := by
  rw [(parseRecord_returns hlen).fails_iff]
  rintro (_ | l) h
  · exact parseRecord_eq_none h hmagic
  · exact hnone l ((parseRecord_eq_some hlen).mp h)

end Parse

def recordBytes (image : Bytes) : Bytes := (image.drop (image.length - 80)).take 24

section Image

variable {c : Crypto} {image : Bytes} {l : Nrf52Layout}

theorem recordBytes_length (hlen : 80 ≤ image.length) : (recordBytes image).length = 24 := by
  rw [recordBytes, List.length_take, List.length_drop]
  omega

theorem parseNrf52Layout_record (hendf : hasEndf c image = .ok true) (hlen : 80 ≤ image.length) :
    parseNrf52Layout c image = parseRecord (recordBytes image) := by
  have hlong : ¬ image.length < ENDF_LEN + NRF52_LAYOUT_LEN := by
    simp only [ENDF_LEN, NRF52_LAYOUT_LEN]
    omega
  have hslice : slice image (image.length - ENDF_LEN - NRF52_LAYOUT_LEN)
      (image.length - ENDF_LEN - NRF52_LAYOUT_LEN + NRF52_LAYOUT_LEN) =
        .ok (recordBytes image) := by
    simp only [ENDF_LEN, NRF52_LAYOUT_LEN, slice_eq_ok, recordBytes, Nat.sub_sub,
      Nat.add_sub_cancel_left, and_true]
    omega
  simp only [parseNrf52Layout, hendf, ok_bind, hlong, hslice]
  rfl

theorem parseNrf52Layout_eq_some : parseNrf52Layout c image = .ok (some l) ↔
    hasEndf c image = .ok true ∧ 80 ≤ image.length ∧
      buildNrf52Layout l = .ok (recordBytes image) := by
  obtain ⟨trailed, htrailed⟩ := @hasEndf_ok c image
  cases trailed with
  | false => simp [parseNrf52Layout, htrailed]
  | true =>
    by_cases hlen : 80 ≤ image.length
    · rw [parseNrf52Layout_record htrailed hlen, parseRecord_eq_some (recordBytes_length hlen)]
      simp only [htrailed, hlen, true_and]
    · have hshort : image.length < ENDF_LEN + NRF52_LAYOUT_LEN := Nat.lt_of_not_le hlen
      simp [parseNrf52Layout, htrailed, hshort, hlen]

theorem recordBytes_trailed {body record trailer : Bytes} (hrecord : record.length = 24)
    (htrailer : trailer.length = 56) : recordBytes (body ++ record ++ trailer) = record := by
  have hstart : (body ++ record ++ trailer).length - 80 = body.length := by
    simp only [List.length_append, hrecord, htrailer]
    omega
  rw [recordBytes, hstart, List.append_assoc, List.drop_left, List.take_left' hrecord]

theorem parseNrf52Layout_ensureEndf {body record : Bytes} (ident : FwIdent)
    (hbuild : buildNrf52Layout l = .ok record) (hsize : (body ++ record).length < 2 ^ 32)
    (hendf : hasEndf c (body ++ record) = .ok false) :
    ∃ out hash, ensureEndf c (body ++ record) ident = .ok (out, hash) ∧
      parseNrf52Layout c out = .ok (some l) := by
  have hrecord : record.length = 24 := by
    rw [(buildNrf52Layout_eq_ok.mp hbuild).2, layoutRecord_length]
  have htrailer := trailer_length (c := c) (body ++ record) ident
  refine ⟨_, _, ensureEndf_raw hendf ident, ?_⟩
  rw [parseNrf52Layout_eq_some, recordBytes_trailed hrecord htrailer]
  refine ⟨hasEndf_trailer hsize ident, ?_, hbuild⟩
  simp only [List.length_append, htrailer, hrecord, ENDF_LEN]
  omega

/-- Reading a layout is the inverse of writing it, and fails closed. -/
theorem parseNrf52Layout_codec (c : Crypto) :
    (∀ image l, parseNrf52Layout c image = .ok (some l) ↔
      hasEndf c image = .ok true ∧ 80 ≤ image.length ∧
        buildNrf52Layout l = .ok (recordBytes image)) ∧
      (∀ image, hasEndf c image = .ok true → 80 ≤ image.length →
        (recordBytes image).take 8 = NRF52_LAYOUT_MAGIC →
        (∀ l, buildNrf52Layout l ≠ .ok (recordBytes image)) →
        ∃ chain, parseNrf52Layout c image = .error (.error chain)) ∧
      ∀ l : Nrf52Layout, l.validate = .ok () → ∃ record, buildNrf52Layout l = .ok record ∧
        ∀ body ident, (body ++ record).length < 2 ^ 32 →
          hasEndf c (body ++ record) = .ok false →
          ∃ out hash, ensureEndf c (body ++ record) ident = .ok (out, hash) ∧
            parseNrf52Layout c out = .ok (some l) := by
  refine ⟨fun image l => parseNrf52Layout_eq_some, ?_, ?_⟩
  · intro image hendf hlen hmagic hnone
    rw [parseNrf52Layout_record hendf hlen]
    exact parseRecord_closed (recordBytes_length hlen) hmagic hnone
  · intro l hvalid
    have hbuild := buildNrf52Layout_eq_ok.mpr ⟨hvalid, rfl⟩
    refine ⟨layoutRecord l, hbuild, ?_⟩
    intro body ident hsize hendf
    exact parseNrf52Layout_ensureEndf ident hbuild hsize hendf

theorem parseNrf52Layout_codec_internal :
    ∃ record, buildNrf52Layout ⟨0x26000, 0xED000, 0xED000, 0x10⟩ = .ok record ∧
      ∀ body ident, (body ++ record).length < 2 ^ 32 →
        hasEndf .plain (body ++ record) = .ok false →
        ∃ out hash, ensureEndf .plain (body ++ record) ident = .ok (out, hash) ∧
          parseNrf52Layout .plain out = .ok (some ⟨0x26000, 0xED000, 0xED000, 0x10⟩) :=
  (parseNrf52Layout_codec .plain).2.2 ⟨0x26000, 0xED000, 0xED000, 0x10⟩ rfl

end Image

end MotaTool.Endf
