import MotaTool.Bootloader.Identity
import MotaTool.IntelHex

/-!
# The bootloader region of an Intel HEX file

The image starts erased. Every data record is clipped to the region and copied
byte by byte, and a byte that was written before has to be the same. After each
record the image holds exactly the bytes that the records so far place in the
region, which is a relation that no order of the records and nothing outside
the region can change.
-/

namespace MotaTool.Bootloader

open Base Run Format IntelHex

structure Extraction where
  image : Bytes
  written : List Bool
  base : ℕ
  sawRegionData : Bool

def copyRegionByte (value : Bytes) (source destination copyStart : ℕ) (s : Extraction) (i : ℕ) :
    Run Extraction := do
  let byte ← index value (source + i)
  if ← index s.written (destination + i) then
    let current ← index s.image (destination + i)
    ensure (current = byte)
      s!"conflicting Intel HEX data at address 0x{hexPadded 8 (copyStart + i)}"
  let image ← store s.image (destination + i) byte
  let written ← store s.written (destination + i) true
  .ok { s with image := image, written := written }

def extractRecord (s : Extraction) : Record → Run Extraction
  | .data offset value => do
    let address ← ofOption (checkedAdd 32 s.base offset.toNat) "Intel HEX data address overflow"
    let stop ← ofOption (checkedAdd 32 address value.val.length) "Intel HEX data range overflow"
    let copyStart := max address IMAGE_START.toNat
    let copyEnd := min stop (IMAGE_START.toNat + IMAGE_SIZE)
    if copyStart < copyEnd then
      (List.range (copyEnd - copyStart)).foldlM
        (copyRegionByte value.val (copyStart - address) (copyStart - IMAGE_START.toNat) copyStart)
        { s with sawRegionData := true }
    else .ok s
  | .extendedLinearAddress upper => .ok { s with base := upper.toNat <<< 16 }
  | .extendedSegmentAddress segment => .ok { s with base := segment.toNat <<< 4 }
  | _ => .ok s

def erased : Extraction :=
  ⟨List.replicate IMAGE_SIZE 0xFF, List.replicate IMAGE_SIZE false, 0, false⟩

def extractBootloaderRegionFromHex (reader : Reader) (bytes : Bytes) : Run Bytes := do
  let text ← context "Intel HEX is not valid UTF-8" (fromUtf8 bytes)
  let (s, sawEof) ← untilEof extractRecord erased (reader text)
  ensure sawEof "Intel HEX missing EOF record"
  ensure s.sawRegionData
    (s!"Intel HEX contains no data in bootloader region 0x{hexPadded 8 IMAGE_START.toNat}" ++
      s!"..0x{hexPadded 8 (IMAGE_START.toNat + IMAGE_SIZE)}")
  .ok s.image

structure Holds (s : Extraction) (assigned : ℕ → UInt8 → Prop) : Prop where
  image : s.image.length = IMAGE_SIZE
  written : s.written.length = IMAGE_SIZE
  cell : ∀ i < IMAGE_SIZE,
    (s.written[i]? = some true ∧ ∃ b, s.image[i]? = some b ∧ ∀ x, assigned i x ↔ x = b) ∨
      (s.written[i]? = some false ∧ s.image[i]? = some 0xFF ∧ ∀ x, ¬ assigned i x)

def Conflict (assigned : ℕ → UInt8 → Prop) : Prop :=
  ∃ i < IMAGE_SIZE, ∃ x y, assigned i x ∧ assigned i y ∧ x ≠ y

theorem Holds.no_conflict {s : Extraction} {assigned : ℕ → UInt8 → Prop} (h : Holds s assigned) :
    ¬ Conflict assigned := by
  rintro ⟨i, hi, x, y, hx, hy, hne⟩
  rcases h.cell i hi with ⟨-, b, -, hb⟩ | ⟨-, -, hnone⟩
  · exact hne (((hb x).mp hx).trans ((hb y).mp hy).symm)
  · exact hnone x hx

theorem Holds.congr {s : Extraction} {assigned other : ℕ → UInt8 → Prop} (h : Holds s assigned)
    (heq : ∀ i < IMAGE_SIZE, ∀ x, other i x ↔ assigned i x) : Holds s other := by
  refine ⟨h.image, h.written, ?_⟩
  intro i hi
  simp only [heq i hi]
  exact h.cell i hi

theorem Conflict.mono {assigned other : ℕ → UInt8 → Prop} (h : Conflict assigned)
    (himp : ∀ i < IMAGE_SIZE, ∀ x, assigned i x → other i x) : Conflict other := by
  obtain ⟨i, hi, x, y, hx, hy, hne⟩ := h
  exact ⟨i, hi, x, y, himp i hi x hx, himp i hi y hy, hne⟩

theorem holds_erased : Holds erased fun _ _ => False := by
  refine ⟨List.length_replicate, List.length_replicate, ?_⟩
  intro i hi
  simp [erased, hi]

def Settles (run : Run Extraction) (assigned : ℕ → UInt8 → Prop) (base : ℕ) (saw : Bool) : Prop :=
  (∃ s, run = .ok s ∧ Holds s assigned ∧ s.base = base ∧ s.sawRegionData = saw) ∨
    ((∃ chain, run = .error (.error chain)) ∧ Conflict assigned)

theorem Settles.congr {run : Run Extraction} {assigned other : ℕ → UInt8 → Prop} {base : ℕ}
    {saw : Bool} (h : Settles run assigned base saw)
    (heq : ∀ i < IMAGE_SIZE, ∀ x, other i x ↔ assigned i x) : Settles run other base saw := by
  rcases h with ⟨s, hrun, hholds, hbase, hsaw⟩ | ⟨hfail, hconflict⟩
  · exact .inl ⟨s, hrun, hholds.congr heq, hbase, hsaw⟩
  · exact .inr ⟨hfail, hconflict.mono fun i hi x => (heq i hi x).mpr⟩

section Copy

variable {s : Extraction} {assigned : ℕ → UInt8 → Prop} {value : Bytes}
  {source destination copyStart i : ℕ} {b : UInt8}

theorem Holds.set (h : Holds s assigned) {d : ℕ} (hd : d < IMAGE_SIZE)
    (hsame : ∀ x, assigned d x → x = b) :
    Holds { s with image := s.image.set d b, written := s.written.set d true }
      fun j x => assigned j x ∨ (j = d ∧ x = b) := by
  refine ⟨by rw [List.length_set, h.image], by rw [List.length_set, h.written], ?_⟩
  intro j hj
  by_cases heq : j = d
  · subst heq
    left
    rw [List.getElem?_set_self (by rw [h.written]; exact hj),
      List.getElem?_set_self (by rw [h.image]; exact hj)]
    refine ⟨rfl, b, rfl, ?_⟩
    intro x
    constructor
    · rintro (hx | ⟨-, hx⟩)
      · exact hsame x hx
      · exact hx
    · intro hx
      exact .inr ⟨rfl, hx⟩
  · rw [List.getElem?_set_ne (Ne.symm heq), List.getElem?_set_ne (Ne.symm heq)]
    simp only [heq, false_and, or_false]
    exact h.cell j hj

theorem copyRegionByte_settles (h : Holds s assigned) (hd : destination + i < IMAGE_SIZE)
    (hb : value[source + i]? = some b) :
    Settles (copyRegionByte value source destination copyStart s i)
      (fun j x => assigned j x ∨ (j = destination + i ∧ x = b)) s.base s.sawRegionData := by
  have himage : destination + i < s.image.length := by rw [h.image]; exact hd
  have hwritten : destination + i < s.written.length := by rw [h.written]; exact hd
  have hbyte := index_eq_ok.mpr hb
  rcases h.cell (destination + i) hd with ⟨hmark, current, hcurrent, huniq⟩ | ⟨hmark, -, hnone⟩
  · by_cases hsame : current = b
    · refine .inl ⟨_, ?_, h.set hd fun x hx => ((huniq x).mp hx).trans hsame, rfl, rfl⟩
      simp only [copyRegionByte, hbyte, index_eq_ok.mpr hmark, index_eq_ok.mpr hcurrent,
        ensure_of hsame, store_ok himage, store_ok hwritten, ok_bind, if_true]
    · refine .inr ⟨?_, destination + i, hd, current, b, .inl ((huniq current).mpr rfl),
        .inr ⟨rfl, rfl⟩, hsame⟩
      simp only [copyRegionByte, hbyte, index_eq_ok.mpr hmark, index_eq_ok.mpr hcurrent, ensure,
        if_neg hsame, bail, ok_bind, if_true, error_bind]
      exact ⟨_, rfl⟩
  · refine .inl ⟨_, ?_, h.set hd fun x hx => absurd hx (hnone x), rfl, rfl⟩
    simp only [copyRegionByte, hbyte, index_eq_ok.mpr hmark, store_ok himage, store_ok hwritten,
      ok_bind, Bool.false_eq_true, if_false]

def Copied (assigned : ℕ → UInt8 → Prop) (value : Bytes) (source destination n j : ℕ)
    (x : UInt8) : Prop :=
  assigned j x ∨ ∃ k < n, j = destination + k ∧ value[source + k]? = some x

theorem copyRegion_settles (h : Holds s assigned) {n : ℕ} (hd : destination + n ≤ IMAGE_SIZE)
    (hv : source + n ≤ value.length) :
    Settles ((List.range n).foldlM (copyRegionByte value source destination copyStart) s)
      (Copied assigned value source destination n) s.base s.sawRegionData := by
  induction n with
  | zero =>
    refine .inl ⟨s, rfl, h.congr ?_, rfl, rfl⟩
    intro i _ x
    simp [Copied]
  | succ n ih =>
    obtain ⟨b, hb⟩ : ∃ b, value[source + n]? = some b := ⟨_, List.getElem?_eq_getElem (by omega)⟩
    have hnext : ∀ j x, Copied assigned value source destination (n + 1) j x ↔
        Copied assigned value source destination n j x ∨ (j = destination + n ∧ x = b) := by
      intro j x
      have hlast : (j = destination + n ∧ value[source + n]? = some x) ↔
          (j = destination + n ∧ x = b) := by
        rw [hb, Option.some.injEq, eq_comm (a := b)]
      rw [← hlast]
      simp only [Copied, or_assoc]
      refine or_congr Iff.rfl ?_
      constructor
      · rintro ⟨k, hk, hx⟩
        rcases Nat.lt_succ_iff_lt_or_eq.mp hk with hk | rfl
        · exact .inl ⟨k, hk, hx⟩
        · exact .inr hx
      · rintro (⟨k, hk, hx⟩ | hx)
        · exact ⟨k, Nat.lt_succ_of_lt hk, hx⟩
        · exact ⟨n, Nat.lt_succ_self n, hx⟩
    rw [List.range_succ, List.foldlM_append]
    rcases ih (by omega) (by omega) with ⟨next, hrun, hholds, hbase, hsaw⟩ | ⟨⟨chain, hrun⟩, hconf⟩
    · rw [hrun, ok_bind, List.foldlM_cons, ← hbase, ← hsaw]
      simp only [List.foldlM_nil, bind_pure]
      exact (copyRegionByte_settles hholds (by omega) hb).congr fun j _ x => hnext j x
    · refine .inr ⟨⟨chain, ?_⟩, hconf.mono fun j _ x hx => (hnext j x).mpr (.inl hx)⟩
      rw [hrun]
      rfl

end Copy

def regional (chunks : List (ℕ × Bytes)) (i : ℕ) (x : UInt8) : Prop :=
  Places chunks (IMAGE_START.toNat + i) x

theorem regional_append {chunks more : List (ℕ × Bytes)} {i : ℕ} {x : UInt8} :
    regional (chunks ++ more) i x ↔ regional chunks i x ∨ regional more i x := places_append

theorem regional_singleton {chunk : ℕ × Bytes} {i : ℕ} {x : UInt8} :
    regional [chunk] i x ↔ cellAt chunk (IMAGE_START.toNat + i) = some x := places_singleton

theorem clipped_cell {address start size len i : ℕ} {value : Bytes} {x : UInt8}
    (hlen : value.length = len) (hi : i < size) :
    cellAt (address, value) (start + i) = some x ↔
      ∃ k < min (address + len) (start + size) - max address start,
        i = max address start - start + k ∧ value[max address start - address + k]? = some x := by
  rw [cellAt_eq_some]
  constructor
  · rintro ⟨j, hj, hx⟩
    have hlt := (List.getElem?_eq_some_iff.mp hx).1
    dsimp only at hj hx hlt
    refine ⟨start + i - max address start, by omega, by omega, ?_⟩
    rw [← hx]
    congr 1
    omega
  · rintro ⟨k, hk, rfl, hx⟩
    refine ⟨_, ?_, hx⟩
    dsimp only
    omega

section Records

variable {s : Extraction} {done : List (ℕ × Bytes)} {offset : UInt16} {value : Value}

def reaches (address len : ℕ) : Bool :=
  max address IMAGE_START.toNat < min (address + len) (IMAGE_START.toNat + IMAGE_SIZE)

theorem extractRecord_settles (h : Holds s (regional done))
    (hfit : s.base + offset.toNat + value.val.length < 2 ^ 32) :
    Settles (extractRecord s (.data offset value))
      (regional (done ++ [(s.base + offset.toNat, value.val)])) s.base
      (s.sawRegionData || reaches (s.base + offset.toNat) value.val.length) := by
  obtain ⟨address, haddress⟩ : ∃ a, s.base + offset.toNat = a := ⟨_, rfl⟩
  rw [haddress] at hfit ⊢
  have hstart : checkedAdd 32 s.base offset.toNat = some address :=
    checkedAdd_eq_some.mpr ⟨by omega, haddress.symm⟩
  have hstop : checkedAdd 32 address value.val.length = some (address + value.val.length) :=
    checkedAdd_eq_some.mpr ⟨hfit, rfl⟩
  have hcell : ∀ i < IMAGE_SIZE, ∀ x, regional (done ++ [(address, value.val)]) i x ↔
      Copied (regional done) value.val (max address IMAGE_START.toNat - address)
        (max address IMAGE_START.toNat - IMAGE_START.toNat)
        (min (address + value.val.length) (IMAGE_START.toNat + IMAGE_SIZE) -
          max address IMAGE_START.toNat) i x := by
    intro i hi x
    rw [regional_append, regional_singleton, clipped_cell rfl hi, Copied]
  simp only [extractRecord, hstart, hstop, ofOption, ok_bind]
  by_cases hreach : max address IMAGE_START.toNat <
      min (address + value.val.length) (IMAGE_START.toNat + IMAGE_SIZE)
  · rw [if_pos hreach, reaches, decide_eq_true hreach, Bool.or_true]
    have hholds : Holds { s with sawRegionData := true } (regional done) :=
      ⟨h.image, h.written, h.cell⟩
    exact (copyRegion_settles hholds (by omega) (by omega)).congr hcell
  · rw [if_neg hreach, reaches, decide_eq_false hreach, Bool.or_false]
    refine .inl ⟨s, rfl, h.congr ?_, rfl, rfl⟩
    intro i hi x
    rw [hcell i hi x, Copied, Nat.sub_eq_zero_of_le (Nat.le_of_not_lt hreach)]
    simp

theorem extractRecord_other {record : Record} (h : ∀ offset value, record ≠ .data offset value) :
    extractRecord s record = .ok { s with base := nextBase s.base record } := by
  cases record with
  | data offset value => exact absurd rfl (h offset value)
  | endOfFile => rfl
  | extendedSegmentAddress segment => rfl
  | startSegmentAddress cs ip => rfl
  | extendedLinearAddress upper => rfl
  | startLinearAddress address => rfl

theorem extractRecord_overflow (h : 2 ^ 32 ≤ s.base + offset.toNat + value.val.length) :
    ∃ chain, extractRecord s (.data offset value) = .error (.error chain) := by
  by_cases hstart : s.base + offset.toNat < 2 ^ 32
  · have hstop : checkedAdd 32 (s.base + offset.toNat) value.val.length = none :=
      if_neg (by omega)
    simp only [extractRecord, checkedAdd_eq_some.mpr ⟨hstart, rfl⟩, hstop, ofOption, ok_bind]
    exact ⟨_, rfl⟩
  · have hnone : checkedAdd 32 s.base offset.toNat = none := if_neg hstart
    simp only [extractRecord, hnone, ofOption]
    exact ⟨_, rfl⟩

theorem reaches_iff {address : ℕ} {v : Bytes} :
    reaches address v.length = true ↔ ∃ i < IMAGE_SIZE, ∃ x, regional [(address, v)] i x := by
  rw [reaches, decide_eq_true_eq]
  constructor
  · intro h
    have hlt : max address IMAGE_START.toNat - address < v.length := by omega
    obtain ⟨x, hx⟩ : ∃ x, v[max address IMAGE_START.toNat - address]? = some x :=
      ⟨_, List.getElem?_eq_getElem hlt⟩
    refine ⟨max address IMAGE_START.toNat - IMAGE_START.toNat, by omega, x, ?_⟩
    rw [regional_singleton, cellAt_eq_some]
    refine ⟨_, ?_, hx⟩
    dsimp only
    omega
  · rintro ⟨i, hi, x, hx⟩
    obtain ⟨hlow, hhigh⟩ := cellAt_inside (regional_singleton.mp hx)
    dsimp only at hlow hhigh
    omega

theorem saw_append {saw : Bool} {chunk : ℕ × Bytes}
    (hsaw : saw = true ↔ ∃ i < IMAGE_SIZE, ∃ x, regional done i x) :
    (saw || reaches chunk.1 chunk.2.length) = true ↔
      ∃ i < IMAGE_SIZE, ∃ x, regional (done ++ [chunk]) i x := by
  rw [Bool.or_eq_true, hsaw, reaches_iff]
  simp only [regional_append, exists_or, and_or_left]

/-- The records that are left, after those before them have placed `done`. -/
theorem extractRecords_settle (records : List Record) (h : Holds s (regional done))
    (hsaw : s.sawRegionData = true ↔ ∃ i < IMAGE_SIZE, ∃ x, regional done i x) :
    (∃ s', records.foldlM extractRecord s = .ok s' ∧
      Holds s' (regional (done ++ placed s.base records)) ∧
      (s'.sawRegionData = true ↔
        ∃ i < IMAGE_SIZE, ∃ x, regional (done ++ placed s.base records) i x) ∧
      Addressable (placed s.base records)) ∨
    ((∃ chain, records.foldlM extractRecord s = .error (.error chain)) ∧
      (Addressable (placed s.base records) →
        Conflict (regional (done ++ placed s.base records)))) := by
  induction records generalizing s done with
  | nil =>
    rw [placed, List.append_nil]
    exact .inl ⟨s, rfl, h, hsaw, by simp [Addressable]⟩
  | cons record records ih =>
    rw [List.foldlM_cons]
    obtain ⟨offset, value, rfl⟩ | hother := record.data_or
    · rw [placed_data]
      by_cases hfit : s.base + offset.toNat + value.val.length < 2 ^ 32
      · rcases extractRecord_settles h hfit with
          ⟨next, hrun, hholds, hbase, hnext⟩ | ⟨⟨chain, hrun⟩, hconf⟩
        · have hrest := ih hholds (by rw [hnext]; exact @saw_append done _ (_, value.val) hsaw)
          rw [hbase, List.append_assoc, List.singleton_append] at hrest
          rw [hrun, ok_bind]
          simpa only [Addressable, List.forall_mem_cons, hfit, true_and] using hrest
        · refine .inr ⟨⟨chain, by rw [hrun]; rfl⟩, fun _ => hconf.mono ?_⟩
          intro i _ x hx
          rw [← List.singleton_append, ← List.append_assoc, regional_append]
          exact .inl hx
      · obtain ⟨chain, hrun⟩ := extractRecord_overflow (Nat.le_of_not_lt hfit)
        refine .inr ⟨⟨chain, by rw [hrun]; rfl⟩, fun hall => ?_⟩
        exact absurd (hall _ List.mem_cons_self) hfit
    · rw [extractRecord_other hother, placed_other hother, ok_bind]
      have hholds : Holds { s with base := nextBase s.base record } (regional done) :=
        ⟨h.image, h.written, h.cell⟩
      exact ih hholds hsaw

end Records

def InRegion (a : ℕ) : Prop :=
  IMAGE_START.toNat ≤ a ∧ a < IMAGE_START.toNat + IMAGE_SIZE

/-- What a file has to satisfy: its data stays inside the address space, some of it is in the
region, and no two bytes for one address of the region differ. -/
structure Extractable (chunks : List (ℕ × Bytes)) : Prop where
  addressable : Addressable chunks
  data : ∃ a x, InRegion a ∧ Places chunks a x
  unique : ∀ a x y, InRegion a → Places chunks a x → Places chunks a y → x = y

/-- Every byte of the region is the one that is placed there, or erased. -/
structure RegionImage (chunks : List (ℕ × Bytes)) (image : Bytes) : Prop where
  length : image.length = IMAGE_SIZE
  placed : ∀ i < IMAGE_SIZE, ∀ x, Places chunks (IMAGE_START.toNat + i) x → image[i]? = some x
  hole : ∀ i < IMAGE_SIZE, (∀ x, ¬ Places chunks (IMAGE_START.toNat + i) x) →
    image[i]? = some 0xFF

section Extract

variable {chunks more : List (ℕ × Bytes)} {image other : Bytes} {lines : List Line}

theorem inRegion_iff {a : ℕ} : InRegion a ↔ ∃ i < IMAGE_SIZE, a = IMAGE_START.toNat + i := by
  unfold InRegion
  constructor
  · rintro ⟨hlow, hhigh⟩
    exact ⟨a - IMAGE_START.toNat, by omega, by omega⟩
  · rintro ⟨i, hi, rfl⟩
    omega

theorem conflict_iff : Conflict (regional chunks) ↔
    ¬ ∀ a x y, InRegion a → Places chunks a x → Places chunks a y → x = y := by
  constructor
  · rintro ⟨i, hi, x, y, hx, hy, hne⟩ hunique
    exact hne (hunique _ x y (inRegion_iff.mpr ⟨i, hi, rfl⟩) hx hy)
  · intro h
    by_contra hnone
    apply h
    intro a x y ha hx hy
    obtain ⟨i, hi, rfl⟩ := inRegion_iff.mp ha
    by_contra hne
    exact hnone ⟨i, hi, x, y, hx, hy, hne⟩

theorem data_iff : (∃ a x, InRegion a ∧ Places chunks a x) ↔
    ∃ i < IMAGE_SIZE, ∃ x, regional chunks i x := by
  constructor
  · rintro ⟨a, x, ha, hx⟩
    obtain ⟨i, hi, rfl⟩ := inRegion_iff.mp ha
    exact ⟨i, hi, x, hx⟩
  · rintro ⟨i, hi, x, hx⟩
    exact ⟨_, x, inRegion_iff.mpr ⟨i, hi, rfl⟩, hx⟩

theorem Holds.regionImage {s : Extraction} (h : Holds s (regional chunks)) :
    RegionImage chunks s.image := by
  refine ⟨h.image, ?_, ?_⟩
  · intro i hi x hx
    rcases h.cell i hi with ⟨-, b, hb, huniq⟩ | ⟨-, -, hnone⟩
    · rw [hb, (huniq x).mp hx]
    · exact absurd hx (hnone x)
  · intro i hi hnone
    rcases h.cell i hi with ⟨-, b, -, huniq⟩ | ⟨-, hb, -⟩
    · exact absurd ((huniq b).mpr rfl) (hnone b)
    · exact hb

theorem RegionImage.eq (h : RegionImage chunks image) (hmore : RegionImage more other)
    (heq : ∀ a x, InRegion a → (Places chunks a x ↔ Places more a x)) : image = other := by
  apply List.ext_getElem?
  intro i
  by_cases hi : i < IMAGE_SIZE
  · have hregion := inRegion_iff.mpr ⟨i, hi, rfl⟩
    by_cases hsome : ∃ x, Places chunks (IMAGE_START.toNat + i) x
    · obtain ⟨x, hx⟩ := hsome
      rw [h.placed i hi x hx, hmore.placed i hi x ((heq _ x hregion).mp hx)]
    · have hnone : ∀ x, ¬ Places chunks (IMAGE_START.toNat + i) x := fun x hx => hsome ⟨x, hx⟩
      rw [h.hole i hi hnone, hmore.hole i hi fun x hx => hnone x ((heq _ x hregion).mpr hx)]
  · rw [List.getElem?_eq_none (by rw [h.length]; omega),
      List.getElem?_eq_none (by rw [hmore.length]; omega)]

theorem Extractable.congr (h : Extractable chunks) (hmore : Addressable more)
    (heq : ∀ a x, InRegion a → (Places chunks a x ↔ Places more a x)) : Extractable more := by
  obtain ⟨a, x, ha, hx⟩ := h.data
  refine ⟨hmore, ⟨a, x, ha, (heq a x ha).mp hx⟩, ?_⟩
  intro a x y ha hx hy
  exact h.unique a x y ha ((heq a x ha).mpr hx) ((heq a y ha).mpr hy)

end Extract

section File

variable {reader : Reader} {bytes : Bytes} {text : String}

theorem extract_settles (reader : Reader) (htext : fromUtf8 bytes = .ok text) :
    (∃ image records, extractBootloaderRegionFromHex reader bytes = .ok image ∧
      Ends (reader text) records ∧ Extractable (placed 0 records) ∧
      RegionImage (placed 0 records) image) ∨
    ((∃ chain, extractBootloaderRegionFromHex reader bytes = .error (.error chain)) ∧
      ∀ records, Ends (reader text) records → ¬ Extractable (placed 0 records)) := by
  have hnothing : Holds erased (regional []) :=
    holds_erased.congr fun i _ x => by simp [regional, Places]
  have hfresh : erased.sawRegionData = true ↔ ∃ i < IMAGE_SIZE, ∃ x, regional [] i x := by
    simp [erased, regional, Places]
  have hrecords := extractRecords_settle (leading (reader text)) hnothing hfresh
  simp only [List.nil_append] at hrecords
  rw [extractBootloaderRegionFromHex, context_eq_ok.mpr htext, ok_bind]
  rcases hrecords with ⟨s, hrun, hholds, hsaw, hfit⟩ | ⟨⟨chain, hrun⟩, hconf⟩
  · rcases untilEof_ends hrun with ⟨hseen, hends⟩ | ⟨hunseen, hnone⟩
    · simp only [hseen, ok_bind]
      cases hdata : s.sawRegionData with
      | false =>
        refine .inr ⟨⟨_, rfl⟩, ?_⟩
        intro records hends hextract
        obtain ⟨rfl, -⟩ := ends_iff.mp hends
        have hsome := hsaw.mpr (data_iff.mp hextract.data)
        rw [hdata] at hsome
        cases hsome
      | true =>
        refine .inl ⟨s.image, _, rfl, hends, ?_, hholds.regionImage⟩
        refine ⟨hfit, data_iff.mpr (hsaw.mp hdata), ?_⟩
        by_contra hnone
        exact hholds.no_conflict (conflict_iff.mpr hnone)
    · refine .inr ⟨?_, fun records hends => absurd hends (hnone records)⟩
      rcases hunseen with hseen | ⟨chain, hfail⟩
      · rw [hseen, ok_bind]
        exact ⟨_, rfl⟩
      · rw [hfail]
        exact ⟨chain, rfl⟩
  · rw [untilEof_eq]
    refine .inr ⟨⟨chain, by rw [hrun]; rfl⟩, ?_⟩
    intro records hends hextract
    obtain ⟨rfl, -⟩ := ends_iff.mp hends
    exact conflict_iff.mp (hconf hextract.addressable) hextract.unique

/-- Two files that place the same bytes in the region have the same image, or none. -/
theorem extract_same {reader' : Reader} {bytes' : Bytes} {text' : String}
    {records records' : List Record} (htext : fromUtf8 bytes = .ok text)
    (htext' : fromUtf8 bytes' = .ok text') (hends : Ends (reader text) records)
    (hends' : Ends (reader' text') records') (hfit : Addressable (placed 0 records))
    (hfit' : Addressable (placed 0 records'))
    (heq : ∀ a x, InRegion a → (Places (placed 0 records) a x ↔ Places (placed 0 records') a x)) :
    (extractBootloaderRegionFromHex reader bytes).toOption =
      (extractBootloaderRegionFromHex reader' bytes').toOption := by
  have heq' := fun a x ha => (heq a x ha).symm
  rcases extract_settles reader htext with
      ⟨image, found, hrun, hfound, hextract, himage⟩ | ⟨⟨chain, hrun⟩, hnone⟩ <;>
    rcases extract_settles reader' htext' with
      ⟨image', found', hrun', hfound', hextract', himage'⟩ | ⟨⟨chain', hrun'⟩, hnone'⟩ <;>
    rw [hrun, hrun']
  · rw [Ends.unique hfound hends] at himage
    rw [Ends.unique hfound' hends'] at himage'
    rw [himage.eq himage' heq]
  · rw [Ends.unique hfound hends] at hextract
    exact absurd (hextract.congr hfit' heq) (hnone' _ hends')
  · rw [Ends.unique hfound' hends'] at hextract'
    exact absurd (hextract'.congr hfit heq') (hnone _ hends)
  · rfl

theorem extract_image {image : Bytes}
    (htext : fromUtf8 bytes = .ok text)
    (h : extractBootloaderRegionFromHex reader bytes = .ok image) :
    ∃ records, Ends (reader text) records ∧ Extractable (placed 0 records) ∧
      RegionImage (placed 0 records) image := by
  rcases extract_settles reader htext with
    ⟨found, records, hrun, hends, hextract, himage⟩ | ⟨⟨chain, hrun⟩, -⟩
  · rw [hrun] at h
    cases h
    exact ⟨records, hends, hextract, himage⟩
  · rw [hrun] at h
    cases h

theorem extract_succeeds {records : List Record} (htext : fromUtf8 bytes = .ok text)
    (hends : Ends (reader text) records) (h : Extractable (placed 0 records)) :
    ∃ image, extractBootloaderRegionFromHex reader bytes = .ok image := by
  rcases extract_settles reader htext with
    ⟨image, -, hrun, -⟩ | ⟨-, hnone⟩
  · exact ⟨image, hrun⟩
  · exact absurd h (hnone records hends)

theorem extract_returns (htext : fromUtf8 bytes = .ok text) :
    Returns (extractBootloaderRegionFromHex reader bytes) := by
  rcases extract_settles reader htext with
    ⟨image, -, hrun, -⟩ | ⟨⟨chain, hrun⟩, -⟩
  · rw [hrun]
    exact returns_ok _
  · rw [hrun]
    simp [Returns]

section Spelled

variable {image : Bytes}

def span (image : Bytes) (i : ℕ) : Value :=
  ⟨(image.drop (16 * i)).take 16, by rw [List.length_take]; omega⟩

/-- The records of an image, sixteen bytes each. -/
def spelled (image : Bytes) : List Record :=
  .extendedLinearAddress 0xF ::
    (List.range 2560).map fun i => .data (UInt16.ofNat (0x4000 + 16 * i)) (span image i)

theorem placed_map (base : ℕ) (offset : ℕ → UInt16) (value : ℕ → Value) (is : List ℕ) :
    placed base (is.map fun i => .data (offset i) (value i)) =
      is.map fun i => (base + (offset i).toNat, (value i).val) := by
  induction is with
  | nil => rfl
  | cons i is ih => exact congrArg (_ :: ·) ih

theorem placed_spelled : placed 0 (spelled image) =
    (List.range 2560).map fun i => (IMAGE_START.toNat + 16 * i, (span image i).val) := by
  have hother : ∀ offset value, Record.extendedLinearAddress 0xF ≠ .data offset value := by simp
  have hbase : nextBase 0 (.extendedLinearAddress 0xF) = 0xF0000 := rfl
  rw [spelled, placed_other hother, hbase, placed_map]
  refine List.map_congr_left fun i hi => ?_
  have hlt := List.mem_range.mp hi
  have hoffset : (UInt16.ofNat (0x4000 + 16 * i)).toNat = 0x4000 + 16 * i := by
    rw [UInt16.toNat_ofNat']
    exact Nat.mod_eq_of_lt (by omega)
  have hstart : IMAGE_START.toNat = 0xF0000 + 0x4000 := rfl
  rw [hoffset, hstart, Nat.add_assoc]

theorem span_eq_some {i j : ℕ} {x : UInt8} :
    (span image i).val[j]? = some x ↔ j < 16 ∧ image[16 * i + j]? = some x := by
  rw [span, List.getElem?_take]
  split_ifs with hj
  · rw [List.getElem?_drop]
    exact ⟨fun h => ⟨hj, h⟩, And.right⟩
  · exact ⟨nofun, fun h => absurd h.1 hj⟩

theorem spelled_places (hlen : image.length = IMAGE_SIZE) {a : ℕ} {x : UInt8} :
    Places (placed 0 (spelled image)) a x ↔
      ∃ i, a = IMAGE_START.toNat + i ∧ image[i]? = some x := by
  have hsize : IMAGE_SIZE = 16 * 2560 := rfl
  rw [placed_spelled]
  constructor
  · rintro ⟨chunk, hchunk, hcell⟩
    obtain ⟨i, -, rfl⟩ := List.mem_map.mp hchunk
    obtain ⟨j, rfl, hx⟩ := cellAt_eq_some.mp hcell
    exact ⟨16 * i + j, by omega, (span_eq_some.mp hx).2⟩
  · rintro ⟨i, rfl, hx⟩
    obtain ⟨hi, -⟩ := List.getElem?_eq_some_iff.mp hx
    refine ⟨_, List.mem_map_of_mem (List.mem_range.mpr (show i / 16 < 2560 by omega)), ?_⟩
    refine cellAt_eq_some.mpr ⟨i % 16, by dsimp only; omega, span_eq_some.mpr ⟨by omega, ?_⟩⟩
    rwa [Nat.div_add_mod]

/-- An image that a file spells record by record is read back. -/
theorem extract_spelled (hlen : image.length = IMAGE_SIZE) (htext : fromUtf8 bytes = .ok text)
    (hreader : reader text = (spelled image).map .ok ++ [.ok .endOfFile]) :
    extractBootloaderRegionFromHex reader bytes = .ok image := by
  have hends : Ends (reader text) (spelled image) := by
    refine ⟨?_, [], hreader⟩
    simp [spelled]
  have hlast : IMAGE_START.toNat + IMAGE_SIZE < 2 ^ 32 := by decide
  have hextractable : Extractable (placed 0 (spelled image)) := by
    refine ⟨?_, ?_, ?_⟩
    · intro chunk hchunk
      rw [placed_spelled] at hchunk
      obtain ⟨i, hi, rfl⟩ := List.mem_map.mp hchunk
      have hlt := List.mem_range.mp hi
      have hfit : (span image i).val.length ≤ 255 := (span image i).property
      have hstart : IMAGE_START.toNat = 0xF4000 := rfl
      simp only
      omega
    · have hpos : 0 < image.length := by rw [hlen]; decide
      exact ⟨_, image[0], inRegion_iff.mpr ⟨0, by decide, rfl⟩,
        (spelled_places hlen).mpr ⟨0, rfl, List.getElem?_eq_getElem hpos⟩⟩
    · intro a x y _ hx hy
      obtain ⟨i, hi, hfirst⟩ := (spelled_places hlen).mp hx
      obtain ⟨j, hj, hsecond⟩ := (spelled_places hlen).mp hy
      obtain rfl : i = j := by omega
      exact Option.some.inj (hfirst.symm.trans hsecond)
  have hspelled : RegionImage (placed 0 (spelled image)) image := by
    refine ⟨hlen, fun i _ x hx => ?_, fun i hi hnone => ?_⟩
    · obtain ⟨j, hj, hcell⟩ := (spelled_places hlen).mp hx
      obtain rfl : i = j := by omega
      exact hcell
    · have hcell : image[i]? = some (image.getD i 0) := by
        rw [List.getD_eq_getElem?_getD, List.getElem?_eq_getElem (by omega)]
        rfl
      exact absurd ((spelled_places hlen).mpr ⟨i, rfl, hcell⟩) (hnone _)
  obtain ⟨other, hrun⟩ := extract_succeeds htext hends hextractable
  obtain ⟨records, hfound, -, hother⟩ := extract_image htext hrun
  obtain rfl := hends.unique hfound
  rw [hrun, hother.eq hspelled fun _ _ _ => Iff.rfl]

end Spelled

/-- Extraction succeeds exactly on extractable files and returns what they place in the region.
It never panics, and what is placed in the region is all that matters. -/
theorem extractBootloaderRegionFromHex_exact (htext : fromUtf8 bytes = .ok text) :
    ((∃ image, extractBootloaderRegionFromHex reader bytes = .ok image) ↔
      ∃ records, Ends (reader text) records ∧ Extractable (placed 0 records)) ∧
    (∀ image, extractBootloaderRegionFromHex reader bytes = .ok image →
      ∃ records, Ends (reader text) records ∧ RegionImage (placed 0 records) image) ∧
    Returns (extractBootloaderRegionFromHex reader bytes) ∧
    ∀ (reader' : Reader) (bytes' : Bytes) (text' : String) (records records' : List Record),
      fromUtf8 bytes' = .ok text' → Ends (reader text) records → Ends (reader' text') records' →
      Addressable (placed 0 records) → Addressable (placed 0 records') →
      (placed 0 records).Perm (placed 0 records') ∨
        (∀ a x, InRegion a → (Places (placed 0 records) a x ↔ Places (placed 0 records') a x)) →
      (extractBootloaderRegionFromHex reader bytes).toOption =
        (extractBootloaderRegionFromHex reader' bytes').toOption := by
  refine ⟨⟨?_, ?_⟩, ?_, extract_returns htext, ?_⟩
  · rintro ⟨image, h⟩
    obtain ⟨records, hends, hextract, -⟩ := extract_image htext h
    exact ⟨records, hends, hextract⟩
  · rintro ⟨records, hends, hextract⟩
    exact extract_succeeds htext hends hextract
  · intro image h
    obtain ⟨records, hends, -, himage⟩ := extract_image htext h
    exact ⟨records, hends, himage⟩
  · intro reader' bytes' text' records records' htext' hends hends' hfit hfit' heq
    apply extract_same htext htext' hends hends' hfit hfit'
    rcases heq with hperm | heq
    · intro a x _
      exact ⟨Places.perm hperm, Places.perm hperm.symm⟩
    · exact heq

def regionText : String :=
  ":0100100001EE\n:02000004000FEB\n:01400000AA15\n:01400300BB01\n:00000001FF\n"

def regionRecords : List Record :=
  [.data 0x10 (.byte 0x01), .extendedLinearAddress 0xF, .data 0x4000 (.byte 0xAA),
    .data 0x4003 (.byte 0xBB)]

theorem regionRecords_places {a : ℕ} {x : UInt8} : Places (placed 0 regionRecords) a x ↔
    a = 0x10 ∧ x = 0x01 ∨ a = 0xF4000 ∧ x = 0xAA ∨ a = 0xF4003 ∧ x = 0xBB := by
  have hbyte : ∀ (start : ℕ) (b : UInt8),
      cellAt ((start, [b]) : ℕ × Bytes) a = some x ↔ a = start ∧ x = b := by
    intro start b
    rw [cellAt_eq_some]
    constructor
    · rintro ⟨i, rfl, hx⟩
      obtain ⟨hi, rfl⟩ := List.getElem?_eq_some_iff.mp hx
      obtain rfl : i = 0 := Nat.lt_one_iff.mp hi
      exact ⟨rfl, rfl⟩
    · rintro ⟨rfl, rfl⟩
      exact ⟨0, rfl, rfl⟩
  have hchunks : placed 0 regionRecords = [(0x10, [0x01]), (0xF4000, [0xAA]), (0xF4003, [0xBB])] :=
    rfl
  simp only [hchunks, Places, List.mem_cons, List.not_mem_nil, or_false, exists_eq_or_imp,
    exists_eq_left, hbyte]

theorem extractBootloaderRegionFromHex_exact_holed : ∃ image,
    extractBootloaderRegionFromHex (listed regionText (regionRecords.map .ok ++ [.ok .endOfFile]))
      (utf8 regionText) = .ok image ∧
    image[0]? = some 0xAA ∧ image[1]? = some 0xFF ∧ image[3]? = some 0xBB := by
  have htext : fromUtf8 (utf8 regionText) = .ok regionText := by decide +kernel
  have hstart : IMAGE_START.toNat = 0xF4000 := rfl
  have hsize : IMAGE_SIZE = 40960 := rfl
  have hends : Ends (regionRecords.map Except.ok ++ [.ok .endOfFile]) regionRecords :=
    ⟨by simp [regionRecords], [], rfl⟩
  have hextractable : Extractable (placed 0 regionRecords) := by
    refine ⟨?_, ⟨0xF4000, 0xAA, ⟨by decide, by decide⟩, ?_⟩, ?_⟩
    · simp [Addressable, regionRecords, placed, nextBase, Value.byte]
    · exact regionRecords_places.mpr (.inr (.inl ⟨rfl, rfl⟩))
    · rintro a x y - hx hy
      rw [regionRecords_places] at hx hy
      obtain ⟨ha, rfl⟩ | ⟨ha, rfl⟩ | ⟨ha, rfl⟩ := hx <;>
        obtain ⟨hb, rfl⟩ | ⟨hb, rfl⟩ | ⟨hb, rfl⟩ := hy <;> first | rfl | omega
  obtain ⟨hsucceeds, himage, -⟩ := @extractBootloaderRegionFromHex_exact (listed regionText _) _ _
    htext
  rw [listed_lines] at hsucceeds himage
  obtain ⟨image, hrun⟩ := hsucceeds.mpr ⟨regionRecords, hends, hextractable⟩
  obtain ⟨records, hother, hregion⟩ := himage image hrun
  obtain rfl := hends.unique hother
  refine ⟨image, hrun, hregion.placed 0 (by decide) _ ?_, hregion.hole 1 (by decide) ?_,
    hregion.placed 3 (by decide) _ ?_⟩
  · exact regionRecords_places.mpr (.inr (.inl ⟨rfl, rfl⟩))
  · intro x hx
    rw [regionRecords_places] at hx
    omega
  · exact regionRecords_places.mpr (.inr (.inr ⟨rfl, rfl⟩))

end File

end MotaTool.Bootloader
