import MotaTool.Serve.Seeder
import MotaTool.VerifySpec
import Mathlib.Data.List.Lex
import Mathlib.Data.List.Sort

/-!
# The folder

A scan keeps the files of a walk that have the extension and verify, reports
the others of that extension, and sorts what it keeps by path: the place in
that order is how a peer addresses a container. The walk is a parameter. Its
order, and files that are not kept, have no influence on the places.
-/

namespace MotaTool.Serve

open Base Run Format

/-- What a walk yields: the components of a path, its depth below the directory, whether it is a
file, and what reading it gives. -/
structure Entry where
  path : List Bytes
  depth : ℕ
  isFile : Bool
  contents : Option Bytes

def dot : UInt8 := 0x2e

def nameExtension (name : Bytes) : Option Bytes :=
  if name = [dot, dot] then none
  else
    let after := (name.reverse.takeWhile fun b => b ≠ dot).reverse
    if dot ∈ name ∧ name.take (name.length - after.length - 1) ≠ [] then some after else none

def extension (path : List Bytes) : Option Bytes := path.getLast?.bind nameExtension

def MOTA : Bytes := ascii ['m', 'o', 't', 'a']

structure Catalogued (c : Crypto) where
  path : List Bytes
  served : ServedMota c

structure Scanned (c : Crypto) where
  motas : List (Catalogued c)
  warnings : List (List Bytes × String)

def Scanned.warn {c : Crypto} (scanned : Scanned c) (path : List Bytes) (why : String) :
    Scanned c :=
  { scanned with warnings := scanned.warnings ++ [(path, why)] }

def scanEntry (c : Crypto) (scanned : Scanned c) (entry : Entry) : Run (Scanned c) :=
  if entry.isFile = false ∨ extension entry.path ≠ some MOTA then .ok scanned
  else
    match entry.contents with
    | none => .ok (scanned.warn entry.path "cannot read")
    | some bytes =>
      match hverify : verify c bytes with
      | .error fault => .error fault
      | .ok (problem :: problems) =>
        .ok (scanned.warn entry.path (String.intercalate "; " (problem :: problems)))
      | .ok [] =>
        match hparse : Manifest.parse c bytes with
        | .ok manifest =>
          .ok { scanned with
            motas := scanned.motas ++ [⟨entry.path, ⟨bytes, manifest, hparse, hverify⟩⟩] }
        -- `expect("verified above")`
        | .error _ => Run.panic

def USIZE_MAX : ℕ := 2 ^ 64 - 1

def reached (walk : List Entry) (recursive : Bool) : List Entry :=
  walk.filter fun entry => decide (entry.depth ≤ if recursive then USIZE_MAX else 1)

/-- Paths are ordered by their components, and these by their bytes. -/
def pathKey (path : List Bytes) : List (List ℕ) := path.map fun name => name.map UInt8.toNat

def Catalogued.before {c : Crypto} (a b : Catalogued c) : Prop := pathKey a.path ≤ pathKey b.path

instance {c : Crypto} : DecidableRel (@Catalogued.before c) := fun _ _ =>
  inferInstanceAs (Decidable (_ ≤ _))

def Folder.scan (c : Crypto) (walk : List Entry) (recursive : Bool) : Run (Scanned c) := do
  let scanned ← (reached walk recursive).foldlM (scanEntry c) ⟨[], []⟩
  .ok { scanned with motas := scanned.motas.insertionSort Catalogued.before }

section Extension

variable {name stem ext : Bytes}

theorem nameExtension_split (hext : dot ∉ ext) : nameExtension (stem ++ dot :: ext) =
    if stem ≠ [] ∧ stem ++ dot :: ext ≠ [dot, dot] then some ext else none := by
  have hafter : ((stem ++ dot :: ext).reverse.takeWhile fun b => b ≠ dot).reverse = ext := by
    rw [List.reverse_append, List.reverse_cons, List.append_assoc, List.takeWhile_append_of_pos]
    · simp
    · intro b hb
      simpa using fun heq : b = dot => hext (heq ▸ List.mem_reverse.mp hb)
  have hbefore : (stem ++ dot :: ext).take ((stem ++ dot :: ext).length - ext.length - 1) =
      stem := by
    have hlen : (stem ++ dot :: ext).length - ext.length - 1 = stem.length := by
      rw [List.length_append, List.length_cons]
      omega
    rw [hlen, List.take_left]
  have hdot : dot ∈ stem ++ dot :: ext := by simp
  simp only [nameExtension, hafter, hbefore, hdot, true_and]
  by_cases hparent : stem ++ dot :: ext = [dot, dot]
  · rw [if_pos hparent, if_neg fun h => h.2 hparent]
  · rw [if_neg hparent]
    simp only [ne_eq, hparent, not_false_eq_true, and_true]

theorem nameExtension_eq_some : nameExtension name = some ext ↔
    ∃ stem, stem ≠ [] ∧ name = stem ++ dot :: ext ∧ dot ∉ ext ∧ name ≠ [dot, dot] := by
  constructor
  · intro h
    have hdot : dot ∈ name := by
      unfold nameExtension at h
      by_contra hnone
      simp [hnone] at h
    obtain ⟨after, before, hsplit, hafter⟩ :=
      List.eq_append_cons_of_mem (List.mem_reverse.mpr hdot)
    have hname : name = before.reverse ++ dot :: after.reverse := by
      rw [← List.reverse_reverse name, hsplit]
      simp
    rw [hname, nameExtension_split (by simpa using hafter)] at h
    split_ifs at h with hstem
    cases h
    exact ⟨before.reverse, hstem.1, hname, by simpa using hafter, hname ▸ hstem.2⟩
  · rintro ⟨stem, hstem, rfl, hext, hname⟩
    rw [nameExtension_split hext, if_pos ⟨hstem, hname⟩]

end Extension

section Entries

variable {c : Crypto} {entry : Entry} {bytes : Bytes}

theorem verify_ok (c : Crypto) (bytes : Bytes) : ∃ found, verify c bytes = .ok found := by
  unfold verify
  have hreturns := Manifest.parse_returns c bytes
  cases hparse : Manifest.parse c bytes with
  | ok m => exact problems_ok (Manifest.parse_parsed hparse)
  | error fault =>
    rw [hparse] at hreturns
    cases fault with
    | error chain => exact ⟨_, rfl⟩
    | panic => exact absurd rfl hreturns.1
    | spin => exact absurd rfl hreturns.2

def found (c : Crypto) (bytes : Bytes) : List String :=
  match verify c bytes with
  | .ok problems => problems
  | .error _ => []

theorem verify_found (c : Crypto) (bytes : Bytes) : verify c bytes = .ok (found c bytes) := by
  obtain ⟨problems, h⟩ := verify_ok c bytes
  rw [found, h]

def Entry.IsMota (entry : Entry) : Prop := entry.isFile = true ∧ extension entry.path = some MOTA

instance (entry : Entry) : Decidable entry.IsMota := inferInstanceAs (Decidable (_ ∧ _))

def Entry.kept (c : Crypto) (entry : Entry) : Option (List Bytes × Bytes) :=
  if entry.IsMota then
    (entry.contents.filter fun bytes => found c bytes = []).map fun bytes => (entry.path, bytes)
  else none

def Entry.warning (c : Crypto) (entry : Entry) : Option (List Bytes × String) :=
  if entry.IsMota then
    match entry.contents with
    | none => some (entry.path, "cannot read")
    | some bytes =>
      if found c bytes = [] then none
      else some (entry.path, String.intercalate "; " (found c bytes))
  else none

theorem kept_xor_warning (h : entry.IsMota) :
    (entry.kept c).isSome = true ↔ entry.warning c = none := by
  rw [Entry.kept, if_pos h, Entry.warning, if_pos h]
  cases entry.contents with
  | none => simp
  | some bytes =>
    by_cases hfound : found c bytes = [] <;> simp [Option.filter, hfound]

theorem kept_eq_some {path : List Bytes} : entry.kept c = some (path, bytes) ↔
    entry.IsMota ∧ entry.path = path ∧ entry.contents = some bytes ∧ verify c bytes = .ok [] := by
  rw [Entry.kept, verify_found, Except.ok.injEq]
  by_cases h : entry.IsMota
  · rw [if_pos h, Option.map_eq_some_iff]
    simp only [Option.filter_eq_some_iff, decide_eq_true_eq, Prod.mk.injEq]
    constructor
    · rintro ⟨_, ⟨hcontents, hfound⟩, hpath, rfl⟩
      exact ⟨h, hpath, hcontents, hfound⟩
    · rintro ⟨-, hpath, hcontents, hfound⟩
      exact ⟨bytes, ⟨hcontents, hfound⟩, hpath, rfl⟩
  · simp [h]

end Entries

section Scan

variable {c : Crypto} {walk more : List Entry} {recursive : Bool} {scanned other : Scanned c}

def Catalogued.key (m : Catalogued c) : List Bytes × Bytes := (m.path, m.served.bytes)

theorem ServedMota.ext_bytes {served served' : ServedMota c} (h : served.bytes = served'.bytes) :
    served = served' := by
  obtain ⟨bytes, m, hparse, hverify⟩ := served
  obtain ⟨bytes', m', hparse', hverify'⟩ := served'
  obtain rfl : bytes = bytes' := h
  rw [hparse] at hparse'
  cases hparse'
  rfl

theorem key_injective : Function.Injective (@Catalogued.key c) := by
  rintro ⟨path, served⟩ ⟨path', served'⟩ h
  simp only [Catalogued.key, Prod.mk.injEq] at h
  rw [h.1, ServedMota.ext_bytes h.2]

theorem scanEntry_adds (scanned : Scanned c) (entry : Entry) : ∃ next,
    scanEntry c scanned entry = .ok next ∧
      next.motas.map Catalogued.key = scanned.motas.map Catalogued.key ++ (entry.kept c).toList ∧
      next.warnings = scanned.warnings ++ (entry.warning c).toList := by
  rw [Entry.kept, Entry.warning, scanEntry]
  by_cases h : entry.IsMota
  · obtain ⟨hfile, hextension⟩ := id h
    rw [if_neg (by simp [hfile, hextension]), if_pos h, if_pos h]
    cases hcontents : entry.contents with
    | none => exact ⟨_, rfl, by simp [Scanned.warn], by simp [Scanned.warn]⟩
    | some bytes =>
      simp only
      split
      · next fault hverify => simp [verify_found] at hverify
      · next problem problems hverify =>
        rw [verify_found, Except.ok.injEq] at hverify
        exact ⟨_, rfl, by simp [Scanned.warn, Option.filter, hverify],
          by simp [Scanned.warn, hverify]⟩
      · next hverify =>
        split
        · next m hparse =>
          have hfound := verify_found c bytes
          rw [hverify, Except.ok.injEq] at hfound
          exact ⟨_, rfl, by simp [Option.filter, ← hfound, Catalogued.key],
            by simp [← hfound]⟩
        · next fault hparse =>
          -- a container that verifies parses
          obtain ⟨m, hm, -⟩ := verify_eq_nil.mp hverify
          rw [hparse] at hm
          cases hm
  · rw [if_pos, if_neg h, if_neg h]
    · exact ⟨scanned, rfl, by simp, by simp⟩
    · by_contra hnot
      rw [not_or, Bool.not_eq_false, not_not] at hnot
      exact h hnot

theorem scanEntries_adds (entries : List Entry) (scanned : Scanned c) : ∃ next,
    entries.foldlM (scanEntry c) scanned = .ok next ∧
      next.motas.map Catalogued.key =
        scanned.motas.map Catalogued.key ++ entries.filterMap (Entry.kept c) ∧
      next.warnings = scanned.warnings ++ entries.filterMap (Entry.warning c) := by
  induction entries generalizing scanned with
  | nil => exact ⟨scanned, rfl, by simp, by simp⟩
  | cons entry entries ih =>
    obtain ⟨next, hentry, hmotas, hwarnings⟩ := scanEntry_adds scanned entry
    obtain ⟨last, hentries, hmotas', hwarnings'⟩ := ih next
    refine ⟨last, by rw [List.foldlM_cons, hentry, ok_bind, hentries], ?_, ?_⟩
    · rw [hmotas', hmotas, List.append_assoc]
      cases hkept : entry.kept c <;> simp [hkept]
    · rw [hwarnings', hwarnings, List.append_assoc]
      cases hwarning : entry.warning c <;> simp [hwarning]

theorem pathKey_injective : Function.Injective pathKey :=
  List.map_injective_iff.mpr (List.map_injective_iff.mpr fun _ _ => UInt8.toNat_inj.mp)

theorem folder_adds (walk : List Entry) (recursive : Bool) : ∃ scanned,
    Folder.scan c walk recursive = .ok scanned ∧
      (scanned.motas.map Catalogued.key).Perm
        ((reached walk recursive).filterMap (Entry.kept c)) ∧
      scanned.motas.Pairwise Catalogued.before ∧
      scanned.warnings = (reached walk recursive).filterMap (Entry.warning c) := by
  obtain ⟨next, hentries, hmotas, hwarnings⟩ :=
    scanEntries_adds (reached walk recursive) (⟨[], []⟩ : Scanned c)
  refine ⟨{ next with motas := next.motas.insertionSort Catalogued.before },
    by rw [Folder.scan, hentries, ok_bind], ?_, ?_, hwarnings⟩
  · rw [List.map_nil, List.nil_append] at hmotas
    rw [← hmotas]
    exact (List.perm_insertionSort Catalogued.before next.motas).map Catalogued.key
  · exact List.pairwise_insertionSort (fun a b : Catalogued c => pathKey a.path ≤ pathKey b.path)
      next.motas

theorem catalogue_unique {kept kept' : List (List Bytes × Bytes)}
    (hperm : (scanned.motas.map Catalogued.key).Perm kept)
    (hperm' : (other.motas.map Catalogued.key).Perm kept') (hsame : kept.Perm kept')
    (hpaths : (kept.map Prod.fst).Nodup) (hsorted : scanned.motas.Pairwise Catalogued.before)
    (hsorted' : other.motas.Pairwise Catalogued.before) : scanned.motas = other.motas := by
  have hkeys : (scanned.motas.map Catalogued.key).Pairwise fun a b => pathKey a.1 ≤ pathKey b.1 :=
    List.pairwise_map.mpr hsorted
  have hkeys' : (other.motas.map Catalogued.key).Pairwise fun a b => pathKey a.1 ≤ pathKey b.1 :=
    List.pairwise_map.mpr hsorted'
  refine List.map_injective_iff.mpr key_injective ?_
  refine List.Perm.eq_of_pairwise (fun a b ha hb hab hba => ?_) hkeys hkeys'
    (hperm.trans (hsame.trans hperm'.symm))
  have hpath : a.1 = b.1 := pathKey_injective (le_antisymm hab hba)
  exact List.inj_on_of_nodup_map hpaths (hperm.mem_iff.mp ha)
    (hsame.mem_iff.mpr (hperm'.mem_iff.mp hb)) hpath

end Scan

/-- A scan never fails. It keeps exactly the files of the extension that verify, in the order of
their paths, and reports every other file of the extension, in the order of the walk. -/
theorem folder_exact (c : Crypto) (walk : List Entry) (recursive : Bool) : ∃ scanned,
    Folder.scan c walk recursive = .ok scanned ∧
      (scanned.motas.map Catalogued.key).Perm
        ((reached walk recursive).filterMap (Entry.kept c)) ∧
      scanned.motas.Pairwise Catalogued.before ∧
      scanned.warnings = (reached walk recursive).filterMap (Entry.warning c) ∧
      (∀ entry ∈ walk, ∀ path bytes, entry.kept c = some (path, bytes) ↔
        (entry.isFile = true ∧ extension entry.path = some MOTA) ∧ entry.path = path ∧
          entry.contents = some bytes ∧ verify c bytes = .ok []) ∧
      ∀ entry ∈ walk, entry.isFile = true ∧ extension entry.path = some MOTA →
        ((entry.kept c).isSome = true ↔ entry.warning c = none) := by
  obtain ⟨scanned, hscan, hperm, hsorted, hwarnings⟩ := @folder_adds c walk recursive
  exact ⟨scanned, hscan, hperm, hsorted, hwarnings, fun _ _ _ _ => kept_eq_some,
    fun _ _ => kept_xor_warning⟩

/-- Two walks that reach the same containers give the same catalogue, whatever their order and
whatever else they reach. -/
theorem folder_stable (c : Crypto) (walk more : List Entry) (recursive recursive' : Bool)
    (scanned other : Scanned c) (hscan : Folder.scan c walk recursive = .ok scanned)
    (hother : Folder.scan c more recursive' = .ok other)
    (hsame : ((reached walk recursive).filterMap (Entry.kept c)).Perm
      ((reached more recursive').filterMap (Entry.kept c)))
    (hpaths : (((reached walk recursive).filterMap (Entry.kept c)).map Prod.fst).Nodup) :
    scanned.motas = other.motas := by
  obtain ⟨_, hfirst, hperm, hsorted, -⟩ := @folder_adds c walk recursive
  obtain rfl := Except.ok.inj (hscan.symm.trans hfirst)
  obtain ⟨_, hsecond, hperm', hsorted', -⟩ := @folder_adds c more recursive'
  obtain rfl := Except.ok.inj (hother.symm.trans hsecond)
  exact catalogue_unique hperm hperm' hsame hpaths hsorted hsorted'

def tinyEntry (name : UInt8) : Entry := ⟨[[name] ++ dot :: MOTA], 1, true, some tinyUnsigned⟩

def tinyWalk : List Entry :=
  [tinyEntry 0x63, ⟨[[0x62] ++ dot :: MOTA], 1, false, none⟩, tinyEntry 0x61]

set_option maxRecDepth 4000 in
theorem tinyEntry_kept {name : UInt8} (h : name = 0x61 ∨ name = 0x63) :
    (tinyEntry name).kept Crypto.plain = some ([[name] ++ dot :: MOTA], tinyUnsigned) := by
  refine kept_eq_some.mpr ⟨⟨rfl, ?_⟩, rfl, rfl, rfl⟩
  rcases h with rfl | rfl <;> decide

theorem folder_stable_tiny : ∃ scanned other : Scanned Crypto.plain,
    Folder.scan Crypto.plain tinyWalk true = .ok scanned ∧
      Folder.scan Crypto.plain tinyWalk.reverse false = .ok other ∧
      scanned.motas.length = 2 ∧ scanned.motas = other.motas := by
  obtain ⟨scanned, hscan, hperm, -⟩ := @folder_adds Crypto.plain tinyWalk true
  obtain ⟨other, hother, -⟩ := @folder_adds Crypto.plain tinyWalk.reverse false
  have hkept : (reached tinyWalk true).filterMap (Entry.kept Crypto.plain) =
      [([[0x63] ++ dot :: MOTA], tinyUnsigned), ([[0x61] ++ dot :: MOTA], tinyUnsigned)] := by
    change List.filterMap _ [_, _, _] = _
    rw [List.filterMap_cons_some (tinyEntry_kept (.inr rfl)), List.filterMap_cons_none rfl,
      List.filterMap_cons_some (tinyEntry_kept (.inl rfl))]
    rfl
  have hkept' : (reached tinyWalk.reverse false).filterMap (Entry.kept Crypto.plain) =
      [([[0x61] ++ dot :: MOTA], tinyUnsigned), ([[0x63] ++ dot :: MOTA], tinyUnsigned)] := by
    change List.filterMap _ [_, _, _] = _
    rw [List.filterMap_cons_some (tinyEntry_kept (.inl rfl)), List.filterMap_cons_none rfl,
      List.filterMap_cons_some (tinyEntry_kept (.inr rfl))]
    rfl
  have htwo := hperm.length_eq
  rw [hkept, List.length_map] at htwo
  exact ⟨scanned, other, hscan, hother, htwo, folder_stable Crypto.plain tinyWalk tinyWalk.reverse
    true false scanned other hscan hother (by rw [hkept, hkept']; exact List.Perm.swap _ _ _)
    (by rw [hkept]; simp)⟩

end MotaTool.Serve
