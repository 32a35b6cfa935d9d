import MotaTool.Serve.Folder
import MotaTool.Serve.Mirror

/-!
# Serving a mirror

The folder a seeder scans is the store it captures into. After a mirror run
whose writes covered the container, the next scan keeps the copy, and from its
place in the catalogue it is described, read and relayed as the original was. A
part is never kept.
-/

namespace MotaTool.Serve

open Base Run Format seeder

section Names

variable {mid : Bytes}

theorem hexLowerBytes_ne_nil (hmid : mid ≠ []) : utf8 (hexLowerBytes mid) ≠ [] := by
  intro hnil
  have hempty : hexLowerBytes mid = "" := utf8_injective (hnil.trans (by rfl))
  have hlen := hexLowerBytes_length mid
  rw [hempty] at hlen
  exact hmid (by simpa using hlen)

theorem storeName_extension (hmid : mid ≠ []) :
    nameExtension (utf8 (storeName mid false)) = some MOTA := by
  have hname : utf8 (storeName mid false) = utf8 (hexLowerBytes mid) ++ dot :: MOTA := by
    rw [storeName, utf8_append]
    rfl
  rw [hname]
  exact nameExtension_eq_some.mpr ⟨_, hexLowerBytes_ne_nil hmid, rfl, by decide, fun h => by
    have hlen := congrArg List.length h
    simp [MOTA, ascii] at hlen⟩

theorem part_extension (stem : Bytes) :
    nameExtension (stem ++ utf8 ".mota.part") = some (ascii ['p', 'a', 'r', 't']) := by
  have hname : stem ++ utf8 ".mota.part" =
      (stem ++ dot :: MOTA) ++ dot :: ascii ['p', 'a', 'r', 't'] := by
    rw [List.append_assoc]
    rfl
  rw [hname]
  exact nameExtension_eq_some.mpr ⟨_, by simp, rfl, by decide, fun h => by
    have hlen := congrArg List.length h
    simp [MOTA, ascii] at hlen⟩

end Names

/-- The walk lists the files of the store, each under its name. -/
def Lists (store : String) (files : Files) (walk : List Entry) : Prop :=
  ∀ name bytes, '/' ∉ name.toList →
    files (String.ofList (Path.join store.toList name.toList)) = some bytes →
    ∃ entry ∈ walk, entry.path.getLast? = some (utf8 name) ∧ entry.depth = 1 ∧
      entry.isFile = true ∧ entry.contents = some bytes

section Rescan

variable {c : Crypto} {walk : List Entry} {recursive : Bool} {scanned : Scanned c}
  {files : Files} {store : String} {mid bytes : Bytes}

theorem published_kept (hlists : Lists store files walk) (hmid : mid ≠ [])
    (hdone : files (storePath store mid false) = some bytes) (hverify : verify c bytes = .ok [])
    (hscan : Folder.scan c walk recursive = .ok scanned) :
    ∃ m ∈ scanned.motas, m.path.getLast? = some (utf8 (storeName mid false)) ∧
      m.served.bytes = bytes := by
  obtain ⟨entry, hentry, hname, hdepth, hfile, hcontents⟩ :=
    hlists _ bytes (storeName_plain false) hdone
  have hextension : extension entry.path = some MOTA := by
    rw [extension, hname, Option.bind_some, storeName_extension hmid]
  have hreached : entry ∈ reached walk recursive := by
    refine List.mem_filter.mpr ⟨hentry, ?_⟩
    rw [hdepth]
    cases recursive <;> decide
  have hkept : entry.kept c = some (entry.path, bytes) :=
    kept_eq_some.mpr ⟨⟨hfile, hextension⟩, rfl, hcontents, hverify⟩
  obtain ⟨_, hagain, hperm, -⟩ := @folder_adds c walk recursive
  obtain rfl := Except.ok.inj (hscan.symm.trans hagain)
  have hmem := hperm.mem_iff.mpr (List.mem_filterMap.mpr ⟨entry, hreached, hkept⟩)
  obtain ⟨m, hm, hkey⟩ := List.mem_map.mp hmem
  refine ⟨m, hm, ?_, congrArg Prod.snd hkey⟩
  rw [show m.path = entry.path from congrArg Prod.fst hkey, hname]

theorem part_not_kept (hscan : Folder.scan c walk recursive = .ok scanned)
    {m : Catalogued c} (hm : m ∈ scanned.motas) (stem : Bytes) :
    m.path.getLast? ≠ some (stem ++ utf8 ".mota.part") := by
  intro hname
  obtain ⟨_, hagain, hperm, -⟩ := @folder_adds c walk recursive
  obtain rfl := Except.ok.inj (hscan.symm.trans hagain)
  obtain ⟨entry, -, hkept⟩ :=
    List.mem_filterMap.mp (hperm.mem_iff.mp (List.mem_map_of_mem hm))
  obtain ⟨⟨-, hextension⟩, hpath, -⟩ := kept_eq_some.mp hkept
  rw [hpath, extension, hname, Option.bind_some, part_extension] at hextension
  exact absurd hextension (by decide)

end Rescan

section Places

variable {c : Crypto} {φ : Type} {source copy : SeederCore c} {i j : UInt8} {args : Bytes}

theorem slice_behind_index {lo hi : ℕ} (h : 1 ≤ lo) :
    slice (j :: args) lo hi = slice (i :: args) lo hi := by
  obtain ⟨lo, rfl⟩ := Nat.exists_eq_add_of_le' h
  rfl

theorem handle_place (fs : FileSystem φ) (z : Compressors)
    (h : copy.folder[j.toNat]? = source.folder[i.toNat]?) {op : UInt8}
    (hop : op = OP_DESCRIBE ∨ op = OP_READ ∨ op = OP_DEFLATE_BLOCK) (files : φ) :
    copy.handle fs z op (j :: args) files = source.handle fs z op (i :: args) files := by
  have hslice : ∀ {lo hi : ℕ}, 1 ≤ lo → slice (j :: args) lo hi = slice (i :: args) lo hi :=
    slice_behind_index
  have hindex : ∀ k : UInt8, index (k :: args) 0 = .ok k := fun _ => rfl
  rcases hop with rfl | rfl | rfl
  · have hop : OP_DESCRIBE ≠ OP_COUNT := by decide
    simp only [SeederCore.handle, if_neg hop, if_true, SeederCore.describe, List.head?_cons,
      Option.map_some, h]
  · have hop : OP_READ ≠ OP_COUNT ∧ OP_READ ≠ OP_DESCRIBE := by decide
    simp only [SeederCore.handle, if_neg hop.1, if_neg hop.2, if_true, SeederCore.read, rdU32,
      hslice (Nat.le_refl 1), hslice (show 1 ≤ 5 by decide), hindex, ok_bind, h]
  · have hop : OP_DEFLATE_BLOCK ≠ OP_COUNT ∧ OP_DEFLATE_BLOCK ≠ OP_DESCRIBE ∧
        OP_DEFLATE_BLOCK ≠ OP_READ := by decide
    simp only [SeederCore.handle, if_neg hop.1, if_neg hop.2.1, if_neg hop.2.2, if_true,
      SeederCore.deflateBlock, List.length_cons, hindex, ok_bind, hslice (Nat.le_refl 1),
      hslice (show 1 ≤ 3 by decide), hslice (show 1 ≤ 5 by decide), h]

end Places

/-- After a mirror run whose writes cover the container, a scan of the store keeps it under its name
and keeps no part, and at its place a seeder of that folder answers for it as the source does. -/
theorem mirror_served {c : Crypto} {φ : Type} (source target copy : SeederCore c)
    (peer z : Compressors) (store : String) (hstore : target.storeDir = some store) (i : UInt8)
    (description : Bytes) (first last : Call) (firstReply lastReply : Reply)
    (middle : List (Call × Reply)) (h : Mirrors source peer i description first last middle)
    (files files' : Files)
    (hrun : Serves target z files ((first, firstReply) :: (middle ++ [(last, lastReply)])) files')
    (hall : ∀ k < (Descriptor.decode description).total,
      Written middle (Descriptor.decode description).mid k)
    (walk : List Entry) (hlists : Lists store files' walk) (recursive : Bool) (scanned : Scanned c)
    (hscan : Folder.scan c walk recursive = .ok scanned)
    (hfolder : copy.folder = scanned.motas.map Catalogued.served) :
    lastReply.1 = STATUS_OK ∧
      (∀ m ∈ scanned.motas, ∀ stem, m.path.getLast? ≠ some (stem ++ utf8 ".mota.part")) ∧
      ∃ k m, scanned.motas[k]? = some m ∧
        m.path.getLast? = some (utf8 (storeName (Descriptor.decode description).mid false)) ∧
        source.folder[i.toNat]? = some m.served ∧
        ∀ j : UInt8, j.toNat = k →
          ∀ (fs : FileSystem φ) (x : Compressors) (op : UInt8) (args : Bytes) (other : φ),
            op = OP_DESCRIBE ∨ op = OP_READ ∨ op = OP_DEFLATE_BLOCK →
            copy.handle fs x op (j :: args) other = source.handle fs x op (i :: args) other := by
  obtain ⟨served, hserved, rfl, bytes, hmerged, hok, hdone⟩ := mirror_settles hstore h hrun
  rw [describe_decodes] at hall ⊢
  have hmid : served.descriptor.mid ≠ [] := by
    intro hnil
    have hlen := served.manifest.merkleRoot.property
    rw [show served.manifest.merkleRoot.val = [] from hnil] at hlen
    exact absurd hlen (by decide)
  obtain rfl := hmerged.eq_iff.mpr fun k hk => .inl (hall k hk)
  have haccepted := hok.mpr served.publishable
  obtain ⟨m, hm, hname, hbytes⟩ :=
    published_kept hlists hmid (hdone haccepted) served.verified hscan
  obtain ⟨k, hk⟩ := List.getElem?_of_mem hm
  have hsame : source.folder[i.toNat]? = some m.served := by
    rw [hserved, ServedMota.ext_bytes hbytes]
  have hplace : copy.folder[k]? = some m.served := by rw [hfolder, List.getElem?_map, hk]; rfl
  refine ⟨haccepted, fun m hm => part_not_kept hscan hm, k, m, hk, hname, hsame,
    fun j hj fs x op args other hop => ?_⟩
  refine handle_place fs x ?_ hop other
  rw [hj, hplace, hsame]

def storeEntries (store : String) (files : Files) (mid : Bytes) : List Entry :=
  [true, false].map fun part =>
    ⟨[utf8 (storeName mid part)], 1, (files (storePath store mid part)).isSome,
      files (storePath store mid part)⟩

theorem storeEntries_list {store : String} {files : Files} {mid : Bytes}
    (h : ∀ path, (∀ part, path ≠ storePath store mid part) → files path = none) :
    Lists store files (storeEntries store files mid) := by
  intro name bytes hplain hbytes
  have hown : ∃ part, String.ofList (Path.join store.toList name.toList) =
      storePath store mid part := by
    by_contra hnone
    rw [h _ (not_exists.mp hnone)] at hbytes
    cases hbytes
  obtain ⟨part, hpath⟩ := hown
  have hname : name = storeName mid part := String.toList_inj.mp
    (Path.join_injective hplain (storeName_plain part) (String.ofList_inj.mp hpath))
  rw [hpath] at hbytes
  refine ⟨_, List.mem_map_of_mem (show part ∈ [true, false] by cases part <;> decide), ?_, rfl,
    ?_, hbytes⟩
  · rw [hname]
    rfl
  · rw [hbytes]
    rfl

theorem mirror_served_zeros : ∃ (files' : Files) (scanned : Scanned Crypto.plain) (k : ℕ)
    (m : Catalogued Crypto.plain),
    Folder.scan Crypto.plain (storeEntries "store" files' zeroMid) true = .ok scanned ∧
      scanned.motas[k]? = some m ∧ m.path.getLast? = some (utf8 (storeName zeroMid false)) ∧
      zeroCore.folder[0]? = some m.served := by
  obtain ⟨r₁, r₂, r₃, files', hserves, hmirrors, hall⟩ := zero_mirror
  have hlists : Lists "store" files' (storeEntries "store" files' zeroMid) := by
    refine storeEntries_list fun path hpath =>
      serves_confined rfl hserves fun entry hentry part => ?_
    simp only [List.mem_cons, List.cons_append, List.nil_append, List.not_mem_nil, or_false]
      at hentry
    rcases hentry with rfl | rfl | rfl <;> exact hpath part
  obtain ⟨scanned, hscan, -⟩ :=
    @folder_adds Crypto.plain (storeEntries "store" files' zeroMid) true
  obtain ⟨-, -, k, m, hk, hname, hsame, -⟩ := @mirror_served Crypto.plain Unit zeroCore storeCore
    ⟨scanned.motas.map Catalogued.served, none, none⟩ zeroCompressors zeroCompressors "store" rfl 0
    zeroServed.describe zeroBegin zeroFin r₁ r₃ [(zeroWrite, r₂)] hmirrors (fun _ => none) files'
    hserves (by rw [describe_decodes]; exact hall) _ hlists true scanned hscan rfl
  rw [describe_decodes] at hname
  exact ⟨files', scanned, k, m, hscan, hk, hname, hsame⟩

end MotaTool.Serve
