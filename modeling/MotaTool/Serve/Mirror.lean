import MotaTool.Serve.Described
import MotaTool.Serve.Dispatch
import MotaTool.Serve.Warm

/-!
# Mirroring a container

A peer copies a served container into the store of another seeder: it begins
with the id and the size of the descriptor, writes what its reads were answered
with, and finishes. The copy is the container where something was written and
the warm start elsewhere. If its header and manifest were written and it
verifies, it is the container, or a collision of the truncated digest can be
read off the two.
-/

namespace MotaTool.Serve

open Base Run Format Merkle seeder

section Same

variable {c : Crypto} {x y : Bytes} {m n : Manifest}

theorem parsed_front (hx : m.Parsed c x) (hy : n.Parsed c y)
    (h : x.take (HEADER_LEN + MFL) = y.take (HEADER_LEN + MFL)) : m = n := by
  have hfront : (x.drop HEADER_LEN).take MFL = (y.drop HEADER_LEN).take MFL := by
    have hdrop := congrArg (List.drop HEADER_LEN) h
    rwa [List.drop_take, List.drop_take, Nat.add_sub_cancel_left] at hdrop
  have hfields : fieldBytes m.fields = fieldBytes n.fields := by
    rw [m.fields_tile.read hx.fields, n.fields_tile.read hy.fields]
    exact hfront
  obtain ⟨hpayload, hblock⟩ := Manifest.fields_geometry hfields
  exact Manifest.ext_fields hfields (by rw [hx.count, hy.count, hpayload, hblock])

/-- Two verified containers of one geometry and root have one payload, or exhibit a collision. -/
theorem verified_payload (hx : Verified c x m) (hy : Verified c y n)
    (hsize : m.payloadSize = n.payloadSize) (hblock : m.blockSize = n.blockSize)
    (hroot : m.merkleRoot = n.merkleRoot) :
    m.payloadOf x = n.payloadOf y ∨ BlockCollision c m.blockSize (m.payloadOf x) (n.payloadOf y) ∨
      NodeCollision c (chunksExact4 (m.leavesOf x)) (chunksExact4 (n.leavesOf y)) := by
  have hlen : (chunksExact4 (m.leavesOf x)).length = (chunksExact4 (n.leavesOf y)).length := by
    rw [hx.stored, hy.stored, leafHashes_length, leafHashes_length, hx.parsed.payload_length,
      hy.parsed.payload_length, hsize, hblock]
  have hrooty := hy.root
  rw [← hroot] at hrooty
  rcases root_binding hlen hx.root hrooty with hleaves | hnode
  · rw [hx.stored, hy.stored, ← hblock] at hleaves
    exact (leafHashes_binding m.blockSize_pos hleaves).imp_right .inl
  · exact .inr (.inr hnode)

theorem verified_same (hx : Verified c x m) (hy : Verified c y m) :
    x = y ∨ BlockCollision c m.blockSize (m.payloadOf x) (m.payloadOf y) ∨
      NodeCollision c (chunksExact4 (m.leavesOf x)) (chunksExact4 (m.leavesOf y)) := by
  refine (verified_payload hx hy rfl rfl rfl).imp_left fun hpayload => ?_
  rw [hx.parsed.split, hy.parsed.split, ← hx.leaves, ← hy.leaves, hpayload]

end Same

section Mirror

variable {c : Crypto} {source target : SeederCore c} {z peer : Compressors} {i : UInt8}
  {served : ServedMota c} {call : Call} {store : String}

/-- The data of a write is what the source answered for the place it is written to. -/
def Relayed (source : SeederCore c) (peer : Compressors) (i : UInt8) (call : Call) : Prop :=
  ∃ data files, call.data = some data ∧
    source.handle posix peer OP_READ (readArgs i call.off data.length) files =
      .ok (some (STATUS_OK, data), files)

/-- A mirror run: the container of the description is captured from what was read. -/
structure Mirrors (source : SeederCore c) (peer : Compressors) (i : UInt8) (description : Bytes)
    (first last : Call) (middle : List (Call × Reply)) : Prop where
  described : ∃ files, source.handle posix peer OP_DESCRIBE [i] files =
    .ok (some (STATUS_OK, description), files)
  begins : first.op = OP_BEGIN
  first_mid : first.mid = (Descriptor.decode description).mid
  total : first.off = (Descriptor.decode description).total
  relays : ∀ entry ∈ middle, entry.1.mid = (Descriptor.decode description).mid →
    entry.1.op = OP_STAT ∨ entry.1.op = OP_SREAD ∨
      entry.1.op = OP_WRITE ∧ Relayed source peer i entry.1
  ends : last.op = OP_FIN
  last_mid : last.mid = (Descriptor.decode description).mid

theorem Call.off_lt (call : Call) : call.off < 2 ^ 32 := by
  have hlt := ofLe_lt ((call.args.drop 4).take 4)
  have hlen : ((call.args.drop 4).take 4).length ≤ 4 := List.length_take_le _ _
  exact Nat.lt_of_lt_of_le hlt (Nat.pow_le_pow_right (by decide) hlen)

theorem Call.len_lt (call : Call) : call.len < 2 ^ 16 := by
  have hlt := ofLe_lt ((call.args.drop 8).take 2)
  have hlen : ((call.args.drop 8).take 2).length ≤ 2 := List.length_take_le _ _
  exact Nat.lt_of_lt_of_le hlt (Nat.pow_le_pow_right (by decide) hlen)

theorem Relayed.carries (hserved : source.folder[i.toNat]? = some served)
    (h : Relayed source peer i call) : Carries served.bytes call := by
  obtain ⟨data, files, hdata, hread⟩ := h
  have hlen : data.length < 2 ^ 16 := by
    rw [Call.data_length hdata]
    exact call.len_lt
  rw [handle_read files hserved call.off_lt hlen] at hread
  split_ifs at hread with hfit
  · simp only [Except.ok.injEq, Prod.mk.injEq, Option.some.injEq, true_and, and_true] at hread
    exact ⟨data, hdata, hfit, hread.symm⟩
  · cases hread

theorem ServedMota.publishable (served : ServedMota c) : Publishable served.bytes := by
  have h := served.content.parsed
  have hsize := h.size
  simp only [HEADER_LEN, MFL, TRAILER_LEN] at hsize
  refine ⟨by omega, h.magic, ?_⟩
  rw [h.total]
  exact ofLe_toLe served.bytes_lt

theorem Publishable.of_front {x y : Bytes} (hx : Publishable x) (hlength : y.length = x.length)
    (h : y.take 8 = x.take 8) : Publishable y := by
  obtain ⟨hlen, hmagic, htotal⟩ := hx
  have hmagic' := congrArg (List.take 4) h
  have htotal' := congrArg (List.drop 4) h
  rw [List.take_take, List.take_take, Nat.min_eq_left (by decide)] at hmagic'
  rw [List.drop_take, List.drop_take] at htotal'
  refine ⟨by omega, by rw [hmagic', hmagic], ?_⟩
  rw [show (4 : ℕ) = 8 - 4 from rfl, htotal', hlength]
  exact htotal

theorem Merged.front {base : ℕ → UInt8} {covered : ℕ → Prop} {container bytes : Bytes} {n : ℕ}
    (h : Merged container base covered bytes) (hn : n ≤ container.length)
    (hall : ∀ k < n, covered k) : bytes.take n = container.take n := by
  obtain ⟨hlength, hcells⟩ := h
  refine List.ext_getElem? fun k => ?_
  by_cases hk : k < n
  · rw [List.getElem?_take_of_lt hk, List.getElem?_take_of_lt hk]
    exact (hcells k (by omega)).1 (hall k hk)
  · rw [List.getElem?_eq_none, List.getElem?_eq_none] <;> rw [List.length_take] <;> omega

theorem mirror_settles (hstore : target.storeDir = some store) {description : Bytes}
    {first last : Call} {firstReply lastReply : Reply} {middle : List (Call × Reply)}
    (h : Mirrors source peer i description first last middle) {files files' : Files}
    (hrun : Serves target z files ((first, firstReply) :: (middle ++ [(last, lastReply)])) files') :
    ∃ served, source.folder[i.toNat]? = some served ∧ description = served.describe ∧
      ∃ bytes, Merged served.bytes (unwritten target.seed)
          (Written middle served.manifest.merkleRoot.val) bytes ∧
        (lastReply.1 = STATUS_OK ↔ Publishable bytes) ∧
        (lastReply.1 = STATUS_OK →
          files' (storePath store served.manifest.merkleRoot.val false) = some bytes) := by
  obtain ⟨⟨other, hdescribed⟩, hbegin, hfirst, htotal, hrelays, hfin, hlast⟩ := h
  obtain ⟨served, hserved, rfl⟩ := handle_describe hdescribed
  rw [describe_decodes] at hfirst htotal hrelays hlast
  refine ⟨served, hserved, rfl, ?_⟩
  have hcaptures : ∀ entry ∈ middle,
      Captures served.bytes served.manifest.merkleRoot.val entry.1 := by
    intro entry hentry hmid
    rcases hrelays entry hentry hmid with hop | hop | ⟨hop, hrelayed⟩
    · exact .inl hop
    · exact .inr (.inl hop)
    · exact .inr (.inr ⟨hop, hrelayed.carries hserved⟩)
  exact capture_settles hstore hbegin hfirst htotal hfin hlast hcaptures hrun

end Mirror

/-- A mirror run publishes the container exactly if the warm start is right wherever nothing was
written, and a copy whose header and manifest were relayed is the container if it verifies, or
exhibits a collision. -/
theorem mirror_faithful {c : Crypto} (source target : SeederCore c) (peer z : Compressors)
    (store : String) (hstore : target.storeDir = some store) (i : UInt8) (description : Bytes)
    (first last : Call) (firstReply lastReply : Reply) (middle : List (Call × Reply))
    (h : Mirrors source peer i description first last middle) (files files' : Files)
    (hrun : Serves target z files ((first, firstReply) :: (middle ++ [(last, lastReply)])) files') :
    ∃ served, source.folder[i.toNat]? = some served ∧ description = served.describe ∧
      (lastReply.1 = STATUS_OK ∧
          files' (storePath store served.manifest.merkleRoot.val false) = some served.bytes ↔
        ∀ k < served.bytes.length, Written middle served.manifest.merkleRoot.val k ∨
          served.bytes[k]? = some (unwritten target.seed k)) ∧
      ((∀ k < HEADER_LEN + MFL, Written middle served.manifest.merkleRoot.val k) →
        lastReply.1 = STATUS_OK ∧ ∃ copy,
          files' (storePath store served.manifest.merkleRoot.val false) = some copy ∧
          (verify c copy = .ok [] → copy = served.bytes ∨
            BlockCollision c served.manifest.blockSize (served.manifest.payloadOf copy)
              (served.manifest.payloadOf served.bytes) ∨
            NodeCollision c (chunksExact4 (served.manifest.leavesOf copy))
              (chunksExact4 (served.manifest.leavesOf served.bytes)))) := by
  obtain ⟨served, hserved, hdescribed, bytes, hmerged, hok, hdone⟩ := mirror_settles hstore h hrun
  refine ⟨served, hserved, hdescribed, ?_⟩
  have hready := served.publishable
  have hsize := served.content.parsed.size
  constructor
  · refine Iff.trans ?_ hmerged.eq_iff
    constructor
    · rintro ⟨haccepted, hpublished⟩
      exact Option.some.inj ((hdone haccepted).symm.trans hpublished)
    · rintro rfl
      exact ⟨hok.mpr hready, hdone (hok.mpr hready)⟩
  · intro hfront
    have hmanifest : bytes.take (HEADER_LEN + MFL) = served.bytes.take (HEADER_LEN + MFL) :=
      hmerged.front (by omega) hfront
    have haccepted : lastReply.1 = STATUS_OK := by
      have height := congrArg (List.take 8) hmanifest
      rw [List.take_take, List.take_take, Nat.min_eq_left (by decide)] at height
      exact hok.mpr (hready.of_front hmerged.1 height)
    refine ⟨haccepted, bytes, hdone haccepted, fun hverify => ?_⟩
    obtain ⟨m, -, hcopy⟩ := verify_eq_nil.mp hverify
    obtain rfl := parsed_front hcopy.parsed served.content.parsed hmanifest
    exact verified_same hcopy served.content

def zeroMid : Bytes := [0, 0, 0, 0]

theorem begin_storage : isStorage OP_BEGIN := .inr (.inl rfl)

theorem write_storage : isStorage OP_WRITE := .inr (.inr (.inl rfl))

theorem fin_storage : isStorage OP_FIN := .inr (.inr (.inr (.inr rfl)))

def zeroBegin : Call := ⟨OP_BEGIN, zeroMid ++ [232, 0, 0, 0], begin_storage, 8, rfl, by decide⟩

def zeroWrite : Call :=
  ⟨OP_WRITE, zeroMid ++ [0, 0, 0, 0, 232, 0] ++ zeroContainer, write_storage, 10, rfl, by
    simp [zeroMid]⟩

def zeroFin : Call := ⟨OP_FIN, zeroMid, fin_storage, 4, rfl, by decide⟩

theorem zeroContainer_length : zeroContainer.length = 232 := by decide +kernel

theorem zeroWrite_data : zeroWrite.data = some zeroContainer := by
  have hlen : zeroWrite.len = 232 := rfl
  have hargs : zeroWrite.args.length = 242 := by
    rw [zeroWrite, List.length_append, zeroContainer_length]
    rfl
  rw [Call.data, if_pos (by omega), hlen]
  change some (zeroContainer.take 232) = _
  rw [List.take_of_length_le (Nat.le_of_eq zeroContainer_length)]

theorem zero_mirror : ∃ r₁ r₂ r₃ files',
    Serves storeCore zeroCompressors (fun _ => none)
        ((zeroBegin, r₁) :: ([(zeroWrite, r₂)] ++ [(zeroFin, r₃)])) files' ∧
      Mirrors zeroCore zeroCompressors 0 zeroServed.describe zeroBegin zeroFin
        [(zeroWrite, r₂)] ∧
      ∀ k < zeroServed.bytes.length, Written [(zeroWrite, r₂)] zeroMid k := by
  have hown : ∀ call ∈ [zeroBegin, zeroWrite, zeroFin], call.mid = zeroMid := by
    intro call hcall
    simp only [List.mem_cons, List.not_mem_nil, or_false] at hcall
    rcases hcall with rfl | rfl | rfl <;> rfl
  obtain ⟨history, files', hserves, hcalls, -⟩ := @serves_own Crypto.plain storeCore
    zeroCompressors (fun _ => none) "store" zeroMid rfl _ hown
  simp only [List.map_eq_cons_iff, List.map_eq_nil_iff] at hcalls
  obtain ⟨⟨_, r₁⟩, _, rfl, rfl, ⟨_, r₂⟩, _, rfl, rfl, ⟨_, r₃⟩, _, rfl, rfl, rfl⟩ := hcalls
  have hrelayed : Relayed zeroCore zeroCompressors 0 zeroWrite := by
    refine ⟨zeroContainer, fun _ => none, zeroWrite_data, ?_⟩
    rw [handle_read _ (show zeroCore.folder[_]? = some zeroServed from rfl) zeroWrite.off_lt
      (by rw [zeroContainer_length]; decide), show zeroWrite.off = 0 from rfl, Nat.zero_add,
      List.drop_zero]
    change Except.ok (some (if zeroContainer.length ≤ zeroContainer.length then
      (STATUS_OK, zeroContainer.take zeroContainer.length) else refused), _) = _
    rw [if_pos (Nat.le_refl _), List.take_length]
  refine ⟨r₁, r₂, r₃, files', hserves, ?_, fun k hk => ?_⟩
  · exact
      { described := ⟨fun _ => none, rfl⟩
        begins := rfl
        first_mid := by rw [describe_decodes]; rfl
        total := by rw [describe_decodes]; exact zeroContainer_length.symm
        relays := fun entry hentry _ => by
          obtain rfl := List.mem_singleton.mp hentry
          exact .inr (.inr ⟨rfl, hrelayed⟩)
        ends := rfl
        last_mid := by rw [describe_decodes]; rfl }
  · exact ⟨(zeroWrite, r₂), List.mem_singleton_self _, rfl, rfl, Nat.zero_le k,
      Nat.lt_of_lt_of_eq hk zeroContainer_length⟩

theorem mirror_faithful_zeros : ∃ history files',
    Serves storeCore zeroCompressors (fun _ => none) history files' ∧
      files' (storePath "store" zeroMid false) = some zeroContainer := by
  obtain ⟨r₁, r₂, r₃, files', hserves, hmirrors, hall⟩ := zero_mirror
  obtain ⟨served, hserved, -, hexact, -⟩ := mirror_faithful zeroCore storeCore zeroCompressors
    zeroCompressors "store" rfl 0 zeroServed.describe zeroBegin zeroFin r₁ r₃ [(zeroWrite, r₂)]
    hmirrors (fun _ => none) files' hserves
  obtain rfl : served = zeroServed := (Option.some.inj hserved).symm
  exact ⟨_, files', hserves, (hexact.mpr fun k hk => .inl (hall k hk)).2⟩

end MotaTool.Serve
