import MotaTool.Verify

/-!
# What verification binds

The signed prefix of the manifest contains the geometry and the root of the
payload tree. Two verified containers with the same signed prefix are therefore
the same outside the signature, unless two of their blocks, or two of the node
inputs of their root computations, have one digest.
-/

namespace MotaTool

open Base Run Format Merkle

section Parsing

variable {c : Crypto} {blob : Bytes} {m : Manifest}

theorem verify_returns (c : Crypto) (blob : Bytes) : Returns (verify c blob) := by
  have hparse := Manifest.parse_returns c blob
  unfold verify
  cases h : Manifest.parse c blob with
  | ok m =>
    obtain ⟨found, hfound⟩ := problems_ok (Manifest.parse_parsed h)
    simp [hfound]
  | error fault =>
    rw [h] at hparse
    cases fault with
    | error chain => exact returns_ok _
    | panic => exact absurd rfl hparse.1
    | spin => exact absurd rfl hparse.2

/-- Parsing and verifying end without a panic on every byte string, and a container that
parses is rebuilt from its manifest, leaves and payload. -/
theorem parse_lossless (c : Crypto) (blob : Bytes) :
    (Returns (Manifest.parse c blob) ∧ Returns (verify c blob)) ∧
      ∀ m, Manifest.parse c blob = .ok m →
        (8 + 197 = m.leavesOff ∧ m.payloadOff = m.leavesOff + 4 * m.blockCount ∧
          m.payloadOff + m.payloadSize.toNat + 5 = blob.length ∧
          (m.blockCount - 1) * m.blockSize < m.payloadSize.toNat ∧
          m.payloadSize.toNat ≤ m.blockCount * m.blockSize ∧
          1 ≤ m.blockCount ∧ m.blockCount ≤ 65535) ∧
        m.serialize (m.leavesOf blob) (m.payloadOf blob) = .ok blob ∧
        ∀ other, Manifest.parse c other = .ok m → m.leavesOf other = m.leavesOf blob →
          m.payloadOf other = m.payloadOf blob → other = blob := by
  refine ⟨⟨Manifest.parse_returns c blob, verify_returns c blob⟩, fun m hparse => ?_⟩
  have h := Manifest.parse_parsed hparse
  refine ⟨⟨rfl, m.payloadOff_eq, h.payload_end, h.blocks_cover.1, h.blocks_cover.2, h.low,
    h.high⟩, h.serialize, fun other hother hleaves hpayload => ?_⟩
  have hserialize := (Manifest.parse_parsed hother).serialize
  rw [hleaves, hpayload, h.serialize] at hserialize
  exact (Except.ok.inj hserialize).symm

def tinyManifest (signature : Octets 64) : Manifest :=
  ⟨APP_FORMAT_VER, MFLAG_FULL, HASH_ALGO_SHA256, 1, 2, 1, 1, 1, 1, Octets.padded 4 [7],
    Octets.padded 32 [7], 0, Octets.zero 32, Octets.zero 8, Octets.zero 32, signature,
    APPROVAL_NONE⟩

def tinyContainer (signature : Octets 64) : Bytes :=
  MAGIC ++ (toLe 4 215 ++ (fieldBytes (tinyManifest signature).fields ++
    ([7, 0, 0, 0] ++ ([7] ++ TRAILER))))

def tinyUnsigned : Bytes := tinyContainer (Octets.zero 64)

def tinyResigned : Bytes := tinyContainer (Octets.padded 64 [1])

set_option maxRecDepth 4000 in
theorem parse_lossless_tiny :
    (tinyManifest (Octets.zero 64)).serialize
        ((tinyManifest (Octets.zero 64)).leavesOf tinyUnsigned)
        ((tinyManifest (Octets.zero 64)).payloadOf tinyUnsigned) = .ok tinyUnsigned :=
  ((parse_lossless Crypto.plain tinyUnsigned).2 (tinyManifest (Octets.zero 64)) rfl).2.1

end Parsing

theorem seal_parsed {c : Crypto} {blob rest : Bytes} {m n : Manifest} {total : ℕ}
    (hblob : blob = MAGIC ++ (toLe 4 total ++ (fieldBytes n.fields ++ rest)))
    (hparse : Manifest.parse c blob = .ok m)
    (hcount : n.blockCount = divCeil n.payloadSize.toNat n.blockSize) :
    m = n ∧ m.leavesOf blob ++ (m.payloadOf blob ++ TRAILER) = rest := by
  have hp := Manifest.parse_parsed hparse
  have hframed := List.append_cancel_left (hp.split.symm.trans hblob)
  have hsplit := (List.append_inj hframed (by rw [toLe_length, toLe_length])).2
  obtain ⟨hfields, hbody⟩ := List.append_inj hsplit
    (by rw [m.fieldBytes_length, n.fieldBytes_length])
  obtain ⟨hpayloadSize, hblock⟩ := Manifest.fields_geometry hfields
  have hmcount : m.blockCount = n.blockCount := by
    rw [hp.count, hcount, hpayloadSize, hblock]
  exact ⟨Manifest.ext_fields hfields hmcount, hbody⟩

/-- A container put together from a manifest whose geometry, leaves, root, hash and signature
are right has that manifest when it parses, and it verifies. -/
theorem seal_verified {c : Crypto} {blob payload : Bytes} {m n : Manifest} {total : ℕ}
    {leaves : List (Octets 4)}
    (hblob : blob = MAGIC ++ (toLe 4 total ++ (fieldBytes n.fields ++
      (flatten leaves ++ (payload ++ TRAILER)))))
    (hparse : Manifest.parse c blob = .ok m) (hsize : n.payloadSize.toNat = payload.length)
    (hcount : n.blockCount = divCeil payload.length n.blockSize)
    (hleaves : leaves = leafHashes c payload n.blockSize) (hroot : root c leaves = .ok n.merkleRoot)
    (himage : n.isFull = true → c.sha256 payload = n.imageHash)
    (hsig : n.isSigned = true → c.verify n.signer n.signedPrefix n.signature = true)
    (happ : n.approval = APPROVAL_NONE) :
    m = n ∧ m.payloadOf blob = payload ∧ Verified c blob m := by
  have hp := Manifest.parse_parsed hparse
  obtain ⟨rfl, hbody⟩ := seal_parsed hblob hparse (by rw [hsize, hcount])
  have hleavesLen : (m.leavesOf blob).length = (flatten leaves).length := by
    rw [hp.leaves_length, flatten_length, hleaves, leafHashes_length, hcount]
  obtain ⟨hstored, hpayload⟩ := List.append_inj hbody hleavesLen
  rw [List.append_cancel_right_eq] at hpayload
  have hsigned : (blob.drop HEADER_LEN).take SIGNED_LEN = m.signedPrefix := by
    have hmf := m.fields_tile.read hp.fields
    rw [Manifest.signedPrefix, hmf, List.drop_zero, List.take_take, Nat.min_eq_left (by decide)]
  refine ⟨rfl, hpayload, hp, ?_, ?_, ?_, ?_, happ⟩
  · rw [hpayload, hstored, hleaves]
  · rw [hstored, chunksExact4_flatten, hroot]
  · rw [hpayload]
    exact himage
  · rw [hsigned]
    exact hsig

section Binding

variable {c : Crypto} {x y : Bytes} {m n : Manifest}

theorem drop_take_signed {v : Bytes} {o k : ℕ} (h : o + k ≤ SIGNED_LEN) :
    (((v.drop HEADER_LEN).take SIGNED_LEN).drop o).take k =
      ((v.drop HEADER_LEN).drop o).take k := by
  rw [List.drop_take, List.take_take, Nat.min_eq_left (by omega)]

theorem signed_field (hx : m.Parsed c x) (hy : n.Parsed c y)
    (hsigned : (x.drop HEADER_LEN).take SIGNED_LEN = (y.drop HEADER_LEN).take SIGNED_LEN)
    {o : ℕ} {b d : Bytes} (hb : (o, b) ∈ m.fields) (hd : (o, d) ∈ n.fields)
    (hlen : b.length = d.length) (hin : o + b.length ≤ SIGNED_LEN) : b = d := by
  have hbx := hx.fields _ hb
  have hdy := hy.fields _ hd
  simp only at hbx hdy
  rw [hbx, hdy, ← hlen, ← drop_take_signed hin, hsigned, drop_take_signed hin]

theorem signed_geometry (hx : m.Parsed c x) (hy : n.Parsed c y)
    (hsigned : (x.drop HEADER_LEN).take SIGNED_LEN = (y.drop HEADER_LEN).take SIGNED_LEN) :
    m.payloadSize = n.payloadSize ∧ m.blockSize = n.blockSize ∧ m.blockCount = n.blockCount ∧
      m.merkleRoot = n.merkleRoot := by
  have hfield := @signed_field c x y m n hx hy hsigned
  have hpayload : m.payloadSize = n.payloadSize := u32Le_inj
    (hfield (o := off.PAYLOAD_SIZE) (by simp [Manifest.fields]) (by simp [Manifest.fields])
      (by simp) (by simp [off.PAYLOAD_SIZE, SIGNED_LEN]))
  have hlog : [m.blockSizeLog2] = [n.blockSizeLog2] :=
    hfield (o := off.BLOCK_SIZE_LOG2) (by simp [Manifest.fields]) (by simp [Manifest.fields])
      (by simp) (by simp [off.BLOCK_SIZE_LOG2, SIGNED_LEN])
  have hroot : m.merkleRoot.val = n.merkleRoot.val :=
    hfield (o := off.MERKLE_ROOT) (by simp [Manifest.fields]) (by simp [Manifest.fields])
      (by simp [Octets.length_val]) (by simp [Octets.length_val, off.MERKLE_ROOT, SIGNED_LEN])
  have hsize : m.blockSize = n.blockSize := by
    rw [Manifest.blockSize, Manifest.blockSize, List.cons.inj hlog |>.1]
  refine ⟨hpayload, hsize, ?_, Subtype.ext hroot⟩
  rw [hx.count, hy.count, hpayload, hsize]

theorem Verified.stored (h : Verified c x m) :
    chunksExact4 (m.leavesOf x) = leafHashes c (m.payloadOf x) m.blockSize := by
  rw [← h.leaves, chunksExact4_flatten]

theorem agree_outside (hx : Verified c x m) (hy : Verified c y n)
    (hsigned : (x.drop HEADER_LEN).take SIGNED_LEN = (y.drop HEADER_LEN).take SIGNED_LEN)
    (hleaves : m.leavesOf x = n.leavesOf y) (hpayload : m.payloadOf x = n.payloadOf y) :
    x.length = y.length ∧
      x.take (HEADER_LEN + SIGNED_LEN) = y.take (HEADER_LEN + SIGNED_LEN) ∧
      x.drop (HEADER_LEN + off.APPROVAL) = y.drop (HEADER_LEN + off.APPROVAL) := by
  obtain ⟨hsize, -, hcount, -⟩ := signed_geometry hx.parsed hy.parsed hsigned
  have hlength : x.length = y.length := by
    rw [← hx.parsed.geometry, ← hy.parsed.geometry, Manifest.totalSize, Manifest.totalSize,
      Manifest.payloadOff, Manifest.payloadOff, hsize, hcount]
    rfl
  have happroval : ∀ {v : Bytes} {k : Manifest}, Verified c v k →
      ((v.drop HEADER_LEN).drop off.APPROVAL).take 4 = APPROVAL_NONE.val := fun {v k} hv => by
    have hmem : (off.APPROVAL, k.approval.val) ∈ k.fields := by simp [Manifest.fields]
    have hread := hv.parsed.fields _ hmem
    rw [hv.approval] at hread
    exact hread.symm
  have hbody : x.drop (HEADER_LEN + MFL) = y.drop (HEADER_LEN + MFL) := by
    rw [hx.parsed.body, hy.parsed.body, hleaves, hpayload]
  refine ⟨hlength, ?_, ?_⟩
  · rw [List.take_add, List.take_add, hx.parsed.header, hy.parsed.header, hlength, hsigned]
  · rw [← List.take_append_drop 4 (x.drop _), ← List.take_append_drop 4 (y.drop _),
      ← List.drop_drop, ← List.drop_drop, happroval hx, happroval hy, List.drop_drop,
      List.drop_drop, List.drop_drop, List.drop_drop]
    exact congrArg (APPROVAL_NONE.val ++ ·) hbody

/-- Two verified containers with one signed prefix agree outside the signature, or a
collision of the truncated digest can be read off them. -/
theorem verify_binding (c : Crypto) (x y : Bytes) (hx : verify c x = .ok [])
    (hy : verify c y = .ok [])
    (hsigned : (x.drop HEADER_LEN).take SIGNED_LEN = (y.drop HEADER_LEN).take SIGNED_LEN) :
    (x.length = y.length ∧
      x.take (HEADER_LEN + SIGNED_LEN) = y.take (HEADER_LEN + SIGNED_LEN) ∧
      x.drop (HEADER_LEN + SIGNED_LEN + 64) = y.drop (HEADER_LEN + SIGNED_LEN + 64)) ∨
    ∃ m n, Manifest.parse c x = .ok m ∧ Manifest.parse c y = .ok n ∧
      (BlockCollision c m.blockSize (m.payloadOf x) (n.payloadOf y) ∨
        NodeCollision c (chunksExact4 (m.leavesOf x)) (chunksExact4 (n.leavesOf y))) := by
  obtain ⟨m, hm, hvx⟩ := verify_eq_nil.mp hx
  obtain ⟨n, hn, hvy⟩ := verify_eq_nil.mp hy
  obtain ⟨hsize, hblock, hcount, hroot⟩ := signed_geometry hvx.parsed hvy.parsed hsigned
  have hrooty := hvy.root
  rw [← hroot] at hrooty
  have hlen : (chunksExact4 (m.leavesOf x)).length = (chunksExact4 (n.leavesOf y)).length := by
    rw [hvx.stored, hvy.stored, leafHashes_length, leafHashes_length, hvx.parsed.payload_length,
      hvy.parsed.payload_length, hsize, hblock]
  rcases root_binding hlen hvx.root hrooty with hleaves | hnode
  · have hstored : leafHashes c (m.payloadOf x) m.blockSize =
        leafHashes c (n.payloadOf y) m.blockSize := by
      rw [← hvx.stored, hleaves, hvy.stored, hblock]
    rcases leafHashes_binding m.blockSize_pos hstored with hpayload | hcollide
    · refine .inl (agree_outside hvx hvy hsigned ?_ hpayload)
      rw [← hvx.leaves, ← hvy.leaves, hpayload, hblock]
    · exact .inr ⟨m, n, hm, hn, .inl hcollide⟩
  · exact .inr ⟨m, n, hm, hn, .inr hnode⟩

set_option maxRecDepth 4000 in
theorem verify_binding_tiny :
    (tinyUnsigned.length = tinyResigned.length ∧
      tinyUnsigned.take (HEADER_LEN + SIGNED_LEN) = tinyResigned.take (HEADER_LEN + SIGNED_LEN) ∧
      tinyUnsigned.drop (HEADER_LEN + SIGNED_LEN + 64) =
        tinyResigned.drop (HEADER_LEN + SIGNED_LEN + 64)) ∨
    ∃ m n, Manifest.parse Crypto.plain tinyUnsigned = .ok m ∧
      Manifest.parse Crypto.plain tinyResigned = .ok n ∧
      (BlockCollision Crypto.plain m.blockSize (m.payloadOf tinyUnsigned)
          (n.payloadOf tinyResigned) ∨
        NodeCollision Crypto.plain (chunksExact4 (m.leavesOf tinyUnsigned))
          (chunksExact4 (n.leavesOf tinyResigned))) :=
  verify_binding Crypto.plain tinyUnsigned tinyResigned rfl rfl rfl

end Binding

end MotaTool
