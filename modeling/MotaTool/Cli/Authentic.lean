import MotaTool.Cli.CommandsSpec
import MotaTool.Serve.Mirror

/-!
# What a signature vouches for

A file that `verify` accepts under the key of a release, from wherever it comes,
is a package of the release outside its signature bytes, or it carries a valid
signature of something that was never signed, or the truncated digest collides
on the two.
-/

namespace MotaTool.Cli

open Base Run Format Merkle Build Serve

def signedPart (blob : Bytes) : Bytes := (blob.drop HEADER_LEN).take SIGNED_LEN

/-- Two containers that differ in the 64 bytes of the signature only. -/
structure SamePackage (x y : Bytes) : Prop where
  length : x.length = y.length
  before : x.take (HEADER_LEN + SIGNED_LEN) = y.take (HEADER_LEN + SIGNED_LEN)
  after : x.drop (HEADER_LEN + SIGNED_LEN + 64) = y.drop (HEADER_LEN + SIGNED_LEN + 64)

/-- A signature under the key of something that no package in the files says. -/
structure Forges (w : Outside) (host : Host) (paths : List String) (key : Octets 32)
    (blob : Bytes) (m : Manifest) : Prop where
  valid : w.crypto.verify key (signedPart blob) m.signature = true
  fresh : ∀ path ∈ paths, ∀ released, host.read path = .ok released →
    signedPart released ≠ signedPart blob

section Accepted

variable {w : Outside} {host : Host} {want : Option (Octets 32)} {x y : Bytes} {m n : Manifest}

theorem verified_samePackage (hx : Verified w.crypto x m) (hy : Verified w.crypto y n)
    (hsigned : signedPart x = signedPart y) : SamePackage x y ∨
      BlockCollision w.crypto m.blockSize (m.payloadOf x) (n.payloadOf y) ∨
      NodeCollision w.crypto (chunksExact4 (m.leavesOf x)) (chunksExact4 (n.leavesOf y)) := by
  obtain ⟨hsize, hblock, -, hroot⟩ := signed_geometry hx.parsed hy.parsed hsigned
  refine (verified_payload hx hy hsize hblock hroot).imp_left fun hpayload => ?_
  have hleaves : m.leavesOf x = n.leavesOf y := by
    rw [← hx.leaves, ← hy.leaves, hpayload, hblock]
  obtain ⟨hlength, hbefore, hafter⟩ := agree_outside hx hy hsigned hleaves hpayload
  exact ⟨hlength, hbefore, hafter⟩

theorem verifyFiles_trusted {files out out' : List String} {bad count : ℕ}
    (h : files.foldlM (verifyStep w host want) (out, bad) = .ok (out', count)) :
    bad ≤ count ∧ (count = bad → ∀ file ∈ files, ∃ blob m, Trusted w host want file blob m) := by
  induction files generalizing out bad with
  | nil =>
    cases h
    exact ⟨Nat.le_refl _, fun _ file hfile => by cases hfile⟩
  | cons file files ih =>
    obtain ⟨good, line, hfile, -, hgood⟩ := verifyFile_reports w host want file
    simp only [List.foldlM_cons, verifyStep, hfile, ok_bind] at h
    cases good with
    | true =>
      rw [if_pos rfl, ok_bind] at h
      obtain ⟨hle, hrest⟩ := ih h
      refine ⟨hle, fun heq => List.forall_mem_cons.mpr ⟨hgood.mp rfl, hrest heq⟩⟩
    | false =>
      simp only [Bool.false_eq_true, if_false, bind_eq_ok, unwrap_eq_ok] at h
      obtain ⟨next, ⟨total, htotal, hnext⟩, h⟩ := h
      cases hnext
      obtain ⟨hle, -⟩ := ih h
      have hmore := (checkedAdd_eq_some.mp htotal).2
      exact ⟨by omega, fun heq => absurd heq (by omega)⟩

theorem cmdVerify_trusted {files out : List String} {key : Octets 32} {pubFile : String}
    (hpub : loadKey32 host pubFile = .ok key)
    (h : cmdVerify w host ⟨files, some pubFile⟩ = .ok ⟨out, [], true⟩) :
    ∀ file ∈ files, ∃ blob m, Trusted w host (some key) file blob m := by
  have hwant : (some pubFile).mapM (loadKey32 host) = .ok (some key) := by
    rw [Option.mapM_some, hpub]
    rfl
  simp only [cmdVerify, hwant, bind_eq_ok] at h
  obtain ⟨⟨lines, bad⟩, hfiles, h⟩ := h
  simp only [Except.ok.injEq, Outcome.mk.injEq, beq_iff_eq, true_and] at h
  exact (verifyFiles_trusted hfiles).2 h.2

end Accepted

/-- Whatever files a host holds after a release, `verify` accepts under its key only packages of
the release, up to the signature bytes, unless a signature is forged or a digest collides. -/
theorem release_authentic (w : Outside) (hc : w.crypto.AcceptsSigned)
    (host host₁ host₂ host₃ : Host) (seed : Octets 32) (keyFile : String) (printed : List String)
    (hkeys : cmdKeygen w.crypto host seed (some keyFile) = .ok (host₁, printed))
    (packagings : List Packaging) (paths : List String)
    (hsigns : ∀ packaging ∈ packagings, packaging.Signs keyFile)
    (hrun : release w host₁ packagings = .ok (host₂, paths))
    (hdistinct : (host.file keyFile :: host.file s!"{keyFile}.pub" :: paths.map host.file).Nodup)
    (pubFile : String) (hpub : loadKey32 host₃ pubFile = .ok (w.crypto.publicFromSeed seed))
    (files out : List String)
    (hverify : cmdVerify w host₃ ⟨files, some pubFile⟩ = .ok ⟨out, [], true⟩) :
    ∀ file ∈ files, ∃ blob m, host₃.read file = .ok blob ∧
      Manifest.parse w.crypto blob = .ok m ∧
      ((∃ path ∈ paths, ∃ released n, host₂.read path = .ok released ∧
          Manifest.parse w.crypto released = .ok n ∧ (SamePackage blob released ∨
            BlockCollision w.crypto m.blockSize (m.payloadOf blob) (n.payloadOf released) ∨
            NodeCollision w.crypto (chunksExact4 (m.leavesOf blob))
              (chunksExact4 (n.leavesOf released)))) ∨
        Forges w host₂ paths (w.crypto.publicFromSeed seed) blob m) := by
  intro file hfile
  simp only [List.nodup_cons, List.mem_cons, not_or] at hdistinct
  obtain ⟨⟨hkey, hseedFile⟩, -, hpaths⟩ := hdistinct
  obtain ⟨hkeyed, hseed, -⟩ := cmdKeygen_ok hkeys hkey
  have hsame := hkeyed.file
  obtain ⟨-, -, hreleased⟩ := release_ok hc hsigns hseed hrun
    (by rw [hsame]; exact List.nodup_cons.mpr ⟨hseedFile, hpaths⟩)
  obtain ⟨blob, m, htrusted⟩ := cmdVerify_trusted hpub hverify file hfile
  refine ⟨blob, m, htrusted.read, htrusted.parsed, ?_⟩
  by_cases hknown : ∃ path ∈ paths, ∃ released, host₂.read path = .ok released ∧
      signedPart released = signedPart blob
  · obtain ⟨path, hpath, released, hread, hsigned⟩ := hknown
    obtain ⟨other, n, hother⟩ := hreleased path hpath
    obtain rfl := Except.ok.inj (hread.symm.trans hother.read)
    exact .inl ⟨path, hpath, released, n, hread, hother.parsed,
      verified_samePackage htrusted.verified hother.verified hsigned.symm⟩
  · obtain ⟨-, hsigner, hvalid⟩ := htrusted.key _ rfl
    refine .inr ⟨hvalid, fun path hpath released hread hsigned => hknown ?_⟩
    exact ⟨path, hpath, released, hread, hsigned⟩

theorem release_authentic_byte : ∃ host₂ blob m, host₂.read "fw.mota" = .ok blob ∧
    Manifest.parse Crypto.plain blob = .ok m ∧
    ((∃ path ∈ ["fw.mota"], ∃ released n, host₂.read path = .ok released ∧
        Manifest.parse Crypto.plain released = .ok n ∧ (SamePackage blob released ∨
          BlockCollision Crypto.plain m.blockSize (m.payloadOf blob) (n.payloadOf released) ∨
          NodeCollision Crypto.plain (chunksExact4 (m.leavesOf blob))
            (chunksExact4 (n.leavesOf released)))) ∨
      Forges offline host₂ ["fw.mota"] (Crypto.plain.publicFromSeed (Octets.zero 32)) blob m) := by
  obtain ⟨host₁, printed, host₂, hkeys, hrelease⟩ := release_byte
  obtain ⟨hkeyed, hseed, hpub⟩ := cmdKeygen_ok hkeys (by decide +kernel)
  have hsigns : ∀ packaging ∈ [Packaging.app byteArgs], packaging.Signs "key" := by
    simp [Packaging.Signs, byteArgs]
  obtain ⟨hkeeps, -, htrusted⟩ := release_ok Crypto.plain_acceptsSigned hsigns hseed hrelease
    (by rw [hkeyed.file]; decide +kernel)
  have hpub : loadKey32 host₂ "key.pub" =
      .ok (offline.crypto.publicFromSeed (Octets.zero 32)) :=
    (hkeeps.loads (by rw [hkeyed.file]; decide +kernel)).trans hpub
  have hwant : (some "key.pub").mapM (loadKey32 host₂) =
      .ok (some (offline.crypto.publicFromSeed (Octets.zero 32))) := by
    rw [Option.mapM_some, hpub]
    rfl
  obtain ⟨out, success, hverify, -, hsuccess⟩ :=
    @cmdVerify_reports offline host₂ _ ⟨["fw.mota"], some "key.pub"⟩ (by simp) hwant
  rw [hsuccess.mpr htrusted] at hverify
  obtain ⟨blob, m, h⟩ := release_authentic offline Crypto.plain_acceptsSigned byteHost host₁ host₂
    host₂ (Octets.zero 32) "key" printed hkeys [.app byteArgs] ["fw.mota"] hsigns hrelease
    (by decide +kernel) "key.pub" hpub ["fw.mota"] out hverify "fw.mota" List.mem_cons_self
  exact ⟨host₂, blob, m, h⟩

end MotaTool.Cli
