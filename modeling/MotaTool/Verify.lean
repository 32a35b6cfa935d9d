import MotaTool.ManifestSpec
import MotaTool.Merkle

/-!
# Verification of a container

`verify` collects every problem of a container that parses: leaves that do not
match the payload, a root that does not match the leaves, a wrong image hash,
an invalid signature and a consent marker that is not erased.
-/

namespace MotaTool

open Base Run Format Merkle

def problem (bad : Prop) [Decidable bad] (msg : String) : List String :=
  if bad then [msg] else []

def problems (c : Crypto) (blob : Bytes) (m : Manifest) : Run (List String) := do
  let storedLeaves ← slice blob m.leavesOff m.payloadOff
  let payload ← slice blob m.payloadOff (m.payloadOff + m.payloadSize.toNat)
  let recomputed := flatten (leafHashes c payload m.blockSize)
  let root ← root c (chunksExact4 storedLeaves)
  let signed ← slice blob HEADER_LEN (HEADER_LEN + SIGNED_LEN)
  .ok (problem (recomputed ≠ storedLeaves) "leaves[] do not match the payload (corruption)" ++
    problem (root ≠ m.merkleRoot) "merkle_root mismatch" ++
    problem (m.isFull = true ∧ c.sha256 payload ≠ m.imageHash)
      "image_hash mismatch (full image)" ++
    problem (m.isSigned = true ∧ ¬ c.verify m.signer signed m.signature = true)
      "Ed25519 signature INVALID" ++
    problem (m.approval ≠ APPROVAL_NONE)
      "approval is not FF FF FF FF (distributed container must be unapproved)")

/-- An unparseable container has one problem, the outermost message of the error. -/
def verify (c : Crypto) (blob : Bytes) : Run (List String) :=
  match Manifest.parse c blob with
  | .ok m => problems c blob m
  | .error (.error chain) => .ok [chain.headD ""]
  | .error fault => .error fault

theorem problem_eq_nil {bad : Prop} [Decidable bad] {msg : String} :
    problem bad msg = [] ↔ ¬ bad := by
  unfold problem
  split_ifs with h <;> simp [h]

/-- What an empty list of problems says. -/
structure Verified (c : Crypto) (blob : Bytes) (m : Manifest) : Prop where
  parsed : m.Parsed c blob
  leaves : flatten (leafHashes c (m.payloadOf blob) m.blockSize) = m.leavesOf blob
  root : root c (chunksExact4 (m.leavesOf blob)) = .ok m.merkleRoot
  image : m.isFull = true → c.sha256 (m.payloadOf blob) = m.imageHash
  signature : m.isSigned = true →
    c.verify m.signer ((blob.drop HEADER_LEN).take SIGNED_LEN) m.signature = true
  approval : m.approval = APPROVAL_NONE

section Problems

variable {c : Crypto} {blob : Bytes} {m : Manifest}

theorem Manifest.Parsed.slices (h : m.Parsed c blob) :
    slice blob m.leavesOff m.payloadOff = .ok (m.leavesOf blob) ∧
      slice blob m.payloadOff (m.payloadOff + m.payloadSize.toNat) = .ok (m.payloadOf blob) ∧
      slice blob HEADER_LEN (HEADER_LEN + SIGNED_LEN) =
        .ok ((blob.drop HEADER_LEN).take SIGNED_LEN) := by
  have hend := h.payload_end
  have hoff := Manifest.payloadOff_eq m
  have hsize := h.size
  simp only [HEADER_LEN, MFL, TRAILER_LEN, SIGNED_LEN] at hsize hend ⊢
  refine ⟨slice_ok (by omega) (by omega), ?_, ?_⟩
  · rw [slice_ok (by omega) (by omega), Nat.add_sub_cancel_left, Manifest.payloadOf]
  · rw [slice_ok (by omega) (by omega)]

theorem problems_ok (h : m.Parsed c blob) : ∃ found, problems c blob m = .ok found := by
  obtain ⟨hleaves, hpayload, hsigned⟩ := h.slices
  obtain ⟨r, hr⟩ := root_ok (c := c) (chunksExact4 (m.leavesOf blob))
  simp only [problems, hleaves, hpayload, hsigned, hr, ok_bind]
  exact ⟨_, rfl⟩

theorem problems_eq_nil (h : m.Parsed c blob) :
    problems c blob m = .ok [] ↔ Verified c blob m := by
  obtain ⟨hleaves, hpayload, hsigned⟩ := h.slices
  obtain ⟨r, hr⟩ := root_ok (c := c) (chunksExact4 (m.leavesOf blob))
  simp only [problems, hleaves, hpayload, hsigned, hr, ok_bind, Except.ok.injEq,
    List.append_eq_nil_iff, problem_eq_nil, not_and, not_not]
  constructor
  · rintro ⟨⟨⟨⟨hl, hroot⟩, himage⟩, hsig⟩, happ⟩
    exact ⟨h, hl, by rw [hr, hroot], himage, hsig, happ⟩
  · rintro ⟨-, hl, hroot, himage, hsig, happ⟩
    rw [hr] at hroot
    cases hroot
    exact ⟨⟨⟨⟨hl, rfl⟩, himage⟩, hsig⟩, happ⟩

theorem verify_eq_nil : verify c blob = .ok [] ↔
    ∃ m, Manifest.parse c blob = .ok m ∧ Verified c blob m := by
  unfold verify
  cases hparse : Manifest.parse c blob with
  | ok m =>
    have hparsed := Manifest.parse_parsed hparse
    simp only [Except.ok.injEq, exists_eq_left']
    exact problems_eq_nil hparsed
  | error fault => cases fault <;> simp

end Problems

end MotaTool
