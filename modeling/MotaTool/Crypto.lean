import MotaTool.Base.Octets

/-!
# Digests and signatures

The hash and signature primitives come from outside the program and are
parameters. `mh` truncates the digest. The only property results may assume of
a signature scheme is that verification accepts what was signed.
-/

namespace MotaTool

open Base

structure Crypto where
  sha256 : Bytes → Octets 32
  publicFromSeed : Octets 32 → Octets 32
  sign : Octets 32 → Bytes → Octets 64
  verify : Octets 32 → Bytes → Octets 64 → Bool

namespace Crypto

def mh (c : Crypto) (n : ℕ) (h : n ≤ 32) (data : Bytes) : Octets n :=
  ⟨(c.sha256 data).val.take n, by rw [List.length_take, (c.sha256 data).property]; omega⟩

def mh4 (c : Crypto) (data : Bytes) : Octets 4 := c.mh 4 (by decide) data

def mh8 (c : Crypto) (data : Bytes) : Octets 8 := c.mh 8 (by decide) data

/-- Signatures verify under the public key of the seed they were made with. -/
def AcceptsSigned (c : Crypto) : Prop :=
  ∀ seed msg, c.verify (c.publicFromSeed seed) msg (c.sign seed msg) = true

/-- A scheme to compute with: the digest is the start of the data, and the one signature a
key accepts for a message is the key before that start. -/
def plain : Crypto where
  sha256 data := Octets.padded 32 data
  publicFromSeed seed := seed
  sign seed msg := Octets.padded 64 (seed.val ++ msg)
  verify key msg signature := signature = Octets.padded 64 (key.val ++ msg)

theorem plain_acceptsSigned : plain.AcceptsSigned := fun _ _ => decide_eq_true rfl

end Crypto

end MotaTool
