import MotaTool.Serve.Stream

/-!
# Well-formed requests are answered

A request that came off the link in full has the argument length of its
opcode. On such a request the core returns a reply and its log line, whatever
the files, the folder and the compressors are.
-/

namespace MotaTool.Serve

open Base Run Format seeder

/-- Arguments of the length the opcode asks for; a write carries its declared data. -/
def WellFormed (op : UInt8) (args : Bytes) : Prop :=
  ∃ hdr, requestHeaderLen op = some hdr ∧
    if op = OP_WRITE then declaredLen args ≤ WRITE_MAX ∧ args.length = hdr + declaredLen args
    else args.length = hdr

section Lengths

variable {op : UInt8} {args : Bytes}

theorem WellFormed.header (h : WellFormed op args) :
    ∃ hdr, requestHeaderLen op = some hdr ∧ hdr ≤ args.length := by
  obtain ⟨hdr, hhdr, hlen⟩ := h
  refine ⟨hdr, hhdr, ?_⟩
  split_ifs at hlen <;> omega

theorem WellFormed.length (h : WellFormed op args) {n : ℕ} (hn : requestHeaderLen op = some n) :
    n ≤ args.length := by
  obtain ⟨hdr, hhdr, hle⟩ := h.header
  rw [hn] at hhdr
  cases hhdr
  exact hle

theorem WellFormed.exact (h : WellFormed op args) {n : ℕ} (hn : requestHeaderLen op = some n)
    (hop : op ≠ OP_WRITE) : args.length = n := by
  obtain ⟨hdr, hhdr, hlen⟩ := h
  rw [hn] at hhdr
  cases hhdr
  rwa [if_neg hop] at hlen

theorem WellFormed.known (h : WellFormed op args) : 1 ≤ op ∧ op ≤ 9 := by
  obtain ⟨hdr, hhdr, -⟩ := h
  rw [← requestHeaderLen_isSome, hhdr]
  rfl

end Lengths

section Replies

variable {c : Crypto} {φ : Type} (core : SeederCore c) (fs : FileSystem φ) (z : Compressors)
  {op : UInt8} {args : Bytes}

theorem read_ok (hlen : 7 ≤ args.length) : ∃ reply, core.read args = .ok reply := by
  have hoff : 1 + 4 ≤ args.length := by omega
  simp only [SeederCore.read, rdU32_ok hoff, slice_ok (show 5 ≤ 7 by omega) hlen,
    index_ok (show 0 < args.length by omega), ok_bind]
  split
  · split_ifs <;> exact ⟨_, rfl⟩
  · exact ⟨_, rfl⟩

theorem deflateBlock_ok (hlen : args.length = 7) :
    ∃ reply, core.deflateBlock z args = .ok reply := by
  rw [SeederCore.deflateBlock, if_neg (by omega), index_ok (by omega),
    slice_ok (by omega) (by omega), slice_ok (by omega) (by omega),
    slice_ok (by omega) (by omega)]
  simp only [ok_bind]
  split_ifs
  · exact ⟨_, rfl⟩
  · split
    · exact ⟨_, rfl⟩
    · split
      · exact ⟨_, rfl⟩
      · split_ifs <;> exact ⟨_, rfl⟩

theorem handleStorage_ok (files : φ) (hlen : ∀ n, requestHeaderLen op = some n → n ≤ args.length)
    (hop : op = OP_STAT ∨ op = OP_BEGIN ∨ op = OP_WRITE ∨ op = OP_SREAD ∨ op = OP_FIN) :
    ∃ r, core.handleStorage fs op args files = .ok r := by
  have hmid : 4 ≤ args.length := by
    rcases hop with rfl | rfl | rfl | rfl | rfl
    · exact hlen 4 rfl
    · exact Nat.le_trans (by decide) (hlen 8 rfl)
    · exact Nat.le_trans (by decide) (hlen 10 rfl)
    · exact Nat.le_trans (by decide) (hlen 10 rfl)
    · exact hlen 4 rfl
  rw [SeederCore.handleStorage]
  split
  · exact ⟨_, rfl⟩
  · rw [slice_ok (by omega) hmid, ok_bind]
    rcases hop with rfl | rfl | rfl | rfl | rfl
    · exact ⟨_, rfl⟩
    · have height := hlen 8 rfl
      rw [if_neg (by decide), if_pos rfl, rdU32_ok (by omega)]
      exact ⟨_, rfl⟩
    · have hten := hlen 10 rfl
      rw [if_neg (by decide), if_neg (by decide), if_pos rfl, rdU32_ok (by omega), ok_bind,
        slice_ok (by omega) hten, ok_bind]
      split_ifs <;> exact ⟨_, rfl⟩
    · have hten := hlen 10 rfl
      rw [if_neg (by decide), if_neg (by decide), if_neg (by decide), if_pos rfl,
        rdU32_ok (by omega), ok_bind, slice_ok (by omega) hten, ok_bind]
      simp only
      split <;> exact ⟨_, rfl⟩
    · exact ⟨_, rfl⟩

theorem handle_replies (files : φ) (h : WellFormed op args) :
    ∃ reply files', core.handle fs z op args files = .ok (some reply, files') := by
  unfold SeederCore.handle
  split_ifs with hcount hdescribe hread hdeflate hstorage
  · exact ⟨_, _, rfl⟩
  · have hlen := h.length (n := 1) (by rw [hdescribe]; rfl)
    obtain ⟨i, rest, rfl⟩ : ∃ i rest, args = i :: rest := List.exists_cons_of_length_pos hlen
    exact ⟨_, _, rfl⟩
  · obtain ⟨reply, hreply⟩ := read_ok core (h.length (n := 7) (by rw [hread]; rfl))
    exact ⟨reply, files, by rw [hreply]; rfl⟩
  · obtain ⟨reply, hreply⟩ := deflateBlock_ok core z
      (h.exact (n := 7) (by rw [hdeflate]; rfl) (by rw [hdeflate]; decide))
    exact ⟨reply, files, by rw [hreply]; rfl⟩
  · obtain ⟨⟨reply, files'⟩, hreply⟩ :=
      handleStorage_ok core fs files (fun _ hn => h.length hn) hstorage
    exact ⟨reply, files', by rw [hreply]; rfl⟩
  · rcases known_cases h.known with hop | hop | hop | hop | hop
    · exact absurd hop hcount
    · exact absurd hop hdescribe
    · exact absurd hop hread
    · exact absurd hop hdeflate
    · exact absurd hop hstorage

theorem requestLog_ok {status : UInt8} {payload : Bytes} (h : WellFormed op args) :
    ∃ log, requestLog op args status payload = .ok log := by
  unfold requestLog
  split_ifs with hcount hdescribe hread hdeflate
  · exact ⟨_, rfl⟩
  · have hlen := h.length (n := 1) (by rw [hdescribe]; rfl)
    rw [index_ok (by omega)]
    exact ⟨_, rfl⟩
  · have hlen := h.length (n := 7) (by rw [hread]; rfl)
    rw [index_ok (by omega), rdU32_ok (by omega)]
    exact ⟨_, rfl⟩
  · have hlen := h.length (n := 7) (by rw [hdeflate]; rfl)
    rw [index_ok (by omega), ok_bind, slice_ok (by omega) (by omega), ok_bind,
      slice_ok (by omega) (by omega)]
    exact ⟨_, rfl⟩
  · exact ⟨_, rfl⟩

end Replies

def noFiles : FileSystem Unit where
  metadataLen _ _ := none
  write files _ _ := (false, files)
  writeAllAt files _ _ _ := (false, files)
  readExactAt _ _ _ _ := none
  rename files _ _ := (false, files)

end MotaTool.Serve
