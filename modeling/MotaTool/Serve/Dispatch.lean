import MotaTool.Serve.Present

/-!
# The dispatcher returns

On arguments of at least the header's length every request is answered, with
an error where an index, a range or a data length is invalid, and then no file
changes. Short arguments are ignored or refused, except where the dispatcher
indexes them before it looks at their length: in `READ`, and in the storage
requests of a core with a store.
-/

namespace MotaTool.Serve

open Base Run Format seeder

def isStorage (op : UInt8) : Prop :=
  op = OP_STAT ∨ op = OP_BEGIN ∨ op = OP_WRITE ∨ op = OP_SREAD ∨ op = OP_FIN

instance (op : UInt8) : Decidable (isStorage op) :=
  inferInstanceAs (Decidable (_ ∨ _ ∨ _ ∨ _ ∨ _))

def Short (op : UInt8) (args : Bytes) : Prop :=
  ∃ hdr, requestHeaderLen op = some hdr ∧ args.length < hdr

section Requests

variable {c : Crypto} {φ : Type} (core : SeederCore c) (fs : FileSystem φ) (z : Compressors)

def named (args : Bytes) : Option (ServedMota c) := core.folder[(args.headD 0).toNat]?

/-- No such container, a range beyond what it has, or less data than a write declares. -/
inductive Invalid (op : UInt8) (args : Bytes) : Prop
  | index (hop : op = OP_DESCRIBE ∨ op = OP_READ ∨ op = OP_DEFLATE_BLOCK)
      (hindex : named core args = none)
  | range (served : ServedMota c) (hop : op = OP_READ) (hindex : named core args = some served)
      (hrange : served.bytes.length <
        ofLe ((args.drop 1).take 4) + ofLe ((args.drop 5).take 2))
  | slice (hop : op = OP_DEFLATE_BLOCK)
      (hslice : DEFLATE_READ_MAX < ofLe ((args.drop 5).take 2) ∨
        ofLe ((args.drop 5).take 2) = 0 ∧ ofLe ((args.drop 3).take 2) ≠ 0)
  | block (served : ServedMota c) (hop : op = OP_DEFLATE_BLOCK)
      (hindex : named core args = some served)
      (hblock : ∀ encoded,
        served.cachedDeflateBlock z (ofLe ((args.drop 1).take 2)) = some encoded →
          encoded.length < ofLe ((args.drop 3).take 2) + ofLe ((args.drop 5).take 2))
  | data (hop : op = OP_WRITE) (hdata : args.length < 10 + declaredLen args)

def Dispatched (op : UInt8) (args : Bytes) (files : φ) : Prop :=
  ∃ reply files', core.handle fs z op args files = .ok (reply, files') ∧
    (requestHeaderLen op = none → reply = none) ∧
    (Short op args → (∀ r ∈ reply, r.1 = STATUS_ERR) ∧ files' = files) ∧
    ∀ hdr, requestHeaderLen op = some hdr → hdr ≤ args.length → ∃ r, reply = some r ∧
      (Invalid core z op args → r.1 = STATUS_ERR ∧ files' = files)

end Requests

section Panics

variable {c : Crypto} {φ : Type} {core : SeederCore c} {fs : FileSystem φ} {z : Compressors}
  {op : UInt8} {args : Bytes} {files : φ}

theorem slice_panic {v : Bytes} {lo hi : ℕ} (h : v.length < hi) : slice v lo hi = Run.panic :=
  if_neg fun hfit => by omega

theorem rdU32_panic {v : Bytes} {off : ℕ} (h : v.length < off + 4) : rdU32 v off = Run.panic := by
  rw [rdU32, slice_panic h]
  rfl

theorem panic_bind {α β : Type} (f : α → Run β) : (Run.panic >>= f) = Run.panic := rfl

theorem read_panic (h : args.length < 7) : core.read args = Run.panic := by
  unfold SeederCore.read
  by_cases hoff : args.length < 1 + 4
  · rw [rdU32_panic hoff, panic_bind]
  · rw [rdU32_ok (by omega), ok_bind, slice_panic h, panic_bind]

theorem handleStorage_panic (hstore : core.storeDir ≠ none) (hop : isStorage op)
    (h : Short op args) : core.handleStorage fs op args files = Run.panic := by
  obtain ⟨hdr, hhdr, hlen⟩ := h
  obtain ⟨store, hstore⟩ := Option.ne_none_iff_exists'.mp hstore
  rw [SeederCore.handleStorage, hstore]
  simp only
  by_cases hmid : args.length < 4
  · rw [slice_panic hmid, panic_bind]
  · rw [slice_ok (by omega) (by omega), ok_bind]
    rcases hop with rfl | rfl | rfl | rfl | rfl
    · cases hhdr
      exact absurd hlen hmid
    · cases hhdr
      rw [if_neg (by decide), if_pos rfl, rdU32_panic hlen, panic_bind]
    · cases hhdr
      rw [if_neg (by decide), if_neg (by decide), if_pos rfl]
      by_cases hoff : args.length < 4 + 4
      · rw [rdU32_panic hoff, panic_bind]
      · rw [rdU32_ok (by omega), ok_bind, slice_panic hlen, panic_bind]
    · cases hhdr
      rw [if_neg (by decide), if_neg (by decide), if_neg (by decide), if_pos rfl]
      by_cases hoff : args.length < 4 + 4
      · rw [rdU32_panic hoff, panic_bind]
      · rw [rdU32_ok (by omega), ok_bind, slice_panic hlen, panic_bind]
    · cases hhdr
      exact absurd hlen hmid

end Panics

section Replies

variable {c : Crypto} {φ : Type} {core : SeederCore c} {fs : FileSystem φ} {z : Compressors}
  {op : UInt8} {args : Bytes} {files : φ}

theorem handle_unknown (h : requestHeaderLen op = none) :
    core.handle fs z op args files = .ok (none, files) := by
  have hne : ∀ known, (requestHeaderLen known).isSome = true → op ≠ known := by
    rintro known hsome rfl
    rw [h] at hsome
    cases hsome
  unfold SeederCore.handle
  rw [if_neg (hne _ rfl), if_neg (hne _ rfl), if_neg (hne _ rfl), if_neg (hne _ rfl), if_neg]
  rintro (rfl | rfl | rfl | rfl | rfl) <;> cases h

theorem handle_storage (h : isStorage op) : core.handle fs z op args files =
    (core.handleStorage fs op args files).map fun r => (some r.1, r.2) := by
  rcases h with rfl | rfl | rfl | rfl | rfl <;> rfl

theorem handle_short (h : Short op args) (hread : op ≠ OP_READ)
    (hstore : isStorage op → core.storeDir = none) : ∃ reply,
      core.handle fs z op args files = .ok (reply, files) ∧ ∀ r ∈ reply, r.1 = STATUS_ERR := by
  obtain ⟨hdr, hhdr, hlen⟩ := h
  have hknown : 1 ≤ op ∧ op ≤ 9 := (requestHeaderLen_isSome op).mp (by rw [hhdr]; rfl)
  rcases known_cases hknown with rfl | rfl | rfl | rfl | hstorage
  · cases hhdr
    exact absurd hlen (Nat.not_lt_zero _)
  · cases hhdr
    obtain rfl : args = [] := List.length_eq_zero_iff.mp (by omega)
    exact ⟨none, rfl, fun r hr => by cases hr⟩
  · exact absurd rfl hread
  · cases hhdr
    refine ⟨some refused, ?_, fun r hr => by cases hr; rfl⟩
    have hrefused : core.deflateBlock z args = .ok refused := if_pos (by omega)
    change (core.deflateBlock z args >>= _) = _
    rw [hrefused]
    rfl
  · refine ⟨some refused, ?_, fun r hr => by cases hr; rfl⟩
    rw [handle_storage hstorage, SeederCore.handleStorage, hstore hstorage]
    rfl

theorem index_head {v : Bytes} (h : 0 < v.length) : index v 0 = .ok (v.headD 0) := by
  obtain ⟨i, rest, rfl⟩ := List.exists_cons_of_length_pos h
  rfl

theorem read_full (hlen : 7 ≤ args.length) : ∃ r, core.read args = .ok r ∧
    (Invalid core z OP_READ args → r.1 = STATUS_ERR) := by
  have hoff : (UInt32.ofNat (ofLe ((args.drop 1).take 4))).toNat = ofLe ((args.drop 1).take 4) := by
    rw [UInt32.toNat_ofNat', Nat.mod_eq_of_lt (ofLe_lt_u32 _)]
    rw [List.length_take, List.length_drop]
    omega
  simp only [SeederCore.read, rdU32_ok (show 1 + 4 ≤ args.length by omega),
    slice_ok (show 5 ≤ 7 by omega) hlen, index_head (show 0 < args.length by omega), ok_bind, hoff]
  cases hnamed : named core args with
  | none =>
    rw [named] at hnamed
    simp only [hnamed]
    exact ⟨_, rfl, fun _ => rfl⟩
  | some served =>
    rw [named] at hnamed
    simp only [hnamed]
    split_ifs with hfits
    · refine ⟨_, rfl, fun hinvalid => ?_⟩
      cases hinvalid with
      | index hop hindex =>
        rw [named, hnamed] at hindex
        cases hindex
      | range served' hop hindex hrange =>
        rw [named, hnamed] at hindex
        cases hindex
        exact absurd hfits (Nat.not_le.mpr hrange)
      | slice hop => cases hop
      | block _ hop => cases hop
      | data hop => cases hop
    · exact ⟨_, rfl, fun _ => rfl⟩

theorem deflate_full (hlen : 7 ≤ args.length) : ∃ r, core.deflateBlock z args = .ok r ∧
    (Invalid core z OP_DEFLATE_BLOCK args → r.1 = STATUS_ERR) := by
  unfold SeederCore.deflateBlock
  split_ifs with hseven
  · exact ⟨refused, rfl, fun _ => rfl⟩
  simp only [slice_ok (show 1 ≤ 3 by omega) (show 3 ≤ args.length by omega),
    slice_ok (show 3 ≤ 5 by omega) (show 5 ≤ args.length by omega),
    slice_ok (show 5 ≤ 7 by omega) hlen, index_head (show 0 < args.length by omega), ok_bind]
  split_ifs with hslice
  · exact ⟨refused, rfl, fun _ => rfl⟩
  cases hnamed : named core args with
  | none =>
    rw [named] at hnamed
    simp only [hnamed]
    exact ⟨_, rfl, fun _ => rfl⟩
  | some served =>
    rw [named] at hnamed
    simp only [hnamed]
    cases hencoded : served.cachedDeflateBlock z (ofLe ((args.drop 1).take 2)) with
    | none =>
      dsimp only
      exact ⟨_, rfl, fun _ => rfl⟩
    | some encoded =>
      dsimp only
      split_ifs with hrange
      · exact ⟨_, rfl, fun _ => rfl⟩
      · refine ⟨_, rfl, fun hinvalid => ?_⟩
        cases hinvalid with
        | index hop hindex =>
          rw [named, hnamed] at hindex
          cases hindex
        | range _ hop => cases hop
        | slice hop hslice' => exact absurd hslice' hslice
        | block served' hop hindex hblock =>
          rw [named, hnamed] at hindex
          cases hindex
          exact absurd (hblock encoded hencoded) hrange
        | data hop => cases hop

theorem storage_full (hlen : ∀ n, requestHeaderLen op = some n → n ≤ args.length)
    (hop : isStorage op) : ∃ r files', core.handleStorage fs op args files = .ok (r, files') ∧
      (Invalid core z op args → r.1 = STATUS_ERR ∧ files' = files) := by
  obtain ⟨⟨r, files'⟩, hok⟩ := handleStorage_ok core fs files hlen hop
  refine ⟨r, files', hok, fun hinvalid => ?_⟩
  have hfalse : ∀ known, isStorage op → op = known → ¬ isStorage known → False :=
    fun known h heq hnot => hnot (heq ▸ h)
  cases hinvalid with
  | index h => rcases h with h | h | h <;> exact (hfalse _ hop h (by decide)).elim
  | range _ h => exact (hfalse _ hop h (by decide)).elim
  | slice h => exact (hfalse _ hop h (by decide)).elim
  | block _ h => exact (hfalse _ hop h (by decide)).elim
  | data h hdata =>
    subst h
    have hten := hlen 10 rfl
    rw [SeederCore.handleStorage] at hok
    split at hok
    · cases hok
      exact ⟨rfl, rfl⟩
    · rw [slice_ok (by omega) (by omega), ok_bind] at hok
      simp only at hok
      rw [if_neg (by decide), if_neg (by decide), if_pos trivial, rdU32_ok (by omega), ok_bind,
        slice_ok (by omega) hten, ok_bind, if_neg] at hok
      · cases hok
        exact ⟨rfl, rfl⟩
      · exact Nat.not_le.mpr hdata

theorem handle_full {hdr : ℕ} (hhdr : requestHeaderLen op = some hdr) (hlen : hdr ≤ args.length) :
    ∃ r files', core.handle fs z op args files = .ok (some r, files') ∧
      (Invalid core z op args → r.1 = STATUS_ERR ∧ files' = files) := by
  have hknown : 1 ≤ op ∧ op ≤ 9 := (requestHeaderLen_isSome op).mp (by rw [hhdr]; rfl)
  rcases known_cases hknown with rfl | rfl | rfl | rfl | hstorage
  · refine ⟨_, files, rfl, fun hinvalid => ?_⟩
    cases hinvalid with
    | index hop => rcases hop with hop | hop | hop <;> cases hop
    | range _ hop => cases hop
    | slice hop => cases hop
    | block _ hop => cases hop
    | data hop => cases hop
  · cases hhdr
    obtain ⟨i, rest, rfl⟩ : ∃ i rest, args = i :: rest := List.exists_cons_of_length_pos hlen
    refine ⟨_, files, rfl, fun hinvalid => ⟨?_, rfl⟩⟩
    cases hinvalid with
    | index _ hindex =>
      have hnone : core.folder[i.toNat]? = none := hindex
      simp only [hnone]
      rfl
    | range _ hop => cases hop
    | slice hop => cases hop
    | block _ hop => cases hop
    | data hop => cases hop
  · cases hhdr
    obtain ⟨r, hok, hinvalid⟩ := @read_full c core z args hlen
    refine ⟨r, files, ?_, fun h => ⟨hinvalid h, rfl⟩⟩
    change (core.read args >>= _) = _
    rw [hok]
    rfl
  · cases hhdr
    obtain ⟨r, hok, hinvalid⟩ := @deflate_full c core z args hlen
    refine ⟨r, files, ?_, fun h => ⟨hinvalid h, rfl⟩⟩
    change (core.deflateBlock z args >>= _) = _
    rw [hok]
    rfl
  · obtain ⟨r, files', hok, hinvalid⟩ := @storage_full c φ core fs z op args files
      (fun n hn => by rw [hhdr] at hn; cases hn; exact hlen) hstorage
    exact ⟨r, files', by rw [handle_storage hstorage, hok]; rfl, hinvalid⟩

/-- The dispatcher meets its contract exactly on arguments that are not short, or are looked at
before they are indexed. -/
theorem handle_dispatched (core : SeederCore c) (fs : FileSystem φ) (z : Compressors) (op : UInt8)
    (args : Bytes) (files : φ) : Dispatched core fs z op args files ↔
      ¬ (Short op args ∧ (op = OP_READ ∨ isStorage op ∧ core.storeDir ≠ none)) := by
  constructor
  · rintro ⟨reply, files', hok, -⟩ ⟨hshort, rfl | ⟨hstorage, hstore⟩⟩
    · obtain ⟨hdr, hhdr, hlen⟩ := hshort
      cases hhdr
      change (core.read args >>= _) = _ at hok
      rw [read_panic hlen] at hok
      cases hok
    · rw [handle_storage hstorage, handleStorage_panic hstore hstorage hshort] at hok
      cases hok
  · intro hnot
    cases hhdr : requestHeaderLen op with
    | none =>
      refine ⟨none, files, handle_unknown hhdr, fun _ => rfl, ?_, ?_⟩
      · exact fun ⟨hdr, h, _⟩ => by rw [hhdr] at h; cases h
      · exact fun hdr h => by rw [hhdr] at h; cases h
    | some hdr =>
      by_cases hlen : hdr ≤ args.length
      · obtain ⟨r, files', hok, hinvalid⟩ :=
          @handle_full c φ core fs z op args files hdr hhdr hlen
        refine ⟨some r, files', hok, (fun h => by rw [hhdr] at h; cases h), ?_, ?_⟩
        · rintro ⟨hdr', h, hlt⟩
          rw [hhdr] at h
          cases h
          exact absurd hlen (Nat.not_le.mpr hlt)
        · exact fun _ _ _ => ⟨r, rfl, hinvalid⟩
      · have hshort : Short op args := ⟨hdr, hhdr, Nat.not_le.mp hlen⟩
        obtain ⟨reply, hok, herr⟩ := @handle_short c φ core fs z op args files hshort
          (fun hread => hnot ⟨hshort, .inl hread⟩)
          fun hstorage => by_contra fun hstore => hnot ⟨hshort, .inr ⟨hstorage, hstore⟩⟩
        refine ⟨reply, files, hok, (fun h => by rw [hhdr] at h; cases h), fun _ => ⟨herr, rfl⟩, ?_⟩
        intro hdr' h hle
        rw [hhdr] at h
        cases h
        exact absurd hle hlen

end Replies

theorem handle_short_read : ¬ Dispatched emptyCore noFiles noCompressors OP_READ [] () := by
  rintro ⟨reply, files', hok, -⟩
  have hpanic : emptyCore.handle noFiles noCompressors OP_READ [] () = Run.panic := rfl
  rw [hpanic] at hok
  cases hok

end MotaTool.Serve
