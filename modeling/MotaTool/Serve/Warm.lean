import MotaTool.Serve.Library

/-!
# Warm starts

A fresh part holds the seed where a payload would stand, and a node that finds
blocks of it right does not ask for them again. A capture of such a part is
the container where a piece of it was written, and the fresh part elsewhere, so
it is the container exactly if the seed is right wherever nothing was written.
-/

namespace MotaTool.Serve

open Base Run Format seeder

def Merged (container : Bytes) (base : ℕ → UInt8) (covered : ℕ → Prop) (bytes : Bytes) : Prop :=
  bytes.length = container.length ∧ ∀ i < container.length,
    (covered i → bytes[i]? = container[i]?) ∧ (¬ covered i → bytes[i]? = some (base i))

def Merging (container : Bytes) (base : ℕ → UInt8) (covered : ℕ → Prop) (slot : Slot) : Prop :=
  ∃ bytes, slot.part = some bytes ∧ Merged container base covered bytes

def Written (middle : List (Call × Reply)) (mid : Bytes) (i : ℕ) : Prop :=
  ∃ entry ∈ middle, entry.1.mid = mid ∧ entry.1.op = OP_WRITE ∧ Covers entry.1 i

section Steps

variable {fresh : ℕ → Bytes} {container : Bytes} {base : ℕ → UInt8} {covered : ℕ → Prop}
  {slot : Slot} {call : Call}

theorem Merging.congr {other : ℕ → Prop} (h : Merging container base covered slot)
    (hsame : ∀ i, covered i ↔ other i) : Merging container base other slot := by
  obtain ⟨bytes, hpart, hlength, hcells⟩ := h
  refine ⟨bytes, hpart, hlength, fun i hi => ?_⟩
  rw [← hsame i]
  exact hcells i hi

theorem Merging.write (h : Carries container call) (hslot : Merging container base covered slot) :
    Merging container base (fun i => covered i ∨ Covers call i)
      (slot.step fresh (.write call.off call.data)).2 := by
  obtain ⟨data, hdata, hfits, hpiece⟩ := h
  obtain ⟨bytes, hpart, hlength, hcells⟩ := hslot
  have hlen := Call.data_length hdata
  have hstep : (slot.step fresh (.write call.off call.data)).2 =
      { slot with part := some (writeAt 0 bytes call.off data) } := by
    rw [hdata]
    simp only [Slot.step, hpart]
  rw [hstep]
  refine ⟨_, rfl, by rw [writeAt_length_within (by omega), hlength], fun i hi => ?_⟩
  by_cases hin : call.off ≤ i ∧ i < call.off + data.length
  · have hcovers : Covers call i := ⟨hin.1, by rw [← hlen]; exact hin.2⟩
    refine ⟨fun _ => ?_, fun hnot => absurd (.inr hcovers) hnot⟩
    rw [writeAt_inside hin.1 hin.2, hpiece, List.getElem?_take_of_lt (by omega),
      List.getElem?_drop, Nat.add_sub_cancel' hin.1]
  · have houtside : ¬ Covers call i := fun hc => hin ⟨hc.1, by rw [hlen]; exact hc.2⟩
    rw [writeAt_outside hin (by omega)]
    exact ⟨fun hor => (hcells i hi).1 (hor.resolve_right houtside),
      fun hnot => (hcells i hi).2 fun hc => hnot (.inl hc)⟩

/-- Merged bytes are the container exactly if the base is right where nothing is covered. -/
theorem Merged.eq_iff {bytes : Bytes} (h : Merged container base covered bytes) :
    bytes = container ↔ ∀ i < container.length, covered i ∨ container[i]? = some (base i) := by
  obtain ⟨hlength, hcells⟩ := h
  constructor
  · rintro rfl i hi
    by_cases hcovered : covered i
    · exact .inl hcovered
    · exact .inr ((hcells i hi).2 hcovered)
  · intro hall
    refine List.ext_getElem? fun i => ?_
    by_cases hi : i < container.length
    · by_cases hcovered : covered i
      · exact (hcells i hi).1 hcovered
      · rw [(hcells i hi).2 hcovered, (hall i hi).resolve_left hcovered]
    · rw [List.getElem?_eq_none (by omega), List.getElem?_eq_none (by omega)]

end Steps

section Runs

variable {c : Crypto} {core : SeederCore c} {z : Compressors} {store : String}
  {files files' : Files} {container mid : Bytes} {base : ℕ → UInt8} {covered : ℕ → Prop}

theorem merging_step (hstore : core.storeDir = some store) {call : Call} {reply : Reply}
    (hcall : Captures container mid call) (hmid : mid.length = 4)
    (hslot : Merging container base covered (slotOf store files mid))
    (h : core.handle posix z call.op call.args files = .ok (some reply, files')) :
    Merging container base
      (fun i => covered i ∨ call.mid = mid ∧ call.op = OP_WRITE ∧ Covers call i)
      (slotOf store files' mid) := by
  obtain ⟨-, hmoves⟩ := handle_moves hstore h
  by_cases hown : call.mid = mid
  · rw [← hown] at hslot ⊢
    rw [hmoves.own]
    rcases hcall hown with hop | hop | ⟨hop, hcarries⟩
    · rw [Call.verb_stat hop, Slot.step_stat]
      have hne : call.op ≠ OP_WRITE := by rw [hop]; decide
      exact hslot.congr fun i => by simp [hne]
    · rw [Call.verb_sread hop, Slot.step_sread]
      have hne : call.op ≠ OP_WRITE := by rw [hop]; decide
      exact hslot.congr fun i => by simp [hne]
    · rw [Call.verb_write hop]
      exact (hslot.write hcarries).congr fun i => by simp [hop]
  · rw [hmoves.others call.mid_length hmid (Ne.symm hown)]
    exact hslot.congr fun i => by simp [hown]

theorem merging_serves (hstore : core.storeDir = some store) (hmid : mid.length = 4)
    {history : List (Call × Reply)} (h : Serves core z files history files')
    (hcalls : ∀ entry ∈ history, Captures container mid entry.1)
    (hslot : Merging container base covered (slotOf store files mid)) :
    Merging container base (fun i => covered i ∨ Written history mid i)
      (slotOf store files' mid) := by
  induction h generalizing covered with
  | nil => exact hslot.congr fun i => by simp [Written]
  | @cons call reply history files files' files'' hhead htail ih =>
    have hstep := merging_step hstore (hcalls _ List.mem_cons_self) hmid hslot hhead
    refine (ih (fun entry hentry => hcalls entry (List.mem_cons_of_mem _ hentry)) hstep).congr
      fun i => ?_
    simp only [Written, List.mem_cons, exists_eq_or_imp, or_assoc]

theorem begin_merging (hstore : core.storeDir = some store) {first : Call} {reply : Reply}
    (hbegin : first.op = OP_BEGIN) (hlength : first.off = container.length)
    (h : core.handle posix z first.op first.args files = .ok (some reply, files')) :
    Merging container (unwritten core.seed) (fun _ => False) (slotOf store files' first.mid) := by
  obtain ⟨-, hmoves⟩ := handle_moves hstore h
  rw [hmoves.own, Call.verb_begin hbegin, hlength]
  exact ⟨_, rfl, freshPart_length core _, fun i hi => ⟨nofun, fun _ => by
    rw [freshPart_getElem?, if_pos hi]⟩⟩

theorem capture_settles (hstore : core.storeDir = some store) {first last : Call}
    (hbegin : first.op = OP_BEGIN) (hfirst : first.mid = mid)
    (hlength : first.off = container.length) (hfin : last.op = OP_FIN) (hlast : last.mid = mid)
    {firstReply lastReply : Reply} {middle : List (Call × Reply)}
    (hmiddle : ∀ entry ∈ middle, Captures container mid entry.1)
    (h : Serves core z files ((first, firstReply) :: (middle ++ [(last, lastReply)])) files') :
    ∃ bytes, Merged container (unwritten core.seed) (Written middle mid) bytes ∧
      (lastReply.1 = STATUS_OK ↔ Publishable bytes) ∧
      (lastReply.1 = STATUS_OK → files' (storePath store mid false) = some bytes) := by
  have hmid : mid.length = 4 := hfirst ▸ first.mid_length
  cases h with
  | @cons _ _ _ _ files₁ _ hhead hrest =>
    obtain ⟨files₂, hbetween, hlastly⟩ := hrest.of_append
    cases hlastly with
    | cons hend hnil =>
    cases hnil
    have hfresh : Merging container (unwritten core.seed) (fun _ => False)
        (slotOf store files₁ first.mid) := begin_merging hstore hbegin hlength hhead
    rw [hfirst] at hfresh
    have hslot : Merging container (unwritten core.seed) (Written middle mid)
        (slotOf store files₂ mid) :=
      (merging_serves hstore hmid hbetween hmiddle hfresh).congr fun i => by simp only [false_or]
    obtain ⟨bytes, hpart, hmerged⟩ := hslot
    obtain ⟨hreply, hmoves⟩ := handle_moves hstore hend
    rw [hlast, Call.verb_fin hfin] at hreply hmoves
    refine ⟨bytes, hmerged, ?_, fun hok => ?_⟩
    · rw [hreply]
      constructor
      · intro hok
        obtain ⟨bytes', hpart', hready, -⟩ := Slot.fin_ok hok
        rw [Option.some.inj (hpart.symm.trans hpart')]
        exact hready
      · intro hready
        simp only [Slot.step, hpart, if_pos hready]
        rfl
    · rw [hreply] at hok
      obtain ⟨bytes', hpart', -, hslot⟩ := Slot.fin_ok hok
      rw [hslot] at hmoves
      rw [Option.some.inj (hpart.symm.trans hpart')]
      exact congrArg Slot.done hmoves.own

end Runs

/-- A capture over a warm start is accepted with the container in its place exactly if the seed
agrees with the container at every byte that no write covered. -/
theorem warm_start_exact {c : Crypto} (core : SeederCore c) (z : Compressors) (store : String)
    (hstore : core.storeDir = some store) (container mid : Bytes) (hready : Publishable container)
    (first last : Call) (hbegin : first.op = OP_BEGIN) (hfirst : first.mid = mid)
    (hlength : first.off = container.length) (hfin : last.op = OP_FIN) (hlast : last.mid = mid)
    (firstReply lastReply : Reply) (middle : List (Call × Reply))
    (hmiddle : ∀ entry ∈ middle, Captures container mid entry.1) (files files' : Files)
    (h : Serves core z files ((first, firstReply) :: (middle ++ [(last, lastReply)])) files') :
    lastReply.1 = STATUS_OK ∧ files' (storePath store mid false) = some container ↔
      ∀ i < container.length,
        (∃ entry ∈ middle, entry.1.mid = mid ∧ entry.1.op = OP_WRITE ∧ Covers entry.1 i) ∨
          container[i]? = some (unwritten core.seed i) := by
  obtain ⟨bytes, hmerged, hok, hdone⟩ :=
    capture_settles hstore hbegin hfirst hlength hfin hlast hmiddle h
  refine Iff.trans ?_ hmerged.eq_iff
  constructor
  · rintro ⟨haccepted, hpublished⟩
    exact Option.some.inj ((hdone haccepted).symm.trans hpublished)
  · rintro rfl
    exact ⟨hok.mpr hready, hdone (hok.mpr hready)⟩

/-- Two bytes of the payload need not be written, the seed being right there. -/
theorem warm_start_exact_seeded : ∃ (lastReply : Reply) (middle : List (Call × Reply))
    (files' : Files), middle.map Prod.fst = [pieceCall 211 1, pieceCall 0 209] ∧
      lastReply.1 = STATUS_OK ∧
      files' (storePath "store" tinyMid false) = some seededContainer := by
  let calls : List Call := [beginCall 212, pieceCall 211 1, pieceCall 0 209, finCall]
  have hown : ∀ call ∈ calls, call.mid = tinyMid := by
    intro call hcall
    simp only [calls, List.mem_cons, List.not_mem_nil, or_false] at hcall
    rcases hcall with rfl | rfl | rfl | rfl <;> rfl
  obtain ⟨history, files', hserves, hcalls, -⟩ := @serves_own Crypto.plain seededCore noCompressors
    (fun _ => none) "store" tinyMid rfl calls hown
  simp only [calls, List.map_eq_cons_iff, List.map_eq_nil_iff] at hcalls
  obtain ⟨⟨_, r₁⟩, _, rfl, rfl, ⟨_, r₂⟩, _, rfl, rfl, ⟨_, r₃⟩, _, rfl, rfl, ⟨_, r₄⟩, _, rfl, rfl,
    rfl⟩ := hcalls
  have hlast : Carries seededContainer (pieceCall 211 1) :=
    ⟨[3], by decide +kernel, by decide +kernel, by decide +kernel⟩
  have hfront : Carries seededContainer (pieceCall 0 209) :=
    ⟨seededContainer.take 209, by decide +kernel, by decide +kernel, by decide +kernel⟩
  refine ⟨r₄, [(_, r₂), (_, r₃)], files', rfl, ?_⟩
  refine (warm_start_exact seededCore noCompressors "store" rfl seededContainer tinyMid
    (by decide +kernel) (beginCall 212) finCall rfl rfl (by decide +kernel) rfl rfl r₁ r₄
    [(_, r₂), (_, r₃)] (fun entry hentry _ => ?_) (fun _ => none) files' hserves).mpr fun i hi => ?_
  · simp only [List.mem_cons, List.not_mem_nil, or_false] at hentry
    rcases hentry with rfl | rfl
    · exact .inr (.inr ⟨rfl, hlast⟩)
    · exact .inr (.inr ⟨rfl, hfront⟩)
  · obtain hwritten | hseed | hend : i < 209 ∨ (i = 209 ∨ i = 210) ∨ i = 211 := by
      have hlength : seededContainer.length = 212 := by decide +kernel
      omega
    · exact .inl ⟨(pieceCall 0 209, r₃), by simp, rfl, rfl, Nat.zero_le i, hwritten⟩
    · refine .inr ?_
      rcases hseed with rfl | rfl <;> rfl
    · subst hend
      exact .inl ⟨(pieceCall 211 1, r₂), by simp, rfl, rfl, Nat.le_refl 211, Nat.lt_succ_self 211⟩

end MotaTool.Serve
