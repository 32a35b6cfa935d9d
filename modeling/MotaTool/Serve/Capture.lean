import MotaTool.Serve.Demux
import MotaTool.Serve.Files

/-!
# Capturing a container

Between its `BEGIN` and its `FIN` an id is only read and written with pieces
of one container. Each such write makes the cells it covers agree with the
container and keeps the others, so their order, overlaps and repetitions do
not matter, nor does what the part held before. Requests for other ids do not
meet its slot.
-/

namespace MotaTool.Serve

open Base Run Format seeder

def Carries (container : Bytes) (call : Call) : Prop :=
  ∃ data, call.data = some data ∧ call.off + data.length ≤ container.length ∧
    data = (container.drop call.off).take data.length

def Covers (call : Call) (i : ℕ) : Prop := call.off ≤ i ∧ i < call.off + call.len

def Holding (container : Bytes) (covered : ℕ → Prop) (slot : Slot) : Prop :=
  ∃ bytes, slot.part = some bytes ∧ bytes.length = container.length ∧
    ∀ i, covered i → bytes[i]? = container[i]?

section Steps

variable {fresh : ℕ → Bytes} {container : Bytes} {covered : ℕ → Prop} {slot : Slot} {call : Call}

theorem Call.data_length {data : Bytes} (h : call.data = some data) : data.length = call.len := by
  unfold Call.data at h
  split_ifs at h with hlen
  obtain rfl := Option.some.inj h
  rw [List.length_take, List.length_drop]
  omega

theorem Carries.step (h : Carries container call) (hslot : Holding container covered slot) :
    (slot.step fresh (.write call.off call.data)).1 = status true ∧
      Holding container (fun i => covered i ∨ Covers call i)
        (slot.step fresh (.write call.off call.data)).2 := by
  obtain ⟨data, hdata, hfits, hpiece⟩ := h
  obtain ⟨bytes, hpart, hlength, hagree⟩ := hslot
  have hlen := Call.data_length hdata
  have hstep : slot.step fresh (.write call.off call.data) =
      (status true, { slot with part := some (writeAt 0 bytes call.off data) }) := by
    rw [hdata]
    simp only [Slot.step, hpart]
  rw [hstep]
  refine ⟨rfl, writeAt 0 bytes call.off data, rfl, ?_, fun i hi => ?_⟩
  · rw [writeAt_length_within (by omega), hlength]
  · by_cases hin : call.off ≤ i ∧ i < call.off + data.length
    · rw [writeAt_inside hin.1 hin.2, hpiece, List.getElem?_take_of_lt (by omega),
        List.getElem?_drop]
      congr 1
      omega
    · rcases hi with hold | hnew
      · by_cases hi : i < bytes.length
        · rw [writeAt_outside hin hi, hagree i hold]
        · rw [List.getElem?_eq_none, List.getElem?_eq_none]
          · omega
          · rw [writeAt_length_within (by omega)]
            omega
      · exact absurd ⟨hnew.1, by rw [hlen]; exact hnew.2⟩ hin

theorem Holding.publish (hmagic : container.take 4 = MAGIC) {total : UInt32}
    (hsize : rdU32 container 4 = .ok total) (htotal : total.toNat = container.length)
    (hslot : Holding container covered slot) (hall : ∀ i < container.length, covered i) :
    slot.step fresh .fin = (status true, ⟨none, some container⟩) := by
  obtain ⟨bytes, hpart, hlength, hagree⟩ := hslot
  obtain rfl : bytes = container := by
    refine List.ext_getElem? fun i => ?_
    by_cases hi : i < container.length
    · exact hagree i (hall i hi)
    · rw [List.getElem?_eq_none (by omega), List.getElem?_eq_none (by omega)]
  obtain ⟨hfits, hword⟩ := rdU32_eq_ok.mp hsize
  have hready : Publishable bytes := by
    refine ⟨by omega, hmagic, ?_⟩
    rw [← hword, ofLe_u32Le, htotal]
  simp only [Slot.step, hpart, if_pos hready]

end Steps

section Runs

variable {c : Crypto} {core : SeederCore c} {z : Compressors} {store : String} {files : Files}
  {container mid : Bytes} {covered : ℕ → Prop}

/-- What a capture may ask for its own id between `BEGIN` and `FIN`. -/
def Captures (container mid : Bytes) (call : Call) : Prop :=
  call.mid = mid → call.op = OP_STAT ∨ call.op = OP_SREAD ∨
    call.op = OP_WRITE ∧ Carries container call

theorem middle_step (hstore : core.storeDir = some store) {call : Call}
    (hcall : Captures container mid call) (hmid : mid.length = 4)
    (hslot : Holding container covered (slotOf store files mid)) : ∃ reply files',
      core.handle posix z call.op call.args files = .ok (some reply, files') ∧
      (call.mid = mid → call.op = OP_WRITE ∨ call.op = OP_FIN → reply.1 = STATUS_OK) ∧
      Holding container
        (fun i => covered i ∨ call.mid = mid ∧ call.op = OP_WRITE ∧ Covers call i)
        (slotOf store files' mid) := by
  obtain ⟨reply, files', hhandle, hreply, hmoves⟩ := @handle_call c core z store files hstore call
  refine ⟨reply, files', hhandle, ?_⟩
  have hkeep : ∀ slot, Holding container covered slot → ¬ (call.mid = mid ∧ call.op = OP_WRITE) →
      Holding container
        (fun i => covered i ∨ call.mid = mid ∧ call.op = OP_WRITE ∧ Covers call i) slot := by
    rintro slot ⟨bytes, hpart, hlength, hagree⟩ hother
    exact ⟨bytes, hpart, hlength, fun i hi => hagree i (hi.resolve_right fun h =>
      hother ⟨h.1, h.2.1⟩)⟩
  by_cases hown : call.mid = mid
  · rw [← hown] at hslot hmid hkeep ⊢
    rw [hmoves.own, hreply]
    rcases hcall hown with hop | hop | ⟨hop, hcarries⟩
    · have hne : call.op ≠ OP_WRITE ∧ call.op ≠ OP_FIN := by rw [hop]; decide
      rw [Call.verb_stat hop, Slot.step_stat]
      exact ⟨fun _ h => (h.elim hne.1 hne.2).elim, hkeep _ hslot fun h => hne.1 h.2⟩
    · have hne : call.op ≠ OP_WRITE ∧ call.op ≠ OP_FIN := by rw [hop]; decide
      rw [Call.verb_sread hop, Slot.step_sread]
      exact ⟨fun _ h => (h.elim hne.1 hne.2).elim, hkeep _ hslot fun h => hne.1 h.2⟩
    · obtain ⟨hok, bytes, hpart, hlength, hagree⟩ :=
        @Carries.step core.freshPart container covered _ call hcarries hslot
      rw [Call.verb_write hop, hok]
      exact ⟨fun _ _ => rfl, bytes, hpart, hlength, fun i hi => hagree i (hi.imp id fun h => h.2.2)⟩
  · refine ⟨fun h => absurd h hown, hkeep _ ?_ fun h => hown h.1⟩
    rw [hmoves.others call.mid_length hmid (Ne.symm hown)]
    exact hslot

theorem middle_serves (hstore : core.storeDir = some store) (hmid : mid.length = 4)
    {middle : List Call} (hmiddle : ∀ call ∈ middle, Captures container mid call)
    (hslot : Holding container covered (slotOf store files mid)) : ∃ history files',
      Serves core z files history files' ∧ history.map Prod.fst = middle ∧
      (∀ entry ∈ history, entry.1.mid = mid → entry.1.op = OP_WRITE ∨ entry.1.op = OP_FIN →
        entry.2.1 = STATUS_OK) ∧
      Holding container
        (fun i => covered i ∨ ∃ call ∈ middle, call.mid = mid ∧ call.op = OP_WRITE ∧ Covers call i)
        (slotOf store files' mid) := by
  induction middle generalizing files covered with
  | nil => exact ⟨[], files, .nil, rfl, by simp, by simpa using hslot⟩
  | cons call middle ih =>
    obtain ⟨reply, files', hhead, hok, hslot'⟩ :=
      @middle_step c core z store files container mid covered hstore call
        (hmiddle call List.mem_cons_self) hmid hslot
    obtain ⟨history, files'', htail, hcalls, hoks, hslot''⟩ :=
      ih (fun call hcall => hmiddle call (List.mem_cons_of_mem _ hcall)) hslot'
    refine ⟨(call, reply) :: history, files'', .cons hhead htail, by rw [List.map_cons, hcalls], ?_,
      ?_⟩
    · intro entry hentry
      rcases List.mem_cons.mp hentry with rfl | hentry
      · exact hok
      · exact hoks entry hentry
    · simpa only [List.mem_cons, exists_eq_or_imp, or_assoc] using hslot''

theorem Slot.fin_refused {fresh : ℕ → Bytes} {slot : Slot}
    (h : (slot.step fresh .fin).1.1 = STATUS_ERR) : (slot.step fresh .fin).2 = slot := by
  have hne : STATUS_OK ≠ STATUS_ERR := by decide
  revert h
  simp only [Slot.step]
  split
  · split_ifs
    · exact fun h => absurd h hne
    · exact fun _ => rfl
  · exact fun _ => rfl

/-- A container is captured by the writes that cover it, whatever their order, the seed and the
requests for other ids; a refused `FIN` changes nothing of its id, and no request changes anything
of another one. -/
theorem capture_exact (core : SeederCore c) (z : Compressors) (store : String)
    (hstore : core.storeDir = some store) :
    (∀ (container mid : Bytes) (total : UInt32) (first last : Call) (middle : List Call)
      (files : Files), container.take 4 = MAGIC → rdU32 container 4 = .ok total →
      total.toNat = container.length → first.op = OP_BEGIN → first.mid = mid →
      first.off = container.length → (∀ call ∈ middle, Captures container mid call) →
      (∀ i < container.length, ∃ call ∈ middle,
        call.mid = mid ∧ call.op = OP_WRITE ∧ Covers call i) →
      last.op = OP_FIN → last.mid = mid →
      ∃ history final, Serves core z files history final ∧
        history.map Prod.fst = first :: (middle ++ [last]) ∧
        (∀ entry ∈ history, entry.1.mid = mid → entry.1.op = OP_WRITE ∨ entry.1.op = OP_FIN →
          entry.2.1 = STATUS_OK) ∧
        final (storePath store mid false) = some container ∧
        final (storePath store mid true) = none) ∧
    (∀ (call : Call) (reply : Reply) (files files' : Files), call.op = OP_FIN →
      core.handle posix z call.op call.args files = .ok (some reply, files') →
      reply.1 = STATUS_ERR → slotOf store files' call.mid = slotOf store files call.mid) ∧
    ∀ (call : Call) (reply : Reply) (files files' : Files) (other : Bytes), other.length = 4 →
      other ≠ call.mid →
      core.handle posix z call.op call.args files = .ok (some reply, files') →
      slotOf store files' other = slotOf store files other := by
  refine ⟨?_, ?_, ?_⟩
  · intro container mid total first last middle files hmagic hsize htotal hbegin hmid hlength
      hmiddle hcover hfin hlast
    have hfour : mid.length = 4 := hmid ▸ first.mid_length
    obtain ⟨reply, files₁, hhead, -, hmoves⟩ := @handle_call c core z store files hstore first
    have hfresh : Holding container (fun _ => False) (slotOf store files₁ mid) := by
      rw [← hmid, hmoves.own, Call.verb_begin hbegin, hlength]
      exact ⟨_, rfl, freshPart_length core container.length, nofun⟩
    obtain ⟨history, files₂, hserves, hcalls, hoks, hslot⟩ :=
      @middle_serves c core z store files₁ container mid _ hstore hfour middle hmiddle hfresh
    obtain ⟨reply', files₃, htail, hreply', hmoves'⟩ :=
      @handle_call c core z store files₂ hstore last
    rw [hlast, Call.verb_fin hfin, @Holding.publish core.freshPart _ _ _ hmagic _ hsize htotal hslot
      fun i hi => .inr (hcover i hi)] at hreply' hmoves'
    refine ⟨(first, reply) :: (history ++ [(last, reply')]), files₃,
      .cons hhead (hserves.append (.cons htail .nil)), ?_, ?_, ?_, ?_⟩
    · rw [List.map_cons, List.map_append, hcalls]
      rfl
    · intro entry hentry
      rcases List.mem_cons.mp hentry with rfl | hentry
      · have hne : first.op ≠ OP_WRITE ∧ first.op ≠ OP_FIN := by rw [hbegin]; decide
        exact fun _ h => (h.elim hne.1 hne.2).elim
      · rcases List.mem_append.mp hentry with hentry | hentry
        · exact hoks entry hentry
        · obtain rfl := List.mem_singleton.mp hentry
          exact fun _ _ => by rw [hreply']; rfl
    · exact congrArg Slot.done hmoves'.own
    · exact congrArg Slot.part hmoves'.own
  · intro call reply files files' hfin hhandle hrefused
    obtain ⟨hreply, hmoves⟩ := handle_moves hstore hhandle
    rw [Call.verb_fin hfin] at hreply hmoves
    rw [hreply] at hrefused
    rw [hmoves.own, Slot.fin_refused hrefused]
  · intro call reply files files' other hfour hne hhandle
    exact (handle_moves hstore hhandle).2.others call.mid_length hfour hne

end Runs

def storeCore : SeederCore Crypto.plain := ⟨[], some "store", none⟩

def tinyContainer : Bytes := MAGIC ++ [8, 0, 0, 0]

def tinyMid : Bytes := [1, 2, 3, 4]

def beginCall (total : UInt8) : Call :=
  ⟨OP_BEGIN, tinyMid ++ [total, 0, 0, 0], .inr (.inl rfl), 8, rfl, by simp [tinyMid]⟩

def writeCall (off len : UInt8) (data : Bytes) : Call :=
  ⟨OP_WRITE, tinyMid ++ [off, 0, 0, 0, len, 0] ++ data, .inr (.inr (.inl rfl)), 10, rfl, by
    simp [tinyMid]⟩

def finCall : Call := ⟨OP_FIN, tinyMid, .inr (.inr (.inr (.inr rfl))), 4, rfl, by decide⟩

def seededCore : SeederCore Crypto.plain := ⟨[], some "store", some ([1, 2, 9], 1)⟩

def seededContainer : Bytes := MAGIC ++ ([212, 0, 0, 0] ++ (List.replicate 201 7 ++ [1, 2, 3]))

def pieceCall (off len : UInt8) : Call :=
  writeCall off len ((seededContainer.drop off.toNat).take len.toNat)

def otherCall : Call := ⟨OP_BEGIN, [9, 9, 9, 9, 212, 0, 0, 0], .inr (.inl rfl), 8, rfl, by decide⟩

/-- Two overlapping pieces, the later one first, and a request for another id between them. -/
theorem capture_exact_tiny : ∃ history final,
    Serves seededCore noCompressors (fun _ => none) history final ∧
    history.map Prod.fst =
      beginCall 212 :: ([pieceCall 100 112, otherCall, pieceCall 0 120] ++ [finCall]) ∧
    (∀ entry ∈ history, entry.1.mid = tinyMid → entry.1.op = OP_WRITE ∨ entry.1.op = OP_FIN →
      entry.2.1 = STATUS_OK) ∧
    final (storePath "store" tinyMid false) = some seededContainer ∧
    final (storePath "store" tinyMid true) = none := by
  have hlate : Carries seededContainer (pieceCall 100 112) :=
    ⟨(seededContainer.drop 100).take 112, by decide +kernel, by decide +kernel, by decide +kernel⟩
  have hearly : Carries seededContainer (pieceCall 0 120) :=
    ⟨seededContainer.take 120, by decide +kernel, by decide +kernel, by decide +kernel⟩
  have hlength : seededContainer.length = 212 := by decide +kernel
  refine (capture_exact seededCore noCompressors "store" rfl).1 seededContainer tinyMid 212
    (beginCall 212) finCall [pieceCall 100 112, otherCall, pieceCall 0 120] (fun _ => none)
    (by decide +kernel) (by decide +kernel) hlength.symm rfl rfl hlength.symm
    (fun call hcall => ?_) (fun i hi => ?_) rfl rfl
  · simp only [List.mem_cons, List.not_mem_nil, or_false] at hcall
    rcases hcall with rfl | rfl | rfl
    · exact fun _ => .inr (.inr ⟨rfl, hlate⟩)
    · exact fun hown => absurd hown (by decide)
    · exact fun _ => .inr (.inr ⟨rfl, hearly⟩)
  · by_cases hfirst : i < 120
    · exact ⟨pieceCall 0 120, by simp, rfl, rfl, Nat.zero_le i, hfirst⟩
    · exact ⟨pieceCall 100 112, by simp, rfl, rfl, show 100 ≤ i by omega,
        Nat.lt_of_lt_of_eq hi hlength⟩

end MotaTool.Serve
