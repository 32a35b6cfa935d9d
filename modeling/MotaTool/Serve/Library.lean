import MotaTool.Serve.Present

/-!
# What the store publishes

Over a whole run a published file changes only when a `FIN` for its id is
accepted, and then it is the part as it stood: at least eight bytes, with the
magic, of the size it declares. Nothing but the two files of an id is ever
touched by a request for it.
-/

namespace MotaTool.Serve

open Base Run Format seeder

def Publishes (mid : Bytes) (entry : Call × Reply) : Prop :=
  entry.1.mid = mid ∧ entry.1.op = OP_FIN ∧ entry.2.1 = STATUS_OK

instance (mid : Bytes) (entry : Call × Reply) : Decidable (Publishes mid entry) :=
  inferInstanceAs (Decidable (_ ∧ _ ∧ _))

section Steps

variable {fresh : ℕ → Bytes} {slot : Slot} {verb : Verb}

theorem Slot.fin_ok (h : (slot.step fresh .fin).1.1 = STATUS_OK) : ∃ bytes,
    slot.part = some bytes ∧ Publishable bytes ∧
      (slot.step fresh .fin).2 = ⟨none, some bytes⟩ := by
  have hne : ¬ STATUS_ERR = STATUS_OK := by decide
  cases hpart : slot.part with
  | none =>
    simp only [Slot.step, hpart] at h
    exact absurd h hne
  | some bytes =>
    by_cases hready : Publishable bytes
    · exact ⟨bytes, rfl, hready, by simp only [Slot.step, hpart, if_pos hready]⟩
    · simp only [Slot.step, hpart, if_neg hready] at h
      exact absurd h hne

theorem Slot.step_done (h : verb = .fin → (slot.step fresh verb).1.1 ≠ STATUS_OK) :
    (slot.step fresh verb).2.done = slot.done := by
  cases verb with
  | stat => rw [Slot.step_stat]
  | begin total => rfl
  | write off data =>
    cases data with
    | none => rfl
    | some data => cases hpart : slot.part <;> simp only [Slot.step, hpart]
  | sread off len => rw [Slot.step_sread]
  | fin =>
    cases hpart : slot.part with
    | none => simp only [Slot.step, hpart]
    | some bytes =>
      by_cases hready : Publishable bytes
      · refine absurd ?_ (h rfl)
        simp only [Slot.step, hpart, if_pos hready]
        rfl
      · simp only [Slot.step, hpart, if_neg hready]

theorem Call.verb_eq_fin {call : Call} (h : call.verb = .fin) : call.op = OP_FIN := by
  rcases call.storage with hop | hop | hop | hop | hop
  · rw [Call.verb_stat hop] at h
    cases h
  · rw [Call.verb_begin hop] at h
    cases h
  · rw [Call.verb_write hop] at h
    cases h
  · rw [Call.verb_sread hop] at h
    cases h
  · exact hop

end Steps

section Runs

variable {c : Crypto} {core : SeederCore c} {z : Compressors} {store : String}
  {files files' : Files} {history : List (Call × Reply)} {mid : Bytes}

theorem Serves.of_append {more : List (Call × Reply)}
    (h : Serves core z files (history ++ more) files') :
    ∃ between, Serves core z files history between ∧ Serves core z between more files' := by
  induction history generalizing files with
  | nil => exact ⟨files, .nil, h⟩
  | cons entry history ih =>
    cases h with
    | cons hhead htail =>
      obtain ⟨between, hbefore, hafter⟩ := ih htail
      exact ⟨between, .cons hhead hbefore, hafter⟩

/-- The file of the id as the last accepted `FIN` found its part. -/
structure PublishedBy (core : SeederCore c) (z : Compressors) (store : String) (files : Files)
    (history : List (Call × Reply)) (mid bytes : Bytes) : Prop where
  last : ∃ before entry after earlier, history = before ++ entry :: after ∧ Publishes mid entry ∧
    (∀ later ∈ after, ¬ Publishes mid later) ∧ Serves core z files before earlier ∧
    earlier (storePath store mid true) = some bytes
  publishable : Publishable bytes

theorem serves_confined (hstore : core.storeDir = some store)
    (h : Serves core z files history files') {path : String}
    (hpath : ∀ entry ∈ history, ∀ part, path ≠ storePath store entry.1.mid part) :
    files' path = files path := by
  induction h with
  | nil => rfl
  | @cons call reply history files files' files'' hhead htail ih =>
    obtain ⟨-, hmoves⟩ := handle_moves hstore hhead
    have hhere := hpath _ List.mem_cons_self
    rw [ih fun entry hentry => hpath entry (List.mem_cons_of_mem _ hentry),
      hmoves.frame path (hhere true) (hhere false)]

/-- One request either publishes the part of its id or leaves all published files. -/
theorem handle_done (hstore : core.storeDir = some store) (hmid : mid.length = 4) {call : Call}
    {reply : Reply}
    (h : core.handle posix z call.op call.args files = .ok (some reply, files')) :
    (Publishes mid (call, reply) → ∃ bytes, files (storePath store mid true) = some bytes ∧
      Publishable bytes ∧ files' (storePath store mid false) = some bytes) ∧
    (¬ Publishes mid (call, reply) →
      files' (storePath store mid false) = files (storePath store mid false)) := by
  obtain ⟨hreply, hmoves⟩ := handle_moves hstore h
  constructor
  · rintro ⟨hown, hop, hok⟩
    rw [← hown] at hmid ⊢
    rw [Call.verb_fin hop] at hreply hmoves
    rw [hreply] at hok
    obtain ⟨bytes, hpart, hready, hslot⟩ := Slot.fin_ok hok
    rw [hslot] at hmoves
    exact ⟨bytes, hpart, hready, congrArg Slot.done hmoves.own⟩
  · intro hnot
    by_cases hown : call.mid = mid
    · rw [← hown] at hnot ⊢
      have hdone := @Slot.step_done core.freshPart (slotOf store files call.mid) call.verb
        fun hfin hok => hnot ⟨rfl, Call.verb_eq_fin hfin, by rw [hreply]; exact hok⟩
      rw [← hmoves.own] at hdone
      exact hdone
    · exact congrArg Slot.done (hmoves.others call.mid_length hmid (Ne.symm hown))

theorem serves_published (hstore : core.storeDir = some store) (hmid : mid.length = 4)
    (h : Serves core z files history files') :
    (∀ entry ∈ history, ¬ Publishes mid entry) ∧
        files' (storePath store mid false) = files (storePath store mid false) ∨
      ∃ bytes, files' (storePath store mid false) = some bytes ∧
        PublishedBy core z store files history mid bytes := by
  induction h with
  | nil => exact .inl ⟨by simp, rfl⟩
  | @cons call reply history files files' files'' hhead htail ih =>
    obtain ⟨hpublished, hkept⟩ := handle_done hstore hmid hhead
    rcases ih with ⟨hnone, hdone⟩ | ⟨bytes, hdone, ⟨before, entry, after, earlier, rfl, hentry,
      hafter, hserves, hpart⟩, hready⟩
    · by_cases hhere : Publishes mid (call, reply)
      · obtain ⟨bytes, hpart, hready, hbytes⟩ := hpublished hhere
        exact .inr ⟨bytes, by rw [hdone, hbytes],
          ⟨[], (call, reply), history, files, rfl, hhere, hnone, .nil, hpart⟩, hready⟩
      · refine .inl ⟨fun entry hentry => ?_, by rw [hdone, hkept hhere]⟩
        rcases List.mem_cons.mp hentry with rfl | hentry
        · exact hhere
        · exact hnone entry hentry
    · exact .inr ⟨bytes, hdone, ⟨(call, reply) :: before, entry, after, earlier, rfl, hentry,
        hafter, .cons hhead hserves, hpart⟩, hready⟩

end Runs

/-- After any run, other files are as they were, and the published file of an id is the part that
the last accepted `FIN` of the id found, ready for publication, or what it was before the run if
there was no such request. -/
theorem store_published {c : Crypto} (core : SeederCore c) (z : Compressors) (store : String)
    (hstore : core.storeDir = some store) (files files' : Files)
    (history : List (Call × Reply)) (h : Serves core z files history files') :
    (∀ path, (∀ mid part, mid.length = 4 → path ≠ storePath store mid part) →
      files' path = files path) ∧
    ∀ mid, mid.length = 4 →
      (∀ entry ∈ history, ¬ Publishes mid entry) ∧
          files' (storePath store mid false) = files (storePath store mid false) ∨
        ∃ bytes, files' (storePath store mid false) = some bytes ∧
          PublishedBy core z store files history mid bytes :=
  ⟨fun _ hpath => serves_confined hstore h fun entry _ part => hpath _ part entry.1.mid_length,
    fun _ hmid => serves_published hstore hmid h⟩

theorem store_published_tiny : ∃ (history : List (Call × Reply)) (files' : Files),
    history.map Prod.fst = republishCalls ∧
    (∀ path, (∀ mid part, mid.length = 4 → path ≠ storePath "store" mid part) →
      files' path = none) ∧
    ∀ mid, mid.length = 4 →
      (∀ entry ∈ history, ¬ Publishes mid entry) ∧
          files' (storePath "store" mid false) = none ∨
        ∃ bytes, files' (storePath "store" mid false) = some bytes ∧
          PublishedBy storeCore noCompressors "store" (fun _ => none) history mid bytes := by
  have hown : ∀ call ∈ republishCalls, call.mid = tinyMid := by
    intro call hcall
    simp only [republishCalls, List.mem_cons, List.not_mem_nil, or_false] at hcall
    rcases hcall with rfl | rfl | rfl | rfl <;> rfl
  obtain ⟨history, files', hserves, hcalls, -⟩ := @serves_own Crypto.plain storeCore noCompressors
    (fun _ => none) "store" tinyMid rfl republishCalls hown
  exact ⟨history, files', hcalls,
    store_published storeCore noCompressors "store" rfl (fun _ => none) files' history hserves⟩

end MotaTool.Serve
