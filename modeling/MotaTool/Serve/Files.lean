import MotaTool.Base.WriteAt
import MotaTool.Serve.SeederSpec
import Mathlib.Logic.Function.Basic

/-!
# The store

Files behave as in POSIX, and every call on an existing file succeeds. A
container id names two files, the partial and the published one; together they
are the slot of the id. A storage request acts on the slot of its own id alone,
so what a run does to an id is what its requests for that id do to one slot.
-/

namespace MotaTool.Serve

open Base Run Format seeder

abbrev Files := String → Option Bytes

/-- A write past the end fills the gap with zeros, and reading nothing needs no bytes. -/
def posix : FileSystem Files where
  metadataLen files path := (files path).map List.length
  write files path bytes := (true, Function.update files path (some bytes))
  writeAllAt files path off data :=
    match files path with
    | some old => (true, Function.update files path (some (writeAt 0 old off data)))
    | none => (false, files)
  readExactAt files path off len := (files path).bind fun bytes =>
    if len = 0 ∨ off + len ≤ bytes.length then some ((bytes.drop off).take len) else none
  rename files source target :=
    match files source with
    | some bytes => (true, Function.update (Function.update files source none) target (some bytes))
    | none => (false, files)

section Paths

variable {store : String} {mid other : Bytes}

theorem hexPair_injective {a b : UInt8}
    (h : [Nat.digitChar (a.toNat / 16), Nat.digitChar (a.toNat % 16)] =
      [Nat.digitChar (b.toNat / 16), Nat.digitChar (b.toNat % 16)]) : a = b := by
  have hdigit : ∀ m < 16, ∀ n < 16, Nat.digitChar m = Nat.digitChar n → m = n := by decide
  have ha := a.toNat_lt
  have hb := b.toNat_lt
  obtain ⟨hhigh, hrest⟩ := List.cons.inj h
  obtain ⟨hlow, -⟩ := List.cons.inj hrest
  have hhigh := hdigit _ (by omega) _ (by omega) hhigh
  have hlow := hdigit _ (by omega) _ (by omega) hlow
  exact UInt8.toNat_inj.mp (by omega)

theorem hexLowerBytes_injective (h : hexLowerBytes mid = hexLowerBytes other) : mid = other := by
  have hchars : (mid.flatMap fun b =>
      [Nat.digitChar (b.toNat / 16), Nat.digitChar (b.toNat % 16)]) =
      other.flatMap fun b => [Nat.digitChar (b.toNat / 16), Nat.digitChar (b.toNat % 16)] := by
    have htext := congrArg String.toList h
    rwa [hexLowerBytes, hexLowerBytes, String.toList_ofList, String.toList_ofList] at htext
  clear h
  induction mid generalizing other with
  | nil =>
    cases other with
    | nil => rfl
    | cons b other => simp at hchars
  | cons a mid ih =>
    cases other with
    | nil => simp at hchars
    | cons b other =>
      simp only [List.flatMap_cons, List.cons_append, List.nil_append] at hchars
      obtain ⟨hhigh, hrest⟩ := List.cons.inj hchars
      obtain ⟨hlow, htail⟩ := List.cons.inj hrest
      rw [hexPair_injective (a := a) (b := b) (by rw [hhigh, hlow]), ih htail]

theorem hexLowerBytes_length (bytes : Bytes) :
    (hexLowerBytes bytes).toList.length = 2 * bytes.length := by
  rw [hexLowerBytes, String.toList_ofList]
  induction bytes with
  | nil => rfl
  | cons b bytes ih =>
    rw [List.flatMap_cons, List.length_append, ih, List.length_cons]
    simp only [List.length_cons, List.length_nil]
    omega

theorem hexLowerBytes_plain {ch : Char} (h : ch ∈ (hexLowerBytes mid).toList) : ch ≠ '/' := by
  have hall : ∀ d < 16, Nat.digitChar d ≠ '/' := by decide
  rw [hexLowerBytes, String.toList_ofList, List.mem_flatMap] at h
  obtain ⟨b, -, hch⟩ := h
  have hb := b.toNat_lt
  rcases List.mem_pair.mp hch with rfl | rfl
  · exact hall _ (by omega)
  · exact hall _ (by omega)

theorem storeName_plain (part : Bool) : '/' ∉ (storeName mid part).toList := by
  rw [storeName, String.toList_append, List.mem_append, not_or]
  refine ⟨fun h => hexLowerBytes_plain h rfl, ?_⟩
  cases part <;> decide

theorem storePath_injective {part part' : Bool} (hlen : mid.length = other.length)
    (h : storePath store mid part = storePath store other part') : mid = other ∧ part = part' := by
  have hchars := Path.join_injective (storeName_plain part) (storeName_plain part')
    (String.ofList_inj.mp h)
  simp only [storeName, String.toList_append] at hchars
  obtain ⟨hhex, hsuffix⟩ := List.append_inj hchars
    (by rw [hexLowerBytes_length, hexLowerBytes_length, hlen])
  refine ⟨hexLowerBytes_injective (String.toList_inj.mp hhex), ?_⟩
  cases part <;> cases part' <;> first | rfl | exact absurd hsuffix (by decide)

end Paths

structure Slot where
  part : Option Bytes
  done : Option Bytes

def slotOf (store : String) (files : Files) (mid : Bytes) : Slot :=
  ⟨files (storePath store mid true), files (storePath store mid false)⟩

/-- A storage request with at least the arguments of its header. -/
structure Call where
  op : UInt8
  args : Bytes
  storage : op = OP_STAT ∨ op = OP_BEGIN ∨ op = OP_WRITE ∨ op = OP_SREAD ∨ op = OP_FIN
  header : ∃ hdr, requestHeaderLen op = some hdr ∧ hdr ≤ args.length

inductive Verb
  | stat
  | begin (total : ℕ)
  | write (off : ℕ) (data : Option Bytes)
  | sread (off len : ℕ)
  | fin

namespace Call

variable (call : Call)

def mid : Bytes := call.args.take 4

/-- The offset of a request, and the total of a `BEGIN`. -/
def off : ℕ := ofLe ((call.args.drop 4).take 4)

def len : ℕ := declaredLen call.args

def data : Option Bytes :=
  if 10 + call.len ≤ call.args.length then some ((call.args.drop 10).take call.len) else none

def verb : Verb :=
  if call.op = OP_STAT then .stat
  else if call.op = OP_BEGIN then .begin call.off
  else if call.op = OP_WRITE then .write call.off call.data
  else if call.op = OP_SREAD then .sread call.off call.len
  else .fin

theorem headerLen {n : ℕ} (h : requestHeaderLen call.op = some n) : n ≤ call.args.length := by
  obtain ⟨hdr, hhdr, hle⟩ := call.header
  rw [h] at hhdr
  cases hhdr
  exact hle

theorem four_le : 4 ≤ call.args.length := by
  rcases call.storage with h | h | h | h | h
  · exact call.headerLen (by rw [h]; rfl)
  · exact Nat.le_trans (by decide) (call.headerLen (n := 8) (by rw [h]; rfl))
  · exact Nat.le_trans (by decide) (call.headerLen (n := 10) (by rw [h]; rfl))
  · exact Nat.le_trans (by decide) (call.headerLen (n := 10) (by rw [h]; rfl))
  · exact call.headerLen (by rw [h]; rfl)

variable {call} in
theorem verb_stat (h : call.op = OP_STAT) : call.verb = .stat := by rw [verb, h]; rfl

variable {call} in
theorem verb_begin (h : call.op = OP_BEGIN) : call.verb = .begin call.off := by rw [verb, h]; rfl

variable {call} in
theorem verb_write (h : call.op = OP_WRITE) : call.verb = .write call.off call.data := by
  rw [verb, h]
  rfl

variable {call} in
theorem verb_sread (h : call.op = OP_SREAD) : call.verb = .sread call.off call.len := by
  rw [verb, h]
  rfl

variable {call} in
theorem verb_fin (h : call.op = OP_FIN) : call.verb = .fin := by rw [verb, h]; rfl

theorem mid_length : call.mid.length = 4 := by
  rw [mid, List.length_take]
  exact Nat.min_eq_left call.four_le

end Call

def Publishable (bytes : Bytes) : Prop :=
  8 ≤ bytes.length ∧ bytes.take 4 = MAGIC ∧ ofLe ((bytes.drop 4).take 4) = bytes.length

instance (bytes : Bytes) : Decidable (Publishable bytes) :=
  inferInstanceAs (Decidable (_ ∧ _ ∧ _))

namespace Slot

/-- What a request does to the slot of its id; `fresh` are the contents of a new part. -/
def step (fresh : ℕ → Bytes) (verb : Verb) (slot : Slot) : Reply × Slot :=
  match verb with
  | .stat =>
    match slot.done.or slot.part with
    | some bytes => ((STATUS_OK, [1] ++ toLe 4 bytes.length), slot)
    | none => ((STATUS_OK, [0] ++ toLe 4 0), slot)
  | .begin total => (status true, { slot with part := some (fresh total) })
  | .write off (some data) =>
    match slot.part with
    | some old => (status true, { slot with part := some (writeAt 0 old off data) })
    | none => (refused, slot)
  | .write _ none => (refused, slot)
  | .sread off len =>
    match slot.part.or slot.done with
    | some bytes =>
      if len = 0 ∨ off + len ≤ bytes.length then
        ((STATUS_OK, (bytes.drop off).take len), slot)
      else (refused, slot)
    | none => (refused, slot)
  | .fin =>
    match slot.part with
    | some bytes => if Publishable bytes then (status true, ⟨none, some bytes⟩) else (refused, slot)
    | none => (refused, slot)

variable (fresh : ℕ → Bytes) (slot : Slot)

@[simp] theorem step_stat : (slot.step fresh .stat).2 = slot := by
  simp only [step]
  split <;> rfl

@[simp] theorem step_sread (off len : ℕ) : (slot.step fresh (.sread off len)).2 = slot := by
  simp only [step]
  split
  · split_ifs <;> rfl
  · rfl

end Slot

section Handle

variable {c : Crypto} {core : SeederCore c} {z : Compressors} {store : String} {files : Files}

theorem storePath_ne {mid other : Bytes} (hmid : mid.length = 4) (hother : other.length = 4)
    (hne : other ≠ mid) (part part' : Bool) :
    storePath store other part ≠ storePath store mid part' := fun h =>
  hne (storePath_injective (hother.trans hmid.symm) h).1

theorem storePath_part_ne {mid : Bytes} :
    storePath store mid true ≠ storePath store mid false := fun h => by
  cases (storePath_injective rfl h).2

/-- Files after a request for an id: its slot, and every other file as before. -/
structure Moves (store : String) (mid : Bytes) (files files' : Files) (slot : Slot) : Prop where
  own : slotOf store files' mid = slot
  frame : ∀ path : String, path ≠ storePath store mid true → path ≠ storePath store mid false →
    files' path = files path

section Moves

variable {mid bytes : Bytes} {files' : Files} {slot : Slot}

theorem Moves.others (h : Moves store mid files files' slot) (hmid : mid.length = 4)
    {other : Bytes} (hother : other.length = 4) (hne : other ≠ mid) :
    slotOf store files' other = slotOf store files other := by
  have hpath := @storePath_ne store mid other hmid hother hne
  rw [slotOf, slotOf, h.frame _ (hpath true true) (hpath true false),
    h.frame _ (hpath false true) (hpath false false)]

theorem Moves.unchanged (h : Moves store mid files files' (slotOf store files mid)) :
    files' = files := by
  funext path
  by_cases hpart : path = storePath store mid true
  · rw [hpart]
    exact congrArg Slot.part h.own
  · by_cases hdone : path = storePath store mid false
    · rw [hdone]
      exact congrArg Slot.done h.own
    · exact h.frame path hpart hdone

theorem Moves.same (mid : Bytes) : Moves store mid files files (slotOf store files mid) :=
  ⟨rfl, fun _ _ _ => rfl⟩

theorem Moves.part (mid : Bytes) (contents : Option Bytes) :
    Moves store mid files (Function.update files (storePath store mid true) contents)
      { slotOf store files mid with part := contents } := by
  refine ⟨?_, fun path hpart _ => Function.update_of_ne hpart _ _⟩
  simp [slotOf, storePath_part_ne.symm]

theorem Moves.published (mid bytes : Bytes) :
    Moves store mid files (Function.update (Function.update files (storePath store mid true) none)
      (storePath store mid false) (some bytes)) ⟨none, some bytes⟩ := by
  refine ⟨by simp [slotOf, storePath_part_ne], fun path hpart hdone => ?_⟩
  rw [Function.update_of_ne hdone, Function.update_of_ne hpart]

end Moves

theorem publish_posix (files : Files) (part done : String) :
    SeederCore.publish posix part done files =
      match files part with
      | some bytes =>
        if Publishable bytes then
          (true, Function.update (Function.update files part none) done (some bytes))
        else (false, files)
      | none => (false, files) := by
  unfold SeederCore.publish
  cases hpart : files part with
  | none => simp [posix, hpart]
  | some bytes =>
    by_cases hlen : 8 ≤ bytes.length
    · have hmagic : (bytes.take 8).take 4 = bytes.take 4 := by rw [List.take_take]; rfl
      have hsize : ((bytes.take 8).drop 4).take 4 = (bytes.drop 4).take 4 := by
        rw [List.drop_take, List.take_take]
        rfl
      simp only [posix, hpart, Option.map_some, Option.bind_some, Nat.zero_add, hlen, or_true,
        if_true, List.drop_zero, hmagic, hsize]
      by_cases hok : bytes.take 4 = MAGIC ∧ ofLe ((bytes.drop 4).take 4) = bytes.length
      · rw [if_neg (by tauto), if_pos ⟨hlen, hok⟩]
      · rw [if_pos (by tauto), if_neg fun h => hok h.2]
    · have hshort : ¬ Publishable bytes := fun h => hlen h.1
      simp [posix, hpart, hlen, hshort]

theorem Call.rdU32_off (call : Call) (h : 8 ≤ call.args.length) :
    rdU32 call.args 4 = .ok (UInt32.ofNat call.off) ∧
      (UInt32.ofNat call.off).toNat = call.off := by
  refine ⟨rdU32_ok h, ?_⟩
  have hlt : call.off < 2 ^ 32 := by
    refine ofLe_lt_u32 ?_
    rw [List.length_take, List.length_drop]
    omega
  rw [UInt32.toNat_ofNat', Nat.mod_eq_of_lt hlt]

theorem Call.slice_len (call : Call) (h : 10 ≤ call.args.length) :
    slice call.args 8 10 = .ok ((call.args.drop 8).take 2) := slice_ok (by omega) h

@[simp] theorem status_false : status false = refused := rfl

def Steps (core : SeederCore c) (store : String) (files : Files) (call : Call)
    (r : Run (Reply × Files)) : Prop :=
  ∃ reply files', r = .ok (reply, files') ∧
    reply = ((slotOf store files call.mid).step core.freshPart call.verb).1 ∧
    Moves store call.mid files files'
      ((slotOf store files call.mid).step core.freshPart call.verb).2

section Verbs

variable {call : Call}

theorem Steps.kept {reply : Reply}
    (h : (slotOf store files call.mid).step core.freshPart call.verb =
      (reply, slotOf store files call.mid)) : Steps core store files call (.ok (reply, files)) :=
  ⟨reply, files, rfl, by rw [h], by rw [h]; exact .same call.mid⟩

theorem stat_steps (h : call.op = OP_STAT) : Steps core store files call
    (.ok (SeederCore.stat posix (storePath store call.mid true) (storePath store call.mid false)
      files, files)) := by
  refine Steps.kept ?_
  rw [Call.verb_stat h]
  unfold SeederCore.stat Slot.step
  cases hdone : files (storePath store call.mid false) <;>
    cases hpart : files (storePath store call.mid true) <;> simp [posix, slotOf, hdone, hpart]

theorem begin_steps (h : call.op = OP_BEGIN) : Steps core store files call
    (.ok (SeederCore.replyTo (posix.write files (storePath store call.mid true)
      (core.freshPart call.off)))) := by
  rw [Steps, Call.verb_begin h]
  exact ⟨_, _, rfl, rfl, .part call.mid _⟩

theorem write_steps (h : call.op = OP_WRITE) : Steps core store files call
    (if 10 + call.len ≤ call.args.length then
      .ok (SeederCore.replyTo (posix.writeAllAt files (storePath store call.mid true) call.off
        ((call.args.drop 10).take call.len)))
    else .ok (refused, files)) := by
  split_ifs with hdata
  · have hverb : call.verb = .write call.off (some ((call.args.drop 10).take call.len)) := by
      rw [Call.verb_write h, Call.data, if_pos hdata]
    cases hpart : files (storePath store call.mid true) with
    | none =>
      have hwrite : posix.writeAllAt files (storePath store call.mid true) call.off
          ((call.args.drop 10).take call.len) = (false, files) := by simp [posix, hpart]
      rw [hwrite]
      exact Steps.kept (by rw [hverb]; simp [Slot.step, slotOf, hpart])
    | some old =>
      have hwrite : posix.writeAllAt files (storePath store call.mid true) call.off
          ((call.args.drop 10).take call.len) =
          (true, Function.update files (storePath store call.mid true)
            (some (writeAt 0 old call.off ((call.args.drop 10).take call.len)))) := by
        simp [posix, hpart]
      have hstep : (slotOf store files call.mid).step core.freshPart call.verb = (status true,
          { slotOf store files call.mid with
            part := some (writeAt 0 old call.off ((call.args.drop 10).take call.len)) }) := by
        rw [hverb]
        simp [Slot.step, slotOf, hpart]
      rw [hwrite, Steps, hstep]
      exact ⟨_, _, rfl, rfl, .part call.mid _⟩
  · refine Steps.kept ?_
    rw [Call.verb_write h, Call.data, if_neg hdata]
    rfl

theorem sread_steps (h : call.op = OP_SREAD) : Steps core store files call
    (match posix.readExactAt files
      (if (posix.metadataLen files (storePath store call.mid true)).isSome then
        storePath store call.mid true else storePath store call.mid false) call.off call.len with
    | some buf => .ok ((STATUS_OK, buf), files)
    | none => .ok (refused, files)) := by
  have hread : posix.readExactAt files
      (if (posix.metadataLen files (storePath store call.mid true)).isSome then
        storePath store call.mid true else storePath store call.mid false) call.off call.len =
      ((slotOf store files call.mid).part.or (slotOf store files call.mid).done).bind fun bytes =>
        if call.len = 0 ∨ call.off + call.len ≤ bytes.length then
          some ((bytes.drop call.off).take call.len) else none := by
    cases hpart : files (storePath store call.mid true) <;> simp [posix, slotOf, hpart]
  rw [hread]
  cases hsource : (slotOf store files call.mid).part.or (slotOf store files call.mid).done with
  | none => exact Steps.kept (by rw [Call.verb_sread h]; simp only [Slot.step, hsource])
  | some bytes =>
    by_cases hfits : call.len = 0 ∨ call.off + call.len ≤ bytes.length
    · simp only [Option.bind_some, if_pos hfits]
      exact Steps.kept (by rw [Call.verb_sread h]; simp only [Slot.step, hsource, if_pos hfits])
    · simp only [Option.bind_some, if_neg hfits]
      exact Steps.kept (by rw [Call.verb_sread h]; simp only [Slot.step, hsource, if_neg hfits])

theorem fin_steps (h : call.op = OP_FIN) : Steps core store files call
    (.ok (SeederCore.replyTo (SeederCore.publish posix (storePath store call.mid true)
      (storePath store call.mid false) files))) := by
  rw [publish_posix]
  cases hpart : files (storePath store call.mid true) with
  | none => exact Steps.kept (by rw [Call.verb_fin h]; simp [Slot.step, slotOf, hpart])
  | some bytes =>
    by_cases hready : Publishable bytes
    · have hstep : (slotOf store files call.mid).step core.freshPart call.verb =
          (status true, ⟨none, some bytes⟩) := by
        rw [Call.verb_fin h]
        simp [Slot.step, slotOf, hpart, hready]
      simp only [if_pos hready]
      rw [Steps, hstep]
      exact ⟨_, _, rfl, rfl, .published call.mid bytes⟩
    · simp only [if_neg hready]
      exact Steps.kept (by rw [Call.verb_fin h]; simp [Slot.step, slotOf, hpart, hready])

theorem handleStorage_steps (hstore : core.storeDir = some store) (call : Call) :
    Steps core store files call (core.handleStorage posix call.op call.args files) := by
  have hslice : slice call.args 0 4 = .ok call.mid := slice_ok (by omega) call.four_le
  have hlen : ofLe ((call.args.drop 8).take 2) = call.len := rfl
  rw [SeederCore.handleStorage, hstore]
  simp only [hslice, ok_bind]
  rcases call.storage with h | h | h | h | h
  · rw [if_pos h]
    exact stat_steps h
  · obtain ⟨hread, htotal⟩ := call.rdU32_off (call.headerLen (by rw [h]; rfl))
    rw [if_neg (by rw [h]; decide), if_pos h, hread, ok_bind, htotal]
    exact begin_steps h
  · have hten : 10 ≤ call.args.length := call.headerLen (by rw [h]; rfl)
    obtain ⟨hread, hoff⟩ := call.rdU32_off (by omega)
    rw [if_neg (by rw [h]; decide), if_neg (by rw [h]; decide), if_pos h, hread, ok_bind, hoff,
      call.slice_len hten, ok_bind, hlen]
    exact write_steps h
  · have hten : 10 ≤ call.args.length := call.headerLen (by rw [h]; rfl)
    obtain ⟨hread, hoff⟩ := call.rdU32_off (by omega)
    rw [if_neg (by rw [h]; decide), if_neg (by rw [h]; decide), if_neg (by rw [h]; decide),
      if_pos h, hread, ok_bind, hoff, call.slice_len hten, ok_bind, hlen]
    exact sread_steps h
  · rw [if_neg (by rw [h]; decide), if_neg (by rw [h]; decide), if_neg (by rw [h]; decide),
      if_neg (by rw [h]; decide), if_pos h]
    exact fin_steps h

end Verbs

/-- A storage request acts on the slot of its id, and on no other. -/
theorem handle_call (hstore : core.storeDir = some store) (call : Call) : ∃ reply files',
    core.handle posix z call.op call.args files = .ok (some reply, files') ∧
      reply = ((slotOf store files call.mid).step core.freshPart call.verb).1 ∧
      Moves store call.mid files files'
        ((slotOf store files call.mid).step core.freshPart call.verb).2 := by
  have hhandle : core.handle posix z call.op call.args files =
      (core.handleStorage posix call.op call.args files).map fun r => (some r.1, r.2) := by
    rcases call.storage with h | h | h | h | h <;> rw [h] <;> rfl
  obtain ⟨reply, files', hok, hreply, hmoves⟩ := @handleStorage_steps c core store files hstore call
  exact ⟨reply, files', by rw [hhandle, hok]; rfl, hreply, hmoves⟩

theorem handle_slot (hstore : core.storeDir = some store) {call : Call} {mid : Bytes}
    (hmid : call.mid = mid) : ∃ reply files',
      core.handle posix z call.op call.args files = .ok (some reply, files') ∧
      slotOf store files' mid = ((slotOf store files mid).step core.freshPart call.verb).2 := by
  obtain ⟨reply, files', hok, -, hmoves⟩ := @handle_call c core z store files hstore call
  rw [hmid] at hmoves
  exact ⟨reply, files', hok, hmoves.own⟩

theorem handle_moves (hstore : core.storeDir = some store) {call : Call} {reply : Reply}
    {files' : Files} (h : core.handle posix z call.op call.args files = .ok (some reply, files')) :
    reply = ((slotOf store files call.mid).step core.freshPart call.verb).1 ∧
      Moves store call.mid files files'
        ((slotOf store files call.mid).step core.freshPart call.verb).2 := by
  obtain ⟨reply', files'', hok, hreply, hmoves⟩ := @handle_call c core z store files hstore call
  rw [h] at hok
  cases hok
  exact ⟨hreply, hmoves⟩

end Handle

section Runs

variable {c : Crypto}

/-- Storage requests answered one after the other, with their replies. -/
inductive Serves (core : SeederCore c) (z : Compressors) :
    Files → List (Call × Reply) → Files → Prop
  | nil {files : Files} : Serves core z files [] files
  | cons {call : Call} {reply : Reply} {history : List (Call × Reply)}
      {files files' files'' : Files}
      (hhead : core.handle posix z call.op call.args files = .ok (some reply, files'))
      (htail : Serves core z files' history files'') :
      Serves core z files ((call, reply) :: history) files''

variable {core : SeederCore c} {z : Compressors} {files files' files'' : Files}
  {history more : List (Call × Reply)}

theorem Serves.append (h : Serves core z files history files')
    (hmore : Serves core z files' more files'') :
    Serves core z files (history ++ more) files'' := by
  induction h with
  | nil => exact hmore
  | cons hhead _ ih => exact .cons hhead (ih hmore)

theorem serves_own {store : String} {mid : Bytes} (hstore : core.storeDir = some store)
    {calls : List Call} (hown : ∀ call ∈ calls, call.mid = mid) : ∃ history files',
      Serves core z files history files' ∧ history.map Prod.fst = calls ∧
      slotOf store files' mid = calls.foldl (fun slot call =>
        (slot.step core.freshPart call.verb).2) (slotOf store files mid) := by
  induction calls generalizing files with
  | nil => exact ⟨[], files, .nil, rfl, rfl⟩
  | cons call calls ih =>
    obtain ⟨reply, files', hhead, hnext⟩ := @handle_slot c core z store files hstore call mid
      (hown call List.mem_cons_self)
    obtain ⟨history, files'', htail, hcalls, hslot⟩ :=
      @ih files' fun call hcall => hown call (List.mem_cons_of_mem _ hcall)
    refine ⟨(call, reply) :: history, files'', .cons hhead htail, by rw [List.map_cons, hcalls], ?_⟩
    rw [hslot, hnext]
    rfl

inductive Guarded (core : SeederCore c) (z : Compressors) (safe : Files → Call → Prop) :
    Files → List (Call × Reply) → Files → Prop
  | nil {files : Files} : Guarded core z safe files [] files
  | cons {call : Call} {reply : Reply} {history : List (Call × Reply)}
      {files files' files'' : Files} (hsafe : safe files call)
      (hhead : core.handle posix z call.op call.args files = .ok (some reply, files'))
      (htail : Guarded core z safe files' history files'') :
      Guarded core z safe files ((call, reply) :: history) files''

end Runs

def unwritten (seed : Option (Bytes × UInt32)) (i : ℕ) : UInt8 :=
  match seed with
  | some (payload, blockCount) =>
    let off := HEADER_LEN + MFL + blockCount.toNat * 4
    if off ≤ i then payload.getD (i - off) 0xff else 0xff
  | none => 0xff

section Fresh

variable {c : Crypto} (core : SeederCore c) (total : ℕ)

theorem freshPart_getElem? (i : ℕ) : (core.freshPart total)[i]? =
    if i < total then some (unwritten core.seed i) else none := by
  unfold SeederCore.freshPart unwritten
  cases core.seed with
  | none =>
    simp only [List.getElem?_replicate]
  | some seed =>
    obtain ⟨payload, blockCount⟩ := seed
    simp only [List.length_replicate]
    generalize HEADER_LEN + MFL + blockCount.toNat * 4 = off
    by_cases hoff : off < total
    · rw [if_pos hoff, List.take_replicate, List.drop_replicate, List.getElem?_append,
        List.getElem?_append, List.getElem?_replicate, List.getElem?_replicate, List.getElem?_take]
      simp only [List.length_append, List.length_replicate, List.length_take]
      by_cases hlow : off ≤ i
      · by_cases hpayload : i - off < payload.length
        · have hvalue : payload[i - off]? = some (payload.getD (i - off) 0xff) := by
            rw [List.getD_eq_getElem?_getD, List.getElem?_eq_getElem hpayload, Option.getD_some]
          rw [if_pos hlow]
          split_ifs <;> first | omega | rfl | (rw [← hvalue]; congr 1; omega)
        · have hvalue : payload.getD (i - off) 0xff = 0xff := by
            rw [List.getD_eq_getElem?_getD, List.getElem?_eq_none (by omega), Option.getD_none]
          rw [if_pos hlow, hvalue]
          split_ifs <;> first | omega | rfl
      · rw [if_neg hlow]
        split_ifs <;> first | omega | rfl
    · rw [if_neg hoff, List.getElem?_replicate]
      split_ifs <;> first | rfl | omega

theorem freshPart_length : (core.freshPart total).length = total := by
  refine Nat.le_antisymm ?_ ?_
  · have hend := freshPart_getElem? core total total
    rw [if_neg (Nat.lt_irrefl total)] at hend
    exact List.getElem?_eq_none_iff.mp hend
  · by_contra hlt
    have hinside := freshPart_getElem? core total (core.freshPart total).length
    rw [if_pos (by omega), List.getElem?_eq_none (Nat.le_refl _)] at hinside
    cases hinside

end Fresh

end MotaTool.Serve
