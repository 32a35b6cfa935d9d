import MotaTool.Serve.DeviceText
import MotaTool.Serve.Retry

/-!
# The acknowledgement is a reply line

A piece of a console line that the buffer gives out stands, with what was cut
off before it, at a line start of the text. So an accepted piece is a reply
line of what the node sent exactly if its line, forced flushes undone, reads as
one and was not cut directly behind the words. This asks for frames that arrive
whole: the bytes of a frame whose reading breaks off are taken for text.
-/

namespace MotaTool.Serve

open Base Run Format seeder

/-- The start of the stream, or behind a newline or a frame. -/
def LineStart (items : List Item) : Prop :=
  items = [] ∨ ∃ front last, items = front ++ [last] ∧ (last = .text 0x0a ∨ last.isText = false)

/-- The end of the line, a space or a colon. -/
inductive Followed : Bytes → Prop
  | space (rest : Bytes) : Followed (0x20 :: rest)
  | colon (rest : Bytes) : Followed (0x3a :: rest)
  | lineEnd (returns : ℕ) (rest : Bytes) : Followed (List.replicate returns 0x0d ++ 0x0a :: rest)

/-- A line that begins with an acknowledgement of the command. -/
def ReplyLine (line : Bytes) : Prop :=
  ∃ lead marker words tail : Bytes, line = lead ++ marker ++ words ++ tail ∧
    (∀ b ∈ lead, isWhitespace (asChar b) = true) ∧
    (marker = [] ∨ marker.map asChar = replyMarker) ∧
    (words.map asChar = ATTACHED ∨ words.map asChar = REFRESHED) ∧ Followed tail

/-- A reply line that acknowledges the command stands in the text. -/
def Acknowledged (items : List Item) : Prop :=
  ∃ (front rest : List Item) (line : Bytes), items = front ++ line.map .text ++ rest ∧
    LineStart front ∧ ReplyLine line

section Characters

theorem asChar_toNat (b : UInt8) : (asChar b).toNat = b.toNat := by
  have hlt := b.toNat_lt
  rw [asChar, Char.ofNat, dif_pos (Or.inl (by omega))]
  rfl

theorem asChar_injective : Function.Injective asChar := fun b d h => by
  have hnat := congrArg Char.toNat h
  rw [asChar_toNat, asChar_toNat] at hnat
  exact UInt8.toNat_inj.mp hnat

theorem asChar_eq_newline {b : UInt8} : asChar b = '\n' ↔ b = 0x0a :=
  ⟨fun h => asChar_injective (h.trans (by decide)), fun h => by rw [h]; decide⟩

end Characters

def Console.Tracks (k : Console) (items : List Item) : Prop :=
  ∃ (front : List Item) (line : Bytes), items = front ++ line.map .text ∧ LineStart front ∧
    line.map asChar = k.cut ++ k.line ∧ '\n' ∉ k.cut ∧ '\n' ∉ k.line

structure Piece.Ended (p : Piece) : Prop where
  cut : '\n' ∉ p.cut
  forced : p.forced = true → '\n' ∉ p.text
  newline : p.forced = false → ∃ body, p.text = body ++ ['\n'] ∧ '\n' ∉ body

def Piece.Stands (p : Piece) (items : List Item) : Prop :=
  p.Ended ∧ ∃ (front rest : List Item) (line : Bytes), items = front ++ line.map .text ++ rest ∧
    LineStart front ∧ line.map asChar = p.cut ++ p.text

/-- The line of the piece is an acknowledgement in the text. -/
def Piece.Answers (p : Piece) (items : List Item) : Prop :=
  ∃ (front rest : List Item) (line : Bytes), items = front ++ line.map .text ++ rest ∧
    LineStart front ∧ line.map asChar = p.cut ++ p.text ∧ ReplyLine line

section Pieces

variable {k : Console} {before items : List Item} {p : Piece}

theorem Piece.Stands.append (h : p.Stands before) : p.Stands (before ++ items) := by
  obtain ⟨hend, front, rest, line, rfl, hfront, hline⟩ := h
  exact ⟨hend, front, rest ++ items, line, by rw [List.append_assoc], hfront, hline⟩

theorem start_tracks {items : List Item} (h : LineStart items) : Console.start.Tracks items :=
  ⟨items, [], by simp, h, rfl, by simp [Console.start], by simp [Console.start]⟩

theorem take_tracks (h : k.Tracks before) (item : Item) :
    (k.take item).2.Tracks (before ++ [item]) ∧
      ∀ p ∈ (k.take item).1, p.Stands (before ++ [item]) := by
  obtain ⟨front, line, rfl, hfront, hline, hcut, hbody⟩ := h
  cases item with
  | text b =>
    have happend : front ++ line.map .text ++ [.text b] = front ++ (line ++ [b]).map Item.text := by
      simp
    have hchars : (line ++ [b]).map asChar = k.cut ++ (k.line ++ [asChar b]) := by
      rw [List.map_append, hline, List.append_assoc]
      rfl
    have hgrown : b ≠ 0x0a → '\n' ∉ k.line ++ [asChar b] := by
      intro hb
      rw [List.mem_append, List.mem_singleton]
      rintro (hold | hnew)
      · exact hbody hold
      · exact hb (asChar_eq_newline.mp hnew.symm)
    rw [happend]
    unfold Console.take Console.push
    simp only
    split_ifs with hend hlen
    · refine ⟨start_tracks (.inr ⟨front ++ line.map .text, .text b, happend.symm, ?_⟩), ?_⟩
      · exact .inl (by rw [hend])
      · intro p hp
        cases hp
        refine ⟨⟨hcut, nofun, fun _ => ⟨k.line, ?_, hbody⟩⟩, front, [], line ++ [b], by simp,
          hfront, hchars⟩
        rw [hend]
        rfl
    · exact ⟨⟨front, line ++ [b], rfl, hfront, hchars, hcut, hgrown hend⟩, nofun⟩
    · refine ⟨⟨front, line ++ [b], rfl, hfront, by simpa using hchars, ?_, by simp⟩, ?_⟩
      · rw [List.mem_append, not_or]
        exact ⟨hcut, hgrown hend⟩
      · intro p hp
        cases hp
        exact ⟨⟨hcut, fun _ => hgrown hend, nofun⟩, front, [], line ++ [b], by simp, hfront, hchars⟩
  | request op args =>
    exact ⟨start_tracks (.inr ⟨_, _, rfl, .inr rfl⟩), nofun⟩
  | damaged => exact ⟨start_tracks (.inr ⟨_, _, rfl, .inr rfl⟩), nofun⟩

theorem pieces_stand (h : k.Tracks before) (hp : p ∈ k.pieces items) :
    p.Stands (before ++ items) := by
  induction items generalizing k before with
  | nil => exact absurd hp List.not_mem_nil
  | cons item items ih =>
    obtain ⟨htracks, hstands⟩ := take_tracks h item
    have hassoc : before ++ item :: items = before ++ [item] ++ items := by simp
    rw [hassoc]
    rcases List.mem_append.mp hp with hnow | hlater
    · exact (hstands p (Option.mem_toList.mp hnow)).append
    · exact ih htracks hlater

end Pieces

section Replies

theorem shownLine_eq {line shown : List Char} (h : shownLine line = some shown) :
    line = shown ++ line.rtakeWhile isLineEnd := by
  unfold shownLine at h
  simp only at h
  split_ifs at h
  cases h
  exact (List.rdropWhile_append_rtakeWhile).symm

theorem rtakeWhile_newline {body : List Char} (hbody : '\n' ∉ body) : ∃ returns,
    (body ++ ['\n']).rtakeWhile isLineEnd = List.replicate returns '\r' ++ ['\n'] := by
  refine ⟨(body.rtakeWhile isLineEnd).length, ?_⟩
  rw [List.rtakeWhile_concat_pos _ _ _ (by decide)]
  congr 1
  refine List.eq_replicate_iff.mpr ⟨rfl, fun ch hch => ?_⟩
  have hend : isLineEnd ch = true := List.mem_rtakeWhile_imp hch
  have hmem : ch ∈ body := (List.rtakeWhile_suffix isLineEnd body).subset hch
  rcases (by simpa [isLineEnd] using hend : ch = '\r' ∨ ch = '\n') with hreturn | hnewline
  · exact hreturn
  · exact absurd (hnewline ▸ hmem) hbody

theorem isPrefixOf?_append (words rest : List Char) :
    words.isPrefixOf? (words ++ rest) = some rest := by
  induction words with
  | nil => rfl
  | cons ch words ih =>
    rw [List.cons_append, List.isPrefixOf?, if_pos (by simp)]
    exact ih

theorem hasReplyPrefix_append {words tail : List Char}
    (h : tail = [] ∨ ∃ ch rest, tail = ch :: rest ∧ (ch = ' ' ∨ ch = ':')) :
    hasReplyPrefix (words ++ tail) words = true := by
  rw [hasReplyPrefix, isPrefixOf?_append]
  rcases h with rfl | ⟨ch, rest, rfl, hch⟩
  · rfl
  · simpa using hch

theorem isAttachOk_append {words tail : List Char} (hwords : words = ATTACHED ∨ words = REFRESHED)
    (h : tail = [] ∨ ∃ ch rest, tail = ch :: rest ∧ (ch = ' ' ∨ ch = ':')) :
    isAttachOk (words ++ tail) = true := by
  rw [isAttachOk, Bool.or_eq_true]
  rcases hwords with rfl | rfl
  · exact .inl (hasReplyPrefix_append h)
  · exact .inr (hasReplyPrefix_append h)

theorem normalizeConsoleReply_append {lead marker words : List Char} (tail : List Char)
    (hlead : ∀ ch ∈ lead, isWhitespace ch = true) (hmarker : marker = [] ∨ marker = replyMarker)
    (hwords : words = ATTACHED ∨ words = REFRESHED) :
    normalizeConsoleReply (lead ++ marker ++ words ++ tail) = words ++ tail := by
  have hskip : ∀ ch rest, isWhitespace ch = false →
      (lead ++ ch :: rest).dropWhile isWhitespace = ch :: rest := fun ch rest hch => by
    rw [List.dropWhile_append_of_pos hlead, List.dropWhile_cons_of_neg (by simp [hch])]
  obtain ⟨rest, hrest⟩ : ∃ rest, words ++ tail = 'O' :: rest := by
    rcases hwords with rfl | rfl <;> exact ⟨_, rfl⟩
  rw [List.append_assoc, List.append_assoc, hrest]
  unfold normalizeConsoleReply
  simp only
  rcases hmarker with rfl | rfl
  · rw [List.nil_append, hskip _ _ (by decide)]
    rfl
  · have hmarked : replyMarker ++ 'O' :: rest = '-' :: ('>' :: ' ' :: 'O' :: rest) := rfl
    rw [hmarked, hskip _ _ (by decide), ← hmarked, isPrefixOf?_append]
    rfl

theorem words_end {words : List Char} (h : words = ATTACHED ∨ words = REFRESHED) :
    ∃ front, words = front ++ ['d'] := by
  rcases h with rfl | rfl
  · exact ⟨ATTACHED.dropLast, rfl⟩
  · exact ⟨REFRESHED.dropLast, rfl⟩

theorem words_longer {words tail : List Char} (h : words = ATTACHED ∨ words = REFRESHED)
    (htail : tail ≠ []) : words ++ tail ≠ ATTACHED ∧ words ++ tail ≠ REFRESHED := by
  have hlen : 0 < tail.length := List.length_pos_of_ne_nil htail
  have hattached : ATTACHED.length = 18 := rfl
  have hrefreshed : REFRESHED.length = 19 := rfl
  constructor
  · intro heq
    have hlength := congrArg List.length heq
    rw [List.length_append] at hlength
    rcases h with rfl | rfl <;> omega
  · intro heq
    have hlength := congrArg List.length heq
    rw [List.length_append] at hlength
    rcases h with rfl | rfl
    · have hfront := congrArg (List.take 18) heq
      rw [List.take_left' hattached] at hfront
      exact absurd hfront (by decide)
    · omega

end Replies

/-- With what flushes cut off before it the piece reads as an acknowledgement, and the flush did
not cut it directly behind the words. -/
def Piece.Whole (p : Piece) : Prop := ∃ line ∈ p.shown,
  isAttachOk (normalizeConsoleReply (p.cut ++ line)) = true ∧
    (p.forced = true → normalizeConsoleReply (p.cut ++ line) ≠ ATTACHED ∧
      normalizeConsoleReply (p.cut ++ line) ≠ REFRESHED)

theorem Followed.chars {tail : Bytes} (h : Followed tail) :
    (∃ ch rest, tail.map asChar = ch :: rest ∧ (ch = ' ' ∨ ch = ':')) ∨
      ∃ returns rest, tail.map asChar = List.replicate returns '\r' ++ '\n' :: rest := by
  cases h with
  | space rest => exact .inl ⟨' ', rest.map asChar, rfl, .inl rfl⟩
  | colon rest => exact .inl ⟨':', rest.map asChar, rfl, .inr rfl⟩
  | lineEnd returns rest =>
    refine .inr ⟨returns, rest.map asChar, ?_⟩
    rw [List.map_append, List.map_replicate]
    rfl

section Lines

variable {p : Piece} {line : Bytes} {given : List Char}

/-- A line that is shown: its end is taken off. -/
structure Bare (given : List Char) : Prop where
  newline : '\n' ∉ given
  solid : ∃ front ch, given = front ++ [ch] ∧ isLineEnd ch = false

theorem Piece.Ended.shown (h : p.Ended) (hshown : p.shown = some given) : Bare given := by
  have htext : p.text = given ++ p.text.rtakeWhile isLineEnd := shownLine_eq hshown
  constructor
  · intro hmem
    cases hforced : p.forced with
    | true => exact h.forced hforced (htext ▸ List.mem_append_left _ hmem)
    | false =>
      obtain ⟨body, hbody, hnewline⟩ := h.newline hforced
      obtain ⟨returns, hreturns⟩ := rtakeWhile_newline hnewline
      rw [hbody, hreturns, ← List.append_assoc] at htext
      have hfront := (List.append_inj' htext rfl).1
      exact hnewline (hfront ▸ List.mem_append_left _ hmem)
  · have hne : p.text.rdropWhile isLineEnd ≠ [] := by
      intro hnil
      rw [Piece.shown, shownLine] at hshown
      simp [hnil] at hshown
    have hlast := List.rdropWhile_last_not isLineEnd p.text hne
    have heq : given = p.text.rdropWhile isLineEnd := by
      rw [Piece.shown, shownLine] at hshown
      split_ifs at hshown
      exact (Option.some.inj hshown).symm
    rw [heq]
    exact ⟨_, _, (List.dropLast_append_getLast hne).symm, by simpa using hlast⟩

/-- What is shown behind the words of a line is not the beginning of a line end. -/
theorem Bare.kept_nil (h : Bare given) {cut words kept ends rest : List Char} {returns : ℕ}
    (hcut : '\n' ∉ cut) (hkept : cut ++ given = words ++ kept)
    (htail : List.replicate returns '\r' ++ '\n' :: rest = kept ++ ends) : kept = [] := by
  obtain ⟨front, last, hlast, hsolid⟩ := h.solid
  rcases List.eq_nil_or_concat' kept with hnil | ⟨more, ch, hmore⟩
  · exact hnil
  · rw [hlast, hmore, ← List.append_assoc, ← List.append_assoc] at hkept
    obtain rfl : last = ch := List.singleton_inj.mp (List.append_inj' hkept rfl).2
    have hreturn : last ∈ List.replicate returns '\r' := by
      rcases List.append_eq_append_iff.mp htail with ⟨past, hpast, hrest⟩ | ⟨past, hpast, -⟩
      · cases past with
        | nil =>
          rw [← List.append_nil (List.replicate ..), ← hpast, hmore]
          simp
        | cons first past =>
          obtain rfl : '\n' = first := (List.cons.inj hrest).1
          have hmem : '\n' ∈ cut ++ given := by
            rw [hlast, ← List.append_assoc, hkept, List.append_assoc, ← hmore, hpast]
            simp
          rcases List.mem_append.mp hmem with hin | hin
          · exact absurd hin hcut
          · exact absurd hin h.newline
      · rw [hpast, hmore]
        simp
    rw [List.eq_of_mem_replicate hreturn] at hsolid
    exact absurd hsolid (by decide)

theorem replyLine_shown {lead marker words tail : List Char} (hshown : p.shown = some given)
    (hwords : words = ATTACHED ∨ words = REFRESHED)
    (h : lead ++ marker ++ words ++ tail = p.cut ++ p.text) : ∃ kept ends,
      p.cut ++ given = lead ++ marker ++ words ++ kept ∧ tail = kept ++ ends ∧
      p.text = given ++ ends ∧ ∀ ch ∈ ends, isLineEnd ch = true := by
  obtain ⟨ends, hends, hall⟩ : ∃ ends, p.text = given ++ ends ∧
      ∀ ch ∈ ends, isLineEnd ch = true :=
    ⟨_, shownLine_eq hshown, fun ch hch => List.mem_rtakeWhile_imp hch⟩
  rw [hends, ← List.append_assoc] at h
  rcases List.append_eq_append_iff.mp h with ⟨kept, hkept, htail⟩ | ⟨past, hpast, hrest⟩
  · exact ⟨kept, ends, hkept, htail, hends, hall⟩
  · rcases List.eq_nil_or_concat' past with rfl | ⟨front, ch, rfl⟩
    · exact ⟨[], ends, by simpa using hpast.symm, by simpa using hrest.symm, hends, hall⟩
    · obtain ⟨body, rfl⟩ := words_end hwords
      rw [← List.append_assoc, ← List.append_assoc] at hpast
      obtain rfl : 'd' = ch := List.singleton_inj.mp (List.append_inj' hpast rfl).2
      exact absurd (hall 'd' (by rw [hrest]; simp)) (by decide)

theorem ReplyLine.whole (h : ReplyLine line) (hend : p.Ended)
    (hline : line.map asChar = p.cut ++ p.text) (hshown : p.shown = some given) : p.Whole := by
  obtain ⟨lead, marker, words, tail, rfl, hlead, hmarker, hwords, hfollowed⟩ := h
  have hblank : ∀ ch ∈ lead.map asChar, isWhitespace ch = true := by simpa using hlead
  have hmark : marker.map asChar = [] ∨ marker.map asChar = replyMarker := by simpa using hmarker
  simp only [List.map_append] at hline
  obtain ⟨kept, ends, hkept, htail, htext, hall⟩ := replyLine_shown hshown hwords hline
  have hnormal : normalizeConsoleReply (p.cut ++ given) = words.map asChar ++ kept := by
    rw [hkept]
    exact normalizeConsoleReply_append kept hblank hmark hwords
  refine ⟨given, hshown, ?_⟩
  rw [hnormal]
  rcases hfollowed.chars with ⟨ch, rest, hchars, hch⟩ | ⟨returns, rest, hchars⟩
  · rw [hchars] at htail
    cases kept with
    | nil =>
      have hlineEnd := hall ch (by rw [← List.nil_append ends, ← htail]; simp)
      rcases hch with rfl | rfl <;> exact absurd hlineEnd (by decide)
    | cons first kept =>
      obtain rfl : ch = first := (List.cons.inj htail).1
      exact ⟨isAttachOk_append hwords (.inr ⟨ch, kept, rfl, hch⟩),
        fun _ => words_longer hwords (List.cons_ne_nil _ _)⟩
  · have hnone : kept = [] := (hend.shown hshown).kept_nil hend.cut hkept (hchars ▸ htail)
    subst hnone
    refine ⟨isAttachOk_append hwords (.inl rfl), fun hforced => absurd ?_ (hend.forced hforced)⟩
    rw [hchars] at htail
    rw [htext, ← List.nil_append ends, ← htail]
    simp

end Lines

/-- How a piece answers the command, if it does. -/
def Piece.reply (p : Piece) : Option AttachResult := p.shown.bind replyResult

theorem findSome?_reply (pieces : List Piece) :
    pieces.findSome? Piece.reply = (pieces.filterMap Piece.shown).findSome? replyResult := by
  induction pieces with
  | nil => rfl
  | cons p pieces ih =>
    rw [List.findSome?_cons, ih, List.filterMap_cons, Piece.reply]
    cases p.shown with
    | none => rfl
    | some line => rw [List.findSome?_cons]; rfl

def firstReply (pieces : List Piece) : Option Piece := pieces.find? fun p => p.reply.isSome

theorem firstReply_append {pieces more : List Piece} (h : ∀ p ∈ pieces, p.reply = none) :
    firstReply (pieces ++ more) = firstReply more := by
  have hnone : pieces.find? (fun p => p.reply.isSome) = none :=
    List.find?_eq_none.mpr fun p hp => by simp [h p hp]
  rw [firstReply, List.find?_append, hnone, Option.none_or]
  rfl

theorem firstReply_left {pieces more : List Piece} {p : Piece} (h : firstReply pieces = some p) :
    firstReply (pieces ++ more) = some p := by
  rw [firstReply] at h
  rw [firstReply, List.find?_append, h, Option.some_or]

theorem firstReply_mem {pieces : List Piece} {p : Piece} (h : firstReply pieces = some p) :
    p ∈ pieces ∧ p.reply.isSome = true :=
  ⟨List.mem_of_find?_eq_some h, List.find?_some (p := fun q : Piece => q.reply.isSome) h⟩

section Runs

variable {σ : Type} {core : Handler σ} {verbose : Bool} {env : Env} {policy : AttachPolicy}
  {script : List Byte} {state : σ} {s : AttachState σ} {session : Session σ} {p : Pumped σ}
  {fuel : ℕ}

def Hearing (script : List Byte) (s : AttachState σ) : Prop :=
  s.stream.Exclusive ∧ ∃ items,
    scan false script = items ++ remaining s.stream s.session.incoming ∧
    (Console.start.after items).line = s.stream.line ∧
    ∀ p ∈ Console.start.pieces items, p.reply = none

theorem Hearing.pumps (hs : Hearing script s) (hp : pump core verbose s.stream s.session = .ok p) :
    p.stream.Exclusive ∧ ∃ items pieces,
      scan false script = items ++ remaining p.stream p.session.incoming ∧
      (Console.start.after items).line = p.stream.line ∧
      (∃ before, Console.start.pieces items = before ++ pieces ∧ ∀ p ∈ before, p.reply = none) ∧
      pieces.filterMap Piece.shown = p.event.lines := by
  obtain ⟨hexclusive, items, hscan, hline, hquiet⟩ := hs
  obtain ⟨more, hpumps⟩ := pump_pumps hp hexclusive
  obtain ⟨hafter, hshown⟩ := hpumps.lines _ hline
  refine ⟨hpumps.exclusive, items ++ more, (Console.start.after items).pieces more, ?_, ?_,
    ⟨Console.start.pieces items, Console.start.pieces_append items more, hquiet⟩, hshown⟩
  · rw [hscan, hpumps.scan, List.append_assoc]
  · rw [Console.after_append]
    exact hafter

theorem Hearing.next (hs : Hearing script s) {t : AttachState σ}
    (h : attachTurn core verbose env policy s = .ok (.next t)) : Hearing script t := by
  rcases attachTurn_cases h with ⟨_, hdone, -⟩ | ⟨p, session, ht, ⟨_, hdone, -⟩ | ⟨hretry, hreply⟩⟩
  · cases hdone
  · cases hdone
  · obtain ⟨hexclusive, items, pieces, hscan, hline, ⟨before, hpieces, hquiet⟩, hshown⟩ :=
      hs.pumps ht.pumped
    have hconsidered : Hearing script (s.considered p session) := by
      refine ⟨hexclusive, items, ?_, hline, fun q hq => ?_⟩
      · change _ = items ++ remaining p.stream session.incoming
        rw [hscan, ht.incoming]
      · rw [hpieces] at hq
        rcases List.mem_append.mp hq with hq | hq
        · exact hquiet q hq
        · refine Option.bind_eq_none_iff.mpr fun line hq' => hreply line ?_
          have hmem : line ∈ p.event.lines := by
            rw [← hshown]
            exact List.mem_filterMap.mpr ⟨q, hq, hq'⟩
          cases hevent : p.event <;> simp_all [PumpEvent.lines]
    rcases @attachRetry_cases σ env policy (s.considered p session) with
      ⟨-, hcase⟩ | ⟨-, ⟨_, hcase, -⟩ | ⟨_, hcase⟩⟩
    · rw [hcase] at hretry
      cases hretry
      exact hconsidered
    · rw [hcase] at hretry
      cases hretry
    · rw [hcase] at hretry
      cases hretry
      exact hconsidered

end Runs

/-- Behind these events the next byte begins a line, in the text that the node sent and in the
buffer, and nothing has answered the command. -/
def InStep (link : List Byte) : Prop :=
  ∃ seen sent : List Item, LineStart sent ∧ Console.start.after seen = Console.start ∧
    (∀ p ∈ Console.start.pieces seen, p.reply = none) ∧
    ∀ rest, scan false (link ++ rest) = seen ++ scan false rest ∧
      deviceItems (link ++ rest) = sent ++ deviceItems rest

/-- The first piece that answers the command, in steady events from a line start on. -/
def Heard (script : List Byte) (p : Piece) : Prop :=
  ∃ before link rest, script = before ++ (link ++ rest) ∧ InStep before ∧ Steady false link ∧
    firstReply (Console.start.pieces (deviceItems link)) = some p

theorem Heard.first {script : List Byte} {p : Piece} (h : Heard script p) :
    firstReply (Console.start.pieces (scan false script)) = some p ∧
      p.Stands (deviceItems script) := by
  obtain ⟨before, link, rest, rfl, ⟨seen, sent, hstart, hafter, hquiet, hboth⟩, hsteady, hfirst⟩ :=
    h
  obtain ⟨m, hscan, hdevice⟩ := hsteady.device
  constructor
  · rw [(hboth _).1, hscan, Console.pieces_append, hafter, firstReply_append hquiet,
      Console.pieces_append]
    exact firstReply_left hfirst
  · rw [(hboth _).2, hdevice, ← List.append_assoc]
    exact (pieces_stand (start_tracks hstart) (firstReply_mem hfirst).1).append

def replyBytes : Bytes :=
  [0x4f, 0x4b, 0x20, 0x66, 0x6f, 0x6c, 0x64, 0x65, 0x72, 0x20, 0x61, 0x74, 0x74, 0x61, 0x63, 0x68,
    0x65, 0x64, 0x0a]

/-- The bytes that begin a line; `start` tells whether the next item does. -/
def lineHeads (start : Bool) : List Item → Bytes
  | [] => []
  | .text b :: items => (if start then [b] else []) ++ lineHeads (b == 0x0a) items
  | _ :: items => lineHeads true items

theorem mem_lineHeads {start : Bool} {front items : List Item} {b : UInt8}
    (h : front = [] ∧ start = true ∨
      ∃ before last, front = before ++ [last] ∧ (last = .text 0x0a ∨ last.isText = false)) :
    b ∈ lineHeads start (front ++ .text b :: items) := by
  induction front generalizing start with
  | nil =>
    rcases h with ⟨-, rfl⟩ | ⟨before, last, hfront, -⟩
    · exact List.mem_cons_self
    · exact absurd hfront (by simp)
  | cons item front ih =>
    obtain ⟨before, last, hfront, hlast⟩ : ∃ before last, item :: front = before ++ [last] ∧
        (last = .text 0x0a ∨ last.isText = false) := by
      rcases h with ⟨hnil, -⟩ | hlast
      · cases hnil
      · exact hlast
    have hrest : ∀ next, (front = [] → next = true) →
        b ∈ lineHeads next (front ++ .text b :: items) := by
      intro next hnext
      refine ih ?_
      cases before with
      | nil => exact .inl ⟨(List.cons.inj hfront).2, hnext (List.cons.inj hfront).2⟩
      | cons first before => exact .inr ⟨before, last, (List.cons.inj hfront).2, hlast⟩
    have hfirst : front = [] → item = last := by
      rintro rfl
      cases before with
      | nil => exact List.singleton_inj.mp hfront
      | cons first before => exact absurd hfront (by simp)
    cases item with
    | text d =>
      refine List.mem_append_right _ (hrest _ fun hnil => ?_)
      have hd := hfirst hnil
      subst hd
      rcases hlast with hnewline | htext
      · cases hnewline
        rfl
      · cases htext
    | request op args => exact hrest true fun _ => rfl
    | damaged => exact hrest true fun _ => rfl

theorem Acknowledged.head {items : List Item} (h : Acknowledged items) :
    ∃ b ∈ lineHeads true items, isWhitespace (asChar b) = true ∨ b = 0x2d ∨ b = 0x4f := by
  obtain ⟨front, rest, line, rfl, hfront, lead, marker, words, tail, rfl, hlead, hmarker, hwords,
    -⟩ := h
  have hhead : ∀ b more, lead ++ marker ++ words ++ tail = b :: more →
      b ∈ lineHeads true (front ++ (lead ++ marker ++ words ++ tail).map .text ++ rest) := by
    intro b more hline
    rw [hline, List.append_assoc]
    exact mem_lineHeads (hfront.imp (fun hnil => ⟨hnil, rfl⟩) id)
  obtain ⟨first, spoken, rfl, hspoken⟩ :
      ∃ first spoken, words = first :: spoken ∧ first = 0x4f := by
    cases words with
    | nil => rcases hwords with hnil | hnil <;> cases hnil
    | cons first spoken =>
      refine ⟨first, spoken, rfl, asChar_injective ?_⟩
      rcases hwords with hchars | hchars <;> exact (List.cons.inj hchars).1
  cases lead with
  | cons b lead => exact ⟨b, hhead b _ rfl, .inl (hlead b List.mem_cons_self)⟩
  | nil =>
    rcases hmarker with rfl | hmarker
    · exact ⟨first, hhead first _ rfl, .inr (.inr hspoken)⟩
    · cases marker with
      | nil => cases hmarker
      | cons b marker =>
        exact ⟨b, hhead b _ rfl, .inr (.inl (asChar_injective (List.cons.inj hmarker).1))⟩

end MotaTool.Serve
