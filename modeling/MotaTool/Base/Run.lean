import Mathlib.Data.List.Basic
import Mathlib.Tactic.Common

/-!
# Runs that may fail, panic or exhaust their fuel

A run either returns a value, returns an error carrying its chain of context
messages (outermost first), panics, or stops because a loop used up its fuel.
The four outcomes are kept apart, so that "returns", "returns an error" and
"does not panic" are separate statements. `Yields` is total correctness,
`Returns` excludes the two abnormal outcomes, and both compose along bind.
-/

namespace MotaTool.Base

inductive Fault
  | error (chain : List String)
  | panic
  | spin
  deriving DecidableEq, Repr

universe u

abbrev Run (α : Type u) := Except Fault α

variable {α β : Type u}

namespace Run

def bail (msg : String) : Run α := .error (.error [msg])

def panic : Run α := .error .panic

def ensure (c : Prop) [Decidable c] (msg : String) : Run Unit :=
  if c then .ok () else bail msg

/-- A condition whose failure is a panic. -/
def assert (c : Prop) [Decidable c] : Run Unit := if c then .ok () else panic

def ofOption (o : Option α) (msg : String) : Run α :=
  match o with
  | some a => .ok a
  | none => bail msg

/-- A value that the source unwraps: its absence is a panic. -/
def unwrap (o : Option α) : Run α :=
  match o with
  | some a => .ok a
  | none => panic

def context (msg : String) (x : Run α) : Run α :=
  match x with
  | .error (.error chain) => .error (.error (msg :: chain))
  | other => other

def mapChain (f : List String → List String) (x : Run α) : Run α :=
  match x with
  | .error (.error chain) => .error (.error (f chain))
  | other => other

@[simp] theorem pure_eq (a : α) : (pure a : Run α) = .ok a := rfl

@[simp] theorem ok_bind (a : α) (f : α → Run β) : ((.ok a : Run α) >>= f) = f a := rfl

@[simp] theorem error_bind (e : Fault) (f : α → Run β) :
    ((.error e : Run α) >>= f) = .error e := rfl

theorem bind_eq_ok {x : Run α} {f : α → Run β} {b : β} :
    (x >>= f) = .ok b ↔ ∃ a, x = .ok a ∧ f a = .ok b := by
  cases x with
  | error e => simp
  | ok a => simp

theorem exists_ok {x : Run α} (h : x.isOk = true) : ∃ a, x = .ok a := by
  cases x with
  | ok a => exact ⟨a, rfl⟩
  | error e => cases h

theorem exists_any {x : Run α} {f : α → Bool} (h : x.toOption.any f = true) :
    ∃ a, x = .ok a ∧ f a = true := by
  cases x with
  | ok a => exact ⟨a, rfl, h⟩
  | error e => cases h

theorem exists_unit {p : Unit → Prop} : (∃ u, p u) ↔ p () := ⟨fun ⟨_, h⟩ => h, fun h => ⟨(), h⟩⟩

@[simp] theorem ensure_eq_ok {c : Prop} [Decidable c] {msg : String} {u : Unit} :
    ensure c msg = .ok u ↔ c := by
  unfold ensure bail
  split_ifs with h <;> simp [h]

theorem ensure_of {c : Prop} [Decidable c] (h : c) (msg : String) : ensure c msg = .ok () :=
  if_pos h

@[simp] theorem assert_eq_ok {c : Prop} [Decidable c] {u : Unit} : assert c = .ok u ↔ c := by
  unfold assert panic
  split_ifs with h <;> simp [h]

theorem assert_of {c : Prop} [Decidable c] (h : c) : assert c = .ok () := if_pos h

@[simp] theorem bail_ne_ok {msg : String} {a : α} : (bail msg : Run α) ≠ .ok a := by
  simp [bail]

@[simp] theorem ofOption_eq_ok {o : Option α} {msg : String} {a : α} :
    ofOption o msg = .ok a ↔ o = some a := by
  cases o <;> simp [ofOption, bail]

@[simp] theorem unwrap_eq_ok {o : Option α} {a : α} : unwrap o = .ok a ↔ o = some a := by
  cases o <;> simp [unwrap, panic]

@[simp] theorem context_eq_ok {msg : String} {x : Run α} {a : α} :
    context msg x = .ok a ↔ x = .ok a := by
  cases x with
  | ok b => rfl
  | error e => cases e <;> simp [context]

@[simp] theorem mapChain_eq_ok {f : List String → List String} {x : Run α} {a : α} :
    mapChain f x = .ok a ↔ x = .ok a := by
  cases x with
  | ok b => rfl
  | error e => cases e <;> simp [mapChain]

end Run

open Run

def Yields (x : Run α) (post : α → Prop) : Prop := ∃ a, x = .ok a ∧ post a

theorem Yields.bind {x : Run α} {f : α → Run β} {post : α → Prop} {goal : β → Prop}
    (hx : Yields x post) (hf : ∀ a, post a → Yields (f a) goal) : Yields (x >>= f) goal := by
  obtain ⟨a, rfl, ha⟩ := hx
  exact hf a ha

theorem Yields.mono {x : Run α} {post goal : α → Prop} (hx : Yields x post)
    (h : ∀ a, post a → goal a) : Yields x goal := by
  obtain ⟨a, rfl, ha⟩ := hx
  exact ⟨a, rfl, h a ha⟩

theorem Yields.ok {a : α} {post : α → Prop} (h : post a) : Yields (.ok a) post := ⟨a, rfl, h⟩

theorem Yields.of_ok {x : Run α} {post : α → Prop} {a : α} (h : Yields x post) (hx : x = .ok a) :
    post a := by
  obtain ⟨b, hb, hpost⟩ := h
  obtain rfl : b = a := Except.ok.inj (hb.symm.trans hx)
  exact hpost

theorem mapM_yields {f : α → Run β} {post : α → β → Prop} {l : List α}
    (h : ∀ a ∈ l, Yields (f a) (post a)) :
    Yields (l.mapM f) fun bs => List.Forall₂ post l bs := by
  induction l with
  | nil => exact Yields.ok .nil
  | cons a l ih =>
    rw [List.mapM_cons]
    refine (h a List.mem_cons_self).bind fun b hb => ?_
    refine (ih fun c hc => h c (List.mem_cons_of_mem a hc)).bind fun bs hbs => ?_
    exact Yields.ok (.cons hb hbs)

theorem foldlM_count_yields {f : β → ℕ → Run β} (inv : ℕ → β → Prop) {lo count : ℕ} {b : β}
    (h : ∀ b i, i < count → inv i b → Yields (f b (lo + i)) (inv (i + 1))) (hb : inv 0 b) :
    Yields ((List.range' lo count).foldlM f b) (inv count) := by
  induction count with
  | zero => exact Yields.ok hb
  | succ count ih =>
    rw [List.range'_1_concat, List.foldlM_append]
    refine (ih fun b i hi => h b i (by omega)).bind fun c hc => ?_
    refine (h c count (by omega) hc).bind fun d hd => Yields.ok hd

theorem foldlM_keeps {f : β → α → Run β} (inv : β → Prop) {l : List α} {b r : β}
    (h : ∀ b a b', a ∈ l → inv b → f b a = .ok b' → inv b') (hb : inv b)
    (hr : l.foldlM f b = .ok r) : inv r := by
  induction l generalizing b with
  | nil =>
    rw [List.foldlM_nil, pure_eq, Except.ok.injEq] at hr
    exact hr ▸ hb
  | cons a l ih =>
    rw [List.foldlM_cons, bind_eq_ok] at hr
    obtain ⟨b', hstep, hrest⟩ := hr
    exact ih (fun b c d hc => h b c d (List.mem_cons_of_mem a hc))
      (h b a b' List.mem_cons_self hb hstep) hrest

/-- The run ends normally: with a value or with a reported error. -/
def Returns (x : Run α) : Prop := x ≠ .error .panic ∧ x ≠ .error .spin

@[simp] theorem returns_ok (a : α) : Returns (.ok a : Run α) := by simp [Returns]

@[simp] theorem returns_bail (msg : String) : Returns (bail msg : Run α) := by
  simp [Returns, bail]

@[simp] theorem returns_ensure (c : Prop) [Decidable c] (msg : String) :
    Returns (ensure c msg) := by
  unfold ensure
  split_ifs <;> simp

@[simp] theorem returns_ofOption (o : Option α) (msg : String) : Returns (ofOption o msg) := by
  cases o <;> simp [ofOption]

theorem Returns.mapChain {x : Run α} (h : Returns x) (f : List String → List String) :
    Returns (Run.mapChain f x) := by
  cases x with
  | ok a => exact h
  | error e => cases e <;> simp_all [Returns, Run.mapChain]

theorem Returns.context {x : Run α} (h : Returns x) (msg : String) :
    Returns (Run.context msg x) := by
  cases x with
  | ok a => exact h
  | error e => cases e <;> simp_all [Returns, Run.context]

theorem Returns.fails_iff {x : Run α} (h : Returns x) :
    (∃ chain, x = .error (.error chain)) ↔ ∀ a, x ≠ .ok a := by
  cases x with
  | ok a => simp
  | error e => cases e <;> simp_all [Returns]

theorem Returns.bind {x : Run α} {f : α → Run β} (hx : Returns x)
    (hf : ∀ a, x = .ok a → Returns (f a)) : Returns (x >>= f) := by
  cases x with
  | ok a => exact hf a rfl
  | error e => simpa [Returns] using hx

theorem bind_ne_bail {x : Run α} {f : α → Run β} {msg : String} (hx : x ≠ bail msg)
    (hf : ∀ a, f a ≠ bail msg) : (x >>= f) ≠ bail msg := by
  cases x with
  | ok a => exact hf a
  | error e =>
    intro h
    injection h with he
    exact hx (congrArg Except.error he)

theorem bail_ne_bail {msg other : String} (h : other ≠ msg) : (bail other : Run α) ≠ bail msg := by
  simpa [bail] using h

theorem ensure_ne_bail {c : Prop} [Decidable c] {msg other : String} (h : other ≠ msg) :
    ensure c other ≠ bail msg := by
  unfold ensure
  split_ifs
  · simp [bail]
  · exact bail_ne_bail h

theorem ofOption_ne_bail {o : Option α} {msg other : String} (h : other ≠ msg) :
    ofOption o other ≠ bail msg := by
  cases o with
  | some a => simp [ofOption, bail]
  | none => exact bail_ne_bail h

theorem foldlM_returns {f : β → α → Run β} {l : List α}
    (h : ∀ b, ∀ a ∈ l, Returns (f b a)) (b : β) : Returns (l.foldlM f b) := by
  induction l generalizing b with
  | nil => exact returns_ok b
  | cons a l ih =>
    rw [List.foldlM_cons]
    refine (h b a List.mem_cons_self).bind fun c _ => ?_
    exact ih (fun d e he => h d e (List.mem_cons_of_mem a he)) c

end MotaTool.Base
