import MotaTool.Base.Run

/-!
# Loops with early exit

One turn of a loop maps the loop state to the next state or to the value the
loop ends with. `iterate` runs turns until one of them ends the loop; running
out of fuel is the outcome `spin`, distinct from every other. The total rule
turns an invariant and a strictly decreasing measure into a result, and
`Reaches` names the states that stand at the head of the loop.
-/

namespace MotaTool.Base

universe u

inductive Flow (σ ρ : Type u)
  | next (s : σ)
  | done (r : ρ)

variable {σ ρ : Type u}

def iterate (turn : σ → Run (Flow σ ρ)) : ℕ → σ → Run ρ
  | 0, _ => .error .spin
  | fuel + 1, s => do
    match ← turn s with
    | .next s' => iterate turn fuel s'
    | .done r => .ok r

theorem iterate_done {turn : σ → Run (Flow σ ρ)} {s : σ} {r : ρ} {fuel : ℕ}
    (h : turn s = .ok (.done r)) : iterate turn (fuel + 1) s = .ok r := by
  simp [iterate, h]

theorem iterate_next {turn : σ → Run (Flow σ ρ)} {s s' : σ} {fuel : ℕ}
    (h : turn s = .ok (.next s')) : iterate turn (fuel + 1) s = iterate turn fuel s' := by
  simp [iterate, h]

def Flow.Leaves (inv : σ → Prop) (post : ρ → Prop) : Flow σ ρ → Prop
  | .next s => inv s
  | .done r => post r

def Flow.Progress (inv : σ → Prop) (post : ρ → Prop) (μ : σ → ℕ) (s : σ) :
    Flow σ ρ → Prop
  | .next s' => inv s' ∧ μ s' < μ s
  | .done r => post r

theorem iterate_yields {turn : σ → Run (Flow σ ρ)} (inv : σ → Prop) (post : ρ → Prop)
    (μ : σ → ℕ) (hturn : ∀ s, inv s → Yields (turn s) (Flow.Progress inv post μ s))
    {fuel : ℕ} {s : σ} (hs : inv s) (hfuel : μ s < fuel) :
    Yields (iterate turn fuel s) post := by
  induction fuel generalizing s with
  | zero => omega
  | succ fuel ih =>
    obtain ⟨f, hf, hp⟩ := hturn s hs
    cases f with
    | done r => exact ⟨r, iterate_done hf, hp⟩
    | next s' =>
      rw [iterate_next hf]
      have hlt := hp.2
      exact ih hp.1 (by omega)

inductive Reaches (turn : σ → Run (Flow σ ρ)) (s : σ) : σ → Prop
  | refl : Reaches turn s s
  | step {t u : σ} : Reaches turn s t → turn t = .ok (.next u) → Reaches turn s u

theorem Reaches.invariant {turn : σ → Run (Flow σ ρ)} {s t : σ} (inv : σ → Prop)
    (hs : inv s) (hnext : ∀ u v, inv u → turn u = .ok (.next v) → inv v)
    (h : Reaches turn s t) : inv t := by
  induction h with
  | refl => exact hs
  | step _ hturn ih => exact hnext _ _ ih hturn

theorem Reaches.head {turn : σ → Run (Flow σ ρ)} {s t u : σ} (h : turn s = .ok (.next t))
    (htu : Reaches turn t u) : Reaches turn s u := by
  induction htu with
  | refl => exact .step .refl h
  | step _ hturn ih => exact .step ih hturn

/-- The states that are reached by turns from states satisfying `safe`. -/
inductive Follows (turn : σ → Run (Flow σ ρ)) (safe : σ → Prop) (s : σ) : σ → Prop
  | refl : Follows turn safe s s
  | step {t u : σ} : Follows turn safe s t → safe t → turn t = .ok (.next u) →
      Follows turn safe s u

theorem Follows.invariant {turn : σ → Run (Flow σ ρ)} {safe : σ → Prop} {s t : σ} (inv : σ → Prop)
    (hs : inv s) (hnext : ∀ u v, inv u → safe u → turn u = .ok (.next v) → inv v)
    (h : Follows turn safe s t) : inv t := by
  induction h with
  | refl => exact hs
  | step _ hsafe hturn ih => exact hnext _ _ ih hsafe hturn

/-- A result of the loop is the result of the turn from some state at its head. -/
theorem iterate_reaches {turn : σ → Run (Flow σ ρ)} {fuel : ℕ} {s : σ} {r : ρ}
    (h : iterate turn fuel s = .ok r) :
    ∃ t, Reaches turn s t ∧ turn t = .ok (.done r) := by
  induction fuel generalizing s with
  | zero => simp [iterate] at h
  | succ fuel ih =>
    rw [iterate, Run.bind_eq_ok] at h
    obtain ⟨f, hf, hrest⟩ := h
    cases f with
    | done q =>
      cases hrest
      exact ⟨s, .refl, hf⟩
    | next s' =>
      obtain ⟨t, hreach, ht⟩ := ih hrest
      exact ⟨t, hreach.head hf, ht⟩

theorem Reaches.follows {turn : σ → Run (Flow σ ρ)} {s t : σ} (h : Reaches turn s t) :
    Follows turn (fun _ => True) s t := by
  induction h with
  | refl => exact .refl
  | step _ hturn ih => exact .step ih trivial hturn

/-- A loop that panics in a state that fails the check took all its turns from states that
pass it. -/
theorem iterate_follows {turn : σ → Run (Flow σ ρ)} {safe : σ → Prop} {check : σ → Bool}
    (hcheck : ∀ s, check s = true → safe s) {fuel : ℕ} {s : σ} {r : ρ}
    (h : iterate (fun s => if check s then turn s else Run.panic) fuel s = .ok r) :
    ∃ t, Follows turn safe s t ∧ safe t ∧ turn t = .ok (.done r) := by
  have hturn : ∀ {u : σ} {flow : Flow σ ρ}, (if check u then turn u else Run.panic) = .ok flow →
      safe u ∧ turn u = .ok flow := by
    intro u flow hu
    split_ifs at hu with hpass
    · exact ⟨hcheck u hpass, hu⟩
    · cases hu
  obtain ⟨t, hreach, hdone⟩ := iterate_reaches h
  refine ⟨t, ?_, hturn hdone⟩
  clear hdone
  induction hreach with
  | refl => exact .refl
  | step _ hnext ih => exact .step ih (hturn hnext).1 (hturn hnext).2

/-- `while cond { body }` as a turn. -/
def whileTurn (cond : σ → Bool) (body : σ → Run σ) (s : σ) : Run (Flow σ σ) :=
  if cond s then body s >>= fun s' => .ok (.next s') else .ok (.done s)

theorem iterate_while_keeps {cond : σ → Bool} {body : σ → Run σ} (inv : σ → Prop)
    (hbody : ∀ s s', inv s → body s = .ok s' → inv s') {fuel : ℕ} {s t : σ} (hs : inv s)
    (h : iterate (whileTurn cond body) fuel s = .ok t) : inv t := by
  obtain ⟨u, hreach, hdone⟩ := iterate_reaches h
  have hu : inv u := by
    refine hreach.invariant inv hs fun v w hv hvw => ?_
    unfold whileTurn at hvw
    split_ifs at hvw
    · obtain ⟨w', hw, hnext⟩ := Run.bind_eq_ok.mp hvw
      cases hnext
      exact hbody v w hv hw
    · cases hvw
  unfold whileTurn at hdone
  split_ifs at hdone
  · obtain ⟨w, -, hw⟩ := Run.bind_eq_ok.mp hdone
    cases hw
  · cases hdone
    exact hu

theorem iterate_while_yields {cond : σ → Bool} {body : σ → Run σ} (inv : σ → Prop) (μ : σ → ℕ)
    (hbody : ∀ s, inv s → cond s = true → Yields (body s) (fun s' => inv s' ∧ μ s' < μ s))
    {fuel : ℕ} {s : σ} (hs : inv s) (hfuel : μ s < fuel) :
    Yields (iterate (whileTurn cond body) fuel s) (fun t => inv t ∧ cond t = false) := by
  refine iterate_yields inv _ μ (fun t ht => ?_) hs hfuel
  by_cases hc : cond t = true
  · obtain ⟨t', hb, hp⟩ := hbody t ht hc
    exact ⟨.next t', by simp [whileTurn, hc, hb], hp⟩
  · have hc' : cond t = false := by simpa using hc
    exact ⟨.done t, by simp [whileTurn, hc'], ht, hc'⟩

end MotaTool.Base
