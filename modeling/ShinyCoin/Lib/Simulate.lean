import Mathlib.Data.List.Basic

/-!
# Simulation of one machine by another

A machine takes one input after another and answers each. Where a second machine, on an abstraction of
the state, answers the same at each step and comes to the abstraction of the next state, it answers the
same on every run. The step may ask for a condition on the state before it. What every step keeps holds
at the end of a run and before each of its steps.
-/

namespace Lib

section

variable {σ τ ι ω : Type} {exec : σ → ι → σ × ω} {spec : τ → ι → τ × ω} {ok : σ → ι → Prop}
  {abs : σ → τ}

/-- The state at the end of a run, and all the answers -/
def runOps (exec : σ → ι → σ × ω) : σ → List ι → σ × List ω
  | s, [] => (s, [])
  | s, op :: ops =>
      let (s, answer) := exec s op
      let (s, answers) := runOps exec s ops
      (s, answer :: answers)

/-- The condition holds before each step of the run. -/
def Throughout (exec : σ → ι → σ × ω) (ok : σ → ι → Prop) : σ → List ι → Prop
  | _, [] => True
  | s, op :: ops => ok s op ∧ Throughout exec ok (exec s op).1 ops

theorem runOps_simulates
    (hstep : ∀ s op, ok s op → spec (abs s) op = (abs (exec s op).1, (exec s op).2))
    {s : σ} {ops : List ι} (h : Throughout exec ok s ops) :
    runOps spec (abs s) ops = (abs (runOps exec s ops).1, (runOps exec s ops).2) := by
  induction ops generalizing s with
  | nil => rfl
  | cons op ops ih =>
      obtain ⟨hop, hops⟩ := h
      simp only [runOps, hstep s op hop, ih hops]

/-- The abstraction may be a relation that the steps keep. -/
theorem runOps_simulates_of_rel {R : σ → τ → Prop}
    (hstep : ∀ s t op, ok s op → R s t →
      R (exec s op).1 (spec t op).1 ∧ (spec t op).2 = (exec s op).2)
    {s : σ} {t : τ} {ops : List ι} (h : Throughout exec ok s ops) (hR : R s t) :
    R (runOps exec s ops).1 (runOps spec t ops).1 ∧
      (runOps spec t ops).2 = (runOps exec s ops).2 := by
  induction ops generalizing s t with
  | nil => exact ⟨hR, rfl⟩
  | cons op ops ih =>
      obtain ⟨hop, hops⟩ := h
      obtain ⟨hnext, hanswer⟩ := hstep s t op hop hR
      obtain ⟨hlast, hanswers⟩ := ih hops hnext
      exact ⟨hlast, congrArg₂ List.cons hanswer hanswers⟩

variable {inv : σ → Prop} (hinv : ∀ s op, inv s → inv (exec s op).1)

include hinv

/-- What every step keeps holds at the end of every run. -/
theorem runOps_keeps {s : σ} (ops : List ι) (hs : inv s) : inv (runOps exec s ops).1 := by
  induction ops generalizing s with
  | nil => exact hs
  | cons op ops ih => exact ih (hinv s op hs)

/-- Two conditions that agree in the states of the runs agree on the runs. -/
theorem throughout_congr {ok' : σ → ι → Prop} (hok : ∀ s op, inv s → (ok s op ↔ ok' s op))
    {s : σ} (ops : List ι) (hs : inv s) : Throughout exec ok s ops ↔ Throughout exec ok' s ops := by
  induction ops generalizing s with
  | nil => exact Iff.rfl
  | cons op ops ih => exact and_congr (hok s op hs) (ih (hinv s op hs))

end

end Lib
