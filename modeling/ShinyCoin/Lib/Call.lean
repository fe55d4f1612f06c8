import Mathlib.Data.List.Basic
import Mathlib.Tactic.Cases

/-!
# Calls that fail and leave something behind

A C++ routine that works on a shared state either returns, or stops early and leaves the state as
it was at that point. `Call ε σ` is that: the failing case carries the state that is left. Loops
are `List.foldlM` in `Except`, and the rules below are the ones a proof about such a loop uses:
peel a sequence apart (`bind_eq_ok`), carry an invariant to the end (`foldlM_ok_inv`), carry one
to wherever the loop stopped (`foldlM_error_inv`).
-/

namespace Lib

/-- A call on the state `σ`: the state it returns with, or its error and the state it left. -/
abbrev Call (ε σ : Type) := σ → Except (ε × σ) σ

section

variable {ε α β σ : Type}

/-- The state a call leaves, whether it returned or failed. -/
def final (x : Except (ε × σ) σ) : σ :=
  match x with
  | .ok s => s
  | .error (_, s) => s

/-! ## Peeling sequences -/

theorem bind_eq_ok {x : Except ε α} {f : α → Except ε β} {b : β} :
    (x >>= f) = .ok b ↔ ∃ a, x = .ok a ∧ f a = .ok b := by
  cases x <;> simp [bind, Except.bind]

/-- A sequence whose first part returns nothing. -/
theorem seq_eq_ok {x : Except ε Unit} {f : Unit → Except ε β} {b : β} :
    (x >>= f) = .ok b ↔ x = .ok () ∧ f () = .ok b := by
  rw [bind_eq_ok]
  exact ⟨fun ⟨_, h⟩ => h, fun h => ⟨(), h⟩⟩

theorem bind_eq_error {x : Except ε α} {f : α → Except ε β} {e : ε} :
    (x >>= f) = .error e ↔ x = .error e ∨ ∃ a, x = .ok a ∧ f a = .error e := by
  cases x <;> simp [bind, Except.bind]

/-- What holds of the state wherever a sequence ends. -/
theorem final_bind {x : Except (ε × σ) α} {f : α → Except (ε × σ) σ} {P : σ → Prop}
    (herror : ∀ e, x = .error e → P e.2) (hok : ∀ a, x = .ok a → P (final (f a))) :
    P (final (x >>= f)) := by
  cases x with
  | error e => exact herror e rfl
  | ok a => exact hok a rfl

theorem mapError_eq_ok {ε' : Type} {x : Except ε α} {f : ε → ε'} {a : α} :
    x.mapError f = .ok a ↔ x = .ok a := by
  cases x <;> simp [Except.mapError]

theorem mapError_eq_error {ε' : Type} {x : Except ε α} {f : ε → ε'} {e : ε'} :
    x.mapError f = .error e ↔ ∃ e', x = .error e' ∧ f e' = e := by
  cases x <;> simp [Except.mapError]

theorem exists_of_isOk {x : Except ε α} (h : x.isOk = true) : ∃ a, x = .ok a := by
  cases x with
  | error e => exact Bool.noConfusion h
  | ok a => exact ⟨a, rfl⟩

theorem eq_ok_final {x : Except (ε × σ) σ} (h : x.isOk = true) : x = .ok (final x) := by
  obtain ⟨s, rfl⟩ := exists_of_isOk h
  rfl

/-- A check in the middle of a sequence. -/
def require (c : Bool) (e : ε) : Except ε Unit := if c then .ok () else .error e

@[simp] theorem require_eq_ok {c : Bool} {e : ε} {u : Unit} :
    require c e = .ok u ↔ c = true := by
  cases c <;> simp [require]

@[simp] theorem require_eq_error {c : Bool} {e e' : ε} :
    require c e = .error e' ↔ c = false ∧ e = e' := by
  cases c <;> simp [require]

/-! ## Loops -/

/-- What every successful round keeps, the successful loop keeps. The invariant may speak of the
elements still to come. -/
theorem foldlM_ok_inv {f : σ → α → Except ε σ} (I : List α → σ → Prop)
    (step : ∀ a l s s', I (a :: l) s → f s a = .ok s' → I l s') :
    ∀ {l : List α} {s s' : σ}, I l s → l.foldlM f s = .ok s' → I [] s'
  | [], s, s', hI, h => by cases h; exact hI
  | a :: l, s, s', hI, h => by
      rw [List.foldlM_cons, bind_eq_ok] at h
      obtain ⟨s₁, h₁, h₂⟩ := h
      exact foldlM_ok_inv I step (step a l s s₁ hI h₁) h₂

/-- A loop in which every round returns, given what the rounds before it have done. -/
theorem foldlM_total {f : σ → α → Except ε σ} (I : List α → σ → Prop) {l : List α} {s : σ}
    (hstep : ∀ done x rest s, l = done ++ x :: rest → I done s →
      ∃ s', f s x = .ok s' ∧ I (done ++ [x]) s') (hs : I [] s) :
    ∃ s', l.foldlM f s = .ok s' ∧ I l s' := by
  have hloop : ∀ rest done s, l = done ++ rest → I done s →
      ∃ s', rest.foldlM f s = .ok s' ∧ I l s' := by
    intro rest
    induction rest with
    | nil =>
        intro done s hl hI
        rw [List.append_nil] at hl
        exact ⟨s, rfl, hl ▸ hI⟩
    | cons x rest ih =>
        intro done s hl hI
        obtain ⟨s₁, h₁, hI₁⟩ := hstep done x rest s hl hI
        obtain ⟨s₂, h₂, hI₂⟩ := ih (done ++ [x]) s₁ (by simp [hl]) hI₁
        refine ⟨s₂, ?_, hI₂⟩
        rw [List.foldlM_cons]
        exact bind_eq_ok.mpr ⟨s₁, h₁, h₂⟩
  exact hloop l [] s rfl hs

/-- A loop in `Option` in which every round has a result. -/
theorem foldlM_exists {f : σ → α → Option σ} (I : σ → Prop) {l : List α} {s : σ}
    (hstep : ∀ s, ∀ x ∈ l, I s → ∃ s', f s x = some s' ∧ I s') (hs : I s) :
    ∃ s', l.foldlM f s = some s' ∧ I s' := by
  induction l generalizing s with
  | nil => exact ⟨s, rfl, hs⟩
  | cons x l ih =>
      obtain ⟨s₁, h₁, hI₁⟩ := hstep s x List.mem_cons_self hs
      obtain ⟨s₂, h₂, hI₂⟩ := ih (fun s y hy => hstep s y (List.mem_cons_of_mem _ hy)) hI₁
      refine ⟨s₂, ?_, hI₂⟩
      rw [List.foldlM_cons, h₁]
      exact h₂

/-- Two loops with the same rounds -/
theorem foldlM_congr {f g : σ → α → Except ε σ} :
    ∀ {l : List α} {s : σ}, (∀ s, ∀ a ∈ l, f s a = g s a) → l.foldlM f s = l.foldlM g s
  | [], _, _ => rfl
  | a :: l, s, h => by
      rw [List.foldlM_cons, List.foldlM_cons, h s a List.mem_cons_self]
      cases g s a with
      | error e => rfl
      | ok s' => exact foldlM_congr fun s b hb => h s b (List.mem_cons_of_mem _ hb)

/-- The error of a loop is the error of one of its rounds, started from a state that the
successful rounds before it reached. -/
theorem foldlM_error_inv {f : σ → α → Except ε σ} (I : List α → σ → Prop)
    (step : ∀ a l s s', I (a :: l) s → f s a = .ok s' → I l s') :
    ∀ {l : List α} {s : σ} {e : ε}, I l s → l.foldlM f s = .error e →
      ∃ a l' s', I (a :: l') s' ∧ f s' a = .error e
  | [], s, e, _, h => by cases h
  | a :: l, s, e, hI, h => by
      rw [List.foldlM_cons, bind_eq_error] at h
      rcases h with h | ⟨s₁, h₁, h₂⟩
      · exact ⟨a, l, s, hI, h⟩
      · exact foldlM_error_inv I step (step a l s s₁ hI h₁) h₂

/-- What every round keeps, whether it returns or fails, the loop keeps wherever it ends. -/
theorem final_foldlM {f : σ → α → Except (ε × σ) σ} (I : σ → Prop)
    (step : ∀ s a, I s → I (final (f s a))) :
    ∀ (l : List α) {s : σ}, I s → I (final (l.foldlM f s))
  | [], _, hI => hI
  | a :: l, s, hI => by
      have hs := step s a hI
      rw [List.foldlM_cons]
      cases h : f s a with
      | error e => rw [h] at hs; exact hs
      | ok s' => rw [h] at hs; exact final_foldlM I step l hs

/-- A loop whose successful rounds another loop can follow is followed to its end. -/
theorem foldlM_simulates {τ ε' : Type} {f : σ → α → Except ε σ} {g : τ → α → Except ε' τ}
    (R : σ → τ → Prop) :
    ∀ {l : List α}, (∀ a ∈ l, ∀ s t s', R s t → f s a = .ok s' → ∃ t', g t a = .ok t' ∧ R s' t') →
      ∀ {s s' : σ} {t : τ}, R s t → l.foldlM f s = .ok s' → ∃ t', l.foldlM g t = .ok t' ∧ R s' t'
  | [], _, s, s', t, hR, h => by cases h; exact ⟨t, rfl, hR⟩
  | a :: l, step, s, s', t, hR, h => by
      rw [List.foldlM_cons, bind_eq_ok] at h
      obtain ⟨s₁, h₁, h⟩ := h
      obtain ⟨t₁, ht₁, hR₁⟩ := step a List.mem_cons_self s t s₁ hR h₁
      obtain ⟨t', ht', hR'⟩ :=
        foldlM_simulates R (fun b hb => step b (List.mem_cons_of_mem _ hb)) hR₁ h
      exact ⟨t', by rw [List.foldlM_cons, ht₁]; exact ht', hR'⟩

/-- The elements of a loop that were done when a round failed. -/
def passed (f : σ → α → Except ε σ) : σ → List α → List α
  | _, [] => []
  | s, a :: l => match f s a with
      | .error _ => []
      | .ok s' => a :: passed f s' l

theorem passed_of_ok {f : σ → α → Except ε σ} :
    ∀ {l : List α} {s s' : σ}, l.foldlM f s = .ok s' → passed f s l = l
  | [], _, _, _ => rfl
  | a :: l, s, s', h => by
      rw [List.foldlM_cons, bind_eq_ok] at h
      obtain ⟨s₁, h₁, h⟩ := h
      simp only [passed, h₁, passed_of_ok h]

/-- A loop that fails has done what it passed, and then the round that failed. -/
theorem foldlM_error_passed {f : σ → α → Except ε σ} :
    ∀ {l : List α} {s : σ} {e : ε}, l.foldlM f s = .error e →
      ∃ a s', (passed f s l).foldlM f s = .ok s' ∧ f s' a = .error e
  | [], _, _, h => by cases h
  | a :: l, s, e, h => by
      rw [List.foldlM_cons, bind_eq_error] at h
      rcases h with h | ⟨s₁, h₁, h⟩
      · exact ⟨a, s, by simp only [passed, h]; rfl, h⟩
      · obtain ⟨b, s', hs', hb⟩ := foldlM_error_passed h
        refine ⟨b, s', ?_, hb⟩
        simp only [passed, h₁]
        rw [List.foldlM_cons, h₁]
        exact hs'

/-- Two rounds over lists of the same length, element by element. -/
theorem forall₂_comp {γ : Type} {R : α → β → Prop} {S : β → γ → Prop} {T : α → γ → Prop}
    (hT : ∀ a b c, R a b → S b c → T a c) {l₁ : List α} {l₂ : List β} (h : List.Forall₂ R l₁ l₂) :
    ∀ {l₃ : List γ}, List.Forall₂ S l₂ l₃ → List.Forall₂ T l₁ l₃ := by
  induction h with
  | nil =>
      intro l₃ h
      cases h
      exact .nil
  | cons hab _ ih =>
      intro l₃ h
      cases h with
      | cons hbc h => exact .cons (hT _ _ _ hab hbc) (ih h)

/-- A loop of checks passes when every check does. -/
theorem forM_eq_ok {f : α → Except ε Unit} {l : List α} :
    l.forM f = .ok () ↔ ∀ a ∈ l, f a = .ok () := by
  induction l with
  | nil => simp [List.forM, pure, Except.pure]
  | cons a l ih =>
      show (f a >>= fun _ => l.forM f) = .ok () ↔ _
      rw [seq_eq_ok, ih]
      simp

end

end Lib
