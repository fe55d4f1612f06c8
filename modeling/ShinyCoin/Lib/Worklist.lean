import ShinyCoin.Lib.Call

/-!
# Work queues

`for (i = 0; i < queue.size(); i++) visit(queue[i])`, where a visit may push to the end of the queue.
`drain` is that loop with a bound on the number of visits. A bound is enough when every push is paid
for by a measure of the state (`drain_add`); an invariant may speak of the keys that still wait
(`drain_ok_inv`, `drain_isOk`).
-/

namespace Lib

variable {ε σ κ : Type} {visit : σ → κ → Except ε (σ × List κ)}

/-- Visit the keys of the queue in turn, those a visit pushes after all others, at most as many as
the fuel. -/
def drain (visit : σ → κ → Except ε (σ × List κ)) : Nat → List κ → σ → Except ε σ
  | _, [], s => .ok s
  | 0, _ :: _, s => .ok s
  | n + 1, k :: ks, s => do
      let (s', new) ← visit s k
      drain visit n (ks ++ new) s'

@[simp] theorem drain_nil (n : Nat) (s : σ) : drain visit n [] s = .ok s := by
  cases n <;> rfl

theorem drain_cons (n : Nat) (k : κ) (ks : List κ) (s : σ) :
    drain visit (n + 1) (k :: ks) s = (visit s k >>= fun r => drain visit n (ks ++ r.2) r.1) := rfl

/-- A visit pays for what it pushes. -/
def Pays (visit : σ → κ → Except ε (σ × List κ)) (μ : σ → Nat) (I : σ → Prop) : Prop :=
  ∀ k s s' new, I s → visit s k = .ok (s', new) → I s' ∧ μ s' + new.length ≤ μ s

/-- Fuel for the keys that wait and for those that can still be pushed is enough: more changes
nothing. -/
theorem drain_add {μ : σ → Nat} {I : σ → Prop} (hpay : Pays visit μ I) {n : Nat} {ks : List κ}
    {s : σ} (hI : I s) (hn : ks.length + μ s ≤ n) (m : Nat) :
    drain visit (n + m) ks s = drain visit n ks s := by
  induction n generalizing ks s with
  | zero =>
      cases ks with
      | nil => rw [drain_nil, drain_nil]
      | cons k ks => simp at hn
  | succ n ih =>
      cases ks with
      | nil => rw [drain_nil, drain_nil]
      | cons k ks =>
          rw [show n + 1 + m = (n + m) + 1 by omega, drain_cons, drain_cons]
          cases hv : visit s k with
          | error e => rfl
          | ok r =>
              obtain ⟨s', new⟩ := r
              obtain ⟨hI', hle⟩ := hpay k s s' new hI hv
              refine ih hI' ?_
              show (ks ++ new).length + μ s' ≤ n
              rw [List.length_append]
              rw [List.length_cons] at hn
              omega

/-- What every visit keeps, of the state and the keys that wait, holds at the end with no key left. -/
theorem drain_ok_inv {μ : σ → Nat} (I : List κ → σ → Prop)
    (step : ∀ k ks s s' new, I (k :: ks) s → visit s k = .ok (s', new) →
      I (ks ++ new) s' ∧ μ s' + new.length ≤ μ s)
    {n : Nat} {ks : List κ} {s s' : σ} (hI : I ks s) (hn : ks.length + μ s ≤ n)
    (h : drain visit n ks s = .ok s') : I [] s' := by
  induction n generalizing ks s with
  | zero =>
      cases ks with
      | nil =>
          rw [drain_nil] at h
          cases h
          exact hI
      | cons k ks => simp at hn
  | succ n ih =>
      cases ks with
      | nil =>
          rw [drain_nil] at h
          cases h
          exact hI
      | cons k ks =>
          rw [drain_cons, bind_eq_ok] at h
          obtain ⟨⟨s₁, new⟩, hv, h⟩ := h
          obtain ⟨hI₁, hle⟩ := step k ks s s₁ new hI hv
          refine ih hI₁ ?_ h
          rw [List.length_append]
          rw [List.length_cons] at hn
          omega

/-- What every visit keeps of the state holds at the end, however far the loop got. -/
theorem drain_ok_keeps (I : σ → Prop)
    (step : ∀ k s s' new, I s → visit s k = .ok (s', new) → I s')
    {n : Nat} {ks : List κ} {s s' : σ} (hI : I s) (h : drain visit n ks s = .ok s') : I s' := by
  induction n generalizing ks s with
  | zero =>
      cases ks <;>
      · cases h
        exact hI
  | succ n ih =>
      cases ks with
      | nil =>
          cases h
          exact hI
      | cons k ks =>
          rw [drain_cons, bind_eq_ok] at h
          obtain ⟨⟨s₁, new⟩, hv, h⟩ := h
          exact ih (step k s s₁ new hI hv) h

/-- A loop all of whose visits succeed succeeds. -/
theorem drain_isOk {μ : σ → Nat} (I : List κ → σ → Prop)
    (step : ∀ k ks s, I (k :: ks) s →
      ∃ s' new, visit s k = .ok (s', new) ∧ I (ks ++ new) s' ∧ μ s' + new.length ≤ μ s)
    {n : Nat} {ks : List κ} {s : σ} (hI : I ks s) (hn : ks.length + μ s ≤ n) :
    ∃ s', drain visit n ks s = .ok s' ∧ I [] s' := by
  induction n generalizing ks s with
  | zero =>
      cases ks with
      | nil => exact ⟨s, drain_nil _ _, hI⟩
      | cons k ks => simp at hn
  | succ n ih =>
      cases ks with
      | nil => exact ⟨s, drain_nil _ _, hI⟩
      | cons k ks =>
          obtain ⟨s₁, new, hv, hI₁, hle⟩ := step k ks s hI
          have hn₁ : (ks ++ new).length + μ s₁ ≤ n := by
            rw [List.length_append]
            rw [List.length_cons] at hn
            omega
          obtain ⟨s', h, hI'⟩ := ih hI₁ hn₁
          refine ⟨s', ?_, hI'⟩
          rw [drain_cons, hv]
          exact h

/-- The error of the loop is the error of a visit, made from a state the visits before it reached. -/
theorem drain_error_inv (I : List κ → σ → Prop)
    (step : ∀ k ks s s' new, I (k :: ks) s → visit s k = .ok (s', new) → I (ks ++ new) s')
    {n : Nat} {ks : List κ} {s : σ} {e : ε} (hI : I ks s) (h : drain visit n ks s = .error e) :
    ∃ k ks' s', I (k :: ks') s' ∧ visit s' k = .error e := by
  induction n generalizing ks s with
  | zero => cases ks <;> cases h
  | succ n ih =>
      cases ks with
      | nil =>
          rw [drain_nil] at h
          cases h
      | cons k ks =>
          rw [drain_cons, bind_eq_error] at h
          rcases h with h | ⟨⟨s₁, new⟩, hv, h⟩
          · exact ⟨k, ks, s, hI, h⟩
          · exact ih (step k ks s s₁ new hI hv) h

/-! ## A measure -/

/-- One element less that counts. -/
theorem countP_succ_le {α : Type} {p p' : α → Bool} {l : List α} {a : α} (ha : a ∈ l)
    (hp : p a = true) (hp' : p' a = false) (himp : ∀ b ∈ l, p' b = true → p b = true) :
    l.countP p' + 1 ≤ l.countP p := by
  induction l with
  | nil => cases ha
  | cons b l ih =>
      have hl : l.countP p' ≤ l.countP p :=
        List.countP_mono_left fun c hc => himp c (List.mem_cons_of_mem _ hc)
      rw [List.countP_cons, List.countP_cons]
      rcases List.mem_cons.mp ha with rfl | ha
      · rw [hp, hp']
        simp only [Bool.false_eq_true, if_false, if_true]
        omega
      · have := ih ha (fun c hc => himp c (List.mem_cons_of_mem _ hc))
        have hb := himp b List.mem_cons_self
        cases hpb : p' b with
        | false => simp only [Bool.false_eq_true, if_false]; omega
        | true => rw [hb hpb]; omega

end Lib
