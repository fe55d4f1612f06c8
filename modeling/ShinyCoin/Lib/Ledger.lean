import Mathlib.Data.List.Basic
import Mathlib.Tactic.Cases

/-!
# Histories of outputs

Outputs are numbered under a key; a history creates all outputs of a key at once and spends them
one by one. A key may be created again. `NoDoubleSpend` says of a history, in chronological order,
that whatever is spent was created before and not spent since.
-/

namespace Lib

inductive Event (K : Type) where
  /-- The output with this number under this key is spent. -/
  | spend (o : K × Nat)
  /-- The outputs `0, …, n - 1` of the key are created. -/
  | create (k : K) (n : Nat)

variable {K : Type}

/-- The output was created, and since its key was last created nobody spent it. -/
def Available (log : List (Event K)) (o : K × Nat) : Prop :=
  ∃ before n after, log = before ++ .create o.1 n :: after ∧ o.2 < n ∧
    .spend o ∉ after ∧ ∀ n', .create o.1 n' ∉ after

/-- Every output is available when it is spent. -/
def NoDoubleSpend (log : List (Event K)) : Prop :=
  ∀ before o after, log = before ++ .spend o :: after → Available before o

theorem Available.spend {log : List (Event K)} {o o' : K × Nat} (h : Available log o)
    (hne : o ≠ o') : Available (log ++ [.spend o']) o := by
  obtain ⟨before, n, after, rfl, hn, hs, hc⟩ := h
  refine ⟨before, n, after ++ [.spend o'], by simp, hn, ?_, ?_⟩
  · simp [hs, hne]
  · intro n'
    simp [hc n']

theorem Available.create {log : List (Event K)} {o : K × Nat} {k : K} {n : Nat}
    (h : Available log o) (hne : o.1 ≠ k) : Available (log ++ [.create k n]) o := by
  obtain ⟨before, n₀, after, rfl, hn, hs, hc⟩ := h
  refine ⟨before, n₀, after ++ [.create k n], by simp, hn, ?_, ?_⟩
  · simp [hs]
  · intro n'
    simp [hc n', hne]

theorem available_create {log : List (Event K)} {o : K × Nat} {n : Nat} (h : o.2 < n) :
    Available (log ++ [.create o.1 n]) o :=
  ⟨log, n, [], rfl, h, by simp, by simp⟩

theorem noDoubleSpend_nil : NoDoubleSpend ([] : List (Event K)) := by
  intro before o after h
  simp at h

/-- An entry of a history extended by `e` is an entry of the history, or it is `e`. -/
theorem append_singleton_split {e e' : Event K} {log before after : List (Event K)}
    (h : log ++ [e] = before ++ e' :: after) :
    (∃ after', log = before ++ e' :: after') ∨ (before = log ∧ e' = e) := by
  rcases List.eq_nil_or_concat after with rfl | ⟨after', x, rfl⟩
  · right
    have := List.append_inj' h (by simp)
    exact ⟨this.1.symm, by simpa using this.2.symm⟩
  · left
    refine ⟨after', ?_⟩
    rw [List.concat_eq_append, ← List.cons_append, ← List.append_assoc] at h
    exact (List.append_inj' h (by simp)).1

theorem NoDoubleSpend.spend {log : List (Event K)} (h : NoDoubleSpend log) {o : K × Nat}
    (ho : Available log o) : NoDoubleSpend (log ++ [.spend o]) := by
  intro before o' after heq
  rcases append_singleton_split heq with ⟨after', hlog⟩ | ⟨rfl, he⟩
  · exact h before o' after' hlog
  · cases he
    exact ho

theorem NoDoubleSpend.create {log : List (Event K)} (h : NoDoubleSpend log) (k : K) (n : Nat) :
    NoDoubleSpend (log ++ [.create k n]) := by
  intro before o' after heq
  rcases append_singleton_split heq with ⟨after', hlog⟩ | ⟨-, he⟩
  · exact h before o' after' hlog
  · cases he

end Lib
