import Mathlib.Logic.Function.Iterate
import Mathlib.Tactic.Cases

/-!
# Programs that read a memory

A computation that reads a shared memory word by word, other threads in between. `Reads α ν ρ` is
what is left of it: the next address, and how it goes on with the word that is there. `eval` runs
it alone.
-/

namespace Lib

/-- What is left of a computation: it reads words `ν` at addresses `α` and ends with a `ρ`. -/
inductive Reads (α ν ρ : Type) where
  | done (r : ρ)
  | read (a : α) (next : ν → Reads α ν ρ)

namespace Reads

variable {α ν ρ σ : Type}

/-- The result, if the memory does not change meanwhile -/
def eval (mem : α → ν) : Reads α ν ρ → ρ
  | .done r => r
  | .read a next => eval mem (next (mem a))

def bind : Reads α ν ρ → (ρ → Reads α ν σ) → Reads α ν σ
  | .done r, f => f r
  | .read a next, f => .read a fun v => bind (next v) f

/-- Read some addresses in turn. -/
def readAll : List α → Reads α ν (List ν)
  | [] => .done []
  | a :: as => .read a fun v => bind (readAll as) fun vs => .done (v :: vs)

/-- Do a step so many times. -/
def iterate (step : σ → Reads α ν σ) : Nat → σ → Reads α ν σ
  | 0, s => .done s
  | n + 1, s => bind (step s) (iterate step n)

/-- The states after each of so many steps -/
def trace (step : σ → Reads α ν σ) : Nat → σ → Reads α ν (List σ)
  | 0, _ => .done []
  | n + 1, s => bind (step s) fun s => bind (trace step n s) fun rest => .done (s :: rest)

/-! ## What they give -/

variable {mem : α → ν}

@[simp] theorem eval_done (r : ρ) : (done r : Reads α ν ρ).eval mem = r := rfl

@[simp] theorem eval_read (a : α) (next : ν → Reads α ν ρ) :
    (read a next).eval mem = (next (mem a)).eval mem := rfl

@[simp] theorem eval_bind (p : Reads α ν ρ) (f : ρ → Reads α ν σ) :
    (p.bind f).eval mem = (f (p.eval mem)).eval mem := by
  induction p with
  | done r => rfl
  | read a next ih => exact ih (mem a)

@[simp] theorem eval_readAll (as : List α) : (readAll as).eval mem = as.map mem := by
  induction as with
  | nil => rfl
  | cons a as ih => simp [readAll, ih]

theorem eval_iterate (step : σ → Reads α ν σ) (n : Nat) (s : σ) :
    (iterate step n s).eval mem = (fun s => (step s).eval mem)^[n] s := by
  induction n generalizing s with
  | zero => rfl
  | succ n ih => simp [iterate, ih, Function.iterate_succ_apply]

/-! ## How many words they read -/

/-- The program reads so many words, whatever they are. -/
inductive Count : Nat → Reads α ν ρ → Prop
  | done (r : ρ) : Count 0 (.done r)
  | read {n : Nat} {next : ν → Reads α ν ρ} (a : α) (h : ∀ v, Count n (next v)) :
      Count (n + 1) (.read a next)

theorem Count.bind {n m : Nat} {p : Reads α ν ρ} {f : ρ → Reads α ν σ} (hp : Count n p)
    (hf : ∀ r, Count m (f r)) : Count (n + m) (p.bind f) := by
  induction hp with
  | done r =>
      rw [Nat.zero_add]
      exact hf r
  | read a _ ih =>
      rw [Nat.succ_add]
      exact .read a ih

theorem count_readAll (as : List α) : Count as.length (readAll as : Reads α ν (List ν)) := by
  induction as with
  | nil => exact .done []
  | cons a as ih => exact .read a fun v => ih.bind fun vs => .done (v :: vs)

theorem count_iterate {step : σ → Reads α ν σ} {m : Nat} (hstep : ∀ s, Count m (step s)) (n : Nat)
    (s : σ) : Count (n * m) (iterate step n s) := by
  induction n generalizing s with
  | zero =>
      rw [Nat.zero_mul]
      exact .done s
  | succ n ih =>
      rw [Nat.succ_mul, Nat.add_comm]
      exact (hstep s).bind ih

theorem count_trace {step : σ → Reads α ν σ} {m : Nat} (hstep : ∀ s, Count m (step s)) (n : Nat)
    (s : σ) : Count (n * m) (trace step n s) := by
  induction n generalizing s with
  | zero =>
      rw [Nat.zero_mul]
      exact .done []
  | succ n ih =>
      rw [Nat.succ_mul, Nat.add_comm]
      exact (hstep s).bind fun s => (ih s).bind fun rest => .done (s :: rest)

/-- How many words a program reads when all of them are the default -/
def length [Inhabited ν] : Reads α ν ρ → Nat
  | .done _ => 0
  | .read _ next => length (next default) + 1

theorem Count.length_eq [Inhabited ν] {n : Nat} {p : Reads α ν ρ} (h : Count n p) :
    p.length = n := by
  induction h with
  | done r => rfl
  | read a _ ih => exact congrArg (· + 1) (ih default)

end Reads

end Lib
