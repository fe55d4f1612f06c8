import ShinyCoin.Ramhog.Parallel
import Mathlib.Algebra.BigOperators.Group.Finset.Basic
import Mathlib.Algebra.Order.BigOperators.Group.Finset

/-!
# Every call comes to its end

As long as a call is under way some thread has a step, and each step of a call, its command or its
jobs takes from a finite amount of work. So the calls that have been made return, however the
threads are scheduled, and by then all that was taken has been given back.
-/

namespace ShinyCoin

variable {κ β : Type}

/-! ## The work that is left -/

def JobPhase.work (pool : CRamhogThreadPool) : JobPhase → Nat
  | .none => padChunks pool.C + 4
  | .posted => padChunks pool.C + 3
  | .started _ => padChunks pool.C + 2
  | .generating _ chunk _ => padChunks pool.C - chunk + 1
  | .done _ => 0

def CommandPhase.work (pool : CRamhogThreadPool) : CommandPhase → Nat
  | .none => walkReads pool.N pool.C pool.I + 2 * pool.N.toNat + 6
  | .posted => walkReads pool.N pool.C pool.I + 2 * pool.N.toNat + 5
  | .started _ => walkReads pool.N pool.C pool.I + 2 * pool.N.toNat + 4
  | .posting _ n => walkReads pool.N pool.C pool.I + 2 * pool.N.toNat + 3 - n
  | .waiting _ n _ => walkReads pool.N pool.C pool.I + pool.N.toNat + 2 - n
  | .walking _ rest => rest.length + 1
  | .done _ => 0

def CallPhase.work (pool : CRamhogThreadPool) : CallPhase → Nat
  | .entered => pool.numSimultaneous + 10
  | .checked => pool.numSimultaneous + 9
  | .waiting => pool.numSimultaneous + 8
  | .granted => pool.numSimultaneous + 7
  | .passed => pool.numSimultaneous + 6
  | .scanning i => pool.numSimultaneous - i + 5
  | .picked => 4
  | .awaiting => 3
  | .got _ => 2
  | .cleared _ | .interrupted | .mismatch => 1
  | .idle | .returned _ | .thrown => 0

def CallFrame.work (pool : CRamhogThreadPool) (f : CallFrame β) : Nat :=
  f.phase.work pool + f.command.work pool + ∑ q ∈ Finset.range pool.N.toNat, (f.jobs q).work pool

section

variable {pool : CRamhogThreadPool} {r : RamhogCall} {sh sh' : PoolShared κ β} {f f' : CallFrame β}
  {k : κ}

theorem CallerMove.work_lt [DecidableEq β] (hmove : CallerMove pool k sh f sh' f')
    (hframe : FrameOk pool f) (hidle : f.phase ≠ .idle) : f'.work pool < f.work pool := by
  unfold CallFrame.work
  cases hmove with
  | noWorkers hphase | enter hphase _ _ => exact absurd hphase hidle
  | needCheckBlock hphase | check hphase | readBest hphase | interrupt hphase | pass hphase =>
      simp [hphase, CallFrame.goto, CallPhase.work]
  | giveUp hphase | throw hphase | release hphase =>
      simp [hphase, CallFrame.goto, CallPhase.work]
  | wait hphase _ | lock hphase _ | pick hphase _ _ | noneFree hphase _ | get hphase _
  | clear hphase _ _ =>
      simp [hphase, CallFrame.goto, CallPhase.work]
  | busy hphase hi _ =>
      simp [hphase, CallFrame.goto, CallPhase.work]
      omega
  | post hphase =>
      have hcommand := hframe.command
      rw [hphase] at hcommand
      rw [show f.command = .none from hcommand]
      simp [hphase, CallFrame.goto, CallPhase.work, CommandPhase.work]
      omega

/-- A job that goes on leaves less work for its command. -/
theorem sum_setJob_lt {jobs : Nat → JobPhase} {padIndex : Nat} {job : JobPhase}
    (hlt : padIndex < pool.N.toNat) (hjob : job.work pool < (jobs padIndex).work pool) :
    ∑ q ∈ Finset.range pool.N.toNat, (Function.update jobs padIndex job q).work pool
      < ∑ q ∈ Finset.range pool.N.toNat, (jobs q).work pool := by
  apply Finset.sum_lt_sum
  · intro q _
    by_cases hq : q = padIndex
    · subst hq
      rw [Function.update_self]
      exact hjob.le
    · rw [Function.update_of_ne hq]
  · refine ⟨padIndex, Finset.mem_range.mpr hlt, ?_⟩
    rw [Function.update_self]
    exact hjob

theorem JobMove.work_lt {padIndex : Nat} (hmove : JobMove pool r sh f padIndex sh' f')
    (hframe : FrameOk pool f) : f'.work pool < f.work pool := by
  have hlt := hframe.lt_of_job hmove.under.1
  have hset : ∀ job : JobPhase, job.work pool < (f.jobs padIndex).work pool →
      (f.setJob padIndex job).work pool < f.work pool := fun job hjob =>
    Nat.add_lt_add_left (sum_setJob_lt hlt hjob) _
  cases hmove with
  | take heq | interrupt heq | start heq =>
      apply hset
      simp [heq, JobPhase.work]
  | write heq hchunk _ =>
      apply hset
      simp [heq, JobPhase.work]
      omega
  | finish heq _ =>
      apply hset
      simp [heq, JobPhase.work]

theorem CommandMove.work_lt (hmove : CommandMove pool r sh f f') (hframe : FrameOk pool f) :
    f'.work pool < f.work pool := by
  have hset : ∀ command : CommandPhase, command.work pool < f.command.work pool →
      (f.setCommand command).work pool < f.work pool := fun command hcommand =>
    Nat.add_lt_add_right (Nat.add_lt_add_left hcommand _) _
  have hjobs := hframe.jobs
  cases hmove with
  | take heq | interrupt heq | start heq =>
      apply hset
      simp [heq, CommandPhase.work]
  | @post t n heq hlt =>
      have hnone : f.jobs n = .none := by
        rw [heq] at hjobs
        exact not_not.mp fun hne => Nat.lt_irrefl n ((hjobs.2 n).mp hne)
      refine Nat.add_lt_add_of_le_of_lt ?_ (sum_setJob_lt hlt ?_)
      · simp [heq, CallFrame.setJob, CallFrame.setCommand, CommandPhase.work]
        omega
      · simp [hnone, JobPhase.work]
  | posted heq hle =>
      rw [heq] at hjobs
      have := hjobs.1
      apply hset
      simp [heq, CommandPhase.work]
      omega
  | get heq hlt _ =>
      apply hset
      simp [heq, CommandPhase.work]
      omega
  | fail heq hle =>
      rw [heq] at hjobs
      have := hjobs.1
      apply hset
      simp [heq, CommandPhase.work]
      omega
  | walk heq hle =>
      rw [heq] at hjobs
      have := hjobs.1
      apply hset
      simp [heq, CommandPhase.work, count_runIterationsReads.length_eq]
      omega
  | read heq _ =>
      obtain ⟨n, hcount⟩ := hframe.walk _ _ heq
      have hlength := hcount.length_eq
      cases hcount with
      | read _ hnext =>
          apply hset
          simp [heq, CommandPhase.work, hlength, (hnext _).length_eq]
  | finish heq =>
      refine Nat.add_lt_add_right (Nat.add_lt_add_left ?_ _) _
      simp [heq, CallFrame.setCommand, CommandPhase.work]

end

/-! ## Runs without new calls -/

section

variable [DecidableEq κ] [DecidableEq β] (pool : CRamhogThreadPool) (calls : κ → RamhogCall)

/-- A run in which no further call is made, with the number of steps of the threads -/
inductive QuietRun (s : PoolState κ β) : Nat → PoolState κ β → Prop
  | refl : QuietRun s 0 s
  | thread {n s' s'' k} : QuietRun s n s' → (s'.frames k).phase ≠ .idle →
      ThreadStep pool calls k s' s'' → QuietRun s (n + 1) s''
  | outside {n s' s''} : QuietRun s n s' → OutsideStep s' s'' → QuietRun s n s''

/-- No thread has a step for a call that has been made. -/
def Stuck (s : PoolState κ β) : Prop :=
  ∀ k s', (s.frames k).phase ≠ .idle → ¬ ThreadStep pool calls k s s'

/-- The calls outside have not been made yet. -/
def OnlyCalls (made : Finset κ) (s : PoolState κ β) : Prop :=
  ∀ k, k ∉ made → (s.frames k).phase = .idle

variable {pool calls} {s s' : PoolState κ β} {k : κ} {made : Finset κ} {n : Nat}

omit [DecidableEq β] in
theorem ThreadStep.frames_of_ne [DecidableEq β] (h : ThreadStep pool calls k s s') {k' : κ}
    (hne : k' ≠ k) : s'.frames k' = s.frames k' := by
  obtain ⟨sh, f, -, rfl⟩ | ⟨f, -, rfl⟩ | ⟨padIndex, sh, f, -, rfl⟩ := threadStep_cases h
  all_goals exact PoolState.set_frames_of_ne s hne ..

omit [DecidableEq κ] [DecidableEq β] in
theorem OutsideStep.frames_eq (h : OutsideStep s s') : s'.frames = s.frames := by
  cases h <;> rfl

theorem ThreadStep.work_lt (h : ThreadStep pool calls k s s') (hok : PoolOk pool calls s)
    (hidle : (s.frames k).phase ≠ .idle) : (s'.frames k).work pool < (s.frames k).work pool := by
  obtain ⟨sh, f, hmove, rfl⟩ | ⟨f, hmove, rfl⟩ | ⟨padIndex, sh, f, hmove, rfl⟩ :=
    threadStep_cases h
  · rw [PoolState.set_frames_self]
    exact hmove.work_lt (hok.frames k) hidle
  · rw [PoolState.set_frames_self]
    exact hmove.work_lt (hok.frames k)
  · rw [PoolState.set_frames_self]
    exact hmove.work_lt (hok.frames k)

/-- In any state of a run finitely many calls have been made. -/
theorem PoolReachable.exists_onlyCalls (h : PoolReachable pool calls s) :
    ∃ made, OnlyCalls made s := by
  induction h with
  | init => exact ⟨∅, fun _ _ => rfl⟩
  | @thread s s' k _ hstep ih =>
      obtain ⟨made, hmade⟩ := ih
      refine ⟨insert k made, fun k' hk' => ?_⟩
      rw [Finset.mem_insert, not_or] at hk'
      rw [hstep.frames_of_ne hk'.1]
      exact hmade k' hk'.2
  | outside _ hstep ih =>
      obtain ⟨made, hmade⟩ := ih
      refine ⟨made, fun k hk => ?_⟩
      rw [hstep.frames_eq]
      exact hmade k hk

/-- The steps of the threads are paid for by the work of the calls that have been made. -/
theorem QuietRun.bounded (h : QuietRun pool calls s n s') (hok : PoolOk pool calls s)
    (hmade : OnlyCalls made s) : PoolOk pool calls s' ∧ OnlyCalls made s' ∧
      n + ∑ k ∈ made, (s'.frames k).work pool ≤ ∑ k ∈ made, (s.frames k).work pool := by
  induction h with
  | refl => exact ⟨hok, hmade, by omega⟩
  | @thread n s' s'' k _ hidle hstep ih =>
      obtain ⟨hok', hmade', hle⟩ := ih
      have hmem : k ∈ made := by
        by_contra hk
        exact hidle (hmade' k hk)
      have hlt : ∑ k ∈ made, (s''.frames k).work pool < ∑ k ∈ made, (s'.frames k).work pool := by
        apply Finset.sum_lt_sum
        · intro k' _
          by_cases hk : k' = k
          · subst hk
            exact (hstep.work_lt hok' hidle).le
          · rw [hstep.frames_of_ne hk]
        · exact ⟨k, hmem, hstep.work_lt hok' hidle⟩
      refine ⟨hok'.thread hstep, fun k' hk' => ?_, by omega⟩
      have hne : k' ≠ k := by
        rintro rfl
        exact hk' hmem
      rw [hstep.frames_of_ne hne]
      exact hmade' k' hk'
  | outside _ hstep ih =>
      obtain ⟨hok', hmade', hle⟩ := ih
      refine ⟨hok'.outside hstep, fun k hk => ?_, ?_⟩
      · rw [hstep.frames_eq]
        exact hmade' k hk
      · rw [hstep.frames_eq]
        exact hle

/-! ## Some thread has a step -/

omit [DecidableEq κ] [DecidableEq β] in
theorem PoolOk.whichPad (h : PoolOk pool calls s) (hphase : (s.frames k).phase = .awaiting) :
    ∃ i, (s.frames k).whichPad = some i :=
  h.slots.hasPad k (by rw [hphase]; rfl)

theorem Stuck.caller (hstuck : Stuck pool calls s) (hidle : (s.frames k).phase ≠ .idle) :
    pool.callerStep (calls k) k s.shared (s.frames k) = none := by
  cases hstep : pool.callerStep (calls k) k s.shared (s.frames k) with
  | none => rfl
  | some next => exact absurd (.caller hstep) (hstuck k _ hidle)

theorem Stuck.command (hstuck : Stuck pool calls s) (hidle : (s.frames k).phase ≠ .idle) :
    pool.commandStep (calls k) s.shared (s.frames k) = none := by
  cases hstep : pool.commandStep (calls k) s.shared (s.frames k) with
  | none => rfl
  | some next => exact absurd (.command hstep) (hstuck k _ hidle)

theorem Stuck.job (hstuck : Stuck pool calls s) (hidle : (s.frames k).phase ≠ .idle)
    (padIndex : Nat) : pool.jobStep (calls k) padIndex s.shared (s.frames k) = none := by
  cases hstep : pool.jobStep (calls k) padIndex s.shared (s.frames k) with
  | none => rfl
  | some next => exact absurd (.job hstep) (hstuck k _ hidle)

omit [DecidableEq κ] [DecidableEq β] in
theorem CallFrame.not_idle_of_awaiting {f : CallFrame β} (h : f.phase = .awaiting) : f.phase ≠ .idle := by
  simp [h]

/-- No worker is busy. -/
theorem Stuck.job_thread (hstuck : Stuck pool calls s) (hok : PoolOk pool calls s) (k : κ)
    (padIndex : Nat) : ((s.frames k).jobs padIndex).thread? = none := by
  have hawait : (s.frames k).jobs padIndex ≠ .none → (∀ b, (s.frames k).jobs padIndex ≠ .done b) →
      (s.frames k).phase = .awaiting := (hok.frames k).awaiting_of_job
  cases hjob : (s.frames k).jobs padIndex with
  | none | posted | done b => rfl
  | started t =>
      have hphase := hawait (by simp [hjob]) (by simp [hjob])
      have hstep := hstuck.job (CallFrame.not_idle_of_awaiting hphase) padIndex
      simp only [CRamhogThreadPool.jobStep, hjob] at hstep
      split_ifs at hstep
  | generating t chunk ctx =>
      have hphase := hawait (by simp [hjob]) (by simp [hjob])
      obtain ⟨i, hi⟩ := hok.whichPad hphase
      have hstep := hstuck.job (CallFrame.not_idle_of_awaiting hphase) padIndex
      simp only [CRamhogThreadPool.jobStep, hjob, hi] at hstep
      split_ifs at hstep

/-- No job waits for a worker. -/
theorem Stuck.job_not_posted (hstuck : Stuck pool calls s) (hok : PoolOk pool calls s) (k : κ)
    (padIndex : Nat) : (s.frames k).jobs padIndex ≠ .posted := by
  intro hjob
  have hphase : (s.frames k).phase = .awaiting := by
    apply (hok.frames k).awaiting_of_job
    · exact hjob.trans_ne nofun
    · exact fun b => hjob.trans_ne nofun
  have hidle := CallFrame.not_idle_of_awaiting hphase
  have hworkers := ((hok.frames k).threads hidle (by simp [hphase])).2
  have htake : CRamhogThreadPool.takeJob 0 padIndex (s.frames k)
      = some ((s.frames k).setJob padIndex (.started 0)) := by
    simp [CRamhogThreadPool.takeJob, hjob]
  refine hstuck k _ hidle (.takeJob hworkers (fun k' q => ?_) htake)
  simp [hstuck.job_thread hok]

/-- No command thread is busy. -/
theorem Stuck.command_thread (hstuck : Stuck pool calls s) (hok : PoolOk pool calls s) (k : κ) :
    (s.frames k).command.thread? = none := by
  have hjobs := (hok.frames k).jobs
  have hawait : (s.frames k).command ≠ .none → (∀ b, (s.frames k).command ≠ .done b) →
      (s.frames k).phase = .awaiting := (hok.frames k).awaiting
  cases hcommand : (s.frames k).command with
  | none | posted | done b => rfl
  | started t =>
      have hphase := hawait (by simp [hcommand]) (by simp [hcommand])
      have hstep := hstuck.command (CallFrame.not_idle_of_awaiting hphase)
      simp only [CRamhogThreadPool.commandStep, hcommand] at hstep
      split_ifs at hstep
  | posting t n =>
      have hphase := hawait (by simp [hcommand]) (by simp [hcommand])
      have hstep := hstuck.command (CallFrame.not_idle_of_awaiting hphase)
      simp only [CRamhogThreadPool.commandStep, hcommand] at hstep
      split_ifs at hstep
  | waiting t n fSuccess =>
      have hphase := hawait (by simp [hcommand]) (by simp [hcommand])
      have hstep := hstuck.command (CallFrame.not_idle_of_awaiting hphase)
      rw [hcommand] at hjobs
      simp only [CRamhogThreadPool.commandStep, hcommand] at hstep
      split_ifs at hstep with hlt
      have hthread := hstuck.job_thread hok k n
      have hposted := hstuck.job_not_posted hok k n
      cases hjob : (s.frames k).jobs n with
      | none => exact absurd hjob ((hjobs.2.1 n).mpr hlt)
      | posted => exact absurd hjob hposted
      | started t' | generating t' chunk ctx =>
          rw [hjob] at hthread
          cases hthread
      | done b =>
          rw [hjob] at hstep
          cases hstep
  | walking t rest =>
      have hphase := hawait (by simp [hcommand]) (by simp [hcommand])
      obtain ⟨i, hi⟩ := hok.whichPad hphase
      have hstep := hstuck.command (CallFrame.not_idle_of_awaiting hphase)
      cases rest with
      | done output =>
          simp only [CRamhogThreadPool.commandStep, hcommand] at hstep
          cases hstep
      | read a next =>
          simp only [CRamhogThreadPool.commandStep, hcommand, hi] at hstep
          cases hstep

/-- No command waits for a thread. -/
theorem Stuck.command_not_posted (hstuck : Stuck pool calls s) (hok : PoolOk pool calls s)
    (k : κ) : (s.frames k).command ≠ .posted := by
  intro hcommand
  have hphase : (s.frames k).phase = .awaiting := by
    apply (hok.frames k).awaiting
    · simp [hcommand]
    · simp [hcommand]
  have hidle := CallFrame.not_idle_of_awaiting hphase
  have hsim := ((hok.frames k).threads hidle (by simp [hphase])).1
  have htake : CRamhogThreadPool.takeCommand 0 (s.frames k)
      = some ((s.frames k).setCommand (.started 0)) := by
    simp [CRamhogThreadPool.takeCommand, hcommand]
  refine hstuck k _ hidle (.takeCommand hsim (fun k' => ?_) htake)
  simp [hstuck.command_thread hok]

/-- Nobody has the lock. -/
theorem Stuck.lock_free (hstuck : Stuck pool calls s) (hok : PoolOk pool calls s) :
    s.shared.cs_pickPad = none := by
  cases hlock : s.shared.cs_pickPad with
  | none => rfl
  | some k =>
      have hlocked := (hok.slots.locked k).mpr hlock
      have hstep := hstuck.caller (k := k)
      cases hphase : (s.frames k).phase with
      | scanning i =>
          have := hstep (by simp [hphase])
          simp only [CRamhogThreadPool.callerStep, hphase] at this
          split_ifs at this
      | mismatch => exact absurd hphase (hok.slots.noMismatch k).1
      | _ =>
          rw [hphase] at hlocked
          cases hlocked

/-- Nobody has one of `waitPads`. -/
theorem Stuck.not_takes (hstuck : Stuck pool calls s) (hok : PoolOk pool calls s) (k : κ) :
    (s.frames k).phase.takes = false := by
  have hfree := hstuck.lock_free hok
  have hstep := hstuck.caller (k := k)
  cases hphase : (s.frames k).phase with
  | idle | entered | checked | waiting | returned b | thrown => rfl
  | granted =>
      have := hstep (by simp [hphase])
      simp only [CRamhogThreadPool.callerStep, hphase] at this
      split_ifs at this
  | interrupted | picked | cleared b =>
      have := hstep (by simp [hphase])
      simp only [CRamhogThreadPool.callerStep, hphase] at this
      cases this
  | passed =>
      have := hstep (by simp [hphase])
      simp [CRamhogThreadPool.callerStep, hphase, hfree] at this
  | scanning i =>
      have := (hok.slots.locked k).mp (by rw [hphase]; rfl)
      rw [hfree] at this
      cases this
  | mismatch => exact absurd hphase (hok.slots.noMismatch k).1
  | awaiting =>
      have hcommand := (hok.frames k).command
      have hthread := hstuck.command_thread hok k
      have hposted := hstuck.command_not_posted hok k
      have := hstep (by simp [hphase])
      rw [hphase] at hcommand
      simp only [CRamhogThreadPool.callerStep, hphase] at this
      split at this
      · cases this
      next hnot =>
        cases heq : (s.frames k).command with
        | none => exact absurd heq hcommand
        | posted => exact absurd heq hposted
        | done b => exact absurd heq (hnot b)
        | _ =>
            rw [heq] at hthread
            cases hthread
  | got b =>
      obtain ⟨i, hi⟩ := hok.slots.hasPad k (by rw [hphase]; rfl)
      have := hstep (by simp [hphase])
      simp [CRamhogThreadPool.callerStep, hphase, hi, hfree] at this

/-- When no thread has a step, the calls that have been made are over. -/
theorem Stuck.returned (hstuck : Stuck pool calls s) (hok : PoolOk pool calls s) (k : κ) :
    (s.frames k).phase = .idle ∨ ∃ b, (s.frames k).phase = .returned b := by
  have htakes := hstuck.not_takes hok
  have hmine := htakes k
  have hstep := hstuck.caller (k := k)
  cases hphase : (s.frames k).phase with
  | idle => exact .inl rfl
  | returned b => exact .inr ⟨b, rfl⟩
  | entered =>
      have := hstep (by simp [hphase])
      simp only [CRamhogThreadPool.callerStep, hphase] at this
      split_ifs at this
  | checked =>
      have := hstep (by simp [hphase])
      simp only [CRamhogThreadPool.callerStep, hphase] at this
      cases this
  | waiting =>
      have hthreads := (hok.frames k).threads (by simp [hphase])
        (by simp [hphase])
      have := hstep (by simp [hphase])
      simp only [CRamhogThreadPool.callerStep, hphase] at this
      split_ifs at this with hpos
      have hcounted := hok.slots.counted
      rw [Nat.eq_zero_of_not_pos hpos] at hcounted
      obtain ⟨k', hk'⟩ := hcounted.exists_holder hthreads.1
      rw [htakes k'] at hk'
      cases hk'
  | thrown => exact absurd hphase (hok.slots.noMismatch k).2
  | _ =>
      rw [hphase] at hmine
      cases hmine

/-! ## The pool is correct -/

variable (pool calls)

/-- What `waitPads`, `fPadUsed` and the lock say when nothing is held -/
def PoolState.Released (s : PoolState κ β) : Prop :=
  s.shared.waitPads = pool.numSimultaneous ∧ (∀ i, s.shared.fPadUsed i = false) ∧
    s.shared.cs_pickPad = none

/-- What holds in a state and in the runs from it -/
structure PoolCorrect (s : PoolState κ β) : Prop where
  exclusive : ∀ k k' i, (s.frames k).pad? = some i → (s.frames k').pad? = some i → k = k'
  noMismatch : ∀ k, (s.frames k).phase ≠ .mismatch ∧ (s.frames k).phase ≠ .thrown
  /-- A thread that writes into a pad works for the call that holds it. -/
  writes : ∀ k s' i, ThreadStep pool calls k s s' →
    s'.shared.scratchpads i ≠ s.shared.scratchpads i → (s.frames k).pad? = some i
  /-- As many units are missing as calls have taken and not given back, and the flags that are up
  are those of the calls that hold a pad. -/
  accounts : Lib.Counted pool.numSimultaneous s.shared.waitPads
      (fun f : CallFrame β => f.phase.takes = true) s.frames ∧
    ∀ i, s.shared.fPadUsed i = true ↔ ∃ k, (s.frames k).pad? = some i
  /-- However the threads are scheduled, they stop, and then the calls have returned and given back
  what they took. -/
  releases : ∃ bound, ∀ n s', QuietRun pool calls s n s' →
    n ≤ bound ∧ (Stuck pool calls s' →
      (∀ k, (s'.frames k).phase = .idle ∨ ∃ b, (s'.frames k).phase = .returned b) ∧
        s'.Released pool)
  output : ∀ k, (s.frames k).phase = .returned true → ∃ output,
    (s.frames k).output = some output ∧ ∀ scratchpads, output = ramhog pool.pbkdf2 (calls k).input
      (calls k).output_size pool.N pool.C pool.I scratchpads

variable {pool calls}

theorem Stuck.released (hstuck : Stuck pool calls s) (hok : PoolOk pool calls s) :
    s.Released pool := by
  have htakes := hstuck.not_takes hok
  refine ⟨?_, fun i => ?_, hstuck.lock_free hok⟩
  · obtain ⟨holders, hmem, hcard⟩ := hok.slots.counted
    have hempty : holders = ∅ := by
      apply Finset.eq_empty_of_forall_notMem
      intro k hk
      have htrue : (s.frames k).phase.takes = true := (hmem k).mp hk
      rw [htakes k] at htrue
      cases htrue
    rw [hempty] at hcard
    simpa using hcard
  · cases hused : s.shared.fPadUsed i with
    | false => rfl
    | true =>
        obtain ⟨k, hk⟩ := hok.slots.owned.owner hused
        have := CallPhase.takes_of_hasPad (CallFrame.pad?_eq_some.mp hk).1
        rw [htakes k] at this
        cases this

theorem PoolOk.thread_writes (hok : PoolOk pool calls s) (hstep : ThreadStep pool calls k s s')
    {i : Nat} (hne : s'.shared.scratchpads i ≠ s.shared.scratchpads i) :
    (s.frames k).pad? = some i := by
  obtain ⟨sh, f, hmove, rfl⟩ | ⟨f, hmove, rfl⟩ | ⟨padIndex, sh, f, hmove, rfl⟩ :=
    threadStep_cases hstep
  · have hsame : sh.scratchpads = s.shared.scratchpads := by cases hmove <;> rfl
    rw [PoolState.set_shared, hsame] at hne
    exact absurd rfl hne
  · exact absurd rfl hne
  · exact hok.writes hmove hne

omit [DecidableEq κ] [DecidableEq β] in
/-- A call that has returned true has the output of its command. -/
theorem PoolOk.output (hok : PoolOk pool calls s) (hphase : (s.frames k).phase = .returned true) :
    ∃ output, (s.frames k).output = some output ∧ ∀ scratchpads, output = ramhog pool.pbkdf2
      (calls k).input (calls k).output_size pool.N pool.C pool.I scratchpads := by
  have hcommand := (hok.frames k).command
  rw [hphase] at hcommand
  obtain hdone | ⟨-, hfalse⟩ := hcommand
  · exact (hok.memory k).output hdone
  · cases hfalse

/-- In every run of the pool, for any number of calls: a pad is held by one call at a time, the
semaphore and the flags never get out of step, nobody writes into the pad of another call, every
call gives back what it took, and one that returns true has written the hash that one thread alone
would have computed. -/
theorem poolCorrect_of_reachable (h : PoolReachable pool calls s) : PoolCorrect pool calls s where
  exclusive := fun k k' i hk hk' => h.ok.slots.owned.exclusive hk hk'
  noMismatch := h.ok.slots.noMismatch
  writes := fun k s' i hstep hne => h.ok.thread_writes hstep hne
  accounts := ⟨h.ok.slots.counted, fun i => ⟨fun hused => h.ok.slots.owned.owner hused,
    fun ⟨_, hk⟩ => (h.ok.slots.owned.used_of_slot hk).2⟩⟩
  releases := by
    obtain ⟨made, hmade⟩ := h.exists_onlyCalls
    refine ⟨∑ k ∈ made, (s.frames k).work pool, fun n s' hrun => ?_⟩
    obtain ⟨hok', -, hle⟩ := hrun.bounded h.ok hmade
    exact ⟨by omega, fun hstuck => ⟨hstuck.returned hok', hstuck.released hok'⟩⟩
  output := fun k hphase => h.ok.output hphase

end

/-! ## A call that has been given a pad -/

def samplePool : CRamhogThreadPool where
  pbkdf2 := .keep
  N := 1
  C := 33
  I := 27
  numSimultaneous := 1
  numWorkers := 1
  N_pos := by decide
  N_le := by decide
  C_ge := by decide

def sampleCall : RamhogCall where
  input := []
  output_size := 32
  fForMiner := true

/-- The call makes its next step. -/
def callStep (k : Nat) (s : PoolState Nat Nat) : PoolState Nat Nat :=
  match samplePool.callerStep sampleCall k s.shared (s.frames k) with
  | some (sh, f) => s.set k sh f
  | none => s

/-- The second call waits for the pad that the first one has. -/
def sampleTwoCalls : PoolState Nat Nat :=
  (callStep 1)^[4] ((callStep 0)^[8] (.init samplePool none false fun _ _ _ => 0))

theorem reachable_callStep {k : Nat} {s : PoolState Nat Nat}
    (h : PoolReachable samplePool (fun _ => sampleCall) s) :
    PoolReachable samplePool (fun _ => sampleCall) (callStep k s) := by
  unfold callStep
  split
  next sh f hstep => exact .thread h (.caller hstep)
  next => exact h

theorem reachable_callSteps {k n : Nat} {s : PoolState Nat Nat}
    (h : PoolReachable samplePool (fun _ => sampleCall) s) :
    PoolReachable samplePool (fun _ => sampleCall) ((callStep k)^[n] s) := by
  induction n generalizing s with
  | zero => exact h
  | succ n ih => exact ih (reachable_callStep h)

theorem poolCorrect_of_reachable_sampleTwoCalls :
    (sampleTwoCalls.frames 0).pad? = some 0 ∧ (sampleTwoCalls.frames 1).phase = .waiting ∧
      PoolCorrect samplePool (fun _ => sampleCall) sampleTwoCalls :=
  ⟨rfl, rfl, poolCorrect_of_reachable (reachable_callSteps (reachable_callSteps .init))⟩

end ShinyCoin
