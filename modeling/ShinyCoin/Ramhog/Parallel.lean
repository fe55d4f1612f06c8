import ShinyCoin.Ramhog.Walk

/-!
# The parallel hash is the sequential one

A call, its command and its jobs go through their phases in step (`FrameOk`): the call waits until
its command is done, and the command until all its jobs are. So only a call that holds its pad has
a job that writes, the pads of a call are its own while its command runs, and what the jobs and the
walk have done so far is what one thread alone would have done (`MemoryOk`).
-/

namespace ShinyCoin

open Lib (Reads)

variable {κ β : Type}

/-! ## What a step of a command or a job does -/

section

variable (pool : CRamhogThreadPool) (r : RamhogCall) (sh : PoolShared κ β) (f : CallFrame β)

/-- The steps of `ramhog_mt` -/
inductive CommandMove : CallFrame β → Prop
  | take {t} : f.command = .posted → CommandMove (f.setCommand (.started t))
  | interrupt {t} : f.command = .started t → CommandMove (f.setCommand (.done false))
  | start {t} : f.command = .started t → CommandMove (f.setCommand (.posting t 0))
  | post {t padIndex} : f.command = .posting t padIndex → padIndex < pool.N.toNat →
      CommandMove ((f.setJob padIndex .posted).setCommand (.posting t (padIndex + 1)))
  | posted {t padIndex} : f.command = .posting t padIndex → pool.N.toNat ≤ padIndex →
      CommandMove (f.setCommand (.waiting t 0 true))
  | get {t padIndex fSuccess b} : f.command = .waiting t padIndex fSuccess →
      padIndex < pool.N.toNat → f.jobs padIndex = .done b →
      CommandMove (f.setCommand (.waiting t (padIndex + 1) (fSuccess && b)))
  | fail {t padIndex} : f.command = .waiting t padIndex false → pool.N.toNat ≤ padIndex →
      CommandMove (f.setCommand (.done false))
  | walk {t padIndex} : f.command = .waiting t padIndex true → pool.N.toNat ≤ padIndex →
      CommandMove (f.setCommand (.walking t
        (runIterationsReads pool.pbkdf2 r.input r.output_size pool.N pool.C pool.I)))
  | read {t a next i} : f.command = .walking t (.read a next) → f.whichPad = some i →
      CommandMove (f.setCommand (.walking t (next (readPads (sh.scratchpads i) a))))
  | finish {t output} : f.command = .walking t (.done output) →
      CommandMove { f.setCommand (.done true) with output := some output }

/-- The steps of `ramhog_gen_pad_mt` -/
inductive JobMove (padIndex : Nat) : PoolShared κ β → CallFrame β → Prop
  | take {t} : f.jobs padIndex = .posted → JobMove padIndex sh (f.setJob padIndex (.started t))
  | interrupt {t} : f.jobs padIndex = .started t →
      JobMove padIndex sh (f.setJob padIndex (.done false))
  | start {t} : f.jobs padIndex = .started t →
      JobMove padIndex sh
        (f.setJob padIndex (.generating t 0 (padSeed pool.pbkdf2 r.input padIndex)))
  | write {t chunk ctx i} : f.jobs padIndex = .generating t chunk ctx →
      chunk < padChunks pool.C → f.whichPad = some i →
      JobMove padIndex
        (sh.setPad i padIndex (genChunk (ctx, sh.scratchpads i padIndex) chunk).2)
        (f.setJob padIndex
          (.generating t (chunk + 1) (genChunk (ctx, sh.scratchpads i padIndex) chunk).1))
  | finish {t chunk ctx} : f.jobs padIndex = .generating t chunk ctx →
      padChunks pool.C ≤ chunk → JobMove padIndex sh (f.setJob padIndex (.done true))

end

section

variable {pool : CRamhogThreadPool} {r : RamhogCall} {sh sh' : PoolShared κ β} {f f' : CallFrame β}

theorem takeCommand_cases {t : Nat} (h : CRamhogThreadPool.takeCommand t f = some f') :
    CommandMove pool r sh f f' := by
  unfold CRamhogThreadPool.takeCommand at h
  split at h
  next hposted =>
    cases h
    exact .take hposted
  next => cases h

theorem takeJob_cases {t padIndex : Nat} (h : CRamhogThreadPool.takeJob t padIndex f = some f') :
    JobMove pool r sh f padIndex sh f' := by
  unfold CRamhogThreadPool.takeJob at h
  split at h
  next hposted =>
    cases h
    exact .take hposted
  next => cases h

variable [DecidableEq β]

theorem commandStep_cases (h : pool.commandStep r sh f = some f') :
    CommandMove pool r sh f f' := by
  unfold CRamhogThreadPool.commandStep at h
  split at h
  next t hstarted =>
    split_ifs at h
    · cases h
      exact .interrupt hstarted
    · cases h
      exact .start hstarted
  next t padIndex hposting =>
    split_ifs at h with hlt
    · cases h
      exact .post hposting hlt
    · cases h
      exact .posted hposting (Nat.le_of_not_lt hlt)
  next t padIndex fSuccess hwaiting =>
    split_ifs at h with hlt hok
    · split at h
      next b hdone =>
        cases h
        exact .get hwaiting hlt hdone
      next => cases h
    · cases h
      subst hok
      exact .walk hwaiting (Nat.le_of_not_lt hlt)
    · cases h
      rw [Bool.not_eq_true] at hok
      subst hok
      exact .fail hwaiting (Nat.le_of_not_lt hlt)
  next t a next hwalking =>
    split at h
    next i hpad =>
      cases h
      exact .read hwalking hpad
    next => cases h
  next t output hwalking =>
    cases h
    exact .finish hwalking
  next => cases h

theorem jobStep_cases {padIndex : Nat} (h : pool.jobStep r padIndex sh f = some (sh', f')) :
    JobMove pool r sh f padIndex sh' f' := by
  unfold CRamhogThreadPool.jobStep at h
  split at h
  next t hstarted =>
    split_ifs at h
    · cases h
      exact .interrupt hstarted
    · cases h
      exact .start hstarted
  next t chunk ctx hgenerating =>
    split_ifs at h with hlt
    · split at h
      next i hpad =>
        cases h
        exact .write hgenerating hlt hpad
      next => cases h
    · cases h
      exact .finish hgenerating (Nat.le_of_not_lt hlt)
  next => cases h

variable [DecidableEq κ] {calls : κ → RamhogCall} {k : κ} {s s' : PoolState κ β}

/-- A step is one of the call, of its command or of one of its jobs. -/
theorem threadStep_cases (h : ThreadStep pool calls k s s') :
    (∃ sh f, CallerMove pool k s.shared (s.frames k) sh f ∧ s' = s.set k sh f) ∨
    (∃ f, CommandMove pool (calls k) s.shared (s.frames k) f ∧ s' = s.set k s.shared f) ∨
    ∃ padIndex sh f, JobMove pool (calls k) s.shared (s.frames k) padIndex sh f ∧
      s' = s.set k sh f := by
  cases h with
  | caller h => exact .inl ⟨_, _, callerStep_cases h, rfl⟩
  | takeCommand _ _ h => exact .inr (.inl ⟨_, takeCommand_cases h, rfl⟩)
  | command h => exact .inr (.inl ⟨_, commandStep_cases h, rfl⟩)
  | takeJob _ _ h => exact .inr (.inr ⟨_, _, _, takeJob_cases h, rfl⟩)
  | job h => exact .inr (.inr ⟨_, _, _, jobStep_cases h, rfl⟩)

end

/-! ## A call, its command and its jobs -/

/-- How far the command can be while the call is where it is -/
def CallPhase.Allows : CallPhase → CommandPhase → Prop
  | .awaiting, command => command ≠ .none
  | .got b, command | .cleared b, command => command = .done b
  | .returned b, command => command = .done b ∨ (command = .none ∧ b = false)
  | _, command => command = .none

/-- How far the jobs can be while the command is where it is -/
def CommandPhase.Allows (N : Nat) (jobs : Nat → JobPhase) : CommandPhase → Prop
  | .none | .posted | .started _ => ∀ padIndex, jobs padIndex = .none
  | .posting _ n => n ≤ N ∧ ∀ padIndex, jobs padIndex ≠ .none ↔ padIndex < n
  | .waiting _ n fSuccess =>
      n ≤ N ∧ (∀ padIndex, jobs padIndex ≠ .none ↔ padIndex < N) ∧
        ∀ padIndex < n, ∃ b, jobs padIndex = .done b ∧ (fSuccess = true → b = true)
  | .walking _ _ => ∀ padIndex, jobs padIndex = if padIndex < N then .done true else .none
  | .done _ =>
      ∀ padIndex, jobs padIndex = .none ∨ padIndex < N ∧ ∃ b, jobs padIndex = .done b

structure FrameOk (pool : CRamhogThreadPool) (f : CallFrame β) : Prop where
  command : f.phase.Allows f.command
  jobs : f.command.Allows pool.N.toNat f.jobs
  threads : f.phase ≠ .idle → (∀ b, f.phase ≠ .returned b) →
    0 < pool.numSimultaneous ∧ 0 < pool.numWorkers
  walk : ∀ t rest, f.command = .walking t rest → ∃ n, rest.Count n

section

variable {pool : CRamhogThreadPool} {r : RamhogCall} {sh sh' : PoolShared κ β} {f f' : CallFrame β}
  {k : κ}

theorem FrameOk.init : FrameOk pool (CallFrame.init : CallFrame β) where
  command := rfl
  jobs := fun _ => rfl
  threads := fun h => absurd rfl h
  walk := nofun

/-- A command that is under way has a call that waits for it. -/
theorem FrameOk.awaiting (h : FrameOk pool f) (hnone : f.command ≠ .none)
    (hdone : ∀ b, f.command ≠ .done b) : f.phase = .awaiting := by
  have hcommand := h.command
  cases hphase : f.phase with
  | awaiting => rfl
  | got b | cleared b =>
      rw [hphase] at hcommand
      exact absurd hcommand (hdone b)
  | returned b =>
      rw [hphase] at hcommand
      obtain heq | ⟨heq, -⟩ := hcommand
      · exact absurd heq (hdone b)
      · exact absurd heq hnone
  | _ =>
      rw [hphase] at hcommand
      exact absurd hcommand hnone

/-- A job under way has a command under way. -/
theorem FrameOk.running (h : FrameOk pool f) {padIndex : Nat} (hnone : f.jobs padIndex ≠ .none)
    (hdone : ∀ b, f.jobs padIndex ≠ .done b) :
    (∃ t n, f.command = .posting t n) ∨ ∃ t n fSuccess, f.command = .waiting t n fSuccess := by
  have hjobs := h.jobs
  cases hcommand : f.command with
  | none | posted | started t =>
      rw [hcommand] at hjobs
      exact absurd (hjobs padIndex) hnone
  | posting t n => exact .inl ⟨t, n, rfl⟩
  | waiting t n fSuccess => exact .inr ⟨t, n, fSuccess, rfl⟩
  | walking t rest =>
      rw [hcommand] at hjobs
      have hjob := hjobs padIndex
      split_ifs at hjob
      · exact absurd hjob (hdone true)
      · exact absurd hjob hnone
  | done fSuccess =>
      rw [hcommand] at hjobs
      obtain heq | ⟨-, b, heq⟩ := hjobs padIndex
      · exact absurd heq hnone
      · exact absurd heq (hdone b)

theorem FrameOk.awaiting_of_job (h : FrameOk pool f) {padIndex : Nat}
    (hnone : f.jobs padIndex ≠ .none) (hdone : ∀ b, f.jobs padIndex ≠ .done b) :
    f.phase = .awaiting := by
  obtain ⟨t, n, heq⟩ | ⟨t, n, fSuccess, heq⟩ := h.running hnone hdone
  · exact h.awaiting (by rw [heq]; exact nofun) (by rw [heq]; exact nofun)
  · exact h.awaiting (by rw [heq]; exact nofun) (by rw [heq]; exact nofun)

theorem FrameOk.lt_of_job (h : FrameOk pool f) {padIndex : Nat} (hjob : f.jobs padIndex ≠ .none) :
    padIndex < pool.N.toNat := by
  have hjobs := h.jobs
  cases hcommand : f.command with
  | none | posted | started t =>
      rw [hcommand] at hjobs
      exact absurd (hjobs padIndex) hjob
  | posting t n =>
      rw [hcommand] at hjobs
      exact Nat.lt_of_lt_of_le ((hjobs.2 padIndex).mp hjob) hjobs.1
  | waiting t n fSuccess =>
      rw [hcommand] at hjobs
      exact (hjobs.2.1 padIndex).mp hjob
  | walking t rest =>
      rw [hcommand] at hjobs
      by_contra hge
      exact hjob ((hjobs padIndex).trans (if_neg hge))
  | done fSuccess =>
      rw [hcommand] at hjobs
      obtain heq | ⟨hlt, -⟩ := hjobs padIndex
      · exact absurd heq hjob
      · exact hlt

theorem FrameOk.caller [DecidableEq β] (h : FrameOk pool f)
    (hmove : CallerMove pool k sh f sh' f') : FrameOk pool f' := by
  have hcommand := h.command
  have hthreads := h.threads
  cases hmove with
  | noWorkers hphase | needCheckBlock hphase | giveUp hphase =>
      rw [hphase] at hcommand
      exact ⟨.inr ⟨hcommand, rfl⟩, h.jobs, fun _ hne => absurd rfl (hne false), h.walk⟩
  | enter hphase hsim hworkers =>
      rw [hphase] at hcommand
      exact ⟨hcommand, h.jobs, fun _ _ => ⟨hsim, hworkers⟩, h.walk⟩
  | check hphase | readBest hphase | interrupt hphase | pass hphase | throw hphase =>
      rw [hphase] at hcommand hthreads
      exact ⟨hcommand, h.jobs, fun _ _ => hthreads nofun nofun, h.walk⟩
  | wait hphase _ | lock hphase _ | busy hphase _ _ | pick hphase _ _ | noneFree hphase _ =>
      rw [hphase] at hcommand hthreads
      exact ⟨hcommand, h.jobs, fun _ _ => hthreads nofun nofun, h.walk⟩
  | post hphase =>
      have hjobs := h.jobs
      rw [hphase] at hcommand hthreads
      rw [show f.command = .none from hcommand] at hjobs
      exact ⟨nofun, hjobs, fun _ _ => hthreads nofun nofun, nofun⟩
  | get hphase hdone =>
      rw [hphase] at hthreads
      exact ⟨hdone, h.jobs, fun _ _ => hthreads nofun nofun, h.walk⟩
  | clear hphase _ _ =>
      rw [hphase] at hcommand hthreads
      exact ⟨hcommand, h.jobs, fun _ _ => hthreads nofun nofun, h.walk⟩
  | release hphase =>
      rw [hphase] at hcommand
      exact ⟨.inl hcommand, h.jobs, fun _ hne => absurd rfl (hne _), h.walk⟩

/-- A new phase of the command, which the call waits for -/
theorem FrameOk.setCommand (h : FrameOk pool f) (hphase : f.phase = .awaiting)
    {command : CommandPhase} {jobs : Nat → JobPhase} {output : Option Bytes}
    (hne : command ≠ .none) (hjobs : command.Allows pool.N.toNat jobs)
    (hwalk : ∀ t rest, command = .walking t rest → ∃ n, rest.Count n) :
    FrameOk pool { f with command := command, jobs := jobs, output := output } where
  command := by
    show f.phase.Allows command
    rw [hphase]
    exact hne
  jobs := hjobs
  threads := h.threads
  walk := hwalk

theorem CommandMove.awaiting (hmove : CommandMove pool r sh f f') (h : FrameOk pool f) :
    f.phase = .awaiting := by
  cases hmove with
  | take heq | interrupt heq | start heq | finish heq =>
      exact h.awaiting (by rw [heq]; exact nofun) (by rw [heq]; exact nofun)
  | post heq _ | posted heq _ | get heq _ _ | fail heq _ | walk heq _ | read heq _ =>
      exact h.awaiting (by rw [heq]; exact nofun) (by rw [heq]; exact nofun)

theorem FrameOk.commandMove (h : FrameOk pool f) (hmove : CommandMove pool r sh f f') :
    FrameOk pool f' := by
  have hphase := hmove.awaiting h
  have hjobs := h.jobs
  cases hmove with
  | take heq =>
      rw [heq] at hjobs
      exact h.setCommand hphase nofun
        hjobs nofun
  | interrupt heq =>
      rw [heq] at hjobs
      exact h.setCommand hphase nofun
        (fun padIndex => .inl (hjobs padIndex)) nofun
  | start heq =>
      rw [heq] at hjobs
      refine h.setCommand hphase nofun
        ⟨Nat.zero_le _, fun padIndex => ?_⟩ nofun
      exact ⟨fun hne => absurd (hjobs padIndex) hne, nofun⟩
  | @post t n heq hlt =>
      rw [heq] at hjobs
      refine h.setCommand hphase nofun
        ⟨hlt, fun padIndex => ?_⟩ nofun
      show Function.update f.jobs n .posted padIndex ≠ .none ↔ padIndex < n + 1
      by_cases hpad : padIndex = n
      · subst hpad
        rw [Function.update_self]
        exact ⟨fun _ => Nat.lt_succ_self _, fun _ => nofun⟩
      · rw [Function.update_of_ne hpad, hjobs.2 padIndex]
        omega
  | @posted t n heq hle =>
      rw [heq] at hjobs
      obtain rfl : n = pool.N.toNat := Nat.le_antisymm hjobs.1 hle
      exact h.setCommand hphase nofun
        ⟨Nat.zero_le _, hjobs.2, nofun⟩ nofun
  | @get t n fSuccess b heq hlt hdone =>
      rw [heq] at hjobs
      refine h.setCommand hphase nofun
        ⟨hlt, hjobs.2.1, fun padIndex hpad => ?_⟩ nofun
      obtain hpad | rfl := Nat.lt_succ_iff_lt_or_eq.mp hpad
      · obtain ⟨b', heq', hok⟩ := hjobs.2.2 padIndex hpad
        exact ⟨b', heq', fun hand => hok (Bool.and_eq_true_iff.mp hand).1⟩
      · exact ⟨b, hdone, fun hand => (Bool.and_eq_true_iff.mp hand).2⟩
  | @fail t n heq hle =>
      rw [heq] at hjobs
      obtain rfl : n = pool.N.toNat := Nat.le_antisymm hjobs.1 hle
      refine h.setCommand hphase nofun
        (fun padIndex => ?_) nofun
      by_cases hpad : padIndex < pool.N.toNat
      · obtain ⟨b, hb, -⟩ := hjobs.2.2 padIndex hpad
        exact .inr ⟨hpad, b, hb⟩
      · exact .inl (not_not.mp fun hne => hpad ((hjobs.2.1 padIndex).mp hne))
  | @walk t n heq hle =>
      rw [heq] at hjobs
      obtain rfl : n = pool.N.toNat := Nat.le_antisymm hjobs.1 hle
      refine h.setCommand hphase nofun
        (fun padIndex => ?_) fun _ _ hwalking => ?_
      · split_ifs with hpad
        · obtain ⟨b, hb, hok⟩ := hjobs.2.2 padIndex hpad
          rw [hb, hok rfl]
        · exact not_not.mp fun hne => hpad ((hjobs.2.1 padIndex).mp hne)
      · cases hwalking
        exact ⟨_, count_runIterationsReads⟩
  | read heq _ =>
      rw [heq] at hjobs
      refine h.setCommand hphase nofun
        hjobs fun _ _ hwalking => ?_
      cases hwalking
      obtain ⟨n, hcount⟩ := h.walk _ _ heq
      cases hcount with
      | read a hnext => exact ⟨_, hnext _⟩
  | finish heq =>
      rw [heq] at hjobs
      refine h.setCommand hphase nofun
        (fun padIndex => ?_) nofun
      have hjob := hjobs padIndex
      split_ifs at hjob with hpad
      · exact .inr ⟨hpad, true, hjob⟩
      · exact .inl hjob

/-- A job that is under way may go on. -/
theorem CommandPhase.Allows.setJob {command : CommandPhase} {N padIndex : Nat}
    {jobs : Nat → JobPhase} {job : JobPhase} (h : command.Allows N jobs)
    (hunder : (∃ t n, command = .posting t n) ∨ ∃ t n fSuccess, command = .waiting t n fSuccess)
    (hnone : jobs padIndex ≠ .none) (hdone : ∀ b, jobs padIndex ≠ .done b) (hjob : job ≠ .none) :
    command.Allows N (Function.update jobs padIndex job) := by
  have hiff : ∀ q, Function.update jobs padIndex job q ≠ .none ↔ jobs q ≠ .none := by
    intro q
    by_cases hq : q = padIndex
    · subst hq
      rw [Function.update_self]
      exact iff_of_true hjob hnone
    · rw [Function.update_of_ne hq]
  obtain ⟨t, n, rfl⟩ | ⟨t, n, fSuccess, rfl⟩ := hunder
  · exact ⟨h.1, fun q => (hiff q).trans (h.2 q)⟩
  · refine ⟨h.1, fun q => (hiff q).trans (h.2.1 q), fun q hq => ?_⟩
    obtain ⟨b, hb, hok⟩ := h.2.2 q hq
    have hqne : q ≠ padIndex := by
      rintro rfl
      exact hdone b hb
    exact ⟨b, by rw [Function.update_of_ne hqne, hb], hok⟩

/-- A job that makes a step has been posted and is not done. -/
theorem JobMove.under {padIndex : Nat} (hmove : JobMove pool r sh f padIndex sh' f') :
    f.jobs padIndex ≠ .none ∧ ∀ b, f.jobs padIndex ≠ .done b := by
  cases hmove with
  | take heq | interrupt heq | start heq | write heq _ _ | finish heq _ =>
      rw [heq]
      exact ⟨nofun, nofun⟩

theorem FrameOk.jobMove (h : FrameOk pool f) {padIndex : Nat}
    (hmove : JobMove pool r sh f padIndex sh' f') : FrameOk pool f' := by
  obtain ⟨hnone, hdone⟩ := hmove.under
  have hset : ∀ job, job ≠ .none → FrameOk pool (f.setJob padIndex job) := fun job hjob =>
    ⟨h.command, h.jobs.setJob (h.running hnone hdone) hnone hdone hjob, h.threads, h.walk⟩
  cases hmove with
  | take | interrupt | start | write | finish => exact hset _ nofun

end

/-! ## What is in the pads -/

/-- What a job has done to its pad: as much as one thread alone would have done so far -/
def JobPhase.Memory (pool : CRamhogThreadPool) (r : RamhogCall) (padIndex : Nat) (pad : Pad) :
    JobPhase → Prop
  | .generating _ n ctx => n ≤ padChunks pool.C ∧ ∃ before,
      (List.range n).foldl genChunk (padSeed pool.pbkdf2 r.input padIndex, before) = (ctx, pad)
  | .done true => Generated pool.pbkdf2 r.input pool.C padIndex pad
  | _ => True

structure MemoryOk (pool : CRamhogThreadPool) (r : RamhogCall) (scratchpads : Nat → Nat → Pad)
    (f : CallFrame β) : Prop where
  jobs : f.phase = .awaiting → ∀ i, f.whichPad = some i →
    ∀ padIndex, (f.jobs padIndex).Memory pool r padIndex (scratchpads i padIndex)
  walk : f.phase = .awaiting → ∀ i, f.whichPad = some i → ∀ t rest, f.command = .walking t rest →
    rest.eval (readPads (scratchpads i)) = ramhogRunIterations pool.pbkdf2 r.input r.output_size
      pool.N pool.C pool.I (scratchpads i)
  output : f.command = .done true → ∃ output, f.output = some output ∧ ∀ pads,
    output = ramhog pool.pbkdf2 r.input r.output_size pool.N pool.C pool.I pads

section

variable {pool : CRamhogThreadPool} {r : RamhogCall} {sh sh' : PoolShared κ β} {f f' : CallFrame β}
  {k : κ} {scratchpads scratchpads' : Nat → Nat → Pad}

theorem MemoryOk.init : MemoryOk pool r scratchpads (CallFrame.init : CallFrame β) where
  jobs := nofun
  walk := nofun
  output := nofun

/-- The other pads may change. -/
theorem MemoryOk.congr (h : MemoryOk pool r scratchpads f)
    (hsame : f.phase = .awaiting → ∀ i, f.whichPad = some i → scratchpads' i = scratchpads i) :
    MemoryOk pool r scratchpads' f where
  jobs := by
    intro hphase i hi
    rw [hsame hphase i hi]
    exact h.jobs hphase i hi
  walk := by
    intro hphase i hi
    rw [hsame hphase i hi]
    exact h.walk hphase i hi
  output := h.output

theorem MemoryOk.caller [DecidableEq β] (h : MemoryOk pool r sh.scratchpads f)
    (hframe : FrameOk pool f) (hmove : CallerMove pool k sh f sh' f') :
    MemoryOk pool r sh'.scratchpads f' := by
  have hcommand := hframe.command
  cases hmove with
  | post hphase =>
      have hjobs := hframe.jobs
      rw [hphase] at hcommand
      rw [show f.command = .none from hcommand] at hjobs
      refine ⟨fun _ i _ padIndex => ?_, nofun, nofun⟩
      show (f.jobs padIndex).Memory pool r padIndex _
      rw [hjobs padIndex]
      trivial
  | _ => exact ⟨nofun, nofun, h.output⟩

theorem MemoryOk.commandMove (h : MemoryOk pool r sh.scratchpads f) (hframe : FrameOk pool f)
    (hpad : f.phase.hasPad = true → ∃ i, f.whichPad = some i)
    (hmove : CommandMove pool r sh f f') : MemoryOk pool r sh.scratchpads f' := by
  have hphase := hmove.awaiting hframe
  have hjobs := h.jobs hphase
  cases hmove with
  | take | interrupt | start | posted | get | fail =>
      exact ⟨fun _ => hjobs, nofun, nofun⟩
  | @post t n heq hlt =>
      refine ⟨fun _ i hi padIndex => ?_, nofun, nofun⟩
      show (Function.update f.jobs n .posted padIndex).Memory pool r padIndex _
      by_cases hpad : padIndex = n
      · subst hpad
        rw [Function.update_self]
        trivial
      · rw [Function.update_of_ne hpad]
        exact hjobs i hi padIndex
  | walk heq hle =>
      refine ⟨fun _ => hjobs, fun _ i _ t rest hwalking => ?_, nofun⟩
      cases hwalking
      exact eval_runIterationsReads
  | @read t a next i heq hi =>
      refine ⟨fun _ => hjobs, fun _ i' hi' t rest hwalking => ?_, nofun⟩
      cases hwalking
      obtain rfl : i = i' := Option.some.inj (hi.symm.trans hi')
      exact h.walk hphase i hi t (.read a next) heq
  | @finish t output heq =>
      refine ⟨fun _ => hjobs, nofun, fun _ => ⟨output, rfl, fun pads => ?_⟩⟩
      obtain ⟨i, hi⟩ := hpad (by rw [hphase]; rfl)
      rw [show output = _ from h.walk hphase i hi t _ heq]
      apply runIterations_of_generated pool.N_pos pool.C_ge
      intro padIndex hlt
      have hdone := hframe.jobs
      rw [heq] at hdone
      have hmem := hjobs i hi padIndex
      rw [hdone padIndex, if_pos hlt] at hmem
      exact hmem

/-- The pads of a call after a step of one of its jobs -/
theorem JobMove.memory {padIndex i : Nat} (hmove : JobMove pool r sh f padIndex sh' f')
    (hi : f.whichPad = some i)
    (h : ∀ q, (f.jobs q).Memory pool r q (sh.scratchpads i q)) (q : Nat) :
    (f'.jobs q).Memory pool r q (sh'.scratchpads i q) := by
  have hself := h padIndex
  have hset : ∀ (job : JobPhase) (pads : Nat → Pad), job.Memory pool r padIndex (pads padIndex) →
      (∀ q, q ≠ padIndex → pads q = sh.scratchpads i q) →
      (Function.update f.jobs padIndex job q).Memory pool r q (pads q) := by
    intro job pads hjob hother
    by_cases hq : q = padIndex
    · subst hq
      rw [Function.update_self]
      exact hjob
    · rw [Function.update_of_ne hq, hother q hq]
      exact h q
  cases hmove with
  | take heq | interrupt heq => exact hset _ (sh.scratchpads i) trivial fun _ _ => rfl
  | start heq =>
      exact hset _ (sh.scratchpads i) ⟨Nat.zero_le _, sh.scratchpads i padIndex, rfl⟩ fun _ _ => rfl
  | @write t n ctx j heq hlt hj =>
      obtain rfl : i = j := Option.some.inj (hi.symm.trans hj)
      rw [heq] at hself
      obtain ⟨-, before, hbefore⟩ := hself
      apply hset _ ((sh.setPad i padIndex _).scratchpads i)
      · refine ⟨hlt, before, ?_⟩
        rw [List.range_succ, List.foldl_append, hbefore]
        simp [PoolShared.setPad]
      · intro q hq
        simp [PoolShared.setPad, hq]
  | @finish t n ctx heq hle =>
      rw [heq] at hself
      obtain ⟨hn, before, hbefore⟩ := hself
      obtain rfl : n = padChunks pool.C := Nat.le_antisymm hn hle
      apply hset _ (sh.scratchpads i)
      · exact ⟨before, congrArg Prod.snd hbefore.symm⟩
      · exact fun _ _ => rfl

theorem MemoryOk.jobMove (h : MemoryOk pool r sh.scratchpads f) (hframe : FrameOk pool f)
    {padIndex : Nat} (hmove : JobMove pool r sh f padIndex sh' f') :
    MemoryOk pool r sh'.scratchpads f' := by
  obtain ⟨hnone, hdone⟩ := hmove.under
  have hphase := hframe.awaiting_of_job hnone hdone
  have hrunning := hframe.running hnone hdone
  have hwalking : ∀ t rest, f.command ≠ .walking t rest := by
    intro t rest heq
    obtain ⟨_, _, hp⟩ | ⟨_, _, _, hw⟩ := hrunning
    · rw [heq] at hp
      cases hp
    · rw [heq] at hw
      cases hw
  have hsame : f'.whichPad = f.whichPad ∧ f'.command = f.command ∧ f'.output = f.output := by
    cases hmove with
    | take | interrupt | start | write | finish => exact ⟨rfl, rfl, rfl⟩
  obtain ⟨hwhich, hcommand, houtput⟩ := hsame
  refine ⟨fun _ i hi => ?_, fun _ i _ t rest heq => ?_, fun heq => ?_⟩
  · rw [hwhich] at hi
    exact hmove.memory hi (h.jobs hphase i hi)
  · rw [hcommand] at heq
    exact absurd heq (hwalking t rest)
  · rw [hcommand] at heq
    rw [houtput]
    exact h.output heq

end

/-! ## Every run -/

structure PoolOk (pool : CRamhogThreadPool) (calls : κ → RamhogCall) (s : PoolState κ β) : Prop where
  slots : SlotsOk pool s
  frames : ∀ k, FrameOk pool (s.frames k)
  memory : ∀ k, MemoryOk pool (calls k) s.shared.scratchpads (s.frames k)

section

variable [DecidableEq κ] [DecidableEq β] {pool : CRamhogThreadPool} {calls : κ → RamhogCall}
  {s s' : PoolState κ β} {k : κ} {sh : PoolShared κ β} {f : CallFrame β}

omit [DecidableEq κ] [DecidableEq β] in
theorem PoolOk.init (pindexBest : Option β) (fNeedCheckBlock : Bool)
    (scratchpads : Nat → Nat → Pad) :
    PoolOk pool calls (.init pool pindexBest fNeedCheckBlock scratchpads) where
  slots := .init ..
  frames := fun _ => .init
  memory := fun _ => .init

theorem PoolOk.caller (h : PoolOk pool calls s)
    (hmove : CallerMove pool k s.shared (s.frames k) sh f) : PoolOk pool calls (s.set k sh f) where
  slots := h.slots.caller hmove
  frames := PoolState.forall_set (P := fun _ f => FrameOk pool f) ((h.frames k).caller hmove)
    fun k' _ => h.frames k'
  memory := by
    have hsame : sh.scratchpads = s.shared.scratchpads := by cases hmove <;> rfl
    apply PoolState.forall_set (P := fun k f => MemoryOk pool (calls k) sh.scratchpads f)
    · exact (h.memory k).caller (h.frames k) hmove
    · intro k' _
      rw [hsame]
      exact h.memory k'

omit [DecidableEq β] in
theorem PoolOk.commandMove (h : PoolOk pool calls s)
    (hmove : CommandMove pool (calls k) s.shared (s.frames k) f) :
    PoolOk pool calls (s.set k s.shared f) where
  slots := by
    have hphase := hmove.awaiting (h.frames k)
    have hsame : f.whichPad = (s.frames k).whichPad ∧ f.phase = (s.frames k).phase := by
      cases hmove <;> exact ⟨rfl, rfl⟩
    apply h.slots.quiet rfl rfl rfl hsame.1 (by rw [hsame.2])
    · rw [hsame.2, hphase]
      exact nofun
    · rw [hsame.2]
      exact h.slots.noMismatch k
  frames := PoolState.forall_set (P := fun _ f => FrameOk pool f) ((h.frames k).commandMove hmove)
    fun k' _ => h.frames k'
  memory := PoolState.forall_set
    (P := fun k f => MemoryOk pool (calls k) s.shared.scratchpads f)
    ((h.memory k).commandMove (h.frames k) (h.slots.hasPad k) hmove) fun k' _ => h.memory k'

omit [DecidableEq κ] [DecidableEq β] in
/-- A job writes into a pad that its call holds. -/
theorem PoolOk.writes (h : PoolOk pool calls s) {padIndex i : Nat}
    (hmove : JobMove pool (calls k) s.shared (s.frames k) padIndex sh f)
    (hne : sh.scratchpads i ≠ s.shared.scratchpads i) : (s.frames k).pad? = some i := by
  obtain ⟨hnone, hdone⟩ := hmove.under
  have hphase := (h.frames k).awaiting_of_job hnone hdone
  cases hmove with
  | take | interrupt | start | finish => exact absurd rfl hne
  | @write t chunk ctx j heq hlt hj =>
      obtain rfl | hij := eq_or_ne i j
      · exact CallFrame.pad?_eq_some.mpr ⟨by rw [hphase]; rfl, hj⟩
      · exact absurd (Function.update_of_ne hij ..) hne

omit [DecidableEq β] in
theorem PoolOk.jobMove (h : PoolOk pool calls s) {padIndex : Nat}
    (hmove : JobMove pool (calls k) s.shared (s.frames k) padIndex sh f) :
    PoolOk pool calls (s.set k sh f) where
  slots := by
    obtain ⟨hnone, hdone⟩ := hmove.under
    have hphase := (h.frames k).awaiting_of_job hnone hdone
    have hsame : f.whichPad = (s.frames k).whichPad ∧ f.phase = (s.frames k).phase := by
      cases hmove <;> exact ⟨rfl, rfl⟩
    have hshared : sh.waitPads = s.shared.waitPads ∧ sh.cs_pickPad = s.shared.cs_pickPad ∧
        sh.fPadUsed = s.shared.fPadUsed := by
      cases hmove <;> exact ⟨rfl, rfl, rfl⟩
    apply h.slots.quiet hshared.1 hshared.2.1 hshared.2.2 hsame.1 (by rw [hsame.2])
    · rw [hsame.2, hphase]
      exact nofun
    · rw [hsame.2]
      exact h.slots.noMismatch k
  frames := PoolState.forall_set (P := fun _ f => FrameOk pool f) ((h.frames k).jobMove hmove)
    fun k' _ => h.frames k'
  memory := by
    apply PoolState.forall_set (P := fun k f => MemoryOk pool (calls k) sh.scratchpads f)
    · exact (h.memory k).jobMove (h.frames k) hmove
    · intro k' hk
      refine (h.memory k').congr fun hphase i hi => ?_
      by_contra hne
      have hother : (s.frames k').pad? = some i :=
        CallFrame.pad?_eq_some.mpr ⟨by rw [hphase]; rfl, hi⟩
      exact hk (h.slots.owned.exclusive hother (h.writes hmove hne))

theorem PoolOk.thread (h : PoolOk pool calls s) (hstep : ThreadStep pool calls k s s') :
    PoolOk pool calls s' := by
  obtain ⟨sh, f, hmove, rfl⟩ | ⟨f, hmove, rfl⟩ | ⟨padIndex, sh, f, hmove, rfl⟩ :=
    threadStep_cases hstep
  · exact h.caller hmove
  · exact h.commandMove hmove
  · exact h.jobMove hmove

omit [DecidableEq κ] [DecidableEq β] in
theorem PoolOk.outside (h : PoolOk pool calls s) (hstep : OutsideStep s s') :
    PoolOk pool calls s' := by
  cases hstep with
  | newBest pindex =>
      exact ⟨⟨h.slots.counted, h.slots.owned, h.slots.hasPad, h.slots.locked, h.slots.scanned,
        h.slots.noMismatch⟩, h.frames, h.memory⟩
  | setNeedCheckBlock fNew =>
      exact ⟨⟨h.slots.counted, h.slots.owned, h.slots.hasPad, h.slots.locked, h.slots.scanned,
        h.slots.noMismatch⟩, h.frames, h.memory⟩

theorem PoolReachable.ok (h : PoolReachable pool calls s) : PoolOk pool calls s := by
  induction h with
  | init => exact .init ..
  | thread _ hstep ih => exact ih.thread hstep
  | outside _ hstep ih => exact ih.outside hstep

end

end ShinyCoin
