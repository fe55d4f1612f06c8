import ShinyCoin.Ramhog.ThreadPool

/-!
# The pads are held by one call each

`waitPads` counts the calls that are inside, `fPadUsed` marks the pads of those that have picked
one. The semaphore lets in no more calls than there are pads, so a call that looks for a pad finds
one before the end of the array.
-/

namespace ShinyCoin

variable {κ β : Type}

/-- The call has one of `waitPads`. -/
def CallPhase.takes : CallPhase → Bool
  | .granted | .interrupted | .passed | .scanning _ | .mismatch | .picked | .awaiting | .got _
  | .cleared _ => true
  | _ => false

/-- The flag of the call's pad is up. -/
def CallPhase.hasPad : CallPhase → Bool
  | .picked | .awaiting | .got _ => true
  | _ => false

/-- The call has `cs_pickPad` for more than one step. -/
def CallPhase.locked : CallPhase → Bool
  | .scanning _ | .mismatch => true
  | _ => false

/-- What a call has -/
def CallPhase.has (phase : CallPhase) : Bool × Bool × Bool :=
  (phase.takes, phase.hasPad, phase.locked)

theorem CallPhase.has_eq {phase phase' : CallPhase} : phase.has = phase'.has ↔
    phase.takes = phase'.takes ∧ phase.hasPad = phase'.hasPad ∧ phase.locked = phase'.locked := by
  simp [has]

/-- The pad that the call was given and has not released -/
def CallFrame.pad? (f : CallFrame β) : Option Nat := if f.phase.hasPad then f.whichPad else none

theorem CallPhase.takes_of_hasPad {phase : CallPhase} (h : phase.hasPad = true) :
    phase.takes = true := by
  cases phase <;> first | rfl | cases h

theorem CallFrame.pad?_eq_some {f : CallFrame β} {i : Nat} :
    f.pad? = some i ↔ f.phase.hasPad = true ∧ f.whichPad = some i := by
  unfold pad?
  split_ifs with hpad <;> simp [hpad]

theorem CallFrame.pad?_eq_none {f : CallFrame β} (h : f.phase.hasPad = false) : f.pad? = none := by
  simp [pad?, h]

/-! ## What a step of a caller does -/

section

variable [DecidableEq β] (pool : CRamhogThreadPool) (k : κ) (sh : PoolShared κ β) (f : CallFrame β)

/-- The steps of `ramhog` -/
inductive CallerMove : PoolShared κ β → CallFrame β → Prop
  | noWorkers : f.phase = .idle → CallerMove sh (f.goto (.returned false))
  | enter : f.phase = .idle → 0 < pool.numSimultaneous → 0 < pool.numWorkers →
      CallerMove sh (f.goto .entered)
  | needCheckBlock : f.phase = .entered → CallerMove sh (f.goto (.returned false))
  | check : f.phase = .entered → CallerMove sh (f.goto .checked)
  | readBest : f.phase = .checked →
      CallerMove sh { f.goto .waiting with pindexForBest := sh.pindexBest }
  | wait : f.phase = .waiting → 0 < sh.waitPads →
      CallerMove { sh with waitPads := sh.waitPads - 1 } (f.goto .granted)
  | interrupt : f.phase = .granted → CallerMove sh (f.goto .interrupted)
  | pass : f.phase = .granted → CallerMove sh (f.goto .passed)
  | giveUp : f.phase = .interrupted → CallerMove sh.post (f.goto (.returned false))
  | lock : f.phase = .passed → sh.cs_pickPad = none →
      CallerMove (sh.lock k) (f.goto (.scanning 0))
  | busy {i} : f.phase = .scanning i → i < pool.numSimultaneous → sh.fPadUsed i = true →
      CallerMove sh (f.goto (.scanning (i + 1)))
  | pick {i} : f.phase = .scanning i → i < pool.numSimultaneous → sh.fPadUsed i = false →
      CallerMove { sh with fPadUsed := Function.update sh.fPadUsed i true, cs_pickPad := none }
        { f.goto .picked with whichPad := some i }
  | noneFree {i} : f.phase = .scanning i → pool.numSimultaneous ≤ i →
      CallerMove sh (f.goto .mismatch)
  | throw : f.phase = .mismatch → CallerMove { sh.post with cs_pickPad := none } (f.goto .thrown)
  | post : f.phase = .picked → CallerMove sh { f.goto .awaiting with command := .posted }
  | get {b} : f.phase = .awaiting → f.command = .done b → CallerMove sh (f.goto (.got b))
  | clear {b i} : f.phase = .got b → f.whichPad = some i → sh.cs_pickPad = none →
      CallerMove { sh with fPadUsed := Function.update sh.fPadUsed i false } (f.goto (.cleared b))
  | release {b} : f.phase = .cleared b → CallerMove sh.post (f.goto (.returned b))

variable {pool k sh f} {r : RamhogCall} {sh' : PoolShared κ β} {f' : CallFrame β}

theorem callerStep_cases (h : pool.callerStep r k sh f = some (sh', f')) :
    CallerMove pool k sh f sh' f' := by
  unfold CRamhogThreadPool.callerStep at h
  split at h
  next hphase =>
    split_ifs at h with hnone
    · cases h
      exact .noWorkers hphase
    · cases h
      rw [not_or] at hnone
      exact .enter hphase (Nat.pos_of_ne_zero hnone.1) (Nat.pos_of_ne_zero hnone.2)
  next hphase =>
    split_ifs at h
    · cases h
      exact .needCheckBlock hphase
    · cases h
      exact .check hphase
  next hphase =>
    cases h
    exact .readBest hphase
  next hphase =>
    split_ifs at h with hpos
    cases h
    exact .wait hphase hpos
  next hphase =>
    split_ifs at h
    · cases h
      exact .interrupt hphase
    · cases h
      exact .pass hphase
  next hphase =>
    cases h
    exact .giveUp hphase
  next hphase =>
    split_ifs at h with hfree
    cases h
    exact .lock hphase (Option.isNone_iff_eq_none.mp hfree)
  next i hphase =>
    split_ifs at h with hi hused
    · cases h
      exact .busy hphase hi hused
    · cases h
      exact .pick hphase hi (Bool.not_eq_true _ ▸ hused)
    · cases h
      exact .noneFree hphase (Nat.le_of_not_lt hi)
  next hphase =>
    cases h
    exact .throw hphase
  next hphase =>
    cases h
    exact .post hphase
  next hphase =>
    split at h
    next b hdone =>
      cases h
      exact .get hphase hdone
    next => cases h
  next b hphase =>
    split at h
    next i hpad =>
      split_ifs at h with hfree
      cases h
      exact .clear hphase hpad (Option.isNone_iff_eq_none.mp hfree)
    next => cases h
  next b hphase =>
    cases h
    exact .release hphase
  next => cases h
  next => cases h

end

/-! ## The semaphore and the flags stay in step -/

structure SlotsOk (pool : CRamhogThreadPool) (s : PoolState κ β) : Prop where
  counted : Lib.Counted pool.numSimultaneous s.shared.waitPads
    (fun f : CallFrame β => f.phase.takes = true) s.frames
  owned : Lib.Owned pool.numSimultaneous s.shared.fPadUsed CallFrame.pad? s.frames
  hasPad : ∀ k, (s.frames k).phase.hasPad = true → ∃ i, (s.frames k).whichPad = some i
  locked : ∀ k, (s.frames k).phase.locked = true ↔ s.shared.cs_pickPad = some k
  scanned : ∀ k i, (s.frames k).phase = .scanning i → ∀ j < i, s.shared.fPadUsed j = true
  noMismatch : ∀ k, (s.frames k).phase ≠ .mismatch ∧ (s.frames k).phase ≠ .thrown

section

variable [DecidableEq κ]

@[simp] theorem PoolState.set_shared (s : PoolState κ β) (k : κ) (sh : PoolShared κ β)
    (f : CallFrame β) : (s.set k sh f).shared = sh := rfl

@[simp] theorem PoolState.set_frames_self (s : PoolState κ β) (k : κ) (sh : PoolShared κ β)
    (f : CallFrame β) : (s.set k sh f).frames k = f := Function.update_self ..

theorem PoolState.set_frames_of_ne (s : PoolState κ β) {k k' : κ} (h : k' ≠ k)
    (sh : PoolShared κ β) (f : CallFrame β) : (s.set k sh f).frames k' = s.frames k' :=
  Function.update_of_ne h ..

/-- A property of every frame, after a step on one of them -/
theorem PoolState.forall_set {s : PoolState κ β} {k : κ} {sh : PoolShared κ β} {f : CallFrame β}
    {P : κ → CallFrame β → Prop} (hself : P k f) (hother : ∀ k', k' ≠ k → P k' (s.frames k')) :
    ∀ k', P k' ((s.set k sh f).frames k') := by
  intro k'
  by_cases hk : k' = k
  · subst hk
    rw [set_frames_self]
    exact hself
  · rw [set_frames_of_ne s hk]
    exact hother k' hk

variable {pool : CRamhogThreadPool} {s : PoolState κ β} {k : κ} {sh : PoolShared κ β}
  {f : CallFrame β}

/-- What a step has to show about its own frame. The flags change under the lock only, so that the
scan of another call is not disturbed. -/
theorem SlotsOk.set (h : SlotsOk pool s)
    (hcounted : Lib.Counted pool.numSimultaneous sh.waitPads
      (fun f : CallFrame β => f.phase.takes = true) (Function.update s.frames k f))
    (howned : Lib.Owned pool.numSimultaneous sh.fPadUsed CallFrame.pad?
      (Function.update s.frames k f))
    (hpad : f.phase.hasPad = true → ∃ i, f.whichPad = some i)
    (hself : f.phase.locked = true ↔ sh.cs_pickPad = some k)
    (hother : ∀ k', k' ≠ k → (s.shared.cs_pickPad = some k' ↔ sh.cs_pickPad = some k'))
    (hscan : ∀ i, f.phase = .scanning i → ∀ j < i, sh.fPadUsed j = true)
    (hused : sh.fPadUsed = s.shared.fPadUsed ∨ ∀ k', k' ≠ k → s.shared.cs_pickPad ≠ some k')
    (hphase : f.phase ≠ .mismatch ∧ f.phase ≠ .thrown) : SlotsOk pool (s.set k sh f) where
  counted := hcounted
  owned := howned
  hasPad := PoolState.forall_set (P := fun _ f => f.phase.hasPad = true → ∃ i, f.whichPad = some i)
    hpad fun k' _ => h.hasPad k'
  locked := PoolState.forall_set
    (P := fun k' f => f.phase.locked = true ↔ sh.cs_pickPad = some k') hself
    fun k' hk => (h.locked k').trans (hother k' hk)
  scanned := by
    apply PoolState.forall_set
      (P := fun _ f => ∀ i, f.phase = .scanning i → ∀ j < i, sh.fPadUsed j = true) hscan
    intro k' hk i hi
    obtain heq | hno := hused
    · rw [heq]
      exact h.scanned k' i hi
    · exact absurd ((h.locked k').mp (by rw [hi]; rfl)) (hno k' hk)
  noMismatch := PoolState.forall_set (P := fun _ f => f.phase ≠ .mismatch ∧ f.phase ≠ .thrown)
    hphase fun k' _ => h.noMismatch k'

/-- A step that neither takes nor gives back anything -/
theorem SlotsOk.quiet (h : SlotsOk pool s) (hwait : sh.waitPads = s.shared.waitPads)
    (hlock : sh.cs_pickPad = s.shared.cs_pickPad) (hused : sh.fPadUsed = s.shared.fPadUsed)
    (hwhich : f.whichPad = (s.frames k).whichPad)
    (hhas : f.phase.has = (s.frames k).phase.has)
    (hscan : ∀ i, f.phase = .scanning i → ∀ j < i, s.shared.fPadUsed j = true)
    (hphase : f.phase ≠ .mismatch ∧ f.phase ≠ .thrown) : SlotsOk pool (s.set k sh f) := by
  obtain ⟨htakes, hhas, hlocked⟩ := CallPhase.has_eq.mp hhas
  apply h.set
  · rw [hwait]
    exact h.counted.keep (by rw [htakes])
  · rw [hused]
    exact h.owned.keep (by rw [CallFrame.pad?, CallFrame.pad?, hhas, hwhich])
  · rw [hhas, hwhich]
    exact h.hasPad k
  · rw [hlocked, hlock]
    exact h.locked k
  · intro k' _
    rw [hlock]
  · rw [hused]
    exact hscan
  · exact .inl hused
  · exact hphase

omit [DecidableEq κ] in
theorem SlotsOk.free (h : SlotsOk pool s) (hfree : s.shared.cs_pickPad = none) (k' : κ) :
    (s.frames k').phase.locked = false := by
  cases hlocked : (s.frames k').phase.locked with
  | false => rfl
  | true =>
      have := (h.locked k').mp hlocked
      rw [hfree] at this
      cases this

/-- A scan does not come to the end of the array. -/
theorem SlotsOk.scanning_lt (h : SlotsOk pool s) {i : Nat}
    (hphase : (s.frames k).phase = .scanning i) : i < pool.numSimultaneous := by
  obtain ⟨j, hj, hfree⟩ := h.owned.exists_free h.counted
    (fun hpad => CallPhase.takes_of_hasPad (CallFrame.pad?_eq_some.mp hpad).1)
    (k := k) (by rw [hphase]; rfl) (CallFrame.pad?_eq_none (by rw [hphase]; rfl))
  by_contra hle
  have := h.scanned k i hphase j (Nat.lt_of_lt_of_le hj (Nat.le_of_not_lt hle))
  rw [hfree] at this
  cases this

/-- A step on the semaphore only, of a call that has neither a pad nor the lock -/
theorem SlotsOk.semaphore (h : SlotsOk pool s)
    (hcounted : Lib.Counted pool.numSimultaneous sh.waitPads
      (fun f : CallFrame β => f.phase.takes = true) (Function.update s.frames k f))
    (hlock : sh.cs_pickPad = s.shared.cs_pickPad) (hused : sh.fPadUsed = s.shared.fPadUsed)
    (hpad : (s.frames k).phase.hasPad = false) (hpad' : f.phase.hasPad = false)
    (hlocked : (s.frames k).phase.locked = false) (hlocked' : f.phase.locked = false)
    (hphase : f.phase ≠ .thrown) : SlotsOk pool (s.set k sh f) := by
  apply h.set hcounted
  · rw [hused]
    apply h.owned.keep
    rw [CallFrame.pad?_eq_none hpad, CallFrame.pad?_eq_none hpad']
  · intro hhas
    rw [hpad'] at hhas
    cases hhas
  · rw [hlocked', hlock, ← h.locked k, hlocked]
  · intro k' _
    rw [hlock]
  · intro i hi
    rw [hi] at hlocked'
    cases hlocked'
  · exact .inl hused
  · refine ⟨?_, hphase⟩
    intro hmis
    rw [hmis] at hlocked'
    cases hlocked'

theorem SlotsOk.lock (h : SlotsOk pool s) (hphase : (s.frames k).phase = .passed)
    (hfree : s.shared.cs_pickPad = none) :
    SlotsOk pool (s.set k (s.shared.lock k) ((s.frames k).goto (.scanning 0))) := by
  apply h.set
  · exact h.counted.keep (by rw [hphase]; exact Iff.rfl)
  · apply h.owned.keep
    rw [CallFrame.pad?_eq_none rfl, CallFrame.pad?_eq_none (by rw [hphase]; rfl)]
  · exact nofun
  · exact ⟨fun _ => rfl, fun _ => rfl⟩
  · intro k' hk
    rw [hfree]
    exact ⟨nofun, fun heq => absurd (Option.some.inj heq).symm hk⟩
  · intro i hi j hj
    cases hi
    cases hj
  · exact .inl rfl
  · exact ⟨nofun, nofun⟩

theorem SlotsOk.pick (h : SlotsOk pool s) {i : Nat} (hphase : (s.frames k).phase = .scanning i)
    (hi : i < pool.numSimultaneous) (hfree : s.shared.fPadUsed i = false) :
    SlotsOk pool (s.set k
      { s.shared with fPadUsed := Function.update s.shared.fPadUsed i true, cs_pickPad := none }
      { (s.frames k).goto .picked with whichPad := some i }) := by
  have hmine : s.shared.cs_pickPad = some k := (h.locked k).mp (by rw [hphase]; rfl)
  have hothers : ∀ k', k' ≠ k → s.shared.cs_pickPad ≠ some k' := by
    intro k' hk heq
    rw [hmine] at heq
    exact hk (Option.some.inj heq).symm
  apply h.set
  · exact h.counted.keep (by rw [hphase]; exact Iff.rfl)
  · exact h.owned.take hi hfree (CallFrame.pad?_eq_none (by rw [hphase]; rfl)) rfl
  · exact fun _ => ⟨i, rfl⟩
  · exact ⟨nofun, nofun⟩
  · intro k' hk
    exact ⟨fun heq => absurd heq (hothers k' hk), nofun⟩
  · exact nofun
  · exact .inr hothers
  · exact ⟨nofun, nofun⟩

theorem SlotsOk.clear (h : SlotsOk pool s) {b : Bool} {i : Nat}
    (hphase : (s.frames k).phase = .got b) (hwhich : (s.frames k).whichPad = some i)
    (hfree : s.shared.cs_pickPad = none) :
    SlotsOk pool (s.set k
      { s.shared with fPadUsed := Function.update s.shared.fPadUsed i false }
      ((s.frames k).goto (.cleared b))) := by
  apply h.set
  · exact h.counted.keep (by rw [hphase]; exact Iff.rfl)
  · apply h.owned.drop _ (CallFrame.pad?_eq_none rfl)
    exact CallFrame.pad?_eq_some.mpr ⟨by rw [hphase]; rfl, hwhich⟩
  · exact nofun
  · rw [hfree]
    exact ⟨nofun, nofun⟩
  · intro k' _
    exact Iff.rfl
  · exact nofun
  · refine .inr fun k' _ => ?_
    rw [hfree]
    exact nofun
  · exact ⟨nofun, nofun⟩

omit [DecidableEq κ] in
theorem SlotsOk.init (pindexBest : Option β) (fNeedCheckBlock : Bool)
    (scratchpads : Nat → Nat → Pad) :
    SlotsOk pool (PoolState.init (κ := κ) pool pindexBest fNeedCheckBlock scratchpads) where
  counted := Lib.Counted.start fun _ => nofun
  owned := Lib.Owned.start (fun _ => rfl) fun _ => rfl
  hasPad := fun _ => nofun
  locked := fun _ => ⟨nofun, nofun⟩
  scanned := fun _ _ => nofun
  noMismatch := fun _ => ⟨nofun, nofun⟩

theorem SlotsOk.caller [DecidableEq β] (h : SlotsOk pool s)
    (hmove : CallerMove pool k s.shared (s.frames k) sh f) : SlotsOk pool (s.set k sh f) := by
  cases hmove with
  | noWorkers hphase | needCheckBlock hphase =>
      exact h.quiet rfl rfl rfl rfl (by rw [hphase]; rfl) nofun ⟨nofun, nofun⟩
  | enter hphase | check hphase | readBest hphase | interrupt hphase | pass hphase | post hphase =>
      exact h.quiet rfl rfl rfl rfl (by rw [hphase]; rfl) nofun ⟨nofun, nofun⟩
  | get hphase =>
      exact h.quiet rfl rfl rfl rfl (by rw [hphase]; rfl) nofun ⟨nofun, nofun⟩
  | busy hphase hi hused =>
      refine h.quiet rfl rfl rfl rfl (by rw [hphase]; rfl) ?_ ⟨nofun, nofun⟩
      intro i' hi' j hj
      cases hi'
      obtain hlt | rfl := Nat.lt_succ_iff_lt_or_eq.mp hj
      · exact h.scanned k _ hphase j hlt
      · exact hused
  | wait hphase hpos =>
      have hcounted := h.counted.acquire (k := k) (c := (s.frames k).goto .granted) hpos
        (by rw [hphase]; exact nofun) rfl
      exact h.semaphore hcounted rfl rfl (by rw [hphase]; rfl) rfl (by rw [hphase]; rfl) rfl nofun
  | giveUp hphase =>
      have hcounted := h.counted.release (k := k) (c := (s.frames k).goto (.returned false))
        (by rw [hphase]; rfl) nofun
      exact h.semaphore hcounted rfl rfl (by rw [hphase]; rfl) rfl (by rw [hphase]; rfl) rfl nofun
  | @release b hphase =>
      have hcounted := h.counted.release (k := k) (c := (s.frames k).goto (.returned b))
        (by rw [hphase]; rfl) nofun
      exact h.semaphore hcounted rfl rfl (by rw [hphase]; rfl) rfl (by rw [hphase]; rfl) rfl nofun
  | lock hphase hfree => exact h.lock hphase hfree
  | pick hphase hi hfree => exact h.pick hphase hi hfree
  | clear hphase hwhich hfree => exact h.clear hphase hwhich hfree
  | noneFree hphase hle => exact absurd (h.scanning_lt hphase) (Nat.not_lt.mpr hle)
  | throw hphase => exact absurd hphase (h.noMismatch k).1

end

end ShinyCoin
