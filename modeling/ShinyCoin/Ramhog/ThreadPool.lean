import ShinyCoin.Lib.Reads
import ShinyCoin.Lib.Slots
import ShinyCoin.Ramhog.Hash
import Mathlib.Tactic.SplitIfs

/-!
# The ramhog thread pool

`CRamhogThreadPool::ramhog` may be called by any number of threads. A call takes one of the
`numSimultaneous` units of `waitPads`, looks for a flag of `fPadUsed` that is down, and posts
`ramhog_mt` to the command threads; that posts one `ramhog_gen_pad_mt` for each pad to the worker
threads, waits for them all and walks over the pads. The frame of a call holds the locals of the
call, of its command and of its jobs; all else is shared. Threads interleave at each access to what
is shared, in the scratchpads at each word.
-/

namespace ShinyCoin

open Lib (Reads)

/-! ## The walk, word by word -/

/-- A word of the scratchpads a call was given: the pad and the chunk in it -/
abbrev PadAddr := Nat × Nat

def readPads (pads : Nat → Pad) (a : PadAddr) : UInt64 := pads a.1 a.2

/-- The words that `memcpy` moves to `finalChunks` -/
def finalChunksAt (N C : UInt32) : List PadAddr :=
  (List.range N.toNat).flatMap fun padIndex =>
    (List.range 32).map fun j => (padIndex, (C - 1 - 32).toNat + j)

def walkStepReads (N C : UInt32) (st : XorshiftCtx × UInt64) :
    Reads PadAddr UInt64 (XorshiftCtx × UInt64) :=
  let (x, ctx) := st.1.next
  .read (padOf N st.2, chunkOf C st.2) fun word => .done (ctx, word ^^^ x)

/-- `ramhog_run_iterations` -/
def runIterationsReads (pbkdf2 : Pbkdf2) (input : Bytes) (output_size : Nat) (N C I : UInt32) :
    Reads PadAddr UInt64 Bytes :=
  (Reads.readAll (finalChunksAt N C)).bind fun finalChunks =>
    let (X, ctx) := (XorshiftCtx.ofSeed pbkdf2 input
      ((wordBytes finalChunks).take (8 * N.toNat))).next
    (Reads.iterate (walkStepReads N C) (I - (32 - 5)).toNat (ctx, X)).bind fun st =>
      (Reads.trace (walkStepReads N C) 27 st).bind fun sts =>
        let finalSalt := [N.toUInt64, C.toUInt64, I.toUInt64, UInt64.ofNat input.length,
          UInt64.ofNat output_size] ++ sts.map (·.2)
        .done (pbkdf2 input (wordBytes finalSalt) 1 output_size)

/-! ## The pool -/

/-- The constants of `CRamhogThreadPool` -/
structure CRamhogThreadPool where
  pbkdf2 : Pbkdf2
  N : UInt32
  C : UInt32
  I : UInt32
  numSimultaneous : Nat
  numWorkers : Nat
  /-- The walk divides by it. -/
  N_pos : 0 < N
  /-- `pad_dones[1024]` -/
  N_le : N ≤ 1024
  /-- The walk's salt begins 33 words before the end of a pad. -/
  C_ge : 33 ≤ C

/-- The arguments of a call -/
structure RamhogCall where
  input : Bytes
  output_size : Nat
  fForMiner : Bool

/-- Where a call of `CRamhogThreadPool::ramhog` is -/
inductive CallPhase where
  | idle
  | entered
  | checked
  /-- At `waitPads.wait()` -/
  | waiting
  /-- It has one of `waitPads`. -/
  | granted
  /-- There is a new best block; `waitPads.post()` is next. -/
  | interrupted
  /-- At the first `LOCK(cs_pickPad)` -/
  | passed
  | scanning (i : Nat)
  /-- No flag was down. -/
  | mismatch
  | picked
  /-- At `ramhog_done.get_future().get()` -/
  | awaiting
  /-- At the second `LOCK(cs_pickPad)` -/
  | got (fSuccess : Bool)
  /-- At the last `waitPads.post()` -/
  | cleared (fSuccess : Bool)
  | returned (fSuccess : Bool)
  | thrown

/-- Where the call's `ramhog_mt` is, with the command thread that runs it -/
inductive CommandPhase where
  | none
  | posted
  | started (thread : Nat)
  | posting (thread padIndex : Nat)
  | waiting (thread padIndex : Nat) (fSuccess : Bool)
  | walking (thread : Nat) (rest : Reads PadAddr UInt64 Bytes)
  | done (fSuccess : Bool)

/-- Where a `ramhog_gen_pad_mt` of the call is, with the worker thread that runs it -/
inductive JobPhase where
  | none
  | posted
  | started (thread : Nat)
  | generating (thread chunk : Nat) (ctx : XorshiftCtx)
  | done (fSuccess : Bool)

def CommandPhase.thread? : CommandPhase → Option Nat
  | .started t | .posting t _ | .waiting t _ _ | .walking t _ => some t
  | _ => Option.none

def JobPhase.thread? : JobPhase → Option Nat
  | .started t | .generating t _ _ => some t
  | _ => Option.none

/-- The locals of a call, its command and its jobs. A pointer to a block may be null (`none`),
`whichPad` is `none` for `-1`. -/
structure CallFrame (β : Type) where
  phase : CallPhase
  pindexForBest : Option β
  whichPad : Option Nat
  command : CommandPhase
  jobs : Nat → JobPhase
  output : Option Bytes

/-- What the threads share -/
structure PoolShared (κ β : Type) where
  pindexBest : Option β
  fNeedCheckBlock : Bool
  waitPads : Nat
  cs_pickPad : Option κ
  fPadUsed : Nat → Bool
  scratchpads : Nat → Nat → Pad

structure PoolState (κ β : Type) where
  shared : PoolShared κ β
  frames : κ → CallFrame β

variable {κ β : Type}

namespace CallFrame

def init : CallFrame β where
  phase := .idle
  pindexForBest := none
  whichPad := none
  command := .none
  jobs _ := .none
  output := none

def goto (f : CallFrame β) (phase : CallPhase) : CallFrame β := { f with phase := phase }

def setCommand (f : CallFrame β) (command : CommandPhase) : CallFrame β :=
  { f with command := command }

def setJob (f : CallFrame β) (padIndex : Nat) (job : JobPhase) : CallFrame β :=
  { f with jobs := Function.update f.jobs padIndex job }

end CallFrame

namespace PoolShared

def lock (sh : PoolShared κ β) (k : κ) : PoolShared κ β := { sh with cs_pickPad := some k }

def post (sh : PoolShared κ β) : PoolShared κ β := { sh with waitPads := sh.waitPads + 1 }

def setPad (sh : PoolShared κ β) (whichPad padIndex : Nat) (pad : Pad) : PoolShared κ β :=
  let pads := Function.update (sh.scratchpads whichPad) padIndex pad
  { sh with scratchpads := Function.update sh.scratchpads whichPad pads }

end PoolShared

namespace CRamhogThreadPool

/-- `fForMiner && pindexForBest != pindexBest` -/
def interrupted [DecidableEq β] (r : RamhogCall) (f : CallFrame β) (sh : PoolShared κ β) : Bool :=
  r.fForMiner && decide (f.pindexForBest ≠ sh.pindexBest)

variable [DecidableEq β] (pool : CRamhogThreadPool) (r : RamhogCall)

/-- The next step of `ramhog`, if the calling thread has one -/
def callerStep (k : κ) (sh : PoolShared κ β) (f : CallFrame β) :
    Option (PoolShared κ β × CallFrame β) :=
  match f.phase with
  | .idle =>
      if pool.numSimultaneous = 0 ∨ pool.numWorkers = 0 then some (sh, f.goto (.returned false))
      else some (sh, f.goto .entered)
  | .entered =>
      if sh.fNeedCheckBlock && r.fForMiner then some (sh, f.goto (.returned false))
      else some (sh, f.goto .checked)
  | .checked => some (sh, { f.goto .waiting with pindexForBest := sh.pindexBest })
  | .waiting =>
      if 0 < sh.waitPads then some ({ sh with waitPads := sh.waitPads - 1 }, f.goto .granted)
      else none
  | .granted =>
      if interrupted r f sh then some (sh, f.goto .interrupted) else some (sh, f.goto .passed)
  | .interrupted => some (sh.post, f.goto (.returned false))
  | .passed =>
      if sh.cs_pickPad.isNone then some (sh.lock k, f.goto (.scanning 0)) else none
  | .scanning i =>
      if i < pool.numSimultaneous then
        if sh.fPadUsed i then some (sh, f.goto (.scanning (i + 1)))
        else some
          ({ sh with fPadUsed := Function.update sh.fPadUsed i true, cs_pickPad := none },
            { f.goto .picked with whichPad := some i })
      else some (sh, f.goto .mismatch)
  | .mismatch => some ({ sh.post with cs_pickPad := none }, f.goto .thrown)
  | .picked => some (sh, { f.goto .awaiting with command := .posted })
  | .awaiting =>
      match f.command with
      | .done fSuccess => some (sh, f.goto (.got fSuccess))
      | _ => none
  | .got fSuccess =>
      match f.whichPad with
      | some i =>
          if sh.cs_pickPad.isNone then
            some ({ sh with fPadUsed := Function.update sh.fPadUsed i false },
              f.goto (.cleared fSuccess))
          else none
      | none => none
  | .cleared fSuccess => some (sh.post, f.goto (.returned fSuccess))
  | .returned _ => none
  | .thrown => none

/-- A command thread takes the command. -/
def takeCommand (t : Nat) (f : CallFrame β) : Option (CallFrame β) :=
  match f.command with
  | .posted => some (f.setCommand (.started t))
  | _ => none

/-- The next step of `ramhog_mt` -/
def commandStep (sh : PoolShared κ β) (f : CallFrame β) : Option (CallFrame β) :=
  match f.command with
  | .started t =>
      if interrupted r f sh then some (f.setCommand (.done false))
      else some (f.setCommand (.posting t 0))
  | .posting t padIndex =>
      if padIndex < pool.N.toNat then
        some ((f.setJob padIndex .posted).setCommand (.posting t (padIndex + 1)))
      else some (f.setCommand (.waiting t 0 true))
  | .waiting t padIndex fSuccess =>
      if padIndex < pool.N.toNat then
        match f.jobs padIndex with
        | .done b => some (f.setCommand (.waiting t (padIndex + 1) (fSuccess && b)))
        | _ => none
      else if fSuccess then
        some (f.setCommand (.walking t
          (runIterationsReads pool.pbkdf2 r.input r.output_size pool.N pool.C pool.I)))
      else some (f.setCommand (.done false))
  | .walking t (.read a next) =>
      match f.whichPad with
      | some i => some (f.setCommand (.walking t (next (readPads (sh.scratchpads i) a))))
      | none => none
  | .walking _ (.done output) => some { f.setCommand (.done true) with output := some output }
  | _ => none

/-- A worker thread takes a job. -/
def takeJob (t padIndex : Nat) (f : CallFrame β) : Option (CallFrame β) :=
  match f.jobs padIndex with
  | .posted => some (f.setJob padIndex (.started t))
  | _ => none

/-- The next step of a `ramhog_gen_pad_mt` -/
def jobStep (padIndex : Nat) (sh : PoolShared κ β) (f : CallFrame β) :
    Option (PoolShared κ β × CallFrame β) :=
  match f.jobs padIndex with
  | .started t =>
      if interrupted r f sh then some (sh, f.setJob padIndex (.done false))
      else some (sh, f.setJob padIndex (.generating t 0 (padSeed pool.pbkdf2 r.input padIndex)))
  | .generating t chunk ctx =>
      if chunk < padChunks pool.C then
        match f.whichPad with
        | some i =>
            let (ctx, pad) := genChunk (ctx, sh.scratchpads i padIndex) chunk
            some (sh.setPad i padIndex pad, f.setJob padIndex (.generating t (chunk + 1) ctx))
        | none => none
      else some (sh, f.setJob padIndex (.done true))
  | _ => none

end CRamhogThreadPool

/-! ## Runs -/

section

variable [DecidableEq κ] [DecidableEq β] (pool : CRamhogThreadPool) (calls : κ → RamhogCall)

/-- The state after a step on the frame of one call -/
def PoolState.set (s : PoolState κ β) (k : κ) (sh : PoolShared κ β) (f : CallFrame β) :
    PoolState κ β where
  shared := sh
  frames := Function.update s.frames k f

/-- A step of some thread, for the call `k`. A free thread takes any command or job that waits. -/
inductive ThreadStep (k : κ) (s : PoolState κ β) : PoolState κ β → Prop
  | caller {sh f} : pool.callerStep (calls k) k s.shared (s.frames k) = some (sh, f) →
      ThreadStep k s (s.set k sh f)
  | takeCommand {t f} : t < pool.numSimultaneous →
      (∀ k', (s.frames k').command.thread? ≠ some t) →
      CRamhogThreadPool.takeCommand t (s.frames k) = some f → ThreadStep k s (s.set k s.shared f)
  | command {f} : pool.commandStep (calls k) s.shared (s.frames k) = some f →
      ThreadStep k s (s.set k s.shared f)
  | takeJob {t padIndex f} : t < pool.numWorkers →
      (∀ k' q, ((s.frames k').jobs q).thread? ≠ some t) →
      CRamhogThreadPool.takeJob t padIndex (s.frames k) = some f →
      ThreadStep k s (s.set k s.shared f)
  | job {padIndex sh f} : pool.jobStep (calls k) padIndex s.shared (s.frames k) = some (sh, f) →
      ThreadStep k s (s.set k sh f)

/-- What the rest of the node does to what the pool reads -/
inductive OutsideStep (s : PoolState κ β) : PoolState κ β → Prop
  | newBest (pindex : Option β) :
      OutsideStep s { s with shared := { s.shared with pindexBest := pindex } }
  | setNeedCheckBlock (fNew : Bool) :
      OutsideStep s { s with shared := { s.shared with fNeedCheckBlock := fNew } }

/-- After the constructor; `malloc` leaves anything in the scratchpads. -/
def PoolState.init (pindexBest : Option β) (fNeedCheckBlock : Bool)
    (scratchpads : Nat → Nat → Pad) : PoolState κ β where
  shared :=
    { pindexBest := pindexBest, fNeedCheckBlock := fNeedCheckBlock
      waitPads := pool.numSimultaneous, cs_pickPad := none, fPadUsed := fun _ => false
      scratchpads := scratchpads }
  frames _ := .init

/-- The states of the runs -/
inductive PoolReachable : PoolState κ β → Prop
  | init {pindexBest fNeedCheckBlock scratchpads} :
      PoolReachable (.init pool pindexBest fNeedCheckBlock scratchpads)
  | thread {s s' k} : PoolReachable s → ThreadStep pool calls k s s' → PoolReachable s'
  | outside {s s'} : PoolReachable s → OutsideStep s s' → PoolReachable s'

end

end ShinyCoin
