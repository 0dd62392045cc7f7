/-
Moruna/Scheduler/Barrier.lean

The checkpoint barrier of the scheduler: `Barrier::enter` and its `drop`,
against the loops of the source drives, the loops of the sink drives and the
workers' claims on a busy slot.  Every access to a shared word is a step of
its own, so a drive may be held up between reading the pause and storing its
acknowledgement for as long as the scheduler of the machine likes.

The drives are numbered, the sources first and the sinks after them, in the
order `enter` resets and reads their flags.  Whoever wins `control_active`
is the one control thread that moves; the others' exchanges fail and change
nothing, so the state holds one place in the code, the lease holder's.
-/
import Mathlib.Data.Finset.Card
import Mathlib.Logic.Function.Basic

namespace Moruna.Scheduler

/-! ### The shared words -/

/-- The word of `WorkerSlots`: the busy count, the two bounds on it and the
gate. -/
structure Word where
  busy : ℕ
  knob : ℕ
  cpu : ℕ
  gate : Bool
deriving DecidableEq

def Word.bound (w : Word) : ℕ := max (min w.knob w.cpu) 1

/-- Whether `try_claim` refuses on this word. -/
def Word.refuses (w : Word) (worker : ℕ) : Bool :=
  w.gate || decide (w.bound ≤ worker) || decide (w.bound ≤ w.busy)

/-! ### Where the threads stand -/

/-- The lease holder's place in `enter` and in `drop`. -/
inductive Control
  /-- Nobody holds the lease. -/
  | outside
  /-- `control_active` is won; the gate is next. -/
  | claimed
  /-- The flags of the first `k` drives are reset. -/
  | resetting (k : ℕ)
  /-- The pause is up; a pass is about to look whether the run is ending. -/
  | checking
  /-- This pass has found the first `k` drives at rest. -/
  | scanning (k : ℕ)
  /-- Sink `k` was not drained; its flag is next. -/
  | flag (k : ℕ)
  /-- `enter` returned `Ok` and the barrier is not dropped. -/
  | held
  /-- `drop`, or the return of an error: the pause is next. -/
  | leaving
  /-- The pause is down; the gate is next. -/
  | opening
  /-- The gate is down; the lease is next. -/
  | clearing
deriving DecidableEq

/-- A drive's place in its loop. -/
inductive Pc
  /-- A sink outside `write_loop`, about to read the pause. -/
  | outer
  /-- As `outer`, having read the pause up. -/
  | outerPause
  /-- As `outer`, having read the pause down. -/
  | outerRun
  /-- As `outer`, having stored that it is not paused. -/
  | outerReady
  /-- At the head of the loop. -/
  | top
  /-- The mode is read (for a source, whether it was stop); the futures are
  being polled. -/
  | polled (stop : Bool)
  /-- A sink that read the pause up and looks whether the run is ending. -/
  | weighing
  /-- About to acknowledge. -/
  | sawPause
  /-- About to store that it is not paused. -/
  | sawRun (stop : Bool)
  /-- A sink that looks whether the run is ending before it starts a write. -/
  | ready
  /-- Past the pause: helpers, reads, pushes, writes. -/
  | working (stop : Bool)
  /-- The drive has left its loop. -/
  | gone
deriving DecidableEq

/-- A drive: where it stands, the futures it owns, and its end's flags. -/
structure Drive where
  pc : Pc
  inflight : ℕ
  paused : Bool
  drained : Bool
deriving DecidableEq

/-- A worker: outside a claim, with a word read, or running a task. -/
inductive Worker
  | idle
  | loaded (word : Word)
  | running
deriving DecidableEq

structure Config where
  sources : ℕ
  sinks : ℕ
  workers : ℕ

/-- The drives `enter` looks at. -/
def Config.drives (cfg : Config) : ℕ := cfg.sources + cfg.sinks

/-- The state of the scheduler as far as the barrier can see it. -/
structure State where
  word : Word
  /-- `control_active`. -/
  active : Bool
  /-- `checkpoint_pause`. -/
  pause : Bool
  /-- `exit_claimed`. -/
  exitClaimed : Bool
  /-- `is_cancelled`. -/
  cancelled : Bool
  /-- `has_exit`: an exit is published and not taken. -/
  exit : Bool
  /-- `stopping`. -/
  stopping : Bool
  /-- `source_mode` is stop. -/
  stop : Bool
  control : Control
  drives : ℕ → Drive
  workers : ℕ → Worker

variable (s : State)

/-- What a sink reads to learn that the run is ending. -/
def State.ending : Bool := s.exit || s.cancelled || s.stopping

/-- What `enter` reads to learn that the run is ending. -/
def State.over : Bool := s.cancelled || s.exitClaimed

def State.setDrive (i : ℕ) (d : Drive) : State := { s with drives := Function.update s.drives i d }

def State.setWorker (w : ℕ) (k : Worker) : State :=
  { s with workers := Function.update s.workers w k }

/-- A sink's drive before `run` sets its mode; a source's loop has one head. -/
def Drive.start (cfg : Config) (i : ℕ) : Drive :=
  ⟨if i < cfg.sources then .top else .outer, 0, false, false⟩

def State.init (cfg : Config) (knob cpu : ℕ) : State where
  word := ⟨0, knob, cpu, false⟩
  active := false
  pause := false
  exitClaimed := false
  cancelled := false
  exit := false
  stopping := false
  stop := false
  control := .outside
  drives := Drive.start cfg
  workers := fun _ => .idle

/-! ### The code -/

/-- The next access of the control thread.  `giveUp` is what the deadline says
after a pass that failed; it also stands for the caller dropping the barrier,
which it does when it likes. -/
def controlStep (cfg : Config) (s : State) (giveUp : Bool) : State :=
  match s.control with
  | .outside => if s.active then s else { s with active := true, control := .claimed }
  | .claimed => { s with word := { s.word with gate := true }, control := .resetting 0 }
  | .resetting k =>
    if k < cfg.drives then
      { s.setDrive k { s.drives k with paused := false } with control := .resetting (k + 1) }
    else { s with pause := true, control := .checking }
  | .checking => { s with control := if s.over then .leaving else .scanning 0 }
  | .scanning k =>
    if k < cfg.sources then
      if (s.drives k).paused then { s with control := .scanning (k + 1) }
      else { s with control := if giveUp then .leaving else .checking }
    else if k < cfg.drives then
      if (s.drives k).drained then { s with control := .scanning (k + 1) }
      else { s with control := .flag k }
    else if s.word.busy = 0 then { s with control := .held }
    else { s with control := if giveUp then .leaving else .checking }
  | .flag k =>
    if (s.drives k).paused then { s with control := .scanning (k + 1) }
    else { s with control := if giveUp then .leaving else .checking }
  | .held => if giveUp then { s with control := .leaving } else s
  | .leaving => { s with pause := false, control := .opening }
  | .opening => { s with word := { s.word with gate := false }, control := .clearing }
  | .clearing => { s with active := false, control := .outside }

/-- What a drive does when it has a choice. -/
inductive Move
  /-- The next access of the loop. -/
  | next
  /-- One of its futures completes while it is polled. -/
  | settle
  /-- Past the pause: a helper is serviced, or a morsel made here is pushed. -/
  | work
  /-- Past the pause: a read is issued, or a write started. -/
  | begin
  /-- Past the pause: a sink finds its queue closed and empty. -/
  | finish
deriving DecidableEq

def sourceStep (d : Drive) (m : Move) : Drive :=
  match d.pc, m with
  | .top, .next => { d with pc := .polled s.stop }
  | .polled _, .settle => { d with inflight := d.inflight - 1 }
  | .polled stop, .next => { d with pc := if s.pause && !stop then .sawPause else .sawRun stop }
  | .sawPause, .next => { d with paused := decide (d.inflight = 0), pc := .top }
  | .sawRun stop, .next => { d with paused := false, pc := .working stop }
  | .working false, .begin => { d with inflight := d.inflight + 1 }
  | .working stop, .next => { d with pc := if stop && d.inflight = 0 then .gone else .top }
  | _, _ => d

def sinkStep (d : Drive) (m : Move) : Drive :=
  match d.pc, m with
  | .outer, .next => { d with pc := if s.pause then .outerPause else .outerRun }
  | .outerPause, .next => { d with paused := true, pc := .outer }
  | .outerRun, .next => { d with paused := false, pc := .outerReady }
  -- the mode is still idle, or the run has begun and the sink is entered
  | .outerReady, .next => { d with pc := .outer }
  | .outerReady, .begin => { d with pc := .top }
  | .top, .next => { d with pc := .polled false }
  | .polled _, .settle => { d with inflight := d.inflight - 1 }
  | .polled _, .next => { d with pc := if s.pause then .weighing else .sawRun false }
  | .weighing, .next => { d with pc := if s.ending then .sawRun false else .sawPause }
  | .sawPause, .next => { d with paused := decide (d.inflight = 0), pc := .top }
  | .sawRun _, .next => { d with paused := false, pc := .ready }
  | .ready, .next =>
    { d with
      pc := if s.ending then (if d.inflight = 0 then .gone else .top) else .working false }
  | .working _, .begin => { d with inflight := d.inflight + 1 }
  | .working _, .finish => if d.inflight = 0 then { d with drained := true, pc := .gone } else d
  | .working _, .next => { d with pc := .top }
  | _, _ => d

/-- Drive `i` after its next access, whichever kind it is. -/
def moved (cfg : Config) (s : State) (i : ℕ) (m : Move) : Drive :=
  if i < cfg.sources then sourceStep s (s.drives i) m else sinkStep s (s.drives i) m

def driveStep (cfg : Config) (s : State) (i : ℕ) (m : Move) : State :=
  s.setDrive i (moved cfg s i m)

/-- The next access of worker `w`: `try_claim`'s load, its exchange (which may
fail for no reason, `weak`), or the drop of its slot. -/
def workerStep (w : ℕ) (weak : Bool) : State :=
  match s.workers w with
  | .idle => s.setWorker w (.loaded s.word)
  | .loaded word =>
    if word.refuses w then s.setWorker w .idle
    else if weak || decide (s.word ≠ word) then s.setWorker w (.loaded s.word)
    else { s.setWorker w .running with word := { s.word with busy := s.word.busy + 1 } }
  | .running => { s.setWorker w .idle with word := { s.word with busy := s.word.busy - 1 } }

inductive Act
  | control (giveUp : Bool)
  | drive (i : ℕ) (m : Move)
  | worker (w : ℕ) (weak : Bool)
  /-- `set_knob` and `set_cpu_bound`, at the exchange that succeeds. -/
  | setKnob (n : ℕ)
  | setCpu (n : ℕ)
  /-- The run begins to end: an exit is claimed, or the token is cancelled. -/
  | claimExit
  | cancel
  /-- What follows an exit that is claimed: it is published, taken, the
  sources are told to stop, and then everybody is. -/
  | publish
  | takeExit
  | stopSources
  | stopAll
deriving DecidableEq

/-- One step.  Drives and workers that are not there do not move, and what
follows the beginning of the run's end waits for it. -/
def step (cfg : Config) (s : State) : Act → State
  | .control giveUp => controlStep cfg s giveUp
  | .drive i m => if i < cfg.drives then driveStep cfg s i m else s
  | .worker w weak => if w < cfg.workers then workerStep s w weak else s
  | .setKnob n => { s with word := { s.word with knob := n } }
  | .setCpu n => { s with word := { s.word with cpu := n } }
  | .claimExit => { s with exitClaimed := true }
  | .cancel => { s with cancelled := true }
  | .publish => if s.over then { s with exit := true } else s
  | .takeExit => { s with exit := false }
  | .stopSources => if s.over then { s with stop := true } else s
  | .stopAll => if s.over then { s with stopping := true } else s

def run (cfg : Config) (s : State) : List Act → State
  | [] => s
  | a :: as => run cfg (step cfg s a) as

/-! ### What the barrier must rule out -/

/-- Whether a step of drive `i` does something the barrier must have stopped:
a source pushes what a future of it gave, services a helper, pushes or issues
a read, or a sink starts a write. -/
def Act.active (cfg : Config) (s : State) : Act → Bool
  | .drive i m =>
    match (s.drives i).pc, m with
    | .polled _, .settle => decide (i < cfg.sources) && decide ((s.drives i).inflight ≠ 0)
    | .working _, .work => decide (i < cfg.sources)
    | .working stop, .begin => decide (i < cfg.drives) && !stop
    | _, _ => false
  | _ => false

/-- What a held barrier promises in a state: no worker runs a task, no source
has a read in flight and no sink that is not drained has a write in flight,
and whichever step comes next, it does nothing the barrier must have
stopped. -/
structure Quiesced (cfg : Config) (s : State) : Prop where
  workers : ∀ w < cfg.workers, s.workers w ≠ .running
  drives : ∀ i < cfg.drives, (s.drives i).drained = false → (s.drives i).inflight = 0
  still : ∀ a : Act, a.active cfg s = false

end Moruna.Scheduler
