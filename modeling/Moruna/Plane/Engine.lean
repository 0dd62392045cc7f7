/-
Moruna/Plane/Engine.lean

The engine's side of the data plane over the kernel's calls.

Ownership moves as handles move: a window is a memory object of the arena pushed into a
task's output slot; a record put in it comes back with the object and becomes a batch;
a batch offered to tasks is shared with them until each releases it.  A call may fail in
the middle, so the calls are computations that keep their state when they fail, and
everything the kernel decides (which call fails, which entry a slot gives back, whether
the window came back with a record, what the check says of it) is read from a list of
answers.
-/
import Moruna.Lib.Registry
import Moruna.Plane.Arena

namespace Moruna.Plane

open Kernel (Error)

/-! ### The kernel's calls -/

/-- What `slot_take` gave back. -/
inductive Taken where
  /-- An input batch the task is done with. -/
  | released (cookie : ℕ)
  /-- A record the task put in the window pushed with `cookie`. -/
  | put (cookie memory offset len : ℕ)
  /-- A window the task never used. -/
  | returned (cookie memory : ℕ)

/-- A memory object in a slot, by the cookie it was pushed with. -/
structure Entry where
  cookie : ℕ
  memory : ℕ
  deriving DecidableEq

/-- A slot, as far as the engine can see it: what it has been given and has not given
back, and whether it has told that its task has ended. -/
structure KernelSlot where
  output : Bool
  entries : List Entry
  ended : Bool
  deriving DecidableEq

/-- A request on a task's port. -/
structure Request where
  token : ℕ
  port : ℕ
  bytes : List UInt8

/-- What the kernel, the task and the record check have to say at one call. -/
structure Answer where
  /-- The call's error. -/
  error : Option Error
  /-- Which entry a slot gives back. -/
  pick : ℕ
  /-- Where the record in the window given back is, if the task put one. -/
  put : Option (ℕ × ℕ)
  /-- What the check says of a record: a refusal, or its rows. -/
  checked : Except String ℕ
  /-- The messages on a port, the ones that are no request among them. -/
  requests : List (Option Request)
  /-- How often a wait is woken before its deadline. -/
  passes : ℕ

/-- The kernel: the slots made so far, and the answers still to come. -/
structure Calls where
  slots : Registry KernelSlot
  /-- The next handle to a memory object. -/
  handles : ℕ
  answers : ℕ → Answer
  tick : ℕ

/-! ### The plane -/

/-- What the engine learns from the plane. -/
inductive Event where
  | put (task output batch rows bytes : ℕ)
  | released (task input batch : ℕ)
  | freed (batch : ℕ)
  | refused (task output : ℕ) (reason : String)
  | call (task token port : ℕ) (request : List UInt8)
  | ended (task : ℕ)
  deriving DecidableEq

structure SlotRec where
  slot : ℕ
  /-- Its task has ended and every event is taken. -/
  drained : Bool
  deriving DecidableEq

structure TaskRec where
  inputs : List SlotRec
  outputs : List SlotRec
  port : Bool
  portDone : Bool
  ended : Bool
  deriving DecidableEq

namespace TaskRec

/-- The records of one side. -/
def recs (t : TaskRec) (output : Bool) : List SlotRec := if output then t.outputs else t.inputs

def openSlots (t : TaskRec) : List SlotRec := (t.inputs ++ t.outputs).filter fun s => !s.drained

def openPort (t : TaskRec) : Bool := t.port && !t.portDone

def allDrained (t : TaskRec) : Bool := t.openSlots.isEmpty && !t.openPort

def setDrained (t : TaskRec) (output : Bool) (index : ℕ) : TaskRec :=
  if output then
    { t with outputs := t.outputs.modify index fun r => { r with drained := true } }
  else
    { t with inputs := t.inputs.modify index fun r => { r with drained := true } }

end TaskRec

structure BatchRec where
  /-- The arena object holding it. -/
  object : ℕ
  offset : ℕ
  len : ℕ
  /-- Shares held by tasks. -/
  shares : ℕ
  /-- The engine's own hold. -/
  held : Bool

/-- The engine's side of the data plane.  `log` is what it ever told the engine; no call
reads it. -/
structure KernelPlane where
  calls : Calls
  arena : Arena ℕ
  tasks : OrdMap ℕ TaskRec
  nextTask : ℕ
  batches : OrdMap ℕ BatchRec
  nextBatch : ℕ
  events : List Event
  /-- Bytes of windows granted and not yet back. -/
  windows : ℕ
  log : List Event

/-- A computation over the plane: it fails with the state it has reached. -/
abbrev PlaneM := EStateM PlaneError KernelPlane

namespace KernelPlane

def new (answers : ℕ → Answer) (budget : ℕ) : KernelPlane where
  calls := ⟨.empty, 0, answers, 0⟩
  arena := Arena.new budget
  tasks := .empty
  nextTask := 1
  batches := .empty
  nextBatch := 1
  events := []
  windows := 0
  log := []

/-! ### Calls into the kernel -/

def draw : PlaneM Answer := fun p =>
  .ok (p.calls.answers p.calls.tick) { p with calls := { p.calls with tick := p.calls.tick + 1 } }

/-- A call that may fail and gives nothing back. -/
def call : PlaneM Unit := do
  match (← draw).error with
  | some e => throw (.kernel e)
  | none => pure ()

def newHandle : PlaneM ℕ := fun p =>
  .ok p.calls.handles { p with calls := { p.calls with handles := p.calls.handles + 1 } }

variable (p : KernelPlane)

def setSlots (slots : Registry KernelSlot) : KernelPlane :=
  { p with calls := { p.calls with slots } }

def slot (output : Bool) : PlaneM ℕ := do
  call
  let p ← get
  set (p.setSlots (p.calls.slots.insert ⟨output, [], false⟩))
  pure p.calls.slots.next

def pushed (slot : ℕ) (e : Entry) : KernelPlane :=
  p.setSlots (p.calls.slots.modify slot fun s => { s with entries := s.entries ++ [e] })

/-- `slot_push`; a slot whose task has ended takes nothing. -/
def push (slot : ℕ) (e : Entry) : PlaneM (Except Error Unit) := do
  match (← draw).error with
  | some err => pure (.error err)
  | none =>
    match (← get).calls.slots.get slot with
    | none => pure (.error .badHandle)
    | some s =>
      if s.ended then pure (.error .badState)
      else do
        modify (·.pushed slot e)
        pure (.ok ())

def removed (slot i : ℕ) : KernelPlane :=
  p.setSlots (p.calls.slots.modify slot fun s => { s with entries := s.entries.eraseIdx i })

/-- `slot_take`: an entry the slot has, once; the end of the task when it has none. -/
def take (slot : ℕ) : PlaneM (Except Error Taken) := do
  let a ← draw
  match (← get).calls.slots.get slot with
  | none => pure (.error .badHandle)
  | some s =>
    match a.error with
    | some .peerClosed =>
      if s.entries.isEmpty then do
        modify fun p => p.setSlots (p.calls.slots.modify slot fun s => { s with ended := true })
        pure (.error .peerClosed)
      else pure (.error .shouldWait)
    | some e => pure (.error e)
    | none =>
      match s.entries[a.pick]? with
      | none => pure (.error .shouldWait)
      | some e => do
        modify (·.removed slot a.pick)
        pure <| .ok <|
          if s.output then
            match a.put with
            | some (offset, len) => .put e.cookie e.memory offset len
            | none => .returned e.cookie e.memory
          else .released e.cookie

/-! ### Moves of ownership -/

/-- A computation of the arena, on the plane's. -/
def onArena {α : Type} (x : EStateM PlaneError (Arena ℕ) α) : PlaneM α := fun p =>
  match x p.arena with
  | .ok r a => .ok r { p with arena := a }
  | .error e a => .error e { p with arena := a }

/-- `memory_create`, as it is answered. -/
def memory (a : Answer) (handle _bytes : ℕ) : Except Error ℕ :=
  match a.error with
  | some e => .error e
  | none => .ok handle

/-- `arena.take`, with `memory_create` for a new object. -/
def takeObject (bytes : ℕ) : PlaneM (ℕ × ℕ × ℕ) := do
  let a ← draw
  let handle ← newHandle
  onArena (Arena.take bytes (memory a handle))

def told (e : Event) : KernelPlane := { p with events := p.events ++ [e], log := p.log ++ [e] }

def tell (e : Event) : PlaneM Unit := modify (·.told e)

/-- A record of `len` bytes in `object`, now a batch that the engine holds. -/
def batched (object offset len : ℕ) : KernelPlane :=
  { p with
    nextBatch := (p.nextBatch + 1) % 2 ^ 64
    batches := p.batches.insert p.nextBatch ⟨object, offset, len, 0, true⟩ }

def addBatch (object offset len : ℕ) : PlaneM ℕ := do
  let p ← get
  set (p.batched object offset len)
  pure p.nextBatch

/-- A record of `len` bytes the engine writes itself, checked and held as a batch. -/
def loadWith (len : ℕ) : PlaneM (ℕ × ℕ) := do
  let (object, memory, _) ← takeObject len
  match (← draw).error with
  | some e => do
    onArena (Arena.untake object memory)
    throw (.kernel e)
  | none => do
    let a ← draw
    onArena (Arena.hold object memory)
    match a.checked with
    | .error reason => do
      onArena (Arena.free object)
      throw (.refused reason)
    | .ok rows => do
      let id ← addBatch object 0 len
      pure (id, rows)

/-- A share or the hold of `batch` has gone: free it once nothing holds it. -/
def settle (batch : ℕ) : PlaneM Unit := do
  match (← get).batches.get batch with
  | none => pure ()
  | some b =>
    if 0 < b.shares ∨ b.held then pure ()
    else do
      modify fun p => { p with batches := p.batches.erase batch }
      onArena (Arena.free b.object)
      tell (.freed batch)

/-- Bytes of a window are back. -/
def windowBack (object : ℕ) : PlaneM Unit :=
  modify fun p => { p with windows := p.windows - p.arena.bytes object }

/-- A record `task` put on `output`, in arena object `object`: checked, then a batch, or
refused and the task ended. -/
def arrived (task output object memory offset len : ℕ) : PlaneM Unit := do
  let a ← draw
  onArena (Arena.hold object memory)
  windowBack object
  match a.checked with
  | .ok rows => do
    let id ← addBatch object offset len
    tell (.put task output id rows len)
  | .error reason => do
    onArena (Arena.free object)
    match (← get).tasks.get task with
    | none => throw (.unknown "task")
    | some t =>
      match t.outputs[output]? with
      | none => throw (.unknown "output")
      | some _ =>
        -- the task may have ended on its own meanwhile
        match (← draw).error with
        | none | some .badState => tell (.refused task output reason)
        | some e => throw (.kernel e)

/-! ### Polling -/

/-- What a slot of `task` gave back goes where it belongs. -/
def received (task index : ℕ) : Taken → PlaneM Unit
  | .released cookie => do
    modify fun p => { p with
      batches := p.batches.modify cookie fun b => { b with shares := b.shares - 1 } }
    tell (.released task index cookie)
    settle cookie
  | .put cookie memory offset len => arrived task index cookie memory offset len
  | .returned cookie memory => do
    windowBack cookie
    onArena (Arena.untake cookie memory)

/-- The loop over one slot's events; `n` bounds its passes. -/
def pollSlotLoop (task : ℕ) (output : Bool) (index : ℕ) : ℕ → PlaneM Unit
  | 0 => pure ()
  | n + 1 => do
    match (← get).tasks.get task with
    | none => pure ()
    | some t =>
      match (t.recs output)[index]? with
      | none => pure ()
      | some rec =>
        if rec.drained then pure ()
        else do
          match ← take rec.slot with
          | .ok taken => do
            received task index taken
            pollSlotLoop task output index n
          | .error .shouldWait => pure ()
          | .error .peerClosed =>
            modify fun p => { p with
              tasks := p.tasks.modify task fun t => t.setDrained output index }
          | .error e => throw (.kernel e)

def pending : ℕ := p.calls.slots.sum fun _ s => s.entries.length

/-- The loop over one slot's events: every pass but the last takes an entry, and nothing
is pushed meanwhile. -/
def pollSlot (task : ℕ) (output : Bool) (index : ℕ) : PlaneM Unit := do
  pollSlotLoop task output index ((← get).pending + 1)

/-- A message on a port: the kernel writes every request, anything else is not one. -/
def request (task : ℕ) : Option Request → PlaneM Unit
  | some r => tell (.call task r.token r.port r.bytes)
  | none => throw (.unknown "a port message that is no request")

def pollPort (task : ℕ) : PlaneM Unit := do
  match (← get).tasks.get task with
  | none => pure ()
  | some t =>
    if t.openPort then do
      let a ← draw
      a.requests.forM (request task)
      match a.error with
      | none | some .shouldWait => pure ()
      | some .peerClosed =>
        modify fun p => { p with tasks := p.tasks.modify task fun t => { t with portDone := true } }
      | some e => throw (.kernel e)
    else pure ()

/-- The task has ended and everything it held is back. -/
def retireTask (task : ℕ) : PlaneM Unit := do
  match (← get).tasks.get task with
  | none => pure ()
  | some t =>
    if t.allDrained then do
      modify fun p => { p with tasks := p.tasks.erase task }
      tell (.ended task)
    else pure ()

def pollTask (task : ℕ) : PlaneM Unit := do
  match (← get).tasks.get task with
  | none => pure ()
  | some t =>
    if t.ended then pure ()
    else do
      (List.range t.inputs.length).forM (pollSlot task false)
      (List.range t.outputs.length).forM (pollSlot task true)
      pollPort task
      retireTask task

/-- Takes every event every open slot has, and every port request, into the queue. -/
def poll : PlaneM Unit := do
  (← get).tasks.keys.forM pollTask

/-! ### The port -/

/-- What a task's plane has: how many input and output slots, and whether it may call
ports. -/
structure Shape where
  inputs : ℕ
  outputs : ℕ
  port : Bool

/-- The most slots one task has. -/
def PLANE_SLOTS : ℕ := 64

/-- The most slots and port channels one `next` waits on. -/
def WAITED_MAX : ℕ := 64

def waited : ℕ := p.tasks.sum fun _ t => t.openSlots.length + t.openPort.toNat

def newSlots (output : Bool) : ℕ → PlaneM (List SlotRec)
  | 0 => pure []
  | n + 1 => do
    let s ← slot output
    let rest ← newSlots output n
    pure (⟨s, false⟩ :: rest)

/-- `channel_create`, for a task that may call ports. -/
def channel (port : Bool) : PlaneM Unit := if port then call else pure ()

/-- `open`: a task's plane, before the task starts. -/
def openTask (shape : Shape) : PlaneM ℕ := do
  if PLANE_SLOTS < shape.inputs + shape.outputs then throw (.limit "slots of one task")
  else if WAITED_MAX < (← get).waited + (shape.inputs + shape.outputs) + shape.port.toNat then
    throw (.limit "slots and ports waited on at once")
  else do
    let inputs ← newSlots false shape.inputs
    let outputs ← newSlots true shape.outputs
    channel shape.port
    let p ← get
    set { p with
      nextTask := (p.nextTask + 1) % 2 ^ 32
      tasks := p.tasks.insert p.nextTask ⟨inputs, outputs, shape.port, false, false⟩ }
    pure p.nextTask

/-- The refusal of a push, as the port names it. -/
def pushError : Error → PlaneError
  | .shouldWait => .full
  | .badState => .closed
  | e => .kernel e

def offer (task input batch : ℕ) : PlaneM Unit := do
  let p ← get
  match p.batches.get batch with
  | none => throw (.unknown "batch")
  | some b =>
    match p.tasks.get task with
    | none => throw (.unknown "task")
    | some t =>
      match t.inputs[input]? with
      | none => throw (.unknown "input")
      | some rec =>
        match p.arena.handle b.object with
        | none => throw (.unknown "a batch whose object a slot holds")
        | some _ => do
          call
          let share ← newHandle
          match ← push rec.slot ⟨batch, share⟩ with
          | .error e => throw (pushError e)
          | .ok () =>
            modify fun p => { p with
              batches := p.batches.modify batch fun b => { b with shares := b.shares + 1 } }

def finish (task input : ℕ) : PlaneM Unit := do
  match (← get).tasks.get task with
  | none => throw (.unknown "task")
  | some t =>
    match t.inputs[input]? with
    | none => throw (.unknown "input")
    | some _ => call

/-- Grants `task` a window of at least `bytes` on its output `output`. -/
def grant (task output bytes : ℕ) : PlaneM Unit := do
  match (pages bytes).filter (0 < ·) with
  | none => throw (.limit "a window of no bytes, or past u64")
  | some len =>
    match (← get).tasks.get task with
    | none => throw (.unknown "output")
    | some t =>
      match t.outputs[output]? with
      | none => throw (.unknown "output")
      | some rec => do
        let (id, memory, size) ← takeObject len
        match ← push rec.slot ⟨id, memory⟩ with
        | .ok () => modify fun p => { p with windows := p.windows + size }
        | .error e => do
          onArena (Arena.untake id memory)
          throw (pushError e)

def dropBatch (batch : ℕ) : PlaneM Unit := do
  match (← get).batches.get batch with
  | none => throw (.unknown "batch")
  | some b =>
    if b.held then do
      modify fun p => { p with
        batches := p.batches.modify batch fun b => { b with held := false } }
      settle batch
    else throw (.unknown "a batch the engine no longer holds")

/-- What the arena holds now. -/
structure Residency where
  budget : ℕ
  made : ℕ
  resident : ℕ
  batches : ℕ
  shares : ℕ
  windows : ℕ
  pooled : ℕ

def residency : Residency where
  budget := p.arena.budget
  made := p.arena.made
  resident := p.batches.sum fun _ b => b.len
  batches := p.batches.entries.length
  shares := p.batches.sum fun _ b => b.shares
  windows := p.windows
  pooled := p.arena.pooled

def popEvent : PlaneM (Option Event) := fun p =>
  match p.events with
  | [] => .ok none p
  | e :: rest => .ok (some e) { p with events := rest }

/-- Whether there is anything to wait for. -/
def idle : Bool := p.tasks.entries.all fun e => e.2.openSlots.isEmpty && !e.2.openPort

def nextLoop : ℕ → PlaneM (Option Event)
  | 0 => pure none
  | n + 1 => do
    match ← popEvent with
    | some e => pure (some e)
    | none => do
      poll
      match ← popEvent with
      | some e => pure (some e)
      | none =>
        if (← get).idle then pure none
        else do
          call
          nextLoop n

/-- The next event, waiting until the deadline; the answer says how often the wait is
woken before. -/
def next : PlaneM (Option Event) := do
  nextLoop ((← draw).passes + 1)

/-! ### Runs -/

inductive Op where
  | openTask (shape : Shape)
  | loadWith (len : ℕ)
  | grant (task output bytes : ℕ)
  | offer (task input batch : ℕ)
  | dropBatch (batch : ℕ)
  | finish (task input : ℕ)
  | next

def after {α : Type} (x : PlaneM α) (p : KernelPlane) : KernelPlane :=
  match x p with
  | .ok _ p' => p'
  | .error _ p' => p'

def step : Op → KernelPlane
  | .openTask shape => after (openTask shape) p
  | .loadWith len => after (loadWith len) p
  | .grant task output bytes => after (grant task output bytes) p
  | .offer task input batch => after (offer task input batch) p
  | .dropBatch batch => after (dropBatch batch) p
  | .finish task input => after (finish task input) p
  | .next => after next p

def run (ops : List Op) : KernelPlane := ops.foldl step p

end KernelPlane

end Moruna.Plane
