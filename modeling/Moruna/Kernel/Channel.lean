/-
Moruna/Kernel/Channel.lean

Channels between processes: messages of bytes and handles.

A handle in a message belongs to no process: it was removed from the sender's table and is
inserted into the reader's.  A call looks its endpoint up first and takes the locks of its
table and its channel later, so other calls run in between; what it does under the locks is
one step.  An endpoint closes when nothing refers to it any more, and the handles queued
towards it are dropped with it.

Two things are kept that the code does not have: a tag that says which handle is which, and
what was sent towards an endpoint and what was read from it.  A read inserts a clone of each
handle and then drops the message's own, so the clone keeps the tag.  What the account, user
memory and the allocator answer is part of a step.
-/
import Moruna.Lib.Exec
import Moruna.Lib.Registry
import Moruna.Kernel.HandleMap

namespace Moruna.Kernel

/-! ### Handles -/

structure Endpoint where
  channel : ℕ
  side : Bool
  deriving DecidableEq

def Endpoint.peer (e : Endpoint) : Endpoint := ⟨e.channel, !e.side⟩

/-- What a handle names: an endpoint, or something else. -/
inductive Object where
  | channel (e : Endpoint)
  | other (id : ℕ)
  deriving DecidableEq

structure Handle where
  tag : ℕ
  object : Object
  rights : Rights
  deriving DecidableEq

def Handle.endpoint (h : Handle) : Option Endpoint :=
  match h.object with
  | .channel e => some e
  | .other _ => none

/-! ### Channels -/

structure Message where
  bytes : List UInt8
  handles : List Handle
  /-- How many of `handles` are channel endpoints. -/
  endpoints : ℕ

/-- What a channel keeps for one endpoint. -/
structure Side where
  /-- The messages the endpoint will read. -/
  queue : List Message
  isOpen : Bool
  /-- The endpoints in the messages queued towards it. -/
  carried : ℕ
  sent : List Message
  delivered : List Message

structure Channel where
  ends : Bool → Side

namespace Channel

def new : Channel := ⟨fun _ => ⟨[], true, 0, [], []⟩⟩

def modify (c : Channel) (side : Bool) (f : Side → Side) : Channel :=
  ⟨fun b => if b = side then f (c.ends b) else c.ends b⟩

end Channel

namespace Side

def carry (n : ℕ) (s : Side) : Side := { s with carried := s.carried + n }

def uncarry (n : ℕ) (s : Side) : Side := { s with carried := s.carried - n }

def push (m : Message) (s : Side) : Side :=
  { s with queue := s.queue ++ [m], sent := s.sent ++ [m] }

/-- The first message leaves the queue, read. -/
def pop (s : Side) : Side :=
  match s.queue with
  | [] => s
  | m :: rest => uncarry m.endpoints { s with queue := rest, delivered := s.delivered ++ [m] }

/-- The endpoint closes: what is queued towards it goes. -/
def close (s : Side) : Side :=
  { s with
    queue := []
    isOpen := false
    carried := s.carried - (s.queue.map Message.endpoints).sum }

/-- The weights of the handles queued towards the endpoint, added up. -/
def sum (weight : Handle → ℕ) (s : Side) : ℕ :=
  (s.queue.map fun m => (m.handles.map weight).sum).sum

end Side

def Channel.sum (weight : Handle → ℕ) (c : Channel) : ℕ :=
  (c.ends false).sum weight + (c.ends true).sum weight

/-! ### The world -/

/-- A call that has looked its endpoint up and not yet taken its locks. -/
inductive Call where
  | write (process : ℕ) (endpoint : Endpoint) (payload : List UInt8) (values : List RawHandle)
  | read (process : ℕ) (endpoint : Endpoint) (cap hcap : ℕ)

def Call.endpoint : Call → Endpoint
  | .write _ e .. => e
  | .read _ e .. => e

/-- The processes' tables, the channels, the calls under way, the handles dropped, and the
next tag. -/
structure World where
  tables : Registry (HandleTable Handle)
  channels : Registry Channel
  calls : List Call
  dropped : List Handle
  next : ℕ

namespace World

def setTable (w : World) (p : ℕ) (t : HandleTable Handle) : World :=
  { w with tables := w.tables.modify p fun _ => t }

def onSide (w : World) (e : Endpoint) (f : Side → Side) : World :=
  { w with channels := w.channels.modify e.channel fun c => c.modify e.side f }

def forget (w : World) (hs : List Handle) : World := { w with dropped := w.dropped ++ hs }

end World

/-- What the account, user memory and the allocator answer in one step. -/
structure Answers where
  /-- The account refuses the charge of the call. -/
  charge : Option Error
  /-- The `i`-th copy from or to user memory fails. -/
  copy : ℕ → Option Error
  /-- The account refuses to let the table grow for the `i`-th insert. -/
  grow : ℕ → Option Error
  /-- There is memory for a slot at the `i`-th insert. -/
  reserve : ℕ → Bool
  /-- There is memory for the call's own lists, the `i`-th time it asks. -/
  memory : ℕ → Bool

/-- A failed call: the error, and what comes with it. -/
structure Fail where
  error : Error
  rdx : ℕ
  deriving DecidableEq

/-- A call in the world: it fails in the state it has reached. -/
abbrev CallM := EStateM Fail World

namespace CallM

def fail {α : Type} (e : Error) : CallM α := throw ⟨e, 0⟩

/-- Something outside may refuse. -/
def attempt : Option Error → CallM Unit
  | none => pure ()
  | some e => fail e

def require {α : Type} : Except Error α → CallM α
  | .ok a => pure a
  | .error e => fail e

def table (p : ℕ) : CallM (HandleTable Handle) := do
  match (← get).tables.get p with
  | some t => pure t
  | none => fail .badHandle

def setTable (p : ℕ) (t : HandleTable Handle) : CallM Unit := modify fun w => w.setTable p t

def side (e : Endpoint) : CallM Side := do
  match (← get).channels.get e.channel with
  | some c => pure (c.ends e.side)
  | none => fail .badHandle

def onSide (e : Endpoint) (f : Side → Side) : CallM Unit := modify fun w => w.onSide e f

def forget (hs : List Handle) : CallM Unit := modify fun w => w.forget hs

def newHandle (object : Object) (rights : Rights) : CallM Handle := fun w =>
  .ok ⟨w.next, object, rights⟩ { w with next := w.next + 1 }

/-! ### Tables -/

def raw (value : ℕ) : Except Error RawHandle :=
  if value < 2 ^ 32 then .ok (UInt32.ofNat value) else .error .badHandle

/-- The handle `value` names in the table of `p`, with `rights` required. -/
def lookup (p value : ℕ) (rights : Rights) : CallM Handle := do
  let h ← require ((raw value).bind (← table p).get)
  if Rights.contains h.rights rights then pure h else fail .accessDenied

/-- The endpoint `value` names: the type is checked before the rights. -/
def typed (p value : ℕ) (rights : Rights) : CallM Endpoint := do
  let h ← lookup p value 0
  match h.endpoint with
  | none => fail .wrongType
  | some e => if Rights.contains h.rights rights then pure e else fail .accessDenied

/-- Inserts `h` as the `i`-th handle of the call, growing the table's charge first when a
slot is made. -/
def insertInto (t : HandleTable Handle) (h : Handle) (a : Answers) (i : ℕ) :
    Except Error (RawHandle × HandleTable Handle) :=
  match (if t.free.isEmpty then a.grow i else none) with
  | some e => .error e
  | none => (t.insertOrReturn h (a.reserve i)).mapError Prod.fst

def insert (p : ℕ) (h : Handle) (a : Answers) : CallM RawHandle := do
  match insertInto (← table p) h a 0 with
  | .ok (v, t) => do
    setTable p t
    pure v
  | .error e => do
    forget [h]
    fail e

def remove (p : ℕ) (v : RawHandle) : CallM Handle := do
  let (h, t) ← require ((← table p).remove v)
  setTable p t
  pure h

/-! ### Writing -/

/-- The endpoints among the handles `values` name, each of which must be there, with
`TRANSFER`, once, and not one of the channel's own; `done` are the values before. -/
def carriedBy (t : HandleTable Handle) (endpoint : Endpoint) (a : Answers) :
    List RawHandle → List RawHandle → Except Error (List Endpoint)
  | _, [] => .ok []
  | done, v :: rest =>
    match t.get v with
    | .error e => .error e
    | .ok h =>
      if !Rights.contains h.rights Rights.TRANSFER then .error .accessDenied
      else if h.endpoint.any fun e => e.channel == endpoint.channel then .error .invalidArgs
      else if h.endpoint.isSome && !a.memory done.length then .error .noMemory
      else if done.contains v then .error .invalidArgs
      else (carriedBy t endpoint a (done ++ [v]) rest).map (h.endpoint.toList ++ ·)

/-- Whether no message queued towards the endpoint carries an endpoint. -/
def carriesNone (w : World) (e : Endpoint) : Bool :=
  match w.channels.get e.channel with
  | some c => (c.ends e.side).carried == 0
  | none => true

/-- The cycle rule: an endpoint travels only while no message queued towards it carries
an endpoint; checked and counted under one lock. -/
def cycleRule (to_ : Endpoint) (carried : List Endpoint) : CallM Unit :=
  if carried.isEmpty then pure ()
  else do
    let w ← get
    if carried.any fun e => !carriesNone w e then fail .badState
    else onSide to_ (Side.carry carried.length)

def takeAll (p : ℕ) : List RawHandle → CallM (List Handle)
  | [] => pure []
  | v :: rest => do
    let h ← remove p v
    let hs ← takeAll p rest
    pure (h :: hs)

/-- `channel_write` under its locks. -/
def channelWrite (p : ℕ) (endpoint : Endpoint) (payload : List UInt8) (values : List RawHandle)
    (a : Answers) : CallM (ℕ × ℕ) := do
  let carried ← require (carriedBy (← table p) endpoint a [] values)
  let to_ ← side endpoint.peer
  if !to_.isOpen then fail .peerClosed
  else if Limits.CHANNEL_DEPTH ≤ to_.queue.length then fail .shouldWait
  else if !a.memory values.length then fail .noMemory
  else do
    cycleRule endpoint.peer carried
    let moved ← takeAll p values
    onSide endpoint.peer (Side.push ⟨payload, moved, carried.length⟩)
    pure (0, 0)

/-- `channel_write` up to its locks: the endpoint, the bounds, the charge and the copies. -/
def beginWrite (p value : ℕ) (payload : List UInt8) (values : List RawHandle) (a : Answers) :
    CallM Unit := do
  let endpoint ← typed p value Rights.WRITE
  if Limits.CHANNEL_MAX_BYTES < payload.length ∨ Limits.CHANNEL_MAX_HANDLES < values.length then
    fail .limit
  else do
    attempt a.charge
    attempt (a.copy 0)
    attempt (a.copy 1)
    modify fun w => { w with calls := w.calls ++ [.write p endpoint payload values] }

/-! ### Reading -/

def removeIf (p : ℕ) (v : RawHandle) : CallM Unit := do
  match (← table p).remove v with
  | .ok (_, t) => setTable p t
  | .error _ => pure ()

/-- Removes what a read has inserted. -/
def rollback (p : ℕ) : List RawHandle → CallM Unit
  | [] => pure ()
  | v :: rest => do
    removeIf p v
    rollback p rest

/-- Inserts a clone of each handle; when one is refused, those before it are removed. -/
def insertAll (p : ℕ) (a : Answers) : List Handle → List RawHandle → CallM (List RawHandle)
  | [], inserted => pure inserted
  | h :: rest, inserted => do
    match insertInto (← table p) h a inserted.length with
    | .ok (v, t) => do
      setTable p t
      insertAll p a rest (inserted ++ [v])
    | .error e => do
      rollback p inserted
      fail e

/-- `channel_read` under its locks. -/
def channelRead (p : ℕ) (endpoint : Endpoint) (cap hcap : ℕ) (a : Answers) : CallM (ℕ × ℕ) := do
  let t ← table p
  let own ← side endpoint
  match own.queue with
  | [] => do
    let peer ← side endpoint.peer
    fail (if peer.isOpen then .shouldWait else .peerClosed)
  | front :: _ =>
    let nb := front.bytes.length
    let nh := front.handles.length
    if cap < nb ∨ hcap < nh then throw ⟨.bufferTooSmall, nh * 2 ^ 32 + nb⟩
    else if t.room < nh then fail .limit
    else do
      attempt (a.copy 0)
      let inserted ← insertAll p a front.handles []
      match a.copy 1 with
      | some e => do
        rollback p inserted
        fail e
      | none => do
        onSide endpoint Side.pop
        pure (nb, nh)

def beginRead (p value cap hcap : ℕ) : CallM Unit := do
  let endpoint ← typed p value Rights.READ
  modify fun w => { w with calls := w.calls ++ [.read p endpoint cap hcap] }

/-! ### The other calls that move handles -/

def handleClose (p value : ℕ) : CallM Unit := do
  let h ← remove p (← require (raw value))
  forget [h]

def handleDuplicate (p value rights : ℕ) (a : Answers) : CallM RawHandle := do
  let h ← lookup p value Rights.DUPLICATE
  match Rights.fromBits rights with
  | none => fail .invalidArgs
  | some rights =>
    if Rights.contains h.rights rights then do insert p (← newHandle h.object rights) a
    else fail .accessDenied

/-- A handle to something new that is no channel. -/
def insertObject (p id : ℕ) (rights : Rights) (a : Answers) : CallM RawHandle := do
  let _ ← table p
  insert p (← newHandle (.other id) rights) a

/-- A channel and a handle to each of its ends. -/
def channelCreate (p : ℕ) (a : Answers) : CallM (RawHandle × RawHandle) := do
  attempt a.charge
  let t ← table p
  let c := (← get).channels.next
  modify fun w => { w with channels := w.channels.insert .new }
  if t.room < 2 then fail .limit
  else do
    let first ← newHandle (.channel ⟨c, false⟩) Rights.channel
    match insertInto t first a 0 with
    | .error e => do
      forget [first]
      fail e
    | .ok (v, t) => do
      setTable p t
      let second ← newHandle (.channel ⟨c, true⟩) Rights.channel
      match insertInto t second a 1 with
      | .ok (v', t) => do
        setTable p t
        pure (v, v')
      | .error e => do
        let undone ← remove p v
        forget [second, undone]
        fail e

/-- Whether the entries of a start can be taken: each handle there, with `TRANSFER`, under a
valid name, and no value or name twice. -/
def namedOk (t : HandleTable Handle) :
    List (RawHandle × List UInt8) → List (RawHandle × List UInt8) → Except Error Unit
  | _, [] => .ok ()
  | done, (v, name) :: rest =>
    match t.get v with
    | .error e => .error e
    | .ok h =>
      if !Rights.contains h.rights Rights.TRANSFER then .error .accessDenied
      else if !validName name || done.any (fun d => d.1 == v || d.2 == name) then
        .error .invalidArgs
      else namedOk t (done ++ [(v, name)]) rest

def takeNamed (p : ℕ) (specs : List (RawHandle × List UInt8)) : CallM (List Handle) := do
  require (namedOk (← table p) [] specs)
  takeAll p (specs.map Prod.fst)

/-- Moves the handles into the table of `q`; what a refusal leaves unmoved is dropped. -/
def moveIn (q : ℕ) (a : Answers) : List Handle → ℕ → CallM Unit
  | [], _ => pure ()
  | h :: rest, i => do
    match insertInto (← table q) h a i with
    | .ok (_, t) => do
      setTable q t
      moveIn q a rest (i + 1)
    | .error e => do
      forget (h :: rest)
      fail e

/-- The handles a process takes out for one it starts: they are dropped when the other is
not to be started. -/
def processGrant (p q : ℕ) (specs : List (RawHandle × List UInt8)) (a : Answers) : CallM Unit := do
  let moved ← takeNamed p specs
  match a.charge with
  | some e => do
    forget moved
    fail e
  | none =>
    match (← get).tables.get q with
    | none => do
      forget moved
      fail .badState
    | some _ => moveIn q a moved 0

def exit (p : ℕ) : CallM Unit := do
  let (hs, t) := (← table p).drain
  setTable p t
  forget hs

end CallM

/-! ### Runs -/

namespace World

/-- What refers to an endpoint: handles in tables and in messages, and calls under way. -/
def refs (w : World) (e : Endpoint) : ℕ :=
  let named (h : Handle) := if h.endpoint = some e then 1 else 0
  w.tables.sum (fun _ t => t.sum named) + w.channels.sum (fun _ c => c.sum named) +
    w.calls.countP fun c => c.endpoint == e

/-- The endpoint's last reference is gone: it closes, and the handles queued towards it are
dropped. -/
def dropEndpoint (w : World) (e : Endpoint) : World :=
  match w.channels.get e.channel with
  | none => w
  | some c =>
    if w.refs e = 0 then
      (w.onSide e Side.close).forget ((c.ends e.side).queue.flatMap Message.handles)
    else w

def perform (a : Answers) : Call → CallM (ℕ × ℕ)
  | .write p e payload values => CallM.channelWrite p e payload values a
  | .read p e cap hcap => CallM.channelRead p e cap hcap a

inductive Op where
  | spawn (salt : UInt32)
  | channelCreate (p : ℕ) (a : Answers)
  | insertObject (p id : ℕ) (rights : Rights) (a : Answers)
  | handleClose (p value : ℕ)
  | handleDuplicate (p value rights : ℕ) (a : Answers)
  | beginWrite (p value : ℕ) (payload : List UInt8) (values : List RawHandle) (a : Answers)
  | beginRead (p value cap hcap : ℕ)
  /-- The `k`-th call under way. -/
  | finish (k : ℕ) (a : Answers)
  | processGrant (p q : ℕ) (specs : List (RawHandle × List UInt8)) (a : Answers)
  | exit (p : ℕ)
  | dropEndpoint (e : Endpoint)

def after {α : Type} (x : CallM α) (w : World) : World :=
  match x w with
  | .ok _ w' => w'
  | .error _ w' => w'

def step (w : World) : Op → World
  | .spawn salt => { w with tables := w.tables.insert (.new salt) }
  | .channelCreate p a => after (CallM.channelCreate p a) w
  | .insertObject p id rights a => after (CallM.insertObject p id rights a) w
  | .handleClose p value => after (CallM.handleClose p value) w
  | .handleDuplicate p value rights a => after (CallM.handleDuplicate p value rights a) w
  | .beginWrite p value payload values a => after (CallM.beginWrite p value payload values a) w
  | .beginRead p value cap hcap => after (CallM.beginRead p value cap hcap) w
  | .finish k a =>
    match w.calls[k]? with
    | none => w
    | some c => after (perform a c) { w with calls := w.calls.eraseIdx k }
  | .processGrant p q specs a => after (CallM.processGrant p q specs a) w
  | .exit p => after (CallM.exit p) w
  | .dropEndpoint e => w.dropEndpoint e

def empty : World := ⟨.empty, .empty, [], [], 0⟩

def run (w : World) (ops : List Op) : World := ops.foldl step w

end World

end Moruna.Kernel
