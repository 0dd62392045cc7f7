/-
Moruna/RecordRing/Ring.lean

The ring (`moruna-record`, `ring.rs`): a multi-producer, single-consumer queue of encoded
records in a byte region.  A position is a byte counter that only grows, its offset in the
data area the position modulo the capacity.  A slot is a length word, a state word and
the payload, rounded up to eight bytes.

The model is a step relation on the shared words, the data area and the registers of the
handles.  Every atomic access of `claim`, `publish` and `Consumer::step` is one step, every
payload byte copied and every byte zeroed is one step, a weak compare-exchange may fail
without a reason, and a producer may die before any of its steps.  Beside the program's
state runs a history that no step of the program reads: the slots claimed, what each push
came to, and what was popped.

The length word is stored after the reservation, the payload after the length and the state
after the payload; the four publications of one slot are four kinds of step.
-/
import Moruna.RecordRing.Codec

namespace Moruna.RecordRing

open List Function

/-! ### Words and sizes -/

/-- The smallest and the largest data area. -/
def MIN_CAPACITY : ℕ := 64
def MAX_CAPACITY : ℕ := 2 ^ 30

def HEADER : ℕ := 320

def SLOT_HEAD : ℕ := 8

def WRITING : UInt32 := 0
def READY : UInt32 := 1
def PADDING : UInt32 := 2
def CLAIMED : UInt32 := 0x80000000

/-- The bytes a slot of `len` payload bytes takes: `(SLOT_HEAD + len + 7) & !7`. -/
def slotSize (len : ℕ) : ℕ := (SLOT_HEAD + len + 7) / 8 * 8

def lenWord (len : ℕ) : UInt32 := UInt32.ofNat len ||| CLAIMED

/-- A data area: a power of two within the supported sizes. -/
structure Capacity where
  bits : ℕ
  min : MIN_CAPACITY ≤ 2 ^ bits
  max : 2 ^ bits ≤ MAX_CAPACITY

def Capacity.bytes (c : Capacity) : ℕ := 2 ^ c.bits

/-! ### The region -/

/-- The first eight bytes of a formatted region: "MRNGREC1". -/
def MAGIC : ℕ := 0x4D524E4752454331

/-- The region the caller provides: where it starts and its size. -/
structure Region where
  addr : ℕ
  len : ℕ

/-- The header words that `init` stores for good; the counters are the state's. -/
structure Head where
  magic : ℕ
  capacity : ℕ

/-- What every handle holds. -/
structure Core where
  base : ℕ
  capacity : ℕ
  deriving DecidableEq

def checkShape (region : Region) : Except Error Unit :=
  if region.addr % 64 ≠ 0 then .error .misaligned
  else if region.len < HEADER + MIN_CAPACITY then
    .error (.regionTooSmall region.len (HEADER + MIN_CAPACITY))
  else .ok ()

/-- The data area of a region of `len` bytes: the largest power of two that fits after the
header, at most `MAX_CAPACITY`. -/
def initCapacity (len : ℕ) : ℕ := min (2 ^ Nat.log2 (len - HEADER)) MAX_CAPACITY

/-- The header `init` writes, the capacity before the magic. -/
def initHead (region : Region) : Except Error Head :=
  (checkShape region).map fun _ => { magic := MAGIC, capacity := initCapacity region.len }

/-- `attach` to a region with this header, `read` and `reserve` as it loads them. -/
def attach (region : Region) (head : Head) (read reserve : ℕ) : Except Error Core := do
  checkShape region
  if head.magic ≠ MAGIC then .error .badMagic
  else if 2 ^ Nat.log2 head.capacity ≠ head.capacity then
    .error (.badHeader "the capacity is not a power of two")
  else if ¬ (MIN_CAPACITY ≤ head.capacity ∧ head.capacity ≤ MAX_CAPACITY) then
    .error (.badHeader "the capacity is outside the supported sizes")
  else if region.len - HEADER < head.capacity then
    .error (.badHeader "the capacity is larger than the region")
  else if reserve < read ∨ head.capacity < reserve - read then
    .error (.badHeader "the counters do not describe a ring")
  else .ok { base := region.addr, capacity := head.capacity }

/-! ### Memory -/

/-- The data area, by offset. -/
abbrev Memory := ℕ → UInt8

def store (mem : Memory) (off : ℕ) (b : Bytes) : Memory := fun o =>
  if off ≤ o ∧ o < off + b.length then b.getD (o - off) 0 else mem o

def load (mem : Memory) (off n : ℕ) : Bytes := (List.range n).map fun i => mem (off + i)

def loadWord (mem : Memory) (off : ℕ) : UInt32 := UInt32.ofNat (leNat (load mem off 4))

def wordBytes (w : UInt32) : Bytes := leBytes 4 w.toNat

/-! ### What a push copies -/

/-- A push past its checks: the payload's length and the bytes it copies into the slot, one
after the other. -/
structure Job where
  len : ℕ
  writes : List (ℕ × UInt8)
  inside : ∀ w ∈ writes, w.1 < len

/-- Copy some of the bytes into a payload. -/
def Job.copy (data : Bytes) (writes : List (ℕ × UInt8)) : Bytes :=
  writes.foldl (fun d w => d.set w.1 w.2) data

def Job.record (job : Job) : Bytes := Job.copy (List.replicate job.len 0) job.writes

/-- The bytes of `b`, one after the other, from index `k` on. -/
def placed : ℕ → Bytes → List (ℕ × UInt8)
  | _, [] => []
  | k, x :: b => (k, x) :: placed (k + 1) b

variable {b : Bytes} {k : ℕ}

theorem lt_of_mem_placed {w : ℕ × UInt8} (h : w ∈ placed k b) :
    w.1 < k + b.length := by
  induction b generalizing k with
  | nil => cases h
  | cons x b ih =>
    rw [length_cons]
    rcases mem_cons.mp h with rfl | h
    · show k < _
      omega
    · have := ih h
      omega

/-- `push`: the bytes in order. -/
def Job.ofBytes (b : Bytes) : Job :=
  ⟨b.length, placed 0 b, fun w hw => by simpa using lt_of_mem_placed hw⟩

/-- `push_record`: the fields from `seq` on as `encode_into` copies them, then the length and
the crc. -/
def Job.ofRecord (r : Record) : Job :=
  ⟨(layout r).length, placed 8 (content r) ++ (placed 0 (leBytes 4 (4 + (content r).length)) ++
      placed 4 (leBytes 4 (crc32c (content r)).toNat)), fun w hw => by
    have hlen := length_layout r
    rcases mem_append.mp hw with hw | hw
    · have := lt_of_mem_placed hw
      omega
    rcases mem_append.mp hw with hw | hw <;>
    · have := lt_of_mem_placed hw
      rw [length_leBytes] at this
      omega⟩

theorem copy_append (d : Bytes) (l l' : List (ℕ × UInt8)) :
    Job.copy d (l ++ l') = Job.copy (Job.copy d l) l' := foldl_append

theorem copy_placed {d : Bytes} (h : k + b.length ≤ d.length) :
    Job.copy d (placed k b) = copyAt d k b := by
  induction b generalizing k d with
  | nil => simp [placed, Job.copy, copyAt]
  | cons x b ih =>
    rw [length_cons] at h
    have hk : k < d.length := by omega
    show Job.copy (d.set k x) (placed (k + 1) b) = _
    have hset : d.set k x = (d.take k ++ [x]) ++ d.drop (k + 1) := by
      rw [set_eq_take_append_cons_drop, if_pos hk, append_assoc, singleton_append]
    rw [ih (by rw [length_set]; omega), hset,
      copyAt_append (by rw [length_append, length_take, length_singleton]; omega)]
    unfold copyAt
    rw [drop_drop, length_cons, show k + 1 + b.length = k + (b.length + 1) by omega]
    simp only [append_assoc, singleton_append]

theorem record_ofBytes (b : Bytes) : (Job.ofBytes b).record = b := by
  show Job.copy (List.replicate b.length 0) (placed 0 b) = b
  rw [copy_placed (by simp), copyAt_zero, drop_replicate, Nat.sub_self, replicate_zero, append_nil]

theorem record_ofRecord (r : Record) : (Job.ofRecord r).record = layout r := by
  have hlen := length_layout r
  show Job.copy (List.replicate (layout r).length 0) (placed 8 (content r) ++
    (placed 0 (leBytes 4 (4 + (content r).length)) ++
      placed 4 (leBytes 4 (crc32c (content r)).toNat))) = _
  have hzero : List.replicate (layout r).length (0 : UInt8)
      = List.replicate 8 0 ++ List.replicate (content r).length 0 := by
    rw [replicate_append_replicate, hlen]
  have hbody : Job.copy (List.replicate (layout r).length 0) (placed 8 (content r))
      = List.replicate 8 0 ++ content r := by
    rw [copy_placed (by rw [length_replicate]; omega), hzero,
      copyAt_append length_replicate, drop_replicate, Nat.sub_self, replicate_zero,
      append_nil]
  have hword : Job.copy (List.replicate 8 0 ++ content r)
      (placed 0 (leBytes 4 (4 + (content r).length)))
      = leBytes 4 (4 + (content r).length) ++ (List.replicate 4 0 ++ content r) := by
    rfl
  rw [copy_append, copy_append, hbody, hword, copy_placed (by simp; omega),
    copyAt_append (length_leBytes 4 _), drop_left' (by simp), layout,
    append_assoc]

/-! ### The handles -/

/-- Where a producer is: before the step the constructor names. -/
inductive Producer where
  /-- outside `push` -/
  | idle
  /-- at the head of `claim`'s loop -/
  | enter (job : Job)
  /-- `read` loaded -/
  | sawRead (job : Job) (read : ℕ)
  /-- `read` and `reserve` loaded -/
  | sawBoth (job : Job) (read reserve : ℕ)
  /-- no room: about to count the refusal -/
  | full (job : Job)
  /-- `reserve` moved over the slot at `pos`, its length not stored -/
  | won (job : Job) (pos : ℕ)
  /-- `reserve` moved over padding to the end, its length not stored -/
  | padWon (job : Job) (pos tail : ℕ)
  /-- the padding's length stored, its state not -/
  | padded (job : Job) (pos tail : ℕ)
  /-- the slot's length stored, these payload bytes still to copy, its state not stored -/
  | writing (job : Job) (pos : ℕ) (todo : List (ℕ × UInt8))
  /-- gone -/
  | dead

/-- Where the consumer is. -/
inductive Phase where
  /-- between calls -/
  | idle
  /-- releasing a slot of `size` bytes, the first `done` of them zeroed -/
  | zeroing (size done : ℕ)
  /-- at the head of `step`'s loop -/
  | look
  /-- the state word loaded -/
  | sawState (state : UInt32)
  /-- both words loaded -/
  | sawWord (state word : UInt32)
  /-- a slot being written, `reserve` loaded: about to ask `is_stale` -/
  | asking (word : UInt32) (claimed : Bool)
  /-- the slot is settled: about to store `commit` -/
  | settling (state word : UInt32) (size : ℕ)
  deriving DecidableEq

inductive Fault where
  | corruptSlot (pos : ℕ)
  | staleExtentUnknown (pos : ℕ)
  deriving DecidableEq

/-- The consumer's registers; `skip` tells `pop_or_skip_stale` from `pop`. -/
structure Consumer where
  pos : ℕ
  held : Option ℕ
  fault : Option Fault
  phase : Phase
  skip : Bool

/-! ### The history -/

/-- How far a slot has come. -/
inductive Stage where
  | claimed
  | sized
  | settled
  deriving DecidableEq

/-- A claimed slot: its place, its payload's length, who claimed it, the record it is for
(`none` for padding), and what it holds. -/
structure Slot where
  pos : ℕ
  len : ℕ
  owner : ℕ
  record : Option Bytes
  stage : Stage
  bytes : Bytes

def Slot.size (x : Slot) : ℕ := slotSize x.len

/-- What a push came to. -/
inductive Event where
  | claimed (owner : ℕ) (record : Bytes)
  | refused (owner : ℕ)
  deriving DecidableEq

def Event.owner : Event → ℕ
  | .claimed i _ => i
  | .refused i => i

def Event.record? : Event → Option Bytes
  | .claimed _ r => some r
  | .refused _ => none

/-- The history: the slots claimed and not released, those released, what the pushes came
to, how many each producer began, and the records `pop` returned. -/
structure History where
  slots : List Slot
  gone : List Slot
  log : List Event
  begun : ℕ → ℕ
  popped : List Bytes

/-- The ring and its handles, with their history. -/
structure State where
  mem : Memory
  reserve : ℕ
  commit : ℕ
  read : ℕ
  dropped : ℕ
  producers : ℕ → Producer
  consumer : Consumer
  past : History

/-- The ring `init` formats, with its consumer. -/
def init : State where
  mem := fun _ => 0
  reserve := 0
  commit := 0
  read := 0
  dropped := 0
  producers := fun _ => .idle
  consumer := { pos := 0, held := none, fault := none, phase := .idle, skip := false }
  past := { slots := [], gone := [], log := [], begun := fun _ => 0, popped := [] }

/-! ### Steps -/

/-- One step: producer `i` begins a push or makes its next access (`weak`: a weak
compare-exchange fails without a reason), dies, or the consumer makes its next access
(`skip`: a call begun here is `pop_or_skip_stale`). -/
inductive Act where
  | start (i : ℕ) (job : Job)
  | tick (i : ℕ) (weak : Bool)
  | die (i : ℕ)
  | consume (skip : Bool)

section Step

variable (c : Capacity)

/-- The offset of a position: `pos & mask`. -/
def Capacity.off (pos : ℕ) : ℕ := pos % c.bytes

/-- The bytes the next access of producer `i` stores, and where. -/
def producerStore : Producer → Option (ℕ × Bytes)
  | .won job pos => some (c.off pos, wordBytes (lenWord job.len))
  | .padWon _ pos tail => some (c.off pos, wordBytes (lenWord (tail - SLOT_HEAD)))
  | .padded _ pos _ => some (c.off pos + 4, wordBytes PADDING)
  | .writing _ pos ((k, b) :: _) => some (c.off pos + (SLOT_HEAD + k), [b])
  | .writing _ pos [] => some (c.off pos + 4, wordBytes READY)
  | _ => none

/-- The bytes the consumer's next access stores in the data area, and where. -/
def consumerStore (k : Consumer) : Option (ℕ × Bytes) :=
  match k.phase with
  | .zeroing size done => if done < size then some (c.off k.pos + done, [0]) else none
  | _ => none

variable (s : State)

def storeOf : Act → Option (ℕ × Bytes)
  | .tick i _ => producerStore c (s.producers i)
  | .consume _ => consumerStore c s.consumer
  | _ => none

def memAfter (a : Act) : Memory :=
  match storeOf c s a with
  | some (off, b) => store s.mem off b
  | none => s.mem

def onSlot (pos : ℕ) (f : Slot → Slot) (l : List Slot) : List Slot :=
  l.map fun x => if x.pos = pos then f x else x

/-- The slot with `b` copied over its bytes from `k` on, now at `stage`. -/
def Slot.written (k : ℕ) (b : Bytes) (stage : Stage) (x : Slot) : Slot :=
  { x with bytes := copyAt x.bytes k b, stage := stage }

def newSlot (pos len owner : ℕ) (record : Option Bytes) : Slot :=
  { pos := pos, len := len, owner := owner, record := record, stage := .claimed,
    bytes := List.replicate (slotSize len) 0 }

def State.setProducer (i : ℕ) (p : Producer) : State :=
  { s with producers := update s.producers i p }

/-- The compare-exchange of `claim`: the slot when it fits before the end, otherwise padding
to the end; `Full` when there is no room for either. -/
def claimStep (i : ℕ) (job : Job) (read reserve : ℕ) (weak : Bool) : State :=
  let slot := slotSize job.len
  let tail := c.bytes - c.off reserve
  if slot ≤ tail then
    if c.bytes < reserve - read + slot then s.setProducer i (.full job)
    else if weak = true ∨ s.reserve ≠ reserve then s.setProducer i (.enter job)
    else
      { s with
        reserve := reserve + slot
        producers := update s.producers i (.won job reserve)
        past := { s.past with
          slots := s.past.slots ++ [newSlot reserve job.len i (some job.record)]
          log := s.past.log ++ [.claimed i job.record] } }
  else
    if c.bytes < reserve - read + tail then s.setProducer i (.full job)
    else if weak = true ∨ s.reserve ≠ reserve then s.setProducer i (.enter job)
    else
      { s with
        reserve := reserve + tail
        producers := update s.producers i (.padWon job reserve tail)
        past := { s.past with
          slots := s.past.slots ++ [newSlot reserve (tail - SLOT_HEAD) i none] } }

/-- The next access of producer `i`, apart from what it stores in the data area. -/
def producerStep (i : ℕ) (weak : Bool) : State :=
  match s.producers i with
  | .idle => s
  | .dead => s
  | .enter job => s.setProducer i (.sawRead job s.read)
  | .sawRead job read => s.setProducer i (.sawBoth job read s.reserve)
  | .sawBoth job read reserve => claimStep c s i job read reserve weak
  | .full _ =>
    { s with
      dropped := s.dropped + 1
      producers := update s.producers i .idle
      past := { s.past with log := s.past.log ++ [.refused i] } }
  | .won job pos =>
    { s with
      producers := update s.producers i (.writing job pos job.writes)
      past := { s.past with
        slots := onSlot pos (Slot.written 0 (wordBytes (lenWord job.len)) .sized) s.past.slots } }
  | .padWon job pos tail =>
    { s with
      producers := update s.producers i (.padded job pos tail)
      past := { s.past with
        slots := onSlot pos (Slot.written 0 (wordBytes (lenWord (tail - SLOT_HEAD))) .sized)
          s.past.slots } }
  | .padded job pos _ =>
    { s with
      producers := update s.producers i (.enter job)
      past := { s.past with
        slots := onSlot pos (Slot.written 4 (wordBytes PADDING) .settled) s.past.slots } }
  | .writing job pos ((k, b) :: todo) =>
    { s with
      producers := update s.producers i (.writing job pos todo)
      past := { s.past with
        slots := onSlot pos (Slot.written (SLOT_HEAD + k) [b] .sized) s.past.slots } }
  | .writing _ pos [] =>
    { s with
      producers := update s.producers i .idle
      past := { s.past with
        slots := onSlot pos (Slot.written 4 (wordBytes READY) .settled) s.past.slots } }

/-- `is_stale`, telling exactly the slots whose producer is gone. -/
def isStale (pos : ℕ) : Bool :=
  s.past.slots.any fun x => x.pos == pos && match s.producers x.owner with
    | .dead => true
    | _ => false

/-- `extent`: the size of the slot at `pos` whose length word is `word`, or the fault. -/
def extent (pos : ℕ) (word : UInt32) : Except Fault ℕ :=
  if word &&& CLAIMED = 0 then .error (.corruptSlot pos)
  else
    let size := slotSize (word &&& ~~~ CLAIMED).toNat
    if c.bytes - c.off pos < size then .error (.corruptSlot pos) else .ok size

def State.setPhase (phase : Phase) : State :=
  { s with consumer := { s.consumer with phase := phase } }

/-- Go on with the slot's size, or stop for ever with the fault. -/
def settle (state word : UInt32) (size : Except Fault ℕ) : State :=
  match size with
  | .ok size => s.setPhase (.settling state word size)
  | .error fault => { s with consumer := { s.consumer with phase := .idle, fault := some fault } }

/-- The consumer's next access, apart from what it stores in the data area. -/
def consumerStep (skip : Bool) : State :=
  let k := s.consumer
  match k.phase with
  | .idle =>
    if k.fault.isSome then s
    else
      match k.held with
      | some size =>
        { s with consumer := { k with held := none, phase := .zeroing size 0, skip := skip } }
      | none => { s with consumer := { k with phase := .look, skip := skip } }
  | .zeroing size done =>
    if done < size then
      { s with
        consumer := { k with phase := .zeroing size (done + 1) }
        past := { s.past with
          slots := onSlot k.pos (fun x => { x with bytes := copyAt x.bytes done [0] })
            s.past.slots } }
    else
      { s with
        read := k.pos + size
        consumer := { k with pos := k.pos + size, phase := .look }
        past := { s.past with
          slots := s.past.slots.tail
          gone := s.past.gone ++ s.past.slots.take 1 } }
  | .look => s.setPhase (.sawState (loadWord s.mem (c.off k.pos + 4)))
  | .sawState state => s.setPhase (.sawWord state (loadWord s.mem (c.off k.pos)))
  | .sawWord state word =>
    if state = READY ∨ state = PADDING then settle s state word (extent c k.pos word)
    else if state = WRITING then s.setPhase (.asking word (decide (k.pos < s.reserve)))
    else settle s state word (.error (.corruptSlot k.pos))
  | .asking word claimed =>
    if (claimed && (k.skip && isStale s k.pos)) = true then
      settle s WRITING word
        (if word = 0 then .error (.staleExtentUnknown k.pos) else extent c k.pos word)
    else s.setPhase .idle
  | .settling state word size =>
    if state = READY then
      { s with
        commit := k.pos + size
        consumer := { k with held := some size, phase := .idle }
        past := { s.past with
          popped := s.past.popped
            ++ [load s.mem (c.off k.pos + SLOT_HEAD) (word &&& ~~~ CLAIMED).toNat] } }
    else
      { s with
        commit := k.pos + size
        consumer := { k with phase := .zeroing size 0 } }

def step (a : Act) : State :=
  let s' := match a with
    | .start i job =>
      match s.producers i with
      | .idle =>
        { s with
          producers := update s.producers i
            (if c.bytes < slotSize job.len then .full job else .enter job)
          past := { s.past with begun := update s.past.begun i (s.past.begun i + 1) } }
      | _ => s
    | .tick i weak => producerStep c s i weak
    | .die i => s.setProducer i .dead
    | .consume skip => consumerStep c s skip
  { s' with mem := memAfter c s a }

def run (acts : List Act) : State := acts.foldl (step c) s

end Step

end Moruna.RecordRing
