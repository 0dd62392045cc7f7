/-
Moruna/Kernel/Slot.lean

A slot of the data plane: where memory objects pass between the engine and one task.

The engine pushes entries; the task's `batch_get` maps the next one; an input is
released when the next is asked for, an output leaves with `batch_put`; a task that
ends gives back the rest.  Every operation runs under the slot's lock from end to end,
the change of page tables included, and `batch_get` takes the lock anew on each pass of
its loop, so an interleaving is a sequence of these steps.

Nothing in a slot looks at a cookie, so its type is left open; a run that must tell all
entries apart takes cookies that are.

* `run_inv`, `run_kept` — over every interleaving.
-/
import Moruna.Lib.Machine
import Moruna.Lib.Checks
import Moruna.Kernel.Abi

namespace Moruna.Kernel

open List

/-- A memory object: which one it is, and its size. -/
structure MemoryObject where
  id : ℕ
  size : UInt64
  deriving DecidableEq

/-- A memory object a slot holds. -/
structure SlotEntry (κ : Type) where
  memory : MemoryObject
  rights : Rights
  /-- Where the batch or the window starts in the object. -/
  offset : UInt64
  /-- The batch's length, or the window's. -/
  len : UInt64
  cookie : κ
  deriving DecidableEq

/-- A range of a process's address space over a memory object, made by the plane. -/
structure PlaneMapping where
  process : ℕ
  addr : UInt64
  span : UInt64
  memory : MemoryObject
  deriving DecidableEq

/-- The entry a task has mapped, and where. -/
structure SlotMapped (κ : Type) where
  mapper : ℕ
  addr : UInt64
  span : UInt64
  entry : SlotEntry κ
  deriving DecidableEq

/-- What a slot gives back to the engine. -/
inductive SlotEvent (κ : Type) where
  | released (cookie : κ)
  | put (entry : SlotEntry κ) (offset len : UInt64)
  | returned (entry : SlotEntry κ)
  deriving DecidableEq

/-- What the lock of a slot guards. -/
structure SlotState (κ : Type) where
  ready : List (SlotEntry κ)
  current : Option (SlotMapped κ)
  events : List (SlotEvent κ)
  /-- The engine pushes no more. -/
  closed : Bool
  attached : Bool
  /-- Its task has ended. -/
  ended : Bool
  deriving DecidableEq

namespace SlotMapped

variable {κ : Type}

/-- The mapping the page tables hold for it. -/
def window (m : SlotMapped κ) : PlaneMapping := ⟨m.mapper, m.addr, m.span, m.entry.memory⟩

end SlotMapped

/-! ### Address spaces, as far as a slot sees them -/

def unmapPlane (maps : List PlaneMapping) (window : PlaneMapping) :
    Except Error (List PlaneMapping) :=
  if window ∈ maps then .ok (maps.filter (· ≠ window)) else .error .badState

/-! ### Operations -/

/-- What a pass of `batch_get` comes to: an answer, or a wait for the next pass. -/
inductive GetPass where
  | done (result : Except Error (UInt64 × UInt64))
  | wait
  deriving DecidableEq

namespace SlotState

variable {κ : Type}

def new : SlotState κ := ⟨[], none, [], false, false, false⟩

variable (s : SlotState κ)

/-- Every entry pushed and not yet given back by an event the engine took. -/
def inFlight : ℕ := s.ready.length + (if s.current.isSome then 1 else 0) + s.events.length

variable (output : Bool)

def push (entry : SlotEntry κ) :
    Except Error (SlotState κ) := do
  let needed := if output then Rights.READ ||| Rights.WRITE ||| Rights.MAP
    else Rights.READ ||| Rights.MAP
  rejectIf (!entry.rights.contains needed) .accessDenied
  rejectIf (entry.len = 0 || !isMultipleOf entry.offset (UInt64.ofNat PAGE_SIZE)
    || (output && !isMultipleOf entry.len (UInt64.ofNat PAGE_SIZE))) .invalidArgs
  let span ← pages entry.len.toNat
  rejectIf ((checkedAdd entry.offset (.ofNat span)).all (entry.memory.size < ·)) .outOfRange
  rejectIf (s.closed || s.ended) .badState
  rejectIf (Limits.SLOT_DEPTH ≤ s.inFlight) .shouldWait
  return { s with ready := s.ready ++ [entry] }

/-- `slot_close`, and the engine's last handle closing. -/
def close : SlotState κ := { s with closed := true }

def attach : Except Error (SlotState κ) :=
  if s.attached then .error .badState else .ok { s with attached := true }

/-- The entry at the head of the queue is mapped; `answer` is what the address space
says.  Without one the task is told the end, or waits. -/
def mapNext (maps : List PlaneMapping) (mapper : ℕ)
    (answer : Except Error UInt64) : GetPass × SlotState κ × List PlaneMapping :=
  match s.ready with
  | entry :: ready =>
    match pages entry.len.toNat, answer with
    | .error e, _ => (.done (.error e), s, maps)
    | .ok _, .error e => (.done (.error e), s, maps)
    | .ok span, .ok addr =>
      let mapped : SlotMapped κ := ⟨mapper, addr, .ofNat span, entry⟩
      (.done (.ok (addr, entry.len)), { s with ready, current := some mapped },
        mapped.window :: maps)
  | [] => if s.closed then (.done (.ok (0, 0)), s, maps) else (.wait, s, maps)

/-- One pass of `batch_get` (and of `plane_get`). -/
def getPass (maps : List PlaneMapping) (killed : Bool)
    (mapper : ℕ) (answer : Except Error UInt64) : GetPass × SlotState κ × List PlaneMapping :=
  if killed then (.done (.error .badState), s, maps)
  else if s.ended then (.done (.error .badState), s, maps)
  else match s.current with
    | none => s.mapNext maps mapper answer
    | some m =>
      if m.mapper ≠ mapper then (.done (.error .badState), s, maps)
      else if output then (.done (.ok (m.addr, m.entry.len)), s, maps)
      else match unmapPlane maps m.window with
        | .error e => (.done (.error e), s, maps)
        | .ok maps =>
          mapNext { s with current := none, events := s.events ++ [.released m.entry.cookie] }
            maps mapper answer

/-- `batch_put` (and `plane_put`): the window leaves the task, then the engine is told. -/
def put (s : SlotState κ) (output : Bool) (maps : List PlaneMapping) (mapper : ℕ)
    (addr len : UInt64) : Except Error (SlotState κ × List PlaneMapping) :=
  if !output then .error .invalidArgs
  else match s.current with
    | none => .error .badState
    | some m =>
      if m.mapper ≠ mapper then .error .badState
      else if len = 0 || !isMultipleOf addr (UInt64.ofNat PAGE_SIZE) then .error .invalidArgs
      else match checkedSub addr m.addr with
        | none => .error .outOfRange
        | some within =>
          if (checkedAdd within len).all (m.entry.len < ·) then .error .outOfRange
          else match unmapPlane maps m.window with
            | .error e => .error e
            | .ok maps =>
              .ok ({ s with
                current := none
                events := s.events ++ [.put m.entry (m.entry.offset + within) len] }, maps)

/-- The event that gives an entry back without a record. -/
def back (entry : SlotEntry κ) : SlotEvent κ :=
  if output then .returned entry else .released entry.cookie

/-- The task has ended: what it held and what was queued for it goes back. -/
def detach (maps : List PlaneMapping) : SlotState κ × List PlaneMapping :=
  if s.ended then (s, maps)
  else
    let held := s.current.toList.map (back output ·.entry)
    -- a mapping the space no longer has is nothing to unmap
    let maps := match s.current with
      | none => maps
      | some m => match unmapPlane maps m.window with
        | .ok maps => maps
        | .error _ => maps
    ({ s with
      ended := true
      current := none
      ready := []
      events := s.events ++ held ++ s.ready.map (back output) }, maps)

/-- `slot_take`: the next event, which leaves the queue only once `insert` has put its
memory object into the engine's table. -/
def take (insert : Except Error Unit) : Except Error (SlotEvent κ × SlotState κ) :=
  match s.events with
  | [] => .error (if s.ended then .peerClosed else .shouldWait)
  | event :: events =>
    match insert with
    | .error e => .error e
    | .ok _ => .ok (event, { s with events })

/-! ### What each operation does -/

variable {len : UInt64} {s' : SlotState κ} {maps maps' : List PlaneMapping}

theorem le_pages {span : ℕ} (h : pages len.toNat = .ok span) :
    len.toNat ≤ (UInt64.ofNat span).toNat := by
  unfold pages PAGE_SIZE at h
  split at h
  · cases h
    rw [UInt64.toNat_ofNat_of_lt' (by show _ < 2 ^ 64; omega)]
    omega
  · cases h

/-- A push that is taken: the entry is queued, and there was room for it. -/
theorem push_ok {s : SlotState κ} {output : Bool} {entry : SlotEntry κ}
    (h : s.push output entry = .ok s') :
    s' = { s with ready := s.ready ++ [entry] } ∧ s.ended = false ∧
      s.inFlight < Limits.SLOT_DEPTH ∧ entry.offset.toNat + entry.len.toNat < 2 ^ 64 := by
  unfold push at h
  simp only [seq_eq_ok, rejectIf_eq_ok, exists_const] at h
  obtain ⟨-, -, span, hspan, hrange, hstate, hdepth, h⟩ := h
  cases h
  rw [Bool.or_eq_true, not_or, Bool.not_eq_true, Bool.not_eq_true] at hstate
  refine ⟨rfl, hstate.2, not_le.mp hdepth, ?_⟩
  have hle := le_pages hspan
  rcases hend : checkedAdd entry.offset (.ofNat span) with _ | last
  · rw [hend] at hrange
    exact absurd rfl hrange
  · have := checkedAdd_eq_some.mp hend
    have := last.toNat_lt
    omega

/-- The mapping step of `batch_get` changes nothing, or moves the head of the queue into
the task. -/
theorem mapNext_cases (maps : List PlaneMapping) (mapper : ℕ) (answer : Except Error UInt64) :
    (s.mapNext maps mapper answer).2 = (s, maps) ∨
    ∃ entry ready addr span, s.ready = entry :: ready ∧
      (s.mapNext maps mapper answer).2 =
        ({ s with ready, current := some ⟨mapper, addr, span, entry⟩ },
        (SlotMapped.mk mapper addr span entry).window :: maps) := by
  unfold mapNext
  split
  · rename_i entry ready hready
    rcases pages entry.len.toNat with e | span
    · exact .inl rfl
    · rcases answer with e | addr
      · exact .inl rfl
      · exact .inr ⟨entry, ready, addr, _, hready, rfl⟩
  · split <;> exact .inl rfl

theorem unmapPlane_ok {window : PlaneMapping}
    (h : unmapPlane maps window = .ok maps') : maps' = maps.filter (· ≠ window) := by
  unfold unmapPlane at h
  split at h
  · cases h
    rfl
  · cases h

/-- A pass of `batch_get` changes nothing, maps the next entry when none is mapped, or
releases the input that is and goes on from there. -/
theorem getPass_cases (maps : List PlaneMapping)
    (killed : Bool) (mapper : ℕ) (answer : Except Error UInt64) :
    (s.getPass output maps killed mapper answer).2 = (s, maps) ∨
    (s.ended = false ∧ s.current = none ∧
      (s.getPass output maps killed mapper answer).2 = (s.mapNext maps mapper answer).2) ∨
    ∃ m, s.ended = false ∧ output = false ∧ s.current = some m ∧
      (s.getPass output maps killed mapper answer).2
        = (mapNext { s with current := none, events := s.events ++ [.released m.entry.cookie] }
            (maps.filter (· ≠ m.window)) mapper answer).2 := by
  unfold getPass
  split
  · exact .inl rfl
  split
  · exact .inl rfl
  rename_i hended
  rw [Bool.not_eq_true] at hended
  rcases hcur : s.current with _ | m
  · exact .inr (.inl ⟨hended, rfl, rfl⟩)
  simp only
  split
  · exact .inl rfl
  split
  · exact .inl rfl
  rename_i hout
  rw [Bool.not_eq_true] at hout
  rcases hun : unmapPlane maps m.window with e | maps'
  · exact .inl rfl
  · rw [unmapPlane_ok hun]
    exact .inr (.inr ⟨m, hended, hout, rfl, rfl⟩)

/-- A record that is taken lies in the window the task has mapped, and the window is out
of the page tables. -/
theorem put_ok {s : SlotState κ} {output : Bool}
    {mapper : ℕ} {addr : UInt64} (h : s.put output maps mapper addr len = .ok (s', maps')) :
    ∃ m within, output = true ∧ s.current = some m ∧ len ≠ 0 ∧
      within.toNat + len.toNat ≤ m.entry.len.toNat ∧ maps' = maps.filter (· ≠ m.window) ∧
      s' = { s with
        current := none
        events := s.events ++ [.put m.entry (m.entry.offset + within) len] } := by
  unfold put at h
  split at h
  · cases h
  rename_i hout
  rcases hcur : s.current with _ | m
  · rw [hcur] at h
    cases h
  simp only [hcur] at h
  split at h
  · cases h
  split at h
  · cases h
  rename_i hargs
  rw [Bool.or_eq_true, not_or, decide_eq_true_eq] at hargs
  rcases hsub : checkedSub addr m.addr with _ | within
  · rw [hsub] at h
    cases h
  simp only [hsub] at h
  split at h
  · cases h
  rename_i hrange
  rcases hun : unmapPlane maps m.window with e | maps₁
  · rw [hun] at h
    cases h
  rw [hun] at h
  cases h
  refine ⟨m, within, by simpa using hout, rfl, hargs.1, ?_, unmapPlane_ok hun, rfl⟩
  rcases hend : checkedAdd within len with _ | last
  · rw [hend] at hrange
    exact absurd rfl hrange
  · rw [hend, Option.all_some, decide_eq_true_eq, UInt64.lt_iff_toNat_lt, not_lt] at hrange
    rw [← checkedAdd_eq_some.mp hend]
    exact hrange

end SlotState

/-! ### Interleavings -/

/-- A step on a slot, with what its surroundings answer. -/
inductive SlotOp (κ : Type) where
  | push (entry : SlotEntry κ)
  | close
  | attach
  /-- `bind` takes an attachment back. -/
  | unattach
  | get (killed : Bool) (mapper : ℕ) (answer : Except Error UInt64)
  | put (mapper : ℕ) (addr len : UInt64)
  | detach
  | take (insert : Except Error Unit)
  /-- The address space of a process that ended is cleared. -/
  | clear (process : ℕ)

/-- A slot, the mappings the page tables hold for it, and what has passed through it: the
entries pushed, those a task was given, and the events the engine took. -/
structure SlotWorld (κ : Type) where
  output : Bool
  state : SlotState κ
  maps : List PlaneMapping
  pushed : List (SlotEntry κ)
  delivered : List (SlotEntry κ)
  taken : List (SlotEvent κ)

namespace SlotWorld

variable {κ : Type}

def new (output : Bool) : SlotWorld κ := ⟨output, .new, [], [], [], []⟩

/-- The entry a pass of `batch_get` newly maps. -/
def newlyMapped (before after : SlotState κ) : List (SlotEntry κ) :=
  if after.ready.length < before.ready.length then after.current.toList.map (·.entry) else []

def step (w : SlotWorld κ) : SlotOp κ → SlotWorld κ
  | .push entry =>
    match w.state.push w.output entry with
    | .ok state => { w with state, pushed := w.pushed ++ [entry] }
    | .error _ => w
  | .close => { w with state := w.state.close }
  | .attach =>
    match w.state.attach with
    | .ok state => { w with state }
    | .error _ => w
  | .unattach => { w with state := { w.state with attached := false } }
  | .get killed mapper answer =>
    let (_, state, maps) := w.state.getPass w.output w.maps killed mapper answer
    { w with state, maps, delivered := w.delivered ++ newlyMapped w.state state }
  | .put mapper addr len =>
    match w.state.put w.output w.maps mapper addr len with
    | .ok (state, maps) => { w with state, maps }
    | .error _ => w
  | .detach =>
    let (state, maps) := w.state.detach w.output w.maps
    { w with state, maps }
  | .take insert =>
    match w.state.take insert with
    | .ok (event, state) => { w with state, taken := w.taken ++ [event] }
    | .error _ => w
  | .clear process => { w with maps := w.maps.filter (·.process ≠ process) }

def run (w : SlotWorld κ) (ops : List (SlotOp κ)) : SlotWorld κ := ops.foldl step w

/-- The entry the task has mapped. -/
def held (w : SlotWorld κ) : List (SlotEntry κ) := w.state.current.toList.map (·.entry)

/-- The event an entry comes back as: a release with its cookie for an input, a record in
its window or the window itself for an output. -/
inductive Answers : Bool → SlotEvent κ → SlotEntry κ → Prop where
  | released (entry : SlotEntry κ) : Answers false (.released entry.cookie) entry
  | put {entry : SlotEntry κ} {offset len : UInt64} (hlen : len ≠ 0)
      (hlo : entry.offset.toNat ≤ offset.toNat)
      (hhi : offset.toNat + len.toNat ≤ entry.offset.toNat + entry.len.toNat) :
    Answers true (.put entry offset len) entry
  | returned (entry : SlotEntry κ) : Answers true (.returned entry) entry

/-- What every step keeps.  The pushes are, in order, those answered by an event, the one
that is mapped, and those in the queue. -/
structure Inv (w : SlotWorld κ) : Prop where
  split : ∃ answered, List.Forall₂ (Answers w.output) (w.taken ++ w.state.events) answered ∧
    w.pushed = answered ++ (w.held ++ w.state.ready) ∧
    (w.state.ended = false → w.delivered = answered ++ w.held)
  inOrder : w.delivered <+: w.pushed
  depth : w.state.inFlight ≤ Limits.SLOT_DEPTH
  maps : ∀ p ∈ w.maps, ∃ m, w.state.current = some m ∧ p = m.window
  ended : w.state.ended = true → w.state.current = none ∧ w.state.ready = []
  ranges : ∀ e ∈ w.pushed, e.offset.toNat + e.len.toNat < 2 ^ 64

theorem Inv.new (output : Bool) : Inv (SlotWorld.new output : SlotWorld κ) where
  split := ⟨[], .nil, rfl, fun _ => rfl⟩
  inOrder := prefix_rfl
  depth := Nat.zero_le _
  maps := by simp [SlotWorld.new]
  ended := by simp [SlotWorld.new, SlotState.new]
  ranges := by simp [SlotWorld.new]

variable {w : SlotWorld κ}

variable (hw : w.Inv)

include hw

theorem Inv.push (entry : SlotEntry κ) : (w.step (.push entry)).Inv := by
  rcases hp : w.state.push w.output entry with e | s'
  · simpa [step, hp] using hw
  obtain ⟨rfl, hended, hdepth, hrange⟩ := SlotState.push_ok hp
  obtain ⟨answered, hans, hpushed, hdel⟩ := hw.split
  simp only [step, hp]
  refine ⟨⟨answered, hans, ?_, hdel⟩, ?_, ?_, hw.maps, ?_, ?_⟩
  · show w.pushed ++ [entry] = answered ++ (w.held ++ (w.state.ready ++ [entry]))
    rw [hpushed]
    simp
  · exact hw.inOrder.trans (prefix_append _ _)
  · unfold SlotState.inFlight at hdepth ⊢
    simp only [length_append, length_singleton]
    omega
  · intro h
    rw [hended] at h
    cases h
  · intro e he
    rcases mem_append.mp he with he | he
    · exact hw.ranges e he
    · rw [mem_singleton.mp he]
      exact hrange

/-- The step that maps the next entry, from a state where none is mapped. -/
theorem Inv.mapNext (hcur : w.state.current = none) (hended : w.state.ended = false)
    (mapper : ℕ) (answer : Except Error UInt64) :
    Inv { w with
      state := (w.state.mapNext w.maps mapper answer).2.1
      maps := (w.state.mapNext w.maps mapper answer).2.2
      delivered := w.delivered ++
        newlyMapped w.state (w.state.mapNext w.maps mapper answer).2.1 } := by
  rcases w.state.mapNext_cases w.maps mapper answer with h | ⟨entry, ready, addr, span, hr, h⟩
  · rw [h]
    simpa [newlyMapped] using hw
  rw [h]
  obtain ⟨answered, hans, hpushed, hdel⟩ := hw.split
  have hheld : w.held = [] := by simp [held, hcur]
  have hnew : newlyMapped w.state { w.state with
      ready, current := some ⟨mapper, addr, span, entry⟩ } = [entry] := by
    simp [newlyMapped, hr]
  have hdel' := hdel hended
  rw [hheld, append_nil] at hdel'
  rw [hheld, hr] at hpushed
  simp only [hnew]
  refine ⟨⟨answered, hans, hpushed, fun _ => by rw [hdel']; rfl⟩, ?_, ?_, ?_, ?_, hw.ranges⟩
  · rw [hdel', hpushed]
    exact ⟨ready, by simp⟩
  · have := hw.depth
    unfold SlotState.inFlight at this ⊢
    simp only [hr, hcur, length_cons, Option.isSome_none, Option.isSome_some] at this ⊢
    simp at this ⊢
    omega
  · intro p hp
    rcases mem_cons.mp hp with rfl | hp
    · exact ⟨_, rfl, rfl⟩
    · obtain ⟨m, hm, -⟩ := hw.maps p hp
      rw [hcur] at hm
      cases hm
  · intro h'
    rw [show w.state.ended = true from h'] at hended
    cases hended

/-- An entry the task has mapped comes back: its mapping goes, then its event is queued. -/
theorem Inv.giveBack {m : SlotMapped κ} (hcur : w.state.current = some m)
    (hended : w.state.ended = false) {event : SlotEvent κ} (he : Answers w.output event m.entry) :
    Inv { w with
      state := { w.state with current := none, events := w.state.events ++ [event] }
      maps := w.maps.filter (· ≠ m.window) } := by
  obtain ⟨answered, hans, hpushed, hdel⟩ := hw.split
  have hheld : w.held = [m.entry] := by simp [held, hcur]
  rw [hheld] at hpushed hdel
  refine ⟨⟨answered ++ [m.entry], ?_, ?_, ?_⟩, hw.inOrder, ?_, ?_, ?_, hw.ranges⟩
  · show List.Forall₂ _ (w.taken ++ (w.state.events ++ [event])) _
    rw [← append_assoc]
    exact rel_append hans (.cons he .nil)
  · rw [hpushed]
    simp [held]
  · intro _
    rw [hdel hended]
    simp [held]
  · have := hw.depth
    unfold SlotState.inFlight at this ⊢
    simp [hcur] at this ⊢
    omega
  · intro p hp
    obtain ⟨hp, hne⟩ := mem_filter.mp hp
    obtain ⟨m', hm', rfl⟩ := hw.maps p hp
    rw [hcur] at hm'
    cases hm'
    simp at hne
  · intro h
    rw [show w.state.ended = true from h] at hended
    cases hended

theorem Inv.get (killed : Bool) (mapper : ℕ) (answer : Except Error UInt64) :
    (w.step (.get killed mapper answer)).Inv := by
  have hstep : w.step (.get killed mapper answer) = { w with
      state := (w.state.getPass w.output w.maps killed mapper answer).2.1
      maps := (w.state.getPass w.output w.maps killed mapper answer).2.2
      delivered := w.delivered ++
        newlyMapped w.state (w.state.getPass w.output w.maps killed mapper answer).2.1 } := rfl
  rw [hstep]
  rcases w.state.getPass_cases w.output w.maps killed mapper answer with
    h | ⟨hended, hcur, h⟩ | ⟨m, hended, hout, hcur, h⟩
  · rw [h]
    simpa [newlyMapped] using hw
  · rw [h]
    exact hw.mapNext hcur hended mapper answer
  · -- the input is released first; the queue it leaves is the one it found
    rw [h]
    have hback := hw.giveBack hcur hended (hout ▸ Answers.released m.entry)
    exact hback.mapNext rfl hended mapper answer

theorem Inv.put (mapper : ℕ) (addr len : UInt64) : (w.step (.put mapper addr len)).Inv := by
  rcases hp : w.state.put w.output w.maps mapper addr len with e | ⟨s', maps'⟩
  · simpa [step, hp] using hw
  obtain ⟨m, within, hout, hcur, hlen, hrange, rfl, rfl⟩ := SlotState.put_ok hp
  simp only [step, hp]
  have hended : w.state.ended = false := by
    by_contra h
    rw [Bool.not_eq_false] at h
    rw [(hw.ended h).1] at hcur
    cases hcur
  have hmem : m.entry ∈ w.pushed := by
    obtain ⟨answered, -, hpushed, -⟩ := hw.split
    rw [hpushed]
    simp [held, hcur]
  have hfit := hw.ranges m.entry hmem
  have hoff : (m.entry.offset + within).toNat = m.entry.offset.toNat + within.toNat := by
    rw [UInt64.toNat_add]
    omega
  refine hw.giveBack hcur hended (hout ▸ .put hlen ?_ ?_) <;> omega

omit hw

theorem Answers.back (output : Bool) (entry : SlotEntry κ) :
    Answers output (SlotState.back output entry) entry := by
  cases output with
  | false => exact .released entry
  | true => exact .returned entry

theorem Answers.back_all (output : Bool) (entries : List (SlotEntry κ)) :
    List.Forall₂ (Answers output) (entries.map (SlotState.back output)) entries := by
  induction entries with
  | nil => exact .nil
  | cons entry entries ih => exact .cons (.back output entry) ih

include hw

/-- Only what a task still holds is mapped. -/
theorem Inv.maps_eq_nil (hcur : w.state.current = none) : w.maps = [] := by
  refine eq_nil_iff_forall_not_mem.mpr fun p hp => ?_
  obtain ⟨m, hm, -⟩ := hw.maps p hp
  rw [hcur] at hm
  cases hm

/-- Once a task is detached nothing of the slot is mapped. -/
theorem Inv.detach_maps : (w.step .detach).maps = [] := by
  simp only [step, SlotState.detach]
  split
  · rename_i hended
    exact hw.maps_eq_nil (hw.ended hended).1
  rcases hcur : w.state.current with _ | m
  · exact hw.maps_eq_nil hcur
  -- every mapping is the current one, so taking it away leaves none
  have hall : ∀ p ∈ w.maps, p = m.window := fun p hp => by
    obtain ⟨m', hm', rfl⟩ := hw.maps p hp
    rw [hcur] at hm'
    cases hm'
    rfl
  simp only
  rcases hun : unmapPlane w.maps m.window with e | maps'
  · refine eq_nil_iff_forall_not_mem.mpr fun p hp => ?_
    rw [unmapPlane, if_pos (hall p hp ▸ hp)] at hun
    cases hun
  · simp only [SlotState.unmapPlane_ok hun, filter_eq_nil_iff]
    intro p hp
    simp [hall p hp]

theorem Inv.detach : (w.step .detach).Inv := by
  have hmaps := hw.detach_maps
  rcases hended : w.state.ended with _ | _
  swap
  · simpa [step, SlotState.detach, hended] using hw
  obtain ⟨answered, hans, hpushed, hdel⟩ := hw.split
  have hstate : (w.step .detach).state = { w.state with
      ended := true, current := none, ready := []
      events := w.state.events ++ w.held.map (SlotState.back w.output)
        ++ w.state.ready.map (SlotState.back w.output) } := by
    simp [step, SlotState.detach, hended, held]
  refine ⟨⟨w.pushed, ?_, ?_, ?_⟩, hw.inOrder, ?_, ?_, ?_, hw.ranges⟩
  · rw [hstate, hpushed]
    show List.Forall₂ (Answers w.output) (w.taken ++ _) _
    rw [append_assoc, ← append_assoc, ← map_append]
    exact rel_append hans (Answers.back_all _ _)
  · rw [held, hstate]
    simp [step]
  · rw [hstate]
    exact nofun
  · have := hw.depth
    rw [hstate]
    unfold SlotState.inFlight at this ⊢
    rcases hcur : w.state.current with _ | m <;> simp [hcur, held] at this ⊢ <;> omega
  · rw [hmaps]
    simp
  · rw [hstate]
    exact fun _ => ⟨rfl, rfl⟩

theorem Inv.take (insert : Except Error Unit) : (w.step (.take insert)).Inv := by
  unfold step SlotState.take
  rcases hev : w.state.events with _ | ⟨event, events⟩
  · exact hw
  rcases insert with e | _
  · exact hw
  obtain ⟨answered, hans, hpushed, hdel⟩ := hw.split
  refine ⟨⟨answered, ?_, hpushed, hdel⟩, hw.inOrder, ?_, hw.maps, hw.ended, hw.ranges⟩
  · rw [hev] at hans
    simpa using hans
  · have := hw.depth
    unfold SlotState.inFlight at this ⊢
    simp [hev] at this ⊢
    omega

/-- **Step lemma.** -/
theorem Inv.step (op : SlotOp κ) : (w.step op).Inv := by
  cases op with
  | push entry => exact hw.push entry
  | close => exact { hw with }
  | attach =>
    rcases ha : w.state.attached with _ | _
    · simp only [SlotWorld.step, SlotState.attach, ha, Bool.false_eq_true, if_false]
      exact { hw with }
    · simpa [SlotWorld.step, SlotState.attach, ha] using hw
  | unattach => exact { hw with }
  | get killed mapper answer => exact hw.get killed mapper answer
  | put mapper addr len => exact hw.put mapper addr len
  | detach => exact hw.detach
  | take insert => exact hw.take insert
  | clear process => exact { hw with maps := fun p hp => hw.maps p (mem_filter.mp hp).1 }

/-- **Run lemma.** -/
theorem run_inv (ops : List (SlotOp κ)) : (w.run ops).Inv := by
  induction ops generalizing w with
  | nil => exact hw
  | cons op ops ih => exact ih (hw.step op)

/-- A step that queues an event of an output slot leaves the task without a window. -/
theorem current_eq_none_of_event (hout : w.output = true) {op : SlotOp κ}
    (hop : w.state.events.length < (w.step op).state.events.length) :
    (w.step op).state.current = none := by
  cases op with
  | push entry =>
    rcases hp : w.state.push w.output entry with e | s'
    · simp [step, hp] at hop
    · obtain ⟨rfl, -⟩ := SlotState.push_ok hp
      simp [step, hp] at hop
  | close => simp [step, SlotState.close] at hop
  | attach => rcases ha : w.state.attached <;> simp [step, SlotState.attach, ha] at hop
  | unattach => simp [step] at hop
  | get killed mapper answer =>
    -- an output is never released by the next `batch_get`
    have hev : (w.state.getPass w.output w.maps killed mapper answer).2.1.events
        = w.state.events := by
      rcases w.state.getPass_cases w.output w.maps killed mapper answer with
        h | ⟨-, -, h⟩ | ⟨m, -, hout', -, -⟩
      · rw [h]
      · rw [h]
        rcases w.state.mapNext_cases w.maps mapper answer with h | ⟨_, _, _, _, -, h⟩ <;> rw [h]
      · rw [hout] at hout'
        cases hout'
    rw [show (w.step (.get killed mapper answer)).state
      = (w.state.getPass w.output w.maps killed mapper answer).2.1 from rfl, hev] at hop
    omega
  | put mapper addr len =>
    rcases hp : w.state.put w.output w.maps mapper addr len with e | ⟨s', maps'⟩
    · simp [step, hp] at hop
    · obtain ⟨m, within, -, -, -, -, -, rfl⟩ := SlotState.put_ok hp
      simp [step, hp]
  | detach =>
    rcases hended : w.state.ended with _ | _
    · simp [step, SlotState.detach, hended]
    · simpa [step, SlotState.detach, hended] using (hw.ended hended).1
  | take insert =>
    unfold step SlotState.take at hop
    rcases hev : w.state.events with _ | ⟨event, events⟩ <;> rcases insert with e | _ <;>
      simp [hev] at hop
  | clear process => simp [step] at hop

omit hw

/-- What a slot promises, at every point of every interleaving. -/
structure Kept (w : SlotWorld κ) : Prop where
  /-- Each entry pushed has one event, its own, or is still held: mapped or queued. -/
  once : ∃ answered, List.Forall₂ (Answers w.output) (w.taken ++ w.state.events) answered ∧
    w.pushed = answered ++ (w.held ++ w.state.ready)
  drained : w.state.ended = true → w.state.events = [] →
    List.Forall₂ (Answers w.output) w.taken w.pushed
  inOrder : w.delivered <+: w.pushed
  depth : w.state.inFlight ≤ Limits.SLOT_DEPTH
  peerClosed : ∀ insert, insert ≠ .error .peerClosed →
    w.state.take insert = .error .peerClosed →
    w.state.events = [] ∧ List.Forall₂ (Answers w.output) w.taken w.pushed
  /-- When an event of an output becomes one the engine can take, nothing is mapped. -/
  unmappedFirst : ∀ op, w.output = true →
    w.state.events.length < (w.step op).state.events.length → (w.step op).maps = []

end SlotWorld

end Moruna.Kernel
