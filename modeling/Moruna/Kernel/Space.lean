/-
Moruna/Kernel/Space.lean

A process's address space: its areas, the zero pages allocated in them, and what the
account is charged for both.

An area is a run of whole pages with one protection and one backing.  The calls run under
the space's lock; what they do to the page table itself is left out, but not that it can
refuse, nor that the account, the frame allocator or an object that is too short can:
those decisions are read from a list of answers.  Two things the code takes to be
impossible are kept as faults, so that it can be shown that they are: `settle` finding
less charged than the space costs, and the count of tables going below zero.
-/
import Moruna.Lib.OrdMap
import Moruna.Lib.Exec
import Moruna.Kernel.Tables

namespace Moruna.Kernel

/-! ### Areas -/

/-- Where a static image's segments may lie. -/
def IMAGE_START : ℕ := 0x1000

/-- Where mappings are placed when the kernel chooses: the end of the image range. -/
def MAP_BASE : ℕ := 0x1000_0000_0000

def MAP_END : ℕ := 0x7fff_ffff_f000

/-- What made an area, which decides what a process may do to it itself. -/
inductive AreaKind where
  | image
  | stack
  | startPage
  | mapping
  /-- What the data plane mapped; only the data plane unmaps it. -/
  | plane
  deriving DecidableEq

/-- What fills an area's pages. -/
inductive Backing where
  /-- Pages of a memory object, from its page `first`. -/
  | object (memory first : ℕ) (writable : Bool)
  /-- Zero pages, each allocated when first touched. -/
  | zero
  /-- Device memory, from byte `offset` of the region. -/
  | device (region offset : ℕ) (writable : Bool)
  deriving DecidableEq

namespace Backing

def writable : Backing → Bool
  | object _ _ writable => writable
  | device _ _ writable => writable
  | zero => true

/-- The same backing for the part of an area that starts `skip` pages in. -/
def advanced (skip : ℕ) : Backing → Backing
  | object memory first writable => object memory (first + skip) writable
  | zero => zero
  | device region offset writable => device region (offset + skip * PAGE_SIZE) writable

end Backing

/-- Protection bits; none is no access. -/
abbrev Prot := UInt64

namespace Prot

def READ : Prot := 1
def WRITE : Prot := 2
def EXECUTE : Prot := 4
def PROTECTION : Prot := 7

/-- Whether any of the bits `flags` is set. -/
def has (prot flags : Prot) : Bool := prot &&& flags != 0

end Prot

structure Area where
  stop : ℕ
  kind : AreaKind
  prot : Prot
  backing : Backing
  deriving DecidableEq

/-- How a thread touched a page. -/
inductive Access where
  | read
  | write
  | execute
  deriving DecidableEq

def allows (prot : Prot) : Access → Bool
  | .read => Prot.has prot Prot.PROTECTION
  | .write => Prot.has prot Prot.WRITE
  | .execute => Prot.has prot Prot.EXECUTE

/-- The program break: where the heap starts, and its end as last asked for. -/
structure Brk where
  start : ℕ
  current : ℕ

/-- What the code takes to be impossible. -/
inductive Fault where
  /-- `settle` found less charged than the space costs. -/
  | accountingBroken
  /-- More tables were freed than there are. -/
  | tablesUnderflow
  deriving DecidableEq

/-- What the space's lock protects. -/
structure Inner where
  areas : OrdMap ℕ Area
  /-- Every zero page allocated, by its address. -/
  zero : OrdMap ℕ Unit
  brk : Option Brk
  /-- The table pages charged for the regions the areas touch. -/
  tables : ℕ
  /-- What is charged to the account. -/
  charged : ℕ
  faults : List Fault

namespace Inner

def empty : Inner := ⟨.empty, .empty, none, 0, 0, []⟩

variable (i : Inner)

/-- What the areas, the zero pages and the tables cost now. -/
def cost : ℕ :=
  i.areas.size * Charges.AREA + i.zero.size * Charges.ZERO_PAGE + i.tables * Charges.PAGE

/-- The end of the area nearest below `start` and the start of the one nearest at or above
`stop`. -/
def neighbours (start stop : ℕ) : Option ℕ × Option ℕ :=
  ((i.areas.lastBelow start).map (·.2.stop), (i.areas.firstFrom stop).map (·.1))

/-- Gives back what was charged beyond what the space costs now. -/
def settle : Inner :=
  if i.charged < i.cost then { i with faults := i.faults ++ [.accountingBroken] }
  else { i with charged := i.cost }

def freeTables (n : ℕ) : Inner :=
  if n ≤ i.tables then { i with tables := i.tables - n }
  else
    { i with
      tables := (i.tables + 2 ^ 64 - n) % 2 ^ 64
      faults := i.faults ++ [.tablesUnderflow] }

variable (va stop : ℕ)

/-- The areas of `va .. stop`, the highest first, as far as they reach above `va`. -/
def downFrom : List (ℕ × Area) := (i.areas.between 0 stop).reverse.takeWhile fun e => va < e.2.stop

def touchesPlane : Bool := (i.downFrom va stop).any fun e => e.2.kind == .plane

/-- The area holding `addr`, with its start. -/
def areaAt (addr : ℕ) : Option (ℕ × Area) :=
  (i.areas.lastBelow (addr + 1)).filter fun e => addr < e.2.stop

/-- Splits the area holding `at_`, if one does and `at_` is inside it, so that an area
begins there. -/
def split (at_ : ℕ) : Inner :=
  match (i.areas.lastBelow at_).filter fun e => at_ < e.2.stop with
  | none => i
  | some (start, area) =>
    let skip := (at_ - start) / PAGE_SIZE
    { i with
      areas := (i.areas.modify start fun a => { a with stop := at_ }).insert at_
        { area with backing := area.backing.advanced skip } }

def splitNeeded (at_ : ℕ) : Bool :=
  match i.areaAt at_ with
  | none => false
  | some (start, area) => start < at_ && at_ < area.stop

/-- New area records needed by splitting these boundaries. -/
def splitBytes : ℕ := ((i.splitNeeded va).toNat + (i.splitNeeded stop).toNat) * Charges.AREA

def overlaps : Bool :=
  match i.areas.lastBelow stop with
  | none => false
  | some (_, a) => va < a.stop

/-- The first candidate with room for `len` bytes and a guard page before the next area. -/
def candidate (len : ℕ) : List (ℕ × Area) → ℕ → ℕ
  | [], c => c
  | (start, area) :: rest, c =>
    if c + len + PAGE_SIZE < 2 ^ 64 ∧ c + len + PAGE_SIZE ≤ start then c
    else candidate len rest (max c (area.stop + PAGE_SIZE))

/-- A free range of `len` bytes in the kernel's mapping area, with an unmapped guard page
on each side, first fit. -/
def findFree (len : ℕ) : Except Error ℕ :=
  let c := candidate len (i.areas.entries.filter fun e => MAP_BASE ≤ e.1) (MAP_BASE + PAGE_SIZE)
  if 2 ^ 64 ≤ c + len then .error .limit
  else if MAP_END < c + len then .error .limit
  else .ok c

/-- Every page of `va .. stop` is in an area that passes `check`: `cursor` is how far the
areas before reach. -/
def covered (check : Area → Except Error Unit) (va : ℕ) : List (ℕ × Area) → ℕ → Except Error ℕ
  | [], cursor => .ok cursor
  | (start, area) :: rest, cursor =>
    if area.stop ≤ va then covered check va rest cursor
    else if cursor < start then .error .outOfRange
    else
      match check area with
      | .error e => .error e
      | .ok () => covered check va rest area.stop

def dropZero : Inner := { i with zero := i.zero.eraseBetween va stop }

/-- The break moves down with what is unmapped under it. -/
def lowerBrk (b : Brk) : Brk :=
  if va < b.current ∧ b.start < stop then { b with current := max (min b.current va) b.start }
  else b

/-- The areas and the zero pages of `va .. stop`, at whose ends areas begin and end, go,
and with them the tables of the regions only they touched. -/
def cutOut : Inner :=
  let pieces := (i.areas.between va stop).map fun e => (e.1, e.2.stop)
  let left : Inner :=
    { i.dropZero va stop with
      areas := i.areas.eraseBetween va stop
      brk := i.brk.map (lowerBrk va stop) }
  let around := left.neighbours va stop
  (left.freeTables (Kernel.tables pieces around.1 around.2 MAP_END).pages).settle

/-- Nothing is mapped. -/
def bare : Inner := { i with areas := .empty, zero := .empty, brk := none, tables := 0 }

end Inner

def checkRange (va len : ℕ) : Except Error ℕ :=
  if len = 0 ∨ va % PAGE_SIZE ≠ 0 ∨ len % PAGE_SIZE ≠ 0 then .error .invalidArgs
  else if 2 ^ 64 ≤ va + len then .error .outOfRange
  else if va < IMAGE_START ∨ MAP_END < va + len then .error .outOfRange
  else .ok (va + len)

def checkProt (prot : Prot) (backing : Backing) : Except Error Unit :=
  if Prot.has prot (~~~Prot.PROTECTION) then .error .invalidArgs
  else if Prot.has prot Prot.WRITE && Prot.has prot Prot.EXECUTE then .error .invalidArgs
  else if Prot.has prot Prot.WRITE && !backing.writable then .error .accessDenied
  else .ok ()

/-! ### The calls -/

/-- What the account, the page table and the frame allocator have to say at one point. -/
structure SpaceAnswer where
  /-- The account refuses. -/
  refused : Option Error
  /-- The page table, the object or the frame allocator does. -/
  failed : Option Error
  /-- The page has its entry. -/
  present : Bool

/-- An address space, with the answers still to come. -/
structure Space where
  inner : Inner
  answers : ℕ → SpaceAnswer
  tick : ℕ

/-- A computation over a space: it fails with the state it has reached. -/
abbrev SpaceM := EStateM Error Space

namespace Space

def new (answers : ℕ → SpaceAnswer) : Space := ⟨.empty, answers, 0⟩

def draw : SpaceM SpaceAnswer := fun s => .ok (s.answers s.tick) { s with tick := s.tick + 1 }

def update (f : Inner → Inner) : SpaceM Unit := modify fun s => { s with inner := f s.inner }

/-- A check of the arguments. -/
def require {α : Type} : Except Error α → SpaceM α
  | .ok a => pure a
  | .error e => throw e

/-- Something outside of the space may refuse. -/
def attempt : SpaceM Unit := do
  match (← draw).failed with
  | some e => throw e
  | none => pure ()

def charge (bytes : ℕ) : SpaceM Unit := do
  match (← draw).refused with
  | some e => throw e
  | none => update fun i => { i with charged := i.charged + bytes }

/-- Unmaps whole pages `va .. va + len`; pages nothing maps are skipped.  With `only`,
every area the range touches must be of that kind, or nothing changes. -/
def unmap (va len : ℕ) (only : Option AreaKind) : SpaceM Unit := do
  let stop ← require (checkRange va len)
  let i := (← get).inner
  if only.any fun kind => (i.downFrom va stop).any fun e => e.2.kind != kind then
    throw .invalidArgs
  else if i.touchesPlane va stop then throw .invalidArgs
  else do
    charge (i.splitBytes va stop)
    update fun i => ((i.split va).split stop).cutOut va stop

/-- Room at a given address: what is there is unmapped when `fixed`, and refused when
not. -/
def makeRoom (va len : ℕ) (fixed : Bool) : SpaceM ℕ := do
  let stop ← require (checkRange va len)
  if (← get).inner.overlaps va stop then
    if fixed then do
      unmap va len none
      if (← get).inner.overlaps va stop then throw .badState else pure va
    else throw .badState
  else pure va

/-- Where a mapping goes: at the address given, or where the kernel finds room. -/
def place (at_ : Option ℕ) (len : ℕ) (fixed : Bool) : SpaceM ℕ := do
  match at_ with
  | some va => makeRoom va len fixed
  | none => require ((← get).inner.findFree len)

/-- The area's record and the tables of the regions only it touches are charged before
anything is mapped. -/
def addArea (va : ℕ) (area : Area) : SpaceM Unit := do
  let around := (← get).inner.neighbours va area.stop
  let added := tables [(va, area.stop)] around.1 around.2 MAP_END
  charge (Charges.AREA + added.bytes)
  update fun i => { i with tables := i.tables + added.pages }
  match (← draw).failed with
  | some e => do
    update fun i => (i.freeTables added.pages).settle
    throw e
  | none => update fun i => { i with areas := i.areas.insert va area }

/-- Maps `len` bytes of `backing` with `prot`, at `at_` when it is given, replacing what is
there when `fixed`; anywhere free otherwise. -/
def map (at_ : Option ℕ) (len : ℕ) (kind : AreaKind) (prot : Prot) (backing : Backing)
    (fixed : Bool) : SpaceM ℕ := do
  require (checkProt prot backing)
  let len ← require (pages len)
  if len = 0 then throw .invalidArgs
  else do
    let va ← place at_ len fixed
    addArea va ⟨va + len, kind, prot, backing⟩
    pure va

/-- Maps pages of a memory object for the data plane, where the kernel chooses. -/
def mapPlane (memory first len : ℕ) (write : Bool) : SpaceM ℕ :=
  map none len .plane (if write then Prot.READ ||| Prot.WRITE else Prot.READ)
    (.object memory first write) false

/-- Whether the area is the data plane's mapping of `memory` up to `stop`. -/
def isPlane (memory stop : ℕ) (a : Area) : Bool :=
  a.kind == .plane && a.stop == stop &&
    match a.backing with
    | .object m _ _ => m == memory
    | _ => false

/-- Unmaps the data plane's area that begins at `va` and is `len` bytes long. -/
def unmapPlane (va len memory : ℕ) : SpaceM Unit := do
  let stop ← require (checkRange va len)
  match (← get).inner.areas.get va with
  | none => throw .badState
  | some a =>
    if isPlane memory stop a then
      update fun i =>
        let left := { i with areas := i.areas.erase va }
        let around := left.neighbours va stop
        (left.freeTables (tables [(va, stop)] around.1 around.2 MAP_END).pages).settle
    else throw .badState

/-- What `protect` asks of an area. -/
def protectable (prot : Prot) (only : Option AreaKind) (a : Area) : Except Error Unit :=
  if only.any (· != a.kind) || a.kind == .plane then .error .invalidArgs
  else checkProt prot a.backing

def reprotect (prot : Prot) (va stop : ℕ) (i : Inner) : Inner :=
  let set (areas : OrdMap ℕ Area) (e : ℕ × Area) := areas.modify e.1 fun a => { a with prot }
  { i with areas := (i.areas.between va stop).foldl set i.areas }

/-- Sets the protection of whole pages `va .. va + len`, every one of which must be
mapped. -/
def protect (va len : ℕ) (prot : Prot) (only : Option AreaKind) : SpaceM Unit := do
  let stop ← require (checkRange va len)
  let i := (← get).inner
  let cursor ← require (Inner.covered (protectable prot only) va (i.areas.between 0 stop) va)
  if cursor < stop then throw .outOfRange
  else do
    charge (i.splitBytes va stop)
    update fun i => reprotect prot va stop ((i.split va).split stop).settle
    attempt

/-- The frame of page `page` of `area`, allocating a zero page the first time. -/
def frame (area : Area) (page : ℕ) : SpaceM Unit := do
  match area.backing with
  | .object .. => attempt
  | .device .. => throw .fault
  | .zero =>
    if ((← get).inner.zero.get page).isSome then pure ()
    else do
      charge Charges.ZERO_PAGE
      match (← draw).failed with
      | some e => do
        update Inner.settle
        throw e
      | none => update fun i => { i with zero := i.zero.insert page () }

/-- Gives page `page` of `area` its entry if it has none. -/
def touch (area : Area) (page : ℕ) : SpaceM Unit := do
  let a ← draw
  match a.failed with
  | some e => throw e
  | none =>
    if a.present then pure ()
    else do
      frame area page
      attempt

/-- Maps the frame of the page holding `addr` if `access` is allowed there: a first touch
of a zero page. -/
def fault (addr : ℕ) (access : Access) : SpaceM Bool := do
  let page := addr / PAGE_SIZE * PAGE_SIZE
  match (← get).inner.areaAt page with
  | none => pure false
  | some (_, area) =>
    if allows area.prot access then do
      touch area page
      pure true
    else pure false

def populatePage (access : Access) (page : ℕ) : SpaceM Unit := do
  match (← get).inner.areaAt page with
  | none => throw .fault
  | some (_, area) => if allows area.prot access then touch area page else throw .fault

/-- Gives every page of `va .. va + len` its entry, as the first touch of each would. -/
def populate (va len : ℕ) (write : Bool) : SpaceM Unit := do
  if len = 0 then pure ()
  else if 2 ^ 64 ≤ va + len then throw .fault
  else do
    let first := va / PAGE_SIZE
    let count := (va + len - 1) / PAGE_SIZE + 1 - first
    (List.range' first count).forM fun k =>
      populatePage (if write then .write else .read) (k * PAGE_SIZE)

/-- One page of a copy: a page first touched by a copy is touched for the process too. -/
def copyPage (access : Access) (page : ℕ) : SpaceM Unit := do
  match (← get).inner.areaAt page with
  | none => throw .fault
  | some (_, area) =>
    if allows area.prot access then do
      frame area page
      (if area.backing = .zero then touch area page else pure ())
      if (← draw).failed.isSome then throw .fault else pure ()
    else throw .fault

/-- The pages of `va .. va + len`, each copied as it is reached; the copy stops at the first
that fails. -/
def eachPage (va len : ℕ) (access : Access) : SpaceM Unit := do
  if len = 0 then pure ()
  else
    (List.range' (va / PAGE_SIZE) ((va + len - 1) / PAGE_SIZE + 1 - va / PAGE_SIZE)).forM fun k =>
      if 2 ^ 64 ≤ k * PAGE_SIZE then throw .fault else copyPage access (k * PAGE_SIZE)

def copyOut (va len : ℕ) : SpaceM Unit := eachPage va len .read

def copyIn (va len : ℕ) : SpaceM Unit := eachPage va len .write

def setBrk (start : ℕ) : SpaceM Unit := do
  let start ← require (pages start)
  if (← get).inner.brk.isSome then throw .badState
  else update fun i => { i with brk := some ⟨start, start⟩ }

/-- Moves where the heap begins to `start` (none when zero). -/
def resetBrk (start : ℕ) : SpaceM Unit := do
  update fun i => { i with brk := none }
  if start = 0 then pure ()
  else do
    let start ← require (pages start)
    if ((← get).inner.areaAt start).isSome then throw .badState
    else update fun i => { i with brk := some ⟨start, start⟩ }

/-- Grows or shrinks the heap from `have_` to `need`. -/
def moveBrk (have_ need : ℕ) : SpaceM Unit := do
  if have_ < need then do
    let _ ← map (some have_) (need - have_) .mapping (Prot.READ ||| Prot.WRITE) .zero false
    pure ()
  else if need < have_ then unmap need (have_ - need) none
  else pure ()

/-- `brk`: moves the heap's end to `want` and returns the end; a request it cannot meet
leaves the end where it was. -/
def brk (want : ℕ) : SpaceM ℕ := do
  match (← get).inner.brk with
  | none => pure 0
  | some b =>
    if want < b.start then pure b.current
    else
      match pages b.current, pages want with
      | .ok have_, .ok need =>
        if MAP_BASE < need then pure b.current
        else
          tryCatch
            (do
              moveBrk have_ need
              update fun i => { i with brk := i.brk.map fun b => { b with current := want } }
              pure want)
            fun _ => pure b.current
      | _, _ => pure b.current

/-- `madvise(DONTNEED)`: the zero pages of the range go, so they read zero again. -/
def discard (va len : ℕ) : SpaceM Unit := do
  let stop ← require (checkRange va len)
  let i := (← get).inner
  let cursor ← require (Inner.covered
    (fun a => if a.kind == .plane then .error .invalidArgs else .ok ()) va
    (i.areas.between 0 stop) va)
  if cursor < stop then throw .outOfRange
  else update fun i => (i.dropZero va stop).settle

/-- Everything goes, the data plane's areas too: the end of the space. -/
def clear : SpaceM Unit := update fun i => i.bare.settle

/-! ### Runs -/

inductive Op where
  | map (at_ : Option ℕ) (len : ℕ) (kind : AreaKind) (prot : Prot) (backing : Backing)
      (fixed : Bool)
  | mapPlane (memory first len : ℕ) (write : Bool)
  | unmap (va len : ℕ) (only : Option AreaKind)
  | unmapPlane (va len memory : ℕ)
  | protect (va len : ℕ) (prot : Prot) (only : Option AreaKind)
  | setBrk (start : ℕ)
  | resetBrk (start : ℕ)
  | brk (want : ℕ)
  | discard (va len : ℕ)
  | fault (addr : ℕ) (access : Access)
  | populate (va len : ℕ) (write : Bool)
  | copyOut (va len : ℕ)
  | copyIn (va len : ℕ)
  | clear

def after {α : Type} (x : SpaceM α) (s : Space) : Space :=
  match x s with
  | .ok _ s' => s'
  | .error _ s' => s'

def step (s : Space) : Op → Space
  | .map at_ len kind prot backing fixed => after (map at_ len kind prot backing fixed) s
  | .mapPlane memory first len write => after (mapPlane memory first len write) s
  | .unmap va len only => after (unmap va len only) s
  | .unmapPlane va len memory => after (unmapPlane va len memory) s
  | .protect va len prot only => after (protect va len prot only) s
  | .setBrk start => after (setBrk start) s
  | .resetBrk start => after (resetBrk start) s
  | .brk want => after (brk want) s
  | .discard va len => after (discard va len) s
  | .fault addr access => after (fault addr access) s
  | .populate va len write => after (populate va len write) s
  | .copyOut va len => after (copyOut va len) s
  | .copyIn va len => after (copyIn va len) s
  | .clear => after clear s

def run (s : Space) (ops : List Op) : Space := ops.foldl step s

end Space

end Moruna.Kernel
