/-
Moruna/Ipc/Inflate.lean

The plan by which a compressed record batch is inflated within a ceiling.

While the walk checks a message every buffer is handed to `take`: the size the
buffer declares is held to the size its column implies and to what is left of
the ceiling, and only then planned.  The offsets of a string or binary column
are inflated at once, because the size of the data is the last of them.  When
the walk is over, `finish` allocates the body once and puts every buffer in its
place.

The decompressors and the arena are parameters (`Env`): the development says
nothing about what a frame inflates to or when an arena refuses, only that a
buffer of the arena has the size that was asked for.  A slot also records the
rule it was planned by, which no code reads.
-/
import Moruna.Lib.Codec
import Moruna.Ipc.Walk

namespace Moruna.Ipc

/-! ### Numbers -/

/-- The bytes before a compressed buffer's data: its uncompressed length. -/
def PREFIX : ℕ := 8

/-- Where the buffers of a body are placed. -/
def ALIGNMENT : ℕ := 64

/-- The two's complement value of a little-endian integer. -/
def leInt (b : Bytes) : ℤ :=
  if 2 * leNat b < 256 ^ b.length then leNat b else leNat b - 256 ^ b.length

def i64 (n : ℕ) : ℤ := if n % 2 ^ 64 < 2 ^ 63 then (n % 2 ^ 64 : ℕ) else (n % 2 ^ 64 : ℕ) - 2 ^ 64

def roundUp (value unit : ℕ) : ℕ := satMul (ceilDiv value unit) unit

/-! ### What is outside -/

/-- What an LZ4 frame's decoder gives: the bytes that come out, and what it
stops with when the frame is not a good one. -/
structure Stream where
  out : Bytes
  error : Option String

/-- The decompressors and the arena. -/
structure Env where
  lz4 : Bytes → Stream
  /-- Why a zstd decompressor does not start. -/
  zstdStart : Option String
  /-- The size a frame says it holds, if it says; `none` for no frame. -/
  zstdSize : Bytes → Option (Option ℕ)
  /-- A frame inflated into a buffer of this size. -/
  zstd : Bytes → ℕ → Except String Bytes
  zstdTooSmall : String → Bool
  /-- The next allocation, after the ones that were granted. -/
  alloc : List ℕ → ℕ → Except String Bytes
  alloc_length : ∀ log n b, alloc log n = .ok b → b.length = n ∧ n < 2 ^ 63

/-- How a buffer is stored in the body. -/
inductive Form
  | empty
  | stored
  | coded
deriving DecidableEq

inductive Codec
  | lz4
  | zstd
deriving DecidableEq

/-- One buffer of the plan. -/
structure Slot where
  column : String
  what : String
  offset : ℕ
  stored : ℕ
  form : Form
  size : ℕ
  /-- For the offsets of a string or binary column: the size of the data. -/
  data : ℕ
  /-- For those offsets: the inflated bytes. -/
  offsets : Option Bytes
  /-- The rule the slot was planned by. -/
  rule : Rule
deriving DecidableEq

structure Packed where
  codec : Codec
  ceiling : ℕ
  slots : List Slot
  used : ℕ
  setAside : ℕ
  /-- What the arena has granted so far. -/
  allocs : List ℕ
deriving DecidableEq

/-! ### The parts -/

variable (env : Env) (body : Bytes) (name what : String)

/-- How a buffer is stored and the uncompressed size it declares. -/
def declared (bytes : Bytes) : Except String (Form × ℕ) :=
  if bytes = [] then .ok (.empty, 0)
  else if bytes.length < PREFIX then
    .error (s!"column {name.quote} has a compressed {what} buffer of {bytes.length} bytes, " ++
      "which cannot hold its 8-byte length")
  else
    let n := leInt (bytes.take PREFIX)
    if n = -1 then .ok (.stored, bytes.length - PREFIX)
    else if n = 0 then .ok (.empty, 0)
    else if 0 < n then .ok (.coded, n.toNat)
    else .error (s!"column {name.quote} has a {what} buffer that declares an uncompressed " ++
      s!"length of {n}")

/-- The sizes a rule allows, and whether none at all is also right. -/
def allowedSizes (slots : List Slot) : Rule → Except String (Option (ℕ × ℕ) × Bool)
  | .free => .ok (none, false)
  | .exact n => .ok (some (n, roundUp n 8), false)
  | .validity len => .ok (some (ceilDiv len 8, roundUp (ceilDiv len 8) 8), true)
  | .offsets len width | .text len width =>
    let n := satMul (satAdd len 1) width
    .ok (some (n, roundUp n 8), len == 0)
  | .data offsets =>
    match slots[offsets]? with
    | none => .error s!"column {name.quote} has a {what} buffer with no offsets before it"
    | some slot => .ok (some (slot.data, roundUp slot.data 64), false)

def checkSize (size : ℕ) (orNone : Bool) : Option (ℕ × ℕ) → Except String Unit
  | none => .ok ()
  | some (low, high) =>
    if ¬ (low ≤ size ∧ size ≤ high) ∧ ¬ (orNone ∧ size = 0) then
      let implied := if low = high then s!"{low}" else s!"{low} to {high}"
      .error (s!"column {name.quote} has a {what} buffer that declares {size} uncompressed " ++
        s!"bytes where the message implies {implied}")
    else .ok ()

def checkLeft (size ceiling held need left : ℕ) : Except String Unit :=
  if left < need then
    .error (s!"column {name.quote} has a {what} buffer of {size} uncompressed bytes, and " ++
      s!"{left} of the {ceiling} bytes this reader may inflate for one batch are left " ++
      s!"(the batch has {held} planned)")
  else .ok ()

/-- What an LZ4 frame's decoder holds besides its output, from the frame
header. -/
def lz4WorkingSet (frame : Bytes) : Except String ℕ :=
  match frame with
  | m0 :: m1 :: m2 :: m3 :: flags :: descriptor :: _ =>
    if [m0, m1, m2, m3] ≠ [0x04, 0x22, 0x4D, 0x18] then
      .error "is not an LZ4 frame: it does not start with the frame magic"
    else if flags.toNat / 64 ≠ 1 then
      .error s!"is an LZ4 frame of version {flags.toNat / 64}, and Moruna reads version 1"
    else
      let id := descriptor.toNat / 16 % 8
      if id < 4 then .error s!"is an LZ4 frame with the block size id {id}"
      else
        -- 64 KiB, and four times as much for each id after it
        let block := 65536 * 4 ^ (id - 4)
        .ok (if flags.toNat / 32 % 2 = 1 then 2 * block else 3 * block + 65536)
  | _ => .error "is not an LZ4 frame: it ends inside the frame header"

def checkWorkingSet (p : Packed) (form : Form) (bytes : Bytes) (left : ℕ) : Except String Unit :=
  if p.codec ≠ .lz4 ∨ form ≠ .coded then .ok ()
  else match lz4WorkingSet (bytes.drop PREFIX) with
    | .error e => .error s!"column {name.quote} has a {what} buffer that {e}"
    | .ok working =>
      if left < working then
        .error (s!"column {name.quote} has a {what} buffer whose LZ4 frame takes {working} " ++
          s!"bytes to inflate, and {left} of the {p.ceiling} bytes this reader may inflate " ++
          "for one batch are left")
      else .ok ()

/-- One of the offsets, by its width. -/
def offsetAt (width : ℕ) (chunk : Bytes) : Option ℤ :=
  if width = 4 ∨ width = 8 then some (leInt chunk) else none

/-- The loop of `last_offset`, at offset `index` with the one before it. -/
def lastOffsetFrom (width index : ℕ) (previous : ℤ) : List Bytes → Except String ℤ
  | [] => .ok previous
  | chunk :: chunks =>
    match offsetAt width chunk with
    | none => .error s!"are {width}-byte offsets of no known width"
    | some value =>
      if index = 0 ∧ value ≠ 0 then .error s!"start at {value}, not 0"
      else if value < previous then
        .error s!"are not monotonic: offset {index} is {value} after {previous}"
      else lastOffsetFrom width (index + 1) value chunks

/-- `chunks_exact`: the whole chunks of `width` bytes. -/
def chunksExact (width : ℕ) (bytes : Bytes) : List Bytes :=
  (List.range (bytes.length / width)).map fun k => (bytes.drop (k * width)).take width

/-- The last of `bytes` read as offsets, which must start at 0 and never
fall. -/
def lastOffset (bytes : Bytes) (width : ℕ) : Except String ℕ :=
  match lastOffsetFrom width 0 0 (chunksExact width bytes) with
  | .error e => .error e
  | .ok last => if 0 ≤ last then .ok last.toNat else .error s!"end at {last}"

/-! ### Inflating one buffer -/

def short (got declared : ℕ) : String :=
  s!"inflates short of the {declared} bytes declared for it: {got} came out"

def past (declared : ℕ) : String := s!"inflates past the {declared} bytes declared for it"

/-- Inflate an LZ4 frame into exactly `size` bytes, and one more to learn
whether there are more. -/
def lz4 (frame : Bytes) (size : ℕ) : Except String Bytes :=
  let s := env.lz4 frame
  if size < s.out.length then .error (past size)
  else match s.error with
    | some e => .error s!"does not inflate: {e}"
    | none => if s.out.length < size then .error (short s.out.length size) else .ok s.out

/-- Inflate a zstd frame into exactly `size` bytes. -/
def zstd (frame : Bytes) (size : ℕ) : Except String Bytes :=
  match env.zstdSize frame with
  | none => .error "is not a zstd frame"
  | some held =>
    if held.any (size < ·) then .error (past size)
    else if held.any (· < size) then .error (short (held.getD 0) size)
    else match env.zstd frame size with
      | .ok out => if out.length = size then .ok out else .error (short out.length size)
      | .error e =>
        if env.zstdTooSmall e then .error (past size) else .error s!"does not inflate: {e}"

/-- Inflate one stored buffer into `size` bytes. -/
def fill (codec : Codec) (form : Form) (bytes : Bytes) (size : ℕ) : Except String Bytes :=
  let at_ := fun e => s!"column {name.quote} has a {what} buffer that {e}"
  match form with
  | .empty => .ok (List.replicate size 0)
  | .stored => .ok (bytes.drop PREFIX)
  | .coded =>
    match codec with
    | .lz4 => (lz4 env (bytes.drop PREFIX) size).mapError at_
    | .zstd =>
      match env.zstdStart with
      | some e => .error (at_ s!"cannot start a zstd decompressor: {e}")
      | none => (zstd env (bytes.drop PREFIX) size).mapError at_

/-! ### The plan -/

def storedBytes (entry : Span) : Except String Bytes :=
  if entry.offset + entry.len ≤ body.length then
    .ok ((body.drop entry.offset).take entry.len)
  else .error s!"column {name.quote} has a {what} buffer outside the body"

/-- An allocation that is granted is counted. -/
def allocate (size : ℕ) : EStateM String Packed Bytes := fun p =>
  match env.alloc p.allocs size with
  | .ok b => .ok b { p with allocs := p.allocs ++ [size] }
  | .error e => .error s!"column {name.quote} {what}: {e}" p

/-- The offsets of a string or binary column, inflated now: the size of the data
they index, and their bytes.  `low` is what the offsets themselves take, without
the padding after them. -/
def inflateOffsets (codec : Codec) (form : Form) (bytes : Bytes) (size low width : ℕ) :
    EStateM String Packed (ℕ × Option Bytes) := do
  let buffer ← allocate env name what size
  let filled ← liftExcept (fill env name what codec form bytes buffer.length)
  let data ← liftExcept ((lastOffset (filled.take (min low size)) width).mapError
    fun e => s!"column {name.quote} has {what} that {e}")
  return (data, some filled)

/-- What a rule does beyond planning: the working set is held to what is left,
and the offsets of a string or binary column are inflated. -/
def settleRule (p : Packed) (form : Form) (bytes : Bytes) (size low left : ℕ) :
    Rule → EStateM String Packed (ℕ × Option Bytes)
  | .text _ width => do
    liftExcept (checkWorkingSet name what p form bytes (left - size))
    if 0 < size then inflateOffsets env name what p.codec form bytes size low width
    else return (0, none)
  | _ => do
    liftExcept (checkWorkingSet name what p form bytes left)
    return (0, none)

/-- What a rule's buffer takes besides its place in the body. -/
def Rule.aside (size : ℕ) : Rule → ℕ
  | .text _ _ => size
  | _ => 0

/-- Take the buffer at `entry` for the column `name`. -/
def take (entry : Span) (rule : Rule) : EStateM String Packed Span := do
  let p ← get
  let bytes ← liftExcept (storedBytes body name what entry)
  let (form, size) ← liftExcept (declared name what bytes)
  let (allowed, orNone) ← liftExcept (allowedSizes name what p.slots rule)
  liftExcept (checkSize name what size orNone allowed)
  let placed := roundUp size ALIGNMENT
  let aside := rule.aside size
  let held := satAdd p.used p.setAside
  let left := p.ceiling - held
  liftExcept (checkLeft name what size p.ceiling held (satAdd placed aside) left)
  let low := (allowed.map Prod.fst).getD size
  let (data, offsets) ← settleRule env name what p form bytes size low left rule
  let slot : Slot := ⟨name, what, entry.offset, entry.len, form, size, data, offsets, rule⟩
  modify fun p => { p with
    used := satAdd p.used placed
    setAside := satAdd p.setAside aside
    slots := p.slots ++ [slot] }
  return ⟨entry.offset, size, p.slots.length⟩

/-- The plan as the walk drives it. -/
def packed : Plan Packed := ⟨fun name what entry rule => take env body name what entry rule⟩

/-! ### The body -/

/-- How a message says it is compressed, as far as `new` tells it apart. -/
inductive Compression
  | lz4Frame
  | zstd
  | other (codec : String)
deriving DecidableEq

/-- The plan for a batch compressed as `compression` says; `method` is the name
of a method that is not `BUFFER`. -/
def Packed.new (compression : Compression) (method : Option String) (version : ℤ)
    (versionName : String) (ceiling : ℕ) : Except String Packed :=
  if version < 4 then
    .error (s!"the record batch is compressed and its metadata version is {versionName}; " ++
      "compression needs V5")
  else match method with
    | some method =>
      .error s!"the record batch is compressed by method {method}, and Moruna reads BUFFER only"
    | none => match compression with
      | .lz4Frame => .ok ⟨.lz4, ceiling, [], 0, 0, []⟩
      | .zstd => .ok ⟨.zstd, ceiling, [], 0, 0, []⟩
      | .other codec =>
        .error (s!"the record batch is compressed with {codec}, and Moruna reads LZ4_FRAME " ++
          "and ZSTD only")

/-- What a compressed message becomes. -/
inductive Wrap
  | batch
  | dictionary (id : ℤ) (isDelta : Bool)
deriving DecidableEq

/-- The message that describes an inflated body. -/
structure Message where
  version : ℤ
  wrap : Wrap
  length : ℤ
  nodes : List (ℤ × ℤ)
  buffers : List (ℤ × ℤ)
  variadic : List ℤ
  bodyLength : ℤ
deriving DecidableEq

/-- A compressed message after inflation. -/
structure Inflated where
  message : Message
  body : Bytes
deriving DecidableEq

inductive FinishError
  | outsidePlan
  | outsideBody
  | refused (e : String)
deriving DecidableEq

def FinishError.text : FinishError → String
  | .outsidePlan => "an inflated buffer is outside the body it was planned in"
  | .outsideBody => "a compressed buffer is outside the body"
  | .refused e => e

/-- The bytes of a slot: the offsets set aside, or the stored buffer inflated. -/
def slotBytes (codec : Codec) (slot : Slot) : Except FinishError Bytes :=
  match slot.offsets with
  | some offsets => .ok (offsets.take slot.size)
  | none =>
    if slot.offset + slot.stored ≤ body.length then
      (fill env slot.column slot.what codec slot.form
        ((body.drop slot.offset).take slot.stored) slot.size).mapError .refused
    else .error .outsideBody

/-- Put one slot in its place at `pos`; there is no body when nothing is
planned. -/
def place (codec : Codec) (slot : Slot) (pos : ℕ) (out : Option Bytes) :
    Except FinishError (Option Bytes) :=
  match out with
  | none => .ok none
  | some out =>
    if slot.size = 0 then .ok (some out)
    else if pos + slot.size ≤ out.length then
      (slotBytes env body codec slot).map fun b =>
        some (out.take pos ++ b ++ out.drop (pos + slot.size))
    else .error .outsidePlan

/-- Put every slot in its place, from `pos` on: the entries, and the body. -/
def placeAll (codec : Codec) :
    List Slot → ℕ → Option Bytes → Except FinishError (List (ℤ × ℤ) × Option Bytes)
  | [], _, out => .ok ([], out)
  | slot :: slots, pos, out => do
    let out ← place env body codec slot pos out
    let (entries, out) ← placeAll codec slots (pos + roundUp slot.size ALIGNMENT) out
    return ((i64 pos, i64 slot.size) :: entries, out)

/-- Allocate the body once, inflate every buffer into its place, and describe
the result in a message of its own. -/
def finish (p : Packed) (batch : Batch) (version : ℤ) (wrap : Wrap) :
    Except FinishError Inflated := do
  let out ← (if p.used = 0 then .ok none
    else match env.alloc p.allocs p.used with
      | .ok b => .ok (some b)
      | .error e => .error (.refused s!"the inflated record batch of {p.used} bytes: {e}"))
  let (entries, out) ← placeAll env body p.codec p.slots 0 out
  return ⟨⟨version, wrap, batch.length, batch.nodes.getD [], entries, batch.variadic,
    i64 p.used⟩, out.getD []⟩

end Moruna.Ipc
