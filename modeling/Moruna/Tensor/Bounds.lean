/-
Moruna/Tensor/Bounds.lean

The bytes a tensor claims: the MRB1 header (moruna-kernel/src/mrb1.rs), a tensor
over an arena buffer (moruna-kernel/src/tensor.rs) and the plan of a tensor
source (moruna-sources/src/tensor).

An `i64` dimension is held by its bits, a `UInt64`, so that the source's `as u64`
is the identity and its products wrap as they do there; a dimension is negative
when its top bit is set.  A file is the same at every read of a plan.  The two
text headers are read by parameters: the JSON of a safetensors header and the
dict literal of a `.npy` header; the checks on what they hold are the plan's.

* `tensor_bytes_iff` : **what is accepted has the bytes it claims exactly when the
  claim does not wrap**.
-/
import Moruna.Lib.Codec
import Moruna.Lib.Machine
import Moruna.Lib.Checks
import Mathlib.Data.UInt

namespace Moruna.Tensor

/-! ### Types, shapes and errors -/

inductive DType
  | i8 | i16 | i32 | i64 | u8 | u16 | u32 | u64 | f16 | bf16 | f32 | f64 | bool
deriving DecidableEq

def DType.all : List DType :=
  [.i8, .i16, .i32, .i64, .u8, .u16, .u32, .u64, .f16, .bf16, .f32, .f64, .bool]

def DType.code (d : DType) : UInt8 := UInt8.ofNat (DType.all.idxOf d)

def DType.fromCode (code : UInt8) : Option DType := DType.all[code.toNat]?

def DType.itemSize : DType → UInt64
  | .i8 | .u8 | .bool => 1
  | .i16 | .u16 | .f16 | .bf16 => 2
  | .i32 | .u32 | .f32 => 4
  | .i64 | .u64 | .f64 => 8

inductive MorunaError
  | io (op target msg : String)
  | plan (msg : String)
  | staging (msg : String)
deriving DecidableEq

def negative (d : UInt64) : Bool := 2 ^ 63 ≤ d.toNat

variable (shape : List UInt64)

/-- A shape as the source prints it. -/
def shapeText : String := toString (shape.map fun d => d.toInt64.toInt)

/-- The product of a shape, in sixty-four bits. -/
def elementCount : UInt64 := shape.foldl (· * ·) 1

/-- The bytes a shape claims, as an exact integer. -/
def exactBytes (dtype : DType) (shape : List UInt64) : ℕ :=
  (shape.map UInt64.toNat).prod * dtype.itemSize.toNat

/-! ### The MRB1 header -/

def MAGIC : Bytes := [0x4d, 0x52, 0x42, 0x31]
def VERSION : ℕ := 1
def MAX_NDIM : ℕ := 8

def bad (msg : String) : MorunaError := .io "mrb1" "header" msg

structure Header where
  dtype : DType
  shape : List UInt64
  dataOffset : UInt64
deriving DecidableEq

def headerEnd (ndim : ℕ) : ℕ := 16 + 8 * ndim

def Header.payloadLen (h : Header) : UInt64 := elementCount h.shape * h.dtype.itemSize

def Header.payloadEnd (h : Header) : UInt64 := h.dataOffset + h.payloadLen

def natAt (n : ℕ) (b : Bytes) (off : ℕ) : ℕ := leNat ((b.drop off).take n)

def u64At (b : Bytes) (off : ℕ) : UInt64 := UInt64.ofNat (natAt 8 b off)

/-- The dimensions behind the first eight bytes. -/
def shapeAt (b : Bytes) (ndim : ℕ) : List UInt64 :=
  (List.range ndim).map fun i => u64At b (8 + 8 * i)

/-- The first `dataOffset` bytes of a record, written into a buffer of `out` bytes. -/
def Header.write (h : Header) (out : ℕ) : Except MorunaError Bytes := do
  rejectIf (MAX_NDIM < h.shape.length) (bad s!"ndim {h.shape.length} exceeds {MAX_NDIM}")
  rejectIf (h.shape.any negative) (bad s!"negative dimension in shape {shapeText h.shape}")
  rejectIf (¬ isMultipleOf h.dataOffset 4096)
    (bad s!"data offset {h.dataOffset} is not a multiple of 4096")
  rejectIf (h.dataOffset.toNat < headerEnd h.shape.length)
    (bad (s!"data offset {h.dataOffset} is inside the header " ++
      s!"(ends at {headerEnd h.shape.length})"))
  rejectIf (out < h.dataOffset.toNat)
    (bad s!"buffer of {out} bytes is short of {h.dataOffset}")
  let head := MAGIC ++ leBytes 2 VERSION ++ [h.dtype.code, UInt8.ofNat h.shape.length] ++
    h.shape.flatMap (fun d => leBytes 8 d.toNat) ++ leBytes 8 h.dataOffset.toNat
  pure (head ++ List.replicate (h.dataOffset.toNat - head.length) 0)

/-- The checks of `Header.read` before the last. -/
def Header.parse (buf : Bytes) : Except MorunaError Header := do
  rejectIf (buf.length < 16) (bad s!"buffer of {buf.length} bytes is shorter than a header")
  rejectIf (buf.take 4 ≠ MAGIC) (bad "magic is not MRB1")
  let version := natAt 2 buf 4
  rejectIf (version ≠ VERSION) (bad s!"unknown version {version}")
  let code := buf.getD 6 0
  match DType.fromCode code with
  | none => throw (bad s!"unknown dtype code {code}")
  | some dtype =>
    let ndim := (buf.getD 7 0).toNat
    rejectIf (MAX_NDIM < ndim) (bad s!"ndim {ndim} exceeds {MAX_NDIM}")
    rejectIf (buf.length < headerEnd ndim)
      (bad s!"buffer of {buf.length} bytes is short of the {headerEnd ndim}-byte header")
    let shape := shapeAt buf ndim
    match shape.zipIdx.find? (fun d => negative d.1) with
    | some (d, i) => throw (bad s!"negative dimension {d.toInt64.toInt} at axis {i}")
    | none =>
      let dataOffset := u64At buf (8 + 8 * ndim)
      rejectIf (¬ isMultipleOf dataOffset 4096)
        (bad s!"data offset {dataOffset} is not a multiple of 4096")
      rejectIf (dataOffset.toNat < headerEnd ndim)
        (bad s!"data offset {dataOffset} is inside the header")
      pure ⟨dtype, shape, dataOffset⟩

/-- Parses a header from the start of `buf`, which must hold its payload too. -/
def Header.read (buf : Bytes) : Except MorunaError Header := do
  let header ← Header.parse buf
  let needed := header.payloadEnd
  rejectIf (buf.length < needed.toNat)
    (bad s!"buffer of {buf.length} bytes is short of the {needed} bytes the payload needs")
  pure header

def Header.payload (h : Header) (buf : Bytes) : Except MorunaError Bytes :=
  let first := h.dataOffset.toNat
  let last := h.payloadEnd.toNat
  if first ≤ last ∧ last ≤ buf.length then .ok ((buf.drop first).take (last - first))
  else .error (bad "payload is past the end of the buffer")

/-! ### A tensor over a buffer -/

/-- An arena buffer: its bytes, whether it is resident, and where. -/
structure Buffer where
  len : ℕ
  tier : String
  base : Option ℕ

structure ManagedTensor where
  byteOffset : UInt64
  dtype : DType
  shape : List UInt64

/-- Wraps the bytes of a buffer from `byteOffset` on; `build` is what the DLPack
builder answers. -/
def fromBuffer (build : Except MorunaError Unit) (buf : Buffer) (byteOffset : UInt64)
    (dtype : DType) (shape : List UInt64) : Except MorunaError ManagedTensor := do
  let io := MorunaError.io "from_buffer" "buffer"
  rejectIf (shape.any negative) (io s!"negative dimension in shape {shapeText shape}")
  let item := dtype.itemSize
  match (checkedMul (elementCount shape) item).bind (checkedAdd · byteOffset) with
  | none => throw (io s!"shape {shapeText shape} overflows")
  | some needed =>
    rejectIf (buf.len < needed.toNat)
      (io s!"buffer of {buf.len} bytes is short of the {needed} bytes the tensor needs")
    rejectIf (¬ isMultipleOf byteOffset item)
      (io s!"byte offset {byteOffset} is not a multiple of the item size {item}")
    match buf.base with
    | none => throw (.staging s!"from_buffer: {buf.tier} buffer is not resident")
    | some base =>
      rejectIf ((base + byteOffset.toNat) % item.toNat ≠ 0)
        (io s!"data address is not aligned to the item size {item}")
      rejectIf (2 ^ 31 ≤ shape.length)
        (.plan s!"tensor rank {shape.length} does not fit DLPack")
      build
      pure ⟨byteOffset, dtype, shape⟩

/-! ### The plan of a tensor source -/

def PROBE_BYTES : ℕ := 64 * 1024

/-- A path of a configuration, and the file behind it. -/
structure Path where
  text : String
  stem : Option String
  extension : String
  isLocal : Bool
  file : Option Bytes

structure Entry where
  path : String
  name : String
  dtype : DType
  shape : List UInt64
  dataOffset : UInt64
  fileLen : ℕ

def Entry.bytes (e : Entry) : UInt64 := elementCount e.shape * e.dtype.itemSize

/-- What a safetensors header says of one tensor: each field as the source asks for
it, `none` where it is missing or of another kind. -/
structure Info where
  dtype : Option String
  shape : Option (List (Option UInt64))
  dataOffsets : Option (List (Option UInt64))

/-- The readers of the two text headers. -/
structure Readers where
  /-- The members of the header's JSON object; the error is the parser's. -/
  json : Bytes → Except String (List (String × Option Info))
  /-- The type and the shape of a `.npy` dict literal. -/
  dict : Bytes → Except String (DType × List UInt64)

/-- The bytes `off .. off + len` of a file, as far as it goes. -/
def readPrefix (file : Bytes) (off len : ℕ) : Bytes := (file.drop off).take len

def dtypeOf (text : String) : Option DType :=
  [("BOOL", DType.bool), ("U8", .u8), ("I8", .i8), ("I16", .i16), ("U16", .u16), ("F16", .f16),
    ("BF16", .bf16), ("I32", .i32), ("U32", .u32), ("F32", .f32), ("F64", .f64), ("I64", .i64),
    ("U64", .u64)].lookup text

/-- A value, or the error for its absence. -/
def orElse {α : Type} (e : MorunaError) : Option α → Except MorunaError α
  | some a => .ok a
  | none => .error e

/-- One tensor of a safetensors header. -/
def safetensorsEntry (path : Path) (len : ℕ) (dataStart : UInt64) (name : String)
    (info : Option Info) : Except MorunaError Entry := do
  let bad := MorunaError.io "safetensors" path.text
  let info ← orElse (bad s!"tensor {name} is not an object") info
  let text ← orElse (bad s!"tensor {name} has no dtype") info.dtype
  let dtype ← orElse (.plan (s!"{path.text}: tensor {name} has dtype {text}, which Moruna has " ++
    "no DType for (contracts d.4)")) (dtypeOf text)
  let dims ← orElse (bad s!"tensor {name} has no shape") info.shape
  let shape ← dims.mapM (orElse (bad s!"tensor {name} has a non-integer dimension"))
  rejectIf (shape.any negative) (bad s!"tensor {name} has a negative dimension")
  let offsets ← orElse (bad s!"tensor {name} has no data_offsets") info.dataOffsets
  let start ← orElse (bad s!"tensor {name} has no start offset") (offsets[0]?.join)
  let stop ← orElse (bad s!"tensor {name} has no end offset") (offsets[1]?.join)
  let entry : Entry := ⟨path.text, name, dtype, shape, dataStart + start, len⟩
  rejectIf (stop < start ∨ stop - start ≠ entry.bytes)
    (bad (s!"tensor {name} spans {stop.toNat - start.toNat} bytes " ++
      s!"but its shape needs {entry.bytes}"))
  pure entry

variable (readers : Readers)

def safetensorsPlan (path : Path) (file head : Bytes) :
    Except MorunaError (List Entry) := do
  let len := file.length
  let bad := MorunaError.io "safetensors" path.text
  rejectIf (head.length < 8) (bad s!"file of {len} bytes has no header length")
  let headerLen := u64At head 0
  let dataStart ← orElse (bad s!"header length {headerLen} overflows") (checkedAdd 8 headerLen)
  rejectIf (len < dataStart.toNat)
    (bad s!"header claims {headerLen} bytes but the file is {len} bytes")
  -- The probe may not have reached the end of a long header.
  let header := if dataStart.toNat ≤ head.length then readPrefix head 8 headerLen.toNat
    else readPrefix file 8 headerLen.toNat
  let members ← (readers.json header).mapError bad
  let entries ← (members.filter (·.1 ≠ "__metadata__")).mapM fun m =>
    safetensorsEntry path len dataStart m.1 m.2
  rejectIf (entries = []) (bad "the header names no tensor")
  pure (entries.mergeSort fun a b => a.dataOffset ≤ b.dataOffset)

def npyPlan (path : Path) (file head : Bytes) :
    Except MorunaError (List Entry) := do
  let len := file.length
  let bad := MorunaError.io "npy" path.text
  rejectIf (head.length < 10 ∨ head.take 6 ≠ [0x93, 0x4e, 0x55, 0x4d, 0x50, 0x59])
    (bad "the file does not start with the NumPy magic")
  let major := head.getD 6 0
  rejectIf (major ≠ 1 ∧ major ≠ 2 ∧ major ≠ 3) (bad s!"unknown .npy major version {major}")
  rejectIf (major ≠ 1 ∧ head.length < 12) (bad "the file is shorter than a version 2 header")
  let (headerLen, headerStart) := if major = 1 then (natAt 2 head 8, 10) else (natAt 4 head 8, 12)
  let dataOffset := headerStart + headerLen
  rejectIf (len < dataOffset) (bad s!"header claims {headerLen} bytes but the file is {len} bytes")
  let header := if dataOffset ≤ head.length then readPrefix head headerStart headerLen
    else readPrefix file headerStart headerLen
  let (dtype, shape) ← (readers.dict header).mapError bad
  rejectIf (shape.any negative) (bad s!"the shape {shapeText shape} does not parse")
  pure [⟨path.text, path.stem.getD "array", dtype, shape, UInt64.ofNat dataOffset, len⟩]

def amb1Plan (path : Path) (file head : Bytes) : Except MorunaError (List Entry) := do
  let len := file.length
  let bad := MorunaError.io "mrb1" path.text
  rejectIf (head.length < 16) (bad s!"file of {len} bytes is shorter than a header")
  let code := head.getD 6 0
  let dtype ← orElse (bad s!"unknown dtype code {code}") (DType.fromCode code)
  let ndim := (head.getD 7 0).toNat
  rejectIf (MAX_NDIM < ndim) (bad s!"ndim {ndim} exceeds {MAX_NDIM}")
  rejectIf (head.length < headerEnd ndim)
    (bad s!"file of {len} bytes is short of the {headerEnd ndim}-byte header")
  let header : Header := ⟨dtype, shapeAt head ndim, u64At head (8 + 8 * ndim)⟩
  let width := header.dataOffset.toNat
  let rebuilt ← header.write width
  rejectIf (head.length < width)
    (bad s!"file of {len} bytes is short of the {width}-byte header and its padding")
  rejectIf (rebuilt ≠ head.take width)
    (bad "the header does not match the bytes the MRB1 writer would produce")
  rejectIf (len < header.payloadEnd.toNat)
    (bad s!"file of {len} bytes is short of the {header.payloadEnd} bytes the header claims")
  pure [⟨path.text, path.stem.getD "tensor", dtype, header.shape, header.dataOffset, len⟩]

/-- The entries of a file, by its magic and then by its extension. -/
def fileEntries (path : Path) (file head : Bytes) : Except MorunaError (List Entry) :=
  if head.take 4 = MAGIC then amb1Plan path file head
  else if head.take 6 = [0x93, 0x4e, 0x55, 0x4d, 0x50, 0x59] then npyPlan readers path file head
  else if path.extension.toLower = "safetensors" then safetensorsPlan readers path file head
  else .error (.plan (s!"{path.text}: not a safetensors, .npy or MRB1 file (extension " ++
    s!"{path.extension.toLower.quote}, no known magic)"))

structure Config where
  paths : List Path
  tensors : Option (List String)

/-- The entries a configuration asks for. -/
def wantedEntries (cfg : Config) (path : Path) (entries : List Entry) :
    Except MorunaError (List Entry) :=
  match cfg.tensors with
  | none => .ok entries
  | some wanted =>
    let kept := entries.filter fun e => wanted.contains e.name
    match wanted.find? fun name => !(kept.any (·.name == name)) && cfg.paths.length == 1 with
    | some name => .error (.plan s!"{path.text}: no tensor named {name} in the file")
    | none => .ok kept

/-- No entry may claim bytes past the end of its file. -/
def checkEntries (path : Path) (len : ℕ) (entries : List Entry) : Except MorunaError (List Entry) :=
  match entries.find? fun e => len < (e.dataOffset + e.bytes).toNat with
  | some e => .error (.plan (s!"{path.text}: tensor {e.name} claims bytes to " ++
      s!"{e.dataOffset + e.bytes} but the file is {len} bytes"))
  | none => .ok entries

def planPath (cfg : Config) (path : Path) :
    Except MorunaError (List Entry) := do
  rejectIf (!path.isLocal) (.plan (s!"{path.text}: TensorSource reads local files only in v1; " ++
    "an object URL is a plan error"))
  let file ← orElse (.io "metadata" path.text "no such file") path.file
  let head := readPrefix file 0 (min PROBE_BYTES (max file.length 1))
  let entries ← fileEntries readers path file head
  let entries ← wantedEntries cfg path entries
  checkEntries path file.length entries

/-- Every tensor of every path, in path order. -/
def plan (readers : Readers) (cfg : Config) : Except MorunaError (List Entry) := do
  rejectIf (cfg.paths = []) (.plan "a TensorSource needs at least one path")
  let out ← cfg.paths.mapM (planPath readers cfg)
  rejectIf (out.flatten = []) (.plan "no tensor matched the configuration")
  pure out.flatten

/-! ### Wrapping and exact bytes -/

theorem toNat_foldl_mul (a : UInt64) :
    (shape.foldl (· * ·) a).toNat = a.toNat * (shape.map UInt64.toNat).prod % 2 ^ 64 := by
  induction shape generalizing a with
  | nil => rw [List.foldl_nil, List.map_nil, List.prod_nil, Nat.mul_one,
      Nat.mod_eq_of_lt a.toNat_lt]
  | cons d shape ih =>
    rw [List.foldl_cons, ih, UInt64.toNat_mul, List.map_cons, List.prod_cons, Nat.mod_mul_mod,
      mul_assoc]

/-- The product of a shape is the exact one modulo `2 ^ 64`. -/
theorem toNat_elementCount :
    (elementCount shape).toNat = (shape.map UInt64.toNat).prod % 2 ^ 64 := by
  rw [elementCount, toNat_foldl_mul]
  exact congrArg (· % 2 ^ 64) (one_mul _)

/-- The end of a claim is the exact one modulo `2 ^ 64`. -/
theorem toNat_claim (off : UInt64) (dtype : DType) (shape : List UInt64) :
    (off + elementCount shape * dtype.itemSize).toNat =
      (off.toNat + exactBytes dtype shape) % 2 ^ 64 := by
  rw [UInt64.toNat_add, UInt64.toNat_mul, toNat_elementCount, exactBytes, Nat.mod_mul_mod,
    Nat.add_mod_mod]

variable {off : UInt64} {dtype : DType} {buf : Bytes} {h : Header}

/-- A claim that was checked as it wraps holds exactly when it does not wrap. -/
theorem claim_iff {shape : List UInt64} {len : ℕ}
    (hlen : len < 2 ^ 64) (h : (off + elementCount shape * dtype.itemSize).toNat ≤ len) :
    off.toNat + exactBytes dtype shape ≤ len ↔ off.toNat + exactBytes dtype shape < 2 ^ 64 := by
  refine ⟨fun hle => hle.trans_lt hlen, fun hlt => ?_⟩
  rwa [toNat_claim, Nat.mod_eq_of_lt hlt] at h

theorem read_le (hread : Header.read buf = .ok h) :
    (h.dataOffset + elementCount h.shape * h.dtype.itemSize).toNat ≤ buf.length := by
  obtain ⟨header, -, hread⟩ := seq_eq_ok.mp hread
  obtain ⟨_, hcheck, hread⟩ := seq_eq_ok.mp hread
  cases hread
  exact Nat.le_of_not_lt (rejectIf_eq_ok.mp hcheck)

theorem payload_eq (hread : Header.read buf = .ok h)
    (hlt : h.dataOffset.toNat + exactBytes h.dtype h.shape < 2 ^ 64) :
    h.payload buf =
      .ok ((buf.drop h.dataOffset.toNat).take (exactBytes h.dtype h.shape)) := by
  have hlast : h.payloadEnd.toNat = h.dataOffset.toNat + exactBytes h.dtype h.shape := by
    rw [Header.payloadEnd, Header.payloadLen, toNat_claim, Nat.mod_eq_of_lt hlt]
  have hle : h.payloadEnd.toNat ≤ buf.length := read_le hread
  rw [hlast] at hle
  rw [Header.payload, hlast, if_pos ⟨Nat.le_add_right _ _, hle⟩, Nat.add_sub_cancel_left]

/-- A tensor over a buffer: the product wrapped before its checks. -/
theorem fromBuffer_iff {build : Except MorunaError Unit} {buf : Buffer}
    {shape : List UInt64} {t : ManagedTensor} (hlen : buf.len < 2 ^ 64)
    (h : fromBuffer build buf off dtype shape = .ok t) :
    off.toNat + exactBytes dtype shape ≤ buf.len ↔
      off.toNat + exactBytes dtype shape < 2 ^ 64 := by
  obtain ⟨-, -, h⟩ := seq_eq_ok.mp h
  dsimp only at h
  rcases hneeded : (checkedMul (elementCount shape) dtype.itemSize).bind (checkedAdd · off)
    with - | needed
  · rw [hneeded] at h
    cases h
  rw [hneeded] at h
  obtain ⟨_, hcheck, -⟩ := seq_eq_ok.mp h
  obtain ⟨bytes, hmul, hadd⟩ := Option.bind_eq_some_iff.mp hneeded
  have hmul := checkedMul_eq_some.mp hmul
  have hadd := checkedAdd_eq_some.mp hadd
  have hle := Nat.le_of_not_lt (rejectIf_eq_ok.mp hcheck)
  refine claim_iff hlen ?_
  rw [UInt64.toNat_add, UInt64.toNat_mul]
  exact (Nat.mod_le _ _).trans (by omega)

/-- Every entry of a planned file was checked, as its claim wraps. -/
theorem planPath_le {readers : Readers} {cfg : Config} {path : Path} {entries : List Entry}
    (h : planPath readers cfg path = .ok entries) :
    ∃ file, path.file = some file ∧ ∀ e ∈ entries,
      (e.dataOffset + elementCount e.shape * e.dtype.itemSize).toNat ≤ file.length := by
  obtain ⟨-, -, h⟩ := seq_eq_ok.mp h
  obtain ⟨file, hfile, h⟩ := seq_eq_ok.mp h
  obtain ⟨_, -, h⟩ := seq_eq_ok.mp h
  obtain ⟨kept, -, h⟩ := seq_eq_ok.mp h
  refine ⟨file, ?_, ?_⟩
  · cases hpath : path.file with
    | none => rw [hpath] at hfile; cases hfile
    | some b => rw [hpath] at hfile; cases hfile; rfl
  unfold checkEntries at h
  split at h
  · cases h
  rename_i hnone
  cases h
  intro e he
  have := List.find?_eq_none.mp hnone e he
  exact Nat.le_of_not_lt fun hlt => this (decide_eq_true hlt)

/-! ### What is accepted -/

/-- **What is accepted has the bytes it claims exactly when the claim does not wrap.**
For an MRB1 header that reads, a tensor made over a buffer and every entry of a plan,
of any of the formats: the offset and the exact product of the shape times the item
size lie within the buffer or the file (and the payload is exactly those bytes) if
and only if they lie below `2 ^ 64`. -/
theorem tensor_bytes_iff (readers : Readers) (build : Except MorunaError Unit) :
    (∀ (buf : Bytes) (h : Header), buf.length < 2 ^ 64 → Header.read buf = .ok h →
      (h.dataOffset.toNat + exactBytes h.dtype h.shape ≤ buf.length ∧
        h.payload buf = .ok ((buf.drop h.dataOffset.toNat).take (exactBytes h.dtype h.shape)) ↔
        h.dataOffset.toNat + exactBytes h.dtype h.shape < 2 ^ 64)) ∧
    (∀ (buf : Buffer) (off : UInt64) (dtype : DType) (shape : List UInt64) (t : ManagedTensor),
      buf.len < 2 ^ 64 → fromBuffer build buf off dtype shape = .ok t →
      (off.toNat + exactBytes dtype shape ≤ buf.len ↔
        off.toNat + exactBytes dtype shape < 2 ^ 64)) ∧
    (∀ (cfg : Config) (out : List Entry),
      (∀ path ∈ cfg.paths, ∀ file, path.file = some file → file.length < 2 ^ 64) →
      plan readers cfg = .ok out →
      ∃ planned : List (List Entry), out = planned.flatten ∧
        List.Forall₂ (fun path entries => ∃ file, path.file = some file ∧ ∀ e ∈ entries,
          (e.dataOffset.toNat + exactBytes e.dtype e.shape ≤ file.length ↔
            e.dataOffset.toNat + exactBytes e.dtype e.shape < 2 ^ 64)) cfg.paths planned) := by
  refine ⟨fun buf h hlen hread => ⟨fun hclaim => hclaim.1.trans_lt hlen, fun hlt => ?_⟩,
    fun buf off dtype shape t hlen h => fromBuffer_iff hlen h, fun cfg out hfiles h => ?_⟩
  · exact ⟨(claim_iff hlen (read_le hread)).mpr hlt, payload_eq hread hlt⟩
  obtain ⟨-, -, h⟩ := seq_eq_ok.mp h
  obtain ⟨planned, hplanned, h⟩ := seq_eq_ok.mp h
  obtain ⟨-, -, h⟩ := seq_eq_ok.mp h
  cases h
  refine ⟨planned, rfl, ?_⟩
  obtain ⟨hlength, hall⟩ := List.forall₂_iff_zip.mp (mapM_eq_ok.mp hplanned)
  refine List.forall₂_iff_zip.mpr ⟨hlength, fun hmem => ?_⟩
  obtain ⟨file, hfile, hle⟩ := planPath_le (hall hmem)
  have hlen := hfiles _ (List.of_mem_zip hmem).1 file hfile
  exact ⟨file, hfile, fun e he => claim_iff hlen (hle e he)⟩

/-- An MRB1 record of two bytes, and a NumPy file of two. -/
def pairRecord : Bytes :=
  MAGIC ++ [1, 0, 4, 1] ++ [2, 0, 0, 0, 0, 0, 0, 0] ++ [0, 16, 0, 0, 0, 0, 0, 0] ++
    List.replicate 4072 0 ++ [5, 6]

def pairPath : Path := ⟨"x.npy", some "x", "npy", true,
  some [0x93, 0x4e, 0x55, 0x4d, 0x50, 0x59, 1, 0, 0, 0, 5, 6]⟩

/-- The payload of the record, a tensor of two bytes over a buffer of three, and the plan of the
file. -/
theorem tensor_bytes_iff_pair :
    Header.payload ⟨.u8, [2], 4096⟩ pairRecord =
      .ok ((pairRecord.drop 4096).take (exactBytes .u8 [2])) ∧
    (1 + exactBytes .u8 [2] ≤ 3 ↔ 1 + exactBytes .u8 [2] < 2 ^ 64) ∧
    ∃ planned : List (List Entry), [⟨"x.npy", "x", .u8, [2], 10, 12⟩] = planned.flatten ∧
      List.Forall₂ (fun path entries => ∃ file, path.file = some file ∧ ∀ e ∈ entries,
        (e.dataOffset.toNat + exactBytes e.dtype e.shape ≤ file.length ↔
          e.dataOffset.toNat + exactBytes e.dtype e.shape < 2 ^ 64)) [pairPath] planned := by
  obtain ⟨hread, hfrom, hplan⟩ :=
    tensor_bytes_iff ⟨fun _ => .error "", fun _ => .ok (.u8, [2])⟩ (.ok ())
  refine ⟨((hread pairRecord _ (by decide +kernel) (by decide +kernel)).mpr (by decide)).2,
    hfrom ⟨3, "Host", some 0⟩ 1 .u8 [2] ⟨1, .u8, [2]⟩ (by decide) rfl,
    hplan ⟨[pairPath], none⟩ _ (fun path hpath file hfile => ?_) rfl⟩
  cases List.mem_singleton.mp hpath
  cases hfile
  decide

/-- An MRB1 record of a page whose two dimensions of `2 ^ 32` multiply to zero. -/
def wrapped : Bytes :=
  MAGIC ++ [1, 0, 4, 2] ++ [0, 0, 0, 0, 1, 0, 0, 0] ++ [0, 0, 0, 0, 1, 0, 0, 0] ++
    [0, 16, 0, 0, 0, 0, 0, 0] ++ List.replicate 4064 0

/-- The reader accepts a record of 4096 bytes that claims `2 ^ 64` more, and a tensor is
made over one byte with the same shape. -/
theorem wrapped_claim_accepted : (∃ h, Header.read wrapped = .ok h ∧
      wrapped.length < h.dataOffset.toNat + exactBytes h.dtype h.shape) ∧
    (∃ t, fromBuffer (.ok ()) ⟨1, "Host", some 0⟩ 0 .u8 [2 ^ 32, 2 ^ 32] = .ok t ∧
      1 < t.byteOffset.toNat + exactBytes t.dtype t.shape) := by
  refine ⟨⟨⟨.u8, [2 ^ 32, 2 ^ 32], 4096⟩, by decide +kernel, by decide +kernel⟩,
    ⟨⟨0, .u8, [2 ^ 32, 2 ^ 32]⟩, rfl, by decide +kernel⟩⟩

end Moruna.Tensor
