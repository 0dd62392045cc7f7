/-
Moruna/Storage/Volume.lean

The mounted volume: mounting and provisioning a device, publishing an object by the
blocking and by the asynchronous put, reading a range of an object, and the requests of a
session.

The functions run over a device that may fail at every request and refuse every
reservation (`Storage/Device.lean`).  Failing to map private memory, to read the caller's
loan or to duplicate a handle refuses with `unavailable` right before a request that can
refuse with it too; the model gives both the answer of that request.  A future that is
dropped ends like one whose last request failed.
-/
import Moruna.StorageFormat.Banks
import Moruna.Storage.Device
import Moruna.Storage.Log

namespace Moruna

/-- A mounted raw-home or checkpoint volume. -/
structure Volume where
  device : Device
  journal : Journal
  root : Banks.Root
  copied : UInt64
  failed : Bool
  asyncFailed : Bool

abbrev VolumeM := EStateM Refusal Volume

/-- The result, with another refusal for any format error. -/
def mapErr {σ α : Type} (x : Except Error α) (refusal : Refusal) : EStateM Refusal σ α :=
  match x with
  | .ok a => pure a
  | .error _ => throw refusal

/-- The value, or the refusal when there is none. -/
def okOrRefuse {σ α : Type} (x : Option α) (refusal : Refusal) : EStateM Refusal σ α :=
  match x with
  | some a => pure a
  | none => throw refusal

def refuse {σ : Type} (c : Bool) (refusal : Refusal) : EStateM Refusal σ Unit :=
  if c then throw refusal else pure ()

/-- Two lowercase digits a byte. -/
def hex (b : Bytes) : String :=
  String.ofList (b.flatMap fun x => [Nat.digitChar (x.toNat / 16), Nat.digitChar (x.toNat % 16)])

namespace Volume

variable (hash : Bytes → Digest)

/-- Run a device operation of the volume. -/
def onDevice {α : Type} (x : DeviceM α) : VolumeM α := fun v =>
  match x v.device with
  | .ok a d => .ok a { v with device := d }
  | .error e d => .error e { v with device := d }

/-! ### Mounting -/

/-- The loop over the receipt log.  A round that is not the last one moves the cursor by a
pair, so the rounds a log has room for are never used up. -/
def replayLog : (rounds : ℕ) → Journal → DeviceM Journal
  | 0, _ => throw .integrity
  | rounds + 1, journal =>
    if journal.hasCapacity then do
      let record ← Device.read .blocking journal.log.toNat journal.cell.toNat
      let receipt ←
        Device.read .blocking (journal.log.toNat + journal.cell.toNat) journal.cell.toNat
      let (accepted, journal) ← mapErr (journal.replay hash record receipt) .integrity
      if accepted then replayLog rounds journal else pure journal
    else pure journal

/-- Durably zero a root cell that lost its authority. -/
def retire (a : ℕ) : Option UInt64 → DeviceM Unit
  | none => pure ()
  | some slot => do
    Device.write .blocking slot.toNat (List.replicate a 0)
    Device.flush .blocking

/-- Read the actual root cells and the receipt log. -/
def mountInner (alignment : UInt32) (expectedRole : Role) : DeviceM Volume := do
  let device ← get
  let a := alignment.toNat
  refuse
    (expectedRole == .formatProof
      || decide (a < device.info.sectorSize)
      || !isPowerOfTwo a
      || a % device.info.sectorSize != 0)
    .invalid
  Device.attempt .capacity
  Device.attempt .capacity
  let first ← Device.readBlock .blocking 0 a
  let second ← Device.readBlock .blocking a a
  let recovery ← mapErr (Banks.Root.recover hash first second) .integrity
  let root := recovery.root
  refuse
    (root.physical != device.capacity
      || root.geometry.alignment != alignment
      || root.geometry.role != expectedRole)
    .invalid
  Device.attempt .capacity
  let journal ← mapErr (Journal.new root.geometry) .integrity
  Device.attempt .capacity
  Device.attempt .capacity
  let journal ← replayLog hash (root.geometry.logBytes.toNat + 1) journal
  retire a recovery.retire
  let device ← get
  pure { device, journal, root, copied := 0, failed := false, asyncFailed := false }

/-- A root cell that may be provisioned is zero. -/
def requireBlank (a slot : ℕ) : DeviceM Unit := do
  let bytes ← Device.readBlock .blocking slot a
  refuse (bytes.any (· != 0)) .conflict

/-- Provisioning up to its mount: the cleared log, then the first root; its geometry. -/
def provisionRoot (geometry : Superblock) : DeviceM Superblock := do
  let device ← get
  mapErr geometry.validate .invalid
  refuse
    (geometry.capacity != device.capacity
      || geometry.role == .formatProof
      || geometry.alignment.toNat % device.info.sectorSize != 0)
    .invalid
  let root ← mapErr
    (Banks.Root.initial device.capacity geometry.alignment geometry.logBytes geometry.role
      geometry.workspace geometry.bucket) .invalid
  let geometry := root.geometry
  let _ ← mapErr (Journal.new geometry) .invalid
  let a := geometry.alignment.toNat
  let encoded ← mapErr (root.encode hash) .capacity
  Device.attempt .capacity
  requireBlank a 0
  requireBlank a a
  (List.range (geometry.logBytes.toNat / a)).forM fun i =>
    Device.write .blocking (geometry.logOffset.toNat + i * a) (List.replicate a 0)
  Device.flush .blocking
  Device.write .blocking 0 (Journal.pad a encoded)
  Device.flush .blocking
  pure geometry

/-- Explicit provisioning of a device whose root cells are zero. -/
def provision (geometry : Superblock) : DeviceM Volume := do
  let geometry ← provisionRoot hash geometry
  mountInner hash geometry.alignment geometry.role

/-! ### Publishing -/

/-- An object of this volume, while it admits operations. -/
def object (object : Object) : VolumeM Unit := do
  let v ← get
  refuse (v.failed || v.asyncFailed) .unavailable
  mapErr object.validate .invalid
  refuse
    (object.workspace != v.journal.geometry.workspace
      || object.bucket != v.journal.geometry.bucket)
    .denied

/-- The commit of a put, with the digest of its payload and its random identity. -/
def commitFor (journal : Journal) (object : Object) (bytes : UInt64) (digest : Digest)
    (unique : Bytes) (location : Location) : Commit :=
  { sequence := journal.log
    metadata := { object, version := ⟨some (hex digest.val), some (hex unique)⟩, bytes }
    contentHash := digest
    location }

/-- Unrepresentable metadata and unavailable entropy are refused before payload IO. -/
def planPut (object : Object) (condition : Condition) (source : Option Bytes) (bytes : UInt64)
    (unique : Bytes) : VolumeM Location := do
  Volume.object object
  refuse ((source.getD []).length != bytes.toNat) .invalid
  let v ← get
  let plan ← mapErr (v.journal.plan hash object condition bytes) .capacity
  let location ← okOrRefuse plan .conflict
  onDevice (Device.attempt .unavailable)
  let preview ← mapErr
    ((Frame.commit (commitFor v.journal object bytes zeroDigest unique location)).encode hash)
    .capacity
  refuse (decide (v.journal.cell.toNat < preview.length)) .capacity
  pure location

/-- The charged budget of the digest vectors. -/
def digestBudget (a bytes : UInt64) : VolumeM Unit := do
  let _ ← okOrRefuse (checkedMul (divCeil bytes a) 64) .capacity
  onDevice (Device.attempt .capacity)

/-- The bytes that crossed the caller-loan boundary. -/
def addCopied (count : ℕ) : VolumeM Unit := do
  let v ← get
  let copied ← okOrRefuse (checkedAdd v.copied (UInt64.ofNat count)) .capacity
  modify fun v => { v with copied }

def putBlock (path : Path) (a : ℕ) (payload : Bytes) (write : PageWrite × ℕ) : VolumeM Unit := do
  onDevice (Device.write path write.1.1 write.1.2)
  addCopied (blockData a payload write.2).length

/-- The blocking put reserves the digests of every level. -/
def reserveLevel (path : Path) : VolumeM Unit :=
  if path = .blocking then onDevice (Device.attempt .capacity) else pure ()

/-- The loop over the tree levels. -/
def putTree (path : Path) (a : ℕ) : List TreeLevel → List Digest → VolumeM (List Digest)
  | [], digests => pure digests
  | level :: rest, digests => do
    reserveLevel path
    let (writes, parents) ←
      mapErr (levelWrites hash a level.offset.toNat (chunks (a / 32) digests) 0) .integrity
    writes.forM fun w => onDevice (Device.write path w.1 w.2)
    putTree path a rest parents

/-- Write the payload and its tree into a planned extent; the location with its root.  The
digests of the blocks depend on nothing the writes answer, so they are computed first. -/
def putExtent (path : Path) (a : ℕ) (payload : Bytes) : Location → VolumeM Location
  | .file _ => throw .integrity
  | .extent offset paddedBytes tree root => do
    let (blocks, digests) ←
      mapErr (blockWrites hash a offset.toNat payload (ceilDiv payload.length a) 0) .integrity
    blocks.zipIdx.forM (putBlock path a payload)
    let top ← putTree hash path a tree digests
    pure (.extent offset paddedBytes tree (top.headD root))

def writeDurably (path : Path) (off : ℕ) (b : Bytes) : DeviceM Unit := do
  Device.write path off b
  Device.flush path

/-- Apply the pair that is on the medium now. -/
def applyPair (record receipt : Bytes) : VolumeM Unit := do
  onDevice (Device.attempt .unavailable)
  let v ← get
  let (applied, journal) ← mapErr (v.journal.replay hash record receipt) .integrity
  refuse (!applied) .integrity
  modify fun v => { v with journal }

/-- The blocking put up to the durable record: the commit and the bytes of its two cells. -/
def putRecord (object : Object) (condition : Condition) (source : Option Bytes) (bytes : UInt64)
    (unique : Bytes) : VolumeM (Commit × Bytes × Bytes) := do
  let location ← planPut hash object condition source bytes unique
  let v ← get
  let a := v.journal.geometry.align
  let cell := v.journal.cell.toNat
  digestBudget a bytes
  onDevice (Device.attempt .capacity)
  onDevice (Device.attempt .capacity)
  let location ← putExtent hash .blocking a.toNat (source.getD []) location
  let commit := commitFor v.journal object bytes (hash (source.getD [])) unique location
  mapErr (v.journal.validateCommit hash commit) .integrity
  let record ← mapErr ((Frame.commit commit).encode hash) .capacity
  refuse (decide (cell < record.length)) .capacity
  onDevice (Device.flush .blocking)
  let receipt ← mapErr ((Frame.receipt v.journal.log (hash record)).encode hash) .capacity
  onDevice (Device.attempt .capacity)
  onDevice (Device.attempt .capacity)
  onDevice (writeDurably .blocking v.journal.log.toNat (Journal.pad cell record))
  pure (commit, Journal.pad cell record, Journal.pad cell receipt)

def put (object : Object) (condition : Condition) (source : Option Bytes) (bytes : UInt64)
    (unique : Bytes) : VolumeM Metadata := do
  let (commit, record, receipt) ← putRecord hash object condition source bytes unique
  let v ← get
  onDevice (writeDurably .blocking (v.journal.log.toNat + v.journal.cell.toNat) receipt)
  applyPair hash record receipt
  pure commit.metadata

/-- A transaction that does not complete leaves the volume closed. -/
def transaction {α : Type} (x : VolumeM α) : VolumeM α := fun v =>
  match x v with
  | .ok a v => .ok a v
  | .error e v => .error e { v with asyncFailed := true }

/-- The part of the asynchronous put between its reservations and its acknowledgement. -/
def publishAsync (object : Object) (payload : Bytes) (bytes : UInt64) (unique : Bytes)
    (location : Location) : VolumeM Metadata := do
  let v ← get
  let cell := v.journal.cell.toNat
  let location ← putExtent hash .original v.journal.geometry.align.toNat payload location
  let commit := commitFor v.journal object bytes (hash payload) unique location
  mapErr (v.journal.validateCommit hash commit) .integrity
  let record ← mapErr ((Frame.commit commit).encode hash) .capacity
  let receipt ← mapErr ((Frame.receipt v.journal.log (hash record)).encode hash) .capacity
  refuse (decide (cell < record.length) || decide (cell < receipt.length)) .capacity
  onDevice (Device.flush .original)
  onDevice (writeDurably .original v.journal.log.toNat (Journal.pad cell record))
  onDevice (writeDurably .original (v.journal.log.toNat + cell) (Journal.pad cell receipt))
  applyPair hash (Journal.pad cell record) (Journal.pad cell receipt)
  pure commit.metadata

/-- The asynchronous put: all reservations but those of the chunks precede the IO. -/
def putAsync (object : Object) (condition : Condition) (source : Option Bytes) (bytes : UInt64)
    (unique : Bytes) : VolumeM Metadata := do
  let v ← get
  refuse (v.failed || v.asyncFailed) .unavailable
  let location ← planPut hash object condition source bytes unique
  digestBudget v.journal.geometry.align bytes
  onDevice (Device.attempt .capacity)
  onDevice (Device.attempt .capacity)
  onDevice (Device.attempt .capacity)
  onDevice (Device.attempt .denied)
  onDevice (Device.attempt .capacity)
  onDevice (Device.attempt .capacity)
  transaction (publishAsync hash object (source.getD []) bytes unique location)

/-! ### Reading -/

/-- Read and check the nodes of a proof, from the root down. -/
def readNodes (path : Path) (a : ℕ) : (left : ℕ) → BlockProof → DeviceM BlockProof
  | 0, proof => pure proof
  | left + 1, proof =>
    match proof.nextNode with
    | none => pure proof
    | some step => do
      let page ← Device.readPage path step.offset.toNat a
      let proof ← mapErr (proof.acceptNode hash page) .integrity
      readNodes path a left proof

/-- Read one block of a commit and check it. -/
def readVerified (path : Path) (geometry : Superblock) (commit : Commit) (start : UInt64)
    (block : UInt64) : DeviceM Bytes := do
  let a := geometry.align
  let proof ← mapErr (BlockProof.new hash commit geometry block) .integrity
  let proof ← readNodes hash path a.toNat proof.steps.length proof
  let page ← Device.readPage path (start.toNat + block.toNat * a.toNat) a.toNat
  mapErr (proof.verifyData hash page) .integrity
  pure page

def readBlocks (geometry : Superblock) (commit : Commit) (start : UInt64) (offset stop : ℕ) :
    (left block : ℕ) → VolumeM Bytes
  | 0, _ => pure []
  | left + 1, block => do
    let a := geometry.align.toNat
    let page ← onDevice (readVerified hash .blocking geometry commit start (UInt64.ofNat block))
    let lo := max offset (block * a)
    let hi := min stop ((block + 1) * a)
    addCopied (hi - lo)
    let rest ← readBlocks geometry commit start offset stop left (block + 1)
    pure ((page.drop (lo - block * a)).take (hi - lo) ++ rest)

def extentStart : Location → Option UInt64
  | .file _ => none
  | .extent offset _ _ _ => some offset

/-- Read a range of the exact pinned version into a destination of `room` bytes. -/
def read (object : Object) (version : Version) (offset length room : UInt64) :
    VolumeM (Metadata × Bytes) := do
  Volume.object object
  let v ← get
  let commit ← okOrRefuse (v.journal.current object.key) .missing
  refuse (commit.metadata.version != version) .conflict
  let stop ← okOrRefuse (checkedAdd offset length) .invalid
  refuse (decide (commit.metadata.bytes < stop) || room != length) .invalid
  if length == 0 then pure (commit.metadata, [])
  else do
    let a := v.journal.geometry.align.toNat
    let start ← okOrRefuse (extentStart commit.location) .integrity
    onDevice (Device.attempt .capacity)
    onDevice (Device.attempt .capacity)
    let first := offset.toNat / a
    let bytes ← readBlocks hash v.journal.geometry commit start offset.toNat stop.toNat
      (ceilDiv stop.toNat a - first) first
    pure (commit.metadata, bytes)

/-! ### Requests of a session -/

inductive Operation
  | current
  | cacheRead (version : Version) (offset length : UInt64)
  | cacheFill (version : Version) (offset length : UInt64)
  | head (version : Version)
  | read (version : Version) (offset length : UInt64)
  | create (length : UInt64)
  | list (limit : UInt32) (cursor : Option String)
  | replace (condition : Condition) (length : UInt64)
  deriving DecidableEq

/-- The answer to a request; a read carries the bytes of its destination. -/
inductive Outcome
  | head (metadata : Metadata)
  | read (metadata : Metadata) (offset length : UInt64) (bytes : Bytes)
  | written (metadata : Metadata)
  | listed (entries : List Metadata) (next : Option String)
  deriving DecidableEq

/-- The loop of a listing over the committed records in key order. -/
def listFrom (start : String) (cursor : Option String) (limit : ℕ) :
    List Commit → List Metadata → List Metadata × Bool
  | [], entries => (entries, false)
  | commit :: rest, entries =>
    let key := commit.metadata.object.key
    if !key.startsWith start ||
      (match cursor with | some c => decide (key ≤ c) | none => false) then
      listFrom start cursor limit rest entries
    else if entries.length == limit then (entries, true)
    else listFrom start cursor limit rest (entries ++ [commit.metadata])

/-- The operation of an admitted request. -/
def perform (object : Object) (operation : Operation) (payload : Option Bytes) (unique : Bytes) :
    VolumeM Outcome := do
  Volume.object object
  let v ← get
  match operation with
  | .cacheRead .. | .cacheFill .. => throw .unsupported
  | .current => do
    let commit ← okOrRefuse (v.journal.current object.key) .missing
    pure (.head commit.metadata)
  | .head version => do
    let commit ← okOrRefuse (v.journal.current object.key) .missing
    refuse (commit.metadata.version != version) .conflict
    pure (.head commit.metadata)
  | .read version offset length => do
    let room := UInt64.ofNat (payload.getD []).length
    let (metadata, bytes) ← read hash object version offset length room
    pure (.read metadata offset length bytes)
  | .create length => do
    let metadata ← put hash object .absent payload length unique
    pure (.written metadata)
  | .replace condition length => do
    let metadata ← put hash object condition payload length unique
    pure (.written metadata)
  | .list limit cursor =>
    let (entries, more) := listFrom object.key cursor limit.toNat
      (v.journal.entries.toList.map Prod.snd) []
    pure (.listed entries (if more then entries.getLast?.map (·.object.key) else none))

def clearDestination (operation : Operation) (payload : Option Bytes) (v : Volume) :
    EStateM.Result Refusal Volume Unit :=
  match operation with
  | .read .. => if (payload.getD []).isEmpty then .ok () v
      else onDevice (Device.attempt .unavailable) v
  | _ => .ok () v

/-- One request of a session.  Only an unavailable device or an integrity failure closes
the volume. -/
def execute (object : Object) (operation : Operation) (payload : Option Bytes) (unique : Bytes) :
    VolumeM Outcome := do
  let v ← get
  refuse (v.journal.geometry.role == .cacheScratch) .unsupported
  refuse (v.failed || v.asyncFailed) .unavailable
  fun v =>
    match perform hash object operation payload unique v with
    | .ok outcome v => .ok outcome v
    | .error e v =>
      match clearDestination operation payload v with
      | .error e v => .error e v
      | .ok () v =>
        .error e (if e = .unavailable ∨ e = .integrity then { v with failed := true } else v)

end Volume

end Moruna
