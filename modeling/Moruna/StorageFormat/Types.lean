/-
Moruna/StorageFormat/Types.lean

The durable data types of the storage format and their validation: object
identities, the volume superblock, commit records and their extents.

Numbers are the machine words of the source.  A refusal is an `Error`, and a check
`validate` answers `.ok ()` exactly on the values it lets through.  For the two
geometry checks the bounds are also stated on naturals, once: `Superblock.Geometry`, and
`Levels`, the shape of a block-digest tree, which `Commit.validateIn` checks and
`Superblock.extent` plans (`levels_of_validateLevels`, `planLevels_spec`).
-/
import Moruna.Lib.Checks
import Moruna.Lib.Machine
import Moruna.Lib.Codec

namespace Moruna

/-- A format refusal, without platform-specific error types or secret data. -/
inductive Error
  | incomplete
  | version
  | invalid
  | limit
  | integrity
  deriving DecidableEq

/-- Metadata ceiling, independent from object payload size. -/
def maxPayload : ℕ := 1 <<< 20

abbrev Digest := { b : Bytes // b.length = 32 }

/-- The value, or the refusal `e` when there is none. -/
def okOr {α : Type} (o : Option α) (e : Error) : Except Error α :=
  match o with
  | some a => .ok a
  | none => .error e

@[simp] theorem okOr_eq_ok {α : Type} {o : Option α} {a : α} {e : Error} :
    okOr o e = .ok a ↔ o = some a := by
  cases o <;> simp [okOr]

theorem bind_unit_eq_ok {β : Type} {p : Except Error Unit} {q : Unit → Except Error β} {b : β} :
    (p >>= q) = .ok b ↔ p = .ok () ∧ q () = .ok b := by
  cases p <;> simp [bind, Except.bind]

/-! ### Identities -/

/-- Exact workspace/bucket/key identity, with no filesystem interpretation. -/
structure Object where
  workspace : String
  bucket : String
  key : String
  deriving DecidableEq

/-- Backend conditional identities, entity tags left uninterpreted. -/
structure Version where
  etag : Option String
  generation : Option String
  deriving DecidableEq

/-- Object metadata shared by protocol and durable commit frames. -/
structure Metadata where
  object : Object
  version : Version
  bytes : UInt64
  deriving DecidableEq

def slashParts (s : String) : List (List Char) := s.toList.splitOn '/'

/-- Shared borrowed identity validation, before any IO. -/
def Object.validateParts (workspace bucket key : String) : Except Error Unit :=
  rejectIf
    (workspace.isEmpty
      || bucket.isEmpty
      || key.toList.head? == some '/'
      || (slashParts key).any (fun p => p == ['.'] || p == ['.', '.'])
      || [workspace, bucket, key].any
          (fun s => s.toList.contains '\x00' || decide (maxPayload < s.utf8ByteSize)))
    .invalid

/-- Reject malformed or oversized identities before IO. -/
def Object.validate (o : Object) : Except Error Unit :=
  Object.validateParts o.workspace o.bucket o.key

/-- A missing or empty text. -/
def absent (s : Option String) : Bool :=
  match s with
  | none => true
  | some s => s.isEmpty

def Version.validate (v : Version) : Except Error Unit :=
  rejectIf (absent v.etag && absent v.generation) .invalid

/-! ### Volume geometry -/

/-- Explicit local role of a volume. -/
inductive Role
  | formatProof
  | checkpointMetadata
  | cacheScratch
  | singleNodeHome
  deriving DecidableEq

/-- A raw volume's immutable format identity and geometry. -/
structure Superblock where
  capacity : UInt64
  alignment : UInt32
  logOffset : UInt64
  logBytes : UInt64
  dataOffset : UInt64
  role : Role
  workspace : String
  bucket : String
  deriving DecidableEq

def Superblock.align (s : Superblock) : UInt64 := s.alignment.toUInt64

def isPowerOfTwo (n : ℕ) : Bool := 2 ^ n.log2 == n

theorem isPowerOfTwo_iff {n : ℕ} : isPowerOfTwo n = true ↔ ∃ k, n = 2 ^ k := by
  unfold isPowerOfTwo
  rw [beq_iff_eq]
  constructor
  · intro h; exact ⟨_, h.symm⟩
  · rintro ⟨k, rfl⟩; rw [Nat.log2_two_pow]

def Superblock.validate (s : Superblock) : Except Error Unit := do
  Object.validateParts s.workspace s.bucket ""
  rejectIf
    (decide (s.alignment < 512)
      || !isPowerOfTwo s.alignment.toNat
      || s.workspace.isEmpty
      || s.bucket.isEmpty
      || decide (s.logOffset < s.align)
      || s.logBytes == 0
      || decide (s.capacity ≤ s.dataOffset)
      || [s.capacity, s.logOffset, s.logBytes, s.dataOffset].any (fun n => !isMultipleOf n s.align)
      || checkedAdd s.logOffset s.logBytes != some s.dataOffset)
    .invalid

/-- What a validated superblock promises, on naturals. -/
structure Superblock.Geometry (s : Superblock) : Prop where
  identity : Object.validateParts s.workspace s.bucket "" = .ok ()
  min : 512 ≤ s.align.toNat
  pow : ∃ k, s.align.toNat = 2 ^ k
  log : s.align.toNat ≤ s.logOffset.toNat
  logBytes : 0 < s.logBytes.toNat
  data : s.dataOffset.toNat < s.capacity.toNat
  dvdCapacity : s.align.toNat ∣ s.capacity.toNat
  dvdLog : s.align.toNat ∣ s.logOffset.toNat
  dvdLogBytes : s.align.toNat ∣ s.logBytes.toNat
  dvdData : s.align.toNat ∣ s.dataOffset.toNat
  logEnd : s.dataOffset.toNat = s.logOffset.toNat + s.logBytes.toNat

theorem Superblock.toNat_align (s : Superblock) : s.align.toNat = s.alignment.toNat :=
  UInt32.toNat_toUInt64 _

theorem Superblock.validate_ok_iff (s : Superblock) : s.validate = .ok () ↔ s.Geometry := by
  have hA : s.alignment < 512 ↔ ¬ 512 ≤ s.align.toNat := by
    rw [not_le]; rfl
  have hid : Object.validateParts s.workspace s.bucket "" = .ok () →
      s.workspace.isEmpty = false ∧ s.bucket.isEmpty = false := by
    unfold Object.validateParts
    intro h
    simp only [rejectIf_test, Bool.or_eq_false_iff] at h
    exact ⟨h.1.1.1.1, h.1.1.1.2⟩
  unfold Superblock.validate
  rw [bind_unit_eq_ok, rejectIf_test]
  simp only [Bool.or_eq_false_iff, decide_eq_false_iff_not, Bool.not_eq_false', isPowerOfTwo_iff,
    List.any_cons, List.any_nil, Bool.or_false, isMultipleOf_iff, beq_eq_false_iff_ne,
    bne_eq_false_iff_eq,
    checkedAdd_eq_some, hA, UInt64.lt_iff_toNat_lt, UInt64.le_iff_toNat_le, not_lt, not_le,
    ← s.toNat_align, ne_eq, ← UInt64.toNat_inj, UInt64.toNat_zero]
  constructor
  · rintro ⟨hI, ⟨⟨⟨⟨⟨⟨⟨⟨h1, h2⟩, -⟩, -⟩, h3⟩, h4⟩, h5⟩, h6, h7, h8, h9⟩, h10⟩⟩
    exact ⟨hI, h1, h2, h3, pos_of_ne_zero h4, h5, h6, h7, h8, h9, h10⟩
  · intro g
    obtain ⟨hw, hb⟩ := hid g.identity
    exact ⟨g.identity, ⟨⟨⟨⟨⟨⟨⟨⟨g.min, g.pow⟩, hw⟩, hb⟩, g.log⟩, g.logBytes.ne'⟩, g.data⟩,
      g.dvdCapacity, g.dvdLog, g.dvdLogBytes, g.dvdData⟩, g.logEnd⟩⟩

/-! ### Commits and their extents -/

/-- One level of a block-digest tree; data and tree nodes occupy separate contiguous
extents. -/
structure TreeLevel where
  offset : UInt64
  nodes : UInt64
  deriving DecidableEq

/-- Immutable payload location. -/
inductive Location
  /-- A filesystem adapter's immutable data filename, 32 random identity bytes. -/
  | file (id : Digest)
  /-- Contiguous raw volume payload and its authenticated block-digest tree, leaves
  first. -/
  | extent (offset paddedBytes : UInt64) (tree : List TreeLevel) (root : Digest)
  deriving DecidableEq

/-- The one durable object/conditional-commit record shared across adapters. -/
structure Commit where
  sequence : UInt64
  metadata : Metadata
  contentHash : Digest
  location : Location
  deriving DecidableEq

/-- The loop of `Commit.validateIn` over the tree levels: `stop` is where the next level
has to start, `count` how many children it has to cover. -/
def validateLevels (align capacity : UInt64) :
    List TreeLevel → (stop count : UInt64) → Except Error UInt64
  | [], _, count => .ok count
  | level :: rest, stop, count => do
    let needed := divCeil count (align / 32)
    rejectIf (level.nodes != needed || level.offset != stop || !isMultipleOf level.offset align)
      .invalid
    let stop ← okOr ((checkedMul level.nodes align).bind (checkedAdd stop)) .invalid
    rejectIf (decide (capacity < stop) || (needed == 1 && !rest.isEmpty)) .invalid
    validateLevels align capacity rest stop needed

/-- Validate extent and tree bounds against the authoritative superblock.  Raw homes never
accept filesystem-only location records. -/
def Commit.validateIn (hash : Bytes → Digest) (c : Commit) (volume : Superblock) :
    Except Error Unit := do
  volume.validate
  c.metadata.object.validate
  c.metadata.version.validate
  rejectIf
    (c.metadata.object.workspace != volume.workspace
      || c.metadata.object.bucket != volume.bucket
      || c.metadata.object.key.isEmpty)
    .invalid
  match c.location with
  | .file _ =>
    match volume.role with
    | .formatProof | .checkpointMetadata => .ok ()
    | .cacheScratch | .singleNodeHome => .error .invalid
  | .extent offset paddedBytes tree root => do
    let align := volume.align
    rejectIf
      (!isMultipleOf offset align
        || !isMultipleOf paddedBytes align
        || decide (offset < volume.dataOffset)
        || decide (paddedBytes < c.metadata.bytes))
      .invalid
    let stop ← okOr (checkedAdd offset paddedBytes) .invalid
    rejectIf (decide (volume.capacity < stop)) .invalid
    if c.metadata.bytes == 0 then
      rejectIf (!(paddedBytes == 0 && tree.isEmpty && root == hash [])) .invalid
    else do
      rejectIf (checkedMul (divCeil c.metadata.bytes align) align != some paddedBytes) .invalid
      let count ← validateLevels align volume.capacity tree stop (paddedBytes / align)
      rejectIf (tree.isEmpty || count != 1) .invalid

/-- The loop of `Superblock.extent`: one tree level a round, until a level has one node.
`none` says that the loop is still going after so many rounds. -/
def planLevels (align : UInt64) : (rounds : ℕ) → (cursor children : UInt64) →
    Option (Except Error (List TreeLevel × UInt64))
  | 0, _, _ => none
  | rounds + 1, cursor, children =>
    if children == 0 then some (.ok ([], cursor))
    else
      let nodes := divCeil children (align / 32)
      match (checkedMul nodes align).bind (checkedAdd cursor) with
      | none => some (.error .limit)
      | some next =>
        if nodes == 1 then some (.ok ([⟨cursor, nodes⟩], next))
        else (planLevels align rounds next nodes).map
          (Except.map fun (tree, stop) => (⟨cursor, nodes⟩ :: tree, stop))

/-- The all-zero digest a planned extent carries until its tree is built. -/
def zeroDigest : Digest := ⟨List.replicate 32 0, by simp⟩

/-- Plan one contiguous immutable data extent and its digest-tree nodes without IO.  The loop
ends within 64 rounds (`planLevels_ends`), so the refusal of a loop that goes on is never
given. -/
def Superblock.extent (hash : Bytes → Digest) (s : Superblock) (start bytes : UInt64) :
    Except Error Location := do
  s.validate
  let align := s.align
  rejectIf (decide (start < s.dataOffset) || !isMultipleOf start align) .invalid
  let blocks := divCeil bytes align
  let paddedBytes ← okOr (checkedMul blocks align) .limit
  let cursor ← okOr (checkedAdd start paddedBytes) .limit
  let (tree, stop) ← (planLevels align 64 cursor blocks).getD (.error .limit)
  rejectIf (decide (s.capacity < stop)) .limit
  .ok (.extent start paddedBytes tree (if bytes == 0 then hash [] else zeroDigest))

/-! ### The shape of a digest tree, on naturals -/

/-- The levels `tree` cover `count` children from byte `cursor` on and end at `stop`: each
level has one node for `fanout` children and starts where the previous one ends, and only
the last one has a single node. -/
def Levels (fanout align : ℕ) : List TreeLevel → (count cursor stop : ℕ) → Prop
  | [], count, cursor, stop => count = 1 ∧ stop = cursor
  | level :: rest, count, cursor, stop =>
    level.nodes.toNat = ceilDiv count fanout ∧ level.offset.toNat = cursor ∧
      (ceilDiv count fanout = 1 → rest = []) ∧
      Levels fanout align rest (ceilDiv count fanout) (cursor + ceilDiv count fanout * align) stop

end Moruna
