/-
Moruna/StorageFormat/Frame.lean

The versioned durable frame: header, digest and one typed payload (superblock, commit
or receipt).

`Frame.write` and `Frame.read` follow the source field by field.  `Frame.payload` is
the byte string both agree on:

* `write_eq_ok` — the writer appends `f.payload`, or refuses;
* `decodes_frame` — the reader accepts exactly the payloads of checked frames.

BLAKE3 is an arbitrary function `hash`; nothing here depends on what it computes.
-/
import Moruna.StorageFormat.Types

namespace Moruna

open List

/-- Canonical inner-record major. -/
def formatVersion : UInt32 := 1

/-- Fixed frame header: magic, major, payload size, payload digest. -/
def frameHeader : ℕ := 48

def frameMagic : Bytes := [77, 79, 82, 85, 83, 84, 79, 49]

/-- A versioned durable frame. -/
inductive Frame
  | superblock (s : Superblock)
  | commit (c : Commit)
  | receipt (sequence : UInt64) (commitHash : Digest)
  deriving DecidableEq

/-! ### Writer and reader of the primitive fields -/

namespace Writer

/-- Append bytes under the metadata ceiling. -/
def bytes (b : Bytes) : StateT Bytes (Except Error) Unit := put maxPayload .limit b

def u8 (n : UInt8) : StateT Bytes (Except Error) Unit := bytes [n]

def u32 (n : UInt32) : StateT Bytes (Except Error) Unit := bytes (leBytes 4 n.toNat)

def u64 (n : UInt64) : StateT Bytes (Except Error) Unit := bytes (leBytes 8 n.toNat)

def text (s : String) : StateT Bytes (Except Error) Unit :=
  if maxPayload < s.utf8ByteSize then throw .limit
  else do
    u32 (UInt32.ofNat s.utf8ByteSize)
    bytes (utf8 s)

def optional : Option String → StateT Bytes (Except Error) Unit
  | some s => do
    u8 1
    text s
  | none => u8 0

end Writer

namespace Reader

/-- The next `n` bytes as a fixed-size array. -/
def array (n : ℕ) : StateT Bytes (Except Error) { b : Bytes // b.length = n } := do
  let b ← take .incomplete n
  if h : b.length = n then pure ⟨b, h⟩ else throw .incomplete

def u8 : StateT Bytes (Except Error) UInt8 := do
  let b ← array 1
  pure (b.val.headD 0)

def u32 : StateT Bytes (Except Error) UInt32 := do
  let b ← array 4
  pure (UInt32.ofNat (leNat b.val))

def u64 : StateT Bytes (Except Error) UInt64 := do
  let b ← array 8
  pure (UInt64.ofNat (leNat b.val))

def text : StateT Bytes (Except Error) String := do
  let len ← u32
  if maxPayload < len.toNat then throw .limit
  else do
    let b ← take .incomplete len.toNat
    match fromUtf8 b with
    | some s => pure s
    | none => throw .invalid

def optional : StateT Bytes (Except Error) (Option String) := do
  let tag ← u8
  match tag with
  | 0 => pure none
  | 1 => do
    let s ← text
    pure (some s)
  | _ => throw .invalid

end Reader

def textBytes (s : String) : Bytes := leBytes 4 s.utf8ByteSize ++ utf8 s

def optionalBytes : Option String → Bytes
  | some s => 1 :: textBytes s
  | none => [0]

variable {n : ℕ} {l : Location}

theorem toNat_of_le (h : n ≤ maxPayload) : (UInt32.ofNat n).toNat = n :=
  UInt32.toNat_ofNat_of_lt' (h.trans_lt (by decide))

@[simp] theorem length_textBytes (s : String) : (textBytes s).length = 4 + s.utf8ByteSize := by
  simp [textBytes]

theorem writes_bytes (b : Bytes) : Writes maxPayload Error.limit (Writer.bytes b) b :=
  writes_put _ _ b

theorem writes_text (s : String) : Writes maxPayload Error.limit (Writer.text s) (textBytes s) := by
  refine Writes.guard (fun h => ?_) (fun h => by rw [length_textBytes]; omega)
  have h32 : Writes maxPayload Error.limit (Writer.u32 (UInt32.ofNat s.utf8ByteSize))
      (leBytes 4 s.utf8ByteSize) := by
    unfold Writer.u32
    rw [toNat_of_le (not_lt.mp h)]
    exact writes_bytes _
  exact h32.seq (writes_bytes _)

theorem writes_optional (s : Option String) :
    Writes maxPayload Error.limit (Writer.optional s) (optionalBytes s) := by
  cases s with
  | none => exact writes_bytes [0]
  | some s => exact (writes_bytes [1]).seq (writes_text s)

/-! ### What the primitive readers accept -/

theorem decodes_array (n : ℕ) : Decodes (Reader.array n) (fun b => b.val) fun _ => True where
  complete b rest _ := by
    unfold Reader.array
    rw [(decodes_take _ n).complete_bind b.property, dif_pos b.property]
    rfl
  sound i b rest h := by
    obtain ⟨b', j, hb, rfl, h'⟩ := (decodes_take _ n).sound_bind h
    rw [dif_pos hb] at h'
    cases pure_eq_ok.mp h'
    exact ⟨trivial, rfl⟩

theorem decodes_u8 : Decodes Reader.u8 (fun n => [n]) fun _ => True where
  complete n rest _ := bind_of_ok ((decodes_array 1).complete ⟨[n], rfl⟩ rest trivial)
  sound i n rest h := by
    obtain ⟨⟨b, hb⟩, j, -, rfl, h'⟩ := (decodes_array 1).sound_bind h
    cases pure_eq_ok.mp h'
    obtain ⟨n, rfl⟩ := length_eq_one_iff.mp hb
    exact ⟨trivial, rfl⟩

theorem decodes_u32 : Decodes Reader.u32 (fun n => leBytes 4 n.toNat) fun _ => True where
  complete n rest _ := by
    have h := (decodes_array 4).complete ⟨leBytes 4 n.toNat, length_leBytes _ _⟩ rest trivial
    unfold Reader.u32
    rw [bind_of_ok h, ofNat_leNat_leBytes_u32]
    rfl
  sound i n rest h := by
    obtain ⟨⟨b, hb⟩, j, -, rfl, h'⟩ := (decodes_array 4).sound_bind h
    cases pure_eq_ok.mp h'
    exact ⟨trivial, by rw [leBytes_ofNat_leNat_u32 hb]⟩

theorem decodes_u64 : Decodes Reader.u64 (fun n => leBytes 8 n.toNat) fun _ => True where
  complete n rest _ := by
    have h := (decodes_array 8).complete ⟨leBytes 8 n.toNat, length_leBytes _ _⟩ rest trivial
    unfold Reader.u64
    rw [bind_of_ok h, ofNat_leNat_leBytes_u64]
    rfl
  sound i n rest h := by
    obtain ⟨⟨b, hb⟩, j, -, rfl, h'⟩ := (decodes_array 8).sound_bind h
    cases pure_eq_ok.mp h'
    exact ⟨trivial, by rw [leBytes_ofNat_leNat_u64 hb]⟩

theorem decodes_text : Decodes Reader.text textBytes fun s => s.utf8ByteSize ≤ maxPayload where
  complete s rest hs := by
    have h32 := decodes_u32.complete (UInt32.ofNat s.utf8ByteSize) (utf8 s ++ rest) trivial
    rw [toNat_of_le hs] at h32
    unfold Reader.text textBytes
    rw [append_assoc, bind_of_ok h32, toNat_of_le hs, if_neg hs.not_gt,
      (decodes_take _ _).complete_bind (length_utf8 s), fromUtf8_utf8]
    rfl
  sound i s rest h := by
    obtain ⟨n, j, -, rfl, hn⟩ := decodes_u32.sound_bind h
    split at hn
    · cases hn
    obtain ⟨b, k, hb, rfl, hs⟩ := (decodes_take _ _).sound_bind hn
    cases hs' : fromUtf8 b with
    | none =>
      rw [hs'] at hs
      cases hs
    | some s' =>
      rw [hs'] at hs
      cases pure_eq_ok.mp hs
      rw [← utf8_of_fromUtf8 hs', length_utf8] at hb
      refine ⟨by omega, ?_⟩
      rw [textBytes, hb, utf8_of_fromUtf8 hs', append_assoc]

theorem decodes_optional :
    Decodes Reader.optional optionalBytes fun s => ∀ t, s = some t →
    t.utf8ByteSize ≤ maxPayload where
  complete s rest hs := by
    cases s with
    | none => exact decodes_u8.complete_bind (a := 0) trivial rest
    | some t =>
      have h := decodes_u8.complete (1 : UInt8) (textBytes t ++ rest) trivial
      exact (bind_of_ok h).trans (bind_of_ok (decodes_text.complete t rest (hs t rfl)))
  sound i s rest h := by
    obtain ⟨tag, j, -, rfl, htag⟩ := decodes_u8.sound_bind h
    split at htag
    · cases pure_eq_ok.mp htag
      exact ⟨by simp, rfl⟩
    · obtain ⟨t, k, ht, rfl, hs⟩ := decodes_text.sound_bind htag
      cases pure_eq_ok.mp hs
      refine ⟨?_, rfl⟩
      rintro t' ⟨⟩
      exact ht
    · cases htag

/-! ### Writing a frame -/

def Role.code : Role → UInt8
  | .formatProof => 0
  | .checkpointMetadata => 1
  | .cacheScratch => 2
  | .singleNodeHome => 3

def Role.ofCode : UInt8 → Except Error Role
  | 0 => .ok .formatProof
  | 1 => .ok .checkpointMetadata
  | 2 => .ok .cacheScratch
  | 3 => .ok .singleNodeHome
  | _ => .error .invalid

def TreeLevel.write (level : TreeLevel) : StateT Bytes (Except Error) Unit := do
  Writer.u64 level.offset
  Writer.u64 level.nodes

def Location.write : Location → StateT Bytes (Except Error) Unit
  | .file id => do
    Writer.u8 0
    Writer.bytes id.val
  | .extent offset paddedBytes tree root =>
    if 64 < tree.length then throw .limit
    else do
      Writer.u8 1
      Writer.u64 offset
      Writer.u64 paddedBytes
      Writer.u32 (UInt32.ofNat tree.length)
      tree.forM TreeLevel.write
      Writer.bytes root.val

/-- The payload of `Frame::encode`, with the validation each kind of frame makes first. -/
def Frame.write : Frame → StateT Bytes (Except Error) Unit
  | .receipt sequence commitHash => do
    Writer.u8 3
    Writer.u64 sequence
    Writer.bytes commitHash.val
  | .superblock s => do
    StateT.lift s.validate
    Writer.u8 1
    Writer.u64 s.capacity
    Writer.u32 s.alignment
    Writer.u64 s.logOffset
    Writer.u64 s.logBytes
    Writer.u64 s.dataOffset
    Writer.u8 s.role.code
    Writer.text s.workspace
    Writer.text s.bucket
  | .commit c => do
    StateT.lift c.metadata.object.validate
    StateT.lift c.metadata.version.validate
    StateT.lift (rejectIf c.metadata.object.key.isEmpty .invalid)
    Writer.u8 2
    Writer.u64 c.sequence
    Writer.text c.metadata.object.workspace
    Writer.text c.metadata.object.bucket
    Writer.text c.metadata.object.key
    Writer.optional c.metadata.version.etag
    Writer.optional c.metadata.version.generation
    Writer.u64 c.metadata.bytes
    Writer.bytes c.contentHash.val
    c.location.write

/-- A complete frame around a payload. -/
def frameBytes (hash : Bytes → Digest) (payload : Bytes) : Bytes :=
  frameMagic ++ leBytes 4 formatVersion.toNat ++ leBytes 4 (UInt32.ofNat payload.length).toNat
    ++ (hash payload).val ++ payload

/-- Encode the canonical bounded frame, without padding. -/
def Frame.encode (hash : Bytes → Digest) (f : Frame) : Except Error Bytes := do
  let ((), payload) ← f.write []
  .ok (frameBytes hash payload)

/-! ### Reading a frame -/

def TreeLevel.read : StateT Bytes (Except Error) TreeLevel := do
  let offset ← Reader.u64
  let nodes ← Reader.u64
  pure ⟨offset, nodes⟩

def Location.read : StateT Bytes (Except Error) Location := do
  let tag ← Reader.u8
  match tag with
  | 0 => do
    let id ← Reader.array 32
    pure (.file id)
  | 1 => do
    let offset ← Reader.u64
    let paddedBytes ← Reader.u64
    let levels ← Reader.u32
    if 64 < levels.toNat then throw .limit
    else do
      let tree ← many TreeLevel.read levels.toNat
      let root ← Reader.array 32
      pure (.extent offset paddedBytes tree root)
  | _ => throw .invalid

def Superblock.read : StateT Bytes (Except Error) Superblock := do
  let capacity ← Reader.u64
  let alignment ← Reader.u32
  let logOffset ← Reader.u64
  let logBytes ← Reader.u64
  let dataOffset ← Reader.u64
  let code ← Reader.u8
  let role ← StateT.lift (Role.ofCode code)
  let workspace ← Reader.text
  let bucket ← Reader.text
  let s : Superblock :=
    { capacity, alignment, logOffset, logBytes, dataOffset, role, workspace, bucket }
  StateT.lift s.validate
  pure s

def Commit.read : StateT Bytes (Except Error) Commit := do
  let sequence ← Reader.u64
  let workspace ← Reader.text
  let bucket ← Reader.text
  let key ← Reader.text
  let object : Object := { workspace, bucket, key }
  StateT.lift object.validate
  StateT.lift (rejectIf object.key.isEmpty .invalid)
  let etag ← Reader.optional
  let generation ← Reader.optional
  let version : Version := { etag, generation }
  StateT.lift version.validate
  let bytes ← Reader.u64
  let contentHash ← Reader.array 32
  let location ← Location.read
  pure { sequence, metadata := { object, version, bytes }, contentHash, location }

def Frame.read : StateT Bytes (Except Error) Frame := do
  let tag ← Reader.u8
  match tag with
  | 1 => do
    let s ← Superblock.read
    pure (.superblock s)
  | 2 => do
    let c ← Commit.read
    pure (.commit c)
  | 3 => do
    let sequence ← Reader.u64
    let commitHash ← Reader.array 32
    pure (.receipt sequence commitHash)
  | _ => throw .invalid

/-- The total encoded frame length, validated before its payload is looked at. -/
def frameSize (header : Bytes) : Except Error ℕ := do
  rejectIf (decide (header.length < frameHeader)) .incomplete
  rejectIf (header.take 8 != frameMagic) .invalid
  rejectIf (UInt32.ofNat (leNat ((header.drop 8).take 4)) != formatVersion) .version
  let len := (UInt32.ofNat (leNat ((header.drop 12).take 4))).toNat
  rejectIf (len == 0 || decide (maxPayload < len)) .limit
  .ok (frameHeader + len)

/-- Decode exactly one canonical frame, accepting only zero padding afterward. -/
def Frame.decode (hash : Bytes → Digest) (bytes : Bytes) : Except Error Frame := do
  let size ← frameSize bytes
  rejectIf (decide (bytes.length < size)) .incomplete
  let payload := (bytes.drop frameHeader).take (size - frameHeader)
  rejectIf ((bytes.drop 16).take 32 != (hash payload).val) .integrity
  rejectIf ((bytes.drop size).any (· != 0)) .invalid
  let (frame, rest) ← Frame.read payload
  rejectIf (!rest.isEmpty) .invalid
  .ok frame

/-! ### The byte string of a frame -/

def TreeLevel.bytes (level : TreeLevel) : Bytes :=
  leBytes 8 level.offset.toNat ++ leBytes 8 level.nodes.toNat

def Location.bytes : Location → Bytes
  | .file id => [0] ++ id.val
  | .extent offset paddedBytes tree root =>
    [1] ++ (leBytes 8 offset.toNat ++ (leBytes 8 paddedBytes.toNat ++
      (leBytes 4 (UInt32.ofNat tree.length).toNat ++ (tree.flatMap TreeLevel.bytes ++ root.val))))

def Superblock.bytes (s : Superblock) : Bytes :=
  leBytes 8 s.capacity.toNat ++ (leBytes 4 s.alignment.toNat ++ (leBytes 8 s.logOffset.toNat ++
    (leBytes 8 s.logBytes.toNat ++ (leBytes 8 s.dataOffset.toNat ++ ([s.role.code] ++
      (textBytes s.workspace ++ textBytes s.bucket))))))

def Commit.bytes (c : Commit) : Bytes :=
  leBytes 8 c.sequence.toNat ++ (textBytes c.metadata.object.workspace ++
    (textBytes c.metadata.object.bucket ++ (textBytes c.metadata.object.key ++
      (optionalBytes c.metadata.version.etag ++ (optionalBytes c.metadata.version.generation ++
        (leBytes 8 c.metadata.bytes.toNat ++ (c.contentHash.val ++ c.location.bytes)))))))

def Frame.payload : Frame → Bytes
  | .receipt sequence commitHash => [3] ++ (leBytes 8 sequence.toNat ++ commitHash.val)
  | .superblock s => [1] ++ s.bytes
  | .commit c => [2] ++ c.bytes

/-- The tree of a location is short enough to be written. -/
def Location.Bounded : Location → Prop
  | .file _ => True
  | .extent _ _ tree _ => tree.length ≤ 64

/-- The validation both directions of the codec make. -/
def Frame.Checked : Frame → Prop
  | .receipt _ _ => True
  | .superblock s => s.validate = .ok ()
  | .commit c =>
    c.metadata.object.validate = .ok () ∧ c.metadata.version.validate = .ok () ∧
      c.metadata.object.key.isEmpty = false ∧ c.location.Bounded

/-! ### The writer appends that byte string -/

theorem writes_level (level : TreeLevel) : Writes maxPayload Error.limit level.write level.bytes :=
  (writes_bytes _).seq (writes_bytes _)

theorem writes_location (h : l.Bounded) :
    Writes maxPayload Error.limit l.write l.bytes := by
  cases l with
  | file id => exact (writes_bytes _).seq (writes_bytes _)
  | extent offset paddedBytes tree root =>
    rw [Location.write, if_neg (show ¬ 64 < tree.length from not_lt.mpr h)]
    exact (writes_bytes _).seq <| (writes_bytes _).seq <| (writes_bytes _).seq <|
      (writes_bytes _).seq <| (Writes.forM writes_level tree).seq (writes_bytes _)

theorem fails_location (h : ¬ l.Bounded) : Fails l.write := by
  cases l with
  | file id => exact absurd trivial h
  | extent offset paddedBytes tree root =>
    rw [Location.write, if_pos (show 64 < tree.length from Nat.lt_of_not_le h)]
    exact fails_throw _

variable {f : Frame} {b : Bytes}

theorem write_eq_ok {w : Bytes} :
    f.write [] = .ok ((), w) ↔ f.Checked ∧ f.payload.length ≤ maxPayload ∧ w = f.payload := by
  -- a chain of writers that appends `out` from the empty buffer
  have fin : ∀ {p : StateT Bytes (Except Error) Unit} {out : Bytes},
      Writes maxPayload .limit p out →
        (p [] = .ok ((), w) ↔ out.length ≤ maxPayload ∧ w = out) := by
    intro p out hp
    rw [hp.run]
    split
    · rename_i h
      rw [Except.ok.injEq, Prod.mk.injEq]
      exact ⟨fun e => ⟨h, e.2.symm⟩, fun e => ⟨rfl, e.2.symm⟩⟩
    · rename_i h
      exact ⟨fun e => absurd e (by simp), fun e => absurd e.1 h⟩
  cases f with
  | receipt sequence commitHash =>
    have hw : Writes maxPayload Error.limit (Frame.receipt sequence commitHash).write
        (Frame.receipt sequence commitHash).payload :=
      (writes_bytes _).seq <| (writes_bytes _).seq (writes_bytes _)
    rw [fin hw]
    exact ⟨fun h => ⟨trivial, h⟩, fun h => h.2⟩
  | superblock s =>
    unfold Frame.write
    rw [lift_bind_eq_ok]
    have hw := fin <| (writes_bytes [1]).seq <| (writes_bytes (leBytes 8 s.capacity.toNat)).seq <|
      (writes_bytes (leBytes 4 s.alignment.toNat)).seq <|
      (writes_bytes (leBytes 8 s.logOffset.toNat)).seq <|
      (writes_bytes (leBytes 8 s.logBytes.toNat)).seq <|
      (writes_bytes (leBytes 8 s.dataOffset.toNat)).seq <|
      (writes_bytes [s.role.code]).seq <| (writes_text s.workspace).seq (writes_text s.bucket)
    constructor
    · rintro ⟨⟨⟩, hv, h⟩
      exact ⟨hv, hw.mp h⟩
    · rintro ⟨hv, h⟩
      exact ⟨(), hv, hw.mpr h⟩
  | commit c =>
    have hw := fun hb : c.location.Bounded => fin <|
      (writes_bytes [2]).seq <| (writes_bytes (leBytes 8 c.sequence.toNat)).seq <|
      (writes_text c.metadata.object.workspace).seq <| (writes_text c.metadata.object.bucket).seq <|
      (writes_text c.metadata.object.key).seq <| (writes_optional c.metadata.version.etag).seq <|
      (writes_optional c.metadata.version.generation).seq <|
      (writes_bytes (leBytes 8 c.metadata.bytes.toNat)).seq <|
      (writes_bytes c.contentHash.val).seq (writes_location hb)
    simp only [Frame.write, lift_bind_eq_ok]
    constructor
    · rintro ⟨⟨⟩, ho, ⟨⟩, hv, ⟨⟩, hk, h⟩
      by_cases hb : c.location.Bounded
      · exact ⟨⟨ho, hv, rejectIf_test.mp hk, hb⟩, (hw hb).mp h⟩
      · -- a tree that is too long is refused after the fields before it
        exact absurd h (Fails.bind (fun _ => Fails.bind fun _ => Fails.bind fun _ =>
          .bind fun _ => .bind fun _ => .bind fun _ => .bind fun _ =>
          .bind fun _ => .bind fun _ => fails_location hb) _ _)
    · rintro ⟨⟨ho, hv, hk, hb⟩, h⟩
      exact ⟨(), ho, (), hv, (), rejectIf_test.mpr hk, (hw hb).mpr h⟩

/-! ### The reader accepts exactly it -/

/-- The texts of a frame are short enough to be read. -/
def Frame.Texts : Frame → Prop
  | .receipt _ _ => True
  | .superblock s => s.workspace.utf8ByteSize ≤ maxPayload ∧ s.bucket.utf8ByteSize ≤ maxPayload
  | .commit c =>
    c.metadata.object.workspace.utf8ByteSize ≤ maxPayload ∧
      c.metadata.object.bucket.utf8ByteSize ≤ maxPayload ∧
      c.metadata.object.key.utf8ByteSize ≤ maxPayload ∧
      (∀ t, c.metadata.version.etag = some t → t.utf8ByteSize ≤ maxPayload) ∧
      ∀ t, c.metadata.version.generation = some t → t.utf8ByteSize ≤ maxPayload

theorem decodes_level : Decodes TreeLevel.read TreeLevel.bytes fun _ => True where
  complete level rest _ := by
    unfold TreeLevel.read TreeLevel.bytes
    rw [append_assoc, decodes_u64.complete_bind trivial, decodes_u64.complete_bind trivial]
    rfl
  sound i level rest h := by
    obtain ⟨offset, j, -, rfl, h1⟩ := decodes_u64.sound_bind h
    obtain ⟨nodes, k, -, rfl, h2⟩ := decodes_u64.sound_bind h1
    cases pure_eq_ok.mp h2
    exact ⟨trivial, by simp only [TreeLevel.bytes, append_assoc]⟩

theorem decodes_location : Decodes Location.read Location.bytes Location.Bounded where
  complete l rest hl := by
    cases l with
    | file id =>
      unfold Location.read
      rw [Location.bytes, append_assoc, decodes_u8.complete_bind trivial]
      exact (decodes_array 32).complete_bind trivial rest
    | extent offset paddedBytes tree root =>
      have hlen := toNat_of_le (le_trans (show tree.length ≤ 64 from hl) (by decide))
      unfold Location.read
      simp only [Location.bytes, append_assoc]
      rw [decodes_u8.complete_bind trivial]
      show (Reader.u64 >>= _) _ = _
      rw [decodes_u64.complete_bind trivial, decodes_u64.complete_bind trivial,
        decodes_u32.complete_bind trivial, hlen,
        if_neg (show ¬ 64 < tree.length from not_lt.mpr hl),
        (decodes_level.many tree.length).complete_bind ⟨rfl, fun _ _ => trivial⟩]
      exact (decodes_array 32).complete_bind trivial rest
  sound i l rest h := by
    obtain ⟨tag, j, -, rfl, h1⟩ := decodes_u8.sound_bind h
    split at h1
    · obtain ⟨id, k, -, rfl, h2⟩ := (decodes_array 32).sound_bind h1
      cases pure_eq_ok.mp h2
      exact ⟨trivial, by simp only [Location.bytes, append_assoc]⟩
    · obtain ⟨offset, k, -, rfl, h2⟩ := decodes_u64.sound_bind h1
      obtain ⟨paddedBytes, k, -, rfl, h3⟩ := decodes_u64.sound_bind h2
      obtain ⟨levels, k, -, rfl, h4⟩ := decodes_u32.sound_bind h3
      split at h4
      · cases h4
      obtain ⟨tree, k, ⟨hlen, -⟩, rfl, h5⟩ := (decodes_level.many levels.toNat).sound_bind h4
      obtain ⟨root, k, -, rfl, h6⟩ := (decodes_array 32).sound_bind h5
      cases pure_eq_ok.mp h6
      refine ⟨show tree.length ≤ 64 by omega, ?_⟩
      simp only [Location.bytes, append_assoc, hlen, UInt32.ofNat_toNat]
    · cases h1

theorem Role.ofCode_eq_ok {n : UInt8} {r : Role} : Role.ofCode n = .ok r ↔ n = r.code := by
  constructor
  · intro h
    unfold Role.ofCode at h
    split at h <;> cases h <;> rfl
  · rintro rfl
    cases r <;> rfl

theorem decodes_superblock : Decodes Superblock.read Superblock.bytes fun s =>
    (Frame.superblock s).Checked ∧ (Frame.superblock s).Texts where
  complete s rest hs := by
    obtain ⟨hv, hw, hb⟩ := hs
    unfold Superblock.read
    simp only [Superblock.bytes, append_assoc]
    rw [decodes_u64.complete_bind trivial, decodes_u32.complete_bind trivial,
      decodes_u64.complete_bind trivial, decodes_u64.complete_bind trivial,
      decodes_u64.complete_bind trivial, decodes_u8.complete_bind trivial,
      lift_bind_of_ok (Role.ofCode_eq_ok.mpr rfl), decodes_text.complete_bind hw,
      decodes_text.complete_bind hb, lift_bind_of_ok (show s.validate = .ok () from hv)]
    rfl
  sound i s rest h := by
    obtain ⟨capacity, j, -, rfl, h1⟩ := decodes_u64.sound_bind h
    obtain ⟨alignment, j, -, rfl, h2⟩ := decodes_u32.sound_bind h1
    obtain ⟨logOffset, j, -, rfl, h3⟩ := decodes_u64.sound_bind h2
    obtain ⟨logBytes, j, -, rfl, h4⟩ := decodes_u64.sound_bind h3
    obtain ⟨dataOffset, j, -, rfl, h5⟩ := decodes_u64.sound_bind h4
    obtain ⟨code, j, -, rfl, h6⟩ := decodes_u8.sound_bind h5
    obtain ⟨role, hrole, h7⟩ := lift_bind_eq_ok.mp h6
    obtain ⟨workspace, j, hw, rfl, h8⟩ := decodes_text.sound_bind h7
    obtain ⟨bucket, j, hb, rfl, h9⟩ := decodes_text.sound_bind h8
    obtain ⟨⟨⟩, hv, h10⟩ := lift_bind_eq_ok.mp h9
    cases pure_eq_ok.mp h10
    refine ⟨⟨hv, hw, hb⟩, ?_⟩
    simp only [Superblock.bytes, append_assoc, Role.ofCode_eq_ok.mp hrole]

theorem decodes_commit : Decodes Commit.read Commit.bytes fun c =>
    (Frame.commit c).Checked ∧ (Frame.commit c).Texts where
  complete c rest hc := by
    obtain ⟨⟨ho, hv, hk, hl⟩, hw, hb, hkey, he, hg⟩ := hc
    unfold Commit.read
    simp only [Commit.bytes, append_assoc]
    rw [decodes_u64.complete_bind trivial, decodes_text.complete_bind hw,
      decodes_text.complete_bind hb, decodes_text.complete_bind hkey,
      lift_bind_of_ok (show c.metadata.object.validate = .ok () from ho),
      lift_bind_of_ok (rejectIf_test (u := ()).mpr hk), decodes_optional.complete_bind he,
      decodes_optional.complete_bind hg,
      lift_bind_of_ok (show c.metadata.version.validate = .ok () from hv),
      decodes_u64.complete_bind trivial, (decodes_array 32).complete_bind trivial,
      decodes_location.complete_bind hl]
    rfl
  sound i c rest h := by
    obtain ⟨sequence, j, -, rfl, h1⟩ := decodes_u64.sound_bind h
    obtain ⟨workspace, j, hw, rfl, h2⟩ := decodes_text.sound_bind h1
    obtain ⟨bucket, j, hb, rfl, h3⟩ := decodes_text.sound_bind h2
    obtain ⟨key, j, hkey, rfl, h4⟩ := decodes_text.sound_bind h3
    obtain ⟨⟨⟩, ho, h5⟩ := lift_bind_eq_ok.mp h4
    obtain ⟨⟨⟩, hk, h6⟩ := lift_bind_eq_ok.mp h5
    obtain ⟨etag, j, he, rfl, h7⟩ := decodes_optional.sound_bind h6
    obtain ⟨generation, j, hg, rfl, h8⟩ := decodes_optional.sound_bind h7
    obtain ⟨⟨⟩, hv, h9⟩ := lift_bind_eq_ok.mp h8
    obtain ⟨bytes, j, -, rfl, h10⟩ := decodes_u64.sound_bind h9
    obtain ⟨contentHash, j, -, rfl, h11⟩ := (decodes_array 32).sound_bind h10
    obtain ⟨location, j, hl, rfl, h12⟩ := decodes_location.sound_bind h11
    cases pure_eq_ok.mp h12
    refine ⟨⟨⟨ho, hv, rejectIf_test.mp hk, hl⟩, hw, hb, hkey, he, hg⟩, ?_⟩
    simp only [Commit.bytes, append_assoc]

theorem decodes_frame : Decodes Frame.read Frame.payload fun f => f.Checked ∧ f.Texts where
  complete f rest hf := by
    unfold Frame.read
    cases f with
    | receipt sequence commitHash =>
      simp only [Frame.payload, append_assoc]
      rw [decodes_u8.complete_bind trivial]
      show (Reader.u64 >>= _) _ = _
      rw [decodes_u64.complete_bind trivial, (decodes_array 32).complete_bind trivial]
      rfl
    | superblock s =>
      simp only [Frame.payload, append_assoc]
      rw [decodes_u8.complete_bind trivial]
      exact decodes_superblock.complete_bind hf rest
    | commit c =>
      simp only [Frame.payload, append_assoc]
      rw [decodes_u8.complete_bind trivial]
      exact decodes_commit.complete_bind hf rest
  sound i f rest h := by
    obtain ⟨tag, j, -, rfl, h1⟩ := decodes_u8.sound_bind h
    split at h1
    · obtain ⟨s, j, hs, rfl, h2⟩ := decodes_superblock.sound_bind h1
      cases pure_eq_ok.mp h2
      exact ⟨hs, by simp only [Frame.payload, append_assoc]⟩
    · obtain ⟨c, j, hc, rfl, h2⟩ := decodes_commit.sound_bind h1
      cases pure_eq_ok.mp h2
      exact ⟨hc, by simp only [Frame.payload, append_assoc]⟩
    · obtain ⟨sequence, j, -, rfl, h2⟩ := decodes_u64.sound_bind h1
      obtain ⟨commitHash, j, -, rfl, h3⟩ := (decodes_array 32).sound_bind h2
      cases pure_eq_ok.mp h3
      exact ⟨⟨trivial, trivial⟩, by simp only [Frame.payload, append_assoc]⟩
    · cases h1

/-- A payload within the ceiling holds only texts within it. -/
theorem Frame.texts_of_length (h : f.payload.length ≤ maxPayload) : f.Texts := by
  have opt : ∀ (s : Option String) t, s = some t → t.utf8ByteSize ≤ (optionalBytes s).length := by
    rintro s t rfl
    simp only [optionalBytes, length_cons, length_textBytes]
    omega
  cases f with
  | receipt sequence commitHash => trivial
  | superblock s =>
    simp only [Frame.payload, Superblock.bytes, length_append, length_textBytes] at h
    exact ⟨by omega, by omega⟩
  | commit c =>
    simp only [Frame.payload, Commit.bytes, length_append, length_textBytes] at h
    refine ⟨by omega, by omega, by omega, fun t ht => ?_, fun t ht => ?_⟩
    · have := opt _ t ht; omega
    · have := opt _ t ht; omega

/-! ### Whole frames -/

variable (hash : Bytes → Digest)

theorem Frame.payload_pos (f : Frame) : 0 < f.payload.length := by cases f <;> simp [Frame.payload]

theorem length_frameBytes (p : Bytes) : (frameBytes hash p).length = frameHeader + p.length := by
  simp only [frameBytes, length_append, length_leBytes, (hash p).property]
  rfl

theorem Frame.encode_eq_ok : f.encode hash = .ok b ↔
      f.Checked ∧ f.payload.length ≤ maxPayload ∧ b = frameBytes hash f.payload := by
  unfold Frame.encode
  rw [seq_eq_ok]
  constructor
  · rintro ⟨⟨⟨⟩, w⟩, hw, h⟩
    obtain ⟨hc, hlen, rfl⟩ := write_eq_ok.mp hw
    cases h
    exact ⟨hc, hlen, rfl⟩
  · rintro ⟨hc, hlen, rfl⟩
    exact ⟨((), f.payload), write_eq_ok.mpr ⟨hc, hlen, rfl⟩, rfl⟩

theorem frame_fields (p rest : Bytes) : (frameBytes hash p ++ rest).take 8 = frameMagic ∧
      ((frameBytes hash p ++ rest).drop 8).take 4 = leBytes 4 formatVersion.toNat ∧
      ((frameBytes hash p ++ rest).drop 12).take 4 = leBytes 4 (UInt32.ofNat p.length).toNat ∧
      ((frameBytes hash p ++ rest).drop 16).take 32 = (hash p).val ∧
      ((frameBytes hash p ++ rest).drop frameHeader).take p.length = p ∧
      (frameBytes hash p ++ rest).drop (frameHeader + p.length) = rest := by
  have h0 : (frameBytes hash p ++ rest).drop 0 = frameMagic ++ (leBytes 4 formatVersion.toNat ++
      (leBytes 4 (UInt32.ofNat p.length).toNat ++ ((hash p).val ++ (p ++ rest)))) := by
    simp only [frameBytes, append_assoc, drop_zero]
  obtain ⟨t0, d8⟩ := cut_field h0 (k := 8) rfl
  obtain ⟨t8, d12⟩ := cut_field d8 (length_leBytes 4 _)
  obtain ⟨t12, d16⟩ := cut_field d12 (length_leBytes 4 _)
  obtain ⟨t16, d48⟩ := cut_field d16 (hash p).property
  obtain ⟨t48, dend⟩ := cut_field d48 rfl
  exact ⟨t0, t8, t12, t16, t48, dend⟩

/-- The declared payload length of a header. -/
def declaredLength (header : Bytes) : ℕ := (UInt32.ofNat (leNat ((header.drop 12).take 4))).toNat

theorem frameSize_eq_ok :
    frameSize b = .ok n ↔ frameHeader ≤ b.length ∧ b.take 8 = frameMagic ∧
      UInt32.ofNat (leNat ((b.drop 8).take 4)) = formatVersion ∧
      0 < declaredLength b ∧ declaredLength b ≤ maxPayload ∧
      n = frameHeader + declaredLength b := by
  unfold frameSize declaredLength
  simp only [bind_unit_eq_ok, rejectIf_test, decide_eq_false_iff_not, not_lt, bne_eq_false_iff_eq,
    Bool.or_eq_false_iff, beq_eq_false_iff_ne, Except.ok.injEq, and_assoc, pos_iff_ne_zero,
    eq_comm (a := n), ne_eq]

theorem frameSize_frameBytes {p : Bytes} (h0 : 0 < p.length) (hmax : p.length ≤ maxPayload)
    (rest : Bytes) : frameSize (frameBytes hash p ++ rest) = .ok (frameHeader + p.length) := by
  obtain ⟨f1, f2, f3, -⟩ := frame_fields hash p rest
  have hlen : declaredLength (frameBytes hash p ++ rest) = p.length := by
    unfold declaredLength
    rw [f3, ofNat_leNat_leBytes_u32, toNat_of_le hmax]
  have hle : frameHeader ≤ (frameBytes hash p ++ rest).length := by
    rw [length_append, length_frameBytes]
    omega
  rw [frameSize_eq_ok, hlen]
  exact ⟨hle, f1, rfl, h0, hmax, rfl⟩

/-- A byte string whose header fields are those of a frame is that frame and what follows. -/
theorem eq_frameBytes (hlen : frameHeader + declaredLength b ≤ b.length)
    (hm : b.take 8 = frameMagic) (hv : UInt32.ofNat (leNat ((b.drop 8).take 4)) = formatVersion)
    (hh : (b.drop 16).take 32 = (hash ((b.drop frameHeader).take (declaredLength b))).val) :
    b = frameBytes hash ((b.drop frameHeader).take (declaredLength b)) ++
      b.drop (frameHeader + declaredLength b) := by
  have hd : declaredLength b + 48 ≤ b.length := by
    have : frameHeader = 48 := rfl
    omega
  have hpl : ((b.drop frameHeader).take (declaredLength b)).length = declaredLength b :=
    length_field hlen
  have hv' : leBytes 4 formatVersion.toNat = (b.drop 8).take 4 := by
    rw [← hv, leBytes_ofNat_leNat_u32 (length_field (by omega))]
  have hl' : leBytes 4 (UInt32.ofNat (declaredLength b)).toNat = (b.drop 12).take 4 := by
    unfold declaredLength
    rw [UInt32.ofNat_toNat, leBytes_ofNat_leNat_u32 (length_field (by omega))]
  unfold frameBytes
  rw [hpl, ← hm, hv', hl', ← hh]
  simp only [append_assoc]
  rw [drop_take_append_drop, show frameHeader = 16 + 32 from rfl, drop_take_append_drop b 16,
    drop_take_append_drop b 12 4, drop_take_append_drop b 8 4, take_append_drop]

/-- **The decoder accepts exactly the canonical frames with zero padding.** -/
theorem Frame.decode_eq_ok :
    Frame.decode hash b = .ok f ↔ f.Checked ∧ f.payload.length ≤ maxPayload ∧
      ∃ k, b = frameBytes hash f.payload ++ List.replicate k 0 := by
  unfold Frame.decode
  simp only [seq_eq_ok]
  constructor
  · rintro ⟨size, hsize, ⟨⟩, hle, ⟨⟩, hhash, ⟨⟩, hpad, ⟨f', rest⟩, hread, ⟨⟩, hrest, h⟩
    cases h
    obtain ⟨-, hm, hv, -, hmax, rfl⟩ := frameSize_eq_ok.mp hsize
    rw [rejectIf_test, decide_eq_false_iff_not, not_lt] at hle
    rw [rejectIf_test, bne_eq_false_iff_eq, Nat.add_sub_cancel_left] at hhash
    rw [rejectIf_test] at hpad
    rw [rejectIf_test, Bool.not_eq_false', List.isEmpty_iff] at hrest
    rw [Nat.add_sub_cancel_left] at hread
    obtain ⟨⟨hc, -⟩, hp⟩ := decodes_frame.sound _ _ _ hread
    rw [show rest = [] from hrest, append_nil] at hp
    have hb := eq_frameBytes hash hle hm hv hhash
    have hpl : f'.payload.length = declaredLength b := by
      rw [← hp, length_take, length_drop]
      omega
    rw [hp] at hb
    refine ⟨hc, hpl.trans_le hmax, (b.drop (frameHeader + declaredLength b)).length, ?_⟩
    rw [← eq_replicate_of_any_eq_false hpad]
    exact hb
  · rintro ⟨hc, hlen, k, rfl⟩
    obtain ⟨-, -, -, f4, f5, f6⟩ := frame_fields hash f.payload (List.replicate k 0)
    have hread := decodes_frame.complete f [] ⟨hc, Frame.texts_of_length hlen⟩
    rw [append_nil] at hread
    refine ⟨_, frameSize_frameBytes hash f.payload_pos hlen _, (), rejectIf_test.mpr ?_,
      (), rejectIf_test.mpr ?_, (), rejectIf_test.mpr ?_, (f, []), ?_, (), rfl, rfl⟩
    · rw [decide_eq_false_iff_not, length_append, length_frameBytes]
      omega
    · rw [Nat.add_sub_cancel_left, f4, f5, bne_self_eq_false]
    · rw [f6]
      simp
    · rw [Nat.add_sub_cancel_left, f5, hread]

/-! ### Round trips -/

theorem Frame.decode_padded (h : f.encode hash = .ok b) (k : ℕ) :
    Frame.decode hash (b ++ List.replicate k 0) = .ok f := by
  obtain ⟨hc, hlen, rfl⟩ := (Frame.encode_eq_ok hash).mp h
  exact (Frame.decode_eq_ok hash).mpr ⟨hc, hlen, k, rfl⟩

/-- A decoded frame has a declared size, and is the encoding of its value up to there. -/
theorem Frame.encode_decode (h : Frame.decode hash b = .ok f) :
    ∃ n, frameSize b = .ok n ∧ n ≤ b.length ∧ f.encode hash = .ok (b.take n) ∧
      b = b.take n ++ List.replicate (b.length - n) 0 := by
  obtain ⟨hc, hlen, k, rfl⟩ := (Frame.decode_eq_ok hash).mp h
  refine ⟨_, frameSize_frameBytes hash f.payload_pos hlen _, ?_⟩
  rw [take_left' (length_frameBytes hash _), length_append, length_frameBytes,
    length_replicate, Nat.add_sub_cancel_left]
  exact ⟨Nat.le_add_right _ _, (Frame.encode_eq_ok hash).mpr ⟨hc, hlen, rfl⟩, rfl⟩

theorem Frame.decode_nonzero (hn : frameSize b = .ok n) (h : ∃ x ∈ b.drop n, x ≠ 0) :
    ∃ e, Frame.decode hash b = .error e := by
  cases hd : Frame.decode hash b with
  | error e => exact ⟨e, rfl⟩
  | ok f =>
    obtain ⟨m, hm, -, -, hb⟩ := Frame.encode_decode hash hd
    obtain rfl : n = m := Except.ok.inj (hn.symm.trans hm)
    obtain ⟨x, hx, hne⟩ := h
    have hz : b.drop n = List.replicate (b.length - n) 0 :=
      append_cancel_left ((take_append_drop n b).trans hb)
    rw [hz] at hx
    exact absurd (eq_of_mem_replicate hx) hne

/-- The size a header declares does not depend on the bytes behind it. -/
theorem frameSize_of_take {m : ℕ} (h : frameSize (b.take n) = .ok m) : frameSize b = .ok m := by
  obtain ⟨hlen, hm, hv, h0, hmax, rfl⟩ := frameSize_eq_ok.mp h
  have h48 : 48 ≤ n ∧ 48 ≤ b.length := by
    have : 48 ≤ (b.take n).length := hlen
    rw [length_take] at this
    omega
  have hfield : ∀ i k, i + k ≤ 48 → ((b.take n).drop i).take k = (b.drop i).take k := by
    intro i k hk
    rw [drop_take, take_take, min_eq_left (by omega)]
  have hd : declaredLength (b.take n) = declaredLength b := by
    unfold declaredLength
    rw [hfield 12 4 (by omega)]
  have h8 := hfield 0 8 (by omega)
  rw [hfield 8 4 (by omega)] at hv
  rw [hd] at h0 hmax ⊢
  exact frameSize_eq_ok.mpr ⟨h48.2, h8 ▸ hm, hv, h0, hmax, rfl⟩

theorem Frame.decode_prefix (h : f.encode hash = .ok b) (hn : n < b.length) :
    ∃ e, Frame.decode hash (b.take n) = .error e := by
  cases hd : Frame.decode hash (b.take n) with
  | error e => exact ⟨e, rfl⟩
  | ok g =>
    exfalso
    obtain ⟨hc, hlen, rfl⟩ := (Frame.encode_eq_ok hash).mp h
    obtain ⟨m, hm, hle, -⟩ := Frame.encode_decode hash hd
    have hsize := frameSize_frameBytes hash f.payload_pos hlen []
    rw [append_nil] at hsize
    obtain rfl := Except.ok.inj (hsize.symm.trans (frameSize_of_take hm))
    rw [length_take] at hle
    rw [length_frameBytes] at hn hle
    omega

end Moruna
