/-
Moruna/StorageFormat/Banks.lean

Disk-format major 3: alternating durable roots over two bounded copy banks.

A `Root` names the active bank; its cell on the medium is `Root.encode`, zero-padded to
the alignment.  `Root.recover` chooses between the two cells of a volume.

* `frame_and_root_codec` — the round trip, padding and truncation behaviour of both
  durable codecs.
-/
import Moruna.StorageFormat.Frame

namespace Moruna

open List

namespace Banks

def magic : Bytes := [77, 79, 82, 85, 66, 78, 75, 51]

/-- Bytes before the inner superblock frame. -/
def header : ℕ := 68

def version : UInt32 := 3

structure Root where
  physical : UInt64
  generation : UInt64
  bank : UInt8
  geometry : Superblock
  deriving DecidableEq

namespace Root

/-- Bytes of one of the two equal banks behind the root cells. -/
def bankBytes (physical a : UInt64) : UInt64 := (physical - 2 * a) / 2 / a * a

/-- Validate all capacity, alignment, reserve, bank and generation facts. -/
def validate (r : Root) : Except Error Unit := do
  r.geometry.validate
  let a := r.geometry.align
  rejectIf
    (r.generation == 0
      || decide (1 < r.bank)
      || r.bank != ((r.generation - 1) % 2).toUInt8
      || !isMultipleOf r.physical a)
    .invalid
  let rest ← okOr (checkedSub r.physical (2 * a)) .invalid
  let bankBytes := rest / 2 / a * a
  let start := 2 * a + r.bank.toUInt64 * bankBytes
  rejectIf (r.geometry.logOffset != start) .invalid
  let stop ← okOr (checkedAdd start bankBytes) .limit
  rejectIf (r.geometry.capacity != stop || decide (r.geometry.capacity ≤ r.geometry.dataOffset))
    .invalid

/-- Plan first provisioning: exactly half of the aligned post-root capacity is reserved for
the other bank. -/
def initial (physical : UInt64) (alignment : UInt32) (logBytes : UInt64) (role : Role)
    (workspace bucket : String) : Except Error Root := do
  let a := alignment.toUInt64
  rejectIf (decide (a < 512) || !isPowerOfTwo a.toNat || !isMultipleOf physical a) .invalid
  let start ← okOr (checkedMul a 2) .limit
  let rest ← okOr (checkedSub physical start) .invalid
  let bankBytes := rest / 2 / a * a
  let stop ← okOr (checkedAdd start bankBytes) .limit
  let dataOffset ← okOr (checkedAdd start logBytes) .limit
  let root : Root :=
    { physical, generation := 1, bank := 0
      geometry :=
        { capacity := stop, alignment, logOffset := start, logBytes, dataOffset, role, workspace
          bucket } }
  root.validate
  .ok root

/-- Exact alternating root-cell byte offset for this generation. -/
def slot (r : Root) : UInt64 := (r.generation - 1) % 2 * r.geometry.align

def next (r : Root) : Except Error Root := do
  r.validate
  let generation ← okOr (checkedAdd r.generation 1) .limit
  let n ← initial r.physical r.geometry.alignment r.geometry.logBytes r.geometry.role
    r.geometry.workspace r.geometry.bucket
  let bank := 1 - r.bank
  let a := r.geometry.align
  let bankBytes := bankBytes r.physical a
  let start := 2 * a + bank.toUInt64 * bankBytes
  let dataOffset ← okOr (checkedAdd start n.geometry.logBytes) .limit
  let capacity ← okOr (checkedAdd start bankBytes) .limit
  let n : Root :=
    { n with
      generation, bank
      geometry := { n.geometry with logOffset := start, dataOffset, capacity } }
  n.validate
  .ok n

/-! ### The root cell -/

/-- The 36 bytes in front of the digest. -/
def head (r : Root) (length : ℕ) : Bytes :=
  magic ++ (leBytes 4 version.toNat ++ (leBytes 4 (UInt32.ofNat length).toNat ++
    (leBytes 8 r.physical.toNat ++ (leBytes 8 r.generation.toNat ++ ([r.bank] ++ [0, 0, 0])))))

/-- The root cell around an inner frame `body`. -/
def cell (hash : Bytes → Digest) (r : Root) (body : Bytes) : Bytes :=
  r.head (header + body.length) ++
    ((hash (r.head (header + body.length) ++ body)).val ++ body)

/-- Encode one checksummed root; IO zero-pads the remainder of its alignment cell. -/
def encode (hash : Bytes → Digest) (r : Root) : Except Error Bytes := do
  r.validate
  let inner ← (Frame.superblock r.geometry).encode hash
  let length := header + inner.length
  rejectIf (decide (r.geometry.alignment.toNat < length)) .limit
  .ok (r.cell hash inner)

/-- The geometry inside a root, or a refusal for any other frame. -/
def asSuperblock : Frame → Except Error Superblock
  | .superblock s => .ok s
  | _ => .error .invalid

def decode (hash : Bytes → Digest) (bytes : Bytes) : Except Error Root := do
  rejectIf (decide (bytes.length < header)) .invalid
  rejectIf (bytes.take 8 != magic) (if bytes.take 7 == magic.take 7 then .version else .invalid)
  rejectIf (UInt32.ofNat (leNat ((bytes.drop 8).take 4)) != version) .version
  let length := (UInt32.ofNat (leNat ((bytes.drop 12).take 4))).toNat
  rejectIf
    (decide (length < header)
      || decide (bytes.length < length)
      || (bytes.drop 33).take 3 != [0, 0, 0]
      || (bytes.drop length).any (· != 0))
    .invalid
  rejectIf
    ((hash (bytes.take 36 ++ (bytes.drop header).take (length - header))).val
      != (bytes.drop 36).take 32)
    .integrity
  let frame ← Frame.decode hash ((bytes.drop header).take (length - header))
  let geometry ← asSuperblock frame
  let root : Root :=
    { physical := UInt64.ofNat (leNat ((bytes.drop 16).take 8))
      generation := UInt64.ofNat (leNat ((bytes.drop 24).take 8))
      bank := ((bytes.drop 32).take 1).headD 0
      geometry }
  root.validate
  rejectIf (decide (root.geometry.alignment.toNat < bytes.length)) .invalid
  .ok root

/-! ### What the decoder accepts -/

variable (hash : Bytes → Digest)

@[simp] theorem length_head (r : Root) (n : ℕ) : (r.head n).length = 36 := by simp [head, magic]

@[simp] theorem length_cell (r : Root) (body : Bytes) :
    (r.cell hash body).length = header + body.length := by
  simp only [cell, length_append, length_head, (hash _).property, header]
  omega

theorem cell_fields (r : Root) (body rest : Bytes) : let b := r.cell hash body ++ rest
    let h := r.head (header + body.length)
    b.take 8 = magic ∧ (b.drop 8).take 4 = leBytes 4 version.toNat ∧
      (b.drop 12).take 4 = leBytes 4 (UInt32.ofNat (header + body.length)).toNat ∧
      (b.drop 16).take 8 = leBytes 8 r.physical.toNat ∧
      (b.drop 24).take 8 = leBytes 8 r.generation.toNat ∧
      (b.drop 32).take 1 = [r.bank] ∧ (b.drop 33).take 3 = [0, 0, 0] ∧
      b.take 36 = h ∧ (b.drop 36).take 32 = (hash (h ++ body)).val ∧
      (b.drop header).take body.length = body ∧ b.drop (header + body.length) = rest := by
  intro b h
  have h0 : b.drop 0 = magic ++ (leBytes 4 version.toNat ++
      (leBytes 4 (UInt32.ofNat (header + body.length)).toNat ++ (leBytes 8 r.physical.toNat ++
        (leBytes 8 r.generation.toNat ++ ([r.bank] ++ ([0, 0, 0] ++
          ((hash (h ++ body)).val ++ (body ++ rest)))))))) := by
    change h ++ ((hash (h ++ body)).val ++ body) ++ rest = _
    generalize hash (h ++ body) = digest
    simp only [h, head, append_assoc]
  have h36 : b.drop 0 = h ++ ((hash (h ++ body)).val ++ (body ++ rest)) := by
    simp only [b, h, cell, append_assoc, drop_zero]
  obtain ⟨t0, d8⟩ := cut_field h0 (k := 8) rfl
  obtain ⟨t8, d12⟩ := cut_field d8 (length_leBytes 4 _)
  obtain ⟨t12, d16⟩ := cut_field d12 (length_leBytes 4 _)
  obtain ⟨t16, d24⟩ := cut_field d16 (length_leBytes 8 _)
  obtain ⟨t24, d32⟩ := cut_field d24 (length_leBytes 8 _)
  obtain ⟨t32, d33⟩ := cut_field d32 (k := 1) rfl
  obtain ⟨t33, -⟩ := cut_field d33 (k := 3) rfl
  obtain ⟨thead, d36⟩ := cut_field h36 (length_head r _)
  obtain ⟨t36, dh⟩ := cut_field d36 (hash _).property
  obtain ⟨tbody, drest⟩ := cut_field dh rfl
  exact ⟨t0, t8, t12, t16, t24, t32, t33, thead, t36, tbody, drest⟩

/-- The inner frame of a root. -/
def inner (r : Root) : Bytes := frameBytes hash (Frame.superblock r.geometry).payload

/-- A root whose cell exists: it is valid and its geometry has a frame. -/
def Canonical (r : Root) : Prop :=
  r.validate = .ok () ∧ (Frame.superblock r.geometry).payload.length ≤ maxPayload

variable {r : Root} {b : Bytes}

theorem Canonical.checked (h : r.Canonical) : (Frame.superblock r.geometry).Checked := by
  have hv := h.1
  exact (bind_unit_eq_ok.mp hv).1

theorem encode_eq_ok :
    r.encode hash = .ok b ↔ r.Canonical ∧
    header + (r.inner hash).length ≤ r.geometry.alignment.toNat ∧
      b = r.cell hash (r.inner hash) := by
  unfold encode
  rw [bind_unit_eq_ok, seq_eq_ok]
  constructor
  · rintro ⟨hv, i, hi, h⟩
    obtain ⟨-, hmax, rfl⟩ := (Frame.encode_eq_ok hash).mp hi
    rw [bind_unit_eq_ok, rejectIf_test, decide_eq_false_iff_not, not_lt] at h
    exact ⟨⟨hv, hmax⟩, h.1, (Except.ok.inj h.2).symm⟩
  · rintro ⟨hr, hle, rfl⟩
    refine ⟨hr.1, r.inner hash, (Frame.encode_eq_ok hash).mpr ⟨hr.checked, hr.2, rfl⟩, ?_⟩
    rw [bind_unit_eq_ok, rejectIf_test, decide_eq_false_iff_not, not_lt]
    exact ⟨hle, rfl⟩

def declared (bytes : Bytes) : ℕ := (UInt32.ofNat (leNat ((bytes.drop 12).take 4))).toNat

/-- On the padded cell of a canonical root every check passes but the last one, that the
bytes fit in one alignment unit. -/
theorem decode_cell (hr : r.Canonical) {j k : ℕ}
    (h32 : header + (r.inner hash ++ List.replicate j (0 : UInt8)).length < 2 ^ 32) :
    decode hash (r.cell hash (r.inner hash ++ List.replicate j 0) ++ List.replicate k 0) =
      if header + (r.inner hash).length + j + k ≤ r.geometry.alignment.toNat then .ok r
      else .error .invalid := by
  have hlen : (UInt32.ofNat (header + (r.inner hash ++ List.replicate j (0 : UInt8)).length)).toNat
      = header + (r.inner hash ++ List.replicate j (0 : UInt8)).length := Nat.mod_eq_of_lt h32
  obtain ⟨t0, t8, t12, t16, t24, t32, t33, thead, t36, tbody, drest⟩ :=
    cell_fields hash r (r.inner hash ++ List.replicate j 0) (List.replicate k 0)
  have hin : Frame.decode hash (r.inner hash ++ List.replicate j 0) =
      .ok (.superblock r.geometry) :=
    (Frame.decode_eq_ok hash).mpr ⟨hr.checked, hr.2, j, rfl⟩
  have hsize : (r.cell hash (r.inner hash ++ List.replicate j 0) ++ List.replicate k 0).length =
      header + (r.inner hash).length + j + k := by
    simp only [length_append, length_cell, length_replicate]
    omega
  unfold decode
  rw [t0, t8, t12, t16, t24, t33, thead, t36, ofNat_leNat_leBytes_u32,
    ofNat_leNat_leBytes_u32, ofNat_leNat_leBytes_u64, ofNat_leNat_leBytes_u64, hlen]
  dsimp only
  rw [Nat.add_sub_cancel_left, tbody, hin, hsize]
  rw [pass_bind (decide_eq_false (by omega)), pass_bind (bne_self_eq_false _),
    pass_bind (bne_self_eq_false _), pass_bind ?_, pass_bind (bne_self_eq_false _)]
  · show ((validate r) >>= _) = _
    rw [hr.1]
    show (rejectIf (decide (_ < _)) Error.invalid >>= _) = _
    split
    · rw [pass_bind (decide_eq_false (by omega))]
      rfl
    · rw [stop_bind (decide_eq_true (by omega))]
  · simp only [Bool.or_eq_false_iff, decide_eq_false_iff_not, length_append,
      length_replicate, bne_self_eq_false, and_true]
    exact ⟨⟨by omega, by omega⟩, by simp⟩

/-- **The decoder accepts exactly the zero-padded cells of canonical roots that fit in one
alignment unit.**  Zero padding is also accepted inside the declared length, behind the
inner frame. -/
theorem decode_eq_ok : decode hash b = .ok r ↔ r.Canonical ∧ b.length ≤ r.geometry.alignment.toNat ∧
      ∃ j k, b = r.cell hash (r.inner hash ++ List.replicate j 0) ++ List.replicate k 0 := by
  unfold decode
  simp only [seq_eq_ok]
  constructor
  · rintro ⟨⟨⟩, h1, ⟨⟩, h2, ⟨⟩, h3, ⟨⟩, h4, ⟨⟩, h5, f, h6, g, h7, ⟨⟩, h8, ⟨⟩, h9, h10⟩
    cases h10
    simp only [rejectIf_test, decide_eq_false_iff_not, not_lt, bne_eq_false_iff_eq,
      Bool.or_eq_false_iff] at h1 h2 h3 h4 h5 h9
    obtain ⟨⟨⟨hlo, hhi⟩, hz⟩, hpad⟩ := h4
    have hg : f = .superblock g := by cases f <;> simp_all [asSuperblock]
    subst hg
    obtain ⟨-, hmax, j, hin⟩ := (Frame.decode_eq_ok hash).mp h6
    generalize hlen : (UInt32.ofNat (leNat ((b.drop 12).take 4))).toNat = length at *
    have hlo68 : 68 ≤ length := hlo
    -- the record that was decoded, and the head of its cell
    set r : Root :=
      { physical := UInt64.ofNat (leNat ((b.drop 16).take 8))
        generation := UInt64.ofNat (leNat ((b.drop 24).take 8))
        bank := ((b.drop 32).take 1).headD 0
        geometry := g } with hr
    have hbody : (b.drop header).take (length - header) = r.inner hash ++ List.replicate j 0 := hin
    have hbl : (r.inner hash ++ List.replicate j 0).length = length - header := by
      rw [← hbody, length_field (by show 68 + (length - 68) ≤ _; omega)]
    have hn : header + (r.inner hash ++ List.replicate j 0).length = length := by
      rw [hbl]
      show 68 + (length - 68) = length
      omega
    have hbank : [r.bank] = (b.drop 32).take 1 := by
      obtain ⟨x, hx⟩ := length_eq_one_iff.mp (length_field (b := b) (n := 32) (k := 1) (by omega))
      rw [hr, hx]
      rfl
    have hhead : r.head length = b.take 36 := by
      have e4 : leBytes 4 version.toNat = (b.drop 8).take 4 := by
        rw [← h3, leBytes_ofNat_leNat_u32 (length_field (by omega))]
      have el : leBytes 4 (UInt32.ofNat length).toNat = (b.drop 12).take 4 := by
        rw [← hlen, UInt32.ofNat_toNat, leBytes_ofNat_leNat_u32 (length_field (by omega))]
      have ep : leBytes 8 r.physical.toNat = (b.drop 16).take 8 :=
        leBytes_ofNat_leNat_u64 (length_field (by omega))
      have eg : leBytes 8 r.generation.toNat = (b.drop 24).take 8 :=
        leBytes_ofNat_leNat_u64 (length_field (by omega))
      have hjoin : r.head length ++ b.drop 36 = b := by
        unfold head
        rw [e4, el, ep, eg, hbank, ← hz, ← h2]
        simp only [append_assoc]
        rw [drop_take_append_drop b 33 3, drop_take_append_drop b 32 1,
          drop_take_append_drop b 24 8, drop_take_append_drop b 16 8,
          drop_take_append_drop b 12 4, drop_take_append_drop b 8 4, take_append_drop]
      have := congrArg (List.take 36) hjoin
      rwa [take_left' (length_head r length)] at this
    refine ⟨⟨h8, hmax⟩, h9, j, (b.drop length).length, ?_⟩
    rw [← eq_replicate_of_any_eq_false hpad]
    unfold cell
    rw [hn, hhead, ← hbody, h5]
    simp only [append_assoc]
    conv_rhs => rw [show length = header + (length - header) by
      show length = 68 + (length - 68); omega]
    rw [Nat.add_sub_cancel_left, drop_take_append_drop b header, show header = 36 + 32 from rfl,
      drop_take_append_drop b 36 32, take_append_drop]
  · rintro ⟨hr, hle, j, k, rfl⟩
    have hlen : header + (r.inner hash ++ List.replicate j (0 : UInt8)).length
        ≤ r.geometry.alignment.toNat := by
      rw [length_append, length_cell] at hle
      omega
    have hdec := decode_cell hash hr (j := j) (k := k)
      (lt_of_le_of_lt hlen r.geometry.alignment.toNat_lt)
    rw [if_pos (by simpa [add_assoc] using hle)] at hdec
    simpa only [decode, seq_eq_ok] using hdec

/-- A decoded cell declares a length within its bytes. -/
theorem declared_le (h : decode hash b = .ok r) : header ≤ b.length ∧ declared b ≤ b.length := by
  simp only [decode, seq_eq_ok] at h
  obtain ⟨⟨⟩, h1, ⟨⟩, -, ⟨⟩, -, ⟨⟩, h4, -⟩ := h
  simp only [rejectIf_test, decide_eq_false_iff_not, not_lt, Bool.or_eq_false_iff] at h1 h4
  exact ⟨h1, h4.1.1.2⟩

theorem decode_nonzero (h : ∃ x ∈ b.drop (declared b), x ≠ 0) : ∃ e, decode hash b = .error e := by
  cases hd : decode hash b with
  | error e => exact ⟨e, rfl⟩
  | ok r =>
    simp only [decode, seq_eq_ok] at hd
    obtain ⟨⟨⟩, -, ⟨⟩, -, ⟨⟩, -, ⟨⟩, h4, -⟩ := hd
    simp only [rejectIf_test, Bool.or_eq_false_iff, any_eq_false] at h4
    obtain ⟨x, hx, hne⟩ := h
    exact absurd (h4.2 x hx) (by simpa using hne)

theorem encode_length (h : r.encode hash = .ok b) :
    declared b = b.length ∧ b.length ≤ r.geometry.alignment.toNat := by
  obtain ⟨-, hle, rfl⟩ := (encode_eq_ok hash).mp h
  obtain ⟨-, -, t12, -⟩ := cell_fields hash r (r.inner hash) []
  rw [append_nil] at t12
  rw [length_cell]
  refine ⟨?_, hle⟩
  unfold declared
  rw [t12, ofNat_leNat_leBytes_u32]
  exact Nat.mod_eq_of_lt (lt_of_le_of_lt hle r.geometry.alignment.toNat_lt)

theorem decode_prefix (h : r.encode hash = .ok b) {n : ℕ} (hn : n < b.length) :
    ∃ e, decode hash (b.take n) = .error e := by
  cases hd : decode hash (b.take n) with
  | error e => exact ⟨e, rfl⟩
  | ok s =>
    exfalso
    obtain ⟨h68, hle⟩ := declared_le hash hd
    have hlen : (b.take n).length = n := by rw [length_take]; omega
    have hsame : declared (b.take n) = declared b := by
      have : header = 68 := rfl
      unfold declared
      rw [drop_take, take_take, min_eq_left (by omega)]
    rw [hsame, (encode_length hash h).1] at hle
    omega

/-- Padding of an encoded root is accepted exactly up to the alignment unit. -/
theorem decode_padded (h : r.encode hash = .ok b) (k : ℕ) : decode hash (b ++ List.replicate k 0) =
      if b.length + k ≤ r.geometry.alignment.toNat then .ok r else .error .invalid := by
  obtain ⟨hr, hle, rfl⟩ := (encode_eq_ok hash).mp h
  have h32 := lt_of_le_of_lt hle r.geometry.alignment.toNat_lt
  have := decode_cell hash hr (j := 0) (k := k)
    (by rwa [replicate_zero, append_nil])
  simpa only [replicate_zero, append_nil, add_zero, length_cell] using this

/-- A decoded root encodes again, to the declared bytes exactly when its inner frame
fills them. -/
theorem encode_decode (h : decode hash b = .ok r) :
    ∃ c, r.encode hash = .ok c ∧ (c = b.take (declared b) ↔ c.length = declared b) := by
  obtain ⟨hr, hle, j, k, rfl⟩ := (decode_eq_ok hash).mp h
  have hlen : header + (r.inner hash).length + j + k ≤ r.geometry.alignment.toNat := by
    simp only [length_append, length_cell, length_replicate] at hle
    omega
  have hd : declared (r.cell hash (r.inner hash ++ List.replicate j 0) ++ List.replicate k 0) =
      header + (r.inner hash).length + j := by
    obtain ⟨-, -, t12, -⟩ :=
      cell_fields hash r (r.inner hash ++ List.replicate j 0) (List.replicate k 0)
    have := r.geometry.alignment.toNat_lt
    unfold declared
    rw [t12, ofNat_leNat_leBytes_u32, length_append,
      length_replicate, ← add_assoc]
    exact Nat.mod_eq_of_lt (by omega)
  refine ⟨_, (encode_eq_ok hash).mpr ⟨hr, by omega, rfl⟩, ?_⟩
  rw [hd]
  constructor
  · intro hc
    have := congrArg List.length hc
    simp only [length_take, length_append, length_cell, length_replicate] at this ⊢
    omega
  · intro hc
    rw [length_cell] at hc
    obtain rfl : j = 0 := by omega
    rw [replicate_zero, append_nil, take_left' (by rw [length_cell]; omega)]

/-! ### Recovery of the two root cells -/

/-- Validated recovery decision. When both roots are valid the older one must be durably
retired before any later acknowledged mutation. -/
structure Recovery where
  root : Root
  retire : Option UInt64
  deriving DecidableEq

/-- One actual padded root cell. Only an entirely zero cell is absent. -/
def recoverCell (bytes : Bytes) (slot : UInt64) : Except Error (Option Root) :=
  if bytes.isEmpty then .error .integrity
  else if bytes.all (· == 0) then .ok none
  else
    match decode hash bytes with
    | .error _ => .error .integrity
    | .ok root =>
      if bytes.length != root.geometry.alignment.toNat || root.slot != slot * root.geometry.align
      then .error .integrity
      else .ok (some root)

/-- Select actual independently decoded root cells. -/
def select : Option Root → Option Root → Except Error Root
  | some a, some b =>
    if a.physical != b.physical
        || a.geometry.alignment != b.geometry.alignment
        || a.geometry.logBytes != b.geometry.logBytes
        || a.geometry.workspace != b.geometry.workspace
        || a.geometry.bucket != b.geometry.bucket
        || a.geometry.role != b.geometry.role
        || absDiff a.generation b.generation != 1
    then .error .integrity
    else .ok (if b.generation < a.generation then a else b)
  | some a, none => .ok a
  | none, some b => .ok b
  | none, none => .error .integrity

/-- The older of two valid root cells. -/
def retirement : Option Root → Option Root → Option UInt64
  | some a, some b => some (if a.generation < b.generation then a.slot else b.slot)
  | _, _ => none

/-- Recover the two actual padded root cells. -/
def recover (first second : Bytes) : Except Error Recovery := do
  rejectIf (first.isEmpty || first.length != second.length) .integrity
  let first ← recoverCell hash first 0
  let second ← recoverCell hash second 1
  let root ← select first second
  .ok { root, retire := retirement first second }

end Root

/-! ### Both durable codecs -/

/-- **Both durable codecs are exact.**  A frame survives any amount of zero padding, a root
survives padding up to its alignment cell and is refused past it; nonzero bytes behind the
record and strict prefixes are refused; what is accepted encodes again to the bytes it was
read from.  For a root the last part needs the inner frame to fill the declared length. -/
theorem frame_and_root_codec (hash : Bytes → Digest) :
    (∀ (f : Frame) (b : Bytes), f.encode hash = .ok b →
        ∀ k, Frame.decode hash (b ++ List.replicate k 0) = .ok f) ∧
      (∀ (b : Bytes) (n : ℕ), frameSize b = .ok n → (∃ x ∈ b.drop n, x ≠ 0) →
        ∃ e, Frame.decode hash b = .error e) ∧
      (∀ (f : Frame) (b : Bytes), f.encode hash = .ok b →
        ∀ n < b.length, ∃ e, Frame.decode hash (b.take n) = .error e) ∧
      (∀ (b : Bytes) (f : Frame), Frame.decode hash b = .ok f →
        ∃ n, frameSize b = .ok n ∧ f.encode hash = .ok (b.take n)) ∧
      (∀ (r : Root) (b : Bytes), r.encode hash = .ok b →
        ∀ k, Root.decode hash (b ++ List.replicate k 0) =
          if b.length + k ≤ r.geometry.alignment.toNat then .ok r else .error .invalid) ∧
      (∀ b : Bytes, (∃ x ∈ b.drop (Root.declared b), x ≠ 0) → ∃ e, Root.decode hash b = .error e) ∧
      (∀ (r : Root) (b : Bytes), r.encode hash = .ok b →
        ∀ n < b.length, ∃ e, Root.decode hash (b.take n) = .error e) ∧
      (∀ (b : Bytes) (r : Root), Root.decode hash b = .ok r →
        ∃ c, r.encode hash = .ok c ∧
        (c = b.take (Root.declared b) ↔ c.length = Root.declared b)) := by
  refine ⟨fun f b h k => Frame.decode_padded hash h k,
    fun b n hn h => Frame.decode_nonzero hash hn h,
    fun f b h n hn => Frame.decode_prefix hash h hn, fun b f h => ?_,
    fun r b h k => Root.decode_padded hash h k, fun b h => Root.decode_nonzero hash h,
    fun r b h n hn => Root.decode_prefix hash h hn, fun b r h => Root.encode_decode hash h⟩
  obtain ⟨n, hn, -, he, -⟩ := Frame.encode_decode hash h
  exact ⟨n, hn, he⟩

/-- The first root of a small volume. -/
def sampleRoot : Root :=
  { physical := 8192, generation := 1, bank := 0
    geometry :=
      { capacity := 4608, alignment := 512, logOffset := 1024, logBytes := 1024
        dataOffset := 2048, role := .singleNodeHome, workspace := "w", bucket := "b" } }

theorem encode_sampleRoot (hash : Bytes → Digest) :
    ∃ b, sampleRoot.encode hash = .ok b ∧ b.length = 164 := by
  have hin : (sampleRoot.inner hash).length = 96 := by
    unfold Root.inner
    rw [length_frameBytes]
    decide
  refine ⟨_, (Root.encode_eq_ok hash).mpr ⟨⟨by decide, by decide⟩, ?_, rfl⟩, ?_⟩
  · rw [hin]
    decide
  · rw [Root.length_cell, hin]
    decide

theorem frame_and_root_codec_sampleRoot : ∃ b, sampleRoot.encode (fun _ => zeroDigest) = .ok b ∧
      Root.decode (fun _ => zeroDigest) (b ++ List.replicate 348 0) = .ok sampleRoot := by
  obtain ⟨b, hb, hlen⟩ := encode_sampleRoot fun _ => zeroDigest
  obtain ⟨-, -, -, -, hroot, -⟩ := frame_and_root_codec fun _ => zeroDigest
  exact ⟨b, hb, (hroot _ b hb 348).trans (if_pos (by rw [hlen]; decide))⟩

/-- One zero byte past the alignment cell is one too many. -/
theorem sampleRoot_padding_past_cell : ∃ b, sampleRoot.encode (fun _ => zeroDigest) = .ok b ∧
      Root.decode (fun _ => zeroDigest) (b ++ List.replicate 349 0) = .error .invalid := by
  obtain ⟨b, hb, hlen⟩ := encode_sampleRoot fun _ => zeroDigest
  exact ⟨b, hb, (Root.decode_padded _ hb 349).trans (if_neg (by rw [hlen]; decide))⟩

end Banks

end Moruna
