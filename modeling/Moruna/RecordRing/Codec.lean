/-
Moruna/RecordRing/Codec.lean

The record (`moruna-record`, `record.rs`): one layout, identical in a ring, in a file and
on the wire.  Thirty-six fixed bytes carry the length, a crc32c of everything after it,
the sequence number, the time, the subject and three lengths; the message id, the headers
and the body follow.

Main results:

* `decode_take_layout` — every strict prefix of a layout is incomplete;
* `encode_decode_canonical` — the decoder accepts more than the encoder writes: what it
  accepts is an encoding exactly when the two length fields keep the encoder's bounds.
-/
import Moruna.Lib.Checks
import Moruna.Lib.Codec

namespace Moruna.RecordRing

open List

/-! ### The checksum -/

/-- The reflected Castagnoli polynomial. -/
def POLY : UInt32 := 0x82F63B78

/-- One bit of a table entry. -/
def tableBit (c : UInt32) : UInt32 := if c &&& 1 == 1 then (c >>> 1) ^^^ POLY else c >>> 1

/-- Entry `i` of the 256-entry table. -/
def table (i : UInt8) : UInt32 := tableBit^[8] i.toUInt32

/-- The crc32c of `data`: initial value all ones, reflected, final xor all ones. -/
def crc32c (data : Bytes) : UInt32 :=
  ~~~ data.foldl (fun c b => table (c.toUInt8 ^^^ b) ^^^ (c >>> 8)) (~~~ 0)

example : crc32c [0x31, 0x32, 0x33, 0x34, 0x35, 0x36, 0x37, 0x38, 0x39] = 0xE3069283 := by
  decide +kernel

/-! ### Records and refusals -/

def FIXED : ℕ := 36

def MAX_BODY : ℕ := 1048576

/-- The largest record: the largest body with room for its id and headers. -/
def MAX_RECORD : ℕ := MAX_BODY + 64 * 1024

/-- `u16::MAX`, the longest id, header key, header value and header list. -/
def maxField : ℕ := 65535

structure Record where
  seq : UInt64
  ts : Int64
  subject : UInt32
  msgId : String
  headers : List (String × String)
  body : Bytes
  deriving DecidableEq

inductive Corruption where
  | length (len : ℕ)
  | crc (stored actual : UInt32)
  | msgIdPastEnd
  | msgIdNotUtf8
  | headerPastEnd
  | headerKeyPastEnd
  | headerValuePastEnd
  | headerNotUtf8
  | body (bodyLen at_ total : ℕ)
  deriving DecidableEq

/-- What the bytes at a position hold. -/
inductive Decoded where
  | record (r : Record) (total : ℕ)
  | incomplete
  | corrupt (why : Corruption)
  deriving DecidableEq

/-- Why parts cannot be encoded, or a region is not a ring's. -/
inductive Error where
  | bodyTooLarge (len : ℕ)
  | msgIdTooLong (len : ℕ)
  | tooManyHeaders (count : ℕ)
  | headerTooLong (index : ℕ)
  | recordTooLarge (size : ℕ)
  | bufferTooSmall (need have_ : ℕ)
  | misaligned
  | regionTooSmall (len need : ℕ)
  | badMagic
  | badHeader (why : String)
  deriving DecidableEq

/-! ### Encoding -/

/-- The loop of `size_of_parts` over the headers, from header `index` and `size`. -/
def headersSize : (index size : ℕ) → List (String × String) → Except Error ℕ
  | _, size, [] => .ok size
  | index, size, (k, v) :: rest =>
    if maxField < k.utf8ByteSize ∨ maxField < v.utf8ByteSize then .error (.headerTooLong index)
    else headersSize (index + 1) (size + (4 + k.utf8ByteSize + v.utf8ByteSize)) rest

/-- The bytes a record with these parts takes, or why it cannot be one. -/
def sizeOfParts (msgId : String) (headers : List (String × String)) (body : Bytes) :
    Except Error ℕ :=
  if MAX_BODY < body.length then .error (.bodyTooLarge body.length)
  else if maxField < msgId.utf8ByteSize then .error (.msgIdTooLong msgId.utf8ByteSize)
  else if maxField < headers.length then .error (.tooManyHeaders headers.length)
  else
    match headersSize 0 (FIXED + msgId.utf8ByteSize + body.length) headers with
    | .error e => .error e
    | .ok size => if MAX_RECORD < size then .error (.recordTooLarge size) else .ok size

def encodedLen (r : Record) : Except Error ℕ := sizeOfParts r.msgId r.headers r.body

/-- `out[at..at + b.len()].copy_from_slice(b)` -/
def copyAt (out : Bytes) (at_ : ℕ) (b : Bytes) : Bytes :=
  out.take at_ ++ b ++ out.drop (at_ + b.length)

/-- The closure `put` of `encode_into`: the buffer and the position it writes at. -/
def put (w : Bytes × ℕ) (b : Bytes) : Bytes × ℕ := (copyAt w.1 w.2 b, w.2 + b.length)

/-- One round of the loop over the headers. -/
def putHeader (w : Bytes × ℕ) (h : String × String) : Bytes × ℕ :=
  put (put (put (put w (leBytes 2 h.1.utf8ByteSize)) (utf8 h.1)) (leBytes 2 h.2.utf8ByteSize))
    (utf8 h.2)

/-- The fixed fields from `seq` on, written over `out`. -/
def putFixed (out : Bytes) (r : Record) : Bytes :=
  let out := copyAt out 8 (leBytes 8 r.seq.toNat)
  let out := copyAt out 16 (leBytes 8 r.ts.toUInt64.toNat)
  let out := copyAt out 24 (leBytes 4 r.subject.toNat)
  let out := copyAt out 28 (leBytes 2 r.msgId.utf8ByteSize)
  let out := copyAt out 30 (leBytes 2 r.headers.length)
  copyAt out 32 (leBytes 4 r.body.length)

/-- Encode one record into the front of `buf`: the bytes written or the refusal, and the
buffer afterwards. -/
def encodeInto (buf : Bytes) (r : Record) : Except Error ℕ × Bytes :=
  match sizeOfParts r.msgId r.headers r.body with
  | .error e => (.error e, buf)
  | .ok total =>
    if buf.length < total then (.error (.bufferTooSmall total buf.length), buf)
    else
      let out := putFixed (buf.take total) r
      let out := (put (r.headers.foldl putHeader (put (out, FIXED) (utf8 r.msgId))) r.body).1
      let crc := crc32c (out.drop 8)
      let out := copyAt out 0 (leBytes 4 (total - 4))
      let out := copyAt out 4 (leBytes 4 crc.toNat)
      (.ok total, out ++ buf.drop total)

/-! ### Decoding -/

def u16At (b : Bytes) (at_ : ℕ) : ℕ := leNat ((b.drop at_).take 2)

def u32At (b : Bytes) (at_ : ℕ) : UInt32 := UInt32.ofNat (leNat ((b.drop at_).take 4))

def u64At (b : Bytes) (at_ : ℕ) : UInt64 := UInt64.ofNat (leNat ((b.drop at_).take 8))

/-- The closure `field` of `decode`: `n` bytes at `at`, inside the record's `total`. -/
def field (buf : Bytes) (total at_ n : ℕ) : Option Bytes :=
  if at_ + n ≤ total then some ((buf.drop at_).take n) else none

/-- A length word and the bytes it counts, at `at`. -/
def lenField (buf : Bytes) (total at_ : ℕ) (pastEnd : Corruption) : Except Corruption Bytes :=
  match field buf total at_ 2 with
  | none => .error .headerPastEnd
  | some l =>
    match field buf total (at_ + 2) (u16At l 0) with
    | none => .error pastEnd
    | some x => .ok x

/-- One round of the header loop: the header and the position after it. -/
def decodeHeader (buf : Bytes) (total at_ : ℕ) : Except Corruption ((String × String) × ℕ) := do
  let k ← lenField buf total at_ .headerKeyPastEnd
  let at' := at_ + (2 + k.length)
  let v ← lenField buf total at' .headerValuePastEnd
  match fromUtf8 k, fromUtf8 v with
  | some ks, some vs => .ok ((ks, vs), at' + (2 + v.length))
  | _, _ => .error .headerNotUtf8

/-- The loop over `hdr_count`. -/
def decodeHeaders (buf : Bytes) (total : ℕ) :
    (count at_ : ℕ) → Except Corruption (List (String × String) × ℕ)
  | 0, at_ => .ok ([], at_)
  | n + 1, at_ => do
    let (h, at') ← decodeHeader buf total at_
    let (hs, end_) ← decodeHeaders buf total n at'
    .ok (h :: hs, end_)

/-- The part of `decode` after the crc: the fields of a record of `total` bytes. -/
def decodeParts (buf : Bytes) (total : ℕ) : Except Corruption Record := do
  match field buf total FIXED (u16At buf 28) with
  | none => .error .msgIdPastEnd
  | some id =>
    match fromUtf8 id with
    | none => .error .msgIdNotUtf8
    | some msgId =>
      let (headers, at_) ← decodeHeaders buf total (u16At buf 30) (FIXED + u16At buf 28)
      if at_ + (u32At buf 32).toNat ≠ total then
        .error (.body (u32At buf 32).toNat at_ total)
      else
        .ok { seq := u64At buf 8, ts := (u64At buf 16).toInt64, subject := u32At buf 24,
              msgId := msgId, headers := headers, body := (buf.take total).drop at_ }

/-- Decode the record at the start of `buf`, checking its crc and its fields. -/
def decode (buf : Bytes) : Decoded :=
  if buf.length < 4 then .incomplete
  else
    let len := (u32At buf 0).toNat
    if ¬ (FIXED - 4 ≤ len ∧ len ≤ MAX_RECORD) then .corrupt (.length len)
    else
      let total := 4 + len
      if buf.length < total then .incomplete
      else
        let stored := u32At buf 4
        let actual := crc32c ((buf.take total).drop 8)
        if stored ≠ actual then .corrupt (.crc stored actual)
        else
          match decodeParts buf total with
          | .error why => .corrupt why
          | .ok r => .record r total

/-! ### The layout -/

/-- A header as it lies in a record. -/
def headerBytes (h : String × String) : Bytes :=
  leBytes 2 h.1.utf8ByteSize ++ (utf8 h.1 ++ (leBytes 2 h.2.utf8ByteSize ++ utf8 h.2))

/-- A record from its `seq` field on: what its crc covers. -/
def content (r : Record) : Bytes :=
  leBytes 8 r.seq.toNat ++ (leBytes 8 r.ts.toUInt64.toNat ++ (leBytes 4 r.subject.toNat ++
    (leBytes 2 r.msgId.utf8ByteSize ++ (leBytes 2 r.headers.length ++ (leBytes 4 r.body.length ++
      (utf8 r.msgId ++ (r.headers.flatMap headerBytes ++ r.body)))))))

def layout (r : Record) : Bytes :=
  leBytes 4 (4 + (content r).length) ++ (leBytes 4 (crc32c (content r)).toNat ++ content r)

/-- The texts of a header fit their length words. -/
def FitsHeader (h : String × String) : Prop :=
  h.1.utf8ByteSize ≤ maxField ∧ h.2.utf8ByteSize ≤ maxField

/-- The parts fit the fields that count them, and the record the decoder's bound. -/
structure Fits (r : Record) : Prop where
  msgId : r.msgId.utf8ByteSize ≤ maxField
  count : r.headers.length ≤ maxField
  headers : ∀ h ∈ r.headers, FitsHeader h
  size : (layout r).length ≤ 4 + MAX_RECORD

theorem length_content (r : Record) : (content r).length
    = 28 + r.msgId.utf8ByteSize + (r.headers.flatMap headerBytes).length + r.body.length := by
  simp only [content, length_append, length_leBytes, length_utf8]
  omega

theorem length_layout (r : Record) : (layout r).length = 8 + (content r).length := by
  simp only [layout, length_append, length_leBytes]
  omega

theorem length_headerBytes (h : String × String) :
    (headerBytes h).length = 4 + h.1.utf8ByteSize + h.2.utf8ByteSize := by
  simp only [headerBytes, length_append, length_leBytes, length_utf8]
  omega

/-! ### The writer leaves the layout -/

variable {n total at_ : ℕ} {pre out buf : Bytes} {r : Record}
variable {b : Bytes}

theorem copyAt_append (hn : pre.length = n) :
    copyAt (pre ++ out) n b = pre ++ b ++ out.drop b.length := by
  subst hn
  unfold copyAt
  rw [take_left', ← drop_drop, drop_left'] <;> rfl

theorem copyAt_zero (out b : Bytes) : copyAt out 0 b = b ++ out.drop b.length := by
  unfold copyAt
  rw [take_zero, nil_append, zero_add]

theorem put_append (hn : pre.length = n) :
    put (pre ++ out, n) b = (pre ++ b ++ out.drop b.length, (pre ++ b).length) := by
  unfold put
  rw [copyAt_append hn, length_append, hn]

theorem putHeader_append (h : String × String) : putHeader (pre ++ out, pre.length) h
      = (pre ++ headerBytes h ++ out.drop (headerBytes h).length,
          (pre ++ headerBytes h).length) := by
  unfold putHeader
  rw [put_append rfl, put_append rfl, put_append rfl, put_append rfl]
  simp only [headerBytes, append_assoc, drop_drop, length_append, add_assoc]

theorem foldl_putHeader_append (hs : List (String × String)) :
    hs.foldl putHeader (pre ++ out, pre.length)
      = (pre ++ hs.flatMap headerBytes ++ out.drop (hs.flatMap headerBytes).length,
          (pre ++ hs.flatMap headerBytes).length) := by
  induction hs generalizing pre out with
  | nil => simp
  | cons h hs ih =>
    rw [foldl_cons, putHeader_append, ih]
    simp only [flatMap_cons, append_assoc, drop_drop, length_append]

/-- The fixed fields fill the bytes after the first eight. -/
theorem putFixed_append (r : Record) (hpre : pre.length = 8) : putFixed (pre ++ out) r
      = pre ++ (leBytes 8 r.seq.toNat ++ (leBytes 8 r.ts.toUInt64.toNat ++
          (leBytes 4 r.subject.toNat ++ (leBytes 2 r.msgId.utf8ByteSize ++
            (leBytes 2 r.headers.length ++ leBytes 4 r.body.length))))) ++ out.drop 28 := by
  unfold putFixed
  dsimp only
  rw [copyAt_append hpre, copyAt_append (by simp [hpre]), copyAt_append (by simp [hpre]),
    copyAt_append (by simp [hpre]), copyAt_append (by simp [hpre]),
    copyAt_append (by simp [hpre])]
  simp only [append_assoc, drop_drop, length_leBytes]

/-- The headers' loop adds up their bytes, or names a header that is too long. -/
theorem headersSize_eq_ok {hs : List (String × String)} {index size : ℕ} :
    headersSize index size hs = .ok total
      ↔ (∀ h ∈ hs, FitsHeader h) ∧ total = size + (hs.flatMap headerBytes).length := by
  induction hs generalizing index size with
  | nil => simp [headersSize, eq_comm]
  | cons h hs ih =>
    obtain ⟨k, v⟩ := h
    unfold headersSize
    split
    · rename_i hlong
      refine iff_of_false (by simp) ?_
      rintro ⟨hfit, -⟩
      obtain ⟨hk, hv⟩ := hfit (k, v) (by simp)
      exact hlong.elim (fun h => absurd hk (by simpa using h)) fun h => absurd hv (by simpa using h)
    · rename_i hshort
      rw [ih, forall_mem_cons, flatMap_cons, length_append, length_headerBytes]
      have hkv : FitsHeader (k, v) := by
        rw [not_or, not_lt, not_lt] at hshort
        exact hshort
      simp only [hkv, true_and, add_assoc]

/-- **The encoder's bounds.**  `encoded_len` accepts the parts that fit with a body of at
most `MAX_BODY` and a record of at most `MAX_RECORD`, and gives the layout's length. -/
theorem encodedLen_eq_ok : encodedLen r = .ok total
      ↔ Fits r ∧ r.body.length ≤ MAX_BODY ∧ total ≤ MAX_RECORD ∧ total = (layout r).length := by
  have hlen := length_layout r
  have hcon := length_content r
  unfold encodedLen sizeOfParts
  constructor
  · intro h
    split at h
    · cases h
    split at h
    · cases h
    split at h
    · cases h
    split at h
    · cases h
    rename_i hb hi hc size hsize
    split at h
    · cases h
    cases h
    obtain ⟨hfit, hsum⟩ := headersSize_eq_ok.mp hsize
    have htotal : total = (layout r).length := by
      rw [hlen, hsum]
      unfold FIXED
      omega
    exact ⟨⟨by omega, by omega, hfit, by omega⟩, by omega, by omega, htotal⟩
  · rintro ⟨hfits, hb, hmax, htotal⟩
    have hsize : headersSize 0 (FIXED + r.msgId.utf8ByteSize + r.body.length) r.headers
        = .ok total := by
      refine headersSize_eq_ok.mpr ⟨hfits.headers, ?_⟩
      unfold FIXED
      omega
    rw [if_neg (by omega), if_neg (by have := hfits.msgId; omega),
      if_neg (by have := hfits.count; omega), hsize]
    exact if_neg (by omega)

/-- **The writer leaves the layout.**  With room for the record, `encode_into` fills
exactly the record's bytes with its layout and touches nothing behind them. -/
theorem encodeInto_of_size (h : encodedLen r = .ok total) (hbuf : total ≤ buf.length) :
    encodeInto buf r = (.ok total, layout r ++ buf.drop total) := by
  obtain ⟨-, -, -, htotal⟩ := encodedLen_eq_ok.mp h
  have hlen := length_layout r
  have hcon := length_content r
  obtain ⟨pre, out, hsplit, hpre, hout⟩ : ∃ pre out : Bytes,
      buf.take total = pre ++ out ∧ pre.length = 8 ∧ out.length = (content r).length := by
    refine ⟨(buf.take total).take 8, (buf.take total).drop 8, (take_append_drop 8 _).symm, ?_, ?_⟩
    · rw [length_take, length_take]
      omega
    · rw [length_drop, length_take]
      omega
  -- the fields, one after the other, fill what follows the first eight bytes
  have hwritten : (put ((r.headers.foldl putHeader
      (put (putFixed (buf.take total) r, FIXED) (utf8 r.msgId)))) r.body).1 = pre ++ content r := by
    rw [hsplit, putFixed_append r hpre, put_append (by simp [hpre, FIXED]),
      foldl_putHeader_append, put_append rfl]
    have hrest : out.drop (content r).length = [] := by rw [drop_eq_nil_iff, hout]
    rw [hcon] at hrest
    simp only [content, append_assoc, drop_drop, length_utf8]
    rw [hrest, append_nil]
  unfold encodeInto
  rw [show sizeOfParts r.msgId r.headers r.body = .ok total from h]
  dsimp only
  rw [if_neg (by omega), hwritten, drop_left' hpre]
  -- the length and the crc go over the first eight bytes
  have hzero : copyAt (pre ++ content r) 0 (leBytes 4 (total - 4))
      = leBytes 4 (4 + (content r).length) ++ (pre.drop 4 ++ content r) := by
    rw [copyAt_zero, length_leBytes, drop_append_of_le_length (by omega),
      show total - 4 = 4 + (content r).length by omega]
  rw [hzero, copyAt_append (by simp), drop_left' (by simp [hpre])]
  simp only [layout, append_assoc]

/-! ### The reader accepts the layouts -/

section

variable (ht : total ≤ buf.length)
include ht

variable {x : Bytes} {end_ : ℕ}

theorem field_eq_some :
    field buf total at_ n = some x ↔ at_ + n ≤ total ∧ x.length = n ∧
      (buf.take total).drop at_ = x ++ (buf.take total).drop (at_ + n) := by
  have hcut : at_ + n ≤ total → (buf.drop at_).take n = ((buf.take total).drop at_).take n := by
    intro h
    rw [drop_take, take_take, min_eq_left (by omega)]
  unfold field
  constructor
  · intro h
    split at h
    · rename_i hle
      cases h
      refine ⟨hle, length_field (by omega), ?_⟩
      rw [hcut hle, drop_take_append_drop]
    · cases h
  · rintro ⟨hle, hx, hdrop⟩
    rw [if_pos hle, hcut hle, (cut_field hdrop hx).1]

theorem lenField_eq_ok {pastEnd : Corruption} :
    lenField buf total at_ pastEnd = .ok x ↔ x.length ≤ maxField ∧ at_ + (2 + x.length) ≤ total ∧
      (buf.take total).drop at_
        = leBytes 2 x.length ++ (x ++ (buf.take total).drop (at_ + (2 + x.length))) := by
  unfold lenField
  constructor
  · intro h
    split at h
    · cases h
    split at h
    · cases h
    rename_i l hl _ y hy
    cases h
    obtain ⟨-, hl2, hdrop⟩ := (field_eq_some ht).mp hl
    obtain ⟨hle, hx, hdrop'⟩ := (field_eq_some ht).mp hy
    have hlt := leNat_lt l
    have hword : u16At l 0 = leNat l := by
      unfold u16At
      rw [drop_zero, take_of_length_le (by omega)]
    rw [hword] at hx hle hdrop'
    refine ⟨?_, by omega, ?_⟩
    · rw [hl2] at hlt
      unfold maxField
      omega
    · rw [hdrop, hdrop', hx, ← hl2, leBytes_leNat, add_assoc]
  · rintro ⟨hmax, hle, hdrop⟩
    have hword : u16At (leBytes 2 x.length) 0 = x.length := by
      unfold u16At
      rw [drop_zero, take_of_length_le (by simp), leNat_leBytes]
      unfold maxField at hmax
      omega
    have hl : field buf total at_ 2 = some (leBytes 2 x.length) :=
      (field_eq_some ht).mpr ⟨by omega, by simp,
        by rw [(cut_field hdrop (length_leBytes 2 _)).2, hdrop]⟩
    have hx : field buf total (at_ + 2) x.length = some x :=
      (field_eq_some ht).mpr ⟨by omega, rfl,
        by rw [(cut_field hdrop (length_leBytes 2 _)).2, add_assoc]⟩
    rw [hl]
    dsimp only
    rw [hword, hx]

omit ht in
theorem fromUtf8_eq_some {b : Bytes} {s : String} : fromUtf8 b = some s ↔ b = utf8 s := by
  constructor
  · intro h
    exact (utf8_of_fromUtf8 h).symm
  · rintro rfl
    exact fromUtf8_utf8 s

theorem decodeHeader_eq_ok {h : String × String} :
    decodeHeader buf total at_ = .ok (h, end_) ↔ FitsHeader h ∧
      end_ = at_ + (headerBytes h).length ∧ end_ ≤ total ∧
      (buf.take total).drop at_ = headerBytes h ++ (buf.take total).drop end_ := by
  obtain ⟨ks, vs⟩ := h
  constructor
  · intro hdec
    obtain ⟨k, hk, hdec⟩ := seq_eq_ok.mp hdec
    obtain ⟨v, hv, hdec⟩ := seq_eq_ok.mp hdec
    split at hdec
    · rename_i hks hvs
      cases hdec
      obtain ⟨hkm, -, hkd⟩ := (lenField_eq_ok ht).mp hk
      obtain ⟨hvm, hvle, hvd⟩ := (lenField_eq_ok ht).mp hv
      rw [fromUtf8_eq_some] at hks hvs
      subst hks hvs
      rw [length_headerBytes]
      simp only [length_utf8] at *
      refine ⟨⟨hkm, hvm⟩, by omega, by omega, ?_⟩
      rw [hkd, hvd]
      simp only [headerBytes, append_assoc]
    · cases hdec
  · rintro ⟨⟨hkm, hvm⟩, rfl, hle, hdrop⟩
    rw [length_headerBytes] at hle hdrop ⊢
    dsimp only at hkm hvm hle hdrop ⊢
    -- the key with its length word, then what follows it
    obtain ⟨-, hrest⟩ := @cut_field _ (leBytes 2 ks.utf8ByteSize ++ utf8 ks) _ at_
      (2 + ks.utf8ByteSize) (by rw [hdrop, headerBytes, ← append_assoc, append_assoc])
      (by simp)
    have hk : lenField buf total at_ .headerKeyPastEnd = .ok (utf8 ks) := by
      refine (lenField_eq_ok ht).mpr ⟨hkm, by rw [length_utf8]; omega, ?_⟩
      rw [length_utf8, hrest, hdrop]
      simp only [headerBytes, append_assoc]
    have hend : at_ + (2 + ks.utf8ByteSize) + (2 + vs.utf8ByteSize)
        = at_ + (4 + ks.utf8ByteSize + vs.utf8ByteSize) := by omega
    have hv : lenField buf total (at_ + (2 + ks.utf8ByteSize)) .headerValuePastEnd
        = .ok (utf8 vs) := by
      refine (lenField_eq_ok ht).mpr ⟨hvm, by rw [length_utf8]; omega, ?_⟩
      rw [hrest, length_utf8, append_assoc, hend]
    refine seq_eq_ok.mpr ⟨_, hk, seq_eq_ok.mpr ⟨_, hv, ?_⟩⟩
    simp only [length_utf8, fromUtf8_utf8, hend]

theorem decodeHeaders_eq_ok {hs : List (String × String)} (hat : at_ ≤ total) :
    decodeHeaders buf total n at_ = .ok (hs, end_) ↔ hs.length = n ∧ (∀ h ∈ hs, FitsHeader h) ∧
      end_ = at_ + (hs.flatMap headerBytes).length ∧ end_ ≤ total ∧
      (buf.take total).drop at_ = hs.flatMap headerBytes ++ (buf.take total).drop end_ := by
  -- induction on the header count, which is the recursion of the loop
  induction n generalizing at_ hs with
  | zero =>
    constructor
    · intro h
      cases h
      exact ⟨rfl, by simp, by simp, hat, by simp⟩
    · rintro ⟨hlen, -, hend, -, -⟩
      obtain rfl := length_eq_zero_iff.mp hlen
      rw [hend]
      rfl
  | succ n ih =>
    constructor
    · intro h
      obtain ⟨⟨x, mid⟩, hh, h⟩ := seq_eq_ok.mp h
      obtain ⟨⟨xs, e⟩, hr, h⟩ := seq_eq_ok.mp h
      cases h
      obtain ⟨hfit, hmid, hmidle, hdrop⟩ := (decodeHeader_eq_ok ht).mp hh
      obtain ⟨hlen, hfits, hend, hle, hdrop'⟩ := (ih hmidle).mp hr
      refine ⟨by simp [hlen], forall_mem_cons.mpr ⟨hfit, hfits⟩, ?_, hle, ?_⟩
      · rw [flatMap_cons, length_append, hend, hmid, add_assoc]
      · rw [hdrop, hdrop', flatMap_cons, append_assoc]
    · rintro ⟨hlen, hfits, hend, hle, hdrop⟩
      obtain - | ⟨x, xs⟩ := hs
      · cases hlen
      rw [forall_mem_cons] at hfits
      rw [flatMap_cons, length_append] at hend
      rw [flatMap_cons, append_assoc] at hdrop
      obtain ⟨-, hrest⟩ := cut_field hdrop rfl
      have hh : decodeHeader buf total at_ = .ok (x, at_ + (headerBytes x).length) :=
        (decodeHeader_eq_ok ht).mpr ⟨hfits.1, rfl, by omega, by rw [hrest, hdrop]⟩
      have hr : decodeHeaders buf total n (at_ + (headerBytes x).length) = .ok (xs, end_) :=
        (ih (by omega)).mpr ⟨by simpa using hlen, hfits.2, by omega, hle, hrest⟩
      exact seq_eq_ok.mpr ⟨_, hh, seq_eq_ok.mpr ⟨_, hr, rfl⟩⟩

/-- A little-endian number inside the record, read and written back. -/
theorem leNat_at {w : ℕ} (hle : at_ + w ≤ total) (hn : n < 256 ^ w) :
    leNat ((buf.drop at_).take w) = n
      ↔ (buf.take total).drop at_ = leBytes w n ++ (buf.take total).drop (at_ + w) := by
  have hfield : field buf total at_ w = some ((buf.drop at_).take w) := if_pos hle
  obtain ⟨-, hlen, hdrop⟩ := (field_eq_some ht).mp hfield
  constructor
  · intro h
    rw [hdrop, ← h]
    congr 1
    nth_rewrite 2 [← hlen]
    exact (leBytes_leNat _).symm
  · intro h
    rw [hdrop] at h
    rw [(append_inj h (by simp [hlen])).1, leNat_leBytes, Nat.mod_eq_of_lt hn]

omit ht in
theorem leNat_take_lt (b : Bytes) (w : ℕ) : leNat (b.take w) < 256 ^ w :=
  (leNat_lt _).trans_le (Nat.pow_le_pow_right (by omega) (length_take_le w b))

theorem u16At_eq (hle : at_ + 2 ≤ total) (hn : n ≤ maxField) : u16At buf at_ = n
      ↔ (buf.take total).drop at_ = leBytes 2 n ++ (buf.take total).drop (at_ + 2) :=
  leNat_at ht hle (by unfold maxField at hn; omega)

theorem u32At_eq {n : UInt32} (hle : at_ + 4 ≤ total) : u32At buf at_ = n
      ↔ (buf.take total).drop at_ = leBytes 4 n.toNat ++ (buf.take total).drop (at_ + 4) := by
  have hlt : leNat ((buf.drop at_).take 4) < 2 ^ 32 := leNat_take_lt _ 4
  rw [← leNat_at ht hle n.toNat_lt, u32At, ← UInt32.toNat_inj, UInt32.toNat_ofNat',
    Nat.mod_eq_of_lt hlt]

theorem u64At_eq {n : UInt64} (hle : at_ + 8 ≤ total) : u64At buf at_ = n
      ↔ (buf.take total).drop at_ = leBytes 8 n.toNat ++ (buf.take total).drop (at_ + 8) := by
  have hlt : leNat ((buf.drop at_).take 8) < 2 ^ 64 := leNat_take_lt _ 8
  rw [← leNat_at ht hle n.toNat_lt, u64At, ← UInt64.toNat_inj, UInt64.toNat_ofNat',
    Nat.mod_eq_of_lt hlt]

omit ht in
theorem u16At_le (at_ : ℕ) : u16At buf at_ ≤ maxField := Nat.le_of_lt_succ (leNat_take_lt _ 2)

/-- What the words of a record with the content of `r` hold, and what follows them. -/
theorem words_of_content (hmax : total ≤ 4 + MAX_RECORD)
    (hlen : total = 8 + (content r).length) (h8 : (buf.take total).drop 8 = content r)
    (hid : r.msgId.utf8ByteSize ≤ maxField) (hcount : r.headers.length ≤ maxField) :
    u64At buf 8 = r.seq ∧ u64At buf 16 = r.ts.toUInt64 ∧ u32At buf 24 = r.subject ∧
      u16At buf 28 = r.msgId.utf8ByteSize ∧ u16At buf 30 = r.headers.length ∧
      (u32At buf 32).toNat = r.body.length ∧
      (buf.take total).drop 36 = utf8 r.msgId ++ (r.headers.flatMap headerBytes ++ r.body) := by
  have hcon := length_content r
  have hbody : r.body.length < 2 ^ 32 := by
    unfold MAX_RECORD MAX_BODY at hmax
    omega
  -- each field cut off what the one before it left
  have h16 := (cut_field h8 (length_leBytes 8 _)).2
  have h24 := (cut_field h16 (length_leBytes 8 _)).2
  have h28 := (cut_field h24 (length_leBytes 4 _)).2
  have h30 := (cut_field h28 (length_leBytes 2 _)).2
  have h32 := (cut_field h30 (length_leBytes 2 _)).2
  have h36 := (cut_field h32 (length_leBytes 4 _)).2
  refine ⟨(u64At_eq ht (by omega)).mpr (by rw [h16, h8]; rfl),
    (u64At_eq ht (by omega)).mpr (by rw [h24, h16]),
    (u32At_eq ht (by omega)).mpr (by rw [h28, h24]),
    (u16At_eq ht (by omega) hid).mpr (by rw [h30, h28]),
    (u16At_eq ht (by omega) hcount).mpr (by rw [h32, h30]), ?_, h36⟩
  have : u32At buf 32 = UInt32.ofNat r.body.length := by
    refine (u32At_eq ht (by omega)).mpr ?_
    rw [h36, h32, UInt32.toNat_ofNat', Nat.mod_eq_of_lt hbody]
  rw [this, UInt32.toNat_ofNat', Nat.mod_eq_of_lt hbody]

/-- The fields after the crc are read exactly from the content of the record. -/
theorem decodeParts_eq_ok (hfix : FIXED ≤ total) (hmax : total ≤ 4 + MAX_RECORD) :
    decodeParts buf total = .ok r ↔ (buf.take total).drop 8 = content r ∧
      r.msgId.utf8ByteSize ≤ maxField ∧ r.headers.length ≤ maxField ∧
      ∀ h ∈ r.headers, FitsHeader h := by
  have hW : (buf.take total).length = total := by rw [length_take]; omega
  unfold FIXED at hfix
  unfold decodeParts
  constructor
  · intro h
    split at h
    · cases h
    rename_i id hid
    split at h
    · cases h
    rename_i msgId hmsg
    obtain ⟨hidle, hidlen, hiddrop⟩ := (field_eq_some ht).mp hid
    rw [fromUtf8_eq_some] at hmsg
    subst hmsg
    obtain ⟨⟨hs, end_⟩, hhs, h⟩ := seq_eq_ok.mp h
    dsimp only at h
    split at h
    · cases h
    cases h
    obtain ⟨hcount, hfits, hat, hle, hdrop⟩ := (decodeHeaders_eq_ok ht hidle).mp hhs
    rw [length_utf8] at hidlen
    have hbody : ((buf.take total).drop end_).length = (u32At buf 32).toNat := by
      rw [length_drop]
      omega
    refine ⟨?_, ?_, ?_, hfits⟩
    · -- the record, field by field
      rw [(u64At_eq ht (by omega)).mp rfl, (u64At_eq ht (by omega)).mp rfl,
        (u32At_eq ht (by omega)).mp rfl, (u16At_eq ht (by omega) (u16At_le 28)).mp rfl,
        (u16At_eq ht (by omega) (u16At_le 30)).mp rfl, (u32At_eq ht (by omega)).mp rfl,
        show 32 + 4 = FIXED from rfl, hiddrop, hdrop]
      simp only [content, hidlen, hcount, hbody, UInt64.toUInt64_toInt64]
    · rw [hidlen]
      exact u16At_le 28
    · rw [hcount]
      exact u16At_le 30
  · rintro ⟨h8, hid, hcount, hfits⟩
    have hlen : total = 8 + (content r).length := by
      have := congrArg List.length h8
      rw [length_drop] at this
      omega
    have hcon := length_content r
    obtain ⟨eseq, ets, esub, eid, ecount, ebody, h36⟩ := words_of_content ht hmax hlen h8 hid hcount
    have hidrest := (cut_field h36 (length_utf8 _)).2
    have hend := (cut_field hidrest rfl).2
    have hfield : field buf total FIXED r.msgId.utf8ByteSize = some (utf8 r.msgId) :=
      (field_eq_some ht).mpr ⟨by unfold FIXED; omega, length_utf8 _,
        by unfold FIXED; rw [hidrest, h36]⟩
    have hheaders : decodeHeaders buf total r.headers.length (FIXED + r.msgId.utf8ByteSize)
        = .ok (r.headers, 36 + r.msgId.utf8ByteSize + (r.headers.flatMap headerBytes).length) :=
      (decodeHeaders_eq_ok ht (by unfold FIXED; omega)).mpr
        ⟨rfl, hfits, rfl, by omega, by rw [hend]; exact hidrest⟩
    rw [eid, hfield]
    dsimp only
    rw [fromUtf8_utf8]
    rw [ecount]
    refine seq_eq_ok.mpr ⟨_, hheaders, ?_⟩
    rw [if_neg (by omega), eseq, ets, esub, hend, Int64.toInt64_toUInt64]

end

theorem u32At_layout_length (hfits : Fits r) (hb : b.take 4 = (layout r).take 4) :
    (u32At b 0).toNat = 4 + (content r).length := by
  have hsize := hfits.size
  have hlay := length_layout r
  unfold u32At
  rw [drop_zero, hb, layout, take_left' (by simp), leNat_leBytes, UInt32.toNat_ofNat']
  unfold MAX_RECORD MAX_BODY at hsize
  omega

theorem drop_layout (r : Record) : (layout r).drop 8 = content r := by
  rw [layout, ← append_assoc, drop_left' (by simp)]

theorem u32At_layout_body (hfits : Fits r) (rest : Bytes) :
    (u32At (layout r ++ rest) 32).toNat = r.body.length := by
  have ht : (layout r).length ≤ (layout r ++ rest).length := by simp
  obtain ⟨-, -, -, -, -, h, -⟩ := words_of_content ht hfits.size (length_layout r)
    (by rw [take_left' rfl, drop_layout]) hfits.msgId hfits.count
  exact h

/-- **What the decoder accepts.**  Exactly the layouts of the records that fit, followed by
anything. -/
theorem decode_eq_record : decode buf = .record r n
      ↔ Fits r ∧ n = (layout r).length ∧ ∃ rest, buf = layout r ++ rest := by
  have hlay := length_layout r
  have hcon := length_content r
  constructor
  · intro h
    unfold decode at h
    dsimp only at h
    split at h
    · cases h
    split at h
    · cases h
    rename_i hlen
    split at h
    · cases h
    rename_i hbuf
    split at h
    · cases h
    rename_i hcrc
    split at h
    · cases h
    rename_i r' hparts
    cases h
    rw [not_not] at hlen hcrc
    rw [not_lt] at hbuf
    obtain ⟨hcontent, hid, hcount, hfits⟩ :=
      (decodeParts_eq_ok hbuf (by unfold FIXED at *; omega) (by omega)).mp hparts
    have htotal : (buf.take (4 + (u32At buf 0).toNat)).length = 4 + (u32At buf 0).toNat := by
      rw [length_take]
      omega
    have hsize : 4 + (u32At buf 0).toNat = (layout r).length := by
      have := congrArg List.length hcontent
      rw [length_drop] at this
      omega
    refine ⟨⟨hid, hcount, hfits, by omega⟩, hsize, buf.drop (layout r).length, ?_⟩
    have h0 := (u32At_eq hbuf (by omega)).mp (.refl (u32At buf 0))
    have h4 := (u32At_eq hbuf (by unfold FIXED at hlen; omega)).mp (.refl (u32At buf 4))
    have htake : buf.take (layout r).length = layout r := by
      rw [hcontent] at hcrc
      rw [← hsize, ← drop_zero (l := List.take _ _), h0, h4, hcontent, hcrc, layout]
      rw [show (u32At buf 0).toNat = 4 + (content r).length by omega]
    nth_rewrite 1 [← take_append_drop (layout r).length buf]
    rw [htake]
  · rintro ⟨hfits, rfl, rest, rfl⟩
    have hsize := hfits.size
    have htake : (layout r ++ rest).take (layout r).length = layout r := take_left' rfl
    have ht : (layout r).length ≤ (layout r ++ rest).length := by simp
    have hcontent := drop_layout r
    have h4 : (layout r).drop 4 = leBytes 4 (crc32c (content r)).toNat ++ content r :=
      drop_left' (length_leBytes 4 _)
    have elen : (u32At (layout r ++ rest) 0).toNat = _ :=
      u32At_layout_length hfits (take_append_of_le_length (by omega))
    have ecrc : u32At (layout r ++ rest) 4 = crc32c (content r) := by
      refine (u32At_eq ht (by omega)).mpr ?_
      rw [htake, h4, hcontent]
    have hparts : decodeParts (layout r ++ rest) (layout r).length = .ok r :=
      (decodeParts_eq_ok ht (by unfold FIXED; omega) hsize).mpr
        ⟨by rw [htake, hcontent], hfits.msgId, hfits.count, hfits.headers⟩
    unfold decode
    dsimp only
    rw [elen, show 4 + (4 + (content r).length) = (layout r).length by omega, htake, hcontent,
      ecrc, if_neg (by rw [length_append]; omega), if_neg (by unfold FIXED; omega),
      if_neg (by omega), if_neg (by simp), hparts]

theorem decode_take_layout (hfits : Fits r) {k : ℕ} (hk : k < (layout r).length) :
    decode ((layout r).take k) = .incomplete := by
  have hlen : ((layout r).take k).length = k := by
    rw [length_take]
    omega
  have hlay := length_layout r
  have hsize := hfits.size
  have hcon := length_content r
  unfold decode
  split
  · rfl
  rename_i h4
  rw [not_lt, hlen] at h4
  have htake : ((layout r).take k).take 4 = (layout r).take 4 := by rw [take_take, min_eq_left h4]
  rw [u32At_layout_length hfits htake, if_neg (by unfold FIXED; omega), if_pos (by omega)]

/-! ### The codec is canonical within the encoder's bounds -/

/-- **The record codec.**  What `encoded_len` accepts is written in exactly that many bytes,
decodes to the same parts with anything following, and is incomplete at every strict
prefix.  What `decode` accepts is such an encoding exactly when its length field is
within `MAX_RECORD` and its body length field within `MAX_BODY`. -/
theorem encode_decode_canonical (r : Record) (buf : Bytes) :
    (∀ total, encodedLen r = .ok total → total ≤ buf.length →
      ∃ enc : Bytes, encodeInto buf r = (.ok total, enc ++ buf.drop total) ∧ enc.length = total ∧
        (∀ rest, decode (enc ++ rest) = .record r total) ∧
        ∀ k < total, decode (enc.take k) = .incomplete) ∧
    (∀ n, decode buf = .record r n → ((encodedLen r = .ok n ∧ ∀ out : Bytes, n ≤ out.length →
          encodeInto out r = (.ok n, buf.take n ++ out.drop n))
        ↔ (u32At buf 0).toNat + 4 ≤ MAX_RECORD ∧ (u32At buf 32).toNat ≤ MAX_BODY)) := by
  constructor
  · intro total hlen hbuf
    obtain ⟨hfits, -, -, htotal⟩ := encodedLen_eq_ok.mp hlen
    refine ⟨layout r, encodeInto_of_size hlen hbuf, htotal.symm, fun rest => ?_, fun k hk => ?_⟩
    · exact decode_eq_record.mpr ⟨hfits, htotal, rest, rfl⟩
    · exact decode_take_layout hfits (htotal ▸ hk)
  · intro n hdec
    obtain ⟨hfits, hn, rest, rfl⟩ := decode_eq_record.mp hdec
    have hlay := length_layout r
    rw [u32At_layout_length hfits (take_append_of_le_length (by omega)), u32At_layout_body hfits]
    constructor
    · rintro ⟨hlen, -⟩
      obtain ⟨-, hbody, hmax, -⟩ := encodedLen_eq_ok.mp hlen
      exact ⟨by omega, hbody⟩
    rintro ⟨hmax, hbody⟩
    have hlen : encodedLen r = .ok n := encodedLen_eq_ok.mpr ⟨hfits, hbody, by omega, hn⟩
    refine ⟨hlen, fun out hout => ?_⟩
    rw [encodeInto_of_size hlen hout, take_left' hn.symm]

/-- A record with an id, a header and a body. -/
def sample : Record :=
  { seq := 7, ts := -1, subject := 3, msgId := "a", headers := [("k", "v")], body := [1, 2] }

/-- The sample is written into the front of a larger buffer and read back, and what is read
back is the encoding. -/
theorem encode_decode_sample : (∃ enc : Bytes, encodeInto (List.replicate 50 9) sample
        = (.ok 45, enc ++ (List.replicate 50 9 : Bytes).drop 45) ∧ enc.length = 45 ∧
      (∀ rest, decode (enc ++ rest) = .record sample 45) ∧
      ∀ k < 45, decode (enc.take k) = .incomplete) ∧
    (encodedLen sample = .ok 45 ∧ ∀ out : Bytes, 45 ≤ out.length →
      encodeInto out sample = (.ok 45, (layout sample).take 45 ++ out.drop 45)) :=
  ⟨(encode_decode_canonical sample (List.replicate 50 9)).1 45 (by decide +kernel) (by decide),
    ((encode_decode_canonical sample (layout sample)).2 45 (by decide +kernel)).mpr
      (by decide +kernel)⟩

/-- A record whose body is one byte longer than `MAX_BODY`. -/
def oversized : Record :=
  { seq := 0, ts := 0, subject := 0, msgId := "", headers := [],
    body := List.replicate (MAX_BODY + 1) 0 }

theorem length_body_oversized : oversized.body.length = MAX_BODY + 1 := length_replicate

theorem fits_oversized : Fits oversized := by
  refine ⟨Nat.zero_le _, Nat.zero_le _, fun h hh => absurd hh not_mem_nil, ?_⟩
  rw [length_layout, length_content, length_body_oversized]
  decide

/-- The decoder accepts a body longer than the format allows, which the encoder refuses. -/
theorem decode_oversized_accepted :
    decode (layout oversized) = .record oversized (layout oversized).length ∧
      encodedLen oversized = .error (.bodyTooLarge (MAX_BODY + 1)) := by
  refine ⟨decode_eq_record.mpr ⟨fits_oversized, rfl, [], (append_nil _).symm⟩, ?_⟩
  unfold encodedLen sizeOfParts
  rw [length_body_oversized, if_pos (Nat.lt_succ_self _)]

end Moruna.RecordRing
