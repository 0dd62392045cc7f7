/-
Moruna/Svc/Wire.lean

The wire format of a service message (kernel/svc/src/wire.rs) and the frame that
carries it (kernel/svc/src/frame.rs).

A type of the format is a `Ty`: the integers, `bool`, `()`, `String`, `Vec`,
`Option`, tuples and the three kinds of handle, to any depth; an integer is held
by its bits, and a tuple by pairs ending in `()`, which takes no bytes.  What a
value is written as is a list of pieces, a byte or a handle in its place.  For
each implementation one lemma says that encoding appends the pieces, and that
decoding reads exactly the pieces of what it returns.

* `lawful` : every type of the format encodes and decodes its pieces;
* `wire_exact` : **a body means exactly one thing**;
* `channel_of_memory_refused` : the type of a handle is checked where it is read only.
-/
import Moruna.Lib.Codec
import Moruna.Lib.Checks
import Moruna.Kernel.Abi

namespace Moruna.Svc

open List

open Kernel.Limits

/-! ### Encoders and decoders -/

inductive WireError
  | truncated
  | invalid
  | handle
  | trailing
  | tooLarge
deriving DecidableEq

inductive ObjectType
  | channel
  | memory
  | other
deriving DecidableEq

/-- A handle, with what the kernel answers when asked for its object's type. -/
structure Handle where
  id : ℕ
  info : Option ObjectType
deriving DecidableEq

/-- A message under construction, without its header. -/
structure Encoder where
  bytes : Bytes
  handles : List Handle

def Encoder.new : Encoder := ⟨[], []⟩

def Encoder.putRaw (e : Encoder) (b : Bytes) : Encoder := { e with bytes := e.bytes ++ b }

/-- Appends a handle: its index in the message goes in the body. -/
def Encoder.putHandle (e : Encoder) (h : Handle) : Except WireError Encoder :=
  if CHANNEL_MAX_HANDLES ≤ e.handles.length then .error .tooLarge
  else .ok ⟨e.bytes ++ [UInt8.ofNat e.handles.length], e.handles ++ [h]⟩

/-- Appends a length or a count, refusing one that no message could hold. -/
def Encoder.putLen (e : Encoder) (len : ℕ) : Except WireError Encoder :=
  if CHANNEL_MAX_BYTES < len then .error .tooLarge else .ok (e.putRaw (leBytes 4 len))

/-- A body being read: the bytes not yet read and the handles not yet taken. -/
structure Decoder where
  bytes : Bytes
  handles : List (Option Handle)

def Decoder.takeRaw (d : Decoder) (n : ℕ) : Except WireError (Bytes × Decoder) :=
  if n ≤ d.bytes.length then .ok (d.bytes.take n, { d with bytes := d.bytes.drop n })
  else .error .truncated

def Decoder.takeLen (d : Decoder) : Except WireError (ℕ × Decoder) := do
  let (b, d) ← d.takeRaw 4
  rejectIf (CHANNEL_MAX_BYTES < leNat b) .invalid
  pure (leNat b, d)

/-- The handle the next byte names, taken out of the message. -/
def Decoder.takeHandle (d : Decoder) : Except WireError (Handle × Decoder) := do
  let (b, d) ← d.takeRaw 1
  match d.handles[leNat b]? with
  | some (some h) => pure (h, { d with handles := d.handles.set (leNat b) none })
  | _ => throw .handle

/-- Succeeds only if every byte was read and every handle taken. -/
def Decoder.finish (d : Decoder) : Except WireError Unit :=
  rejectIf (d.bytes ≠ [] ∨ d.handles.any Option.isSome) .trailing

/-! ### The implementations -/

/-- What an implementation gives for a type. -/
structure Codec (α : Type) where
  encode : α → Encoder → Except WireError Encoder
  decode : Decoder → Except WireError (α × Decoder)

/-- An integer of `w` bytes, by its bits. -/
def integer (w : ℕ) : Codec (Fin (256 ^ w)) where
  encode v e := .ok (e.putRaw (leBytes w v))
  decode d := do
    let (b, d) ← d.takeRaw w
    pure (⟨leNat b % 256 ^ w, Nat.mod_lt _ (Nat.pow_pos (by decide))⟩, d)

def boolByte (v : Bool) : UInt8 := if v then 1 else 0

def bool : Codec Bool where
  encode v e := .ok (e.putRaw [boolByte v])
  decode d := do
    let (b, d) ← d.takeRaw 1
    match b with
    | [0] => pure (false, d)
    | [1] => pure (true, d)
    | _ => throw .invalid

def unit : Codec Unit where
  encode _ e := .ok e
  decode d := .ok ((), d)

def encodeAll {α : Type} (c : Codec α) : List α → Encoder → Except WireError Encoder
  | [], e => .ok e
  | v :: vs, e => do encodeAll c vs (← c.encode v e)

def decodeAll {α : Type} (c : Codec α) : ℕ → Decoder → Except WireError (List α × Decoder)
  | 0, d => .ok ([], d)
  | n + 1, d => do
    let (v, d) ← c.decode d
    let (vs, d) ← decodeAll c n d
    pure (v :: vs, d)

def vec {α : Type} (c : Codec α) : Codec (List α) where
  encode vs e := do encodeAll c vs (← e.putLen vs.length)
  decode d := do
    let (n, d) ← d.takeLen
    decodeAll c n d

def string : Codec String where
  encode s e := do pure ((← e.putLen (utf8 s).length).putRaw (utf8 s))
  decode d := do
    let (n, d) ← d.takeLen
    let (b, d) ← d.takeRaw n
    match fromUtf8 b with
    | some s => pure (s, d)
    | none => throw .invalid

def option {α : Type} (c : Codec α) : Codec (Option α) where
  encode v e :=
    match v with
    | none => .ok (e.putRaw [0])
    | some v => c.encode v (e.putRaw [1])
  decode d := do
    let (b, d) ← d.takeRaw 1
    match b with
    | [0] => pure (none, d)
    | [1] => do
      let (v, d) ← c.decode d
      pure (some v, d)
    | _ => throw .invalid

def pair {α β : Type} (c : Codec α) (c' : Codec β) : Codec (α × β) where
  encode v e := do c'.encode v.2 (← c.encode v.1 e)
  decode d := do
    let (a, d) ← c.decode d
    let (b, d) ← c'.decode d
    pure ((a, b), d)

def handle : Codec Handle where
  encode h e := e.putHandle h
  decode d := d.takeHandle

/-- A handle that wraps any object, and is checked to be one of type `kind` where it is read. -/
def typedHandle (kind : ObjectType) : Codec Handle where
  encode h e := e.putHandle h
  decode d := do
    let (h, d) ← d.takeHandle
    if h.info = some kind then pure (h, d) else throw .handle

/-- The types of the format. -/
inductive Ty
  | int (w : ℕ)
  | bool
  | unit
  | string
  | vec (t : Ty)
  | option (t : Ty)
  | pair (a b : Ty)
  | handle
  | channel
  | memory

def Ty.Val : Ty → Type
  | .int w => Fin (256 ^ w)
  | .bool => Bool
  | .unit => Unit
  | .string => String
  | .vec t => List t.Val
  | .option t => Option t.Val
  | .pair a b => a.Val × b.Val
  | .handle | .channel | .memory => Handle

/-- The implementation of each type. -/
def Ty.wire : (t : Ty) → Codec t.Val
  | .int w => Svc.integer w
  | .bool => Svc.bool
  | .unit => Svc.unit
  | .string => Svc.string
  | .vec t => Svc.vec t.wire
  | .option t => Svc.option t.wire
  | .pair a b => Svc.pair a.wire b.wire
  | .handle => Svc.handle
  | .channel => typedHandle .channel
  | .memory => typedHandle .memory

/-! ### Pieces -/

/-- A piece of a body: a byte, or a handle in its place. -/
inductive Piece
  | byte (b : UInt8)
  | handle (h : Handle)
deriving DecidableEq

def raw (b : Bytes) : List Piece := b.map .byte

/-- A message with these pieces after its own. -/
def Encoder.push (e : Encoder) : List Piece → Encoder
  | [] => e
  | .byte b :: ps => Encoder.push ⟨e.bytes ++ [b], e.handles⟩ ps
  | .handle h :: ps => Encoder.push ⟨e.bytes ++ [UInt8.ofNat e.handles.length], e.handles ++ [h]⟩ ps

/-- Reading these pieces off `d` leaves `d'`. -/
def Reads : List Piece → Decoder → Decoder → Prop
  | [], d, d' => d = d'
  | .byte c :: ps, d, d' => ∃ b, d.bytes = c :: b ∧ Reads ps ⟨b, d.handles⟩ d'
  | .handle h :: ps, d, d' => ∃ i b, d.bytes = i :: b ∧ d.handles[i.toNat]? = some (some h) ∧
      Reads ps ⟨b, d.handles.set i.toNat none⟩ d'

theorem push_append (e : Encoder) (ps qs : List Piece) :
    e.push (ps ++ qs) = (e.push ps).push qs := by
  induction ps generalizing e with
  | nil => rfl
  | cons p ps ih => cases p <;> exact ih _

variable {d d' : Decoder} {e : Encoder}
variable {ps qs : List Piece} {b body : Bytes} {n : ℕ} {h : Handle} {e' : Encoder} {t : Ty}
variable {handles : List Handle}

theorem reads_append {d'' : Decoder} :
    Reads (ps ++ qs) d d'' ↔ ∃ d', Reads ps d d' ∧ Reads qs d' d'' := by
  induction ps generalizing d with
  | nil => exact ⟨fun h => ⟨d, rfl, h⟩, fun ⟨_, h, h'⟩ => h ▸ h'⟩
  | cons p ps ih =>
    cases p with
    | byte c =>
      constructor
      · rintro ⟨b, hb, h⟩
        obtain ⟨d', h, h'⟩ := ih.mp h
        exact ⟨d', ⟨b, hb, h⟩, h'⟩
      · rintro ⟨d', ⟨b, hb, h⟩, h'⟩
        exact ⟨b, hb, ih.mpr ⟨d', h, h'⟩⟩
    | handle x =>
      constructor
      · rintro ⟨i, b, hb, hi, h⟩
        obtain ⟨d', h, h'⟩ := ih.mp h
        exact ⟨d', ⟨i, b, hb, hi, h⟩, h'⟩
      · rintro ⟨d', ⟨i, b, hb, hi, h⟩, h'⟩
        exact ⟨i, b, hb, hi, ih.mpr ⟨d', h, h'⟩⟩

theorem push_raw (e : Encoder) (b : Bytes) : e.push (raw b) = e.putRaw b := by
  induction b generalizing e with
  | nil => exact congrArg (Encoder.mk · e.handles) (append_nil _).symm
  | cons c b ih =>
    refine (ih _).trans ?_
    rw [Encoder.putRaw, append_assoc]
    rfl

theorem reads_raw :
    Reads (raw b) d d' ↔ d.bytes = b ++ d'.bytes ∧ d'.handles = d.handles := by
  induction b generalizing d with
  | nil =>
    constructor
    · rintro rfl
      exact ⟨rfl, rfl⟩
    rintro ⟨h, h'⟩
    cases d
    cases d'
    cases h
    cases h'
    rfl
  | cons c b ih =>
    constructor
    · rintro ⟨rest, hb, h⟩
      obtain ⟨h, h'⟩ := ih.mp h
      exact ⟨hb.trans (congrArg (c :: ·) h), h'⟩
    · rintro ⟨h, h'⟩
      exact ⟨b ++ d'.bytes, h, ih.mpr ⟨rfl, h'⟩⟩

theorem takeRaw_eq_ok :
    d.takeRaw n = .ok (b, d') ↔ b.length = n ∧ Reads (raw b) d d' := by
  rw [Decoder.takeRaw, reads_raw]
  constructor
  · intro h
    split at h
    · cases h
      exact ⟨length_take_of_le ‹_›, (take_append_drop _ _).symm, rfl⟩
    · cases h
  · rintro ⟨rfl, hb, hh⟩
    rw [hb, if_pos (by rw [length_append]; omega), take_left, drop_left, ← hh]

theorem takeLen_eq_ok :
    d.takeLen = .ok (n, d') ↔ n ≤ CHANNEL_MAX_BYTES ∧ Reads (raw (leBytes 4 n)) d d' := by
  rw [Decoder.takeLen, seq_eq_ok]
  constructor
  · rintro ⟨⟨b, d₁⟩, hraw, h⟩
    obtain ⟨_, hle, h⟩ := seq_eq_ok.mp h
    cases h
    obtain ⟨hlen, hreads⟩ := takeRaw_eq_ok.mp hraw
    rw [← hlen, leBytes_leNat]
    exact ⟨Nat.le_of_not_lt (rejectIf_eq_ok.mp hle), hreads⟩
  · rintro ⟨hle, hreads⟩
    have hn : leNat (leBytes 4 n) = n := by
      rw [leNat_leBytes, Nat.mod_eq_of_lt]
      exact hle.trans_lt (by decide)
    refine ⟨(leBytes 4 n, d'), takeRaw_eq_ok.mpr ⟨length_leBytes 4 n, hreads⟩, ?_⟩
    refine seq_eq_ok.mpr ⟨(), rejectIf_eq_ok.mpr (by rw [hn]; omega), ?_⟩
    rw [hn]
    rfl

theorem takeHandle_eq_ok : d.takeHandle = .ok (h, d') ↔ Reads [.handle h] d d' := by
  rw [Decoder.takeHandle, seq_eq_ok]
  constructor
  · rintro ⟨⟨b, d₁⟩, hraw, hh⟩
    obtain ⟨hlen, hreads⟩ := takeRaw_eq_ok.mp hraw
    obtain ⟨i, rfl⟩ := length_eq_one_iff.mp hlen
    obtain ⟨hb, hhandles⟩ := reads_raw.mp hreads
    dsimp only at hh
    rw [hhandles] at hh
    split at hh
    · cases hh
      exact ⟨i, d₁.bytes, hb, ‹_›, rfl⟩
    · cases hh
  · rintro ⟨i, b, hb, hi, rfl⟩
    have hn : leNat [i] = i.toNat := by simp [leNat]
    refine ⟨([i], ⟨b, d.handles⟩), takeRaw_eq_ok.mpr ⟨rfl, reads_raw.mpr ⟨hb, rfl⟩⟩, ?_⟩
    dsimp only
    rw [hn, hi]
    rfl

/-! ### Every implementation is lawful -/

/-- `e'` is `e` with these pieces appended, within the bound on handles if `e` was. -/
def Appends (e e' : Encoder) (ps : List Piece) : Prop :=
  e' = e.push ps ∧
    (e.handles.length ≤ CHANNEL_MAX_HANDLES → e'.handles.length ≤ CHANNEL_MAX_HANDLES)

theorem Appends.trans {e'' : Encoder} (h : Appends e e' ps)
    (h' : Appends e' e'' qs) : Appends e e'' (ps ++ qs) := by
  refine ⟨?_, fun he => h'.2 (h.2 he)⟩
  rw [push_append, ← h.1]
  exact h'.1

theorem appends_raw (e : Encoder) (b : Bytes) : Appends e (e.putRaw b) (raw b) :=
  ⟨(push_raw e b).symm, id⟩

theorem putLen_eq_ok (h : e.putLen n = .ok e') :
    n ≤ CHANNEL_MAX_BYTES ∧ Appends e e' (raw (leBytes 4 n)) := by
  rw [Encoder.putLen] at h
  split at h
  · cases h
  · cases h
    exact ⟨Nat.le_of_not_lt ‹_›, appends_raw e _⟩

theorem putHandle_eq_ok (hput : e.putHandle h = .ok e') :
    Appends e e' [.handle h] := by
  rw [Encoder.putHandle] at hput
  split at hput
  · cases hput
  · cases hput
    refine ⟨rfl, fun _ => ?_⟩
    rw [length_append]
    exact Nat.lt_of_not_le ‹_›

/-- An implementation writes `spell v` for a value, which `fits` if it is `typed`, and reads back
exactly the values that fit. -/
structure Lawful {α : Type} (c : Codec α) (spell : α → List Piece) (typed fits : α → Prop) :
    Prop where
  encode : ∀ v e e', c.encode v e = .ok e' → (typed v → fits v) ∧ Appends e e' (spell v)
  decode : ∀ d v d', c.decode d = .ok (v, d') ↔ fits v ∧ Reads (spell v) d d'

section Implementations

variable {α β : Type} {c : Codec α} {c' : Codec β} {spell : α → List Piece} {typed fits : α → Prop}
  {spell' : β → List Piece} {typed' fits' : β → Prop}

theorem lawful_integer (w : ℕ) :
    Lawful (integer w) (fun v => raw (leBytes w v)) (fun _ => True) fun _ => True where
  encode v e e' h := by
    cases h
    exact ⟨id, appends_raw e _⟩
  decode d v d' := by
    rw [integer, seq_eq_ok]
    constructor
    · rintro ⟨⟨b, d₁⟩, hraw, h⟩
      cases h
      obtain ⟨rfl, hreads⟩ := takeRaw_eq_ok.mp hraw
      refine ⟨trivial, ?_⟩
      rwa [Fin.val_mk, Nat.mod_eq_of_lt (leNat_lt b), leBytes_leNat]
    · rintro ⟨-, hreads⟩
      refine ⟨_, takeRaw_eq_ok.mpr ⟨length_leBytes w v, hreads⟩, ?_⟩
      refine congrArg (fun x => Except.ok (x, d')) (Fin.ext ?_)
      dsimp only
      rw [leNat_leBytes, Nat.mod_mod, Nat.mod_eq_of_lt v.isLt]

theorem lawful_bool :
    Lawful bool (fun v => raw [boolByte v]) (fun _ => True) fun _ => True where
  encode v e e' h := by
    cases h
    exact ⟨id, appends_raw e _⟩
  decode d v d' := by
    rw [bool, seq_eq_ok]
    constructor
    · rintro ⟨⟨b, d₁⟩, hraw, h⟩
      obtain ⟨-, hreads⟩ := takeRaw_eq_ok.mp hraw
      refine ⟨trivial, ?_⟩
      dsimp only at h
      split at h <;> cases h <;> exact hreads
    · rintro ⟨-, hreads⟩
      cases v <;> exact ⟨_, takeRaw_eq_ok.mpr ⟨rfl, hreads⟩, rfl⟩

theorem lawful_unit : Lawful unit (fun _ => []) (fun _ => True) fun _ => True where
  encode v e e' h := by
    cases h
    exact ⟨id, rfl, id⟩
  decode d v d' := by
    constructor
    · intro h
      cases h
      exact ⟨trivial, rfl⟩
    · rintro ⟨-, rfl⟩
      rfl

variable (hc : Lawful c spell typed fits)

include hc

variable {vs : List α}

theorem encodeAll_eq_ok {e' : Encoder}
    (h : encodeAll c vs e = .ok e') :
    (∀ v ∈ vs, typed v → fits v) ∧ Appends e e' (vs.flatMap spell) := by
  induction vs generalizing e with
  | nil =>
    cases h
    exact ⟨nofun, rfl, id⟩
  | cons v vs ih =>
    obtain ⟨e₁, hv, h⟩ := seq_eq_ok.mp h
    obtain ⟨hfit, happ⟩ := hc.encode v e e₁ hv
    obtain ⟨hall, happ'⟩ := ih h
    exact ⟨forall_mem_cons.mpr ⟨hfit, hall⟩, happ.trans happ'⟩

theorem decodeAll_eq_ok {n : ℕ} : decodeAll c n d = .ok (vs, d') ↔
      vs.length = n ∧ (∀ v ∈ vs, fits v) ∧ Reads (vs.flatMap spell) d d' := by
  induction n generalizing vs d with
  | zero =>
    constructor
    · intro h
      cases h
      exact ⟨rfl, nofun, rfl⟩
    · rintro ⟨hlen, -, h⟩
      rw [length_eq_zero_iff.mp hlen] at h ⊢
      exact congrArg (fun x => Except.ok (([] : List α), x)) h
  | succ n ih =>
    rw [decodeAll, seq_eq_ok]
    constructor
    · rintro ⟨⟨v, d₁⟩, hv, h⟩
      obtain ⟨⟨vs, d₂⟩, hvs, h⟩ := seq_eq_ok.mp h
      cases h
      obtain ⟨hfit, hread⟩ := (hc.decode _ _ _).mp hv
      obtain ⟨hlen, hall, hreads⟩ := ih.mp hvs
      exact ⟨congrArg (· + 1) hlen, forall_mem_cons.mpr ⟨hfit, hall⟩,
        reads_append.mpr ⟨d₁, hread, hreads⟩⟩
    · rintro ⟨hlen, hall, hreads⟩
      cases vs with
      | nil => cases hlen
      | cons v vs =>
        obtain ⟨d₁, hread, hreads⟩ := reads_append.mp hreads
        obtain ⟨hfit, hall⟩ := forall_mem_cons.mp hall
        refine ⟨(v, d₁), (hc.decode _ _ _).mpr ⟨hfit, hread⟩, seq_eq_ok.mpr ⟨(vs, d'), ?_, rfl⟩⟩
        exact ih.mpr ⟨Nat.succ.inj hlen, hall, hreads⟩

theorem lawful_vec : Lawful (vec c) (fun vs => raw (leBytes 4 vs.length) ++ vs.flatMap spell)
      (fun vs => ∀ v ∈ vs, typed v)
      fun vs => vs.length ≤ CHANNEL_MAX_BYTES ∧ ∀ v ∈ vs, fits v where
  encode vs e e' h := by
    obtain ⟨e₁, hlen, h⟩ := seq_eq_ok.mp h
    obtain ⟨hle, happ⟩ := putLen_eq_ok hlen
    obtain ⟨hall, happ'⟩ := encodeAll_eq_ok hc h
    exact ⟨fun ht => ⟨hle, fun v hv => hall v hv (ht v hv)⟩, happ.trans happ'⟩
  decode d vs d' := by
    rw [vec, seq_eq_ok, reads_append]
    constructor
    · rintro ⟨⟨n, d₁⟩, hlen, h⟩
      obtain ⟨hle, hread⟩ := takeLen_eq_ok.mp hlen
      obtain ⟨rfl, hall, hreads⟩ := (decodeAll_eq_ok hc).mp h
      exact ⟨⟨hle, hall⟩, d₁, hread, hreads⟩
    · rintro ⟨⟨hle, hall⟩, d₁, hread, hreads⟩
      exact ⟨(_, d₁), takeLen_eq_ok.mpr ⟨hle, hread⟩, (decodeAll_eq_ok hc).mpr ⟨rfl, hall, hreads⟩⟩

omit hc in
theorem lawful_string : Lawful string (fun s => raw (leBytes 4 (utf8 s).length) ++ raw (utf8 s))
      (fun _ => True) fun s => (utf8 s).length ≤ CHANNEL_MAX_BYTES where
  encode s e e' h := by
    obtain ⟨e₁, hlen, h⟩ := seq_eq_ok.mp h
    cases h
    obtain ⟨hle, happ⟩ := putLen_eq_ok hlen
    exact ⟨fun _ => hle, happ.trans (appends_raw e₁ _)⟩
  decode d s d' := by
    rw [string, seq_eq_ok, reads_append]
    constructor
    · rintro ⟨⟨n, d₁⟩, hlen, h⟩
      obtain ⟨hle, hread⟩ := takeLen_eq_ok.mp hlen
      obtain ⟨⟨b, d₂⟩, hraw, htext⟩ := seq_eq_ok.mp h
      obtain ⟨rfl, hreads⟩ := takeRaw_eq_ok.mp hraw
      dsimp only at htext
      split at htext
      · rename_i hutf
        cases htext
        rw [utf8_of_fromUtf8 hutf]
        exact ⟨hle, d₁, hread, hreads⟩
      · cases htext
    · rintro ⟨hle, d₁, hread, hreads⟩
      refine ⟨(_, d₁), takeLen_eq_ok.mpr ⟨hle, hread⟩, ?_⟩
      refine seq_eq_ok.mpr ⟨(utf8 s, d'), takeRaw_eq_ok.mpr ⟨rfl, hreads⟩, ?_⟩
      dsimp only
      rw [fromUtf8_utf8]
      rfl

theorem lawful_option : Lawful (option c) (fun v => v.elim (raw [0]) fun v => raw [1] ++ spell v)
      (fun v => ∀ x, v = some x → typed x) fun v => ∀ x, v = some x → fits x where
  encode v e e' h := by
    cases v with
    | none =>
      cases h
      exact ⟨nofun, appends_raw e _⟩
    | some v =>
      obtain ⟨hfit, happ⟩ := hc.encode _ _ _ h
      refine ⟨?_, (appends_raw e _).trans happ⟩
      rintro ht _ ⟨⟩
      exact hfit (ht v rfl)
  decode d v d' := by
    rw [option, seq_eq_ok]
    constructor
    · rintro ⟨⟨b, d₁⟩, hraw, h⟩
      obtain ⟨-, hread⟩ := takeRaw_eq_ok.mp hraw
      dsimp only at h
      split at h
      · cases h
        exact ⟨nofun, hread⟩
      · obtain ⟨⟨v, d₂⟩, hv, h⟩ := seq_eq_ok.mp h
        cases h
        obtain ⟨hfit, hreads⟩ := (hc.decode _ _ _).mp hv
        refine ⟨?_, reads_append.mpr ⟨d₁, hread, hreads⟩⟩
        rintro _ ⟨⟩
        exact hfit
      · cases h
    · rintro ⟨hfit, hreads⟩
      cases v with
      | none => exact ⟨([0], d'), takeRaw_eq_ok.mpr ⟨rfl, hreads⟩, rfl⟩
      | some v =>
        obtain ⟨d₁, hread, hreads⟩ := reads_append.mp hreads
        refine ⟨([1], d₁), takeRaw_eq_ok.mpr ⟨rfl, hread⟩, seq_eq_ok.mpr ⟨(v, d'), ?_, rfl⟩⟩
        exact (hc.decode _ _ _).mpr ⟨hfit v rfl, hreads⟩

theorem lawful_pair (hc' : Lawful c' spell' typed' fits') :
    Lawful (pair c c') (fun v => spell v.1 ++ spell' v.2) (fun v => typed v.1 ∧ typed' v.2)
      fun v => fits v.1 ∧ fits' v.2 where
  encode v e e' h := by
    obtain ⟨e₁, h, h'⟩ := seq_eq_ok.mp h
    obtain ⟨hfit, happ⟩ := hc.encode _ _ _ h
    obtain ⟨hfit', happ'⟩ := hc'.encode _ _ _ h'
    exact ⟨fun ht => ⟨hfit ht.1, hfit' ht.2⟩, happ.trans happ'⟩
  decode d v d' := by
    rw [pair, seq_eq_ok, reads_append]
    constructor
    · rintro ⟨⟨a, d₁⟩, ha, h⟩
      obtain ⟨⟨b, d₂⟩, hb, h⟩ := seq_eq_ok.mp h
      cases h
      obtain ⟨hfit, hread⟩ := (hc.decode _ _ _).mp ha
      obtain ⟨hfit', hreads⟩ := (hc'.decode _ _ _).mp hb
      exact ⟨⟨hfit, hfit'⟩, d₁, hread, hreads⟩
    · rintro ⟨⟨hfit, hfit'⟩, d₁, hread, hreads⟩
      exact ⟨(v.1, d₁), (hc.decode _ _ _).mpr ⟨hfit, hread⟩,
        seq_eq_ok.mpr ⟨(v.2, d'), (hc'.decode _ _ _).mpr ⟨hfit', hreads⟩, rfl⟩⟩

end Implementations

theorem lawful_handle :
    Lawful handle (fun h => [.handle h]) (fun _ => True) fun _ => True where
  encode _ _ _ h := ⟨id, putHandle_eq_ok h⟩
  decode _ _ _ := by
    rw [true_and]
    exact takeHandle_eq_ok

theorem lawful_typedHandle (kind : ObjectType) :
    Lawful (typedHandle kind) (fun h => [.handle h]) (·.info = some kind) (·.info = some kind) where
  encode _ _ _ h := ⟨id, putHandle_eq_ok h⟩
  decode d v d' := by
    rw [typedHandle, seq_eq_ok]
    constructor
    · rintro ⟨⟨h, d₁⟩, htake, hcheck⟩
      dsimp only at hcheck
      split at hcheck <;> cases hcheck
      exact ⟨‹_›, takeHandle_eq_ok.mp htake⟩
    · rintro ⟨hkind, hreads⟩
      refine ⟨(v, d'), takeHandle_eq_ok.mpr hreads, ?_⟩
      dsimp only
      rw [if_pos hkind]
      rfl

def Ty.spell : (t : Ty) → t.Val → List Piece
  | .int w, v => raw (leBytes w v.val)
  | .bool, v => raw [boolByte v]
  | .unit, _ => []
  | .string, s => raw (leBytes 4 (utf8 s).length) ++ raw (utf8 s)
  | .vec t, vs => raw (leBytes 4 (List.length vs)) ++ List.flatMap t.spell vs
  | .option t, v => Option.elim v (raw [0]) fun v => raw [1] ++ t.spell v
  | .pair a b, v => a.spell v.1 ++ b.spell v.2
  | .handle, h | .channel, h | .memory, h => [.handle h]

/-- Every channel and every memory of a value names an object of its type. -/
def Ty.Typed : (t : Ty) → t.Val → Prop
  | .int _, _ | .bool, _ | .unit, _ | .string, _ | .handle, _ => True
  | .channel, h => Handle.info h = some .channel
  | .memory, h => Handle.info h = some .memory
  | .vec t, vs => ∀ v : t.Val, List.Mem v vs → t.Typed v
  | .option t, v => ∀ x, v = some x → t.Typed x
  | .pair a b, v => a.Typed v.1 ∧ b.Typed v.2

/-- A typed value whose lengths and counts are ones a message could hold. -/
def Ty.Fits : (t : Ty) → t.Val → Prop
  | .int _, _ | .bool, _ | .unit, _ | .handle, _ => True
  | .channel, h => Handle.info h = some .channel
  | .memory, h => Handle.info h = some .memory
  | .string, s => (utf8 s).length ≤ CHANNEL_MAX_BYTES
  | .vec t, vs => List.length vs ≤ CHANNEL_MAX_BYTES ∧ ∀ v : t.Val, List.Mem v vs → t.Fits v
  | .option t, v => ∀ x, v = some x → t.Fits x
  | .pair a b, v => a.Fits v.1 ∧ b.Fits v.2

theorem lawful (t : Ty) : Lawful t.wire t.spell t.Typed t.Fits := by
  induction t with
  | int w => exact lawful_integer w
  | bool => exact lawful_bool
  | unit => exact lawful_unit
  | string => exact lawful_string
  | vec t ih => exact lawful_vec ih
  | option t ih => exact lawful_option ih
  | pair a b iha ihb => exact lawful_pair iha ihb
  | handle => exact lawful_handle
  | channel => exact lawful_typedHandle .channel
  | memory => exact lawful_typedHandle .memory

/-! ### What was appended is read back -/

/-- The handles among the pieces, in order. -/
def handlesOf (ps : List Piece) : List Handle :=
  ps.filterMap fun p => match p with
    | .byte _ => none
    | .handle h => some h

theorem push_handles (e : Encoder) (ps : List Piece) :
    (e.push ps).handles = e.handles ++ handlesOf ps := by
  induction ps generalizing e with
  | nil => exact (append_nil _).symm
  | cons p ps ih =>
    cases p with
    | byte b => exact ih _
    | handle h => exact (ih _).trans (append_assoc _ _ _)

/-- Pieces appended to a message whose handles were all taken are read back, before any
bytes and any handles. -/
theorem reads_push (e : Encoder) (ps : List Piece)
    (hmax : (e.push ps).handles.length ≤ CHANNEL_MAX_HANDLES) :
    ∃ b, (e.push ps).bytes = e.bytes ++ b ∧ ∀ rest more,
      Reads ps ⟨b ++ rest, List.replicate e.handles.length none ++ (handlesOf ps).map some ++ more⟩
        ⟨rest, List.replicate (e.push ps).handles.length none ++ more⟩ := by
  induction ps generalizing e with
  | nil =>
    refine ⟨[], (append_nil _).symm, fun rest more => ?_⟩
    rw [handlesOf, filterMap_nil, map_nil, append_nil]
    rfl
  | cons p ps ih =>
    cases p with
    | byte c =>
      obtain ⟨b, hb, hreads⟩ := ih ⟨e.bytes ++ [c], e.handles⟩ hmax
      refine ⟨c :: b, hb.trans (append_assoc _ _ _), fun rest more => ?_⟩
      exact ⟨b ++ rest, rfl, hreads rest more⟩
    | handle h =>
      obtain ⟨b, hb, hreads⟩ :=
        ih ⟨e.bytes ++ [UInt8.ofNat e.handles.length], e.handles ++ [h]⟩ hmax
      refine ⟨UInt8.ofNat e.handles.length :: b, hb.trans (append_assoc _ _ _), fun rest more => ?_⟩
      have hlen : e.handles.length < 256 := by
        have := hmax
        rw [push_handles, length_append] at this
        have hmax' : CHANNEL_MAX_HANDLES = 64 := rfl
        omega
      have hidx : (UInt8.ofNat e.handles.length).toNat = e.handles.length :=
        UInt8.toNat_ofNat_of_lt' hlen
      have hsplit : List.replicate e.handles.length none ++
          (handlesOf (.handle h :: ps)).map some ++
          more = List.replicate e.handles.length none ++
            some h :: ((handlesOf ps).map some ++ more) := by
        rw [append_assoc]
        rfl
      rw [hsplit]
      refine ⟨UInt8.ofNat e.handles.length, b ++ rest, rfl, ?_, ?_⟩
      · rw [hidx, getElem?_append_right (by rw [length_replicate]), length_replicate, Nat.sub_self]
        rfl
      have := hreads rest more
      rw [length_append, length_singleton, replicate_succ', append_assoc, append_assoc] at this
      rw [hidx, set_append_right _ _ (by rw [length_replicate]), length_replicate, Nat.sub_self]
      exact this

/-! ### What a body determines -/

/-- Pieces with these indexes at the places of the handles. -/
def render : List Piece → List UInt8 → Bytes
  | [], _ => []
  | .byte c :: ps, idxs => c :: render ps idxs
  | .handle _ :: ps, i :: idxs => i :: render ps idxs
  | .handle _ :: ps, [] => render ps []

/-- A body that was read is its pieces with some indexes: each names the handle in its
place, none is used twice, and each that was not used is still there. -/
theorem reads_render (h : Reads ps d d') :
    ∃ idxs : List UInt8, d.bytes = render ps idxs ++ d'.bytes ∧ (idxs.map UInt8.toNat).Nodup ∧
      idxs.map (fun i => d.handles[i.toNat]?) = (handlesOf ps).map (fun x => some (some x)) ∧
      ∀ j ∉ idxs.map UInt8.toNat, d'.handles[j]? = d.handles[j]? := by
  induction ps generalizing d with
  | nil =>
    cases h
    exact ⟨[], rfl, nodup_nil, rfl, fun _ _ => rfl⟩
  | cons p ps ih =>
    cases p with
    | byte c =>
      obtain ⟨b, hb, h⟩ := h
      obtain ⟨idxs, hbytes, hnd, hhandles, hrest⟩ := ih h
      exact ⟨idxs, hb.trans (congrArg (c :: ·) hbytes), hnd, hhandles, hrest⟩
    | handle x =>
      obtain ⟨i, b, hb, hi, h⟩ := h
      obtain ⟨idxs, hbytes, hnd, hhandles, hrest⟩ := ih h
      -- An index read later names a handle still there, so not this one.
      have hnot : ∀ j ∈ idxs, j.toNat ≠ i.toNat := by
        intro j hj heq
        have hmem : (d.handles.set i.toNat none)[j.toNat]? ∈
            (handlesOf ps).map fun x => some (some x) := hhandles ▸ mem_map_of_mem hj
        obtain ⟨y, -, hy⟩ := mem_map.mp hmem
        rw [heq, List.getElem?_set_self (lt_of_getElem? hi)] at hy
        cases hy
      refine ⟨i :: idxs, hb.trans (congrArg (i :: ·) hbytes), ?_, ?_, ?_⟩
      · refine nodup_cons.mpr ⟨fun hmem => ?_, hnd⟩
        obtain ⟨j, hj, hji⟩ := mem_map.mp hmem
        exact hnot j hj hji
      · refine congrArg₂ List.cons hi (.trans ?_ hhandles)
        refine map_congr_left fun j hj => ?_
        rw [getElem?_set_ne (hnot j hj).symm]
      · intro j hj
        rw [map_cons, mem_cons, not_or] at hj
        rw [hrest j hj.2, getElem?_set_ne (Ne.symm hj.1)]

/-! ### Frames -/

def HEADER : ℕ := 8

inductive Kind
  | hello | welcome | refuse | request | reply | failure | event | connect
deriving DecidableEq

def Kind.all : List Kind :=
  [.hello, .welcome, .refuse, .request, .reply, .failure, .event, .connect]

def Kind.byte (k : Kind) : UInt8 := UInt8.ofNat (Kind.all.idxOf k + 1)

def Kind.fromByte (b : UInt8) : Option Kind := Kind.all.find? (·.byte == b)

inductive Transport
  | tooLarge
  | malformed
deriving DecidableEq

/-- A message on a channel: the kernel moves the handles in order. -/
structure Message where
  bytes : Bytes
  handles : List Handle

structure Frame where
  kind : Kind
  ordinal : UInt16
  txid : UInt32
  body : Bytes
  handles : List Handle

/-- The message `send` writes for a body; nothing is sent over the bound. -/
def send (kind : Kind) (ordinal : UInt16) (txid : UInt32) (body : Encoder) :
    Except Transport Message :=
  if CHANNEL_MAX_BYTES < HEADER + body.bytes.length ∨ CHANNEL_MAX_HANDLES < body.handles.length
  then .error .tooLarge
  else .ok ⟨[kind.byte, 0] ++ leBytes 2 ordinal.toNat ++ leBytes 4 txid.toNat ++ body.bytes,
    body.handles⟩

/-- The frame `recv` makes of the next message. -/
def recv (m : Message) : Except Transport Frame :=
  if m.bytes.length < HEADER ∨ m.bytes.getD 1 0 ≠ 0 then .error .malformed
  else
    match Kind.fromByte (m.bytes.getD 0 0) with
    | none => .error .malformed
    | some kind => .ok {
        kind := kind
        ordinal := UInt16.ofNat (leNat ((m.bytes.drop 2).take 2))
        txid := UInt32.ofNat (leNat ((m.bytes.drop 4).take 4))
        body := m.bytes.drop HEADER
        handles := m.handles }

theorem recv_send {kind : Kind} {ordinal : UInt16} {txid : UInt32} {m : Message}
    (h : send kind ordinal txid e = .ok m) :
    recv m = .ok ⟨kind, ordinal, txid, e.bytes, e.handles⟩ := by
  rw [send] at h
  split at h
  · cases h
  cases h
  have hkind : Kind.fromByte kind.byte = some kind := by cases kind <;> decide
  have hordinal : UInt16.ofNat (leNat (leBytes 2 ordinal.toNat)) = ordinal := by
    have hlt : ordinal.toNat < 256 ^ 2 := ordinal.toNat_lt
    rw [leNat_leBytes, Nat.mod_eq_of_lt hlt, UInt16.ofNat_toNat]
  have hdrop₂ : ([kind.byte, 0] ++ leBytes 2 ordinal.toNat ++ leBytes 4 txid.toNat ++
      e.bytes).drop 2 = leBytes 2 ordinal.toNat ++ (leBytes 4 txid.toNat ++ e.bytes) := by
    rfl
  have hdrop₄ : ([kind.byte, 0] ++ leBytes 2 ordinal.toNat ++ leBytes 4 txid.toNat ++
      e.bytes).drop 4 = leBytes 4 txid.toNat ++ e.bytes := by
    rw [← drop_drop (i := 2) (j := 2), hdrop₂, drop_left' (length_leBytes 2 _)]
  have hdrop₈ : ([kind.byte, 0] ++ leBytes 2 ordinal.toNat ++ leBytes 4 txid.toNat ++
      e.bytes).drop HEADER = e.bytes := by
    rw [show HEADER = 4 + 4 from rfl, ← drop_drop, hdrop₄,
      drop_left' (length_leBytes 4 _)]
  rw [recv, if_neg, hdrop₂, hdrop₄, hdrop₈, take_left' (length_leBytes 2 _),
    take_left' (length_leBytes 4 _), hordinal, ofNat_leNat_leBytes_u32]
  · show (match Kind.fromByte kind.byte with
      | none => Except.error Transport.malformed
      | some k => Except.ok (Frame.mk k ordinal txid e.bytes e.handles)) = _
    rw [hkind]
  · rw [not_or]
    refine ⟨?_, fun hne => hne rfl⟩
    rw [length_append, length_append]
    exact Nat.not_lt.mpr (Nat.le_add_right _ _)

/-- A whole body: the value, and nothing left over. -/
def decodeBody (t : Ty) (body : Bytes) (handles : List Handle) : Except WireError t.Val := do
  let (v, d) ← t.wire.decode ⟨body, handles.map some⟩
  d.finish
  pure v

theorem decodeBody_eq_ok {v : t.Val} :
    decodeBody t body handles = .ok v ↔ t.Fits v ∧ ∃ d : Decoder, d.bytes = [] ∧
      (∀ h ∈ d.handles, h = none) ∧ Reads (t.spell v) ⟨body, handles.map some⟩ d := by
  have hnone : ∀ d : Decoder, ¬ (d.bytes ≠ [] ∨ d.handles.any Option.isSome) ↔
      d.bytes = [] ∧ ∀ h ∈ d.handles, h = none := by
    intro d
    rw [not_or, Bool.not_eq_true, any_eq_false]
    simp only [Option.isSome_iff_ne_none, ne_eq, not_not]
  rw [decodeBody, seq_eq_ok]
  constructor
  · rintro ⟨⟨v', d⟩, hdecode, h⟩
    obtain ⟨_, hfinish, h⟩ := seq_eq_ok.mp h
    cases h
    obtain ⟨hbytes, hhandles⟩ := (hnone d).mp (rejectIf_eq_ok.mp hfinish)
    obtain ⟨hfit, hreads⟩ := ((lawful t).decode _ _ _).mp hdecode
    exact ⟨hfit, d, hbytes, hhandles, hreads⟩
  · rintro ⟨hfit, d, hbytes, hhandles, hreads⟩
    refine ⟨(v, d), ((lawful t).decode _ _ _).mpr ⟨hfit, hreads⟩, seq_eq_ok.mpr ⟨(), ?_, rfl⟩⟩
    exact rejectIf_eq_ok.mpr ((hnone d).mpr ⟨hbytes, hhandles⟩)

/-- A typed value that was encoded is decoded, before any bytes and handles. -/
theorem decode_encode {v : t.Val} (ht : t.Typed v) (h : t.wire.encode v .new = .ok e)
    (rest : Bytes) (more : List (Option Handle)) :
    t.wire.decode ⟨e.bytes ++ rest, e.handles.map some ++ more⟩ =
      .ok (v, ⟨rest, List.replicate e.handles.length none ++ more⟩) := by
  obtain ⟨hfit, rfl, hmax⟩ := (lawful t).encode v .new e h
  obtain ⟨b, hb, hreads⟩ := reads_push .new (t.spell v) (hmax (Nat.zero_le _))
  refine ((lawful t).decode _ _ _).mpr ⟨hfit ht, ?_⟩
  have := hreads rest more
  rw [push_handles] at this
  rw [hb, push_handles]
  exact this

/-- The indexes of a complete body are those of its handles, each once. -/
theorem indexes_perm {v : t.Val} (h : decodeBody t body handles = .ok v) :
    ∃ idxs : List UInt8, body = render (t.spell v) idxs ∧
      (idxs.map UInt8.toNat).Perm (List.range handles.length) ∧
      idxs.map (fun i => handles[i.toNat]?) = (handlesOf (t.spell v)).map some := by
  obtain ⟨-, d, hbytes, hnone, hreads⟩ := decodeBody_eq_ok.mp h
  obtain ⟨idxs, hbody, hnd, hhandles, hrest⟩ := reads_render hreads
  have hnamed : idxs.map (fun i => handles[i.toNat]?) = (handlesOf (t.spell v)).map some := by
    have := congrArg (List.map Option.join) hhandles
    rw [map_map, map_map] at this
    refine .trans (map_congr_left fun i _ => ?_) this
    rw [Function.comp_apply, getElem?_map]
    cases handles[i.toNat]? <;> rfl
  refine ⟨idxs, by rw [hbytes, append_nil] at hbody; exact hbody, ?_, hnamed⟩
  refine (perm_ext_iff_of_nodup hnd nodup_range).mpr fun j => ?_
  rw [mem_range]
  constructor
  · intro hj
    obtain ⟨i, hi, rfl⟩ := mem_map.mp hj
    have hmem : handles[i.toNat]? ∈ (handlesOf (t.spell v)).map some := hnamed ▸ mem_map_of_mem hi
    obtain ⟨x, -, hx⟩ := mem_map.mp hmem
    exact lt_of_getElem? hx.symm
  · intro hj
    by_contra hnot
    have hleft := hrest j hnot
    rw [getElem?_map, getElem?_eq_getElem hj] at hleft
    cases hnone _ (mem_of_getElem? hleft)

/-- **A body means exactly one thing.**  For every type of the format: a value whose channels and
memories name objects of their type, once it was encoded and sent, is received and decoded as that
value, with nothing left over; it is decoded before any further bytes and handles, which are left;
and two bodies that decode completely to one value have the same bytes but for the indexes of the
handles, which are in both all the indexes of their list, each once, and are the same for the same
list of distinct handles. -/
theorem wire_exact (t : Ty) :
    (∀ v e kind ordinal txid m, t.Typed v → t.wire.encode v .new = .ok e →
      send kind ordinal txid e = .ok m →
      ∃ f, recv m = .ok f ∧ f.kind = kind ∧ f.ordinal = ordinal ∧ f.txid = txid ∧
        decodeBody t f.body f.handles = .ok v) ∧
    (∀ v e rest more, t.Typed v → t.wire.encode v .new = .ok e →
      t.wire.decode ⟨e.bytes ++ rest, e.handles.map some ++ more⟩ =
        .ok (v, ⟨rest, List.replicate e.handles.length none ++ more⟩)) ∧
    (∀ v b₁ b₂ h₁ h₂, decodeBody t b₁ h₁ = .ok v → decodeBody t b₂ h₂ = .ok v →
      ∃ i₁ i₂ : List UInt8, b₁ = render (t.spell v) i₁ ∧ b₂ = render (t.spell v) i₂ ∧
        (i₁.map UInt8.toNat).Perm (List.range h₁.length) ∧
        (i₂.map UInt8.toNat).Perm (List.range h₂.length) ∧
        h₁.length = h₂.length ∧ (h₁ = h₂ → h₁.Nodup → b₁ = b₂)) := by
  refine ⟨?_, fun v e rest more ht h => decode_encode ht h rest more, ?_⟩
  · intro v e kind ordinal txid m ht h hsend
    refine ⟨_, recv_send hsend, rfl, rfl, rfl, decodeBody_eq_ok.mpr ?_⟩
    have hdecode := decode_encode ht h [] []
    rw [append_nil, append_nil, append_nil] at hdecode
    obtain ⟨hfit, hreads⟩ := ((lawful t).decode _ _ _).mp hdecode
    exact ⟨hfit, _, rfl, fun _ hx => eq_of_mem_replicate hx, hreads⟩
  · intro v b₁ b₂ h₁ h₂ hd₁ hd₂
    obtain ⟨i₁, hb₁, hperm₁, hnamed₁⟩ := indexes_perm hd₁
    obtain ⟨i₂, hb₂, hperm₂, hnamed₂⟩ := indexes_perm hd₂
    refine ⟨i₁, i₂, hb₁, hb₂, hperm₁, hperm₂, ?_, ?_⟩
    · have hl₁ := hperm₁.length_eq
      have hl₂ := hperm₂.length_eq
      have hn₁ := congrArg List.length hnamed₁
      have hn₂ := congrArg List.length hnamed₂
      simp only [length_map, length_range] at hl₁ hl₂ hn₁ hn₂
      omega
    · rintro rfl hnd
      suffices i₁ = i₂ by rw [hb₁, hb₂, this]
      -- Equal names in a list of distinct handles are equal indexes.
      refine ext_getElem? fun k => ?_
      have hk := congrArg (·[k]?) (hnamed₁.trans hnamed₂.symm)
      rw [getElem?_map, getElem?_map] at hk
      rcases hx : i₁[k]? with - | x <;> rcases hy : i₂[k]? with - | y <;> rw [hx, hy] at hk
      · cases hk
      · cases hk
      · have hlt : x.toNat < h₁.length :=
          mem_range.mp (hperm₁.subset (mem_map_of_mem (mem_of_getElem? hx)))
        rw [UInt8.toNat_inj.mp ((getElem?_inj hlt hnd).mp (Option.some.inj hk))]

/-- A channel and one memory: what is sent is decoded again. -/
theorem wire_exact_reply : ∃ m f,
    send .reply 0 1 ⟨[0, 1, 0, 0, 0, 1], [⟨7, some .channel⟩, ⟨8, some .memory⟩]⟩ = .ok m ∧
    recv m = .ok f ∧ decodeBody (.pair .channel (.vec .memory)) f.body f.handles =
      .ok (⟨7, some .channel⟩, [⟨8, some .memory⟩]) := by
  have ht : Ty.Typed (.pair .channel (.vec .memory))
      (⟨7, some .channel⟩, [⟨8, some .memory⟩]) := by
    refine ⟨rfl, fun h hmem => ?_⟩
    cases mem_singleton.mp hmem
    rfl
  obtain ⟨m, hm⟩ : ∃ m, send .reply 0 1 ⟨[0, 1, 0, 0, 0, 1],
      [⟨7, some .channel⟩, ⟨8, some .memory⟩]⟩ = .ok m := ⟨_, rfl⟩
  obtain ⟨f, hf, -, -, -, hdecode⟩ := (wire_exact _).1 _ _ .reply 0 1 m ht rfl hm
  exact ⟨m, f, hm, hf, hdecode⟩

/-- A channel that wraps the handle of a memory is encoded, sent and received, and refused where it
is decoded. -/
theorem channel_of_memory_refused : let h : Handle := ⟨8, some .memory⟩
    Ty.channel.wire.encode h .new = .ok ⟨[0], [h]⟩ ∧ ∃ m f, send .reply 0 1 ⟨[0], [h]⟩ = .ok m ∧
      recv m = .ok f ∧ decodeBody .channel f.body f.handles = .error .handle := by
  intro h
  obtain ⟨m, hm⟩ : ∃ m, send .reply 0 1 ⟨[0], [h]⟩ = .ok m := ⟨_, rfl⟩
  exact ⟨rfl, m, _, hm, recv_send hm, rfl⟩

end Moruna.Svc
