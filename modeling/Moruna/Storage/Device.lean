/-
Moruna/Storage/Device.lean

The block device a volume lies on, as its owner sees it.

A `Device` is the medium, the pieces of the writes issued since the last flush and the
answers the driver and the kernel are going to give: each request and each memory
reservation takes the next one.  A failed write may have issued any of its pieces, and a
loss of power is a request that fails and is followed by no other, so the ends of all
failing runs are the states in which power can be lost.

The requests are cut into chunks of at most `Info.maxBytes` by the same loop on three
paths: the blocking calls and the original-completion calls reserve memory for every
chunk, the maintenance path has reserved it before.
-/
import Moruna.Lib.Exec
import Moruna.Lib.Disk
import Moruna.Lib.Merkle

namespace Moruna

open List

inductive Refusal
  | denied
  | missing
  | conflict
  | unavailable
  | unsupported
  | capacity
  | integrity
  | invalid
  | busy
  deriving DecidableEq

/-- Validated geometry of the driver. -/
structure Info where
  sectorSize : ℕ
  maxSectors : ℕ
  sectors : ℕ
  min : 512 ≤ sectorSize
  pow : ∃ k, sectorSize = 2 ^ k
  maxPos : 0 < maxSectors
  sectorsPos : 0 < sectors
  fits : sectors * sectorSize < 2 ^ 64

def Info.maxBytes (info : Info) : ℕ := info.maxSectors * info.sectorSize

theorem Info.maxBytes_pos (info : Info) : 0 < info.maxBytes :=
  mul_pos info.maxPos (by have := info.min; omega)

/-- What becomes of a request or a reservation; a failed write keeps the marked pieces. -/
inductive Answer
  | done
  | failed (kept : List Bool)

structure Device where
  info : Info
  /-- Bytes that reach the medium together. -/
  block : ℕ
  durable : Disk
  pending : List Piece
  /-- Another view of the same controller has an operation in flight. -/
  busy : Bool
  answers : ℕ → Answer

abbrev DeviceM := EStateM Refusal Device

/-- How a request reaches the driver. -/
inductive Path
  | blocking
  | original
  | reserved
  deriving DecidableEq

/-- A reservation of memory comes before every chunk. -/
def Path.reserves : Path → Bool
  | .reserved => false
  | _ => true

/-- The refusal of a request that is not made of whole sectors. -/
def Path.misaligned : Path → Refusal
  | .reserved => .unavailable
  | _ => .invalid

namespace Device

/-- What a read sees: the medium and the pending pieces over it. -/
def visible (d : Device) : Disk := applyPieces d.pending d.durable

def capacity (d : Device) : UInt64 := UInt64.ofNat (d.info.sectors * d.info.sectorSize)

theorem toNat_capacity (d : Device) : d.capacity.toNat = d.info.sectors * d.info.sectorSize :=
  UInt64.toNat_ofNat_of_lt' d.info.fits

def answer : DeviceM Answer :=
  modifyGet fun d => (d.answers 0, { d with answers := fun n => d.answers (n + 1) })

/-- A step that takes an answer and changes nothing, such as a reservation. -/
def attempt (refusal : Refusal) : DeviceM Unit := do
  match ← answer with
  | .done => pure ()
  | .failed _ => throw refusal

/-- The bounds check of a request, and on the blocking path the check that the controller
is idle. -/
def admitAt (path : Path) (off len : ℕ) : DeviceM Unit := do
  let d ← get
  let count := len / d.info.sectorSize
  if count = 0 ∨ d.info.maxSectors < count ∨ d.info.sectors < off / d.info.sectorSize + count then
    throw .unavailable
  else if path = .blocking ∧ d.busy = true then throw .busy
  else pure ()

/-- The marked pieces. -/
def keep (kept : List Bool) (ps : List Piece) : List Piece := ((kept.zip ps).filter (·.1)).map (·.2)

def submitWrite (path : Path) (off : ℕ) (b : Bytes) : DeviceM Unit := do
  admitAt path off b.length
  match ← answer with
  | .done => modify fun d => { d with pending := d.pending ++ cut d.block off b }
  | .failed kept => do
    modify fun d => { d with pending := d.pending ++ keep kept (cut d.block off b) }
    throw .unavailable

def submitRead (path : Path) (off len : ℕ) : DeviceM Bytes := do
  admitAt path off len
  match ← answer with
  | .done => do
    let d ← get
    pure (d.visible.read off len)
  | .failed _ => throw .unavailable

def flush (path : Path) : DeviceM Unit := do
  let d ← get
  if path = .blocking ∧ d.busy = true then throw .busy
  else do
    match ← answer with
    | .done => modify fun d => { d with durable := d.visible, pending := [] }
    | .failed _ => throw .unavailable

/-- The memory of one chunk. -/
def reserveChunk (path : Path) : DeviceM Unit :=
  if path.reserves then attempt .capacity else pure ()

def writeChunk (path : Path) (off : ℕ) (chunk : Bytes) : DeviceM Unit := do
  reserveChunk path
  submitWrite path off chunk

def writeChunks (path : Path) (max : ℕ) : (off : ℕ) → List Bytes → DeviceM Unit
  | _, [] => pure ()
  | off, chunk :: rest => do
    writeChunk path off chunk
    writeChunks path max (off + max) rest

def write (path : Path) (off : ℕ) (b : Bytes) : DeviceM Unit := do
  let d ← get
  if off % d.info.sectorSize ≠ 0 ∨ b.length % d.info.sectorSize ≠ 0 then throw path.misaligned
  else writeChunks path d.info.maxBytes off (chunks d.info.maxBytes b)

/-- Read whole sectors by one request. -/
def readBlock (path : Path) (off len : ℕ) : DeviceM Bytes := do
  let d ← get
  if off % d.info.sectorSize ≠ 0 ∨ len % d.info.sectorSize ≠ 0 then throw path.misaligned
  else do
    reserveChunk path
    submitRead path off len

def readChunks (path : Path) (max : ℕ) : (chunks off len : ℕ) → DeviceM Bytes
  | 0, _, _ => pure []
  | chunks + 1, off, len => do
    let chunk ← readBlock path off (min len max)
    let rest ← readChunks path max chunks (off + max) (len - max)
    pure (chunk ++ rest)

def read (path : Path) (off len : ℕ) : DeviceM Bytes := do
  let d ← get
  readChunks path d.info.maxBytes (ceilDiv len d.info.maxBytes) off len

/-- Read one page.  Only the maintenance path cuts it into chunks. -/
def readPage (path : Path) (off len : ℕ) : DeviceM Bytes :=
  if path = .reserved then read path off len else readBlock path off len

/-! ### Between two flushes -/

/-- The medium is `base` and every pending piece has the property `S`. -/
structure Held (info : Info) (block : ℕ) (base : Disk) (S : Piece → Prop) (d : Device) : Prop where
  info : d.info = info
  block : d.block = block
  durable : d.durable = base
  pending : ∀ p ∈ d.pending, S p

/-- Nothing is pending over the medium `img`. -/
structure Flushed (info : Info) (block : ℕ) (img : Disk) (d : Device) : Prop where
  info : d.info = info
  block : d.block = block
  durable : d.durable = img
  pending : d.pending = []

section Specs

variable {info : Info} {block : ℕ} {base img : Disk} {S T : Piece → Prop} {path : Path} {d : Device}

theorem Flushed.held (h : Flushed info block img d) : Held info block img S d :=
  ⟨h.info, h.block, h.durable, fun _ hp => absurd (h.pending ▸ hp) not_mem_nil⟩

theorem Flushed.visible_eq (h : Flushed info block img d) : d.visible = img := by
  rw [visible, h.pending, h.durable]
  rfl

theorem Flushed.answers (h : Flushed info block img d) (f : ℕ → Answer) :
    Flushed info block img { d with answers := f } :=
  ⟨h.info, h.block, h.durable, h.pending⟩

variable {ps : List Piece} {p : Piece} {R : ℕ → Prop}

theorem Held.append (h : Held info block base S d)
    (hps : ∀ p ∈ ps, S p) : Held info block base S { d with pending := d.pending ++ ps } := by
  refine ⟨h.info, h.block, h.durable, fun p hp => ?_⟩
  rcases mem_append.mp hp with hp | hp
  · exact h.pending p hp
  · exact hps p hp

theorem Held.answers (h : Held info block base S d) (f : ℕ → Answer) :
    Held info block base S { d with answers := f } :=
  ⟨h.info, h.block, h.durable, h.pending⟩

theorem keep_subset {kept : List Bool} (hp : p ∈ keep kept ps) :
    p ∈ ps := by
  obtain ⟨x, hx, rfl⟩ := mem_map.mp hp
  exact (of_mem_zip (mem_of_mem_filter hx)).2

theorem visible_append (d : Device) (off : ℕ) (b : Bytes) :
    visible { d with pending := d.pending ++ cut d.block off b } = d.visible.write off b := by
  rw [visible, applyPieces_append, applyPieces_cut]
  rfl

variable {P : Device → Prop}

variable (hP : ∀ d f, P d → P { d with answers := f })

include hP

/-- A step that only takes an answer keeps what does not depend on the answers. -/
theorem attempt_spec (refusal : Refusal) :
    Triple P (attempt refusal) (fun _ => P) (fun e d => e = refusal ∧ P d) := by
  refine .bind (Q := fun _ => P) (fun d hd => hP d _ hd) fun a => ?_
  cases a with
  | done => exact .skip
  | failed kept => exact .throw fun _ h => ⟨rfl, h⟩

omit hP in
theorem admit_spec (off len : ℕ) : Stable P (admitAt path off len) := by
  refine .look fun d _ => ?_
  refine .ite (fun _ => .throw fun _ h => h) fun _ => ?_
  exact .ite (fun _ => .throw fun _ h => h) fun _ => .skip

theorem reserveChunk_spec :
    Triple P (reserveChunk path) (fun _ => P) (fun e d => e = .capacity ∧ P d) :=
  .ite (fun _ => attempt_spec hP _) fun _ => .skip

omit hP

/-- `x` writes `b` at `off`: what is visible has it, and every pending piece has the
property `S`, also when it fails. -/
abbrev Writes (info : Info) (block : ℕ) (base img : Disk) (S : Piece → Prop) (off : ℕ) (b : Bytes)
    (x : DeviceM Unit) : Prop :=
  Triple (fun d => Held info block base S d ∧ d.visible = img) x
    (fun _ d => Held info block base S d ∧ d.visible = img.write off b)
    (fun _ d => Held info block base S d)

variable {off : ℕ} {b : Bytes}

theorem submitWrite_spec (hS : ∀ p ∈ cut block off b, S p) :
    Writes info block base img S off b (submitWrite path off b) := by
  refine .bind ((admit_spec off b.length).error fun _ _ h => h.1) fun _ => ?_
  refine .bind (Q := fun _ d => Held info block base S d ∧ d.visible = img)
    (fun d hd => ⟨hd.1.answers _, hd.2⟩) fun a => ?_
  cases a with
  | done =>
    refine .update fun d hd => ⟨hd.1.append ?_, ?_⟩
    · rw [hd.1.block]
      exact hS
    · rw [visible_append, hd.2]
  | failed kept =>
    refine .bind (Q := fun _ d => Held info block base S d) (.update fun d hd => ?_)
      fun _ => .throw fun _ h => h
    refine hd.1.append fun p hp => ?_
    rw [hd.1.block] at hp
    exact hS p (keep_subset hp)

theorem writeChunk_spec (hS : ∀ p ∈ cut block off b, S p) :
    Writes info block base img S off b (writeChunk path off b) :=
  .bind ((reserveChunk_spec fun _ f hd => ⟨.answers hd.1 f, hd.2⟩).error
    fun _ _ h => h.2.1) fun _ => submitWrite_spec hS

theorem writeChunks_spec (hmax : 0 < info.maxBytes)
    (hS : ∀ i c, (chunks info.maxBytes b)[i]? = some c →
      ∀ p ∈ cut block (off + i * info.maxBytes) c, S p) :
    Writes info block base img S off b
      (writeChunks path info.maxBytes off (chunks info.maxBytes b)) := by
  induction h : b.length using Nat.strong_induction_on generalizing off b img with
  | _ n ih =>
    by_cases hb : b = []
    · subst hb
      rw [chunks_nil hmax]
      exact .pure fun d hd => ⟨hd.1, by rw [hd.2, Disk.write_nil]⟩
    have hpos := length_pos_of_ne_nil hb
    rw [chunks_cons hmax hb] at hS ⊢
    have hfirst := hS 0 _ rfl
    rw [zero_mul] at hfirst
    refine .bind (writeChunk_spec hfirst) fun _ => ?_
    have hrest := @ih (b.drop info.maxBytes).length (by rw [length_drop]; omega)
      (img.write off (b.take info.maxBytes)) (off + info.maxBytes) (b.drop info.maxBytes)
      (fun i c hc p hp => hS (i + 1) c hc p (by
        rw [Nat.succ_mul, Nat.add_comm (i * _), ← Nat.add_assoc]
        exact hp)) rfl
    refine hrest.post fun _ d hd => ⟨hd.1, ?_⟩
    rw [hd.2]
    conv_rhs => rw [← take_append_drop info.maxBytes b, Disk.write_append]
    rcases lt_or_ge b.length info.maxBytes with hlt | hge
    · rw [drop_of_length_le (by omega), Disk.write_nil, Disk.write_nil]
    · rw [length_take, min_eq_left hge]

/-- **A write shows its bytes**, and its pieces have the property all pieces of its chunks
have. -/
theorem write_spec (hS : ∀ i c, (chunks info.maxBytes b)[i]? = some c →
      ∀ p ∈ cut block (off + i * info.maxBytes) c, S p) :
    Writes info block base img S off b (write path off b) := by
  refine .look fun d₀ hd => ?_
  have hinfo := hd.1.info
  rw [hinfo]
  exact .ite (fun _ => .throw fun _ h => h.1)
    fun _ => writeChunks_spec info.maxBytes_pos hS

theorem chunk_inside {m off : ℕ} (hR : ∀ i, off ≤ i → i < off + b.length → R i) {k : ℕ} {c : Bytes}
    (hc : (chunks m b)[k]? = some c) (hp : p ∈ cut block (off + k * m) c) :
    Inside R p := by
  obtain ⟨hk, -⟩ := List.getElem?_eq_some_iff.mp hc
  rw [length_chunks] at hk
  have he : c = (b.drop (k * m)).take m := Option.some.inj (hc.symm.trans (chunks_getElem? hk))
  refine cut_inside (fun i h1 h2 => hR i (by omega) ?_) hp
  rw [he, List.length_take, List.length_drop] at h2
  omega

theorem write_region_spec (hR : ∀ i, off ≤ i → i < off + b.length → R i) :
    Writes info block base img (Inside R) off b (write path off b) :=
  write_spec fun _ _ hc _ hp => chunk_inside hR hc hp

theorem write_seal_spec (hoff : off % block = 0) (hblock : 0 < block)
    (hmax : block ≤ info.maxBytes) (hz : ∀ x ∈ b.drop block, x = 0) :
    Writes info block base img (Seals block off b) off b (write path off b) := by
  refine write_spec fun k c hc p hp => ?_
  obtain ⟨hk, -⟩ := List.getElem?_eq_some_iff.mp hc
  rw [length_chunks] at hk
  obtain rfl := Option.some.inj ((chunks_getElem? hk).symm.trans hc)
  cases k with
  | zero =>
    rw [zero_mul] at hp
    exact cut_take_seals hoff hblock hmax hz hp
  | succ k =>
    refine cut_drop_seals ?_ hz hp
    rw [Nat.succ_mul]
    omega

/-- **A flush makes durable what is visible.** -/
theorem flush_spec : Triple (fun d => Held info block base S d ∧ d.visible = img) (flush path)
      (fun _ => Flushed info block img) (fun _ => Held info block base S) := by
  refine .look fun d₀ _ => ?_
  refine .ite (fun _ => .throw fun _ h => h.1) fun _ => ?_
  refine .bind (Q := fun _ d => Held info block base S d ∧ d.visible = img)
    (fun d hd => ⟨hd.1.answers _, hd.2⟩) fun a => ?_
  cases a with
  | done => exact .update fun d hd => ⟨hd.1.info, hd.1.block, hd.2, rfl⟩
  | failed kept => exact .throw fun _ h => h.1

include hP

theorem readBlock_spec (hv : ∀ d, P d → d.visible = img) (off len : ℕ) :
    Triple P (readBlock path off len) (fun b d => P d ∧ b = img.read off len) (fun _ => P) := by
  refine .look fun d₀ _ => ?_
  refine .ite (fun _ => .throw fun _ h => h) fun _ => ?_
  refine .bind ((reserveChunk_spec hP).error fun _ _ h => h.2) fun _ => ?_
  refine .bind (admit_spec off len) fun _ => ?_
  refine .bind (Q := fun _ => P) (fun d hd => hP d _ hd) fun a => ?_
  cases a with
  | done => exact .look fun d₁ h₁ => .pure fun d hd => ⟨hd, by rw [hv d₁ h₁]⟩
  | failed kept => exact .throw fun _ h => h

omit hP in
/-- A request that was admitted is not too large. -/
theorem readBlock_max (off len : ℕ) :
    Triple (fun d => d.info = info) (readBlock path off len) (fun _ _ => len ≤ info.maxBytes)
      (fun _ _ => True) := by
  refine .look fun d₀ h₀ => ?_
  refine .ite (fun _ => .throw fun _ _ => trivial) fun haligned => ?_
  refine .bind ((reserveChunk_spec fun _ _ h => h).error fun _ _ _ => trivial) fun _ => ?_
  refine .bind (Q := fun _ _ => len ≤ info.maxBytes) ?_ fun _ => ?_
  · refine .look fun d₁ h₁ => ?_
    refine .ite (fun _ => .throw fun _ _ => trivial) fun hin => ?_
    refine .ite (fun _ => .throw fun _ _ => trivial) fun _ => .pure fun _ _ => ?_
    rw [h₀] at haligned
    rw [h₁] at hin
    have hle : len / info.sectorSize ≤ info.maxSectors := by omega
    have hd : info.sectorSize ∣ len := Nat.dvd_of_mod_eq_zero (by omega)
    calc len = len / info.sectorSize * info.sectorSize := (Nat.div_mul_cancel hd).symm
      _ ≤ info.maxBytes := Nat.mul_le_mul_right _ hle
  · refine .bind (Q := fun _ _ => len ≤ info.maxBytes) (fun d hd => hd) fun a => ?_
    cases a with
    | done => exact .look fun _ _ => .skip
    | failed kept => exact .throw fun _ _ => trivial

theorem readChunks_spec
    (hv : ∀ d, P d → d.visible = img) (m count off len : ℕ) (hlen : len ≤ count * m) :
    Triple P (readChunks path m count off len) (fun b d => P d ∧ b = img.read off len)
      (fun _ => P) := by
  induction count generalizing off len with
  | zero =>
    obtain rfl : len = 0 := by omega
    exact .pure fun _ h => ⟨h, rfl⟩
  | succ count ih =>
    refine .bind (readBlock_spec hP hv off (min len m)) fun b => ?_
    rw [Nat.succ_mul] at hlen
    refine .bind ((ih (off + m) (len - m) (by omega)).carry.error fun _ _ h => h.1) fun c => ?_
    rintro d ⟨⟨hd, rfl⟩, rfl⟩
    refine ⟨hd, ?_⟩
    rcases lt_or_ge len m with hlt | hge
    · rw [min_eq_left hlt.le, Nat.sub_eq_zero_of_le hlt.le]
      exact append_nil _
    · rw [min_eq_right hge, ← Disk.read_append, Nat.add_sub_cancel' hge]

/-- **A read answers with the visible bytes** and changes nothing. -/
theorem read_spec (hv : ∀ d, P d → d.visible = img) (off len : ℕ) :
    Triple P (read path off len) (fun b d => P d ∧ b = img.read off len) (fun _ => P) := by
  refine .look fun d₀ _ => ?_
  exact readChunks_spec hP hv _ _ _ _ (le_ceilDiv_mul d₀.info.maxBytes_pos)

end Specs

/-! ### A calm environment -/

/-- The next `n` requests and reservations succeed; after that the answers are those of
`g`. -/
structure Ready (info : Info) (n : ℕ) (g : ℕ → Answer) (d : Device) : Prop where
  info : d.info = info
  idle : d.busy = false
  answers : ∀ i, d.answers i = if i < n then .done else g (i - n)

/-- Every request succeeds and every reservation is granted from here on. -/
structure Calm (info : Info) (d : Device) : Prop where
  info : d.info = info
  idle : d.busy = false
  done : ∀ n, d.answers n = .done

/-- A request of whole sectors inside the device. -/
structure Fits (info : Info) (off len : ℕ) : Prop where
  offDvd : info.sectorSize ∣ off
  lenDvd : info.sectorSize ∣ len
  le : off + len ≤ info.sectors * info.sectorSize

section Ready

variable {info : Info} {path : Path} {n : ℕ} {g : ℕ → Answer}

theorem calm_iff_ready (n : ℕ) {d : Device} : Calm info d ↔ Ready info n (fun _ => .done) d :=
  ⟨fun h => ⟨h.info, h.idle, fun i => by rw [h.done, ite_self]⟩,
    fun h => ⟨h.info, h.idle, fun i => by rw [h.answers, ite_self]⟩⟩

/-- Without failures it does not matter how many answers an operation takes. -/
theorem calm_of_ready {α : Type} {x : DeviceM α} {k : ℕ}
    (h : Triple (Ready info (n + k) fun _ => .done) x (fun _ => Ready info n fun _ => .done)
      (fun _ _ => False)) : Sure (Calm info) x :=
  h.conseq (fun _ hd => (calm_iff_ready _).mp hd) (fun _ _ hd => (calm_iff_ready n).mpr hd)
    fun _ _ h => h

theorem answer_ready :
    Triple (Ready info (n + 1) g) answer (fun a d => a = .done ∧ Ready info n g d)
      (fun _ _ => False) := by
  intro d hd
  refine ⟨by rw [hd.answers]; exact if_pos (Nat.succ_pos n), hd.info, hd.idle, fun i => ?_⟩
  show d.answers (i + 1) = _
  rw [hd.answers, Nat.add_sub_add_right]
  simp only [add_lt_add_iff_right]

theorem attempt_ready (refusal : Refusal) :
    Triple (Ready info (n + 1) g) (attempt refusal) (fun _ => Ready info n g)
      (fun _ _ => False) := by
  refine .seq_eq answer_ready ?_
  exact .skip

theorem flush_ready :
    Triple (Ready info (n + 1) g) (flush path) (fun _ => Ready info n g) (fun _ _ => False) := by
  refine .look fun d₀ h => ?_
  have h₀ := h.idle
  rw [if_neg (by rw [h₀]; simp)]
  refine .seq_eq answer_ready ?_
  exact .update fun d hd => ⟨hd.info, hd.idle, hd.answers⟩

variable {len off : ℕ} {b : Bytes}

/-- A request inside the device is admitted while the controller is idle. -/
theorem admit_idle {P : Device → Prop} (hP : ∀ d, P d → d.info = info ∧ d.busy = false)
    (h : Fits info off len) (hpos : 0 < len) (hmax : len ≤ info.maxBytes) :
    Sure P (admitAt path off len) := by
  have hs : 0 < info.sectorSize := by have := info.min; omega
  obtain ⟨⟨o, rfl⟩, ⟨l, rfl⟩, hle⟩ := h
  rw [mul_comm info.sectors, ← mul_add] at hle
  have hle := le_of_mul_le_mul_left hle hs
  have hl : l ≤ info.maxSectors := by
    rw [Info.maxBytes, mul_comm info.maxSectors] at hmax
    exact le_of_mul_le_mul_left hmax hs
  have hl0 : l ≠ 0 := by
    rintro rfl
    cases hpos
  refine .look fun d₀ h₀ => ?_
  obtain ⟨hinfo, hbusy⟩ := hP d₀ h₀
  have hin : ¬ (info.sectorSize * l / d₀.info.sectorSize = 0 ∨
      d₀.info.maxSectors < info.sectorSize * l / d₀.info.sectorSize ∨
      d₀.info.sectors < info.sectorSize * o / d₀.info.sectorSize +
        info.sectorSize * l / d₀.info.sectorSize) := by
    rw [hinfo, Nat.mul_div_cancel_left _ hs, Nat.mul_div_cancel_left _ hs]
    omega
  rw [if_neg hin, if_neg (by rw [hbusy]; simp)]
  exact .skip

theorem Fits.rest (h : Fits info off len) (hle : info.maxBytes ≤ len) :
    Fits info (off + info.maxBytes) (len - info.maxBytes) := by
  have hd : info.sectorSize ∣ info.maxBytes := Dvd.intro_left _ rfl
  refine ⟨dvd_add h.offDvd hd, Nat.dvd_sub h.lenDvd hd, ?_⟩
  have := h.le
  omega

theorem Fits.take (h : Fits info off len) : Fits info off (min len info.maxBytes) := by
  have hd : info.sectorSize ∣ info.maxBytes := Dvd.intro_left _ rfl
  refine ⟨h.offDvd, ?_, ?_⟩
  · rcases le_total len info.maxBytes with hle | hle
    · rw [min_eq_left hle]
      exact h.lenDvd
    · rw [min_eq_right hle]
      exact hd
  · have := h.le
    omega

/-- The answers one chunk takes. -/
def cost (path : Path) : ℕ := if path.reserves then 2 else 1

theorem reserveChunk_ready :
    Triple (Ready info (n + cost path) g) (reserveChunk path) (fun _ => Ready info (n + 1) g)
      (fun _ _ => False) := by
  unfold cost reserveChunk
  split
  · exact attempt_ready _
  · exact .skip

theorem writeChunk_ready (h : Fits info off b.length) (hpos : 0 < b.length)
    (hmax : b.length ≤ info.maxBytes) :
    Triple (Ready info (n + cost path) g) (writeChunk path off b) (fun _ => Ready info n g)
      (fun _ _ => False) := by
  refine .bind reserveChunk_ready fun _ => ?_
  refine .bind (admit_idle (fun _ h => ⟨Ready.info h, Ready.idle h⟩) h hpos hmax) fun _ => ?_
  refine .seq_eq answer_ready ?_
  exact .update fun d hd => ⟨hd.info, hd.idle, hd.answers⟩

theorem writeChunks_ready (h : Fits info off b.length) :
    Triple (Ready info (n + ceilDiv b.length info.maxBytes * cost path) g)
      (writeChunks path info.maxBytes off (chunks info.maxBytes b)) (fun _ => Ready info n g)
      (fun _ _ => False) := by
  have hm := info.maxBytes_pos
  induction hn : b.length using Nat.strong_induction_on generalizing off b with
  | _ k ih =>
    by_cases hb : b = []
    · subst hb
      rw [chunks_nil hm, ← hn, length_nil, ceilDiv_zero hm, zero_mul]
      exact .skip
    have hpos := length_pos_of_ne_nil hb
    rw [chunks_cons hm hb, ← hn, ceilDiv_eq_succ hm hpos, Nat.succ_mul, ← Nat.add_assoc]
    refine .bind (writeChunk_ready ?_ (by rw [length_take]; omega)
      (by rw [length_take]; omega)) fun _ => ?_
    · rw [length_take, min_comm]
      exact h.take
    rw [← length_drop]
    rcases lt_or_ge b.length info.maxBytes with hlt | hge
    · rw [drop_of_length_le hlt.le, chunks_nil hm, length_nil, ceilDiv_zero hm, zero_mul]
      exact .skip
    · refine ih (b.drop info.maxBytes).length (by rw [length_drop]; omega) ?_ rfl
      rw [length_drop]
      exact h.rest hge

theorem write_ready (h : Fits info off b.length) :
    Triple (Ready info (n + ceilDiv b.length info.maxBytes * cost path) g) (write path off b)
      (fun _ => Ready info n g) (fun _ _ => False) := by
  refine .look fun d₀ hd => ?_
  have h₀ := hd.info
  have haligned : ¬ (off % d₀.info.sectorSize ≠ 0 ∨ b.length % d₀.info.sectorSize ≠ 0) := by
    rw [h₀, Nat.mod_eq_zero_of_dvd h.offDvd, Nat.mod_eq_zero_of_dvd h.lenDvd]
    simp
  rw [if_neg haligned, h₀]
  exact writeChunks_ready h

end Ready

section Calm

variable {info : Info} {path : Path}

theorem answer_calm :
    Triple (Calm info) answer (fun a d => a = .done ∧ Calm info d) (fun _ _ => False) :=
  fun _ hd => ⟨hd.done 0, hd.info, hd.idle, fun n => hd.done (n + 1)⟩

theorem attempt_calm (refusal : Refusal) : Sure (Calm info) (attempt refusal) :=
  calm_of_ready (n := 0) (attempt_ready refusal)

theorem reserveChunk_calm : Sure (Calm info) (reserveChunk path) :=
  .ite (fun _ => attempt_calm _) fun _ => .skip

theorem flush_calm : Sure (Calm info) (flush path) := calm_of_ready (n := 0) flush_ready

variable {len off : ℕ}

theorem write_calm {b : Bytes} (h : Fits info off b.length) :
    Sure (Calm info) (write path off b) :=
  calm_of_ready (n := 0) (write_ready h)

theorem readBlock_calm (h : Fits info off len) (hpos : 0 < len)
    (hmax : len ≤ info.maxBytes) : Sure (Calm info) (readBlock path off len) := by
  refine .look fun d₀ h₀ => ?_
  have haligned : ¬ (off % d₀.info.sectorSize ≠ 0 ∨ len % d₀.info.sectorSize ≠ 0) := by
    rw [h₀.info, Nat.mod_eq_zero_of_dvd h.offDvd, Nat.mod_eq_zero_of_dvd h.lenDvd]
    simp
  rw [if_neg haligned]
  refine .bind reserveChunk_calm fun _ => ?_
  refine .bind (admit_idle (fun _ h => ⟨Calm.info h, Calm.idle h⟩) h hpos hmax) fun _ => ?_
  refine .seq_eq answer_calm ?_
  exact .look fun _ _ => .skip

theorem readChunks_calm {count : ℕ} (h : Fits info off len)
    (hcount : count = ceilDiv len info.maxBytes) :
    Sure (Calm info) (readChunks path info.maxBytes count off len) := by
  have hm := info.maxBytes_pos
  induction count generalizing off len with
  | zero => exact .skip
  | succ count ih =>
    have hpos : 0 < len := by
      rcases eq_zero_or_pos len with rfl | hpos
      · rw [ceilDiv_zero hm] at hcount
        omega
      · exact hpos
    refine .bind (readBlock_calm h.take (by omega) (min_le_right _ _)) fun _ => ?_
    refine .bind (Q := fun _ => Calm info) ?_ fun _ => .skip
    rcases lt_or_ge len info.maxBytes with hlt | hge
    · -- case: that was the last chunk
      have h1 : ceilDiv len info.maxBytes ≤ 1 := (ceilDiv_le_iff hm).mpr (by omega)
      obtain rfl : count = 0 := by omega
      exact .skip
    · refine ih (h.rest hge) ?_
      have := ceilDiv_eq_succ hm hpos
      omega

theorem read_calm (h : Fits info off len) : Sure (Calm info) (read path off len) := by
  refine .look fun d₀ h₀ => ?_
  rw [h₀.info]
  exact readChunks_calm h rfl

end Calm

end Device

end Moruna
