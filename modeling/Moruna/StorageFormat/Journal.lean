/-
Moruna/StorageFormat/Journal.lean

The replay and publication authority of a raw volume.

A journal is a cursor into a bounded log of record/receipt pairs, the end of the data
written so far, and the committed record of every key.  `replay` applies one pair.

* `Journal.replay_accepts` — the pair of an acceptable commit is applied, and leaves the
  journal `publish` describes.
-/
import Moruna.StorageFormat.Frame
import Moruna.Storage.Tree

namespace Moruna

/-- Atomic mutation condition of a write. -/
inductive Condition
  | absent
  | matching (version : Version)
  deriving DecidableEq

/-- Validated raw journal state. -/
structure Journal where
  geometry : Superblock
  cell : UInt64
  log : UInt64
  data : UInt64
  entries : Std.ExtTreeMap String Commit

/-- Minimum record-cell bytes, rounded upward to the device alignment. -/
def recordCellBytes : UInt64 := 16384

namespace Journal

variable (hash : Bytes → Digest)

/-- Validate the immutable superblock and establish an empty replay cursor. -/
def new (geometry : Superblock) : Except Error Journal := do
  geometry.validate
  let alignment := geometry.align
  let top ← okOr (checkedAdd recordCellBytes (alignment - 1)) .limit
  let cell := top / alignment * alignment
  let pair ← okOr (checkedMul cell 2) .limit
  rejectIf (!isMultipleOf geometry.logBytes pair) .invalid
  .ok { geometry, cell, log := geometry.logOffset, data := geometry.dataOffset, entries := ∅ }

variable (j : Journal)

/-- True only if another complete commit and receipt pair fits in the bounded log. -/
def hasCapacity : Bool :=
  match checkedAdd j.log (2 * j.cell) with
  | some stop => decide (stop ≤ j.geometry.dataOffset)
  | none => false

def current (key : String) : Option Commit := j.entries[key]?

def object (j : Journal) (object : Object) : Except Error Unit := do
  object.validate
  rejectIf
    (object.key.isEmpty
      || object.workspace != j.geometry.workspace
      || object.bucket != j.geometry.bucket)
    .invalid

def condition (j : Journal) (object : Object) (condition : Condition) : Except Error Bool := do
  j.object object
  match condition, j.current object.key with
  | .absent, none => .ok true
  | .matching expected, some current => do
    expected.validate
    .ok (expected == current.metadata.version)
  | .matching expected, none => do
    expected.validate
    .ok false
  | .absent, some _ => .ok false

/-- Plan one immutable contiguous payload and tree without changing visibility. -/
def plan (object : Object) (condition : Condition) (bytes : UInt64) :
    Except Error (Option Location) := do
  let holds ← j.condition object condition
  if holds then do
    rejectIf (!j.hasCapacity) .limit
    let location ← j.geometry.extent hash j.data bytes
    .ok (some location)
  else .ok none

/-- Exact immutable extent end. -/
def extentEnd : Location → Except Error UInt64
  | .file _ => .error .invalid
  | .extent offset paddedBytes tree _ =>
    match tree.getLast? with
    | some last => okOr ((checkedMul last.nodes j.geometry.align).bind (checkedAdd last.offset))
        .limit
    | none => okOr (checkedAdd offset paddedBytes) .limit

/-- The payload starts at the end of the data. -/
def startsAt (data : UInt64) : Location → Bool
  | .file _ => false
  | .extent offset _ _ _ => offset == data

/-- Common publication guard before any commit or receipt write. -/
def validateCommit (commit : Commit) : Except Error Unit := do
  rejectIf (!j.hasCapacity || commit.sequence != j.log) .invalid
  commit.validateIn hash j.geometry
  rejectIf (!startsAt j.data commit.location) .invalid

/-- The commit digest of the receipt of this position. -/
def receiptHash (log : UInt64) : Frame → Except Error Digest
  | .receipt sequence commitHash => if sequence == log then .ok commitHash else .error .integrity
  | _ => .error .integrity

def asCommit : Frame → Except Error Commit
  | .commit c => .ok c
  | _ => .error .integrity

/-- The journal after a published commit whose extent ends at `stop`. -/
def publish (commit : Commit) (stop : UInt64) : Journal :=
  { j with
    entries := j.entries.insert commit.metadata.object.key commit
    log := j.log + 2 * j.cell
    data := stop }

/-- Validate and apply one actual receipt-backed pair.  A zero receipt answers false and
changes nothing. -/
def replay (record receipt : Bytes) : Except Error (Bool × Journal) := do
  rejectIf
    (!j.hasCapacity || record.length != j.cell.toNat || receipt.length != j.cell.toNat) .invalid
  if receipt.all (· == 0) then .ok (false, j)
  else do
    let frame ← Frame.decode hash receipt
    let commitHash ← receiptHash j.log frame
    let length ← frameSize record
    rejectIf (decide (record.length < length) || hash (record.take length) != commitHash) .integrity
    let frame ← Frame.decode hash record
    let commit ← asCommit frame
    j.validateCommit hash commit
    let stop ← j.extentEnd commit.location
    -- the room for the pair was checked first, so the cursor cannot overflow here
    let _ ← okOr (checkedAdd j.log (2 * j.cell)) .limit
    .ok (true, j.publish commit stop)

/-! ### Well-formed journals -/

/-- The invariant of a journal: its geometry is valid, its cells are aligned, its log
cursor stands between pairs and its data ends inside the bank. -/
structure WF (j : Journal) : Prop where
  geometry : j.geometry.Geometry
  cell : j.cell.toNat = ceilDiv 16384 j.geometry.align.toNat * j.geometry.align.toNat
  pairs : 2 * j.cell.toNat ∣ j.geometry.logBytes.toNat
  log : ∃ k, j.log.toNat = j.geometry.logOffset.toNat + k * (2 * j.cell.toNat)
  logLe : j.log.toNat ≤ j.geometry.dataOffset.toNat
  data : j.geometry.dataOffset.toNat ≤ j.data.toNat
  dataLe : j.data.toNat ≤ j.geometry.capacity.toNat
  dataDvd : j.geometry.align.toNat ∣ j.data.toNat

namespace WF

variable {j : Journal} (h : j.WF)
include h

theorem align_pos : 0 < j.geometry.align.toNat := by
  have := h.geometry.min
  omega

theorem cell_le : 16384 ≤ j.cell.toNat := by
  rw [h.cell]
  exact le_ceilDiv_mul h.align_pos

theorem cell_dvd : j.geometry.align.toNat ∣ j.cell.toNat := by
  rw [h.cell]
  exact Dvd.intro_left _ rfl

theorem log_dvd : j.geometry.align.toNat ∣ j.log.toNat := by
  obtain ⟨k, hk⟩ := h.log
  rw [hk]
  exact dvd_add h.geometry.dvdLog (dvd_mul_of_dvd_right (dvd_mul_of_dvd_right h.cell_dvd 2) k)

theorem log_ge : j.geometry.logOffset.toNat ≤ j.log.toNat := by
  obtain ⟨k, hk⟩ := h.log
  omega

/-- A cell is at most the larger of its minimum and the alignment. -/
theorem cell_lt : j.cell.toNat < 2 ^ 33 := by
  have ha := h.align_pos
  have hlt := j.geometry.alignment.toNat_lt
  have hle : (ceilDiv 16384 j.geometry.align.toNat - 1) * j.geometry.align.toNat < 16384 := by
    rw [← lt_ceilDiv_iff ha]
    have := ceilDiv_pos ha (show 0 < 16384 by decide)
    omega
  rw [Nat.sub_mul] at hle
  rw [h.cell, j.geometry.toNat_align] at *
  omega

theorem toNat_pair : (2 * j.cell).toNat = 2 * j.cell.toNat := by
  have := h.cell_lt
  show 2 * j.cell.toNat % 2 ^ 64 = _
  exact Nat.mod_eq_of_lt (by omega)

theorem hasCapacity_iff :
    j.hasCapacity = true ↔ j.log.toNat + 2 * j.cell.toNat ≤ j.geometry.dataOffset.toNat := by
  have hd := j.geometry.dataOffset.toNat_lt
  unfold hasCapacity
  rcases hc : checkedAdd j.log (2 * j.cell) with - | stop
  · rw [checkedAdd_eq_none, h.toNat_pair] at hc
    simp only [Bool.false_eq_true, false_iff]
    omega
  · rw [checkedAdd_eq_some, h.toNat_pair] at hc
    rw [decide_eq_true_iff, UInt64.le_iff_toNat_le, hc]

/-- With room for a pair the cursor moves without overflow. -/
theorem toNat_log_next (hc : j.hasCapacity = true) :
    (j.log + 2 * j.cell).toNat = j.log.toNat + 2 * j.cell.toNat := by
  rw [h.hasCapacity_iff] at hc
  have hd := j.geometry.dataOffset.toNat_lt
  rw [UInt64.toNat_add, h.toNat_pair]
  exact Nat.mod_eq_of_lt (by omega)

theorem publish (hroom : j.hasCapacity = true) (c : Commit) {e : UInt64}
    (hle : j.data.toNat ≤ e.toNat) (hcap : e.toNat ≤ j.geometry.capacity.toNat)
    (hdvd : j.geometry.align.toNat ∣ e.toNat) : (j.publish c e).WF := { h with
  log := by
    obtain ⟨k, hk⟩ := h.log
    refine ⟨k + 1, ?_⟩
    show (j.log + 2 * j.cell).toNat = j.geometry.logOffset.toNat + (k + 1) * (2 * j.cell.toNat)
    rw [h.toNat_log_next hroom, hk]
    ring
  logLe := by
    show (j.log + 2 * j.cell).toNat ≤ j.geometry.dataOffset.toNat
    rw [h.toNat_log_next hroom]
    exact h.hasCapacity_iff.mp hroom
  data := h.data.trans hle
  dataLe := hcap
  dataDvd := hdvd }

end WF

theorem current_publish (c : Commit) (stop : UInt64) (key : String) :
    (j.publish c stop).current key =
      if c.metadata.object.key = key then some c else j.current key := by
  rw [current, publish, Std.ExtTreeMap.getElem?_insert]
  by_cases hk : c.metadata.object.key = key
  · rw [if_pos hk, if_pos (Std.LawfulEqCmp.compare_eq_iff_eq.mpr hk)]
  · rw [if_neg hk, if_neg (by rwa [Std.LawfulEqCmp.compare_eq_iff_eq])]
    rfl

theorem new_wf {geometry : Superblock} {j : Journal} (h : new geometry = .ok j) :
    j.WF ∧ j.geometry = geometry ∧ j.log = geometry.logOffset ∧ j.data = geometry.dataOffset ∧
      j.entries = ∅ := by
  simp only [new, seq_eq_ok, okOr_eq_ok, rejectIf_test, Bool.not_eq_false',
    isMultipleOf_iff, checkedAdd_eq_some, checkedMul_eq_some] at h
  obtain ⟨⟨⟩, hv, top, htop, pair, hpair, ⟨⟩, hm, hj⟩ := h
  cases hj
  have g := (Superblock.validate_ok_iff geometry).mp hv
  have ha : 0 < geometry.align.toNat := by have := g.min; omega
  have h1 : (geometry.align - 1).toNat = geometry.align.toNat - 1 :=
    UInt64.toNat_sub_of_le _ _ (UInt64.le_iff_toNat_le.mpr ha)
  have hcell : (top / geometry.align * geometry.align).toNat =
      ceilDiv 16384 geometry.align.toNat * geometry.align.toNat := by
    have htoplt := top.toNat_lt
    have hle := Nat.div_mul_le_self top.toNat geometry.align.toNat
    rw [UInt64.toNat_mul, UInt64.toNat_div, Nat.mod_eq_of_lt (by omega), htop, h1]
    rfl
  refine ⟨?_, rfl, rfl, rfl, rfl⟩
  exact
    { geometry := g
      cell := hcell
      pairs := by
        have h2 : pair.toNat = 2 * (top / geometry.align * geometry.align).toNat := by
          rw [hpair, mul_comm]
          rfl
        exact h2 ▸ hm
      log := ⟨0, by simp⟩
      logLe := by
        have := g.logEnd
        show geometry.logOffset.toNat ≤ geometry.dataOffset.toNat
        omega
      data := le_rfl
      dataLe := g.data.le
      dataDvd := g.dvdData }

/-! ### Acceptable commits -/

/-- The commit `c` stores `payload` in an extent planned at `start`: its name and its
digests are right, and its location is the one a put of the payload arrives at. -/
structure Holds (s : Superblock) (start : UInt64) (c : Commit) (payload : Bytes) (padded : UInt64)
    (tree : List TreeLevel) (stop : ℕ) : Prop where
  named : c.Named s
  page : 32 ≤ s.align.toNat
  length : payload.length = c.metadata.bytes.toNat
  content : c.contentHash = hash payload
  planned : Planned s start c.metadata.bytes padded tree stop
  location : c.location = .extent start padded tree
    (((treeScheme hash s.align.toNat page).tower ((payloadPages s.align.toNat payload).map hash)
      tree.length).headD (hash []))

def pad (n : ℕ) (b : Bytes) : Bytes := b ++ List.replicate (n - b.length) 0

theorem length_pad {n : ℕ} {b : Bytes} (h : b.length ≤ n) : (pad n b).length = n := by
  rw [pad, List.length_append, List.length_replicate]
  omega

/-- A commit the journal publishes next, and the bytes of its record. -/
structure Accepts (j : Journal) (c : Commit) (payload record : Bytes) (padded : UInt64)
    (tree : List TreeLevel) (stop : ℕ) : Prop where
  room : j.hasCapacity = true
  sequence : c.sequence = j.log
  holds : Holds hash j.geometry j.data c payload padded tree stop
  encoded : (Frame.commit c).encode hash = .ok record
  fits : record.length ≤ j.cell.toNat

/-- The journal after a commit; nothing happens when its location has no end. -/
def after (j : Journal) (c : Commit) : Journal :=
  match j.extentEnd c.location with
  | .ok stop => j.publish c stop
  | .error _ => j

theorem extentEnd_of_planned {j : Journal} {start bytes padded : UInt64} {tree : List TreeLevel}
    {stop : ℕ} (h : Planned j.geometry start bytes padded tree stop) (root : Digest) :
    ∃ e : UInt64, j.extentEnd (.extent start padded tree root) = .ok e ∧ e.toNat = stop := by
  obtain ⟨e, he⟩ := exists_word (h.capacity.trans_lt j.geometry.capacity.toNat_lt)
  refine ⟨e, ?_, he⟩
  unfold extentEnd
  rcases hl : tree.getLast? with - | last
  · -- case: no tree, so no payload
    obtain rfl := List.getLast?_eq_none_iff.mp hl
    by_cases h0 : bytes = 0
    · have hle := h.le
      have hstop := (h.empty h0).2
      show okOr (checkedAdd start padded) _ = _
      rw [okOr_eq_ok, checkedAdd_eq_some]
      omega
    · exact absurd rfl (h.levels h0).1
  · have h0 : bytes ≠ 0 := by
      intro h0
      rw [(h.empty h0).1] at hl
      simp at hl
    dsimp only
    rw [hl]
    rw [okOr_eq_ok, bind_checked_eq_some, he]
    exact Levels.getLast (h.levels h0).2 hl

/-- **The planner and the validator agree**: a planned extent is the location of a valid
commit, with any root digest when there is a payload, and the location of a valid commit is
the planned one but for that digest.  The planner's loop has an answer within the 64 rounds it
is given, whatever it starts from, and more rounds do not change it; the validator's goes over
the levels of the location once.  A planned extent ends with its last tree level, inside the
volume. -/
theorem planner_agrees_with_validator (s : Superblock) (hs : s.validate = .ok ()) :
    (∀ start bytes loc, s.extent hash start bytes = .ok loc →
      ∃ padded tree root, loc = .extent start padded tree root ∧
        ∀ c : Commit, c.Named s → c.metadata.bytes = bytes →
          ∀ root', c.location = .extent start padded tree root' → (bytes = 0 → root' = root) →
            c.validateIn hash s = .ok ()) ∧
    (∀ (c : Commit) start padded tree root, c.location = .extent start padded tree root →
      c.validateIn hash s = .ok () → s.extent hash start c.metadata.bytes =
        .ok (.extent start padded tree (if c.metadata.bytes == 0 then root else zeroDigest))) ∧
    (∀ cursor children, ∃ answer, ∀ more,
      planLevels s.align (64 + more) cursor children = some answer) ∧
    ∀ (j : Journal) start bytes padded tree root, j.geometry = s →
      s.extent hash start bytes = .ok (.extent start padded tree root) →
        ∃ stop, j.extentEnd (.extent start padded tree root) = .ok stop ∧ stop ≤ s.capacity ∧
          ∀ last, tree.getLast? = some last →
            stop.toNat = last.offset.toNat + last.nodes.toNat * s.align.toNat := by
  have g := (Superblock.validate_ok_iff s).mp hs
  refine ⟨fun start bytes loc h => ?_, fun c start padded tree root hloc h => ?_,
    fun cursor children => ?_, ?_⟩
  · obtain ⟨-, padded, tree, stop, hp, rfl⟩ := Superblock.extent_eq_ok.mp h
    refine ⟨padded, tree, _, rfl, fun c hn hbytes root hloc hroot => ?_⟩
    subst hbytes
    refine (Commit.validateIn_iff_planned hloc).mpr ⟨g, hn, ⟨stop, hp⟩, fun h0 => ?_⟩
    rw [hroot h0, if_pos (beq_iff_eq.mpr h0)]
  · obtain ⟨-, -, ⟨stop, hp⟩, hroot⟩ := (Commit.validateIn_iff_planned hloc).mp h
    refine Superblock.extent_eq_ok.mpr ⟨g, padded, tree, stop, hp, ?_⟩
    by_cases h0 : c.metadata.bytes = 0
    · rw [hroot h0]
    · rw [if_neg (by rwa [beq_iff_eq]), if_neg (by rwa [beq_iff_eq])]
  · have hfan := g.fanout_le
    exact planLevels_ends (by omega) 63 children.toNat_lt
  · rintro j start bytes padded tree root rfl h
    obtain ⟨-, padded', tree', stop, hp, heq⟩ := Superblock.extent_eq_ok.mp h
    cases heq
    obtain ⟨e, he, hstop⟩ := extentEnd_of_planned hp _
    refine ⟨e, he, UInt64.le_iff_toNat_le.mpr (hstop ▸ hp.capacity), fun last hl => ?_⟩
    have h0 : bytes ≠ 0 := by
      rintro rfl
      rw [(hp.empty rfl).1] at hl
      cases hl
    rw [hstop]
    exact Levels.getLast (hp.levels h0).2 hl

/-- Three bytes on a small volume: what is planned for them is valid. -/
theorem planner_agrees_sampleVolume :
    (sampleCommit (.extent 2048 512 [⟨2560, 1⟩] zeroDigest)).validateIn (fun _ => zeroDigest)
      sampleVolume = .ok () := by
  have hplan : sampleVolume.extent (fun _ => zeroDigest) 2048 3 =
      .ok (.extent 2048 512 [⟨2560, 1⟩] zeroDigest) := rfl
  obtain ⟨padded, tree, root, hloc, h⟩ :=
    (planner_agrees_with_validator (fun _ => zeroDigest) sampleVolume (by decide)).1 _ _ _ hplan
  cases hloc
  exact h _ ⟨by decide, by decide, rfl, rfl, by decide⟩ rfl _ rfl fun _ => rfl

section Accepted

variable {hash}
variable {j : Journal} {c : Commit} {payload record : Bytes} {padded : UInt64}
variable {tree : List TreeLevel} {stop : ℕ}

variable (h : Accepts hash j c payload record padded tree stop)

include h

theorem Accepts.after_eq :
    ∃ e : UInt64, j.extentEnd c.location = .ok e ∧ e.toNat = stop ∧ j.after c = j.publish c e := by
  obtain ⟨e, he, hstop⟩ := extentEnd_of_planned h.holds.planned _
  rw [← h.holds.location] at he
  refine ⟨e, he, hstop, ?_⟩
  unfold after
  rw [he]

theorem Accepts.wf_after (w : j.WF) : (j.after c).WF := by
  obtain ⟨e, -, rfl, hafter⟩ := h.after_eq
  have hp := h.holds.planned
  rw [hafter]
  exact w.publish h.room c ((Nat.le_add_right _ _).trans hp.le) hp.capacity hp.stop_dvd

theorem Accepts.validateCommit (w : j.WF) : j.validateCommit hash c = .ok () := by
  have hpage := h.holds.page
  have hroot : c.metadata.bytes = 0 → ((treeScheme hash j.geometry.align.toNat hpage).tower
      ((payloadPages j.geometry.align.toNat payload).map hash) tree.length).headD (hash []) =
        hash [] := by
    intro h0
    have hlen : payload.length = 0 := by rw [h.holds.length, h0]; rfl
    rw [(h.holds.planned.empty h0).1, List.eq_nil_of_length_eq_zero hlen]
    have hz : payloadPages j.geometry.align.toNat [] = [] := by
      rw [payloadPages, List.length_nil, ceilDiv_zero w.align_pos]
      rfl
    rw [hz]
    rfl
  have hin := (Commit.validateIn_iff_planned h.holds.location).mpr
    ⟨w.geometry, h.holds.named, ⟨stop, h.holds.planned⟩, hroot⟩
  have hstart : startsAt j.data c.location = true := by
    rw [h.holds.location]
    exact beq_self_eq_true j.data
  unfold Journal.validateCommit
  rw [pass_bind (by rw [h.room, h.sequence, bne_self_eq_false]; rfl), hin]
  show rejectIf _ _ = _
  rw [hstart]
  rfl

omit h

theorem receipt_encode (sequence : UInt64) (d : Digest) :
    ∃ b, (Frame.receipt sequence d).encode hash = .ok b ∧ b.length = 89 := by
  have hlen : (Frame.receipt sequence d).payload.length = 41 := by
    simp only [Frame.payload, List.length_append, length_leBytes, d.property]
    rfl
  refine ⟨_, (Frame.encode_eq_ok hash).mpr ⟨trivial, by rw [hlen]; decide, rfl⟩, ?_⟩
  rw [length_frameBytes, hlen]
  rfl

theorem encode_not_blank {f : Frame} {b : Bytes} (h : f.encode hash = .ok b) (rest : Bytes) :
    (b ++ rest).all (· == 0) = false := by
  obtain ⟨-, -, rfl⟩ := (Frame.encode_eq_ok hash).mp h
  rfl

include h

variable {receipt : Bytes}

/-- **The pair of an acceptable commit is applied.** -/
theorem replay_accepts (w : j.WF)
    (hr : (Frame.receipt j.log (hash record)).encode hash = .ok receipt) :
    j.replay hash (pad j.cell.toNat record) (pad j.cell.toNat receipt) =
      .ok (true, j.after c) := by
  have hcell := w.cell_le
  have hlen : receipt.length = 89 := by
    obtain ⟨b, hb, hlen⟩ := @receipt_encode hash j.log (hash record)
    obtain rfl : receipt = b := Except.ok.inj (hr.symm.trans hb)
    exact hlen
  have hc := (Frame.encode_eq_ok hash).mp h.encoded
  have hsize : frameSize (pad j.cell.toNat record) = .ok record.length := by
    obtain ⟨-, hmax, rfl⟩ := hc
    rw [length_frameBytes]
    exact frameSize_frameBytes hash (Frame.payload_pos _) hmax _
  have htake : (pad j.cell.toNat record).take record.length = record := List.take_left
  obtain ⟨e, he, -, hafter⟩ := h.after_eq
  have hnext : checkedAdd j.log (2 * j.cell) = some (j.log + 2 * j.cell) := by
    rw [checkedAdd_eq_some, w.toNat_log_next h.room, w.toNat_pair]
  have hlens : (!j.hasCapacity || (pad j.cell.toNat record).length != j.cell.toNat
      || (pad j.cell.toNat receipt).length != j.cell.toNat) = false := by
    rw [h.room, length_pad h.fits, length_pad (by omega), bne_self_eq_false]
    rfl
  have hmatch : (decide ((pad j.cell.toNat record).length < record.length)
      || hash ((pad j.cell.toNat record).take record.length) != hash record) = false := by
    have := h.fits
    rw [length_pad h.fits, htake, bne_self_eq_false, Bool.or_false, decide_eq_false_iff_not]
    omega
  have hreceipt : receiptHash j.log (.receipt j.log (hash record)) = .ok (hash record) :=
    if_pos (beq_self_eq_true j.log)
  unfold replay
  rw [pass_bind hlens, if_neg (by rw [pad, encode_not_blank hr]; exact Bool.false_ne_true)]
  refine seq_eq_ok.mpr ⟨_, Frame.decode_padded hash hr _, seq_eq_ok.mpr ⟨_, hreceipt, ?_⟩⟩
  refine seq_eq_ok.mpr ⟨_, hsize, ?_⟩
  rw [pass_bind hmatch]
  refine seq_eq_ok.mpr ⟨_, Frame.decode_padded hash h.encoded _, seq_eq_ok.mpr ⟨_, rfl, ?_⟩⟩
  refine seq_eq_ok.mpr ⟨_, h.validateCommit w, seq_eq_ok.mpr ⟨_, he, ?_⟩⟩
  rw [hnext, hafter]
  rfl

omit h

/-- **A zero receipt ends the log.** -/
theorem replay_blank (hroom : j.hasCapacity = true)
    (hrecord : record.length = j.cell.toNat) (hreceipt : receipt.length = j.cell.toNat)
    (hz : receipt.all (· == 0) = true) : j.replay hash record receipt = .ok (false, j) := by
  unfold replay
  rw [pass_bind (by rw [hroom, hrecord, hreceipt, bne_self_eq_false]; rfl), if_pos hz]

end Accepted

end Journal

end Moruna
