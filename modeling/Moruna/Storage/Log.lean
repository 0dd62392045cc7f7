/-
Moruna/Storage/Log.lean

What the log of a bank looks like on the medium.

`Recorded` says that the record cell, the receipt cell and the extent of one commit are
there, `Stored` that those of a whole history are, one commit behind the other, and
`Blank` that the receipt cells behind them are still zero.  A `Log` is both together.

The two frame lemmas are what crash safety rests on: `Log.congr` allows any change in the
free space of the journal, which is the next record cell and the data area behind the
last extent; `Log.publish` adds one commit once its cells and its extent are there.
-/
import Moruna.Lib.Disk
import Moruna.StorageFormat.Journal

namespace Moruna

open Disk List

/-- A commit with the payload it stands for. -/
abbrev Entry := Commit × Bytes

/-! ### The bytes of an extent -/

section ExtentBytes

variable {hash : Bytes → Digest} {a : ℕ}

theorem length_flatten_of_forall {pages : List Bytes} (h : ∀ p ∈ pages, p.length = a) :
    pages.flatten.length = pages.length * a := by
  induction pages with
  | nil => simp
  | cons p pages ih =>
    rw [flatten_cons, length_append, h p mem_cons_self,
      ih fun q hq => h q (mem_cons_of_mem _ hq), length_cons, Nat.succ_mul, Nat.add_comm]

variable {p payload : Bytes} {levels : ℕ}

theorem length_of_mem_payloadPages (h : p ∈ payloadPages a payload) :
    p.length = a := by
  obtain ⟨i, -, rfl⟩ := mem_map.mp h
  exact length_blockPage a payload i

theorem length_of_mem_treePages (h32 : 32 ≤ a) (hdvd : 32 ∣ a) {leaves : List Digest}
    (h : p ∈ treePages (treeScheme hash a h32) leaves levels) : p.length = a := by
  obtain ⟨k, -, hp⟩ := mem_flatMap.mp h
  obtain ⟨g, hg, rfl⟩ := mem_map.mp hp
  obtain ⟨i, -, rfl⟩ := mem_map.mp hg
  refine length_nodePage ?_
  have hlen := length_take_le (a / 32)
    (((treeScheme hash a h32).tower leaves k).drop (i * (a / 32)))
  calc 32 * _ ≤ 32 * (a / 32) := Nat.mul_le_mul_left 32 hlen
    _ = a := Nat.mul_div_cancel' hdvd

theorem length_of_mem_extentPages (h32 : 32 ≤ a) (hdvd : 32 ∣ a)
    (h : p ∈ extentPages (treeScheme hash a h32) a payload levels) : p.length = a := by
  rcases mem_append.mp h with h | h
  · exact length_of_mem_payloadPages h
  · exact length_of_mem_treePages h32 hdvd h

end ExtentBytes

namespace Journal

variable (hash : Bytes → Digest)

variable {hash} in
theorem Holds.length_pages {s : Superblock} {start : UInt64} {c : Commit} {payload : Bytes}
    {padded : UInt64} {tree : List TreeLevel} {stop : ℕ} (g : s.Geometry)
    (h : Holds hash s start c payload padded tree stop) :
    (extentPages (treeScheme hash s.align.toNat h.page) s.align.toNat payload
      tree.length).flatten.length = stop - start.toNat := by
  have hF : 0 < s.align.toNat / 32 := by have := g.fanout_le; omega
  have ha : 0 < s.align.toNat := by have := g.min; omega
  rw [length_flatten_of_forall fun p hp =>
    length_of_mem_extentPages h.page (dvd_of_pow g.min g.pow) hp]
  rw [extentPages, length_append, length_treePages, length_map,
    length_payloadPages, h.length, add_mul, Finset.sum_mul]
  show _ + ∑ k ∈ Finset.range tree.length, ceilDiv _ ((s.align.toNat / 32) ^ (k + 1)) * _ = _
  have hsize := h.planned.size
  by_cases h0 : c.metadata.bytes = 0
  · obtain ⟨ht, hs⟩ := h.planned.empty h0
    rw [ht, hs, h0, UInt64.toNat_zero, ceilDiv_zero ha]
    simp
  · have hstop := Levels.stop_eq hF (h.planned.levels h0).2
    omega

/-! ### One commit -/

/-- The cells and the extent of the commit `c`, published by `j`, are on the medium. -/
structure RecordedAs (j : Journal) (c : Commit) (payload : Bytes) (img : Disk)
    (record receipt : Bytes) (padded : UInt64) (tree : List TreeLevel) (stop : ℕ) : Prop where
  accepts : Accepts hash j c payload record padded tree stop
  encoded : (Frame.receipt j.log (hash record)).encode hash = .ok receipt
  recordCell : img.read j.log.toNat j.cell.toNat = pad j.cell.toNat record
  receiptCell :
    img.read (j.log.toNat + j.cell.toNat) j.cell.toNat = pad j.cell.toNat receipt
  extent : img.read j.data.toNat (stop - j.data.toNat) =
    (extentPages (treeScheme hash j.geometry.align.toNat accepts.holds.page)
      j.geometry.align.toNat payload tree.length).flatten

def Recorded (j : Journal) (c : Commit) (payload : Bytes) (img : Disk) : Prop :=
  ∃ record receipt padded tree stop,
    RecordedAs hash j c payload img record receipt padded tree stop

section One

variable {hash} {j : Journal} {c : Commit} {payload : Bytes} {img img' : Disk}

theorem Recorded.accepts (h : Recorded hash j c payload img) :
    ∃ record padded tree stop, Accepts hash j c payload record padded tree stop := by
  obtain ⟨record, receipt, padded, tree, stop, h⟩ := h
  exact ⟨record, padded, tree, stop, h.accepts⟩

/-- What a published commit does to the numbers of the journal. -/
structure Advances (j k : Journal) : Prop where
  geometry : k.geometry = j.geometry
  cell : k.cell = j.cell
  log : j.log.toNat ≤ k.log.toNat
  data : j.data.toNat ≤ k.data.toNat

theorem Accepts.advances {record : Bytes} {padded : UInt64} {tree : List TreeLevel} {stop : ℕ}
    (h : Accepts hash j c payload record padded tree stop) (w : j.WF) :
    Advances j (j.after c) ∧ (j.after c).log.toNat = j.log.toNat + 2 * j.cell.toNat ∧
      (j.after c).data.toNat = stop := by
  obtain ⟨e, -, hstop, hafter⟩ := h.after_eq
  have hlog := w.toNat_log_next h.room
  have hle := h.holds.planned.le
  rw [hafter]
  refine ⟨⟨rfl, rfl, ?_, ?_⟩, hlog, hstop⟩
  · show j.log.toNat ≤ (j.log + 2 * j.cell).toNat
    omega
  · show j.data.toNat ≤ e.toNat
    omega

/-- A commit stays recorded when its cells and its extent do. -/
theorem Recorded.congr (h : Recorded hash j c payload img) (w : j.WF)
    (hlog : ∀ i, j.log.toNat ≤ i → i < (j.after c).log.toNat → img' i = img i)
    (hdata : ∀ i, j.data.toNat ≤ i → i < (j.after c).data.toNat → img' i = img i) :
    Recorded hash j c payload img' := by
  obtain ⟨record, receipt, padded, tree, stop, h⟩ := h
  obtain ⟨-, hl, hd⟩ := h.accepts.advances w
  refine ⟨record, receipt, padded, tree, stop, h.accepts, h.encoded, ?_, ?_, ?_⟩
  · rw [read_congr fun i h1 h2 => hlog i h1 (by omega), h.recordCell]
  · rw [read_congr fun i h1 h2 => hlog i (by omega) (by omega), h.receiptCell]
  · rw [read_congr fun i h1 h2 => hdata i h1 (by omega), h.extent]

end One

/-! ### A history -/

/-- The journal after a history. -/
def afterAll (j : Journal) (hist : List Entry) : Journal := hist.foldl (fun j e => j.after e.1) j

/-- Every commit of the history is on the medium, one behind the other. -/
def Stored : Journal → List Entry → Disk → Prop
  | _, [], _ => True
  | j, (c, payload) :: rest, img => Recorded hash j c payload img ∧ Stored (j.after c) rest img

/-- The receipt cells from the cursor on are zero. -/
def Blank (j : Journal) (img : Disk) : Prop :=
  ∀ k, j.log.toNat + (2 * k + 2) * j.cell.toNat ≤ j.geometry.dataOffset.toNat →
    ∀ i, j.log.toNat + (2 * k + 1) * j.cell.toNat ≤ i →
      i < j.log.toNat + (2 * k + 2) * j.cell.toNat → img i = 0

/-- A history on the medium and nothing behind it. -/
def Log (j : Journal) (hist : List Entry) (img : Disk) : Prop :=
  Stored hash j hist img ∧ (j.afterAll hist).Blank img

/-- The space a put may write to before its receipt: the next record cell and the data
area behind the last extent. -/
def Free (j : Journal) (i : ℕ) : Prop :=
  (j.hasCapacity = true ∧ j.log.toNat ≤ i ∧ i < j.log.toNat + j.cell.toNat) ∨
    (j.data.toNat ≤ i ∧ i < j.geometry.capacity.toNat)

section History

variable {hash} {j : Journal} {hist : List Entry} {img img' : Disk}

theorem afterAll_append (j : Journal) (hist rest : List Entry) :
    j.afterAll (hist ++ rest) = (j.afterAll hist).afterAll rest := foldl_append

theorem Stored.wf (w : j.WF) (h : Stored hash j hist img) :
    (j.afterAll hist).WF ∧ Advances j (j.afterAll hist) := by
  induction hist generalizing j with
  | nil => exact ⟨w, rfl, rfl, le_rfl, le_rfl⟩
  | cons e hist ih =>
    obtain ⟨hc, hrest⟩ := h
    obtain ⟨record, padded, tree, stop, ha⟩ := hc.accepts
    obtain ⟨h1, -⟩ := ha.advances w
    obtain ⟨w', h2⟩ := ih (ha.wf_after w) hrest
    exact ⟨w', h2.geometry.trans h1.geometry, h2.cell.trans h1.cell, h1.log.trans h2.log,
      h1.data.trans h2.data⟩

/-- Every commit takes one pair of the log. -/
theorem Stored.log_eq (w : j.WF) (h : Stored hash j hist img) :
    (j.afterAll hist).log.toNat = j.log.toNat + hist.length * (2 * j.cell.toNat) := by
  induction hist generalizing j with
  | nil => simp [afterAll]
  | cons e hist ih =>
    obtain ⟨c, payload⟩ := e
    obtain ⟨hc, hrest⟩ := h
    obtain ⟨record, padded, tree, stop, ha⟩ := hc.accepts
    obtain ⟨hadv, hlog, -⟩ := ha.advances w
    show ((j.after c).afterAll hist).log.toNat = _
    rw [ih (ha.wf_after w) hrest, hadv.cell, hlog, length_cons]
    ring

theorem Stored.append {rest : List Entry} : Stored hash j (hist ++ rest) img ↔
      Stored hash j hist img ∧ Stored hash (j.afterAll hist) rest img := by
  induction hist generalizing j with
  | nil => exact ⟨fun h => ⟨trivial, h⟩, fun h => h.2⟩
  | cons e hist ih =>
    obtain ⟨c, payload⟩ := e
    show _ ∧ Stored hash (j.after c) (hist ++ rest) img ↔ (_ ∧ Stored hash (j.after c) hist img) ∧ _
    rw [ih, and_assoc]
    rfl

/-- A history depends on its own cells and extents only. -/
theorem Stored.congr (w : j.WF) (h : Stored hash j hist img)
    (hlog : ∀ i, j.log.toNat ≤ i → i < (j.afterAll hist).log.toNat → img' i = img i)
    (hdata : ∀ i, j.data.toNat ≤ i → i < (j.afterAll hist).data.toNat → img' i = img i) :
    Stored hash j hist img' := by
  induction hist generalizing j with
  | nil => trivial
  | cons e hist ih =>
    obtain ⟨hc, hrest⟩ := h
    obtain ⟨record, padded, tree, stop, ha⟩ := hc.accepts
    obtain ⟨h1, -⟩ := ha.advances w
    obtain ⟨-, h2⟩ := hrest.wf (ha.wf_after w)
    refine ⟨hc.congr w (fun i hi hi' => hlog i hi (hi'.trans_le h2.log))
      (fun i hi hi' => hdata i hi (hi'.trans_le h2.data)), ?_⟩
    exact ih (ha.wf_after w) hrest (fun i hi => hlog i (h1.log.trans hi))
      (fun i hi => hdata i (h1.data.trans hi))

theorem Blank.congr (h : j.Blank img)
    (he : ∀ i, j.log.toNat + j.cell.toNat ≤ i → i < j.geometry.dataOffset.toNat → img' i = img i) :
    j.Blank img' := by
  intro k hk i h1 h2
  have hge : j.cell.toNat ≤ (2 * k + 1) * j.cell.toNat := Nat.le_mul_of_pos_left _ (by omega)
  rw [he i (by omega) (by omega)]
  exact h k hk i h1 h2

theorem Blank.head (h : j.Blank img) (w : j.WF) (hroom : j.hasCapacity = true) {i : ℕ}
    (h1 : j.log.toNat + j.cell.toNat ≤ i) (h2 : i < j.log.toNat + 2 * j.cell.toNat) :
    img i = 0 := by
  have := w.hasCapacity_iff.mp hroom
  exact h 0 (by omega) i (by omega) (by omega)

variable {c : Commit} {payload record : Bytes} {padded : UInt64} {tree : List TreeLevel} {stop : ℕ}

/-- Behind a published commit the receipt cells are as blank as before. -/
theorem Blank.after (h : j.Blank img) (w : j.WF)
    (ha : Accepts hash j c payload record padded tree stop) : (j.after c).Blank img := by
  obtain ⟨hadv, hlog, -⟩ := ha.advances w
  intro k hk i h1 h2
  rw [hadv.geometry, hadv.cell] at *
  have hk1 : (2 * (k + 1) + 1) * j.cell.toNat = 2 * j.cell.toNat + (2 * k + 1) * j.cell.toNat := by
    ring
  have hk2 : (2 * (k + 1) + 2) * j.cell.toNat = 2 * j.cell.toNat + (2 * k + 2) * j.cell.toNat := by
    ring
  exact h (k + 1) (by omega) i (by omega) (by omega)

/-- **Changes in the free space leave the log as it is.** -/
theorem Log.congr (w : j.WF) (h : Log hash j hist img)
    (he : ∀ i, j.log.toNat ≤ i → i < j.geometry.capacity.toNat → ¬ (j.afterAll hist).Free i →
      img' i = img i) : Log hash j hist img' := by
  obtain ⟨hs, hb⟩ := h
  obtain ⟨w', hadv⟩ := hs.wf w
  have hld := w'.logLe
  have hdo := w'.data
  have hdc := w'.dataLe
  have hroom := w'.hasCapacity_iff
  rw [hadv.geometry] at hld hdo hdc hroom
  rw [hadv.cell] at hroom
  have hw := w.logLe
  have hwd := w.data
  refine ⟨hs.congr w ?_ ?_, hb.congr ?_⟩
  · intro i h1 h2
    refine he i h1 (by omega) ?_
    rintro (⟨-, h3, -⟩ | ⟨h3, -⟩) <;> omega
  · intro i h1 h2
    refine he i (by omega) (by omega) ?_
    rintro (⟨h3, h4, h5⟩ | ⟨h3, -⟩)
    · have := hroom.mp h3
      rw [hadv.cell] at h5
      omega
    · omega
  · intro i h1 h2
    rw [hadv.geometry] at h2
    rw [hadv.cell] at h1
    have := hadv.log
    refine he i (by omega) (by omega) ?_
    rintro (⟨-, h4, h5⟩ | ⟨h3, -⟩)
    · rw [hadv.cell] at h5
      omega
    · omega

/-- **A commit whose cells and extent are there is part of the log**, when nothing else has
changed but the free space. -/
theorem Log.publish (w : j.WF) (h : Log hash j hist img)
    (hc : Recorded hash (j.afterAll hist) c payload img')
    (he : ∀ i, j.log.toNat ≤ i → i < j.geometry.capacity.toNat → ¬ (j.afterAll hist).Free i →
      ¬ ((j.afterAll hist).log.toNat + j.cell.toNat ≤ i ∧
        i < (j.afterAll hist).log.toNat + 2 * j.cell.toNat) → img' i = img i) :
    Log hash j (hist ++ [(c, payload)]) img' := by
  obtain ⟨hs, hb⟩ := h
  obtain ⟨w', hadv⟩ := hs.wf w
  obtain ⟨record, padded, tree, stop, ha⟩ := hc.accepts
  have hroom := w'.hasCapacity_iff.mp ha.room
  have hld := w'.logLe
  have hdo := w'.data
  have hdc := w'.dataLe
  have hwd := w.data
  have hcell := hadv.cell
  have hgeo := hadv.geometry
  have hadvl := hadv.log
  rw [hgeo] at hroom hld hdo hdc
  rw [hcell] at hroom
  refine ⟨Stored.append.mpr ⟨hs.congr w ?_ ?_, hc, trivial⟩, ?_⟩
  · intro i h1 h2
    refine he i h1 (by omega) ?_ (by omega)
    rintro (⟨-, h3, -⟩ | ⟨h3, -⟩) <;> omega
  · intro i h1 h2
    refine he i (by omega) (by omega) ?_ (by omega)
    rintro (⟨-, h4, h5⟩ | ⟨h3, -⟩)
    · rw [hcell] at h5
      omega
    · omega
  · rw [afterAll_append]
    obtain ⟨hadv', hlog', -⟩ := ha.advances w'
    show Blank ((j.afterAll hist).after c) img'
    refine Blank.congr (hb.after w' ha) fun i h1 h2 => ?_
    rw [hadv'.geometry, hgeo] at h2
    rw [hadv'.cell, hlog', hcell] at h1
    refine he i (by omega) (by omega) ?_ (by omega)
    rintro (⟨-, h4, h5⟩ | ⟨h3, -⟩)
    · rw [hcell] at h5
      omega
    · omega

/-- The record and the receipt of an accepted commit whose extent is there. -/
theorem Log.published (w : j.WF) (h : Log hash j hist img) {receipt : Bytes}
    (ha : Accepts hash (j.afterAll hist) c payload record padded tree stop)
    (henc : (Frame.receipt (j.afterAll hist).log (hash record)).encode hash = .ok receipt)
    (hlen : receipt.length ≤ (j.afterAll hist).cell.toNat)
    (hext : img.read (j.afterAll hist).data.toNat (stop - (j.afterAll hist).data.toNat) =
      (extentPages (treeScheme hash (j.afterAll hist).geometry.align.toNat ha.holds.page)
        (j.afterAll hist).geometry.align.toNat payload tree.length).flatten) :
    Log hash j (hist ++ [(c, payload)])
      ((img.write (j.afterAll hist).log.toNat (pad (j.afterAll hist).cell.toNat record)).write
        ((j.afterAll hist).log.toNat + (j.afterAll hist).cell.toNat)
        (pad (j.afterAll hist).cell.toNat receipt)) := by
  obtain ⟨w', hadv⟩ := h.1.wf w
  have hroom := w'.hasCapacity_iff.mp ha.room
  have hdata := w'.data
  have hrec := length_pad ha.fits
  have hrcp := length_pad hlen
  refine h.publish w ⟨record, receipt, padded, tree, stop, ha, henc, ?_, ?_, ?_⟩ ?_
  · rw [read_write_of_disjoint (by omega)]
    exact read_write _ _ hrec
  · exact read_write _ _ hrcp
  · rw [read_write_of_disjoint (by omega), read_write_of_disjoint (by omega)]
    exact hext
  · intro i _ _ hfree hcell
    rw [← hadv.cell] at hcell
    rw [write_of_not_mem (by omega), write_of_not_mem]
    rintro ⟨h1, h2⟩
    exact hfree (.inl ⟨ha.room, h1, by omega⟩)

end History

end Journal

end Moruna
