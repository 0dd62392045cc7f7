/-
Moruna/Storage/Crash.lean

What a loss of power leaves of a put.

* `Resting` — the pending pieces lie in the free space, so a crash leaves a medium with
  the history as it is (`Resting.crash`);
* `Publishing` — an accepted commit whose extent is durable: its record may be written
  (`Publishing.with_record`), its receipt adds it to the history (`Publishing.with_receipt`), and a
  crash while the receipt is on its way leaves one of the two (`Publishing.split`).
-/
import Moruna.Storage.Mount

namespace Moruna

open Device

variable {hash : Bytes → Digest} {info : Info} {r : Banks.Root} {j₀ : Journal}
variable {hist : List Entry}

/-- The media a loss of power can leave. -/
def Device.CrashesTo (d : Device) (img : Disk) : Prop := Crashes d.durable d.pending img

/-- The history is durable and nothing is pending outside the free space. -/
def Resting (hash : Bytes → Digest) (info : Info) (r : Banks.Root) (j₀ : Journal)
    (hist : List Entry) (d : Device) : Prop :=
  ∃ base, Medium hash r none j₀ hist base ∧
    Held info r.geometry.alignment.toNat base (Inside (j₀.afterAll hist).Free) d

variable {d : Device}
variable {img : Disk}

theorem Resting.crash (h : Resting hash info r j₀ hist d) (hc : d.CrashesTo img) :
    Medium hash r none j₀ hist img := by
  obtain ⟨base, hm, hd⟩ := h
  refine hm.congr fun i _ hi => ?_
  rw [Crashes.eq_outside hc hd.pending hi, hd.durable]

theorem Resting.answers (h : Resting hash info r j₀ hist d) (f : ℕ → Answer) :
    Resting hash info r j₀ hist { d with answers := f } := by
  obtain ⟨base, hm, hd⟩ := h
  exact ⟨base, hm, hd.answers f⟩

theorem Resting.facing (h : Resting hash info r j₀ hist d) (f : ℕ → Answer) (busy : Bool) :
    Resting hash info r j₀ hist { d with answers := f, busy } := by
  obtain ⟨base, hm, hd⟩ := h
  exact ⟨base, hm, hd.info, hd.block, hd.durable, hd.pending⟩

theorem resting_of_flushed (hm : Medium hash r none j₀ hist img)
    (h : Flushed info r.geometry.alignment.toNat img d) : Resting hash info r j₀ hist d :=
  ⟨img, hm, h.held⟩

/-- The commit `c` is accepted next, and its extent is on the medium `img`. -/
structure Publishing (hash : Bytes → Digest) (r : Banks.Root) (j₀ : Journal) (hist : List Entry)
    (c : Commit) (payload record receipt : Bytes) (padded : UInt64) (tree : List TreeLevel)
    (stop : ℕ) (img : Disk) : Prop where
  medium : Medium hash r none j₀ hist img
  accepts : Journal.Accepts hash (j₀.afterAll hist) c payload record padded tree stop
  encoded : (Frame.receipt (j₀.afterAll hist).log (hash record)).encode hash = .ok receipt
  extent : img.read (j₀.afterAll hist).data.toNat (stop - (j₀.afterAll hist).data.toNat) =
    (extentPages (treeScheme hash (j₀.afterAll hist).geometry.align.toNat accepts.holds.page)
      (j₀.afterAll hist).geometry.align.toNat payload tree.length).flatten

namespace Publishing

variable {c : Commit} {payload record receipt : Bytes} {padded : UInt64} {tree : List TreeLevel}
variable {stop : ℕ} {img : Disk}
variable (h : Publishing hash r j₀ hist c payload record receipt padded tree stop img)
include h

theorem length_receipt : receipt.length = 89 := by
  obtain ⟨b, hb, hlen⟩ := @Journal.receipt_encode hash (j₀.afterAll hist).log (hash record)
  obtain rfl : receipt = b := Except.ok.inj (h.encoded.symm.trans hb)
  exact hlen

theorem length_recordCell :
    (Journal.pad (j₀.afterAll hist).cell.toNat record).length = (j₀.afterAll hist).cell.toNat :=
  Journal.length_pad h.accepts.fits

theorem length_receiptCell :
    (Journal.pad (j₀.afterAll hist).cell.toNat receipt).length = (j₀.afterAll hist).cell.toNat := by
  have := h.medium.facts.wf.cell_le
  have := h.length_receipt
  exact Journal.length_pad (by omega)

variable {i : ℕ}

theorem record_free (h1 : (j₀.afterAll hist).log.toNat ≤ i) (h2 : i < (j₀.afterAll hist).log.toNat +
      (Journal.pad (j₀.afterAll hist).cell.toNat record).length) : (j₀.afterAll hist).Free i := by
  rw [h.length_recordCell] at h2
  exact .inl ⟨h.accepts.room, h1, h2⟩

/-- The medium with the record is still one with the history as it was. -/
theorem with_record : Medium hash r none j₀ hist
    (img.write (j₀.afterAll hist).log.toNat (Journal.pad (j₀.afterAll hist).cell.toNat record)) :=
  h.medium.congr fun _ _ hi => Disk.write_of_not_mem fun hm => hi (h.record_free hm.1 hm.2)

/-- **The receipt adds the commit to the history.** -/
theorem with_receipt : Medium hash r none j₀ (hist ++ [(c, payload)])
    ((img.write (j₀.afterAll hist).log.toNat
      (Journal.pad (j₀.afterAll hist).cell.toNat record)).write
        ((j₀.afterAll hist).log.toNat + (j₀.afterAll hist).cell.toNat)
        (Journal.pad (j₀.afterAll hist).cell.toNat receipt)) := by
  have f := h.medium.facts
  have hcell := f.wf.cell_le
  have hlen := h.length_receipt
  have h1 := f.start
  have h2 := f.wf.log_ge
  rw [f.geometry] at h2
  refine ⟨h.medium.valid, h.medium.fresh, ?_, h.medium.log.published f.fresh h.accepts h.encoded
    (by omega) h.extent⟩
  rw [Disk.cell, Disk.cell, Disk.read_write_of_disjoint (by omega),
    Disk.read_write_of_disjoint (by omega), Disk.read_write_of_disjoint (by omega),
    Disk.read_write_of_disjoint (by omega)]
  exact h.medium.recovered

theorem receipt_seals {a : ℕ} (ha : 512 ≤ a) {x : UInt8}
    (hx : x ∈ (Journal.pad (j₀.afterAll hist).cell.toNat receipt).drop a) : x = 0 := by
  have hlen := h.length_receipt
  rw [Journal.pad, List.drop_append, List.drop_of_length_le (by omega)] at hx
  exact List.eq_of_mem_replicate (List.mem_of_mem_drop hx)

theorem receipt_blank (h1 : (j₀.afterAll hist).log.toNat + (j₀.afterAll hist).cell.toNat ≤ i)
    (h2 : i < (j₀.afterAll hist).log.toNat + (j₀.afterAll hist).cell.toNat +
      (Journal.pad (j₀.afterAll hist).cell.toNat receipt).length) :
    img.write (j₀.afterAll hist).log.toNat
      (Journal.pad (j₀.afterAll hist).cell.toNat record) i = 0 := by
  have hrec := h.length_recordCell
  rw [h.length_receiptCell] at h2
  rw [Disk.write_of_not_mem (by omega)]
  exact h.medium.log.2.head h.medium.facts.wf h.accepts.room h1 (by omega)

/-- **A crash while the receipt is on its way leaves the history as it was or with the
commit.** -/
theorem split {block : ℕ} (hb : 512 ≤ block)
    (hd : Held info block
      (img.write (j₀.afterAll hist).log.toNat (Journal.pad (j₀.afterAll hist).cell.toNat record))
      (Seals block ((j₀.afterAll hist).log.toNat + (j₀.afterAll hist).cell.toNat)
        (Journal.pad (j₀.afterAll hist).cell.toNat receipt)) d)
    {img' : Disk} (hc : d.CrashesTo img') :
    Medium hash r none j₀ hist img' ∨ Medium hash r none j₀ (hist ++ [(c, payload)]) img' := by
  obtain ⟨ps, hps, rfl⟩ := hc
  rw [hd.durable]
  rcases applyPieces_seals (fun x hx => h.receipt_seals hb hx)
    (fun i h1 h2 => h.receipt_blank h1 h2) (fun p hp => hd.pending p (hps.subset hp)) with he | he
  · rw [he]
    exact .inl h.with_record
  · rw [he]
    exact .inr h.with_receipt

end Publishing

/-! ### The ends of a call -/

/-- The commit of a call, as far as its caller knows it. -/
structure Asked (object : Object) (bytes : UInt64) (payload : Bytes) (x : Entry) : Prop where
  object : x.1.metadata.object = object
  bytes : x.1.metadata.bytes = bytes
  payload : x.2 = payload

/-- After a crash the history is there as it was or with the entry `x`. -/
def Split (hash : Bytes → Digest) (r : Banks.Root) (j₀ : Journal) (hist : List Entry) (x : Entry)
    (d : Device) : Prop :=
  ∀ img, d.CrashesTo img → Medium hash r none j₀ hist img ∨ Medium hash r none j₀ (hist ++ [x]) img

/-- Where a failed call leaves the device. -/
def Stopped (hash : Bytes → Digest) (info : Info) (r : Banks.Root) (j₀ : Journal)
    (hist : List Entry) (object : Object) (bytes : UInt64) (payload : Bytes) (d : Device) : Prop :=
  Resting hash info r j₀ hist d ∨
    ∃ x, Asked object bytes payload x ∧ Split hash r j₀ hist x d

namespace Volume

variable {v₀ : Volume}

/-- A device at rest, opened up: what is durable and what is visible. -/
theorem of_resting {α : Type} {x : VolumeM α} {Q : α → Volume → Prop} {E : Refusal → Volume → Prop}
    (h : ∀ base img, Medium hash r none j₀ hist base →
      (∀ i, ¬ (j₀.afterAll hist).Free i → img i = base i) →
      Triple (On v₀ (Writing info r.geometry.alignment.toNat base (j₀.afterAll hist).Free img))
        x Q E) : Triple (On v₀ (Resting hash info r j₀ hist)) x Q E := by
  rintro v ⟨⟨base, hm, hd⟩, hs⟩
  refine h base v.device.visible hm (fun i hi => ?_) v ⟨⟨hd, rfl⟩, hs⟩
  rw [visible, applyPieces_outside hd.pending hi, hd.durable]

end Volume

/-- **A planned payload that is on the medium can be published.** -/
theorem publishing_extent {base : Disk} (hm : Medium hash r none j₀ hist base)
    (himg : ∀ i, ¬ (j₀.afterAll hist).Free i → img i = base i)
    {c : Commit} {payload record receipt : Bytes} {padded : UInt64} {tree : List TreeLevel}
    {stop : ℕ} (hacc : Journal.Accepts hash (j₀.afterAll hist) c payload record padded tree stop)
    (hreceipt : (Frame.receipt (j₀.afterAll hist).log (hash record)).encode hash = .ok receipt)
    (h32 : 32 ≤ (j₀.afterAll hist).geometry.align.toNat) :
    Publishing hash r j₀ hist c payload record receipt padded tree stop
      (img.write (j₀.afterAll hist).data.toNat
        (extentPages (treeScheme hash (j₀.afterAll hist).geometry.align.toNat h32)
          (j₀.afterAll hist).geometry.align.toNat payload tree.length).flatten) := by
  have hpages := hacc.holds.length_pages hm.facts.wf.geometry
  have hcap := hacc.holds.planned.capacity
  refine ⟨hm.congr fun i _ hi => ?_, hacc, hreceipt, Disk.read_write _ _ hpages⟩
  rw [Disk.write_of_not_mem, himg i hi]
  rintro ⟨h1, h2⟩
  exact hi (.inr ⟨h1, by omega⟩)

end Moruna
