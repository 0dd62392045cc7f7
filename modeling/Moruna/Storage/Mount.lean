/-
Moruna/Storage/Mount.lean

Mounting a medium: the root cells decide which bank is active, and its receipt log is
replayed up to the first blank receipt.

* `mountInner_spec` — a mount of such a medium answers with exactly the journal of the
  history, or fails as its device does.
-/
import Moruna.Storage.Publish
import Moruna.StorageFormat.Roots

namespace Moruna

open Device Disk List

/-! ### Media -/

/-- The root cells select `r`, and the log of its bank holds the history. -/
structure Medium (hash : Bytes → Digest) (r : Banks.Root) (retire : Option UInt64) (j₀ : Journal)
    (hist : List Entry) (img : Disk) : Prop where
  valid : r.validate = .ok ()
  fresh : Journal.new r.geometry = .ok j₀
  recovered : Banks.Root.recover hash (img.cell r.geometry.alignment.toNat 0)
    (img.cell r.geometry.alignment.toNat 1) = .ok ⟨r, retire⟩
  log : Journal.Log hash j₀ hist img

section Medium

variable {hash : Bytes → Digest} {r : Banks.Root} {retire : Option UInt64} {j₀ : Journal}
variable {hist : List Entry} {img img' : Disk}

theorem onCell_write {size : ℕ} (hlay : r.Layout size) {b : Bytes} (hb : r.encode hash = .ok b)
    (img : Disk) :
    r.OnCell hash ((img.write (r.bank.toNat * r.geometry.alignment.toNat)
      (Journal.pad r.geometry.alignment.toNat b)).cell r.geometry.alignment.toNat) := by
  obtain ⟨-, hle⟩ := Banks.Root.encode_length hash hb
  rw [Banks.Root.OnCell, Disk.cell, read_write _ _ (Journal.length_pad hle)]
  refine Banks.Root.recoverCell_root hlay hb ?_
  exact UInt64.toNat_ofNat_of_lt' (hlay.bank_le.trans_lt (by decide))

/-- The journal of a medium and its numbers. -/
structure Medium.Facts (r : Banks.Root) (j₀ e : Journal) : Prop where
  fresh : j₀.WF
  wf : e.WF
  geometry₀ : j₀.geometry = r.geometry
  geometry : e.geometry = r.geometry
  cell : e.cell = j₀.cell
  log : j₀.log = r.geometry.logOffset
  logLe : j₀.log.toNat ≤ e.log.toNat
  start : 2 * r.geometry.alignment.toNat ≤ r.geometry.logOffset.toNat

theorem Medium.facts (h : Medium hash r retire j₀ hist img) :
    Medium.Facts r j₀ (j₀.afterAll hist) := by
  obtain ⟨w, hg, hl, -, -⟩ := Journal.new_wf h.fresh
  obtain ⟨w', hadv⟩ := h.log.1.wf w
  obtain ⟨size, hlay⟩ := Banks.Root.layout_of_validate h.valid
  have hstart := hlay.start_le
  exact ⟨w, w', hg, hadv.geometry.trans hg, hadv.cell, hl, hadv.log, hstart⟩

variable {e : Journal}

theorem Medium.Facts.min (f : Medium.Facts r j₀ e) :
    512 ≤ r.geometry.alignment.toNat ∧ 32 ≤ e.geometry.align.toNat := by
  have h := f.wf.geometry.min
  rw [f.geometry, r.geometry.toNat_align] at h ⊢
  omega

theorem Medium.Facts.receipt_mod (f : Medium.Facts r j₀ e) :
    (e.log.toNat + e.cell.toNat) % r.geometry.alignment.toNat = 0 := by
  have h1 := f.wf.log_dvd
  have h2 := f.wf.cell_dvd
  rw [f.geometry] at h1 h2
  exact Nat.mod_eq_zero_of_dvd (dvd_add h1 h2)

theorem Medium.free_ge (h : Medium hash r retire j₀ hist img) {i : ℕ}
    (hi : (j₀.afterAll hist).Free i) : 2 * r.geometry.alignment.toNat ≤ i := by
  have f := h.facts
  have h1 := f.start
  have h3 := f.wf.logLe
  have h4 := f.wf.data
  have h5 := f.wf.log_ge
  rw [f.geometry] at h3 h4 h5
  rcases hi with ⟨-, hi, -⟩ | ⟨hi, -⟩ <;> omega

/-- Changes in the free space leave the medium as it is, and so do changes outside the root
cells and the bank. -/
theorem Medium.congr (h : Medium hash r retire j₀ hist img)
    (he : ∀ i, i < 2 * r.geometry.alignment.toNat ∨ r.InBank i → ¬ (j₀.afterAll hist).Free i →
      img' i = img i) : Medium hash r retire j₀ hist img' := by
  have f := h.facts
  have hroot : ∀ i, i < 2 * r.geometry.alignment.toNat → img' i = img i :=
    fun i hi => he i (.inl hi) fun hf => by have := h.free_ge hf; omega
  refine ⟨h.valid, h.fresh, ?_, h.log.congr f.fresh fun i h1 h2 hi => he i (.inr ⟨?_, ?_⟩) hi⟩
  rotate_left
  · rwa [← f.log]
  · rwa [← f.geometry₀]
  rw [Disk.cell, Disk.cell, read_congr fun i _ hi => hroot i (by omega),
    read_congr fun i _ hi => hroot i (by omega)]
  exact h.recovered

end Medium

/-! ### The device during a mount -/

/-- The operations of a mount answer with the bytes of `img`, keep `P` and fail in `E`. -/
structure Serves (info : Info) (img : Disk) (P : Device → Prop) (E : Refusal → Device → Prop) :
    Prop where
  geometry : ∀ d, P d → d.info = info
  attempt : ∀ refusal, Triple P (attempt refusal) (fun _ => P) E
  readBlock : ∀ path off len, Fits info off len → 0 < len → len ≤ info.maxBytes →
    Triple P (readBlock path off len) (fun b d => b = img.read off len ∧ P d) E
  read : ∀ path off len, Fits info off len →
    Triple P (Device.read path off len) (fun b d => b = img.read off len ∧ P d) E

variable {P : Device → Prop}
variable {info : Info} {img : Disk}

theorem Serves.readPage {E : Refusal → Device → Prop}
    (hs : Serves info img P E) (path : Path) {off len : ℕ} (hf : Fits info off len) (hpos : 0 < len)
    (hmax : len ≤ info.maxBytes) :
    Triple P (Device.readPage path off len) (fun b d => b = img.read off len ∧ P d) E :=
  .ite (fun _ => hs.read path off len hf) fun _ => hs.readBlock path off len hf hpos hmax

/-- Any device with that visible contents, when failures are allowed. -/
theorem serves_of_stable (hP : ∀ d f, P d → P { d with answers := f })
    (hi : ∀ d, P d → d.info = info) (hv : ∀ d, P d → d.visible = img) :
    Serves info img P (fun _ => P) where
  geometry := hi
  attempt refusal := (attempt_spec hP refusal).error fun _ _ h => h.2
  readBlock _ off len _ _ _ := (readBlock_spec hP hv off len).post fun _ _ h => ⟨h.2, h.1⟩
  read _ off len _ := (read_spec hP hv off len).post fun _ _ h => ⟨h.2, h.1⟩

theorem serves_flushed {block : ℕ} :
    Serves info img (Flushed info block img) (fun _ => Flushed info block img) :=
  serves_of_stable (fun _ f h => h.answers f) (fun _ h => h.info) fun _ h => h.visible_eq

/-- A calm device does not fail. -/
theorem serves_calm (hP : ∀ d f, P d → P { d with answers := f })
    (hv : ∀ d, P d → d.visible = img) :
    Serves info img (fun d => Calm info d ∧ P d) (fun _ _ => False) where
  geometry _ h := h.1.info
  attempt refusal := ((attempt_calm refusal).and (attempt_spec hP refusal)).error fun _ _ h => h.1
  readBlock _ off len hf hpos hmax :=
    ((readBlock_calm hf hpos hmax).and (readBlock_spec hP hv off len)).conseq
      (fun _ h => h) (fun _ _ h => ⟨h.2.2, h.1, h.2.1⟩) fun _ _ h => h.1
  read _ off len hf :=
    ((read_calm hf).and (read_spec hP hv off len)).conseq
      (fun _ h => h) (fun _ _ h => ⟨h.2.2, h.1, h.2.1⟩) fun _ _ h => h.1

/-- The device carries volumes with the root `r`. -/
structure Mountable (info : Info) (r : Banks.Root) : Prop where
  role : r.geometry.role ≠ .formatProof
  sector : info.sectorSize ∣ r.geometry.alignment.toNat
  max : r.geometry.alignment.toNat ≤ info.maxBytes
  physical : r.physical.toNat = info.sectors * info.sectorSize

section Mount

variable {hash : Bytes → Digest} {r : Banks.Root} {retire : Option UInt64} {j₀ : Journal}
variable {hist : List Entry} {img : Disk} {info : Info}
variable {P P' : Device → Prop} {E : Refusal → Device → Prop}
variable {a block off : ℕ} {j : Journal} {base : Disk} {geometry : Superblock}

/-- Aligned bytes in front of the end of the bank can be read. -/
theorem Mountable.fits (h : Mountable info r) (hv : r.validate = .ok ()) {len : ℕ}
    (hoff : r.geometry.alignment.toNat ∣ off) (hlen : r.geometry.alignment.toNat ∣ len)
    (hle : off + len ≤ r.geometry.capacity.toNat) : Fits info off len := by
  obtain ⟨size, hlay⟩ := Banks.Root.layout_of_validate hv
  have := hlay.stop_le
  have := h.physical
  exact ⟨h.sector.trans hoff, h.sector.trans hlen, by omega⟩

/-- **The replay loop answers with the journal of the history.** -/
theorem replayLog_spec (hs : Serves info img P E) (hm : Mountable info r)
    (hv : r.validate = .ok ()) (w : j.WF) (hg : j.geometry = r.geometry)
    (hlog : Journal.Log hash j hist img) {rounds : ℕ} (hrounds : hist.length < rounds) :
    Triple P (Volume.replayLog hash rounds j) (fun e d => e = j.afterAll hist ∧ P d) E := by
  induction rounds generalizing j hist with
  | zero => omega
  | succ rounds ih =>
    rw [Volume.replayLog]
    by_cases hroom : j.hasCapacity = true
    · have hle := w.hasCapacity_iff.mp hroom
      have hdata := w.data.trans w.dataLe
      have hcell := w.cell_dvd
      have hlogd := w.log_dvd
      rw [hg] at hle hdata
      rw [hg] at hcell hlogd
      rw [if_pos hroom]
      refine .seq (hs.read _ _ _ (hm.fits hv hlogd hcell (by omega))) fun record hrecord => ?_
      refine .seq (hs.read _ _ _ (hm.fits hv (dvd_add hlogd hcell) hcell (by omega)))
        fun receipt hreceipt => ?_
      subst hrecord hreceipt
      cases hist with
      | nil =>
        -- case: nothing behind the cursor, so its receipt cell is blank
        have hz : (img.read (j.log.toNat + j.cell.toNat) j.cell.toNat).all (· == 0) = true := by
          rw [all_eq_true]
          intro x hx
          obtain ⟨i, hi, rfl⟩ := mem_map.mp hx
          have hi := mem_range.mp hi
          have hblank : j.Blank img := hlog.2
          rw [beq_iff_eq]
          exact hblank.head w hroom (by omega) (by omega)
        refine .seq_eq (mapErr_of (Journal.replay_blank hroom (length_read _ _ _)
          (length_read _ _ _) hz)) ?_
        exact .pure fun _ h => ⟨rfl, h⟩
      | cons e hist =>
        obtain ⟨⟨⟨record, receipt, padded, tree, stop, hc⟩, hrest⟩, hblank⟩ := hlog
        have hreplay := Journal.replay_accepts hc.accepts w hc.encoded
        rw [← hc.recordCell, ← hc.receiptCell] at hreplay
        refine .seq_eq (mapErr_of hreplay) ?_
        obtain ⟨hadv, -⟩ := hc.accepts.advances w
        exact ih (hc.accepts.wf_after w) (hadv.geometry.trans hg) ⟨hrest, hblank⟩
          (Nat.lt_of_succ_lt_succ hrounds)
    · -- case: the log is full
      rw [if_neg hroom]
      cases hist with
      | nil => exact .pure fun _ h => ⟨rfl, h⟩
      | cons e hist =>
        obtain ⟨record, padded, tree, stop, ha⟩ := hlog.1.1.accepts
        exact absurd ha.room hroom

/-- **A mount answers with the journal of the medium.** -/
theorem mountInner_spec (hs : Serves info img P E) (hm : Medium hash r retire j₀ hist img)
    (hr : Mountable info r)
    (hret : Triple P (Volume.retire r.geometry.alignment.toNat retire) (fun _ => P') E) :
    Triple P (Volume.mountInner hash r.geometry.alignment r.geometry.role)
      (fun v d => v = ⟨d, j₀.afterAll hist, r, 0, false, false⟩ ∧ P' d) E := by
  obtain ⟨size, hlay⟩ := Banks.Root.layout_of_validate hm.valid
  have f := hm.facts
  have hmin := hlay.geometry.min
  have hpow := hlay.geometry.pow
  have hphys := hlay.physical
  rw [r.geometry.toNat_align] at hmin hpow hphys
  have hsector := Nat.le_of_dvd (by omega) hr.sector
  have hpm := hr.physical
  refine .look fun d₀ h => ?_
  have hinfo := hs.geometry d₀ h
  refine .bind (refuse_of ?_) fun _ => ?_
  · rw [hinfo, isPowerOfTwo_iff.mpr hpow, Nat.mod_eq_zero_of_dvd hr.sector,
      beq_eq_false_iff_ne.mpr hr.role, decide_eq_false (by omega)]
    rfl
  refine .bind (hs.attempt _) fun _ => .bind (hs.attempt _) fun _ => ?_
  have hfit : ∀ off, r.geometry.alignment.toNat ∣ off → off ≤ r.geometry.alignment.toNat →
      Fits info off r.geometry.alignment.toNat := fun off hd hle =>
    ⟨hr.sector.trans hd, hr.sector, by omega⟩
  refine .seq (hs.readBlock _ _ _ (hfit 0 (dvd_zero _) (by omega)) (by omega) hr.max)
    fun first hfirst => ?_
  refine .seq (hs.readBlock _ _ _ (hfit _ dvd_rfl le_rfl) (by omega) hr.max)
    fun second hsecond => ?_
  obtain rfl : first = img.cell r.geometry.alignment.toNat 0 := by rw [hfirst, Disk.cell, zero_mul]
  obtain rfl : second = img.cell r.geometry.alignment.toNat 1 := by rw [hsecond, Disk.cell, one_mul]
  refine .seq_eq (mapErr_of hm.recovered) ?_
  refine .bind (refuse_of ?_) fun _ => ?_
  · have hcap : d₀.capacity = r.physical := by
      rw [← UInt64.toNat_inj, toNat_capacity, hinfo, hpm]
    rw [hcap]
    simp
  refine .bind (hs.attempt _) fun _ => ?_
  refine .seq_eq (mapErr_of hm.fresh) ?_
  refine .bind (hs.attempt _) fun _ => .bind (hs.attempt _) fun _ => ?_
  have hrounds : hist.length < r.geometry.logBytes.toNat + 1 := by
    have h1 := hm.log.1.log_eq f.fresh
    have h2 := f.wf.logLe
    have h3 := hlay.geometry.logEnd
    have h4 := f.fresh.cell_le
    rw [f.geometry] at h2
    rw [f.log] at h1
    have h5 : hist.length * 1 ≤ hist.length * (2 * j₀.cell.toNat) :=
      Nat.mul_le_mul_left _ (by omega)
    omega
  refine .seq_eq (replayLog_spec hs hr hm.valid f.fresh f.geometry₀ hm.log hrounds) ?_
  refine .bind hret fun _ => ?_
  exact .bind (Q := fun d' d => d' = d ∧ P' d) (.get fun _ h => ⟨rfl, h⟩)
    fun d' => .pure fun d h => ⟨by rw [h.1], h.2⟩

/-! ### Provisioning -/

theorem requireBlank_spec {slot : ℕ} :
    Triple (fun d => Held info block base (fun _ => True) d ∧ d.visible = img)
      (Volume.requireBlank a slot)
      (fun _ d => (a ≤ info.maxBytes ∧ ∀ i, slot ≤ i → i < slot + a → img i = 0) ∧
        Held info block base (fun _ => True) d ∧ d.visible = img)
      (fun _ _ => True) := by
  refine .bind (((readBlock_max slot a).and (readBlock_spec (fun _ f h => ⟨h.1.answers f, h.2⟩)
    (fun _ h => h.2) slot a)).conseq (fun _ h => ⟨h.1.info, h⟩) (fun _ _ h => h)
    fun _ _ _ => trivial) fun b => ?_
  refine .post (refuse_spec fun _ _ => trivial) ?_
  rintro _ d ⟨hb, hmax, hd, rfl⟩
  refine ⟨⟨hmax, fun i h1 h2 => ?_⟩, hd⟩
  have hmem : img i ∈ img.read slot a :=
    mem_map.mpr ⟨i - slot, mem_range.mpr (by omega), by congr 1; omega⟩
  rw [any_eq_false] at hb
  simpa using hb _ hmem

theorem clearLog_spec {n : ℕ} (ha : 2 * a ≤ off) :
    Triple (fun d => Held info block base (fun _ => True) d ∧ d.visible = img)
      ((List.range n).forM fun i => Device.write .blocking (off + i * a) (List.replicate a 0))
      (fun _ d => Held info block base (fun _ => True) d ∧ (∀ i, i < 2 * a → d.visible i = img i) ∧
        ∀ i, off ≤ i → i < off + n * a → d.visible i = 0)
      (fun _ _ => True) := by
  -- `k` cells are cleared, and the root cells are as they were
  let Cleared : ℕ → Disk → Prop := fun k c =>
    (∀ i, i < 2 * a → c i = img i) ∧ ∀ i, off ≤ i → i < off + k * a → c i = 0
  refine .conseq (.forM (fun pre d => ∃ c, Cleared pre.length c ∧
      Held info block base (fun _ => True) d ∧ d.visible = c) fun pre k post hl => ?_)
    (fun d hd => ⟨img, ⟨fun _ _ => rfl, fun i h1 h2 => by rw [length_nil] at h2; omega⟩, hd⟩) ?_
    fun _ _ h => h
  · obtain rfl : k = pre.length := by
      have hlt : pre.length < n := by
        have := congrArg List.length hl
        simp only [length_range, length_append, length_cons] at this
        omega
      have h := congrArg (fun l => l[pre.length]?) hl
      simpa [hlt] using h.symm
    refine .of_exists fun c => .of_pre fun hc => ?_
    refine ((write_spec fun _ _ _ _ _ => trivial).error fun _ _ _ => trivial).post fun _ d hd => ?_
    refine ⟨_, ⟨fun i hi => ?_, fun i h1 h2 => ?_⟩, hd⟩
    · rw [write_of_not_mem (by omega)]
      exact hc.1 i hi
    rw [length_append, length_singleton, Nat.succ_mul] at h2
    by_cases hin : off + pre.length * a ≤ i ∧
        i < off + pre.length * a + (List.replicate a (0 : UInt8)).length
    · rw [write_of_mem hin, getD_eq_getElem _ _ (by omega), getElem_replicate]
    · rw [write_of_not_mem hin]
      rw [length_replicate] at hin
      exact hc.2 i h1 (by omega)
  rintro _ d ⟨c, hc, hd, rfl⟩
  rw [length_range] at hc
  exact ⟨hd, hc⟩

theorem log_nil (hl : j.log = j.geometry.logOffset)
    (hz : ∀ i, j.geometry.logOffset.toNat ≤ i → i < j.geometry.dataOffset.toNat → img i = 0) :
    Journal.Log hash j [] img := by
  refine ⟨trivial, fun k hk i h1 h2 => hz i ?_ ?_⟩
  · have h3 : j.log.toNat + (2 * k + 1) * j.cell.toNat ≤ i := h1
    rw [hl] at h3
    omega
  · exact h2.trans_le hk

/-- The first root of a volume with that geometry on that device. -/
def FirstRoot (info : Info) (geometry : Superblock) (r : Banks.Root) : Prop :=
  Banks.Root.initial (UInt64.ofNat (info.sectors * info.sectorSize)) geometry.alignment
    geometry.logBytes geometry.role geometry.workspace geometry.bucket = .ok r

/-- The device holds a medium with an empty history, whose root has that geometry. -/
def Provisioned (hash : Bytes → Digest) (info : Info) (block : ℕ) (geometry given : Superblock)
    (d : Device) : Prop :=
  ∃ r j₀ img, r.geometry = given ∧ FirstRoot info geometry r ∧ Medium hash r none j₀ [] img ∧
    Mountable info r ∧ Flushed info block img d

/-- The first root makes a medium with an empty history. -/
theorem provisionRoot_spec :
    Triple (fun d => d.info = info ∧ d.block = block) (Volume.provisionRoot hash geometry)
      (Provisioned hash info block geometry) (fun _ _ => True) := by
  -- nothing is known of the device but its geometry and what is visible
  let Any : Disk → Device → Prop := fun img d =>
    ∃ base, Held info block base (fun _ => True) d ∧ d.visible = img
  refine .pre (P := fun d => ∃ img, Any img d) ?_
    fun d h => ⟨d.visible, d.durable, ⟨h.1, h.2, rfl, fun _ _ => trivial⟩, rfl⟩
  refine .of_exists fun img => ?_
  refine .look fun d₀ h => ?_
  have hinfo := h.elim fun _ h => h.1.info
  refine .seq (mapErr_spec fun _ _ => trivial) fun _ hv => ?_
  refine .seq (refuse_spec fun _ _ => trivial) fun _ hc => ?_
  refine .seq (mapErr_spec fun _ _ => trivial) fun r hr => ?_
  refine .seq (mapErr_spec fun _ _ => trivial) fun j₀ hj => ?_
  refine .seq (mapErr_spec fun _ _ => trivial) fun b hb => ?_
  obtain ⟨hvalid, hbank, hphys, halign, hrole⟩ := Banks.Root.initial_spec hr
  obtain ⟨size, hlay⟩ := Banks.Root.layout_of_validate hvalid
  have hstart := hlay.start_le
  have hend := hlay.geometry.logEnd
  have hdvd := hlay.geometry.dvdLogBytes
  have hmin := hlay.geometry.min
  rw [r.geometry.toNat_align] at hstart hdvd hmin
  obtain ⟨-, hjg, hjl, -, -⟩ := Journal.new_wf hj
  refine .bind ((attempt_spec (fun d f h => h.elim fun base h =>
    ⟨base, h.1.answers f, h.2⟩) _).error fun _ _ _ => trivial) fun _ => ?_
  refine .of_exists fun base => ?_
  refine .seq requireBlank_spec fun _ hfirst => ?_
  refine .seq requireBlank_spec fun _ hsecond => ?_
  refine .bind (clearLog_spec hstart) fun _ => ?_
  refine .pre (P := fun d => ∃ c, ((∀ i, i < 2 * r.geometry.alignment.toNat → c i = img i) ∧
    ∀ i, r.geometry.logOffset.toNat ≤ i → i < r.geometry.logOffset.toNat +
      r.geometry.logBytes.toNat / r.geometry.alignment.toNat * r.geometry.alignment.toNat →
      c i = 0) ∧
    Held info block base (fun _ => True) d ∧ d.visible = c) ?_
    fun d h => ⟨d.visible, h.2, h.1, rfl⟩
  refine .of_exists fun c => .of_pre fun hclear => ?_
  refine .bind (flush_spec.error fun _ _ _ => trivial) fun _ => ?_
  obtain ⟨-, hle⟩ := Banks.Root.encode_length hash hb
  have hlen := Journal.length_pad hle
  rw [Nat.div_mul_cancel hdvd] at hclear
  refine .bind ((write_region_spec (R := fun _ => True) fun _ _ _ => trivial).conseq
    (fun _ h => ⟨Flushed.held h, Flushed.visible_eq h⟩) (fun _ _ h => h) (fun _ _ _ => trivial))
    fun _ => ?_
  refine .bind (flush_spec.error fun _ _ _ => trivial) fun _ => ?_
  have hmedium : Medium hash r none j₀ []
      (c.write 0 (Journal.pad r.geometry.alignment.toNat b)) := by
    refine ⟨hvalid, hj, Banks.Root.recover_single hlay ?_ ?_, log_nil (by rw [hjl, hjg]) ?_⟩
    · have h := onCell_write hlay hb c
      rwa [hbank, show UInt8.toNat 0 = 0 from rfl, zero_mul] at h
    · rw [hbank, Disk.cell, read_eq_replicate]
      intro i h1 h2
      have h1 : 1 * r.geometry.alignment.toNat ≤ i := h1
      have h2 : i < 1 * r.geometry.alignment.toNat + r.geometry.alignment.toNat := h2
      rw [write_of_not_mem (by rw [hlen]; omega), hclear.1 _ (by omega)]
      exact hsecond.2 _ (by omega) (by omega)
    · intro i h1 h2
      rw [hjg] at h1 h2
      rw [write_of_not_mem (by rw [hlen]; omega)]
      exact hclear.2 i h1 (by omega)
  have hmount : Mountable info r := by
    simp only [Bool.or_eq_false_iff, bne_eq_false_iff_eq, beq_eq_false_iff_ne] at hc
    refine ⟨hrole ▸ hc.1.2, ?_, hfirst.1, ?_⟩
    · rw [halign, ← hinfo]
      exact Nat.dvd_of_mod_eq_zero hc.2
    · rw [hphys, toNat_capacity, hinfo]
  rw [Device.capacity, hinfo] at hr
  exact .pure fun d hd => ⟨r, j₀, _, rfl, hr, hmedium, hmount, hd⟩

/-- **Provisioning leaves a medium with an empty history.** -/
theorem provision_spec :
    Triple (fun d => d.info = info ∧ d.block = block) (Volume.provision hash geometry)
      (fun v d => ∃ r j₀ img, FirstRoot info geometry r ∧ Medium hash r none j₀ [] img ∧
        Mountable info r ∧ v = ⟨d, j₀, r, 0, false, false⟩ ∧ Flushed info block img d)
      (fun _ _ => True) := by
  refine .bind provisionRoot_spec fun given => ?_
  rintro d ⟨r, j₀, img, rfl, hfirst, hmedium, hmount, hd⟩
  exact (mountInner_spec serves_flushed hmedium hmount (.skip)).conseq
    (fun _ h => h) (fun v d h => ⟨r, j₀, img, hfirst, hmedium, hmount, h.1, h.2⟩)
    (fun _ _ _ => trivial) d hd

theorem provision_ok {d d₀ : Device} {v : Volume}
    (h : Volume.provision hash geometry d = .ok v d₀) :
    ∃ r j₀ img, FirstRoot d.info geometry r ∧ Medium hash r none j₀ [] img ∧ Mountable d.info r ∧
      v = ⟨d₀, j₀, r, 0, false, false⟩ ∧ Flushed d.info d.block img d₀ :=
  provision_spec.of_ok ⟨rfl, rfl⟩ h

end Mount

end Moruna
