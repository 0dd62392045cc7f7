/-
Moruna/Storage/Read.lean

Reading a committed object back.

* `Volume.read_spec` — a range of the object is that range of the payload.
-/
import Moruna.Storage.Mount

namespace Moruna

open List

open Device

/-! ### Objects on the medium -/

namespace Journal

/-- The pages of the payload and of its digest tree are on the medium. -/
def Readable (hash : Bytes → Digest) (s : Superblock) (c : Commit) (payload : Bytes) (img : Disk) :
    Prop :=
  ∃ start padded tree stop, ∃ h : Holds hash s start c payload padded tree stop,
    img.read start.toNat (stop - start.toNat) =
      (extentPages (treeScheme hash s.align.toNat h.page) s.align.toNat payload tree.length).flatten

variable {hash : Bytes → Digest} {j : Journal} {hist : List Entry} {img : Disk}

theorem Recorded.readable {c : Commit} {payload : Bytes} (h : Recorded hash j c payload img) :
    Readable hash j.geometry c payload img := by
  obtain ⟨record, receipt, padded, tree, stop, h⟩ := h
  exact ⟨j.data, padded, tree, stop, h.accepts.holds, h.extent⟩

theorem Stored.readable (w : j.WF) (h : Stored hash j hist img) {x : Entry} (hx : x ∈ hist) :
    Readable hash j.geometry x.1 x.2 img := by
  induction hist generalizing j with
  | nil => exact absurd hx not_mem_nil
  | cons e hist ih =>
    obtain ⟨hc, hrest⟩ := h
    obtain ⟨record, padded, tree, stop, ha⟩ := hc.accepts
    rcases mem_cons.mp hx with rfl | hx
    · exact hc.readable
    · rw [← (ha.advances w).1.geometry]
      exact ih (ha.wf_after w) hrest hx

end Journal

namespace Volume

variable {hash : Bytes → Digest} {info : Info} {img : Disk} {r : Banks.Root}
variable {P : Device → Prop} {E : Refusal → Device → Prop}

/-! ### One block -/

variable {a hi lo n : ℕ} {payload : Bytes} {α : Type}

/-- The nodes of a proof, read from the medium one by one. -/
theorem readNodes_spec (hs : Serves info img P E) {path : Path} (ha : 0 < a)
    (hmax : a ≤ info.maxBytes) {p q : BlockProof} {nodes : List Bytes}
    (hacc : p.acceptNodes hash nodes = .ok q)
    (hsteps : List.Forall₂ (fun step node => Fits info step.offset.toNat a ∧
      img.read step.offset.toNat a = node) (p.steps.drop p.next) nodes) :
    Triple P (readNodes hash path a nodes.length p) (fun q' d => q' = q ∧ P d) E := by
  induction nodes generalizing p with
  | nil =>
    cases hacc
    exact .pure fun _ h => ⟨rfl, h⟩
  | cons node nodes ih =>
    obtain ⟨p', hnode, hrest⟩ := seq_eq_ok.mp hacc
    obtain ⟨step, d, hstep, -, -, -, -, hp'⟩ := (BlockProof.acceptNode_eq_ok hash).mp hnode
    rw [BlockProof.drop_next hstep] at hsteps
    obtain ⟨⟨hfit, hread⟩, htail⟩ := forall₂_cons.mp hsteps
    rw [length_cons, readNodes, hstep]
    refine .seq_eq (hs.readPage _ hfit ha hmax) ?_
    rw [hread]
    refine .seq_eq (mapErr_of hnode) ?_
    refine ih hrest ?_
    rw [hp']
    exact htail

/-! ### A range of blocks -/

theorem blockPage_slice {block : ℕ} (h1 : block * a ≤ lo) (h2 : lo ≤ hi)
    (h3 : hi ≤ payload.length) (h4 : hi ≤ (block + 1) * a) :
    ((blockPage a payload block).drop (lo - block * a)).take (hi - lo) =
      (payload.drop lo).take (hi - lo) := by
  rw [Nat.succ_mul] at h4
  have hlen := length_blockData a payload block
  rw [blockPage, drop_append_of_le_length (by omega),
    take_append_of_le_length (by rw [length_drop]; omega), blockData, drop_take,
    take_take, drop_drop, Nat.add_sub_cancel' h1]
  congr 1
  omega

theorem slice_append (l : List α) {mid : ℕ} (h1 : lo ≤ mid) (h2 : mid ≤ hi) :
    (l.drop lo).take (mid - lo) ++ (l.drop mid).take (hi - mid) = (l.drop lo).take (hi - lo) := by
  rw [show hi - lo = (mid - lo) + (hi - mid) by omega, take_add, drop_drop, Nat.add_sub_cancel' h1]

/-- The volume with its copy counter. -/
def Counted (v₀ : Volume) (P : Device → Prop) (n : ℕ) (v : Volume) : Prop :=
  On v₀ P v ∧ v.copied.toNat = n

variable {v₀ : Volume}

theorem onDevice_counted {x : DeviceM α} {Q : α → Device → Prop} (h : Triple P x Q E) :
    Triple (Counted v₀ P n) (onDevice x) (fun a => Counted v₀ (Q a) n) (fun e => On v₀ (E e)) := by
  intro v hv
  show Post _ _ (onDevice x v)
  unfold onDevice
  rcases hr : x v.device with ⟨a, d⟩ | ⟨e, d⟩
  · exact ⟨⟨h.of_ok hv.1.1 hr, hv.1.2.1, hv.1.2.2, hv.1.2.3, hv.1.2.4⟩, hv.2⟩
  · exact ⟨h.of_error hv.1.1 hr, hv.1.2.1, hv.1.2.2, hv.1.2.3, hv.1.2.4⟩

/-- The counter does not overflow while it stays below the word size. -/
theorem addCopied_counted {k : ℕ} {E : Refusal → Volume → Prop} (h : n + k < 2 ^ 64) :
    Triple (Counted v₀ P n) (addCopied k) (fun _ => Counted v₀ P (n + k)) E := by
  have hk : (UInt64.ofNat k).toNat = k := UInt64.toNat_ofNat_of_lt' (show k < 2 ^ 64 by omega)
  refine .look fun v' ⟨_, hv'⟩ => ?_
  have hadd : (v'.copied + UInt64.ofNat k).toNat = n + k := by
    rw [UInt64.toNat_add, hv', hk, Nat.mod_eq_of_lt h]
  have hsum : checkedAdd v'.copied (UInt64.ofNat k) = some (v'.copied + UInt64.ofNat k) := by
    rw [checkedAdd_eq_some, hv', hk, hadd]
  rw [hsum]
  exact .pure_bind (.update fun v hv => ⟨⟨hv.1.1, hv.1.2.1, hv.1.2.2, hv.1.2.3, hv.1.2.4⟩, hadd⟩)

section Stored

variable (hs : Serves info img P E) (hr : Mountable info r)
  (hv : r.validate = .ok ()) {c : Commit} {payload : Bytes}
  {start padded : UInt64} {tree : List TreeLevel} {stop : ℕ}
  (h : Journal.Holds hash r.geometry start c payload padded tree stop)
  (hext : img.read start.toNat (stop - start.toNat) =
    (extentPages (treeScheme hash r.geometry.align.toNat h.page) r.geometry.align.toNat payload
      tree.length).flatten)

include hs hr hv hext

/-- **A block of a readable object passes its proof.** -/
theorem readVerified_spec {path : Path} {block : UInt64}
    (hb : block.toNat < ceilDiv payload.length r.geometry.align.toNat) :
    Triple P (readVerified hash path r.geometry c start block)
      (fun page d => page = blockPage r.geometry.align.toNat payload block.toNat ∧ P d) E := by
  obtain ⟨size, hlay⟩ := Banks.Root.layout_of_validate hv
  have g := hlay.geometry
  have h32 := h.page
  have halign := r.geometry.toNat_align
  have hmax : r.geometry.align.toNat ≤ info.maxBytes := halign ▸ hr.max
  have hpages : ∀ x ∈ extentPages (treeScheme hash r.geometry.align.toNat h32)
      r.geometry.align.toNat payload tree.length, x.length = r.geometry.align.toNat :=
    fun x hx => length_of_mem_extentPages h32 (dvd_of_pow g.min g.pow) hx
  -- a page of the extent is inside the device and is read back
  have hpage : ∀ i x, (extentPages (treeScheme hash r.geometry.align.toNat h32)
      r.geometry.align.toNat payload tree.length)[i]? = some x →
      Fits info (start.toNat + i * r.geometry.align.toNat) r.geometry.align.toNat ∧
        img.read (start.toNat + i * r.geometry.align.toNat) r.geometry.align.toNat = x := by
    intro i x hx
    refine ⟨hr.fits hv ?_ (by rw [halign]) ?_, Disk.read_flatten hpages hext hx⟩
    · exact dvd_add h.planned.dvd (Dvd.intro_left _ rfl)
    have hlen := h.length_pages g
    rw [length_flatten_of_forall hpages] at hlen
    have hi := lt_of_getElem? hx
    have hle : (i + 1) * r.geometry.align.toNat ≤ _ * r.geometry.align.toNat :=
      Nat.mul_le_mul_right _ hi
    have := h.planned.capacity
    rw [Nat.succ_mul] at hle
    omega
  obtain ⟨p, hnew, hleads⟩ := leads_of_planned hash g h32 h.named h.planned h.length h.location hb
  have hi : block.toNat < ((payloadPages r.geometry.align.toNat payload).map hash).length := by
    rwa [length_map, length_payloadPages]
  obtain ⟨q, hacc, -, hver⟩ := BlockProof.accepts_path hash h32 hi
    (Nat.mul_div_cancel' (dvd_of_pow g.min g.pow)) r.geometry.align.toNat_lt hleads.first
      hleads.page
    hleads.slots hleads.root (leaf_eq hash hi) (length_blockPage _ payload block.toNat)
  have hnodes : List.Forall₂ (fun step node => Fits info step.offset.toNat r.geometry.align.toNat ∧
      img.read step.offset.toNat r.geometry.align.toNat = node) (p.steps.drop p.next)
      ((treeScheme hash r.geometry.align.toNat h32).pathPages
        ((payloadPages r.geometry.align.toNat payload).map hash) block.toNat tree.length) := by
    rw [hleads.first]
    refine hleads.pages.imp ?_
    rintro step node ⟨i, hoff, hnode⟩
    rw [hoff]
    exact hpage i node hnode
  refine .seq_eq (mapErr_of hnew) ?_
  have hlen := hnodes.length_eq
  rw [hleads.first, drop_zero] at hlen
  rw [hlen]
  refine .seq_eq (readNodes_spec hs (by omega) hmax hacc hnodes) ?_
  obtain ⟨hfit, hblock⟩ := hpage block.toNat _ (by
    rw [extentPages, getElem?_append_left (by rwa [length_payloadPages])]
    exact payloadPages_getElem? hb)
  refine .seq_eq (hs.readPage _ hfit (by omega) hmax) ?_
  rw [hblock]
  exact .bind (mapErr_of hver) fun _ => .pure fun _ h => ⟨rfl, h.2⟩

/-- The loop over the blocks of a range answers with the bytes of the range from its block
on. -/
theorem readBlocks_spec {offset last left block n : ℕ} (hlast : last ≤ payload.length)
    (hoff : offset ≤ last) (hfirst : offset < (block + 1) * r.geometry.align.toNat)
    (hleft : block + left = max block (ceilDiv last r.geometry.align.toNat))
    (hn : n + (last - max offset (block * r.geometry.align.toNat)) < 2 ^ 64) :
    Triple (Counted v₀ P n) (readBlocks hash r.geometry c start offset last left block)
      (fun b v => b = (payload.drop (max offset (block * r.geometry.align.toNat))).take
        (last - max offset (block * r.geometry.align.toNat)) ∧ On v₀ P v)
      (fun e => On v₀ (E e)) := by
  have ha : 0 < r.geometry.align.toNat := by have := h.page; omega
  have hplen : payload.length < 2 ^ 64 := by
    rw [h.length]
    exact c.metadata.bytes.toNat_lt
  induction left generalizing block n with
  | zero =>
    -- case: the range ends in front of this block
    have hle : last ≤ block * r.geometry.align.toNat := (ceilDiv_le_iff ha).mp (by omega)
    refine .pure fun v hv => ⟨?_, hv.1⟩
    rw [Nat.sub_eq_zero_of_le (by omega), take_zero]
  | succ left ih =>
    have hlt : block < ceilDiv last r.geometry.align.toNat := by omega
    have hin := (lt_ceilDiv_iff ha).mp hlt
    have hb : block < ceilDiv payload.length r.geometry.align.toNat :=
      (lt_ceilDiv_iff ha).mpr (by omega)
    have hword : (UInt64.ofNat block).toNat = block := by
      have : block * 1 ≤ block * r.geometry.align.toNat := Nat.mul_le_mul_left _ ha
      exact UInt64.toNat_ofNat_of_lt' (show block < 2 ^ 64 by omega)
    have hsucc : (block + 1) * r.geometry.align.toNat =
      block * r.geometry.align.toNat + r.geometry.align.toNat := Nat.succ_mul _ _
    have hverified : Triple P
        (readVerified hash .blocking r.geometry c start (UInt64.ofNat block))
        (fun page d => page = blockPage r.geometry.align.toNat payload (UInt64.ofNat block).toNat ∧
          P d) E := readVerified_spec hs hr hv h hext (by rwa [hword])
    rw [hword] at hverified
    refine .bind (Q := fun page v => page = blockPage r.geometry.align.toNat payload block ∧
      Counted v₀ P n v) ((onDevice_counted hverified).post fun _ v hv =>
        ⟨hv.1.1.1, ⟨hv.1.1.2, hv.1.2⟩, hv.2⟩) fun page => .of_pre ?_
    rintro rfl
    -- the range of this block, and the next block starts where it ends
    set lo := max offset (block * r.geometry.align.toNat) with hlo
    set hi := min last ((block + 1) * r.geometry.align.toNat) with hhi
    have hnext : last - max offset ((block + 1) * r.geometry.align.toNat) = last - hi := by omega
    refine .bind (addCopied_counted (by omega)) fun _ => ?_
    have htwo : (block + 1 + 1) * r.geometry.align.toNat =
      (block + 1) * r.geometry.align.toNat + r.geometry.align.toNat := Nat.succ_mul _ _
    refine .bind (ih (by omega) (by omega) (by omega)) fun rest => .pure fun v hv => ⟨?_, hv.2⟩
    rw [hv.1, hnext, blockPage_slice (by omega) (by omega) (by omega) (by omega)]
    rcases lt_or_ge ((block + 1) * r.geometry.align.toNat) last with hmore | hdone
    · rw [show max offset ((block + 1) * r.geometry.align.toNat) = hi by omega]
      exact slice_append payload (by omega) (by omega)
    · rw [show hi = last by omega, Nat.sub_self, take_zero, append_nil]

end Stored

/-- **A range of a readable object is that range of its payload.** -/
theorem read_spec (hs : Serves info img P E) (hr : Mountable info r) (hv : r.validate = .ok ())
    (hgeo : v₀.journal.geometry = r.geometry) (hopen : (v₀.failed || v₀.asyncFailed) = false)
    {c : Commit} (hcur : v₀.journal.current c.metadata.object.key = some c)
    (hc : Journal.Readable hash r.geometry c payload img) {offset length : UInt64}
    (hle : offset.toNat + length.toNat ≤ payload.length) :
    Triple (Counted v₀ P 0)
      (read hash c.metadata.object c.metadata.version offset length length)
      (fun x v => x = (c.metadata, (payload.drop offset.toNat).take length.toNat) ∧ On v₀ P v)
      (fun e => On v₀ (E e)) := by
  obtain ⟨start, padded, tree, stop, h, hext⟩ := hc
  have ha : 0 < r.geometry.align.toNat := by have := h.page; omega
  have hlt := c.metadata.bytes.toNat_lt
  rw [h.length] at hle
  have hstop : checkedAdd offset length = some (offset + length) := by
    rw [checkedAdd_eq_some, UInt64.toNat_add, Nat.mod_eq_of_lt (by omega)]
  have hsum : (offset + length).toNat = offset.toNat + length.toNat := checkedAdd_eq_some.mp hstop
  refine .bind (object_passes (fun v hv => ⟨by rw [hv.1.2.failed, hv.1.2.asyncFailed, hopen],
    by rw [hv.1.2.journal, hgeo]⟩) h.named.object h.named.workspace h.named.bucket) fun _ => ?_
  refine .seq (.get fun _ hv => ⟨hv.1.2, hv⟩) fun v' hv' => ?_
  rw [hv'.journal, hcur]
  refine .pure_bind (Triple.bind (refuse_of (bne_self_eq_false _)) fun _ => ?_)
  rw [hstop]
  refine .pure_bind (Triple.bind (refuse_of ?_) fun _ => ?_)
  · rw [bne_self_eq_false, Bool.or_false, decide_eq_false_iff_not, UInt64.lt_iff_toNat_lt]
    omega
  refine .ite (fun h0 => .pure fun v hv => ⟨?_, hv.1⟩) fun _ => ?_
  · rw [beq_iff_eq.mp h0, UInt64.toNat_zero, take_zero]
  rw [h.location]
  refine .pure_bind (.bind (onDevice_counted (hs.attempt _)) fun _ => ?_)
  refine .bind (onDevice_counted (hs.attempt _)) fun _ => ?_
  rw [hgeo]
  have hblock : offset.toNat / r.geometry.align.toNat * r.geometry.align.toNat ≤ offset.toNat :=
    Nat.div_mul_le_self _ _
  have hover : offset.toNat <
      (offset.toNat / r.geometry.align.toNat + 1) * r.geometry.align.toNat :=
    Nat.lt_mul_of_div_lt (Nat.lt_succ_self _) ha
  refine .bind (readBlocks_spec hs hr hv h hext (by rw [h.length, hsum]; exact hle)
    (by omega) hover (by omega) (by omega)) fun b => .pure fun v hv => ⟨?_, hv.2⟩
  rw [hv.1, max_eq_left hblock, hsum, Nat.add_sub_cancel_left]

/-! ### What a read leaves behind -/

section Keeps

variable {Q : Device → Prop} (hQ : ∀ d f, Q d → Q { d with answers := f })
include hQ

theorem readPage_keeps (path : Path) (off len : ℕ) : Stable Q (readPage path off len) := by
  refine .pointwise fun d hd => ?_
  have hans : ∀ x f, Q x ∧ x.visible = d.visible →
      Q { x with answers := f } ∧ x.visible = d.visible :=
    fun _ f h => ⟨hQ _ f h.1, h.2⟩
  refine .pre (P := fun x => Q x ∧ x.visible = d.visible) (.ite ?_ ?_)
    fun x h => by rw [h]; exact ⟨hd, rfl⟩
  · exact fun _ => (Device.read_spec hans (fun _ h => h.2) off len).conseq (fun _ h => h)
      (fun _ _ h => h.1.1) fun _ _ h => h.1
  · exact fun _ => (readBlock_spec hans (fun _ h => h.2) off len).conseq (fun _ h => h)
      (fun _ _ h => h.1.1) fun _ _ h => h.1

theorem readNodes_keeps (path : Path) (a left : ℕ) (p : BlockProof) :
    Stable Q (readNodes hash path a left p) := by
  induction left generalizing p with
  | zero => exact .skip
  | succ left ih =>
    rw [readNodes]
    cases p.nextNode with
    | none => exact .skip
    | some step =>
      refine .bind (readPage_keeps hQ _ _ _) fun page => ?_
      exact .seq (mapErr_spec fun _ h => h) fun p _ => ih p

theorem readVerified_keeps (path : Path) (s : Superblock) (c : Commit) (start block : UInt64) :
    Stable Q (readVerified hash path s c start block) := by
  refine .seq (mapErr_spec fun _ h => h) fun p _ => ?_
  refine .bind (readNodes_keeps hQ _ _ _ _) fun p => ?_
  refine .bind (readPage_keeps hQ _ _ _) fun page => ?_
  refine .seq (mapErr_spec fun _ h => h) fun _ _ => ?_
  exact .skip

theorem readBlocks_keeps (s : Superblock) (c : Commit) (start : UInt64)
    (offset stop left block : ℕ) :
    Stable (On v₀ Q) (readBlocks hash s c start offset stop left block) := by
  induction left generalizing block with
  | zero => exact .skip
  | succ left ih =>
    refine .bind (onDevice_spec (readVerified_keeps hQ _ _ _ _ _)) fun page => ?_
    refine .bind ((addCopied_spec _).error fun _ _ h => h.2) fun _ => ?_
    exact .bind (ih _) fun _ => .skip

/-- **A read keeps everything but the copy counter.** -/
theorem read_keeps (object : Object) (version : Version) (offset length room : UInt64) :
    Stable (On v₀ Q) (read hash object version offset length room) := by
  have hreserve : Stable (On v₀ Q) (onDevice (attempt .capacity)) :=
    (reserve_spec hQ _).error fun _ _ h => h.2
  refine .bind (object_keeps object) fun _ => ?_
  refine .seq get_spec fun v _ => ?_
  refine .seq (okOrRefuse_spec fun _ h => h) fun c _ => ?_
  refine .seq (refuse_spec fun _ h => h) fun _ _ => ?_
  refine .seq (okOrRefuse_spec fun _ h => h) fun _ _ => ?_
  refine .seq (refuse_spec fun _ h => h) fun _ _ => ?_
  refine .ite (fun _ => .skip) fun _ => ?_
  refine .seq (okOrRefuse_spec fun _ h => h) fun _ _ => ?_
  refine .bind hreserve fun _ => .bind hreserve fun _ => ?_
  exact .bind (readBlocks_keeps hQ _ _ _ _ _ _ _) fun _ => .skip

end Keeps

end Volume

end Moruna
