/-
Moruna/Storage/Publish.lean

What a put does to the device, phase by phase.

The payload and the record are written into the free space of the journal, and each is
flushed before the next phase starts; the receipt is one sealed write.  So wherever a put
stops, the medium is one of two: with the log as it was, or with the new commit in it.

* `writeDurably_region`, `writeDurably_seal` — the record phase and the receipt phase.
-/
import Moruna.Storage.Volume

namespace Moruna

open List

open Device

/-! ### Rules for the combinators -/

section Rules

variable {σ α : Type} {P : σ → Prop} {E : Refusal → σ → Prop} {refusal : Refusal}
variable {x : Except Error α} {c : Bool}

theorem mapErr_spec (hE : ∀ s, P s → E refusal s) :
    Triple P (mapErr x refusal) (fun a s => x = .ok a ∧ P s) E := by
  cases x with
  | ok a => exact .pure fun _ h => ⟨rfl, h⟩
  | error e => exact .throw hE

theorem okOrRefuse_spec {x : Option α} (hE : ∀ s, P s → E refusal s) :
    Triple P (okOrRefuse x refusal) (fun a s => x = some a ∧ P s) E := by
  cases x with
  | some a => exact .pure fun _ h => ⟨rfl, h⟩
  | none => exact .throw hE

theorem refuse_spec (hE : ∀ s, P s → E refusal s) :
    Triple P (refuse c refusal) (fun _ s => c = false ∧ P s) E := by
  cases c with
  | false => exact .pure fun _ h => ⟨rfl, h⟩
  | true => exact .throw hE

theorem mapErr_of {a : α} (h : x = .ok a) :
    Triple P (mapErr x refusal) (fun b s => b = a ∧ P s) E := by
  subst h
  exact .pure fun _ h => ⟨rfl, h⟩

theorem refuse_of (h : c = false) : Triple P (refuse c refusal) (fun _ => P) E := by
  subst h
  exact .skip

end Rules

namespace Volume

/-- Everything but the device and the copy counter is as in `v₀`. -/
structure Same (v₀ v : Volume) : Prop where
  journal : v.journal = v₀.journal
  root : v.root = v₀.root
  failed : v.failed = v₀.failed
  asyncFailed : v.asyncFailed = v₀.asyncFailed

/-- The device has `P`, and everything else is as in `v₀`. -/
def On (v₀ : Volume) (P : Device → Prop) (v : Volume) : Prop := P v.device ∧ Same v₀ v

variable {α : Type} {v₀ : Volume} {P : Device → Prop}

theorem On.mono {Q : Device → Prop} {v : Volume} (h : On v₀ P v) (hPQ : ∀ d, P d → Q d) :
    On v₀ Q v :=
  ⟨hPQ _ h.1, h.2⟩

theorem onDevice_spec {x : DeviceM α} {Q : α → Device → Prop} {E : Refusal → Device → Prop}
    (h : Triple P x Q E) :
    Triple (On v₀ P) (onDevice x) (fun a => On v₀ (Q a)) (fun e => On v₀ (E e)) := by
  intro v hv
  show Post _ _ (onDevice x v)
  unfold onDevice
  rcases hr : x v.device with ⟨a, d⟩ | ⟨e, d⟩
  · exact ⟨h.of_ok hv.1 hr, hv.2.1, hv.2.2, hv.2.3, hv.2.4⟩
  · exact ⟨h.of_error hv.1 hr, hv.2.1, hv.2.2, hv.2.3, hv.2.4⟩

variable {E : Refusal → Volume → Prop}

theorem get_spec :
    Triple (On v₀ P) get (fun v' v => Same v₀ v' ∧ On v₀ P v) E :=
  .get fun _ h => ⟨h.2, h⟩

theorem reserve_spec (hP : ∀ d f, P d → P { d with answers := f }) (refusal : Refusal) :
    Triple (On v₀ P) (onDevice (attempt refusal)) (fun _ => On v₀ P)
      (fun e v => e = refusal ∧ On v₀ P v) :=
  (onDevice_spec (attempt_spec hP refusal)).error fun _ _ h => ⟨h.1.1, h.1.2, h.2⟩

theorem reserveLevel_spec {path : Path} (hP : ∀ d f, P d → P { d with answers := f }) :
    Triple (On v₀ P) (reserveLevel path) (fun _ => On v₀ P)
      (fun e v => e = .capacity ∧ On v₀ P v) :=
  .ite (fun _ => reserve_spec hP _) fun _ => .skip

theorem addCopied_spec (count : ℕ) :
    Triple (On v₀ P) (addCopied count) (fun _ => On v₀ P)
      (fun e v => e = .capacity ∧ On v₀ P v) := by
  refine .seq get_spec fun v' _ => ?_
  refine .seq (okOrRefuse_spec fun _ h => ⟨rfl, h⟩) fun copied _ => ?_
  exact .update fun v hv => ⟨hv.1, hv.2.1, hv.2.2, hv.2.3, hv.2.4⟩

theorem object_keeps {P : Volume → Prop} (object : Object) : Stable P (Volume.object object) := by
  refine .look fun v _ => ?_
  refine .seq (refuse_spec fun _ h => h) fun _ _ => ?_
  refine .seq (mapErr_spec fun _ h => h) fun _ _ => ?_
  exact .post (refuse_spec fun _ h => h) fun _ _ h => h.2

theorem object_passes {P : Volume → Prop} {object : Object} {s : Superblock}
    (hP : ∀ v, P v → (v.failed || v.asyncFailed) = false ∧ v.journal.geometry = s)
    (hv : object.validate = .ok ()) (hw : object.workspace = s.workspace)
    (hb : object.bucket = s.bucket) : Triple P (Volume.object object) (fun _ => P) E := by
  refine .bind (Q := fun v' v => ((v'.failed || v'.asyncFailed) = false ∧
      v'.journal.geometry = s) ∧ P v) (.get fun v h => ⟨hP v h, h⟩)
    fun v' => .of_pre fun hv' => ?_
  refine .bind (refuse_of hv'.1) fun _ => ?_
  refine .seq (mapErr_of hv) fun _ _ => refuse_of ?_
  rw [hv'.2, hw, hb, bne_self_eq_false, bne_self_eq_false]
  rfl

/-! ### The payload phase -/

section Extent

variable {info : Info} {block a : ℕ} {base img : Disk} {R : ℕ → Prop} {path : Path}

/-- The device while a region is being written to. -/
def Writing (info : Info) (block : ℕ) (base : Disk) (R : ℕ → Prop) (img : Disk)
    (d : Device) : Prop :=
  Held info block base (Inside R) d ∧ d.visible = img

/-- `x` writes `b` at `off`, inside the region. -/
abbrev Puts (v₀ : Volume) (info : Info) (block : ℕ) (base : Disk) (R : ℕ → Prop) (img : Disk)
    (off : ℕ) (b : Bytes) (x : VolumeM Unit) : Prop :=
  Triple (On v₀ (Writing info block base R img)) x
    (fun _ => On v₀ (Writing info block base R (img.write off b)))
    (fun _ => On v₀ (Held info block base (Inside R)))

/-- Pages one behind the other, written one after the other, show up as one byte string. -/
theorem forM_layout {γ : Type} {body : γ → VolumeM Unit} {page : γ → PageWrite}
    (hbody : ∀ x img, (∀ i, (page x).1 ≤ i → i < (page x).1 + (page x).2.length → R i) →
      Puts v₀ info block base R img (page x).1 (page x).2 (body x))
    {l : List γ} {pages : List Bytes} {start : ℕ} (hl : l.map page = layout a start pages)
    (hpages : ∀ p ∈ pages, p.length = a)
    (hR : ∀ i, start ≤ i → i < start + pages.flatten.length → R i) :
    Puts v₀ info block base R img start pages.flatten (l.forM body) := by
  induction pages generalizing l start img with
  | nil =>
    obtain rfl := map_eq_nil_iff.mp hl
    rw [Puts, flatten_nil, Disk.write_nil]
    exact .skip
  | cons p pages ih =>
    obtain ⟨x, l, rfl, hx, hl⟩ := map_eq_cons_iff.mp hl
    have hp := hpages p mem_cons_self
    rw [flatten_cons, length_append] at hR
    have hfirst := hbody x img (by
      rw [hx]
      intro i h1 (h2 : i < start + p.length)
      exact hR i h1 (by omega))
    rw [hx] at hfirst
    refine .bind hfirst fun _ => ?_
    rw [flatten_cons, Disk.write_append, hp]
    exact ih hl (fun q hq => hpages q (mem_cons_of_mem _ hq))
      (fun i h1 h2 => hR i (by omega) (by omega))

theorem writePage_spec (w : PageWrite) (img : Disk)
    (hR : ∀ i, w.1 ≤ i → i < w.1 + w.2.length → R i) :
    Puts v₀ info block base R img w.1 w.2 (onDevice (Device.write path w.1 w.2)) :=
  onDevice_spec (write_region_spec hR)

theorem putBlock_spec (payload : Bytes) (w : PageWrite × ℕ) (img : Disk)
    (hR : ∀ i, w.1.1 ≤ i → i < w.1.1 + w.1.2.length → R i) :
    Puts v₀ info block base R img w.1.1 w.1.2 (putBlock path a payload w) := by
  refine .bind (writePage_spec w.1 img hR) fun _ => ?_
  exact (addCopied_spec _).error fun _ _ h => h.2.mono fun _ hd => hd.1

variable {hash : Bytes → Digest}
variable {tree : List TreeLevel} {off stop : ℕ} {b : Bytes}

theorem putTree_spec (ha : 512 ≤ a) (hpow : ∃ k, a = 2 ^ k) (h32 : 32 ≤ a)
    {leaves : List Digest} {cursor : ℕ} (h : Levels (a / 32) a tree leaves.length cursor stop)
    (hR : ∀ i, cursor ≤ i → i < stop → R i) :
    Triple (On v₀ (Writing info block base R img)) (putTree hash path a tree leaves)
      (fun top v => top = (treeScheme hash a h32).tower leaves tree.length ∧
        On v₀ (Writing info block base R (img.write cursor
          (treePages (treeScheme hash a h32) leaves tree.length).flatten)) v)
      (fun _ => On v₀ (Held info block base (Inside R))) := by
  induction tree generalizing leaves cursor img with
  | nil =>
    refine .pure fun v hv => ⟨rfl, ?_⟩
    show On v₀ (Writing info block base R (img.write cursor [])) v
    rwa [Disk.write_nil]
  | cons level rest ih =>
    obtain ⟨-, ho, -, hrest⟩ := h
    have hgroups : ∀ g ∈ chunks (a / 32) leaves, g.length ≤ a / 32 := by
      intro g hg
      obtain ⟨i, -, rfl⟩ := mem_map.mp hg
      rw [length_take]
      omega
    have hlevel := levelWrites_spec hash ha hpow level.offset.toNat
      (chunks (a / 32) leaves) hgroups 0
    have hpages : ∀ p ∈ (treeScheme hash a h32).pages leaves, p.length = a := fun p hp =>
      length_of_mem_treePages h32 (dvd_of_pow ha hpow)
        (mem_flatMap.mpr ⟨0, mem_range.mpr (Nat.succ_pos 0), hp⟩)
    have hlen : ((treeScheme hash a h32).parents leaves).length = ceilDiv leaves.length (a / 32) :=
      Scheme.length_parents _ _
    have hflat : ((treeScheme hash a h32).pages leaves).flatten.length =
        ceilDiv leaves.length (a / 32) * a := by
      rw [length_flatten_of_forall hpages, Scheme.length_pages]
      rfl
    have hle := Levels.le_stop hrest
    refine .bind ((reserveLevel_spec fun _ f h => ⟨h.1.answers f, h.2⟩).error
      fun _ _ h => h.2.mono fun _ hd => hd.1) fun _ => ?_
    refine .seq (mapErr_spec fun _ h => h.mono fun _ hd => hd.1)
      fun r hr => ?_
    obtain rfl := Except.ok.inj (hlevel.symm.trans hr)
    rw [ho, zero_mul]
    have hwrites : Puts v₀ info block base R img cursor
        ((treeScheme hash a h32).pages leaves).flatten
        ((layout a cursor ((treeScheme hash a h32).pages leaves)).forM
          fun w => onDevice (Device.write path w.1 w.2)) :=
      forM_layout (fun w img h => writePage_spec w img h) (map_id _) hpages
        (by rw [hflat]; exact fun i h1 h2 => hR i h1 (by omega))
    refine .bind hwrites fun _ => ?_
    rw [length_cons, treePages_succ, flatten_append, Disk.write_append, hflat,
      ← Scheme.tower_parents, map_nodePage hash h32]
    exact ih (by rwa [hlen]) fun i h1 h2 => hR i (by omega) h2

/-- **The payload phase shows the pages of the extent.** -/
theorem putExtent_spec {s : Superblock} (g : s.Geometry) (h32 : 32 ≤ s.align.toNat)
    {start bytes padded : UInt64} (root : Digest)
    {payload : Bytes} (hp : Planned s start bytes padded tree stop)
    (hlen : payload.length = bytes.toNat) (hR : ∀ i, start.toNat ≤ i → i < stop → R i) :
    Triple (On v₀ (Writing info block base R img))
      (putExtent hash path s.align.toNat payload (.extent start padded tree root))
      (fun location v => location = .extent start padded tree
          (((treeScheme hash s.align.toNat h32).tower
            ((payloadPages s.align.toNat payload).map hash) tree.length).headD root) ∧
        On v₀ (Writing info block base R (img.write start.toNat
          (extentPages (treeScheme hash s.align.toNat h32) s.align.toNat payload
            tree.length).flatten)) v)
      (fun _ => On v₀ (Held info block base (Inside R))) := by
  have hblocks := blockWrites_spec hash g.min g.pow start.toNat payload
    (ceilDiv payload.length s.align.toNat) 0
  rw [← range_eq_range', zero_mul] at hblocks
  have hflat : (payloadPages s.align.toNat payload).flatten.length = padded.toNat := by
    rw [length_flatten_of_forall fun p => length_of_mem_payloadPages, length_payloadPages, hp.size,
      hlen]
  have hle := hp.le
  refine .seq (mapErr_spec fun _ h => h.mono fun _ hd => hd.1)
    fun r hr => ?_
  obtain rfl := Except.ok.inj (hblocks.symm.trans hr)
  have hwrites : Puts v₀ info block base R img start.toNat
      (payloadPages s.align.toNat payload).flatten
      ((layout s.align.toNat start.toNat (payloadPages s.align.toNat payload)).zipIdx.forM
        (putBlock path s.align.toNat payload)) :=
    forM_layout (fun w img h => putBlock_spec payload w img h) (zipIdx_map_fst _ _)
      (fun p => length_of_mem_payloadPages)
      (by rw [hflat]; exact fun i h1 h2 => hR i h1 (by omega))
  refine .bind hwrites fun _ => ?_
  have hleaves : ((List.range (ceilDiv payload.length s.align.toNat)).map fun b =>
      hash (blockPage s.align.toNat payload b)) =
        (payloadPages s.align.toNat payload).map hash := by
    rw [payloadPages, map_map]
    rfl
  rw [hleaves, extentPages, flatten_append, Disk.write_append, hflat]
  refine .bind (Q := fun top v => top = (treeScheme hash s.align.toNat h32).tower
    ((payloadPages s.align.toNat payload).map hash) tree.length ∧
      On v₀ (Writing info block base R ((img.write start.toNat
        (payloadPages s.align.toNat payload).flatten).write (start.toNat + padded.toNat)
        (treePages (treeScheme hash s.align.toNat h32)
          ((payloadPages s.align.toNat payload).map hash) tree.length).flatten)) v) ?_ ?_
  · by_cases h0 : bytes = 0
    · -- case: no payload and no tree
      rw [(hp.empty h0).1]
      refine .pure fun v hv => ⟨rfl, ?_⟩
      show On v₀ (Writing info block base R (.write _ _ [])) v
      rwa [Disk.write_nil]
    · have hl : Levels (s.align.toNat / 32) s.align.toNat tree
          ((payloadPages s.align.toNat payload).map hash).length
            (start.toNat + padded.toNat) stop := by
        rw [length_map, length_payloadPages, hlen]
        exact (hp.levels h0).2
      exact putTree_spec g.min g.pow h32 hl fun i h1 h2 => hR i (by omega) h2
  · intro top
    refine .of_pre ?_
    rintro rfl
    exact .pure fun v hv => ⟨rfl, hv⟩

/-! ### The record and the receipt -/

theorem writeDurably_region (hR : ∀ i, off ≤ i → i < off + b.length → R i) :
    Triple (Flushed info block img) (writeDurably path off b)
      (fun _ => Flushed info block (img.write off b)) (fun _ => Held info block img (Inside R)) :=
  .bind ((write_region_spec hR).pre fun _ h => ⟨h.held, h.visible_eq⟩) fun _ => flush_spec

theorem writeDurably_seal (hoff : off % block = 0) (hblock : 0 < block)
    (hmax : block ≤ info.maxBytes) (hz : ∀ x ∈ b.drop block, x = 0) :
    Triple (Flushed info block img) (writeDurably path off b)
      (fun _ => Flushed info block (img.write off b))
      (fun _ => Held info block img (Seals block off b)) :=
  .bind ((write_seal_spec hoff hblock hmax hz).pre fun _ h => ⟨h.held, h.visible_eq⟩)
    fun _ => flush_spec

theorem applyPair_spec {record receipt : Bytes} {j : Journal}
    (hj : v₀.journal.replay hash record receipt = .ok (true, j)) :
    Triple (On v₀ (Flushed info block img)) (applyPair hash record receipt)
      (fun _ => On { v₀ with journal := j } (Flushed info block img))
      (fun e v => e = .unavailable ∧ On v₀ (Flushed info block img) v) := by
  refine .bind (reserve_spec (fun _ f h => h.answers f) _) fun _ => ?_
  refine .seq get_spec fun v hv => ?_
  rw [hv.journal]
  refine .seq_eq (mapErr_of hj) ?_
  refine .bind (refuse_of rfl) fun _ => .update fun v hv => ?_
  exact ⟨hv.1, rfl, hv.2.root, hv.2.failed, hv.2.asyncFailed⟩

end Extent

/-! ### The commit of a put -/

section Commit

variable {hash : Bytes → Digest} {j : Journal}

/-- What a plan of the journal promises. -/
structure Plans (hash : Bytes → Digest) (j : Journal) (object : Object) (bytes : UInt64)
    (location : Location) (padded : UInt64) (tree : List TreeLevel) (stop : ℕ) : Prop where
  room : j.hasCapacity = true
  valid : object.validate = .ok ()
  key : object.key.isEmpty = false
  workspace : object.workspace = j.geometry.workspace
  bucket : object.bucket = j.geometry.bucket
  planned : Planned j.geometry j.data bytes padded tree stop
  place : location = .extent j.data padded tree (if bytes == 0 then hash [] else zeroDigest)

variable {object : Object} {bytes padded : UInt64} {location : Location} {tree : List TreeLevel}
variable {stop : ℕ} {payload : Bytes}

theorem plan_spec {condition : Condition}
    (h : j.plan hash object condition bytes = .ok (some location)) :
    ∃ padded tree stop, Plans hash j object bytes location padded tree stop := by
  obtain ⟨holds, hcond, h⟩ := seq_eq_ok.mp h
  obtain ⟨⟨⟩, hobj, -⟩ := seq_eq_ok.mp hcond
  obtain ⟨⟨⟩, hval, hid⟩ := seq_eq_ok.mp hobj
  rw [rejectIf_test, Bool.or_eq_false_iff, Bool.or_eq_false_iff, bne_eq_false_iff_eq,
    bne_eq_false_iff_eq] at hid
  cases holds with
  | false => cases h
  | true =>
    obtain ⟨⟨⟩, hroom, h⟩ := seq_eq_ok.mp h
    obtain ⟨l, hext, h⟩ := seq_eq_ok.mp h
    obtain rfl : l = location := Option.some.inj (Except.ok.inj h)
    rw [rejectIf_test, Bool.not_eq_false'] at hroom
    obtain ⟨-, padded, tree, stop, hp, hloc⟩ := Superblock.extent_eq_ok.mp hext
    exact ⟨padded, tree, stop, hroom, hval, hid.1.1, hid.1.2, hid.2, hp, hloc⟩

/-- A planned put: its payload has the announced length and its extent is free. -/
def Planning (hash : Bytes → Digest) (j : Journal) (object : Object) (source : Option Bytes)
    (bytes : UInt64) (location : Location) : Prop :=
  (source.getD []).length = bytes.toNat ∧
    ∃ padded tree stop, Plans hash j object bytes location padded tree stop

theorem planPut_spec (hP : ∀ d f, P d → P { d with answers := f }) (object : Object)
    (condition : Condition) (source : Option Bytes) (bytes : UInt64) (unique : Bytes) :
    Triple (On v₀ P) (planPut hash object condition source bytes unique)
      (fun location v => Planning hash v₀.journal object source bytes location ∧ On v₀ P v)
      (fun _ => On v₀ P) := by
  refine .bind (object_keeps object) fun _ => ?_
  refine .seq (refuse_spec fun _ h => h) fun _ hlen => ?_
  rw [bne_eq_false_iff_eq] at hlen
  refine .seq get_spec fun v hv => ?_
  rw [hv.journal]
  refine .seq (mapErr_spec fun _ h => h) fun plan hplan => ?_
  refine .seq (okOrRefuse_spec fun _ h => h)
    fun location => ?_
  rintro rfl
  refine .bind ((reserve_spec hP _).error fun _ _ h => h.2) fun _ => ?_
  refine .seq (mapErr_spec fun _ h => h) fun _ _ => ?_
  refine .seq (refuse_spec fun _ h => h) fun _ _ => ?_
  exact .pure fun _ h => ⟨⟨hlen, plan_spec hplan⟩, h⟩

theorem digestBudget_spec (hP : ∀ d f, P d → P { d with answers := f }) (a bytes : UInt64) :
    Stable (On v₀ P) (digestBudget a bytes) := by
  refine .seq (okOrRefuse_spec fun _ h => h) fun _ _ => ?_
  exact (reserve_spec hP _).error fun _ _ h => h.2

theorem hex_nonempty {b : Bytes} (h : b ≠ []) : (hex b).isEmpty = false := by
  obtain ⟨x, rest, rfl⟩ := exists_cons_of_ne_nil h
  have hne : hex (x :: rest) ≠ "" := by
    intro he
    have := congrArg String.toList he
    simp [hex] at this
  simpa using hne

/-- The version of a commit names its content. -/
theorem version_commitFor (j : Journal) (object : Object) (bytes : UInt64) (content : Digest)
    (unique : Bytes) (location : Location) :
    (commitFor j object bytes content unique location).metadata.version.validate = .ok () := by
  have hne : content.val ≠ [] := by
    intro h
    have := content.property
    rw [h] at this
    exact absurd this (by simp)
  show rejectIf (absent (some (hex content.val)) && _) _ = _
  rw [rejectIf_test, absent, hex_nonempty hne, Bool.false_and]

/-- On top of a tree there is a digest, so the default root does not matter. -/
theorem headD_tower {s : Superblock} (g : s.Geometry) (h32 : 32 ≤ s.align.toNat) {start : UInt64}
    (hp : Planned s start bytes padded tree stop) (hlen : payload.length = bytes.toNat) :
    ((treeScheme hash s.align.toNat h32).tower ((payloadPages s.align.toNat payload).map hash)
        tree.length).headD (if bytes == 0 then hash [] else zeroDigest) =
      ((treeScheme hash s.align.toNat h32).tower ((payloadPages s.align.toNat payload).map hash)
        tree.length).headD (hash []) := by
  have hF : 0 < s.align.toNat / 32 := by have := g.fanout_le; omega
  by_cases h0 : bytes = 0
  · rw [if_pos (beq_iff_eq.mpr h0)]
  have htop := Levels.top hF (hp.levels h0).2
  have hone : ((treeScheme hash s.align.toNat h32).tower
      ((payloadPages s.align.toNat payload).map hash) tree.length).length = 1 := by
    rw [Scheme.length_tower, length_map, length_payloadPages, hlen]
    exact htop
  obtain ⟨d, hd⟩ := length_eq_one_iff.mp hone
  rw [hd]
  rfl

/-- **The commit of a put is the one its journal accepts next.** -/
theorem accepts_commitFor (w : j.WF) (h32 : 32 ≤ j.geometry.align.toNat)
    (hp : Plans hash j object bytes location padded tree stop) {unique record : Bytes}
    (hlen : payload.length = bytes.toNat) {c : Commit}
    (hc : c = commitFor j object bytes (hash payload) unique (.extent j.data padded tree
      (((treeScheme hash j.geometry.align.toNat h32).tower
        ((payloadPages j.geometry.align.toNat payload).map hash) tree.length).headD
          (if bytes == 0 then hash [] else zeroDigest))))
    (henc : (Frame.commit c).encode hash = .ok record) (hfit : record.length ≤ j.cell.toNat) :
    Journal.Accepts hash j c payload record padded tree stop := by
  subst hc
  exact
    { room := hp.room
      sequence := rfl
      holds :=
        { named := ⟨hp.valid, version_commitFor _ _ _ _ _ _, hp.workspace, hp.bucket, hp.key⟩
          page := h32
          length := hlen
          content := rfl
          planned := hp.planned
          location := by
            show Location.extent _ _ _ _ = _
            rw [headD_tower w.geometry h32 hp.planned hlen] }
      encoded := henc
      fits := hfit }

end Commit

end Volume

end Moruna
