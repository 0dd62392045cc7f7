/-
Moruna/Storage/Recovery.lean

Recovery after a loss of power.

A crash leaves a medium; `Device.boot` is a device that starts on it and refuses nothing.
On such a device a mount ends well (`mountInner_boot`), the journal holds the last commit
of every key (`Journal.Stored.current`), and every object reads back
(`Medium.reads`).  So does provisioning (`provision_calm`).

* `put_async_crash_consistent` — whatever a run of asynchronous puts meets, a crash after
  its last step leaves a medium that mounts, with exactly the acknowledged commits in order
  and possibly the one in flight, and every current object reads back as it was put.
-/
import Moruna.Storage.PutAsync
import Moruna.Storage.Read

namespace Moruna

open Device List

/-- A device that starts on the medium `img`. -/
def Device.boot (info : Info) (block : ℕ) (img : Disk) : Device :=
  { info, block, durable := img, pending := [], busy := false, answers := fun _ => .done }

section Boot

variable {hash : Bytes → Digest} {info : Info} {block : ℕ} {r : Banks.Root}
variable {retire : Option UInt64} {j₀ : Journal} {hist : List Entry} {img : Disk}

theorem calm_boot : Calm info (boot info block img) := ⟨rfl, rfl, fun _ => rfl⟩

theorem flushed_boot : Flushed info block img (boot info block img) := ⟨rfl, rfl, rfl, rfl⟩

theorem flushed_serves :
    Serves info img (fun d => Calm info d ∧ Flushed info block img d) (fun _ _ => False) :=
  serves_calm (fun _ f h => h.answers f) fun _ h => h.visible_eq

/-- **A medium mounts after a restart**, with the journal of its history. -/
theorem mountInner_boot (block : ℕ) (hm : Medium hash r none j₀ hist img) (hr : Mountable info r) :
    ∃ d, Volume.mountInner hash r.geometry.alignment r.geometry.role (boot info block img) =
        .ok ⟨d, j₀.afterAll hist, r, 0, false, false⟩ d ∧
      Calm info d ∧ Flushed info block img d := by
  obtain ⟨m, d, hmount, rfl, hd⟩ := (mountInner_spec flushed_serves hm hr
    .skip).ends ⟨calm_boot, flushed_boot⟩
  exact ⟨d, hmount, hd⟩

/-! ### Provisioning -/

/-- A root cell of a calm device that is zero passes. -/
theorem requireBlank_calm {a slot : ℕ} (hfit : Fits info slot a) (ha : 0 < a)
    (hmax : a ≤ info.maxBytes) (hz : ∀ i, slot ≤ i → i < slot + a → img i = 0) :
    Triple (fun d => Calm info d ∧ d.visible = img) (Volume.requireBlank a slot)
      (fun _ d => Calm info d ∧ d.visible = img) (fun _ _ => False) := by
  refine .seq_eq ((serves_calm (fun _ _ h => h) fun _ h => h).readBlock _ _ _ hfit ha hmax) ?_
  refine refuse_of (any_eq_false.mpr fun x hx => ?_)
  obtain ⟨i, hi, rfl⟩ := mem_map.mp hx
  have hi := mem_range.mp hi
  rw [hz _ (by omega) (by omega)]
  decide

section

variable {geometry : Superblock} (hv : geometry.validate = .ok ())
  (hcap : geometry.capacity.toNat = info.sectors * info.sectorSize)
  (hrole : geometry.role ≠ .formatProof) (hmax : geometry.alignment.toNat ≤ info.maxBytes)
  (hsector : info.sectorSize ∣ geometry.alignment.toNat) {j : Journal} {b : Bytes}
  (hroot : Banks.Root.initial geometry.capacity geometry.alignment geometry.logBytes geometry.role
    geometry.workspace geometry.bucket = .ok r) (hj : Journal.new r.geometry = .ok j)
  (hb : r.encode hash = .ok b) (hz : ∀ i, i < 2 * geometry.alignment.toNat → img i = 0)

include hv hcap hrole hmax hsector hroot hj hb hz

theorem provisionRoot_calm :
    Triple (fun d => Calm info d ∧ d.visible = img) (Volume.provisionRoot hash geometry)
      (fun _ => Calm info) (fun _ _ => False) := by
  obtain ⟨hvalid, -, hphys, halign, -⟩ := Banks.Root.initial_spec hroot
  obtain ⟨size, hlay⟩ := Banks.Root.layout_of_validate hvalid
  have hlog := hlay.geometry.dvdLog
  have hbytes := hlay.geometry.dvdLogBytes
  have hend := hlay.geometry.logEnd
  have hdata := hlay.geometry.data
  have hstart := hlay.start_le
  have hstop := hlay.stop_le
  have hmin := hlay.geometry.min
  rw [r.geometry.toNat_align, halign] at hlog hbytes hmin hstart
  rw [hphys] at hstop
  have hfit : ∀ k, (k + 1) * geometry.alignment.toNat ≤ r.geometry.dataOffset.toNat →
      Fits info (k * geometry.alignment.toNat) geometry.alignment.toNat := by
    intro k hk
    rw [Nat.succ_mul] at hk
    exact ⟨Dvd.dvd.mul_left hsector k, hsector, by omega⟩
  have hcells : geometry.alignment.toNat * (r.geometry.logBytes.toNat / geometry.alignment.toNat) =
      r.geometry.logBytes.toNat := Nat.mul_div_cancel' hbytes
  obtain ⟨start, hstartEq⟩ := hlog
  refine .look fun d₀ h => ?_
  have hinfo := h.1.info
  have hcapacity : d₀.capacity = geometry.capacity := by
    rw [← UInt64.toNat_inj, toNat_capacity, hinfo, hcap]
  refine .seq (mapErr_of hv) fun _ _ => ?_
  refine .bind (refuse_of ?_) fun _ => ?_
  · rw [hcapacity, hinfo, Nat.mod_eq_zero_of_dvd hsector, bne_self_eq_false,
      beq_eq_false_iff_ne.mpr hrole]
    rfl
  rw [hcapacity]
  refine .seq_eq (mapErr_of hroot) ?_
  refine .seq (mapErr_of hj) fun _ _ => ?_
  refine .seq_eq (mapErr_of hb) ?_
  rw [halign]
  have hserves : Serves info img (fun d => Calm info d ∧ d.visible = img) (fun _ _ => False) :=
    serves_calm (fun _ _ h => h) fun _ h => h
  refine .bind (hserves.attempt _) fun _ => ?_
  have hfirst := hfit 0 (by omega)
  have hsecond := hfit 1 (by omega)
  rw [zero_mul] at hfirst
  rw [one_mul] at hsecond
  refine .bind (requireBlank_calm hfirst (by omega) hmax fun i _ hi => hz i (by omega))
    fun _ => ?_
  refine .bind (requireBlank_calm hsecond (by omega) hmax fun i _ hi => hz i (by omega))
    fun _ => ?_
  refine .bind (Q := fun _ => Calm info) ?_ fun _ => .bind flush_calm fun _ => ?_
  · refine .pre (P := Calm info) ?_ fun _ h => h.1
    refine .forM (fun _ => Calm info) fun pre k post hl => write_calm ?_
    have hk : k ∈ List.range (r.geometry.logBytes.toNat / geometry.alignment.toNat) := by
      rw [hl]
      exact mem_append_right _ mem_cons_self
    have hle : geometry.alignment.toNat * (k + 1) ≤
        geometry.alignment.toNat * (r.geometry.logBytes.toNat / geometry.alignment.toNat) :=
      Nat.mul_le_mul_left _ (mem_range.mp hk)
    rw [length_replicate, hstartEq, mul_comm _ start, ← add_mul]
    refine hfit (start + k) ?_
    calc (start + k + 1) * geometry.alignment.toNat
        = geometry.alignment.toNat * start + geometry.alignment.toNat * (k + 1) := by ring
      _ ≤ _ := by omega
  · obtain ⟨-, hle⟩ := Banks.Root.encode_length hash hb
    rw [halign] at hle
    refine .bind (write_calm (by rw [Journal.length_pad hle]; exact hfirst)) fun _ => ?_
    exact .bind flush_calm fun _ => .skip

/-- **A calm device with blank root cells can be provisioned.** -/
theorem provision_calm : ∃ v d, Volume.provision hash geometry (boot info block img) = .ok v d := by
  have hstart : (Calm info (boot info block img) ∧ (boot info block img).visible = img) ∧
      (boot info block img).info = info ∧ (boot info block img).block = block :=
    ⟨⟨calm_boot, flushed_boot.visible_eq⟩, rfl, rfl⟩
  have hends : Triple (fun d => (Calm info d ∧ d.visible = img) ∧ d.info = info ∧ d.block = block)
      (Volume.provision hash geometry) (fun _ _ => True) (fun _ _ => False) :=
    .bind (((provisionRoot_calm hv hcap hrole hmax hsector hroot hj hb hz).and
      provisionRoot_spec).error fun _ _ h => h.1) fun given => by
    rintro d ⟨hcalm, r, j₀, img, rfl, -, hmedium, hmount, hd⟩
    exact ((mountInner_spec flushed_serves hmedium hmount Triple.skip).post
      fun _ _ _ => trivial) d ⟨hcalm, hd⟩
  obtain ⟨v, d, h, -⟩ := hends.ends hstart
  exact ⟨v, d, h⟩

end

/-! ### The current objects -/

/-- The last entry of a key. -/
def latest (hist : List Entry) (key : String) : Option Entry :=
  hist.reverse.find? fun x => x.1.metadata.object.key == key

theorem latest_append (hist : List Entry) (x : Entry) (key : String) : latest (hist ++ [x]) key =
      if x.1.metadata.object.key = key then some x else latest hist key := by
  rw [latest, reverse_append, reverse_singleton, singleton_append, List.find?_cons]
  by_cases h : x.1.metadata.object.key = key
  · rw [if_pos h, beq_iff_eq.mpr h]
  · rw [if_neg h, beq_eq_false_iff_ne.mpr h]
    rfl

theorem mem_of_latest {key : String} {x : Entry} (h : latest hist key = some x) : x ∈ hist :=
  mem_reverse.mp (mem_of_find?_eq_some h)

theorem key_of_latest {key : String} {x : Entry} (h : latest hist key = some x) :
    x.1.metadata.object.key = key := by
  simpa using List.find?_some h

/-- **The journal of a stored history holds the last commit of every key.** -/
theorem Journal.Stored.current {j : Journal} (h : Stored hash j hist img) (key : String) :
    (j.afterAll hist).current key = ((latest hist key).map Prod.fst).or (j.current key) := by
  induction hist using List.reverseRecOn with
  | nil => rfl
  | append_singleton hist x ih =>
    obtain ⟨hs, hx, -⟩ := Stored.append.mp h
    obtain ⟨record, padded, tree, stop, ha⟩ := Recorded.accepts hx
    obtain ⟨e, -, -, hafter⟩ := ha.after_eq
    rw [afterAll_append, latest_append]
    show ((j.afterAll hist).after x.1).current key = _
    rw [hafter, current_publish]
    split
    · rfl
    · exact ih hs

theorem Medium.current (hm : Medium hash r retire j₀ hist img) (key : String) :
    (j₀.afterAll hist).current key = (latest hist key).map Prod.fst := by
  obtain ⟨-, -, -, -, hempty⟩ := Journal.new_wf hm.fresh
  rw [hm.log.1.current, Journal.current, hempty]
  simp

/-- **Every current object of a restarted medium reads back.** -/
theorem Medium.reads (hm : Medium hash r none j₀ hist img) (hr : Mountable info r) {d : Device}
    (hd : Calm info d ∧ Flushed info block img d) {key : String} {x : Entry}
    (hx : latest hist key = some x) {offset length : UInt64}
    (hle : offset.toNat + length.toNat ≤ x.2.length) :
    ∃ v, Volume.read hash x.1.metadata.object x.1.metadata.version offset length length
        ⟨d, j₀.afterAll hist, r, 0, false, false⟩ =
      .ok (x.1.metadata, (x.2.drop offset.toNat).take length.toNat) v := by
  have f := hm.facts
  have hread := hm.log.1.readable f.fresh (mem_of_latest hx)
  rw [f.geometry₀] at hread
  have hcur : (j₀.afterAll hist).current x.1.metadata.object.key = some x.1 := by
    rw [hm.current, key_of_latest hx, hx]
    rfl
  let v₀ : Volume := ⟨d, j₀.afterAll hist, r, 0, false, false⟩
  have hstart : Volume.Counted v₀ (fun d => Calm info d ∧ Flushed info block img d) 0 v₀ :=
    ⟨⟨hd, rfl, rfl, rfl, rfl⟩, rfl⟩
  obtain ⟨y, v, hv, rfl, -⟩ := Triple.ends ((Volume.read_spec flushed_serves hr hm.valid f.geometry
    rfl hcur hread hle).error fun _ _ h => h.1) hstart
  exact ⟨v, hv⟩

end Boot

/-! ### Crash consistency -/

/-- **Asynchronous publication is crash consistent.**  The calls of a run carry the answers
of the driver and the kernel, so that the last of them may stop at any device step; `img` is
any medium that a loss of power leaves then. -/
theorem put_async_crash_consistent (hash : Bytes → Digest) {geometry : Superblock} {d d₀ : Device}
    {v : Volume} (hblock : d.block = geometry.alignment.toNat)
    (hprov : Volume.provision hash geometry d = .ok v d₀) (calls : List PutCall) {img : Disk}
    (hcrash : (runPuts hash calls v).2.device.CrashesTo img) :
    ∃ hist inflight m d₁,
      List.Forall₂ Acked (runPuts hash calls v).1 hist ∧ InFlight hash calls v inflight ∧
      Volume.mountInner hash geometry.alignment geometry.role (boot d.info d.block img) = .ok m d₁ ∧
      m.journal = v.journal.afterAll (hist ++ inflight) ∧
      (∀ key, m.journal.current key = (latest (hist ++ inflight) key).map Prod.fst) ∧
      ∀ key x, latest (hist ++ inflight) key = some x →
        ∀ offset length : UInt64, offset.toNat + length.toNat ≤ x.2.length →
          ∃ v', Volume.read hash x.1.metadata.object x.1.metadata.version offset length length m =
            .ok (x.1.metadata, (x.2.drop offset.toNat).take length.toNat) v' := by
  obtain ⟨r, j₀, base, hfirst, hm, hr, rfl, hd⟩ := provision_ok hprov
  obtain ⟨-, -, -, halign, hrole⟩ := Banks.Root.initial_spec hfirst
  rw [hblock, ← halign] at hd
  obtain ⟨hist, inflight, hacked, hin, hmed⟩ :=
    runPuts_crash hr (show _ = j₀.afterAll [] from rfl) (resting_of_flushed hm hd) hcrash
  obtain ⟨d₁, hmount, hd₁⟩ := mountInner_boot d.block hmed hr
  rw [halign, hrole] at hmount
  exact ⟨hist, inflight, _, d₁, hacked, hin, hmount, rfl, hmed.current,
    fun key x hx offset length hle => hmed.reads hr hd₁ hx hle⟩

/-- A small device and the volume on it. -/
def sampleInfo : Info :=
  { sectorSize := 512, maxSectors := 1, sectors := 146, min := by decide, pow := ⟨9, rfl⟩
    maxPos := by decide, sectorsPos := by decide, fits := by decide }

def sampleGeometry : Superblock :=
  { capacity := 74752, alignment := 512, logOffset := 1024, logBytes := 32768, dataOffset := 33792
    role := .singleNodeHome, workspace := "w", bucket := "b" }

/-- Its first root: the first bank ends in the middle of the device. -/
def sampleFirstRoot : Banks.Root :=
  { physical := 74752, generation := 1, bank := 0
    geometry := { sampleGeometry with capacity := 37888 } }

/-- One put that meets no refusal. -/
def samplePut : PutCall :=
  { object := ⟨"w", "b", "k"⟩, condition := .absent, source := some [1, 2, 3], bytes := 3
    unique := [7], answers := fun _ => .done, busy := false }

theorem initial_sampleGeometry : Banks.Root.initial 74752 512 32768 .singleNodeHome "w" "b" =
      .ok sampleFirstRoot := by decide

theorem firstRoot_sampleGeometry {info : Info} (hsize : info.sectorSize = 512)
    (hcount : info.sectors = 146) {r : Banks.Root} (h : FirstRoot info sampleGeometry r) :
    r = sampleFirstRoot := by
  rw [FirstRoot, hcount, hsize] at h
  exact (Except.ok.inj (initial_sampleGeometry.symm.trans h)).symm

/-- The volume can be provisioned on every device of that size. -/
theorem provision_sampleGeometry (hash : Bytes → Digest) {info : Info}
    (hsize : info.sectorSize = 512) (hcount : info.sectors = 146) :
    ∃ v d, Volume.provision hash sampleGeometry (boot info 512 fun _ => 0) = .ok v d := by
  have hin : (sampleFirstRoot.inner hash).length = 96 := by
    unfold Banks.Root.inner
    rw [length_frameBytes]
    decide
  have hmax : 512 ≤ info.maxBytes := by
    have := info.maxPos
    rw [Info.maxBytes, hsize]
    omega
  exact provision_calm (by decide) (by rw [hsize, hcount]; rfl) (by decide) hmax
    (by rw [hsize]; exact ⟨1, rfl⟩) initial_sampleGeometry rfl
    ((Banks.Root.encode_eq_ok hash).mpr ⟨⟨by decide, by decide⟩, by rw [hin]; decide, rfl⟩)
    fun _ _ => rfl

theorem put_async_crash_consistent_samplePut :
    ∃ v d, Volume.provision (fun _ => zeroDigest) sampleGeometry (boot sampleInfo 512 fun _ => 0) =
        .ok v d ∧
      ∀ img, (runPuts (fun _ => zeroDigest) [samplePut] v).2.device.CrashesTo img →
        ∃ m d₁, Volume.mountInner (fun _ => zeroDigest) 512 .singleNodeHome
          (boot sampleInfo 512 img) = .ok m d₁ := by
  obtain ⟨v, d, hprov⟩ := @provision_sampleGeometry (fun _ => zeroDigest) sampleInfo rfl rfl
  refine ⟨v, d, hprov, fun img hcrash => ?_⟩
  obtain ⟨hist, inflight, m, d₁, -, -, hmount, -⟩ :=
    put_async_crash_consistent (fun _ => zeroDigest) rfl hprov [samplePut] hcrash
  exact ⟨m, d₁, hmount⟩

end Moruna
