/-
Moruna/Storage/Put.lean

The blocking put, the requests of a session and its error paths.

A request that is refused with anything but `unavailable` or `integrity` leaves the volume
open, so it must not have published its commit.  That is so with one exception: when the
memory for a later chunk of the receipt cell is refused, the first chunk has been written,
and that chunk alone is the receipt (`Device.tears`).

* `execute_log_agrees_unless_torn` — in every state that a volume reaches by requests which
  do not tear, which none does where the device takes a cell in one request, by crashes and by
  restarts, every crash image mounts, with the journal of the volume while that is open;
* `torn_receipt_publishes` — a request that tears, after which the log on the medium and
  the journal of the open volume differ.
-/
import Moruna.Storage.Recovery

namespace Moruna

open Device Journal Volume List

/-! ### Torn writes -/

/-- The first chunk of a write goes out, and then the memory for a later one is refused. -/
def Device.tears (path : Path) (off : ℕ) (b : Bytes) (d : Device) : Prop :=
  ∃ d₁ d₂,
    writeChunk path off (b.take d.info.maxBytes) d = .ok () d₁ ∧
    writeChunks path d.info.maxBytes (off + d.info.maxBytes)
      (chunks d.info.maxBytes (b.drop d.info.maxBytes)) d₁ = .error .capacity d₂

section Torn

variable {info : Info} {block : ℕ} {img : Disk}

/-- A chunk that goes out finds the controller idle; one that does not leaves nothing
behind unless the device fails. -/
theorem writeChunk_blocking {P : Device → Prop} (hP : ∀ d f, P d → P { d with answers := f })
    (off : ℕ) (b : Bytes) :
    Triple P (writeChunk .blocking off b) (fun _ d => d.busy = false)
      (fun e d => e = .unavailable ∨ (e = .capacity ∨ e = .busy ∧ d.busy = true) ∧ P d) := by
  refine .bind ((reserveChunk_spec hP).error fun _ _ h => .inr ⟨.inl h.1, h.2⟩) fun _ => ?_
  refine .bind (Q := fun _ d => d.busy = false) ?_ fun _ => ?_
  · refine .bind (Q := fun d₀ d => d₀ = d ∧ P d) (.get fun _ h => ⟨rfl, h⟩) fun d₀ => ?_
    refine .ite (fun _ => .throw fun _ _ => .inl rfl) fun _ => ?_
    refine .ite (fun hbusy => .throw ?_) fun hbusy => .pure ?_
    · rintro d ⟨rfl, hd⟩
      exact .inr ⟨.inr ⟨rfl, hbusy.2⟩, hd⟩
    · rintro d ⟨rfl, hd⟩
      simpa using hbusy
  · refine .bind (Q := fun _ (d : Device) => d.busy = false) (fun d hd => hd) fun a => ?_
    cases a with
    | done => exact .update fun _ h => h
    | failed kept =>
      exact .bind (Q := fun _ _ => True) (.update fun _ _ => trivial)
        fun _ => .throw fun _ _ => .inl rfl

/-- The later chunks fail with the device or with their memory. -/
theorem writeChunks_blocking (m off : ℕ) (l : List Bytes) :
    Triple (fun d => d.busy = false) (writeChunks .blocking m off l) (fun _ d => d.busy = false)
      (fun e _ => e = .unavailable ∨ e = .capacity) := by
  induction l generalizing off with
  | nil => exact .skip
  | cons c l ih =>
    refine .bind ((writeChunk_blocking (fun _ _ h => h) off c).error ?_) fun _ => ih _
    rintro e d (h | ⟨h | ⟨-, hbusy⟩, hidle⟩)
    · exact .inl h
    · exact .inr h
    · exact absurd (hidle.symm.trans hbusy) (by simp)

variable {off : ℕ} {b : Bytes}

/-- A write that does not tear either fails with the device or leaves it as it was. -/
theorem write_untorn (hb : b ≠ []) :
    Triple (fun d => Flushed info block img d ∧ ¬ d.tears .blocking off b)
      (Device.write .blocking off b) (fun _ d => d.busy = false)
      (fun e d => e = .unavailable ∨ Flushed info block img d) := by
  rintro d ⟨hd, htear⟩
  show Post _ _ ((if off % d.info.sectorSize ≠ 0 ∨ b.length % d.info.sectorSize ≠ 0 then
    throw Path.blocking.misaligned
    else writeChunks .blocking d.info.maxBytes off (chunks d.info.maxBytes b)) d)
  split
  · exact .inr hd
  rw [chunks_cons d.info.maxBytes_pos hb]
  -- from here on the first chunk may have gone out, and then nothing tears
  have hfirst : Triple (fun d' => d' = d)
      (writeChunk .blocking off (b.take d.info.maxBytes))
      (fun _ d₁ => d₁.busy = false ∧
        ∃ d', d' = d ∧ writeChunk .blocking off (b.take d.info.maxBytes) d' = .ok () d₁)
      (fun e d => e = .unavailable ∨ Flushed info block img d) := by
    refine .origin (.conseq (P := Flushed info block img)
      (writeChunk_blocking (fun _ f h => h.answers f) off _) (fun d' h => h ▸ hd)
      (fun _ _ h => h) ?_)
    exact fun _ _ h => h.imp_right And.right
  refine Triple.bind hfirst (fun _ => ?_) d rfl
  rintro d₁ ⟨hidle, d', rfl, h₁⟩
  have hrest := writeChunks_blocking d'.info.maxBytes (off + d'.info.maxBytes)
    (chunks d'.info.maxBytes (b.drop d'.info.maxBytes)) d₁ hidle
  rcases h₂ : writeChunks .blocking d'.info.maxBytes (off + d'.info.maxBytes)
    (chunks d'.info.maxBytes (b.drop d'.info.maxBytes)) d₁ with ⟨⟨⟩, d₂⟩ | ⟨e, d₂⟩
  · rw [h₂] at hrest
    exact hrest
  · rw [h₂] at hrest
    rcases hrest with rfl | rfl
    · exact .inl rfl
    · exact absurd ⟨d₁, d₂, h₁, h₂⟩ htear

theorem flush_idle : Triple (fun d => d.busy = false) (flush .blocking) (fun _ _ => True)
      (fun e _ => e = .unavailable) := by
  refine .look fun d₀ h₀ => ?_
  rw [if_neg (by rw [h₀]; simp)]
  refine .bind (Q := fun _ _ => True) (fun _ _ => trivial) fun a => ?_
  cases a with
  | done => exact .update fun _ _ => trivial
  | failed kept => exact .throw fun _ _ => rfl

/-- **A durable write that does not tear either fails with the device or leaves it as it
was.** -/
theorem writeDurably_untorn (hb : b ≠ []) :
    Triple (fun d => Flushed info block img d ∧ ¬ d.tears .blocking off b)
      (Volume.writeDurably .blocking off b) (fun _ _ => True)
      (fun e d => e = .unavailable ∨ Flushed info block img d) :=
  .bind (write_untorn hb) fun _ => flush_idle.error fun _ _ h => .inl h

theorem writeDurably_seal_untorn (hoff : off % block = 0) (hblock : 0 < block)
    (hmax : block ≤ info.maxBytes) (hz : ∀ x ∈ b.drop block, x = 0) (hb : b ≠ []) :
    Triple (fun d => Flushed info block img d ∧ ¬ d.tears .blocking off b)
      (Volume.writeDurably .blocking off b) (fun _ => Flushed info block (img.write off b))
      (fun e d => Held info block img (Seals block off b) d ∧
        (e = .unavailable ∨ Flushed info block img d)) :=
  ((writeDurably_seal hoff hblock hmax hz).and (writeDurably_untorn hb)).conseq
    (fun _ h => ⟨h.1, h⟩) (fun _ _ h => h.1) fun _ _ h => h

end Torn

namespace Volume

variable {hash : Bytes → Digest} {info : Info} {r : Banks.Root} {j₀ : Journal}
variable {hist : List Entry} {v₀ : Volume}

/-! ### The blocking put -/

/-- The record of a put is durable, and its receipt is the next thing to be written. -/
structure AtReceipt (hash : Bytes → Digest) (info : Info) (r : Banks.Root) (j₀ : Journal)
    (hist : List Entry) (v₀ : Volume) (object : Object) (bytes : UInt64) (payload : Bytes)
    (x : Commit × Bytes × Bytes) (v : Volume) : Prop where
  asked : Asked object bytes payload (x.1, payload)
  publishing : ∃ record receipt padded tree stop img,
    x.2.1 = Journal.pad (j₀.afterAll hist).cell.toNat record ∧
    x.2.2 = Journal.pad (j₀.afterAll hist).cell.toNat receipt ∧
    Publishing hash r j₀ hist x.1 payload record receipt padded tree stop img ∧
    On v₀ (Flushed info r.geometry.alignment.toNat
      (img.write (j₀.afterAll hist).log.toNat (Journal.pad (j₀.afterAll hist).cell.toNat record))) v

/-- **Up to its record a put changes only the free space.** -/
theorem putRecord_spec (hj : v₀.journal = j₀.afterAll hist) (object : Object)
    (condition : Condition) (source : Option Bytes) (bytes : UInt64) (unique : Bytes) :
    Triple (On v₀ (Resting hash info r j₀ hist))
      (putRecord hash object condition source bytes unique)
      (AtReceipt hash info r j₀ hist v₀ object bytes (source.getD []))
      (fun _ => On v₀ (Resting hash info r j₀ hist)) := by
  have hans : ∀ d f, Resting hash info r j₀ hist d →
      Resting hash info r j₀ hist { d with answers := f } :=
    fun _ f h => h.answers f
  have hreserve : Stable (On v₀ (Resting hash info r j₀ hist)) (onDevice (attempt .capacity)) :=
    (reserve_spec hans _).error fun _ _ h => h.2
  refine .seq (planPut_spec hans object condition source bytes unique) fun location => ?_
  rintro ⟨hlen, padded, tree, stop, hp⟩
  rw [hj] at hp
  refine .seq get_spec fun v' hv' => ?_
  rw [hv'.journal, hj, hp.place]
  refine .bind (digestBudget_spec hans _ _) fun _ => ?_
  refine .bind hreserve fun _ => .bind hreserve fun _ => ?_
  refine of_resting fun base img hm himg => ?_
  have f := hm.facts
  obtain ⟨-, h32⟩ := f.min
  set e := j₀.afterAll hist with he
  have hcap := hp.planned.capacity
  have hrest : ∀ d b, Medium hash r none j₀ hist b →
      Held info r.geometry.alignment.toNat b (Inside e.Free) d →
      Resting hash info r j₀ hist d := fun _ b hb hd => ⟨b, hb, hd⟩
  refine .seq ((putExtent_spec f.wf.geometry h32 _ hp.planned hlen
    fun i h1 h2 => .inr ⟨h1, by omega⟩).error fun _ _ h => h.mono fun d hd => hrest d _ hm hd)
    fun loc hloc => ?_
  refine .seq (mapErr_spec fun _ h => h.mono fun d hd => hrest d _ hm hd.1)
    fun _ _ => ?_
  refine .seq (mapErr_spec fun _ h => h.mono fun d hd => hrest d _ hm hd.1)
    fun record hrecord => ?_
  refine .seq (refuse_spec fun _ h => h.mono fun d hd => hrest d _ hm hd.1)
    fun _ hfit => ?_
  rw [decide_eq_false_iff_not, not_lt] at hfit
  have hacc := accepts_commitFor f.wf h32 hp hlen (by rw [hloc]) hrecord hfit
  obtain ⟨receipt, hreceipt, -⟩ := receipt_encode e.log (hash record)
  have hpub := publishing_extent hm himg hacc hreceipt h32
  refine .bind ((onDevice_spec flush_spec).error fun _ _ h => h.mono fun d hd =>
    hrest d _ hm hd) fun _ => ?_
  refine .seq_eq (mapErr_of hreceipt) ?_
  have hagain : ∀ img', Medium hash r none j₀ hist img' →
      Triple (On v₀ (Flushed info r.geometry.alignment.toNat img')) (onDevice (attempt .capacity))
        (fun _ => On v₀ (Flushed info r.geometry.alignment.toNat img'))
        (fun _ => On v₀ (Resting hash info r j₀ hist)) := fun img' hm' =>
    (reserve_spec (fun _ f h => h.answers f) _).error fun _ _ h => h.2.mono fun _ hd =>
      resting_of_flushed hm' hd
  refine .bind (hagain _ hpub.medium) fun _ => .bind (hagain _ hpub.medium) fun _ => ?_
  refine .bind ((onDevice_spec (writeDurably_region fun i h1 h2 => hpub.record_free h1 h2)).error
    fun _ _ h => h.mono fun d hd => hrest d _ hpub.medium hd) fun _ => .pure fun v hv => ?_
  exact ⟨⟨rfl, rfl, rfl⟩, record, _, padded, tree, stop, _, rfl, rfl, hpub, hv⟩

/-- The put tears its receipt: the memory for a later chunk of the cell is refused. -/
def PutTears (hash : Bytes → Digest) (object : Object) (condition : Condition)
    (source : Option Bytes) (bytes : UInt64) (unique : Bytes) (v : Volume) : Prop :=
  ∃ x v', putRecord hash object condition source bytes unique v = .ok x v' ∧
    v'.device.tears .blocking (v'.journal.log.toNat + v'.journal.cell.toNat) x.2.2

/-- **A put that does not tear its receipt.**  If it is refused and the device has not
failed, it has not become visible. -/
theorem put_spec (hr : Mountable info r) (hj : v₀.journal = j₀.afterAll hist) (object : Object)
    (condition : Condition) (source : Option Bytes) (bytes : UInt64) (unique : Bytes) :
    Triple (fun v => On v₀ (Resting hash info r j₀ hist) v ∧
        ¬ PutTears hash object condition source bytes unique v)
      (put hash object condition source bytes unique)
      (Done hash info r j₀ hist object bytes (source.getD []) v₀)
      (fun e v => On v₀ (Stopped hash info r j₀ hist object bytes (source.getD [])) v ∧
        (e = .unavailable ∨ On v₀ (Resting hash info r j₀ hist) v)) := by
  refine .bind ((((putRecord_spec hj object condition source bytes unique).pre
    fun _ h => h.1).origin).error fun _ v h => ⟨h.mono fun _ hd => Or.inl hd, Or.inr h⟩)
    fun x => .pointwise ?_
  obtain ⟨c, recordCell, receiptCell⟩ := x
  rintro v
    ⟨⟨hask, record, receipt, padded, tree, stop, img, rfl, rfl, hpub, hfl, hsame⟩, s,
      ⟨-, htear⟩, hs⟩
  have f := hpub.medium.facts
  obtain ⟨hmin, -⟩ := f.min
  set e := j₀.afterAll hist with he
  have hnt : ¬ v.device.tears .blocking (e.log.toNat + e.cell.toNat)
      (Journal.pad e.cell.toNat receipt) := by
    intro h
    refine htear ⟨_, v, hs, ?_⟩
    rw [hsame.journal, hj]
    exact h
  have hne : Journal.pad e.cell.toNat receipt ≠ [] := by
    have hlen := hpub.length_receiptCell
    have hle := f.wf.cell_le
    rw [← he] at hlen
    exact ne_nil_of_length_pos (by omega)
  refine .pre (P := On v₀ fun d => Flushed info r.geometry.alignment.toNat
      (img.write e.log.toNat (Journal.pad e.cell.toNat record)) d ∧
        ¬ d.tears .blocking (e.log.toNat + e.cell.toNat) (Journal.pad e.cell.toNat receipt)) ?_
    fun v' (h : v' = v) => h ▸ ⟨⟨hfl, hnt⟩, hsame⟩
  refine .seq get_spec fun v' hv' => ?_
  rw [hv'.journal, hj]
  refine .bind ((onDevice_spec (writeDurably_seal_untorn f.receipt_mod (by omega) hr.max
    (fun x hx => hpub.receipt_seals hmin hx) hne)).error ?_) fun _ => ?_
  · rintro e' v ⟨⟨hd, hcases⟩, hs⟩
    refine ⟨⟨Or.inr ⟨_, hask, fun _ hc => hpub.split hmin hd hc⟩, hs⟩, ?_⟩
    exact hcases.imp_right fun hd => ⟨resting_of_flushed hpub.with_record hd, hs⟩
  have happly : v₀.journal.replay hash (Journal.pad e.cell.toNat record)
      (Journal.pad e.cell.toNat receipt) =
        .ok (true, j₀.afterAll (hist ++ [(c, source.getD [])])) := by
    rw [hj, replay_accepts hpub.accepts f.wf hpub.encoded, afterAll_append]
    rfl
  refine .bind ((applyPair_spec happly).error fun _ _ h =>
    ⟨h.2.mono fun _ hd => .inr ⟨_, hask, fun _ hc => .inr
      ((resting_of_flushed hpub.with_receipt hd).crash hc)⟩, .inl h.1⟩)
    fun _ => .pure fun v hv => ?_
  exact ⟨_, hask, rfl, hv.mono fun _ hd => resting_of_flushed hpub.with_receipt hd⟩

variable {object : Object} {condition : Condition} {unique : Bytes} {v v' : Volume}
variable {Q : Device → Prop} {e : Refusal}

/-- Where the largest request holds a whole cell, nothing tears. -/
theorem not_putTears (hj : v₀.journal = j₀.afterAll hist) {source : Option Bytes} {bytes : UInt64}
    (hv : On v₀ (Resting hash info r j₀ hist) v) (hcell : v₀.journal.cell.toNat ≤ info.maxBytes) :
    ¬ PutTears hash object condition source bytes unique v := by
  rintro ⟨⟨c, recordCell, receiptCell⟩, v', hrun, d₁, d₂, -, hrest⟩
  obtain ⟨-, record, receipt, padded, tree, stop, img, -, hreceipt, hpub, hfl, -⟩ :=
    (putRecord_spec hj object condition source bytes unique).of_ok hv hrun
  have hlen : receiptCell.length = v₀.journal.cell.toNat := by
    rw [hj, ← hpub.length_receiptCell]
    exact congrArg List.length hreceipt
  rw [hfl.info, drop_of_length_le (by dsimp only; omega), chunks_nil info.maxBytes_pos] at hrest
  cases hrest

/-! ### Requests -/

/-- The condition and the length of an operation that puts. -/
def Operation.put : Operation → Option (Condition × UInt64)
  | .create length => some (.absent, length)
  | .replace condition length => some (condition, length)
  | _ => none

/-- What holds of a volume between two requests: a crash leaves some history, and while the
volume is open that is the history of its journal. -/
structure Steady (hash : Bytes → Digest) (info : Info) (r : Banks.Root) (j₀ : Journal)
    (v : Volume) : Prop where
  safe : ∀ img, v.device.CrashesTo img → ∃ hist, Medium hash r none j₀ hist img
  sync : v.asyncFailed = false
  agrees : v.failed = false →
    ∃ hist, v.journal = j₀.afterAll hist ∧ Resting hash info r j₀ hist v.device

theorem steady_of_resting (hs : v.asyncFailed = false)
    (hj : v.journal = j₀.afterAll hist) (hd : Resting hash info r j₀ hist v.device) :
    Steady hash info r j₀ v :=
  ⟨fun _ hc => ⟨hist, hd.crash hc⟩, hs, fun _ => ⟨hist, hj, hd⟩⟩

variable {operation : Operation}

/-- The operations that do not put keep the device and the journal. -/
theorem perform_keeps (hQ : ∀ d f, Q d → Q { d with answers := f })
    (object : Object) (hop : operation.put = none) (payload : Option Bytes)
    (unique : Bytes) : Stable (On v₀ Q) (perform hash object operation payload unique) := by
  refine .bind (object_keeps object) fun _ => ?_
  refine .seq get_spec fun v _ => ?_
  cases operation with
  | current => exact .bind (okOrRefuse_spec fun _ h => h) fun _ => .of_pre fun _ => .skip
  | cacheRead version offset length => exact .throw fun _ h => h
  | cacheFill version offset length => exact .throw fun _ h => h
  | head version =>
    refine .seq (okOrRefuse_spec fun _ h => h) fun _ _ => ?_
    exact .bind (refuse_spec fun _ h => h) fun _ => .of_pre fun _ => .skip
  | read version offset length => exact .bind (read_keeps hQ _ _ _ _ _) fun _ => .skip
  | create length => exact absurd hop (by simp [Operation.put])
  | list limit cursor => exact .skip
  | replace condition length => exact absurd hop (by simp [Operation.put])

theorem perform_put {P : Volume → Prop} {Q : Metadata → Volume → Prop} {E : Refusal → Volume → Prop}
    (object : Object) {length : UInt64}
    (hop : operation.put = some (condition, length)) (payload : Option Bytes) (unique : Bytes)
    (hobj : Triple P (Volume.object object) (fun _ => P) E)
    (hput : Triple P (put hash object condition payload length unique) Q E) :
    Triple P (perform hash object operation payload unique) (fun _ v => ∃ m, Q m v) E := by
  refine .bind hobj fun _ => ?_
  refine .look fun v _ => ?_
  cases operation with
  | create l =>
    cases hop
    exact .bind hput fun m => .pure fun _ h => ⟨m, h⟩
  | replace c l =>
    cases hop
    exact .bind hput fun m => .pure fun _ h => ⟨m, h⟩
  | _ => exact absurd hop (by simp [Operation.put])

/-- The request tears the receipt of its put. -/
def RequestTears (hash : Bytes → Digest) (object : Object) (operation : Operation)
    (payload : Option Bytes) (unique : Bytes) (v : Volume) : Prop :=
  ∃ condition length, operation.put = some (condition, length) ∧
    PutTears hash object condition payload length unique v

theorem clearDestination_keeps (hQ : ∀ d f, Q d → Q { d with answers := f })
    (operation : Operation) (payload : Option Bytes) :
    Stable (On v₀ Q) (clearDestination operation payload) := by
  intro v hv
  unfold clearDestination
  split
  · split
    · exact hv
    · exact ((reserve_spec hQ _).error fun _ _ h => h.2) v hv
  · exact hv

theorem clearDestination_put {x : Condition × UInt64}
    (hop : operation.put = some x) (payload : Option Bytes) (v : Volume) :
    clearDestination operation payload v = .ok () v := by
  cases operation <;> first | rfl | exact absurd hop (by simp [Operation.put])

/-- A refusal of the operation is the answer of the request. -/
theorem execute_refused {payload : Option Bytes}
    (hrole : (v.journal.geometry.role == .cacheScratch) = false)
    (hopen : (v.failed || v.asyncFailed) = false)
    (h : perform hash object operation payload unique v = .error e v')
    (hc : clearDestination operation payload v' = .ok () v') :
    execute hash object operation payload unique v =
      .error e (if e = .unavailable ∨ e = .integrity then { v' with failed := true } else v') := by
  show EStateM.bind (refuse (v.journal.geometry.role == .cacheScratch) .unsupported) _ v = _
  rw [hrole]
  show EStateM.bind (refuse (v.failed || v.asyncFailed) .unavailable) _ v = _
  rw [hopen]
  unfold EStateM.bind
  rw [show refuse false .unavailable v = .ok () v from rfl]
  dsimp only
  rw [h]
  dsimp only
  rw [hc]

/-- A refused request closes the volume or has not changed it. -/
theorem steady_of_refused (hj : v.journal = j₀.afterAll hist) (hs : v'.asyncFailed = false)
    (hsafe : ∀ img, v'.device.CrashesTo img → ∃ hist, Medium hash r none j₀ hist img)
    (h : e = .unavailable ∨ On v (Resting hash info r j₀ hist) v') :
    Steady hash info r j₀
      (if e = .unavailable ∨ e = .integrity then { v' with failed := true } else v') := by
  split
  · -- case: the volume is closed
    exact ⟨hsafe, hs, fun hopen => absurd hopen (by simp)⟩
  · rename_i he
    rcases h with h | h
    · exact absurd (Or.inl h) he
    · exact steady_of_resting hs (h.2.journal.trans hj) h.1

/-- **A request that does not tear keeps a volume steady.** -/
theorem execute_steady (hr : Mountable info r) (object : Object) (operation : Operation)
    (payload : Option Bytes) (unique : Bytes) :
    Triple (fun v => Steady hash info r j₀ v ∧
        (v.failed = false → ¬ RequestTears hash object operation payload unique v))
      (execute hash object operation payload unique)
      (fun _ => Steady hash info r j₀) (fun _ => Steady hash info r j₀) := by
  refine .pointwise ?_
  rintro v ⟨hsteady, htear⟩
  have hkeep : ∀ v', v' = v → Steady hash info r j₀ v' := fun _ h => h ▸ hsteady
  refine .bind (Q := fun v' v'' => v' = v ∧ v'' = v) (Triple.get fun _ h => ⟨h, h⟩)
    fun v' => .of_pre fun hv' => ?_
  rw [hv']
  refine .seq (refuse_spec fun _ h => hkeep _ h) fun _ _ => ?_
  refine .seq (refuse_spec fun _ h => hkeep _ h) fun _ hopen => ?_
  have hopen := (Bool.or_eq_false_iff.mp hopen).1
  obtain ⟨hist, hj, hd⟩ := hsteady.agrees hopen
  have hon : On v (Resting hash info r j₀ hist) v := ⟨hd, rfl, rfl, rfl, rfl⟩
  have hans : ∀ d f, Resting hash info r j₀ hist d →
      Resting hash info r j₀ hist { d with answers := f } :=
    fun _ f h => h.answers f
  intro s hs
  rw [hs]
  dsimp only
  rcases hop : operation.put with - | ⟨condition, length⟩
  · -- case: nothing is put
    have hperform : Post _ _ (perform hash object operation payload unique v) :=
      perform_keeps hans object hop payload unique v hon
    rcases hrun : perform hash object operation payload unique v with ⟨outcome, v₁⟩ | ⟨e, v₁⟩
    · rw [hrun] at hperform
      exact steady_of_resting (hperform.2.asyncFailed.trans hsteady.sync)
        (hperform.2.journal.trans hj) hperform.1
    rw [hrun] at hperform
    have hclear := clearDestination_keeps hans operation payload v₁ hperform
    dsimp only
    rcases hc : clearDestination operation payload v₁ with ⟨⟨⟩, v₂⟩ | ⟨e', v₂⟩
    · rw [hc] at hclear
      exact steady_of_refused hj (hclear.2.asyncFailed.trans hsteady.sync)
        (fun _ h => ⟨hist, Resting.crash hclear.1 h⟩) (Or.inr hclear)
    · rw [hc] at hclear
      exact steady_of_resting (hclear.2.asyncFailed.trans hsteady.sync)
        (hclear.2.journal.trans hj) hclear.1
  · -- case: a put
    have hput : Post _ _ (perform hash object operation payload unique v) :=
      perform_put object hop payload unique
        ((object_keeps object).error fun e v' h => ⟨h.1.mono fun _ hd => .inl hd, .inr h.1⟩)
        (put_spec hr hj object condition payload length unique) v
        ⟨hon, fun h => htear hopen ⟨condition, length, hop, h⟩⟩
    rcases hrun : perform hash object operation payload unique v with ⟨outcome, v₁⟩ | ⟨e, v₁⟩
    · rw [hrun] at hput
      obtain ⟨m, x, -, -, hdone⟩ := hput
      exact steady_of_resting (hdone.2.asyncFailed.trans hsteady.sync) hdone.2.journal hdone.1
    rw [hrun] at hput
    dsimp only
    rw [clearDestination_put hop]
    refine steady_of_refused hj (hput.1.2.asyncFailed.trans hsteady.sync) (fun img hc => ?_) hput.2
    rcases hput.1.1 with hrest | ⟨x, -, hsplit⟩
    · exact ⟨hist, hrest.crash hc⟩
    · exact (hsplit img hc).elim (fun h => ⟨_, h⟩) fun h => ⟨_, h⟩

end Volume

/-! ### Runs of requests, crashes and restarts -/

/-- A request of a session, and what the driver and the kernel are going to answer to it. -/
structure Request where
  object : Object
  operation : Volume.Operation
  payload : Option Bytes
  unique : Bytes
  answers : ℕ → Answer
  busy : Bool

namespace Request

variable (hash : Bytes → Digest)

def run (q : Request) (v : Volume) : EStateM.Result Refusal Volume Volume.Outcome :=
  Volume.execute hash q.object q.operation q.payload q.unique (v.facing q.answers q.busy)

/-- The volume a request leaves. -/
def leaves (q : Request) (v : Volume) : Volume :=
  match q.run hash v with
  | .ok _ v => v
  | .error _ v => v

/-- The memory for a later chunk of the receipt cell is refused. -/
def tears (q : Request) (v : Volume) : Prop :=
  Volume.RequestTears hash q.object q.operation q.payload q.unique (v.facing q.answers q.busy)

/-- Nothing of a receipt is torn: the request puts nothing, one request of the device holds a
whole cell, or the memory for the later chunks of the receipt cell is not refused. -/
def Whole (info : Info) (q : Request) (v : Volume) : Prop :=
  q.operation.put = none ∨ v.journal.cell.toNat ≤ info.maxBytes ∨ ¬ q.tears hash v

end Request

/-- The volumes that `v₀` becomes by allowed requests, and by losses of power followed by a
restart. -/
inductive Reached (hash : Bytes → Digest) (geometry : Superblock) (info : Info) (block : ℕ)
    (allowed : Request → Volume → Prop) (v₀ : Volume) : Volume → Prop
  | start : Reached hash geometry info block allowed v₀ v₀
  | request {v : Volume} (q : Request) : Reached hash geometry info block allowed v₀ v →
      allowed q v → Reached hash geometry info block allowed v₀ (q.leaves hash v)
  | restart {v m : Volume} {img : Disk} {d : Device} :
      Reached hash geometry info block allowed v₀ v → v.device.CrashesTo img →
      Volume.mountInner hash geometry.alignment geometry.role (boot info block img) = .ok m d →
      Reached hash geometry info block allowed v₀ m

section Runs

variable {hash : Bytes → Digest} {info : Info} {r : Banks.Root} {j₀ : Journal}
variable {v : Volume}

theorem Volume.Steady.facing (h : Volume.Steady hash info r j₀ v) (f : ℕ → Answer)
    (busy : Bool) : Volume.Steady hash info r j₀ (v.facing f busy) := by
  refine ⟨h.safe, h.sync, fun hopen => ?_⟩
  obtain ⟨hist, hj, hd⟩ := h.agrees hopen
  exact ⟨hist, hj, hd.facing f busy⟩

theorem Request.Whole.not_tears {q : Request} (hq : q.Whole hash info v)
    (h : Volume.Steady hash info r j₀ v) (hopen : v.failed = false) : ¬ q.tears hash v := by
  rcases hq with hnone | hcell | hnt
  · rintro ⟨condition, length, hput, -⟩
    cases hnone.symm.trans hput
  · obtain ⟨hist, hj, hd⟩ := h.agrees hopen
    rintro ⟨condition, length, -, htear⟩
    exact not_putTears hj (v := v.facing q.answers q.busy)
      ⟨hd.facing _ _, rfl, rfl, rfl, rfl⟩ hcell htear
  · exact hnt

theorem Request.leaves_steady (hr : Mountable info r) {q : Request}
    (h : Volume.Steady hash info r j₀ v) (hq : q.Whole hash info v) :
    Volume.Steady hash info r j₀ (q.leaves hash v) := by
  have hpre := And.intro (h.facing q.answers q.busy) (hq.not_tears h)
  unfold Request.leaves
  rcases hrun : q.run hash v with ⟨outcome, v'⟩ | ⟨e, v'⟩
  · exact (execute_steady hr q.object q.operation q.payload q.unique).of_ok hpre hrun
  · exact (execute_steady hr q.object q.operation q.payload q.unique).of_error hpre hrun

/-- **Every volume reached without tearing is steady.** -/
theorem Reached.steady {geometry : Superblock} {v₀ : Volume} (hr : Mountable info r)
    (halign : r.geometry.alignment = geometry.alignment) (hrole : r.geometry.role = geometry.role)
    (h₀ : Volume.Steady hash info r j₀ v₀)
    (h : Reached hash geometry info r.geometry.alignment.toNat (Request.Whole hash info) v₀ v) :
    Volume.Steady hash info r j₀ v := by
  induction h with
  | start => exact h₀
  | request q _ ht ih => exact q.leaves_steady hr ih ht
  | restart _ hc hm ih =>
    obtain ⟨hist, hmed⟩ := ih.safe _ hc
    obtain ⟨d, hmount, -, hd⟩ := mountInner_boot r.geometry.alignment.toNat hmed hr
    rw [halign, hrole] at hmount
    rw [halign] at hm
    obtain ⟨rfl, rfl⟩ := EStateM.Result.ok.inj (hm.symm.trans hmount)
    exact steady_of_resting rfl rfl (resting_of_flushed hmed hd)

end Runs

/-- **The error paths of the blocking put.**  In every volume reached from a provisioned one
by requests that leave receipts whole, by losses of power and by restarts: every
medium that a loss of power leaves mounts, and while the volume is open its log replays to
exactly the journal of the volume. -/
theorem execute_log_agrees_unless_torn (hash : Bytes → Digest) {geometry : Superblock}
    {d d₀ : Device} {v₀ v : Volume} (hblock : d.block = geometry.alignment.toNat)
    (hprov : Volume.provision hash geometry d = .ok v₀ d₀)
    (hv : Reached hash geometry d.info d.block (Request.Whole hash d.info) v₀ v) {img : Disk}
    (hcrash : v.device.CrashesTo img) :
    ∃ m d₁,
      Volume.mountInner hash geometry.alignment geometry.role (boot d.info d.block img) = .ok m d₁ ∧
      (v.failed = false → m.journal = v.journal) := by
  obtain ⟨r, j₀, base, hfirst, hm, hr, rfl, hd⟩ := provision_ok hprov
  obtain ⟨-, -, -, halign, hrole⟩ := Banks.Root.initial_spec hfirst
  rw [hblock, ← halign] at hd hv ⊢
  have hsteady := hv.steady hr halign hrole
    (steady_of_resting rfl (show _ = j₀.afterAll [] from rfl) (resting_of_flushed hm hd))
  rw [← hrole]
  by_cases hopen : v.failed = false
  · obtain ⟨hist, hj, hrest⟩ := hsteady.agrees hopen
    obtain ⟨d₁, hmount, -⟩ := mountInner_boot _ (hrest.crash hcrash) hr
    exact ⟨_, d₁, hmount, fun _ => hj.symm⟩
  · obtain ⟨hist, hmed⟩ := hsteady.safe img hcrash
    obtain ⟨d₁, hmount, -⟩ := mountInner_boot _ hmed hr
    exact ⟨_, d₁, hmount, fun h => absurd h hopen⟩

/-- The same device with requests large enough for a cell. -/
def wideInfo : Info := { sampleInfo with maxSectors := 32, maxPos := by decide }

/-- A create that meets no refusal. -/
def sampleCreate : Request :=
  { object := ⟨"w", "b", "k"⟩, operation := .create 0, payload := none
    unique := List.replicate 16 0, answers := fun _ => .done, busy := false }

theorem execute_log_agrees_sampleCreate : ∃ v₀ d₀,
      Volume.provision (fun _ => zeroDigest) sampleGeometry (boot wideInfo 512 fun _ => 0) =
        .ok v₀ d₀ ∧
      ∀ img, (sampleCreate.leaves (fun _ => zeroDigest) v₀).device.CrashesTo img →
        ∃ m d₁, Volume.mountInner (fun _ => zeroDigest) 512 .singleNodeHome
          (boot wideInfo 512 img) = .ok m d₁ := by
  obtain ⟨v₀, d₀, hprov⟩ := @provision_sampleGeometry (fun _ => zeroDigest) wideInfo rfl rfl
  obtain ⟨r, j₀, base, hfirst, hm, -, hv₀, -⟩ := provision_ok hprov
  obtain rfl := firstRoot_sampleGeometry rfl rfl hfirst
  have hcell : v₀.journal.cell.toNat ≤ wideInfo.maxBytes := by
    obtain ⟨w, hgeo, -⟩ := new_wf hm.fresh
    rw [hv₀, w.cell, hgeo]
    decide
  refine ⟨v₀, d₀, hprov, fun img hcrash => ?_⟩
  obtain ⟨m, d₁, hmount, -⟩ := execute_log_agrees_unless_torn _ rfl hprov
    (Reached.start.request sampleCreate (.inr (.inl hcell))) hcrash
  exact ⟨m, d₁, hmount⟩

/-! ### A torn receipt -/

section Defect

variable {hash : Bytes → Digest} {info : Info} {block n : ℕ} {img : Disk} {g : ℕ → Answer}
variable {kept : List Bool} {v : Volume}

theorem writeChunks_refused (hg : g 0 = .failed kept) (m off : ℕ) (c : Bytes) (rest : List Bytes) :
    Triple (fun d => Ready info 0 g d ∧ d.visible = img)
      (writeChunks .blocking m off (c :: rest)) (fun _ _ => False)
      (fun e d => e = .capacity ∧ d.visible = img) := by
  have hreserve : Triple (fun d => Ready info 0 g d ∧ d.visible = img) (attempt .capacity)
      (fun _ _ => False) (fun e d => e = .capacity ∧ d.visible = img) := by
    refine .bind (Q := fun a d => a = .failed kept ∧ d.visible = img)
      (fun d hd => ⟨by rw [hd.1.answers]; exact hg, hd.2⟩) fun a => .of_pre ?_
    rintro rfl
    exact .throw fun _ h => ⟨rfl, h⟩
  exact .bind (Q := fun _ _ => False)
    (.bind hreserve fun _ => .of_false) fun _ => .of_false

theorem write_torn (hg : g 0 = .failed kept) {off : ℕ} {b : Bytes}
    (hfit : Fits info off b.length) (hlong : info.maxBytes < b.length) :
    Triple (fun d => Ready info 2 g d ∧ Flushed info block img d) (Device.write .blocking off b)
      (fun _ _ => False)
      (fun e d => e = .capacity ∧ d.visible = img.write off (b.take info.maxBytes)) := by
  have hm := info.maxBytes_pos
  refine .look fun d₀ h => ?_
  have h₀ := h.1.info
  have haligned : ¬ (off % d₀.info.sectorSize ≠ 0 ∨ b.length % d₀.info.sectorSize ≠ 0) := by
    rw [h₀, Nat.mod_eq_zero_of_dvd hfit.offDvd, Nat.mod_eq_zero_of_dvd hfit.lenDvd]
    simp
  have hfirst : Fits info off (b.take info.maxBytes).length := by
    rw [length_take, min_comm]
    exact hfit.take
  have hpass := @writeChunk_ready info .blocking 0 g off _ hfirst (by rw [length_take]; omega)
    (by rw [length_take]; omega)
  have hchunk : Triple (fun d => Ready info 2 g d ∧ Held info block img (fun _ => True) d ∧
        d.visible = img)
      (writeChunk .blocking off (b.take info.maxBytes))
      (fun _ d => Ready info 0 g d ∧ Held info block img (fun _ => True) d ∧
        d.visible = img.write off (b.take info.maxBytes)) (fun _ _ => False) :=
    (hpass.and (writeChunk_spec fun _ _ => trivial)).error fun _ _ h => h.1
  rw [if_neg haligned, h₀, chunks_cons hm (ne_nil_of_length_pos (by omega)),
    chunks_cons hm (ne_nil_of_length_pos (by rw [length_drop]; omega))]
  refine .bind (hchunk.conseq (fun d h => ⟨h.1, h.2.held, h.2.visible_eq⟩) (fun _ _ h => h)
    fun _ _ h => h.elim) fun _ => ?_
  exact (writeChunks_refused hg _ _ _ _).pre fun d h => ⟨h.1, h.2.2⟩

/-- The journal of the sample volume. -/
def sampleJournal : Journal :=
  { geometry := sampleFirstRoot.geometry, cell := 16384, log := 1024, data := 33792, entries := ∅ }

theorem new_sampleJournal : Journal.new sampleFirstRoot.geometry = .ok sampleJournal := rfl

theorem utf8ByteSize_hex_le (b : Bytes) : (hex b).utf8ByteSize ≤ 8 * b.length := by
  have key : ∀ l : List Char, (String.ofList l).utf8ByteSize ≤ 4 * l.length := by
    intro l
    induction l with
    | nil => simp
    | cons c l ih =>
      have hc := c.utf8Size_le_four
      have hs : String.ofList (c :: l) = String.singleton c ++ String.ofList l := by simp
      rw [hs, String.utf8ByteSize_append, String.utf8ByteSize_singleton, length_cons]
      omega
  have h := key (b.flatMap fun x => [Nat.digitChar (x.toNat / 16), Nat.digitChar (x.toNat % 16)])
  have hlen : (b.flatMap fun x =>
      [Nat.digitChar (x.toNat / 16), Nat.digitChar (x.toNat % 16)]).length = 2 * b.length := by
    simp [length_flatMap, mul_comm]
  unfold hex
  omega

/-- The commit of the sample request fits its cell, whatever its digests are. -/
theorem encode_sampleCreate (content root : Digest) :
    ∃ b, (Frame.commit (Volume.commitFor sampleJournal sampleCreate.object 0 content
        sampleCreate.unique (.extent 33792 0 [] root))).encode hash = .ok b ∧ b.length ≤ 16384 := by
  set c := Volume.commitFor sampleJournal sampleCreate.object 0 content sampleCreate.unique
    (.extent 33792 0 [] root) with hc
  have hobject : c.metadata.object = ⟨"w", "b", "k"⟩ := rfl
  have hlen : (Frame.commit c).payload.length ≤ 1000 := by
    have h1 := utf8ByteSize_hex_le content.val
    have h2 := utf8ByteSize_hex_le sampleCreate.unique
    have h3 : sampleCreate.unique.length = 16 := rfl
    have h4 : "w".utf8ByteSize = 1 ∧ "b".utf8ByteSize = 1 ∧ "k".utf8ByteSize = 1 := by decide
    simp only [Frame.payload, Commit.bytes, hobject, length_append, length_leBytes,
      length_textBytes, h4]
    simp only [hc, Volume.commitFor, optionalBytes, Location.bytes, length_append,
      length_cons, length_nil, length_leBytes, length_textBytes, flatMap_nil,
      content.property, root.property]
    omega
  have hvalid : c.metadata.object.validate = .ok () ∧ c.metadata.object.key.isEmpty = false := by
    rw [hobject]
    decide
  refine ⟨_, (Frame.encode_eq_ok hash).mpr ⟨⟨hvalid.1, version_commitFor _ _ _ _ _ _,
    hvalid.2, Nat.zero_le _⟩, hlen.trans (by decide), rfl⟩, ?_⟩
  rw [length_frameBytes]
  show 48 + _ ≤ _
  omega

theorem attempt_sampleCreate (refusal : Refusal) :
    Triple (Volume.On v (Ready info (n + 1) g)) (Volume.onDevice (attempt refusal))
      (fun _ => Volume.On v (Ready info n g)) (fun _ _ => False) :=
  (onDevice_spec (attempt_ready refusal)).error fun _ _ h => h.1

theorem plan_sampleCreate (hash : Bytes → Digest) :
    sampleJournal.plan hash sampleCreate.object .absent 0 =
      .ok (some (.extent 33792 0 [] (hash []))) := rfl

theorem planPut_sampleCreate (hj : v.journal = sampleJournal)
    (hopen : (v.failed || v.asyncFailed) = false) :
    Triple (Volume.On v (Ready info (n + 1) g))
      (Volume.planPut hash sampleCreate.object .absent none 0 sampleCreate.unique)
      (fun location v' => location = .extent 33792 0 [] (hash []) ∧
        Volume.On v (Ready info n g) v') (fun _ _ => False) := by
  obtain ⟨preview, hpreview, hfits⟩ := @encode_sampleCreate hash zeroDigest (hash [])
  refine .bind (object_passes (s := sampleJournal.geometry) (fun v' h =>
    ⟨by rw [h.2.failed, h.2.asyncFailed, hopen], by rw [h.2.journal, hj]⟩)
    (by decide) rfl rfl) fun _ => .bind (refuse_of rfl) fun _ => ?_
  refine .seq get_spec fun v' hv' => ?_
  rw [hv'.journal, hj]
  refine .seq_eq (mapErr_of (plan_sampleCreate hash)) ?_
  refine .pure_bind (Triple.bind (attempt_sampleCreate _) fun _ => ?_)
  refine .seq_eq (mapErr_of hpreview) ?_
  refine .bind (refuse_of ?_) fun _ => .pure fun _ h => ⟨rfl, h⟩
  rw [decide_eq_false_iff_not, not_lt]
  exact hfits

/-- The first 72 answers take the sample request to its receipt. -/
theorem putRecord_sampleCreate (hj : v.journal = sampleJournal)
    (hopen : (v.failed || v.asyncFailed) = false) :
    Triple (Volume.On v (Ready sampleInfo (n + 72) g))
      (Volume.putRecord hash sampleCreate.object .absent none 0 sampleCreate.unique)
      (fun _ => Volume.On v (Ready sampleInfo n g)) (fun _ _ => False) := by
  obtain ⟨record, hrecord, hfits⟩ := @encode_sampleCreate hash (hash []) (hash [])
  obtain ⟨w, -⟩ := new_wf new_sampleJournal
  have hvalid : sampleJournal.validateCommit hash (Volume.commitFor sampleJournal
      sampleCreate.object 0 (hash []) sampleCreate.unique (.extent 33792 0 [] (hash []))) =
        .ok () := by
    obtain ⟨padded, tree, stop, hp⟩ := plan_spec (plan_sampleCreate hash)
    obtain ⟨-, rfl, rfl, -⟩ := Location.extent.inj hp.place
    exact (accepts_commitFor w (by decide) hp rfl (by rfl) hrecord hfits).validateCommit w
  have hlen : (Journal.pad 16384 record).length = 16384 := length_pad hfits
  have hwrite : Triple (Ready sampleInfo (n + 65) g)
      (Volume.writeDurably .blocking 1024 (Journal.pad 16384 record))
      (fun _ => Ready sampleInfo n g) (fun _ _ => False) := by
    have hfit : Fits sampleInfo 1024 (Journal.pad 16384 record).length := by
      rw [hlen]
      exact ⟨⟨2, rfl⟩, ⟨32, rfl⟩, by decide⟩
    have h := @write_ready sampleInfo .blocking (n + 1) g 1024 _ hfit
    rw [hlen] at h
    exact .bind h fun _ => flush_ready
  obtain ⟨receipt, hreceipt, -⟩ := receipt_encode sampleJournal.log (hash record)
  refine .seq_eq (planPut_sampleCreate hj hopen) ?_
  refine .seq get_spec fun v' hv' => ?_
  rw [hv'.journal, hj]
  refine .bind (.bind .skip fun _ => attempt_sampleCreate _) fun _ => ?_
  refine .bind (attempt_sampleCreate _) fun _ => .bind (attempt_sampleCreate _) fun _ => ?_
  refine .pure_bind (.seq (mapErr_of hvalid) fun _ _ => ?_)
  refine .seq_eq (mapErr_of hrecord) ?_
  refine .bind (refuse_of ?_) fun _ => ?_
  · rw [decide_eq_false_iff_not, not_lt]
    exact hfits
  refine .bind ((onDevice_spec flush_ready).error fun _ _ h => h.1) fun _ => ?_
  refine .seq_eq (mapErr_of hreceipt) ?_
  refine .bind (attempt_sampleCreate _) fun _ => .bind (attempt_sampleCreate _) fun _ => ?_
  exact .bind ((onDevice_spec hwrite).error fun _ _ h => h.1) fun _ => .skip

/-- **A torn receipt.**  The put is refused, and its commit is on the medium. -/
theorem put_sampleCreate_torn (hj : v.journal = sampleJournal)
    (hopen : (v.failed || v.asyncFailed) = false) (hg : g 0 = .failed kept) :
    Triple (Volume.On v fun d => Ready sampleInfo 74 g d ∧
        Resting hash sampleInfo sampleFirstRoot sampleJournal [] d)
      (Volume.put hash sampleCreate.object .absent none 0 sampleCreate.unique) (fun _ _ => False)
      (fun e v' => e = .capacity ∧ Volume.Same v v' ∧ ∃ x, Asked sampleCreate.object 0 [] x ∧
        Medium hash sampleFirstRoot none sampleJournal [x] v'.device.visible) := by
  have hrecord := (@putRecord_sampleCreate hash 2 g v hj hopen).and
    (@putRecord_spec hash sampleInfo sampleFirstRoot sampleJournal [] v hj
      sampleCreate.object .absent none 0 sampleCreate.unique)
  refine .bind (hrecord.conseq (fun v' h => ⟨⟨h.1.1, h.2⟩, h.1.2, h.2⟩) (fun _ _ h => h)
    fun _ _ h => h.1.elim) fun x => .pointwise ?_
  obtain ⟨c, recordCell, receiptCell⟩ := x
  rintro v₁ ⟨⟨hready, -⟩, hask, record, receipt, padded, tree, stop, img, rfl, rfl,
    hpub, hfl, hsame⟩
  have hlen : (Journal.pad 16384 receipt).length = 16384 := hpub.length_receiptCell
  have hmedium := hpub.with_receipt
  rw [← write_take_of_blank (fun x hx => hpub.receipt_seals (le_refl 512) hx)
    fun i h1 h2 => hpub.receipt_blank h1 h2] at hmedium
  have htorn := @write_torn sampleInfo 512 (img.write 1024 (Journal.pad 16384 record)) g kept hg
    (1024 + 16384) (Journal.pad 16384 receipt)
    (by rw [hlen]; exact ⟨⟨34, rfl⟩, ⟨32, rfl⟩, by decide⟩) (by rw [hlen]; decide)
  refine .pre (P := Volume.On v fun d => Ready sampleInfo 2 g d ∧
    Flushed sampleInfo 512 (img.write 1024 (Journal.pad 16384 record)) d) ?_
    fun v' (h : v' = v₁) => h ▸ ⟨⟨hready, hfl⟩, hsame⟩
  refine .seq get_spec fun v' hv' => ?_
  rw [hv'.journal, hj]
  refine .bind (Q := fun _ _ => False) ?_ fun _ => .of_false
  refine (onDevice_spec (Q := fun _ _ => False)
    (.bind htorn fun _ => .of_false)).conseq (fun _ h => h) (fun _ _ h => h.1) ?_
  rintro e v₂ ⟨⟨rfl, hvis⟩, hsame₂⟩
  refine ⟨rfl, hsame₂, _, hask, ?_⟩
  rw [hvis]
  exact hmedium

/-- The same request when the memory for the second chunk of the receipt cell is refused, and
nothing else is. -/
def tornCreate : Request :=
  { sampleCreate with answers := fun i => if i = 74 then .failed [] else .done }

/-- The refused request leaves the volume open, without the object; the log on its device,
with nothing lost, holds it. -/
theorem torn_receipt_publishes : ∃ v₀ d₀ v m d₁,
      Volume.provision (fun _ => zeroDigest) sampleGeometry (boot sampleInfo 512 fun _ => 0) =
        .ok v₀ d₀ ∧
      tornCreate.run (fun _ => zeroDigest) v₀ = .error .capacity v ∧
      v.failed = false ∧ v.asyncFailed = false ∧ v.journal.current "k" = none ∧
      v.device.CrashesTo v.device.visible ∧
      Volume.mountInner (fun _ => zeroDigest) 512 .singleNodeHome
        (boot sampleInfo 512 v.device.visible) = .ok m d₁ ∧
      m.journal.current "k" ≠ none := by
  obtain ⟨v₀, d₀, hprov⟩ := @provision_sampleGeometry (fun _ => zeroDigest) sampleInfo rfl rfl
  obtain ⟨r, j₀, base, hfirst, hm, hr, hv₀, hd⟩ := provision_ok hprov
  obtain rfl := firstRoot_sampleGeometry rfl rfl hfirst
  obtain rfl : j₀ = sampleJournal := Except.ok.inj (hm.fresh.symm.trans new_sampleJournal)
  have hready : Ready sampleInfo 74 (fun i => if i = 0 then .failed [] else .done)
      (v₀.facing tornCreate.answers tornCreate.busy).device := by
    refine ⟨?_, rfl, fun i => ?_⟩
    · rw [hv₀]
      exact hd.info
    show (if i = 74 then Answer.failed [] else .done) = _
    by_cases hi : i < 74
    · rw [if_pos hi, if_neg (by omega)]
    · rw [if_neg hi]
      simp only [show i - 74 = 0 ↔ i = 74 by omega]
  have hrest : Resting (fun _ => zeroDigest) sampleInfo sampleFirstRoot sampleJournal []
      (v₀.facing tornCreate.answers tornCreate.busy).device := by
    rw [hv₀]
    exact (resting_of_flushed hm hd).facing _ _
  have hperform : Post _ _
      (Volume.perform (fun _ => zeroDigest) sampleCreate.object (.create 0) none
      sampleCreate.unique (v₀.facing tornCreate.answers tornCreate.busy)) :=
    perform_put sampleCreate.object rfl none sampleCreate.unique
      (object_passes (s := sampleJournal.geometry) (fun v' h => ⟨by
        rw [h.2.failed, h.2.asyncFailed, hv₀]; rfl, by rw [h.2.journal, hv₀]; rfl⟩)
        (by decide) rfl rfl)
      (put_sampleCreate_torn (by rw [hv₀]; rfl) (by rw [hv₀]; rfl) rfl) _
      ⟨⟨hready, hrest⟩, rfl, rfl, rfl, rfl⟩
  rcases hp : Volume.perform (fun _ => zeroDigest) sampleCreate.object (.create 0) none
    sampleCreate.unique (v₀.facing tornCreate.answers tornCreate.busy) with ⟨outcome, v⟩ | ⟨e, v⟩
  · rw [hp] at hperform
    obtain ⟨m, h⟩ := hperform
    exact h.elim
  rw [hp] at hperform
  obtain ⟨rfl, hsame, x, hask, hmed⟩ := hperform
  have hrun : tornCreate.run (fun _ => zeroDigest) v₀ = .error .capacity v :=
    execute_refused (by rw [hv₀]; rfl) (by rw [hv₀]; rfl) hp rfl
  obtain ⟨d₁, hmount, -⟩ := mountInner_boot 512 hmed hr
  refine ⟨v₀, d₀, v, _, d₁, hprov, hrun, ?_, ?_, ?_, ⟨_, List.Sublist.refl _, rfl⟩, hmount, ?_⟩
  · rw [hsame.failed, hv₀]
    rfl
  · rw [hsame.asyncFailed, hv₀]
    rfl
  · rw [hsame.journal, hv₀]
    rfl
  · show (sampleJournal.afterAll [x]).current "k" ≠ none
    rw [hmed.current, show [x] = [] ++ [x] from rfl, latest_append,
      if_pos (by rw [hask.object]; rfl)]
    simp

end Defect

end Moruna
