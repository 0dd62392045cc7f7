/-
Moruna/Storage/PutAsync.lean

The asynchronous put and runs of it.

* `runPuts_crash` — any number of calls, each with its own environment: whatever a crash
  leaves is a medium with the acknowledged commits and at most one more.
-/
import Moruna.Storage.Crash

namespace Moruna

open Device List

variable {hash : Bytes → Digest} {info : Info} {r : Banks.Root} {j₀ : Journal}
variable {hist : List Entry}

namespace Volume

variable {v₀ : Volume}

/-! ### One call -/

/-- What an acknowledged call leaves: its commit is the last of the history. -/
def Done (hash : Bytes → Digest) (info : Info) (r : Banks.Root) (j₀ : Journal) (hist : List Entry)
    (object : Object) (bytes : UInt64) (payload : Bytes) (v₀ : Volume) (m : Metadata)
    (v : Volume) : Prop :=
  ∃ x, Asked object bytes payload x ∧ x.1.metadata = m ∧
    On { v₀ with journal := j₀.afterAll (hist ++ [x]) } (Resting hash info r j₀ (hist ++ [x])) v

theorem publishAsync_spec (hr : Mountable info r) (hj : v₀.journal = j₀.afterAll hist)
    {object : Object} {payload unique : Bytes} {bytes : UInt64} {location : Location}
    {padded : UInt64} {tree : List TreeLevel} {stop : ℕ}
    (hp : Plans hash v₀.journal object bytes location padded tree stop)
    (hlen : payload.length = bytes.toNat) :
    Triple (On v₀ (Resting hash info r j₀ hist))
      (publishAsync hash object payload bytes unique location)
      (Done hash info r j₀ hist object bytes payload v₀)
      (fun _ => On v₀ (Stopped hash info r j₀ hist object bytes payload)) := by
  refine of_resting fun base img hm himg => ?_
  have f := hm.facts
  obtain ⟨hmin, h32⟩ := f.min
  set e := j₀.afterAll hist with he
  rw [hj] at hp
  have hcap := hp.planned.capacity
  -- the free space holds the extent, and a device that only wrote there is at rest
  have hrest : ∀ d b, Medium hash r none j₀ hist b →
      Held info r.geometry.alignment.toNat b (Inside e.Free) d →
      Stopped hash info r j₀ hist object bytes payload d := fun _ b hb hd => Or.inl ⟨b, hb, hd⟩
  refine .seq get_spec fun v' hv' => ?_
  rw [hv'.journal, hj, hp.place]
  refine .seq ((putExtent_spec f.wf.geometry h32 _ hp.planned hlen
    fun i h1 h2 => Or.inr ⟨h1, by omega⟩).error fun _ _ h => h.mono fun d hd => hrest d _ hm hd)
    fun loc hloc => ?_
  refine .seq (mapErr_spec fun _ h => h.mono fun d hd => hrest d _ hm hd.1)
    fun _ _ => ?_
  refine .seq (mapErr_spec fun _ h => h.mono fun d hd => hrest d _ hm hd.1)
    fun record hrecord => ?_
  refine .seq (mapErr_spec fun _ h => h.mono fun d hd => hrest d _ hm hd.1)
    fun receipt hreceipt => ?_
  refine .seq (refuse_spec fun _ h => h.mono fun d hd => hrest d _ hm hd.1)
    fun _ hfit => ?_
  rw [Bool.or_eq_false_iff, decide_eq_false_iff_not, not_lt] at hfit
  have hacc := accepts_commitFor f.wf h32 hp hlen (by rw [hloc]) hrecord hfit.1
  have hpub := publishing_extent hm himg hacc hreceipt h32
  have hask : Asked object bytes payload
      (commitFor e object bytes (hash payload) unique loc, payload) := ⟨rfl, rfl, rfl⟩
  -- the payload is made durable, then the record
  refine .bind ((onDevice_spec flush_spec).error fun _ _ h => h.mono fun d hd =>
    hrest d _ hm hd) fun _ => ?_
  refine .bind ((onDevice_spec (writeDurably_region fun i h1 h2 => hpub.record_free h1 h2)).error
    fun _ _ h => h.mono fun d hd => hrest d _ hpub.medium hd) fun _ => ?_
  -- the receipt is sealed by its first block, so it is there or not
  refine .bind ((onDevice_spec (writeDurably_seal f.receipt_mod (by omega) hr.max
    fun x hx => hpub.receipt_seals hmin hx)).error fun _ _ h => h.mono fun _ hd =>
      Or.inr ⟨_, hask, fun _ hc => hpub.split hmin hd hc⟩) fun _ => ?_
  have happly : v₀.journal.replay hash (Journal.pad e.cell.toNat record)
      (Journal.pad e.cell.toNat receipt) = .ok (true, j₀.afterAll (hist ++
        [(commitFor e object bytes (hash payload) unique loc, payload)])) := by
    rw [hj, Journal.replay_accepts hacc f.wf hreceipt, Journal.afterAll_append]
    rfl
  refine .bind ((applyPair_spec happly).error
    fun _ _ h => h.2.mono fun _ hd => Or.inr ⟨_, hask, fun _ hc => Or.inr
      ((resting_of_flushed hpub.with_receipt hd).crash hc)⟩) fun _ => .pure fun v hv => ?_
  exact ⟨_, hask, rfl, hv.mono fun _ hd => resting_of_flushed hpub.with_receipt hd⟩

theorem transaction_spec {α : Type} {x : VolumeM α} {P : Volume → Prop} {Q : α → Volume → Prop}
    {R : Device → Prop} (h : Triple P x Q (fun _ => On v₀ R)) :
    Triple P (transaction x) Q (fun _ => On { v₀ with asyncFailed := true } R) := by
  intro v hv
  unfold transaction
  rcases hr : x v with ⟨a, v'⟩ | ⟨e, v'⟩
  · exact h.of_ok hv hr
  · have hx := h.of_error hv hr
    exact ⟨hx.1, hx.2.journal, hx.2.root, hx.2.failed, rfl⟩

/-- **One asynchronous put.** -/
theorem putAsync_spec (hr : Mountable info r) (hj : v₀.journal = j₀.afterAll hist) (object : Object)
    (condition : Condition) (source : Option Bytes) (bytes : UInt64) (unique : Bytes) :
    Triple (On v₀ (Resting hash info r j₀ hist))
      (putAsync hash object condition source bytes unique)
      (Done hash info r j₀ hist object bytes (source.getD []) v₀)
      (fun _ v => On v₀ (Resting hash info r j₀ hist) v ∨ On { v₀ with asyncFailed := true }
          (Stopped hash info r j₀ hist object bytes (source.getD [])) v) := by
  have hans : ∀ d f, Resting hash info r j₀ hist d →
      Resting hash info r j₀ hist { d with answers := f } :=
    fun _ f h => h.answers f
  have hreserve : ∀ refusal, Triple (On v₀ (Resting hash info r j₀ hist))
      (onDevice (attempt refusal)) (fun _ => On v₀ (Resting hash info r j₀ hist))
      (fun _ v => On v₀ (Resting hash info r j₀ hist) v ∨ On { v₀ with asyncFailed := true }
          (Stopped hash info r j₀ hist object bytes (source.getD [])) v) :=
    fun refusal => (reserve_spec hans refusal).error fun _ _ h => Or.inl h.2
  refine .seq get_spec fun v _ => ?_
  refine .seq (refuse_spec fun _ h => Or.inl h)
    fun _ _ => ?_
  refine .seq ((planPut_spec hans object condition source bytes unique).error
    fun _ _ h => Or.inl h) fun location => ?_
  rintro ⟨hlen, padded, tree, stop, hp⟩
  refine .bind ((digestBudget_spec hans _ _).error fun _ _ h => Or.inl h) fun _ => ?_
  refine .bind (hreserve _) fun _ => .bind (hreserve _) fun _ => ?_
  refine .bind (hreserve _) fun _ => .bind (hreserve _) fun _ => ?_
  refine .bind (hreserve _) fun _ => .bind (hreserve _) fun _ => ?_
  exact (transaction_spec (publishAsync_spec hr hj hp hlen)).error fun _ _ h => Or.inr h

end Volume

/-! ### Runs -/

/-- A call of `putAsync`, and what the driver and the kernel are going to answer to it. -/
structure PutCall where
  object : Object
  condition : Condition
  source : Option Bytes
  bytes : UInt64
  unique : Bytes
  answers : ℕ → Answer
  busy : Bool

/-- The volume in another environment. -/
def Volume.facing (v : Volume) (answers : ℕ → Answer) (busy : Bool) : Volume :=
  { v with device := { v.device with answers, busy } }

def PutCall.run (hash : Bytes → Digest) (call : PutCall) (v : Volume) :
    EStateM.Result Refusal Volume Metadata :=
  Volume.putAsync hash call.object call.condition call.source call.bytes call.unique
    (v.facing call.answers call.busy)

/-- One call after the other; the acknowledged ones with the metadata they returned. -/
def runPuts (hash : Bytes → Digest) : List PutCall → Volume → List (PutCall × Metadata) × Volume
  | [], v => ([], v)
  | call :: rest, v =>
    match call.run hash v with
    | .ok m v =>
      let (acked, v) := runPuts hash rest v
      ((call, m) :: acked, v)
    | .error _ v => runPuts hash rest v

/-- The entry `x` is the commit of an acknowledged call. -/
def Acked (a : PutCall × Metadata) (x : Entry) : Prop :=
  Asked a.1.object a.1.bytes (a.1.source.getD []) x ∧ x.1.metadata = a.2

/-- At most one commit in flight: that of a call which was not acknowledged and after which
no other one was. -/
def InFlight (hash : Bytes → Digest) (calls : List PutCall) (v : Volume) : List Entry → Prop
  | [] => True
  | [x] => ∃ before call after, calls = before ++ call :: after ∧
      (runPuts hash calls v).1 = (runPuts hash before v).1 ∧
      Asked call.object call.bytes (call.source.getD []) x
  | _ => False

section Runs

variable {call : PutCall} {calls : List PutCall} {v v' : Volume}

theorem runPuts_ok {m : Metadata} (h : call.run hash v = .ok m v') :
    runPuts hash (call :: calls) v =
      ((call, m) :: (runPuts hash calls v').1, (runPuts hash calls v').2) := by
  rw [runPuts, h]

theorem runPuts_error {e : Refusal} (h : call.run hash v = .error e v') :
    runPuts hash (call :: calls) v = runPuts hash calls v' := by
  rw [runPuts, h]

theorem runPuts_closed (calls : List PutCall) (h : v.asyncFailed = true) :
    (runPuts hash calls v).1 = [] ∧ (runPuts hash calls v).2.device.durable = v.device.durable ∧
      (runPuts hash calls v).2.device.pending = v.device.pending := by
  induction calls generalizing v with
  | nil => exact ⟨rfl, rfl, rfl⟩
  | cons call calls ih =>
    have hrun : call.run hash v = .error .unavailable (v.facing call.answers call.busy) := by
      have hb : (v.failed || v.asyncFailed) = true := by rw [h, Bool.or_true]
      show EStateM.bind (refuse (v.failed || v.asyncFailed) .unavailable) _ _ = _
      rw [hb]
      rfl
    rw [runPuts_error hrun]
    exact ih h

/-- A call in front, whatever it adds to the acknowledged ones. -/
theorem InFlight.cons {inflight : List Entry} (acked : List (PutCall × Metadata))
    (hrun : ∀ calls, (runPuts hash (call :: calls) v).1 = acked ++ (runPuts hash calls v').1)
    (h : InFlight hash calls v' inflight) : InFlight hash (call :: calls) v inflight := by
  match inflight, h with
  | [], _ => trivial
  | [x], ⟨before, c, after, hcalls, hacked, hask⟩ =>
    refine ⟨call :: before, c, after, by rw [hcalls, cons_append], ?_, hask⟩
    rw [hrun, hrun, hacked]

/-- **What a crash leaves after a run**: the acknowledged commits in order, and at most one
in flight. -/
theorem runPuts_crash (hr : Mountable info r) (hj : v.journal = j₀.afterAll hist)
    (hd : Resting hash info r j₀ hist v.device) {img : Disk}
    (hc : (runPuts hash calls v).2.device.CrashesTo img) :
    ∃ new inflight, List.Forall₂ Acked (runPuts hash calls v).1 new ∧
      InFlight hash calls v inflight ∧ Medium hash r none j₀ (hist ++ new ++ inflight) img := by
  induction calls generalizing v hist with
  | nil =>
    refine ⟨[], [], .nil, trivial, ?_⟩
    rw [append_nil, append_nil]
    exact hd.crash hc
  | cons call calls ih =>
    have hcall := Volume.putAsync_spec hr hj call.object call.condition call.source
      call.bytes call.unique (v.facing call.answers call.busy) ⟨hd.facing _ _, rfl, rfl, rfl, rfl⟩
    rcases hrun : call.run hash v with ⟨m, v'⟩ | ⟨e, v'⟩
    · -- case: acknowledged
      rw [runPuts_ok hrun] at hc ⊢
      rw [show Volume.putAsync hash _ _ _ _ _ _ = _ from hrun] at hcall
      obtain ⟨x, hask, hm, hrest, hsame⟩ := hcall
      obtain ⟨new, inflight, hacked, hin, hmed⟩ := ih hsame.journal hrest hc
      refine ⟨x :: new, inflight, .cons ⟨hask, hm⟩ hacked,
        hin.cons [_] fun _ => by rw [runPuts_ok hrun]; rfl, ?_⟩
      rwa [append_assoc hist [x]] at hmed
    · rw [runPuts_error hrun] at hc
      rw [show Volume.putAsync hash _ _ _ _ _ _ = _ from hrun] at hcall
      rcases hcall with ⟨hrest, hsame⟩ | ⟨hstop, hsame⟩
      · -- case: refused before any write
        obtain ⟨new, inflight, hacked, hin, hmed⟩ := ih (hsame.journal.trans hj) hrest hc
        rw [runPuts_error hrun]
        exact ⟨new, inflight, hacked, hin.cons [] fun _ => by rw [runPuts_error hrun]; rfl, hmed⟩
      · -- case: stopped on the way, and the volume is closed
        obtain ⟨hacked, hdur, hpend⟩ := @runPuts_closed hash v' calls hsame.asyncFailed
        rw [CrashesTo, hdur, hpend] at hc
        have hnil : (runPuts hash (call :: calls) v).1 = [] := by rw [runPuts_error hrun, hacked]
        rw [hnil]
        rcases hstop with hrest | ⟨x, hask, hsplit⟩
        · refine ⟨[], [], .nil, trivial, ?_⟩
          rw [append_nil, append_nil]
          exact hrest.crash hc
        rcases hsplit img hc with hmed | hmed
        · refine ⟨[], [], .nil, trivial, ?_⟩
          rwa [append_nil, append_nil]
        · refine ⟨[], [x], .nil, ⟨[], call, calls, rfl, hnil, hask⟩, ?_⟩
          rwa [append_nil]

end Runs

end Moruna
