/-
Moruna/Virtio/Run.lean

Whole runs of the virtqueue driver, against any device and against an honest one.

A `World` is the queue with what an observer writes down beside it: the chains
offered, each with its number, those in flight and those handed back.  Against
any device the memory may change to anything between two operations.  A `Host` is
the queue with an honest device: it fetches the offered heads in order and
returns each of those it holds once, in any order, and writes nothing else.

* `Sound.run` : against any device the descriptors stay partitioned, every chain
  offered is in flight or handed back and not both, and none shares a descriptor
  with another in flight;
* `Honest.run` : an honest device's rings hold exactly what was offered and what
  was returned, however often the indexes wrap;
* `virtqueue_exact` : **the driver cannot be confused**.
-/
import Moruna.Virtio.Queue

namespace Moruna.Virtio

open List

/-! ### Any device -/

/-- A chain as the observer notes it: its number and its descriptors. -/
structure Chain where
  number : ℕ
  head : ℕ
  ids : List ℕ
deriving DecidableEq

structure World where
  queue : Queue
  added : ℕ
  flying : List Chain
  returned : List Chain
  /-- Heads handed back while no chain with that head was in flight. -/
  stray : List ℕ
  /-- Chains offered with a descriptor of a chain in flight. -/
  shared : List Chain

def World.start (q : Queue) : World := ⟨q, 0, [], [], [], []⟩

/-- Two chains with a descriptor in common. -/
def Chain.meets (c c' : Chain) : Bool := c.ids.any (c'.ids.contains ·)

def World.add (w : World) (chain : List Buffer) : World :=
  match w.queue.add chain with
  | (.error _, q) => { w with queue := q }
  | (.ok head, q) =>
    let c : Chain := ⟨w.added, head, q.chain head⟩
    { w with
      queue := q, added := w.added + 1, flying := c :: w.flying
      shared := if w.flying.any (c.meets ·) then c :: w.shared else w.shared }

def World.popUsed (w : World) : World :=
  match w.queue.popUsed with
  | (.error _, q) => { w with queue := q }
  | (.ok none, q) => { w with queue := q }
  | (.ok (some used), q) =>
    match w.flying.find? (·.head = used.head) with
    | none => { w with queue := q, stray := used.head :: w.stray }
    | some c => { w with queue := q, flying := w.flying.erase c, returned := c :: w.returned }

/-- The observer's notes do not touch the queue. -/
theorem popUsed_queue (w : World) : w.popUsed.queue = w.queue.popUsed.2 := by
  rw [World.popUsed]
  rcases w.queue.popUsed with ⟨e | _ | used, q⟩
  · rfl
  · rfl
  · dsimp only
    split <;> rfl

/-- The device, or anyone else with the memory, leaves these cells in it. -/
def World.device (w : World) (cells : Cells) : World :=
  { w with queue := { w.queue with memory := cells } }

inductive Op
  | add (chain : List Buffer)
  | popUsed
  | device (cells : Cells)

def World.step (w : World) : Op → World
  | .add chain => w.add chain
  | .popUsed => w.popUsed
  | .device cells => w.device cells

/-- What holds of every run: the queue's partition, and the observer's notes. -/
structure Sound (w : World) : Prop where
  partition : Partition w.queue
  heads : (w.flying.map Chain.head).Perm w.queue.inFlight
  ids : ∀ c ∈ w.flying, c.ids = w.queue.chain c.head
  numbers : ((w.returned ++ w.flying).map Chain.number).Perm (List.range w.added)
  noStray : w.stray = []
  noShared : w.shared = []

namespace Sound

variable {w : World}

theorem start {q : Queue} (h : Partition q) (hfree : q.inFlight = []) : Sound (World.start q) where
  partition := h
  heads := hfree ▸ List.Perm.nil
  ids := fun _ hc => by cases hc
  numbers := List.Perm.nil
  noStray := rfl
  noShared := rfl

variable (h : Sound w)

include h

variable {c : Chain} {q' : Queue}

theorem mem_inFlight (hc : c ∈ w.flying) : c.head ∈ w.queue.inFlight :=
  h.heads.subset (mem_map_of_mem hc)

theorem nodup_free : w.queue.free.Nodup := h.partition.nodup.sublist (sublist_append_left _ _)

theorem not_meets {head : ℕ} {ids : List ℕ} {n : ℕ}
    (ho : Offered w.queue q' head ids) (hc : c ∈ w.flying) :
    Chain.meets ⟨n, head, ids⟩ c = false := by
  rw [Chain.meets, any_eq_false]
  intro d hd hmem
  rw [contains_iff_mem, h.ids c hc] at hmem
  exact h.partition.not_mem_free (h.mem_inFlight hc) hmem (Partition.offered_free ho hd)

theorem add (chain : List Buffer) : Sound (w.add chain) := by
  rcases add_spec w.queue h.nodup_free chain with ⟨e, heq⟩ | ⟨q', head, heq, ids, -, ho⟩
  · rw [World.add, heq]
    exact h
  rw [World.add, heq]
  have hshared : w.flying.any (Chain.meets ⟨w.added, head, q'.chain head⟩ ·) = false := by
    rw [any_eq_false, Partition.chain_head ho]
    exact fun c hc => Bool.eq_false_iff.mp (h.not_meets ho hc)
  refine ⟨h.partition.add ho, ?_, ?_, ?_, h.noStray, ?_⟩
  · exact (h.heads.cons head).trans (h.partition.inFlight_add ho).symm
  · intro c hc
    rcases mem_cons.mp hc with rfl | hc
    · rfl
    · exact (h.ids c hc).trans (h.partition.chain_add ho (h.mem_inFlight hc)).symm
  · rw [range_succ, map_append]
    refine perm_middle.trans ?_
    rw [← map_append]
    exact (h.numbers.cons _).trans (perm_append_singleton _ _).symm
  · dsimp only
    rw [hshared]
    exact h.noShared

theorem find {used : Used} (hr : Returned w.queue q' used) :
    ∃ c ∈ w.flying, c.head = used.head ∧ w.flying.find? (·.head = used.head) = some c := by
  have hmem := h.heads.symm.subset (Virtio.mem_inFlight.mpr ⟨hr.lt, hr.live⟩)
  obtain ⟨c₀, hc₀, hhead⟩ := mem_map.mp hmem
  have hsome : (w.flying.find? (·.head = used.head)).isSome :=
    find?_isSome.mpr ⟨c₀, hc₀, decide_eq_true hhead⟩
  obtain ⟨c, hc⟩ := Option.isSome_iff_exists.mp hsome
  have hfound := find?_some hc
  exact ⟨c, mem_of_find?_eq_some hc, of_decide_eq_true hfound, hc⟩

theorem popUsed : Sound w.popUsed := by
  rcases popUsed_spec w.queue with ⟨-, heq⟩ | ⟨-, heq, -⟩ | ⟨-, q', heq, hr⟩
  · rw [World.popUsed, heq]
    exact h
  · rw [World.popUsed, heq]
    exact h
  obtain ⟨c, hc, hhead, hfind⟩ := h.find hr
  rw [World.popUsed, heq]
  dsimp only
  rw [hfind]
  have herase : w.flying.Perm (c :: w.flying.erase c) := perm_cons_erase hc
  have hheads : ((w.flying.erase c).map Chain.head).Perm q'.inFlight := by
    have := ((herase.map Chain.head).symm.trans h.heads).trans (Partition.inFlight_popUsed hr)
    rw [map_cons, hhead] at this
    exact this.cons_inv
  refine ⟨h.partition.popUsed hr, hheads, fun c' hc' => ?_, ?_, h.noStray, h.noShared⟩
  · rw [h.ids c' (mem_of_mem_erase hc')]
    exact (Partition.chain_popUsed hr (hheads.subset (mem_map_of_mem hc'))).symm
  · refine List.Perm.trans (List.Perm.map _ ?_) h.numbers
    exact perm_middle.symm.trans (herase.symm.append_left _)

/-- The partition is of the driver's own memory: no device reaches it. -/
theorem device (cells : Cells) : Sound (w.device cells) := { h with }

theorem step (op : Op) : Sound (w.step op) := by
  cases op with
  | add chain => exact h.add chain
  | popUsed => exact h.popUsed
  | device cells => exact h.device cells

theorem run (ops : List Op) : Sound (ops.foldl World.step w) := by
  induction ops generalizing w with
  | nil => exact h
  | cons op ops ih => exact ih (h.step op)

theorem size_step (op : Op) : (w.step op).queue.size = w.queue.size := by
  cases op with
  | add chain =>
    rcases add_spec w.queue h.nodup_free chain with ⟨e, heq⟩ | ⟨q', head, heq, ids, -, ho⟩
    · rw [World.step, World.add, heq]
    · rw [World.step, World.add, heq]
      exact ho.size
  | popUsed =>
    rw [World.step, popUsed_queue]
    rcases popUsed_spec w.queue with ⟨-, heq⟩ | ⟨-, heq, -⟩ | ⟨-, q', heq, hr⟩ <;> rw [heq]
    exact hr.size
  | device cells => rfl

theorem size_run (ops : List Op) : (ops.foldl World.step w).queue.size = w.queue.size := by
  induction ops generalizing w with
  | nil => rfl
  | cons op ops ih => exact (ih (h.step op)).trans (h.size_step op)

end Sound

/-! ### An honest device -/

/-- The queue with an honest device. -/
structure Host where
  world : World
  /-- How many offered heads the device has fetched, in sixteen bits. -/
  fetched : UInt16
  /-- Heads fetched and not yet returned. -/
  held : List ℕ

def Host.start (q : Queue) : Host := ⟨World.start q, 0, []⟩

/-- The device fetches the next offered head, if there is one. -/
def Host.fetch (h : Host) : Host :=
  let q := h.world.queue
  if q.memory.driverIdx = h.fetched then h
  else { h with
    fetched := h.fetched + 1
    held := h.held ++ [q.memory.driverRing (h.fetched.toNat % q.size)] }

/-- The device returns the `k`-th head it holds: the entry, then the index. -/
def Host.finish (h : Host) (k : ℕ) (len : UInt32) : Host :=
  match h.held[k]? with
  | none => h
  | some head =>
    let q := h.world.queue
    let slot := q.memory.deviceIdx.toNat % q.size
    { h with
      world := h.world.device { q.memory with
        deviceRing := Function.update q.memory.deviceRing slot (UInt32.ofNat head, len)
        deviceIdx := q.memory.deviceIdx + 1 }
      held := h.held.eraseIdx k }

inductive Act
  | add (chain : List Buffer)
  | popUsed
  | fetch
  | finish (k : ℕ) (len : UInt32)

def Host.step (h : Host) : Act → Host
  | .add chain => { h with world := h.world.add chain }
  | .popUsed => { h with world := h.world.popUsed }
  | .fetch => h.fetch
  | .finish k len => h.finish k len

/-- The device has fetched everything offered and returned everything it fetched. -/
def Host.Idle (h : Host) : Prop := h.world.queue.memory.driverIdx = h.fetched ∧ h.held = []

/-- What the rings hold: `offers` not yet fetched from position `f` on, `returns`
not yet taken from position `s` on; with what the device holds, these are the
chains in flight. -/
structure Rings (h : Host) (f s : ℕ) (offers : List ℕ) (returns : List (UInt32 × UInt32)) :
    Prop where
  fetched : h.fetched = UInt16.ofNat f
  driverIdx : h.world.queue.driverIdx = UInt16.ofNat (f + offers.length)
  published : h.world.queue.memory.driverIdx = h.world.queue.driverIdx
  driverRing : Window h.world.queue.size h.world.queue.memory.driverRing f offers
  seen : h.world.queue.deviceSeen = UInt16.ofNat s
  deviceIdx : h.world.queue.memory.deviceIdx = UInt16.ofNat (s + returns.length)
  deviceRing : Window h.world.queue.size h.world.queue.memory.deviceRing s returns
  heads : (offers ++ (h.held ++ returns.map (·.1.toNat))).Perm h.world.queue.inFlight

/-- What holds of every run with an honest device. -/
structure Honest (h : Host) : Prop where
  sound : Sound h.world
  dvd : h.world.queue.size ∣ 2 ^ 16
  le : h.world.queue.size ≤ MAX_SIZE
  rings : ∃ f s offers returns, Rings h f s offers returns

theorem ofNat_add_one (p : ℕ) : UInt16.ofNat p + 1 = UInt16.ofNat (p + 1) := by
  rw [UInt16.ofNat_add]
  rfl

namespace Rings

variable {h : Host} {f s : ℕ} {offers : List ℕ} {returns : List (UInt32 × UInt32)}

theorem length (hr : Rings h f s offers returns) :
    offers.length + (h.held.length + returns.length) = h.world.queue.inFlight.length := by
  rw [← hr.heads.length_eq, length_append, length_append, length_map]

/-- Nothing to fetch: the counters agree only when no offer is left. -/
theorem offers_eq_nil (hr : Rings h f s offers returns) (hle : h.world.queue.size ≤ MAX_SIZE)
    (heq : h.world.queue.memory.driverIdx = h.fetched) : offers = [] := by
  rw [hr.published, hr.driverIdx, hr.fetched] at heq
  have hfits := hr.driverRing.fits
  have hlt : offers.length < 2 ^ 16 := by
    unfold MAX_SIZE at hle
    omega
  exact length_eq_zero_iff.mp ((ofNat_add_eq_ofNat hlt).mp heq)

/-- What `popUsed` finds: nothing when no return is left, else the first of them. -/
theorem popUsed (hr : Rings h f s offers returns) (hdvd : h.world.queue.size ∣ 2 ^ 16)
    (hle : h.world.queue.size ≤ MAX_SIZE) :
    (returns = [] ∧ h.world.queue.popUsed = (.ok none, h.world.queue)) ∨
    ∃ id len rest q', returns = (id, len) :: rest ∧
      h.world.queue.popUsed = (.ok (some ⟨id.toNat, len⟩), q') ∧
      Returned h.world.queue q' ⟨id.toNat, len⟩ := by
  have hfits := hr.deviceRing.fits
  unfold MAX_SIZE at hle
  cases returns with
  | nil =>
    refine .inl ⟨rfl, ?_⟩
    have hsame : h.world.queue.memory.deviceIdx = h.world.queue.deviceSeen := by
      rw [hr.deviceIdx, hr.seen]
      rfl
    rcases popUsed_spec h.world.queue with ⟨-, heq⟩ | ⟨hne, -⟩ | ⟨hne, -⟩
    · exact heq
    · exact absurd hsame hne
    · exact absurd hsame hne
  | cons r rest =>
    obtain ⟨id, len⟩ := r
    refine .inr ⟨id, len, rest, ?_⟩
    have hne : h.world.queue.memory.deviceIdx ≠ h.world.queue.deviceSeen := by
      rw [hr.deviceIdx, hr.seen]
      intro hsame
      have := (ofNat_add_eq_ofNat (by omega)).mp hsame
      rw [length_cons] at this
      omega
    have hentry : h.world.queue.entry = (id, len) := by
      rw [Queue.entry, hr.seen, slot_ofNat hdvd]
      exact hr.deviceRing.head
    have hmem : id.toNat ∈ h.world.queue.inFlight := by
      refine hr.heads.subset (mem_append_right _ (mem_append_right _ ?_))
      exact mem_cons_self
    have hlt := (mem_inFlight.mp hmem).1
    rcases popUsed_spec h.world.queue with ⟨hsame, -⟩ | ⟨-, -, hbad⟩ | ⟨-, q', heq, hret⟩
    · exact absurd hsame hne
    · rw [hentry] at hbad
      exact absurd ⟨(by omega : id.toNat < 2 ^ 16), hmem⟩ hbad
    · rw [hentry] at heq hret
      exact ⟨q', rfl, heq, hret⟩

end Rings

namespace Honest

variable {h : Host}

variable (hh : Honest h)

include hh

theorem add (chain : List Buffer) : Honest { h with world := h.world.add chain } := by
  have hsound := hh.sound.add chain
  obtain ⟨f, s, offers, returns, hr⟩ := hh.rings
  rcases add_spec h.world.queue hh.sound.nodup_free chain with
    ⟨e, heq⟩ | ⟨q', head, heq, ids, -, ho⟩
  · rw [World.add, heq]
    exact hh
  rw [World.add, heq] at hsound ⊢
  have hin := hh.sound.partition.inFlight_add ho
  have hroom : offers.length < h.world.queue.size := by
    have hlen := hin.length_eq
    have hle := Partition.length_inFlight q'
    rw [length_cons, ← hr.length] at hlen
    rw [ho.size] at hle
    omega
  refine ⟨hsound, ho.size ▸ hh.dvd, ho.size ▸ hh.le, f, s, offers ++ [head], returns, ?_⟩
  have hidx : h.world.queue.driverIdx + 1 = UInt16.ofNat (f + (offers ++ [head]).length) := by
    rw [hr.driverIdx, ofNat_add_one, length_append]
    rfl
  refine ⟨hr.fetched, ho.driverIdx.trans hidx, ho.published.trans ho.driverIdx.symm, ?_,
    ho.deviceSeen.trans hr.seen, ho.deviceIdx.trans hr.deviceIdx, ?_, ?_⟩
  · rw [ho.entry, ho.size, hr.driverIdx, slot_ofNat hh.dvd]
    exact hr.driverRing.push hroom
  · rw [ho.deviceRing, ho.size]
    exact hr.deviceRing
  · rw [append_assoc]
    exact (perm_middle.trans (hr.heads.cons head)).trans hin.symm

theorem popUsed : Honest { h with world := h.world.popUsed } := by
  have hsound := hh.sound.popUsed
  obtain ⟨f, s, offers, returns, hr⟩ := hh.rings
  rcases hr.popUsed hh.dvd hh.le with ⟨-, heq⟩ | ⟨id, len, rest, q', rfl, heq, hret⟩
  · rw [World.popUsed, heq]
    exact hh
  have hq : h.world.popUsed.queue = q' := by rw [popUsed_queue, heq]
  refine ⟨hsound, hq ▸ hret.size ▸ hh.dvd, hq ▸ hret.size ▸ hh.le, f, s + 1, offers, rest, ?_⟩
  have hheads : (offers ++ (h.held ++ rest.map (·.1.toNat))).Perm q'.inFlight := by
    have hall := hr.heads.trans (Partition.inFlight_popUsed hret)
    rw [← append_assoc] at hall
    rw [← append_assoc]
    exact (perm_middle.symm.trans hall).cons_inv
  refine ⟨hr.fetched, ?_, ?_, ?_, ?_, ?_, ?_, hq ▸ hheads⟩ <;> dsimp only <;> rw [hq]
  · rw [hret.driverIdx, hr.driverIdx]
  · rw [hret.memory, hret.driverIdx, hr.published]
  · rw [hret.memory, hret.size]
    exact hr.driverRing
  · rw [hret.deviceSeen, hr.seen, ofNat_add_one]
  · rw [hret.memory, hr.deviceIdx, length_cons, add_assoc, add_comm 1]
  · rw [hret.memory, hret.size]
    exact hr.deviceRing.pop

theorem fetch : Honest h.fetch := by
  obtain ⟨f, s, offers, returns, hr⟩ := hh.rings
  unfold Host.fetch
  dsimp only
  split_ifs with hidx
  · exact hh
  -- The counters differ, so an offer is left, and its head is in the ring.
  cases offers with
  | nil =>
    refine absurd ?_ hidx
    rw [hr.published, hr.driverIdx, hr.fetched]
    rfl
  | cons head offers =>
    refine ⟨hh.sound, hh.dvd, hh.le, f + 1, s, offers, returns, ?_⟩
    have hhead : h.world.queue.memory.driverRing (h.fetched.toNat % h.world.queue.size) = head := by
      rw [hr.fetched, slot_ofNat hh.dvd]
      exact hr.driverRing.head
    refine ⟨?_, ?_, hr.published, hr.driverRing.pop, hr.seen, hr.deviceIdx, hr.deviceRing, ?_⟩
    · rw [hr.fetched, ofNat_add_one]
    · rw [hr.driverIdx, length_cons, add_assoc, add_comm 1]
    rw [hhead, append_assoc, ← append_assoc]
    refine (perm_middle.trans ?_).trans hr.heads
    rw [append_assoc]
    rfl

theorem finish (k : ℕ) (len : UInt32) : Honest (h.finish k len) := by
  obtain ⟨f, s, offers, returns, hr⟩ := hh.rings
  unfold Host.finish
  rcases hk : h.held[k]? with - | head
  · exact hh
  have hlt : k < h.held.length := lt_of_getElem? hk
  have hheld : h.held.Perm (head :: h.held.eraseIdx k) := by
    have := List.getElem_cons_eraseIdx_perm hlt
    rw [(List.getElem?_eq_some_iff.mp hk).2] at this
    exact this.symm
  have hroom : returns.length < h.world.queue.size := by
    have hlen := hr.length
    have hle := Partition.length_inFlight h.world.queue
    omega
  have hhead : head < h.world.queue.size := by
    refine (mem_inFlight.mp (hr.heads.subset ?_)).1
    refine mem_append_right _ (mem_append_left _ ?_)
    exact mem_of_getElem? hk
  have hid : (UInt32.ofNat head).toNat = head := by
    have := hh.le
    unfold MAX_SIZE at this
    rw [UInt32.toNat_ofNat']
    omega
  refine ⟨hh.sound.device _, hh.dvd, hh.le, f, s, offers, returns ++ [(UInt32.ofNat head, len)], ?_⟩
  refine ⟨hr.fetched, hr.driverIdx, hr.published, hr.driverRing, hr.seen, ?_, ?_, ?_⟩
  · show h.world.queue.memory.deviceIdx + 1 = _
    rw [hr.deviceIdx, ofNat_add_one, length_append]
    rfl
  · show Window _ (Function.update _ (h.world.queue.memory.deviceIdx.toNat % _) _) _ _
    rw [hr.deviceIdx, slot_ofNat hh.dvd]
    exact hr.deviceRing.push hroom
  · refine List.Perm.trans (List.Perm.append_left _ ?_) hr.heads
    rw [map_append, map_cons, hid, ← append_assoc]
    exact (perm_append_singleton _ _).trans (hheld.symm.append_right _)

theorem step (act : Act) : Honest (h.step act) := by
  cases act with
  | add chain => exact hh.add chain
  | popUsed => exact hh.popUsed
  | fetch => exact hh.fetch
  | finish k len => exact hh.finish k len

theorem run (acts : List Act) : Honest (acts.foldl Host.step h) := by
  induction acts generalizing h with
  | nil => exact hh
  | cons act acts ih => exact ih (hh.step act)

/-- Once the device is idle, as many `popUsed` as chains are in flight take them all back. -/
theorem drain (hidle : h.Idle) {n : ℕ} (hn : h.world.queue.inFlight.length = n) :
    ((List.replicate n Act.popUsed).foldl Host.step h).world.flying = [] := by
  induction n generalizing h with
  | zero =>
    have hlen := hh.sound.heads.length_eq
    rw [length_map, hn] at hlen
    exact length_eq_zero_iff.mp hlen
  | succ n ih =>
    obtain ⟨f, s, offers, returns, hr⟩ := hh.rings
    have hlen := hr.length
    rw [hr.offers_eq_nil hh.le hidle.1, hidle.2, length_nil] at hlen
    rcases hr.popUsed hh.dvd hh.le with ⟨hnil, -⟩ | ⟨id, len, rest, q', -, heq, hret⟩
    · rw [hnil, length_nil] at hlen
      omega
    have hq : h.world.popUsed.queue = q' := by rw [popUsed_queue, heq]
    refine ih hh.popUsed ⟨?_, hidle.2⟩ ?_
    · show h.world.popUsed.queue.memory.driverIdx = h.fetched
      rw [hq, hret.memory]
      exact hidle.1
    show h.world.popUsed.queue.inFlight.length = n
    have := (Partition.inFlight_popUsed hret).length_eq
    rw [length_cons] at this
    rw [hq]
    omega

end Honest

/-! ### The driver cannot be confused -/

/-- A new queue is at the start of every run. -/
theorem start_new {len k : ℕ} (hk : 2 ^ k ≤ MAX_SIZE) (hlen : BYTES ≤ len) :
    ∃ q, Queue.new len true (2 ^ k) = .ok q ∧ Honest (Host.start q) := by
  have hpos : 0 < 2 ^ k := Nat.two_pow_pos k
  have hok : ¬ (2 ^ k = 0 ∨ MAX_SIZE < 2 ^ k ∨ ¬ (2 ^ k).isPowerOfTwo ∨ len < BYTES) := by
    rw [not_or, not_or, not_or]
    exact ⟨hpos.ne', hk.not_gt, not_not_intro ⟨k, rfl⟩, hlen.not_gt⟩
  have hnew : ∃ q, Queue.new len true (2 ^ k) = .ok q := by
    rw [Queue.new, if_neg hok]
    exact ⟨_, rfl⟩
  obtain ⟨q, hq⟩ := hnew
  refine ⟨q, hq, ?_⟩
  have hpart := partition_new hq
  rw [Queue.new, if_neg hok] at hq
  cases hq
  have hk16 : k ≤ 16 := by
    by_contra hlt
    have := Nat.pow_le_pow_right Nat.two_pos (Nat.le_of_not_le hlt)
    unfold MAX_SIZE at hk
    omega
  have hnone : (List.range (2 ^ k)).filter (fun _ => decide ((0 : ℕ) ≠ 0)) = [] := by simp
  refine ⟨.start hpart hnone, pow_dvd_pow 2 hk16, hk, 0, 0, [], [], ?_⟩
  exact ⟨rfl, rfl, rfl, .empty, rfl, rfl, .empty, List.Perm.of_eq hnone.symm⟩

/-- **The driver cannot be confused by its device.**  For every queue size, on any
contents the device leaves in the memory and after any operations: the free stack
and the descriptors of the chains in flight are `0 .. size`, each once; every chain
offered is in flight or was handed back, and not both or twice; none was handed back
that was not in flight, and none offered with a descriptor of one in flight.  With
a device that returns each offered head once, in any order and past any wrap of the
indexes, `popUsed` never refuses, and once the device has returned everything it
hands back every chain. -/
theorem virtqueue_exact (k len : ℕ) (hk : 2 ^ k ≤ MAX_SIZE) (hlen : BYTES ≤ len) :
    ∃ q, Queue.new len true (2 ^ k) = .ok q ∧
      (∀ ops : List Op, ∀ w, w = ops.foldl World.step (World.start q) →
        (w.queue.free ++ w.queue.inFlight.flatMap w.queue.chain).Perm (List.range (2 ^ k)) ∧
        (w.flying.map Chain.head).Perm w.queue.inFlight ∧
        (∀ c ∈ w.flying, c.ids = w.queue.chain c.head) ∧
        ((w.returned ++ w.flying).map Chain.number).Perm (List.range w.added) ∧
        w.stray = [] ∧ w.shared = []) ∧
      (∀ acts : List Act, ∀ h, h = acts.foldl Host.step (Host.start q) →
        (∀ e, h.world.queue.popUsed.1 ≠ .error e) ∧
        (h.Idle → ∀ h', h' = (List.replicate h.world.queue.inFlight.length Act.popUsed).foldl
          Host.step h → (h'.world.returned.map Chain.number).Perm
            (List.range h'.world.added))) := by
  obtain ⟨q, hnew, hstart⟩ := start_new hk hlen
  refine ⟨q, hnew, ?_, ?_⟩
  · rintro ops w rfl
    have hs := hstart.sound.run ops
    have hsize := (hstart.sound.size_run ops).trans (size_new hnew)
    exact ⟨hsize ▸ hs.partition, hs.heads, hs.ids, hs.numbers, hs.noStray, hs.noShared⟩
  · rintro acts h rfl
    have hh := hstart.run acts
    obtain ⟨f, s, offers, returns, hr⟩ := hh.rings
    refine ⟨fun e he => ?_, ?_⟩
    · rcases hr.popUsed hh.dvd hh.le with ⟨-, heq⟩ | ⟨id, len, rest, q', -, heq, -⟩
      · rw [heq] at he
        cases he
      · rw [heq] at he
        cases he
    · rintro hidle h' rfl
      have hdrain := hh.drain hidle rfl
      have hlast := (hh.run (List.replicate
        (acts.foldl Host.step (Host.start q)).world.queue.inFlight.length .popUsed)).sound.numbers
      rwa [hdrain, append_nil] at hlast

/-- One chain of a queue of four, fetched and returned. -/
theorem virtqueue_exact_four : 2 ^ 2 ≤ MAX_SIZE ∧ BYTES ≤ 12288 ∧
    ∃ q, Queue.new 12288 true (2 ^ 2) = .ok q ∧
      ([Act.add [⟨4096, 8, true⟩], .fetch, .finish 0 8].foldl Host.step
        (Host.start q)).world.queue.popUsed.1 ≠ .error .malformed := by
  obtain ⟨q, hnew, -, hhonest⟩ := virtqueue_exact 2 12288 (by decide) (by decide)
  exact ⟨by decide, by decide, q, hnew, (hhonest _ _ rfl).1 _⟩

end Moruna.Virtio
