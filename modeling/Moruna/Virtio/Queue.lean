/-
Moruna/Virtio/Queue.lean

The split virtqueue driver (kernel/drivers/virtio/src/queue.rs): a descriptor
table, a driver ring the driver offers chains on and a device ring the device
returns them on.  The driver keeps its free descriptors, the links of its chains
and the length of each chain in flight in its own memory; the queue memory is
shared, and what the device writes there is checked before it is believed.

The queue memory is read and written by typed cells only (a descriptor's four
fields, a ring's index, a ring's entries), so the model holds those cells.  A
queue is only made of memory that took the clearing writes, so no later access
of a cell fails.

* `Partition.add`, `Partition.popUsed` : both keep the partition.
-/
import Moruna.Lib.Window
import Mathlib.Data.List.Perm.Basic
import Mathlib.Data.List.Range
import Mathlib.Data.List.Nodup

namespace Moruna.Virtio

open List Function

/-! ### The queue and its memory -/

def BYTES : ℕ := 12288

/-- The largest queue: its descriptor table fills one page. -/
def MAX_SIZE : ℕ := 256

def NEXT : UInt16 := 1
def WRITE : UInt16 := 2

/-- One part of a chain: `len` bytes at device address `addr`. -/
structure Buffer where
  addr : UInt64
  len : UInt32
  deviceWrites : Bool
deriving DecidableEq

/-- A chain the device has finished with: its head, and the bytes it wrote. -/
structure Used where
  head : ℕ
  len : UInt32
deriving DecidableEq

inductive QueueError
  | full
  | invalid
  | malformed
  | accessDenied
deriving DecidableEq

structure Descriptor where
  addr : UInt64
  len : UInt32
  flags : UInt16
  next : ℕ
deriving DecidableEq

/-- The queue memory, by its cells: the table, then the index and the entries of
the driver ring and of the device ring. -/
structure Cells where
  desc : ℕ → Descriptor
  driverIdx : UInt16
  driverRing : ℕ → ℕ
  deviceIdx : UInt16
  deviceRing : ℕ → UInt32 × UInt32

def Cells.clear : Cells where
  desc := fun _ => ⟨0, 0, 0, 0⟩
  driverIdx := 0
  driverRing := fun _ => 0
  deviceIdx := 0
  deviceRing := fun _ => (0, 0)

structure Queue where
  memory : Cells
  size : ℕ
  /-- Free descriptors, as a stack, its top first. -/
  free : List ℕ
  /-- For each descriptor, the next in its chain (the driver's own copy). -/
  next : ℕ → ℕ
  /-- For each head in flight, its chain's length; zero for none. -/
  chains : ℕ → ℕ
  driverIdx : UInt16
  deviceSeen : UInt16

/-- A queue of `size` entries in a window of `len` bytes, which it clears. -/
def Queue.new (len : ℕ) (writable : Bool) (size : ℕ) : Except QueueError Queue :=
  if size = 0 ∨ MAX_SIZE < size ∨ ¬ size.isPowerOfTwo ∨ len < BYTES then .error .invalid
  else if !writable then .error .accessDenied
  else .ok {
    memory := Cells.clear, size := size, free := List.range size, next := fun _ => 0,
    chains := fun _ => 0, driverIdx := 0, deviceSeen := 0 }

/-! ### Offering and taking back -/

/-- Writes one descriptor for each id of the chain, linked to the next id. -/
def Queue.describe (q : Queue) : List (ℕ × Buffer) → Queue
  | [] => q
  | (id, buffer) :: rest =>
    let next := (rest.head?.map Prod.fst).getD 0
    let f := (if rest = [] then 0 else NEXT) ||| (if buffer.deviceWrites then WRITE else 0)
    let desc := update q.memory.desc id ⟨buffer.addr, buffer.len, f, next⟩
    Queue.describe { q with
      memory := { q.memory with desc := desc }
      next := update q.next id next } rest

variable (q : Queue)

def Queue.add (chain : List Buffer) : Except QueueError ℕ × Queue :=
  if chain = [] ∨ q.size < chain.length ∨ chain.any (fun b => b.len == 0) then (.error .invalid, q)
  else if q.free.length < chain.length then (.error .full, q)
  else
    let ids := q.free.take chain.length
    let q := { q with free := q.free.drop chain.length }
    let q := q.describe (ids.zip chain)
    let head := ids.headD 0
    let slot := q.driverIdx.toNat % q.size
    (.ok head, { q with
      chains := update q.chains head chain.length
      driverIdx := q.driverIdx + 1
      memory := { q.memory with
        driverRing := update q.memory.driverRing slot head
        driverIdx := q.driverIdx + 1 } })

/-- Frees `count` descriptors along the links from `id`. -/
def Queue.release (q : Queue) (id : ℕ) : ℕ → Queue
  | 0 => q
  | count + 1 => Queue.release { q with free := id :: q.free } (q.next id) count

def Queue.popUsed : Except QueueError (Option Used) × Queue :=
  if q.memory.deviceIdx = q.deviceSeen then (.ok none, q)
  else
    let (id, len) := q.memory.deviceRing (q.deviceSeen.toNat % q.size)
    -- An id past sixteen bits, past the table or of no chain in flight is refused.
    if 2 ^ 16 ≤ id.toNat ∨ q.size ≤ id.toNat ∨ q.chains id.toNat = 0 then (.error .malformed, q)
    else
      let head := id.toNat
      let count := q.chains head
      let q := { q with
        deviceSeen := q.deviceSeen + 1
        chains := update q.chains head 0 }
      (.ok (some ⟨head, len⟩), q.release head count)

/-! ### The chains in flight -/

/-- `count` descriptors along the links from `id`. -/
def walk (next : ℕ → ℕ) (id : ℕ) : ℕ → List ℕ
  | 0 => []
  | count + 1 => id :: walk next (next id) count

/-- The descriptors of the chain with this head, by the driver's own links. -/
def Queue.chain (head : ℕ) : List ℕ := walk q.next head (q.chains head)

def Queue.inFlight : List ℕ := (List.range q.size).filter (q.chains · ≠ 0)

/-- The free descriptors and those of the chains in flight are `0 .. size`, each once. -/
def Partition : Prop := (q.free ++ q.inFlight.flatMap q.chain).Perm (List.range q.size)

theorem mem_inFlight {q : Queue} {h : ℕ} : h ∈ q.inFlight ↔ h < q.size ∧ q.chains h ≠ 0 := by
  simp [Queue.inFlight]

variable {count id len size : ℕ} {writable : Bool}

/-- Links changed outside a walk do not change it. -/
theorem walk_congr {f g : ℕ → ℕ} (h : ∀ d ∈ walk f id count, g d = f d) :
    walk g id count = walk f id count := by
  induction count generalizing id with
  | zero => rfl
  | succ count ih =>
    rw [walk, forall_mem_cons] at h
    rw [walk, walk, h.1, ih h.2]

theorem head_mem_walk (f : ℕ → ℕ) (h : count ≠ 0) : id ∈ walk f id count := by
  cases count with
  | zero => exact absurd rfl h
  | succ count => exact mem_cons_self

/-! ### What the loops do -/

/-- The descriptor loop links the ids in order and touches no other link. -/
theorem describe_spec (l : List (ℕ × Buffer)) (hnd : (l.map Prod.fst).Nodup) :
    ∃ desc next, q.describe l = { q with memory := { q.memory with desc := desc }, next := next } ∧
      (∀ d ∉ l.map Prod.fst, next d = q.next d) ∧
      ∀ id, (l.map Prod.fst).head? = some id → walk next id l.length = l.map Prod.fst := by
  induction l generalizing q with
  | nil => exact ⟨_, _, rfl, fun _ _ => rfl, fun _ _ => rfl⟩
  | cons p rest ih =>
    obtain ⟨id, buffer⟩ := p
    rw [map_cons, nodup_cons] at hnd
    obtain ⟨desc, next, heq, hout, hwalk⟩ := ih _ hnd.2
    refine ⟨desc, next, heq, fun d hd => ?_, fun head hhead => ?_⟩
    · rw [map_cons, mem_cons, not_or] at hd
      exact (hout d hd.2).trans (update_of_ne hd.1 _ _)
    cases hhead
    have hid : next id = (rest.head?.map Prod.fst).getD 0 :=
      (hout id hnd.1).trans (update_self _ _ _)
    rw [length_cons, walk, hid]
    -- The link of the last id is never followed.
    cases rest with
    | nil => rfl
    | cons r rest => exact congrArg (id :: ·) (hwalk r.1 rfl)

/-- The freeing loop puts the walked descriptors on the stack, the last on top. -/
theorem release_eq (id count : ℕ) :
    q.release id count = { q with free := (walk q.next id count).reverse ++ q.free } := by
  induction count generalizing q id with
  | zero => rfl
  | succ count ih =>
    rw [Queue.release, ih, walk, reverse_cons, append_assoc]
    rfl

/-! ### What the operations do -/

/-- What an accepted chain changed: `ids` left the stack and are the new chain. -/
structure Offered (q q' : Queue) (head : ℕ) (ids : List ℕ) : Prop where
  free : q.free = ids ++ q'.free
  first : ids.head? = some head
  size : q'.size = q.size
  chains : q'.chains = update q.chains head ids.length
  others : ∀ d ∉ ids, q'.next d = q.next d
  linked : walk q'.next head ids.length = ids
  driverIdx : q'.driverIdx = q.driverIdx + 1
  published : q'.memory.driverIdx = q.driverIdx + 1
  entry : q'.memory.driverRing =
    update q.memory.driverRing (q.driverIdx.toNat % q.size) head
  deviceSeen : q'.deviceSeen = q.deviceSeen
  deviceIdx : q'.memory.deviceIdx = q.memory.deviceIdx
  deviceRing : q'.memory.deviceRing = q.memory.deviceRing

/-- An `add` either refuses and changes nothing, or offers the top of the stack. -/
theorem add_spec (hnd : q.free.Nodup) (chain : List Buffer) : (∃ e, q.add chain = (.error e, q)) ∨
    ∃ q' head, q.add chain = (.ok head, q') ∧
      ∃ ids, ids.length = chain.length ∧ Offered q q' head ids := by
  unfold Queue.add
  split_ifs with hinvalid hfull
  · exact .inl ⟨_, rfl⟩
  · exact .inl ⟨_, rfl⟩
  rw [not_or] at hinvalid
  obtain ⟨ids, hids, hlen⟩ : ∃ ids, q.free.take chain.length = ids ∧
      ids.length = chain.length :=
    ⟨_, rfl, length_take_of_le (by omega)⟩
  obtain ⟨head, hhead⟩ : ∃ head, ids.head? = some head := by
    cases ids with
    | nil => exact absurd (length_eq_zero_iff.mp hlen.symm) hinvalid.1
    | cons a l => exact ⟨a, rfl⟩
  have hfst : (ids.zip chain).map Prod.fst = ids := map_fst_zip hlen.le
  have hnodup : ids.Nodup := hids ▸ hnd.sublist (take_sublist _ _)
  obtain ⟨desc, next, heq, hout, hwalk⟩ :=
    describe_spec { q with free := q.free.drop chain.length } (ids.zip chain) (hfst.symm ▸ hnodup)
  rw [hfst] at hout hwalk
  rw [length_zip, hlen, min_self] at hwalk
  refine .inr ⟨_, _, rfl, ids, hlen, ?_⟩
  rw [hids, heq, headD_eq_head?_getD, hhead]
  refine ⟨?_, hhead, rfl, ?_, hout, ?_, rfl, rfl, rfl, rfl, rfl, rfl⟩
  · rw [← hids]; exact (take_append_drop _ _).symm
  · rw [hlen]
  · rw [hlen]; exact hwalk head hhead

/-- What a chain taken back changed. -/
structure Returned (q q' : Queue) (used : Used) : Prop where
  lt : used.head < q.size
  live : q.chains used.head ≠ 0
  free : q'.free = (q.chain used.head).reverse ++ q.free
  size : q'.size = q.size
  chains : q'.chains = update q.chains used.head 0
  next : q'.next = q.next
  deviceSeen : q'.deviceSeen = q.deviceSeen + 1
  driverIdx : q'.driverIdx = q.driverIdx
  memory : q'.memory = q.memory

/-- The device ring's entry `popUsed` reads. -/
def Queue.entry : UInt32 × UInt32 := q.memory.deviceRing (q.deviceSeen.toNat % q.size)

/-- A `popUsed` finds nothing, refuses an entry that names no chain in flight, or
takes the named chain back. -/
theorem popUsed_spec : (q.memory.deviceIdx = q.deviceSeen ∧ q.popUsed = (.ok none, q)) ∨
    (q.memory.deviceIdx ≠ q.deviceSeen ∧ q.popUsed = (.error .malformed, q) ∧
      ¬ (q.entry.1.toNat < 2 ^ 16 ∧ q.entry.1.toNat ∈ q.inFlight)) ∨
    (q.memory.deviceIdx ≠ q.deviceSeen ∧
      ∃ q', q.popUsed = (.ok (some ⟨q.entry.1.toNat, q.entry.2⟩), q') ∧
        Returned q q' ⟨q.entry.1.toNat, q.entry.2⟩) := by
  unfold Queue.popUsed
  split_ifs with hidx
  · exact .inl ⟨hidx, rfl⟩
  rcases hentry : q.memory.deviceRing (q.deviceSeen.toNat % q.size) with ⟨id, len⟩
  have hentry' : q.entry = (id, len) := hentry
  dsimp only
  rw [hentry', mem_inFlight]
  split_ifs with hbad
  · refine .inr (.inl ⟨hidx, rfl, fun hgood => ?_⟩)
    rcases hbad with h | h | h
    · exact lt_irrefl _ (hgood.1.trans_le h)
    · exact lt_irrefl _ (hgood.2.1.trans_le h)
    · exact hgood.2.2 h
  · rw [not_or, not_or] at hbad
    refine .inr (.inr ⟨hidx, _, rfl, ?_⟩)
    rw [release_eq]
    exact ⟨Nat.lt_of_not_le hbad.2.1, hbad.2.2, rfl, rfl, rfl, rfl, rfl, rfl, rfl⟩

/-! ### Both operations keep the partition -/

/-- One member more in a filtered range. -/
theorem filter_range_perm {n a : ℕ} {p p' : ℕ → Bool} (ha : a < n) (hp : p a = true)
    (hp' : p' a = false) (hrest : ∀ b, b ≠ a → p b = p' b) :
    ((List.range n).filter p).Perm (a :: (List.range n).filter p') := by
  have hnot : a ∉ (List.range n).filter p' := by
    rw [mem_filter, hp']
    exact fun h => Bool.noConfusion h.2
  rw [perm_ext_iff_of_nodup (nodup_range.filter _) (nodup_cons.mpr ⟨hnot, nodup_range.filter _⟩)]
  intro b
  rw [mem_cons, mem_filter, mem_filter, mem_range]
  by_cases hb : b = a
  · subst hb
    exact ⟨fun _ => .inl rfl, fun _ => ⟨ha, hp⟩⟩
  · rw [hrest b hb]
    exact ⟨.inr, fun h => h.resolve_left hb⟩

namespace Partition

variable {q q' : Queue} {head : ℕ} {ids : List ℕ} {used : Used}

variable (h : Partition q) (ho : Offered q q' head ids)

include h ho

omit ho in
theorem nodup : (q.free ++ q.inFlight.flatMap q.chain).Nodup := h.nodup_iff.mpr nodup_range

variable {c d : ℕ}

omit ho in
theorem not_mem_free (hc : c ∈ q.inFlight) (hd : d ∈ q.chain c) :
    d ∉ q.free := fun hfree =>
  (disjoint_of_nodup_append h.nodup) hfree (mem_flatMap.mpr ⟨c, hc, hd⟩)

omit ho in
theorem lt_of_mem_free (hd : d ∈ q.free) : d < q.size :=
  mem_range.mp (h.subset (mem_append_left _ hd))

omit ho in
theorem chains_of_mem_free (hd : d ∈ q.free) : q.chains d = 0 := by
  by_contra hne
  exact h.not_mem_free (mem_inFlight.mpr ⟨h.lt_of_mem_free hd, hne⟩) (head_mem_walk _ hne) hd

omit h in
theorem offered_free (hd : d ∈ ids) : d ∈ q.free := ho.free ▸ mem_append_left _ hd

omit h in
theorem head_mem : head ∈ ids := mem_of_head? ho.first

omit h in
theorem ids_ne_nil : ids.length ≠ 0 := fun h => by
  rw [length_eq_zero_iff.mp h] at ho
  exact absurd ho.first (by rintro ⟨⟩)

theorem inFlight_add : q'.inFlight.Perm (head :: q.inFlight) := by
  have hfree := offered_free ho (head_mem ho)
  rw [Queue.inFlight, ho.size, ho.chains]
  refine filter_range_perm (h.lt_of_mem_free hfree) ?_ ?_ fun b hb => ?_
  · rw [update_self]
    exact decide_eq_true (ids_ne_nil ho)
  · rw [h.chains_of_mem_free hfree]
    rfl
  · rw [update_of_ne hb]

omit h in
theorem chain_head : q'.chain head = ids := by rw [Queue.chain, ho.chains, update_self, ho.linked]

theorem chain_add (hc : c ∈ q.inFlight) : q'.chain c = q.chain c := by
  have hne : c ≠ head := by
    rintro rfl
    exact (mem_inFlight.mp hc).2 (h.chains_of_mem_free (offered_free ho (head_mem ho)))
  rw [Queue.chain, ho.chains, update_of_ne hne]
  exact walk_congr fun d hd => ho.others d fun hmem => h.not_mem_free hc hd (offered_free ho hmem)

theorem add : Partition q' := by
  have hold : q.inFlight.flatMap q'.chain = q.inFlight.flatMap q.chain :=
    flatMap_congr fun c hc => h.chain_add ho hc
  have hflat : (q'.inFlight.flatMap q'.chain).Perm (ids ++ q.inFlight.flatMap q.chain) := by
    have := (h.inFlight_add ho).flatMap_right q'.chain
    rwa [flatMap_cons, chain_head ho, hold] at this
  rw [Partition, ho.size]
  refine ((hflat.append_left _).trans ?_).trans h
  rw [ho.free, ← append_assoc]
  exact perm_append_comm.append_right _

omit h ho

theorem inFlight_popUsed (hr : Returned q q' used) :
    q.inFlight.Perm (used.head :: q'.inFlight) := by
  rw [Queue.inFlight, Queue.inFlight, hr.size, hr.chains]
  refine filter_range_perm hr.lt (decide_eq_true hr.live) ?_ fun b hb => ?_
  · rw [update_self]
    rfl
  · rw [update_of_ne hb]

theorem chain_popUsed (hr : Returned q q' used) (hc : c ∈ q'.inFlight) :
    q'.chain c = q.chain c := by
  have hne : c ≠ used.head := by
    rintro rfl
    exact (mem_inFlight.mp hc).2 (by rw [hr.chains, update_self])
  rw [Queue.chain, Queue.chain, hr.chains, update_of_ne hne, hr.next]

theorem popUsed (h : Partition q) (hr : Returned q q' used) : Partition q' := by
  have hold : q'.inFlight.flatMap q'.chain = q'.inFlight.flatMap q.chain :=
    flatMap_congr fun c hc => chain_popUsed hr hc
  have hflat := (inFlight_popUsed hr).flatMap_right q.chain
  rw [flatMap_cons] at hflat
  rw [Partition, hr.size, hr.free, hold]
  refine List.Perm.trans ?_ ((hflat.append_left q.free).symm.trans h)
  rw [← append_assoc]
  exact (((reverse_perm _).append_right _).trans perm_append_comm).append_right _

/-- No more chains are in flight than there are descriptors. -/
theorem length_inFlight (q : Queue) : q.inFlight.length ≤ q.size :=
  (length_filter_le _ _).trans (length_range).le

end Partition

theorem partition_new {q : Queue} (h : Queue.new len writable size = .ok q) : Partition q := by
  unfold Queue.new at h
  split_ifs at h
  cases h
  have hnone : (List.range size).filter (fun _ => decide ((0 : ℕ) ≠ 0)) = [] := by simp
  rw [Partition, Queue.inFlight, hnone, flatMap_nil, append_nil]

theorem size_new {q : Queue} (h : Queue.new len writable size = .ok q) : q.size = size := by
  unfold Queue.new at h
  split_ifs at h
  cases h
  rfl

end Moruna.Virtio
