/-
Moruna/Plane/Arena.lean

The arena: the memory objects the engine's batches and windows live in, within a budget.

An object is in the pool, or somewhere outside of it: under a batch, in a slot, in the
hands of the call that is loading it.  The arena does not know those places, so its
invariant `Arena.Inv` counts them from outside: `held` are the places that leave the
handle with the engine, `away` the ones that have it taken out, and every existing
object is in exactly one.

* `take_budget` — a refusal for the budget means that the objects outside of the pool
  leave no room.
-/
import Mathlib.Data.List.MinMax
import Moruna.Lib.OrdMap
import Moruna.Lib.Exec
import Moruna.Kernel.Abi

namespace Moruna.Plane

open List Option OrdMap

open Kernel (Error PAGE_SIZE)

/-- Why the plane refused an operation. -/
inductive PlaneError where
  | unknown (what : String)
  | budget (asked free : ℕ)
  | full
  | closed
  | limit (what : String)
  | kernel (e : Error)
  | refused (reason : String)
  deriving DecidableEq

/-- `bytes` rounded up to whole pages; `none` past `u64`. -/
@[irreducible] def pages (bytes : ℕ) : Option ℕ :=
  if bytes + (PAGE_SIZE - 1) < 2 ^ 64 then
    some ((bytes + (PAGE_SIZE - 1)) / PAGE_SIZE * PAGE_SIZE)
  else none

/-- An object of the arena: its handle while the engine holds it (none while a slot
does), and its size. -/
structure Object (μ : Type) where
  handle : Option μ
  bytes : ℕ

structure Arena (μ : Type) where
  budget : ℕ
  made : ℕ
  objects : OrdMap ℕ (Object μ)
  /-- Objects free for the next window, by id. -/
  pool : List ℕ
  next : ℕ

/-- `Vec::swap_remove`: the last element takes the place of the one removed. -/
def swapRemove {α : Type} (l : List α) (i : ℕ) : List α :=
  match l.getLast? with
  | none => l
  | some x => (l.set i x).dropLast

variable {i : ℕ}

theorem swapRemove_perm {α : Type} {l : List α} (h : i < l.length) :
    (swapRemove l i).Perm (l.eraseIdx i) := by
  rcases eq_nil_or_concat l with rfl | ⟨front, x, rfl⟩
  · simp at h
  rw [concat_eq_append] at h ⊢
  unfold swapRemove
  rw [getLast?_append_cons]
  rw [length_append] at h
  rcases Nat.lt_succ_iff_lt_or_eq.mp h with hi | rfl
  · simp only [set_append_left _ _ hi, dropLast_concat, eraseIdx_append_of_lt_length hi]
    refine (set_perm_cons_eraseIdx hi x).trans ?_
    exact (perm_append_singleton x (front.eraseIdx i)).symm
  · simp [eraseIdx_append_of_length_le le_rfl]

theorem count_swapRemove {l : List ℕ} {x : ℕ} (h : l[i]? = some x) (o : ℕ) :
    (swapRemove l i).count o + (if o = x then 1 else 0) = l.count o := by
  obtain ⟨hi, rfl⟩ := List.getElem?_eq_some_iff.mp h
  rw [(swapRemove_perm hi).count_eq, ← (List.getElem_cons_eraseIdx_perm hi).count_eq o,
    List.count_cons]
  simp only [beq_iff_eq, @eq_comm _ o]

namespace Arena

variable {μ : Type}

/-! ### Operations -/

def new (budget : ℕ) : Arena μ := ⟨budget, 0, .empty, [], 1⟩

def bytes (a : Arena μ) (id : ℕ) : ℕ := (a.objects.get id).elim 0 Object.bytes

variable (a : Arena μ)

def pooled : ℕ := (a.pool.map a.bytes).sum

def handle (a : Arena μ) (id : ℕ) : Option μ := (a.objects.get id).bind Object.handle

/-- The smallest pooled object of at least `size` bytes, the first of its size: its index
in the pool, its id and its size. -/
def best (size : ℕ) : Option (ℕ × ℕ × ℕ) :=
  (a.pool.zipIdx.filterMap fun (id, i) =>
    (a.objects.get id).bind fun o => if size ≤ o.bytes then some (i, id, o.bytes) else none).argmin
    fun c => c.2.2

/-- The largest pooled object, the last of its size: its id and its index in the pool. -/
def largest : Option (ℕ × ℕ) := a.pool.zipIdx.reverse.argmax fun c => a.bytes c.1

def giveUp (id i : ℕ) : Arena μ :=
  { a with
    pool := swapRemove a.pool i
    objects := a.objects.erase id
    made := a.made - a.bytes id }

/-- Pooled objects are given up, the largest first, until `size` fits the budget; `n`
bounds the passes. -/
def reclaimLoop (size : ℕ) : ℕ → Arena μ → Arena μ
  | 0, a => a
  | n + 1, a =>
    if a.budget - a.made < size then
      match a.largest with
      | none => a
      | some (id, i) => reclaimLoop size n (a.giveUp id i)
    else a

/-- As `reclaimLoop`, until the pool is empty: each pass takes one object out of it. -/
def reclaim (size : ℕ) : Arena μ := reclaimLoop size a.pool.length a

def add (size : ℕ) : Arena μ :=
  { a with
    next := (a.next + 1) % 2 ^ 64
    made := a.made + size
    objects := a.objects.insert a.next ⟨none, size⟩ }

/-- The pooled object `id` at `i` leaves the pool, its handle taken out. -/
def unpool (id i : ℕ) : Arena μ :=
  { a with
    pool := swapRemove a.pool i
    objects := a.objects.modify id fun o => { o with handle := none } }

/-- An object of at least `bytes` (whole pages) and its id, its handle taken out: the
smallest pooled one that fits, or a new one from `make` while the budget allows. -/
def take (bytes : ℕ) (make : ℕ → Except Error μ) : EStateM PlaneError (Arena μ) (ℕ × μ × ℕ) :=
  fun a =>
    match (pages bytes).filter (0 < ·) with
    | none => .error (.limit "a window of no bytes, or past u64") a
    | some size =>
      match a.best size with
      | some (i, id, size') =>
        match a.handle id with
        | none => .error (.unknown "a pooled object with no handle") (a.unpool id i)
        | some handle => .ok (id, handle, size') (a.unpool id i)
      | none =>
        let r := a.reclaim size
        if r.budget - r.made < size then .error (.budget size (r.budget - r.made)) r
        else
          match make size with
          | .error e => .error (.kernel e) r
          | .ok handle => .ok (r.next, handle, size) (r.add size)

/-- The object `id`'s handle is the engine's again. -/
def hold (id : ℕ) (handle : μ) : EStateM PlaneError (Arena μ) Unit :=
  fun a =>
    match a.objects.get id with
    | none => .error (.unknown "an object the arena did not make") a
    | some o =>
      if o.handle.isSome then .error (.unknown "an object the arena already holds") a
      else
        .ok () { a with objects := a.objects.modify id fun o => { o with handle := some handle } }

def free (id : ℕ) : EStateM PlaneError (Arena μ) Unit :=
  fun a =>
    match a.objects.get id with
    | none => .error (.unknown "an object the arena did not make") a
    | some o =>
      if o.handle.isSome then
        .ok () (if id ∈ a.pool then a else { a with pool := a.pool ++ [id] })
      else .error (.unknown "an object a slot still holds") a

/-- A handle `take` handed out that was never pushed goes back as it was. -/
def untake (id : ℕ) (handle : μ) : EStateM PlaneError (Arena μ) Unit := do
  hold id handle
  free id

/-! ### Where the objects are -/

/-- The bytes of the objects, each as often as `f` counts it. -/
def bytesAt (f : ℕ → ℕ) (a : Arena μ) : ℕ := a.objects.sum fun o x => f o * x.bytes

def outside : ℕ := a.objects.sum fun o x => if o ∈ a.pool then 0 else x.bytes

/-- Every object is in the pool or in one place outside: `held` counts the places that
leave the handle with the engine, `slots` and `hand` those that have it, a slot's and a
call's; `w` are the bytes in slots. -/
structure Inv (held slots hand : ℕ → ℕ) (w : ℕ) (a : Arena μ) : Prop where
  places : ∀ o, a.pool.count o + held o + (slots o + hand o)
    = if (a.objects.get o).isSome then 1 else 0
  handles : ∀ o x, a.objects.get o = some x → (x.handle.isSome ↔ slots o + hand o = 0)
  made : a.made = a.objects.sum fun _ x => x.bytes
  within : a.made ≤ a.budget
  ids : ∀ o x, a.objects.get o = some x → o < a.next
  lent : a.bytesAt slots = w

variable {held slots hand : ℕ → ℕ} {w : ℕ} {a : Arena μ}

/-- The next id is not the last one. -/
def HasId (a : Arena μ) : Prop := a.next + 1 < 2 ^ 64

theorem new_inv (budget : ℕ) : (new budget : Arena μ).Inv 0 0 0 0 where
  places _ := rfl
  handles _ _ h := by cases h
  made := rfl
  within := Nat.zero_le _
  ids _ _ h := by cases h
  lent := rfl

variable (h : a.Inv held slots hand w)

include h

variable {o size : ℕ}

/-- Nothing outside of the arena's objects is anywhere. -/
theorem Inv.exists_of_pos
    (ho : 0 < a.pool.count o + held o + (slots o + hand o)) : ∃ x, a.objects.get o = some x := by
  have := h.places o
  refine isSome_iff_exists.mp ?_
  by_contra hno
  rw [if_neg hno] at this
  omega

/-- What is in the pool is nowhere else, and its handle is there. -/
theorem Inv.pooled (ho : o ∈ a.pool) :
    ∃ x, a.objects.get o = some x ∧ x.handle.isSome ∧ a.pool.count o = 1 ∧ held o = 0 ∧
      slots o = 0 ∧ hand o = 0 := by
  have hpos := count_pos_iff.mpr ho
  obtain ⟨x, hx⟩ := h.exists_of_pos (o := o) (by omega)
  have hp := h.places o
  rw [hx, isSome_some, if_pos rfl] at hp
  exact ⟨x, hx, (h.handles o x hx).mpr (by omega), by omega, by omega, by omega, by omega⟩

omit h

theorem bytes_of_get {x : Object μ} (h : a.objects.get o = some x) :
    a.bytes o = x.bytes := by
  rw [bytes, h]
  rfl

/-- One occurrence, at `o`. -/
def one (o : ℕ) : ℕ → ℕ := fun k => if k = o then 1 else 0

@[simp] theorem one_self (o : ℕ) : one o o = 1 := if_pos rfl

theorem one_of_ne {k : ℕ} (h : k ≠ o) : one o k = 0 := if_neg h

theorem bytesAt_add (f g : ℕ → ℕ) (a : Arena μ) :
    a.bytesAt (f + g) = a.bytesAt f + a.bytesAt g := by
  unfold bytesAt
  rw [← sum_add]
  exact sum_congr fun o x _ => add_mul _ _ _

theorem bytesAt_one (o : ℕ) (a : Arena μ) : a.bytesAt (one o) = a.bytes o := by
  refine Eq.trans ?_ (sum_single a.objects o Object.bytes)
  exact sum_congr fun k x _ => by
    unfold one
    split <;> simp

variable {id : ℕ}

/-- An object that a call has goes into a slot: the bytes in slots are the object's more. -/
theorem Inv.lend (h : a.Inv held slots (hand + one id) w) :
    a.Inv held (slots + one id) hand (w + a.bytes id) := { h with
  places o := by
    rw [← h.places o]
    simp only [Pi.add_apply]
    omega
  handles o x hx := by
    rw [h.handles o x hx]
    simp only [Pi.add_apply]
    omega
  lent := by rw [bytesAt_add, bytesAt_one, h.lent] }

/-- An object comes out of a slot, into the hands of a call. -/
theorem Inv.unlend (h : a.Inv held (slots + one id) hand w) :
    a.Inv held slots (hand + one id) (w - a.bytes id) ∧ a.bytes id ≤ w := by
  have hlent := h.lent
  rw [bytesAt_add, bytesAt_one] at hlent
  refine ⟨{ h with places := fun o => ?_, handles := fun o x hx => ?_, lent := ?_ }, ?_⟩
  · rw [← h.places o]
    simp only [Pi.add_apply]
    omega
  · rw [h.handles o x hx]
    simp only [Pi.add_apply]
    omega
  · omega
  · omega

/-! ### Giving up pooled objects -/

theorem largest_at (h : a.largest = some (id, i)) : a.pool[i]? = some id := by
  have hmem := argmax_mem h
  rw [mem_reverse] at hmem
  exact mem_zipIdx_iff_getElem?.mp hmem

theorem largest_eq_none : a.largest = none ↔ a.pool = [] := by
  rw [largest, argmax_eq_none, reverse_eq_nil_iff, zipIdx_eq_nil_iff]

include h

theorem Inv.giveUp (hi : a.pool[i]? = some id) : (a.giveUp id i).Inv held slots hand w := by
  obtain ⟨x, hx, hsome, hcount, hheld, hslots, hhand⟩ := h.pooled (mem_of_getElem? hi)
  have herase := sum_erase hx
  refine ⟨fun o => ?_, fun o y hy => ?_, ?_, ?_, fun o y hy => ?_, ?_⟩
  · have hp := h.places o
    have hc := count_swapRemove hi o
    simp only [Arena.giveUp, get_erase]
    split at hc
    · rename_i ho
      subst ho
      simp
      omega
    · rename_i ho
      rw [if_neg ho]
      omega
  · exact h.handles o y (get_erase_eq_some.mp hy).2
  · have := herase fun _ x => x.bytes
    show a.made - a.bytes id = _
    rw [h.made, bytes_of_get hx]
    exact Nat.sub_eq_of_eq_add this.symm
  · exact (Nat.sub_le _ _).trans h.within
  · exact h.ids o y (get_erase_eq_some.mp hy).2
  · have := herase fun o x => slots o * x.bytes
    rw [hslots, zero_mul] at this
    exact this.trans h.lent

theorem Inv.outside_giveUp (hi : a.pool[i]? = some id) : (a.giveUp id i).outside = a.outside := by
  have hmem := mem_of_getElem? hi
  obtain ⟨x, hx, -, hcount, -⟩ := h.pooled hmem
  have herase := sum_erase hx fun o x => if o ∈ a.pool then 0 else x.bytes
  rw [if_pos hmem, add_zero] at herase
  refine .trans (sum_congr fun o y hy => ?_) herase
  -- the pool is the same but for `id`
  have hne := (get_erase_eq_some.mp hy).1
  have hc := count_swapRemove hi o
  rw [if_neg hne, add_zero] at hc
  have hiff : o ∈ swapRemove a.pool i ↔ o ∈ a.pool := by rw [← count_pos_iff, hc, count_pos_iff]
  exact if_congr hiff rfl rfl

omit h

theorem length_swapRemove {l : List ℕ} {x : ℕ} (h : l[i]? = some x) :
    (swapRemove l i).length + 1 = l.length := by
  obtain ⟨hi, -⟩ := List.getElem?_eq_some_iff.mp h
  rw [(swapRemove_perm hi).length_eq, List.length_eraseIdx_of_lt hi]
  omega

/-- Reclaiming keeps the invariant and the objects outside of the pool, and leaves a pool
only when there is room. -/
theorem Inv.reclaimLoop : ∀ {n : ℕ} {a : Arena μ}, a.Inv held slots hand w → a.pool.length ≤ n →
    (reclaimLoop size n a).Inv held slots hand w ∧
      (reclaimLoop size n a).outside = a.outside ∧
      (reclaimLoop size n a).budget = a.budget ∧
      (reclaimLoop size n a).next = a.next ∧
      ((reclaimLoop size n a).budget - (reclaimLoop size n a).made < size →
        (reclaimLoop size n a).pool = [])
  | 0, a, h, hn => ⟨h, rfl, rfl, rfl, fun _ => eq_nil_of_length_eq_zero (Nat.le_zero.mp hn)⟩
  | n + 1, a, h, hn => by
    unfold Arena.reclaimLoop
    split
    · rcases hl : a.largest with - | ⟨id, i⟩
      · exact ⟨h, rfl, rfl, rfl, fun _ => largest_eq_none.mp hl⟩
      have hi := largest_at hl
      have hlen := length_swapRemove hi
      obtain ⟨h1, h2, h3, h4, h5⟩ :=
        Inv.reclaimLoop (n := n) (h.giveUp hi) (by
          show (swapRemove a.pool i).length ≤ n
          omega)
      exact ⟨h1, h2.trans (h.outside_giveUp hi), h3, h4, h5⟩
    · rename_i hroom
      exact ⟨h, rfl, rfl, rfl, fun hlt => absurd hlt hroom⟩

include h

/-- `reclaimLoop` with as many passes as the pool is long. -/
theorem Inv.reclaim (size : ℕ) :
    (a.reclaim size).Inv held slots hand w ∧ (a.reclaim size).outside = a.outside ∧
      (a.reclaim size).budget = a.budget ∧ (a.reclaim size).next = a.next ∧
      ((a.reclaim size).budget - (a.reclaim size).made < size → (a.reclaim size).pool = []) :=
  h.reclaimLoop le_rfl

/-! ### What the operations do to the places -/

omit h

/-- A weight that looks at sizes does not see where the handles are. -/
theorem sum_handle (m : OrdMap ℕ (Object μ)) (id : ℕ) (v : Option μ) (f : ℕ → ℕ → ℕ) :
    (m.modify id fun o => { o with handle := v }).sum (fun o x => f o x.bytes)
      = m.sum fun o x => f o x.bytes :=
  sum_modify_of_eq fun _ => rfl

theorem best_at {size' : ℕ} (h : a.best size = some (i, id, size')) :
    a.pool[i]? = some id ∧ ∃ x, a.objects.get id = some x ∧ x.bytes = size' := by
  obtain ⟨⟨id', i'⟩, hmem, hsome⟩ := mem_filterMap.mp (argmin_mem h)
  obtain ⟨x, hx, hif⟩ := bind_eq_some_iff.mp hsome
  split at hif
  · cases hif
    exact ⟨mem_zipIdx_iff_getElem?.mp hmem, x, hx, rfl⟩
  · cases hif

theorem Inv.setHandle {held' hand' : ℕ → ℕ} {pool : List ℕ} {v : Option μ}
    (h : a.Inv held slots hand w) (hplaces : ∀ o, pool.count o + held' o + (slots o + hand' o)
      = a.pool.count o + held o + (slots o + hand o))
    (hother : ∀ o, o ≠ id → hand' o = hand o) (hself : v.isSome ↔ slots id + hand' id = 0) :
    Inv held' slots hand' w
      { a with pool, objects := a.objects.modify id fun o => { o with handle := v } } := by
  refine ⟨fun o => ?_, fun o y hy => ?_, ?_, h.within, fun o y hy => ?_, ?_⟩
  · rw [hplaces, h.places, get_modify_isSome]
  · rcases get_modify_eq_some.mp hy with ⟨hne, hy⟩ | ⟨rfl, x', hx', rfl⟩
    · rw [h.handles o y hy, hother o hne]
    · exact hself
  · exact h.made.trans (sum_handle a.objects id _ fun _ n => n).symm
  · rcases get_modify_eq_some.mp hy with ⟨-, hy⟩ | ⟨rfl, x', hx', rfl⟩
    · exact h.ids o y hy
    · exact h.ids o x' hx'
  · exact (sum_handle a.objects id _ fun o n => slots o * n).trans h.lent

theorem Inv.unpool (h : a.Inv held slots 0 w) (hi : a.pool[i]? = some id) :
    (a.unpool id i).Inv held slots (one id) w := by
  refine h.setHandle (fun o => ?_) (fun o ho => one_of_ne ho) (by simp)
  rw [← count_swapRemove hi o]
  show _ + _ + (_ + one id o) = _ + one id o + _ + (_ + 0)
  omega

theorem Inv.add (h : a.Inv held slots 0 w) (hroom : size ≤ a.budget - a.made)
    (hids : a.HasId) : (a.add size).Inv held slots (one a.next) w := by
  have hnone : a.objects.get a.next = none := by
    refine eq_none_iff_forall_ne_some.mpr fun x hx => ?_
    exact lt_irrefl _ (h.ids _ x hx)
  have hplace := h.places a.next
  rw [hnone] at hplace
  simp only [isSome_none, Bool.false_eq_true, if_false, Pi.zero_apply] at hplace
  have hsum := sum_insert_of_none hnone (⟨none, size⟩ : Object μ)
  refine ⟨fun o => ?_, fun o y hy => ?_, ?_, ?_, fun o y hy => ?_, ?_⟩
  · have hp := h.places o
    simp only [Arena.add, get_insert]
    rcases eq_or_ne o a.next with rfl | ho
    · simp
      omega
    · rw [if_neg ho, one_of_ne ho]
      exact hp
  · rcases get_insert_eq_some.mp hy with ⟨rfl, rfl⟩ | ⟨hne, hy⟩
    · simp
    · rw [h.handles o y hy, one_of_ne hne]
      rfl
  · exact (congrArg (· + size) h.made).trans (hsum _).symm
  · have := h.within
    show a.made + size ≤ a.budget
    omega
  · show o < (a.next + 1) % 2 ^ 64
    rw [Nat.mod_eq_of_lt hids]
    rcases get_insert_eq_some.mp hy with ⟨rfl, -⟩ | ⟨-, hy⟩
    · exact Nat.lt_succ_self _
    · exact Nat.lt_succ_of_lt (h.ids o y hy)
  · refine (hsum _).trans ?_
    rw [show slots a.next = 0 by omega, zero_mul]
    exact h.lent

/-- What `take` gives is in the hands of the call, and nothing else has moved out of its
place; a call that fails has none. -/
theorem take_spec (bytes : ℕ) (make : ℕ → Except Error μ) :
    Triple (fun a => Inv held slots 0 w a ∧ a.HasId) (take bytes make)
      (fun r a => Inv held slots (one r.1) w a ∧ a.bytes r.1 = r.2.2)
      (fun _ a => Inv held slots 0 w a) := by
  intro a hpre
  have h := hpre.1
  have hids := hpre.2
  unfold take
  generalize (pages bytes).filter (0 < ·) = size?
  rcases size? with - | size
  · exact h
  rcases hb : a.best size with - | ⟨i, id, size'⟩
  · obtain ⟨hr, -, hbudget, hnext, -⟩ := h.reclaim size
    simp only [hb]
    split
    · exact hr
    rename_i hroom
    rcases make size with e | handle
    · exact hr
    · refine ⟨hr.add (not_lt.mp hroom) (by rw [HasId, hnext]; exact hids), ?_⟩
      exact bytes_of_get (x := ⟨none, size⟩) (by simp [Arena.add, get_insert])
  · obtain ⟨hi, x, hx, rfl⟩ := best_at hb
    obtain ⟨handle, hhandle⟩ : ∃ v, x.handle = some v := by
      obtain ⟨x', hx', hsome, -⟩ := h.pooled (mem_of_getElem? hi)
      rw [hx] at hx'
      cases hx'
      exact isSome_iff_exists.mp hsome
    have : a.handle id = some handle := by rw [Arena.handle, hx]; exact hhandle
    simp only [hb, this]
    refine ⟨h.unpool hi, bytes_of_get (x := { x with handle := none }) ?_⟩
    simp [Arena.unpool, get_modify, hx]

include h

/-- **A refusal for the budget means that the objects outside of the pool leave no room
for what was asked.** -/
theorem take_budget {bytes asked free : ℕ} {make : ℕ → Except Error μ} {a' : Arena μ}
    (ht : take bytes make a = .error (.budget asked free) a') :
    pages bytes = some asked ∧ a.budget < asked + a.outside := by
  unfold take at ht
  rcases hs : (pages bytes).filter (0 < ·) with - | size
  · rw [hs] at ht
    cases ht
  have hpages := (filter_eq_some_iff.mp hs).1
  simp only [hs] at ht
  rcases hb : a.best size with - | ⟨i, id, size'⟩
  · obtain ⟨hr, hout, hbudget, -, hempty⟩ := h.reclaim size
    simp only [hb] at ht
    split at ht
    · rename_i hfull
      obtain ⟨rfl, -⟩ := PlaneError.budget.inj (EStateM.Result.error.inj ht).1
      refine ⟨hpages, ?_⟩
      -- the pool is empty, so all that is made is outside of it
      have hall : (a.reclaim size).outside = (a.reclaim size).made := by
        rw [hr.made]
        refine sum_congr fun o x _ => if_neg ?_
        rw [show (a.reclaim size).pool = [] from hempty hfull]
        exact not_mem_nil
      omega
    · rcases hm : make size with e | handle
      · simp only [hm] at ht
        cases ht
      · simp only [hm] at ht
        cases ht
  · simp only [hb] at ht
    rcases hh : a.handle id with - | handle
    · simp only [hh] at ht
      cases ht
    · simp only [hh] at ht
      cases ht

omit h

/-- A handle that a call has is the engine's again. -/
theorem hold_spec (id : ℕ) (handle : μ) : Triple (Inv held slots (one id) w) (hold id handle)
      (fun _ a => Inv (held + one id) slots 0 w a) (fun _ _ => False) := by
  intro a h
  obtain ⟨x, hx⟩ := h.exists_of_pos (o := id) (by simp)
  have hnone : ¬ x.handle.isSome := by
    rw [h.handles id x hx]
    simp
  unfold hold
  simp only [hx, if_neg hnone]
  refine h.setHandle (fun o => ?_) (fun o ho => (one_of_ne ho).symm) ?_
  · simp only [Pi.add_apply, Pi.zero_apply]
    omega
  · have hp := h.places id
    rw [hx] at hp
    simp at hp
    simp
    omega

theorem hold_bytes (id : ℕ) (handle : μ) (o n : ℕ) :
    Triple (fun a => a.bytes o = n) (hold id handle) (fun _ a => a.bytes o = n)
      (fun _ a => a.bytes o = n) := by
  intro a h
  unfold hold
  split
  · exact h
  split
  · exact h
  refine .trans ?_ h
  unfold bytes
  rw [get_modify]
  split
  · cases a.objects.get o <;> rfl
  · rfl

/-- An object the engine holds goes back to the pool. -/
theorem free_spec (id : ℕ) : Triple (Inv (held + one id) slots 0 w) (free id)
      (fun _ a => Inv (μ := μ) held slots 0 w a) (fun _ _ => False) := by
  intro a h
  obtain ⟨x, hx⟩ := h.exists_of_pos (o := id) (by simp)
  have hp := h.places id
  rw [hx] at hp
  simp at hp
  have hsome : x.handle.isSome := (h.handles id x hx).mpr (by simp; omega)
  have hmem : id ∉ a.pool := by
    rw [← count_pos_iff]
    omega
  unfold free
  simp only [hx, if_pos hsome, if_neg hmem]
  refine { h with places := fun o => ?_ }
  rw [← h.places o]
  simp only [count_append, count_singleton, Pi.add_apply, one, beq_iff_eq, @eq_comm _ id o]
  omega

/-- What a call has goes back to the pool. -/
theorem untake_spec (id : ℕ) (handle : μ) : Triple (Inv held slots (one id) w) (untake id handle)
      (fun _ a => Inv held slots 0 w a) (fun _ _ => False) :=
  (hold_spec id handle).bind fun _ => free_spec id

end Arena

end Moruna.Plane
