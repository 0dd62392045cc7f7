/-
Moruna/Plane/Owned.lean

No object of the arena is lost or owned twice, over every run.

* `step_inv`, `run_inv` — every call keeps the invariant;
* `run_owned` — **the plane neither leaks nor frees twice**, as long as the ids given out
  are not in use;
* `wrapped_leaks` — the task counter wraps around, and the window of the task whose
  record is overwritten is lost.
-/
import Moruna.Plane.Moves

namespace Moruna.Plane

namespace KernelPlane

variable {p : KernelPlane}

/-! ### Runs -/

/-- The ids that the next call may give out are in use by nobody: no task has the next
task's id, and the counters of batches and objects do not wrap around. -/
def IdsFree (p : KernelPlane) : Prop := p.tasks.get p.nextTask = none ∧ p.HasIds 1 ∧ p.arena.HasId

theorem after_inv {α : Type} {x : PlaneM α} {P : KernelPlane → Prop} {Q : α → KernelPlane → Prop}
    (h : Triple P x Q (fun _ => Inv {})) (hQ : ∀ a p, Q a p → p.Inv {}) (hp : P p) :
    (after x p).Inv {} := by
  have := h p hp
  unfold after
  rcases hx : x p with ⟨a, p'⟩ | ⟨e, p'⟩
  · rw [hx] at this
    exact hQ a p' this
  · rw [hx] at this
    exact this

/-- **Every call keeps the invariant, whatever fails in it.** -/
theorem step_inv (h : p.Inv {}) (hids : p.IdsFree) (op : Op) : (p.step op).Inv {} := by
  have hready : p.Ready {} 1 := ⟨h, hids.2.1⟩
  rcases op with shape | len | ⟨task, output, bytes⟩ | ⟨task, input, batch⟩ | batch |
    ⟨task, input⟩ | -
  · exact after_inv (openTask_spec shape) (fun _ _ h => h) ⟨hready, hids.1⟩
  · exact after_inv (loadWith_spec len) (fun _ _ h => h.1) ⟨hready, hids.2.2⟩
  · exact after_inv (grant_spec task output bytes) (fun _ _ h => h) ⟨hready, hids.2.2⟩
  · exact after_inv (offer_spec task input batch) (fun _ _ h => h) hready
  · exact after_inv (dropBatch_spec batch) (fun _ _ h => h) hready
  · exact after_inv (finish_spec task input) (fun _ _ h => h) hready
  · exact after_inv next_spec (fun _ _ h => h.1) hready

/-- The next ids are free before each call of a run. -/
def IdsFreeAlong (p : KernelPlane) : List Op → Prop
  | [] => True
  | op :: ops => p.IdsFree ∧ (p.step op).IdsFreeAlong ops

theorem run_inv {ops : List Op} (h : p.Inv {}) (hids : p.IdsFreeAlong ops) :
    (p.run ops).Inv {} := by
  induction ops generalizing p with
  | nil => exact h
  | cons op ops ih => exact ih (step_inv h hids.1 op) hids.2

/-! ### Nothing is lost, nothing is freed twice -/

/-- **The plane owns what it says.**  Between two calls an object of the arena is in the
pool, under one batch or in one slot, and a slot that holds anything is one that the plane
still polls. -/
structure Owned (p : KernelPlane) : Prop where
  place : ∀ o x, p.arena.objects.get o = some x →
    p.arena.pool.count o + p.underBatches o + p.inSlots true o = 1
  nowhere : ∀ o, p.arena.objects.get o = none →
    p.arena.pool.count o + p.underBatches o + p.inSlots true o = 0
  polled : ∀ i s, p.calls.slots.get i = some s → s.entries ≠ [] →
    ∃ id t output, p.tasks.get id = some t ∧ ∃ r ∈ t.recs output, r.slot = i ∧ r.drained = false
  made : p.residency.made = p.arena.objects.sum fun _ x => x.bytes
  within : p.residency.made ≤ p.residency.budget
  windows : p.residency.windows = p.arena.bytesAt (p.inSlots true)
  shares : ∀ b r, p.batches.get b = some r → r.shares = p.inSlots false b
  /-- A batch that was made is there, with a holder, and was not told freed; or it was told
  freed, once, and no task has a share of it. -/
  freed : ∀ b, 1 ≤ b → b < p.nextBatch →
    (p.log.count (.freed b) = 0 ∧ ∃ r, p.batches.get b = some r ∧ (0 < r.shares ∨ r.held)) ∨
    (p.log.count (.freed b) = 1 ∧ p.batches.get b = none ∧ p.inSlots false b = 0)
  unmade : ∀ b, ¬ (1 ≤ b ∧ b < p.nextBatch) →
    p.log.count (.freed b) = 0 ∧ p.batches.get b = none
  /-- The arena refuses for its budget only what does not fit beside the objects of
  batches and slots. -/
  budget : ∀ bytes make asked free a,
    Arena.take bytes make p.arena = .error (.budget asked free) a →
    pages bytes = some asked ∧
      p.arena.budget < asked + p.arena.bytesAt (p.underBatches + p.inSlots true)

theorem Inv.outside (h : p.Inv {}) :
    p.arena.outside = p.arena.bytesAt (p.underBatches + p.inSlots true) := by
  refine OrdMap.sum_congr fun o x hx => ?_
  have hplace := h.arena.places o
  rw [hx, Option.isSome_some] at hplace
  have hplace' : p.arena.pool.count o + (p.underBatches o + 0) + (p.inSlots true o + 0) = 1 :=
    hplace
  rw [Pi.add_apply]
  split
  · rename_i hmem
    have := List.count_pos_iff.mpr hmem
    rw [show p.underBatches o + p.inSlots true o = 0 by omega, zero_mul]
  · rename_i hmem
    rw [← List.count_eq_zero] at hmem
    rw [show p.underBatches o + p.inSlots true o = 1 by omega, one_mul]

theorem Inv.owned (h : p.Inv {}) : p.Owned where
  place o x hx := by
    have := h.arena.places o
    rw [hx] at this
    exact this
  nowhere o ho := by
    have := h.arena.places o
    rw [ho] at this
    exact this
  polled := h.covered.polled
  made := h.arena.made
  within := h.arena.within
  windows := h.arena.lent.symm
  shares b r hb := h.shares b r hb
  freed b hlo hhi := by
    have htold := h.told b
    rw [if_pos (show 1 ≤ b ∧ b < p.nextBatch from ⟨hlo, hhi⟩)] at htold
    rcases hb : p.batches.get b with - | r
    · rw [hb] at htold
      refine .inr ⟨htold, rfl, Nat.eq_zero_of_not_pos fun hpos => ?_⟩
      have := h.shared b hpos
      rw [hb] at this
      cases this
    · rw [hb, Option.isSome_some, if_pos rfl] at htold
      refine .inl ⟨?_, r, rfl, h.holders b r hb nofun⟩
      omega
  unmade b hb := by
    have htold := h.told b
    rw [if_neg hb] at htold
    have hzero := Nat.eq_zero_of_add_eq_zero htold
    have hzero' := Nat.eq_zero_of_add_eq_zero hzero.1
    refine ⟨hzero'.1, Option.eq_none_iff_forall_ne_some.mpr fun r hr => ?_⟩
    rw [hr] at hzero'
    exact absurd hzero'.2 (by simp)
  budget bytes make asked free a ht := by
    obtain ⟨hpages, hlt⟩ := Arena.take_budget h.arena ht
    rw [h.outside] at hlt
    exact ⟨hpages, hlt⟩

/-- **The plane neither leaks nor frees twice**, over every run, whatever the kernel's
calls answer, in which the ids given out are not in use. -/
theorem run_owned (answers : ℕ → Answer) (budget : ℕ) (ops : List Op)
    (hids : (new answers budget).IdsFreeAlong ops) : ((new answers budget).run ops).Owned :=
  (run_inv (new_inv answers budget) hids).owned

/-- A kernel whose calls succeed and whose tasks put a record in every window. -/
def busyAnswer : Answer := ⟨none, 0, some (0, 4096), .ok 7, [], 0⟩

/-- A window is granted, comes back with a record, and the batch is dropped. -/
def onePass : List Op := [.openTask ⟨0, 1, false⟩, .grant 1 0 100, .next, .dropBatch 1]

theorem run_owned_onePass : ((new (fun _ => busyAnswer) 8192).run onePass).Owned :=
  run_owned (fun _ => busyAnswer) 8192 onePass
    ⟨⟨rfl, by unfold HasIds; decide +kernel, by unfold Arena.HasId; decide +kernel⟩,
      ⟨by decide +kernel, by unfold HasIds; decide +kernel, by unfold Arena.HasId; decide +kernel⟩,
      ⟨by decide +kernel, by unfold HasIds; decide +kernel, by unfold Arena.HasId; decide +kernel⟩,
      ⟨by decide +kernel, by unfold HasIds; decide +kernel, by unfold Arena.HasId; decide +kernel⟩,
      trivial⟩

/-! ### The task counter wraps around -/

/-- A kernel whose calls succeed and whose tasks do nothing. -/
def idleAnswer : Answer := ⟨none, 1, none, .ok 0, [], 0⟩

/-- A task with one output slot, the first the kernel made. -/
def loneTask : TaskRec := ⟨[], [⟨0, false⟩], false, false, false⟩

def bareTask : TaskRec := ⟨[], [], false, false, false⟩

/-- The tasks, the next id and the queue, with one window in the first slot and a kernel
that does nothing. -/
structure Lone (tasks : List (ℕ × TaskRec)) (next : ℕ) (events : List Event) (p : KernelPlane) :
    Prop where
  tasks : p.tasks.entries = tasks
  next : p.nextTask = next
  events : p.events = events
  slot : p.calls.slots.get 0 = some ⟨true, [⟨1, 0⟩], false⟩
  answers : p.calls.answers = fun _ => idleAnswer

section

variable {tasks : List (ℕ × TaskRec)} {next : ℕ} {events : List Event}

theorem Lone.get (h : p.Lone tasks next events) (id : ℕ) :
    p.tasks.get id = OrdMap.lookup tasks id := by
  rw [OrdMap.get, h.tasks]

theorem lone_draw : Triple (Lone tasks next events) draw
    (fun a p => a = idleAnswer ∧ p.Lone tasks next events) (fun _ _ => False) := by
  intro p h
  refine ⟨?_, { h with }⟩
  rw [h.answers]

/-- The slot has nothing to give back. -/
theorem lone_take : Triple (Lone tasks next events) (take 0)
    (fun r p => r = .error .shouldWait ∧ p.Lone tasks next events) (fun _ _ => False) := by
  refine lone_draw.bind fun a => .of_pre fun ha => ?_
  subst ha
  refine .look fun p h => ?_
  rw [h.slot]
  exact .pure fun _ h => ⟨rfl, h⟩

theorem lone_pollSlot (htask : OrdMap.lookup tasks 1 = some loneTask) :
    Sure (Lone tasks next events) (pollSlot 1 true 0) := by
  refine .look fun p h => ?_
  refine .look fun p h => ?_
  rw [h.get, htask]
  refine .bind (x := take 0) lone_take fun r => .of_pre fun hr => ?_
  subst hr
  exact .skip

theorem lone_pollTask (htask : OrdMap.lookup tasks 1 = some loneTask) :
    Sure (Lone tasks next events) (pollTask 1) := by
  refine .look fun p h => ?_
  rw [h.get, htask]
  refine .bind (Q := fun _ => Lone tasks next events)
    (x := (List.range 0).forM (pollSlot 1 false)) .skip fun _ => ?_
  refine .bind (Q := fun _ => Lone tasks next events)
    (x := (List.range 1).forM (pollSlot 1 true)) ?_ fun _ => ?_
  · exact (lone_pollSlot htask).bind fun _ => .skip
  refine .bind (Q := fun _ => Lone tasks next events) ?_ fun _ => ?_
  · refine .look fun p h => ?_
    rw [h.get, htask]
    exact .skip
  · refine .look fun p h => ?_
    rw [h.get, htask]
    exact .skip

/-- A task with nothing is at its end. -/
theorem bare_pollTask (id : ℕ) (htask : OrdMap.lookup tasks id = some bareTask) :
    Triple (Lone tasks next events) (pollTask id)
      (fun _ => Lone (tasks.filter fun c => c.1 ≠ id) next (events ++ [.ended id]))
      (fun _ _ => False) := by
  refine .look fun p h => ?_
  rw [h.get, htask]
  refine .bind (Q := fun _ => Lone tasks next events)
    (x := (List.range 0).forM (pollSlot id false)) .skip fun _ => ?_
  refine .bind (Q := fun _ => Lone tasks next events)
    (x := (List.range 0).forM (pollSlot id true)) .skip fun _ => ?_
  refine .bind (Q := fun _ => Lone tasks next events) ?_ fun _ => ?_
  · refine .look fun p h => ?_
    rw [h.get, htask]
    exact .skip
  refine .read fun p h => ?_
  rw [h.get, htask]
  intro p' hp'
  subst hp'
  refine ⟨?_, h.next, congrArg (· ++ [Event.ended id]) h.events, h.slot, h.answers⟩
  exact congrArg (List.filter fun c => c.1 ≠ id) h.tasks

/-- One task more, under the next id. -/
theorem lone_openTask : Triple (Lone [(1, loneTask)] next []) (openTask ⟨0, 0, false⟩)
    (fun _ => Lone (OrdMap.place next bareTask [(1, loneTask)]) ((next + 1) % 2 ^ 32) [])
    (fun _ _ => False) := by
  refine .read fun p h => ?_
  have hwaited : p.waited = 1 := by
    unfold waited OrdMap.sum
    rw [h.tasks]
    rfl
  rw [if_neg (by rw [hwaited]; decide)]
  intro p' hp'
  subst hp'
  refine ⟨?_, ?_, h.events, h.slot, h.answers⟩
  · show OrdMap.place p'.nextTask bareTask p'.tasks.entries = _
    rw [h.tasks, h.next]
  · show (p'.nextTask + 1) % 2 ^ 32 = _
    rw [h.next]

variable {id : ℕ}

/-- The task without slots ends at once, and the other one stays. -/
theorem lone_poll (hid : id ≠ 1) :
    Triple (Lone (OrdMap.place id bareTask [(1, loneTask)]) next []) poll
      (fun _ => Lone [(1, loneTask)] next [.ended id]) (fun _ _ => False) := by
  refine .look fun p h => ?_
  unfold OrdMap.keys
  rw [h.tasks]
  rcases lt_or_gt_of_ne hid with hlt | hgt
  · have hplace : OrdMap.place id bareTask [(1, loneTask)] = [(id, bareTask), (1, loneTask)] :=
      if_pos hlt
    rw [hplace]
    refine (bare_pollTask id (by simp [OrdMap.lookup])).bind fun _ => ?_
    rw [show ([(id, bareTask), (1, loneTask)].filter fun c => c.1 ≠ id) = [(1, loneTask)] by
      simp [Ne.symm hid]]
    exact (lone_pollTask (by simp [OrdMap.lookup])).bind fun _ => .skip
  · have hplace : OrdMap.place id bareTask [(1, loneTask)] = [(1, loneTask), (id, bareTask)] := by
      simp [OrdMap.place, hid, not_lt.mpr hgt.le]
    rw [hplace]
    refine (lone_pollTask (by simp [OrdMap.lookup])).bind fun _ => ?_
    refine (bare_pollTask id (by simp [OrdMap.lookup, hid])).bind fun _ => ?_
    rw [show ([(1, loneTask), (id, bareTask)].filter fun c => c.1 ≠ id) = [(1, loneTask)] by
      simp [Ne.symm hid]]
    exact .skip

theorem lone_next (hid : id ≠ 1) :
    Triple (Lone (OrdMap.place id bareTask [(1, loneTask)]) next []) KernelPlane.next
      (fun _ => Lone [(1, loneTask)] next []) (fun _ _ => False) := by
  have hpop : ∀ {tasks events}, Triple (Lone tasks next events) popEvent
      (fun e p => e = events.head? ∧ p.Lone tasks next events.tail) (fun _ _ => False) := by
    intro tasks events p h
    unfold popEvent
    rw [h.events]
    cases events with
    | nil => exact ⟨rfl, h⟩
    | cons e rest => exact ⟨rfl, h.tasks, h.next, rfl, h.slot, h.answers⟩
  refine lone_draw.bind fun a => .of_pre fun ha => ?_
  refine hpop.bind fun e => .of_pre fun he => ?_
  subst he
  refine (lone_poll hid).bind fun _ => hpop.bind fun e => .of_pre fun he => ?_
  subst he
  exact .skip

/-- One task is opened and ends; the ids go round. -/
def spin : List Op := [.openTask ⟨0, 0, false⟩, .next]

theorem after_spec {α : Type} {x : PlaneM α} {P Q : KernelPlane → Prop}
    (h : Triple P x (fun _ => Q) (fun _ _ => False)) (hp : P p) : Q (after x p) := by
  obtain ⟨a, p', hx, hq⟩ := h.ends hp
  unfold after
  rw [hx]
  exact hq

theorem lone_spin {k : ℕ} (hk : k ≠ 1) (h : p.Lone [(1, loneTask)] k []) :
    (p.run spin).Lone [(1, loneTask)] ((k + 1) % 2 ^ 32) [] :=
  after_spec (lone_next hk) (after_spec lone_openTask h)

theorem run_append (ops ops' : List Op) : p.run (ops ++ ops') = (p.run ops).run ops' :=
  List.foldl_append

/-- Until the counter is back at the id in use. -/
theorem lone_spins (n : ℕ) (hn : n < 2 ^ 32) (h : p.Lone [(1, loneTask)] 2 []) :
    (p.run (List.replicate n spin).flatten).Lone [(1, loneTask)] ((2 + n) % 2 ^ 32) [] := by
  induction n with
  | zero => exact h
  | succ n ih =>
    have hspin := lone_spin (k := (2 + n) % 2 ^ 32) (by omega) (ih (by omega))
    rw [List.replicate_succ', List.flatten_append, List.flatten_singleton, run_append]
    convert hspin using 1
    omega

/-- A task opened under an id in use takes its place. -/
theorem lone_overwritten (h : p.Lone [(1, loneTask)] 1 []) :
    (p.run [.openTask ⟨0, 0, false⟩]).Lone [(1, bareTask)] 2 [] :=
  after_spec lone_openTask h

end

/-- A task is opened and granted a window; then tasks are opened and end, as many as the
counter of task ids has values less one; then one more is opened. -/
def wrapAround : List Op :=
  [.openTask ⟨0, 1, false⟩, .grant 1 0 1] ++
    ((List.replicate (2 ^ 32 - 1) spin).flatten ++ [.openTask ⟨0, 0, false⟩])

/-- The record of the first task is overwritten, and the window in its slot is lost. -/
theorem wrapped_leaks : ¬ ((new (fun _ => idleAnswer) 4096).run wrapAround).Owned := by
  have hstart : ((new (fun _ => idleAnswer) 4096).run [.openTask ⟨0, 1, false⟩, .grant 1 0 1]).Lone
      [(1, loneTask)] 2 [] :=
    ⟨by decide +kernel, by decide +kernel, by decide +kernel, by decide +kernel,
      by with_unfolding_all rfl⟩
  have hspun := lone_spins (2 ^ 32 - 1) (by omega) hstart
  have hend : ((new (fun _ => idleAnswer) 4096).run wrapAround).Lone [(1, bareTask)] 2 [] := by
    rw [wrapAround, run_append, run_append]
    exact lone_overwritten hspun
  intro howned
  obtain ⟨id, t, output, ht, r, hr, -⟩ := howned.polled 0 _ hend.slot (by simp)
  rw [hend.get, OrdMap.lookup] at ht
  split at ht
  · cases ht
    cases output <;> cases hr
  · cases ht

end KernelPlane

end Moruna.Plane
