/-
Moruna/Plane/Moves.lean

What each call of the plane does to the places, whatever fails in it.

A call starts and ends without a debt, when it fails as when it does not.  The batches'
and the objects' counters must not wrap around meanwhile: `HasIds n` leaves an id for
every entry that is in a slot, which may come back as a batch, and for `n` more.
-/
import Moruna.Plane.Places

namespace Moruna.Plane

open Registry List

open Kernel (Error)
open Arena (one)

namespace KernelPlane

variable {p : KernelPlane} {d : Debt}

/-! ### The moves of a call -/

/-- There are ids left for a batch from every entry in a slot, and for `n` more. -/
def HasIds (n : ℕ) (p : KernelPlane) : Prop := p.nextBatch + p.pending + n < 2 ^ 64

/-- The invariant up to a debt, with ids left. -/
def Ready (d : Debt) (n : ℕ) (p : KernelPlane) : Prop := p.Inv d ∧ p.HasIds n

variable {n : ℕ}

theorem HasIds.mono {m : ℕ} (h : p.HasIds n) (hm : m ≤ n) : p.HasIds m := by
  unfold HasIds at *
  omega

/-- The call leaves the plane ready, and a failure leaves the invariant. -/
abbrev Keeps (n : ℕ) {α : Type} (x : PlaneM α) : Prop :=
  Triple (Ready {} n) x (fun _ => Ready {} n) fun _ => Inv {}

/-- A fact about the plane that does not look at the answers and the handles. -/
def Blind (P : KernelPlane → Prop) : Prop :=
  ∀ p calls, calls.slots = p.calls.slots → P p → P { p with calls }

theorem blind_ready : Blind (Ready d n) := by
  rintro p ⟨_, _, _, _⟩ rfl h
  exact ⟨{ h.1 with covered := { h.1.covered with } }, h.2⟩

section

variable {P : KernelPlane → Prop} {E : PlaneError → KernelPlane → Prop}

theorem Blind.draw (hP : Blind P) : Triple P draw (fun _ => P) E := fun p h => hP p _ rfl h

theorem Blind.newHandle (hP : Blind P) : Triple P newHandle (fun _ => P) E :=
  fun p h => hP p _ rfl h

theorem Blind.call (hP : Blind P) (hE : ∀ e p, P p → E e p) : Triple P call (fun _ => P) E := by
  refine hP.draw.bind fun a => ?_
  rcases a.error with - | e
  · exact .skip
  · exact .throw fun p h => hE _ p h

theorem tell_spec {e : Event} (he : ∀ b, e ≠ .freed b) :
    Triple (Ready d n) (tell e) (fun _ => Ready d n) E :=
  fun _ h => ⟨h.1.tell he, h.2⟩

variable {α : Type} {hand kept : ℕ → ℕ}

/-- A call that stops where it has changed nothing. -/
theorem stop_spec {Q : α → KernelPlane → Prop} (h : p.Inv {}) (e : PlaneError) :
    Triple (fun p' => p' = p) (throw e : PlaneM α) Q (fun _ => Inv {}) := by
  rintro _ rfl
  exact h

/-- A computation of the arena moves objects between the pool, the engine and the call. -/
theorem onArena_spec {x : EStateM PlaneError (Arena ℕ) α} {A : Arena ℕ → Prop}
    {kept' hand' : α → ℕ → ℕ} {B : α → Arena ℕ → Prop}
    (hx : ∀ held slots w, Triple (fun a => Arena.Inv (held + kept) slots hand w a ∧ A a) x
      (fun r a => Arena.Inv (held + kept' r) slots (hand' r) w a ∧ B r a)
      (fun _ a => Arena.Inv (held + kept) slots hand w a))
    (hE : ∀ e p, Ready { d with kept, hand } n p → E e p) :
    Triple (fun p => Ready { d with kept, hand } n p ∧ A p.arena) (onArena x)
      (fun r p => Ready { d with kept := kept' r, hand := hand' r } n p ∧ B r p.arena) E := by
  intro p hp
  have hx' := hx p.underBatches (p.inSlots true) (p.windows - d.bytes) p.arena ⟨hp.1.1.arena, hp.2⟩
  unfold onArena
  rcases hr : x p.arena with ⟨r, a⟩ | ⟨e, a⟩
  · rw [hr] at hx'
    exact ⟨⟨{ hp.1.1 with arena := hx'.1, covered := { hp.1.1.covered with } }, hp.1.2⟩, hx'.2⟩
  · rw [hr] at hx'
    exact hE e _ ⟨{ hp.1.1 with arena := hx', covered := { hp.1.1.covered with } }, hp.1.2⟩

/-- As `onArena_spec`, for a computation that cannot fail. -/
theorem onArena_ends {x : EStateM PlaneError (Arena ℕ) α} {kept' hand' : ℕ → ℕ}
    (hx : ∀ held slots w, Triple (Arena.Inv (held + kept) slots hand w) x
      (fun _ a => Arena.Inv (held + kept') slots hand' w a) (fun _ _ => False)) :
    Triple (Ready { d with kept, hand } n) (onArena x)
      (fun _ => Ready { d with kept := kept', hand := hand' } n) E := by
  intro p hp
  have hx' := hx p.underBatches (p.inSlots true) (p.windows - d.bytes) p.arena hp.1.arena
  unfold onArena
  rcases hr : x p.arena with ⟨r, a⟩ | ⟨e, a⟩
  · rw [hr] at hx'
    exact ⟨{ hp.1 with arena := hx', covered := { hp.1.covered with } }, hp.2⟩
  · rw [hr] at hx'
    exact hx'.elim

theorem hold_spec (id handle : ℕ) :
    Triple (Ready { d with kept := 0, hand := one id } n) (onArena (Arena.hold id handle))
      (fun _ => Ready { d with kept := one id, hand := 0 } n) E :=
  onArena_ends fun _ _ _ => Arena.hold_spec id handle

/-- As `hold_spec`, with the object's size. -/
theorem hold_sized (id handle w : ℕ) :
    Triple (fun p => Ready { d with kept := 0, hand := one id } n p ∧ p.arena.bytes id = w)
      (onArena (Arena.hold id handle))
      (fun _ p => Ready { d with kept := one id, hand := 0 } n p ∧ p.arena.bytes id = w) E := by
  intro p h
  have h1 := hold_spec (E := fun _ _ => False) id handle p h.1
  have h2 := Arena.hold_bytes id handle id w p.arena h.2
  unfold onArena at h1 ⊢
  rcases hr : Arena.hold id handle p.arena with ⟨r, a⟩ | ⟨e, a⟩
  · rw [hr] at h1 h2
    exact ⟨h1, h2⟩
  · rw [hr] at h1
    exact h1.elim

theorem windowBack_spec (o w : ℕ) :
    Triple (fun p => Ready { d with bytes := w } n p ∧ p.arena.bytes o = w) (windowBack o)
      (fun _ => Ready { d with bytes := 0 } n) E := by
  intro p h
  have := h.1.1.windowBack
  rw [← h.2] at this
  exact ⟨this, h.1.2⟩

theorem free_spec (id : ℕ) :
    Triple (Ready { d with kept := one id, hand := 0 } n) (onArena (Arena.free id))
      (fun _ => Ready { d with kept := 0, hand := 0 } n) E :=
  onArena_ends fun _ _ _ => Arena.free_spec id

theorem untake_spec (id handle : ℕ) :
    Triple (Ready { d with kept := 0, hand := one id } n) (onArena (Arena.untake id handle))
      (fun _ => Ready { d with kept := 0, hand := 0 } n) E :=
  onArena_ends fun _ _ _ => Arena.untake_spec id handle

/-- An object from the arena is in the hands of the call. -/
theorem takeObject_spec (bytes : ℕ) :
    Triple (fun p => Ready {} n p ∧ p.arena.HasId) (takeObject bytes)
      (fun r p => Ready { hand := one r.1 } n p ∧ p.arena.bytes r.1 = r.2.2)
      (fun _ p => Ready {} n p) := by
  refine .bind (Q := fun _ p => Ready {} n p ∧ p.arena.HasId)
    (fun p h => ⟨blind_ready p _ rfl h.1, h.2⟩) fun a => ?_
  refine .bind (Q := fun _ p => Ready {} n p ∧ p.arena.HasId)
    (fun p h => ⟨blind_ready p _ rfl h.1, h.2⟩) fun handle => ?_
  exact onArena_spec (d := {}) (fun _ _ _ => Arena.take_spec bytes _)
    fun _ _ h => h

theorem takeObject_tasks (bytes : ℕ) (tasks : OrdMap ℕ TaskRec) :
    Triple (fun p => p.tasks = tasks) (takeObject bytes) (fun _ p => p.tasks = tasks)
      (fun _ p => p.tasks = tasks) := by
  refine .bind (Q := fun _ (p : KernelPlane) => p.tasks = tasks) (fun _ h => h) fun a => ?_
  refine .bind (Q := fun _ (p : KernelPlane) => p.tasks = tasks) (fun _ h => h) fun _ => ?_
  intro p h
  unfold onArena
  split <;> exact h

theorem addBatch_spec (object offset len : ℕ) :
    Triple (Ready { kept := one object } (n + 1)) (addBatch object offset len)
      (fun _ => Ready {} n) E := by
  intro p h
  have hroom := h.2
  unfold HasIds at hroom
  have hids : p.nextBatch + 1 < 2 ^ 64 := by omega
  refine ⟨h.1.batched hids offset len, ?_⟩
  have hnext : (p.batched object offset len).nextBatch = p.nextBatch + 1 := Nat.mod_eq_of_lt hids
  have hpending : (p.batched object offset len).pending = p.pending := rfl
  rw [HasIds]
  omega

/-- A batch that may have lost its last holder is freed if it has. -/
theorem settle_spec (b : ℕ) :
    Triple (Ready { loose := some b } n) (settle b) (fun _ => Ready {} n) E := by
  refine .read fun p h => ?_
  rcases hb : p.batches.get b with - | r
  · refine .pure ?_
    rintro _ rfl
    refine ⟨h.1.tight fun r hr => ?_, h.2⟩
    rw [hb] at hr
    cases hr
  · refine .ite (fun hhold => .pure ?_) fun hdead => ?_
    · rintro _ rfl
      refine ⟨h.1.tight fun r' hr => ?_, h.2⟩
      rw [hb] at hr
      cases hr
      exact hhold
    · refine .bind (Q := fun _ => Ready { kept := one r.object, gone := one b } n) ?_ fun _ => ?_
      · rintro _ rfl
        exact ⟨h.1.eraseBatch hb hdead, h.2⟩
      · refine (free_spec (d := { gone := one b }) r.object).bind fun _ => ?_
        exact fun p h => ⟨h.1.tellFreed, h.2⟩

end

/-! ### Loading and arriving -/

theorem loadWith_spec (len : ℕ) :
    Triple (fun p => Ready {} (n + 1) p ∧ p.arena.HasId) (loadWith len) (fun _ => Ready {} n)
      (fun _ => Inv {}) := by
  refine ((takeObject_spec len).error fun _ _ h => h.1).bind ?_
  rintro ⟨object, memory, size⟩
  refine .pre (P := Ready { hand := one object } (n + 1)) ?_ fun _ h => h.1
  refine blind_ready.draw.bind fun a => ?_
  rcases a.error with - | e
  · refine blind_ready.draw.bind fun a' => ?_
    refine (hold_spec (d := {}) object memory).bind fun _ => ?_
    rcases a'.checked with reason | rows
    · refine (free_spec (d := {}) object).bind fun _ => ?_
      exact .throw fun _ h => h.1
    · refine (addBatch_spec object 0 len).bind fun _ => ?_
      exact .skip
  · refine (untake_spec (d := {}) object memory).bind fun _ => ?_
    exact .throw fun _ h => h.1

theorem refused_spec (task output : ℕ) (reason : String) (a : Answer) : Triple (Ready {} n)
      (match a.error with
        | none | some .badState => tell (.refused task output reason)
        | some e => throw (.kernel e))
      (fun _ => Ready {} n) (fun _ => Inv {}) := by
  split
  · exact tell_spec nofun
  · exact tell_spec nofun
  · exact .throw fun _ h => h.1

theorem arrived_spec (task output object memory offset len w : ℕ) :
    Triple (fun p => Ready { hand := one object, bytes := w } (n + 1) p ∧ p.arena.bytes object = w)
      (arrived task output object memory offset len) (fun _ => Ready {} n) (fun _ => Inv {}) := by
  refine .bind (Q := fun _ p => Ready { hand := one object, bytes := w } (n + 1) p ∧
    p.arena.bytes object = w) (fun p h => ⟨blind_ready p _ rfl h.1, h.2⟩) fun a => ?_
  refine (hold_sized (d := { bytes := w }) object memory w).bind fun _ => ?_
  refine (windowBack_spec (d := { kept := one object }) object w).bind fun _ => ?_
  rcases a.checked with reason | rows
  · refine (free_spec (d := {}) object).bind fun _ => ?_
    refine .read fun p h => ?_
    rcases p.tasks.get task with - | t
    · exact .of_eq (.throw fun _ h => h.1) h
    simp only
    rcases t.outputs[output]? with - | r
    · exact .of_eq (.throw fun _ h => h.1) h
    · refine .pre ?_ (P := Ready {} n) (by rintro _ rfl; exact ⟨h.1, h.2.mono (Nat.le_succ n)⟩)
      exact blind_ready.draw.bind fun a' => refused_spec task output reason a'
  · refine (addBatch_spec object offset len).bind fun id => ?_
    exact tell_spec nofun

/-- What a slot gave back is in the call's hands. -/
def Receives (n : ℕ) : Taken → KernelPlane → Prop
  | .released b, p => p.Ready { due := one b } n
  | .put o _ _ _, p => p.Ready { hand := one o, bytes := p.arena.bytes o } (n + 1)
  | .returned o _, p => p.Ready { hand := one o, bytes := p.arena.bytes o } n

theorem received_spec (task index : ℕ) (taken : Taken) :
    Triple (Receives n taken) (received task index taken) (fun _ => Ready {} n)
      (fun _ => Inv {}) := by
  rcases taken with b | ⟨o, memory, offset, len⟩ | ⟨o, memory⟩
  · refine .bind (Q := fun _ => Ready { loose := some b } n)
      (fun p h => ⟨h.1.shareBack, h.2⟩) fun _ => ?_
    refine (tell_spec (by nofun)).bind fun _ => ?_
    exact settle_spec b
  · refine .pointwise fun p h => ?_
    exact (arrived_spec task index o memory offset len (p.arena.bytes o)).of_eq ⟨h, rfl⟩
  · refine .pointwise fun p h => ?_
    refine .of_eq (P := fun p' => Ready { hand := one o, bytes := p.arena.bytes o } n p' ∧
      p'.arena.bytes o = p.arena.bytes o) ?_ ⟨h, rfl⟩
    refine (windowBack_spec (d := { hand := one o }) o _).bind fun _ => ?_
    exact untake_spec (d := {}) o memory

/-! ### Polling -/

/-- What `take` says of the state it leaves. -/
def Taking (n slot : ℕ) : Except Error Taken → KernelPlane → Prop
  | .ok taken, p => p.Receives n taken
  | .error e, p => p.Ready {} n ∧ (e = .peerClosed →
    ∃ s, p.calls.slots.get slot = some s ∧ s.ended = true ∧ s.entries = [])

/-- A slot gives back an entry it has, once, or tells the end when it has none. -/
theorem take_spec (slot : ℕ) (p₀ : KernelPlane) (h₀ : p₀.Ready {} n) :
    Triple (fun p => p = p₀) (take slot)
      (fun r p => p.tasks = p₀.tasks ∧ p.Taking n slot r) (fun _ _ => False) := by
  refine .bind (Q := fun _ p => p.Ready {} n ∧ p.tasks = p₀.tasks) ?_ fun a => ?_
  · rintro _ rfl
    exact ⟨blind_ready _ _ rfl h₀, rfl⟩
  refine .read fun p ⟨h, htasks⟩ => ?_
  have hsame : ∀ e, e ≠ .peerClosed →
      Triple (ε := PlaneError) (fun p' => p' = p) (pure (.error e))
        (fun r p => p.tasks = p₀.tasks ∧ p.Taking n slot r) (fun _ _ => False) := by
    rintro e he _ rfl
    exact ⟨htasks, h, fun h => absurd h he⟩
  rcases hs : p.calls.slots.get slot with - | s
  · exact hsame .badHandle nofun
  simp only
  split
  · refine .ite (fun hempty => ?_) fun _ => hsame .shouldWait nofun
    have hpending : (p.setSlots
        (p.calls.slots.modify slot fun s => { s with ended := true })).pending = p.pending :=
      sum_modify_of_eq fun _ => rfl
    refine .bind (Q := fun _ p => p.tasks = p₀.tasks ∧ p.Ready {} n ∧
      ∃ s, p.calls.slots.get slot = some s ∧ s.ended = true ∧ s.entries = []) ?_ fun _ =>
      .pure fun _ h => ⟨h.1, h.2.1, fun _ => h.2.2⟩
    rintro _ rfl
    refine ⟨htasks, ⟨h.1.endSlot slot, ?_⟩, { s with ended := true }, ?_, rfl,
      isEmpty_iff.mp hempty⟩
    · have hroom := h.2
      unfold HasIds at hroom ⊢
      rw [hpending]
      exact hroom
    · exact get_modify_eq_some.mpr (.inr ⟨rfl, s, hs, rfl⟩)
  · rename_i e he _
    exact hsame e fun heq => by simp_all
  · rcases he : s.entries[a.pick]? with - | e
    · exact hsame .shouldWait nofun
    -- one entry leaves the slot
    have hids : (p.removed slot a.pick).HasIds (n + 1) := by
      have hroom := h.2
      have hone := pending_removed hs he
      unfold HasIds at hroom ⊢
      have : (p.removed slot a.pick).nextBatch = p.nextBatch := rfl
      omega
    refine .bind (Q := fun _ p' => p' = p.removed slot a.pick) ?_ fun _ => .pure ?_
    · rintro _ rfl
      rfl
    rintro _ rfl
    refine ⟨htasks, ?_⟩
    rcases hside : s.output with - | -
    · exact ⟨h.1.takeShare hs he hside, hids.mono (Nat.le_succ n)⟩
    · rcases a.put with - | ⟨offset, len⟩
      · exact ⟨h.1.takeWindow hs he hside, hids.mono (Nat.le_succ n)⟩
      · exact ⟨h.1.takeWindow hs he hside, hids⟩

theorem recs_setDrained (t : TaskRec) (side output : Bool) (index : ℕ) :
    (t.setDrained side index).recs output
      = if output = side then (t.recs side).modify index fun r => { r with drained := true }
        else t.recs output := by
  cases side <;> cases output <;> rfl

variable {α : Type} {i : ℕ}

theorem mem_modify {l : List α} {f : α → α} {x : α} (h : x ∈ l.modify i f) :
    x ∈ l ∨ ∃ y, l[i]? = some y ∧ x = f y := by
  obtain ⟨j, hj⟩ := mem_iff_getElem?.mp h
  rw [List.getElem?_modify] at hj
  obtain ⟨y, hy, hfy⟩ := Option.map_eq_some_iff.mp hj
  split at hfy
  · rename_i hij
    subst hij
    exact .inr ⟨y, hy, hfy.symm⟩
  · subst hfy
    exact .inl (mem_of_getElem? hy)

theorem mem_modify_of_mem {l : List α} {f : α → α} {x : α} (h : x ∈ l) :
    x ∈ l.modify i f ∨ l[i]? = some x := by
  obtain ⟨j, hj⟩ := mem_iff_getElem?.mp h
  rcases eq_or_ne i j with rfl | hne
  · exact .inr hj
  · refine .inl (mem_of_getElem? (i := j) ?_)
    simp [hne, hj]

/-- A slot that has told the end is drained. -/
theorem Covered.setDrained (h : p.Covered) {task index : ℕ} {side : Bool} {t : TaskRec}
    {r : SlotRec} {s : KernelSlot} (ht : p.tasks.get task = some t)
    (hr : (t.recs side)[index]? = some r) (hs : p.calls.slots.get r.slot = some s)
    (hended : s.ended = true) (hnil : s.entries = []) :
    ({ p with tasks := p.tasks.modify task fun t => t.setDrained side index } :
      KernelPlane).Covered := by
  refine h.modifyTask task fun t' ht' output => ?_
  rw [ht] at ht'
  cases ht'
  rw [recs_setDrained]
  rcases eq_or_ne output side with rfl | hne
  · rw [if_pos rfl]
    constructor
    · intro r' hr'
      rcases mem_modify hr' with hr' | ⟨r'', hr'', rfl⟩
      · exact h.recs task t ht output r' hr'
      rw [hr] at hr''
      cases hr''
      obtain ⟨s', hs', hside, -⟩ := h.recs task t ht output r (mem_of_getElem? hr)
      rw [hs] at hs'
      cases hs'
      exact ⟨s, hs, hside, fun _ => ⟨hended, hnil⟩⟩
    · intro r' hr' _
      rcases mem_modify_of_mem hr' with hr' | hr'
      · exact .inl hr'
      rw [hr] at hr'
      cases hr'
      refine .inr fun s' hs' => ?_
      rw [hs] at hs'
      cases hs'
      exact hnil
  · rw [if_neg hne]
    exact ⟨h.recs task t ht output, fun r' hr' _ => .inl hr'⟩

theorem pollSlotLoop_spec (task : ℕ) (output : Bool) (index fuel : ℕ) :
    Keeps n (pollSlotLoop task output index fuel) := by
  induction fuel with
  | zero => exact .skip
  | succ fuel ih =>
    refine .read fun p h => ?_
    rcases ht : p.tasks.get task with - | t
    · exact Triple.skip.of_eq h
    simp only
    rcases hr : (t.recs output)[index]? with - | r
    · exact Triple.skip.of_eq h
    refine Triple.ite (fun _ => Triple.skip.of_eq h) fun _ => ?_
    refine ((take_spec r.slot p h).error fun _ _ h => h.elim).bind ?_
    rintro (e | taken)
    · cases e
      case shouldWait => exact .pure fun _ h => h.2.1
      case peerClosed =>
        rintro p' ⟨htasks, hready, hend⟩
        obtain ⟨s, hs, hended, hnil⟩ := hend rfl
        exact ⟨{ hready.1 with
            covered := hready.1.covered.setDrained (htasks ▸ ht) hr hs hended hnil },
          hready.2⟩
      all_goals exact .throw fun _ h => h.2.1.1
    · refine .bind ((received_spec task index taken).pre fun _ h => h.2) fun _ => ih

theorem pollSlot_spec (task : ℕ) (output : Bool) (index : ℕ) :
    Keeps n (pollSlot task output index) := by
  exact .look fun p _ => pollSlotLoop_spec task output index _

theorem pollPort_spec (task : ℕ) : Keeps n (pollPort task) := by
  refine .look fun p _ => ?_
  rcases p.tasks.get task with - | t
  · exact .skip
  refine .ite (fun _ => ?_) fun _ => .skip
  refine blind_ready.draw.bind fun a => ?_
  refine .bind (Q := fun _ => Ready {} n) ?_ fun _ => ?_
  · refine .forM (fun _ => Ready {} n) fun _ r _ _ => ?_
    rcases r with - | r
    · exact .throw fun _ h => h.1
    · exact tell_spec nofun
  · split
    · exact .skip
    · exact .skip
    · refine .update fun p h => ⟨{ h.1 with covered := ?_ }, h.2⟩
      exact h.1.covered.modifyTask task fun t ht output =>
        ⟨h.1.covered.recs task t ht output, fun r hr _ => .inl hr⟩
    · exact .throw fun _ h => h.1

theorem retireTask_spec (task : ℕ) : Keeps n (retireTask task) := by
  refine .read fun p h => ?_
  rcases ht : p.tasks.get task with - | t
  · exact Triple.skip.of_eq h
  refine Triple.ite (fun hd => ?_) fun _ => Triple.skip.of_eq h
  refine .bind (Q := fun _ => Ready {} n) ?_ fun _ => tell_spec nofun
  rintro _ rfl
  exact ⟨{ h.1 with covered := h.1.covered.eraseTask ht hd }, h.2⟩

theorem pollTask_spec (task : ℕ) : Keeps n (pollTask task) := by
  refine .look fun p _ => ?_
  rcases p.tasks.get task with - | t
  · exact .skip
  refine .ite (fun _ => .skip) fun _ => ?_
  refine .bind (.forM (fun _ => Ready {} n) fun _ i _ _ => pollSlot_spec task false i)
    fun _ => ?_
  refine .bind (.forM (fun _ => Ready {} n) fun _ i _ _ => pollSlot_spec task true i)
    fun _ => ?_
  exact (pollPort_spec task).bind fun _ => retireTask_spec task

theorem poll_spec : Keeps n poll := by
  refine .look fun p _ => ?_
  exact .forM (fun _ => Ready {} n) fun _ task _ _ => pollTask_spec task

/-! ### The port -/

section

variable {P : KernelPlane → Prop} {E : PlaneError → KernelPlane → Prop}

/-- How a push ends: with the entry in a slot that has not told its end, or with nothing
changed. -/
def Pushing (P : KernelPlane → Prop) (slot : ℕ) (e : Entry) : Except Error Unit → KernelPlane → Prop
  | .error _, p => P p
  | .ok _, p => ∃ p₁ s, P p₁ ∧ p₁.calls.slots.get slot = some s ∧ s.ended = false ∧
    p = p₁.pushed slot e

theorem Blind.push (hP : Blind P) (slot : ℕ) (e : Entry) :
    Triple P (push slot e) (Pushing P slot e) E := by
  refine hP.draw.bind fun a => ?_
  rcases a.error with - | err
  · refine .read fun p h => ?_
    rcases hs : p.calls.slots.get slot with - | s
    · exact .of_eq (.pure fun _ h => h) h
    refine .ite (fun _ => .of_eq (.pure fun _ h => h) h) fun hended => ?_
    refine .bind (Q := fun _ p' => p' = p.pushed slot e) ?_ fun _ => .pure ?_
    · rintro _ rfl
      rfl
    · rintro _ rfl
      exact ⟨p, s, h, hs, Bool.eq_false_iff.mpr hended, rfl⟩
  · exact .pure fun _ h => h

end

/-- Ready, with the batches and the tasks that the call has looked at. -/
def Beside (p : KernelPlane) (d : Debt) (n : ℕ) (q : KernelPlane) : Prop :=
  q.Ready d n ∧ q.batches = p.batches ∧ q.tasks = p.tasks

theorem blind_beside : Blind (Beside p d n) :=
  fun q calls hslots hq => ⟨blind_ready q calls hslots hq.1, hq.2⟩

theorem offer_spec (task input batch : ℕ) :
    Triple (Ready {} (n + 1)) (offer task input batch) (fun _ => Inv {}) (fun _ => Inv {}) := by
  refine .read fun p h => ?_
  rcases hb : p.batches.get batch with - | b
  · exact stop_spec h.1 _
  simp only
  rcases ht : p.tasks.get task with - | t
  · exact stop_spec h.1 _
  simp only
  rcases hr : t.inputs[input]? with - | r
  · exact stop_spec h.1 _
  simp only
  rcases p.arena.handle b.object with - | held
  · exact stop_spec h.1 _
  refine .of_eq (P := Beside p {} (n + 1)) ?_ ⟨h, rfl, rfl⟩
  refine (blind_beside.call fun _ _ hq => hq.1.1).bind fun _ => ?_
  refine blind_beside.newHandle.bind fun share => ?_
  refine (blind_beside.push r.slot ⟨batch, share⟩).bind ?_
  rintro (e | -)
  · exact .throw fun _ hq => hq.1.1
  refine .update ?_
  rintro _ ⟨q, s, ⟨hq, hbatches, htasks⟩, hs, hended, rfl⟩
  refine (hq.1.pushShare ?_ (htasks ▸ ht) (mem_of_getElem? hr) rfl hs hended share).countShare
  rw [hbatches, hb]
  rfl

theorem finish_spec (task input : ℕ) :
    Triple (Ready {} n) (finish task input) (fun _ => Inv {}) (fun _ => Inv {}) := by
  refine .look fun p _ => ?_
  rcases p.tasks.get task with - | t
  · exact .throw fun _ h => h.1
  simp only
  rcases t.inputs[input]? with - | r
  · exact .throw fun _ h => h.1
  · exact (blind_ready.call fun _ _ h => h.1).post fun _ _ h => h.1

theorem grant_spec (task output bytes : ℕ) :
    Triple (fun p => Ready {} (n + 1) p ∧ p.arena.HasId) (grant task output bytes)
      (fun _ => Inv {}) (fun _ => Inv {}) := by
  unfold grant
  split
  · exact .throw fun _ h => h.1.1
  rename_i len _
  refine .read fun p h => ?_
  rcases ht : p.tasks.get task with - | t
  · exact stop_spec h.1.1 _
  simp only
  rcases hr : t.outputs[output]? with - | r
  · exact stop_spec h.1.1 _
  have htake := ((takeObject_spec len (n := n + 1)).and (takeObject_tasks len p.tasks)).of_eq
    ⟨h, rfl⟩
  refine (htake.error fun _ _ h => h.1.1).bind ?_
  rintro ⟨id, memory, size⟩
  have hblind : Blind fun q => (q.Ready { hand := one id } (n + 1) ∧ q.arena.bytes id = size) ∧
      q.tasks = p.tasks :=
    fun q calls hslots hq => ⟨⟨blind_ready q calls hslots hq.1.1, hq.1.2⟩, hq.2⟩
  refine (hblind.push r.slot ⟨id, memory⟩).bind ?_
  rintro (e | -)
  · refine .pre (P := Ready { hand := one id } (n + 1)) ?_ fun _ h => h.1.1
    refine (untake_spec (d := {}) id memory).bind fun _ => ?_
    exact .throw fun _ h => h.1
  · refine .update ?_
    rintro _ ⟨q, s, ⟨⟨hq, rfl⟩, htasks⟩, hs, hended, rfl⟩
    exact hq.1.pushWindow (htasks ▸ ht) (mem_of_getElem? hr) rfl hs hended memory

theorem dropBatch_spec (batch : ℕ) :
    Triple (Ready {} n) (dropBatch batch) (fun _ => Inv {}) (fun _ => Inv {}) := by
  refine .look fun p _ => ?_
  rcases p.batches.get batch with - | b
  · exact .throw fun _ h => h.1
  refine .ite (fun _ => ?_) fun _ => .throw fun _ h => h.1
  refine .bind (Q := fun _ => Ready { loose := some batch } n)
    (fun p h => ⟨h.1.dropHold batch, h.2⟩) fun _ => ?_
  exact (settle_spec batch).post fun _ _ h => h.1

theorem popEvent_spec {E : PlaneError → KernelPlane → Prop} :
    Triple (Ready d n) popEvent (fun _ => Ready d n) E := by
  intro p h
  unfold popEvent
  split
  · exact h
  · exact ⟨{ h.1 with covered := { h.1.covered with } }, h.2⟩

theorem nextLoop_spec (passes : ℕ) : Keeps n (nextLoop passes) := by
  induction passes with
  | zero => exact .skip
  | succ passes ih =>
    refine popEvent_spec.bind ?_
    rintro (- | e)
    · refine poll_spec.bind fun _ => popEvent_spec.bind ?_
      rintro (- | e)
      · refine .look fun p _ => ?_
        refine .ite (fun _ => .skip) fun _ => ?_
        exact (blind_ready.call fun _ _ h => h.1).bind fun _ => ih
      · exact .skip
    · exact .skip

theorem next_spec : Keeps n next := blind_ready.draw.bind fun _ => nextLoop_spec _

/-! ### Opening a task -/

/-- The records made so far for a task that is being opened: each names a slot of its
side, and the task's id is no other's. -/
structure Opening (n : ℕ) (recs : List (Bool × SlotRec)) (p : KernelPlane) : Prop where
  ready : p.Ready {} n
  free : p.tasks.get p.nextTask = none
  made : ∀ c ∈ recs, c.2.drained = false ∧
    ∃ s, p.calls.slots.get c.2.slot = some s ∧ s.output = c.1

variable {recs : List (Bool × SlotRec)}

theorem blind_opening : Blind (Opening n recs) := by
  rintro p ⟨_, _, _, _⟩ rfl h
  exact { h with ready := blind_ready p _ rfl h.ready }

/-- A new slot is empty, so no count changes. -/
theorem Ready.newSlot (h : p.Ready {} n) (output : Bool) :
    (p.setSlots (p.calls.slots.insert ⟨output, [], false⟩)).Ready {} n := by
  refine ⟨h.1.setSlots (h.1.covered.newSlot output) ?_, ?_⟩
  · funext side c
    refine (sum_insert _ _ _).trans ?_
    simp [KernelSlot.count, inSlots]
  · have hpending : (p.setSlots (p.calls.slots.insert ⟨output, [], false⟩)).pending = p.pending :=
      sum_insert _ _ _
    have hids := h.2
    unfold HasIds at *
    rw [hpending]
    exact hids

theorem slot_spec (output : Bool) :
    Triple (Opening n recs) (slot output) (fun i => Opening n (recs ++ [(output, ⟨i, false⟩)]))
      (fun _ => Inv {}) := by
  refine (blind_opening.call fun _ _ h => h.ready.1).bind fun _ => ?_
  intro p h
  refine ⟨h.ready.newSlot output, h.free, fun c hc => ?_⟩
  rcases mem_append.mp hc with hc | hc
  · obtain ⟨hopen, s, hs, hside⟩ := h.made c hc
    exact ⟨hopen, s, get_insert_of_some hs, hside⟩
  · rw [mem_singleton] at hc
    subst hc
    exact ⟨rfl, ⟨output, [], false⟩, get_insert_eq_some.mpr (.inl ⟨rfl, rfl⟩), rfl⟩

theorem newSlots_spec (output : Bool) (count : ℕ) : Triple (Opening n recs) (newSlots output count)
      (fun l => Opening n (recs ++ l.map fun r => (output, r))) (fun _ => Inv {}) := by
  induction count generalizing recs with
  | zero =>
    refine .pure fun p h => ?_
    rw [map_nil, append_nil]
    exact h
  | succ count ih =>
    refine (slot_spec output).bind fun i => ih.bind fun rest => .pure fun p h => ?_
    rw [map_cons, append_cons]
    exact h

theorem openTask_spec (shape : Shape) :
    Triple (fun p => p.Ready {} n ∧ p.tasks.get p.nextTask = none) (openTask shape)
      (fun _ => Inv {}) (fun _ => Inv {}) := by
  refine .ite (fun _ => .throw fun _ h => h.1.1) fun _ => ?_
  refine .read fun p h => ?_
  refine .of_eq (P := Opening n []) ?_ ⟨h.1, h.2, nofun⟩
  refine .ite (fun _ => .throw fun _ h => h.ready.1) fun _ => ?_
  refine (newSlots_spec false shape.inputs).bind fun inputs => ?_
  refine (newSlots_spec true shape.outputs).bind fun outputs => ?_
  refine .bind (Q := fun _ => Opening n
    ([] ++ inputs.map (fun r => (false, r)) ++ outputs.map fun r => (true, r))) ?_ fun _ => ?_
  · exact .ite (fun _ => blind_opening.call fun _ _ h => h.ready.1)
      fun _ => .skip
  intro p h
  have hcov := h.ready.1.covered.insertTask h.free
    (t := ⟨inputs, outputs, shape.port, false, false⟩) (fun output r hr => ?_)
    ((p.nextTask + 1) % 2 ^ 32)
  · exact { h.ready.1 with covered := hcov }
  · refine h.made (output, r) ?_
    rcases output with - | -
    · exact mem_append_left _ (mem_map.mpr ⟨r, hr, rfl⟩)
    · exact mem_append_right _ (mem_map.mpr ⟨r, hr, rfl⟩)

end KernelPlane

end Moruna.Plane
