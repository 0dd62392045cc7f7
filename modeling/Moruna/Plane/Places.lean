/-
Moruna/Plane/Places.lean

Where everything of the plane is.

Each small move of a call shifts one thing from one place to another, and between two
moves something is in the hands of the call.  `Debt` names what that is, `Inv d p` is the
invariant of the plane up to the debt `d`, and there is one lemma for each move: which
debt it takes on, or which one it settles.
-/
import Moruna.Plane.Engine

namespace Moruna.Plane

open OrdMap List

open Kernel (Error)
open Arena (one)

/-! ### What is in the slots -/

/-- How often `cookie` is in the slot, when the slot is of the side asked for. -/
def KernelSlot.count (s : KernelSlot) (output : Bool) (cookie : ℕ) : ℕ :=
  if s.output = output then (s.entries.map Entry.cookie).count cookie else 0

namespace KernelPlane

variable {p p' : KernelPlane}

/-- How often `cookie` is in the slots of one side. -/
def inSlots (p : KernelPlane) (output : Bool) (cookie : ℕ) : ℕ :=
  p.calls.slots.sum fun _ s => s.count output cookie

/-- How many batches object `o` is under. -/
def underBatches (p : KernelPlane) (o : ℕ) : ℕ := p.batches.sum fun _ b => one b.object o

variable {s : KernelSlot} {i id b : ℕ} {t : TaskRec} {r : SlotRec}
variable {side : Bool} {n o : ℕ} {e : Entry} {f : BatchRec → BatchRec}

theorem inSlots_pushed (h : p.calls.slots.get i = some s) (hside : s.output = side)
    (e : Entry) (output : Bool) : (p.pushed i e).inSlots output
      = p.inSlots output + if side = output then one e.cookie else 0 := by
  subst hside
  funext c
  have hsum := Registry.sum_modify h (fun s => { s with entries := s.entries ++ [e] })
    fun _ s => s.count output c
  refine Nat.add_right_cancel (m := s.count output c) (hsum.trans ?_)
  unfold inSlots
  simp only [Pi.add_apply, map_append, map_cons, map_nil, count_append,
    count_singleton, beq_iff_eq, KernelSlot.count]
  split
  · simp only [one, @eq_comm _ c]
    omega
  · rfl

theorem inSlots_removed (h : p.calls.slots.get i = some s)
    (he : s.entries[n]? = some e) (hside : s.output = side) (output : Bool) :
    (p.removed i n).inSlots output + (if side = output then one e.cookie else 0)
      = p.inSlots output := by
  subst hside
  funext c
  have hsum := Registry.sum_modify h (fun s => { s with entries := s.entries.eraseIdx n })
    fun _ s => s.count output c
  have hcount : (if s.output = output then one e.cookie else 0) c
      + ({ s with entries := s.entries.eraseIdx n } : KernelSlot).count output c
      = s.count output c := by
    obtain ⟨hn, rfl⟩ := List.getElem?_eq_some_iff.mp he
    unfold KernelSlot.count
    simp only
    split
    · rw [← ((getElem_cons_eraseIdx_perm hn).map Entry.cookie).count_eq c, map_cons, count_cons]
      simp only [one, beq_iff_eq, @eq_comm _ c]
      omega
    · rfl
  show (p.removed i n).inSlots output c + _ = p.inSlots output c
  unfold inSlots removed setSlots at *
  simp only at hsum ⊢
  omega

theorem pending_removed (h : p.calls.slots.get i = some s)
    (he : s.entries[n]? = some e) : (p.removed i n).pending + 1 = p.pending := by
  have hsum := Registry.sum_modify h (fun s => { s with entries := s.entries.eraseIdx n })
    fun _ s => s.entries.length
  obtain ⟨hn, -⟩ := List.getElem?_eq_some_iff.mp he
  rw [length_eraseIdx_of_lt hn] at hsum
  unfold pending removed setSlots
  simp only
  omega

/-! ### The tasks' slots -/

/-- The tasks have the slots that hold anything: every record of a task names a slot of
its side, with nothing in it once it is drained, and what a slot holds is in a slot that
some task still polls. -/
structure Covered (p : KernelPlane) : Prop where
  recs : ∀ id t, p.tasks.get id = some t → ∀ output, ∀ r ∈ t.recs output,
    ∃ s, p.calls.slots.get r.slot = some s ∧ s.output = output ∧
      (r.drained = true → s.ended = true ∧ s.entries = [])
  polled : ∀ i s, p.calls.slots.get i = some s → s.entries ≠ [] →
    ∃ id t output, p.tasks.get id = some t ∧
      ∃ r ∈ t.recs output, r.slot = i ∧ r.drained = false

variable (h : p.Covered)

include h

/-- The slot of a task that has not told of the task's end takes one entry more. -/
theorem Covered.pushed {output : Bool} (ht : p.tasks.get id = some t)
    (hr : r ∈ t.recs output) (hi : r.slot = i) (hs : p.calls.slots.get i = some s)
    (hended : s.ended = false) (e : Entry) : (p.pushed i e).Covered where
  recs id' t' ht' output' r' hr' := by
    obtain ⟨s', hs', hside, hdrained⟩ := h.recs id' t' ht' output' r' hr'
    rcases eq_or_ne r'.slot i with heq | hne
    · rw [heq] at hs' ⊢
      rw [hs] at hs'
      cases hs'
      refine ⟨{ s with entries := s.entries ++ [e] }, ?_, hside, fun hd => ?_⟩
      · exact Registry.get_modify_eq_some.mpr (.inr ⟨rfl, s, hs, rfl⟩)
      · rw [(hdrained hd).1] at hended
        cases hended
    · exact ⟨s', Registry.get_modify_eq_some.mpr (.inl ⟨hne, hs'⟩), hside, hdrained⟩
  polled j s' hs' hne := by
    rcases Registry.get_modify_eq_some.mp hs' with ⟨-, hs'⟩ | ⟨rfl, s'', hs'', rfl⟩
    · exact h.polled j s' hs' hne
    refine ⟨id, t, output, ht, r, hr, hi, ?_⟩
    obtain ⟨s₁, hs₁, -, hdrained⟩ := h.recs id t ht output r hr
    rw [hi, hs] at hs₁
    cases hs₁
    refine Bool.eq_false_iff.mpr fun hd => ?_
    rw [(hdrained hd).1] at hended
    cases hended

/-- A change of a slot that neither adds entries nor takes its end back. -/
theorem Covered.modify (i : ℕ) {f : KernelSlot → KernelSlot}
    (hf : ∀ s, p.calls.slots.get i = some s → (f s).output = s.output ∧
      (s.ended = true → (f s).ended = true) ∧ ((f s).entries ≠ [] → s.entries ≠ [])) :
    (p.setSlots (p.calls.slots.modify i f)).Covered where
  recs id t ht output r hr := by
    obtain ⟨s, hs, hside, hdrained⟩ := h.recs id t ht output r hr
    rcases eq_or_ne r.slot i with heq | hne
    · rw [heq] at hs ⊢
      obtain ⟨h1, h2, h3⟩ := hf s hs
      refine ⟨f s, Registry.get_modify_eq_some.mpr (.inr ⟨rfl, s, hs, rfl⟩), h1.trans hside, ?_⟩
      intro hd
      obtain ⟨he, hnil⟩ := hdrained hd
      exact ⟨h2 he, not_not.mp fun hne => h3 hne hnil⟩
    · exact ⟨s, Registry.get_modify_eq_some.mpr (.inl ⟨hne, hs⟩), hside, hdrained⟩
  polled j s' hs' hne := by
    rcases Registry.get_modify_eq_some.mp hs' with ⟨-, hs'⟩ | ⟨rfl, s, hs, rfl⟩
    · exact h.polled j s' hs' hne
    · exact h.polled j s hs ((hf s hs).2.2 hne)

theorem Covered.newSlot (output : Bool) :
    (p.setSlots (p.calls.slots.insert ⟨output, [], false⟩)).Covered where
  recs id t ht side r hr := by
    obtain ⟨s, hs, hside⟩ := h.recs id t ht side r hr
    exact ⟨s, Registry.get_insert_of_some hs, hside⟩
  polled j s hs hne := by
    rcases Registry.get_insert_eq_some.mp hs with ⟨-, rfl⟩ | hs
    · exact absurd rfl hne
    · exact h.polled j s hs hne

/-- A task's record changes: a record of it that holds something stays polled. -/
theorem Covered.modifyTask (id : ℕ) {f : TaskRec → TaskRec}
    (hf : ∀ t, p.tasks.get id = some t → ∀ output,
      (∀ r ∈ (f t).recs output, ∃ s, p.calls.slots.get r.slot = some s ∧ s.output = output ∧
        (r.drained = true → s.ended = true ∧ s.entries = [])) ∧
      (∀ r ∈ t.recs output, r.drained = false → r ∈ (f t).recs output ∨
        ∀ s, p.calls.slots.get r.slot = some s → s.entries = [])) :
    ({ p with tasks := p.tasks.modify id f } : KernelPlane).Covered where
  recs id' t' ht' output r hr := by
    rcases get_modify_eq_some.mp ht' with ⟨-, ht'⟩ | ⟨rfl, t, ht, rfl⟩
    · exact h.recs id' t' ht' output r hr
    · exact (hf t ht output).1 r hr
  polled j s hs hne := by
    obtain ⟨id', t', output, ht', r, hr, hj, hd⟩ := h.polled j s hs hne
    rcases eq_or_ne id' id with rfl | hid
    · rcases (hf t' ht' output).2 r hr hd with hr' | hnil
      · refine ⟨id', f t', output, ?_, r, hr', hj, hd⟩
        exact get_modify_eq_some.mpr (.inr ⟨rfl, t', ht', rfl⟩)
      · exact absurd (hnil s (hj ▸ hs)) hne
    · exact ⟨id', t', output, get_modify_eq_some.mpr (.inl ⟨hid, ht'⟩), r, hr, hj, hd⟩

theorem Covered.eraseTask (ht : p.tasks.get id = some t)
    (hd : t.allDrained = true) : ({ p with tasks := p.tasks.erase id } : KernelPlane).Covered where
  recs id' t' ht' := h.recs id' t' (get_erase_eq_some.mp ht').2
  polled j s hs hne := by
    obtain ⟨id', t', output, ht', r, hr, hj, hopen⟩ := h.polled j s hs hne
    refine ⟨id', t', output, get_erase_eq_some.mpr ⟨?_, ht'⟩, r, hr, hj, hopen⟩
    rintro rfl
    rw [ht] at ht'
    cases ht'
    -- an open slot of a task that has none
    have hmem : r ∈ t.openSlots := by
      refine List.mem_filter.mpr ⟨?_, by simp [hopen]⟩
      unfold TaskRec.recs at hr
      split at hr
      · exact List.mem_append_right _ hr
      · exact List.mem_append_left _ hr
    unfold TaskRec.allDrained at hd
    rw [Bool.and_eq_true, List.isEmpty_iff] at hd
    rw [hd.1] at hmem
    cases hmem

/-- A new task, under an id no task has. -/
theorem Covered.insertTask (hid : p.tasks.get id = none)
    (ht : ∀ output, ∀ r ∈ t.recs output, r.drained = false ∧ ∃ s,
      p.calls.slots.get r.slot = some s ∧ s.output = output)
    (n : ℕ) : ({ p with nextTask := n, tasks := p.tasks.insert id t } : KernelPlane).Covered where
  recs id' t' ht' output r hr := by
    rcases get_insert_eq_some.mp ht' with ⟨-, rfl⟩ | ⟨-, ht'⟩
    · obtain ⟨hopen, s, hs, hside⟩ := ht output r hr
      exact ⟨s, hs, hside, fun hd => absurd hd (by simp [hopen])⟩
    · exact h.recs id' t' ht' output r hr
  polled j s hs hne := by
    obtain ⟨id', t', output, ht', hrest⟩ := h.polled j s hs hne
    refine ⟨id', t', output, get_insert_eq_some.mpr (.inr ⟨?_, ht'⟩), hrest⟩
    rintro rfl
    rw [hid] at ht'
    cases ht'

/-! ### The invariant, up to a debt -/

omit h

/-- What a call has in its hands between two moves. -/
structure Debt where
  /-- Objects held by the engine under no batch. -/
  kept : ℕ → ℕ := 0
  /-- Objects whose handle the call has. -/
  hand : ℕ → ℕ := 0
  /-- Bytes of windows that are back and still counted. -/
  bytes : ℕ := 0
  /-- Shares that are back and still counted. -/
  due : ℕ → ℕ := 0
  /-- Shares given and not yet counted. -/
  owed : ℕ → ℕ := 0
  /-- A batch that may have lost its last holder. -/
  loose : Option ℕ := none
  /-- Batches gone and not yet told of. -/
  gone : ℕ → ℕ := 0

/-- Every object is in one place, every count is the number of what it counts, and every
batch given out is either there, with a holder, or was told freed, once. -/
structure Inv (d : Debt) (p : KernelPlane) : Prop where
  arena : p.arena.Inv (p.underBatches + d.kept) (p.inSlots true) d.hand (p.windows - d.bytes)
  windows : d.bytes ≤ p.windows
  shares : ∀ b r, p.batches.get b = some r → r.shares + d.owed b = p.inSlots false b + d.due b
  shared : ∀ b, 0 < p.inSlots false b + d.due b → (p.batches.get b).isSome
  holders : ∀ b r, p.batches.get b = some r → d.loose ≠ some b → 0 < r.shares ∨ r.held
  told : ∀ b, p.log.count (.freed b) + (if (p.batches.get b).isSome then 1 else 0) + d.gone b
    = if 1 ≤ b ∧ b < p.nextBatch then 1 else 0
  counter : 1 ≤ p.nextBatch
  covered : p.Covered

variable {d : Debt}

theorem new_inv (answers : ℕ → Answer) (budget : ℕ) : (new answers budget).Inv {} where
  arena := Arena.new_inv budget
  windows := le_rfl
  shares _ _ h := by cases h
  shared _ h := absurd h (lt_irrefl 0)
  holders _ _ h := by cases h
  told b := by
    show 0 = if 1 ≤ b ∧ b < 1 then 1 else 0
    rw [if_neg (by omega)]
  counter := le_rfl
  covered := ⟨nofun, nofun⟩

theorem Inv.tell (h : p.Inv d) {e : Event} (he : ∀ b, e ≠ .freed b) : (p.told e).Inv d := by
  refine { h with told := fun b => ?_, covered := { h.covered with } }
  have hcount : (p.log ++ [e]).count (.freed b) = p.log.count (.freed b) := by
    simp [he b]
  show (p.log ++ [e]).count (.freed b) + _ + _ = _
  rw [hcount]
  exact h.told b

/-- The engine is told of a batch that has gone. -/
theorem Inv.tellFreed (h : p.Inv { gone := one b }) : (p.told (.freed b)).Inv {} := by
  refine { h with told := fun c => ?_, covered := { h.covered with } }
  have hcount : (p.log ++ [Event.freed b]).count (.freed c) = p.log.count (.freed c) + one b c := by
    rw [count_append, count_singleton]
    simp only [one, beq_iff_eq, Event.freed.injEq, @eq_comm _ c]
  show (p.log ++ [Event.freed b]).count (.freed c) + _ + 0 = _
  rw [hcount, add_zero, add_right_comm]
  exact h.told c

/-- The counter's next id is no batch's. -/
theorem Inv.nextBatch_free (h : p.Inv d) : p.batches.get p.nextBatch = none := by
  have := h.told p.nextBatch
  rw [if_neg (show ¬ (1 ≤ p.nextBatch ∧ p.nextBatch < p.nextBatch) by omega)] at this
  by_contra hsome
  rw [if_pos (Option.isSome_iff_ne_none.mpr hsome)] at this
  omega

/-- An object the engine holds becomes a batch. -/
theorem Inv.batched (h : p.Inv { kept := one o }) (hids : p.nextBatch + 1 < 2 ^ 64)
    (offset len : ℕ) : (p.batched o offset len).Inv {} := by
  have hnone := h.nextBatch_free
  have hnext : (p.batched o offset len).nextBatch = p.nextBatch + 1 := Nat.mod_eq_of_lt hids
  have hget : ∀ b, (p.batched o offset len).batches.get b
      = if b = p.nextBatch then some ⟨o, offset, len, 0, true⟩ else p.batches.get b :=
    get_insert _ _ _
  have hunder : (p.batched o offset len).underBatches = p.underBatches + one o := by
    funext k
    exact sum_insert_of_none hnone _ _
  have hshared : p.inSlots false p.nextBatch = 0 := by
    by_contra hpos
    have := h.shared p.nextBatch (pos_of_ne_zero hpos)
    rw [hnone] at this
    cases this
  refine ⟨?_, h.windows, fun b r hb => ?_, fun b hb => ?_, fun b r hb _ => ?_, fun b => ?_, ?_,
    h.covered.1, h.covered.2⟩
  · rw [hunder]
    exact h.arena
  · rw [hget] at hb
    split at hb
    · rename_i heq
      cases hb
      rw [heq]
      exact hshared.symm
    · exact h.shares b r hb
  · rw [hget]
    split
    · rfl
    · exact h.shared b hb
  · rw [hget] at hb
    split at hb
    · cases hb
      exact .inr rfl
    · exact h.holders b r hb nofun
  · have htold := h.told b
    rw [hget, hnext]
    rcases eq_or_ne b p.nextBatch with rfl | hne
    · rw [if_neg (show ¬ (1 ≤ p.nextBatch ∧ p.nextBatch < p.nextBatch) by omega)] at htold
      have hzero : p.log.count (.freed p.nextBatch) = 0 := by omega
      rw [if_pos rfl,
        if_pos (show 1 ≤ p.nextBatch ∧ p.nextBatch < p.nextBatch + 1 from
          ⟨h.counter, Nat.lt_succ_self _⟩)]
      exact congrArg (· + 1) hzero
    · rw [if_neg hne]
      refine htold.trans (if_congr (and_congr_right fun _ => ?_) rfl rfl)
      omega
  · omega

/-- A slot is of the side of the record that names it. -/
theorem Covered.output_eq (h : p.Covered) (ht : p.tasks.get id = some t)
    (hr : r ∈ t.recs side) (hi : r.slot = i) (hs : p.calls.slots.get i = some s) :
    s.output = side := by
  obtain ⟨s', hs', hside, -⟩ := h.recs id t ht side r hr
  rw [hi, hs] at hs'
  cases hs'
  exact hside

/-! ### Windows -/

/-- A window that the call has goes into an output slot, and its bytes are counted. -/
theorem Inv.pushWindow (h : p.Inv { hand := one o }) (ht : p.tasks.get id = some t)
    (hr : r ∈ t.outputs) (hi : r.slot = i) (hs : p.calls.slots.get i = some s)
    (hended : s.ended = false) (memory : ℕ) :
    ({ p.pushed i ⟨o, memory⟩ with windows := p.windows + p.arena.bytes o } : KernelPlane).Inv
      {} := by
  have hr' : r ∈ t.recs true := hr
  have hin := inSlots_pushed hs (h.covered.output_eq ht hr' hi hs) ⟨o, memory⟩
  have hcov := h.covered.pushed ht hr' hi hs hended ⟨o, memory⟩
  have harena : p.arena.Inv (p.underBatches + 0) (p.inSlots true) (0 + one o) p.windows := by
    rw [zero_add]
    exact h.arena
  refine ⟨?_, Nat.zero_le _, fun b r hb => ?_, fun b hb => ?_, h.holders, h.told, h.counter,
    hcov.1, hcov.2⟩
  · show p.arena.Inv (p.underBatches + 0) ((p.pushed i ⟨o, memory⟩).inSlots true) 0 _
    rw [hin]
    exact harena.lend
  · show r.shares + 0 = (p.pushed i ⟨o, memory⟩).inSlots false b + 0
    rw [hin]
    exact h.shares b r hb
  · refine h.shared b ?_
    have hb' : 0 < (p.pushed i ⟨o, memory⟩).inSlots false b + 0 := hb
    rw [hin] at hb'
    exact hb'

/-- What an output slot gives back is in the hands of the call, its bytes still counted. -/
theorem Inv.takeWindow (h : p.Inv {}) (hs : p.calls.slots.get i = some s)
    (he : s.entries[n]? = some e) (hside : s.output = true) :
    (p.removed i n).Inv { hand := one e.cookie, bytes := p.arena.bytes e.cookie } := by
  have hin := inSlots_removed hs he hside
  have hfalse : (p.removed i n).inSlots false = p.inSlots false := hin false
  have harena := h.arena
  rw [← hin true] at harena
  obtain ⟨hback, hle⟩ := harena.unlend
  have hcov : (p.removed i n).Covered := h.covered.modify i fun s' _ =>
    ⟨rfl, id, fun hne hnil => hne (by rw [hnil]; rfl)⟩
  refine ⟨?_, hle, fun b r hb => ?_, fun b hb => ?_, h.holders, h.told, h.counter, hcov.1, hcov.2⟩
  · rw [zero_add] at hback
    exact hback
  · rw [hfalse]
    exact h.shares b r hb
  · rw [hfalse] at hb
    exact h.shared b hb

theorem Inv.windowBack (h : p.Inv { d with bytes := n }) :
    ({ p with windows := p.windows - n } : KernelPlane).Inv { d with bytes := 0 } :=
  { h with windows := Nat.zero_le _, covered := { h.covered with } }

/-- The slots change, and hold what they held. -/
theorem Inv.setSlots (h : p.Inv d) {slots : Registry KernelSlot} (hcov : (p.setSlots slots).Covered)
    (hin : (p.setSlots slots).inSlots = p.inSlots) : (p.setSlots slots).Inv d := by
  refine ⟨?_, h.windows, fun b r hb => ?_, fun b hb => ?_, h.holders, h.told, h.counter, hcov⟩
  · rw [hin]
    exact h.arena
  · rw [hin]
    exact h.shares b r hb
  · rw [hin] at hb
    exact h.shared b hb

/-- A slot tells the end of its task. -/
theorem Inv.endSlot (h : p.Inv d) (i : ℕ) :
    (p.setSlots (p.calls.slots.modify i fun s => { s with ended := true })).Inv d := by
  refine h.setSlots (h.covered.modify i fun s _ => ⟨rfl, fun _ => rfl, fun hne => hne⟩) ?_
  funext output c
  exact Registry.sum_modify_of_eq fun _ => rfl

/-! ### Shares -/

/-- A batch pushed into an input slot has a share that is not counted yet. -/
theorem Inv.pushShare (h : p.Inv {}) (hb : (p.batches.get b).isSome) (ht : p.tasks.get id = some t)
    (hr : r ∈ t.inputs) (hi : r.slot = i) (hs : p.calls.slots.get i = some s)
    (hended : s.ended = false) (memory : ℕ) : (p.pushed i ⟨b, memory⟩).Inv { owed := one b } := by
  have hr' : r ∈ t.recs false := hr
  have hin := inSlots_pushed hs (h.covered.output_eq ht hr' hi hs) ⟨b, memory⟩
  have hcov := h.covered.pushed ht hr' hi hs hended ⟨b, memory⟩
  have htrue : (p.pushed i ⟨b, memory⟩).inSlots true = p.inSlots true := hin true
  have hfalse : (p.pushed i ⟨b, memory⟩).inSlots false = p.inSlots false + one b := hin false
  refine ⟨?_, h.windows, fun c r hc => ?_, fun c hc => ?_, h.holders, h.told, h.counter,
    hcov.1, hcov.2⟩
  · rw [htrue]
    exact h.arena
  · rw [hfalse]
    exact congrArg (· + one b c) (h.shares c r hc)
  rcases eq_or_ne c b with rfl | hne
  · exact hb
  · refine h.shared c ?_
    rw [hfalse] at hc
    have hc' : 0 < p.inSlots false c + one b c + 0 := hc
    rwa [Arena.one_of_ne hne] at hc'

/-- What an input slot gives back is a share still counted. -/
theorem Inv.takeShare (h : p.Inv {}) (hs : p.calls.slots.get i = some s)
    (he : s.entries[n]? = some e) (hside : s.output = false) :
    (p.removed i n).Inv { due := one e.cookie } := by
  have hin := inSlots_removed hs he hside
  have htrue : (p.removed i n).inSlots true = p.inSlots true := hin true
  have hfalse : ∀ b, (p.removed i n).inSlots false b + one e.cookie b = p.inSlots false b :=
    fun b => congrFun (hin false) b
  have hcov : (p.removed i n).Covered := h.covered.modify i fun s' _ =>
    ⟨rfl, id, fun hne hnil => hne (by rw [hnil]; rfl)⟩
  refine ⟨?_, h.windows, fun b r hb => ?_, fun b hb => ?_, h.holders, h.told, h.counter,
    hcov.1, hcov.2⟩
  · rw [htrue]
    exact h.arena
  · exact (h.shares b r hb).trans (hfalse b).symm
  · refine h.shared b ?_
    rw [← hfalse b]
    exact hb

/-- A change of a batch that leaves its object where it is. -/
theorem underBatches_modify (b : ℕ) (hf : ∀ r, (f r).object = r.object) :
    ({ p with batches := p.batches.modify b f } : KernelPlane).underBatches = p.underBatches := by
  funext o
  exact sum_modify_of_eq fun r => by rw [hf]

/-- A batch's record changes, its object and its being there apart. -/
theorem Inv.modifyBatch {d d' : Debt} (h : p.Inv d) (b : ℕ)
    (hf : ∀ r, (f r).object = r.object) (hkept : d'.kept = d.kept) (hhand : d'.hand = d.hand)
    (hbytes : d'.bytes = d.bytes) (hgone : d'.gone = d.gone)
    (hdue : ∀ c, 0 < p.inSlots false c + d'.due c → 0 < p.inSlots false c + d.due c)
    (hshares : ∀ c r, p.batches.get c = some r →
      (if c = b then f r else r).shares + d'.owed c = p.inSlots false c + d'.due c)
    (hholders : ∀ c r, p.batches.get c = some r → d'.loose ≠ some c →
      0 < (if c = b then f r else r).shares ∨ (if c = b then f r else r).held) :
    ({ p with batches := p.batches.modify b f } : KernelPlane).Inv d' := by
  have hget : ∀ c r, (p.batches.modify b f).get c = some r →
      ∃ r', p.batches.get c = some r' ∧ r = if c = b then f r' else r' := by
    intro c r hc
    rcases get_modify_eq_some.mp hc with ⟨hne, hc⟩ | ⟨rfl, r', hr', rfl⟩
    · exact ⟨r, hc, (if_neg hne).symm⟩
    · exact ⟨r', hr', (if_pos rfl).symm⟩
  refine ⟨?_, ?_, fun c r hc => ?_, fun c hc => ?_, fun c r hc hl => ?_, fun c => ?_, h.counter,
    h.covered.1, h.covered.2⟩
  · rw [underBatches_modify b hf, hkept, hhand, hbytes]
    exact h.arena
  · rw [hbytes]
    exact h.windows
  · obtain ⟨r', hr', rfl⟩ := hget c r hc
    exact hshares c r' hr'
  · exact get_modify_isSome.trans (h.shared c (hdue c hc))
  · obtain ⟨r', hr', rfl⟩ := hget c r hc
    exact hholders c r' hr' hl
  · show _ + (if ((p.batches.modify b f).get c).isSome then 1 else 0) + _ = _
    rw [get_modify_isSome, hgone]
    exact h.told c

/-- A share that was given is counted. -/
theorem Inv.countShare (h : p.Inv { owed := one b }) :
    ({ p with batches := p.batches.modify b fun r => { r with shares := r.shares + 1 } } :
      KernelPlane).Inv {} := by
  refine h.modifyBatch b (fun _ => rfl) rfl rfl rfl rfl (fun _ hc => hc) (fun c r hc => ?_)
    fun c r hc hl => ?_
  · have := h.shares c r hc
    rcases eq_or_ne c b with rfl | hne
    · simpa using this
    · rw [if_neg hne]
      simpa [Arena.one_of_ne hne] using this
  · rcases eq_or_ne c b with rfl | hne
    · rw [if_pos rfl]
      exact .inl (Nat.succ_pos _)
    · rw [if_neg hne]
      exact h.holders c r hc nofun

/-- A share that is back is no longer counted; the batch may have no holder left. -/
theorem Inv.shareBack (h : p.Inv { due := one b }) :
    ({ p with batches := p.batches.modify b fun r => { r with shares := r.shares - 1 } } :
      KernelPlane).Inv { loose := some b } := by
  refine h.modifyBatch b (fun _ => rfl) rfl rfl rfl rfl
    (fun c hc => Nat.lt_of_lt_of_le hc (Nat.le_add_right _ _)) (fun c r hc => ?_)
    fun c r hc hl => ?_
  · have := h.shares c r hc
    rcases eq_or_ne c b with rfl | hne
    · simp at this ⊢
      omega
    · rw [if_neg hne]
      simpa [Arena.one_of_ne hne] using this
  · have hne : c ≠ b := fun heq => hl (by rw [heq])
    rw [if_neg hne]
    exact h.holders c r hc nofun

theorem Inv.dropHold (h : p.Inv {}) (b : ℕ) :
    ({ p with batches := p.batches.modify b fun r => { r with held := false } } :
      KernelPlane).Inv { loose := some b } := by
  refine h.modifyBatch b (fun _ => rfl) rfl rfl rfl rfl (fun _ hc => hc) (fun c r hc => ?_)
    fun c r hc hl => ?_
  · rw [show (if c = b then { r with held := false } else r).shares = r.shares by split <;> rfl]
    exact h.shares c r hc
  · have hne : c ≠ b := fun heq => hl (by rw [heq])
    rw [if_neg hne]
    exact h.holders c r hc nofun

/-- A batch that has a holder after all. -/
theorem Inv.tight (h : p.Inv { loose := some b })
    (hb : ∀ r, p.batches.get b = some r → 0 < r.shares ∨ r.held) : p.Inv {} := by
  refine { h with holders := fun c r hc _ => ?_ }
  rcases eq_or_ne c b with rfl | hne
  · exact hb r hc
  · exact h.holders c r hc fun heq => hne (Option.some.inj heq).symm

/-- A batch without a holder goes, and its object is the engine's. -/
theorem Inv.eraseBatch {r : BatchRec} (h : p.Inv { loose := some b })
    (hb : p.batches.get b = some r) (hdead : ¬ (0 < r.shares ∨ r.held)) :
    ({ p with batches := p.batches.erase b } : KernelPlane).Inv
      { kept := one r.object, gone := one b } := by
  have hunder : ({ p with batches := p.batches.erase b } : KernelPlane).underBatches + one r.object
      = p.underBatches := by
    funext o
    exact sum_erase hb fun _ r => one r.object o
  have hget : ∀ c, (p.batches.erase b).get c = if c = b then none else p.batches.get c :=
    get_erase _ _
  refine ⟨?_, h.windows, fun c r' hc => ?_, fun c hc => ?_, fun c r' hc _ => ?_, fun c => ?_,
    h.counter, h.covered.1, h.covered.2⟩
  · show p.arena.Inv (_ + one r.object) _ _ _
    rw [hunder]
    exact h.arena
  · exact h.shares c r' (get_erase_eq_some.mp hc).2
  · have hsome := h.shared c hc
    show ((p.batches.erase b).get c).isSome
    rw [hget, if_neg ?_]
    · exact hsome
    rintro rfl
    -- a share in a slot would be counted
    have hshares := h.shares c r hb
    have hc' : 0 < p.inSlots false c + 0 := hc
    have hshares' : r.shares + 0 = p.inSlots false c + 0 := hshares
    exact hdead (.inl (by omega))
  · obtain ⟨hne, hc⟩ := get_erase_eq_some.mp hc
    exact h.holders c r' hc fun heq => hne (Option.some.inj heq).symm
  · have htold := h.told c
    show _ + (if ((p.batches.erase b).get c).isSome then 1 else 0) + one b c = _
    rw [hget]
    rcases eq_or_ne c b with rfl | hne
    · rw [hb] at htold
      rw [if_pos rfl, Arena.one_self]
      exact htold
    · rw [if_neg hne, Arena.one_of_ne hne]
      exact htold

end KernelPlane

end Moruna.Plane
