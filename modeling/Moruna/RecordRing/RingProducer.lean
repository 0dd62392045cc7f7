/-
Moruna/RecordRing/RingProducer.lean

The invariant of the ring and the producers' steps.  The invariant says what each slot holds
at its stage, what each producer knows of the slot it works on, what the consumer knows of
the oldest slot, and how the counters and the popped records follow from the slots claimed.

A producer's step touches only the slot it claimed and has not settled; a consumer's step
only the oldest slot, which is settled or whose producer is gone.  So every invariant is
carried by three changes of the slots (a store, a claim, a release) and by the steps that
change registers only.
-/
import Moruna.RecordRing.RingInv

namespace Moruna.RecordRing

open List Function

/-! ### What the slots hold -/

/-- The state word of a slot once settled. -/
def Slot.stateWord (x : Slot) : UInt32 := if x.record.isSome then READY else PADDING

/-- What a slot holds at its stage. -/
def Slot.Holds (x : Slot) : Prop :=
  match x.stage with
  | .claimed => x.bytes = List.replicate x.size 0
  | .sized => ∃ data, x.bytes = wordBytes (lenWord x.len) ++ (wordBytes WRITING ++ data)
  | .settled => ∃ data, x.bytes = wordBytes (lenWord x.len) ++ (wordBytes x.stateWord ++ data) ∧
      ∀ r, x.record = some r → data.take x.len = r

def Slot.published (x : Slot) : Option Bytes := if x.stage = .settled then x.record else none

/-- What a producer knows of the slot it works on, and of `read`. -/
def Producer.Ok (slots : List Slot) (read i : ℕ) : Producer → Prop
  | .won job pos => ∃ x ∈ slots, x.pos = pos ∧ x.owner = i ∧ x.stage = .claimed ∧
      x.len = job.len ∧ x.record = some job.record
  | .padWon _ pos tail => ∃ x ∈ slots, x.pos = pos ∧ x.owner = i ∧ x.stage = .claimed ∧
      x.len = tail - SLOT_HEAD ∧ x.record = none
  | .padded _ pos tail => ∃ x ∈ slots, x.pos = pos ∧ x.owner = i ∧ x.stage = .sized ∧
      x.len = tail - SLOT_HEAD ∧ x.record = none
  | .writing job pos todo => ∃ x ∈ slots, x.pos = pos ∧ x.owner = i ∧ x.stage = .sized ∧
      x.len = job.len ∧ x.record = some job.record ∧ (∀ w ∈ todo, w.1 < job.len) ∧
      Job.copy ((x.bytes.drop SLOT_HEAD).take x.len) todo = job.record
  | .sawRead _ read' => read' ≤ read
  | .sawBoth _ read' _ => read' ≤ read
  | _ => True

/-- A push that has not yet claimed its slot or been refused. -/
def Producer.undecided : Producer → Bool
  | .idle | .won .. | .writing .. | .dead => false
  | _ => true

/-- The position of the slot the producer works on. -/
def Producer.slotAt : Producer → Option ℕ
  | .won _ pos | .padWon _ pos _ | .padded _ pos _ | .writing _ pos _ => some pos
  | _ => none

/-- Between the reservation and the length store. -/
def Producer.unsized : Producer → Bool
  | .won .. | .padWon .. => true
  | _ => false

/-- The consumer holds a reading of a slot still being written. -/
def Phase.unsettled : Phase → Bool
  | .sawState state => state == WRITING
  | .sawWord state _ => state == WRITING
  | .asking .. => true
  | _ => false

def Phase.releasing : Phase → Bool
  | .zeroing .. => true
  | _ => false

/-- What the consumer knows of the oldest slot from the words it loaded: it is settled, or,
if its producer is gone, it is not and the words are still its words. -/
def Saw (slots : List Slot) (dead : ℕ → Prop) (state : UInt32) (word : Option UInt32) : Prop :=
  (∃ x, slots.head? = some x ∧ x.stage = .settled ∧ state = x.stateWord ∧
    ∀ w, word = some w → w = lenWord x.len) ∨
  (state = WRITING ∧ ∀ x, slots.head? = some x → dead x.owner → x.stage = .sized ∧
    ∀ w, word = some w → w = lenWord x.len)

/-- What the consumer knows in each phase. -/
def Phase.Ok (slots : List Slot) (dead : ℕ → Prop) (held : Option ℕ) : Phase → Prop
  | .idle => ∀ size, held = some size → ∃ x, slots.head? = some x ∧ size = x.size ∧
      x.stage = .settled ∧ x.record.isSome
  | .zeroing size done => held = none ∧ ∃ x, slots.head? = some x ∧ size = x.size ∧
      done ≤ size ∧ x.bytes.take done = List.replicate done 0 ∧
      (x.stage = .settled ∨ x.stage = .sized ∧ dead x.owner)
  | .look => held = none
  | .sawState state => held = none ∧ Saw slots dead state none
  | .sawWord state word => held = none ∧ Saw slots dead state (some word)
  | .asking word _ => held = none ∧ Saw slots dead WRITING (some word)
  | .settling state word size => held = none ∧ ∃ x, slots.head? = some x ∧ size = x.size ∧
      word = lenWord x.len ∧ (x.stage = .settled ∧ state = x.stateWord ∨
        state = WRITING ∧ x.stage = .sized ∧ dead x.owner)

/-- The slots no zeroing has begun on. -/
def State.live (s : State) : List Slot :=
  if s.consumer.phase.releasing then s.past.slots.tail else s.past.slots

/-- The slots whose record, if any, the consumer has returned. -/
def State.returned (s : State) : List Slot :=
  s.past.gone ++ if s.consumer.held.isSome || s.consumer.phase.releasing
    then s.past.slots.take 1 else []

def State.Dead (s : State) (i : ℕ) : Prop := s.producers i = .dead

structure Inv (c : Capacity) (s : State) : Prop where
  layout : Layout c s.mem s.past.slots s.read s.reserve
  pos : s.consumer.pos = s.read
  fault : s.consumer.fault = none
  holds : ∀ x ∈ s.live, x.Holds
  owned : ∀ i, (s.producers i).Ok s.past.slots s.read i
  consumer : s.consumer.phase.Ok s.past.slots s.Dead s.consumer.held
  sized : ∀ x ∈ s.past.slots, s.Dead x.owner → x.stage ≠ .claimed
  attended : ∀ x ∈ s.past.slots, x.stage ≠ .settled →
    (s.producers x.owner).slotAt = some x.pos ∨ s.Dead x.owner
  gone : ∀ x ∈ s.past.gone, x.stage = .settled ∨ s.Dead x.owner
  popped : s.past.popped = s.returned.filterMap Slot.published
  claims : (s.past.gone ++ s.past.slots).filterMap Slot.record
    = s.past.log.filterMap Event.record?
  dropped : s.dropped = (s.past.log.filter fun e => e.record?.isNone).length
  begun : ∀ i, s.producers i ≠ .dead → s.past.begun i
    = (s.past.log.filter fun e => e.owner = i).length
      + if (s.producers i).undecided then 1 else 0

theorem inv_init (c : Capacity) : Inv c init where
  layout := ⟨rfl, by simp [init], by simp [init], by simp [init], by simp [init], by simp [init],
    fun _ _ => rfl⟩
  pos := rfl
  fault := rfl
  holds := by simp [init, State.live, Phase.releasing]
  owned _ := trivial
  consumer := by simp [init, Phase.Ok]
  sized := by simp [init]
  attended := by simp [init]
  gone := by simp [init]
  popped := by simp [init, State.returned, Phase.releasing]
  claims := rfl
  dropped := rfl
  begun _ _ := rfl

/-! ### Steps that change a producer's registers only -/

variable {c : Capacity} {s : State}

variable {i : ℕ} {p : Producer}

/-- A step of a live producer that leaves it alive kills nobody. -/
theorem dead_update {f : ℕ → Producer} (hold : f i ≠ .dead)
    (hnew : p ≠ .dead) (j : ℕ) : update f i p j = .dead ↔ f j = .dead := by
  by_cases hj : j = i
  · subst hj
    rw [update_self]
    exact iff_of_false hnew hold
  · rw [update_of_ne hj]

theorem deadSet_update (hold : s.producers i ≠ .dead) (hnew : p ≠ .dead) :
    (fun j => update s.producers i p j = .dead) = s.Dead :=
  funext fun j => propext (dead_update hold hnew j)

variable {slots l : List Slot} {x : Slot} {f : Slot → Slot} {pos : ℕ}

/-- What attends a slot, where `i` alone has moved. -/
theorem attended_update {f : ℕ → Producer}
    (h : (f x.owner).slotAt = some x.pos ∨ f x.owner = .dead)
    (hi : (f i).slotAt = some x.pos ∨ f i = .dead → p.slotAt = some x.pos ∨ p = .dead) :
    (update f i p x.owner).slotAt = some x.pos ∨
      update f i p x.owner = .dead := by
  rcases eq_or_ne x.owner i with rfl | hne
  · rw [update_self]
    exact hi h
  · rw [update_of_ne hne]
    exact h

variable {k read : ℕ} {log : List Event} {begun : ℕ → ℕ} {q : Producer} {y : Slot}
variable {slots' : List Slot} {dead : ℕ → Prop} {held : Option ℕ} {phase : Phase} {job : Job}

/-- What holds of every producer, where `i` alone has moved. -/
theorem owned_update {f : ℕ → Producer} (hok : p.Ok slots read i)
    (hrest : ∀ j ≠ i, (f j).Ok slots read j) (j : ℕ) : (update f i p j).Ok slots read j :=
  (forall_update_iff f fun j q => q.Ok slots read j).mpr ⟨hok, hrest⟩ j

/-- The pushes of producer `j`, `q` now, are those in the log and perhaps one more. -/
def Counted (log : List Event) (begun : ℕ → ℕ) (j : ℕ) (q : Producer) : Prop :=
  q ≠ .dead → begun j
    = (log.filter fun e => e.owner = j).length + if q.undecided then 1 else 0

theorem counted_update {f : ℕ → Producer}
    (hi : Counted log begun i p) (hrest : ∀ j ≠ i, Counted log begun j (f j)) (j : ℕ) :
    Counted log begun j (update f i p j) :=
  (forall_update_iff f (Counted log begun)).mpr ⟨hi, hrest⟩ j

variable (h : Inv c s)

include h

/-- Producer `i` moves on without touching a slot; `log` and `begun` account for it. -/
theorem Inv.onProducer {i d : ℕ} {p : Producer}
    (hold : s.producers i ≠ .dead) (hnew : p ≠ .dead) (hat : p.slotAt = (s.producers i).slotAt)
    (hok : p.Ok s.past.slots s.read i)
    (hclaims : log.filterMap Event.record? = s.past.log.filterMap Event.record?)
    (hd : d = (log.filter fun e => e.record?.isNone).length)
    (hi : begun i = (log.filter fun e => e.owner = i).length + if p.undecided then 1 else 0)
    (hj : ∀ j ≠ i, begun j = s.past.begun j ∧
      log.filter (fun e => e.owner = j) = s.past.log.filter fun e => e.owner = j) :
    Inv c { s with
      dropped := d
      producers := update s.producers i p
      past := { s.past with log := log, begun := begun } } := { h with
  owned := owned_update hok fun j _ => h.owned j
  consumer := by
    show Phase.Ok _ (fun j => update s.producers i p j = .dead) _ _
    rw [deadSet_update hold hnew]
    exact h.consumer
  sized x hx hdead := h.sized x hx ((dead_update hold hnew x.owner).mp hdead)
  attended x hx hstage := attended_update (h.attended x hx hstage) (.imp hat.trans (absurd · hold))
  gone x hx := (h.gone x hx).imp id (dead_update hold hnew x.owner).mpr
  claims := h.claims.trans hclaims.symm
  dropped := hd
  begun := counted_update (fun _ => hi) fun j hji hd => by
    dsimp only
    rw [(hj j hji).1, (hj j hji).2]
    exact h.begun j hd }

/-- The same, where the step neither decides the push nor begins one. -/
theorem Inv.setProducer (hp : s.producers i = q) (hold : q ≠ .dead)
    (hnew : p ≠ .dead) (hat : p.slotAt = q.slotAt) (hok : p.Ok s.past.slots s.read i)
    (hun : p.undecided = q.undecided) : Inv c (s.setProducer i p) := by
  subst hp
  exact h.onProducer hold hnew hat hok rfl h.dropped (by rw [h.begun i hold, hun])
    fun _ _ => ⟨rfl, rfl⟩

/-! ### A slot claimed -/

omit h

theorem head?_append_of_some (h : l.head? = some x) : (l ++ [y]).head? = some x := by
  rw [head?_append, h]
  rfl

/-- The consumer knows the oldest slot only where it is settled or its producer is dead: it
stands as it did while that slot is the oldest before and after. -/
theorem Phase.Ok.mono (h : phase.Ok slots dead held)
    (hkeep : ∀ x, slots.head? = some x → x.stage = .settled ∨ dead x.owner → slots'.head? = some x)
    (hback : ∀ x, slots'.head? = some x → dead x.owner → slots.head? = some x) :
    phase.Ok slots' dead held := by
  have hsaw : ∀ {state word}, Saw slots dead state word → Saw slots' dead state word := by
    rintro state word (⟨x, hx, hstage, hrest⟩ | ⟨hstate, hall⟩)
    · exact .inl ⟨x, hkeep x hx (.inl hstage), hstage, hrest⟩
    · exact .inr ⟨hstate, fun x hx hdead => hall x (hback x hx hdead) hdead⟩
  cases phase with
  | idle =>
    intro size hsize
    obtain ⟨x, hx, hxs, hstage, hrec⟩ := h size hsize
    exact ⟨x, hkeep x hx (.inl hstage), hxs, hstage, hrec⟩
  | zeroing size done =>
    obtain ⟨hheld, x, hx, hxs, hdone, hz, hst⟩ := h
    exact ⟨hheld, x, hkeep x hx (hst.imp id And.right), hxs, hdone, hz, hst⟩
  | look => exact h
  | sawState state | sawWord state word | asking word claimed => exact ⟨h.1, hsaw h.2⟩
  | settling state word size =>
    obtain ⟨hheld, x, hx, hxs, hw, hst⟩ := h
    exact ⟨hheld, x, hkeep x hx (hst.imp And.left fun h => h.2.2), hxs, hw, hst⟩

/-- A producer stands as it did while `read` only moves on and the slot it works on, which
is not settled, is still there. -/
theorem Producer.Ok.mono {read' i : ℕ} {p : Producer} (h : p.Ok slots read i) (hread : read ≤ read')
    (hmem : p ≠ .dead → ∀ x ∈ slots, x.owner = i → x.stage ≠ .settled → x ∈ slots') :
    p.Ok slots' read' i := by
  cases p with
  | idle | enter job | full job | dead => trivial
  | sawRead job r | sawBoth job r v => exact le_trans h hread
  | won job q | padWon job q tail | padded job q tail | writing job q todo =>
    obtain ⟨x, hx, hpos, hi, hst, hrest⟩ := h
    exact ⟨x, hmem nofun x hx hi (by rw [hst]; nofun), hpos, hi, hst, hrest⟩

/-- While a slot is being released or held there is one, and no producer works on it. -/
theorem Inv.head_of_releasing (h : Inv c s)
    (hr : (s.consumer.held.isSome || s.consumer.phase.releasing) = true) :
    ∃ x, s.past.slots.head? = some x ∧ (x.stage = .settled ∨ s.Dead x.owner) := by
  have hc := h.consumer
  cases hphase : s.consumer.phase with
  | zeroing size done =>
    rw [hphase] at hc
    obtain ⟨-, x, hx, -, -, -, hst⟩ := hc
    exact ⟨x, hx, hst.imp id And.right⟩
  | idle =>
    rw [hphase] at hc hr
    obtain ⟨size, hsize⟩ := Option.isSome_iff_exists.mp (by simpa [Phase.releasing] using hr)
    obtain ⟨x, hx, -, hst, -⟩ := hc size hsize
    exact ⟨x, hx, .inl hst⟩
  | look =>
    rw [hphase] at hc hr
    rw [show s.consumer.held = none from hc] at hr
    cases hr
  | sawState state | sawWord state word | asking word claimed | settling state word size =>
    rw [hphase] at hc hr
    rw [hc.1] at hr
    cases hr

theorem take_one_append (h : l.head? = some x) : (l ++ [y]).take 1 = l.take 1 := by
  obtain ⟨l', rfl⟩ := head?_eq_some_iff.mp h
  rfl

/-- Producer `i` wins the compare-exchange at `reserve`. -/
theorem Inv.claim (h : Inv c s) {i : ℕ} (len : ℕ) (record : Option Bytes) (p : Producer)
    (hold : s.producers i ≠ .dead) (hnew : p ≠ .dead)
    (hat : (s.producers i).slotAt = none) (hat' : p.slotAt = some s.reserve)
    (hun : (s.producers i).undecided = true)
    (hin : c.off s.reserve + slotSize len ≤ c.bytes)
    (hroom : s.reserve + slotSize len ≤ s.read + c.bytes)
    (hok : p.Ok (s.past.slots ++ [newSlot s.reserve len i record]) s.read i)
    (hlog : match record with
      | some r => log = s.past.log ++ [.claimed i r] ∧ p.undecided = false
      | none => log = s.past.log ∧ p.undecided = true) :
    Inv c { s with
      reserve := s.reserve + slotSize len
      producers := update s.producers i p
      past := { s.past with
        slots := s.past.slots ++ [newSlot s.reserve len i record]
        log := log } } := { h with
  layout := h.layout.claim hin hroom
  holds x hx := by
    have hmem : x ∈ s.live ∨ x = newSlot s.reserve len i record := by
      unfold State.live at hx ⊢
      split at hx
      · rename_i hr
        rw [if_pos hr]
        obtain ⟨y, hy, -⟩ := h.head_of_releasing (by rw [hr, Bool.or_true])
        obtain ⟨l', hl'⟩ := head?_eq_some_iff.mp hy
        rw [hl'] at hx ⊢
        simpa using hx
      · rename_i hr
        rw [if_neg hr]
        simpa using hx
    rcases hmem with hx | rfl
    · exact h.holds x hx
    · exact rfl
  owned := owned_update hok fun j _ =>
    (h.owned j).mono le_rfl fun _ x hx _ _ => mem_append_left _ hx
  consumer := by
    show Phase.Ok _ (fun j => update s.producers i p j = .dead) _ _
    rw [deadSet_update hold hnew]
    refine h.consumer.mono (fun x hx _ => head?_append_of_some hx) fun x hx hdead => ?_
    -- the new slot's producer is alive, so it is not the oldest slot of a dead one
    rw [head?_append] at hx
    cases hhead : s.past.slots.head? with
    | none =>
      rw [hhead] at hx
      cases hx
      exact absurd hdead hold
    | some z =>
      rw [hhead] at hx
      exact hx
  sized x hx hdead := by
    rcases mem_append.mp hx with hx | hx
    · exact h.sized x hx ((dead_update hold hnew x.owner).mp hdead)
    · obtain rfl := mem_singleton.mp hx
      exact absurd ((dead_update hold hnew i).mp hdead) hold
  attended x hx hstage := by
    rcases mem_append.mp hx with hx | hx
    · refine attended_update (h.attended x hx hstage) fun hi => ?_
      rw [hat] at hi
      exact absurd (hi.resolve_right hold) nofun
    obtain rfl := mem_singleton.mp hx
    refine .inl ?_
    show (update s.producers i p i).slotAt = _
    rw [update_self, hat']
    rfl
  gone x hx := (h.gone x hx).imp id (dead_update hold hnew x.owner).mpr
  popped := by
    refine h.popped.trans ?_
    unfold State.returned
    split
    · rename_i hr
      obtain ⟨y, hy, -⟩ := h.head_of_releasing hr
      rw [take_one_append hy]
    · rfl
  claims := by
    have hc := h.claims
    cases record with
    | none =>
      obtain ⟨rfl, -⟩ := hlog
      show (s.past.gone ++ (s.past.slots ++ [newSlot s.reserve len i none])).filterMap _ = _
      rw [← append_assoc, filterMap_append, hc]
      simp [newSlot]
    | some r =>
      obtain ⟨rfl, -⟩ := hlog
      show (s.past.gone ++ (s.past.slots ++ [newSlot s.reserve len i (some r)])).filterMap _ = _
      rw [← append_assoc, filterMap_append, hc]
      simp [newSlot, Event.record?]
  dropped := by
    have hd := h.dropped
    cases record with
    | none => obtain ⟨rfl, -⟩ := hlog; exact hd
    | some r =>
      obtain ⟨rfl, -⟩ := hlog
      rw [hd]
      simp [Event.record?]
  begun := by
    cases record with
    | none =>
      obtain ⟨rfl, hp⟩ := hlog
      exact counted_update (fun _ => by rw [hp, h.begun i hold, hun]) fun j _ => h.begun j
    | some r =>
      obtain ⟨rfl, hp⟩ := hlog
      refine counted_update (fun _ => ?_) fun j hji hd => ?_
      · rw [hp, h.begun i hold, hun]
        simp [Event.owner]
      · rw [h.begun j hd, filter_append,
          filter_cons_of_neg (by simp [Event.owner, Ne.symm hji]), filter_nil,
          append_nil] }

/-! ### A store into a claimed slot -/

/-- The change a store makes to its slot: the bytes and perhaps the stage. -/
structure Rewrites (f : Slot → Slot) : Prop where
  pos : ∀ x, (f x).pos = x.pos
  len : ∀ x, (f x).len = x.len
  owner : ∀ x, (f x).owner = x.owner
  record : ∀ x, (f x).record = x.record

theorem rewrites_written (k : ℕ) (b : Bytes) (stage : Stage) :
    Rewrites (Slot.written k b stage) := ⟨fun _ => rfl, fun _ => rfl, fun _ => rfl, fun _ => rfl⟩

theorem head?_onSlot (pos : ℕ) (f : Slot → Slot) (l : List Slot) :
    (onSlot pos f l).head? = l.head?.map fun x => if x.pos = pos then f x else x := by
  unfold onSlot
  rw [head?_map]

/-- A store into a slot of a live producer that is not settled changes nothing the consumer
knows. -/
theorem Phase.Ok.write (h : phase.Ok slots dead held) (hf : Rewrites f)
    (hfix : ∀ y, slots.head? = some y → y.stage = .settled ∨ dead y.owner → y.pos ≠ pos) :
    phase.Ok (onSlot pos f slots) dead held := by
  refine h.mono (fun x hx hst => ?_) fun x hx hdead => ?_
  · -- a slot of another owner or stage than the one written is found as it was
    rw [head?_onSlot, hx, Option.map_some, if_neg (hfix x hx hst)]
  rw [head?_onSlot, Option.map_eq_some_iff] at hx
  obtain ⟨y, hy, rfl⟩ := hx
  have hyd : dead y.owner := by
    split at hdead
    · rwa [hf.owner] at hdead
    · exact hdead
  rw [if_neg (hfix y hy (Or.inr hyd))]
  exact hy

/-- A store into a slot harms no producer that works on another. -/
theorem Producer.Ok.write {i : ℕ} {p : Producer} (h : p.Ok slots read i)
    (hne : ∀ x ∈ slots, x.owner = i → x.stage ≠ .settled → x.pos ≠ pos) :
    p.Ok (onSlot pos f slots) read i :=
  h.mono le_rfl fun _ x hx hi hst => mem_onSlot.mpr ⟨x, hx, (if_neg (hne x hx hi hst)).symm⟩

theorem filterMap_onSlot {β : Type} {g : Slot → Option β} (hg : ∀ x, g (f x) = g x)
    (l : List Slot) : (onSlot pos f l).filterMap g = l.filterMap g := by
  unfold onSlot
  rw [filterMap_map]
  refine filterMap_congr fun x _ => ?_
  show g (if x.pos = pos then f x else x) = g x
  split
  · exact hg x
  · rfl

theorem State.mem_of_mem_live (h : x ∈ s.live) : x ∈ s.past.slots := by
  unfold State.live at h
  split at h
  · exact mem_of_mem_tail h
  · exact h

include h

/-- Producer `i` stores `b` into the slot it claimed, which is not settled. -/
theorem Inv.write {i : ℕ} {b : Bytes} {p : Producer} (hold : s.producers i ≠ .dead)
    (hnew : p ≠ .dead) (hat : (s.producers i).slotAt = some x.pos)
    (hun : p.undecided = (s.producers i).undecided) (hx : x ∈ s.past.slots) (hxi : x.owner = i)
    (hxs : x.stage ≠ .settled) (hkb : k + b.length ≤ x.size) (hf : Rewrites f)
    (hbytes : (f x).bytes = copyAt x.bytes k b) (hholds : (f x).Holds)
    (hfs : (f x).stage ≠ .claimed) (hat' : (f x).stage ≠ .settled → p.slotAt = some x.pos)
    (hok : p.Ok (onSlot x.pos f s.past.slots) s.read i) :
    Inv c { s with
      mem := store s.mem (c.off x.pos + k) b
      producers := update s.producers i p
      past := { s.past with slots := onSlot x.pos f s.past.slots } } := { h with
  layout := h.layout.write hx hkb hf.pos hf.len hbytes
  holds y hy := by
    have hlive : State.live { s with
        mem := store s.mem (c.off x.pos + k) b
        producers := update s.producers i p
        past := { s.past with slots := onSlot x.pos f s.past.slots } }
          = onSlot x.pos f s.live := by
      unfold State.live
      split
      · exact map_tail.symm
      · rfl
    rw [hlive] at hy
    obtain ⟨z, hz, rfl⟩ := mem_onSlot.mp hy
    split
    · rename_i hzx
      obtain rfl := h.layout.chain.inj (State.mem_of_mem_live hz) hx hzx
      exact hholds
    · exact h.holds z hz
  owned := owned_update hok fun j hji => by
    refine (h.owned j).write fun y hy hyj _ hpos => ?_
    obtain rfl := h.layout.chain.inj hy hx hpos
    exact hji (hyj.symm.trans hxi)
  consumer := by
    show Phase.Ok _ (fun j => update s.producers i p j = .dead) _ _
    rw [deadSet_update hold hnew]
    refine h.consumer.write hf fun y hy hst hpos => ?_
    obtain rfl := h.layout.chain.inj (mem_of_head? hy) hx hpos
    exact hst.elim hxs fun hd => hold (hxi ▸ hd)
  sized y hy hdead := by
    obtain ⟨z, hz, rfl⟩ := mem_onSlot.mp hy
    split at hdead
    · rename_i hzx
      obtain rfl := h.layout.chain.inj hz hx hzx
      rw [if_pos hzx]
      exact hfs
    · rename_i hzx
      rw [if_neg hzx]
      exact h.sized z hz ((dead_update hold hnew z.owner).mp hdead)
  attended y hy hstage := by
    obtain ⟨z, hz, rfl⟩ := mem_onSlot.mp hy
    split at hstage
    · rename_i hzx
      obtain rfl := h.layout.chain.inj hz hx hzx
      refine .inl ?_
      rw [if_pos hzx]
      show (update s.producers i p (f z).owner).slotAt = some (f z).pos
      rw [hf.owner, hf.pos, hxi, update_self, hat' hstage]
    · rename_i hzx
      rw [if_neg hzx]
      refine attended_update (h.attended z hz hstage) fun hi => ?_
      rw [hat] at hi
      exact absurd (Option.some.inj (hi.resolve_right hold)).symm hzx
  gone y hy := (h.gone y hy).imp id (dead_update hold hnew y.owner).mpr
  popped := by
    refine h.popped.trans ?_
    unfold State.returned
    split
    · rename_i hr
      obtain ⟨y, hy, hst⟩ := h.head_of_releasing hr
      have hne : y.pos ≠ x.pos := by
        intro hpos
        obtain rfl := h.layout.chain.inj (mem_of_head? hy) hx hpos
        exact hst.elim hxs fun hd => hold (hxi ▸ hd)
      obtain ⟨l', hl'⟩ := head?_eq_some_iff.mp hy
      rw [hl']
      show _ = List.filterMap _ (_ ++ (List.map _ (y :: l')).take 1)
      rw [map_cons, if_neg hne]
      rfl
    · rfl
  claims := by
    show (s.past.gone ++ onSlot x.pos f s.past.slots).filterMap _ = _
    rw [filterMap_append, filterMap_onSlot hf.record, ← filterMap_append]
    exact h.claims
  begun := counted_update (fun _ => by rw [hun]; exact h.begun i hold) fun j _ => h.begun j }

/-! ### The producers' steps -/

/-- The slot a live producer works on is not being released, so it holds what its stage
says. -/
theorem Inv.holds_of_owner (hx : x ∈ s.past.slots) (hxs : x.stage ≠ .settled)
    (hold : ¬ s.Dead x.owner) : x.Holds := by
  refine h.holds x ?_
  unfold State.live
  split
  · rename_i hr
    obtain ⟨y, hy, hst⟩ := h.head_of_releasing (by rw [hr, Bool.or_true])
    obtain ⟨l', hl'⟩ := head?_eq_some_iff.mp hy
    rw [hl'] at hx ⊢
    rcases mem_cons.mp hx with rfl | hx
    · exact absurd hst (not_or.mpr ⟨hxs, hold⟩)
    · exact hx
  · exact hx

omit h in
theorem Chain.dvd {p q : ℕ} : ∀ {l : List Slot}, Chain p l q → 8 ∣ p → 8 ∣ q
  | [], h, hp => (show p = q from h) ▸ hp
  | x :: _, h, hp => h.2.dvd (dvd_add hp (slotSize_dvd x.len))

/-- The compare-exchange of `claim`, won, lost or refused. -/
theorem Inv.claimStep {i reserve : ℕ} {weak : Bool}
    (hp : s.producers i = .sawBoth job read reserve) :
    Inv c (claimStep c s i job read reserve weak) := by
  have hread : read ≤ s.read := by
    have := h.owned i
    rw [hp] at this
    exact this
  have hold : s.producers i ≠ .dead := by rw [hp]; nofun
  have hlt := c.off_lt reserve
  have hle := h.layout.chain.le
  have hfull : Inv c (s.setProducer i (.full job)) := h.setProducer hp nofun nofun rfl trivial rfl
  have hretry : Inv c (s.setProducer i (.enter job)) := h.setProducer hp nofun nofun rfl trivial rfl
  unfold RecordRing.claimStep
  dsimp only
  split
  · -- the slot fits before the end of the data area
    split
    · exact hfull
    split
    · exact hretry
    rename_i hfit hroom hwon
    obtain ⟨-, hres⟩ := not_or.mp hwon
    obtain rfl := not_not.mp hres
    refine h.claim job.len (some job.record) (.won job s.reserve) hold nofun
      (by rw [hp]; rfl) rfl (by rw [hp]; rfl) (by omega) (by omega) ?_ ⟨rfl, rfl⟩
    exact ⟨newSlot s.reserve job.len i (some job.record), by simp, rfl, rfl, rfl, rfl, rfl⟩
  · -- it would cross the end: padding to the end
    split
    · exact hfull
    split
    · exact hretry
    rename_i hfit hroom hwon
    obtain ⟨-, hres⟩ := not_or.mp hwon
    obtain rfl := not_not.mp hres
    have htail : slotSize (c.bytes - c.off s.reserve - SLOT_HEAD) = c.bytes - c.off s.reserve :=
      slotSize_tail (Nat.dvd_sub c.dvd_bytes
        (c.dvd_off (h.layout.chain.dvd h.layout.aligned))) (by omega)
    have hclaim := h.claim (c.bytes - c.off s.reserve - SLOT_HEAD) none
      (.padWon job s.reserve (c.bytes - c.off s.reserve)) hold nofun (by rw [hp]; rfl) rfl
      (by rw [hp]; rfl) (by omega) (by omega)
      ⟨newSlot s.reserve (c.bytes - c.off s.reserve - SLOT_HEAD) i none, by simp, rfl, rfl, rfl,
        rfl, rfl⟩ ⟨rfl, rfl⟩
    rw [htail] at hclaim
    exact hclaim

omit h

/-- The bytes of a slot whose length is stored, with the payload split off. -/
theorem Slot.Holds.sized (h : x.Holds) (hx : x.stage = .sized) :
    ∃ data, x.bytes = wordBytes (lenWord x.len) ++ (wordBytes WRITING ++ data) := by
  unfold Slot.Holds at h
  rw [hx] at h
  exact h

theorem Slot.Holds.claimed (h : x.Holds) (hx : x.stage = .claimed) :
    x.bytes = List.replicate x.size 0 := by
  unfold Slot.Holds at h
  rw [hx] at h
  exact h

theorem Slot.Holds.settled (h : x.Holds) (hx : x.stage = .settled) :
    ∃ data, x.bytes = wordBytes (lenWord x.len) ++ (wordBytes x.stateWord ++ data) ∧
      ∀ r, x.record = some r → data.take x.len = r := by
  unfold Slot.Holds at h
  rw [hx] at h
  exact h

theorem drop_words (u v : UInt32) (data : Bytes) :
    (wordBytes u ++ (wordBytes v ++ data)).drop SLOT_HEAD = data := by
  rw [← append_assoc, drop_left' (by simp [SLOT_HEAD])]

/-- A claimed slot with its length stored. -/
theorem copyAt_zeros (len : ℕ) :
    copyAt (List.replicate (slotSize len) 0) 0 (wordBytes (lenWord len))
      = wordBytes (lenWord len) ++
          (wordBytes WRITING ++ List.replicate (slotSize len - SLOT_HEAD) 0) := by
  have hle := le_slotSize len
  rw [copyAt_zero, length_wordBytes, drop_replicate]
  congr 1
  rw [show wordBytes WRITING = List.replicate 4 0 from rfl, replicate_append_replicate]
  congr 1
  unfold SLOT_HEAD at *
  omega

include h

theorem Inv.sizing {len : ℕ} {record : Option Bytes}
    (hp : s.producers i = q) (hold : q ≠ .dead) (hnew : p ≠ .dead) (hat : q.slotAt = some pos)
    (hat' : p.slotAt = some pos) (hun : p.undecided = q.undecided)
    (hx : x ∈ s.past.slots) (hpos : x.pos = pos) (hxi : x.owner = i) (hxs : x.stage = .claimed)
    (hlen : x.len = len) (hrec : x.record = record)
    (hok : ∀ slots, slots = onSlot pos (Slot.written 0 (wordBytes (lenWord len)) .sized)
      s.past.slots → ∀ y ∈ slots, y.pos = pos → y.owner = i → y.stage = .sized → y.len = len →
      y.record = record → y.bytes.drop SLOT_HEAD = List.replicate (slotSize len - SLOT_HEAD) 0 →
      p.Ok slots s.read i) :
    Inv c { s with
      mem := store s.mem (c.off pos) (wordBytes (lenWord len))
      producers := update s.producers i p
      past := { s.past with
        slots := onSlot pos (Slot.written 0 (wordBytes (lenWord len)) .sized) s.past.slots } } := by
  subst hp hpos hlen hrec
  have hbytes : x.bytes = List.replicate (slotSize x.len) 0 :=
    (h.holds_of_owner hx (by rw [hxs]; nofun) (hxi ▸ hold)).claimed hxs
  have hle := le_slotSize x.len
  have hnewb : (Slot.written 0 (wordBytes (lenWord x.len)) .sized x).bytes
      = wordBytes (lenWord x.len) ++
          (wordBytes WRITING ++ List.replicate (slotSize x.len - SLOT_HEAD) 0) := by
    show copyAt x.bytes 0 _ = _
    rw [hbytes, copyAt_zeros]
  refine h.write (k := 0) hold hnew hat hun hx hxi (by rw [hxs]; nofun) ?_ (rewrites_written _ _ _)
    rfl ⟨_, hnewb⟩ nofun (fun _ => hat') ?_
  · show 0 + 4 ≤ slotSize x.len
    unfold SLOT_HEAD at hle
    omega
  · refine hok _ rfl _ (mem_onSlot.mpr ⟨x, hx, (if_pos rfl).symm⟩) rfl hxi rfl rfl rfl ?_
    rw [hnewb, drop_words]

theorem Inv.settling (hp : s.producers i = q) (hold : q ≠ .dead)
    (hnew : p ≠ .dead) (hat : q.slotAt = some pos) (hun : p.undecided = q.undecided)
    (hok : p.Ok (onSlot pos (Slot.written 4 (wordBytes x.stateWord) .settled) s.past.slots)
      s.read i)
    (hx : x ∈ s.past.slots) (hpos : x.pos = pos) (hxi : x.owner = i) (hxs : x.stage = .sized)
    (hdata : ∀ r, x.record = some r → (x.bytes.drop SLOT_HEAD).take x.len = r) :
    Inv c { s with
      mem := store s.mem (c.off pos + 4) (wordBytes x.stateWord)
      producers := update s.producers i p
      past := { s.past with
        slots := onSlot pos (Slot.written 4 (wordBytes x.stateWord) .settled) s.past.slots } } := by
  subst hp hpos
  obtain ⟨data, hbytes⟩ := (h.holds_of_owner hx (by rw [hxs]; nofun) (hxi ▸ hold)).sized hxs
  have hle := le_slotSize x.len
  refine h.write hold hnew hat hun hx hxi (by rw [hxs]; nofun) ?_ (rewrites_written _ _ _) rfl
    ⟨data, ?_, ?_⟩ nofun (fun hne => absurd rfl hne) hok
  · show 4 + 4 ≤ slotSize x.len
    unfold SLOT_HEAD at hle
    omega
  · show copyAt x.bytes 4 _ = _
    rw [hbytes, copyAt_append (length_wordBytes _)]
    rfl
  · intro r hr
    have := hdata r hr
    rwa [hbytes, drop_words] at this

theorem Inv.copying {i : ℕ} {b : UInt8} {todo : List (ℕ × UInt8)}
    (hp : s.producers i = .writing job pos ((k, b) :: todo)) :
    Inv c { s with
      mem := store s.mem (c.off pos + (SLOT_HEAD + k)) [b]
      producers := update s.producers i (.writing job pos todo)
      past := { s.past with
        slots := onSlot pos (Slot.written (SLOT_HEAD + k) [b] .sized) s.past.slots } } := by
  have hold : s.producers i ≠ .dead := by rw [hp]; nofun
  have howned := h.owned i
  rw [hp] at howned
  obtain ⟨x, hx, rfl, hxi, hxs, hlen, hrec, hin, hcopy⟩ := howned
  obtain ⟨data, hbytes⟩ := (h.holds_of_owner hx (by rw [hxs]; nofun) (hxi ▸ hold)).sized hxs
  have hle := le_slotSize x.len
  have hk : k < x.len := by rw [hlen]; exact hin (k, b) mem_cons_self
  have hdata : data.length = x.size - 8 := by
    have := h.layout.length x hx
    rw [hbytes, length_append, length_append, length_wordBytes, length_wordBytes] at this
    omega
  have hset : (Slot.written (SLOT_HEAD + k) [b] .sized x).bytes
      = wordBytes (lenWord x.len) ++ (wordBytes WRITING ++ data.set k b) := by
    have hkd : k < data.length := by
      show k < _
      rw [hdata, show x.size = slotSize x.len from rfl]
      unfold SLOT_HEAD at hle
      omega
    show copyAt x.bytes (SLOT_HEAD + k) [b] = _
    rw [hbytes, set_eq_take_append_cons_drop, if_pos hkd]
    have hpre : (wordBytes (lenWord x.len) ++ (wordBytes WRITING ++ data.take k)).length
        = SLOT_HEAD + k := by
      simp only [length_append, length_wordBytes, length_take]
      unfold SLOT_HEAD
      omega
    have hsplit : wordBytes (lenWord x.len) ++ (wordBytes WRITING ++ data)
        = (wordBytes (lenWord x.len) ++ (wordBytes WRITING ++ data.take k)) ++ data.drop k := by
      simp only [append_assoc, take_append_drop]
    rw [hsplit, copyAt_append hpre, length_singleton, drop_drop]
    simp only [append_assoc, singleton_append]
  refine h.write hold nofun (by rw [hp]; rfl) (by rw [hp]; rfl) hx hxi (by rw [hxs]; nofun) ?_
    (rewrites_written _ _ _) rfl ⟨_, hset⟩ nofun (fun _ => rfl) ?_
  · show SLOT_HEAD + k + 1 ≤ slotSize x.len
    omega
  refine ⟨_, mem_onSlot.mpr ⟨x, hx, (if_pos rfl).symm⟩, rfl, hxi, rfl, hlen, hrec,
    fun w hw => hin w (mem_cons_of_mem _ hw), ?_⟩
  rw [hset, drop_words, take_set]
  rw [hbytes] at hcopy
  exact hcopy

/-- **A producer's access keeps the invariant.** -/
theorem Inv.tick (i : ℕ) (weak : Bool) : Inv c (step c s (.tick i weak)) := by
  have howned := h.owned i
  unfold step memAfter storeOf producerStep
  dsimp only
  -- one case for each access of `claim`, the copy and `publish`
  cases hp : s.producers i with
  | idle | dead => exact h
  | enter job => exact h.setProducer hp nofun nofun rfl (le_refl s.read) rfl
  | sawRead job read =>
    rw [hp] at howned
    exact h.setProducer hp nofun nofun rfl (show read ≤ s.read from howned) rfl
  | sawBoth job read reserve =>
    have hmem : (RecordRing.claimStep c s i job read reserve weak).mem = s.mem := by
      unfold RecordRing.claimStep
      dsimp only
      split <;> split <;> try split
      all_goals rfl
    have hinv : Inv c (RecordRing.claimStep c s i job read reserve weak) := h.claimStep hp
    show Inv c { RecordRing.claimStep c s i job read reserve weak with mem := s.mem }
    rw [← hmem]
    exact hinv
  | full job =>
    have hold : s.producers i ≠ .dead := by rw [hp]; nofun
    refine h.onProducer hold nofun (by rw [hp]; rfl) trivial ?_ ?_ ?_ fun j hj => ⟨rfl, ?_⟩
    · rw [filterMap_append]
      exact append_nil _
    · rw [h.dropped, filter_append, length_append]
      rfl
    · rw [h.begun i hold, hp]
      simp [Event.owner, Producer.undecided]
    · rw [filter_append, filter_cons_of_neg (by simp [Event.owner, Ne.symm hj]),
        filter_nil, append_nil]
  | won job pos =>
    rw [hp] at howned
    obtain ⟨x, hx, hpos, hxi, hxs, hlen, hrec⟩ := howned
    refine h.sizing hp nofun nofun rfl rfl rfl hx hpos hxi hxs hlen hrec
      fun _ _ y hy hypos hyi hys hyl hyr hyb => ?_
    refine ⟨y, hy, hypos, hyi, hys, hyl, hyr, job.inside, ?_⟩
    have hle := le_slotSize job.len
    rw [hyb, hyl, take_replicate, min_eq_left (by omega)]
    rfl
  | padWon job pos tail =>
    rw [hp] at howned
    obtain ⟨x, hx, hpos, hxi, hxs, hlen, hrec⟩ := howned
    exact h.sizing hp nofun nofun rfl rfl rfl hx hpos hxi hxs hlen hrec
      fun _ _ y hy hypos hyi hys hyl hyr _ => ⟨y, hy, hypos, hyi, hys, hyl, hyr⟩
  | padded job pos tail =>
    rw [hp] at howned
    obtain ⟨x, hx, hpos, hxi, hxs, hlen, hrec⟩ := howned
    have hword : x.stateWord = PADDING := by
      unfold Slot.stateWord
      rw [hrec]
      rfl
    have hinv := h.settling (p := .enter job) hp nofun nofun rfl rfl trivial hx hpos hxi hxs
      (by rw [hrec]; nofun)
    rw [hword] at hinv
    exact hinv
  | writing job pos todo =>
    obtain - | ⟨⟨k, b⟩, todo⟩ := todo
    · rw [hp] at howned
      obtain ⟨x, hx, hpos, hxi, hxs, hlen, hrec, -, hcopy⟩ := howned
      have hword : x.stateWord = READY := by
        unfold Slot.stateWord
        rw [hrec]
        rfl
      have hinv := h.settling (p := .idle) hp nofun nofun rfl rfl trivial hx hpos hxi hxs
        (by rw [hrec]; rintro r ⟨⟩; exact hcopy)
      rw [hword] at hinv
      exact hinv
    · exact h.copying hp

/-- **A push begins.** -/
theorem Inv.start (i : ℕ) (job : Job) : Inv c (step c s (.start i job)) := by
  unfold step
  dsimp only
  cases hp : s.producers i with
  | idle =>
    have hold : s.producers i ≠ .dead := by rw [hp]; nofun
    refine h.onProducer hold ?_ ?_ ?_ rfl h.dropped ?_ fun j hj => ⟨update_of_ne hj _ _, rfl⟩
    · split <;> nofun
    · rw [hp]
      split <;> rfl
    · split <;> trivial
    · rw [update_self, h.begun i hold, hp]
      have hun : (if c.bytes < slotSize job.len then Producer.full job else .enter job).undecided
          = true := by split <;> rfl
      rw [hun]
      rfl
  | _ => exact h

/-! ### Deaths -/

omit h

/-- The step keeps clear of the two moments in which a death is not seen for what it is: the
producer has moved `reserve` and not yet stored the slot's length, or the consumer holds a
reading from before the death of a slot of this producer still being written. -/
def calm (s : State) : Act → Bool
  | .die i => !(s.producers i).unsized &&
      !(s.consumer.phase.unsettled && (s.past.slots.head?.any fun x => x.owner == i))
  | _ => true

theorem stateWord_ne_writing (x : Slot) : x.stateWord ≠ WRITING := by
  unfold Slot.stateWord
  split <;> decide

/-- A death the consumer is not in the middle of reading about. -/
theorem Phase.Ok.die {dead' : ℕ → Prop} {i : ℕ}
    (h : phase.Ok slots dead held) (hnew : ∀ j, dead' j ↔ j = i ∨ dead j)
    (hcalm : phase.unsettled = true → ∀ x, slots.head? = some x → x.owner ≠ i) :
    phase.Ok slots dead' held := by
  have hsaw : ∀ {state word}, (state = WRITING → phase.unsettled = true) →
      Saw slots dead state word → Saw slots dead' state word := by
    rintro state word hun (⟨x, hx, hrest⟩ | ⟨hstate, hall⟩)
    · exact .inl ⟨x, hx, hrest⟩
    · refine .inr ⟨hstate, fun x hx hdead => hall x hx ?_⟩
      exact ((hnew _).mp hdead).resolve_left (hcalm (hun hstate) x hx)
  cases phase with
  | idle | look => exact h
  | zeroing size done =>
    obtain ⟨hheld, x, hx, hxs, hdone, hz, hst⟩ := h
    exact ⟨hheld, x, hx, hxs, hdone, hz, hst.imp id fun hd => ⟨hd.1, (hnew _).mpr (.inr hd.2)⟩⟩
  | sawState | sawWord => exact ⟨h.1, hsaw (fun hs => by rw [hs]; rfl) h.2⟩
  | asking word claimed => exact ⟨h.1, hsaw (fun _ => rfl) h.2⟩
  | settling state word size =>
    obtain ⟨hheld, x, hx, hxs, hw, hst⟩ := h
    exact ⟨hheld, x, hx, hxs, hw,
      hst.imp id fun hd => ⟨hd.1, hd.2.1, (hnew _).mpr (.inr hd.2.2)⟩⟩

/-- **A producer dies.** -/
theorem Inv.die (h : Inv c s) {i : ℕ} (hcalm : calm s (.die i) = true) :
    Inv c (step c s (.die i)) := by
  have hdead : ∀ j, update s.producers i .dead j = .dead ↔ j = i ∨ s.Dead j := by
    intro j
    rcases eq_or_ne j i with rfl | hji
    · exact iff_of_true (update_self ..) (.inl rfl)
    · rw [update_of_ne hji, or_iff_right hji]
      rfl
  simp only [calm, Bool.and_eq_true, Bool.not_eq_true', Bool.and_eq_false_iff] at hcalm
  obtain ⟨hsized, hread⟩ := hcalm
  exact { h with
    owned := owned_update trivial fun j _ => h.owned j
    consumer := by
      refine h.consumer.die hdead fun hun x hx => ?_
      rcases hread with hread | hread
      · rw [hun] at hread
        cases hread
      · rw [hx] at hread
        simpa using hread
    sized := fun x hx hd => by
      rcases (hdead x.owner).mp hd with rfl | hd
      · intro hclaimed
        -- an unsized slot's producer stands between the reservation and the length store
        rcases h.attended x hx (by rw [hclaimed]; nofun) with hat | hd
        · have howned := h.owned x.owner
          cases hp : s.producers x.owner with
          | idle | enter job | sawRead job r | sawBoth job r v | full job | dead =>
            rw [hp] at hat
            cases hat
          | won job pos | padWon job pos tail =>
            rw [hp] at hsized
            cases hsized
          | padded job pos tail | writing job pos todo =>
            rw [hp] at hat howned
            obtain ⟨y, hy, hypos, -, hys, -⟩ := howned
            obtain rfl := h.layout.chain.inj hy hx (hypos.trans (Option.some.inj hat))
            rw [hclaimed] at hys
            cases hys
        · exact h.sized x hx hd hclaimed
      · exact h.sized x hx hd
    attended := fun x hx hstage => attended_update (h.attended x hx hstage) fun _ => .inr rfl
    gone := fun x hx => (h.gone x hx).imp id fun hd => (hdead _).mpr (.inr hd)
    begun := counted_update (fun hd => absurd rfl hd) fun j _ => h.begun j }

end Moruna.RecordRing
