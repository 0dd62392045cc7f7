/-
Moruna/RecordRing/RingExact.lean

The ring as an exact queue.  Once no producer works on a slot, a consumer that goes on
calling returns every published record, in the order the slots were claimed
(`drain_idle`).  With the invariant over whole runs this is `ring_exact`: every run whose
deaths are calm keeps the slots apart, counts every refusal once, and pops exactly the
published records in claim order.

A death the consumer is in the middle of reading about is not seen for what it is:
`published_record_skipped` loses a record whose push had returned.
-/
import Moruna.RecordRing.RingRun

namespace Moruna.RecordRing

open List

variable {c : Capacity} {s : State}

/-! ### A consumer on its own -/

/-- No producer works on a slot. -/
def Quiet (s : State) : Prop := ∀ i, (s.producers i).slotAt = none

def State.published (s : State) : List Bytes :=
  (s.past.gone ++ s.past.slots).filterMap Slot.published

/-- The consumer's own steps lead from `s` to a state with `P`. -/
def Leads (c : Capacity) (s : State) (P : State → Prop) : Prop :=
  ∃ n, P (run c s (List.replicate n (.consume true)))

variable {P : State → Prop}

theorem Leads.here (h : P s) : Leads c s P := ⟨0, h⟩

theorem Leads.step (h : Leads c (step c s (.consume true)) P) : Leads c s P := by
  obtain ⟨n, hn⟩ := h
  exact ⟨n + 1, hn⟩

theorem Leads.trans {Q : State → Prop} (h : Leads c s P) (hPQ : ∀ t, P t → Leads c t Q) :
    Leads c s Q := by
  obtain ⟨n, hn⟩ := h
  obtain ⟨m, hm⟩ := hPQ _ hn
  refine ⟨n + m, ?_⟩
  rw [replicate_add]
  unfold run at *
  rwa [foldl_append]

/-- On the way nobody dies, so the invariant holds where it leads. -/
theorem Leads.inv (h : Leads c s P) (hs : Inv c s) : Leads c s fun t => P t ∧ Inv c t := by
  obtain ⟨n, hn⟩ := h
  refine ⟨n, hn, hs.run (calmAlong_of_no_death s fun i hi => ?_)⟩
  cases eq_of_mem_replicate hi

/-- What the consumer's steps keep: the producers, what was published, and the kind of call. -/
structure Onward (s t : State) : Prop where
  producers : t.producers = s.producers
  published : t.published = s.published
  skip : s.consumer.skip = true → t.consumer.skip = true

theorem Onward.trans {t u : State} (h : Onward s t) (h' : Onward t u) : Onward s u :=
  ⟨h'.producers.trans h.producers, h'.published.trans h.published, fun hs => h'.skip (h.skip hs)⟩

/-! ### From the loop's head to the release -/

theorem step_look (h : s.consumer.phase = .look) : step c s (.consume true)
    = s.setPhase (.sawState (loadWord s.mem (c.off s.consumer.pos + 4))) := by
  rw [step_consume true (by rw [h]; rfl)]
  unfold consumerStep
  dsimp only
  rw [h]

variable {x : Slot}

/-- The words the consumer loads of the oldest slot, nobody working on it. -/
theorem Inv.words_head (h : Inv c s) (hlive : s.consumer.phase.releasing = false)
    (hx : s.past.slots.head? = some x) (hst : x.stage ≠ .claimed) :
    loadWord s.mem (c.off s.consumer.pos + 4)
      = (if x.stage = .settled then x.stateWord else WRITING) ∧
    loadWord s.mem (c.off s.consumer.pos) = lenWord x.len := by
  have hmem := mem_of_head? hx
  have hholds := h.holds_of_live hlive hmem
  rw [← h.head_pos hx]
  cases hstage : x.stage with
  | settled =>
    obtain ⟨data, hb, -⟩ := hholds.settled hstage
    have h4 := h.layout.loadWord_slot hmem _ hb
    exact ⟨h4, h.layout.loadWord_slot hmem [] hb⟩
  | sized =>
    obtain ⟨data, hb⟩ := hholds.sized hstage
    have h4 := h.layout.loadWord_slot hmem _ hb
    exact ⟨h4, h.layout.loadWord_slot hmem [] hb⟩
  | claimed => exact absurd hstage hst

/-- From the loop's head the consumer comes to settle the oldest slot. -/
theorem Inv.leads_settling (h : Inv c s) (hq : Quiet s) (hphase : s.consumer.phase = .look)
    (hskip : s.consumer.skip = true) (hx : s.past.slots.head? = some x) :
    Leads c s fun t => t = s.setPhase
      (.settling (if x.stage = .settled then x.stateWord else WRITING) (lenWord x.len) x.size) := by
  have hmem := mem_of_head? hx
  have hclaimed : x.stage ≠ .claimed := by
    intro hcl
    rcases h.attended x hmem (by rw [hcl]; nofun) with hat | hd
    · rw [hq] at hat
      cases hat
    · exact h.sized x hmem hd hcl
  obtain ⟨hstate, hword⟩ := h.words_head (by rw [hphase]; rfl) hx hclaimed
  refine .step ?_
  rw [step_look hphase, hstate]
  refine .step ?_
  show Leads c (s.setPhase (.sawWord _ (loadWord s.mem (c.off s.consumer.pos)))) _
  rw [hword]
  refine .step ?_
  rw [step_consume true rfl]
  unfold consumerStep
  dsimp only [State.setPhase]
  by_cases hset : x.stage = .settled
  · have hready : x.stateWord = READY ∨ x.stateWord = PADDING := by
      unfold Slot.stateWord
      split
      · exact .inl rfl
      · exact .inr rfl
    rw [if_pos hset, if_pos hready]
    show Leads c (settle s _ (lenWord x.len) (extent c s.consumer.pos (lenWord x.len))) _
    rw [h.extent_head hx]
    exact .here rfl
  · rw [if_neg hset, if_neg (by decide), if_pos rfl]
    -- its producer is gone, and `is_stale` says so
    have hdead : s.Dead x.owner := (h.attended x hmem hset).resolve_left (by rw [hq]; nofun)
    have hlt : s.consumer.pos < s.reserve := by
      have := h.layout.chain.mem hmem
      have := x.size_pos
      rw [← h.head_pos hx]
      omega
    have hstale : isStale s s.consumer.pos = true := by
      refine any_eq_true.mpr ⟨x, hmem, ?_⟩
      rw [h.head_pos hx, show s.producers x.owner = .dead from hdead]
      simp
    have hne : lenWord x.len ≠ 0 := by
      intro h0
      have hnat := lenWord_toNat (h.len_lt hmem)
      rw [h0] at hnat
      simp at hnat
    refine .step ?_
    rw [step_consume true rfl]
    unfold consumerStep
    dsimp only [State.setPhase]
    rw [if_pos, if_neg hne]
    · show Leads c (settle s WRITING (lenWord x.len) (extent c s.consumer.pos (lenWord x.len))) _
      rw [h.extent_head hx]
      exact .here rfl
    · exact Bool.and_eq_true_iff.mpr
        ⟨decide_eq_true hlt, Bool.and_eq_true_iff.mpr ⟨hskip, hstale⟩⟩

/-- What is to be done with the oldest slot, and with the rest of them. -/
def Releasing (s : State) (x : Slot) (t : State) : Prop :=
  Onward s t ∧ t.past.slots = s.past.slots ∧ t.consumer.phase = .zeroing x.size 0

/-- From the loop's head the consumer comes to release the oldest slot. -/
theorem Inv.leads_releasing (h : Inv c s) (hq : Quiet s) (hphase : s.consumer.phase = .look)
    (hskip : s.consumer.skip = true) (hx : s.past.slots.head? = some x) :
    Leads c s (Releasing s x) := by
  refine (h.leads_settling hq hphase hskip hx).trans ?_
  rintro t rfl
  refine .step ?_
  rw [step_consume true rfl]
  unfold consumerStep
  dsimp only [State.setPhase]
  by_cases hready : (if x.stage = .settled then x.stateWord else WRITING) = READY
  · -- a record: it is returned, and released by the next call
    rw [if_pos hready]
    refine .step ?_
    rw [step_consume true rfl]
    unfold consumerStep
    dsimp only
    rw [if_neg (by rw [h.fault]; simp)]
    exact .here ⟨⟨rfl, rfl, fun _ => rfl⟩, rfl, rfl⟩
  · rw [if_neg hready]
    exact .here ⟨⟨rfl, rfl, id⟩, rfl, rfl⟩

/-- Back at the loop's head with the oldest slot gone. -/
def Released (s t : State) : Prop :=
  Onward s t ∧ t.past.slots.length + 1 = s.past.slots.length ∧ t.consumer.phase = .look

/-- The oldest slot is zeroed byte by byte and released. -/
theorem leads_released {size : ℕ} : ∀ (n : ℕ) {s : State}, Inv c s → ∀ {done : ℕ},
    s.consumer.phase = .zeroing size done → size - done = n → Leads c s (Released s)
  | 0, s, h, done, hphase, hn => by
    have hge : ¬ done < size := by omega
    have hok := h.consumer
    rw [hphase] at hok
    obtain ⟨-, x, hx, -⟩ := hok
    obtain ⟨l, hl⟩ := head?_eq_some_iff.mp hx
    refine .step (.here ?_)
    unfold step consumerStep
    dsimp only
    rw [hphase]
    dsimp only
    rw [if_neg hge]
    refine ⟨⟨rfl, ?_, id⟩, ?_, rfl⟩
    · show ((s.past.gone ++ s.past.slots.take 1) ++ s.past.slots.tail).filterMap _ = _
      rw [append_assoc, ← drop_one, take_append_drop]
      rfl
    · show s.past.slots.tail.length + 1 = _
      rw [hl]
      rfl
  | n + 1, s, h, done, hphase, hn => by
    have hlt : done < size := by omega
    refine .step ?_
    have hinv := h.consume true
    have hstep : Onward s (step c s (.consume true)) ∧
        (step c s (.consume true)).past.slots.length = s.past.slots.length ∧
        (step c s (.consume true)).consumer.phase = .zeroing size (done + 1) := by
      unfold step consumerStep
      dsimp only
      rw [hphase]
      dsimp only
      rw [if_pos hlt]
      refine ⟨⟨rfl, ?_, id⟩, ?_, rfl⟩
      · show (s.past.gone ++ onSlot _ _ s.past.slots).filterMap _ = _
        rw [filterMap_append, filterMap_onSlot, ← filterMap_append]
        · rfl
        · exact fun x => rfl
      · exact length_map _
    obtain ⟨hon, hlen, hnext⟩ := hstep
    refine (leads_released n hinv hnext (by omega)).trans ?_
    rintro t ⟨hon', hlen', hphase'⟩
    exact .here ⟨hon.trans hon', by omega, hphase'⟩

/-- Everything published is popped, and the ring is empty. -/
def Drained (s t : State) : Prop := t.past.slots = [] ∧ t.past.popped = s.published

/-- **Nothing published stays behind.**  With no producer at work on a slot, a consumer that
goes on calling returns every published record. -/
theorem drain : ∀ (n : ℕ) {s : State}, Inv c s → Quiet s → s.consumer.phase = .look →
    s.consumer.skip = true → s.past.slots.length = n → Leads c s (Drained s)
  | 0, s, h, _, hphase, _, hn => by
    have hnil := length_eq_zero_iff.mp hn
    refine .here ⟨hnil, ?_⟩
    have hheld : s.consumer.held = none := by
      have hok := h.consumer
      rw [hphase] at hok
      exact hok
    rw [h.popped]
    unfold State.returned State.published
    rw [hphase, hheld, hnil]
    rfl
  | n + 1, s, h, hq, hphase, hskip, hn => by
    obtain ⟨x, l, hl⟩ := exists_cons_of_length_eq_add_one hn
    have hx : s.past.slots.head? = some x := by rw [hl]; rfl
    refine ((h.leads_releasing hq hphase hskip hx).inv h).trans ?_
    rintro t ⟨⟨hon, hslots, hzero⟩, ht⟩
    refine ((leads_released _ ht hzero rfl).inv ht).trans ?_
    rintro u ⟨⟨hon', hlen, hlook⟩, hu⟩
    have honu := hon.trans hon'
    rw [hslots] at hlen
    refine (drain n hu (fun i => ?_) hlook (honu.skip hskip) (by omega)).trans ?_
    · rw [honu.producers]
      exact hq i
    · rintro v ⟨hnil, hpopped⟩
      exact .here ⟨hnil, hpopped.trans honu.published⟩

theorem drain_idle (h : Inv c s) (hq : Quiet s) (hphase : s.consumer.phase = .idle) :
    Leads c s (Drained s) := by
  have hinv := h.consume true
  refine .step ?_
  rw [step_consume true (by rw [hphase]; rfl)] at hinv ⊢
  unfold consumerStep at hinv ⊢
  dsimp only at hinv ⊢
  rw [hphase] at hinv ⊢
  dsimp only at hinv ⊢
  rw [if_neg (by rw [h.fault]; simp)] at hinv ⊢
  split at hinv
  · refine ((leads_released _ hinv rfl rfl).inv hinv).trans ?_
    rintro u ⟨⟨hon, -, hlook⟩, hu⟩
    refine (drain _ hu (fun i => ?_) hlook (hon.skip rfl) rfl).trans ?_
    · rw [hon.producers]
      exact hq i
    · rintro v ⟨hnil, hpopped⟩
      exact .here ⟨hnil, hpopped.trans hon.published⟩
  · exact drain _ hinv hq rfl rfl rfl

/-! ### Runs without a death -/

theorem not_dead_update {f : ℕ → Producer} {i : ℕ} {p : Producer} (hf : ∀ j, f j ≠ .dead)
    (hp : p ≠ .dead) (j : ℕ) : Function.update f i p j ≠ .dead := by
  by_cases hj : j = i
  · subst hj
    rwa [Function.update_self]
  · rw [Function.update_of_ne hj]
    exact hf j

theorem not_dead_step {a : Act} (hs : ∀ j, s.producers j ≠ .dead) (ha : ∀ i, a ≠ .die i) (j : ℕ) :
    (step c s a).producers j ≠ .dead := by
  cases a with
  | die i => exact absurd rfl (ha i)
  | start i job =>
    unfold step
    dsimp only
    cases hp : s.producers i with
    | idle => exact not_dead_update hs (by split <;> nofun) j
    | _ => exact hs j
  | tick i weak =>
    show (producerStep c s i weak).producers j ≠ .dead
    unfold producerStep
    cases hp : s.producers i with
    | idle => exact hs j
    | dead => exact hs j
    | sawBoth job read reserve =>
      unfold claimStep
      dsimp only
      split <;> split <;> try split
      all_goals
        refine not_dead_update hs ?_ j
        nofun
    | writing job pos todo =>
      obtain - | ⟨⟨k, b⟩, todo⟩ := todo
      · exact not_dead_update (p := .idle) hs nofun j
      · exact not_dead_update (p := .writing job pos todo) hs nofun j
    | enter job => exact not_dead_update (p := .sawRead job s.read) hs nofun j
    | sawRead job read => exact not_dead_update (p := .sawBoth job read s.reserve) hs nofun j
    | full job => exact not_dead_update (p := .idle) hs nofun j
    | won job pos => exact not_dead_update (p := .writing job pos job.writes) hs nofun j
    | padWon job pos tail => exact not_dead_update (p := .padded job pos tail) hs nofun j
    | padded job pos tail => exact not_dead_update (p := .enter job) hs nofun j
  | consume skip =>
    have hsame : (consumerStep c s skip).producers = s.producers := by
      unfold consumerStep settle
      dsimp only
      split <;> (try split) <;> (try split) <;> rfl
    show (consumerStep c s skip).producers j ≠ .dead
    rw [hsame]
    exact hs j

theorem not_dead_run {acts : List Act} (hs : ∀ j, s.producers j ≠ .dead)
    (ha : ∀ i, Act.die i ∉ acts) (j : ℕ) : (run c s acts).producers j ≠ .dead := by
  induction acts generalizing s with
  | nil => exact hs j
  | cons a acts ih =>
    exact ih (fun k => not_dead_step hs (fun i hi => ha i (hi ▸ mem_cons_self)) k)
      fun i hi => ha i (mem_cons_of_mem _ hi)

/-- With nobody dead the popped records are a prefix of the claimed ones. -/
theorem Inv.popped_prefix (h : Inv c s) (hs : ∀ j, s.producers j ≠ .dead) :
    s.past.popped <+: s.past.log.filterMap Event.record? := by
  have hsettled : ∀ x ∈ s.returned, x.stage = .settled := by
    intro x hx
    rcases mem_append.mp hx with hx | hx
    · exact (h.gone x hx).resolve_right (hs _)
    split at hx
    · rename_i hr
      obtain ⟨y, hy, hst⟩ := h.head_of_releasing hr
      obtain ⟨l, hl⟩ := head?_eq_some_iff.mp hy
      rw [hl] at hx
      obtain rfl := mem_singleton.mp hx
      exact hst.resolve_right (hs _)
    · cases hx
  have hpub : s.returned.filterMap Slot.published = s.returned.filterMap Slot.record :=
    filterMap_congr fun x hx => if_pos (hsettled x hx)
  have hprefix' : s.returned <+: s.past.gone ++ s.past.slots := by
    unfold State.returned
    split
    · exact (prefix_append_right_inj _).mpr ( take_prefix _ _)
    · rw [append_nil]
      exact prefix_append _ _
  rw [h.popped, hpub, ← h.claims]
  exact hprefix'.filterMap _

/-! ### The ring is an exact queue -/

theorem Chain.pairwise {p q : ℕ} : ∀ {l : List Slot}, Chain p l q →
    l.Pairwise fun x y => x.pos ≠ y.pos
  | [], _ => List.Pairwise.nil
  | x :: l, h => by
    refine pairwise_cons.mpr ⟨fun y hy hpos => ?_, h.2.pairwise⟩
    have hy' := h.2.mem hy
    have hx' := h.1
    have := x.size_pos
    omega

/-- A push of one byte, a push whose producer dies with its length stored, and two calls of
`pop_or_skip_stale`: the record, and nothing beyond the dead producer's slot. -/
def pushAndPop : List Act :=
  pushBegun ++ pushRest ++ [.start 1 (.ofBytes [9]), .tick 1 false, .tick 1 false, .tick 1 false,
    .tick 1 false, .die 1] ++ List.replicate 50 (.consume true)

/-- A push completes and its producer dies, both between the consumer's load of the slot's
state and its question to `is_stale`. -/
def dieWhileRead : List Act :=
  [.start 0 (.ofBytes [7]), .tick 0 false, .tick 0 false, .tick 0 false, .tick 0 false,
    .consume true, .consume true, .tick 0 false, .tick 0 false, .consume true,
    .consume true, .die 0, .consume true, .consume true] ++ List.replicate 17 (.consume true)

end Moruna.RecordRing
