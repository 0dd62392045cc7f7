/-
Moruna/RecordRing/RingRun.lean

The consumer's steps, and whole runs of the ring.
-/
import Moruna.RecordRing.RingProducer

namespace Moruna.RecordRing

open List

variable {c : Capacity} {s : State}

/-! ### Steps that change the consumer's registers only -/

theorem Inv.onConsumer (h : Inv c s) (k : Consumer) (commit : ℕ) (popped : List Bytes)
    (hpos : k.pos = s.consumer.pos) (hfault : k.fault = s.consumer.fault)
    (hlive : s.consumer.phase.releasing = false)
    (hok : k.phase.Ok s.past.slots s.Dead k.held)
    (hpopped : popped = (s.past.gone ++ if k.held.isSome || k.phase.releasing
      then s.past.slots.take 1 else []).filterMap Slot.published) :
    Inv c { s with
      commit := commit
      consumer := k
      past := { s.past with popped := popped } } := { h with
  pos := hpos.trans h.pos
  fault := hfault.trans h.fault
  holds x hx := by
    refine h.holds x ?_
    have hmem := State.mem_of_mem_live hx
    unfold State.live
    rw [hlive]
    exact hmem
  consumer := hok
  popped := hpopped }

variable (h : Inv c s) (hlive : s.consumer.phase.releasing = false)

include h hlive

/-- The same from a phase that holds nothing to one that holds nothing. -/
theorem Inv.setPhase {phase : Phase} (hphase : phase.releasing = false)
    (hok : phase.Ok s.past.slots s.Dead s.consumer.held) : Inv c (s.setPhase phase) := by
  refine h.onConsumer { s.consumer with phase := phase } s.commit s.past.popped rfl rfl hlive hok ?_
  have hp := h.popped
  unfold State.returned at hp
  rw [hlive] at hp
  rw [hphase]
  exact hp

variable {x : Slot}

omit hlive in
theorem Inv.head_pos (hx : s.past.slots.head? = some x) : x.pos = s.consumer.pos := by
  obtain ⟨l, hl⟩ := head?_eq_some_iff.mp hx
  have hchain := h.layout.chain
  rw [hl] at hchain
  exact hchain.1.trans h.pos.symm

/-- A slot holds what its stage says while none is being released. -/
theorem Inv.holds_of_live
    (hx : x ∈ s.past.slots) : x.Holds := h.holds x (by unfold State.live; rw [hlive]; exact hx)

/-! ### The words of the oldest slot -/

omit h hlive in
theorem Layout.loadWord_slot {mem : Memory} {slots : List Slot} {read reserve : ℕ}
    (h : Layout c mem slots read reserve) (hx : x ∈ slots) (pre : Bytes) {rest : Bytes} {w : UInt32}
    (hb : x.bytes = pre ++ (wordBytes w ++ rest)) :
    loadWord mem (c.off x.pos + pre.length) = w := by
  have hlen := h.length x hx
  rw [hb, length_append, length_append, length_wordBytes] at hlen
  unfold loadWord
  rw [h.load_slot hx (by omega), hb, drop_left' rfl, take_left' (length_wordBytes w),
    ofNat_leNat_wordBytes]

/-- The state word of the oldest slot, and what it says. -/
theorem Inv.loadState :
    Saw s.past.slots s.Dead (loadWord s.mem (c.off s.consumer.pos + 4)) none := by
  cases hhead : s.past.slots.head? with
  | none =>
    have hnil : s.past.slots = [] := head?_eq_none_iff.mp hhead
    have hlayout := h.layout
    rw [hnil] at hlayout
    refine .inr ⟨?_, fun x hx => by rw [hnil] at hx; cases hx⟩
    unfold loadWord
    rw [hlayout.load_free]
    rfl
  | some x =>
    have hx := mem_of_head? hhead
    have hholds := h.holds_of_live hlive hx
    rw [← h.head_pos hhead]
    cases hst : x.stage with
    | settled =>
      obtain ⟨data, hb, -⟩ := hholds.settled hst
      refine .inl ⟨x, hhead, hst, ?_, nofun⟩
      have := h.layout.loadWord_slot hx _ hb
      rwa [length_wordBytes] at this
    | sized =>
      obtain ⟨data, hb⟩ := hholds.sized hst
      refine .inr ⟨?_, fun y hy _ => ⟨by cases hhead.symm.trans hy; exact hst, nofun⟩⟩
      have := h.layout.loadWord_slot hx _ hb
      rwa [length_wordBytes] at this
    | claimed =>
      have hb := hholds.claimed hst
      have hle := le_slotSize x.len
      refine .inr ⟨?_, fun y hy hd => ?_⟩
      · have hsplit : x.bytes = List.replicate 4 0 ++
            (wordBytes WRITING ++ List.replicate (x.size - 8) 0) := by
          rw [hb, show wordBytes WRITING = List.replicate 4 0 from rfl,
            replicate_append_replicate, replicate_append_replicate]
          congr 1
          unfold Slot.size
          unfold SLOT_HEAD at hle
          omega
        have := h.layout.loadWord_slot hx _ hsplit
        rwa [length_replicate] at this
      · cases hhead.symm.trans hy
        exact absurd hst (h.sized x hx hd)

variable {state word : UInt32} {done len size : ℕ}

/-- The length word of the oldest slot, where its state says anything. -/
theorem Inv.loadLen (hsaw : Saw s.past.slots s.Dead state none) :
    Saw s.past.slots s.Dead state (some (loadWord s.mem (c.off s.consumer.pos))) := by
  have hword : ∀ x, s.past.slots.head? = some x → x.stage ≠ .claimed →
      loadWord s.mem (c.off s.consumer.pos) = lenWord x.len := by
    intro x hhead hst
    have hx := mem_of_head? hhead
    have hholds := h.holds_of_live hlive hx
    rw [← h.head_pos hhead]
    cases hstage : x.stage with
    | settled =>
      obtain ⟨data, hb, -⟩ := hholds.settled hstage
      exact h.layout.loadWord_slot hx [] hb
    | sized =>
      obtain ⟨data, hb⟩ := hholds.sized hstage
      exact h.layout.loadWord_slot hx [] hb
    | claimed => exact absurd hstage hst
  rcases hsaw with ⟨x, hx, hst, hstate, -⟩ | ⟨hstate, hall⟩
  · refine .inl ⟨x, hx, hst, hstate, ?_⟩
    rintro w ⟨⟩
    exact hword x hx (by rw [hst]; nofun)
  · refine .inr ⟨hstate, fun x hx hd => ⟨(hall x hx hd).1, ?_⟩⟩
    rintro w ⟨⟩
    exact hword x hx (by rw [(hall x hx hd).1]; nofun)

omit hlive in
/-- A slot's length leaves the claimed bit free. -/
theorem Inv.len_lt (hx : x ∈ s.past.slots) : x.len < 2 ^ 31 := by
  have hin := h.layout.inside x hx
  have hcap := c.bytes_le
  have hle := le_slotSize x.len
  have : x.size = slotSize x.len := rfl
  omega

omit hlive in
/-- The extent read from a slot's own length word. -/
theorem Inv.extent_head (hx : s.past.slots.head? = some x) :
    extent c s.consumer.pos (lenWord x.len) = .ok x.size := by
  have hin := h.layout.inside x (mem_of_head? hx)
  rw [h.head_pos hx] at hin
  have hlen := h.len_lt (mem_of_head? hx)
  unfold extent
  rw [if_neg (lenWord_and_claimed hlen), lenWord_and_not_claimed hlen]
  exact if_neg (by have : x.size = slotSize x.len := rfl; omega)

/-! ### Zeroing and releasing -/

omit h hlive in
theorem Chain.onSlot_head {p q : ℕ} {l : List Slot} (h : Chain p (x :: l) q) (f : Slot → Slot) :
    RecordRing.onSlot x.pos f (x :: l) = f x :: l := by
  have hl : l.map (fun y => if y.pos = x.pos then f y else y) = l := by
    refine (map_congr_left fun y hy => ?_).trans (map_id l)
    have hy' := h.2.mem hy
    have hx' := h.1
    have := x.size_pos
    exact if_neg (by omega)
  unfold RecordRing.onSlot
  rw [map_cons, if_pos rfl, hl]

omit hlive in
theorem Inv.zeroing (hphase : s.consumer.phase = .zeroing size done) (hlt : done < size) :
    Inv c { s with
      mem := store s.mem (c.off s.consumer.pos + done) [0]
      consumer := { s.consumer with phase := .zeroing size (done + 1) }
      past := { s.past with
        slots := onSlot s.consumer.pos (fun x => { x with bytes := copyAt x.bytes done [0] })
          s.past.slots } } := by
  have hok := h.consumer
  rw [hphase] at hok
  obtain ⟨hheld, x, hhead, rfl, hle, hzero, hst⟩ := hok
  have hx := mem_of_head? hhead
  obtain ⟨l, hl⟩ := head?_eq_some_iff.mp hhead
  rw [← h.head_pos hhead]
  obtain ⟨f, hf⟩ : ∃ f : Slot → Slot, f = fun y => { y with bytes := copyAt y.bytes done [0] } :=
    ⟨_, rfl⟩
  rw [← hf]
  have hre : Rewrites f := by
    subst hf
    exact ⟨fun _ => rfl, fun _ => rfl, fun _ => rfl, fun _ => rfl⟩
  have hbytes : (f x).bytes = copyAt x.bytes done [0] := by rw [hf]
  have hstage : (f x).stage = x.stage := by rw [hf]
  have hchain := h.layout.chain
  rw [hl] at hchain
  have hslots : onSlot x.pos f s.past.slots = f x :: l := by rw [hl, hchain.onSlot_head]
  have hlive : s.live = l := by
    unfold State.live
    rw [hphase, hl]
    rfl
  have hpub : (f x).published = x.published := by
    unfold Slot.published
    rw [hstage, hre.record]
  -- what is known of a slot by its owner and stage is known of it still
  have hsame : ∀ y ∈ onSlot x.pos f s.past.slots, ∃ z ∈ s.past.slots, y.pos = z.pos ∧
      y.owner = z.owner ∧ y.stage = z.stage := by
    intro y hy
    rw [hslots] at hy
    rw [hl]
    rcases mem_cons.mp hy with rfl | hy
    · exact ⟨x, mem_cons_self, hre.pos x, hre.owner x, hstage⟩
    · exact ⟨y, mem_cons_of_mem _ hy, rfl, rfl, rfl⟩
  exact { h with
    layout := h.layout.write hx (by rw [length_singleton]; omega) hre.pos hre.len hbytes
    holds := fun y hy => by
      refine h.holds y ?_
      rw [hlive]
      have hy' : y ∈ (onSlot x.pos f s.past.slots).tail := hy
      rwa [hslots] at hy'
    owned := fun i => by
      by_cases hd : s.Dead i
      · show (s.producers i).Ok _ _ _
        rw [show s.producers i = .dead from hd]
        trivial
      · refine (h.owned i).write fun y hy hyi hys hpos => ?_
        obtain rfl := h.layout.chain.inj hy hx hpos
        exact hst.elim hys fun hs => hd (hyi ▸ hs.2)
    consumer := by
      refine ⟨hheld, f x, ?_, ?_, hlt, ?_, ?_⟩
      · show (onSlot x.pos f s.past.slots).head? = _
        rw [hslots]
        rfl
      · exact (Slot.size_congr (hre.len x)).symm
      · rw [hbytes]
        have hsplit : x.bytes = List.replicate done 0 ++ x.bytes.drop done := by
          nth_rewrite 1 [← take_append_drop done x.bytes]
          rw [hzero]
        rw [hsplit, copyAt_append length_replicate, take_append_of_le_length
          (by simp), take_of_length_le (by simp)]
        exact replicate_succ'.symm
      · rw [hstage, hre.owner]
        exact hst
    sized := fun y hy hd => by
      obtain ⟨z, hz, -, ho, hs⟩ := hsame y hy
      rw [hs]
      exact h.sized z hz (ho ▸ hd)
    attended := fun y hy hs => by
      obtain ⟨z, hz, hp, ho, hs'⟩ := hsame y hy
      rw [ho, hp]
      exact h.attended z hz (hs' ▸ hs)
    popped := by
      refine h.popped.trans ?_
      unfold State.returned
      rw [hslots, hphase, hl]
      simp only [Phase.releasing, Bool.or_true, if_true, take_succ_cons, take_zero,
        filterMap_append, filterMap_cons, hpub]
    claims := by
      show (s.past.gone ++ onSlot x.pos f s.past.slots).filterMap _ = _
      rw [filterMap_append, filterMap_onSlot hre.record, ← filterMap_append]
      exact h.claims }

omit hlive in
/-- The oldest slot, zeroed, is released: `read` moves over it. -/
theorem Inv.release (hphase : s.consumer.phase = .zeroing size done) (hge : ¬ done < size) :
    Inv c { s with
      read := s.consumer.pos + size
      consumer := { s.consumer with pos := s.consumer.pos + size, phase := .look }
      past := { s.past with
        slots := s.past.slots.tail
        gone := s.past.gone ++ s.past.slots.take 1 } } := by
  have hok := h.consumer
  rw [hphase] at hok
  obtain ⟨hheld, x, hhead, rfl, hle, hzero, hst⟩ := hok
  have hx := mem_of_head? hhead
  obtain ⟨l, hl⟩ := head?_eq_some_iff.mp hhead
  have hlen := h.layout.length x hx
  have hbytes : x.bytes = List.replicate x.size 0 := by
    rw [← take_of_length_le (l := x.bytes) (i := done) (by omega), hzero,
      show done = x.size by omega]
  have hlayout := h.layout
  rw [hl] at hlayout
  exact { h with
    layout := by
      show Layout c s.mem s.past.slots.tail (s.consumer.pos + x.size) s.reserve
      rw [hl, h.pos]
      exact hlayout.release hbytes
    pos := rfl
    holds := fun y hy => by
      refine h.holds y ?_
      unfold State.live
      rw [hphase]
      exact hy
    owned := fun i => by
      have hread : s.read ≤ s.consumer.pos + x.size := by rw [h.pos]; omega
      -- the slot released is settled or its producer is gone, so it is nobody's
      have hmem : ∀ y ∈ s.past.slots, y.owner = i → s.producers i ≠ .dead →
          y.stage ≠ .settled → y ∈ s.past.slots.tail := by
        intro y hy hyi hd hys
        rw [hl] at hy ⊢
        rcases mem_cons.mp hy with rfl | hy
        · exact absurd hst (not_or.mpr ⟨hys, fun hs => hd (hyi ▸ hs.2)⟩)
        · exact hy
      exact (h.owned i).mono hread fun hd y hy hyi hys => hmem y hy hyi hd hys
    consumer := hheld
    sized := fun y hy => h.sized y (mem_of_mem_tail hy)
    attended := fun y hy => h.attended y (mem_of_mem_tail hy)
    gone := fun y hy => by
      rcases mem_append.mp hy with hy | hy
      · exact h.gone y hy
      · rw [hl] at hy
        obtain rfl := mem_singleton.mp hy
        exact hst.imp id And.right
    popped := by
      refine h.popped.trans ?_
      unfold State.returned
      rw [hphase, hheld]
      simp [Phase.releasing]
    claims := by
      show (s.past.gone ++ s.past.slots.take 1 ++ s.past.slots.tail).filterMap _ = _
      rw [append_assoc, ← drop_one, take_append_drop]
      exact h.claims }

/-! ### The consumer's step -/

/-- The consumer settles the oldest slot: its words are its own. -/
theorem Inv.settle_head (hheld : s.consumer.held = none)
    (hx : s.past.slots.head? = some x) (hword : word = lenWord x.len)
    (hst : x.stage = .settled ∧ state = x.stateWord ∨ state = WRITING ∧ x.stage = .sized ∧
      s.Dead x.owner) :
    Inv c (settle s state word (extent c s.consumer.pos word)) := by
  rw [hword, h.extent_head hx]
  exact h.setPhase hlive rfl ⟨hheld, x, hx, rfl, rfl, hst⟩

omit h hlive

/-- A record is returned, or padding and what a dead producer left are released. -/
theorem Inv.commit (h : Inv c s) (skip : Bool)
    (hphase : s.consumer.phase = .settling state word size) : Inv c (consumerStep c s skip) := by
  have hok := h.consumer
  have hlive : s.consumer.phase.releasing = false := by rw [hphase]; rfl
  rw [hphase] at hok
  obtain ⟨hheld, x, hx, rfl, rfl, hst⟩ := hok
  obtain ⟨l, hl⟩ := head?_eq_some_iff.mp hx
  have hp := h.popped
  unfold State.returned at hp
  rw [hlive, hheld] at hp
  unfold consumerStep
  dsimp only
  rw [hphase]
  dsimp only
  split
  · rename_i hready
    -- only a settled slot with a record reads `READY`
    have hset : x.stage = .settled ∧ READY = x.stateWord := by
      rcases hst with ⟨hs, hw⟩ | ⟨hw, -⟩
      · exact ⟨hs, hready ▸ hw⟩
      · exact absurd (hready.symm.trans hw) (by decide)
    obtain ⟨r, hr⟩ : ∃ r, x.record = some r := by
      have hw := hset.2
      unfold Slot.stateWord at hw
      split at hw
      · exact Option.isSome_iff_exists.mp ‹_›
      · exact absurd hw (by decide)
    have hmem := mem_of_head? hx
    obtain ⟨data, hb, hdata⟩ := (h.holds_of_live hlive hmem).settled hset.1
    have hlen := h.len_lt hmem
    have hle := le_slotSize x.len
    have hload : load s.mem (c.off s.consumer.pos + SLOT_HEAD)
        (lenWord x.len &&& ~~~ CLAIMED).toNat = r := by
      rw [lenWord_and_not_claimed hlen, ← h.head_pos hx, h.layout.load_slot hmem hle, hb]
      exact hdata r hr
    refine h.onConsumer _ _ _ rfl rfl hlive ?_ ?_
    · rintro size ⟨⟩
      exact ⟨x, hx, rfl, hset.1, by rw [hr]; rfl⟩
    rw [hload, hp, hl]
    have hpub : x.published = some r := by
      unfold Slot.published
      rw [if_pos hset.1, hr]
    simp [hpub]
  · rename_i hready
    refine h.onConsumer _ _ _ rfl rfl hlive ?_ ?_
    · refine ⟨hheld, x, hx, rfl, Nat.zero_le _, by simp, ?_⟩
      exact hst.imp And.left And.right
    -- neither padding nor an unpublished slot has a record to return
    have hpub : x.published = none := by
      unfold Slot.published
      rcases hst with ⟨hs, hw⟩ | ⟨-, hs, -⟩
      · rw [if_pos hs]
        cases hr : x.record with
        | none => rfl
        | some r =>
          refine absurd ?_ hready
          rw [hw]
          unfold Slot.stateWord
          rw [hr]
          rfl
      · rw [if_neg (by rw [hs]; simp)]
    show s.past.popped = _
    rw [hp, hl]
    simp [Phase.releasing, hpub]

/-- `is_stale` answers for the oldest slot. -/
theorem Inv.dead_of_isStale (h : Inv c s) (hs : isStale s s.consumer.pos = true) :
    ∃ x, s.past.slots.head? = some x ∧ s.Dead x.owner := by
  obtain ⟨y, hy, hcond⟩ := any_eq_true.mp hs
  rw [Bool.and_eq_true, beq_iff_eq] at hcond
  obtain ⟨hpos, hd⟩ := hcond
  have hdead : s.Dead y.owner := by
    cases hp : s.producers y.owner with
    | dead => exact hp
    | _ => rw [hp] at hd; cases hd
  cases hhead : s.past.slots.head? with
  | none => rw [head?_eq_none_iff.mp hhead] at hy; cases hy
  | some x =>
    obtain rfl := h.layout.chain.inj hy (mem_of_head? hhead) (hpos.trans (h.head_pos hhead).symm)
    exact ⟨y, rfl, hdead⟩

theorem settle_mem (state word : UInt32) (size : Except Fault ℕ) :
    (settle s state word size).mem = s.mem := by
  unfold settle
  split <;> rfl

/-- Except while it zeroes a slot the consumer only reads the data area. -/
theorem step_consume (skip : Bool) (hr : s.consumer.phase.releasing = false) :
    step c s (.consume skip) = consumerStep c s skip := by
  have hafter : memAfter c s (.consume skip) = s.mem := by
    unfold memAfter storeOf consumerStore
    cases hphase : s.consumer.phase with
    | zeroing size done => rw [hphase] at hr; cases hr
    | _ => rfl
  have hmem : (consumerStep c s skip).mem = s.mem := by
    unfold consumerStep
    dsimp only
    cases hphase : s.consumer.phase with
    | idle => dsimp only; split <;> try split
              all_goals rfl
    | zeroing size done => rw [hphase] at hr; cases hr
    | look => rfl
    | sawState state => rfl
    | sawWord state word =>
      dsimp only
      split
      · exact settle_mem ..
      · split
        · rfl
        · exact settle_mem ..
    | asking word claimed =>
      dsimp only
      split
      · exact settle_mem ..
      · rfl
    | settling state word size => dsimp only; split <;> rfl
  show { consumerStep c s skip with mem := memAfter c s (.consume skip) } = _
  rw [hafter, ← hmem]

theorem Inv.call (h : Inv c s) (skip : Bool) (hphase : s.consumer.phase = .idle) :
    Inv c (consumerStep c s skip) := by
  have hok := h.consumer
  rw [hphase] at hok
  have hlive : s.consumer.phase.releasing = false := by rw [hphase]; rfl
  have hp := h.popped
  unfold State.returned at hp
  rw [hlive] at hp
  unfold consumerStep
  dsimp only
  rw [hphase]
  dsimp only
  rw [if_neg (by rw [h.fault]; simp)]
  split
  · rename_i size hheld
    rw [hheld] at hp
    obtain ⟨x, hx, hxs, hst, -⟩ := hok size hheld
    exact h.onConsumer { s.consumer with held := none, phase := .zeroing size 0, skip := skip }
      s.commit s.past.popped rfl rfl hlive
      ⟨rfl, x, hx, hxs, Nat.zero_le _, by simp, .inl hst⟩ hp
  · rename_i hheld
    exact h.onConsumer { s.consumer with phase := .look, skip := skip } s.commit s.past.popped rfl
      rfl hlive hheld (by rw [hp]; rfl)

/-- Both words are loaded: the slot is settled, or the consumer asks about it. -/
theorem Inv.judge (h : Inv c s) (skip : Bool)
    (hphase : s.consumer.phase = .sawWord state word) : Inv c (consumerStep c s skip) := by
  have hok := h.consumer
  rw [hphase] at hok
  obtain ⟨hheld, hsaw⟩ := hok
  have hlive : s.consumer.phase.releasing = false := by rw [hphase]; rfl
  unfold consumerStep
  dsimp only
  rw [hphase]
  dsimp only
  rcases hsaw with ⟨x, hx, hst, hstate, hword⟩ | ⟨hstate, hall⟩
  · have hsettled : state = READY ∨ state = PADDING := by
      rw [hstate]
      unfold Slot.stateWord
      split
      · exact .inl rfl
      · exact .inr rfl
    rw [if_pos hsettled]
    exact h.settle_head hlive hheld hx (hword word rfl) (.inl ⟨hst, hstate⟩)
  · rw [if_neg (by rw [hstate]; decide), if_pos hstate]
    exact h.setPhase hlive rfl ⟨hheld, .inr ⟨rfl, hall⟩⟩

theorem Inv.ask (h : Inv c s) (skip : Bool) {claimed : Bool}
    (hphase : s.consumer.phase = .asking word claimed) : Inv c (consumerStep c s skip) := by
  have hok := h.consumer
  rw [hphase] at hok
  obtain ⟨hheld, hsaw⟩ := hok
  have hlive : s.consumer.phase.releasing = false := by rw [hphase]; rfl
  unfold consumerStep
  dsimp only
  rw [hphase]
  dsimp only
  split
  · rename_i hstale
    simp only [Bool.and_eq_true] at hstale
    obtain ⟨x, hx, hdead⟩ := h.dead_of_isStale hstale.2.2
    rcases hsaw with ⟨y, hy, hst, hstate, -⟩ | ⟨-, hall⟩
    · exact absurd hstate.symm (stateWord_ne_writing y)
    obtain ⟨hst, hword⟩ := hall x hx hdead
    have hne : word ≠ 0 := by
      intro h0
      have hnat := lenWord_toNat (h.len_lt (mem_of_head? hx))
      rw [← hword word rfl, h0] at hnat
      simp at hnat
    rw [if_neg hne]
    exact h.settle_head hlive hheld hx (hword word rfl) (.inr ⟨rfl, hst, hdead⟩)
  · exact h.setPhase hlive rfl (by rw [hheld]; nofun)

/-- **The consumer's access keeps the invariant**, and never faults. -/
theorem Inv.consume (h : Inv c s) (skip : Bool) : Inv c (step c s (.consume skip)) := by
  have hok := h.consumer
  rcases hr : s.consumer.phase.releasing with - | -
  · rw [step_consume skip hr]
    cases hphase : s.consumer.phase with
    | idle => exact h.call skip hphase
    | zeroing size done =>
      rw [hphase] at hr
      cases hr
    | look =>
      rw [hphase] at hok
      unfold consumerStep
      dsimp only
      rw [hphase]
      exact h.setPhase hr rfl ⟨hok, h.loadState hr⟩
    | sawState state =>
      rw [hphase] at hok
      unfold consumerStep
      dsimp only
      rw [hphase]
      exact h.setPhase hr rfl ⟨hok.1, h.loadLen hr hok.2⟩
    | sawWord state word => exact h.judge skip hphase
    | asking word claimed => exact h.ask skip hphase
    | settling state word size => exact h.commit skip hphase
  · cases hphase : s.consumer.phase with
    | zeroing size done =>
      unfold step memAfter storeOf consumerStore consumerStep
      dsimp only
      rw [hphase]
      dsimp only
      by_cases hlt : done < size
      · rw [if_pos hlt, if_pos hlt]
        exact h.zeroing hphase hlt
      · rw [if_neg hlt, if_neg hlt]
        exact h.release hphase hlt
    | _ =>
      rw [hphase] at hr
      cases hr

/-! ### Whole runs -/

/-- Every step of the run is calm where it happens. -/
def calmAlong (c : Capacity) : State → List Act → Bool
  | _, [] => true
  | s, a :: acts => calm s a && calmAlong c (step c s a) acts

theorem Inv.step (h : Inv c s) {a : Act} (hcalm : calm s a = true) :
    Inv c (RecordRing.step c s a) := by
  cases a with
  | start i job => exact h.start i job
  | tick i weak => exact h.tick i weak
  | die i => exact h.die hcalm
  | consume skip => exact h.consume skip

theorem Inv.run {acts : List Act} (h : Inv c s) (hcalm : calmAlong c s acts = true) :
    Inv c (RecordRing.run c s acts) := by
  induction acts generalizing s with
  | nil => exact h
  | cons a acts ih =>
    unfold calmAlong at hcalm
    rw [Bool.and_eq_true] at hcalm
    exact ih (h.step hcalm.1) hcalm.2

/-- A run in which nobody dies is calm. -/
theorem calmAlong_of_no_death : ∀ (s : State) {acts : List Act},
    (∀ i, Act.die i ∉ acts) → calmAlong c s acts = true
  | _, [], _ => rfl
  | s, a :: acts, h => by
    have hcalm : calm s a = true := by
      cases a with
      | die i => exact absurd mem_cons_self (h i)
      | _ => rfl
    unfold calmAlong
    rw [hcalm, calmAlong_of_no_death _ fun i hi => h i (mem_cons_of_mem _ hi)]
    rfl

/-! ### What a producer's stores touch -/

/-- **A producer stores only into a slot it claimed and has not settled**, so never into a
byte the consumer has not released. -/
theorem Inv.store_inside (h : Inv c s) {i off : ℕ} {weak : Bool} {b : Bytes}
    (hst : storeOf c s (.tick i weak) = some (off, b)) :
    ∃ x ∈ s.past.slots, x.owner = i ∧ x.stage ≠ .settled ∧
      ∃ k, off = c.off x.pos + k ∧ k + b.length ≤ x.size := by
  have howned := h.owned i
  unfold storeOf at hst
  dsimp only at hst
  cases hp : s.producers i with
  | idle | dead | enter | sawRead | sawBoth | full => rw [hp] at hst; cases hst
  | won | padWon =>
    rw [hp] at hst howned
    cases hst
    obtain ⟨x, hx, rfl, hi, hxs, -⟩ := howned
    have hle := x.len_le
    exact ⟨x, hx, hi, by rw [hxs]; nofun, 0, rfl, by rw [length_wordBytes]; omega⟩
  | padded =>
    rw [hp] at hst howned
    cases hst
    obtain ⟨x, hx, rfl, hi, hxs, -⟩ := howned
    have hle := x.len_le
    exact ⟨x, hx, hi, by rw [hxs]; nofun, 4, rfl, by rw [length_wordBytes]; omega⟩
  | writing job pos todo =>
    rw [hp] at hst howned
    obtain ⟨x, hx, rfl, hi, hxs, hlen, -, hin, -⟩ := howned
    have hle := x.len_le
    obtain - | ⟨⟨k, b'⟩, todo⟩ := todo
    · cases hst
      exact ⟨x, hx, hi, by rw [hxs]; nofun, 4, rfl, by rw [length_wordBytes]; omega⟩
    cases hst
    have hk : k < job.len := hin (k, b') mem_cons_self
    refine ⟨x, hx, hi, by rw [hxs]; nofun, SLOT_HEAD + k, rfl, ?_⟩
    rw [length_singleton]
    unfold SLOT_HEAD
    omega

/-! ### Formatting and joining a region -/

/-- `init` gives a region that holds the header and the smallest data area a ring. -/
theorem exists_capacity_of_init (hlen : HEADER + MIN_CAPACITY ≤ len) :
    ∃ c : Capacity, c.bytes = initCapacity len ∧ HEADER + c.bytes ≤ len := by
  have hroom : MIN_CAPACITY ≤ len - HEADER := by omega
  have hne : len - HEADER ≠ 0 := by unfold MIN_CAPACITY at hroom; omega
  have hlog : 6 ≤ Nat.log2 (len - HEADER) := (Nat.le_log2 hne).mpr hroom
  have hself := Nat.log2_self_le hne
  have hbytes : 2 ^ min (Nat.log2 (len - HEADER)) 30 = initCapacity len := by
    unfold initCapacity MAX_CAPACITY
    rcases le_total (Nat.log2 (len - HEADER)) 30 with hle | hle
    · rw [Nat.min_eq_left hle, Nat.min_eq_left (Nat.pow_le_pow_right (by omega) hle)]
    · rw [Nat.min_eq_right hle, Nat.min_eq_right (Nat.pow_le_pow_right (by omega) hle)]
  refine ⟨⟨min (Nat.log2 (len - HEADER)) 30, ?_, ?_⟩, hbytes, ?_⟩
  · exact Nat.pow_le_pow_right (Nat.succ_pos 1) (le_min hlog (by omega))
  · exact Nat.pow_le_pow_right (Nat.succ_pos 1) (min_le_right _ _)
  · have hle : 2 ^ min (Nat.log2 (len - HEADER)) 30 ≤ len - HEADER :=
      le_trans (Nat.pow_le_pow_right (by omega) (min_le_left _ _)) hself
    show HEADER + 2 ^ min (Nat.log2 (len - HEADER)) 30 ≤ len
    omega

theorem checkShape_eq_ok {region : Region} : checkShape region = .ok () ↔
    region.addr % 64 = 0 ∧ HEADER + MIN_CAPACITY ≤ region.len := by
  unfold checkShape
  split
  · rename_i h
    exact ⟨nofun, fun h' => absurd h'.1 h⟩
  split
  · exact ⟨nofun, fun h' => by omega⟩
  · exact ⟨fun _ => ⟨by omega, by omega⟩, fun _ => rfl⟩

theorem initHead_eq_ok {region : Region} {head : Head} (h : initHead region = .ok head) :
    checkShape region = .ok () ∧
    head = { magic := MAGIC, capacity := initCapacity region.len } := by
  unfold initHead at h
  cases hshape : checkShape region with
  | error e => rw [hshape] at h; cases h
  | ok u => rw [hshape] at h; cases h; exact ⟨rfl, rfl⟩

theorem Inv.attach_ok (h : Inv c s) {region : Region} (hshape : checkShape region = .ok ())
    (hlen : HEADER + c.bytes ≤ region.len) :
    attach region ⟨MAGIC, c.bytes⟩ s.read s.reserve = .ok ⟨region.addr, c.bytes⟩ := by
  have hle := h.layout.chain.le
  have hw := h.layout.window
  have hmin : MIN_CAPACITY ≤ c.bytes := c.min
  have hmax : c.bytes ≤ MAX_CAPACITY := c.max
  have hpow : 2 ^ Nat.log2 c.bytes = c.bytes := by
    unfold Capacity.bytes
    rw [Nat.log2_two_pow]
  unfold attach
  rw [hshape]
  dsimp only [bind, Except.bind]
  rw [if_neg (not_not.mpr rfl), if_neg (not_not.mpr hpow), if_neg (by omega), if_neg (by omega),
    if_neg (by omega)]

/-- **A ring in use can be joined.**  In any state of any calm run on a region that `init`
formatted: `attach` accepts the region with the header `init` left, `reserve` being loaded after
`read` and as much later as the consumer leaves `read` where it is, and the handle it gives has
the run's capacity. -/
theorem attach_in_use {region : Region} {head : Head} (hinit : initHead region = .ok head) :
    ∃ c : Capacity, c.bytes = head.capacity ∧
      ∀ acts more, calmAlong c init (acts ++ more) = true →
        (run c init (acts ++ more)).read = (run c init acts).read →
        attach region head (run c init acts).read (run c init (acts ++ more)).reserve =
          .ok { base := region.addr, capacity := c.bytes } := by
  obtain ⟨hshape, rfl⟩ := initHead_eq_ok hinit
  obtain ⟨c, hc, hle⟩ := exists_capacity_of_init (checkShape_eq_ok.mp hshape).2
  refine ⟨c, hc, fun acts more hcalm hread => ?_⟩
  rw [← hread, ← hc]
  exact ((inv_init c).run hcalm).attach_ok hshape hle

/-- A data area of sixty-four bytes. -/
def smallest : Capacity := ⟨6, by decide, by decide⟩

/-- One push of one byte up to its first store, and the rest of it. -/
def pushBegun : List Act :=
  [.start 0 (.ofBytes [7]), .tick 0 false, .tick 0 false, .tick 0 false]

def pushRest : List Act := [.tick 0 false, .tick 0 false, .tick 0 false]

/-- The smallest region, joined while a push is under way: `read` is loaded when the slot is
claimed, `reserve` after the push. -/
theorem attach_in_use_pushing : initHead ⟨4096, 384⟩ = .ok ⟨MAGIC, 64⟩ ∧
    (∃ job, (run smallest init pushBegun).producers 0 = .won job 0) ∧
    attach ⟨4096, 384⟩ ⟨MAGIC, 64⟩ 0 16 = .ok ⟨4096, 64⟩ := by
  obtain ⟨c, hc, h⟩ := attach_in_use (show initHead ⟨4096, 384⟩ = .ok ⟨MAGIC, 64⟩ from rfl)
  obtain rfl : c = smallest := by
    cases c
    simp only [smallest, Capacity.mk.injEq]
    exact Nat.pow_right_injective (le_refl 2) hc
  exact ⟨rfl, ⟨_, rfl⟩, h pushBegun pushRest (by decide +kernel) (by decide +kernel)⟩

end Moruna.RecordRing
