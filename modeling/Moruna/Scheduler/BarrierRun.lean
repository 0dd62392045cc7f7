/-
Moruna/Scheduler/BarrierRun.lean

What the checkpoint barrier keeps, and where it fails.

A drive is at rest (`Drive.Rests`) when it owns no future and stands before the
pause.  While the pause is up and the run is not ending a drive at rest stays
at rest, whatever it does next (`sourceStep_rests`, `sinkStep_rests`): that is
why one look at each flag is enough, although the looks are made one after the
other.  The flag of a drive stands for rest only as long as it was stored
under the pause that is up now.  A drive that read the pause of one barrier and
stores its acknowledgement after the next barrier has reset its flag, but
before that barrier raises the pause, acknowledges a pause that it has not
seen; it may then read the pause still down and go on to its work.

* `calm` : no such store, and the run does not begin to end under the pause;
* `Inv`, `Inv.step`, `Inv.run` : what every calm run keeps;
* `barrier_quiesces` : **on a calm run a held barrier is quiet**;
* `stale_acknowledgement` : two barriers, one source, and a read issued inside
  the second; `ending_under_pause` : a held barrier and a run that ends.
-/
import Moruna.Scheduler.Barrier

namespace Moruna.Scheduler

open Finset

variable {cfg : Config} {s : State} {d : Drive} {m : Move} {i k : ℕ}

/-! ### Drives at rest -/

/-- Places before the pause, from which the pause leads back to the head of
the loop. -/
def Pc.parked : Pc → Bool
  | .outer | .outerPause | .top | .polled false | .weighing | .sawPause | .gone => true
  | _ => false

/-- A drive that owns no future and stands before the pause. -/
structure Drive.Rests (d : Drive) : Prop where
  owns : d.inflight = 0
  parked : d.pc.parked = true

/-- The places of a sink outside `write_loop`. -/
def Pc.isOuter : Pc → Bool
  | .outer | .outerPause | .outerRun | .outerReady => true
  | _ => false

/-- What holds of a drive wherever the barrier is: outside `write_loop` it owns
no future, and once drained it has left. -/
structure Drive.Ok (d : Drive) : Prop where
  outer : d.pc.isOuter = true → d.inflight = 0
  drained : d.drained = true → d.pc = .gone

/-- Whether this access of the drive stores that it is paused. -/
def Drive.acks (d : Drive) (m : Move) : Bool :=
  match d.pc, m with
  | .sawPause, .next => decide (d.inflight = 0)
  | .outerPause, .next => true
  | _, _ => false

theorem sourceStep_rests (hp : s.pause = true) (hs : s.stop = false) (h : d.Rests) :
    (sourceStep s d m).Rests := by
  obtain ⟨pc, n, p, r⟩ := d
  obtain ⟨ho, hk⟩ := h
  subst ho
  unfold sourceStep
  dsimp only
  split
  -- the head of the loop reads the mode, which is not stop
  case h_1 => exact ⟨rfl, by rw [hs]; rfl⟩
  case h_2 => exact ⟨rfl, hk⟩
  -- past the poll the pause is found up
  case h_3 stop =>
    cases stop with
    | true => cases hk
    | false => exact ⟨rfl, by rw [hp]; rfl⟩
  case h_4 => exact ⟨rfl, rfl⟩
  case h_5 => cases hk
  case h_6 => cases hk
  case h_7 => cases hk
  case h_8 => exact ⟨rfl, hk⟩

theorem sinkStep_rests (hp : s.pause = true) (he : s.ending = false) (h : d.Rests) :
    (sinkStep s d m).Rests := by
  obtain ⟨pc, n, p, r⟩ := d
  obtain ⟨ho, hk⟩ := h
  subst ho
  unfold sinkStep
  dsimp only
  split
  case h_1 => exact ⟨rfl, by rw [hp]; rfl⟩
  case h_8 => exact ⟨rfl, by rw [hp]; rfl⟩
  case h_9 => exact ⟨rfl, by rw [he]; rfl⟩
  -- what is left stays where it is, goes back to the head, or was not parked
  all_goals first | exact ⟨rfl, rfl⟩ | exact ⟨rfl, hk⟩ | cases hk

theorem sourceStep_paused (h : (sourceStep s d m).paused = true) :
    d.paused = true ∨ d.acks m = true ∧ (sourceStep s d m).Rests := by
  obtain ⟨pc, n, p, r⟩ := d
  unfold sourceStep at h ⊢
  dsimp only at h ⊢
  split at h
  case h_4 => exact .inr ⟨h, of_decide_eq_true h, rfl⟩
  case h_5 => cases h
  all_goals exact .inl h

theorem sinkStep_paused (ho : d.Ok) (h : (sinkStep s d m).paused = true) :
    d.paused = true ∨ d.acks m = true ∧ (sinkStep s d m).Rests := by
  obtain ⟨pc, n, p, r⟩ := d
  unfold sinkStep at h ⊢
  dsimp only at h ⊢
  split at h
  case h_2 => exact .inr ⟨rfl, ho.outer rfl, rfl⟩
  case h_3 => cases h
  case h_10 => exact .inr ⟨h, of_decide_eq_true h, rfl⟩
  case h_11 => cases h
  case h_14 => split at h <;> exact .inl h
  all_goals exact .inl h

theorem sourceStep_ok (h : d.Ok) : (sourceStep s d m).Ok := by
  obtain ⟨pc, n, p, r⟩ := d
  obtain ⟨hn, hr⟩ := h
  unfold sourceStep
  dsimp only
  split
  case h_3 => exact ⟨fun h => (by dsimp only at h; split at h <;> cases h),
    fun h => (by cases hr h)⟩
  case h_7 => exact ⟨fun h => (by dsimp only at h; split at h <;> cases h),
    fun h => (by cases hr h)⟩
  case h_8 => exact ⟨hn, hr⟩
  all_goals exact ⟨fun h => (by cases h), fun h => by cases hr h⟩

theorem sinkStep_ok (h : d.Ok) : (sinkStep s d m).Ok := by
  obtain ⟨pc, n, p, r⟩ := d
  obtain ⟨hn, hr⟩ := h
  unfold sinkStep
  dsimp only
  split
  -- outside `write_loop` no future is owned
  case h_1 | h_2 | h_3 | h_4 => exact ⟨fun _ => hn rfl, fun h => by cases hr h⟩
  case h_8 | h_9 =>
    exact ⟨fun h => (by dsimp only at h; split at h <;> cases h), fun h => (by cases hr h)⟩
  case h_12 =>
    refine ⟨fun h => ?_, fun h => by cases hr h⟩
    split at h
    · split at h <;> cases h
    · cases h
  case h_14 =>
    split
    · exact ⟨fun h => (by cases h), fun _ => rfl⟩
    · exact ⟨hn, hr⟩
  case h_16 => exact ⟨hn, hr⟩
  all_goals exact ⟨fun h => (by cases h), fun h => by cases hr h⟩

theorem sourceStep_drained (h : d.drained = true) : (sourceStep s d m).drained = true := by
  unfold sourceStep
  split <;> exact h

theorem sinkStep_drained (h : d.drained = true) : (sinkStep s d m).drained = true := by
  unfold sinkStep
  split
  case h_14 => split
               · rfl
               · exact h
  all_goals exact h

/-- What an access of a drive can do, whichever kind it is. -/
structure Moved (s : State) (d d' : Drive) (m : Move) : Prop where
  ok : d.Ok → d'.Ok
  drained : d.drained = true → d'.drained = true
  rests : s.pause = true → s.stop = false → s.ending = false → d.Rests → d'.Rests
  paused : d.Ok → d'.paused = true → d.paused = true ∨ d.acks m = true ∧ d'.Rests

theorem moved_spec : Moved s (s.drives i) (moved cfg s i m) m := by
  unfold moved
  split
  · exact ⟨sourceStep_ok, sourceStep_drained, fun hp hs _ => sourceStep_rests hp hs,
      fun _ => sourceStep_paused⟩
  · exact ⟨sinkStep_ok, sinkStep_drained, fun hp _ he => sinkStep_rests hp he, sinkStep_paused⟩

/-! ### What a run keeps -/

/-- The steps that break the barrier: a drive acknowledges between the reset of
its flag and the raising of the pause, or the run begins to end while the pause
is up. -/
def calm (s : State) : Act → Bool
  | .drive i m =>
    match s.control with
    | .resetting k => !((s.drives i).acks m && decide (i < k))
    | _ => true
  | .claimExit | .cancel => !s.pause
  | _ => true

/-- Whether every step of a run is calm where it is taken. -/
def calmAlong (cfg : Config) (s : State) : List Act → Bool
  | [] => true
  | a :: as => calm s a && calmAlong cfg (step cfg s a) as

def State.running (cfg : Config) (s : State) : Finset ℕ :=
  (Finset.range cfg.workers).filter (fun w => s.workers w = .running)

/-- The first `k` drives have left for good or are at rest. -/
def State.Still (s : State) (k : ℕ) : Prop :=
  ∀ i < k, (s.drives i).drained = true ∨ (s.drives i).Rests

/-- What holds where the lease holder stands. -/
def PlaceOk (cfg : Config) (s : State) : Control → Prop
  | .outside | .claimed | .opening | .clearing => s.pause = false
  | .resetting k => s.word.gate = true ∧ s.pause = false ∧ ∀ i < k, (s.drives i).paused = false
  | .checking | .leaving => s.word.gate = true ∧ s.pause = true
  | .scanning k => s.word.gate = true ∧ s.pause = true ∧ s.over = false ∧ s.Still k
  | .flag k => s.word.gate = true ∧ s.pause = true ∧ s.over = false ∧ s.Still k ∧ k < cfg.drives
  | .held =>
    s.word.gate = true ∧ s.pause = true ∧ s.over = false ∧ s.Still cfg.drives ∧ s.word.busy = 0

/-- **The invariant of a calm run.** -/
structure Inv (cfg : Config) (s : State) : Prop where
  counted : s.word.busy = (s.running cfg).card
  ended : s.over = false → s.stop = false ∧ s.ending = false
  ok : ∀ i, (s.drives i).Ok
  paused : s.pause = true → s.over = false →
    ∀ i < cfg.drives, (s.drives i).paused = true → (s.drives i).Rests
  place : PlaceOk cfg s s.control

theorem Inv.init (cfg : Config) (knob cpu : ℕ) : Inv cfg (State.init cfg knob cpu) where
  counted := by simp [State.running, State.init]
  ended := fun _ => ⟨rfl, rfl⟩
  ok := fun _ => ⟨fun _ => rfl, nofun⟩
  paused := nofun
  place := rfl

theorem Act.active_drive_of_still (hok : (s.drives i).Ok)
    (h : (s.drives i).drained = true ∨ (s.drives i).Rests) :
    (Act.drive i m).active cfg s = false := by
  unfold Act.active
  dsimp only
  rcases h with h | h
  · rw [hok.drained h]
  have hp := h.parked
  split
  next heq =>
    rw [h.owns]
    exact Bool.and_false _
  next heq => rw [heq] at hp; cases hp
  next heq => rw [heq] at hp; cases hp
  next => rfl

/-- A barrier that has looked at the flags of all drives is quiet. -/
theorem Inv.quiesced (h : Inv cfg s) (hc : s.control = .held) : Quiesced cfg s := by
  obtain ⟨_, _, _, hstill, hbusy⟩ := hc ▸ h.place
  refine ⟨fun w hw hrun => ?_, fun i hi hd => ?_, fun a => ?_⟩
  · have hmem : w ∈ s.running cfg := mem_filter.2 ⟨mem_range.2 hw, hrun⟩
    have hpos := card_pos.2 ⟨w, hmem⟩
    have hcount := h.counted
    omega
  · rcases hstill i hi with hr | hr
    · rw [hd] at hr; cases hr
    · exact hr.owns
  -- only a drive can break the quiet, and a drive at rest or gone has nothing to do
  · cases a with
    | drive i m =>
      by_cases hi : i < cfg.drives
      · exact Act.active_drive_of_still (h.ok i) (hstill i hi)
      · have hs : ¬ i < cfg.sources := fun h => hi (Nat.lt_add_right _ h)
        simp only [Act.active, hs, hi]
        split <;> rfl
    | _ => rfl

/-! ### The steps of the drives -/

theorem State.drives_setDrive (s : State) (i j : ℕ) (d : Drive) :
    (s.setDrive i d).drives j = if j = i then d else s.drives j :=
  Function.update_apply ..

theorem State.Still.setDrive (h : s.Still k)
    (hd : (s.drives i).drained = true ∨ (s.drives i).Rests → d.drained = true ∨ d.Rests) :
    (s.setDrive i d).Still k := by
  intro j hj
  rw [State.drives_setDrive]
  split
  next heq => exact hd (heq ▸ h j hj)
  next => exact h j hj

theorem Inv.drive (h : Inv cfg s) (hc : calm s (.drive i m) = true) :
    Inv cfg (driveStep cfg s i m) := by
  have hm : Moved s (s.drives i) (moved cfg s i m) m := moved_spec
  unfold driveStep
  generalize moved cfg s i m = d at hm
  -- a drive that has left or rests still does, as long as the pause is up and the run goes on
  have hstill : s.pause = true → s.over = false →
      (s.drives i).drained = true ∨ (s.drives i).Rests → d.drained = true ∨ d.Rests := by
    intro hp ho
    obtain ⟨hs, he⟩ := h.ended ho
    exact .imp hm.drained (hm.rests hp hs he)
  refine ⟨h.counted, h.ended, fun j => ?_, fun hp ho j hj => ?_, ?_⟩
  · rw [State.drives_setDrive]
    split
    · exact hm.ok (h.ok i)
    · exact h.ok j
  · rw [State.drives_setDrive]
    split
    next heq =>
      subst heq
      intro hpd
      obtain ⟨hs, he⟩ := h.ended ho
      rcases hm.paused (h.ok j) hpd with hold | ⟨-, hr⟩
      · exact hm.rests hp hs he (h.paused hp ho j hj hold)
      · exact hr
    next => exact h.paused hp ho j hj
  · have hplace := h.place
    change PlaceOk cfg (s.setDrive i d) s.control
    cases hctl : s.control with
    | resetting k =>
      rw [hctl] at hplace
      obtain ⟨hg, hp, hf⟩ := hplace
      refine ⟨hg, hp, fun j hj => ?_⟩
      rw [State.drives_setDrive]
      split
      next heq =>
        subst heq
        -- the flag is down and the access does not raise it: that would not be calm
        refine Bool.eq_false_iff.2 fun hpd => ?_
        rcases hm.paused (h.ok j) hpd with hold | ⟨hack, -⟩
        · rw [hf j hj] at hold; cases hold
        · simp [calm, hctl, hack, hj] at hc
      next => exact hf j hj
    | scanning k =>
      rw [hctl] at hplace
      obtain ⟨hg, hp, ho, hf⟩ := hplace
      exact ⟨hg, hp, ho, hf.setDrive (hstill hp ho)⟩
    | flag _ | held =>
      rw [hctl] at hplace
      obtain ⟨hg, hp, ho, hf, hrest⟩ := hplace
      exact ⟨hg, hp, ho, hf.setDrive (hstill hp ho), hrest⟩
    | _ =>
      rw [hctl] at hplace
      exact hplace

/-! ### The steps of the workers -/

variable {w : ℕ} {v : Worker}

theorem State.running_setWorker_running (s : State) (hw : w < cfg.workers) :
    (s.setWorker w .running).running cfg = insert w (s.running cfg) := by
  ext v
  simp only [State.running, State.setWorker, mem_filter, mem_range,
    mem_insert, Function.update_apply]
  split
  next heq => subst heq; simp [hw]
  next hne => simp [hne]

theorem State.running_setWorker_of_ne (cfg : Config) (s : State) (w : ℕ)
    (hv : v ≠ .running) : (s.setWorker w v).running cfg = (s.running cfg).erase w := by
  ext u
  simp only [State.running, State.setWorker, mem_filter, mem_range,
    mem_erase, Function.update_apply]
  split
  next heq => subst heq; simp [hv]
  next hne => simp [hne]

variable (h : Inv cfg s)

include h

/-- The word and the workers change, the gate stays, and under the gate the
busy count does not rise. -/
theorem Inv.reword (word : Word) (workers : ℕ → Worker)
    (hgate : word.gate = s.word.gate) (hbusy : s.word.gate = true → word.busy ≤ s.word.busy)
    (hcount : word.busy = ({ s with word := word, workers := workers }.running cfg).card) :
    Inv cfg { s with word := word, workers := workers } := by
  refine ⟨hcount, h.ended, h.ok, h.paused, ?_⟩
  have hplace := h.place
  change PlaceOk cfg { s with word := word, workers := workers } s.control
  cases hctl : s.control with
  | outside | claimed | opening | clearing =>
    rw [hctl] at hplace
    exact hplace
  | resetting k | checking | scanning k | flag k | leaving =>
    rw [hctl] at hplace
    obtain ⟨hg, hrest⟩ := hplace
    exact ⟨hgate.trans hg, hrest⟩
  | held =>
    rw [hctl] at hplace
    obtain ⟨hg, hp, ho, hf, hb⟩ := hplace
    have hle : word.busy ≤ s.word.busy := hbusy hg
    exact ⟨hgate.trans hg, hp, ho, hf, Nat.le_zero.1 (hb ▸ hle)⟩

theorem Inv.setWorker (hw : s.workers w ≠ .running)
    (hv : v ≠ .running) : Inv cfg (s.setWorker w v) := by
  refine h.reword s.word _ rfl (fun _ => le_rfl) ?_
  have hnot : w ∉ s.running cfg := fun hmem => hw (mem_filter.1 hmem).2
  have hrun := s.running_setWorker_of_ne cfg w hv
  rw [erase_eq_of_notMem hnot] at hrun
  exact h.counted.trans (congrArg Finset.card hrun).symm

theorem Inv.worker {weak : Bool} (hw : w < cfg.workers) :
    Inv cfg (workerStep s w weak) := by
  unfold workerStep
  cases hk : s.workers w with
  | idle => exact h.setWorker (by rw [hk]; nofun) nofun
  | loaded word =>
    have hne : s.workers w ≠ .running := by rw [hk]; nofun
    dsimp only
    split
    · exact h.setWorker hne nofun
    rename_i hrefuse
    split
    · exact h.setWorker hne nofun
    rename_i hsame
    -- the exchange succeeds: the word is the one read, so the gate is down
    have heq : s.word = word := by
      by_contra hne
      exact hsame (by simp [hne])
    have hdown : s.word.gate = false := by
      rw [heq]
      by_contra hup
      exact hrefuse (by simp [Word.refuses, hup])
    refine h.reword _ _ rfl (fun hup => ?_) ?_
    · rw [hdown] at hup; cases hup
    · have hnot : w ∉ s.running cfg := fun hmem => hne (mem_filter.1 hmem).2
      have hcard := congrArg Finset.card (s.running_setWorker_running hw)
      rw [card_insert_of_notMem hnot, ← h.counted] at hcard
      exact hcard.symm
  | running =>
    refine h.reword _ _ rfl (fun _ => Nat.sub_le _ _) ?_
    have hmem : w ∈ s.running cfg := mem_filter.2 ⟨mem_range.2 hw, hk⟩
    have hcard := congrArg Finset.card (s.running_setWorker_of_ne cfg w (v := .idle) nofun)
    rw [card_erase_of_mem hmem, ← h.counted] at hcard
    exact hcard.symm

/-! ### The steps of the control thread -/

theorem Inv.goto (c : Control) (hc : PlaceOk cfg s c) : Inv cfg { s with control := c } :=
  ⟨h.counted, h.ended, h.ok, h.paused, hc⟩

/-- A pass that failed starts again or gives up; either way the pause is up. -/
theorem Inv.retry (giveUp : Bool) (hg : s.word.gate = true) (hp : s.pause = true) :
    Inv cfg { s with control := if giveUp then .leaving else .checking } := by
  refine h.goto _ ?_
  split <;> exact ⟨hg, hp⟩

/-- Resetting a flag takes a promise back and makes none. -/
theorem Inv.reset (hc : s.control = .resetting k) :
    Inv cfg { s.setDrive k { s.drives k with paused := false } with
      control := .resetting (k + 1) } := by
  obtain ⟨hg, hp, hf⟩ := hc ▸ h.place
  refine ⟨h.counted, h.ended, fun j => ?_, fun hp' => ?_, hg, hp, fun j hj => ?_⟩
  · change ((s.setDrive k _).drives j).Ok
    rw [State.drives_setDrive]
    split
    · exact ⟨(h.ok k).outer, (h.ok k).drained⟩
    · exact h.ok j
  · change s.pause = true at hp'
    rw [hp] at hp'; cases hp'
  · change ((s.setDrive k _).drives j).paused = false
    rw [State.drives_setDrive]
    split
    · rfl
    next hne => exact hf j (by omega)

/-- Raising the pause: every flag was reset and none has been raised since. -/
theorem Inv.raise (hc : s.control = .resetting k) (hk : cfg.drives ≤ k) :
    Inv cfg { s with pause := true, control := .checking } := by
  obtain ⟨hg, hp, hf⟩ := hc ▸ h.place
  refine ⟨h.counted, h.ended, h.ok, fun _ _ j hj hpd => ?_, hg, rfl⟩
  change (s.drives j).paused = true at hpd
  rw [hf j (by omega)] at hpd; cases hpd

/-- One more drive is found drained or paused. -/
theorem Inv.advance (hg : s.word.gate = true) (hp : s.pause = true)
    (ho : s.over = false) (hf : s.Still k) (hd : (s.drives k).drained = true ∨ (s.drives k).Rests) :
    Inv cfg { s with control := .scanning (k + 1) } := by
  refine h.goto _ ⟨hg, hp, ho, fun j hj => ?_⟩
  rcases Nat.lt_succ_iff_lt_or_eq.1 hj with hlt | heq
  · exact hf j hlt
  · exact heq ▸ hd

theorem Inv.control {giveUp : Bool} : Inv cfg (controlStep cfg s giveUp) := by
  have hplace := h.place
  unfold controlStep
  cases hc : s.control with
  | outside =>
    rw [hc] at hplace
    dsimp only
    split
    · exact h
    · exact ⟨h.counted, h.ended, h.ok, h.paused, hplace⟩
  | claimed =>
    rw [hc] at hplace
    exact ⟨h.counted, h.ended, h.ok, h.paused, rfl, hplace, nofun⟩
  | resetting k =>
    dsimp only
    split
    next => exact h.reset hc
    next hk => exact h.raise hc (not_lt.1 hk)
  | checking =>
    rw [hc] at hplace
    obtain ⟨hg, hp⟩ := hplace
    refine h.goto _ ?_
    split
    next => exact ⟨hg, hp⟩
    next ho => exact ⟨hg, hp, Bool.eq_false_iff.2 ho, nofun⟩
  | scanning k =>
    rw [hc] at hplace
    obtain ⟨hg, hp, ho, hf⟩ := hplace
    dsimp only
    split
    next hk =>
      split
      next hpd => exact h.advance hg hp ho hf
                    (.inr (h.paused hp ho k (Nat.lt_add_right _ hk) hpd))
      next => exact h.retry giveUp hg hp
    next =>
      split
      next hk =>
        split
        next hd => exact h.advance hg hp ho hf (.inl hd)
        next => exact h.goto _ ⟨hg, hp, ho, hf, hk⟩
      split
      next hb => exact h.goto _ ⟨hg, hp, ho, fun j hj => hf j (by omega), hb⟩
      next => exact h.retry giveUp hg hp
  | flag k =>
    rw [hc] at hplace
    obtain ⟨hg, hp, ho, hf, hk⟩ := hplace
    dsimp only
    split
    next hpd => exact h.advance hg hp ho hf (.inr (h.paused hp ho k hk hpd))
    next => exact h.retry giveUp hg hp
  | held =>
    rw [hc] at hplace
    obtain ⟨hg, hp, -⟩ := hplace
    dsimp only
    split
    · exact h.goto _ ⟨hg, hp⟩
    · exact h
  | leaving => exact ⟨h.counted, h.ended, h.ok, nofun, rfl⟩
  | opening =>
    rw [hc] at hplace
    exact ⟨h.counted, h.ended, h.ok, h.paused, hplace⟩
  | clearing =>
    rw [hc] at hplace
    exact ⟨h.counted, h.ended, h.ok, h.paused, hplace⟩

/-! ### The run's end -/

theorem Inv.over (hp : s.pause = false) (exitClaimed cancelled : Bool)
    (ho : (cancelled || exitClaimed) = true) :
    Inv cfg { s with exitClaimed := exitClaimed, cancelled := cancelled } := by
  refine ⟨h.counted, fun hn => ?_, h.ok, fun hp' => ?_, ?_⟩
  · exact absurd (ho.symm.trans hn) nofun
  · exact absurd (hp.symm.trans hp') nofun
  have hplace := h.place
  change PlaceOk cfg { s with exitClaimed := exitClaimed, cancelled := cancelled } s.control
  cases hc : s.control with
  | outside | claimed | resetting k | checking | leaving | opening | clearing =>
    rw [hc] at hplace
    exact hplace
  | scanning k | flag k | held =>
    rw [hc] at hplace
    exact absurd (hp.symm.trans hplace.2.1) nofun

theorem Inv.step {a : Act} (hc : calm s a = true) : Inv cfg (step cfg s a) := by
  cases a with
  | control giveUp => exact h.control
  | drive i m =>
    unfold Scheduler.step
    dsimp only
    split
    · exact h.drive hc
    · exact h
  | worker w weak =>
    unfold Scheduler.step
    dsimp only
    split
    next hw => exact h.worker hw
    next => exact h
  | setKnob n => exact h.reword _ s.workers rfl (fun _ => le_rfl) h.counted
  | setCpu n => exact h.reword _ s.workers rfl (fun _ => le_rfl) h.counted
  | claimExit => exact h.over (Bool.not_eq_true' _ ▸ hc) true s.cancelled (Bool.or_true _)
  | cancel => exact h.over (Bool.not_eq_true' _ ▸ hc) s.exitClaimed true (Bool.true_or _)
  | publish | stopSources | stopAll =>
    unfold Scheduler.step
    dsimp only
    split
    next ho => exact { h with ended := fun hn => absurd (ho.symm.trans hn) nofun }
    next => exact h
  | takeExit =>
    refine { h with ended := fun hn => ?_ }
    obtain ⟨hs, he⟩ := h.ended hn
    refine ⟨hs, ?_⟩
    simp only [State.ending, Bool.or_eq_false_iff] at he ⊢
    exact ⟨⟨rfl, he.1.2⟩, he.2⟩

theorem Inv.run {as : List Act} (hc : calmAlong cfg s as = true) : Inv cfg (run cfg s as) := by
  induction as generalizing s with
  | nil => exact h
  | cons a as ih =>
    obtain ⟨ha, has⟩ := Bool.and_eq_true_iff.1 hc
    exact ih (h.step ha) has

omit h

/-! ### The barrier -/

/-- **On a calm run a held barrier is quiet**: whatever the threads have done
so far, as long as no acknowledgement landed between a reset and the raising of
the pause and the run did not begin to end under the pause, while the barrier
is held no worker runs a task, nothing is in flight, and no step issues a read,
services a helper, pushes a morsel or starts a write. -/
theorem barrier_quiesces (cfg : Config) (knob cpu : ℕ) (as : List Act)
    (hcalm : calmAlong cfg (State.init cfg knob cpu) as = true)
    (hheld : (run cfg (State.init cfg knob cpu) as).control = .held) :
    Quiesced cfg (run cfg (State.init cfg knob cpu) as) :=
  ((Inv.init cfg knob cpu).run hcalm).quiesced hheld

/-- One source, one sink, one worker that runs a task when the barrier is
entered, and the barrier held. -/
def enterOnce : List Act :=
  [.worker 0 false, .worker 0 false, .control false, .control false, .control false,
    .control false, .control false, .drive 0 .next, .drive 0 .next, .drive 0 .next,
    .drive 1 .next, .drive 1 .next, .worker 0 false, .control false, .control false,
    .control false, .control false, .control false]

theorem barrier_quiesces_once : calmAlong ⟨1, 1, 1⟩ (State.init ⟨1, 1, 1⟩ 1 1) enterOnce = true ∧
      Quiesced ⟨1, 1, 1⟩ (run ⟨1, 1, 1⟩ (State.init ⟨1, 1, 1⟩ 1 1) enterOnce) :=
  ⟨by decide +kernel, barrier_quiesces _ _ _ _ (by decide +kernel) (by decide +kernel)⟩

/-- One source and two barriers: the source reads the first barrier's pause,
acknowledges it a second time after the second barrier has reset its flag, reads
the pause still down, and only then is the pause raised. -/
def enterTwice : List Act :=
  [.control false, .control false, .control false, .control false, .control false,
    .drive 0 .next, .drive 0 .next, .drive 0 .next, .drive 0 .next, .drive 0 .next,
    .control false, .control false, .control true, .control false, .control false,
    .control false, .control false, .control false, .control false,
    .drive 0 .next, .drive 0 .next, .drive 0 .next, .control false, .control false,
    .control false, .control false, .drive 0 .next]

/-- **A stale acknowledgement breaks the barrier**: the second `enter` returns
`Ok` and the source, under the held barrier, issues a read. -/
theorem stale_acknowledgement :
    (run ⟨1, 0, 0⟩ (State.init ⟨1, 0, 0⟩ 1 1) enterTwice).control = .held ∧
      (Act.drive 0 .begin).active ⟨1, 0, 0⟩
        (run ⟨1, 0, 0⟩ (State.init ⟨1, 0, 0⟩ 1 1) enterTwice) = true ∧
      ((run ⟨1, 0, 0⟩ (State.init ⟨1, 0, 0⟩ 1 1)
        (enterTwice ++ [.drive 0 .begin])).drives 0).inflight = 1 := by
  decide +kernel

/-- One source and the barrier held, when an exit is claimed and the sources are told to stop. -/
def enterAndEnd : List Act :=
  List.replicate 5 (.control false) ++ List.replicate 3 (.drive 0 .next) ++
    List.replicate 2 (.control false) ++ [.claimExit, .publish, .takeExit, .stopSources] ++
    List.replicate 3 (.drive 0 .next)

/-- **So does an end under the pause**: a source that stops looks at no pause and services its
helpers. -/
theorem ending_under_pause :
    (run ⟨1, 0, 0⟩ (State.init ⟨1, 0, 0⟩ 1 1) enterAndEnd).control = .held ∧
      (Act.drive 0 .work).active ⟨1, 0, 0⟩
        (run ⟨1, 0, 0⟩ (State.init ⟨1, 0, 0⟩ 1 1) enterAndEnd) = true := by
  decide +kernel

end Moruna.Scheduler
