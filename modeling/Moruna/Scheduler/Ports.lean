/-
Moruna/Scheduler/Ports.lean

A stage's calls to named ports: `StageWaits`, the record of who waits on what, and
the calls of `StagePorts::call_route`, for any number of threads.  A section under a
mutex is one step, and so is each way out of the loop of `call_route`.  A call that is
refused before its wait begins takes no step.

* `Told`, `Ok`, `Inv` : the hook hears waits and answers in turn, and the record counts
  every call.
-/
import Moruna.Lib.Registry

namespace Moruna.Scheduler

open Function List

/-! ### Who waits -/

/-- A stage's calls in progress (a `u32`, and each call holds a thread). -/
structure Waiting where
  calls : ℕ := 0
  port : String := ""

inductive StageEvent where
  | portWaiting (port : String)
  | portAnswered

def StageEvent.isWaiting : StageEvent → Bool
  | .portWaiting _ => true
  | .portAnswered => false

/-- What `StageWaits` has for one stage, and what its hook heard of it, the last first. -/
structure StageWait where
  entry : Option Waiting
  heard : List StageEvent

namespace StageWait

variable (w : StageWait)

/-- The stage waits on `port` until the guard is dropped. -/
def begin (port : String) : StageWait :=
  let waiting := w.entry.getD {}
  if waiting.calls + 1 = 1 then ⟨some ⟨1, port⟩, .portWaiting port :: w.heard⟩
  else { w with entry := some { waiting with calls := waiting.calls + 1 } }

/-- The drop of a guard. -/
def end_ : StageWait :=
  match w.entry with
  | none => w
  | some waiting =>
    if waiting.calls - 1 = 0 then ⟨none, .portAnswered :: w.heard⟩
    else { w with entry := some { waiting with calls := waiting.calls - 1 } }

/-- The port the stage waits on, when it waits. -/
def portOf : Option String := w.entry.map Waiting.port

end StageWait

/-- Waits and answers in turn, beginning with a wait; `waits` when the last is one. -/
structure Told (l : List StageEvent) (waits : Bool) : Prop where
  alternate : l.IsChain fun a b => a.isWaiting ≠ b.isWaiting
  first : ∀ e ∈ l.getLast?, e.isWaiting
  last : l.head?.any StageEvent.isWaiting = waits

theorem Told.cons {l : List StageEvent} {b : Bool} {e : StageEvent} (h : Told l b)
    (he : e.isWaiting = !b) : Told (e :: l) (!b) := by
  cases l with
  | nil =>
    obtain rfl : false = b := h.last
    exact ⟨isChain_singleton _, by simpa using he, he⟩
  | cons f t =>
    obtain rfl : f.isWaiting = b := h.last
    exact ⟨isChain_cons_cons.mpr ⟨by simp [he], h.alternate⟩, by simpa using h.first, he⟩

namespace StageWait

/-- The stage has `n` calls: it has an entry when there are any, and the hook was told. -/
structure Ok (w : StageWait) (n : ℕ) : Prop where
  entry : w.entry.map Waiting.calls = if n = 0 then none else some n
  told : Told w.heard (0 < n)

variable {w : StageWait} {n : ℕ}

theorem Ok.isSome_portOf (h : w.Ok n) : w.portOf.isSome ↔ 0 < n := by
  have he := congrArg Option.isSome h.entry
  rw [Option.isSome_map] at he
  rw [portOf, Option.isSome_map, he]
  split <;> simp <;> omega

theorem Ok.begin (h : w.Ok n) (port : String) : (w.begin port).Ok (n + 1) := by
  obtain ⟨_ | ⟨calls, q⟩, heard⟩ := w
  · obtain rfl : n = 0 := by simpa using h.entry
    exact ⟨rfl, h.told.cons rfl⟩
  · obtain ⟨hn, rfl⟩ : n ≠ 0 ∧ calls = n := by simpa [eq_comm] using h.entry
    unfold StageWait.begin
    rw [if_neg (by simpa using hn)]
    exact ⟨rfl, by simpa [Nat.pos_of_ne_zero hn] using h.told⟩

theorem Ok.end_ (h : w.Ok (n + 1)) : w.end_.Ok n := by
  obtain ⟨_ | ⟨calls, q⟩, heard⟩ := w
  · cases h.entry
  obtain rfl : calls = n + 1 := by simpa using h.entry
  unfold StageWait.end_
  dsimp only
  split
  · obtain rfl : n = 0 := ‹_›
    exact ⟨rfl, h.told.cons rfl⟩
  · have hn : n ≠ 0 := ‹_›
    exact ⟨(if_neg hn).symm, by simpa [Nat.pos_of_ne_zero hn] using h.told⟩

theorem portOf_begin {port p : String} (hp : (w.begin port).portOf = some p) :
    w.portOf = some p ∨ p = port := by
  obtain ⟨_ | ⟨calls, q⟩, heard⟩ := w
  · exact .inr (Option.some.inj hp).symm
  · unfold StageWait.begin at hp
    dsimp only at hp
    split at hp
    · exact .inr (Option.some.inj hp).symm
    · exact .inl hp

theorem portOf_end_ {p : String} (hp : w.end_.portOf = some p) : w.portOf = some p := by
  obtain ⟨_ | ⟨calls, q⟩, heard⟩ := w
  · cases hp
  · unfold StageWait.end_ at hp
    dsimp only at hp
    split at hp
    · cases hp
    · exact hp

end StageWait

/-! ### The calls -/

/-- Where a call is: its wait has begun, its port was handed it, how its loop was left. -/
inductive Place where
  | waiting | handed | answered | abandoned
deriving DecidableEq

structure Call where
  stage : ℕ
  port : String
  /-- Its route goes to the guest handler. -/
  guest : Bool
  place : Place
  /-- It has not returned. -/
  live : Bool

/-- Every call made, by its id, and the table of one guest route. -/
structure Ports where
  waits : ℕ → StageWait
  running : Finset ℕ
  calls : Registry Call

inductive PortMove where
  | call (stage : ℕ) (port : String) (guest : Bool)
  /-- `Port::begin`; the thread of a guest handler may fail to start. -/
  | hand (id : ℕ) (started : Bool)
  /-- An answer, a lost one and a dropped channel alike. -/
  | receive (id : ℕ)
  /-- The deadline or the run's cancel. -/
  | abandon (id : ℕ)
  | return_ (id : ℕ)

namespace Ports

def start : Ports := ⟨fun _ => ⟨none, []⟩, ∅, .empty⟩

variable (s : Ports)

/-- The calls of a stage between their `begin` and their return. -/
def inProgress (stage : ℕ) : ℕ :=
  s.calls.sum fun _ c => if c.live ∧ c.stage = stage then 1 else 0

/-- A call at `place` goes on to `next`, and makes the table of its guest route `running`. -/
def advance (id : ℕ) (place next : Place) (running : Finset ℕ) : Ports :=
  match s.calls.get id with
  | none => s
  | some c =>
    if c.place = place then
      { s with
        running := if c.guest then running else s.running
        calls := s.calls.modify id ({ · with place := next }) }
    else s

def step : PortMove → Ports
  | .call stage port guest => { s with
      waits := update s.waits stage ((s.waits stage).begin port)
      calls := s.calls.insert ⟨stage, port, guest, .waiting, true⟩ }
  | .hand id started =>
    s.advance id .waiting (if started then .handed else .answered) (insert id s.running)
  | .receive id => s.advance id .handed .answered s.running
  | .abandon id => s.advance id .handed .abandoned (s.running.erase id)
  | .return_ id =>
    match s.calls.get id with
    | none => s
    | some c =>
      if c.live ∧ (c.place = .answered ∨ c.place = .abandoned) then
        { s with
          waits := update s.waits c.stage (s.waits c.stage).end_
          calls := s.calls.modify id ({ · with live := false }) }
      else s

def run (moves : List PortMove) : Ports := moves.foldl step s

/-- The call is listed by its guest route: nothing but `abandon` removes it. -/
def Listed (c : Call) : Prop := c.guest ∧ (c.place = .handed ∨ c.place = .answered)

structure Inv : Prop where
  ok : ∀ stage, (s.waits stage).Ok (s.inProgress stage)
  running : ∀ id, id ∈ s.running ↔ ∃ c, s.calls.get id = some c ∧ Listed c

variable {s}

theorem Inv.start : start.Inv where
  ok _ := ⟨rfl, isChain_nil, nofun, rfl⟩
  running := by simp [Ports.start, Registry.get_empty]

theorem Inv.advance (h : s.Inv) {id : ℕ} {place next : Place} {running : Finset ℕ}
    (hr : ∀ c, s.calls.get id = some c → c.guest → c.place = place →
      (id ∈ running ↔ next = .handed ∨ next = .answered))
    (ho : ∀ i, i ≠ id → (i ∈ running ↔ i ∈ s.running)) :
    (s.advance id place next running).Inv := by
  unfold Ports.advance
  split
  · exact h
  rename_i c hc
  split
  · refine ⟨fun stage => ?_, fun i => ?_⟩
    · refine (congrArg _ (Registry.sum_modify_of_eq ?_)).mpr (h.ok stage)
      exact fun _ => rfl
    · have hi := h.running i
      obtain rfl | hne := eq_or_ne i id <;> rcases hg : c.guest with _ | _ <;>
        simp_all [Registry.get_modify, Listed]
  · exact h

theorem Inv.call (h : s.Inv) (stage : ℕ) (port : String) (guest : Bool) :
    (s.step (.call stage port guest)).Inv := by
  have hok := (h.ok stage).begin port
  have hin : ∀ s', (s.step (.call stage port guest)).inProgress s' =
      s.inProgress s' + if stage = s' then 1 else 0 := fun s' =>
    (Registry.sum_insert _ _ _).trans (by simp [inProgress])
  refine ⟨fun s' => ?_, fun i => (h.running i).trans ?_⟩
  · rw [hin]
    obtain rfl | hne := eq_or_ne s' stage
    · simpa [Ports.step] using hok
    · simpa [Ports.step, hne, hne.symm] using h.ok s'
  · simp [Ports.step, Registry.get_insert_eq_some, or_and_right, exists_or, Listed]

theorem Inv.return_ (h : s.Inv) (id : ℕ) : (s.step (.return_ id)).Inv := by
  unfold Ports.step
  dsimp only
  split
  · exact h
  rename_i c hc
  split
  · rename_i hl
    have hin := fun s' => Registry.sum_modify hc ({ · with live := false })
      fun _ d => if d.live ∧ d.stage = s' then 1 else 0
    simp only [hl.1, true_and, Bool.false_eq_true, false_and, if_false, add_zero] at hin
    have hend := h.ok c.stage
    rw [inProgress, ← hin, if_pos rfl] at hend
    refine ⟨fun s' => ?_, fun i => (h.running i).trans ?_⟩
    · obtain rfl | hne := eq_or_ne s' c.stage
      · simpa [inProgress] using hend.end_
      · have := h.ok s'
        rw [inProgress, ← hin, if_neg hne.symm] at this
        simpa [inProgress, hne] using this
    · obtain rfl | hne := eq_or_ne i id <;> simp_all [Registry.get_modify, Listed]
  · exact h

theorem Inv.step (h : s.Inv) (m : PortMove) : (s.step m).Inv := by
  cases m with
  | call stage port guest => exact h.call stage port guest
  | hand id started =>
    refine h.advance (fun _ _ _ _ => ?_) fun i hi => by simp [hi]
    cases started <;> simp
  | receive id =>
    refine h.advance (fun c hc hg hp => ?_) fun _ _ => Iff.rfl
    simp [h.running, hc, Listed, hg, hp]
  | abandon id => exact h.advance (by simp) fun i hi => by simp [hi]
  | return_ id => exact h.return_ id

theorem Inv.run (h : s.Inv) (moves : List PortMove) : (s.run moves).Inv := by
  induction moves generalizing s with
  | nil => exact h
  | cons m moves ih => exact ih (h.step m)

/-! ### The calls of one wait -/

/-- The ports a stage waits on, the one that is named among them, have `P`. -/
structure Among (s : Ports) (P : String → Prop) (stage : ℕ) : Prop where
  named : ∀ p, (s.waits stage).portOf = some p → P p
  live : ∀ id c, s.calls.get id = some c → c.live ∧ c.stage = stage → P c.port

variable {P : String → Prop} {stage : ℕ}

theorem Inv.among (h : s.Inv) (hnone : s.inProgress stage = 0) : s.Among P stage := by
  refine ⟨fun p hp => ?_, fun id c hc hl => ?_⟩
  · have := (h.ok stage).isSome_portOf.mp (by rw [hp]; rfl)
    omega
  · have hle := Registry.le_sum hc fun _ c => if c.live ∧ c.stage = stage then 1 else 0
    rw [if_pos hl] at hle
    unfold inProgress at hnone
    omega

theorem Among.advance (h : s.Among P stage) (id : ℕ) (place next : Place) (running : Finset ℕ) :
    (s.advance id place next running).Among P stage := by
  unfold Ports.advance
  split
  · exact h
  split
  · exact ⟨h.named, Registry.forall_modify (fun _ _ hc => hc) h.live⟩
  · exact h

theorem Among.step (h : s.Among P stage) {m : PortMove}
    (hm : ∀ port guest, m = .call stage port guest → P port) : (s.step m).Among P stage := by
  cases m with
  | call st port guest =>
    refine ⟨fun p hp => ?_, Registry.forall_insert (fun hl => ?_) h.live⟩
    · obtain rfl | hne := eq_or_ne stage st
      -- only the first call of a wait names its port
      · rcases StageWait.portOf_begin (by simpa [Ports.step] using hp) with hp | rfl
        · exact h.named p hp
        · exact hm p guest rfl
      · exact h.named p (by simpa [Ports.step, hne] using hp)
    · exact hm port guest (by rw [← hl.2])
  | hand id started => exact h.advance ..
  | receive id => exact h.advance ..
  | abandon id => exact h.advance ..
  | return_ id =>
    unfold Ports.step
    dsimp only
    split
    · exact h
    rename_i c _
    split
    · refine ⟨fun p hp => h.named p ?_, Registry.forall_modify (fun _ _ _ => nofun) h.live⟩
      obtain rfl | hne := eq_or_ne stage c.stage
      · exact StageWait.portOf_end_ (by simpa using hp)
      · simpa [hne] using hp
    · exact h

theorem Among.run {moves : List PortMove} (h : s.Among P stage)
    (hm : ∀ port guest, .call stage port guest ∈ moves → P port) :
    (s.run moves).Among P stage := by
  induction moves generalizing s with
  | nil => exact h
  | cons m moves ih =>
    exact ih (h.step fun port guest hc => hm port guest (by simp [hc]))
      fun port guest hc => hm port guest (mem_cons_of_mem _ hc)

/-- When the ports are one, the one that is named is waited on. -/
theorem Among.exists_live (h : s.Among P stage) (hs : s.Inv) (hone : ∀ p p', P p → P p' → p = p')
    {p : String} (hp : (s.waits stage).portOf = some p) :
    ∃ id c, s.calls.get id = some c ∧ c.live ∧ c.stage = stage ∧ c.port = p := by
  have hpos : 0 < s.inProgress stage := (hs.ok stage).isSome_portOf.mp (by rw [hp]; rfl)
  by_contra hidle
  refine hpos.ne' (Registry.sum_eq_zero fun id c hc => if_neg fun hl => hidle ?_)
  exact ⟨id, c, hc, hl.1, hl.2, hone _ _ (h.live id c hc hl) (h.named p hp)⟩

/-- Along every run each stage's calls are counted, and its hook told of them in turn.  The
port named is one that a call in progress waits on when the calls begun since the stage last had
none in progress are all of one port.  The guest route lists what it was handed until it is
abandoned: as long as none of its calls is answered, exactly those begun and neither answered
nor abandoned. -/
theorem waits_counted_and_told (moves : List PortMove) :
    let s : Ports := start.run moves
    (∀ stage, ((s.waits stage).entry.map Waiting.calls).getD 0 = s.inProgress stage ∧
      Told (s.waits stage).heard (0 < s.inProgress stage) ∧
      ((s.waits stage).portOf.isSome ↔ 0 < s.inProgress stage) ∧
      ∀ before since, moves = before ++ since → (start.run before).inProgress stage = 0 →
        (∀ port guest port' guest', .call stage port guest ∈ since →
          .call stage port' guest' ∈ since → port = port') →
        ∀ p, (s.waits stage).portOf = some p →
          ∃ id c, s.calls.get id = some c ∧ c.live ∧ c.stage = stage ∧ c.port = p) ∧
    (∀ id, id ∈ s.running ↔ ∃ c, s.calls.get id = some c ∧ Listed c) ∧
    ((∀ id c, s.calls.get id = some c → c.guest → c.place ≠ .answered) →
      ∀ id, id ∈ s.running ↔ ∃ c, s.calls.get id = some c ∧
        (c.guest ∧ c.place ≠ .waiting) ∧ c.place ≠ .answered ∧ c.place ≠ .abandoned) := by
  intro s
  have h : s.Inv := Inv.start.run moves
  refine ⟨fun stage => ⟨?_, (h.ok stage).told, (h.ok stage).isSome_portOf, ?_⟩, h.running,
    fun hno id => (h.running id).trans (exists_congr fun c => and_congr_right fun hc => ?_)⟩
  · rw [(h.ok stage).entry]
    split <;> simp_all
  · intro before since hmoves hnone hone p hp
    have hamong : s.Among (fun p => ∃ guest, .call stage p guest ∈ since) stage := by
      rw [show s = (start.run before).run since by simp [s, hmoves, Ports.run]]
      exact ((Inv.start.run before).among hnone).run fun port guest hc => ⟨guest, hc⟩
    refine hamong.exists_live h ?_ hp
    rintro p p' ⟨guest, hcall⟩ ⟨guest', hcall'⟩
    exact hone _ _ _ _ hcall hcall'
  · have := hno id c hc
    unfold Listed
    cases hp : c.place <;> simp_all

/-- A wait on `a` that was answered, and one on `b` with two calls, the first abandoned. -/
def onceA : List PortMove := [.call 0 "a" false, .hand 0 true, .receive 0, .return_ 0]

def thenB : List PortMove :=
  [.call 0 "b" true, .call 0 "b" true, .hand 1 true, .abandon 1, .return_ 1, .hand 2 true]

theorem waits_counted_and_told_again :
    let s : Ports := start.run (onceA ++ thenB)
    (∃ id c, s.calls.get id = some c ∧ c.live ∧ c.stage = 0 ∧ c.port = "b") ∧
    (2 ∈ s.running ↔ ∃ c, s.calls.get 2 = some c ∧
      (c.guest ∧ c.place ≠ .waiting) ∧ c.place ≠ .answered ∧ c.place ≠ .abandoned) := by
  obtain ⟨h, -, htable⟩ := waits_counted_and_told (onceA ++ thenB)
  refine ⟨(h 0).2.2.2 onceA thenB rfl (by decide) (by simp [thenB]) "b" rfl, htable ?_ 2⟩
  intro id c hc
  match id, hc with
  | 0, hc => obtain rfl := Option.some.inj hc; nofun
  | 1, hc => obtain rfl := Option.some.inj hc; nofun
  | 2, hc => obtain rfl := Option.some.inj hc; nofun
  | _ + 3, hc => cases hc

/-- A stage calls `a` and `b` through the guest route, and the first is answered: with only
the second in progress the port is still `a`, and the route still lists the first. -/
theorem answered_port_still_named :
    let s : Ports := start.run [.call 0 "a" true, .call 0 "b" true, .hand 0 true, .hand 1 true,
      .receive 0, .return_ 0]
    (s.waits 0).portOf = some "a" ∧ 0 ∈ s.running ∧ s.calls.next = 2 ∧
      s.calls.get 0 = some ⟨0, "a", true, .answered, false⟩ ∧
      s.calls.get 1 = some ⟨0, "b", true, .handed, true⟩ := by
  exact ⟨rfl, by decide, rfl, rfl, rfl⟩

end Ports

end Moruna.Scheduler
