/-
Moruna/Sinks/Reorder.lean

The reorder buffer: the wrapper that delivers morsels to any sink in sequence order.

A `write` is a future.  Its first poll takes the morsel into the buffer, later polls wait for
its turn, and with the turn it owns its payload again and runs the inner sink's write; when
that returns, the turn passes.  Every section the buffer's lock covers is one step here, and
so is the inner write's call and its return, so that any other future, a `skip` or a
cancellation may come between two of them.

* `State.Ok` — what the buffer keeps while at most one number is being written, with one lemma
  for each call: `Ok.accept`, `Ok.takeTurn`, `Ok.skip`, `Ok.passTurn`.
-/
import Moruna.Lib.OrdMap
import Moruna.Sinks.Ledger

namespace Moruna.Sinks

open Finset OrdMap

/-! ### The buffer -/

/-- One morsel waiting for its turn.  Its bytes count against the bound unless it arrived on
its turn. -/
structure Slot (α : Type) where
  payload : Option α
  bytes : ℕ
  counted : Bool

/-- What the buffer's lock guards. -/
structure State (α : Type) where
  nextExpected : ℕ
  held : OrdMap ℕ (Slot α)
  skippedAhead : Finset ℕ
  heldBytes : ℕ
  bufferBytes : ℕ
  stalled : Bool
  heldMax : ℕ
  stalls : ℕ
  cancelled : Bool
  retiring : Bool

namespace State

variable {α : Type}

def new (bufferBytes : ℕ) : State α := ⟨0, .empty, ∅, 0, bufferBytes, false, 0, 0, false, false⟩

variable (s : State α)

/-- A buffer that takes a resumed run up after the inner sink's watermark. -/
def resume (committedSeq : Option ℕ) : State α :=
  { s with
    nextExpected := committedSeq.elim 0 (· + 1)
    held := .empty
    skippedAhead := ∅
    heldBytes := 0
    stalled := false
    cancelled := false
    retiring := false }

/-- The loop of `advance`: over the numbers declared skipped, up to one that is held or was
not skipped. -/
def passSkipped (held : OrdMap ℕ (Slot α)) (skipped : Finset ℕ) (next : ℕ) : Finset ℕ × ℕ :=
  if (held.get next).isSome then (skipped, next)
  else if next ∈ skipped then passSkipped held (skipped.erase next) (next + 1)
  else (skipped, next)
termination_by skipped.card
decreasing_by exact card_erase_lt_of_mem ‹_›

/-- Move over the numbers declared skipped; a held payload wins over a skip of its number. -/
def advance : State α :=
  let (skipped, next) := passSkipped s.held s.skippedAhead s.nextExpected
  { s with nextExpected := next, skippedAhead := skipped.filter (next ≤ ·) }

/-- The stall clears at half the bound. -/
def relax : State α :=
  if s.stalled ∧ s.heldBytes ≤ s.bufferBytes / 2 then { s with stalled := false } else s

variable (seq : ℕ)

/-- The slot of a morsel that is taken in. -/
def accept (payload : α) (bytes : ℕ) : State α :=
  let counted := decide (seq ≠ s.nextExpected)
  let heldBytes := if counted then s.heldBytes + bytes else s.heldBytes
  let stalls := decide (s.bufferBytes < heldBytes ∧ s.stalled = false)
  advance { s with
    held := s.held.insert seq ⟨some payload, bytes, counted⟩
    heldBytes
    heldMax := if counted then max s.heldMax heldBytes else s.heldMax
    stalled := s.stalled || stalls
    stalls := if stalls then s.stalls + 1 else s.stalls }

/-- Take `seq` into the buffer, or refuse it. -/
def admitWrite (payload : α) (bytes : ℕ) : Except MorunaError (State α) :=
  if s.cancelled ∨ s.retiring then .error .cancelled
  else if seq < s.nextExpected ∨ seq ∈ s.skippedAhead ∨ (s.held.get seq).isSome then
    .error (.sink "sequence out of range")
  else .ok (s.accept seq payload bytes)

/-- The buffer once the slot of `seq` has left it. -/
def takeTurn (slot : Slot α) : State α :=
  relax { s with
    held := s.held.erase seq
    heldBytes := if slot.counted then s.heldBytes - slot.bytes else s.heldBytes }

/-- A poll of the wait for the turn of `seq`: `none` while it is pending. -/
def pollTurn : State α × Option (Except MorunaError α) :=
  if s.cancelled then (s, some (.error .cancelled))
  else if ¬ s.retiring ∧ s.nextExpected = seq then
    match s.held.get seq with
    | none => (s, some (.error (.sink "sequence out of range")))
    | some slot =>
      (s.takeTurn seq slot, some (slot.payload.elim (.error (.sink "sequence out of range")) .ok))
  else (s, none)

/-- The turn passes, whether the inner write succeeded or not. -/
def passTurn : State α := advance (relax { s with nextExpected := seq + 1 })

/-- The scheduler will never write `seq`. -/
def skip : State α :=
  if seq < s.nextExpected then s
  else if seq = s.nextExpected ∧ s.held.get seq = none then
    advance { s with nextExpected := s.nextExpected + 1 }
  else advance { s with skippedAhead := insert seq s.skippedAhead }

/-- The first section of `cancel_queued_writes`. -/
def beginCancel : State α := if s.cancelled ∨ s.retiring then s else { s with retiring := true }

/-- One round of its loop: the first payload still held is taken out and dropped. -/
def retireOne : State α :=
  match s.held.entries.find? fun e => e.2.payload.isSome with
  | some e => { s with held := s.held.modify e.1 fun slot => { slot with payload := none } }
  | none => s

/-- No payload is held any more. -/
def retired : Bool := s.held.entries.all fun e => e.2.payload.isNone

/-- Its last section, once the loop has found no payload. -/
def endCancel : State α :=
  { s with
    cancelled := true
    retiring := false
    heldBytes := 0
    stalled := false
    held := .empty }

/-! ### The numbers `advance` passes -/

theorem passSkipped_spec (held : OrdMap ℕ (Slot α)) (skipped : Finset ℕ) (next : ℕ) :
    next ≤ (passSkipped held skipped next).2 ∧
    (∀ n, next ≤ n → n < (passSkipped held skipped next).2 → n ∈ skipped ∧ held.get n = none) ∧
    (∀ n, n ∈ (passSkipped held skipped next).1 → n ∈ skipped) ∧
    (∀ n ∈ skipped, n < (passSkipped held skipped next).2 ∨
      n ∈ (passSkipped held skipped next).1) := by
  fun_induction passSkipped held skipped next with
  | case1 skipped next hheld =>
    exact ⟨le_rfl, fun n h₁ h₂ => absurd h₂ (by omega), fun _ h => h, fun _ h => .inr h⟩
  | case2 skipped next hheld hmem ih =>
    obtain ⟨hle, hpassed, hsub, hkeep⟩ := ih
    refine ⟨by omega, fun n h₁ h₂ => ?_, fun n h => mem_of_mem_erase (hsub n h), fun n h => ?_⟩
    · rcases eq_or_ne n next with rfl | hne
      · exact ⟨hmem, Option.not_isSome_iff_eq_none.mp hheld⟩
      · obtain ⟨hin, hnone⟩ := hpassed n (by omega) h₂
        exact ⟨mem_of_mem_erase hin, hnone⟩
    · rcases eq_or_ne n next with rfl | hne
      · exact .inl (by omega)
      · exact hkeep n (mem_erase.mpr ⟨hne, h⟩)
  | case3 skipped next hheld hmem =>
    exact ⟨le_rfl, fun n h₁ h₂ => absurd h₂ (by omega), fun _ h => h, fun _ h => .inr h⟩

/-- **What `advance` does**: it passes skipped numbers that are not held, keeps every other
skipped number, and touches nothing else. -/
theorem advance_spec : s.nextExpected ≤ s.advance.nextExpected ∧
    (∀ n, s.nextExpected ≤ n → n < s.advance.nextExpected →
      n ∈ s.skippedAhead ∧ s.held.get n = none) ∧
    (∀ n ∈ s.advance.skippedAhead, n ∈ s.skippedAhead) ∧
    (∀ n, n < s.nextExpected ∨ n ∈ s.skippedAhead →
      n < s.advance.nextExpected ∨ n ∈ s.advance.skippedAhead) := by
  obtain ⟨hle, hpassed, hsub, hkeep⟩ := passSkipped_spec s.held s.skippedAhead s.nextExpected
  refine ⟨hle, hpassed, fun n hn => hsub n (mem_filter.mp hn).1, fun n hn => ?_⟩
  rcases hn with hn | hn
  · exact .inl (lt_of_lt_of_le hn hle)
  rcases hkeep n hn with h | h
  · exact .inl h
  · by_cases hlt : n < s.advance.nextExpected
    · exact .inl hlt
    · exact .inr (mem_filter.mpr ⟨h, not_lt.mp hlt⟩)

/-- A held number is not passed. -/
theorem advance_le {s : State α} {n : ℕ} {slot : Slot α} (hle : s.nextExpected ≤ n)
    (hn : s.held.get n = some slot) : s.advance.nextExpected ≤ n := by
  by_contra hlt
  rw [(s.advance_spec.2.1 n hle (not_le.mp hlt)).2] at hn
  cases hn

/-- A change of the buffer that moves only forward: the flags of a cancellation are as they
were, no number is passed back, and none declared skipped is forgotten. -/
structure Forward (s s' : State α) : Prop where
  next_le : s.nextExpected ≤ s'.nextExpected
  keeps : ∀ n, n < s.nextExpected ∨ n ∈ s.skippedAhead →
    n < s'.nextExpected ∨ n ∈ s'.skippedAhead
  cancelled_eq : s'.cancelled = s.cancelled
  retiring_eq : s'.retiring = s.retiring

variable {s' : State α}

theorem Forward.advance {s : State α} (h : s.Forward s') : s.Forward s'.advance := by
  obtain ⟨hle, -, -, hkeep⟩ := s'.advance_spec
  exact ⟨h.next_le.trans hle, fun n hn => hkeep n (h.keeps n hn), h.cancelled_eq, h.retiring_eq⟩

theorem relax_eq : ∃ b, s.relax = { s with stalled := b } := by
  unfold relax
  split
  · exact ⟨false, rfl⟩
  · exact ⟨s.stalled, rfl⟩

theorem relax_held : s.relax.held = s.held := by
  obtain ⟨b, hb⟩ := s.relax_eq
  rw [hb]

theorem Forward.relax {s : State α} (h : s.Forward s') : s.Forward s'.relax := by
  obtain ⟨b, hb⟩ := s'.relax_eq
  rw [hb]
  exact ⟨h.next_le, h.keeps, h.cancelled_eq, h.retiring_eq⟩

theorem accept_forward (payload : α) (bytes : ℕ) : s.Forward (s.accept seq payload bytes) :=
  .advance ⟨le_rfl, fun _ h => h, rfl, rfl⟩

theorem takeTurn_forward (slot : Slot α) : s.Forward (s.takeTurn seq slot) :=
  .relax ⟨le_rfl, fun _ h => h, rfl, rfl⟩

theorem takeTurn_held (slot : Slot α) : (s.takeTurn seq slot).held = s.held.erase seq :=
  relax_held _

theorem passTurn_forward {s : State α} {seq : ℕ} (h : s.nextExpected ≤ seq) :
    s.Forward (s.passTurn seq) := by
  refine .advance (.relax ⟨?_, fun n hn => ?_, rfl, rfl⟩)
  · show s.nextExpected ≤ seq + 1
    omega
  · refine hn.imp_left fun hlt => ?_
    show n < seq + 1
    omega

theorem lt_passTurn : seq < (s.passTurn seq).nextExpected := by
  obtain ⟨hle, -⟩ := (relax { s with nextExpected := seq + 1 }).advance_spec
  obtain ⟨b, hb⟩ := State.relax_eq { s with nextExpected := seq + 1 }
  rw [hb] at hle
  show seq < (relax { s with nextExpected := seq + 1 }).advance.nextExpected
  rw [hb]
  exact hle

theorem passTurn_held : (s.passTurn seq).held = s.held := relax_held _

theorem skip_forward : s.Forward (s.skip seq) := by
  unfold skip
  split
  · exact ⟨le_rfl, fun _ h => h, rfl, rfl⟩
  split
  · refine .advance ⟨Nat.le_succ _, fun n hn => hn.imp_left fun hlt => ?_, rfl, rfl⟩
    exact Nat.lt_succ_of_lt hlt
  · exact .advance
      ⟨le_rfl, fun n hn => hn.imp_right (mem_insert_of_mem ·), rfl, rfl⟩

theorem skip_held : (s.skip seq).held = s.held := by
  unfold skip
  split
  · rfl
  · split <;> rfl

/-- A skip passes no number that is held, its own neither. -/
theorem skip_le {s : State α} {n : ℕ} {slot : Slot α} (hle : s.nextExpected ≤ n)
    (hn : s.held.get n = some slot) (seq : ℕ) : (s.skip seq).nextExpected ≤ n := by
  unfold skip
  split
  · exact hle
  split
  · rename_i hseq
    have hne : s.nextExpected ≠ n := by
      rintro rfl
      rw [← hseq.1, hseq.2] at hn
      cases hn
    exact advance_le (show s.nextExpected + 1 ≤ n by omega) hn
  · exact advance_le (s := { s with skippedAhead := insert seq s.skippedAhead }) hle hn

theorem skip_settles : seq < (s.skip seq).nextExpected ∨ seq ∈ (s.skip seq).skippedAhead := by
  unfold skip
  split
  · exact .inl ‹_›
  split
  · rename_i h
    refine .inl (lt_of_lt_of_le ?_ (advance_spec _).1)
    exact h.1 ▸ Nat.lt_succ_self _
  · exact (advance_spec _).2.2.2 seq (.inr (mem_insert_self _ _))

/-! ### What the buffer keeps -/

/-- What the buffer keeps while the writes of the `busy` numbers own their turn: held and
skipped numbers are apart and ahead, a busy number is the expected one and is in neither, and
the bytes held are those of the counted slots. -/
structure Ok (s : State α) (busy : ℕ → Prop) : Prop where
  held_ge : ∀ n slot, s.held.get n = some slot → s.nextExpected ≤ n
  apart : ∀ n slot, s.held.get n = some slot → n ∉ s.skippedAhead
  busy_next : ∀ n, busy n → s.nextExpected = n ∧ s.held.get n = none ∧ n ∉ s.skippedAhead
  bytes_eq : s.heldBytes = s.held.sum fun _ slot => if slot.counted then slot.bytes else 0

variable {s : State α} {busy : ℕ → Prop} {seq : ℕ}

variable (h : s.Ok busy)

include h

theorem Ok.mono {busy' : ℕ → Prop} (hle : ∀ n, busy' n → busy n) : s.Ok busy' :=
  ⟨h.held_ge, h.apart, fun n hn => h.busy_next n (hle n hn), h.bytes_eq⟩

theorem Ok.advance_busy {n : ℕ} (hn : busy n) : s.advance.nextExpected = n := by
  obtain ⟨hnext, -, hskip⟩ := h.busy_next n hn
  obtain ⟨hle, hpassed, -, -⟩ := s.advance_spec
  by_contra hne
  exact hskip (hnext ▸ (hpassed s.nextExpected le_rfl (by omega)).1)

theorem Ok.advance : s.advance.Ok busy := by
  obtain ⟨-, -, hsub, -⟩ := s.advance_spec
  refine ⟨fun n slot hn => ?_, fun n slot hn hin => h.apart n slot hn (hsub n hin),
    fun n hn => ?_, h.bytes_eq⟩
  · exact advance_le (h.held_ge n slot hn) hn
  · obtain ⟨-, hheld, hskip⟩ := h.busy_next n hn
    exact ⟨h.advance_busy hn, hheld, fun hin => hskip (hsub n hin)⟩

theorem Ok.relax : s.relax.Ok busy := by
  obtain ⟨b, hb⟩ := s.relax_eq
  rw [hb]
  exact ⟨h.held_ge, h.apart, h.busy_next, h.bytes_eq⟩

theorem Ok.accept (hge : s.nextExpected ≤ seq) (hskip : seq ∉ s.skippedAhead)
    (hheld : s.held.get seq = none) (hbusy : ¬ busy seq) (payload : α) (bytes : ℕ) :
    (s.accept seq payload bytes).Ok busy := by
  refine .advance ⟨fun n slot hn => ?_, fun n slot hn => ?_, fun n hn => ?_, ?_⟩
  · rcases get_insert_eq_some.mp hn with ⟨rfl, -⟩ | ⟨-, hn⟩
    · exact hge
    · exact h.held_ge n slot hn
  · rcases get_insert_eq_some.mp hn with ⟨rfl, -⟩ | ⟨-, hn⟩
    · exact hskip
    · exact h.apart n slot hn
  · obtain ⟨hnext, hnone, hout⟩ := h.busy_next n hn
    refine ⟨hnext, ?_, hout⟩
    show (s.held.insert seq _).get n = none
    have hne : n ≠ seq := fun heq => hbusy (heq ▸ hn)
    rw [get_insert, if_neg hne, hnone]
  · show (if _ then _ else _) = (s.held.insert seq _).sum _
    rw [sum_insert_of_none hheld, ← h.bytes_eq]
    by_cases hne : seq ≠ s.nextExpected <;> simp [hne, add_comm]

theorem Ok.takeTurn {slot : Slot α} (hslot : s.held.get s.nextExpected = some slot) :
    (s.takeTurn s.nextExpected slot).Ok (· = s.nextExpected) := by
  refine .relax ⟨fun n slot' hn => ?_, fun n slot' hn => ?_, fun n hn => ?_, ?_⟩
  · exact h.held_ge n slot' (get_erase_eq_some.mp hn).2
  · exact h.apart n slot' (get_erase_eq_some.mp hn).2
  · subst hn
    refine ⟨rfl, ?_, h.apart _ _ hslot⟩
    show (s.held.erase s.nextExpected).get s.nextExpected = none
    rw [get_erase, if_pos rfl]
  · have hsum := sum_erase hslot fun _ slot => if slot.counted then slot.bytes else 0
    rw [← h.bytes_eq] at hsum
    show (if slot.counted then s.heldBytes - slot.bytes else s.heldBytes) =
      (s.held.erase s.nextExpected).sum _
    split at hsum
    · simp_all
      omega
    · simp_all

theorem Ok.passTurn (hbusy : busy seq) : (s.passTurn seq).Ok fun _ => False := by
  obtain ⟨hnext, hnone, -⟩ := h.busy_next seq hbusy
  refine .advance (.relax ⟨fun n slot hn => ?_, h.apart, fun n hn => hn.elim, h.bytes_eq⟩)
  have hge := h.held_ge n slot hn
  have hne : n ≠ seq := by
    rintro rfl
    rw [show s.held.get n = some slot from hn] at hnone
    cases hnone
  show seq + 1 ≤ n
  omega

theorem Ok.skip (hheld : s.held.get seq = none) (hbusy : ¬ busy seq) : (s.skip seq).Ok busy := by
  have hne : ∀ n slot, s.held.get n = some slot → n ≠ seq := by
    rintro n slot hn rfl
    rw [hn] at hheld
    cases hheld
  unfold State.skip
  split
  · exact h
  split
  · rename_i heq
    refine .advance ⟨fun n slot hn => ?_, h.apart, fun n hn => ?_, h.bytes_eq⟩
    · have hn' := h.held_ge n slot hn
      have hn'' := hne n slot hn
      show s.nextExpected + 1 ≤ n
      omega
    · -- the expected number is busy, and it is the one skipped
      have hseq : n = seq := (h.busy_next n hn).1.symm.trans heq.1.symm
      exact absurd (hseq ▸ hn) hbusy
  · refine .advance ⟨h.held_ge, fun n slot hn hin => ?_, fun n hn => ?_, h.bytes_eq⟩
    · rcases mem_insert.mp hin with rfl | hin
      · exact hne _ slot hn rfl
      · exact h.apart n slot hn hin
    obtain ⟨hnext, hnone, hout⟩ := h.busy_next n hn
    refine ⟨hnext, hnone, fun hin => ?_⟩
    rcases mem_insert.mp hin with rfl | hin
    · exact hbusy hn
    · exact hout hin

theorem Ok.endCancel : s.endCancel.Ok busy :=
  ⟨fun _ _ hn => absurd hn (by simp [State.endCancel]),
    fun _ _ hn => absurd hn (by simp [State.endCancel]),
    fun n hn => ⟨(h.busy_next n hn).1, get_empty n, (h.busy_next n hn).2.2⟩, rfl⟩

omit h in
/-- What a round of the cancellation does to a slot. -/
theorem retireOne_get (s : State α) (n : ℕ) : s.retireOne.held.get n = s.held.get n ∨
    ∃ slot, s.held.get n = some slot ∧
      s.retireOne.held.get n = some { slot with payload := none } := by
  unfold retireOne
  split
  · rename_i e _
    show (s.held.modify e.1 _).get n = _ ∨ ∃ slot, _ ∧ (s.held.modify e.1 _).get n = _
    rw [get_modify]
    split
    · cases hn : s.held.get n with
      | none => exact .inl rfl
      | some slot => exact .inr ⟨slot, rfl, rfl⟩
    · exact .inl rfl
  · exact .inl rfl

theorem Ok.retireOne : s.retireOne.Ok busy := by
  have hback : ∀ n slot, s.retireOne.held.get n = some slot → ∃ slot',
      s.held.get n = some slot' := by
    intro n slot hn
    rcases s.retireOne_get n with heq | ⟨slot', hslot', -⟩
    · exact ⟨slot, heq ▸ hn⟩
    · exact ⟨slot', hslot'⟩
  have hrest : s.retireOne.nextExpected = s.nextExpected ∧
      s.retireOne.skippedAhead = s.skippedAhead ∧ s.retireOne.heldBytes = s.heldBytes ∧
      s.retireOne.held.sum (fun _ slot => if slot.counted then slot.bytes else 0) =
        s.held.sum fun _ slot => if slot.counted then slot.bytes else 0 := by
    unfold State.retireOne
    split
    · rename_i e _
      exact ⟨rfl, rfl, rfl, sum_modify_of_eq (m := s.held) (k := e.1)
        (f := fun slot => { slot with payload := none })
        (w := fun _ slot => if slot.counted then slot.bytes else 0) fun _ => rfl⟩
    · exact ⟨rfl, rfl, rfl, rfl⟩
  obtain ⟨hnext, hskip, hbytes, hsum⟩ := hrest
  refine ⟨fun n slot hn => ?_, fun n slot hn => ?_,
    fun n hn => ?_, by rw [hbytes, hsum, h.bytes_eq]⟩
  · obtain ⟨slot', hn'⟩ := hback n slot hn
    exact hnext ▸ h.held_ge n slot' hn'
  · obtain ⟨slot', hn'⟩ := hback n slot hn
    exact hskip ▸ h.apart n slot' hn'
  obtain ⟨hx, hnone, hout⟩ := h.busy_next n hn
  refine ⟨hnext.trans hx, ?_, hskip ▸ hout⟩
  cases hget : s.retireOne.held.get n with
  | none => rfl
  | some slot =>
    obtain ⟨slot', hn'⟩ := hback n slot hget
    rw [hnone] at hn'
    cases hn'

end State

end Moruna.Sinks
