/-
Moruna/Sinks/ReorderRun.lean

Runs of a reorder buffer: writes polled in any order, skips of any number, a cancellation, and
inner writes that take any number of polls and may fail.

While an inner write is in progress its number is still the expected one and no longer held, so
the buffer cannot tell it from a number that was never written.  A write or a skip of just that
number, or a skip of a number that is still waiting, breaks the order; every run without such a
call keeps it.

* `run_in_order` — **a careful run delivers in strictly increasing order, once**;
* `twice_delivers_twice` — a second write of the number being written is delivered beside it.
-/
import Moruna.Lib.Registry
import Moruna.Sinks.Reorder

namespace Moruna.Sinks

open Registry List

/-! ### Futures and runs -/

/-- Where a `write` stands: not polled yet; waiting for its turn; with its payload, about to
call the inner write; in it; back from it, about to pass the turn; or resolved, by the
admission, by the wait or by the inner write. -/
inductive Phase (α : Type)
  | fresh
  | waiting
  | entering (payload : α)
  | writing
  | returning (outcome : Except MorunaError Unit)
  | refused (e : MorunaError)
  | turned (e : MorunaError)
  | finished (outcome : Except MorunaError Unit)
  deriving DecidableEq

namespace Phase

variable {α : Type}

/-- It was not polled yet. -/
def isFresh : Phase α → Bool
  | fresh => true
  | _ => false

def busy : Phase α → Bool
  | entering _ | writing | returning _ => true
  | _ => false

/-- The buffer took the morsel in. -/
def accepted : Phase α → Bool
  | fresh | refused _ => false
  | _ => true

/-- The inner write was called. -/
def forwarded : Phase α → Bool
  | writing | returning _ | finished _ => true
  | _ => false

end Phase

/-- A `write` and how far it is. -/
structure Future (α : Type) where
  seq : ℕ
  payload : α
  phase : Phase α
  deriving DecidableEq

/-- The buffer with its writes; `calls` are the inner sink's writes in their order, with the
future each came from, and `skipped` the numbers declared skipped. -/
structure World (α : Type) where
  buffer : State α
  futures : Registry (Future α)
  calls : List (ℕ × ℕ × α)
  skipped : List ℕ

/-- One step: a call of `write`, one section of one future, a `skip`, or one section of a
cancellation.  A poll of an inner write brings its answer. -/
inductive Op (α : Type)
  | write (seq : ℕ) (payload : α)
  | poll (i : ℕ) (answer : Option (Except MorunaError Unit))
  | skip (seq : ℕ)
  | beginCancel
  | retireOne
  | endCancel

namespace World

variable {α : Type}

/-- Future `i` is in phase `p`. -/
def become (w : World α) (i : ℕ) (p : Phase α) : World α :=
  { w with futures := w.futures.modify i fun f => { f with phase := p } }

variable (bytes : α → ℕ)

/-- The next section of future `i`. -/
def poll (w : World α) (i : ℕ) (answer : Option (Except MorunaError Unit)) : World α :=
  match w.futures.get i with
  | none => w
  | some f =>
    match f.phase with
    | .fresh =>
      match w.buffer.admitWrite f.seq f.payload (bytes f.payload) with
      | .ok buffer => { w with buffer }.become i .waiting
      | .error e => w.become i (.refused e)
    | .waiting =>
      match w.buffer.pollTurn f.seq with
      | (buffer, none) => { w with buffer }
      | (buffer, some (.ok payload)) => { w with buffer }.become i (.entering payload)
      | (buffer, some (.error e)) => { w with buffer }.become i (.turned e)
    | .entering payload => { w with calls := w.calls ++ [(i, f.seq, payload)] }.become i .writing
    | .writing => answer.elim w fun outcome => w.become i (.returning outcome)
    | .returning outcome =>
      { w with buffer := w.buffer.passTurn f.seq }.become i (.finished outcome)
    | .refused _ | .turned _ | .finished _ => w

def step (w : World α) : Op α → World α
  | .write seq payload => { w with futures := w.futures.insert ⟨seq, payload, .fresh⟩ }
  | .poll i answer => w.poll bytes i answer
  | .skip seq => { w with buffer := w.buffer.skip seq, skipped := seq :: w.skipped }
  | .beginCancel => { w with buffer := w.buffer.beginCancel }
  | .retireOne => if w.buffer.retiring then { w with buffer := w.buffer.retireOne } else w
  | .endCancel =>
    if w.buffer.retiring ∧ w.buffer.retired then { w with buffer := w.buffer.endCancel } else w

def run (w : World α) (ops : List (Op α)) : World α := ops.foldl (step bytes) w

/-- A buffer of `bufferBytes`, new or resumed after the inner sink's watermark. -/
def start (bufferBytes : ℕ) (committedSeq : Option ℕ) : World α :=
  ⟨(State.new bufferBytes).resume committedSeq, .empty, [], []⟩

/-- A write owns the turn for number `n`. -/
def BusyAt (w : World α) (n : ℕ) : Prop :=
  ∃ i f, w.futures.get i = some f ∧ f.phase.busy ∧ f.seq = n

/-- The same, computed. -/
def owns (w : World α) (n : ℕ) : Bool :=
  (List.range w.futures.next).any fun i => (w.futures.get i).any fun f => f.phase.busy && f.seq == n

variable {j n seq : ℕ}

theorem owns_iff {w : World α} : w.owns n = true ↔ w.BusyAt n := by
  simp only [owns, any_eq_true, mem_range, Option.any_eq_true, Bool.and_eq_true, beq_iff_eq]
  constructor
  · rintro ⟨i, -, f, hi, hb, hn⟩
    exact ⟨i, f, hi, hb, hn⟩
  · rintro ⟨i, f, hi, hb, hn⟩
    exact ⟨i, lt_next hi, f, hi, hb, hn⟩

/-- No write comes of a number whose write owns the turn, and no skip of a number whose write
owns the turn or that is held. -/
def careful (w : World α) : Op α → Bool
  | .poll i _ => (w.futures.get i).all fun f => !(f.phase.isFresh && w.owns f.seq)
  | .skip seq => !w.owns seq && (w.buffer.held.get seq).isNone
  | _ => true

def carefulRun (bytes : α → ℕ) (w : World α) : List (Op α) → Bool
  | [] => true
  | op :: ops => w.careful op && carefulRun bytes (w.step bytes op) ops

/-- The inner write future `i` has made, when it has made one. -/
def callsOf (i : ℕ) : Option (Future α) → List (ℕ × ℕ × α)
  | some f => if f.phase.forwarded then [(i, f.seq, f.payload)] else []
  | none => []

/-! ### The invariant -/

structure Inv (w : World α) : Prop where
  ok : w.buffer.Ok w.BusyAt
  one : ∀ i j f g, w.futures.get i = some f → w.futures.get j = some g →
    f.phase.busy → g.phase.busy → i = j
  -- a waiting write has its slot, with its payload until a cancellation drops it
  waiting : w.buffer.cancelled = false → ∀ i f, w.futures.get i = some f → f.phase = .waiting →
    ∃ slot, w.buffer.held.get f.seq = some slot ∧
      (slot.payload = some f.payload ∨ w.buffer.retiring = true)
  alone : w.buffer.cancelled = false → ∀ i j f g, w.futures.get i = some f →
    w.futures.get j = some g → f.phase = .waiting → g.phase = .waiting → f.seq = g.seq → i = j
  entering : ∀ i f p, w.futures.get i = some f → f.phase = .entering p → p = f.payload
  turned : ∀ i f e, w.futures.get i = some f → f.phase = .turned e →
    e = .cancelled ∧ w.buffer.cancelled = true
  finished : ∀ i f o, w.futures.get i = some f → f.phase = .finished o →
    f.seq < w.buffer.nextExpected
  skipped : ∀ n ∈ w.skipped, n < w.buffer.nextExpected ∨ n ∈ w.buffer.skippedAhead
  increasing : (w.calls.map fun c => c.2.1).Pairwise (· < ·)
  below : ∀ c ∈ w.calls, c.2.1 < w.buffer.nextExpected ∨
    ∃ i f, w.futures.get i = some f ∧ f.phase.busy ∧ f.phase.forwarded ∧ f.seq = c.2.1
  calls_of : ∀ i, w.calls.filter (fun c => c.1 = i) = callsOf i (w.futures.get i)

variable {w : World α} {i : ℕ} {f : Future α} {p : Phase α}

variable (h : w.Inv) (hi : w.futures.get i = some f)

include h hi

omit h in
theorem get_become {g : Future α} : (w.become i p).futures.get j = some g ↔
      (j = i ∧ g = { f with phase := p }) ∨ (j ≠ i ∧ w.futures.get j = some g) := by
  show (w.futures.modify i _).get j = some g ↔ _
  rw [get_modify]
  rcases eq_or_ne j i with rfl | hne
  · simp [hi, eq_comm]
  · simp [hne]

omit h hi in
theorem get_become_ne (hne : j ≠ i) : (w.become i p).futures.get j = w.futures.get j := by
  show (w.futures.modify i _).get j = _
  rw [get_modify, if_neg hne]

omit h in
theorem busyAt_become (h : (w.become i p).BusyAt n) :
    (p.busy ∧ n = f.seq) ∨ w.BusyAt n := by
  obtain ⟨j, g, hj, hb, rfl⟩ := h
  rcases (get_become hi).mp hj with ⟨-, rfl⟩ | ⟨-, hj⟩
  · exact .inl ⟨hb, rfl⟩
  · exact .inr ⟨j, g, hj, hb, rfl⟩

/-- The calls of each future, when one moves on without a call. -/
theorem calls_of_become (hf : p.forwarded = f.phase.forwarded) (j : ℕ) :
    w.calls.filter (fun c => c.1 = j) = callsOf j ((w.become i p).futures.get j) := by
  rw [h.calls_of j]
  rcases eq_or_ne j i with rfl | hne
  · rw [hi, (get_become hi).mpr (.inl ⟨rfl, rfl⟩)]
    simp only [callsOf, hf]
  · rw [get_become_ne hne]

variable {b : State α}

/-- **A future moves on and the buffer moves forward.**  The other futures keep their slots, and
the one that moved meets what its new phase asks. -/
theorem Inv.move {calls : List (ℕ × ℕ × α)}
    (hfwd : w.buffer.Forward b) (hok : b.Ok (w.become i p).BusyAt)
    (hone : p.busy → ∀ j g, w.futures.get j = some g → g.phase.busy → j = i)
    (hslots : w.buffer.cancelled = false → ∀ j g, j ≠ i → w.futures.get j = some g →
      g.phase = .waiting → b.held.get g.seq = w.buffer.held.get g.seq ∧
      (p = .waiting → g.seq ≠ f.seq))
    (hwait : p = .waiting → ∃ slot, b.held.get f.seq = some slot ∧ slot.payload = some f.payload)
    (henter : ∀ q, p = .entering q → q = f.payload)
    (hturn : ∀ e, p = .turned e → e = .cancelled ∧ w.buffer.cancelled = true)
    (hfinish : ∀ o, p = .finished o → f.seq < b.nextExpected)
    (hincr : (calls.map fun c => c.2.1).Pairwise (· < ·))
    (hbelow : ∀ c ∈ calls, c.2.1 < b.nextExpected ∨ ∃ j g, (w.become i p).futures.get j = some g ∧
      g.phase.busy ∧ g.phase.forwarded ∧ g.seq = c.2.1)
    (hcalls : ∀ j, calls.filter (fun c => c.1 = j) = callsOf j ((w.become i p).futures.get j)) :
    ({ w with buffer := b, calls }.become i p).Inv := by
  have hlive : b.cancelled = false → w.buffer.cancelled = false := hfwd.cancelled_eq.symm.trans
  refine ⟨hok, ?_, ?_, ?_, ?_, ?_, ?_, fun n hn => hfwd.keeps n (h.skipped n hn), hincr, hbelow,
    hcalls⟩
  · intro j k g g' hj hk hb hb'
    rcases (get_become hi).mp hj with ⟨hji, rfl⟩ | ⟨-, hj⟩ <;>
      rcases (get_become hi).mp hk with ⟨hki, rfl⟩ | ⟨-, hk⟩
    · exact hji.trans hki.symm
    · exact hji.trans (hone hb k g' hk hb').symm
    · exact (hone hb' j g hj hb).trans hki.symm
    · exact h.one j k g g' hj hk hb hb'
  · intro hc j g hj hp
    rcases (get_become hi).mp hj with ⟨-, rfl⟩ | ⟨hne, hj⟩
    · obtain ⟨slot, hslot, hpay⟩ := hwait hp
      exact ⟨slot, hslot, .inl hpay⟩
    · obtain ⟨slot, hslot, hpay⟩ := h.waiting (hlive hc) j g hj hp
      exact ⟨slot, (hslots (hlive hc) j g hne hj hp).1.trans hslot,
        hpay.imp_right hfwd.retiring_eq.trans⟩
  · intro hc j k g g' hj hk hp hp' hseq
    rcases (get_become hi).mp hj with ⟨hji, rfl⟩ | ⟨hj', hj⟩ <;>
      rcases (get_become hi).mp hk with ⟨hki, rfl⟩ | ⟨hk', hk⟩
    · exact hji.trans hki.symm
    · exact absurd hseq.symm ((hslots (hlive hc) k g' hk' hk hp').2 hp)
    · exact absurd hseq ((hslots (hlive hc) j g hj' hj hp).2 hp')
    · exact h.alone (hlive hc) j k g g' hj hk hp hp' hseq
  · intro j g q hj hq
    rcases (get_become hi).mp hj with ⟨-, rfl⟩ | ⟨-, hj⟩
    · exact henter q hq
    · exact h.entering j g q hj hq
  · intro j g e hj he
    refine .imp_right hfwd.cancelled_eq.trans ?_
    rcases (get_become hi).mp hj with ⟨-, rfl⟩ | ⟨-, hj⟩
    · exact hturn e he
    · exact h.turned j g e hj he
  · intro j g o hj ho
    rcases (get_become hi).mp hj with ⟨-, rfl⟩ | ⟨-, hj⟩
    · exact hfinish o ho
    · exact lt_of_lt_of_le (h.finished j g o hj ho) hfwd.next_le

/-- The calls stay below the turn or with its owner, when a future moves on without a call. -/
theorem Inv.below_become (hfwd : w.buffer.Forward b)
    (hown : f.phase.busy → f.phase.forwarded → p.busy ∧ p.forwarded ∨ f.seq < b.nextExpected) :
    ∀ c ∈ w.calls, c.2.1 < b.nextExpected ∨
      ∃ j g, (w.become i p).futures.get j = some g ∧ g.phase.busy ∧ g.phase.forwarded ∧
        g.seq = c.2.1 := by
  intro c hc
  rcases h.below c hc with hlt | ⟨j, g, hj, hb, hf, hseq⟩
  · exact .inl (lt_of_lt_of_le hlt hfwd.next_le)
  rcases eq_or_ne j i with rfl | hne
  · obtain rfl : f = g := Option.some.inj (hi.symm.trans hj)
    rcases hown hb hf with ⟨hb', hf'⟩ | hlt
    · exact .inr ⟨j, _, (get_become hi).mpr (.inl ⟨rfl, rfl⟩), hb', hf', hseq⟩
    · exact .inl (hseq ▸ hlt)
  · exact .inr ⟨j, g, (get_become hi).mpr (.inr ⟨hne, hj⟩), hb, hf, hseq⟩

/-- **A future moves on and the buffer is as it was.** -/
theorem Inv.rephase (hbusy : p.busy = f.phase.busy) (hforward : p.forwarded = f.phase.forwarded)
    (hwait : p ≠ .waiting) (henter : ∀ q, p ≠ .entering q) (hfinish : ∀ o, p ≠ .finished o)
    (hturn : ∀ e, p = .turned e → e = .cancelled ∧ w.buffer.cancelled = true) :
    (w.become i p).Inv := by
  have hfwd : w.buffer.Forward w.buffer := ⟨le_rfl, fun _ hn => hn, rfl, rfl⟩
  refine h.move hi hfwd (h.ok.mono fun n hn => ?_) ?_
    (fun _ _ _ _ _ _ => ⟨rfl, fun hp => absurd hp hwait⟩) (fun hp => absurd hp hwait)
    (fun q hq => absurd hq (henter q)) hturn (fun o ho => absurd ho (hfinish o)) h.increasing
    (h.below_become hi hfwd fun hb hf => .inl ⟨hbusy.trans hb, hforward.trans hf⟩)
    (calls_of_become h hi hforward)
  · rcases busyAt_become hi hn with ⟨hb, rfl⟩ | hn
    · exact ⟨i, f, hi, hbusy ▸ hb, rfl⟩
    · exact hn
  · intro hb j g hj hb'
    exact h.one j i g f hj hi hb' (hbusy ▸ hb)

omit hi in
/-- **The buffer changes and the futures are as they were.** -/
theorem Inv.rebuffer {skipped : List ℕ} (hok : b.Ok w.BusyAt)
    (hnext : w.buffer.nextExpected ≤ b.nextExpected)
    (hcancel : w.buffer.cancelled = true → b.cancelled = true)
    (hslots : b.cancelled = false → ∀ n slot, w.buffer.held.get n = some slot → ∃ slot',
      b.held.get n = some slot' ∧ (slot'.payload = slot.payload ∨ b.retiring = true))
    (hretire : w.buffer.retiring = true → b.cancelled = false → b.retiring = true)
    (hskipped : ∀ n ∈ skipped, n < b.nextExpected ∨ n ∈ b.skippedAhead) :
    { w with buffer := b, skipped := skipped : World α }.Inv := by
  have hlive : b.cancelled = false → w.buffer.cancelled = false := by
    intro hb
    by_contra hne
    rw [hcancel (by simpa using hne)] at hb
    cases hb
  refine ⟨hok, h.one, ?_, fun hc => h.alone (hlive hc), h.entering, ?_, ?_, hskipped,
    h.increasing, ?_, h.calls_of⟩
  · intro hc j g hj hp
    obtain ⟨slot, hslot, hpay⟩ := h.waiting (hlive hc) j g hj hp
    obtain ⟨slot', hslot', hpay'⟩ := hslots hc _ slot hslot
    refine ⟨slot', hslot', ?_⟩
    rcases hpay' with hsame | hr
    · exact hpay.imp (hsame.trans ·) (hretire · hc)
    · exact .inr hr
  · intro j g e hj he
    exact (h.turned j g e hj he).imp_right hcancel
  · intro j g o hj ho
    exact lt_of_lt_of_le (h.finished j g o hj ho) hnext
  · intro c hc
    exact (h.below c hc).imp_left fun hlt => lt_of_lt_of_le hlt hnext

/-! ### One lemma for each section -/

omit hi in
theorem Inv.write (seq : ℕ) (payload : α) :
    { w with futures := w.futures.insert ⟨seq, payload, .fresh⟩ : World α }.Inv := by
  have hold : ∀ j g, (w.futures.insert ⟨seq, payload, .fresh⟩).get j = some g →
      g.phase ≠ .fresh → w.futures.get j = some g := by
    intro j g hj hne
    rcases get_insert_eq_some.mp hj with ⟨-, rfl⟩ | hj
    · exact absurd rfl hne
    · exact hj
  have hbusy : ∀ g : Future α, g.phase.busy → g.phase ≠ .fresh := by
    intro g hb hp
    rw [hp] at hb
    exact absurd hb (by simp [Phase.busy])
  refine ⟨h.ok.mono ?_, ?_, ?_, ?_, ?_, ?_, ?_, h.skipped, h.increasing, ?_, ?_⟩
  · rintro n ⟨j, g, hj, hb, rfl⟩
    exact ⟨j, g, hold j g hj (hbusy g hb), hb, rfl⟩
  · intro j k g g' hj hk hb hb'
    exact h.one j k g g' (hold j g hj (hbusy g hb)) (hold k g' hk (hbusy g' hb')) hb hb'
  · intro hc j g hj hp
    exact h.waiting hc j g (hold j g hj (by simp [hp])) hp
  · intro hc j k g g' hj hk hp hp'
    exact h.alone hc j k g g' (hold j g hj (by simp [hp])) (hold k g' hk (by simp [hp'])) hp hp'
  · intro j g q hj hq
    exact h.entering j g q (hold j g hj (by simp [hq])) hq
  · intro j g e hj he
    exact h.turned j g e (hold j g hj (by simp [he])) he
  · intro j g o hj ho
    exact h.finished j g o (hold j g hj (by simp [ho])) ho
  · intro c hc
    refine (h.below c hc).imp_right ?_
    rintro ⟨j, g, hj, hg⟩
    exact ⟨j, g, get_insert_of_some hj, hg⟩
  · intro j
    rw [h.calls_of j]
    show _ = callsOf j ((w.futures.insert _).get j)
    rw [get_insert]
    rcases eq_or_ne j w.futures.next with rfl | hne
    · rw [if_pos rfl, w.futures.fresh _ le_rfl]
      rfl
    · rw [if_neg hne]

theorem Inv.accept (hf : f.phase = .fresh)
    (hlive : w.buffer.cancelled = false) (hge : w.buffer.nextExpected ≤ f.seq)
    (hskip : f.seq ∉ w.buffer.skippedAhead) (hheld : w.buffer.held.get f.seq = none)
    (hbusy : ¬ w.BusyAt f.seq) (bytes : ℕ) :
    ({ w with buffer := w.buffer.accept f.seq f.payload bytes }.become i .waiting).Inv := by
  have hfwd := w.buffer.accept_forward f.seq f.payload bytes
  have hok := (h.ok.accept hge hskip hheld hbusy f.payload bytes).mono fun n hn =>
    (busyAt_become (p := .waiting) hi hn).resolve_left (by simp [Phase.busy])
  refine h.move hi hfwd hok (by simp [Phase.busy]) (fun _ j g _ hj hp => ?_)
    (fun _ => ⟨_, OrdMap.get_insert_eq_some.mpr (.inl ⟨rfl, rfl⟩), rfl⟩) (by simp) (by simp)
    (by simp) h.increasing (h.below_become hi hfwd (by simp [hf, Phase.busy]))
    (calls_of_become h hi (by rw [hf]; rfl))
  -- another write that waits has a slot, and this number had none
  obtain ⟨slot, hslot, -⟩ := h.waiting hlive j g hj hp
  have hne : g.seq ≠ f.seq := by
    intro heq
    rw [heq, hheld] at hslot
    cases hslot
  exact ⟨(OrdMap.get_insert_eq_some.mpr (.inr ⟨hne, hslot⟩)).trans hslot.symm, fun _ => hne⟩

theorem Inv.takeTurn (hf : f.phase = .waiting)
    (hlive : w.buffer.cancelled = false) (hnext : w.buffer.nextExpected = f.seq)
    {slot : Slot α} (hslot : w.buffer.held.get f.seq = some slot) :
    ({ w with buffer := w.buffer.takeTurn f.seq slot }.become i (.entering f.payload)).Inv := by
  have hfwd := w.buffer.takeTurn_forward f.seq slot
  have hidle : ∀ n, ¬ w.BusyAt n := by
    intro n hn
    obtain ⟨hn', hnone, -⟩ := h.ok.busy_next n hn
    rw [← hn', hnext, hslot] at hnone
    cases hnone
  have hok := State.Ok.takeTurn h.ok (hnext ▸ hslot)
  rw [hnext] at hok
  refine h.move hi hfwd (hok.mono fun n hn => ?_)
    (fun _ j g hj hb => absurd ⟨j, g, hj, hb, rfl⟩ (hidle g.seq))
    (fun _ j g hne hj hp => ⟨?_, by simp⟩) (by simp) (fun q hq => (Phase.entering.inj hq).symm)
    (by simp) (by simp) h.increasing (h.below_become hi hfwd (by simp [hf, Phase.busy]))
    (calls_of_become h hi (by rw [hf]; rfl))
  · rcases busyAt_become hi hn with ⟨-, rfl⟩ | hn
    · rfl
    · exact absurd hn (hidle n)
  · have hseq : g.seq ≠ f.seq := fun hseq => hne (h.alone hlive j i g f hj hi hp hf hseq)
    rw [State.takeTurn_held, OrdMap.get_erase, if_neg hseq]

theorem Inv.enter {q : α} (hf : f.phase = .entering q) :
    ({ w with calls := w.calls ++ [(i, f.seq, q)] }.become i .writing).Inv := by
  obtain rfl := h.entering i f q hi hf
  have hbusy : f.phase.busy := by rw [hf]; rfl
  have hnext := (h.ok.busy_next f.seq ⟨i, f, hi, hbusy, rfl⟩).1
  have hown : ∀ j g, w.futures.get j = some g → g.phase.busy → j = i :=
    fun j g hj hb => h.one j i g f hj hi hb hbusy
  -- every call so far is below the turn: the only write that owns it was not called yet
  have hlow : ∀ c ∈ w.calls, c.2.1 < f.seq := by
    intro c hc
    rcases h.below c hc with hlt | ⟨j, g, hj, hb, hg, -⟩
    · omega
    · obtain rfl := hown j g hj hb
      obtain rfl : f = g := Option.some.inj (hi.symm.trans hj)
      rw [hf] at hg
      exact absurd hg (by simp [Phase.forwarded])
  refine h.move hi ⟨le_rfl, fun _ hn => hn, rfl, rfl⟩ (h.ok.mono fun n hn => ?_) (fun _ => hown)
    (fun _ _ _ _ _ _ => ⟨rfl, by simp⟩) (by simp) (by simp) (by simp) (by simp) ?_
    (fun c hc => ?_) fun j => ?_
  · rcases busyAt_become hi hn with ⟨-, rfl⟩ | hn
    · exact ⟨i, f, hi, hbusy, rfl⟩
    · exact hn
  · rw [map_append]
    refine pairwise_append.mpr ⟨h.increasing, pairwise_singleton _ _, ?_⟩
    intro a ha b hb
    obtain ⟨c, hc, rfl⟩ := mem_map.mp ha
    obtain rfl : b = f.seq := by simpa using hb
    exact hlow c hc
  · rcases mem_append.mp hc with hc | hc
    · exact .inl (hnext ▸ hlow c hc)
    · obtain rfl := mem_singleton.mp hc
      exact .inr ⟨i, _, (get_become hi).mpr (.inl ⟨rfl, rfl⟩), rfl, rfl, rfl⟩
  · rw [filter_append, h.calls_of j]
    rcases eq_or_ne j i with rfl | hne
    · rw [hi, (get_become hi).mpr (.inl ⟨rfl, rfl⟩)]
      simp [callsOf, hf, Phase.forwarded]
    · have hnil : [(i, f.seq, f.payload)].filter (fun c => decide (c.1 = j)) = [] := by
        simp [hne.symm]
      rw [hnil, append_nil, get_become_ne hne]

theorem Inv.pass {o : Except MorunaError Unit} (hf : f.phase = .returning o) :
    ({ w with buffer := w.buffer.passTurn f.seq }.become i (.finished o)).Inv := by
  have hbusy : f.phase.busy := by rw [hf]; rfl
  have hat : w.BusyAt f.seq := ⟨i, f, hi, hbusy, rfl⟩
  have hfwd := State.passTurn_forward (h.ok.busy_next f.seq hat).1.le
  have hlt := w.buffer.lt_passTurn f.seq
  refine h.move hi hfwd ((h.ok.passTurn hat).mono ?_) (by simp [Phase.busy])
    (fun _ _ g _ _ _ => ⟨by rw [State.passTurn_held], by simp⟩) (by simp) (by simp) (by simp)
    (fun _ _ => hlt) h.increasing (h.below_become hi hfwd fun _ _ => .inr hlt)
    (calls_of_become h hi (by rw [hf]; rfl))
  -- nothing owns the turn any more
  rintro n ⟨j, g, hj, hb, -⟩
  rcases (get_become hi).mp hj with ⟨-, rfl⟩ | ⟨hne, hj⟩
  · exact absurd hb (by simp [Phase.busy])
  · exact hne (h.one j i g f hj hi hb hbusy)

omit hi in
theorem Inv.skip (hheld : w.buffer.held.get seq = none) (hbusy : ¬ w.BusyAt seq) :
    { w with buffer := w.buffer.skip seq, skipped := seq :: w.skipped : World α }.Inv := by
  have hfwd := w.buffer.skip_forward seq
  refine h.rebuffer (h.ok.skip hheld hbusy) hfwd.next_le hfwd.cancelled_eq.trans
    (fun _ n slot hslot => ⟨slot, ?_, .inl rfl⟩) (fun hr _ => hfwd.retiring_eq.trans hr) ?_
  · rw [State.skip_held, hslot]
  · intro n hn
    rcases mem_cons.mp hn with rfl | hn
    · exact w.buffer.skip_settles n
    · exact hfwd.keeps n (h.skipped n hn)

omit hi in
theorem Inv.beginCancel : { w with buffer := w.buffer.beginCancel : World α }.Inv := by
  unfold State.beginCancel
  split
  · exact h
  · exact h.rebuffer ⟨h.ok.held_ge, h.ok.apart, h.ok.busy_next, h.ok.bytes_eq⟩ le_rfl id
      (fun _ n slot hslot => ⟨slot, hslot, .inl rfl⟩) (fun _ _ => rfl) h.skipped

omit hi in
theorem Inv.retireOne (hr : w.buffer.retiring = true) :
    { w with buffer := w.buffer.retireOne : World α }.Inv := by
  have hrest : w.buffer.retireOne.nextExpected = w.buffer.nextExpected ∧
      w.buffer.retireOne.skippedAhead = w.buffer.skippedAhead ∧
      w.buffer.retireOne.cancelled = w.buffer.cancelled ∧
      w.buffer.retireOne.retiring = w.buffer.retiring := by
    unfold State.retireOne
    split <;> exact ⟨rfl, rfl, rfl, rfl⟩
  obtain ⟨hnext, hskip, hcancel, hretire⟩ := hrest
  refine h.rebuffer h.ok.retireOne hnext.ge hcancel.trans (fun _ n slot hslot => ?_)
    (fun hr _ => hretire.trans hr) ?_
  · rcases w.buffer.retireOne_get n with heq | ⟨slot', -, heq⟩
    · exact ⟨slot, heq.trans hslot, .inl rfl⟩
    · exact ⟨_, heq, .inr (hretire.trans hr)⟩
  · intro n hn
    rw [hnext, hskip]
    exact h.skipped n hn

omit hi in
theorem Inv.endCancel : { w with buffer := w.buffer.endCancel : World α }.Inv :=
  h.rebuffer h.ok.endCancel le_rfl (fun _ => rfl) (fun hc => absurd hc (by simp [State.endCancel]))
    (fun _ hc => absurd hc (by simp [State.endCancel])) h.skipped

/-- What a poll of the wait finds: cancellation, the turn with the write's own payload, or
nothing yet. -/
theorem Inv.pollTurn (hf : f.phase = .waiting) :
    (w.buffer.pollTurn f.seq = (w.buffer, some (.error .cancelled)) ∧ w.buffer.cancelled = true) ∨
    w.buffer.pollTurn f.seq = (w.buffer, none) ∨
    ∃ slot, w.buffer.held.get f.seq = some slot ∧ w.buffer.cancelled = false ∧
      w.buffer.nextExpected = f.seq ∧
      w.buffer.pollTurn f.seq = (w.buffer.takeTurn f.seq slot, some (.ok f.payload)) := by
  unfold State.pollTurn
  cases hc : w.buffer.cancelled with
  | true => exact .inl ⟨by simp, rfl⟩
  | false =>
    refine .inr ?_
    simp only [Bool.false_eq_true, if_false]
    split
    · rename_i hturn
      obtain ⟨slot, hslot, hpay⟩ := h.waiting hc i f hi hf
      have hpay : slot.payload = some f.payload := hpay.resolve_right hturn.1
      refine .inr ⟨slot, hslot, trivial, hturn.2, ?_⟩
      simp only [hslot, hpay, Option.elim_some]
    · exact .inl rfl

omit h hi

theorem admitWrite_eq_ok {s : State α} {payload : α} {bytes : ℕ}
    (h : s.admitWrite seq payload bytes = .ok b) :
    s.cancelled = false ∧ s.nextExpected ≤ seq ∧ seq ∉ s.skippedAhead ∧ s.held.get seq = none ∧
      b = s.accept seq payload bytes := by
  unfold State.admitWrite at h
  split at h
  · cases h
  rename_i hc
  split at h
  · cases h
  · rename_i hr
    push Not at hc hr
    refine ⟨by simpa using hc.1, hr.1, hr.2.1, by simpa using hr.2.2, ?_⟩
    exact (Except.ok.inj h).symm

/-- **A careful step keeps the invariant.** -/
theorem Inv.step (bytes : α → ℕ) (h : w.Inv) {op : Op α} (hc : w.careful op) :
    (w.step bytes op).Inv := by
  cases op with
  | write seq payload => exact h.write seq payload
  | skip seq =>
    simp only [careful, Bool.and_eq_true, Bool.not_eq_true', Option.isNone_iff_eq_none] at hc
    exact h.skip hc.2 fun hbusy => by simp [owns_iff.mpr hbusy] at hc
  | beginCancel => exact h.beginCancel
  | retireOne =>
    show (if _ then _ else _ : World α).Inv
    split
    · exact h.retireOne ‹_›
    · exact h
  | endCancel =>
    show (if _ then _ else _ : World α).Inv
    split
    · exact h.endCancel
    · exact h
  | poll i answer =>
    show (w.poll bytes i answer).Inv
    unfold World.poll
    split
    · exact h
    rename_i f hi
    split
    · -- the admission
      rename_i hf
      split
      · rename_i b hb
        obtain ⟨hlive, hge, hskip, hheld, rfl⟩ := admitWrite_eq_ok hb
        refine h.accept hi hf hlive hge hskip hheld (fun hbusy => ?_) _
        simp [careful, hi, hf, Phase.isFresh, owns_iff.mpr hbusy] at hc
      · exact h.rephase hi (by rw [hf]; rfl) (by rw [hf]; rfl) (by simp) (by simp) (by simp)
          (by simp)
    · -- the wait for the turn
      rename_i hf
      rcases h.pollTurn hi hf with ⟨heq, hcan⟩ | heq | ⟨slot, hslot, hlive, hnext, heq⟩ <;> rw [heq]
      · exact h.rephase hi (by rw [hf]; rfl) (by rw [hf]; rfl) (by simp) (by simp) (by simp)
          fun e he => ⟨(Phase.turned.inj he).symm, hcan⟩
      · exact h
      · exact h.takeTurn hi hf hlive hnext hslot
    · exact h.enter hi ‹_›
    · -- the inner write
      rename_i hf
      cases answer with
      | none => exact h
      | some o =>
        exact h.rephase hi (by rw [hf]; rfl) (by rw [hf]; rfl) (by simp) (by simp) (by simp)
          (by simp)
    · exact h.pass hi ‹_›
    all_goals exact h

/-- A careful step never turns back. -/
theorem step_next_le (h : w.Inv) (op : Op α) :
    w.buffer.nextExpected ≤ (w.step bytes op).buffer.nextExpected := by
  cases op with
  | write seq payload => exact le_rfl
  | skip seq => exact (w.buffer.skip_forward seq).next_le
  | beginCancel =>
    show _ ≤ w.buffer.beginCancel.nextExpected
    unfold State.beginCancel
    split <;> exact le_rfl
  | retireOne =>
    show _ ≤ (if _ then _ else _ : World α).buffer.nextExpected
    split
    · show _ ≤ w.buffer.retireOne.nextExpected
      unfold State.retireOne
      split <;> exact le_rfl
    · exact le_rfl
  | endCancel =>
    show _ ≤ (if _ then _ else _ : World α).buffer.nextExpected
    split <;> exact le_rfl
  | poll i answer =>
    show _ ≤ (w.poll bytes i answer).buffer.nextExpected
    unfold World.poll
    split
    · exact le_rfl
    rename_i f hi
    split
    · split
      · rename_i b hb
        obtain ⟨-, -, -, -, rfl⟩ := admitWrite_eq_ok hb
        exact (w.buffer.accept_forward _ _ _).next_le
      · exact le_rfl
    · rename_i hf
      rcases h.pollTurn hi hf with ⟨heq, -⟩ | heq | ⟨slot, -, -, -, heq⟩ <;> simp only [heq]
      · exact le_rfl
      · exact le_rfl
      · exact (w.buffer.takeTurn_forward _ _).next_le
    · exact le_rfl
    · cases answer <;> exact le_rfl
    · rename_i o hf
      have hat : w.BusyAt f.seq := ⟨i, f, hi, by rw [hf]; rfl, rfl⟩
      exact (State.passTurn_forward (h.ok.busy_next f.seq hat).1.le).next_le
    all_goals exact le_rfl

/-- **A number that was used is refused**: accepted by an earlier write, or declared skipped. -/
theorem Inv.refuses (h : w.Inv) {answer : Option (Except MorunaError Unit)}
    (hc : w.careful (.poll i answer)) (hi : w.futures.get i = some f) (hf : f.phase = .fresh)
    (hused : (∃ j g, w.futures.get j = some g ∧ g.phase.accepted ∧ g.seq = f.seq) ∨
      f.seq ∈ w.skipped) :
    ∃ e, (w.step bytes (.poll i answer)).futures.get i = some { f with phase := .refused e } := by
  cases had : w.buffer.admitWrite f.seq f.payload (bytes f.payload) with
  | error e =>
    refine ⟨e, ?_⟩
    have hstep : w.step bytes (.poll i answer) = w.become i (.refused e) := by
      show w.poll bytes i answer = _
      simp only [World.poll, hi, hf, had]
    rw [hstep]
    exact (get_become hi).mpr (.inl ⟨rfl, rfl⟩)
  | ok b =>
    obtain ⟨hlive, hge, hskip, hheld, -⟩ := admitWrite_eq_ok had
    rcases hused with ⟨j, g, hj, ha, hseq⟩ | hsk
    · exfalso
      cases hg : g.phase with
      | fresh => rw [hg] at ha; exact absurd ha (by simp [Phase.accepted])
      | refused e => rw [hg] at ha; exact absurd ha (by simp [Phase.accepted])
      | waiting =>
        obtain ⟨slot, hslot, -⟩ := h.waiting hlive j g hj hg
        rw [hseq, hheld] at hslot
        cases hslot
      | turned e =>
        rw [(h.turned j g e hj hg).2] at hlive
        cases hlive
      | finished o =>
        have := h.finished j g o hj hg
        omega
      | entering _ | writing | returning _ =>
        have hbusy : w.BusyAt f.seq := ⟨j, g, hj, by rw [hg]; rfl, hseq⟩
        simp [careful, hi, hf, Phase.isFresh, owns_iff.mpr hbusy] at hc
    · rcases h.skipped _ hsk with hlt | hin
      · omega
      · exact absurd hin hskip

/-! ### Runs -/

theorem Inv.start (bufferBytes : ℕ) (committedSeq : Option ℕ) :
    (start bufferBytes committedSeq : World α).Inv := by
  refine ⟨⟨?_, ?_, ?_, rfl⟩, ?_, ?_, ?_, ?_, ?_, ?_, ?_, List.Pairwise.nil, ?_, fun _ => rfl⟩
  · exact fun n slot hn => absurd hn (by simp [World.start, State.resume])
  · exact fun n slot hn => absurd hn (by simp [World.start, State.resume])
  · rintro n ⟨i, f, hi, -⟩
    exact absurd hi (by simp [World.start, get_empty])
  all_goals simp [World.start, get_empty]

theorem Inv.run (bytes : α → ℕ) {ops : List (Op α)} (h : w.Inv) (hc : w.carefulRun bytes ops) :
    (w.run bytes ops).Inv := by
  induction ops generalizing w with
  | nil => exact h
  | cons op ops ih =>
    simp only [carefulRun, Bool.and_eq_true] at hc
    exact ih (h.step bytes hc.1) hc.2

/-- What a state shows of a buffer that delivers in order: the inner sink's writes were called
with increasing numbers and at most one is in progress; a write that was taken in has made its
one call, with its own number and payload, once it is past its turn, and none before, and one
the wait gave up was cancelled; one that waits has its payload held, at a number not passed,
until a cancellation; and the bytes held are those of the counted slots. -/
structure InOrder (w : World α) : Prop where
  increasing : (w.calls.map fun c => c.2.1).Pairwise (· < ·)
  single : ∀ i j f g, w.futures.get i = some f → w.futures.get j = some g →
    f.phase = .writing → g.phase = .writing → i = j
  once : ∀ i f, w.futures.get i = some f → w.calls.filter (fun c => c.1 = i) = callsOf i (some f)
  cancelled : ∀ i f e, w.futures.get i = some f → f.phase = .turned e → e = .cancelled
  held : w.buffer.cancelled = false → w.buffer.retiring = false → ∀ i f,
    w.futures.get i = some f → f.phase = .waiting → w.buffer.nextExpected ≤ f.seq ∧
      ∃ slot, w.buffer.held.get f.seq = some slot ∧ slot.payload = some f.payload
  held_bytes : w.buffer.heldBytes =
    w.buffer.held.sum fun _ slot => if slot.counted then slot.bytes else 0

theorem Inv.inOrder (h : w.Inv) : w.InOrder where
  increasing := h.increasing
  single i j f g hi hj hf hg := h.one i j f g hi hj (by rw [hf]; rfl) (by rw [hg]; rfl)
  once i f hi := hi ▸ h.calls_of i
  cancelled i f e hi he := (h.turned i f e hi he).1
  held hc hr i f hi hf := by
    obtain ⟨slot, hslot, hpay⟩ := h.waiting hc i f hi hf
    exact ⟨h.ok.held_ge _ slot hslot, slot, hslot, hpay.resolve_right (by simp [hr])⟩
  held_bytes := h.ok.bytes_eq

/-- What a poll does for a write that was taken in: it gets its turn once its number is the
expected one, it gives up once the buffer is cancelled, and with the turn it calls the inner
sink. -/
structure Moves (w : World α) : Prop where
  turn : ∀ i answer f, w.futures.get i = some f → f.phase = .waiting →
    w.buffer.cancelled = false → w.buffer.retiring = false → w.buffer.nextExpected = f.seq →
    (w.step bytes (.poll i answer)).futures.get i = some { f with phase := .entering f.payload }
  giveUp : ∀ i answer f, w.futures.get i = some f → f.phase = .waiting →
    w.buffer.cancelled = true →
    (w.step bytes (.poll i answer)).futures.get i = some { f with phase := .turned .cancelled }
  call : ∀ i answer f p, w.futures.get i = some f → f.phase = .entering p →
    (w.step bytes (.poll i answer)).calls = w.calls ++ [(i, f.seq, f.payload)]

theorem Inv.moves (h : w.Inv) : w.Moves bytes where
  turn i answer f hi hf hc hr hnext := by
    -- nothing was dropped, so the slot still has the payload
    obtain ⟨-, slot, hslot, hpay⟩ := h.inOrder.held hc hr i f hi hf
    have hpoll : w.buffer.pollTurn f.seq =
        (w.buffer.takeTurn f.seq slot, some (.ok f.payload)) := by
      simp [State.pollTurn, hc, hr, hnext, hslot, hpay]
    show (w.poll bytes i answer).futures.get i = _
    simp only [World.poll, hi, hf, hpoll]
    exact (get_become hi).mpr (.inl ⟨rfl, rfl⟩)
  giveUp i answer f hi hf hc := by
    show (w.poll bytes i answer).futures.get i = _
    simp only [World.poll, hi, hf, State.pollTurn, hc, if_true]
    exact (get_become hi).mpr (.inl ⟨rfl, rfl⟩)
  call i answer f p hi hf := by
    show (w.poll bytes i answer).calls = _
    simp only [World.poll, hi, hf, become, h.entering i f p hi hf]

end World

end Moruna.Sinks
