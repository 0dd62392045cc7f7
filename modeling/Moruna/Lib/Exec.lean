/-
Moruna/Lib/Exec.lean

Pre- and postconditions for computations that keep their state when they fail.

The computations are those of `EStateM`: a failure carries the state in which it
happened, so a postcondition speaks about two kinds of ends, and the one for failures
says what is left behind.  `Triple P x Q E` reads: from a state with `P` the computation
`x` ends with a result and a state in `Q`, or fails with an error and a state in `E`.

* `Triple.bind`, `Triple.seq`, `Triple.forM` — sequences and loops;
* `Triple.conseq`, `Triple.and` — weakening, and two facts about one computation.
-/
import Mathlib.Tactic

namespace Moruna

variable {ε σ α β : Type}

/-- What holds of the end of a computation. -/
def Post (Q : α → σ → Prop) (E : ε → σ → Prop) : EStateM.Result ε σ α → Prop
  | .ok a s => Q a s
  | .error e s => E e s

/-- From a state with `P` the computation ends in `Q`, or fails in `E`. -/
def Triple (P : σ → Prop) (x : EStateM ε σ α) (Q : α → σ → Prop) (E : ε → σ → Prop) : Prop :=
  ∀ s, P s → Post Q E (x s)

/-- The computation keeps `P`, whether it fails or not. -/
abbrev Stable (P : σ → Prop) (x : EStateM ε σ α) : Prop := Triple P x (fun _ => P) fun _ => P

/-- The computation keeps `P` and does not fail. -/
abbrev Sure (P : σ → Prop) (x : EStateM ε σ α) : Prop := Triple P x (fun _ => P) fun _ _ => False

/-- A computation that reads nothing of the state. -/
def liftExcept : Except ε α → EStateM ε σ α
  | .ok a => pure a
  | .error e => throw e

namespace Triple

variable {P P' : σ → Prop} {Q Q' : α → σ → Prop} {R : β → σ → Prop} {E E' : ε → σ → Prop}
variable {x : EStateM ε σ α} {f : α → EStateM ε σ β}

variable (h : Triple P x Q E)

include h

theorem conseq (hP : ∀ s, P' s → P s) (hQ : ∀ a s, Q a s → Q' a s)
    (hE : ∀ e s, E e s → E' e s) : Triple P' x Q' E' := by
  intro s hs
  have hx := h s (hP s hs)
  revert hx
  rcases x s with ⟨a, s'⟩ | ⟨e, s'⟩
  · exact hQ a s'
  · exact hE e s'

theorem pre (hP : ∀ s, P' s → P s) : Triple P' x Q E :=
  h.conseq hP (fun _ _ h => h) (fun _ _ h => h)

theorem post (hQ : ∀ a s, Q a s → Q' a s) : Triple P x Q' E :=
  h.conseq (fun _ h => h) hQ (fun _ _ h => h)

theorem error (hE : ∀ e s, E e s → E' e s) : Triple P x Q E' :=
  h.conseq (fun _ h => h) (fun _ _ h => h) hE

theorem and (h' : Triple P' x Q' E') :
    Triple (fun s => P s ∧ P' s) x (fun a s => Q a s ∧ Q' a s) (fun e s => E e s ∧ E' e s) := by
  intro s hs
  have h1 := h s hs.1
  have h2 := h' s hs.2
  revert h1 h2
  rcases x s with ⟨a, s'⟩ | ⟨e, s'⟩
  · exact .intro
  · exact .intro

omit h

/-- A sequence: the second part starts where the first one ends. -/
theorem bind (hx : Triple P x Q E) (hf : ∀ a, Triple (Q a) (f a) R E) : Triple P (x >>= f) R E := by
  intro s hs
  have h1 := hx s hs
  revert h1
  show Post Q E (x s) → Post R E (EStateM.bind x f s)
  unfold EStateM.bind
  rcases x s with ⟨a, s'⟩ | ⟨e, s'⟩
  · exact hf a s'
  · exact id

variable {a : α} {e : ε} {φ : Prop} {s s' : σ}

theorem pure (h : ∀ s, P s → Q a s) : Triple (ε := ε) P (Pure.pure a) Q E := h

theorem skip : Triple (ε := ε) P (Pure.pure a) (fun _ => P) E := fun _ h => h

theorem throw (h : ∀ s, P s → E e s) : Triple P (MonadExcept.throw e) Q E := h

theorem lift {x : Except ε α} (hok : ∀ a, x = .ok a → ∀ s, P s → Q a s)
    (herr : ∀ e s, P s → E e s) : Triple P (liftExcept x) Q E := by
  cases x with
  | ok a => exact hok a rfl
  | error e => exact herr e

/-- A failure is handled in the state it left. -/
theorem handle {F : ε → σ → Prop} {h : ε → EStateM ε σ α} (hx : Triple P x Q F)
    (hh : ∀ e, Triple (F e) (h e) Q E) : Triple P (tryCatch x h) Q E := by
  intro s hs
  have h1 := hx s hs
  revert h1
  show Post Q F (x s) → Post Q E (EStateM.tryCatch x h s)
  unfold EStateM.tryCatch
  rcases x s with ⟨a, s'⟩ | ⟨e, s'⟩
  · exact id
  · exact hh e s'

theorem get {Q : σ → σ → Prop} (h : ∀ s, P s → Q s s) : Triple (ε := ε) P MonadState.get Q E := h

theorem read {f : σ → EStateM ε σ β} (h : ∀ s, P s → Triple (fun s' => s' = s) (f s) R E) :
    Triple P (MonadState.get >>= f) R E := fun s hs => h s hs s rfl

/-- The same, when what the state has is still needed. -/
theorem look {f : σ → EStateM ε σ β} (h : ∀ s, P s → Triple P (f s) R E) :
    Triple P (MonadState.get >>= f) R E := fun s hs => h s hs s hs

theorem update {f : σ → σ} {Q : PUnit → σ → Prop} (h : ∀ s, P s → Q ⟨⟩ (f s)) :
    Triple (ε := ε) P (modify f) Q E := h

theorem ite {c : Prop} [Decidable c] {x y : EStateM ε σ α} (hx : c → Triple P x Q E)
    (hy : ¬ c → Triple P y Q E) : Triple P (if c then x else y) Q E := by
  split
  · rename_i h
    exact hx h
  · rename_i h
    exact hy h

/-- A fact about the start state that does not depend on the computation. -/
theorem of_pre (h : φ → Triple P x Q E) : Triple (fun s => φ ∧ P s) x Q E :=
  fun s hs => h hs.1 s hs.2

theorem seq {φ : α → Prop} (hx : Triple P x (fun a s => φ a ∧ Q a s) E)
    (hf : ∀ a, φ a → Triple (Q a) (f a) R E) : Triple P (x >>= f) R E :=
  hx.bind fun a => of_pre (hf a)

/-- A sequence whose first part can only give `a`. -/
theorem seq_eq (hx : Triple P x (fun b s => b = a ∧ P' s) E) (hf : Triple P' (f a) R E) :
    Triple P (x >>= f) R E :=
  hx.seq fun _ hb => hb ▸ hf

theorem pure_bind (h : Triple P (f a) R E) : Triple P (Pure.pure a >>= f) R E := h

theorem seq_right {φ : α → Prop} (hx : Triple P x (fun a s => Q a s ∧ φ a) E)
    (hf : ∀ a, φ a → Triple (Q a) (f a) R E) : Triple P (x >>= f) R E :=
  hx.bind fun a s hs => hf a hs.2 s hs.1

theorem of_false : Triple (fun _ => False) x Q E := fun _ h => h.elim

theorem of_exists {ι : Type} {P : ι → σ → Prop} (h : ∀ i, Triple (P i) x Q E) :
    Triple (fun s => ∃ i, P i s) x Q E :=
  fun s ⟨i, hi⟩ => h i s hi

theorem pointwise (h : ∀ s, P s → Triple (fun s' => s' = s) x Q E) : Triple P x Q E :=
  fun s hs => h s hs s rfl

include h

/-- From one state that has the precondition. -/
theorem of_eq (hs : P s) : Triple (fun s' => s' = s) x Q E := by
  refine h.pre ?_
  rintro _ rfl
  exact hs

/-- A fact about no state is carried along. -/
theorem carry :
    Triple (fun s => P s ∧ φ) x (fun a s => Q a s ∧ φ) (fun e s => E e s ∧ φ) := by
  intro s hs
  exact ((h.post fun _ _ hq => ⟨hq, hs.2⟩).error fun _ _ he => ⟨he, hs.2⟩) s hs.1

theorem of_ok (hs : P s) (hr : x s = .ok a s') : Q a s' := by
  have hx := h s hs
  rwa [hr] at hx

theorem of_error (hs : P s) (hr : x s = .error e s') : E e s' := by
  have hx := h s hs
  rwa [hr] at hx

/-- What ends well started somewhere. -/
theorem origin : Triple P x (fun a s' => Q a s' ∧ ∃ s, P s ∧ x s = .ok a s') E := by
  intro s hs
  rcases hr : x s with ⟨a, s'⟩ | ⟨e, s'⟩
  · exact ⟨h.of_ok hs hr, s, hs, hr⟩
  · exact h.of_error hs hr

omit h

/-- A computation that cannot fail ends well. -/
theorem ends (h : Triple P x Q (fun _ _ => False)) (hs : P s) :
    ∃ a s', x s = .ok a s' ∧ Q a s' := by
  rcases hr : x s with ⟨a, s'⟩ | ⟨e, s'⟩
  · exact ⟨a, s', rfl, h.of_ok hs hr⟩
  · exact (h.of_error hs hr).elim

/-- A loop: `I pre` holds when the elements of `pre` are done. -/
theorem forM {γ : Type} {l : List γ} {body : γ → EStateM ε σ PUnit} (I : List γ → σ → Prop)
    (h : ∀ pre c post, l = pre ++ c :: post → Triple (I pre) (body c) (fun _ => I (pre ++ [c])) E) :
    Triple (I []) (l.forM body) (fun _ => I l) E := by
  -- the elements already done are carried along
  have key : ∀ (rest pre : List γ), l = pre ++ rest →
      Triple (I pre) (rest.forM body) (fun _ => I l) E := by
    intro rest
    induction rest with
    | nil =>
      intro pre hl
      rw [List.append_nil] at hl
      exact .pure (fun s hs => hl ▸ hs)
    | cons c rest ih =>
      intro pre hl
      refine .bind (h pre c rest hl) fun _ => ih (pre ++ [c]) ?_
      rw [hl, List.append_assoc]
      rfl
  exact key l [] rfl

end Triple

end Moruna
