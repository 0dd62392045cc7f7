/-
Moruna/Lib/Checks.lean

Sequences of checks: computations that may refuse, written in `Except`.

`rejectIf` is the early return `if c { return Err(e) }`.  The lemmas peel one check or
one call off the front of a sequence that succeeded, so that a proof reads the checks
in the order the program makes them; a loop that makes one call for each element
succeeds when each of them does (`mapM_eq_ok`).
-/
import Mathlib.Data.List.Forall2
import Mathlib.Tactic

namespace Moruna

variable {ε α β : Type}

/-- Refuses with `e` when `c` holds. -/
def rejectIf (c : Prop) [Decidable c] (e : ε) : Except ε Unit := if c then .error e else .ok ()

variable {f : α → Except ε β} {l : List α} {r : List β}

/-- A sequence succeeds when its first call does and the rest does from there. -/
theorem seq_eq_ok {x : Except ε α} {b : β} :
    (x >>= f) = .ok b ↔ ∃ a, x = .ok a ∧ f a = .ok b := by
  cases x with
  | error e => exact ⟨nofun, nofun⟩
  | ok a =>
    constructor
    · exact fun h => ⟨a, rfl, h⟩
    · rintro ⟨_, h, h'⟩
      cases h
      exact h'

@[simp] theorem rejectIf_eq_ok {c : Prop} [Decidable c] {e : ε} {u : Unit} :
    rejectIf c e = .ok u ↔ ¬ c := by
  unfold rejectIf
  split
  · rename_i h
    exact ⟨nofun, fun h' => absurd h h'⟩
  · rename_i h
    exact ⟨fun _ => h, fun _ => rfl⟩

section Test

variable {c : Bool} {e : ε} {q : Unit → Except ε β}

theorem rejectIf_test {u : Unit} : rejectIf c e = .ok u ↔ c = false := by
  rw [rejectIf_eq_ok, Bool.not_eq_true]

theorem pass_bind (h : c = false) : (rejectIf c e >>= q) = q () := by
  subst h
  rfl

theorem stop_bind (h : c = true) : (rejectIf c e >>= q) = .error e := by
  subst h
  rfl

end Test

theorem mapM_eq_ok :
    l.mapM f = .ok r ↔ List.Forall₂ (fun x y => f x = .ok y) l r := by
  induction l generalizing r with
  | nil =>
    rw [List.forall₂_nil_left_iff]
    exact ⟨fun h => (Except.ok.inj h).symm, fun h => h ▸ rfl⟩
  | cons x l ih =>
    rw [List.mapM_cons, seq_eq_ok]
    constructor
    · rintro ⟨y, hy, h⟩
      obtain ⟨ys, hys, h⟩ := seq_eq_ok.mp h
      obtain rfl := Except.ok.inj h
      exact .cons hy (ih.mp hys)
    · rintro (_ | ⟨hy, hys⟩)
      exact ⟨_, hy, seq_eq_ok.mpr ⟨_, ih.mpr hys, rfl⟩⟩

theorem mapM_zipIdx_eq_ok {f : α × ℕ → Except ε β} (h : l.zipIdx.mapM f = .ok r) :
    r.length = l.length ∧ ∀ i x, l[i]? = some x → ∃ y, r[i]? = some y ∧ f (x, i) = .ok y := by
  have hall := mapM_eq_ok.mp h
  have hlen : r.length = l.length := by rw [← hall.length_eq, List.length_zipIdx]
  refine ⟨hlen, fun i x hx => ?_⟩
  obtain ⟨hi, rfl⟩ := List.getElem?_eq_some_iff.mp hx
  have hi' : i < r.length := by omega
  refine ⟨r[i], List.getElem?_eq_getElem hi', ?_⟩
  have := hall.get (i := i) (by rw [List.length_zipIdx]; exact hi) hi'
  simpa using this

end Moruna
