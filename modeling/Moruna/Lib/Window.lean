/-
Moruna/Lib/Window.lean

A queue laid in a ring.  Positions count on without end; the entry at position
`p` stands at place `p % n` of a ring of `n` places, and the queue is the run of
entries from one position on.  `Window` says that a list is that run.

* `Window.push` : writing the place after the last entry appends it;
* `Window.pop` : leaving the first entry behind moves the start;
* `Window.head` : the first entry is the one at the start's place.

Counters kept in sixteen bits name the same places when the ring's size divides
`2 ^ 16` (`slot_ofNat`).
-/
import Mathlib.Data.Nat.ModEq
import Mathlib.Logic.Function.Basic
import Moruna.Lib.Slices

namespace Moruna

variable {α : Type}

/-- The entries `xs` stand in the ring of `n` places from position `start` on. -/
structure Window (n : ℕ) (ring : ℕ → α) (start : ℕ) (xs : List α) : Prop where
  fits : xs.length ≤ n
  holds : ∀ i x, xs[i]? = some x → ring ((start + i) % n) = x

namespace Window

variable {n start : ℕ} {ring : ℕ → α} {xs : List α} {x : α}

theorem empty : Window n ring start [] := ⟨Nat.zero_le n, fun _ _ h => by cases h⟩

/-- Two positions less than a ring apart have different places. -/
theorem place_ne {i j : ℕ} (hij : i < j) (hj : j < n) : (start + i) % n ≠ (start + j) % n := by
  intro h
  have hdvd := (Nat.modEq_iff_dvd' (Nat.add_le_add_left hij.le start)).mp h
  have := Nat.le_of_dvd (by omega) hdvd
  omega

theorem push (h : Window n ring start xs) (hroom : xs.length < n) :
    Window n (Function.update ring ((start + xs.length) % n) x) start (xs ++ [x]) := by
  refine ⟨by rw [List.length_append]; exact hroom, fun i y hy => ?_⟩
  rcases getElem?_concat_eq_some.mp hy with hy | ⟨rfl, rfl⟩
  · have hi := lt_of_getElem? hy
    rw [Function.update_of_ne (place_ne hi hroom), h.holds i y hy]
  · rw [Function.update_self]

theorem pop (h : Window n ring start (x :: xs)) : Window n ring (start + 1) xs := by
  refine ⟨(Nat.le_succ _).trans h.fits, fun i y hy => ?_⟩
  rw [add_assoc, add_comm 1 i]
  exact h.holds (i + 1) y hy

theorem head (h : Window n ring start (x :: xs)) : ring (start % n) = x := h.holds 0 x rfl

end Window

/-- A sixteen-bit counter names the place of the position it counts. -/
theorem slot_ofNat {n : ℕ} (h : n ∣ 2 ^ 16) (p : ℕ) : (UInt16.ofNat p).toNat % n = p % n := by
  rw [UInt16.toNat_ofNat', Nat.mod_mod_of_dvd p h]

/-- Counters less than `2 ^ 16` apart are equal only where their positions are. -/
theorem ofNat_add_eq_ofNat {p k : ℕ} (hk : k < 2 ^ 16) :
    UInt16.ofNat (p + k) = UInt16.ofNat p ↔ k = 0 := by
  constructor
  · intro h
    have h' := congrArg UInt16.toNat h
    rw [UInt16.toNat_ofNat', UInt16.toNat_ofNat'] at h'
    omega
  · rintro rfl
    rfl

end Moruna
