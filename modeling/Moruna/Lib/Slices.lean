/-
Moruna/Lib/Slices.lean

Pieces of a concatenation: where each part of a file laid out end to end is
found again.

* `slice_append_left` : a piece of the first part;
* `getElem?_concat_eq_some` : what a list with one more entry holds.
-/
import Moruna.Lib.Codec

namespace Moruna

open List

theorem length_flatMap_const {α : Type} {f : α → Bytes} {m : ℕ} {l : List α}
    (hf : ∀ a ∈ l, (f a).length = m) : (l.flatMap f).length = l.length * m := by
  induction l with
  | nil => rw [flatMap_nil, length_nil, length_nil, zero_mul]
  | cons b l ih =>
    rw [flatMap_cons, length_append, hf b mem_cons_self,
      ih fun a ha => hf a (mem_cons_of_mem _ ha), length_cons, Nat.succ_mul, Nat.add_comm]

/-- The `k`-th of parts of one length, in their concatenation. -/
theorem slice_flatMap {α : Type} {f : α → Bytes} {m : ℕ} {l : List α}
    (hf : ∀ a ∈ l, (f a).length = m) {k : ℕ} {a : α} (h : l[k]? = some a) :
    ((l.flatMap f).drop (k * m)).take m = f a := by
  induction l generalizing k with
  | nil => cases h
  | cons b l ih =>
    rw [flatMap_cons]
    cases k with
    | zero =>
      cases h
      rw [zero_mul, drop_zero, take_left' (hf a mem_cons_self)]
    | succ k =>
      rw [Nat.succ_mul, Nat.add_comm, ← drop_drop, drop_left' (hf b mem_cons_self)]
      exact ih (fun a ha => hf a (mem_cons_of_mem _ ha)) h

variable {α : Type}

theorem slice_append_left {a b : List α} {off len : ℕ} (h : off + len ≤ a.length) :
    ((a ++ b).drop off).take len = (a.drop off).take len := by
  rw [drop_append_of_le_length (by omega), take_append_of_le_length (by rw [length_drop]; omega)]

theorem getElem?_concat_eq_some {α : Type*} {l : List α} {x y : α} {i : ℕ} :
    (l ++ [x])[i]? = some y ↔ l[i]? = some y ∨ (i = l.length ∧ y = x) := by
  rw [List.getElem?_append]
  split
  · constructor
    · exact .inl
    · rintro (h' | ⟨h', -⟩)
      · exact h'
      · omega
  · have hnone : l[i]? = none := List.getElem?_eq_none (by omega)
    rw [hnone]
    rcases eq_or_ne i l.length with rfl | hne
    · simp [eq_comm]
    · have : ¬ i - l.length = 0 := by omega
      simp [this, hne]

end Moruna
