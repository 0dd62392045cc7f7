/-
Moruna/Lib/Registry.lean

Registries: finitely many live entries under ids that are never used twice.

A registry hands out ids in order, so an entry that is gone leaves a hole.  The field
`fresh` says that nothing lives past the next id; every sum over the live entries is
then a finite one.

* `get_insert`, `get_modify`, `get_erase` — an entry after each operation;
* `sum_insert`, `sum_modify`, `sum_erase` — a sum over the entries after each, stated
  with `+` on both sides so that nothing is subtracted.
-/
import Mathlib.Algebra.BigOperators.Group.Finset.Basic
import Mathlib.Algebra.Order.BigOperators.Group.Finset
import Mathlib.Tactic

namespace Moruna

open Finset

/-- Live entries by id, and the next id. -/
structure Registry (α : Type*) where
  get : ℕ → Option α
  next : ℕ
  fresh : ∀ i, next ≤ i → get i = none

namespace Registry

variable {α β : Type*}

/-! ### Operations -/

def empty : Registry α := ⟨fun _ => none, 0, fun _ _ => rfl⟩

variable (r : Registry α)

def insert (x : α) : Registry α where
  get i := if i = r.next then some x else r.get i
  next := r.next + 1
  fresh i hi := by
    rw [if_neg (by omega)]
    exact r.fresh i (by omega)

def modify (i : ℕ) (f : α → α) : Registry α where
  get j := if j = i then (r.get j).map f else r.get j
  next := r.next
  fresh j hj := by
    rw [r.fresh j hj]
    split <;> rfl

def erase (i : ℕ) : Registry α where
  get j := if j = i then none else r.get j
  next := r.next
  fresh j hj := by
    rw [r.fresh j hj]
    split <;> rfl

theorem get_empty (i : ℕ) : (empty : Registry α).get i = none := rfl

theorem get_insert (x : α) (i : ℕ) :
    (r.insert x).get i = if i = r.next then some x else r.get i := rfl

theorem get_modify (i : ℕ) (f : α → α) (j : ℕ) :
    (r.modify i f).get j = if j = i then (r.get j).map f else r.get j := rfl

theorem get_erase (i j : ℕ) : (r.erase i).get j = if j = i then none else r.get j := rfl

@[simp] theorem next_insert (x : α) : (r.insert x).next = r.next + 1 := rfl

variable {r : Registry α} {i : ℕ} {x : α} {f : α → α} {w : ℕ → α → ℕ}

theorem lt_next (h : r.get i = some x) : i < r.next := by
  by_contra hn
  rw [r.fresh i (by omega)] at h
  cases h

theorem ne_next (h : r.get i = some x) : i ≠ r.next := (lt_next h).ne

variable {y : α} {j : ℕ} {r' : Registry α}

theorem get_insert_of_some (h : r.get i = some y) : (r.insert x).get i = some y := by
  rw [get_insert, if_neg (ne_next h), h]

theorem get_insert_eq_some :
    (r.insert x).get i = some y ↔ i = r.next ∧ y = x ∨ r.get i = some y := by
  rw [get_insert]
  split
  · rename_i hi
    rw [hi, r.fresh _ le_rfl]
    simp [eq_comm]
  · rename_i hi
    simp [hi]

/-- What holds of the new entry and of every old one holds of every entry. -/
theorem forall_insert {P : ℕ → α → Prop} (hx : P r.next x)
    (h : ∀ i y, r.get i = some y → P i y) : ∀ i y, (r.insert x).get i = some y → P i y := by
  intro i y hi
  rcases get_insert_eq_some.mp hi with ⟨rfl, rfl⟩ | hi
  · exact hx
  · exact h i y hi

theorem get_erase_eq_some : (r.erase i).get j = some x ↔ j ≠ i ∧ r.get j = some x := by
  rw [get_erase]
  split <;> simp_all

theorem get_modify_eq_some : (r.modify i f).get j = some y ↔
      j ≠ i ∧ r.get j = some y ∨ j = i ∧ ∃ x, r.get j = some x ∧ f x = y := by
  rw [get_modify]
  split <;> simp_all

theorem forall_modify {P : ℕ → α → Prop} (hf : ∀ j y, P j y → P j (f y))
    (h : ∀ j y, r.get j = some y → P j y) : ∀ j y, (r.modify i f).get j = some y → P j y := by
  intro j y hj
  rcases get_modify_eq_some.mp hj with ⟨-, hj⟩ | ⟨rfl, x, hx, rfl⟩
  · exact h j y hj
  · exact hf j x (h j x hx)

theorem get_modify_isSome : ((r.modify i f).get j).isSome = (r.get j).isSome := by
  rw [get_modify]
  split <;> simp

@[ext] theorem ext (hg : ∀ i, r.get i = r'.get i) (hn : r.next = r'.next) :
    r = r' := by
  obtain ⟨get, next, fresh⟩ := r
  obtain ⟨get', next', fresh'⟩ := r'
  obtain rfl : get = get' := funext hg
  obtain rfl : next = next' := hn
  rfl

theorem modify_modify (r : Registry α) (i : ℕ) (f g : α → α) :
    (r.modify i f).modify i g = r.modify i (g ∘ f) := by
  refine ext (fun j => ?_) rfl
  simp only [get_modify]
  split
  · rw [Option.map_map]
  · rfl

theorem modify_eq_self (h : ∀ x, r.get i = some x → f x = x) : r.modify i f = r := by
  refine ext (fun j => ?_) rfl
  rw [get_modify]
  split
  · rename_i hj
    subst hj
    rcases hx : r.get j with - | x
    · rfl
    · exact congrArg some (h x hx)
  · rfl

/-! ### Sums over the live entries -/

def sum (r : Registry α) (w : ℕ → α → ℕ) : ℕ := ∑ i ∈ Finset.range r.next, (r.get i).elim 0 (w i)

@[simp] theorem sum_empty (w : ℕ → α → ℕ) : (empty : Registry α).sum w = 0 := rfl

/-- Registries of the same length whose entries weigh the same. -/
theorem sum_eq_of_elim (hn : r'.next = r.next)
    (h : ∀ i, (r'.get i).elim 0 (w i) = (r.get i).elim 0 (w i)) : r'.sum w = r.sum w := by
  unfold sum
  rw [hn]
  exact Finset.sum_congr rfl fun i _ => h i

theorem sum_eq_zero (h : ∀ i x, r.get i = some x → w i x = 0) : r.sum w = 0 := by
  refine Finset.sum_eq_zero fun i _ => ?_
  rcases hi : r.get i with _ | x
  · rfl
  · exact h i x hi

theorem sum_add (r : Registry α) (w w' : ℕ → α → ℕ) :
    r.sum (fun i x => w i x + w' i x) = r.sum w + r.sum w' := by
  unfold sum
  rw [← Finset.sum_add_distrib]
  refine Finset.sum_congr rfl fun i _ => ?_
  cases r.get i <;> rfl

theorem sum_le_sum {w' : ℕ → α → ℕ} (h : ∀ i x, r.get i = some x → w i x ≤ w' i x) :
    r.sum w ≤ r.sum w' := by
  refine Finset.sum_le_sum fun i _ => ?_
  rcases hi : r.get i with _ | x
  · exact le_rfl
  · exact h i x hi

theorem le_sum (h : r.get i = some x) (w : ℕ → α → ℕ) : w i x ≤ r.sum w := by
  have := Finset.single_le_sum (f := fun j => (r.get j).elim 0 (w j))
    (fun _ _ => Nat.zero_le _) (Finset.mem_range.mpr (lt_next h))
  rw [h] at this
  exact this

theorem sum_insert (r : Registry α) (x : α) (w : ℕ → α → ℕ) :
    (r.insert x).sum w = r.sum w + w r.next x := by
  unfold sum
  rw [next_insert, sum_range_succ, get_insert, if_pos rfl]
  refine congrArg₂ _ (sum_congr rfl fun i hi => ?_) rfl
  rw [get_insert, if_neg (mem_range.mp hi).ne]

/-- Two registries that differ at one live id. -/
theorem sum_of_differ (r r' : Registry α) (hn : r'.next = r.next) (hi : i < r.next)
    (h : ∀ j, j ≠ i → r'.get j = r.get j) (w : ℕ → α → ℕ) :
    r'.sum w + (r.get i).elim 0 (w i) = r.sum w + (r'.get i).elim 0 (w i) := by
  have hmem := mem_range.mpr hi
  unfold sum
  rw [hn, ← sum_erase_add _ _ hmem, ← sum_erase_add _ (fun j => (r.get j).elim 0 (w j)) hmem,
    sum_congr rfl fun j hj => by rw [h j (ne_of_mem_erase hj)]]
  omega

theorem sum_modify (h : r.get i = some x) (f : α → α) (w : ℕ → α → ℕ) :
    (r.modify i f).sum w + w i x = r.sum w + w i (f x) := by
  have := sum_of_differ r (r.modify i f) rfl (lt_next h)
    (fun j hj => by rw [get_modify, if_neg hj]) w
  simpa [get_modify, h] using this

theorem sum_modify_of_eq (h : ∀ x, w i (f x) = w i x) : (r.modify i f).sum w = r.sum w := by
  refine sum_eq_of_elim rfl fun j => ?_
  rw [get_modify]
  split
  · rename_i hj
    subst hj
    cases r.get j <;> simp [h]
  · rfl

theorem sum_erase (h : r.get i = some x) (w : ℕ → α → ℕ) : (r.erase i).sum w + w i x = r.sum w := by
  have := sum_of_differ r (r.erase i) rfl (lt_next h)
    (fun j hj => by rw [get_erase, if_neg hj]) w
  simpa [get_erase, h] using this

/-- **Owned entries are counted once.**  When every entry's owner lives in `r`, adding up
each live owner's entries adds up the entries that have one. -/
theorem sum_owners {q : Registry β} {owner : β → Option ℕ} {w : ℕ → β → ℕ}
    (h : ∀ j y i, q.get j = some y → owner y = some i → (r.get i).isSome) :
    r.sum (fun i _ => q.sum fun j y => if owner y = some i then w j y else 0)
      = q.sum fun j y => if (owner y).isSome then w j y else 0 := by
  unfold sum
  have hswap : ∀ i ∈ Finset.range r.next,
      (r.get i).elim 0 (fun _ => ∑ j ∈ Finset.range q.next,
        (q.get j).elim 0 fun y => if owner y = some i then w j y else 0)
      = ∑ j ∈ Finset.range q.next,
        (r.get i).elim 0 fun _ => (q.get j).elim 0 fun y =>
          if owner y = some i then w j y else 0 := by
    intro i _
    cases r.get i <;> simp
  rw [sum_congr rfl hswap, sum_comm]
  refine sum_congr rfl fun j _ => ?_
  rcases hj : q.get j with _ | y
  · exact Finset.sum_eq_zero fun i _ => by cases r.get i <;> rfl
  rcases ho : owner y with _ | i
  · simp only [Option.elim_some, ho]
    exact sum_eq_zero fun i _ => by cases r.get i <;> simp
  -- only the owner's own summand is left
  obtain ⟨x, hx⟩ := Option.isSome_iff_exists.mp (h j y i hj ho)
  simp only [Option.elim_some, ho]
  rw [sum_eq_single i]
  · simp [hx]
  · intro k _ hk
    cases r.get k <;> simp [Ne.symm hk]
  · intro hk
    exact absurd (mem_range.mpr (lt_next hx)) hk

end Registry

end Moruna
