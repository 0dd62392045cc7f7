/-
Moruna/Lib/OrdMap.lean

Ordered maps: finite maps that are walked in the order of their keys.

The entries are a list whose keys increase, and the order is a field, so a map with a
key twice cannot be built.  What an operation does is said through `get`
(`get_insert`, `get_erase`, `get_modify`), through membership (`mem_entries`), and
through sums over the entries, with `+` on both sides (`sum_insert`, `sum_erase`).
-/
import Mathlib.Algebra.BigOperators.Group.List.Basic
import Mathlib.Tactic

namespace Moruna

open List

/-- A map from keys to values, its entries in the order of the keys. -/
structure OrdMap (κ α : Type) [LinearOrder κ] where
  entries : List (κ × α)
  sorted : entries.Pairwise fun a b => a.1 < b.1

namespace OrdMap

variable {κ α : Type} [LinearOrder κ]

/-! ### Lists of entries -/

def lookup : List (κ × α) → κ → Option α
  | [], _ => none
  | (k', x) :: rest, k => if k = k' then some x else lookup rest k

/-- An entry put in its place; one under the same key gives way. -/
def place (k : κ) (x : α) : List (κ × α) → List (κ × α)
  | [] => [(k, x)]
  | (k', y) :: rest =>
    if k < k' then (k, x) :: (k', y) :: rest
    else if k = k' then (k, x) :: rest
    else (k', y) :: place k x rest

variable {k : κ} {x : α} {l : List (κ × α)} {m : OrdMap κ α} {w : κ → α → ℕ}

variable (hl : l.Pairwise fun a b => a.1 < b.1)

include hl

theorem mem_place {p : κ × α} : p ∈ place k x l ↔ p = (k, x) ∨ p ∈ l ∧ p.1 ≠ k := by
  induction l with
  | nil => simp [place]
  | cons q rest ih =>
    obtain ⟨k', y⟩ := q
    rw [pairwise_cons] at hl
    unfold place
    split
    · -- in front of every key
      rename_i hlt
      have hne : ∀ q ∈ (k', y) :: rest, q.1 ≠ k := by
        intro q hq
        rcases mem_cons.mp hq with rfl | hq
        · exact hlt.ne'
        · exact (hlt.trans (hl.1 q hq)).ne'
      rw [mem_cons]
      exact or_congr_right ⟨fun h => ⟨h, hne p h⟩, And.left⟩
    · split
      · rename_i hk
        subst hk
        have hne : ∀ q ∈ rest, q.1 ≠ k := fun q hq => (hl.1 q hq).ne'
        constructor
        · intro h
          rcases mem_cons.mp h with rfl | h
          · exact .inl rfl
          · exact .inr ⟨mem_cons_of_mem _ h, hne p h⟩
        · rintro (rfl | ⟨h, hp⟩)
          · exact mem_cons_self
          · rcases mem_cons.mp h with rfl | h
            · exact absurd rfl hp
            · exact mem_cons_of_mem _ h
      · rename_i hk
        rw [mem_cons, ih hl.2, mem_cons]
        constructor
        · rintro (rfl | rfl | ⟨h, hp⟩)
          · exact .inr ⟨.inl rfl, .symm hk⟩
          · exact .inl rfl
          · exact .inr ⟨.inr h, hp⟩
        · rintro (rfl | ⟨rfl | h, hp⟩)
          · exact .inr (.inl rfl)
          · exact .inl rfl
          · exact .inr (.inr ⟨h, hp⟩)

theorem sorted_place : (place k x l).Pairwise fun a b => a.1 < b.1 := by
  induction l with
  | nil => simp [place]
  | cons q rest ih =>
    obtain ⟨k', y⟩ := q
    have hcons := pairwise_cons.mp hl
    unfold place
    split
    · rename_i hlt
      refine pairwise_cons.mpr ⟨fun q hq => ?_, hl⟩
      rcases mem_cons.mp hq with rfl | hq
      · exact hlt
      · exact hlt.trans (hcons.1 q hq)
    · split
      · rename_i hk
        subst hk
        exact pairwise_cons.mpr ⟨hcons.1, hcons.2⟩
      rename_i hge hk
      have hlt : k' < k := lt_of_le_of_ne (not_lt.mp hge) (.symm hk)
      refine pairwise_cons.mpr ⟨fun q hq => ?_, ih hcons.2⟩
      rcases (mem_place hcons.2).mp hq with rfl | ⟨hq, -⟩
      · exact hlt
      · exact hcons.1 q hq

theorem lookup_eq_some : lookup l k = some x ↔ (k, x) ∈ l := by
  induction l with
  | nil => simp [lookup]
  | cons q rest ih =>
    obtain ⟨k', y⟩ := q
    rw [pairwise_cons] at hl
    rw [lookup, mem_cons]
    split
    · rename_i hk
      subst hk
      constructor
      · intro h
        cases h
        exact .inl rfl
      · rintro (h | h)
        · cases h
          rfl
        · exact absurd (hl.1 _ h) (lt_irrefl _)
    · rename_i hk
      rw [ih hl.2]
      exact ⟨.inr, fun h => h.resolve_left fun h => hk (Prod.mk.inj h).1⟩

omit hl

/-! ### Operations -/

def empty : OrdMap κ α := ⟨[], .nil⟩

def get (m : OrdMap κ α) (k : κ) : Option α := lookup m.entries k

def keys (m : OrdMap κ α) : List κ := m.entries.map Prod.fst

def insert (m : OrdMap κ α) (k : κ) (x : α) : OrdMap κ α :=
  ⟨place k x m.entries, sorted_place m.sorted⟩

def erase (m : OrdMap κ α) (k : κ) : OrdMap κ α :=
  ⟨m.entries.filter fun p => p.1 ≠ k, m.sorted.filter _⟩

def modify (m : OrdMap κ α) (k : κ) (f : α → α) : OrdMap κ α where
  entries := m.entries.map fun p => if p.1 = k then (p.1, f p.2) else p
  sorted := by
    refine pairwise_map.mpr (m.sorted.imp fun {a b} h => ?_)
    split <;> split <;> exact h

theorem mem_entries : (k, x) ∈ m.entries ↔ m.get k = some x := (lookup_eq_some m.sorted).symm

@[simp] theorem get_empty (k : κ) : (empty : OrdMap κ α).get k = none := rfl

theorem get_insert (m : OrdMap κ α) (k : κ) (x : α) (j : κ) :
    (m.insert k x).get j = if j = k then some x else m.get j := by
  refine Option.ext fun y => ?_
  rw [← mem_entries]
  refine (mem_place m.sorted).trans ?_
  split
  · rename_i h
    subst h
    simp [eq_comm]
  · rename_i h
    rw [mem_entries]
    simp [h]

theorem get_erase (m : OrdMap κ α) (k j : κ) :
    (m.erase k).get j = if j = k then none else m.get j := by
  refine Option.ext fun y => ?_
  rw [← mem_entries]
  show (j, y) ∈ m.entries.filter _ ↔ _
  rw [mem_filter, mem_entries]
  split <;> simp_all

theorem get_modify (m : OrdMap κ α) (k : κ) (f : α → α) (j : κ) :
    (m.modify k f).get j = if j = k then (m.get j).map f else m.get j := by
  refine Option.ext fun y => ?_
  rw [← mem_entries]
  show (j, y) ∈ m.entries.map _ ↔ _
  rw [mem_map]
  constructor
  · rintro ⟨⟨i, x⟩, hmem, heq⟩
    rw [mem_entries] at hmem
    split at heq
    · rename_i hi
      cases heq
      rw [if_pos hi, hmem]
      rfl
    · rename_i hi
      cases heq
      rw [if_neg hi, hmem]
  · intro h
    split at h
    · rename_i hj
      obtain ⟨x, hx, rfl⟩ := Option.map_eq_some_iff.mp h
      exact ⟨(j, x), mem_entries.mpr hx, by simp [hj]⟩
    · rename_i hj
      exact ⟨(j, y), mem_entries.mpr h, by simp [hj]⟩

variable {hi j lo s : κ} {y : α} {f : α → α}

theorem get_insert_eq_some :
    (m.insert k x).get j = some y ↔ j = k ∧ y = x ∨ j ≠ k ∧ m.get j = some y := by
  rw [get_insert]
  split <;> simp_all [eq_comm]

theorem get_erase_eq_some : (m.erase k).get j = some x ↔ j ≠ k ∧ m.get j = some x := by
  rw [get_erase]
  split <;> simp_all

theorem get_modify_eq_some : (m.modify k f).get j = some y ↔
      j ≠ k ∧ m.get j = some y ∨ j = k ∧ ∃ x, m.get k = some x ∧ f x = y := by
  rw [get_modify]
  split <;> simp_all

theorem get_modify_isSome : ((m.modify k f).get j).isSome = (m.get j).isSome := by
  rw [get_modify]
  split <;> simp

/-! ### Ranges of keys -/

def lastBelow (m : OrdMap κ α) (k : κ) : Option (κ × α) :=
  (m.entries.filter fun p => p.1 < k).getLast?

def firstFrom (m : OrdMap κ α) (k : κ) : Option (κ × α) := (m.entries.filter fun p => k ≤ p.1).head?

def between (m : OrdMap κ α) (lo hi : κ) : List (κ × α) :=
  m.entries.filter fun p => lo ≤ p.1 ∧ p.1 < hi

def eraseBetween (m : OrdMap κ α) (lo hi : κ) : OrdMap κ α :=
  ⟨m.entries.filter fun p => ¬ (lo ≤ p.1 ∧ p.1 < hi), m.sorted.filter _⟩

theorem lastBelow_eq_some (h : m.lastBelow k = some (s, x)) :
    m.get s = some x ∧ s < k ∧ ∀ s' x', m.get s' = some x' → s' < k → s' ≤ s := by
  obtain ⟨front, hfront⟩ := getLast?_eq_some_iff.mp h
  have hmem : (s, x) ∈ m.entries.filter fun p => p.1 < k := by
    rw [hfront]
    exact mem_append_right _ mem_cons_self
  have hsorted := m.sorted.filter fun p => decide (p.1 < k)
  rw [mem_filter, mem_entries] at hmem
  refine ⟨hmem.1, by simpa using hmem.2, fun s' x' hs' hlt => ?_⟩
  have hmem' : (s', x') ∈ m.entries.filter fun p => p.1 < k :=
    mem_filter.mpr ⟨mem_entries.mpr hs', by simpa using hlt⟩
  rw [hfront] at hmem' hsorted
  rcases mem_append.mp hmem' with hin | hin
  · exact (((pairwise_append.mp hsorted).2.2 _ hin (s, x) mem_cons_self).le)
  · rw [mem_singleton] at hin
    exact (Prod.mk.inj hin).1.le

theorem lastBelow_eq_none (h : m.lastBelow k = none) (hs : m.get s = some x) : k ≤ s := by
  rw [lastBelow, getLast?_eq_none_iff, filter_eq_nil_iff] at h
  have := h (s, x) (mem_entries.mpr hs)
  exact not_lt.mp (by simpa using this)

theorem firstFrom_eq_some (h : m.firstFrom k = some (s, x)) :
    m.get s = some x ∧ k ≤ s ∧ ∀ s' x', m.get s' = some x' → k ≤ s' → s ≤ s' := by
  obtain ⟨rest, hrest⟩ := head?_eq_some_iff.mp h
  have hmem : (s, x) ∈ m.entries.filter fun p => k ≤ p.1 := by
    rw [hrest]
    exact mem_cons_self
  have hsorted := m.sorted.filter fun p => decide (k ≤ p.1)
  rw [mem_filter, mem_entries] at hmem
  refine ⟨hmem.1, by simpa using hmem.2, fun s' x' hs' hle => ?_⟩
  have hmem' : (s', x') ∈ m.entries.filter fun p => k ≤ p.1 :=
    mem_filter.mpr ⟨mem_entries.mpr hs', by simpa using hle⟩
  rw [hrest] at hmem' hsorted
  rcases mem_cons.mp hmem' with heq | hin
  · exact (Prod.mk.inj heq).1.ge
  · exact ((pairwise_cons.mp hsorted).1 _ hin).le

theorem firstFrom_eq_none (h : m.firstFrom k = none) (hs : m.get s = some x) : s < k := by
  rw [firstFrom, head?_eq_none_iff, filter_eq_nil_iff] at h
  have := h (s, x) (mem_entries.mpr hs)
  exact not_le.mp (by simpa using this)

theorem mem_between :
    (s, x) ∈ m.between lo hi ↔ m.get s = some x ∧ lo ≤ s ∧ s < hi := by
  rw [between, mem_filter, mem_entries]
  simp

theorem get_eraseBetween_eq_some :
    (m.eraseBetween lo hi).get s = some x ↔ m.get s = some x ∧ ¬ (lo ≤ s ∧ s < hi) := by
  rw [← mem_entries]
  show (s, x) ∈ m.entries.filter _ ↔ _
  rw [mem_filter, mem_entries, decide_eq_true_iff]

/-! ### Sums -/

def sum (m : OrdMap κ α) (w : κ → α → ℕ) : ℕ := (m.entries.map fun p => w p.1 p.2).sum

@[simp] theorem sum_empty (w : κ → α → ℕ) : (empty : OrdMap κ α).sum w = 0 := rfl

theorem sum_congr {w' : κ → α → ℕ} (h : ∀ k x, m.get k = some x → w k x = w' k x) :
    m.sum w = m.sum w' := by
  refine congrArg List.sum (map_congr_left fun p hp => ?_)
  exact h p.1 p.2 (mem_entries.mp hp)

theorem sum_eq_zero (h : ∀ k x, m.get k = some x → w k x = 0) : m.sum w = 0 := by
  refine List.sum_eq_zero fun n hn => ?_
  obtain ⟨p, hp, rfl⟩ := List.mem_map.mp hn
  exact h p.1 p.2 (mem_entries.mp hp)

theorem sum_add (m : OrdMap κ α) (w w' : κ → α → ℕ) :
    m.sum (fun k x => w k x + w' k x) = m.sum w + m.sum w' := sum_map_add

theorem le_sum (h : m.get k = some x) (w : κ → α → ℕ) : w k x ≤ m.sum w :=
  single_le_sum (fun _ _ => Nat.zero_le _) _
    (mem_map.mpr ⟨(k, x), mem_entries.mpr h, rfl⟩)

theorem sum_place (w : κ → α → ℕ) (k : κ) (x : α) (hl : l.Pairwise fun a b => a.1 < b.1) :
    ((place k x l).map fun p => w p.1 p.2).sum + (lookup l k).elim 0 (w k)
      = (l.map fun p => w p.1 p.2).sum + w k x := by
  induction l with
  | nil => simp [place, lookup]
  | cons q rest ih =>
    obtain ⟨k', y⟩ := q
    have hcons := pairwise_cons.mp hl
    have hnone : k < k' → lookup rest k = none := fun hlt =>
      Option.eq_none_iff_forall_ne_some.mpr fun z hz =>
        lt_asymm hlt (hcons.1 _ ((lookup_eq_some hcons.2).mp hz))
    unfold place lookup
    split
    · rename_i hlt
      rw [if_neg hlt.ne, hnone hlt]
      simp
      omega
    · split
      · rename_i hk
        subst hk
        simp
        omega
      · have := ih hcons.2
        simp only [map_cons, sum_cons]
        omega

theorem sum_insert (m : OrdMap κ α) (k : κ) (x : α) (w : κ → α → ℕ) :
    (m.insert k x).sum w + (m.get k).elim 0 (w k) = m.sum w + w k x :=
  sum_place w k x m.sorted

theorem sum_insert_of_none (h : m.get k = none) (x : α) (w : κ → α → ℕ) :
    (m.insert k x).sum w = m.sum w + w k x := by
  simpa [h] using m.sum_insert k x w

theorem sum_filter_ne (w : κ → α → ℕ) (k : κ) (hl : l.Pairwise fun a b => a.1 < b.1) :
    ((l.filter fun p => p.1 ≠ k).map fun p => w p.1 p.2).sum + (lookup l k).elim 0 (w k)
      = (l.map fun p => w p.1 p.2).sum := by
  induction l with
  | nil => rfl
  | cons q rest ih =>
    obtain ⟨k', y⟩ := q
    have hcons := pairwise_cons.mp hl
    have := ih hcons.2
    unfold lookup
    split
    · rename_i hk
      subst hk
      have hall : rest.filter (fun p => p.1 ≠ k) = rest :=
        filter_eq_self.mpr fun p hp => by simpa using (hcons.1 p hp).ne'
      simp only [hall, filter_cons, ne_eq, not_true_eq_false, decide_false,
        Bool.false_eq_true, if_false, Option.elim_some, map_cons, sum_cons]
      omega
    · rename_i hk
      simp only [filter_cons, ne_eq, Ne.symm hk, not_false_eq_true, decide_true, if_true,
        map_cons, sum_cons] at this ⊢
      omega

theorem sum_erase (h : m.get k = some x) (w : κ → α → ℕ) : (m.erase k).sum w + w k x = m.sum w := by
  have := sum_filter_ne w k m.sorted
  rw [show lookup m.entries k = some x from h] at this
  exact this

theorem sum_single (m : OrdMap κ α) (j : κ) (w : α → ℕ) :
    m.sum (fun k x => if k = j then w x else 0) = (m.get j).elim 0 w := by
  rcases hj : m.get j with - | y
  · refine sum_eq_zero fun k x hk => if_neg ?_
    rintro rfl
    rw [hj] at hk
    cases hk
  · rw [← sum_erase hj, sum_eq_zero fun k x hk => if_neg (get_erase_eq_some.mp hk).1]
    simp

theorem sum_modify_of_eq (h : ∀ x, w k (f x) = w k x) : (m.modify k f).sum w = m.sum w := by
  unfold sum modify
  rw [map_map]
  refine congrArg List.sum (map_congr_left fun p _ => ?_)
  simp only [Function.comp_apply]
  split
  · rename_i hp
    simp only [hp, h]
  · rfl

/-! ### How many entries -/

def size (m : OrdMap κ α) : ℕ := m.entries.length

theorem size_eq_sum (m : OrdMap κ α) : m.size = m.sum fun _ _ => 1 := by simp [size, sum]

theorem size_insert_of_none (h : m.get k = none) (x : α) : (m.insert k x).size = m.size + 1 := by
  rw [size_eq_sum, size_eq_sum, sum_insert_of_none h]

@[simp] theorem size_modify (m : OrdMap κ α) (k : κ) (f : α → α) :
    (m.modify k f).size = m.size := by
  simp [size, modify]

theorem size_erase (h : m.get k = some x) : (m.erase k).size + 1 = m.size := by
  rw [size_eq_sum, size_eq_sum]
  exact sum_erase h _

theorem size_eraseBetween_le (m : OrdMap κ α) (lo hi : κ) :
    (m.eraseBetween lo hi).size ≤ m.size := length_filter_le _ _

end OrdMap

end Moruna
