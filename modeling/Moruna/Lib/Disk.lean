/-
Moruna/Lib/Disk.lean

A byte-addressed medium behind a volatile write cache.

`Disk` is what lies on the medium.  A write request is cut into pieces at the block
boundaries; the pieces issued since the last flush are pending, and a crash keeps any of
them (`Crashes`).  The facts about a write are:

* `applyPieces_cut` — the pieces of a request together do what the request says;
* `applyPieces_seals` — a request over zero bytes that has all its nonzero bytes in its
  first block is atomic.
-/
import Mathlib.Data.List.GetD
import Moruna.Lib.Codec

namespace Moruna

open List

/-! ### Contents -/

/-- The bytes of a medium by their address. -/
abbrev Disk := ℕ → UInt8

namespace Disk

variable (d : Disk)

def read (off len : ℕ) : Bytes := (List.range len).map fun i => d (off + i)

def write (off : ℕ) (b : Bytes) : Disk := fun i =>
  if off ≤ i ∧ i < off + b.length then b.getD (i - off) 0 else d i

@[simp] theorem length_read (off len : ℕ) : (d.read off len).length = len := by simp [read]

theorem read_getElem? {off len i : ℕ} (h : i < len) :
    (d.read off len)[i]? = some (d (off + i)) := by
  simp [read, h]

variable {d : Disk}

theorem read_congr {e : Disk} {off len : ℕ} (h : ∀ i, off ≤ i → i < off + len → d i = e i) :
    d.read off len = e.read off len := by
  refine map_congr_left fun i hi => ?_
  exact h (off + i) (by omega) (by have := mem_range.mp hi; omega)

theorem read_eq_replicate {off len : ℕ} :
    d.read off len = List.replicate len 0 ↔ ∀ i, off ≤ i → i < off + len → d i = 0 := by
  rw [eq_replicate_iff]
  constructor
  · rintro ⟨-, h⟩ i h1 h2
    exact h _ (mem_map.mpr ⟨i - off, mem_range.mpr (by omega), by congr 1; omega⟩)
  · refine fun h => ⟨length_read _ _ _, fun x hx => ?_⟩
    obtain ⟨i, hi, rfl⟩ := mem_map.mp hx
    have hi := mem_range.mp hi
    exact h _ (by omega) (by omega)

def cell (d : Disk) (a k : ℕ) : Bytes := d.read (k * a) a

theorem read_eq_iff {off : ℕ} {b : Bytes} {len : ℕ} (hlen : b.length = len) :
    d.read off len = b ↔ ∀ i (h : i < b.length), d (off + i) = b[i] := by
  subst hlen
  constructor
  · intro h i hi
    have := @read_getElem? d off _ i hi
    rw [h, getElem?_eq_getElem hi] at this
    exact (Option.some.inj this).symm
  · intro h
    refine ext_getElem (by simp) fun i h1 h2 => ?_
    simpa [read] using h i h2

theorem read_append (d : Disk) (off m n : ℕ) :
    d.read off (m + n) = d.read off m ++ d.read (off + m) n := by
  simp only [read, range_add, map_append, map_map]
  congr 1
  refine map_congr_left fun i _ => ?_
  simp only [Function.comp_apply, add_assoc]

/-- One of several pages of equal length that are read as one byte string. -/
theorem read_flatten {a start len : ℕ} {pages : List Bytes} (hpages : ∀ p ∈ pages, p.length = a)
    (h : d.read start len = pages.flatten) {i : ℕ} {p : Bytes} (hp : pages[i]? = some p) :
    d.read (start + i * a) a = p := by
  induction pages generalizing start len i with
  | nil => simp at hp
  | cons q pages ih =>
    have hq := hpages q mem_cons_self
    have hlen : len = a + pages.flatten.length := by
      rw [← hq, ← length_append, ← flatten_cons, ← h, length_read]
    rw [hlen, read_append] at h
    obtain ⟨h1, h2⟩ := append_inj h (by rw [length_read, hq])
    cases i with
    | zero =>
      rw [getElem?_cons_zero, Option.some.injEq] at hp
      rw [zero_mul, add_zero, h1, hp]
    | succ i =>
      rw [Nat.succ_mul, Nat.add_comm (i * a), ← Nat.add_assoc]
      exact ih (fun x hx => hpages x (mem_cons_of_mem _ hx)) h2 hp

theorem write_of_not_mem {off i : ℕ} {b : Bytes} (h : ¬ (off ≤ i ∧ i < off + b.length)) :
    d.write off b i = d i := if_neg h

theorem write_of_mem {off i : ℕ} {b : Bytes} (h : off ≤ i ∧ i < off + b.length) :
    d.write off b i = b.getD (i - off) 0 := if_pos h

theorem read_write (d : Disk) (off : ℕ) {b : Bytes} {len : ℕ} (hlen : b.length = len) :
    (d.write off b).read off len = b := by
  rw [read_eq_iff hlen]
  intro i hi
  rw [write_of_mem ⟨by omega, by omega⟩, Nat.add_sub_cancel_left, getD_eq_getElem _ _ hi]

theorem read_write_of_disjoint {off len at_ : ℕ} {b : Bytes}
    (h : at_ + b.length ≤ off ∨ off + len ≤ at_) :
    (d.write at_ b).read off len = d.read off len := by
  refine read_congr fun i h1 h2 => write_of_not_mem ?_
  omega

@[simp] theorem write_nil (d : Disk) (off : ℕ) : d.write off [] = d := by
  funext i
  exact write_of_not_mem (by simp)

theorem write_append (d : Disk) (off : ℕ) (b c : Bytes) :
    d.write off (b ++ c) = (d.write off b).write (off + b.length) c := by
  funext i
  by_cases h2 : off + b.length ≤ i ∧ i < off + b.length + c.length
  · rw [write_of_mem h2, write_of_mem ⟨by omega, by rw [length_append]; omega⟩,
      getD_append_right _ _ _ _ (by omega)]
    congr 1
    omega
  · rw [write_of_not_mem h2]
    by_cases h1 : off ≤ i ∧ i < off + b.length
    · rw [write_of_mem h1, write_of_mem ⟨h1.1, by rw [length_append]; omega⟩,
        getD_append _ _ _ _ (by omega)]
    · rw [write_of_not_mem h1, write_of_not_mem (by rw [length_append]; omega)]

end Disk

/-! ### Pieces -/

/-- A write that reaches the medium as a whole or not at all. -/
abbrev Piece := ℕ × Bytes

def applyPieces (ps : List Piece) (d : Disk) : Disk := ps.foldl (fun d p => d.write p.1 p.2) d

/-- Cut a request at the multiples of `block`. -/
def cut (block off : ℕ) (b : Bytes) : List Piece :=
  if b = [] then []
  else
    (off, b.take (max 1 (block - off % block))) ::
      cut block (off + max 1 (block - off % block)) (b.drop (max 1 (block - off % block)))
termination_by b.length
decreasing_by
  rename_i h
  have := length_pos_of_ne_nil h
  rw [length_drop]
  omega

theorem applyPieces_append (ps qs : List Piece) (d : Disk) :
    applyPieces (ps ++ qs) d = applyPieces qs (applyPieces ps d) := foldl_append

theorem applyPieces_cut (block off : ℕ) (b : Bytes) (d : Disk) :
    applyPieces (cut block off b) d = d.write off b := by
  fun_induction cut block off b generalizing d with
  | case1 off => rw [Disk.write_nil]; rfl
  | case2 off b hb ih =>
    set k := max 1 (block - off % block)
    show applyPieces (cut block (off + k) (b.drop k)) (d.write off (b.take k)) = _
    rw [ih]
    conv_rhs => rw [← take_append_drop k b, Disk.write_append]
    rcases lt_or_ge b.length k with hlt | hge
    · rw [drop_of_length_le (by omega), Disk.write_nil, Disk.write_nil]
    · rw [length_take, min_eq_left hge]

variable {block : ℕ} {p : Piece} {b : Bytes} {off : ℕ}

theorem ne_nil_of_mem_cut (hp : p ∈ cut block off b) : b ≠ [] := by
  rintro rfl
  rw [cut] at hp
  cases hp

/-- A request is cut inside itself. -/
theorem cut_mem (hp : p ∈ cut block off b) : off ≤ p.1 ∧ p.1 + p.2.length ≤ off + b.length := by
  fun_induction cut block off b with
  | case1 off => cases hp
  | case2 off b hb ih =>
    rcases mem_cons.mp hp with rfl | hp
    · simp only [length_take]
      omega
    · have hlen := length_pos_of_ne_nil (ne_nil_of_mem_cut hp)
      have := ih hp
      rw [length_drop] at this hlen
      omega

/-! ### Crashes -/

/-- A medium a crash may leave: any of the pending pieces have reached it. -/
def Crashes (durable : Disk) (pending : List Piece) (img : Disk) : Prop :=
  ∃ ps : List Piece, ps.Sublist pending ∧ img = applyPieces ps durable

def Inside (R : ℕ → Prop) (p : Piece) : Prop := ∀ i, p.1 ≤ i → i < p.1 + p.2.length → R i

theorem applyPieces_outside {R : ℕ → Prop} {ps : List Piece} (h : ∀ p ∈ ps, Inside R p) {i : ℕ}
    (hi : ¬ R i) (d : Disk) : applyPieces ps d i = d i := by
  induction ps generalizing d with
  | nil => rfl
  | cons p ps ih =>
    show applyPieces ps (d.write p.1 p.2) i = d i
    rw [ih (fun q hq => h q (mem_cons_of_mem _ hq)), Disk.write_of_not_mem]
    rintro ⟨h1, h2⟩
    exact hi (h p mem_cons_self i h1 h2)

theorem cut_inside {R : ℕ → Prop}
    (h : ∀ i, off ≤ i → i < off + b.length → R i) (hp : p ∈ cut block off b) : Inside R p := by
  intro i h1 h2
  have := cut_mem hp
  exact h i (by omega) (by omega)

/-- Outside a region in which all pending pieces lie, a crash leaves what was there. -/
theorem Crashes.eq_outside {R : ℕ → Prop} {durable img : Disk} {pending : List Piece}
    (h : Crashes durable pending img) (hp : ∀ p ∈ pending, Inside R p) {i : ℕ} (hi : ¬ R i) :
    img i = durable i := by
  obtain ⟨ps, hps, rfl⟩ := h
  exact applyPieces_outside (fun p hp' => hp p (hps.subset hp')) hi durable

theorem cut_zero (hz : ∀ x ∈ b, x = 0) (hp : p ∈ cut block off b) : ∀ x ∈ p.2, x = 0 := by
  fun_induction cut block off b with
  | case1 off => cases hp
  | case2 off b hb ih =>
    rcases mem_cons.mp hp with rfl | hp
    · exact fun x hx => hz x (mem_of_mem_take hx)
    · exact ih (fun x hx => hz x (mem_of_mem_drop hx)) hp

/-! ### Sealing a blank cell -/

/-- The pieces of a write of `b` at `off` when all its nonzero bytes lie in its first block:
that block, or zero bytes behind it. -/
def Seals (block off : ℕ) (b : Bytes) (p : Piece) : Prop :=
  p = (off, b.take block) ∨
    (∀ x ∈ p.2, x = 0) ∧ off + block ≤ p.1 ∧ p.1 + p.2.length ≤ off + b.length

/-- A blank cell, with `b` on it or not. -/
theorem write_take_of_blank {d : Disk} (hz : ∀ x ∈ b.drop block, x = 0)
    (hd : ∀ i, off ≤ i → i < off + b.length → d i = 0) :
    d.write off (b.take block) = d.write off b := by
  funext i
  by_cases hi : off ≤ i ∧ i < off + (b.take block).length
  · have hlen : i - off < b.length := by
      have := hi.2
      rw [length_take] at this
      omega
    rw [Disk.write_of_mem hi, Disk.write_of_mem ⟨hi.1, by omega⟩,
      getD_eq_getElem _ _ (by omega), getD_eq_getElem _ _ hlen, getElem_take]
  · rw [Disk.write_of_not_mem hi]
    by_cases hi' : off ≤ i ∧ i < off + b.length
    · have hlt : block ≤ i - off := by
        rw [length_take] at hi
        omega
      have hlen : i - off - block < (b.drop block).length := by
        rw [length_drop]
        omega
      have hzero := hz _ (getElem_mem hlen)
      rw [getElem_drop] at hzero
      rw [Disk.write_of_mem hi', getD_eq_getElem _ _ (by omega), hd i hi'.1 hi'.2, ← hzero]
      congr 1
      omega
    · rw [Disk.write_of_not_mem hi']

/-- **A write over a blank cell that is sealed by its first block is atomic**: whatever
pieces of it reach the medium, the cell is blank or holds all of `b`. -/
theorem applyPieces_seals {d : Disk} (hz : ∀ x ∈ b.drop block, x = 0)
    (hd : ∀ i, off ≤ i → i < off + b.length → d i = 0) {ps : List Piece}
    (hp : ∀ p ∈ ps, Seals block off b p) :
    applyPieces ps d = d ∨ applyPieces ps d = d.write off b := by
  -- one piece keeps the two possible contents
  have step : ∀ (e : Disk) (p : Piece), Seals block off b p → e = d ∨ e = d.write off b →
      e.write p.1 p.2 = d ∨ e.write p.1 p.2 = d.write off b := by
    rintro e p (rfl | ⟨hzero, h1, h2⟩) he
    · -- case: the first block
      right
      have hfirst := write_take_of_blank hz hd
      rcases he with rfl | rfl
      · exact hfirst
      rw [← hfirst]
      funext i
      by_cases hi : off ≤ i ∧ i < off + (b.take block).length
      · rw [Disk.write_of_mem hi, Disk.write_of_mem hi]
      · rw [Disk.write_of_not_mem hi]
    · -- case: zero bytes where the contents are zero already
      have hsame : e.write p.1 p.2 = e := by
        funext i
        by_cases hi : p.1 ≤ i ∧ i < p.1 + p.2.length
        · have hlen : i - p.1 < p.2.length := by omega
          have hzi : e i = 0 := by
            rcases he with rfl | rfl
            · exact hd i (by omega) (by omega)
            · rw [← write_take_of_blank hz hd, Disk.write_of_not_mem]
              · exact hd i (by omega) (by omega)
              · rw [length_take]
                omega
          rw [Disk.write_of_mem hi, getD_eq_getElem _ _ hlen, hzi]
          exact hzero _ (getElem_mem hlen)
        · exact Disk.write_of_not_mem hi
      rw [hsame]
      exact he
  have key : ∀ (ps : List Piece) (e : Disk), (∀ p ∈ ps, Seals block off b p) →
      e = d ∨ e = d.write off b → applyPieces ps e = d ∨ applyPieces ps e = d.write off b := by
    intro ps
    induction ps with
    | nil => exact fun e _ he => he
    | cons p ps ih =>
      intro e hps he
      exact ih (e.write p.1 p.2) (fun q hq => hps q (mem_cons_of_mem _ hq))
        (step e p (hps p mem_cons_self) he)
  exact key ps d hp (.inl rfl)

/-- The pieces of the first part of a write that is sealed by its first block. -/
theorem cut_take_seals {off m : ℕ} (hoff : off % block = 0) (hblock : 0 < block)
    (hm : block ≤ m) (hz : ∀ x ∈ b.drop block, x = 0) (hp : p ∈ cut block off (b.take m)) :
    Seals block off b p := by
  rw [cut] at hp
  split at hp
  · cases hp
  rw [show max 1 (block - off % block) = block by omega, take_take, min_eq_left hm] at hp
  rcases mem_cons.mp hp with rfl | hp
  · exact .inl rfl
  right
  have hm' := cut_mem hp
  rw [length_drop, length_take] at hm'
  refine ⟨cut_zero (fun x hx => hz x ?_) hp, hm'.1, ?_⟩
  · rw [drop_take] at hx
    exact mem_of_mem_take hx
  by_cases hlen : p.2.length = 0
  · have := length_pos_of_ne_nil (ne_nil_of_mem_cut hp)
    rw [length_drop, length_take] at this
    omega
  · omega

/-- The pieces of a later part of such a write are zero bytes. -/
theorem cut_drop_seals {off k m : ℕ} (hk : block ≤ k) (hz : ∀ x ∈ b.drop block, x = 0)
    (hp : p ∈ cut block (off + k) ((b.drop k).take m)) : Seals block off b p := by
  right
  have hm' := cut_mem hp
  rw [length_take, length_drop] at hm'
  have hpos := length_pos_of_ne_nil (ne_nil_of_mem_cut hp)
  rw [length_take, length_drop] at hpos
  refine ⟨cut_zero (fun x hx => hz x ?_) hp, by omega, by omega⟩
  have hd : b.drop k = (b.drop block).drop (k - block) := by
    rw [drop_drop]
    congr 1
    omega
  rw [hd] at hx
  exact mem_of_mem_drop (mem_of_mem_take hx)

end Moruna
