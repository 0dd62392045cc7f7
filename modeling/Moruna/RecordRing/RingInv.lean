/-
Moruna/RecordRing/RingInv.lean

The layout of the ring: the claimed slots fill the positions from `read` to `reserve`, never
more than the capacity, no slot crosses the end of the data area, every slot's bytes are
where its position says, and every other byte is zero.

Main results:

* `Layout.load_slot` — what a load inside a slot returns;
* `Layout.write`, `Layout.claim`, `Layout.release` — the three changes of the data area: a
  store inside one slot, a slot claimed at `reserve`, the oldest slot zeroed and released.
-/
import Mathlib.Data.List.GetD
import Moruna.RecordRing.Ring

namespace Moruna.RecordRing

open List

/-! ### Sizes and words -/

theorem slotSize_dvd (len : ℕ) : 8 ∣ slotSize len := Dvd.intro_left _ rfl

theorem le_slotSize (len : ℕ) : SLOT_HEAD + len ≤ slotSize len := by
  unfold slotSize
  omega

theorem slotSize_pos (len : ℕ) : 0 < slotSize len :=
  lt_of_lt_of_le (by unfold SLOT_HEAD; omega) (le_slotSize len)

theorem Slot.size_pos (x : Slot) : 0 < x.size := slotSize_pos x.len

theorem Slot.size_congr {x y : Slot} (h : x.len = y.len) : x.size = y.size := congrArg slotSize h

/-- A slot holds its two words and its payload. -/
theorem Slot.len_le (x : Slot) : 8 + x.len ≤ x.size := le_slotSize x.len

/-- The padding to the end of the data area takes exactly the tail. -/
theorem slotSize_tail {tail : ℕ} (h8 : 8 ∣ tail) (hpos : 0 < tail) :
    slotSize (tail - SLOT_HEAD) = tail := by
  unfold slotSize SLOT_HEAD
  omega

variable (c : Capacity)

theorem Capacity.bytes_pos : 0 < c.bytes := Nat.two_pow_pos _

theorem Capacity.off_lt (pos : ℕ) : c.off pos < c.bytes := Nat.mod_lt _ c.bytes_pos

theorem Capacity.dvd_bytes : 8 ∣ c.bytes := by
  have h := c.min
  unfold MIN_CAPACITY at h
  have hbits : 3 ≤ c.bits := by
    by_contra hlt
    have : 2 ^ c.bits ≤ 2 ^ 3 := Nat.pow_le_pow_right (by omega) (by omega)
    omega
  exact pow_dvd_pow 2 hbits

theorem Capacity.dvd_off {pos : ℕ} (h : 8 ∣ pos) : 8 ∣ c.off pos :=
  (Nat.dvd_mod_iff c.dvd_bytes).mpr h

theorem Capacity.bytes_le : c.bytes ≤ 2 ^ 30 := c.max

/-- The claimed bit is set, and the length is what is left without it. -/
theorem lenWord_toNat {len : ℕ} (h : len < 2 ^ 31) : (lenWord len).toNat = len + 2 ^ 31 := by
  unfold lenWord CLAIMED
  rw [UInt32.toNat_or, UInt32.toNat_ofNat', Nat.mod_eq_of_lt (by omega)]
  have := Nat.two_pow_add_eq_or_of_lt h 1
  rw [Nat.or_comm]
  simpa [add_comm] using this.symm

theorem lenWord_and_claimed {len : ℕ} (h : len < 2 ^ 31) : lenWord len &&& CLAIMED ≠ 0 := by
  intro h0
  have hbit := congrArg (fun w : UInt32 => w.toNat.testBit 31) h0
  simp only [UInt32.toNat_and, lenWord_toNat h, show CLAIMED.toNat = 2 ^ 31 from rfl,
    Nat.testBit_and, Nat.testBit_two_pow_self, Bool.and_true, Nat.add_comm len,
    Nat.testBit_two_pow_add_eq, Nat.testBit_lt_two_pow h] at hbit
  exact absurd hbit (by decide)

theorem lenWord_and_not_claimed {len : ℕ} (h : len < 2 ^ 31) :
    (lenWord len &&& ~~~ CLAIMED).toNat = len := by
  rw [UInt32.toNat_and, lenWord_toNat h, show (~~~ CLAIMED).toNat = 2 ^ 31 - 1 from rfl,
    Nat.and_two_pow_sub_one_eq_mod]
  omega

@[simp] theorem length_wordBytes (w : UInt32) : (wordBytes w).length = 4 := length_leBytes 4 _

theorem ofNat_leNat_wordBytes (w : UInt32) : UInt32.ofNat (leNat (wordBytes w)) = w :=
  ofNat_leNat_leBytes_u32 w

/-! ### Memory -/

theorem getD_copyAt {d b : Bytes} {k : ℕ} (h : k + b.length ≤ d.length) (j : ℕ) :
    (copyAt d k b).getD j 0
      = if k ≤ j ∧ j < k + b.length then b.getD (j - k) 0 else d.getD j 0 := by
  unfold copyAt
  have hk : (d.take k).length = k := by rw [length_take]; omega
  simp only [getD_eq_getElem?_getD]
  by_cases h1 : j < k
  · rw [append_assoc, getElem?_append_left (by omega), getElem?_take_of_lt h1, if_neg (by omega)]
  by_cases h2 : j < k + b.length
  · rw [append_assoc, getElem?_append_right (by omega), hk,
      getElem?_append_left (by omega), if_pos ⟨by omega, h2⟩]
  · rw [getElem?_append_right (by rw [length_append]; omega), length_append, hk,
      getElem?_drop, if_neg (by omega), Nat.add_sub_cancel' (by omega)]

theorem length_copyAt {d b : Bytes} {k : ℕ} (h : k + b.length ≤ d.length) :
    (copyAt d k b).length = d.length := by
  unfold copyAt
  simp only [length_append, length_take, length_drop]
  omega

/-! ### Chains of slots -/

/-- The slots fill the positions from `p` to `q`, one after the other. -/
def Chain : ℕ → List Slot → ℕ → Prop
  | p, [], q => p = q
  | p, x :: xs, q => x.pos = p ∧ Chain (p + x.size) xs q

namespace Chain

theorem le {p q : ℕ} : ∀ {l : List Slot}, Chain p l q → p ≤ q
  | [], h => le_of_eq h
  | _ :: _, h => le_trans (Nat.le_add_right _ _) (le h.2)

theorem mem {p q : ℕ} {x : Slot} : ∀ {l : List Slot}, Chain p l q → x ∈ l →
    p ≤ x.pos ∧ x.pos + x.size ≤ q
  | y :: ys, h, hx => by
    rcases mem_cons.mp hx with rfl | hx
    · exact ⟨h.1.ge, by rw [h.1]; exact h.2.le⟩
    · have := h.2.mem hx
      omega

/-- Of two slots the one before ends where the other starts, or earlier. -/
theorem ordered {p q : ℕ} {x y : Slot} : ∀ {l : List Slot}, Chain p l q → x ∈ l → y ∈ l →
    x = y ∨ x.pos + x.size ≤ y.pos ∨ y.pos + y.size ≤ x.pos
  | z :: zs, h, hx, hy => by
    have hpos := h.1
    rcases mem_cons.mp hx with rfl | hxs <;> rcases mem_cons.mp hy with rfl | hys
    · exact Or.inl rfl
    · have := h.2.mem hys
      exact Or.inr (Or.inl (by omega))
    · have := h.2.mem hxs
      exact Or.inr (Or.inr (by omega))
    · exact h.2.ordered hxs hys

theorem inj {p q : ℕ} {l : List Slot} (h : Chain p l q) {x y : Slot} (hx : x ∈ l) (hy : y ∈ l)
    (hpos : x.pos = y.pos) : x = y := by
  have := x.size_pos
  have := y.size_pos
  rcases h.ordered hx hy with h | h | h
  · exact h
  · omega
  · omega

theorem append {p q : ℕ} {x : Slot} : ∀ {l : List Slot}, Chain p l q → x.pos = q →
    Chain p (l ++ [x]) (q + x.size)
  | [], h, hx => ⟨hx.trans h.symm, by rw [show p = q from h]; rfl⟩
  | _ :: _, h, hx => ⟨h.1, h.2.append hx⟩

theorem onSlot {p q pos : ℕ} {f : Slot → Slot} (hpos : ∀ x, (f x).pos = x.pos)
    (hlen : ∀ x, (f x).len = x.len) : ∀ {l : List Slot}, Chain p l q →
    Chain p (RecordRing.onSlot pos f l) q
  | [], h => h
  | y :: ys, h => by
    have hsize := Slot.size_congr (hlen y)
    show Chain p ((if y.pos = pos then f y else y) :: RecordRing.onSlot pos f ys) q
    split
    · exact ⟨(hpos y).trans h.1, by rw [hsize]; exact h.2.onSlot hpos hlen⟩
    · exact ⟨h.1, h.2.onSlot hpos hlen⟩

end Chain

theorem mem_onSlot {pos : ℕ} {f : Slot → Slot} {l : List Slot} {y : Slot} :
    y ∈ onSlot pos f l ↔ ∃ x ∈ l, y = if x.pos = pos then f x else x := by
  unfold onSlot
  rw [mem_map]
  constructor
  · rintro ⟨x, hx, rfl⟩
    exact ⟨x, hx, rfl⟩
  · rintro ⟨x, hx, rfl⟩
    exact ⟨x, hx, rfl⟩

/-! ### The layout -/

/-- The offset `o` is inside the slot. -/
def Slot.Covers (c : Capacity) (x : Slot) (o : ℕ) : Prop :=
  c.off x.pos ≤ o ∧ o < c.off x.pos + x.size

theorem Slot.Covers.exists_add {c : Capacity} {x : Slot} {o : ℕ} (h : x.Covers c o) :
    ∃ i < x.size, o = c.off x.pos + i := by
  obtain ⟨hle, hlt⟩ := h
  exact ⟨o - c.off x.pos, by omega, by omega⟩

/-- The slots and the data area agree. -/
structure Layout (c : Capacity) (mem : Memory) (slots : List Slot) (read reserve : ℕ) : Prop where
  chain : Chain read slots reserve
  window : reserve ≤ read + c.bytes
  aligned : 8 ∣ read
  inside : ∀ x ∈ slots, c.off x.pos + x.size ≤ c.bytes
  length : ∀ x ∈ slots, x.bytes.length = x.size
  holds : ∀ x ∈ slots, ∀ k < x.size, mem (c.off x.pos + k) = x.bytes.getD k 0
  free : ∀ o, (∀ x ∈ slots, ¬ x.Covers c o) → mem o = 0

/-- Positions closer than the capacity have different offsets. -/
theorem Capacity.off_ne {p q : ℕ} (hpq : p < q) (hq : q < p + c.bytes) : c.off p ≠ c.off q := by
  intro h
  have hdvd : c.bytes ∣ q - p := (Nat.modEq_iff_dvd' hpq.le).mp h
  exact absurd (Nat.le_of_dvd (by omega) hdvd) (by omega)

/-- Inside a slot offsets and positions run together. -/
theorem Capacity.off_add {p k n : ℕ} (hin : c.off p + n ≤ c.bytes) (hk : k < n) :
    c.off (p + k) = c.off p + k := by
  unfold Capacity.off at *
  rw [Nat.add_mod, Nat.mod_eq_of_lt (show k < c.bytes by omega), Nat.mod_eq_of_lt (by omega)]

namespace Layout

variable {c : Capacity} {mem : Memory} {slots : List Slot} {read reserve : ℕ}

variable (h : Layout c mem slots read reserve)

include h

/-- **Two slots share no byte.** -/
theorem disjoint {x y : Slot} (hx : x ∈ slots)
    (hy : y ∈ slots) (hne : x.pos ≠ y.pos) {o : ℕ} (hxo : x.Covers c o) : ¬ y.Covers c o := by
  have key : ∀ {x y : Slot}, x ∈ slots → y ∈ slots → x.pos + x.size ≤ y.pos →
      x.Covers c o → y.Covers c o → False := by
    intro x y hx hy hle hxo hyo
    have hxm := h.chain.mem hx
    have hym := h.chain.mem hy
    have hw := h.window
    obtain ⟨i, hi, rfl⟩ := hxo.exists_add
    obtain ⟨j, hj, ho⟩ := hyo.exists_add
    rw [← c.off_add (h.inside x hx) hi, ← c.off_add (h.inside y hy) hj] at ho
    exact c.off_ne (by omega) (by omega) ho
  intro hyo
  rcases h.chain.ordered hx hy with rfl | hle | hle
  · exact hne rfl
  · exact key hx hy hle hxo hyo
  · exact key hy hx hle hyo hxo

theorem load_slot {x : Slot} (hx : x ∈ slots) {k n : ℕ}
    (hkn : k + n ≤ x.size) : load mem (c.off x.pos + k) n = (x.bytes.drop k).take n := by
  have hlen := h.length x hx
  refine ext_getElem (by simp [load]; omega) fun i hi _ => ?_
  have hin : i < n := by simpa [load] using hi
  simp only [load, getElem_map, getElem_range, getElem_take, getElem_drop]
  rw [add_assoc, h.holds x hx (k + i) (by omega), getD_eq_getElem _ _ (by omega)]

omit h in
theorem load_free (h : Layout c mem [] read reserve) (off n : ℕ) :
    load mem off n = List.replicate n 0 := by
  refine eq_replicate_iff.mpr ⟨by simp [load], fun b hb => ?_⟩
  obtain ⟨i, -, rfl⟩ := mem_map.mp hb
  exact h.free _ fun x hx => absurd hx not_mem_nil

theorem write {x : Slot} (hx : x ∈ slots) {k : ℕ}
    {b : Bytes} (hkb : k + b.length ≤ x.size) {f : Slot → Slot} (hpos : ∀ y, (f y).pos = y.pos)
    (hlen : ∀ y, (f y).len = y.len) (hbytes : (f x).bytes = copyAt x.bytes k b) :
    Layout c (store mem (c.off x.pos + k) b) (onSlot x.pos f slots) read reserve := { h with
  chain := h.chain.onSlot hpos hlen
  inside y hy := by
    obtain ⟨z, hz, rfl⟩ := mem_onSlot.mp hy
    have := h.inside z hz
    split
    · rwa [hpos, Slot.size_congr (hlen z)]
    · exact this
  length y hy := by
    obtain ⟨z, hz, rfl⟩ := mem_onSlot.mp hy
    split
    · rename_i hzx
      obtain rfl := h.chain.inj hz hx hzx
      rw [hbytes, length_copyAt (by rw [h.length z hz]; exact hkb), h.length z hz]
      exact (Slot.size_congr (hlen z)).symm
    · exact h.length z hz
  holds y hy j hj := by
    obtain ⟨z, hz, rfl⟩ := mem_onSlot.mp hy
    unfold store
    split at hj
    · rename_i hzx
      obtain rfl := h.chain.inj hz hx hzx
      rw [if_pos hzx, hpos, hbytes, getD_copyAt (by rw [h.length z hz]; exact hkb)]
      have hj' : j < z.size := by rwa [Slot.size_congr (hlen z)] at hj
      rw [show c.off z.pos + j - (c.off z.pos + k) = j - k by omega, h.holds z hz j hj']
      refine if_congr ?_ rfl rfl
      omega
    · rename_i hzx
      rw [if_neg hzx, if_neg, h.holds z hz j hj]
      intro ho
      exact h.disjoint hz hx hzx (o := c.off z.pos + j) ⟨by omega, by omega⟩
        ⟨by omega, by omega⟩
  free o ho := by
    unfold store
    rw [if_neg, h.free o]
    · intro y hy hcov
      refine ho _ (mem_onSlot.mpr ⟨y, hy, rfl⟩) ?_
      split
      · unfold Slot.Covers
        rwa [hpos, Slot.size_congr (hlen y)]
      · exact hcov
    · intro hin
      refine ho _ (mem_onSlot.mpr ⟨x, hx, rfl⟩) ?_
      unfold Slot.Covers
      rw [if_pos rfl, hpos, Slot.size_congr (hlen x)]
      omega }

theorem claim {len owner : ℕ} {record : Option Bytes} (hin : c.off reserve + slotSize len ≤ c.bytes)
    (hroom : reserve + slotSize len ≤ read + c.bytes) :
    Layout c mem (slots ++ [newSlot reserve len owner record]) read (reserve + slotSize len) where
  chain := h.chain.append rfl
  window := hroom
  aligned := h.aligned
  inside y hy := by
    rcases mem_append.mp hy with hy | hy
    · exact h.inside y hy
    · obtain rfl := mem_singleton.mp hy
      exact hin
  length y hy := by
    rcases mem_append.mp hy with hy | hy
    · exact h.length y hy
    · obtain rfl := mem_singleton.mp hy
      exact length_replicate
  holds y hy k hk := by
    rcases mem_append.mp hy with hy | hy
    · exact h.holds y hy k hk
    obtain rfl := mem_singleton.mp hy
    have hk' : k < slotSize len := hk
    -- the new slot's bytes lie in no other slot, so they are zero
    have hzero : mem (c.off reserve + k) = 0 := by
      refine h.free _ fun x hx hcov => ?_
      have hxm := h.chain.mem hx
      obtain ⟨i, hi, ho⟩ := hcov.exists_add
      rw [← c.off_add hin hk', ← c.off_add (h.inside x hx) hi] at ho
      exact c.off_ne (by omega) (by omega) ho.symm
    show mem (c.off reserve + k) = (List.replicate (slotSize len) (0 : UInt8)).getD k 0
    rw [hzero, getD_eq_getElem _ _ (by simpa using hk'), getElem_replicate]
  free o ho := h.free o fun x hx => ho x (mem_append_left _ hx)

omit h

theorem release {x : Slot} (h : Layout c mem (x :: slots) read reserve)
    (hzero : x.bytes = List.replicate x.size 0) : Layout c mem slots (read + x.size) reserve where
  chain := h.chain.2
  window := by have := h.window; omega
  aligned := dvd_add h.aligned (slotSize_dvd x.len)
  inside y hy := h.inside y (mem_cons_of_mem _ hy)
  length y hy := h.length y (mem_cons_of_mem _ hy)
  holds y hy := h.holds y (mem_cons_of_mem _ hy)
  free o ho := by
    by_cases hcov : x.Covers c o
    · obtain ⟨k, hk, rfl⟩ := hcov.exists_add
      rw [h.holds x (by simp) k hk, hzero, getD_eq_getElem _ _ (by simpa using hk),
        getElem_replicate]
    · refine h.free o fun y hy => ?_
      rcases mem_cons.mp hy with rfl | hy
      · exact hcov
      · exact ho y hy

end Layout

end Moruna.RecordRing
