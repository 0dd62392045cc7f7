/-
Moruna/Lib/Machine.lean

Checked arithmetic on 64-bit machine words.

The operations compute on `UInt64` and answer `none` exactly where the exact
result does not fit.  Each of them has one lemma that moves it to `Nat`, so a
proof about offsets and lengths leaves the machine words at once and closes with
`omega`.
-/
import Mathlib.Data.Nat.Log
import Mathlib.Tactic

namespace Moruna

/-! ### Bytes in order -/

instance linearOrderByte : LinearOrder UInt8 where
  le_refl := UInt8.le_refl
  le_trans := fun _ _ _ => UInt8.le_trans
  le_antisymm := fun _ _ => UInt8.le_antisymm
  le_total := UInt8.le_total
  lt_iff_le_not_ge a b := by
    rw [UInt8.lt_iff_toNat_lt, UInt8.le_iff_toNat_le, UInt8.le_iff_toNat_le]
    omega
  toDecidableLE := inferInstance
  toDecidableLT := inferInstance
  toDecidableEq := inferInstance

/-! ### Checked operations -/

variable (a b : UInt64)

/-- `a + b`, or `none` when the sum does not fit in 64 bits. -/
def checkedAdd : Option UInt64 := if a.toNat + b.toNat < 2 ^ 64 then some (a + b) else none

/-- `a - b`, or `none` when `b` is larger. -/
def checkedSub : Option UInt64 := if b.toNat ≤ a.toNat then some (a - b) else none

/-- `a * b`, or `none` when the product does not fit in 64 bits. -/
def checkedMul : Option UInt64 := if a.toNat * b.toNat < 2 ^ 64 then some (a * b) else none

/-- Rounding-up division; like the machine operation it is used with `b ≠ 0`. -/
def divCeil : UInt64 := if a % b = 0 then a / b else a / b + 1

def isMultipleOf : Bool := a % b == 0

def absDiff : UInt64 := if a < b then b - a else a - b

variable {c : UInt64}

theorem checkedAdd_eq_some {a b : UInt64} :
    checkedAdd a b = some c ↔ c.toNat = a.toNat + b.toNat := by
  unfold checkedAdd
  split
  · rename_i h
    rw [Option.some.injEq, ← UInt64.toNat_inj, UInt64.toNat_add, Nat.mod_eq_of_lt h, eq_comm]
  have := c.toNat_lt
  constructor
  · intro h'; cases h'
  · intro h'; omega

theorem checkedAdd_eq_none {a b : UInt64} : checkedAdd a b = none ↔ 2 ^ 64 ≤ a.toNat + b.toNat := by
  unfold checkedAdd
  split <;> simp <;> omega

theorem checkedSub_eq_some {a b : UInt64} :
    checkedSub a b = some c ↔ b.toNat ≤ a.toNat ∧ c.toNat = a.toNat - b.toNat := by
  unfold checkedSub
  split
  · rename_i h
    rw [Option.some.injEq, ← UInt64.toNat_inj,
      UInt64.toNat_sub_of_le _ _ (UInt64.le_iff_toNat_le.mpr h), eq_comm]
    exact ⟨fun h' => ⟨h, h'⟩, fun h' => h'.2⟩
  · rename_i h
    constructor
    · intro h'; cases h'
    · intro h'; exact absurd h'.1 h

theorem checkedMul_eq_some {a b : UInt64} :
    checkedMul a b = some c ↔ c.toNat = a.toNat * b.toNat := by
  unfold checkedMul
  split
  · rename_i h
    rw [Option.some.injEq, ← UInt64.toNat_inj, UInt64.toNat_mul, Nat.mod_eq_of_lt h, eq_comm]
  have := c.toNat_lt
  constructor
  · intro h'; cases h'
  · intro h'; omega

/-! ### Division and alignment -/

theorem isMultipleOf_iff {a b : UInt64} : isMultipleOf a b = true ↔ b.toNat ∣ a.toNat := by
  unfold isMultipleOf
  rw [beq_iff_eq, ← UInt64.toNat_inj, Nat.dvd_iff_mod_eq_zero]
  rfl

theorem toNat_divCeil {a b : UInt64} (hb : 0 < b.toNat) :
    (divCeil a b).toNat = (a.toNat + (b.toNat - 1)) / b.toNat := by
  have hlt := a.toNat_lt
  have hdm := Nat.div_add_mod a.toNat b.toNat
  have hmod := Nat.mod_lt a.toNat hb
  unfold divCeil
  split
  · rename_i h
    have h0 : a.toNat % b.toNat = 0 := by
      have := congrArg UInt64.toNat h
      rwa [UInt64.toNat_mod] at this
    rw [UInt64.toNat_div, eq_comm, Nat.div_eq_iff hb]
    have : a.toNat / b.toNat * b.toNat = b.toNat * (a.toNat / b.toNat) := mul_comm _ _
    omega
  · rename_i h
    have h0 : a.toNat % b.toNat ≠ 0 := by
      intro h'
      exact h (UInt64.toNat_inj.mp (by rw [UInt64.toNat_mod]; exact h'))
    -- a nonzero remainder leaves room for the one that is added
    have hb2 : 2 ≤ b.toNat := by omega
    have hle : a.toNat / b.toNat ≤ a.toNat / 2 := Nat.div_le_div_left hb2 (by omega)
    rw [UInt64.toNat_add, UInt64.toNat_div, UInt64.toNat_one, Nat.mod_eq_of_lt (by omega), eq_comm,
      Nat.div_eq_iff hb]
    have : (a.toNat / b.toNat + 1) * b.toNat = b.toNat * (a.toNat / b.toNat) + b.toNat := by ring
    omega

def ceilDiv (a b : ℕ) : ℕ := (a + (b - 1)) / b

theorem ceilDiv_le_iff {a b c : ℕ} (hb : 0 < b) : ceilDiv a b ≤ c ↔ a ≤ c * b := by
  unfold ceilDiv
  rw [← Nat.lt_succ_iff, Nat.div_lt_iff_lt_mul hb, Nat.succ_mul]
  omega

theorem le_ceilDiv_mul {a b : ℕ} (hb : 0 < b) : a ≤ ceilDiv a b * b := (ceilDiv_le_iff hb).mp le_rfl

theorem lt_ceilDiv_iff {a b c : ℕ} (hb : 0 < b) : c < ceilDiv a b ↔ c * b < a := by
  rw [← not_le, ceilDiv_le_iff hb, not_le]

theorem ceilDiv_pos {a b : ℕ} (hb : 0 < b) (ha : 0 < a) : 0 < ceilDiv a b := by
  rw [lt_ceilDiv_iff hb]
  omega

@[simp] theorem ceilDiv_zero {b : ℕ} (hb : 0 < b) : ceilDiv 0 b = 0 := by
  have := (ceilDiv_le_iff (a := 0) (c := 0) hb).mpr (by simp)
  omega

/-- One part of size `b`, and the parts of what is left. -/
theorem ceilDiv_eq_succ {a b : ℕ} (hb : 0 < b) (ha : 0 < a) :
    ceilDiv a b = ceilDiv (a - b) b + 1 := by
  refine eq_of_forall_ge_iff fun k => ?_
  cases k with
  | zero =>
    rw [ceilDiv_le_iff hb]
    omega
  | succ k =>
    rw [ceilDiv_le_iff hb, Nat.add_le_add_iff_right, ceilDiv_le_iff hb, Nat.succ_mul]
    omega

end Moruna
