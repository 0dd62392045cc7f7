/-
Moruna/Kernel/Quota.lean

The arithmetic of the kernel's memory accounting: one account's ledger.

A ledger counts what is charged to an account and what is held for the accounts carved
out of it; the two never pass its limit together.  The figures are machine words and
the one test, `fits`, adds them with overflow checks; `fits_iff` moves it to `ℕ`, and
each operation has one lemma there.
-/
import Moruna.Lib.Machine
import Moruna.Kernel.Abi

namespace Moruna.Kernel

structure Usage where
  limit : UInt64
  used : UInt64
  peak : UInt64
  reserved : UInt64
  deriving DecidableEq

/-- A charge or a reservation the account had no room for. -/
structure Exceeded where
  asked : UInt64
  usage : Usage
  deriving DecidableEq

/-- More given back than was charged or held. -/
structure Underflow where
  returned : UInt64
  held : UInt64
  deriving DecidableEq

/-- One account's figures: what is charged to it, what it holds for its children, and
the most it ever had charged. -/
structure Ledger where
  limit : UInt64
  used : UInt64
  peak : UInt64
  reserved : UInt64
  deriving DecidableEq

namespace Ledger

def new (limit : UInt64) : Ledger := ⟨limit, 0, 0, 0⟩

variable (l : Ledger)

def usage : Usage := ⟨l.limit, l.used, l.peak, l.reserved⟩

/-- Whether `bytes` more fit beside what is charged and what is held. -/
def fits (bytes : UInt64) : Bool :=
  match (checkedAdd l.used l.reserved).bind (checkedAdd · bytes) with
  | some total => total ≤ l.limit
  | none => false

def charge (bytes : UInt64) : Except Exceeded Unit × Ledger :=
  if l.fits bytes then
    (.ok (), { l with used := l.used + bytes, peak := max l.peak (l.used + bytes) })
  else (.error ⟨bytes, l.usage⟩, l)

def uncharge (bytes : UInt64) : Except Underflow Unit × Ledger :=
  match checkedSub l.used bytes with
  | some used => (.ok (), { l with used })
  | none => (.error ⟨bytes, l.used⟩, l)

def reserve (bytes : UInt64) : Except Exceeded Unit × Ledger :=
  if l.fits bytes then (.ok (), { l with reserved := l.reserved + bytes })
  else (.error ⟨bytes, l.usage⟩, l)

def unreserve (bytes : UInt64) : Except Underflow Unit × Ledger :=
  match checkedSub l.reserved bytes with
  | some reserved => (.ok (), { l with reserved })
  | none => (.error ⟨bytes, l.reserved⟩, l)

/-! ### The figures as numbers -/

/-- What is charged and what is held stay under the limit together. -/
def Fits : Prop := l.used.toNat + l.reserved.toNat ≤ l.limit.toNat

variable {l : Ledger} {bytes : UInt64}

theorem fits_iff :
    l.fits bytes = true ↔ l.used.toNat + l.reserved.toNat + bytes.toNat ≤ l.limit.toNat := by
  have hlim := l.limit.toNat_lt
  unfold fits
  rcases h1 : checkedAdd l.used l.reserved with _ | v
  · have := checkedAdd_eq_none.mp h1
    simp only [Option.bind_none, Bool.false_eq_true, false_iff]
    omega
  have hv := checkedAdd_eq_some.mp h1
  rw [Option.bind_some]
  rcases h2 : checkedAdd v bytes with _ | total
  · have := checkedAdd_eq_none.mp h2
    simp only [Bool.false_eq_true, false_iff]
    omega
  · have := checkedAdd_eq_some.mp h2
    simp only [decide_eq_true_eq, UInt64.le_iff_toNat_le]
    omega

theorem charge_ok (h : l.fits bytes = true) :
    ∃ l', l.charge bytes = (.ok (), l') ∧ l'.limit = l.limit ∧ l'.reserved = l.reserved ∧
      l'.used.toNat = l.used.toNat + bytes.toNat ∧
      l'.peak.toNat = max l.peak.toNat (l.used.toNat + bytes.toNat) := by
  have hfit := fits_iff.mp h
  have hlim := l.limit.toNat_lt
  have hadd : (l.used + bytes).toNat = l.used.toNat + bytes.toNat := by
    rw [UInt64.toNat_add]
    omega
  refine ⟨{ l with used := l.used + bytes, peak := max l.peak (l.used + bytes) },
    by rw [charge, if_pos h], rfl, rfl, hadd, ?_⟩
  show (if l.peak ≤ l.used + bytes then l.used + bytes else l.peak).toNat = _
  rw [← hadd]
  split
  · rename_i hle
    rw [max_eq_right (UInt64.le_iff_toNat_le.mp hle)]
  · rename_i hle
    rw [UInt64.le_iff_toNat_le, not_le] at hle
    rw [max_eq_left hle.le]

theorem charge_refused (h : l.fits bytes = false) :
    l.charge bytes = (.error ⟨bytes, l.usage⟩, l) := by
  rw [charge, h]
  rfl

theorem uncharge_ok (h : bytes.toNat ≤ l.used.toNat) :
    ∃ l', l.uncharge bytes = (.ok (), l') ∧ l'.limit = l.limit ∧ l'.reserved = l.reserved ∧
      l'.used.toNat + bytes.toNat = l.used.toNat ∧ l'.peak = l.peak := by
  rcases hs : checkedSub l.used bytes with _ | used
  · rw [checkedSub, if_pos h] at hs
    cases hs
  · have := checkedSub_eq_some.mp hs
    exact ⟨{ l with used }, by rw [uncharge, hs], rfl, rfl, by simp only; omega, rfl⟩

theorem reserve_ok (h : l.fits bytes = true) :
    ∃ l', l.reserve bytes = (.ok (), l') ∧ l'.limit = l.limit ∧ l'.used = l.used ∧
      l'.reserved.toNat = l.reserved.toNat + bytes.toNat ∧ l'.peak = l.peak := by
  have hfit := fits_iff.mp h
  have hlim := l.limit.toNat_lt
  refine ⟨{ l with reserved := l.reserved + bytes }, by rw [reserve, if_pos h], rfl, rfl, ?_, rfl⟩
  show (l.reserved + bytes).toNat = _
  rw [UInt64.toNat_add]
  omega

theorem reserve_refused (h : l.fits bytes = false) :
    l.reserve bytes = (.error ⟨bytes, l.usage⟩, l) := by
  rw [reserve, h]
  rfl

theorem unreserve_ok (h : bytes.toNat ≤ l.reserved.toNat) :
    ∃ l', l.unreserve bytes = (.ok (), l') ∧ l'.limit = l.limit ∧ l'.used = l.used ∧
      l'.reserved.toNat + bytes.toNat = l.reserved.toNat ∧ l'.peak = l.peak := by
  rcases hs : checkedSub l.reserved bytes with _ | reserved
  · rw [checkedSub, if_pos h] at hs
    cases hs
  · have := checkedSub_eq_some.mp hs
    exact ⟨{ l with reserved }, by rw [unreserve, hs], rfl, rfl, by simp only; omega, rfl⟩

end Ledger

end Moruna.Kernel
