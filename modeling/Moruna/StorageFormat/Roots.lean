/-
Moruna/StorageFormat/Roots.lean

Where a root puts its bank, and what the two root cells decide.

* `Banks.Root.recover_single`, `Banks.Root.recover_pair` — one root cell, or the cells of
  two consecutive generations, are recovered.
-/
import Moruna.StorageFormat.Banks
import Moruna.StorageFormat.Journal

namespace Moruna

namespace Banks

namespace Root

variable {hash : Bytes → Digest}

/-! ### Layout -/

/-- What a valid root promises, on naturals; `size` is the size of a bank. -/
structure Layout (r : Root) (size : ℕ) : Prop where
  geometry : r.geometry.Geometry
  generation : 0 < r.generation.toNat
  bank : r.bank.toNat = (r.generation.toNat - 1) % 2
  dvd : r.geometry.align.toNat ∣ r.physical.toNat
  half : size = (r.physical.toNat - 2 * r.geometry.align.toNat) / 2 / r.geometry.align.toNat *
    r.geometry.align.toNat
  start : r.geometry.logOffset.toNat = 2 * r.geometry.align.toNat + r.bank.toNat * size
  stop : r.geometry.capacity.toNat = r.geometry.logOffset.toNat + size
  physical : 2 * r.geometry.align.toNat + 2 * size ≤ r.physical.toNat

theorem toNat_two_mul (s : Superblock) : (2 * s.align).toNat = 2 * s.align.toNat := by
  have := s.alignment.toNat_lt
  show 2 * s.alignment.toNat % 2 ^ 64 = _
  exact Nat.mod_eq_of_lt (by omega)

theorem toNat_parity {g : UInt64} (hg : 0 < g.toNat) : ((g - 1) % 2).toNat = (g.toNat - 1) % 2 := by
  have h1 : (1 : UInt64) ≤ g := UInt64.le_iff_toNat_le.mpr hg
  rw [UInt64.toNat_mod, UInt64.toNat_sub_of_le _ _ h1]
  rfl

theorem layout_of_validate {r : Root} (h : r.validate = .ok ()) : ∃ size, r.Layout size := by
  simp only [validate, seq_eq_ok, rejectIf_test, okOr_eq_ok, Bool.or_eq_false_iff,
    beq_eq_false_iff_ne, bne_eq_false_iff_eq, Bool.not_eq_false', decide_eq_false_iff_not,
    isMultipleOf_iff, checkedSub_eq_some, checkedAdd_eq_some, toNat_two_mul] at h
  obtain ⟨⟨⟩, hv, ⟨⟩, ⟨⟨⟨hgen, -⟩, hbank⟩, hdvd⟩, rest, ⟨hle, hrest⟩, ⟨⟩, hlog, stop, hstop,
    hcap, -⟩ := h
  have g := (Superblock.validate_ok_iff _).mp hv
  have hgen' : 0 < r.generation.toNat := pos_of_ne_zero fun h0 => hgen (UInt64.toNat_inj.mp h0)
  have hphys := r.physical.toNat_lt
  have hpar := toNat_parity hgen'
  have hbank' : r.bank.toNat = (r.generation.toNat - 1) % 2 := by
    rw [hbank, UInt64.toNat_toUInt8]
    omega
  set size := (r.physical.toNat - 2 * r.geometry.align.toNat) / 2 / r.geometry.align.toNat *
    r.geometry.align.toNat with hsize
  have hhalf : size ≤ (r.physical.toNat - 2 * r.geometry.align.toNat) / 2 := Nat.div_mul_le_self _ _
  have hB : (rest / 2 / r.geometry.align * r.geometry.align).toNat = size := by
    rw [UInt64.toNat_mul, UInt64.toNat_div, UInt64.toNat_div, hrest]
    show size % 2 ^ 64 = size
    exact Nat.mod_eq_of_lt (by omega)
  have hb1 : r.bank.toNat ≤ 1 := by omega
  have hbB : r.bank.toNat * size ≤ size := (Nat.mul_le_mul_right _ hb1).trans (Nat.one_mul _).le
  have hstart : (2 * r.geometry.align +
      r.bank.toUInt64 * (rest / 2 / r.geometry.align * r.geometry.align)).toNat =
      2 * r.geometry.align.toNat + r.bank.toNat * size := by
    rw [UInt64.toNat_add, toNat_two_mul, UInt64.toNat_mul, hB, UInt8.toNat_toUInt64,
      Nat.mod_eq_of_lt (show r.bank.toNat * size < 2 ^ 64 by omega), Nat.mod_eq_of_lt (by omega)]
  refine ⟨size, g, hgen', hbank', hdvd, hsize, ?_, ?_, by omega⟩
  · rw [hlog, hstart]
  · rw [hcap, hstop, hlog, hB]

variable {r : Root} {size : ℕ} (h : r.Layout size)
include h

theorem Layout.toNat_slot : r.slot.toNat = r.bank.toNat * r.geometry.align.toNat := by
  have halign := r.geometry.alignment.toNat_lt
  have hb : r.bank.toNat ≤ 1 := by have := h.bank; omega
  have hle : r.bank.toNat * r.geometry.align.toNat ≤ 1 * r.geometry.align.toNat :=
    Nat.mul_le_mul_right _ hb
  rw [slot, UInt64.toNat_mul, toNat_parity h.generation, ← h.bank]
  rw [r.geometry.toNat_align] at *
  exact Nat.mod_eq_of_lt (by omega)

theorem Layout.bank_le : r.bank.toNat ≤ 1 := by
  have := h.bank
  omega

theorem Layout.start_le : 2 * r.geometry.align.toNat ≤ r.geometry.logOffset.toNat := by
  have := h.start
  omega

theorem Layout.stop_le : r.geometry.capacity.toNat ≤ r.physical.toNat := by
  have hb := h.bank_le
  have hle : r.bank.toNat * size ≤ 1 * size := Nat.mul_le_mul_right _ hb
  have h1 := h.start
  have h2 := h.stop
  have h3 := h.physical
  omega

omit h in
/-- The bytes of the bank of a root. -/
def InBank (r : Root) (i : ℕ) : Prop :=
  r.geometry.logOffset.toNat ≤ i ∧ i < r.geometry.capacity.toNat

omit h in
theorem initial_spec {physical : UInt64} {alignment : UInt32} {logBytes : UInt64} {role : Role}
    {workspace bucket : String} {r : Root}
    (h : initial physical alignment logBytes role workspace bucket = .ok r) :
    r.validate = .ok () ∧ r.bank = 0 ∧ r.physical = physical ∧
      r.geometry.alignment = alignment ∧ r.geometry.role = role := by
  simp only [initial, seq_eq_ok] at h
  obtain ⟨⟨⟩, -, start, -, rest, -, stop, -, d, -, ⟨⟩, hv, h⟩ := h
  obtain rfl := Except.ok.inj h
  exact ⟨hv, rfl, rfl, rfl, rfl⟩

variable {n : Root} {b : Bytes} {slot : UInt64} {cell : ℕ → Bytes}

omit h in
/-- The alternate bank keeps every identity of the volume and takes the next generation. -/
theorem next_spec {r : Root} (h : r.next = .ok n) : r.validate = .ok () ∧ n.validate = .ok () ∧
      n.generation.toNat = r.generation.toNat + 1 ∧ n.physical = r.physical ∧
      n.geometry.alignment = r.geometry.alignment ∧ n.geometry.logBytes = r.geometry.logBytes ∧
      n.geometry.role = r.geometry.role ∧ n.geometry.workspace = r.geometry.workspace ∧
      n.geometry.bucket = r.geometry.bucket := by
  simp only [next, seq_eq_ok, okOr_eq_ok, checkedAdd_eq_some] at h
  obtain ⟨⟨⟩, hr, generation, hgen, n₀, h0, dataOffset, -, capacity, -, ⟨⟩, hn, hok⟩ := h
  obtain rfl := Except.ok.inj hok
  simp only [initial, seq_eq_ok] at h0
  obtain ⟨⟨⟩, -, start, -, rest, -, stop, -, d, -, ⟨⟩, -, h0⟩ := h0
  obtain rfl := Except.ok.inj h0
  exact ⟨hr, hn, hgen, rfl, rfl, rfl, rfl, rfl, rfl⟩

/-! ### Recovery -/

omit h in
theorem recoverCell_blank {n : ℕ} (hn : 0 < n) (slot : UInt64) :
    recoverCell hash (List.replicate n 0) slot = .ok none := by
  obtain ⟨n, rfl⟩ := Nat.exists_eq_succ_of_ne_zero hn.ne'
  rw [recoverCell, if_neg (by simp [List.replicate_succ]), if_pos (by simp)]

omit h in
theorem encode_not_zero (hb : r.encode hash = .ok b) (rest : Bytes) :
    (b ++ rest).all (· == 0) = false ∧ (b ++ rest).isEmpty = false := by
  obtain ⟨-, -, rfl⟩ := (encode_eq_ok hash).mp hb
  exact ⟨rfl, rfl⟩

theorem recoverCell_root (hb : r.encode hash = .ok b) (hslot : slot.toNat = r.bank.toNat) :
    recoverCell hash (Journal.pad r.geometry.alignment.toNat b) slot = .ok (some r) := by
  obtain ⟨-, hle⟩ := encode_length hash hb
  obtain ⟨hnz, hne⟩ := encode_not_zero hb (List.replicate (r.geometry.alignment.toNat - b.length) 0)
  have hdec : decode hash (Journal.pad r.geometry.alignment.toNat b) = .ok r := by
    rw [Journal.pad, decode_padded hash hb, if_pos (by omega)]
  have hs : r.slot = slot * r.geometry.align := by
    have hlt := r.slot.toNat_lt
    rw [h.toNat_slot] at hlt
    rw [← UInt64.toNat_inj, h.toNat_slot, UInt64.toNat_mul, hslot, Nat.mod_eq_of_lt hlt]
  unfold recoverCell
  rw [if_neg (by rw [Journal.pad, hne]; exact Bool.false_ne_true),
    if_neg (by rw [Journal.pad, hnz]; exact Bool.false_ne_true), hdec]
  show (if _ then _ else _) = _
  rw [if_neg]
  rw [Journal.length_pad hle, hs, bne_self_eq_false, bne_self_eq_false]
  exact Bool.false_ne_true

omit h in
theorem recoverCell_eq_some (hc : recoverCell hash b slot = .ok (some r)) :
    b ≠ [] ∧ b.length = r.geometry.alignment.toNat := by
  unfold recoverCell at hc
  split at hc
  · cases hc
  rename_i hne
  split at hc
  · cases hc
  split at hc
  · cases hc
  split at hc
  · cases hc
  · rename_i root _ hbad
    obtain rfl : root = r := Option.some.inj (Except.ok.inj hc)
    simp only [Bool.or_eq_true, bne_iff_ne, not_or, not_not] at hbad
    exact ⟨by simpa using hne, hbad.1⟩

/-- The two root cells, by their number. -/
def OnCell (hash : Bytes → Digest) (r : Root) (cell : ℕ → Bytes) : Prop :=
  recoverCell hash (cell r.bank.toNat) (UInt64.ofNat r.bank.toNat) = .ok (some r)

omit h in
theorem recover_of_cells {x y : Option Root} {root : Root} (hne : cell 0 ≠ [])
    (hlen : (cell 0).length = (cell 1).length) (hx : recoverCell hash (cell 0) 0 = .ok x)
    (hy : recoverCell hash (cell 1) 1 = .ok y) (hsel : select x y = .ok root) :
    recover hash (cell 0) (cell 1) = .ok ⟨root, retirement x y⟩ := by
  unfold recover
  rw [pass_bind (by rw [hlen]; simpa using hne)]
  exact seq_eq_ok.mpr ⟨x, hx, seq_eq_ok.mpr ⟨y, hy, seq_eq_ok.mpr ⟨_, hsel, rfl⟩⟩⟩

/-- **A single root cell is recovered** and nothing has to be retired. -/
theorem recover_single (hown : r.OnCell hash cell)
    (hother : cell (1 - r.bank.toNat) = List.replicate r.geometry.alignment.toNat 0) :
    recover hash (cell 0) (cell 1) = .ok ⟨r, none⟩ := by
  obtain ⟨hne, hlen⟩ := recoverCell_eq_some hown
  have ha : 0 < r.geometry.alignment.toNat := hlen ▸ List.length_pos_of_ne_nil hne
  have hb := h.bank_le
  unfold OnCell at hown
  rcases Nat.le_one_iff_eq_zero_or_eq_one.mp hb with h0 | h1
  · rw [h0] at hown hother hne hlen
    exact recover_of_cells hne (by rw [hlen, hother, List.length_replicate]) hown
      (by rw [hother]; exact recoverCell_blank ha _) rfl
  · rw [h1] at hown hother hlen
    exact recover_of_cells (by rw [hother]; simpa using ha.ne')
      (by rw [hlen, hother, List.length_replicate])
      (by rw [hother]; exact recoverCell_blank ha _) hown rfl

omit h in
/-- **Of the cells of two consecutive generations the later one is recovered**, and the
earlier one has to be retired. -/
theorem recover_pair (hn : r.next = .ok n) (hold : r.OnCell hash cell) (hnew : n.OnCell hash cell) :
    recover hash (cell 0) (cell 1) = .ok ⟨n, some r.slot⟩ := by
  obtain ⟨hvr, hvn, hgen, hphys, halign, hlog, hrole, hws, hbucket⟩ := next_spec hn
  obtain ⟨size, hr⟩ := layout_of_validate hvr
  obtain ⟨size', hn'⟩ := layout_of_validate hvn
  obtain ⟨hne, hlen⟩ := recoverCell_eq_some hold
  obtain ⟨hne', hlen'⟩ := recoverCell_eq_some hnew
  have hlt : r.generation < n.generation := UInt64.lt_iff_toNat_lt.mpr (by omega)
  have hnlt : ¬ n.generation < r.generation :=
    fun h' => absurd (UInt64.lt_iff_toNat_lt.mp h') (by omega)
  have hdiff : n.generation - r.generation = 1 := by
    rw [← UInt64.toNat_inj, UInt64.toNat_sub_of_le _ _ (UInt64.le_iff_toNat_le.mpr (by omega)),
      hgen, Nat.add_sub_cancel_left]
    rfl
  have hbanks : n.bank.toNat = 1 - r.bank.toNat := by
    have h1 := hr.bank
    have h2 := hn'.bank
    have h3 := hr.generation
    omega
  unfold OnCell at hold hnew
  rw [hbanks] at hnew hne' hlen'
  rw [halign, ← hlen] at hlen'
  rcases Nat.le_one_iff_eq_zero_or_eq_one.mp hr.bank_le with h0 | h1
  · have hsel : select (some r) (some n) = .ok n := by
      have habs : absDiff r.generation n.generation = 1 := by rw [absDiff, if_pos hlt, hdiff]
      unfold select
      dsimp only
      rw [hphys, halign, hlog, hrole, hws, hbucket, habs, if_neg (by simp), if_neg hnlt]
    rw [h0] at hold hnew hne hlen'
    rw [recover_of_cells hne hlen'.symm hold hnew hsel, retirement, if_pos hlt]
  · have hsel : select (some n) (some r) = .ok n := by
      have habs : absDiff n.generation r.generation = 1 := by rw [absDiff, if_neg hnlt, hdiff]
      unfold select
      dsimp only
      rw [hphys, halign, hlog, hrole, hws, hbucket, habs, if_neg (by simp), if_pos hlt]
    rw [h1] at hold hnew hne' hlen'
    rw [recover_of_cells hne' hlen' hnew hold hsel, retirement, if_neg hnlt]

/-- The banks and the root cells alternate. -/
theorem next_bank (hn : r.next = .ok n) :
    n.bank.toNat = 1 - r.bank.toNat ∧ n.Layout size := by
  obtain ⟨-, hvn, hgen, hphys, halign, -⟩ := next_spec hn
  obtain ⟨size', hn'⟩ := layout_of_validate hvn
  have h1 := h.bank
  have h2 := hn'.bank
  have h3 := h.generation
  have hsize : size' = size := by rw [hn'.half, h.half, hphys, Superblock.align, halign]; rfl
  exact ⟨by omega, hsize ▸ hn'⟩

end Root

end Banks

end Moruna
