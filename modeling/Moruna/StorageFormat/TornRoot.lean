/-
Moruna/StorageFormat/TornRoot.lean

Root cells that a crash has cut.

Compaction writes the next root over a blank cell and then blanks the old root's cell
(kernel/storage/src/volume_compact.rs).  A crash lets any of the sectors of such a write
reach the medium.  `Root.recover` takes a blank cell for an absent root and refuses every
other cell that is no root, so it comes down to whether a root cell can be cut at all: a root
that does not fit one sector can lose its first one and keep its last byte, which is no zero.

* `torn_root_recovers_iff` — **every crash leaves a volume that mounts exactly when a root
  fits one sector**;
* `long_names_unmountable` — a volume with long names that a crash makes unmountable.
-/
import Moruna.StorageFormat.Roots

namespace Moruna.Banks.Root

open List

variable {hash : Bytes → Digest} {r n : Root} {b c : Bytes}

/-- What a crash leaves of a write over `before`: the sectors that reached the medium
are those of `after`. -/
def torn (sector : ℕ) (reached : ℕ → Bool) (before after : Bytes) : Bytes :=
  (before.zip after).mapIdx fun i x => if reached (i / sector) then x.2 else x.1

/-- The two root cells, the one of `r` and the other one. -/
def cells (r : Root) (own other : Bytes) : ℕ → Bytes := fun k =>
  if k = r.bank.toNat then own else other

/-- The cells are recovered, as one of the two roots. -/
def Mounts (hash : Bytes → Digest) (r n : Root) (cell : ℕ → Bytes) : Prop :=
  ∃ x, recover hash (cell 0) (cell 1) = .ok x ∧ (x.root = r ∨ x.root = n)

/-! ### Cut writes -/

section Torn

variable {sector : ℕ} {before after : Bytes} (hlen : before.length = after.length)
include hlen

theorem getElem?_torn (reached : ℕ → Bool) (i : ℕ) : (torn sector reached before after)[i]? =
      if reached (i / sector) then after[i]? else before[i]? := by
  rw [torn]
  rcases lt_or_ge i before.length with h | h
  · simp [h, hlen ▸ h]
    split <;> rfl
  · simp [h, hlen ▸ h]

/-- Behind the first sector the write changes nothing: it cannot be cut. -/
theorem torn_of_same (hsame : ∀ i, sector ≤ i → before[i]? = after[i]?) (reached : ℕ → Bool) :
    torn sector reached before after = if reached 0 then after else before := by
  refine ext_getElem? fun i => ?_
  rw [getElem?_torn hlen, apply_ite (·[i]?)]
  rcases lt_or_ge i sector with h | h
  · rw [Nat.div_eq_of_lt h]
  · rw [hsame i h, ite_self, ite_self]

end Torn

/-! ### Cells that are no roots -/

theorem length_encode (hb : r.encode hash = .ok b) : b.length =
    162 + r.geometry.workspace.utf8ByteSize + r.geometry.bucket.utf8ByteSize := by
  obtain ⟨-, -, rfl⟩ := (encode_eq_ok hash).mp hb
  rw [length_cell, inner, length_frameBytes]
  simp [Frame.payload, Superblock.bytes, frameHeader, header]
  omega

variable {x : UInt8} {a i : ℕ}

/-- Text without the zero character has no zero byte. -/
theorem utf8_ne_zero {s : String} (h : '\x00' ∉ s.toList) (hx : x ∈ utf8 s) :
    x ≠ 0 := by
  have hbytes : utf8 s = s.toList.flatMap String.utf8EncodeChar := by
    rw [utf8, ← String.utf8Encode_toList]
    simp [utf8Encode]
  rw [hbytes, mem_flatMap] at hx
  obtain ⟨ch, hch, hx⟩ := hx
  have hne : ch.val.toNat ≠ 0 := fun h0 =>
    h ((Char.ext (UInt32.toNat_inj.1 h0) : ch = '\x00') ▸ hch)
  have hsmall : ∀ v, 0 < v → v < 256 → UInt8.ofNat v ≠ 0 := by
    intro v hpos hlt h0
    have := congrArg UInt8.toNat h0
    rw [UInt8.toNat_ofNat', Nat.mod_eq_of_lt hlt] at this
    exact hpos.ne' this
  -- one case for each length of the encoded character
  unfold String.utf8EncodeChar at hx
  dsimp only at hx
  split at hx
  · rw [mem_singleton] at hx
    exact hx ▸ hsmall _ (by omega) (by omega)
  split at hx
  · simp only [mem_cons, not_mem_nil, or_false] at hx
    rcases hx with rfl | rfl <;> exact hsmall _ (by omega) (by omega)
  split at hx
  · simp only [mem_cons, not_mem_nil, or_false] at hx
    rcases hx with rfl | rfl | rfl <;> exact hsmall _ (by omega) (by omega)
  · simp only [mem_cons, not_mem_nil, or_false] at hx
    rcases hx with rfl | rfl | rfl | rfl <;> exact hsmall _ (by omega) (by omega)

/-- A root cell ends with the last byte of the bucket's name. -/
theorem getLast?_encode (hb : r.encode hash = .ok b) : ∃ x, b.getLast? = some x ∧ x ≠ 0 := by
  obtain ⟨hr, -, rfl⟩ := (encode_eq_ok hash).mp hb
  have hid := ((Superblock.validate_ok_iff _).mp hr.checked).identity
  rw [Object.validateParts, rejectIf_test] at hid
  simp only [Bool.or_eq_false_iff, any_cons] at hid
  have hne : utf8 r.geometry.bucket ≠ [] := by
    intro h0
    have hsize : r.geometry.bucket.utf8ByteSize = 0 := by rw [← length_utf8, h0]; rfl
    have := hid.1.1.1.2
    rw [String.isEmpty_eq_utf8ByteSize_beq_zero] at this
    simp [hsize] at this
  have hnul : '\x00' ∉ r.geometry.bucket.toList := by simpa using hid.2.2.1.1
  obtain ⟨front, hsplit⟩ :
      ∃ front, r.cell hash (r.inner hash) = front ++ utf8 r.geometry.bucket := by
    constructor
    simp only [cell, inner, frameBytes, Frame.payload, Superblock.bytes, textBytes, ← append_assoc]
    rfl
  refine ⟨_, ?_, utf8_ne_zero hnul (getLast_mem hne)⟩
  rw [hsplit, getLast?_append_of_ne_nil _ hne, getLast?_eq_getLast_of_ne_nil hne]

/-- A cell that starts with a zero byte and is not blank is refused. -/
theorem recoverCell_of_zero (h0 : b[0]? = some 0) (hi : b[i]? = some x)
    (hx : x ≠ 0) (slot : UInt64) : recoverCell hash b slot = .error .integrity := by
  have hall : ¬ b.all (· == 0) = true := fun hall =>
    hx (beq_iff_eq.mp (all_eq_true.mp hall x (mem_of_getElem? hi)))
  cases b with
  | nil => cases h0
  | cons y rest =>
    cases h0
    have hdec : ∃ e, decode hash (0 :: rest) = .error e := by
      unfold decode
      by_cases hl : (0 :: rest).length < header
      · exact ⟨_, by rw [decide_eq_true hl]; rfl⟩
      · exact ⟨_, by rw [pass_bind (decide_eq_false hl)]; rfl⟩
    obtain ⟨e, he⟩ := hdec
    unfold recoverCell
    rw [he, if_neg (by exact Bool.false_ne_true), if_neg hall]

/-! ### The two writes of a root cell -/

/-- Behind the bytes it pads, a padded cell is blank. -/
theorem getElem?_pad (hle : b.length ≤ a) (hi : b.length ≤ i) :
    (Journal.pad a b)[i]? = (replicate a 0)[i]? := by
  rw [Journal.pad, getElem?_append_right hi, getElem?_replicate, getElem?_replicate]
  congr 1
  rw [eq_iff_iff]
  omega

theorem onCell_of_encode (hb : r.encode hash = .ok b) {cell : ℕ → Bytes}
    (hcell : cell r.bank.toNat = Journal.pad r.geometry.alignment.toNat b) :
    r.OnCell hash cell := by
  obtain ⟨hr, -⟩ := (encode_eq_ok hash).mp hb
  obtain ⟨size, hlay⟩ := layout_of_validate hr.1
  have := hlay.bank_le
  rw [OnCell, hcell]
  exact recoverCell_root hlay hb (by rw [UInt64.toNat_ofNat']; omega)

/-- **A root longer than a sector can be cut so that nothing is recovered**: its first sector
does not reach the medium. -/
theorem not_recovered_of_long {sector : ℕ} (hr : r.bank.toNat ≤ 1) (hc : n.encode hash = .ok c)
    (hle : c.length ≤ a) (hs : 0 < sector) (hlong : sector < c.length) (own : Bytes)
    (x : Recovery) :
    let cell := cells r own (torn sector (fun i => i != 0) (replicate a 0) (Journal.pad a c))
    recover hash (cell 0) (cell 1) ≠ .ok x := by
  intro cell hx
  have hlen : (replicate a (0 : UInt8)).length = (Journal.pad a c).length := by
    rw [Journal.length_pad hle, length_replicate]
  obtain ⟨y, hy, hne⟩ := getLast?_encode hc
  have hbad : ∀ slot, recoverCell hash (torn sector (fun i => i != 0) (replicate a 0)
      (Journal.pad a c)) slot = .error .integrity := by
    refine recoverCell_of_zero (i := c.length - 1) ?_ ?_ hne
    · rw [getElem?_torn hlen, Nat.zero_div, if_neg (by decide), getElem?_replicate,
        if_pos (by omega)]
    · have hdiv : (c.length - 1) / sector ≠ 0 := (Nat.div_pos (by omega) hs).ne'
      rw [getElem?_torn hlen, if_pos (bne_iff_ne.mpr hdiv), Journal.pad,
        getElem?_append_left (by omega), ← getLast?_eq_getElem?, hy]
  simp only [recover, seq_eq_ok] at hx
  obtain ⟨⟨⟩, -, y, hy, z, hz, -⟩ := hx
  rcases Nat.le_one_iff_eq_zero_or_eq_one.mp hr with h0 | h1
  · rw [show cell 1 = _ from if_neg (by omega), hbad] at hz
    cases hz
  · rw [show cell 0 = _ from if_neg (by omega), hbad] at hy
    cases hy

/-- **Every crash in a root-cell write leaves a volume that mounts, exactly when a root
fits one sector.**  The first write puts the next root over a blank cell, the second
blanks the cell of the old one. -/
theorem torn_root_recovers_iff {blank : Bytes} {sector : ℕ} (hn : r.next = .ok n)
    (hb : r.encode hash = .ok b) (hc : n.encode hash = .ok c)
    (hblank : blank = replicate r.geometry.alignment.toNat 0) (hs : 0 < sector) :
    (∀ reached, Mounts hash r n (cells r (Journal.pad r.geometry.alignment.toNat b)
        (torn sector reached blank (Journal.pad r.geometry.alignment.toNat c))) ∧
      Mounts hash r n (cells r
        (torn sector reached (Journal.pad r.geometry.alignment.toNat b) blank)
        (Journal.pad r.geometry.alignment.toNat c))) ↔
    162 + r.geometry.workspace.utf8ByteSize + r.geometry.bucket.utf8ByteSize ≤ sector := by
  obtain ⟨hvr, hvn, -, -, halign, -, -, hws, hbucket⟩ := next_spec hn
  obtain ⟨size, hr⟩ := layout_of_validate hvr
  obtain ⟨hbanks, hlay⟩ := next_bank hr hn
  have hbank := hr.bank_le
  have hble := (encode_length hash hb).2
  have hcle := (encode_length hash hc).2
  have hbl := length_encode hb
  have hcl := length_encode hc
  rw [halign] at hcle
  rw [hws, hbucket] at hcl
  set a := r.geometry.alignment.toNat
  subst hblank
  constructor
  · intro h
    by_contra hlong
    obtain ⟨x, hx, -⟩ := (h fun i => i != 0).1
    exact not_recovered_of_long hbank hc hcle hs (by omega) _ x hx
  · intro hle reached
    have hold : ∀ other, r.OnCell hash (cells r (Journal.pad a b) other) := fun other =>
      onCell_of_encode hb (if_pos rfl)
    have hnew : ∀ own, n.OnCell hash (cells r own (Journal.pad a c)) := fun own =>
      onCell_of_encode hc (by rw [halign]; exact if_neg (by omega))
    have hpair : Mounts hash r n (cells r (Journal.pad a b) (Journal.pad a c)) :=
      ⟨_, recover_pair hn (hold _) (hnew _), .inr rfl⟩
    rw [torn_of_same (by rw [Journal.length_pad hcle, length_replicate])
        fun i hi => (getElem?_pad hcle (by omega : c.length ≤ i)).symm,
      torn_of_same (by rw [Journal.length_pad hble, length_replicate])
        fun i hi => getElem?_pad hble (by omega : b.length ≤ i)]
    split
    · refine ⟨hpair, _, recover_single hlay (hnew _) ?_, .inr rfl⟩
      rw [halign]
      exact if_pos (by omega)
    · refine ⟨⟨_, recover_single hr (hold _) ?_, .inl rfl⟩, hpair⟩
      exact if_neg (by omega)

theorem exists_encode (hv : r.validate = .ok ())
    (hpayload : (Frame.superblock r.geometry).payload.length ≤ maxPayload)
    (hfits : header + frameHeader + (Frame.superblock r.geometry).payload.length ≤
      r.geometry.alignment.toNat) : ∃ b, r.encode hash = .ok b := by
  refine ⟨_, (encode_eq_ok hash).mpr ⟨⟨hv, hpayload⟩, ?_, rfl⟩⟩
  rw [inner, length_frameBytes]
  omega

/-- The next root of the small volume. -/
def nextSampleRoot : Root :=
  { physical := 8192, generation := 2, bank := 1
    geometry :=
      { sampleRoot.geometry with capacity := 8192, logOffset := 4608, dataOffset := 5632 } }

/-- On a small volume a sector holds a root, and every crash leaves a volume that mounts. -/
theorem torn_root_recovers_small : ∃ b c, sampleRoot.next = .ok nextSampleRoot ∧
    sampleRoot.encode (fun _ => zeroDigest) = .ok b ∧
    nextSampleRoot.encode (fun _ => zeroDigest) = .ok c ∧
    ∀ reached, Mounts (fun _ => zeroDigest) sampleRoot nextSampleRoot
      (cells sampleRoot (Journal.pad 512 b)
        (torn 512 reached (replicate 512 0) (Journal.pad 512 c))) := by
  obtain ⟨b, hb, -⟩ := encode_sampleRoot fun _ => zeroDigest
  obtain ⟨c, hc⟩ := @exists_encode (fun _ => zeroDigest) nextSampleRoot (by decide) (by decide)
    (by decide)
  have hn : sampleRoot.next = .ok nextSampleRoot := by decide
  refine ⟨b, c, hn, hb, hc, fun reached => ?_⟩
  exact (((torn_root_recovers_iff hn hb hc rfl (by decide)).mpr (by decide)) reached).1

def longName : String := String.ofList (replicate 200 'n')

/-- A volume with names of two hundred letters, and its next root. -/
def longRoot : Root :=
  { physical := 133120, generation := 1, bank := 0
    geometry :=
      { capacity := 67584, alignment := 1024, logOffset := 2048, logBytes := 32768
        dataOffset := 34816, role := .singleNodeHome, workspace := longName, bucket := longName } }

def nextLongRoot : Root :=
  { physical := 133120, generation := 2, bank := 1
    geometry :=
      { longRoot.geometry with capacity := 133120, logOffset := 67584, dataOffset := 100352 } }

theorem validateParts_longName : Object.validateParts longName longName "" = .ok () := by
  have hsize : longName.utf8ByteSize = 200 := by decide +kernel
  have hempty : longName.isEmpty = false := by decide +kernel
  have hnul (k : ℕ) : (String.ofList (replicate k 'n')).toList.contains '\x00' = false := by
    rw [String.toList_ofList, ← Bool.not_eq_true, contains_iff_mem]
    exact fun h => absurd (eq_of_mem_replicate h) (by decide)
  simp only [Object.validateParts, any_cons, hsize, hempty,
    show longName.toList.contains '\x00' = false from hnul 200]
  rfl

theorem next_longRoot : longRoot.next = .ok nextLongRoot := by
  have hgeom : longRoot.geometry.Geometry ∧ nextLongRoot.geometry.Geometry := by
    constructor <;> exact ⟨validateParts_longName, by decide, ⟨10, by decide⟩, by decide,
      by decide, by decide, by decide, by decide, by decide, by decide, by decide⟩
  obtain ⟨hr, hn⟩ : longRoot.validate = .ok () ∧ nextLongRoot.validate = .ok () := by
    rw [validate, validate, (Superblock.validate_ok_iff _).mpr hgeom.1,
      (Superblock.validate_ok_iff _).mpr hgeom.2]
    decide +kernel
  have hi : initial 133120 1024 32768 .singleNodeHome longName longName = .ok longRoot := by
    simp only [initial, seq_eq_ok, rejectIf_test, okOr_eq_ok]
    exact ⟨(), by decide +kernel, _, rfl, _, rfl, _, rfl, _, rfl, (), hr, rfl⟩
  simp only [next, seq_eq_ok, okOr_eq_ok]
  exact ⟨(), hr, _, rfl, _, hi, _, rfl, _, rfl, (), hn, rfl⟩

/-- **A crash can make a volume unmountable**: of the two sectors of the next root the second
one reaches the medium and the first does not. -/
theorem long_names_unmountable : ∃ b c, longRoot.next = .ok nextLongRoot ∧
    longRoot.encode (fun _ => zeroDigest) = .ok b ∧
    nextLongRoot.encode (fun _ => zeroDigest) = .ok c ∧
    ∀ x, recover (fun _ => zeroDigest) (Journal.pad 1024 b)
      (torn 512 (fun i => i != 0) (replicate 1024 0) (Journal.pad 1024 c)) ≠ .ok x := by
  obtain ⟨hr, hn, -⟩ := next_spec next_longRoot
  obtain ⟨b, hb⟩ := @exists_encode (fun _ => zeroDigest) _ hr (by decide +kernel)
    (by decide +kernel)
  obtain ⟨c, hc⟩ := @exists_encode (fun _ => zeroDigest) _ hn (by decide +kernel)
    (by decide +kernel)
  have hlen : c.length = 562 := (length_encode hc).trans (by decide +kernel)
  refine ⟨b, c, next_longRoot, hb, hc, fun x => ?_⟩
  exact not_recovered_of_long (r := longRoot) (by decide) hc (by omega) (by decide) (by omega)
    (Journal.pad 1024 b) x

end Moruna.Banks.Root
