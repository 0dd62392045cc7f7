/-
Moruna/StorageFormat/Extent.lean

The shape of a planned extent: how many tree levels it has, where they lie and how
large the whole extent is.

* `Superblock.extent_eq_ok`, `Commit.validateIn_iff_planned` — what the planner returns is
  what the location of a valid commit can be.
-/
import Moruna.Lib.Merkle
import Moruna.StorageFormat.Types

namespace Moruna

open UInt64 (toNat_inj toNat_zero lt_iff_toNat_lt toNat_div)

/-! ### Levels -/

section Levels

variable {fanout align : ℕ}
variable {tree : List TreeLevel} {stop count cursor : ℕ}
variable {k : ℕ} {level : TreeLevel}

theorem Levels.nodes (hF : 0 < fanout) (h : Levels fanout align tree count cursor stop)
    (hk : tree[k]? = some level) :
    level.nodes.toNat = ceilDiv count (fanout ^ (k + 1)) := by
  induction tree generalizing count cursor k with
  | nil => simp at hk
  | cons l rest ih =>
    obtain ⟨hn, -, -, hrest⟩ := h
    cases k with
    | zero =>
      cases hk
      rw [hn, pow_one]
    | succ k =>
      rw [ih hrest (by simpa using hk), ceilDiv_ceilDiv _ hF (Nat.pow_pos hF), ← Nat.pow_succ']

/-- The nodes of the lowest level, and of those above it. -/
theorem nodes_add_sum (hF : 0 < fanout) (k : ℕ) : ceilDiv count fanout * align +
    ∑ j ∈ Finset.range k, ceilDiv (ceilDiv count fanout) (fanout ^ (j + 1)) * align =
      ∑ j ∈ Finset.range (k + 1), ceilDiv count (fanout ^ (j + 1)) * align := by
  rw [Finset.sum_range_succ', Nat.add_comm, Nat.pow_one]
  congr 1
  refine Finset.sum_congr rfl fun j _ => ?_
  rw [ceilDiv_ceilDiv _ hF (Nat.pow_pos hF), ← Nat.pow_succ']

/-- The levels lie one behind the other. -/
theorem Levels.offset (hF : 0 < fanout) (h : Levels fanout align tree count cursor stop)
    (hk : tree[k]? = some level) :
    level.offset.toNat =
      cursor + ∑ j ∈ Finset.range k, ceilDiv count (fanout ^ (j + 1)) * align := by
  induction tree generalizing count cursor k with
  | nil => simp at hk
  | cons l rest ih =>
    obtain ⟨-, ho, -, hrest⟩ := h
    cases k with
    | zero =>
      cases hk
      simpa using ho
    | succ k => rw [ih hrest (by simpa using hk), add_assoc, nodes_add_sum hF]

theorem Levels.stop_eq (hF : 0 < fanout) (h : Levels fanout align tree count cursor stop) :
    stop = cursor + ∑ j ∈ Finset.range tree.length, ceilDiv count (fanout ^ (j + 1)) * align := by
  induction tree generalizing count cursor with
  | nil => simpa using h.2
  | cons l rest ih =>
    obtain ⟨-, -, -, hrest⟩ := h
    rw [ih hrest, List.length_cons, add_assoc, nodes_add_sum hF]

variable (h : Levels fanout align tree count cursor stop)

include h

theorem Levels.le_stop : cursor ≤ stop := by
  induction tree generalizing count cursor with
  | nil => exact h.2.ge
  | cons l rest ih =>
    have := ih h.2.2.2
    omega

theorem Levels.stop_dvd (hd : align ∣ cursor) : align ∣ stop := by
  induction tree generalizing count cursor with
  | nil => exact h.2 ▸ hd
  | cons l rest ih => exact ih h.2.2.2 (dvd_add hd (Dvd.intro_left _ rfl))

theorem Levels.getLast {last : TreeLevel}
    (hl : tree.getLast? = some last) : stop = last.offset.toNat + last.nodes.toNat * align := by
  induction tree generalizing count cursor with
  | nil => simp at hl
  | cons level rest ih =>
    obtain ⟨hn, ho, -, hrest⟩ := h
    cases rest with
    | nil =>
      obtain rfl : level = last := by simpa using hl
      rw [hrest.2, hn, ho]
    | cons level' rest => exact ih hrest (by simpa using hl)

omit h

theorem Levels.top (hF : 0 < fanout) (h : Levels fanout align tree count cursor stop) :
    ceilDiv count (fanout ^ tree.length) = 1 := by
  induction tree generalizing count cursor with
  | nil =>
    rw [h.1, List.length_nil, pow_zero]
    rfl
  | cons l rest ih =>
    rw [List.length_cons, Nat.pow_succ', ← ceilDiv_ceilDiv _ hF (Nat.pow_pos hF)]
    exact ih h.2.2.2

/-- Below the top a level has more than one node, so the children outnumber the powers of
the fanout. -/
theorem Levels.pow_lt (hF : 0 < fanout) {l : TreeLevel} {rest : List TreeLevel}
    (h : Levels fanout align (l :: rest) count cursor stop) (hc : 0 < count) :
    rest = [] ∨ fanout ^ rest.length < count := by
  induction rest generalizing l count cursor with
  | nil => exact .inl rfl
  | cons l' rest ih =>
    right
    obtain ⟨-, -, hone, hrest⟩ := h
    have hpos := ceilDiv_pos hF hc
    have hmany : 1 < ceilDiv count fanout := by
      rcases lt_or_ge 1 (ceilDiv count fanout) with h1 | h1
      · exact h1
      · exact absurd (hone (by omega)) (by simp)
    rcases ih hrest hpos with rfl | hlt
    · rw [List.length_singleton, pow_one]
      rw [lt_ceilDiv_iff hF] at hmany
      omega
    · rw [lt_ceilDiv_iff hF] at hlt
      exact hlt

theorem Levels.length_le (hF : 2 ≤ fanout) (h : Levels fanout align tree count cursor stop)
    (hc : 0 < count) (hlt : count < 2 ^ 64) : tree.length ≤ 64 := by
  cases tree with
  | nil => exact Nat.zero_le _
  | cons l rest =>
    rcases h.pow_lt (by omega) hc with rfl | hpow
    · exact Nat.one_le_two_pow (n := 6)
    · have := (Nat.pow_le_pow_left hF _).trans_lt (hpow.trans hlt)
      exact (Nat.pow_lt_pow_iff_right (by decide)).mp this

end Levels

/-! ### Planning -/

theorem toNat_fanout (a : UInt64) : (a / 32).toNat = a.toNat / 32 := by
  rfl

variable {a align bytes capacity children count cursor padded start stop : UInt64}
variable {hash : Bytes → Digest}

theorem toNat_divCeil_eq {b : UInt64} (hb : 0 < b.toNat) :
    (divCeil a b).toNat = ceilDiv a.toNat b.toNat :=
  toNat_divCeil hb

theorem toNat_nodes (hF : 2 ≤ align.toNat / 32) (count : UInt64) :
    (divCeil count (align / 32)).toNat = ceilDiv count.toNat (align.toNat / 32) := by
  rw [toNat_divCeil_eq (by rw [toNat_fanout]; omega), toNat_fanout]

theorem exists_word {n : ℕ} (h : n < 2 ^ 64) : ∃ x : UInt64, x.toNat = n :=
  ⟨UInt64.ofNat n, UInt64.toNat_ofNat_of_lt' h⟩

theorem bind_checked_eq_some {n next : UInt64} :
    (checkedMul n a).bind (checkedAdd cursor) = some next ↔
      next.toNat = cursor.toNat + n.toNat * a.toNat := by
  constructor
  · intro h
    obtain ⟨m, hm, hnext⟩ := Option.bind_eq_some_iff.mp h
    rw [checkedMul_eq_some] at hm
    rw [checkedAdd_eq_some, hm] at hnext
    exact hnext
  · intro h
    have hlt := next.toNat_lt
    have hm : checkedMul n a = some (n * a) := by
      rw [checkedMul_eq_some, UInt64.toNat_mul, Nat.mod_eq_of_lt (by omega)]
    rw [hm]
    show checkedAdd cursor (n * a) = some next
    rw [checkedAdd_eq_some, h, checkedMul_eq_some.mp hm]

variable {tree : List TreeLevel}

theorem planLevels_zero (rounds : ℕ) :
    planLevels align (rounds + 1) cursor 0 = some (.ok ([], cursor)) := rfl

theorem planLevels_succ (rounds : ℕ) (h0 : children ≠ 0) :
    planLevels align (rounds + 1) cursor children =
      match (checkedMul (divCeil children (align / 32)) align).bind (checkedAdd cursor) with
      | none => some (.error .limit)
      | some next =>
        if divCeil children (align / 32) = 1 then
          some (.ok ([⟨cursor, divCeil children (align / 32)⟩], next))
        else (planLevels align rounds next (divCeil children (align / 32))).map
          (Except.map fun r => (⟨cursor, divCeil children (align / 32)⟩ :: r.1, r.2)) := by
  rw [planLevels, if_neg (by rwa [beq_iff_eq])]
  dsimp only
  rcases (checkedMul (divCeil children (align / 32)) align).bind (checkedAdd cursor) with - | next
  · rfl
  · exact if_congr beq_iff_eq rfl rfl

theorem ne_zero_of_toNat_pos (h0 : 0 < a.toNat) : a ≠ 0 := by
  rintro rfl
  cases h0

/-- **The planning loop returns a tree of the right shape.** -/
theorem planLevels_spec (hF : 2 ≤ align.toNat / 32) (rounds : ℕ) (h0 : 0 < children.toNat)
    (h : planLevels align rounds cursor children = some (.ok (tree, stop))) :
    Levels (align.toNat / 32) align.toNat tree children.toNat cursor.toNat stop.toNat ∧
      tree ≠ [] := by
  induction rounds generalizing cursor children tree with
  | zero => exact absurd h (by simp [planLevels])
  | succ rounds ih =>
    have hnodes := toNat_nodes hF children
    rw [planLevels_succ _ (ne_zero_of_toNat_pos h0)] at h
    split at h
    · cases h
    rename_i next hnext
    rw [bind_checked_eq_some] at hnext
    split at h
    · -- case: a single node, the top of the tree
      rename_i hone
      cases h
      have h1 : ceilDiv children.toNat (align.toNat / 32) = 1 := by
        rw [← hnodes, hone]
        rfl
      refine ⟨⟨hnodes, rfl, fun _ => rfl, h1, ?_⟩, by simp⟩
      rw [hnext, hnodes]
    · rename_i hmany
      rcases habove : planLevels align rounds next (divCeil children (align / 32))
        with _ | _ | ⟨rest, last⟩ <;> rw [habove] at h <;> cases h
      obtain ⟨hl, -⟩ := ih (by rw [hnodes]; exact ceilDiv_pos (by omega) h0) habove
      refine ⟨⟨hnodes, rfl, ?_, ?_⟩, by simp⟩
      · intro h1
        refine absurd ?_ hmany
        rw [← toNat_inj, hnodes, h1]
        rfl
      · rw [← hnodes, ← hnext]
        exact hl

/-- **The planning loop finds every tree of that shape.** -/
theorem planLevels_of_levels (hF : 2 ≤ align.toNat / 32) {rounds : ℕ} (h0 : 0 < children.toNat)
    (hne : tree ≠ []) (hr : tree.length ≤ rounds)
    (h : Levels (align.toNat / 32) align.toNat tree children.toNat cursor.toNat stop.toNat) :
    planLevels align rounds cursor children = some (.ok (tree, stop)) := by
  induction tree generalizing rounds cursor children with
  | nil => exact absurd rfl hne
  | cons l rest ih =>
    obtain ⟨rounds, rfl⟩ := Nat.exists_eq_add_of_le' (Nat.one_le_of_lt hr)
    obtain ⟨hn, ho, hone, hrest⟩ := h
    have hnodes : divCeil children (align / 32) = l.nodes := by
      rw [← toNat_inj, toNat_nodes hF, hn]
    obtain ⟨next, hnext⟩ := exists_word ((Levels.le_stop hrest).trans_lt stop.toNat_lt)
    rw [← hn] at hnext
    obtain rfl : l.offset = cursor := toNat_inj.mp ho
    rw [← hn, ← hnext] at hrest
    rw [planLevels_succ _ (ne_zero_of_toNat_pos h0), hnodes, bind_checked_eq_some.mpr hnext]
    dsimp only
    split
    · -- case: the top of the tree
      rename_i htop
      obtain rfl := hone (by rw [← hn, htop]; rfl)
      rw [← toNat_inj.mp hrest.2]
    · rename_i hmany
      have hrest0 : rest ≠ [] := by
        rintro rfl
        exact hmany (toNat_inj.mp hrest.1)
      rw [ih (by rw [hn]; exact ceilDiv_pos (by omega) h0) hrest0 (Nat.le_of_succ_le_succ hr) hrest]
      rfl

/-- The next level has fewer nodes than this one, by a bit and more. -/
theorem nodes_lt_two_pow (hF : 4 ≤ align.toNat / 32) {k : ℕ}
    (h : children.toNat < 2 ^ (k + 1 + 1)) :
    (divCeil children (align / 32)).toNat < 2 ^ (k + 1) := by
  have hle : ceilDiv children.toNat (align.toNat / 32) ≤ 2 ^ (k + 1) - 1 := by
    rw [ceilDiv_le_iff (by omega)]
    calc children.toNat ≤ (2 ^ (k + 1) - 1) * 4 := by omega
      _ ≤ (2 ^ (k + 1) - 1) * (align.toNat / 32) := Nat.mul_le_mul_left _ hF
  rw [toNat_nodes (by omega)]
  have := Nat.two_pow_pos (k + 1)
  omega

/-- The loop ends in the round that has a single node. -/
theorem planLevels_top (h0 : children ≠ 0) (hone : divCeil children (align / 32) = 1) :
    ∃ r, ∀ more, planLevels align (more + 1) cursor children = some r := by
  rcases hnext : (checkedMul (divCeil children (align / 32)) align).bind (checkedAdd cursor)
    with _ | next
  · exact ⟨_, fun more => by rw [planLevels_succ _ h0, hnext]⟩
  · refine ⟨.ok ([⟨cursor, divCeil children (align / 32)⟩], next), fun more => ?_⟩
    rw [planLevels_succ _ h0, hnext]
    exact if_pos hone

/-- **The planning loop ends**, within one round for each bit of the count: it has an answer
then, and more rounds do not change it. -/
theorem planLevels_ends (hF : 4 ≤ align.toNat / 32) (k : ℕ) (h : children.toNat < 2 ^ (k + 1)) :
    ∃ r, ∀ more, planLevels align (k + 1 + more) cursor children = some r := by
  by_cases h0 : children = 0
  · subst h0
    exact ⟨_, fun more => by rw [Nat.add_right_comm, planLevels_zero]⟩
  induction k generalizing cursor children with
  | zero =>
    -- a single child, so a single node ends the first round
    have hone : divCeil children (align / 32) = 1 := by
      have h1 : children.toNat = 1 := by
        have : children.toNat ≠ 0 := fun h => h0 (toNat_inj.mp h)
        omega
      rw [← toNat_inj, toNat_nodes (by omega), h1]
      exact le_antisymm ((ceilDiv_le_iff (by omega)).mpr (by simp; omega))
        (ceilDiv_pos (by omega) one_pos)
    obtain ⟨r, hr⟩ := planLevels_top h0 hone
    exact ⟨r, fun more => by rw [Nat.add_right_comm, hr]⟩
  | succ k ih =>
    by_cases hone : divCeil children (align / 32) = 1
    · obtain ⟨r, hr⟩ := planLevels_top h0 hone
      exact ⟨r, fun more => by rw [Nat.add_right_comm, hr]⟩
    rcases hnext : (checkedMul (divCeil children (align / 32)) align).bind (checkedAdd cursor)
      with - | next
    · exact ⟨_, fun more => by rw [Nat.add_right_comm, planLevels_succ _ h0, hnext]⟩
    have hpos : divCeil children (align / 32) ≠ 0 := by
      refine ne_zero_of_toNat_pos ?_
      rw [toNat_nodes (by omega)]
      exact ceilDiv_pos (by omega) (pos_of_ne_zero fun h => h0 (toNat_inj.mp h))
    obtain ⟨r, hr⟩ := @ih _ next (nodes_lt_two_pow hF h) hpos
    refine ⟨r.map fun r => (⟨cursor, divCeil children (align / 32)⟩ :: r.1, r.2), fun more => ?_⟩
    rw [Nat.add_right_comm, planLevels_succ _ h0, hnext]
    exact (if_neg hone).trans (congrArg _ (hr more))

/-! ### Validation -/

/-- **The validation loop accepts a tree of the right shape inside the capacity.** -/
theorem validateLevels_of_levels (hF : 2 ≤ align.toNat / 32) {stop : ℕ}
    (h : Levels (align.toNat / 32) align.toNat tree count.toNat cursor.toNat stop)
    (hdvd : align.toNat ∣ cursor.toNat) (hcap : stop ≤ capacity.toNat) :
    validateLevels align capacity tree cursor count = .ok 1 := by
  induction tree generalizing cursor count with
  | nil =>
    have h1 : count = 1 := toNat_inj.mp h.1
    rw [validateLevels, h1]
  | cons l rest ih =>
    obtain ⟨hn, ho, hone, hrest⟩ := h
    have hnodes := toNat_nodes hF count
    have hle := Levels.le_stop hrest
    obtain ⟨next, hnext⟩ := exists_word ((hle.trans hcap).trans_lt capacity.toNat_lt)
    have hln : l.nodes = divCeil count (align / 32) := toNat_inj.mp (hn.trans hnodes.symm)
    have hlo : l.offset = cursor := toNat_inj.mp ho
    have hstep : okOr ((checkedMul l.nodes align).bind (checkedAdd cursor)) .invalid =
        .ok next := by
      rw [okOr_eq_ok, bind_checked_eq_some, hnext, hn]
    rw [validateLevels, pass_bind, hstep]
    · show (rejectIf _ _ >>= _) = _
      rw [pass_bind]
      · refine ih ?_ ?_
        · rw [hnodes, hnext]
          exact hrest
        · rw [hnext]
          exact dvd_add hdvd (Dvd.intro_left _ rfl)
      · rw [Bool.or_eq_false_iff, decide_eq_false_iff_not, lt_iff_toNat_lt]
        refine ⟨by omega, ?_⟩
        by_cases h1 : ceilDiv count.toNat (align.toNat / 32) = 1
        · rw [hone h1]
          simp
        have : (divCeil count (align / 32) == 1) = false := by
          rw [beq_eq_false_iff_ne]
          intro h'
          rw [h'] at hnodes
          exact h1 hnodes.symm
        rw [this, Bool.false_and]
    · rw [hln, hlo, bne_self_eq_false, bne_self_eq_false, Bool.false_or, Bool.false_or,
        Bool.not_eq_false', isMultipleOf_iff]
      exact hdvd

/-- **It accepts no other tree.** -/
theorem levels_of_validateLevels (hF : 2 ≤ align.toNat / 32) (hle : cursor.toNat ≤ capacity.toNat)
    (h : validateLevels align capacity tree cursor count = .ok 1) :
    ∃ stop ≤ capacity.toNat,
      Levels (align.toNat / 32) align.toNat tree count.toNat cursor.toNat stop := by
  induction tree generalizing cursor count with
  | nil =>
    cases h
    exact ⟨cursor.toNat, hle, rfl, rfl⟩
  | cons l rest ih =>
    have hnodes := toNat_nodes hF count
    simp only [validateLevels, seq_eq_ok, rejectIf_test, okOr_eq_ok, bind_checked_eq_some,
      Bool.or_eq_false_iff, bne_eq_false_iff_eq, decide_eq_false_iff_not] at h
    obtain ⟨⟨⟩, ⟨⟨hn, ho⟩, -⟩, next, hnext, ⟨⟩, ⟨hcap, hone⟩, hrest⟩ := h
    rw [lt_iff_toNat_lt, not_lt] at hcap
    obtain ⟨stop, hstop, hl⟩ := ih hcap hrest
    rw [hnext, hn, hnodes] at hl
    refine ⟨stop, hstop, hn ▸ hnodes, congrArg _ ho, fun h1 => ?_, hl⟩
    rw [← hnodes, ← UInt64.toNat_one, toNat_inj] at h1
    simpa [h1] using hone

/-! ### Planned extents -/

variable {s : Superblock}

theorem Superblock.Geometry.fanout_le (g : s.Geometry) : 16 ≤ s.align.toNat / 32 := by
  have := g.min
  omega

/-- The shape of an extent planned for `bytes` payload bytes at `start`. -/
structure Planned (s : Superblock) (start bytes padded : UInt64) (tree : List TreeLevel)
    (stop : ℕ) : Prop where
  data : s.dataOffset.toNat ≤ start.toNat
  dvd : s.align.toNat ∣ start.toNat
  size : padded.toNat = ceilDiv bytes.toNat s.align.toNat * s.align.toNat
  capacity : stop ≤ s.capacity.toNat
  le : start.toNat + padded.toNat ≤ stop
  empty : bytes = 0 → tree = [] ∧ stop = start.toNat
  levels : bytes ≠ 0 → tree ≠ [] ∧ Levels (s.align.toNat / 32) s.align.toNat tree
    (ceilDiv bytes.toNat s.align.toNat) (start.toNat + padded.toNat) stop

theorem Planned.stop_dvd {stop : ℕ}
    (h : Planned s start bytes padded tree stop) : s.align.toNat ∣ stop := by
  by_cases h0 : bytes = 0
  · rw [(h.empty h0).2]
    exact h.dvd
  · refine Levels.stop_dvd (h.levels h0).2 (dvd_add h.dvd ?_)
    rw [h.size]
    exact Dvd.intro_left _ rfl

/-- **The planner returns the extent of that shape**, and refuses only when there is
none. -/
theorem Superblock.extent_eq_ok {loc : Location} :
    s.extent hash start bytes = .ok loc ↔
      s.Geometry ∧ ∃ padded tree stop, Planned s start bytes padded tree stop ∧
        loc = .extent start padded tree (if bytes == 0 then hash [] else zeroDigest) := by
  simp only [Superblock.extent, bind_unit_eq_ok, Superblock.validate_ok_iff]
  simp only [seq_eq_ok, exists_const, rejectIf_test, Bool.or_eq_false_iff,
    decide_eq_false_iff_not, lt_iff_toNat_lt, not_lt, Bool.not_eq_false', isMultipleOf_iff,
    okOr_eq_ok, checkedMul_eq_some, checkedAdd_eq_some]
  refine and_congr_right fun g => ?_
  have ha : 0 < s.align.toNat := by have := g.min; omega
  have hF := g.fanout_le
  have hz : divCeil (0 : UInt64) s.align = 0 := by
    rw [← toNat_inj, toNat_divCeil_eq ha]
    exact ceilDiv_zero ha
  have hblocks : bytes ≠ 0 → 0 < (divCeil bytes s.align).toNat := fun h0 => by
    rw [toNat_divCeil_eq ha]
    exact ceilDiv_pos ha (pos_of_ne_zero fun h => h0 (toNat_inj.mp h))
  have hgetD : ∀ {o : Option (Except Error (List TreeLevel × UInt64))} {r},
      o.getD (.error .limit) = .ok r → o = some (.ok r) := by
    rintro (_ | _) r h
    · cases h
    · exact congrArg some h
  constructor
  · rintro ⟨⟨hdata, hdvd⟩, padded, hp, cursor, hc, ⟨tree, stop⟩, ht, hcap, hloc⟩
    rw [toNat_divCeil_eq ha] at hp
    refine ⟨padded, tree, stop.toNat, ?_, (Except.ok.inj hloc).symm⟩
    by_cases h0 : bytes = 0
    · -- case: nothing to store, and no tree
      subst h0
      rw [hz] at ht
      cases ht
      rw [toNat_zero, ceilDiv_zero ha] at hp
      refine ⟨hdata, hdvd, ?_, hcap, hc.ge, fun _ => ⟨rfl, by omega⟩, fun h => absurd rfl h⟩
      rw [hp, toNat_zero, ceilDiv_zero ha]
    · obtain ⟨hl, hne⟩ := planLevels_spec (by omega) 64 (hblocks h0) (hgetD ht)
      rw [toNat_divCeil_eq ha, hc] at hl
      exact ⟨hdata, hdvd, hp, hcap, Levels.le_stop hl, fun h => absurd h h0, fun _ => ⟨hne, hl⟩⟩
  · rintro ⟨padded, tree, stop, hp, rfl⟩
    obtain ⟨stop, rfl⟩ := exists_word (hp.capacity.trans_lt s.capacity.toNat_lt)
    obtain ⟨cursor, hc⟩ := exists_word (hp.le.trans_lt stop.toNat_lt)
    refine ⟨⟨hp.data, hp.dvd⟩, padded, by rw [toNat_divCeil_eq ha, hp.size], cursor, hc,
      ⟨tree, stop⟩, ?_, hp.capacity, rfl⟩
    by_cases h0 : bytes = 0
    · subst h0
      obtain ⟨rfl, hstop⟩ := hp.empty rfl
      have hsize := hp.size
      rw [toNat_zero, ceilDiv_zero ha] at hsize
      obtain rfl : cursor = stop := toNat_inj.mp (by omega)
      rw [hz]
      rfl
    · obtain ⟨hne, hl⟩ := hp.levels h0
      rw [← hc, ← toNat_divCeil_eq ha] at hl
      rw [planLevels_of_levels (by omega) (hblocks h0) hne
        (hl.length_le (by omega) (hblocks h0) (UInt64.toNat_lt _)) hl]
      rfl

/-- A commit of the volume before its payload location is looked at. -/
structure Commit.Named (c : Commit) (s : Superblock) : Prop where
  object : c.metadata.object.validate = .ok ()
  version : c.metadata.version.validate = .ok ()
  workspace : c.metadata.object.workspace = s.workspace
  bucket : c.metadata.object.bucket = s.bucket
  key : c.metadata.object.key.isEmpty = false

/-- **The locations of valid commits are the planned extents**, with any root digest when
there is a payload. -/
theorem Commit.validateIn_iff_planned {c : Commit} {root : Digest}
    (hloc : c.location = .extent start padded tree root) :
    c.validateIn hash s = .ok () ↔ s.Geometry ∧ c.Named s ∧
      (∃ stop, Planned s start c.metadata.bytes padded tree stop) ∧
      (c.metadata.bytes = 0 → root = hash []) := by
  simp only [Commit.validateIn, hloc, bind_unit_eq_ok, Superblock.validate_ok_iff]
  simp only [seq_eq_ok, exists_const, rejectIf_test, okOr_eq_ok, checkedAdd_eq_some,
    Bool.or_eq_false_iff, bne_eq_false_iff_eq, Bool.not_eq_false', isMultipleOf_iff,
    decide_eq_false_iff_not, lt_iff_toNat_lt, not_lt]
  constructor
  · rintro ⟨g, ho, hv, ⟨⟨hw, hb⟩, hk⟩, ⟨⟨⟨hdvd, -⟩, hdata⟩, -⟩, stop, hstop, hcap, h⟩
    have ha : 0 < s.align.toNat := by have := g.min; omega
    have hF := g.fanout_le
    refine ⟨g, ⟨ho, hv, hw, hb, hk⟩, ?_⟩
    split at h
    · -- case: the empty object has no tree and the empty digest
      rename_i h0
      rw [beq_iff_eq] at h0
      simp only [rejectIf_test, Bool.not_eq_false', Bool.and_eq_true, beq_iff_eq,
        List.isEmpty_iff] at h
      obtain ⟨⟨rfl, rfl⟩, hroot⟩ := h
      rw [toNat_zero, add_zero] at hstop
      refine ⟨⟨start.toNat, hdata, hdvd, ?_, hstop ▸ hcap, le_rfl, fun _ => ⟨rfl, rfl⟩,
        fun hne => absurd h0 hne⟩, fun _ => hroot⟩
      rw [h0, toNat_zero, ceilDiv_zero ha, zero_mul]
    · rename_i h0
      rw [beq_iff_eq] at h0
      simp only [seq_eq_ok, exists_const, rejectIf_test, bne_eq_false_iff_eq,
        checkedMul_eq_some, toNat_divCeil_eq ha, Bool.or_eq_false_iff,
        List.isEmpty_eq_false_iff] at h
      obtain ⟨hsize, count, hcount, hne, rfl⟩ := h
      obtain ⟨last, hlast, hl⟩ := levels_of_validateLevels (by omega) hcap hcount
      rw [toNat_div, hsize, Nat.mul_div_cancel _ ha, hstop] at hl
      exact ⟨⟨last, hdata, hdvd, hsize, hlast, Levels.le_stop hl, fun h => absurd h h0,
        fun _ => ⟨hne, hl⟩⟩, fun h => absurd h h0⟩
  · rintro ⟨g, hn, ⟨last, hp⟩, hroot⟩
    have ha : 0 < s.align.toNat := by have := g.min; omega
    have hF := g.fanout_le
    have hle := hp.le.trans hp.capacity
    obtain ⟨stop, hstop⟩ := exists_word (hle.trans_lt s.capacity.toNat_lt)
    have hdp : s.align.toNat ∣ padded.toNat := hp.size ▸ Dvd.intro_left _ rfl
    have hbytes : c.metadata.bytes.toNat ≤ padded.toNat := hp.size ▸ le_ceilDiv_mul ha
    refine ⟨g, hn.object, hn.version, ⟨⟨hn.workspace, hn.bucket⟩, hn.key⟩,
      ⟨⟨⟨hp.dvd, hdp⟩, hp.data⟩, hbytes⟩, stop, hstop, hstop ▸ hle, ?_⟩
    by_cases h0 : c.metadata.bytes = 0
    · have hpad : padded = 0 := by
        rw [← toNat_inj, hp.size, h0, toNat_zero, ceilDiv_zero ha, zero_mul]
      rw [if_pos (beq_iff_eq.mpr h0), (hp.empty h0).1, hroot h0, hpad]
      simp
    · obtain ⟨hne, hl⟩ := hp.levels h0
      have hmul : checkedMul (divCeil c.metadata.bytes s.align) s.align = some padded := by
        rw [checkedMul_eq_some, toNat_divCeil_eq ha, hp.size]
      have hcount : (padded / s.align).toNat = ceilDiv c.metadata.bytes.toNat s.align.toNat := by
        rw [toNat_div, hp.size, Nat.mul_div_cancel _ ha]
      rw [← hcount, ← hstop] at hl
      rw [if_neg (by rwa [beq_iff_eq]), pass_bind (by rw [hmul, bne_self_eq_false]),
        validateLevels_of_levels (by omega) hl
          (by rw [hstop]; exact dvd_add hp.dvd hdp) hp.capacity]
      show rejectIf _ _ = _
      simpa using hne

end Moruna
