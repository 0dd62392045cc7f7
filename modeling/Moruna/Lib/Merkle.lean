/-
Moruna/Lib/Merkle.lean

Digest trees of arbitrary fanout, built level by level over a list of digests.

A `Scheme` says how a page holds the digests of its children and how a page is
hashed; nothing is assumed about the hash.  The builder cuts each level into
`chunks` and hashes one page a chunk (`Scheme.tower`).  The verifier `follow`
starts from a root digest, checks one page after another and narrows the expected
digest to one slot of it.

* `Scheme.follow_path` — completeness: the stored pages lead from the root to the
  digest of every leaf;
* `Scheme.follow_sound` — soundness: pages that are accepted lead to the same digest,
  or one of them collides with the stored page in its place.
-/
import Moruna.Lib.Machine

namespace Moruna

open List

/-! ### Chunks of a list -/

variable {α : Type}

theorem ceilDiv_ceilDiv (a : ℕ) {b c : ℕ} (hb : 0 < b) (hc : 0 < c) :
    ceilDiv (ceilDiv a b) c = ceilDiv a (b * c) := by
  have key : ∀ k, ceilDiv (ceilDiv a b) c ≤ k ↔ ceilDiv a (b * c) ≤ k := by
    intro k
    rw [ceilDiv_le_iff hc, ceilDiv_le_iff hb, ceilDiv_le_iff (mul_pos hb hc), mul_assoc,
      mul_comm c b]
  exact le_antisymm ((key _).mpr le_rfl) ((key _).mp le_rfl)

/-- The consecutive pieces of length `n` of a list; only the last one may be shorter. -/
def chunks (n : ℕ) (l : List α) : List (List α) :=
  (List.range (ceilDiv l.length n)).map fun i => (l.drop (i * n)).take n

@[simp] theorem length_chunks (n : ℕ) (l : List α) : (chunks n l).length = ceilDiv l.length n := by
  simp [chunks]

variable {i : ℕ}
variable {n : ℕ} {l : List α}

theorem chunks_getElem? (h : i < ceilDiv l.length n) :
    (chunks n l)[i]? = some ((l.drop (i * n)).take n) := by
  simp [chunks, h]

@[simp] theorem chunks_nil (hn : 0 < n) : chunks n ([] : List α) = [] := by
  rw [chunks, length_nil, ceilDiv_zero hn]
  rfl

theorem chunks_cons (hn : 0 < n) (hl : l ≠ []) :
    chunks n l = l.take n :: chunks n (l.drop n) := by
  have hpos := length_pos_of_ne_nil hl
  have hc : ceilDiv l.length n = ceilDiv (l.drop n).length n + 1 := by
    rw [length_drop]
    exact ceilDiv_eq_succ hn hpos
  rw [chunks, hc, range_succ_eq_map, map_cons, map_map, Nat.zero_mul]
  congr 1
  refine map_congr_left fun i _ => ?_
  simp only [Function.comp_apply, drop_drop, Nat.succ_mul, Nat.add_comm]

/-! ### Schemes and towers -/

/-- How pages of a digest tree hold the digests of their children. -/
structure Scheme (P D : Type) where
  fanout : ℕ
  fanout_pos : 0 < fanout
  page : List D → P
  hash : P → D
  slot : P → ℕ → D
  slot_page : ∀ (ds : List D) (i : ℕ) (h : i < ds.length), ds.length ≤ fanout →
    slot (page ds) i = ds[i]

namespace Scheme

variable {P D : Type} (s : Scheme P D) (ds : List D)

/-- The pages over one level of digests. -/
def pages : List P := (chunks s.fanout ds).map s.page

/-- The digests of the pages over one level. -/
def parents : List D := (s.pages ds).map s.hash

/-- The digests of level `k`, the leaves being level 0. -/
def tower (ds : List D) : ℕ → List D
  | 0 => ds
  | k + 1 => s.parents (tower ds k)

@[simp] theorem length_pages : (s.pages ds).length = ceilDiv ds.length s.fanout := by simp [pages]

@[simp] theorem length_parents : (s.parents ds).length = ceilDiv ds.length s.fanout := by
  simp [parents]

theorem length_tower (k : ℕ) : (s.tower ds k).length = ceilDiv ds.length (s.fanout ^ k) := by
  induction k with
  | zero => simp [tower, ceilDiv]
  | succ k ih =>
    rw [tower, length_parents, ih, ceilDiv_ceilDiv _ (Nat.pow_pos s.fanout_pos) s.fanout_pos,
      pow_succ]

theorem tower_parents (k : ℕ) : s.tower (s.parents ds) k = s.tower ds (k + 1) := by
  induction k with
  | zero => rfl
  | succ k ih => exact congrArg s.parents ih

/-- The page of level `k` on the path of leaf `i`. -/
def pageAt (i k : ℕ) : P :=
  s.page (((s.tower ds k).drop (i / s.fanout ^ (k + 1) * s.fanout)).take s.fanout)

variable {ds : List D}

variable (hi : i < ds.length)

include hi

/-- Leaf `i` has an ancestor on every level. -/
theorem ancestor_lt (k : ℕ) : i / s.fanout ^ k < (s.tower ds k).length := by
  have hpos : 0 < s.fanout ^ k := Nat.pow_pos s.fanout_pos
  rw [length_tower, lt_ceilDiv_iff hpos]
  exact (Nat.div_mul_le_self i _).trans_lt hi

theorem pages_getElem? (k : ℕ) :
    (s.pages (s.tower ds k))[i / s.fanout ^ (k + 1)]? = some (s.pageAt ds i k) := by
  have h := s.ancestor_lt hi (k + 1)
  rw [tower, length_parents] at h
  rw [pages, getElem?_map, chunks_getElem? h]
  rfl

/-- The page on the path hashes to the ancestor one level up. -/
theorem hash_pageAt (k : ℕ) :
    (s.tower ds (k + 1))[i / s.fanout ^ (k + 1)]? = some (s.hash (s.pageAt ds i k)) := by
  rw [tower, parents, getElem?_map, s.pages_getElem? hi]
  rfl

/-- Its selected slot holds the ancestor on its own level. -/
theorem slot_pageAt (k : ℕ) : (s.tower ds k)[i / s.fanout ^ k]? =
      some (s.slot (s.pageAt ds i k) (i / s.fanout ^ k % s.fanout)) := by
  have hj := s.ancestor_lt hi k
  set j := i / s.fanout ^ k with hjdef
  have hnode : i / s.fanout ^ (k + 1) = j / s.fanout := by
    rw [Nat.pow_succ, Nat.div_div_eq_div_mul]
  have hmod := Nat.mod_lt j s.fanout_pos
  have hdm := Nat.div_add_mod j s.fanout
  have hlen : j % s.fanout <
      (((s.tower ds k).drop (j / s.fanout * s.fanout)).take s.fanout).length := by
    rw [length_take, length_drop, Nat.mul_comm]
    omega
  unfold pageAt
  rw [hnode, s.slot_page _ _ hlen (by rw [length_take]; omega), getElem_take,
    getElem_drop, getElem?_eq_getElem hj]
  congr 2
  rw [Nat.mul_comm]
  omega

/-! ### The verifier -/

omit hi

/-- The slots of leaf `i` from level `k` down. -/
def slots (i : ℕ) : ℕ → List ℕ
  | 0 => []
  | k + 1 => i / s.fanout ^ k % s.fanout :: slots i k

/-- The stored pages of leaf `i` from level `k` down. -/
def pathPages (ds : List D) (i : ℕ) : ℕ → List P
  | 0 => []
  | k + 1 => s.pageAt ds i k :: pathPages ds i k

theorem slots_eq (i k : ℕ) :
    s.slots i k = ((List.range k).map fun j => i / s.fanout ^ j % s.fanout).reverse := by
  induction k with
  | zero => rfl
  | succ k ih =>
    rw [slots, ih, range_succ, map_append, reverse_append]
    rfl

theorem pathPages_eq (ds : List D) (i k : ℕ) :
    s.pathPages ds i k = ((List.range k).map (s.pageAt ds i)).reverse := by
  induction k with
  | zero => rfl
  | succ k ih =>
    rw [pathPages, ih, range_succ, map_append, reverse_append]
    rfl

@[simp] theorem length_slots (i k : ℕ) : (s.slots i k).length = k := by simp [slots_eq]

@[simp] theorem length_pathPages (ds : List D) (i k : ℕ) : (s.pathPages ds i k).length = k := by
  simp [pathPages_eq]

variable [DecidableEq D]

/-- Check pages from the root down: each has to hash to the expected digest, and its
selected slot is expected next. -/
def follow : D → List (P × ℕ) → Option D
  | d, [] => some d
  | d, (p, i) :: rest => if s.hash p = d then follow (s.slot p i) rest else none

include hi

variable {d : D}

/-- **Completeness.**  The stored pages lead from the ancestor on level `k` to the leaf. -/
theorem follow_path (k : ℕ) (hd : (s.tower ds k)[i / s.fanout ^ k]? = some d) :
    s.follow d ((s.pathPages ds i k).zip (s.slots i k)) = some ds[i] := by
  induction k generalizing d with
  | zero =>
    rw [tower, Nat.pow_zero, Nat.div_one, getElem?_eq_getElem hi] at hd
    exact hd ▸ rfl
  | succ k ih =>
    have hroot := Option.some.inj (hd.symm.trans (s.hash_pageAt hi k))
    rw [pathPages, slots, zip_cons_cons, follow, if_pos hroot.symm]
    exact ih (s.slot_pageAt hi k)

/-- **Soundness.**  Pages accepted along the slots of leaf `i` lead to its digest, or one of
them collides with the stored page in its place. -/
theorem follow_sound (k : ℕ) {e : D}
    (hd : (s.tower ds k)[i / s.fanout ^ k]? = some d) {ps : List P} (hlen : ps.length = k)
    (hf : s.follow d (ps.zip (s.slots i k)) = some e) :
    e = ds[i] ∨ ∃ x ∈ ps.zip (s.pathPages ds i k), x.1 ≠ x.2 ∧ s.hash x.1 = s.hash x.2 := by
  induction k generalizing d ps with
  | zero =>
    obtain rfl := length_eq_zero_iff.mp hlen
    rw [tower, Nat.pow_zero, Nat.div_one, getElem?_eq_getElem hi] at hd
    left
    exact (Option.some.inj hf).symm.trans (Option.some.inj hd).symm
  | succ k ih =>
    obtain ⟨p, ps, rfl⟩ := exists_cons_of_length_eq_add_one hlen
    have hroot := Option.some.inj (hd.symm.trans (s.hash_pageAt hi k))
    rw [slots, zip_cons_cons, follow] at hf
    split at hf
    · rename_i hp
      by_cases heq : p = s.pageAt ds i k
      · -- case: the stored page itself, so the next digest is the stored one
        rw [heq] at hf
        rcases ih (s.slot_pageAt hi k) (Nat.succ.inj hlen) hf with h | ⟨x, hx, h⟩
        · exact .inl h
        · exact .inr ⟨x, mem_cons_of_mem _ hx, h⟩
      · -- case: another page with the digest of the stored one
        exact .inr ⟨(p, s.pageAt ds i k), mem_cons_self, heq, hp.trans hroot⟩
    · cases hf

end Scheme

end Moruna
