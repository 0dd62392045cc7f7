/-
Moruna/Kernel/Tables.lean

The page tables an address space is charged for.

A table page stands for each region of `TABLE_REGIONS` that an area touches, the topmost
region of each level apart.  `tables` counts what a change adds or frees by looking at
the pieces that change and their two neighbours only; `tableCount` is the full count.

* `tableCount_eq` — **the count over the neighbours is the difference of the full counts**.
-/
import Mathlib.Order.Interval.Finset.Nat
import Moruna.Kernel.Abi

namespace Moruna.Kernel

open List

abbrev Range := ℕ × ℕ

/-- The page tables a change of an address space's areas makes or frees. -/
structure Tables where
  /-- Table pages: each a region no other area touches. -/
  pages : ℕ
  /-- At each level the smallest range that covers every region counted. -/
  reclaim : List (Option Range)

def Tables.bytes (t : Tables) : ℕ := t.pages * Charges.PAGE

/-- The regions of `size` bytes that `start .. stop` touches, by index. -/
def regions (start stop size : ℕ) : ℕ × ℕ := (start / size, (stop - 1) / size)

/-- What the pass over one level has counted. -/
structure LevelCount where
  pages : ℕ
  lastCounted : Option ℕ
  hull : Option (ℕ × ℕ)

namespace LevelCount

def region (skip : ℕ → Bool) (c : LevelCount) (r : ℕ) : LevelCount :=
  if skip r then c
  else
    { c with
      pages := c.pages + 1
      hull := some (match c.hull with
        | none => (r, r)
        | some (lo, _) => (lo, r)) }

/-- Regions already counted for an earlier piece are not counted again. -/
def firstNew (c : LevelCount) (first : ℕ) : ℕ :=
  match c.lastCounted with
  | some done => if first ≤ done then done + 1 else first
  | none => first

def piece (size : ℕ) (skip : ℕ → Bool) (c : LevelCount) (p : Range) : LevelCount :=
  if p.2 ≤ p.1 then c
  else
    let first := (regions p.1 p.2 size).1
    let last := (regions p.1 p.2 size).2
    let start := c.firstNew first
    { (List.range' start (last + 1 - start)).foldl (region skip) c with
      lastCounted := some (match c.lastCounted with
        | none => last
        | some done => max done last) }

end LevelCount

/-- The regions left out of a level's count: the topmost one, and those of the
neighbours. -/
def skipped (before after : Option ℕ) (top size r : ℕ) : Bool :=
  r == (top - 1) / size ||
    some r == (before.filter (0 < ·)).map (fun stop => (stop - 1) / size) ||
    some r == after.map fun start => start / size

def countLevel (pieces : List Range) (before after : Option ℕ) (top size : ℕ) : LevelCount :=
  pieces.foldl (LevelCount.piece size (skipped before after top size)) ⟨0, none, none⟩

/-- The smallest range of one level that covers every region counted. -/
def reclaimAt (pieces : List Range) (before after : Option ℕ) (top size : ℕ) : Option Range :=
  (countLevel pieces before after top size).hull.map fun (lo, hi) => (lo * size, (hi + 1) * size)

/-- The table pages of the regions `pieces` touch that neither the area ending at `before`
nor the one starting at `after` touches, leaving out the topmost region of each level. -/
def tables (pieces : List Range) (before after : Option ℕ) (top : ℕ) : Tables where
  pages :=
    (Charges.TABLE_REGIONS.map fun size => (countLevel pieces before after top size).pages).sum
  reclaim := Charges.TABLE_REGIONS.map (reclaimAt pieces before after top)

/-! ### The full count -/

def touched (size : ℕ) (l : List Range) : Finset ℕ :=
  l.toFinset.biUnion fun p => Finset.Icc (p.1 / size) ((p.2 - 1) / size)

/-- Every region at every level any of the ranges touches, but the topmost. -/
def tableCount (top : ℕ) (l : List Range) : ℕ :=
  (Charges.TABLE_REGIONS.map fun size => ((touched size l).erase ((top - 1) / size)).card).sum

variable {size r : ℕ} {l : List Range} {p : Range}

theorem mem_touched : r ∈ touched size l ↔ ∃ p ∈ l, p.1 / size ≤ r ∧ r ≤ (p.2 - 1) / size := by
  simp [touched]

theorem touched_append (size : ℕ) (l l' : List Range) :
    touched size (l ++ l') = touched size l ∪ touched size l' := by
  ext r
  simp only [Finset.mem_union, mem_touched, mem_append, or_and_right, exists_or]

/-! ### One level -/

/-- A count of the regions in `F`, with their hull. -/
structure Counts (F : Finset ℕ) (c : LevelCount) : Prop where
  pages : c.pages = F.card
  hull : match c.hull with
    | none => F = ∅
    | some (lo, hi) => lo ∈ F ∧ hi ∈ F ∧ ∀ r ∈ F, lo ≤ r ∧ r ≤ hi

variable {c : LevelCount} {cut start stop : ℕ} {l' : List Range}

theorem Counts.region {F : Finset ℕ} (h : Counts F c) (skip : ℕ → Bool)
    (hr : ∀ k ∈ F, k < r) : Counts (if skip r then F else insert r F) (c.region skip r) := by
  unfold LevelCount.region
  split
  · exact h
  refine ⟨?_, ?_⟩
  · rw [Finset.card_insert_of_notMem fun hmem => lt_irrefl r (hr r hmem), h.pages]
  have hhull := h.hull
  rcases hc : c.hull with - | ⟨lo, hi⟩
  · rw [hc] at hhull
    rw [hhull]
    simp
  rw [hc] at hhull
  refine ⟨Finset.mem_insert_of_mem hhull.1, Finset.mem_insert_self _ _, fun k hk => ?_⟩
  rcases Finset.mem_insert.mp hk with rfl | hk
  · exact ⟨(hr lo hhull.1).le, le_rfl⟩
  · exact ⟨(hhull.2.2 k hk).1, (hr k hk).le⟩

/-- A run of regions above those counted. -/
theorem Counts.regions (skip : ℕ → Bool) (n : ℕ) : ∀ {F : Finset ℕ} {c : LevelCount} (start : ℕ),
    Counts F c → (∀ k ∈ F, k < start) →
    Counts (F ∪ (Finset.Ico start (start + n)).filter fun r => skip r = false)
      ((List.range' start n).foldl (LevelCount.region skip) c) := by
  induction n with
  | zero =>
    intro F c start h _
    simpa using h
  | succ n ih =>
    intro F c start h hlt
    rw [range'_succ, foldl_cons]
    have hstep := h.region skip hlt
    have hnext := ih (start + 1) hstep fun k hk => by
      split at hk
      · exact (hlt k hk).trans (Nat.lt_succ_self _)
      · rcases Finset.mem_insert.mp hk with rfl | hk
        · exact Nat.lt_succ_self _
        · exact (hlt k hk).trans (Nat.lt_succ_self _)
    convert hnext using 1
    rw [← Finset.insert_Ico_add_one_left_eq_Ico (by omega : start < start + (n + 1)),
      Finset.filter_insert, add_right_comm, add_assoc]
    cases hs : skip start
    · rw [if_pos rfl, if_neg Bool.false_ne_true, Finset.union_insert, Finset.insert_union]
    · rw [if_neg (by simp), if_pos rfl]

/-- What the pass knows after the ranges in `done`. -/
structure Pass (size : ℕ) (skip : ℕ → Bool) (done : List Range) (c : LevelCount) : Prop where
  counts : Counts ((touched size done).filter fun r => skip r = false) c
  nothing : c.lastCounted = none → touched size done = ∅
  last : ∀ d, c.lastCounted = some d →
    d ∈ touched size done ∧ ∀ r ∈ touched size done, r ≤ d

theorem touched_singleton (size : ℕ) (p : Range) :
    touched size [p] = Finset.Icc (p.1 / size) ((p.2 - 1) / size) := by
  simp [touched]

/-- The next range lies above those done, so the only region it can share with them is the
last one. -/
theorem Pass.piece {skip : ℕ → Bool} {done : List Range}
    (h : Pass size skip done c) (hp : p.1 < p.2) (habove : ∀ q ∈ done, q.2 ≤ p.1) :
    Pass size skip (done ++ [p]) (c.piece size skip p) := by
  have hle : p.1 / size ≤ (p.2 - 1) / size := Nat.div_le_div_right (by omega)
  have hdone : ∀ r ∈ touched size done, r ≤ p.1 / size := by
    intro r hr
    obtain ⟨q, hq, -, hr⟩ := mem_touched.mp hr
    exact hr.trans (Nat.div_le_div_right ((Nat.sub_le _ _).trans (habove q hq)))
  -- the counting starts above the regions done, and at the first one that is new
  obtain ⟨start, hstart⟩ : ∃ start, c.firstNew (p.1 / size) = start := ⟨_, rfl⟩
  have hbelow : ∀ r ∈ touched size done, r < start := by
    intro r hr
    subst hstart
    unfold LevelCount.firstNew
    rcases hc : c.lastCounted with - | d
    · rw [h.nothing hc] at hr
      cases hr
    · have := (h.last d hc).2 r hr
      simp only
      split <;> omega
  have htouched : touched size (done ++ [p])
      = touched size done ∪ Finset.Ico start (start + ((p.2 - 1) / size + 1 - start)) := by
    rw [touched_append, touched_singleton]
    ext r
    simp only [Finset.mem_union, Finset.mem_Icc, Finset.mem_Ico]
    refine or_congr_right' fun hr => ?_
    subst hstart
    unfold LevelCount.firstNew
    rcases hc : c.lastCounted with - | d
    · simp only
      omega
    have hd := (h.last d hc).1
    have hdle := hdone d hd
    have hne : r ≠ d := fun heq => hr (heq ▸ hd)
    simp only
    split <;> omega
  have hcounts := h.counts.regions skip ((p.2 - 1) / size + 1 - start) start
    fun k hk => hbelow k (Finset.mem_filter.mp hk).1
  rw [← Finset.filter_union, ← htouched] at hcounts
  have hlast : (p.2 - 1) / size ∈ touched size (done ++ [p]) :=
    mem_touched.mpr ⟨p, by simp, hle, le_rfl⟩
  have hmax : ∀ r ∈ touched size (done ++ [p]), r ≤ (p.2 - 1) / size := by
    intro r hr
    rw [touched_append, Finset.mem_union, touched_singleton, Finset.mem_Icc] at hr
    rcases hr with hr | hr
    · exact (hdone r hr).trans hle
    · exact hr.2
  unfold LevelCount.piece regions
  rw [if_neg (not_le.mpr hp)]
  simp only [hstart]
  refine ⟨⟨hcounts.pages, hcounts.hull⟩, nofun, fun d hd => ?_⟩
  have hd' : d = (p.2 - 1) / size := by
    rw [← Option.some.inj hd]
    rcases hc : c.lastCounted with - | e
    · rfl
    · exact max_eq_right ((hdone e (h.last e hc).1).trans hle)
  rw [hd']
  exact ⟨hlast, hmax⟩

/-- **One level's pass** over ranges in order counts the regions they touch that are not
left out, each once, and finds their hull. -/
theorem counts_countLevel {pieces : List Range} (hne : ∀ p ∈ pieces, p.1 < p.2)
    (hsorted : pieces.Pairwise fun p q => p.2 ≤ q.1) (before after : Option ℕ) (top size : ℕ) :
    Counts ((touched size pieces).filter fun r => skipped before after top size r = false)
      (countLevel pieces before after top size) := by
  -- the ranges already done are carried along
  have key : ∀ (rest done : List Range) (c : LevelCount), done ++ rest = pieces →
      Pass size (skipped before after top size) done c →
      Pass size (skipped before after top size) pieces
        (rest.foldl (.piece size (skipped before after top size)) c) := by
    intro rest
    induction rest with
    | nil =>
      intro done c hl h
      rw [append_nil] at hl
      rw [← hl]
      exact h
    | cons p rest ih =>
      intro done c hl h
      refine ih (done ++ [p]) _ (by rw [append_assoc]; exact hl) (h.piece ?_ fun q hq => ?_)
      · exact hne p (hl ▸ mem_append_right _ mem_cons_self)
      · rw [← hl] at hsorted
        exact (pairwise_append.mp hsorted).2.2 q hq p mem_cons_self
  refine (key pieces [] ⟨0, none, none⟩ rfl ⟨⟨rfl, ?_⟩, fun _ => rfl, nofun⟩).counts
  rfl

/-! ### The neighbours -/

/-- The nearest of the ranges below `lo` and above `hi`: the end of the one and the start
of the other. -/
structure Neighbours (l : List Range) (lo hi : ℕ) (before after : Option ℕ) : Prop where
  before_mem : ∀ b, before = some b → ∃ p ∈ l, p.2 = b ∧ p.2 ≤ lo
  before_max : ∀ p ∈ l, p.2 ≤ lo → ∃ b, before = some b ∧ p.2 ≤ b
  after_mem : ∀ a, after = some a → ∃ p ∈ l, p.1 = a ∧ hi ≤ p.1
  after_min : ∀ p ∈ l, hi ≤ p.1 → ∃ a, after = some a ∧ a ≤ p.1

theorem skipped_eq_false {before after : Option ℕ} {top : ℕ} :
    skipped before after top size r = false ↔ r ≠ (top - 1) / size ∧
      (∀ b, before = some b → 0 < b → r ≠ (b - 1) / size) ∧
      ∀ a, after = some a → r ≠ a / size := by
  unfold skipped
  rw [Bool.or_eq_false_iff, Bool.or_eq_false_iff, beq_eq_false_iff_ne, and_assoc]
  refine and_congr_right fun _ => and_congr ?_ ?_
  · rcases before with - | b
    · simp
    · rcases eq_zero_or_pos b with rfl | hb
      · simp
      · simp [Option.filter, hb]
  · rcases after with - | a <;> simp

/-- Pieces in order inside of `lo .. hi`, the rest outside of it. -/
structure Parted (pieces rest : List Range) (lo hi : ℕ) : Prop where
  sorted : pieces.Pairwise fun p q => p.2 ≤ q.1
  nonempty : ∀ p ∈ pieces, p.1 < p.2
  inside : ∀ p ∈ pieces, lo ≤ p.1 ∧ p.2 ≤ hi
  outside : ∀ p ∈ rest, p.1 < p.2 ∧ (p.2 ≤ lo ∨ hi ≤ p.1)

section

variable {pieces rest : List Range} {lo hi : ℕ} {before after : Option ℕ}
variable (h : Parted pieces rest lo hi) (hn : Neighbours rest lo hi before after)
include h hn

/-- A region of the pieces that the rest touches too is a neighbour's. -/
theorem shared_region (hr : r ∈ touched size pieces) : r ∈ touched size rest ↔
      (∃ b, before = some b ∧ 0 < b ∧ r = (b - 1) / size) ∨ ∃ a, after = some a ∧ r = a / size := by
  have hin := h.inside
  have hout := h.outside
  obtain ⟨q, hq, hq1, hq2⟩ := mem_touched.mp hr
  have hqlo : lo / size ≤ r := (Nat.div_le_div_right (hin q hq).1).trans hq1
  have hqhi : r ≤ (hi - 1) / size :=
    hq2.trans (Nat.div_le_div_right (Nat.sub_le_sub_right (hin q hq).2 1))
  constructor
  · intro hrest
    obtain ⟨p, hp, hp1, hp2⟩ := mem_touched.mp hrest
    obtain ⟨hpne, hside⟩ := hout p hp
    rcases hside with hbelow | habove
    · obtain ⟨b, hb, hpb⟩ := hn.before_max p hp hbelow
      obtain ⟨p', -, hp', hle⟩ := hn.before_mem b hb
      refine .inl ⟨b, hb, by omega, le_antisymm ?_ ?_⟩
      · exact hp2.trans (Nat.div_le_div_right (by omega))
      · exact (Nat.div_le_div_right (by omega)).trans hqlo
    · obtain ⟨a, ha, hap⟩ := hn.after_min p hp habove
      obtain ⟨p', -, hp', hle⟩ := hn.after_mem a ha
      refine .inr ⟨a, ha, le_antisymm ?_ ?_⟩
      · exact hqhi.trans (Nat.div_le_div_right (by omega))
      · exact (Nat.div_le_div_right hap).trans hp1
  · rintro (⟨b, hb, hpos, rfl⟩ | ⟨a, ha, rfl⟩)
    · obtain ⟨p, hp, rfl, -⟩ := hn.before_mem b hb
      exact mem_touched.mpr ⟨p, hp, Nat.div_le_div_right (by have := (hout p hp).1; omega), le_rfl⟩
    · obtain ⟨p, hp, rfl, -⟩ := hn.after_mem a ha
      exact mem_touched.mpr ⟨p, hp, le_rfl, Nat.div_le_div_right (by have := (hout p hp).1; omega)⟩

theorem counted_eq (top size : ℕ) :
    ((touched size pieces).filter fun r => skipped before after top size r = false)
      = (touched size pieces \ touched size rest).erase ((top - 1) / size) := by
  ext r
  rw [Finset.mem_filter, Finset.mem_erase, Finset.mem_sdiff, skipped_eq_false]
  constructor
  · rintro ⟨hr, htop, hb, ha⟩
    refine ⟨htop, hr, fun hrest => ?_⟩
    rcases (shared_region h hn hr).mp hrest with ⟨b, hb', hpos, heq⟩ | ⟨a, ha', heq⟩
    · exact hb b hb' hpos heq
    · exact ha a ha' heq
  · rintro ⟨htop, hr, hrest⟩
    refine ⟨hr, htop, fun b hb hpos heq => hrest ?_, fun a ha heq => hrest ?_⟩
    · exact (shared_region h hn hr).mpr (.inl ⟨b, hb, hpos, heq⟩)
    · exact (shared_region h hn hr).mpr (.inr ⟨a, ha, heq⟩)

/-- **The count over the neighbours is the difference of the full counts.** -/
theorem tableCount_eq (top : ℕ) : tableCount top (pieces ++ rest)
      = tableCount top rest + (tables pieces before after top).pages := by
  unfold tableCount tables
  rw [← sum_map_add]
  refine congrArg List.sum (map_congr_left fun size _ => ?_)
  rw [(counts_countLevel h.nonempty h.sorted before after top size).pages,
    counted_eq h hn top size, touched_append, ← Finset.sdiff_union_self_eq_union,
    Finset.erase_union_distrib, Finset.card_union_of_disjoint, add_comm]
  exact Finset.disjoint_of_subset_left (Finset.erase_subset _ _)
    (Finset.disjoint_of_subset_right (Finset.erase_subset _ _) Finset.sdiff_disjoint)

variable {top : ℕ}

/-- **What is to be reclaimed touches nothing that is left.** -/
theorem reclaim_clear (hsize : 0 < size) {a b : ℕ}
    (hreclaim : reclaimAt pieces before after top size = some (a, b)) :
    ∀ p ∈ rest, p.2 ≤ a ∨ b ≤ p.1 := by
  have hin := h.inside
  have hcounts := counts_countLevel h.nonempty h.sorted before after top size
  rw [counted_eq h hn] at hcounts
  have hhull := hcounts.hull
  obtain ⟨⟨first, last⟩, hc, heq⟩ := Option.map_eq_some_iff.mp hreclaim
  cases heq
  rw [hc] at hhull
  obtain ⟨hfirst, hlast, -⟩ := hhull
  rw [Finset.mem_erase, Finset.mem_sdiff] at hfirst hlast
  intro p hp
  obtain ⟨hpne, hside⟩ := h.outside p hp
  rcases hside with hbelow | habove
  · left
    obtain ⟨q, hq, hq1, -⟩ := mem_touched.mp hfirst.2.1
    have hle : (p.2 - 1) / size ≤ first :=
      (Nat.div_le_div_right (by have := hin q hq; omega)).trans hq1
    have hlt : (p.2 - 1) / size < first := lt_of_le_of_ne hle fun heq =>
      hfirst.2.2 (mem_touched.mpr ⟨p, hp, heq ▸ Nat.div_le_div_right (by omega), heq.ge⟩)
    have := (Nat.div_lt_iff_lt_mul hsize).mp hlt
    omega
  · right
    obtain ⟨q, hq, -, hq2⟩ := mem_touched.mp hlast.2.1
    have hle : last ≤ p.1 / size := hq2.trans (Nat.div_le_div_right (by have := hin q hq; omega))
    have hlt : last < p.1 / size := lt_of_le_of_ne hle fun heq =>
      hlast.2.2 (mem_touched.mpr ⟨p, hp, heq.ge, heq ▸ Nat.div_le_div_right (by omega)⟩)
    exact (Nat.le_div_iff_mul_le hsize).mp hlt

/-- Every region that is touched no more is reclaimed. -/
theorem reclaim_covers (hr : r ∈ touched size pieces) (hrest : r ∉ touched size rest)
    (htop : r ≠ (top - 1) / size) :
    ∃ a b, reclaimAt pieces before after top size = some (a, b) ∧ a ≤ r * size ∧
      (r + 1) * size ≤ b := by
  have hcounts := counts_countLevel h.nonempty h.sorted before after top size
  rw [counted_eq h hn] at hcounts
  have hmem : r ∈ (touched size pieces \ touched size rest).erase ((top - 1) / size) :=
    Finset.mem_erase.mpr ⟨htop, Finset.mem_sdiff.mpr ⟨hr, hrest⟩⟩
  have hhull := hcounts.hull
  unfold reclaimAt
  rcases hc : (countLevel pieces before after top size).hull with - | ⟨first, last⟩
  · rw [hc] at hhull
    rw [hhull] at hmem
    cases hmem
  · rw [hc] at hhull
    obtain ⟨hle, hge⟩ := hhull.2.2 r hmem
    exact ⟨first * size, (last + 1) * size, rfl, Nat.mul_le_mul_right _ hle,
      Nat.mul_le_mul_right _ (by omega)⟩

end

/-! ### Splitting -/

/-- A region is touched where an address of it is. -/
theorem mem_touched_iff (hsize : 0 < size) (hl : ∀ p ∈ l, p.1 < p.2) :
    r ∈ touched size l ↔ ∃ x, x / size = r ∧ ∃ p ∈ l, p.1 ≤ x ∧ x < p.2 := by
  rw [mem_touched]
  constructor
  · rintro ⟨p, hp, h1, h2⟩
    have := hl p hp
    rw [Nat.le_div_iff_mul_le hsize] at h2
    have h1 := (Nat.div_lt_iff_lt_mul hsize).mp (Nat.lt_succ_of_le h1)
    refine ⟨max p.1 (r * size), ?_, p, hp, le_max_left _ _, by omega⟩
    rw [Nat.succ_mul] at h1
    rw [Nat.div_eq_iff hsize]
    omega
  · rintro ⟨_, rfl, p, hp, h1, h2⟩
    exact ⟨p, hp, Nat.div_le_div_right h1, Nat.div_le_div_right (by omega)⟩

theorem touched_split (hsize : 0 < size) (h1 : start < cut) (h2 : cut < stop) :
    touched size [(start, cut), (cut, stop)] = touched size [(start, stop)] := by
  ext r
  rw [mem_touched_iff hsize (by simp [h1, h2]), mem_touched_iff hsize (by simp; omega)]
  refine exists_congr fun x => and_congr_right fun _ => ?_
  simp only [mem_cons, not_mem_nil, or_false, exists_eq_or_imp, exists_eq_left]
  omega

theorem tableRegions_pos : ∀ size ∈ Charges.TABLE_REGIONS, 0 < size := by decide

theorem tableCount_of_touched (top : ℕ) (h : ∀ size, 0 < size → touched size l = touched size l') :
    tableCount top l = tableCount top l' := by
  refine congrArg List.sum (map_congr_left fun size hsize => ?_)
  rw [h size (tableRegions_pos size hsize)]

/-- **Splitting an area changes nothing.** -/
theorem tableCount_split (top : ℕ) (l : List Range) (h1 : start < cut) (h2 : cut < stop) :
    tableCount top ([(start, cut), (cut, stop)] ++ l) = tableCount top ([(start, stop)] ++ l) := by
  refine tableCount_of_touched top fun size hsize => ?_
  rw [touched_append, touched_append, touched_split hsize h1 h2]

/-- The count looks at which ranges there are, not at their order. -/
theorem tableCount_congr (top : ℕ) (h : ∀ p, p ∈ l ↔ p ∈ l') :
    tableCount top l = tableCount top l' := by
  refine tableCount_of_touched top fun size _ => ?_
  ext r
  simp only [mem_touched, h]

/-! ### Sequences of changes -/

/-- Disjoint ranges in order, none of them empty. -/
structure Laid (l : List Range) : Prop where
  sorted : l.Pairwise fun p q => p.2 ≤ q.1
  nonempty : ∀ p ∈ l, p.1 < p.2

/-- The nearest ranges around `lo .. hi`. -/
def around (l : List Range) (lo hi : ℕ) : Option ℕ × Option ℕ :=
  (((l.filter fun p => p.2 ≤ lo).map Prod.snd).max?,
    ((l.filter fun p => hi ≤ p.1).map Prod.fst).min?)

theorem neighbours_around (l : List Range) (lo hi : ℕ) :
    Neighbours l lo hi (around l lo hi).1 (around l lo hi).2 := by
  refine ⟨fun b hb => ?_, fun p hp hle => ?_, fun a ha => ?_, fun p hp hle => ?_⟩
  · obtain ⟨p, hp, rfl⟩ := mem_map.mp (max?_eq_some_iff.mp hb).1
    rw [mem_filter, decide_eq_true_iff] at hp
    exact ⟨p, hp.1, rfl, hp.2⟩
  · have hmem : p.2 ∈ (l.filter fun p => p.2 ≤ lo).map Prod.snd :=
      mem_map.mpr ⟨p, mem_filter.mpr ⟨hp, by simpa using hle⟩, rfl⟩
    rcases hb : (around l lo hi).1 with - | b
    · rw [max?_eq_none_iff.mp hb] at hmem
      cases hmem
    · exact ⟨b, rfl, (max?_eq_some_iff.mp hb).2 _ hmem⟩
  · obtain ⟨p, hp, rfl⟩ := mem_map.mp (min?_eq_some_iff.mp ha).1
    rw [mem_filter, decide_eq_true_iff] at hp
    exact ⟨p, hp.1, rfl, hp.2⟩
  · have hmem : p.1 ∈ (l.filter fun p => hi ≤ p.1).map Prod.fst :=
      mem_map.mpr ⟨p, mem_filter.mpr ⟨hp, by simpa using hle⟩, rfl⟩
    rcases ha : (around l lo hi).2 with - | a
    · rw [min?_eq_none_iff.mp ha] at hmem
      cases hmem
    · exact ⟨a, rfl, (min?_eq_some_iff.mp ha).2 _ hmem⟩

def outsideOf (lo hi : ℕ) (p : Range) : List Range :=
  if p.2 ≤ lo ∨ hi ≤ p.1 then [p]
  else (if p.1 < lo then [(p.1, lo)] else []) ++ if hi < p.2 then [(hi, p.2)] else []

def insideOf (lo hi : ℕ) (p : Range) : List Range :=
  if p.2 ≤ lo ∨ hi ≤ p.1 then [] else [(max p.1 lo, min p.2 hi)]

/-- A change of the areas: one more, or the parts in a range gone. -/
inductive Change where
  | add (p : Range)
  | remove (lo hi : ℕ)

/-- The areas, and the running sum of what the changes added and freed. -/
structure Tally where
  areas : List Range
  count : ℤ

namespace Tally

/-- What a removal takes away and what it leaves. -/
def removed (t : Tally) (lo hi : ℕ) : List Range := t.areas.flatMap (insideOf lo hi)

def left (t : Tally) (lo hi : ℕ) : List Range := t.areas.flatMap (outsideOf lo hi)

/-- What a removal frees. -/
def freed (t : Tally) (top lo hi : ℕ) : Tables :=
  tables (t.removed lo hi) (around (t.left lo hi) lo hi).1 (around (t.left lo hi) lo hi).2 top

def apply (top : ℕ) (t : Tally) : Change → Tally
  | .add p =>
    { areas := (t.areas.filter fun q => q.2 ≤ p.1) ++ p :: t.areas.filter fun q => p.2 ≤ q.1
      count := t.count +
        (tables [p] (around t.areas p.1 p.2).1 (around t.areas p.1 p.2).2 top).pages }
  | .remove lo hi =>
    { areas := t.left lo hi
      count := t.count - (t.freed top lo hi).pages }

/-- An area added is new and not empty; a range removed is not empty. -/
def Allowed (t : Tally) : Change → Prop
  | .add p => p.1 < p.2 ∧ ∀ q ∈ t.areas, q.2 ≤ p.1 ∨ p.2 ≤ q.1
  | .remove lo hi => lo < hi

/-- The running sum is the full count. -/
structure Exact (top : ℕ) (t : Tally) : Prop where
  laid : Laid t.areas
  count : t.count = tableCount top t.areas

variable {t : Tally} {top : ℕ}

theorem Exact.add (h : t.Exact top) (hp : t.Allowed (.add p)) :
    (t.apply top (.add p)).Exact top := by
  obtain ⟨hne, hfree⟩ := hp
  have hmem : ∀ q, q ∈ (t.apply top (.add p)).areas ↔ q ∈ [p] ++ t.areas := by
    intro q
    simp only [apply, mem_append, mem_cons, mem_filter, decide_eq_true_eq,
      not_mem_nil, or_false]
    constructor
    · rintro (⟨hq, -⟩ | rfl | ⟨hq, -⟩)
      · exact .inr hq
      · exact .inl rfl
      · exact .inr hq
    · rintro (rfl | hq)
      · exact .inr (.inl rfl)
      · rcases hfree q hq with hle | hle
        · exact .inl ⟨hq, hle⟩
        · exact .inr (.inr ⟨hq, hle⟩)
  refine ⟨⟨?_, fun q hq => ?_⟩, ?_⟩
  · refine pairwise_append.mpr ⟨h.laid.sorted.filter _, pairwise_cons.mpr
      ⟨fun q hq => ?_, h.laid.sorted.filter _⟩, fun q hq q' hq' => ?_⟩
    · simpa using (mem_filter.mp hq).2
    have hq2 : q.2 ≤ p.1 := by simpa using (mem_filter.mp hq).2
    rcases mem_cons.mp hq' with rfl | hq'
    · exact hq2
    · have : p.2 ≤ q'.1 := by simpa using (mem_filter.mp hq').2
      omega
  · rcases mem_append.mp ((hmem q).mp hq) with hq | hq
    · rw [mem_singleton] at hq
      exact hq ▸ hne
    · exact h.laid.nonempty q hq
  · have hparted : Parted [p] t.areas p.1 p.2 :=
      ⟨by simp, by simpa using hne, by simp, fun q hq => ⟨h.laid.nonempty q hq, hfree q hq⟩⟩
    rw [tableCount_congr top hmem, tableCount_eq hparted (neighbours_around _ _ _) top]
    show t.count + _ = _
    rw [h.count]
    rfl

/-! A removal parts each area. -/

variable {lo hi : ℕ}
variable {q : Range}

theorem mem_outsideOf (hp : p.1 < p.2) (hq : q ∈ outsideOf lo hi p) :
    p.1 ≤ q.1 ∧ q.2 ≤ p.2 ∧ q.1 < q.2 ∧ (q.2 ≤ lo ∨ hi ≤ q.1) := by
  unfold outsideOf at hq
  split at hq
  · rw [mem_singleton] at hq
    subst hq
    omega
  · rw [mem_append, mem_ite_nil_right, mem_ite_nil_right, mem_singleton, mem_singleton] at hq
    rcases hq with ⟨hlt, rfl⟩ | ⟨hlt, rfl⟩ <;> dsimp only <;> omega

theorem mem_insideOf (hlo : lo < hi) (hp : p.1 < p.2) (hq : q ∈ insideOf lo hi p) :
    p.1 ≤ q.1 ∧ q.2 ≤ p.2 ∧ q.1 < q.2 ∧ lo ≤ q.1 ∧ q.2 ≤ hi := by
  unfold insideOf at hq
  split at hq
  · cases hq
  · rw [mem_singleton] at hq
    subst hq
    simp only
    omega

/-- The addresses of an area are those of its parts. -/
theorem exists_part {x : ℕ} : (∃ q, (q ∈ insideOf lo hi p ∨ q ∈ outsideOf lo hi p) ∧
      q.1 ≤ x ∧ x < q.2) ↔ p.1 ≤ x ∧ x < p.2 := by
  unfold insideOf outsideOf
  split
  · simp
  simp only [mem_append, mem_singleton, mem_ite_nil_right]
  constructor
  · rintro ⟨q, rfl | ⟨-, rfl⟩ | ⟨-, rfl⟩, hq⟩ <;> dsimp only at hq <;> omega
  · intro hx
    by_cases hlt : x < lo
    · exact ⟨_, .inr (.inl ⟨by omega, rfl⟩), hx.1, hlt⟩
    by_cases hge : hi ≤ x
    · exact ⟨_, .inr (.inr ⟨by omega, rfl⟩), hge, hx.2⟩
    · exact ⟨_, .inl rfl, by dsimp only; omega, by dsimp only; omega⟩

theorem Exact.parted (h : t.Exact top) (hlo : lo < hi) :
    Parted (t.removed lo hi) (t.left lo hi) lo hi := by
  refine ⟨?_, fun q hq => ?_, fun q hq => ?_, fun q hq => ?_⟩
  · refine pairwise_flatMap.mpr ⟨fun p _ => ?_, ?_⟩
    · unfold insideOf
      split <;> simp
    · refine h.laid.sorted.imp_of_mem fun {p p'} hp hp' hle q hq q' hq' => ?_
      have h1 := mem_insideOf hlo (h.laid.nonempty p hp) hq
      have h2 := mem_insideOf hlo (h.laid.nonempty p' hp') hq'
      omega
  · obtain ⟨p, hp, hq⟩ := mem_flatMap.mp hq
    exact (mem_insideOf hlo (h.laid.nonempty p hp) hq).2.2.1
  · obtain ⟨p, hp, hq⟩ := mem_flatMap.mp hq
    exact (mem_insideOf hlo (h.laid.nonempty p hp) hq).2.2.2
  · obtain ⟨p, hp, hq⟩ := mem_flatMap.mp hq
    exact (mem_outsideOf (h.laid.nonempty p hp) hq).2.2

theorem Exact.remove (h : t.Exact top) (hlo : lo < hi) :
    (t.apply top (.remove lo hi)).Exact top := by
  refine ⟨⟨?_, fun q hq => ((h.parted hlo).outside q hq).1⟩, ?_⟩
  · refine pairwise_flatMap.mpr ⟨fun p hp => ?_, ?_⟩
    · unfold outsideOf
      split
      · simp
      · split <;> split <;> simp
        omega
    · refine h.laid.sorted.imp_of_mem fun {p p'} hp hp' hle q hq q' hq' => ?_
      have h1 := mem_outsideOf (h.laid.nonempty p hp) hq
      have h2 := mem_outsideOf (h.laid.nonempty p' hp') hq'
      omega
  · have hall : tableCount top t.areas = tableCount top (t.removed lo hi ++ t.left lo hi) := by
      refine tableCount_of_touched top fun size hsize => ?_
      have hparted := h.parted hlo
      ext r
      rw [mem_touched_iff hsize h.laid.nonempty, mem_touched_iff hsize fun q hq =>
        (mem_append.mp hq).elim (hparted.nonempty q) fun hq => (hparted.outside q hq).1]
      refine exists_congr fun x => and_congr_right fun _ => ?_
      simp only [removed, left, mem_append, mem_flatMap]
      constructor
      · rintro ⟨p, hp, hx⟩
        obtain ⟨q, hq, hx⟩ := exists_part.mpr hx
        exact ⟨q, hq.imp (⟨p, hp, ·⟩) (⟨p, hp, ·⟩), hx⟩
      · rintro ⟨q, ⟨p, hp, hq⟩ | ⟨p, hp, hq⟩, hx⟩
        · exact ⟨p, hp, exists_part.mp ⟨q, .inl hq, hx⟩⟩
        · exact ⟨p, hp, exists_part.mp ⟨q, .inr hq, hx⟩⟩
    rw [tableCount_eq (h.parted hlo) (neighbours_around _ _ _) top] at hall
    show t.count - _ = _
    rw [h.count, hall]
    push_cast
    exact add_sub_cancel_right _ _

theorem Exact.apply (h : t.Exact top) {c : Change} (hc : t.Allowed c) :
    (t.apply top c).Exact top := by
  rcases c with p | ⟨lo, hi⟩
  · exact h.add hc
  · exact h.remove hc

def run (top : ℕ) (t : Tally) (cs : List Change) : Tally := cs.foldl (Tally.apply top) t

def AllowedAlong (top : ℕ) (t : Tally) : List Change → Prop
  | [] => True
  | c :: cs => t.Allowed c ∧ (t.apply top c).AllowedAlong top cs

/-- **The running sum is the full count** after every sequence of changes. -/
theorem Exact.run {cs : List Change} (h : t.Exact top) (hcs : t.AllowedAlong top cs) :
    (t.run top cs).Exact top := by
  induction cs generalizing t with
  | nil => exact h
  | cons c cs ih => exact ih (h.apply hcs.1) hcs.2

/-- What a removal reclaims at one level touches nothing that is left, and covers every
region it frees. -/
def Reclaims (top lo hi size : ℕ) (t : Tally) : Prop :=
  ∃ reclaim, reclaim = reclaimAt (t.removed lo hi) (around (t.left lo hi) lo hi).1
      (around (t.left lo hi) lo hi).2 top size ∧
    reclaim ∈ (t.freed top lo hi).reclaim ∧
    (∀ a b, reclaim = some (a, b) → ∀ p ∈ t.left lo hi, p.2 ≤ a ∨ b ≤ p.1) ∧
    ∀ r ∈ touched size (t.removed lo hi), r ∉ touched size (t.left lo hi) →
      r ≠ (top - 1) / size → ∃ a b, reclaim = some (a, b) ∧ a ≤ r * size ∧ (r + 1) * size ≤ b

theorem Exact.reclaims (h : t.Exact top) (hlo : lo < hi) (hsize : size ∈ Charges.TABLE_REGIONS) :
    t.Reclaims top lo hi size :=
  ⟨_, rfl, mem_map_of_mem hsize,
    fun _ _ hr => reclaim_clear (h.parted hlo) (neighbours_around _ _ _)
      (tableRegions_pos size hsize) hr,
    fun _ hr hrest htop => reclaim_covers (h.parted hlo) (neighbours_around _ _ _) hr hrest htop⟩

end Tally

end Moruna.Kernel
