/-
Moruna/Kernel/Areas.lean

The map of areas: what a split does to it, and what its partial views say.

The calls see the map through partial views: the nearest area below an address, the areas
up to an address, those of the mapping area.  While the areas are apart, each view says
what it is meant to say, and while the views do, the areas stay apart.  `findFree` alone
does not see an area that begins below the mapping area and reaches into it, so nothing
may straddle its start when the kernel chooses.

* `split_layout`, `crosses_split`, `size_split` — splitting at an address;
* `overlaps_eq_false`, `mem_downFrom`, `findFree_spec`, `neighbours_spec` — the views.
-/
import Moruna.Kernel.Space

namespace Moruna.Kernel

open List OrdMap

/-! ### The areas -/

/-- Areas apart from each other, of whole pages, in user space, with protections their
backing allows. -/
structure Layout (areas : OrdMap ℕ Area) : Prop where
  bounds : ∀ s a, areas.get s = some a → s % PAGE_SIZE = 0 ∧ a.stop % PAGE_SIZE = 0 ∧
    s < a.stop ∧ IMAGE_START ≤ s ∧ a.stop ≤ MAP_END
  apart : ∀ s a s' a', areas.get s = some a → areas.get s' = some a' → s < s' → a.stop ≤ s'
  allowed : ∀ s a, areas.get s = some a →
    ¬ (Prot.has a.prot Prot.WRITE = true ∧ Prot.has a.prot Prot.EXECUTE = true) ∧
      (Prot.has a.prot Prot.WRITE = true → a.backing.writable = true)

namespace Inner

variable {i : Inner}

def ranges (i : Inner) : List Range := i.areas.entries.map fun e => (e.1, e.2.stop)

theorem mem_ranges {p : Range} : p ∈ i.ranges ↔ ∃ a, i.areas.get p.1 = some a ∧ a.stop = p.2 := by
  unfold ranges
  rw [mem_map]
  constructor
  · rintro ⟨⟨s, a⟩, he, rfl⟩
    exact ⟨a, mem_entries.mp he, rfl⟩
  · rintro ⟨a, ha, hstop⟩
    exact ⟨(p.1, a), mem_entries.mpr ha, by rw [hstop]⟩

/-- An area crosses an address: it begins below and ends above. -/
def Crosses (i : Inner) (at_ : ℕ) : Prop := ∃ s a, i.areas.get s = some a ∧ s < at_ ∧ at_ < a.stop

variable (h : Layout i.areas)
include h

/-- The nearest area below an address is the one that crosses it, if any does. -/
theorem crossing (at_ : ℕ) :
    (∃ s a, ((i.areas.lastBelow at_).filter fun e => at_ < e.2.stop) = some (s, a) ∧
      i.areas.get s = some a ∧ s < at_ ∧ at_ < a.stop) ∨
    (((i.areas.lastBelow at_).filter fun e => at_ < e.2.stop) = none ∧ ¬ i.Crosses at_) := by
  rcases hl : i.areas.lastBelow at_ with - | ⟨s, a⟩
  · refine .inr ⟨rfl, ?_⟩
    rintro ⟨s, a, hs, hlt, -⟩
    exact absurd (lastBelow_eq_none hl hs) (not_le.mpr hlt)
  obtain ⟨hget, hlt, hmax⟩ := lastBelow_eq_some hl
  by_cases hstop : at_ < a.stop
  · exact .inl ⟨s, a, by simp [Option.filter, hstop], hget, hlt, hstop⟩
  refine .inr ⟨by simp [Option.filter, hstop], ?_⟩
  rintro ⟨s', a', hs', hlt', hstop'⟩
  rcases eq_or_lt_of_le (hmax s' a' hs' hlt') with rfl | hss
  · rw [hget] at hs'
    cases hs'
    exact hstop hstop'
  · have := h.apart s' a' s a hs' hget hss
    omega

theorem splitNeeded_iff (at_ : ℕ) : i.splitNeeded at_ = true ↔ i.Crosses at_ := by
  unfold splitNeeded areaAt
  constructor
  · intro hn
    rcases hl : (i.areas.lastBelow (at_ + 1)).filter fun e => at_ < e.2.stop with - | ⟨s, a⟩
    · rw [hl] at hn
      cases hn
    · rw [hl] at hn
      simp only [Bool.and_eq_true, decide_eq_true_eq] at hn
      obtain ⟨hget, -⟩ := lastBelow_eq_some (Option.filter_eq_some_iff.mp hl).1
      exact ⟨s, a, hget, hn⟩
  · rintro ⟨s, a, hs, hlt, hstop⟩
    have hlast : i.areas.lastBelow (at_ + 1) = some (s, a) := by
      rcases hl : i.areas.lastBelow (at_ + 1) with - | ⟨s', a'⟩
      · have := lastBelow_eq_none hl hs
        omega
      obtain ⟨hget, hlt', hmax⟩ := lastBelow_eq_some hl
      rcases eq_or_lt_of_le (hmax s a hs (by omega)) with rfl | hss
      · rw [hget] at hs
        cases hs
        rfl
      · have := h.apart s a s' a' hs hget hss
        omega
    rw [hlast]
    simp [Option.filter, hlt, hstop]

/-! ### Splitting -/

theorem split_spec (at_ : ℕ) : (¬ i.Crosses at_ ∧ i.split at_ = i) ∨
    ∃ s a, i.areas.get s = some a ∧ s < at_ ∧ at_ < a.stop ∧ i.areas.get at_ = none ∧
      i.split at_ = { i with
        areas := (i.areas.modify s fun a => { a with stop := at_ }).insert at_
          { a with backing := a.backing.advanced ((at_ - s) / PAGE_SIZE) } } := by
  unfold split
  rcases crossing h at_ with ⟨s, a, hl, hget, hlt, hstop⟩ | ⟨hl, hno⟩
  · refine .inr ⟨s, a, hget, hlt, hstop, ?_, by rw [hl]⟩
    refine Option.eq_none_iff_forall_ne_some.mpr fun a' ha' => ?_
    have := h.apart s a at_ a' hget ha' hlt
    omega
  · exact .inl ⟨hno, by rw [hl]⟩

omit h in
theorem writable_advanced (b : Backing) (n : ℕ) : (b.advanced n).writable = b.writable := by
  cases b <;> rfl

omit h in
theorem advanced_eq_zero {b : Backing} {n : ℕ} : b.advanced n = .zero ↔ b = .zero := by
  cases b <;> simp [Backing.advanced]

variable {at_ k s stop va : ℕ} {a x : Area}

omit h in
theorem get_split {areas : OrdMap ℕ Area} {tail : Area} (hs : areas.get s = some a)
    (hlt : s < at_) :
    ((areas.modify s fun a => { a with stop := at_ }).insert at_ tail).get k = some x ↔
      (k = at_ ∧ x = tail) ∨ (k = s ∧ x = { a with stop := at_ }) ∨
        (k ≠ at_ ∧ k ≠ s ∧ areas.get k = some x) := by
  rw [get_insert_eq_some, get_modify_eq_some]
  constructor
  · rintro (h | ⟨hk, ⟨hks, h⟩ | ⟨rfl, y, hy, rfl⟩⟩)
    · exact .inl h
    · exact .inr (.inr ⟨hk, hks, h⟩)
    · rw [hs] at hy
      cases hy
      exact .inr (.inl ⟨rfl, rfl⟩)
  · rintro (h | ⟨rfl, rfl⟩ | ⟨hk, hks, h⟩)
    · exact .inl h
    · exact .inr ⟨hlt.ne, .inr ⟨rfl, a, hs, rfl⟩⟩
    · exact .inr ⟨hk, .inl ⟨hks, h⟩⟩

/-- Every area after a split is a part of one before it. -/
theorem split_origin (at_ : ℕ) (hk : (i.split at_).areas.get k = some x) :
    ∃ s a, i.areas.get s = some a ∧ s ≤ k ∧ x.stop ≤ a.stop ∧ x.kind = a.kind ∧
      x.prot = a.prot ∧ ∃ n, x.backing = a.backing.advanced n := by
  have hzero : ∀ b : Backing, b = b.advanced 0 := by
    intro b
    cases b <;> simp [Backing.advanced]
  rcases split_spec h at_ with ⟨-, heq⟩ | ⟨s, a, hs, hlt, hstop, -, heq⟩
  · rw [heq] at hk
    exact ⟨k, x, hk, le_rfl, le_rfl, rfl, rfl, 0, hzero _⟩
  rw [heq] at hk
  rcases (get_split hs hlt).mp hk with ⟨rfl, rfl⟩ | ⟨rfl, rfl⟩ | ⟨-, -, hk⟩
  · exact ⟨s, a, hs, hlt.le, le_rfl, rfl, rfl, _, rfl⟩
  · exact ⟨k, a, hs, le_rfl, hstop.le, rfl, rfl, 0, hzero _⟩
  · exact ⟨k, x, hk, le_rfl, le_rfl, rfl, rfl, 0, hzero _⟩

theorem split_layout (hat : at_ % PAGE_SIZE = 0) : Layout (i.split at_).areas := by
  rcases split_spec h at_ with ⟨-, heq⟩ | ⟨s, a, hs, hlt, hstop, hnone, heq⟩
  · rw [heq]
    exact h
  rw [heq]
  obtain ⟨hs0, ha0, -, hlow, hhigh⟩ := h.bounds s a hs
  obtain ⟨hwx, hw⟩ := h.allowed s a hs
  refine ⟨fun k x hk => ?_, fun k x k' x' hk hk' hkk => ?_, fun k x hk => ?_⟩
  · rcases (get_split hs hlt).mp hk with ⟨rfl, rfl⟩ | ⟨rfl, rfl⟩ | ⟨-, -, hk⟩
    · exact ⟨hat, ha0, hstop, by omega, hhigh⟩
    · exact ⟨hs0, hat, hlt, hlow, by show at_ ≤ MAP_END; omega⟩
    · exact h.bounds k x hk
  · rcases (get_split hs hlt).mp hk with ⟨rfl, rfl⟩ | ⟨rfl, rfl⟩ | ⟨-, hks, hold⟩ <;>
      rcases (get_split hs hlt).mp hk' with ⟨rfl, rfl⟩ | ⟨rfl, rfl⟩ | ⟨-, -, hold'⟩
    · omega
    · omega
    · exact h.apart s a k' x' hs hold' (hlt.trans hkk)
    · exact le_rfl
    · omega
    · exact hstop.le.trans (h.apart k a k' x' hs hold' hkk)
    · -- the other area is below the cut, so below the area cut
      rcases lt_or_gt_of_ne hks with hks | hks
      · exact (h.apart k x s a hold hs hks).trans hlt.le
      · have := h.apart s a k x hs hold hks
        omega
    · exact h.apart k x k' a hold hs hkk
    · exact h.apart k x k' x' hold hold' hkk
  · rcases (get_split hs hlt).mp hk with ⟨rfl, rfl⟩ | ⟨rfl, rfl⟩ | ⟨-, -, hk⟩
    · exact ⟨hwx, fun h => (writable_advanced _ _).trans (hw h)⟩
    · exact ⟨hwx, hw⟩
    · exact h.allowed k x hk

/-- After a split nothing crosses the cut, and elsewhere the same areas cross. -/
theorem crosses_split (at_ x : ℕ) : (i.split at_).Crosses x ↔ x ≠ at_ ∧ i.Crosses x := by
  rcases split_spec h at_ with ⟨hno, heq⟩ | ⟨s, a, hs, hlt, hstop, hnone, heq⟩
  · rw [heq]
    exact ⟨fun hx => ⟨fun hxa => hno (hxa ▸ hx), hx⟩, fun hx => hx.2⟩
  rw [heq]
  constructor
  · rintro ⟨k, y, hk, hkx, hxy⟩
    rcases (get_split hs hlt).mp hk with ⟨rfl, rfl⟩ | ⟨rfl, rfl⟩ | ⟨-, hks, hold⟩
    · exact ⟨hkx.ne', s, a, hs, hlt.trans hkx, hxy⟩
    · exact ⟨hxy.ne, k, a, hs, hkx, lt_trans hxy hstop⟩
    refine ⟨?_, k, y, hold, hkx, hxy⟩
    rintro rfl
    -- two areas would cross the cut
    rcases lt_or_gt_of_ne hks with hks | hks
    · have := h.apart k y s a hold hs hks
      omega
    · have := h.apart s a k y hs hold hks
      omega
  · rintro ⟨hne, k, y, hk, hkx, hxy⟩
    by_cases hks : k = s
    · subst hks
      rw [hs] at hk
      cases hk
      rcases lt_or_gt_of_ne hne with hx | hx
      · exact ⟨k, _, (get_split hs hlt).mpr (.inr (.inl ⟨rfl, rfl⟩)), hkx, hx⟩
      · exact ⟨at_, _, (get_split hs hlt).mpr (.inl ⟨rfl, rfl⟩), hx, hxy⟩
    · refine ⟨k, y, (get_split hs hlt).mpr (.inr (.inr ⟨?_, hks, hk⟩)), hkx, hxy⟩
      rintro rfl
      rw [hnone] at hk
      cases hk

/-- An area that does not cross the cut stays as it is. -/
theorem get_split_of_not_crossing (hk : i.areas.get k = some x) (hx : ¬ (k < at_ ∧ at_ < x.stop)) :
    (i.split at_).areas.get k = some x := by
  rcases split_spec h at_ with ⟨-, heq⟩ | ⟨s, a, hs, hlt, hstop, hnone, heq⟩
  · rw [heq]
    exact hk
  rw [heq]
  refine (get_split hs hlt).mpr (.inr (.inr ⟨?_, ?_, hk⟩))
  · rintro rfl
    rw [hnone] at hk
    cases hk
  · rintro rfl
    rw [hs] at hk
    cases hk
    exact hx ⟨hlt, hstop⟩

theorem tableCount_ranges_split (top at_ : ℕ) :
    tableCount top (i.split at_).ranges = tableCount top i.ranges := by
  rcases split_spec h at_ with ⟨-, heq⟩ | ⟨s, a, hs, hlt, hstop, hnone, heq⟩
  · rw [heq]
  -- the ranges other than the one split
  let rest := i.ranges.filter fun p => p.1 ≠ s
  have hafter : ∀ p, p ∈ (i.split at_).ranges ↔ p ∈ [(s, at_), (at_, a.stop)] ++ rest := by
    intro p
    rw [mem_ranges, heq, mem_append, mem_filter, mem_ranges]
    constructor
    · rintro ⟨x, hx, hp⟩
      rcases (get_split hs hlt).mp hx with ⟨h1, rfl⟩ | ⟨h1, rfl⟩ | ⟨-, h2, h3⟩
      · exact .inl (by rw [show p = (at_, a.stop) from Prod.ext h1 hp.symm]; simp)
      · exact .inl (by rw [show p = (s, at_) from Prod.ext h1 hp.symm]; simp)
      · exact .inr ⟨⟨x, h3, hp⟩, by simpa using h2⟩
    · rintro (hp | ⟨⟨x, h3, hp⟩, h2⟩)
      · rcases mem_cons.mp hp with rfl | hp
        · exact ⟨_, (get_split hs hlt).mpr (.inr (.inl ⟨rfl, rfl⟩)), rfl⟩
        · rcases mem_singleton.mp hp with rfl
          exact ⟨_, (get_split hs hlt).mpr (.inl ⟨rfl, rfl⟩), rfl⟩
      · refine ⟨x, (get_split hs hlt).mpr (.inr (.inr ⟨?_, by simpa using h2, h3⟩)), hp⟩
        intro hpat
        rw [hpat, hnone] at h3
        cases h3
  have hbefore : ∀ p, p ∈ i.ranges ↔ p ∈ [(s, a.stop)] ++ rest := by
    intro p
    rw [mem_append, mem_singleton, mem_filter]
    constructor
    · intro hp
      by_cases hps : p.1 = s
      · obtain ⟨x, hx, hxp⟩ := mem_ranges.mp hp
        rw [hps, hs] at hx
        cases hx
        exact .inl (Prod.ext hps hxp.symm)
      · exact .inr ⟨hp, by simpa using hps⟩
    · rintro (rfl | hp)
      · exact mem_ranges.mpr ⟨a, hs, rfl⟩
      · exact hp.1
  rw [tableCount_congr top hafter, tableCount_congr top hbefore, tableCount_split top _ hlt hstop]

theorem size_split (at_ : ℕ) :
    (i.split at_).areas.size = i.areas.size + (i.splitNeeded at_).toNat := by
  rcases split_spec h at_ with ⟨hno, heq⟩ | ⟨s, a, hs, hlt, hstop, hnone, heq⟩
  · have : i.splitNeeded at_ = false :=
      Bool.eq_false_iff.mpr fun hn => hno ((splitNeeded_iff h at_).mp hn)
    rw [heq, this]
    rfl
  · rw [heq, (splitNeeded_iff h at_).mpr ⟨s, a, hs, hlt, hstop⟩]
    refine (size_insert_of_none ?_ _).trans (by rw [size_modify]; rfl)
    rw [get_modify, if_neg hlt.ne', hnone]

/-! ### The views of the map -/

omit h in
/-- No area reaches into `va .. stop`. -/
def Free (i : Inner) (va stop : ℕ) : Prop := ∀ s a, i.areas.get s = some a → a.stop ≤ va ∨ stop ≤ s

theorem overlaps_eq_false (hno : i.overlaps va stop = false) : i.Free va stop := by
  intro s a hs
  unfold overlaps at hno
  rcases hl : i.areas.lastBelow stop with - | ⟨s', a'⟩
  · exact .inr (lastBelow_eq_none hl hs)
  rw [hl] at hno
  obtain ⟨hget, -, hmax⟩ := lastBelow_eq_some hl
  have hva : a'.stop ≤ va := by simpa using hno
  rcases lt_or_ge s stop with hlt | hge
  · rcases eq_or_lt_of_le (hmax s a hs hlt) with rfl | hss
    · rw [hget] at hs
      cases hs
      exact .inl hva
    · have h1 := h.apart s a s' a' hs hget hss
      have h2 := (h.bounds s' a' hget).2.2.1
      exact .inl (by omega)
  · exact .inr hge

omit h in
/-- Elements that pass come first: the ones taken are the ones that pass. -/
theorem mem_takeWhile {α : Type} {p : α → Bool} {l : List α}
    (h : l.Pairwise fun x y => p y = true → p x = true) {x : α} (hx : x ∈ l) (hp : p x = true) :
    x ∈ l.takeWhile p := by
  induction l with
  | nil => cases hx
  | cons y l ih =>
    rw [pairwise_cons] at h
    have hy : p y = true := by
      rcases mem_cons.mp hx with rfl | hx
      · exact hp
      · exact h.1 x hx hp
    rw [takeWhile_cons_of_pos hy]
    rcases mem_cons.mp hx with rfl | hx
    · exact mem_cons_self
    · exact mem_cons_of_mem _ (ih h.2 hx)

/-- Every area of a range is seen from its end downwards. -/
theorem mem_downFrom (hs : i.areas.get s = some a)
    (hlt : s < stop) (hva : va < a.stop) : (s, a) ∈ i.downFrom va stop := by
  refine mem_takeWhile ?_ ?_ (by simpa using hva)
  · refine pairwise_reverse.mpr ?_
    refine (List.Pairwise.and_mem.mp (i.areas.sorted.filter _)).imp ?_
    rintro ⟨s1, a1⟩ ⟨s2, a2⟩ ⟨h1, h2, hlt⟩ hp
    have hg1 := mem_entries.mp (mem_filter.mp h1).1
    have hg2 := mem_entries.mp (mem_filter.mp h2).1
    have := h.apart s1 a1 s2 a2 hg1 hg2 hlt
    have := (h.bounds s2 a2 hg2).2.2.1
    simp only [decide_eq_true_eq] at hp ⊢
    omega
  · exact mem_reverse.mpr (mem_between.mpr ⟨hs, Nat.zero_le _, hlt⟩)

theorem touchesPlane_eq_false (hno : i.touchesPlane va stop = false)
    (hs : i.areas.get s = some a) (hlt : s < stop) (hva : va < a.stop) : a.kind ≠ .plane := by
  have := any_eq_false.mp hno (s, a) (mem_downFrom h hs hlt hva)
  simpa using this

omit h in
theorem covered_eq_ok {check : Area → Except Error Unit} :
    ∀ {l : List (ℕ × Area)} {cursor c : ℕ}, covered check va l cursor = .ok c →
      ∀ e ∈ l, va < e.2.stop → check e.2 = .ok ()
  | [], _, _, _, _, he, _ => by cases he
  | (start, area) :: rest, cursor, c, hc, e, he, hva => by
    unfold covered at hc
    split at hc
    case isTrue hle =>
      rcases mem_cons.mp he with rfl | he
      · exact absurd hle (not_le.mpr hva)
      · exact covered_eq_ok hc e he hva
    case isFalse =>
      split at hc
      · cases hc
      rcases hcheck : check area with err | ⟨⟩
      · rw [hcheck] at hc
        cases hc
      · rw [hcheck] at hc
        rcases mem_cons.mp he with rfl | he
        · exact hcheck
        · exact covered_eq_ok hc e he hva

omit h in
/-- No area begins below the mapping area and reaches beyond its first page. -/
def Clear (i : Inner) : Prop :=
  ∀ s a, i.areas.get s = some a → s < MAP_BASE → a.stop ≤ MAP_BASE + PAGE_SIZE

omit h in
/-- What the search keeps: the candidate is behind every area passed. -/
theorem candidate_spec (len : ℕ) : ∀ {l : List (ℕ × Area)} {c : ℕ},
    (l.Pairwise fun e e' => e.1 < e'.1) → c % PAGE_SIZE = 0 →
    (∀ e ∈ l, e.2.stop % PAGE_SIZE = 0) →
      c ≤ candidate len l c ∧ candidate len l c % PAGE_SIZE = 0 ∧
        ∀ e ∈ l, e.2.stop ≤ candidate len l c ∨ candidate len l c + len ≤ e.1
  | [], c, _, hc, _ => ⟨le_rfl, hc, by simp⟩
  | (start, area) :: rest, c, hl, hc, hstop => by
    rw [pairwise_cons] at hl
    unfold candidate
    split
    case isTrue hfits =>
      refine ⟨le_rfl, hc, fun e he => .inr ?_⟩
      rcases mem_cons.mp he with rfl | he
      · show c + len ≤ start
        omega
      · have : start < e.1 := hl.1 e he
        omega
    case isFalse =>
      have harea : (area.stop + PAGE_SIZE) % PAGE_SIZE = 0 := by
        rw [Nat.add_mod_right]
        exact hstop _ mem_cons_self
      have hmax : max c (area.stop + PAGE_SIZE) % PAGE_SIZE = 0 := by
        rcases max_choice c (area.stop + PAGE_SIZE) with hm | hm
        · rw [hm]
          exact hc
        · rw [hm]
          exact harea
      obtain ⟨hle, hmod, hall⟩ := candidate_spec len hl.2 hmax fun e he =>
        hstop e (mem_cons_of_mem _ he)
      refine ⟨(le_max_left _ _).trans hle, hmod, fun e he => ?_⟩
      rcases mem_cons.mp he with rfl | he
      · exact .inl ((Nat.le_add_right _ _).trans ((le_max_right _ _).trans hle))
      · exact hall e he

/-- **Where the kernel chooses, nothing is**, if nothing straddles the start of the mapping
area. -/
theorem findFree_spec (hclear : i.Clear) {len : ℕ} (hva : i.findFree len = .ok va) :
    i.Free va (va + len) ∧ va % PAGE_SIZE = 0 ∧ IMAGE_START ≤ va ∧ va + len ≤ MAP_END := by
  unfold findFree at hva
  have hspec := candidate_spec len
    (l := i.areas.entries.filter fun e => MAP_BASE ≤ e.1) (c := MAP_BASE + PAGE_SIZE)
    (i.areas.sorted.filter _) (by decide)
    (fun e he => (h.bounds e.1 e.2 (mem_entries.mp (mem_filter.mp he).1)).2.1)
  simp only at hva
  generalize candidate len (i.areas.entries.filter fun e => MAP_BASE ≤ e.1)
    (MAP_BASE + PAGE_SIZE) = c at hva hspec
  obtain ⟨hle, hmod, hall⟩ := hspec
  split at hva
  · cases hva
  split at hva
  · cases hva
  case isFalse hend =>
    cases hva
    refine ⟨fun s a hs => ?_, hmod, ?_, not_lt.mp hend⟩
    · rcases lt_or_ge s MAP_BASE with hlow | hhigh
      · exact .inl ((hclear s a hs hlow).trans hle)
      · exact hall (s, a) (mem_filter.mpr ⟨mem_entries.mpr hs, by simpa using hhigh⟩)
    · exact (show IMAGE_START ≤ MAP_BASE + PAGE_SIZE by decide).trans hle

/-- The nearest areas around a free range. -/
theorem neighbours_spec (hlt : va < stop) (hfree : i.Free va stop) :
    Neighbours i.ranges va stop (i.neighbours va stop).1 (i.neighbours va stop).2 := by
  unfold neighbours
  constructor
  · intro b hb
    obtain ⟨⟨s, a⟩, hl, rfl⟩ := Option.map_eq_some_iff.mp hb
    obtain ⟨hget, hsva, -⟩ := lastBelow_eq_some hl
    refine ⟨(s, a.stop), mem_ranges.mpr ⟨a, hget, rfl⟩, rfl, ?_⟩
    rcases hfree s a hget with hle | hge
    · exact hle
    · omega
  · intro p hp hple
    obtain ⟨x, hx, hxp⟩ := mem_ranges.mp hp
    have hxne := (h.bounds p.1 x hx).2.2.1
    rcases hl : i.areas.lastBelow va with - | ⟨s, a⟩
    · have := lastBelow_eq_none hl hx
      omega
    obtain ⟨hget, -, hmax⟩ := lastBelow_eq_some hl
    refine ⟨a.stop, rfl, ?_⟩
    rcases eq_or_lt_of_le (hmax p.1 x hx (by omega)) with heq | hps
    · rw [← heq, hx] at hget
      cases hget
      exact hxp.ge
    · have h1 := h.apart p.1 x s a hx hget hps
      have h2 := (h.bounds s a hget).2.2.1
      omega
  · intro n hn
    obtain ⟨⟨s, a⟩, hl, rfl⟩ := Option.map_eq_some_iff.mp hn
    obtain ⟨hget, hstop, -⟩ := firstFrom_eq_some hl
    exact ⟨(s, a.stop), mem_ranges.mpr ⟨a, hget, rfl⟩, rfl, hstop⟩
  · intro p hp hge
    obtain ⟨x, hx, -⟩ := mem_ranges.mp hp
    rcases hl : i.areas.firstFrom stop with - | ⟨s, a⟩
    · have := firstFrom_eq_none hl hx
      omega
    · exact ⟨s, rfl, (firstFrom_eq_some hl).2.2 p.1 x hx hge⟩

end Inner

end Moruna.Kernel
