/-
Moruna/Kernel/SpaceInv.lean

What holds of an address space, and how each change of it keeps that.

* `Inv.split_both`, `Inv.cutOut`, `Inv.erase`, `Fits.tables`, `Inv.reprotect` — one lemma
  for each change.
-/
import Moruna.Kernel.Areas

namespace Moruna.Kernel

open OrdMap List

namespace Inner

variable {i : Inner}

/-! ### What holds of a space -/

/-- The areas are laid out well, and every zero page is in a zero area. -/
structure Sound (i : Inner) : Prop where
  layout : Layout i.areas
  zero : ∀ page, (i.zero.get page).isSome = true →
    ∃ s a, i.areas.get s = some a ∧ s ≤ page ∧ page < a.stop ∧ a.backing = .zero

/-- The tables are the full count, and what is charged is what the space costs and `extra`
for what is about to be done. -/
structure Billed (extra : ℕ) (i : Inner) : Prop where
  tables : i.tables = tableCount MAP_END i.ranges
  charged : i.charged = i.cost + extra
  faults : i.faults = []

structure Inv (extra : ℕ) (i : Inner) : Prop where
  sound : i.Sound
  billed : i.Billed extra

/-- The data plane's areas are still there, as they were. -/
def PlaneKept (i i' : Inner) : Prop :=
  ∀ s a, i.areas.get s = some a → a.kind = .plane → i'.areas.get s = some a

@[simp] theorem areas_settle (i : Inner) : i.settle.areas = i.areas := by
  unfold settle
  split <;> rfl

@[simp] theorem zero_settle (i : Inner) : i.settle.zero = i.zero := by
  unfold settle
  split <;> rfl

@[simp] theorem areas_freeTables (i : Inner) (n : ℕ) : (i.freeTables n).areas = i.areas := by
  unfold freeTables
  split <;> rfl

@[simp] theorem zero_freeTables (i : Inner) (n : ℕ) : (i.freeTables n).zero = i.zero := by
  unfold freeTables
  split <;> rfl

/-- Soundness is about the areas and the zero pages only. -/
theorem Sound.of_eq {i' : Inner} (h : i.Sound) (ha : i'.areas = i.areas) (hz : i'.zero = i.zero) :
    i'.Sound := ⟨ha ▸ h.layout, by rw [ha, hz]; exact h.zero⟩

/-- Settling a space that costs no more than is charged. -/
theorem settle_billed (ht : i.tables = tableCount MAP_END i.ranges) (hc : i.cost ≤ i.charged)
    (hf : i.faults = []) : i.settle.Billed 0 := by
  rw [settle, if_neg (not_lt.mpr hc)]
  exact ⟨ht, rfl, hf⟩

/-- Freeing tables beyond the full count, then settling. -/
theorem release_billed {n : ℕ} (ht : i.tables = tableCount MAP_END i.ranges + n)
    (hc : i.cost ≤ i.charged) (hf : i.faults = []) : (i.freeTables n).settle.Billed 0 := by
  rw [freeTables, if_pos (by omega)]
  refine settle_billed (by show i.tables - n = tableCount MAP_END i.ranges; omega) ?_ hf
  refine le_trans (Nat.add_le_add_left (Nat.mul_le_mul_right _ ?_) _) hc
  exact Nat.sub_le _ _

/-! ### What a split does to the whole -/

variable {at_ extra s : ℕ} {a : Area} {prot : Prot}

theorem Sound.split (h : i.Sound) (hat : at_ % PAGE_SIZE = 0) : (i.split at_).Sound := by
  refine ⟨split_layout h.layout hat, ?_⟩
  rcases split_spec h.layout at_ with ⟨-, heq⟩ | ⟨s, a, hs, hlt, hstop, hnone, heq⟩
  · rw [heq]
    exact h.zero
  rw [heq]
  intro page hpage
  obtain ⟨k, x, hk, hkp, hpx, hzero⟩ := h.zero page hpage
  by_cases hks : k = s
  · subst hks
    rw [hs] at hk
    cases hk
    rcases lt_or_ge page at_ with hp | hp
    · exact ⟨k, _, (get_split hs hlt).mpr (.inr (.inl ⟨rfl, rfl⟩)), hkp, hp, hzero⟩
    · exact ⟨at_, _, (get_split hs hlt).mpr (.inl ⟨rfl, rfl⟩), hp, hpx, advanced_eq_zero.mpr hzero⟩
  · refine ⟨k, x, (get_split hs hlt).mpr (.inr (.inr ⟨?_, hks, hk⟩)), hkp, hpx, hzero⟩
    rintro rfl
    rw [hnone] at hk
    cases hk

theorem split_rest (i : Inner) (at_ : ℕ) : (i.split at_).zero = i.zero ∧
    (i.split at_).tables = i.tables ∧ (i.split at_).charged = i.charged ∧
      (i.split at_).faults = i.faults := by
  unfold split
  split <;> exact ⟨rfl, rfl, rfl, rfl⟩

/-- A split uses one area's charge, if it splits. -/
theorem Inv.split
    (h : i.Inv (extra + (i.splitNeeded at_).toNat * Charges.AREA)) (hat : at_ % PAGE_SIZE = 0) :
    (i.split at_).Inv extra := by
  obtain ⟨hz, ht, hc, hf⟩ := split_rest i at_
  refine ⟨h.sound.split hat, ?_, ?_, hf.trans h.billed.faults⟩
  · rw [ht, tableCount_ranges_split h.sound.layout]
    exact h.billed.tables
  · rw [hc, h.billed.charged, cost, cost, hz, ht, size_split h.sound.layout, add_mul]
    omega

variable {va stop : ℕ}

/-- **Both ends of a range are split for the charge that was made for them.** -/
theorem Inv.split_both (h : i.Inv (i.splitBytes va stop)) (hva : va % PAGE_SIZE = 0)
    (hstop : stop % PAGE_SIZE = 0) (hlt : va < stop) :
    ((i.split va).split stop).Inv 0 ∧ ¬ ((i.split va).split stop).Crosses va ∧
      ¬ ((i.split va).split stop).Crosses stop := by
  have hl := h.sound.layout
  have hl' := split_layout hl hva
  -- the second boundary is inside an area after the first split just when it was before
  have hneeded : (i.split va).splitNeeded stop = i.splitNeeded stop := by
    refine Bool.eq_iff_iff.mpr ?_
    rw [splitNeeded_iff hl', splitNeeded_iff hl, crosses_split hl]
    exact ⟨fun h => h.2, fun h => ⟨hlt.ne', h⟩⟩
  have h1 : (i.split va).Inv (0 + ((i.split va).splitNeeded stop).toNat * Charges.AREA) := by
    refine .split ?_ hva
    rw [hneeded, zero_add, ← add_mul, add_comm]
    exact h
  refine ⟨.split h1 hstop, ?_, ?_⟩
  · rw [crosses_split hl', crosses_split hl]
    simp
  · rw [crosses_split hl']
    simp

/-- An area of neither boundary keeps through both splits. -/
theorem get_split_both (h : Layout i.areas) (hva : va % PAGE_SIZE = 0)
    (hs : i.areas.get s = some a) (h1 : ¬ (s < va ∧ va < a.stop))
    (h2 : ¬ (s < stop ∧ stop < a.stop)) : ((i.split va).split stop).areas.get s = some a :=
  get_split_of_not_crossing (split_layout h hva) (get_split_of_not_crossing h hs h1) h2

/-! ### Taking areas out -/

theorem Layout.of_sub {areas areas' : OrdMap ℕ Area} (h : Layout areas)
    (hsub : ∀ s a, areas'.get s = some a → areas.get s = some a) : Layout areas' :=
  ⟨fun s a hs => h.bounds s a (hsub s a hs),
    fun s a s' a' hs hs' => h.apart s a s' a' (hsub s a hs) (hsub s' a' hs'),
    fun s a hs => h.allowed s a (hsub s a hs)⟩

/-- Taking out `pieces`, which are the areas of `va .. stop`, frees the tables of the
regions only they touched. -/
theorem tables_of_taken {left : Inner} (pieces : List Range) (h : Layout left.areas)
    (hlt : va < stop) (hfree : left.Free va stop) (hsorted : pieces.Pairwise fun p q => p.2 ≤ q.1)
    (hne : ∀ p ∈ pieces, p.1 < p.2) (hin : ∀ p ∈ pieces, va ≤ p.1 ∧ p.2 ≤ stop)
    (hall : ∀ p, p ∈ i.ranges ↔ p ∈ pieces ++ left.ranges) :
    tableCount MAP_END i.ranges = tableCount MAP_END left.ranges +
      (Kernel.tables pieces (left.neighbours va stop).1 (left.neighbours va stop).2
        MAP_END).pages := by
  have hparted : Parted pieces left.ranges va stop := by
    refine ⟨hsorted, hne, hin, fun p hp => ?_⟩
    obtain ⟨x, hx, hxp⟩ := mem_ranges.mp hp
    exact hxp ▸ ⟨(h.bounds p.1 x hx).2.2.1, hfree p.1 x hx⟩
  rw [tableCount_congr MAP_END hall, tableCount_eq hparted (neighbours_spec h hlt hfree)]

/-- **Areas go with their zero pages, and the charge follows.** -/
theorem Inv.cutOut (h : i.Inv 0) (hlt : va < stop) (hva : ¬ i.Crosses va)
    (hstop : ¬ i.Crosses stop) : (i.cutOut va stop).Inv 0 := by
  have hl := h.sound.layout
  -- the areas of the range end in it
  have hend : ∀ s a, i.areas.get s = some a → s < stop → a.stop ≤ stop := fun s a hs hs' =>
    not_lt.mp fun hgt => hstop ⟨s, a, hs, hs', hgt⟩
  unfold Inner.cutOut
  simp only
  generalize hleft : ({ i.dropZero va stop with
      areas := i.areas.eraseBetween va stop
      brk := i.brk.map (lowerBrk va stop) } : Inner) = left
  have hareas : left.areas = i.areas.eraseBetween va stop := by rw [← hleft]
  have hzero : left.zero = i.zero.eraseBetween va stop := by rw [← hleft]; rfl
  have hget : ∀ {s a}, left.areas.get s = some a ↔
      i.areas.get s = some a ∧ ¬ (va ≤ s ∧ s < stop) := by
    intro s a
    rw [hareas]
    exact get_eraseBetween_eq_some
  have hlayout : Layout left.areas := Layout.of_sub hl fun s a hs => (hget.mp hs).1
  have hfree : left.Free va stop := by
    intro s a hs
    obtain ⟨hs, hout⟩ := hget.mp hs
    rcases lt_or_ge s va with hlow | hhigh
    · exact .inl (not_lt.mp fun hgt => hva ⟨s, a, hs, hlow, hgt⟩)
    · exact .inr (not_lt.mp fun hlt => hout ⟨hhigh, hlt⟩)
  have htables := tables_of_taken (i := i) ((i.areas.between va stop).map fun e =>
    (e.1, e.2.stop)) hlayout hlt hfree ?_ ?_ ?_ ?_
  · refine ⟨.of_eq ⟨hlayout, fun page hpage => ?_⟩ (by simp) (by simp), release_billed ?_ ?_ ?_⟩
    · -- a zero page outside of the range is in an area outside of it
      obtain ⟨u, hu⟩ := Option.isSome_iff_exists.mp hpage
      rw [hzero] at hu
      obtain ⟨hu, hout⟩ := get_eraseBetween_eq_some.mp hu
      obtain ⟨s, a, hs, hsp, hpa, hb⟩ := h.sound.zero page (by rw [hu]; rfl)
      refine ⟨s, a, hget.mpr ⟨hs, fun hin => hout ⟨hin.1.trans hsp, ?_⟩⟩, hsp, hpa, hb⟩
      exact lt_of_lt_of_le hpa (hend s a hs hin.2)
    · rw [← htables, ← hleft]
      exact h.billed.tables
    · rw [show left.charged = i.charged by rw [← hleft]; rfl, h.billed.charged,
        cost, cost, hareas, hzero, show left.tables = i.tables by rw [← hleft]; rfl]
      have h1 := Nat.mul_le_mul_right Charges.AREA (size_eraseBetween_le i.areas va stop)
      have h2 := Nat.mul_le_mul_right Charges.ZERO_PAGE (size_eraseBetween_le i.zero va stop)
      omega
    · rw [← hleft]
      exact h.billed.faults
  · refine pairwise_map.mpr ?_
    refine (List.Pairwise.and_mem.mp (i.areas.sorted.filter _)).imp ?_
    rintro ⟨s1, a1⟩ ⟨s2, a2⟩ ⟨h1, h2, hlt⟩
    exact hl.apart s1 a1 s2 a2 (mem_entries.mp (mem_filter.mp h1).1)
      (mem_entries.mp (mem_filter.mp h2).1) hlt
  · rintro p hp
    obtain ⟨⟨s, a⟩, he, rfl⟩ := mem_map.mp hp
    exact (hl.bounds s a (mem_between.mp he).1).2.2.1
  · rintro p hp
    obtain ⟨⟨s, a⟩, he, rfl⟩ := mem_map.mp hp
    obtain ⟨hs, h1, h2⟩ := mem_between.mp he
    exact ⟨h1, hend s a hs h2⟩
  · intro p
    rw [mem_append, mem_ranges, mem_ranges, mem_map]
    constructor
    · rintro ⟨a, hs, hp⟩
      by_cases hin : va ≤ p.1 ∧ p.1 < stop
      · exact .inl ⟨(p.1, a), mem_between.mpr ⟨hs, hin⟩, by rw [hp]⟩
      · exact .inr ⟨a, hget.mpr ⟨hs, hin⟩, hp⟩
    · rintro (⟨⟨s, a⟩, he, rfl⟩ | ⟨a, hs, hp⟩)
      · exact ⟨a, (mem_between.mp he).1, rfl⟩
      · exact ⟨a, (hget.mp hs).1, hp⟩

theorem get_cutOut (hs : i.areas.get s = some a) (hout : ¬ (va ≤ s ∧ s < stop)) :
    (i.cutOut va stop).areas.get s = some a := by
  unfold Inner.cutOut
  simp only [areas_settle, areas_freeTables]
  exact get_eraseBetween_eq_some.mpr ⟨hs, hout⟩

theorem Inv.erase (h : i.Inv 0) (hva : i.areas.get va = some a) (hstop : a.stop = stop)
    (hb : a.backing ≠ .zero) :
    ((({ i with areas := i.areas.erase va } : Inner).freeTables (Kernel.tables [(va, stop)]
        (({ i with areas := i.areas.erase va } : Inner).neighbours va stop).1
        (({ i with areas := i.areas.erase va } : Inner).neighbours va stop).2
        MAP_END).pages).settle).Inv 0 := by
  subst hstop
  have hl := h.sound.layout
  have hlt := (hl.bounds va a hva).2.2.1
  generalize hleft : ({ i with areas := i.areas.erase va } : Inner) = left
  have hget : ∀ {s x}, left.areas.get s = some x ↔ s ≠ va ∧ i.areas.get s = some x := by
    intro s x
    rw [← hleft]
    exact get_erase_eq_some
  have hlayout : Layout left.areas := Layout.of_sub hl fun s x hs => (hget.mp hs).2
  have hfree : left.Free va a.stop := by
    intro s x hs
    obtain ⟨hne, hs⟩ := hget.mp hs
    rcases lt_or_gt_of_ne hne with hlow | hhigh
    · exact .inl (hl.apart s x va a hs hva hlow)
    · exact .inr (hl.apart va a s x hva hs hhigh)
  have htables := tables_of_taken (i := i) [(va, a.stop)] hlayout hlt hfree
    (pairwise_singleton _ _) (by simpa using hlt) (by simp) ?_
  · refine ⟨.of_eq ⟨hlayout, fun page hpage => ?_⟩ (by simp) (by simp), release_billed ?_ ?_ ?_⟩
    · obtain ⟨s, x, hs, hsp, hpx, hx⟩ := h.sound.zero page (by rw [← hleft] at hpage; exact hpage)
      refine ⟨s, x, hget.mpr ⟨?_, hs⟩, hsp, hpx, hx⟩
      rintro rfl
      rw [hva] at hs
      cases hs
      exact hb hx
    · rw [← htables, ← hleft]
      exact h.billed.tables
    · have hsize : left.areas.size ≤ i.areas.size := by
        rw [← hleft]
        exact (size_erase hva).symm ▸ Nat.le_succ _
      have h1 := Nat.mul_le_mul_right Charges.AREA hsize
      rw [show left.charged = i.charged by rw [← hleft], h.billed.charged,
        cost, cost, show left.zero = i.zero by rw [← hleft],
        show left.tables = i.tables by rw [← hleft]]
      omega
    · rw [← hleft]
      exact h.billed.faults
  · intro p
    rw [mem_append, mem_singleton, mem_ranges, mem_ranges]
    constructor
    · rintro ⟨x, hs, hp⟩
      by_cases hpva : p.1 = va
      · rw [hpva, hva] at hs
        cases hs
        exact .inl (Prod.ext hpva hp.symm)
      · exact .inr ⟨x, hget.mpr ⟨hpva, hs⟩, hp⟩
    · rintro (rfl | ⟨x, hs, hp⟩)
      · exact ⟨a, hva, rfl⟩
      · exact ⟨x, (hget.mp hs).2, hp⟩

/-! ### Adding an area -/

/-- What a new area brings: whole pages in a free range, a protection its backing allows. -/
structure Fits (i : Inner) (va : ℕ) (a : Area) : Prop where
  free : i.Free va a.stop
  aligned : va % PAGE_SIZE = 0 ∧ a.stop % PAGE_SIZE = 0
  lt : va < a.stop
  within : IMAGE_START ≤ va ∧ a.stop ≤ MAP_END
  allowed : ¬ (Prot.has a.prot Prot.WRITE = true ∧ Prot.has a.prot Prot.EXECUTE = true) ∧
    (Prot.has a.prot Prot.WRITE = true → a.backing.writable = true)

section

variable {va : ℕ} {a : Area} (hfit : i.Fits va a)
include hfit

/-- Nothing begins where it goes. -/
theorem Fits.get_eq_none (h : Layout i.areas) : i.areas.get va = none := by
  refine Option.eq_none_iff_forall_ne_some.mpr fun x hx => ?_
  have h1 := (h.bounds va x hx).2.2.1
  have h2 := hfit.lt
  rcases hfit.free va x hx with hle | hge
  · omega
  · omega

theorem Fits.layout (h : Layout i.areas) : Layout (i.areas.insert va a) := by
  refine ⟨fun s x hs => ?_, fun s x s' x' hs hs' hlt => ?_, fun s x hs => ?_⟩
  · rcases get_insert_eq_some.mp hs with ⟨rfl, rfl⟩ | ⟨-, hs⟩
    · exact ⟨hfit.aligned.1, hfit.aligned.2, hfit.lt, hfit.within.1, hfit.within.2⟩
    · exact h.bounds s x hs
  · rcases get_insert_eq_some.mp hs with ⟨rfl, rfl⟩ | ⟨-, hold⟩ <;>
      rcases get_insert_eq_some.mp hs' with ⟨rfl, rfl⟩ | ⟨-, hold'⟩
    · exact absurd hlt (lt_irrefl _)
    · -- an area above the new one's start is above its end
      have h1 := (h.bounds s' x' hold').2.2.1
      rcases hfit.free s' x' hold' with hle | hge
      · omega
      · exact hge
    · have h1 := hfit.lt
      rcases hfit.free s x hold with hle | hge
      · exact hle
      · omega
    · exact h.apart s x s' x' hold hold' hlt
  · rcases get_insert_eq_some.mp hs with ⟨rfl, rfl⟩ | ⟨-, hs⟩
    · exact hfit.allowed
    · exact h.allowed s x hs

/-- The full count grows by the count over the neighbours. -/
theorem Fits.tables (h : Layout i.areas) :
    tableCount MAP_END ({ i with areas := i.areas.insert va a } : Inner).ranges =
      tableCount MAP_END i.ranges +
        (Kernel.tables [(va, a.stop)] (i.neighbours va a.stop).1 (i.neighbours va a.stop).2
          MAP_END).pages := by
  have hnone := hfit.get_eq_none h
  refine tables_of_taken [(va, a.stop)] h hfit.lt hfit.free (pairwise_singleton _ _)
    (by simpa using hfit.lt) (by simp) fun p => ?_
  rw [mem_append, mem_singleton, mem_ranges, mem_ranges]
  constructor
  · rintro ⟨x, hs, hp⟩
    rcases get_insert_eq_some.mp hs with ⟨h1, rfl⟩ | ⟨-, hs⟩
    · exact .inl (Prod.ext h1 hp.symm)
    · exact .inr ⟨x, hs, hp⟩
  · rintro (rfl | ⟨x, hs, hp⟩)
    · exact ⟨a, get_insert_eq_some.mpr (.inl ⟨rfl, rfl⟩), rfl⟩
    · refine ⟨x, get_insert_eq_some.mpr (.inr ⟨?_, hs⟩), hp⟩
      intro hpva
      rw [hpva, hnone] at hs
      cases hs

end

/-! ### Zero pages and protections -/

theorem Inv.insertZero {page : ℕ} (h : i.Inv Charges.ZERO_PAGE)
    (hnone : i.zero.get page = none) (hs : i.areas.get s = some a) (hsp : s ≤ page)
    (hpa : page < a.stop) (hb : a.backing = .zero) :
    ({ i with zero := i.zero.insert page () } : Inner).Inv 0 := by
  refine ⟨⟨h.sound.layout, fun q hq => ?_⟩, h.billed.tables, ?_, h.billed.faults⟩
  · by_cases hqp : q = page
    · subst hqp
      exact ⟨s, a, hs, hsp, hpa, hb⟩
    · refine h.sound.zero q ?_
      rw [← hq]
      simp [get_insert, hqp]
  · refine h.billed.charged.trans ?_
    simp only [cost, size_insert_of_none hnone, add_mul]
    omega

theorem Inv.dropZero (h : i.Inv 0) (va stop : ℕ) : ((i.dropZero va stop).settle).Inv 0 := by
  refine ⟨.of_eq (i := i.dropZero va stop) ⟨h.sound.layout, fun page hpage => ?_⟩ (by simp)
    (by simp), settle_billed h.billed.tables ?_ h.billed.faults⟩
  · refine h.sound.zero page ?_
    obtain ⟨u, hu⟩ := Option.isSome_iff_exists.mp hpage
    exact Option.isSome_iff_exists.mpr ⟨u, (get_eraseBetween_eq_some.mp hu).1⟩
  show _ ≤ i.charged
  rw [h.billed.charged]
  have := Nat.mul_le_mul_right Charges.ZERO_PAGE (size_eraseBetween_le i.zero va stop)
  simp only [cost, Inner.dropZero]
  omega

theorem Inv.settle (h : i.Inv extra) : i.settle.Inv 0 :=
  ⟨h.sound.of_eq (by simp) (by simp),
    settle_billed h.billed.tables (h.billed.charged ▸ Nat.le_add_right _ _) h.billed.faults⟩

/-- Every area listed gets the protection, the others keep theirs. -/
theorem get_foldl_prot (prot : Prot) : ∀ (l : List (ℕ × Area)) (areas : OrdMap ℕ Area) (k : ℕ),
    (l.foldl (fun areas e => areas.modify e.1 fun a => { a with prot }) areas).get k =
      (areas.get k).map fun a => if k ∈ l.map Prod.fst then { a with prot } else a
  | [], areas, k => by simp
  | e :: l, areas, k => by
    rw [foldl_cons, get_foldl_prot prot l, get_modify]
    by_cases hk : k = e.1
    · rw [if_pos hk, Option.map_map]
      refine congrArg (fun f => (areas.get k).map f) (funext fun a => ?_)
      simp [hk]
    · rw [if_neg hk]
      simp only [map_cons, mem_cons, hk, false_or]

theorem size_foldl_prot (prot : Prot) : ∀ (l : List (ℕ × Area)) (areas : OrdMap ℕ Area),
    (l.foldl (fun areas e => areas.modify e.1 fun a => { a with prot }) areas).size = areas.size
  | [], areas => rfl
  | e :: l, areas => by rw [foldl_cons, size_foldl_prot prot l, size_modify]

theorem get_reprotect {k : ℕ} {x : Area} :
    (Space.reprotect prot va stop i).areas.get k = some x ↔
      ∃ a, i.areas.get k = some a ∧ x = if va ≤ k ∧ k < stop then { a with prot } else a := by
  unfold Space.reprotect
  simp only
  rw [get_foldl_prot]
  have hmem : ∀ a, i.areas.get k = some a →
      (k ∈ (i.areas.between va stop).map Prod.fst ↔ va ≤ k ∧ k < stop) := by
    intro a ha
    rw [mem_map]
    constructor
    · rintro ⟨⟨k', y⟩, he, rfl⟩
      exact (mem_between.mp he).2
    · intro hin
      exact ⟨(k, a), mem_between.mpr ⟨ha, hin⟩, rfl⟩
  rw [Option.map_eq_some_iff]
  refine exists_congr fun a => and_congr_right fun ha => ?_
  rw [if_congr (hmem a ha) rfl rfl, eq_comm]

/-- What the protection asks of the areas it is given to. -/
def Allows (prot : Prot) (a : Area) : Prop :=
  ¬ (Prot.has prot Prot.WRITE = true ∧ Prot.has prot Prot.EXECUTE = true) ∧
    (Prot.has prot Prot.WRITE = true → a.backing.writable = true)

theorem Inv.reprotect (h : i.Inv 0)
    (hallow : ∀ s a, i.areas.get s = some a → va ≤ s → s < stop → Allows prot a) :
    (Space.reprotect prot va stop i).Inv 0 := by
  have hl := h.sound.layout
  refine ⟨⟨⟨fun s x hs => ?_, fun s x s' x' hs hs' hlt => ?_, fun s x hs => ?_⟩,
    fun page hpage => ?_⟩, ?_, ?_, h.billed.faults⟩
  · obtain ⟨a, ha, rfl⟩ := get_reprotect.mp hs
    split <;> exact hl.bounds s a ha
  · obtain ⟨a, ha, rfl⟩ := get_reprotect.mp hs
    obtain ⟨a', ha', rfl⟩ := get_reprotect.mp hs'
    split <;> exact hl.apart s a s' a' ha ha' hlt
  · obtain ⟨a, ha, rfl⟩ := get_reprotect.mp hs
    split
    case isTrue hin => exact hallow s a ha hin.1 hin.2
    case isFalse => exact hl.allowed s a ha
  · obtain ⟨s, a, ha, hsp, hpa, hb⟩ := h.sound.zero page hpage
    refine ⟨s, _, get_reprotect.mpr ⟨a, ha, rfl⟩, hsp, ?_⟩
    split <;> exact ⟨hpa, hb⟩
  · refine h.billed.tables.trans (tableCount_congr MAP_END fun p => ?_)
    rw [mem_ranges, mem_ranges]
    constructor
    · rintro ⟨a, ha, hp⟩
      refine ⟨_, get_reprotect.mpr ⟨a, ha, rfl⟩, ?_⟩
      split <;> exact hp
    · rintro ⟨x, hx, hp⟩
      obtain ⟨a, ha, rfl⟩ := get_reprotect.mp hx
      refine ⟨a, ha, ?_⟩
      split at hp <;> exact hp
  · refine h.billed.charged.trans ?_
    simp only [Space.reprotect, cost]
    rw [size_foldl_prot]

/-! ### Whole calls -/

theorem PlaneKept.refl (i : Inner) : i.PlaneKept i := fun _ _ h _ => h

theorem PlaneKept.trans {i₁ i₂ i₃ : Inner} (h : i₁.PlaneKept i₂) (h' : i₂.PlaneKept i₃) :
    i₁.PlaneKept i₃ := fun s a hs hk => h' s a (h s a hs hk) hk

/-- **Unmapping a range that touches nothing of the data plane.** -/
theorem Inv.unmap (h : i.Inv (i.splitBytes va stop)) (hva : va % PAGE_SIZE = 0)
    (hstop : stop % PAGE_SIZE = 0) (hlt : va < stop) (hplane : i.touchesPlane va stop = false) :
    (((i.split va).split stop).cutOut va stop).Inv 0 ∧
      i.PlaneKept (((i.split va).split stop).cutOut va stop) := by
  obtain ⟨hinv, h1, h2⟩ := h.split_both hva hstop hlt
  refine ⟨hinv.cutOut hlt h1 h2, fun s a hs hk => ?_⟩
  have hl := h.sound.layout
  have hbound := (hl.bounds s a hs).2.2.1
  have hout : ¬ (s < stop ∧ va < a.stop) := fun hin =>
    touchesPlane_eq_false hl hplane hs hin.1 hin.2 hk
  refine get_cutOut (get_split_both hl hva hs ?_ ?_) ?_
  · exact fun hc => hout ⟨hc.1.trans hlt, hc.2⟩
  · exact fun hc => hout ⟨hc.1, hlt.trans hc.2⟩
  · exact fun hc => hout ⟨hc.2, by omega⟩

theorem checkProt_eq_ok {b : Backing} (h : checkProt prot b = .ok ()) :
    ¬ (Prot.has prot Prot.WRITE = true ∧ Prot.has prot Prot.EXECUTE = true) ∧
      (Prot.has prot Prot.WRITE = true → b.writable = true) := by
  unfold checkProt at h
  split at h
  · cases h
  split at h
  · cases h
  split at h
  · cases h
  case isFalse hwx hw =>
    simp only [Bool.and_eq_true, Bool.not_eq_true', not_and, Bool.not_eq_false] at hwx hw
    exact ⟨fun hc => hwx hc.1 hc.2, hw⟩

/-- **Protecting a range whose areas allow it.** -/
theorem Inv.protect {only : Option AreaKind} (h : i.Inv (i.splitBytes va stop))
    (hva : va % PAGE_SIZE = 0) (hstop : stop % PAGE_SIZE = 0) (hlt : va < stop)
    (hcheck : ∀ s a, i.areas.get s = some a → s < stop → va < a.stop →
      Space.protectable prot only a = .ok ()) :
    (Space.reprotect prot va stop ((i.split va).split stop).settle).Inv 0 ∧
      i.PlaneKept (Space.reprotect prot va stop ((i.split va).split stop).settle) := by
  obtain ⟨hinv, -, -⟩ := h.split_both hva hstop hlt
  have hl := h.sound.layout
  have hprot : ∀ s a, i.areas.get s = some a → s < stop → va < a.stop →
      a.kind ≠ .plane ∧ checkProt prot a.backing = .ok () := by
    intro s a hs h1 h2
    have := hcheck s a hs h1 h2
    unfold Space.protectable at this
    split at this
    · cases this
    case isFalse hno =>
      simp only [Bool.or_eq_true, beq_iff_eq, not_or] at hno
      exact ⟨hno.2, this⟩
  constructor
  · refine hinv.settle.reprotect fun s x hs hge hlt' => ?_
    rw [areas_settle] at hs
    -- the area is a part of one that was checked
    have hx := (hinv.sound.layout.bounds s x hs).2.2.1
    obtain ⟨s₁, a₁, hs₁, hle₁, hstop₁, -, -, n₁, hb₁⟩ := split_origin (split_layout hl hva) stop hs
    obtain ⟨s₀, a₀, hs₀, hle₀, hstop₀, -, -, n₀, hb₀⟩ := split_origin hl va hs₁
    obtain ⟨hwx, hw⟩ := checkProt_eq_ok (hprot s₀ a₀ hs₀ (by omega) (by omega)).2
    refine ⟨hwx, fun h => ?_⟩
    rw [hb₁, writable_advanced, hb₀, writable_advanced]
    exact hw h
  · intro s a hs hk
    have hbound := (hl.bounds s a hs).2.2.1
    have hout : ¬ (s < stop ∧ va < a.stop) := fun hin => (hprot s a hs hin.1 hin.2).1 hk
    refine get_reprotect.mpr ⟨a, ?_, ?_⟩
    · rw [areas_settle]
      exact get_split_both hl hva hs (fun hc => hout ⟨hc.1.trans hlt, hc.2⟩)
        (fun hc => hout ⟨hc.1, hlt.trans hc.2⟩)
    · rw [if_neg fun hc => hout ⟨hc.2, by omega⟩]

theorem Inv.add (h : i.Inv 0) (hfit : i.Fits va a) {added : Tables}
    (hadded : added = Kernel.tables [(va, a.stop)] (i.neighbours va a.stop).1
      (i.neighbours va a.stop).2 MAP_END) :
    ({ i with
        areas := i.areas.insert va a
        tables := i.tables + added.pages
        charged := i.charged + (Charges.AREA + added.bytes) } : Inner).Inv 0 := by
  have hl := h.sound.layout
  have hnone := hfit.get_eq_none hl
  refine ⟨⟨hfit.layout hl, fun page hpage => ?_⟩, ?_, ?_, h.billed.faults⟩
  · obtain ⟨s, x, hs, rest⟩ := h.sound.zero page hpage
    refine ⟨s, x, get_insert_eq_some.mpr (.inr ⟨?_, hs⟩), rest⟩
    rintro rfl
    rw [hnone] at hs
    cases hs
  · show i.tables + added.pages = _
    rw [h.billed.tables, hadded]
    exact (hfit.tables hl).symm
  · simp only [cost, h.billed.charged, size_insert_of_none hnone, add_mul, Tables.bytes]
    omega

/-- The page table refused: the tables are freed and the charge is given back. -/
theorem Inv.addFailed (h : i.Inv 0) (added : Tables) : ((({ i with
        tables := i.tables + added.pages
        charged := i.charged + (Charges.AREA + added.bytes) } : Inner).freeTables
      added.pages).settle).Inv 0 := by
  refine ⟨h.sound.of_eq (by simp) (by simp), release_billed ?_ ?_ h.billed.faults⟩
  · exact congrArg (· + added.pages) h.billed.tables
  · simp only [cost, h.billed.charged, add_mul, Tables.bytes]
    omega

end Inner

end Moruna.Kernel
