/-
Moruna/Graph/Numbers.lean

The numbers of a run: unique on every queue, and invertible.

`Carries` says what a queue carries by following the run: a source's queue carries what it
reads, a stage's output the number `outSeq` gives each morsel of its inputs.  A morsel is named
by the ports it came through and the number its source read it as.  `Route` is the same walk on
the maps, which is what `arrivals` computes; the two meet in `carries_iff`.

* `numbers_invertible` — **all of it, for every accepted topology**.
-/
import Mathlib.Order.Bounds.Basic
import Moruna.Graph.Wired

namespace Moruna.Graph

open List

namespace Topology

/-! ### Routes and what they carry -/

/-- A route from source `i` to queue `q`, named by the ports it takes, last one first, with the
map of the numbers along it. -/
inductive Route (t : Topology) : ℕ → List ℕ → ℕ → Affine → Prop
  | source {q i : ℕ} {c : Consumer} : t.link q = some ⟨.source i, c⟩ → Route t q [] i .IDENTITY
  | stage {q s p q' i : ℕ} {c : Consumer} {path : List ℕ} {m m' : Affine} :
      t.link q = some ⟨.kernel s, c⟩ → (t.taken s)[p]? = some q' → Route t q' path i m →
      m.followedBy (t.numberingPorts s) p = some m' → Route t q (p :: path) i m'

/-- Queue `q` carries, as number `seq`, what came along `path` from morsel `n` of source `i`. -/
inductive Carries (t : Topology) (count : ℕ → ℕ) : ℕ → List ℕ → ℕ → ℕ → ℕ → Prop
  | source {q i n : ℕ} {c : Consumer} : t.link q = some ⟨.source i, c⟩ → n < count i →
      Carries t count q [] i n n
  | stage {q s p q' i n seq : ℕ} {c : Consumer} {path : List ℕ} :
      t.link q = some ⟨.kernel s, c⟩ → (t.taken s)[p]? = some q' →
      Carries t count q' path i n seq → Carries t count q (p :: path) i n (t.outSeq s p seq)

/-- The numbers of the run are machine words: no image along a route passes the width. -/
def Fits (t : Topology) (count : ℕ → ℕ) : Prop :=
  ∀ q path i m, t.Route q path i m → ∀ n < count i, n * m.a + m.b < 2 ^ 64

variable {t : Topology} {count : ℕ → ℕ}
variable {q i s p n : ℕ} {path : List ℕ} {m : Affine} {c : Consumer} {α : Type*}
  {carried : List (List (ℕ × Affine))}

theorem Route.a_pos (h : t.Route q path i m) : 0 < m.a := by
  induction h with
  | source => exact one_pos
  | stage _ _ _ hm ih =>
    rcases Affine.followedBy_eq_some hm with ⟨-, rfl⟩ | ⟨hp, rfl⟩
    · exact ih
    · exact mul_pos ih (by omega)

theorem getElem?_inputs_of_taken (h : (t.taken s)[p]? = some q) : (t.inputs s)[p]? = some q := by
  unfold taken at h
  split at h
  · rw [getElem?_take] at h
    split at h
    · exact h
    · cases h
  · exact h

/-- There are no more taken ports than the numbering distinguishes. -/
theorem lt_numberingPorts (h : (t.taken s)[p]? = some q) : p < t.numberingPorts s := by
  have hlen := lt_of_getElem? h
  unfold taken numberingPorts at *
  split at hlen
  · rename_i ha
    rw [if_pos ha]
    simp only [List.length_take] at hlen
    omega
  · rename_i ha
    rwa [if_neg ha]

/-- The producer of a stage's input is a source or a lower stage. -/
theorem Wired.lower (hw : t.Wired) (h : (t.inputs s)[p]? = some q) :
    ∃ link, t.link q = some link ∧ ∀ k, link.source = .kernel k → k < s := by
  obtain ⟨producer, hl⟩ := (hw.input_iff s p q).mp h
  exact ⟨_, hl, (hw.consumer_ok q _ hl).2⟩

variable {link : Link} {m' : Affine} {x : α} {outs : List ℕ} {q' seq : ℕ}

theorem Wired.stage_ok (hw : t.Wired) (hl : t.link q = some link)
    (hs : link.source = .kernel s) : 1 ≤ s ∧ s ≤ t.stages := by
  have h := hw.producer_ok q link hl
  rwa [hs] at h

/-- Queue after queue, each after those its stage takes: as many turns as stages are enough. -/
theorem Wired.induct (hw : t.Wired) {P : ℕ → ℕ → Prop}
    (source : ∀ k q i c, t.link q = some ⟨.source i, c⟩ → P (k + 1) q)
    (kernel : ∀ k q s c, t.link q = some ⟨.kernel s, c⟩ → 1 ≤ s → s ≤ t.stages →
      (∀ p q' : ℕ, (t.inputs s)[p]? = some q' → P k q') → P (k + 1) q)
    (hl : t.link q = some link) : P (t.stages + 1) q := by
  have hturns : ∀ k q link, t.link q = some link → (∀ s, link.source = .kernel s → s ≤ k) →
      P (k + 1) q := by
    intro k
    induction k with
    | zero =>
      rintro q ⟨producer, c⟩ hl hlow
      cases producer with
      | source i => exact source 0 q i c hl
      | kernel s => exact absurd (hlow s rfl) (by have := hw.stage_ok hl rfl; omega)
    | succ k ih =>
      rintro q ⟨producer, c⟩ hl hlow
      cases producer with
      | source i => exact source (k + 1) q i c hl
      | kernel s =>
        obtain ⟨h₁, h₂⟩ := hw.stage_ok hl rfl
        refine kernel (k + 1) q s c hl h₁ h₂ fun p q' hp => ?_
        obtain ⟨link', hl', hlow'⟩ := hw.lower hp
        exact ih q' link' hl' fun s' hs' =>
          Nat.lt_succ_iff.mp ((hlow' s' hs').trans_le (hlow s rfl))
  exact hturns _ q link hl fun s hs => (hw.stage_ok hl hs).2

theorem exists_route_source {j : ℕ} (hl : t.link q = some ⟨.source i, c⟩) :
    (∃ path, t.Route q path j m) ↔ j = i ∧ m = .IDENTITY := by
  constructor
  · rintro ⟨path, h⟩
    cases h with
    | source hl' =>
      rw [hl] at hl'
      cases hl'
      exact ⟨rfl, rfl⟩
    | stage hl' =>
      rw [hl] at hl'
      cases hl'
  · rintro ⟨rfl, rfl⟩
    exact ⟨[], .source hl⟩

theorem exists_route_kernel (hl : t.link q = some ⟨.kernel s, c⟩) :
    (∃ path, t.Route q path i m') ↔ ∃ p q' m, (t.taken s)[p]? = some q' ∧
      (∃ path, t.Route q' path i m) ∧ m.followedBy (t.numberingPorts s) p = some m' := by
  constructor
  · rintro ⟨path, h⟩
    cases h with
    | source hl' =>
      rw [hl] at hl'
      cases hl'
    | stage hl' hp hr hm =>
      rw [hl] at hl'
      cases hl'
      exact ⟨_, _, _, hp, ⟨_, hr⟩, hm⟩
  · rintro ⟨p, q', m, hp, ⟨path, hr⟩, hm⟩
    exact ⟨p :: path, .stage hl hp hr hm⟩

/-! ### What `arrivals` computes -/

theorem mem_dedup [DecidableEq α] {l : List α} : x ∈ dedup l ↔ x ∈ l := by
  fun_induction dedup l with
  | case1 => rfl
  | case2 => rfl
  | case3 y rest ih =>
    rw [ih]
    simp
  | case4 y z rest hne ih => rw [mem_cons, ih, mem_cons (a := x) (b := y)]

theorem length_foldl_modify (outs : List ℕ) (x : α) (carried : List (List α)) :
    (outs.foldl (fun c q => c.modify q (· ++ [x])) carried).length = carried.length := by
  induction outs generalizing carried with
  | nil => rfl
  | cons q outs ih => rw [foldl_cons, ih, length_modify]

theorem mem_row_foldl_modify {carried : List (List α)}
    (hlt : ∀ q ∈ outs, q < carried.length) (y : α) (j : ℕ) :
    y ∈ row (outs.foldl (fun c q => c.modify q (· ++ [x])) carried) j ↔
      y ∈ row carried j ∨ (j ∈ outs ∧ y = x) := by
  induction outs generalizing carried with
  | nil => simp
  | cons q outs ih =>
    rw [foldl_cons, ih, mem_row_modify (hlt q mem_cons_self), mem_cons]
    · tauto
    · intro q' hq'
      rw [length_modify]
      exact hlt q' (mem_cons_of_mem _ hq')

theorem row_foldl_set {x : List α} {carried : List (List α)}
    (hlt : ∀ q ∈ outs, q < carried.length) (j : ℕ) :
    row (outs.foldl (fun c q => c.set q x) carried) j = if j ∈ outs then x else row carried j := by
  induction outs generalizing carried with
  | nil => simp
  | cons q outs ih =>
    rw [foldl_cons, ih, row_set (hlt q mem_cons_self)]
    · rcases eq_or_ne j q with rfl | hne
      · simp
      · simp [hne]
    · intro q' hq'
      rw [length_set]
      exact hlt q' (mem_cons_of_mem _ hq')

theorem length_foldl_set (outs : List ℕ) (x : List α) (carried : List (List α)) :
    (outs.foldl (fun c q => c.set q x) carried).length = carried.length := by
  induction outs generalizing carried with
  | nil => rfl
  | cons q outs ih => rw [foldl_cons, ih, length_set]

theorem lt_length_of_link (h : t.link q = some link) : q < t.links.length :=
  lt_of_getElem? h

/-- The sources' queues carry what their source reads, as it numbers it. -/
theorem carriedBySources_spec (hw : t.Wired) : t.carriedBySources.length = t.links.length ∧
    ∀ q y, y ∈ row t.carriedBySources q ↔
      ∃ i c, t.link q = some ⟨.source i, c⟩ ∧ y = (i, .IDENTITY) := by
  have hfold : ∀ (entries : List (List ℕ × ℕ)) (carried : List (List (ℕ × Affine))),
      (∀ e ∈ entries, ∀ q ∈ e.1, q < carried.length) →
      (entries.foldl (fun carried entry => entry.1.foldl
        (fun carried q => carried.modify q (· ++ [(entry.2, Affine.IDENTITY)])) carried)
        carried).length = carried.length ∧
      ∀ q y, y ∈ row (entries.foldl (fun carried entry => entry.1.foldl
        (fun carried q => carried.modify q (· ++ [(entry.2, Affine.IDENTITY)])) carried)
        carried) q ↔ y ∈ row carried q ∨ ∃ e ∈ entries, q ∈ e.1 ∧ y = (e.2, .IDENTITY) := by
    intro entries
    induction entries with
    | nil => intro carried _; exact ⟨rfl, by simp⟩
    | cons e entries ih =>
      intro carried hlt
      rw [foldl_cons]
      have hlen := length_foldl_modify e.1 (e.2, Affine.IDENTITY) carried
      obtain ⟨ih₁, ih₂⟩ := ih _ fun e' he' q hq => by
        rw [hlen]
        exact hlt e' (mem_cons_of_mem _ he') q hq
      refine ⟨ih₁.trans hlen, fun q y => ?_⟩
      rw [ih₂, mem_row_foldl_modify (hlt e mem_cons_self), or_assoc]
      simp only [mem_cons, or_and_right, exists_or, exists_eq_left]
  have hsource : ∀ e ∈ t.sourceOutputs.zipIdx, ∀ q ∈ e.1, ∃ c, t.link q = some ⟨.source e.2, c⟩ :=
    fun e he q hq =>
      (hw.source_iff e.2 q).mp (mem_row.mpr ⟨e.1, mk_mem_zipIdx_iff_getElem?.mp he, hq⟩)
  obtain ⟨hlen, hiff⟩ := hfold t.sourceOutputs.zipIdx (List.replicate t.links.length [])
    fun e he q hq => by
      obtain ⟨c, hl⟩ := hsource e he q hq
      rw [length_replicate]
      exact lt_length_of_link hl
  refine ⟨hlen.trans length_replicate, fun q y => (hiff q y).trans ?_⟩
  constructor
  · rintro (h | ⟨e, he, hq, rfl⟩)
    · simp [mem_row, getElem?_replicate] at h
    · obtain ⟨c, hl⟩ := hsource e he q hq
      exact ⟨e.2, c, hl, rfl⟩
  · rintro ⟨i, c, hl, rfl⟩
    obtain ⟨outs, ho, hq⟩ := mem_row.mp ((hw.source_iff i q).mpr ⟨c, hl⟩)
    exact .inr ⟨(outs, i), mk_mem_zipIdx_iff_getElem?.mpr ho, hq, rfl⟩

theorem mapArrivals_eq_ok {ports port : ℕ} {arrived out : List (ℕ × Affine)}
    (h : mapArrivals ports port arrived = .ok out) :
    (∀ i m, (i, m) ∈ arrived → ∃ m', m.followedBy ports port = some m') ∧
    ∀ i m', (i, m') ∈ out ↔ ∃ m, (i, m) ∈ arrived ∧ m.followedBy ports port = some m' := by
  have hall : List.Forall₂ (fun x y => y.1 = x.1 ∧ x.2.followedBy ports port = some y.2)
      arrived out := by
    refine (mapM_eq_ok.mp h).imp ?_
    rintro ⟨i, m⟩ ⟨j, m'⟩ hxy
    simp only at hxy
    split at hxy
    · rename_i next hn
      cases hxy
      exact ⟨rfl, hn⟩
    · cases hxy
  clear h
  induction hall with
  | nil => simp
  | @cons x y arrived out hxy _ ih =>
    obtain ⟨hsource, hmap⟩ := hxy
    obtain ⟨ih₁, ih₂⟩ := ih
    constructor
    · intro i m him
      rcases mem_cons.mp him with rfl | him
      · exact ⟨_, hmap⟩
      · exact ih₁ i m him
    · intro i m'
      rw [mem_cons, ih₂]
      constructor
      · rintro (rfl | ⟨m, hm, hf⟩)
        · exact ⟨x.2, mem_cons.mpr (.inl (Prod.ext hsource rfl)), hmap⟩
        · exact ⟨m, mem_cons_of_mem _ hm, hf⟩
      rintro ⟨m, hm, hf⟩
      rcases mem_cons.mp hm with rfl | hm
      · refine .inl (Prod.ext hsource.symm ?_)
        exact Option.some.inj (hf.symm.trans hmap)
      · exact .inr ⟨m, hm, hf⟩

/-- What one stage of the walk does: its outputs carry the mapped arrivals of the ports taken,
and every map of an arrival there exists. -/
theorem carryStage_eq_ok (hw : t.Wired) {carried' : List (List (ℕ × Affine))}
    (hlen : carried.length = t.links.length) (h : t.carryStage carried s = .ok carried') :
    carried'.length = carried.length ∧
    (∀ p q i m, (t.taken s)[p]? = some q → (i, m) ∈ row carried q →
      ∃ m', m.followedBy (t.numberingPorts s) p = some m') ∧
    (∀ q, q ∉ t.outputs s → row carried' q = row carried q) ∧
    ∀ q ∈ t.outputs s, ∀ i m', (i, m') ∈ row carried' q ↔
      ∃ p q' m, (t.taken s)[p]? = some q' ∧ (i, m) ∈ row carried q' ∧
        m.followedBy (t.numberingPorts s) p = some m' := by
  obtain ⟨out, hout, h⟩ := seq_eq_ok.mp h
  obtain rfl := Except.ok.inj h
  obtain ⟨lists, hlists, hsize⟩ := seq_eq_ok.mp hout
  obtain ⟨hcount, hget⟩ := mapM_zipIdx_eq_ok hlists
  have hout : out = dedup (lists.flatten.insertionSort fun x y => arrivalLE x y) := by
    simp only at hsize
    split at hsize
    · cases hsize
    · exact (Except.ok.inj hsize).symm
  have hlt : ∀ q ∈ t.outputs s, q < carried.length := by
    intro q hq
    obtain ⟨c, hl⟩ := (hw.output_iff s q).mp hq
    rw [hlen]
    exact lt_length_of_link hl
  have hmem : ∀ i m', (i, m') ∈ out ↔ ∃ p q' m, (t.taken s)[p]? = some q' ∧
      (i, m) ∈ row carried q' ∧ m.followedBy (t.numberingPorts s) p = some m' := by
    intro i m'
    rw [hout, mem_dedup, mem_insertionSort, mem_flatten]
    constructor
    · rintro ⟨l, hl, him⟩
      obtain ⟨p, hp, rfl⟩ := getElem_of_mem hl
      have hp' : p < (t.taken s).length := by omega
      obtain ⟨y, hy, hmap⟩ := hget p _ (getElem?_eq_getElem hp')
      obtain rfl : lists[p] = y := by
        rw [getElem?_eq_getElem hp] at hy
        exact Option.some.inj hy
      obtain ⟨m, hm, hf⟩ := ((mapArrivals_eq_ok hmap).2 i m').mp him
      exact ⟨p, _, m, getElem?_eq_getElem hp', hm, hf⟩
    · rintro ⟨p, q', m, hp, hm, hf⟩
      obtain ⟨y, hy, hmap⟩ := hget p q' hp
      exact ⟨y, mem_of_getElem? hy, ((mapArrivals_eq_ok hmap).2 i m').mpr ⟨m, hm, hf⟩⟩
  refine ⟨length_foldl_set _ _ _, ?_, ?_, ?_⟩
  · intro p q i m hp him
    obtain ⟨y, -, hmap⟩ := hget p q hp
    exact (mapArrivals_eq_ok hmap).1 i m him
  · intro q hq
    rw [row_foldl_set hlt, if_neg hq]
  · intro q hq i m'
    rw [row_foldl_set hlt, if_pos hq]
    exact hmem i m'

/-- **`arrivals` lists exactly the maps of the routes**, and no route's map runs past the width
of a number. -/
theorem arrivals_spec (hw : t.Wired) (h : t.arrivals = .ok carried) :
    (∀ q link, t.link q = some link → ∀ i m, (i, m) ∈ row carried q ↔ ∃ path, t.Route q path i m) ∧
    ∀ s p q i m path, (t.taken s)[p]? = some q → t.Route q path i m →
      ∃ m', m.followedBy (t.numberingPorts s) p = some m' := by
  -- after `k` stages the queues they and the sources give to are done
  have hwalk : ∀ k carried, (List.range k).foldlM
      (fun carried i => t.carryStage carried (i + 1)) t.carriedBySources = .ok carried →
      carried.length = t.links.length ∧
      (∀ q link, t.link q = some link → (∀ s, link.source = .kernel s → s ≤ k) →
        ∀ i m, (i, m) ∈ row carried q ↔ ∃ path, t.Route q path i m) ∧
      ∀ s p q i m path, 1 ≤ s → s ≤ k → (t.taken s)[p]? = some q → t.Route q path i m →
        ∃ m', m.followedBy (t.numberingPorts s) p = some m' := by
    intro k
    induction k with
    | zero =>
      intro carried h
      obtain rfl := Except.ok.inj h
      obtain ⟨hlen, hiff⟩ := carriedBySources_spec hw
      refine ⟨hlen, fun q link hl hlow i m => ?_, fun s p q i m path h₁ h₂ => by omega⟩
      obtain ⟨producer, c⟩ := link
      cases producer with
      | source j =>
        rw [hiff, exists_route_source hl]
        constructor
        · rintro ⟨i', c', hl', heq⟩
          rw [hl] at hl'
          cases hl'
          cases heq
          exact ⟨rfl, rfl⟩
        · rintro ⟨rfl, rfl⟩
          exact ⟨_, c, hl, rfl⟩
      | kernel s =>
        have h₁ := hlow s rfl
        have h₂ := hw.stage_ok hl rfl
        omega
    | succ k ih =>
      intro carried' h
      rw [range_succ, foldlM_append, seq_eq_ok] at h
      obtain ⟨carried, hcarried, h⟩ := h
      obtain ⟨_, hstage, hnil⟩ := seq_eq_ok.mp h
      obtain rfl := Except.ok.inj hnil
      obtain ⟨hlen, hiff, hmaps⟩ := ih carried hcarried
      obtain ⟨hlen', hmaps', hkeep, hout⟩ := carryStage_eq_ok hw hlen hstage
      -- the inputs of stage `k + 1` come from lower stages
      have hinput : ∀ p q : ℕ, (t.taken (k + 1))[p]? = some q → ∀ i m,
          (i, m) ∈ row carried q ↔ ∃ path, t.Route q path i m := by
        intro p q hp
        obtain ⟨link, hl, hlow⟩ := hw.lower (getElem?_inputs_of_taken hp)
        exact hiff q link hl fun s hs => Nat.lt_succ_iff.mp (hlow s hs)
      refine ⟨hlen'.trans hlen, fun q link hl hlow i m => ?_, fun s p q i m path h₁ h₂ hp hr => ?_⟩
      · by_cases hq : q ∈ t.outputs (k + 1)
        · obtain ⟨c, hl'⟩ := (hw.output_iff (k + 1) q).mp hq
          rw [hout q hq, exists_route_kernel hl']
          refine exists_congr fun p => exists_congr fun q' => exists_congr fun m₀ => ?_
          refine and_congr_right fun hp => and_congr_left fun _ => ?_
          exact hinput p q' hp i m₀
        · rw [hkeep q hq]
          refine hiff q link hl (fun s hs => ?_) i m
          have hle := hlow s hs
          have hne : s ≠ k + 1 := by
            rintro rfl
            obtain ⟨producer, c⟩ := link
            cases hs
            exact hq ((hw.output_iff (k + 1) q).mpr ⟨c, hl⟩)
          omega
      · rcases Nat.lt_succ_iff_lt_or_eq.mp (Nat.lt_succ_of_le h₂) with hlt | rfl
        · exact hmaps s p q i m path h₁ (by omega) hp hr
        · exact hmaps' p q i m hp ((hinput p q hp i m).mpr ⟨path, hr⟩)
  obtain ⟨-, hiff, hmaps⟩ := hwalk t.stages carried h
  refine ⟨fun q link hl => hiff q link hl fun s hs => (hw.stage_ok hl hs).2, ?_⟩
  intro s p q i m path hp hr
  obtain ⟨producer, hl⟩ := (hw.input_iff s p q).mp (getElem?_inputs_of_taken hp)
  have hs : 1 ≤ s ∧ s ≤ t.stages := (hw.consumer_ok q _ hl).1
  exact hmaps s p q i m path hs.1 hs.2 hp hr

/-! ### Numbers along a route -/

theorem outSeq_eq {m : ℕ} (hp : p < t.numberingPorts s)
    (hfit : m * t.numberingPorts s + p < 2 ^ 64) : t.outSeq s p m = m * t.numberingPorts s + p := by
  unfold outSeq
  simp only
  split
  · have h1 : t.numberingPorts s = 1 := by omega
    rw [h1] at hp ⊢
    omega
  · omega

/-- The image along a route after one more stage. -/
theorem followedBy_apply (hp : p < t.numberingPorts s)
    (h : m.followedBy (t.numberingPorts s) p = some m') :
    n * m'.a + m'.b = (n * m.a + m.b) * t.numberingPorts s + p := by
  rcases Affine.followedBy_eq_some h with ⟨hle, rfl⟩ | ⟨-, rfl⟩
  · have h1 : t.numberingPorts s = 1 := by omega
    rw [h1] at hp ⊢
    omega
  · ring

variable (hw : t.Wired) (h : t.arrivals = .ok carried) (hfits : t.Fits count)

include hw h hfits

/-- **What a queue carries is what the maps of its routes say.** -/
theorem carries_iff : t.Carries count q path i n seq ↔
      ∃ m, t.Route q path i m ∧ n < count i ∧ seq = n * m.a + m.b := by
  obtain ⟨-, hmaps⟩ := arrivals_spec hw h
  constructor
  · intro hc
    induction hc with
    | source hl hn => exact ⟨_, .source hl, hn, by simp [Affine.IDENTITY]⟩
    | @stage q s p q' i n seq c path hl hp hc ih =>
      obtain ⟨m, hr, hn, rfl⟩ := ih
      obtain ⟨m', hm'⟩ := hmaps s p q' i m path hp hr
      have hlt := lt_numberingPorts hp
      refine ⟨m', .stage hl hp hr hm', hn, ?_⟩
      rw [followedBy_apply hlt hm']
      refine outSeq_eq hlt ?_
      rw [← followedBy_apply hlt hm']
      exact hfits q _ i m' (.stage hl hp hr hm') n hn
  · rintro ⟨m, hr, hn, rfl⟩
    induction hr with
    | source hl =>
      have : n * Affine.IDENTITY.a + Affine.IDENTITY.b = n := by simp [Affine.IDENTITY]
      rw [this]
      exact .source hl hn
    | @stage q s p q' i c path m m' hl hp hr hm' ih =>
      have hlt := lt_numberingPorts hp
      rw [followedBy_apply hlt hm', ← outSeq_eq hlt]
      · exact .stage hl hp (ih hn)
      · rw [← followedBy_apply hlt hm']
        exact hfits q _ i m' (.stage hl hp hr hm') n hn

omit hw h hfits in
theorem Carries.of_kernel (hl : t.link q = some ⟨.kernel s, c⟩)
    (h : t.Carries count q path i n seq) :
    ∃ p q' rest m, path = p :: rest ∧ (t.taken s)[p]? = some q' ∧
      t.Carries count q' rest i n m ∧ seq = t.outSeq s p m := by
  cases h with
  | source hl' =>
    rw [hl] at hl'
    cases hl'
  | stage hl' hp hc =>
    rw [hl] at hl'
    cases hl'
    exact ⟨_, _, _, _, rfl, hp, hc, rfl⟩

/-- Under `Fits` the number a stage gives to what it carries is exact. -/
theorem Carries.outSeq_eq
    {m : ℕ} (hl : t.link q = some ⟨.kernel s, c⟩) (hp : (t.taken s)[p]? = some q')
    (hc : t.Carries count q' path i n m) : t.outSeq s p m = m * t.numberingPorts s + p := by
  obtain ⟨m₀, hr, hn, rfl⟩ := (carries_iff hw h hfits).mp hc
  obtain ⟨m', hm'⟩ := (arrivals_spec hw h).2 s p q' i m₀ path hp hr
  have hlt := lt_numberingPorts hp
  refine Topology.outSeq_eq hlt ?_
  rw [← followedBy_apply hlt hm']
  exact hfits q _ i m' (.stage hl hp hr hm') n hn

/-- **Two morsels of one queue never have one number.** -/
theorem carries_unique {i' n' : ℕ} {path' : List ℕ} (hc : t.Carries count q path i n seq)
    (hc' : t.Carries count q path' i' n' seq) : path = path' ∧ i = i' ∧ n = n' := by
  induction hc generalizing path' i' n' with
  | source hl hn =>
    cases hc' with
    | source hl' =>
      rw [hl] at hl'
      cases hl'
      exact ⟨rfl, rfl, rfl⟩
    | stage hl' =>
      rw [hl] at hl'
      cases hl'
  | @stage q s p q' i n m c path hl hp hc ih =>
    obtain ⟨p', q'', rest, m', rfl, hp', hcr, heq⟩ := hc'.of_kernel hl
    rw [Carries.outSeq_eq hw h hfits hl hp hc, Carries.outSeq_eq hw h hfits hl hp' hcr] at heq
    have hlt := lt_numberingPorts hp
    have hlt' := lt_numberingPorts hp'
    -- the port is the remainder, and the input's number the quotient
    have hpp : p = p' := by
      have := congrArg (· % t.numberingPorts s) heq
      simpa [Nat.mul_add_mod', Nat.mod_eq_of_lt hlt, Nat.mod_eq_of_lt hlt'] using this
    subst hpp
    obtain rfl : q' = q'' := Option.some.inj (hp.symm.trans hp')
    have hmm : m = m' := Nat.eq_of_mul_eq_mul_right (by omega) (Nat.add_right_cancel heq)
    subst hmm
    obtain ⟨rfl, rfl, rfl⟩ := ih hcr
    exact ⟨rfl, rfl, rfl⟩

/-! ### Origins -/

/-- **`parent` undoes the numbering of one stage.** -/
theorem parent_outSeq
    {m : ℕ} (hl : t.link q = some ⟨.kernel s, c⟩) (hp : (t.taken s)[p]? = some q')
    (hc : t.Carries count q' path i n m) : t.parent q (t.outSeq s p m) = some (q', m) := by
  have hlt := lt_numberingPorts hp
  have hin := getElem?_inputs_of_taken hp
  rw [Carries.outSeq_eq hw h hfits hl hp hc]
  unfold parent
  simp only [hl]
  split
  · have h1 : t.numberingPorts s = 1 := by omega
    obtain rfl : p = 0 := by omega
    rw [head?_eq_getElem?, hin, h1]
    simp
  · have hdiv : (m * t.numberingPorts s + p) / t.numberingPorts s = m := by
      rw [Nat.add_comm, Nat.add_mul_div_right _ _ (by omega), Nat.div_eq_of_lt hlt, Nat.zero_add]
    rw [Nat.mul_add_mod', Nat.mod_eq_of_lt hlt, hin, hdiv]
    rfl

/-- **`root` finds the source morsel a number comes from.** -/
theorem Carries.root_eq (hc : t.Carries count q path i n seq) : t.root q seq = some (i, n) := by
  obtain ⟨link, hl⟩ : ∃ link, t.link q = some link := by
    cases hc with
    | source hl => exact ⟨_, hl⟩
    | stage hl => exact ⟨_, hl⟩
  refine hw.induct (P := fun fuel q => ∀ path i n seq, t.Carries count q path i n seq →
    t.rootWithin fuel q seq = some (i, n)) ?_ ?_ hl path i n seq hc
  · intro fuel q i c hl path i' n seq hc
    cases hc with
    | source hl' _ =>
      rw [hl] at hl'
      cases hl'
      simp [rootWithin, sourceOf, hl]
    | stage hl' => rw [hl] at hl'; cases hl'
  · intro fuel q s c hl _ _ ih path i n seq hc
    obtain ⟨p, q', rest, m, -, hp, hcr, rfl⟩ := hc.of_kernel hl
    have hparent := parent_outSeq hw h hfits hl hp hcr
    have hsource : t.sourceOf q = none := by simp [sourceOf, hl]
    simp only [rootWithin, hsource, hparent, Option.bind_eq_bind, Option.bind_some]
    exact ih p q' (getElem?_inputs_of_taken hp) _ _ _ _ hcr

/-! ### Watermarks -/

omit hw h hfits

/-- Every morsel of the source at or below `n` became, along every path to every sink, a number
that sink has committed. -/
def CommittedTo (t : Topology) (source : ℕ) (watermarks : List (Option ℕ)) (n : ℕ) : Prop :=
  ∀ sink < t.sinks, ∀ m, (source, m) ∈ t.pathsOf sink → ∃ w, (watermarks[sink]?).join = some w ∧
    ∀ k ≤ n, ∃ x, m.apply k = some x ∧ x ≤ w

theorem mapM_id_eq_some {l : List (Option α)} {r : List α} :
    l.mapM id = some r ↔ l = r.map some := by
  induction l generalizing r with
  | nil => cases r <;> simp
  | cons x l ih =>
    rw [mapM_cons]
    cases x with
    | none => cases r <;> simp
    | some x =>
      simp only [id, Option.bind_eq_bind, Option.bind_some, Option.bind_eq_some_iff, ih]
      constructor
      · rintro ⟨ys, rfl, h⟩
        cases h
        rfl
      cases r with
      | nil => simp
      | cons y r =>
        intro h
        simp only [map_cons, List.cons.injEq, Option.some.injEq] at h
        exact ⟨r, h.2, by rw [h.1]; rfl⟩

/-- One path of a source: everything at or below `n` is committed exactly up to the inverse of
the sink's watermark. -/
theorem floorInverse_iff (ha : 0 < m.a) {w : ℕ} (hw : w < 2 ^ 64) :
    (∀ k ≤ n, ∃ x, m.apply k = some x ∧ x ≤ w) ↔ ∃ top, m.floorInverse w = some top ∧ n ≤ top := by
  have hone : ∀ k, (∃ x, m.apply k = some x ∧ x ≤ w) ↔ k * m.a + m.b ≤ w := by
    intro k
    simp only [Affine.apply_eq_some]
    constructor
    · rintro ⟨x, ⟨-, rfl⟩, hx⟩; exact hx
    · intro hk; exact ⟨_, ⟨by omega, rfl⟩, hk⟩
  simp only [hone]
  constructor
  · intro hall
    have h0 := hall 0 (Nat.zero_le n)
    cases htop : m.floorInverse w with
    | none =>
      unfold Affine.floorInverse at htop
      split at htop
      · omega
      · cases htop
    | some top => exact ⟨top, rfl, ((Affine.floorInverse_eq_some ha).mp htop).2 n (hall n le_rfl)⟩
  · rintro ⟨top, htop, hle⟩ k hk
    have := ((Affine.floorInverse_eq_some ha).mp htop).1
    have hmul : k * m.a ≤ top * m.a := Nat.mul_le_mul_right _ (by omega)
    omega

/-- **The watermark of a source is the largest number all of whose images are committed.** -/
theorem sourceWatermark_eq_some {source : ℕ} {watermarks : List (Option ℕ)}
    (ha : ∀ sink m, (source, m) ∈ t.pathsOf sink → 0 < m.a)
    (hw : ∀ w, some w ∈ watermarks → w < 2 ^ 64) :
    t.sourceWatermark source watermarks = some n ↔
      IsGreatest {n | t.CommittedTo source watermarks n} n := by
  unfold sourceWatermark
  simp only
  set below := (List.range t.sinks).flatMap fun sink =>
    ((t.pathsOf sink).filter fun entry => entry.1 = source).map fun entry =>
      (watermarks[sink]?).join.bind entry.2.floorInverse with hbelow
  have hmem : ∀ o, o ∈ below ↔ ∃ sink < t.sinks, ∃ m, (source, m) ∈ t.pathsOf sink ∧
      (watermarks[sink]?).join.bind m.floorInverse = o := by
    intro o
    simp only [hbelow, mem_flatMap, mem_range, mem_map, mem_filter, decide_eq_true_eq]
    constructor
    · rintro ⟨sink, hs, ⟨src, m⟩, ⟨hm, rfl⟩, rfl⟩
      exact ⟨sink, hs, m, hm, rfl⟩
    · rintro ⟨sink, hs, m, hm, rfl⟩
      exact ⟨sink, hs, (source, m), ⟨hm, rfl⟩, rfl⟩
  -- a number is committed when it is at or below every path's inverse
  have hset : ∀ n, t.CommittedTo source watermarks n ↔
      ∀ o ∈ below, ∃ top, o = some top ∧ n ≤ top := by
    intro n
    constructor
    · intro hall o ho
      obtain ⟨sink, hs, m, hm, rfl⟩ := (hmem o).mp ho
      obtain ⟨w, hwm, hk⟩ := hall sink hs m hm
      have hlt := hw w (mem_of_getElem? (Option.join_eq_some_iff.mp hwm))
      obtain ⟨top, htop, hle⟩ := (floorInverse_iff (ha sink m hm) hlt).mp hk
      exact ⟨top, by rw [hwm]; exact htop, hle⟩
    · intro hall sink hs m hm
      obtain ⟨top, htop, hle⟩ := hall _ ((hmem _).mpr ⟨sink, hs, m, hm, rfl⟩)
      obtain ⟨w, hwm, hinv⟩ := Option.bind_eq_some_iff.mp htop
      have hlt := hw w (mem_of_getElem? (Option.join_eq_some_iff.mp hwm))
      exact ⟨w, hwm, (floorInverse_iff (ha sink m hm) hlt).mpr ⟨top, hinv, hle⟩⟩
  simp only [hset]
  constructor
  · intro h
    obtain ⟨tops, htops, hmin⟩ := Option.bind_eq_some_iff.mp h
    rw [mapM_id_eq_some] at htops
    obtain ⟨hin, hle⟩ := min?_eq_some_iff.mp hmin
    constructor
    · intro o ho
      rw [htops] at ho
      obtain ⟨top, ht, rfl⟩ := mem_map.mp ho
      exact ⟨top, rfl, hle top ht⟩
    · intro k hk
      obtain ⟨top, ht, hkt⟩ := hk (some n) (by rw [htops]; exact mem_map_of_mem hin)
      cases ht
      exact hkt
  · rintro ⟨hin, hmost⟩
    -- every path has an inverse, and there is a path: without one every number would do
    obtain ⟨tops, htops⟩ : below ∈ Set.range (List.map some) := by
      rw [Set.range_list_map]
      intro o ho
      obtain ⟨top, rfl, -⟩ := hin o ho
      exact ⟨top, rfl⟩
    refine Option.bind_eq_some_iff.mpr ⟨tops, mapM_id_eq_some.mpr htops.symm, ?_⟩
    rw [← htops] at hin hmost
    have hle : ∀ top ∈ tops, n ≤ top := by
      intro top ht
      obtain ⟨top', heq, h⟩ := hin (some top) (mem_map_of_mem ht)
      cases heq
      exact h
    refine min?_eq_some_iff.mpr ⟨?_, hle⟩
    by_contra hnot
    have hnext : n + 1 ≤ n := hmost fun o ho => by
      obtain ⟨top, ht, rfl⟩ := mem_map.mp ho
      have h1 := hle top ht
      have h2 : top ≠ n := fun heq => hnot (heq ▸ ht)
      exact ⟨top, rfl, by omega⟩
    omega

/-! ### Every accepted topology -/

/-- The paths of an accepted topology are what `arrivals` says its sinks' queues carry. -/
theorem Accepted.paths_eq (h : t.Accepted) : ∃ carried, t.arrivals = .ok carried ∧
    ∀ sink, t.pathsOf sink = (t.sinkInput sink).elim [] (row carried) := by
  obtain ⟨carried, hcarried, hpaths⟩ := seq_eq_ok.mp h.walkPaths_eq
  refine ⟨carried, hcarried, fun sink => ?_⟩
  have heq : t.paths = t.sinkInputs.map fun q => carried[q]?.getD [] := by
    simp only at hpaths
    split at hpaths
    · cases hpaths
    · exact (Except.ok.inj hpaths).symm
  unfold pathsOf sinkInput
  rw [heq, getElem?_map]
  cases t.sinkInputs[sink]? <;> rfl

theorem Accepted.pathsOf_eq (h : t.Accepted) : ∃ carried, t.arrivals = .ok carried ∧
    ∀ sink q, t.sinkInput sink = some q → t.pathsOf sink = row carried q := by
  obtain ⟨carried, hcarried, hpaths⟩ := h.paths_eq
  exact ⟨carried, hcarried, fun sink q hq => by rw [hpaths, hq]; rfl⟩

theorem Accepted.paths_pos (h : t.Accepted) {sink : ℕ} (hm : (i, m) ∈ t.pathsOf sink) :
    0 < m.a := by
  obtain ⟨carried, hcarried, hpaths⟩ := h.paths_eq
  rw [hpaths] at hm
  cases hs : t.sinkInput sink with
  | none =>
    rw [hs] at hm
    cases hm
  | some q =>
    rw [hs] at hm
    obtain ⟨producer, hl⟩ := (h.wired.sink_iff sink q).mp hs
    obtain ⟨path, hr⟩ := ((arrivals_spec h.wired hcarried).1 q _ hl i m).mp hm
    exact hr.a_pos

/-- The ports of a stage that is not misaligned carry the same arrivals. -/
theorem misaligned_eq_none (hc : t.arrivals = .ok carried) (h : t.misaligned s = .ok none) {q₀ : ℕ}
    (hp : (t.inputs s)[p]? = some q) (h₀ : (t.inputs s)[0]? = some q₀) :
    row carried q = row carried q₀ := by
  unfold misaligned at h
  rw [hc] at h
  cases hi : t.inputs s with
  | nil =>
    rw [hi] at hp
    cases hp
  | cons first rest =>
    rw [hi] at h hp h₀
    obtain rfl : first = q₀ := Option.some.inj h₀
    have hnone := Except.ok.inj h
    rw [findIdx?_eq_none_iff] at hnone
    have := hnone q (mem_of_getElem? hp)
    simpa [row] using this

theorem fits_of_arrivals (hw : t.Wired) (h : t.arrivals = .ok carried)
    (hall : ∀ l ∈ carried, ∀ e ∈ l, ∀ n < count e.1, n * e.2.a + e.2.b < 2 ^ 64) :
    t.Fits count := by
  intro q path i m hr n hn
  obtain ⟨link, hl⟩ : ∃ link, t.link q = some link := by
    cases hr with
    | source hl => exact ⟨_, hl⟩
    | stage hl => exact ⟨_, hl⟩
  obtain ⟨l, hx, hmem⟩ := mem_row.mp (((arrivals_spec hw h).1 q link hl i m).mpr ⟨path, hr⟩)
  exact hall l (mem_of_getElem? hx) (i, m) hmem n hn

/-- **The numbers of a run are unique and invertible**, for every topology that `new` and
`align` accept and every count of morsels for each source: no two morsels of a queue have one
number; `arrivals` and the paths describe exactly what the queues carry, and the ports of a
join carry alike; `parent` and `root` undo the numbering; and the watermark of a source is the
largest number all of whose images every sink has committed. -/
theorem numbers_invertible (t : Topology) (ht : t.Accepted) (count : ℕ → ℕ) (hfits : t.Fits count) :
    (∀ q path i n path' i' n' seq, t.Carries count q path i n seq →
      t.Carries count q path' i' n' seq → path = path' ∧ i = i' ∧ n = n') ∧
    (∃ carried, t.arrivals = .ok carried ∧
      (∀ q link, t.link q = some link → ∀ i n seq, (∃ path, t.Carries count q path i n seq) ↔
        ∃ m, (i, m) ∈ row carried q ∧ n < count i ∧ m.apply n = some seq) ∧
      (∀ sink q, t.sinkInput sink = some q → t.pathsOf sink = row carried q) ∧
      ∀ s p q q₀ : ℕ, t.misaligned s = .ok none → (t.inputs s)[p]? = some q →
        (t.inputs s)[0]? = some q₀ → ∀ i n seq,
        (∃ path, t.Carries count q path i n seq) ↔ ∃ path, t.Carries count q₀ path i n seq) ∧
    (∀ (q s p q' i n m : ℕ) (c : Consumer) (path : List ℕ), t.link q = some ⟨.kernel s, c⟩ →
      (t.taken s)[p]? = some q' → t.Carries count q' path i n m →
      t.parent q (t.outSeq s p m) = some (q', m)) ∧
    (∀ q path i n seq, t.Carries count q path i n seq → t.root q seq = some (i, n)) ∧
    ∀ source watermarks, (∀ w, some w ∈ watermarks → w < 2 ^ 64) → ∀ n,
      t.sourceWatermark source watermarks = some n ↔
        IsGreatest {n | t.CommittedTo source watermarks n} n := by
  have hw := ht.wired
  obtain ⟨carried, hc, hpaths⟩ := ht.pathsOf_eq
  have hiff : ∀ q link, t.link q = some link → ∀ i n seq,
      (∃ path, t.Carries count q path i n seq) ↔
        ∃ m, (i, m) ∈ row carried q ∧ n < count i ∧ m.apply n = some seq := by
    intro q link hl i n seq
    simp only [carries_iff hw hc hfits, (arrivals_spec hw hc).1 q link hl, Affine.apply_eq_some]
    constructor
    · rintro ⟨path, m, hr, hn, rfl⟩
      exact ⟨m, ⟨path, hr⟩, hn, hfits q path i m hr n hn, rfl⟩
    · rintro ⟨m, ⟨path, hr⟩, hn, -, rfl⟩
      exact ⟨path, m, hr, hn, rfl⟩
  refine ⟨fun q path i n path' i' n' seq h h' => carries_unique hw hc hfits h h',
    ⟨carried, hc, hiff, hpaths, fun s p q q₀ hs hp h₀ i n seq => ?_⟩,
    fun q s p q' i n m c path hl hp hcar => parent_outSeq hw hc hfits hl hp hcar,
    fun q path i n seq hcar => hcar.root_eq hw hc hfits, fun source watermarks hlt n =>
      sourceWatermark_eq_some (fun sink m hm => ht.paths_pos hm) hlt⟩
  obtain ⟨link, hl, -⟩ := hw.lower hp
  obtain ⟨link₀, hl₀, -⟩ := hw.lower h₀
  rw [hiff q link hl, hiff q₀ link₀ hl₀, misaligned_eq_none hc hs hp h₀]

/-- One source into both ports of a stage. -/
def twoPorts : Topology :=
  ⟨[⟨.source 0, .kernel 1 0⟩, ⟨.source 0, .kernel 1 1⟩, ⟨.kernel 1, .sink 0⟩], 1, 1, 1,
    [[0, 1]], [[2]], [[0, 1]], [2], [[(0, ⟨2, 0⟩), (0, ⟨2, 1⟩)]], [false]⟩

/-- Morsel 2 reaches the sink as 5 through port 1, 5 comes from morsel 2, and with 4 committed
everything up to morsel 1 is. -/
theorem numbers_invertible_twoPorts : twoPorts.Accepted ∧ twoPorts.root 2 5 = some (0, 2) ∧
    IsGreatest {n | twoPorts.CommittedTo 0 [some 4] n} 1 := by
  have ht : twoPorts.Accepted := by
    have hnew : new 1 1 1 twoPorts.links = .ok twoPorts := by decide +kernel
    exact .new hnew
  have hc : twoPorts.arrivals = .ok [[(0, ⟨1, 0⟩)], [(0, ⟨1, 0⟩)], [(0, ⟨2, 0⟩), (0, ⟨2, 1⟩)]] := by
    decide +kernel
  have hfits : twoPorts.Fits fun _ => 3 := fits_of_arrivals ht.wired hc (by decide +kernel)
  obtain ⟨-, -, -, hroot, hmark⟩ := numbers_invertible twoPorts ht _ hfits
  refine ⟨ht, hroot 2 [1] 0 2 5 ?_, (hmark 0 [some 4] (by simp) 1).mp (by decide +kernel)⟩
  have hin : twoPorts.Carries (fun _ => 3) 1 [] 0 2 2 := .source (c := .kernel 1 1) rfl (by decide)
  have hout := Carries.stage (t := twoPorts) (q := 2) (s := 1) (p := 1) (c := .sink 0) rfl rfl hin
  exact hout

end Topology

end Moruna.Graph
