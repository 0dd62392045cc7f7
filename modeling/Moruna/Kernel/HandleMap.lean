/-
Moruna/Kernel/HandleMap.lean

A handle table as a map from values to handles: several inserts and removes at once.
-/
import Moruna.Kernel.Handles

namespace Moruna.Kernel

open List

namespace HandleTable

variable {T : Type*}

def room (t : HandleTable T) : ℕ := Limits.HANDLES_PER_PROCESS - t.count

/-! ### Several handles -/

/-- `t'` is `t` with the handles `added` under new values. -/
structure Plus (t t' : HandleTable T) (added : List (RawHandle × T)) : Prop where
  ok : t'.Ok
  nodup : (added.map Prod.fst).Nodup
  new : ∀ e ∈ added, ∀ y, t.get e.1 ≠ .ok y
  get : ∀ u y, t'.get u = .ok y ↔ (u, y) ∈ added ∨ t.get u = .ok y
  count : t'.count = t.count + added.length
  sum : ∀ w, t'.sum w = t.sum w + (added.map fun e => w e.2).sum

variable {t t' : HandleTable T} {added : List (RawHandle × T)}

theorem Plus.refl (h : t.Ok) : Plus t t [] := ⟨h, nodup_nil, nofun, by simp, rfl, fun _ => rfl⟩

variable {added' : List (RawHandle × T)} {x : T} {v : RawHandle}

theorem Plus.perm (h : Plus t t' added) (hp : added.Perm added') : Plus t t' added' where
  ok := h.ok
  nodup := (hp.map Prod.fst).nodup_iff.mp h.nodup
  new e he := h.new e (hp.mem_iff.mpr he)
  get u y := by rw [h.get, hp.mem_iff]
  count := by rw [h.count, hp.length_eq]
  sum w := by rw [h.sum, (hp.map fun e => w e.2).sum_eq]

theorem Plus.trans {t'' : HandleTable T} (h : Plus t t' added)
    (h' : Plus t' t'' added') : Plus t t'' (added ++ added') where
  ok := h'.ok
  nodup := by
    rw [map_append]
    refine nodup_append.mpr ⟨h.nodup, h'.nodup, fun u hu u' hu' => ?_⟩
    obtain ⟨⟨u, y⟩, he, rfl⟩ := mem_map.mp hu
    obtain ⟨e', he', rfl⟩ := mem_map.mp hu'
    intro huu
    exact h'.new e' he' y ((h.get e'.1 y).mpr (.inl (huu ▸ he)))
  new e he y hy := by
    rcases mem_append.mp he with he | he
    · exact h.new e he y hy
    · exact h'.new e he y ((h.get e.1 y).mpr (.inr hy))
  get u y := by
    rw [h'.get, h.get, mem_append]
    tauto
  count := by rw [h'.count, h.count, length_append, add_assoc]
  sum w := by rw [h'.sum, h.sum, map_append, sum_append, add_assoc]

theorem Ok.plus_insert (h : t.Ok) {reserve : Bool}
    (hins : t.insertOrReturn x reserve = .ok (v, t')) : Plus t t' [(v, x)] := by
  obtain ⟨hok, hnew, hget, hcount, hsum⟩ := h.insert hins
  refine ⟨hok, nodup_singleton _, fun e he => ?_, fun u y => ?_, hcount, fun w => hsum w⟩
  · rw [mem_singleton.mp he]
    exact hnew
  · rw [hget, mem_singleton, Prod.mk.injEq]

/-- Seen from the table that is left, one more was there. -/
theorem Ok.plus_remove (h : t.Ok) (hr : t.remove v = .ok (x, t')) : Plus t' t [(v, x)] := by
  obtain ⟨-, hv, hget, hcount, hsum⟩ := h.remove hr
  refine ⟨h, nodup_singleton _, fun e he y => ?_, fun u y => ?_, hcount.symm,
    fun w => (hsum w).symm⟩
  · rw [mem_singleton.mp he, Ne, hget]
    exact fun hy => hy.1 rfl
  rw [hget, mem_singleton, Prod.mk.injEq]
  constructor
  · intro hy
    rcases eq_or_ne u v with rfl | hne
    · rw [hv] at hy
      cases hy
      exact .inl ⟨rfl, rfl⟩
    · exact .inr ⟨hne, hy⟩
  · rintro (⟨rfl, rfl⟩ | ⟨-, hy⟩)
    · exact hv
    · exact hy

theorem Plus.removeFirst (h : Plus t t' ((v, x) :: added)) :
    ∃ t'', t'.remove v = .ok (x, t'') ∧ Plus t t'' added := by
  have hget := (h.get v x).mpr (.inl mem_cons_self)
  obtain ⟨t'', hr⟩ := h.ok.remove_of_get hget
  obtain ⟨hok, -, hget', hcount, hsum⟩ := h.ok.remove hr
  have hnodup := h.nodup
  rw [map_cons, nodup_cons] at hnodup
  refine ⟨t'', hr, hok, hnodup.2, fun e he => h.new e (mem_cons_of_mem _ he), fun u y => ?_,
    ?_, fun w => ?_⟩
  · rw [hget', h.get, mem_cons]
    constructor
    · rintro ⟨hne, (⟨rfl, -⟩ | hmem) | hy⟩
      · exact absurd rfl hne
      · exact .inl hmem
      · exact .inr hy
    · rintro (hmem | hy)
      · refine ⟨?_, .inl (.inr hmem)⟩
        rintro rfl
        exact hnodup.1 (mem_map.mpr ⟨(u, y), hmem, rfl⟩)
      · refine ⟨?_, .inr hy⟩
        rintro rfl
        exact h.new _ mem_cons_self y hy
  · have := h.count
    rw [length_cons] at this
    omega
  · have h1 := hsum w
    have h2 := h.sum w
    simp only [map_cons, sum_cons] at h2
    omega

theorem Plus.get_eq (h : Plus t t' []) (u : RawHandle) : t'.get u = t.get u := by
  have herr : ∀ (s : HandleTable T), (∃ y, s.get u = .ok y) ∨ s.get u = .error .badHandle := by
    intro s
    unfold HandleTable.get
    split
    · exact .inr rfl
    split
    · split
      · exact .inl ⟨_, rfl⟩
      · exact .inr rfl
    · exact .inr rfl
  have hiff : ∀ y, t'.get u = .ok y ↔ t.get u = .ok y := fun y => by simpa using h.get u y
  rcases herr t with ⟨y, hy⟩ | ht
  · rw [hy]
    exact (hiff y).mpr hy
  · rcases herr t' with ⟨y, hy⟩ | ht'
    · rw [(hiff y).mp hy] at ht
      cases ht
    · rw [ht, ht']

end HandleTable

end Moruna.Kernel
