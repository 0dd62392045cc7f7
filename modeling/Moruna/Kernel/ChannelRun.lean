/-
Moruna/Kernel/ChannelRun.lean

Channels neither trap endpoints in a cycle nor lose or duplicate a handle.

Each call is a sequence of the changes of the world; a failed write or read has changed
nothing, or has undone what it did.

* `takeAll_spec`, `insertAll_spec`, `rollback_spec` — the loops over a message's handles;
* `channelWrite_spec`, `channelRead_spec` — a call under its locks;
* `step_inv`, `run_inv`, `run_conserves` — along every interleaving.
-/
import Moruna.Kernel.ChannelInv

namespace Moruna.Kernel

open List Registry

/-! ### The pieces of the calls -/

namespace CallM

variable {w : World} {P : World → Prop}

section

variable {E : Fail → World → Prop}

theorem fail_spec {α : Type} {e : Error} {Q : α → World → Prop} (h : ∀ s, P s → E ⟨e, 0⟩ s) :
    Triple P (fail e) Q E := Triple.throw h

theorem setTable_spec (p : ℕ) (t : HandleTable Handle) :
    Triple (fun s => s = w) (setTable p t) (fun _ s => s = w.setTable p t) E :=
  .update fun _ h => h ▸ rfl

theorem onSide_spec (e : Endpoint) (f : Side → Side) :
    Triple (fun s => s = w) (onSide e f) (fun _ s => s = w.onSide e f) E :=
  .update fun _ h => h ▸ rfl

theorem forget_spec (hs : List Handle) :
    Triple (fun s => s = w) (forget hs) (fun _ s => s = w.forget hs) E :=
  .update fun _ h => h ▸ rfl

theorem newHandle_spec (object : Object) (rights : Rights) :
    Triple (fun s => s = w) (newHandle object rights)
      (fun h s => h = ⟨w.next, object, rights⟩ ∧ s = { w with next := w.next + 1 }) E := by
  rintro _ rfl
  exact ⟨rfl, rfl⟩

end

/-! What a piece that fails leaves is as it was. -/

section

variable {R : World → Prop} (hR : R w)
include hR

theorem unchanged : ∀ s, s = w → R s := fun _ h => h ▸ hR

theorem require_spec {α : Type} (x : Except Error α) :
    Triple (fun s => s = w) (require x) (fun a s => x = .ok a ∧ s = w) (fun _ => R) := by
  rcases x with e | a
  · exact fail_spec (unchanged hR)
  · exact .pure fun _ h => ⟨rfl, h⟩

theorem attempt_spec (x : Option Error) :
    Triple (fun s => s = w) (attempt x) (fun _ s => s = w) (fun _ => R) := by
  rcases x with - | e
  · exact .skip
  · exact fail_spec (unchanged hR)

theorem table_spec (p : ℕ) :
    Triple (fun s => s = w) (table p) (fun t s => w.tables.get p = some t ∧ s = w)
      (fun _ => R) := by
  refine .read fun s hs => ?_
  subst hs
  rcases s.tables.get p with - | t
  · exact fail_spec (unchanged hR)
  · exact .pure fun _ h => ⟨rfl, h⟩

theorem side_spec (e : Endpoint) : Triple (fun s => s = w) (side e)
      (fun x s => (∃ c, w.channels.get e.channel = some c ∧ x = c.ends e.side) ∧ s = w)
      (fun _ => R) := by
  refine .read fun s hs => ?_
  subst hs
  rcases s.channels.get e.channel with - | c
  · exact fail_spec (unchanged hR)
  · exact .pure fun _ h => ⟨⟨c, rfl, rfl⟩, h⟩

end

variable {t t' : HandleTable Handle}

theorem insertInto_eq_ok {h : Handle} {a : Answers} {i : ℕ}
    {v : RawHandle} (hi : insertInto t h a i = .ok (v, t')) :
    t.insertOrReturn h (a.reserve i) = .ok (v, t') := by
  unfold insertInto at hi
  split at hi
  · cases hi
  rcases hx : t.insertOrReturn h (a.reserve i) with e | x
  · rw [hx] at hi
    cases hi
  · rw [hx] at hi
    cases hi
    rfl

variable {E : Fail → World → Prop}

theorem table_of {p : ℕ} {t : HandleTable Handle} (hget : w.tables.get p = some t) :
    Triple (fun s => s = w) (table p) (fun t' s => t' = t ∧ s = w) E := by
  refine .read fun s hs => ?_
  subst hs
  rw [hget]
  exact .pure fun _ h => ⟨rfl, h⟩

theorem remove_of {p : ℕ} {v : RawHandle} {h : Handle}
    (hget : w.tables.get p = some t) (hr : t.remove v = .ok (h, t')) :
    Triple (fun s => s = w) (remove p v) (fun h' s => h' = h ∧ s = w.setTable p t') E := by
  refine .seq_eq (table_of hget) ?_
  rw [hr]
  show Triple (fun s => s = w) (setTable p t' >>= fun _ => pure h) _ E
  exact .bind (setTable_spec p t') fun _ => .pure fun _ h => ⟨rfl, h⟩

/-- **Every value that is there, once, is taken.** -/
theorem takeAll_spec {p : ℕ} {E : Fail → World → Prop} :
    ∀ {values : List RawHandle} {w : World} {t : HandleTable Handle},
    w.tables.get p = some t → t.Ok → values.Nodup → (∀ v ∈ values, ∃ h, t.get v = .ok h) →
    Triple (fun s => s = w) (takeAll p values)
      (fun moved s => ∃ t' taken, s = w.setTable p t' ∧ t'.Ok ∧ HandleTable.Plus t' t taken ∧
        taken.map Prod.fst = values ∧ taken.map Prod.snd = moved) E
  | [], w, t, hget, hok, _, _ => .pure fun _ h =>
      ⟨t, [], by rw [World.setTable_eq_self hget, h], hok, .refl hok, rfl, rfl⟩
  | v :: rest, w, t, hget, hok, hnodup, hlive => by
    rw [nodup_cons] at hnodup
    obtain ⟨h, hv⟩ := hlive v mem_cons_self
    obtain ⟨t₁, hr⟩ := hok.remove_of_get hv
    obtain ⟨hok₁, -, hget₁, -, -⟩ := hok.remove hr
    have hlive₁ : ∀ u ∈ rest, ∃ x, t₁.get u = .ok x := by
      intro u hu
      obtain ⟨x, hx⟩ := hlive u (mem_cons_of_mem _ hu)
      exact ⟨x, (hget₁ u x).mpr ⟨fun huv => hnodup.1 (huv ▸ hu), hx⟩⟩
    refine .seq (remove_of hget hr) fun h' hh => ?_
    subst hh
    refine .bind (takeAll_spec (World.get_setTable hget t₁) hok₁ hnodup.2 hlive₁) fun hs => ?_
    refine .pure ?_
    rintro s ⟨t', taken, rfl, hok', hplus, hfst, hsnd⟩
    refine ⟨t', (v, h') :: taken, by rw [World.setTable_setTable], hok', ?_, by simp [hfst],
      by simp [hsnd]⟩
    exact (hplus.trans (hok.plus_remove hr)).perm perm_append_comm

/-! ### Writing -/

theorem carriedBy_eq_ok {t : HandleTable Handle} {endpoint : Endpoint} {a : Answers} :
    ∀ {done values : List RawHandle} {carried : List Endpoint},
    carriedBy t endpoint a done values = .ok carried →
    values.Nodup ∧ (∀ v ∈ values, v ∉ done) ∧
      ∃ hs : List Handle, values.map t.get = hs.map Except.ok ∧
        carried = hs.filterMap Handle.endpoint ∧
        ∀ h ∈ hs, ∀ g, h.endpoint = some g → g.channel ≠ endpoint.channel
  | _, [], _, h => by
    cases h
    exact ⟨nodup_nil, nofun, [], rfl, rfl, nofun⟩
  | done, v :: rest, carried, hc => by
    unfold carriedBy at hc
    rcases hget : t.get v with e | h
    · rw [hget] at hc
      cases hc
    rw [hget] at hc
    simp only at hc
    split at hc
    · cases hc
    split at hc
    · cases hc
    rename_i hown
    split at hc
    · cases hc
    split at hc
    · cases hc
    rename_i hdone
    rcases hrest : carriedBy t endpoint a (done ++ [v]) rest with e | carried'
    · rw [hrest] at hc
      cases hc
    rw [hrest] at hc
    cases hc
    obtain ⟨hnodup, hnew, hs, hall, rfl, hother⟩ := carriedBy_eq_ok hrest
    have hv : v ∉ rest := fun hmem => hnew v hmem (by simp)
    refine ⟨nodup_cons.mpr ⟨hv, hnodup⟩, fun u hu => ?_, h :: hs,
      by rw [map_cons, map_cons, hget, hall], ?_, ?_⟩
    · rcases mem_cons.mp hu with rfl | hu
      · simpa using hdone
      · exact fun hmem => hnew u hu (mem_append_left _ hmem)
    · rcases he : h.endpoint with - | g <;> simp [he]
    intro x hx g hg
    rcases mem_cons.mp hx with rfl | hx
    · rw [hg] at hown
      simpa using hown
    · exact hother x hx g hg

theorem cycleRule_spec (to_ : Endpoint) (carried : List Endpoint) :
    Triple (fun s => s = w) (cycleRule to_ carried)
      (fun _ s => (∀ e ∈ carried, carriesNone w e = true) ∧
        s = w.onSide to_ (Side.carry carried.length)) (fun _ s => s = w) := by
  refine .ite (fun hempty => .pure fun s hs => ?_) fun _ => .read fun s hs => ?_
  · rw [isEmpty_iff.mp hempty]
    exact ⟨nofun, hs.trans (World.onSide_eq_self fun _ => rfl).symm⟩
  subst hs
  refine .ite (fun _ => fail_spec fun _ h => h) fun hall => ?_
  refine (onSide_spec _ _).post fun _ s' h => ⟨fun e he => ?_, h⟩
  by_contra hno
  exact hall (any_eq_true.mpr ⟨e, he, by simpa using hno⟩)

/-- **`channel_write` under its locks** queues its message, or changes nothing. -/
theorem channelWrite_spec (hinv : w.Inv []) (p : ℕ) (endpoint : Endpoint) (payload : List UInt8)
    (values : List RawHandle) (a : Answers) :
    Triple (fun s => s = w) (channelWrite p endpoint payload values a) (fun _ s => s.Inv [])
      (fun _ s => s = w) := by
  refine .seq (table_spec (by rfl) p) fun t hget => ?_
  refine .seq (require_spec (by rfl) _) fun carried hcarried => ?_
  obtain ⟨hnodup, -, hs, hall, rfl, hother⟩ := carriedBy_eq_ok hcarried
  refine .seq (side_spec (by rfl) _) fun to_ => ?_
  rintro ⟨c, hc, rfl⟩
  refine .ite (fun _ => fail_spec fun _ h => h) fun hopen => ?_
  refine .ite (fun _ => fail_spec fun _ h => h) fun _ => ?_
  refine .ite (fun _ => fail_spec fun _ h => h) fun _ => ?_
  refine .seq (cycleRule_spec _ _) fun _ hnone => ?_
  have hok := hinv.tables p t hget
  have hlive : ∀ v ∈ values, ∃ h, t.get v = .ok h := by
    intro v hv
    obtain ⟨h, -, hh⟩ := mem_map.mp (hall ▸ mem_map_of_mem hv)
    exact ⟨h, hh.symm⟩
  refine .bind (takeAll_spec (w := w.onSide endpoint.peer _) hget hok hnodup hlive) fun moved => ?_
  refine .pointwise ?_
  rintro s ⟨t', taken, rfl, hok', hplus, hfst, hsnd⟩
  refine .bind (onSide_spec _ _) fun _ => .pure fun s' hs' => ?_
  subst hs'
  -- what was taken is what was checked
  have hmoved : moved = hs := by
    refine map_injective_iff.mpr (fun _ _ h => Except.ok.inj h) (Eq.trans ?_ hall)
    rw [← hsnd, ← hfst, map_map, map_map]
    exact map_congr_left fun e he => ((hplus.get e.1 e.2).mpr (.inl he)).symm
  subst hmoved
  have hcount : (moved.filterMap Handle.endpoint).length
      = moved.countP fun h => h.endpoint.isSome := length_filterMap_eq_countP
  have htaken : (w.setTable p t').Inv (moved ++ []) := by
    refine hinv.setTable hget hok' fun weight => ?_
    rw [hplus.sum weight, ← hsnd, append_nil, map_map]
    rfl
  have hpush := World.Inv.push (m := ⟨payload, moved, (moved.filterMap Handle.endpoint).length⟩)
    (e := endpoint.peer) htaken hc (by simpa using hopen) hcount fun x hx g hg =>
      ⟨hother x hx g hg, hnone g (mem_filterMap.mpr ⟨x, hx, hg⟩)⟩
  have hworld : ∀ f g, ((w.onSide endpoint.peer f).setTable p t').onSide endpoint.peer g
      = (w.setTable p t').onSide endpoint.peer (g ∘ f) := fun f g =>
    World.onSide_onSide (w.setTable p t') endpoint.peer f g
  rw [hworld]
  exact hpush

/-! ### Reading -/

theorem removeIf_of {p : ℕ} {v : RawHandle} {h : Handle}
    (hget : w.tables.get p = some t) (hr : t.remove v = .ok (h, t')) :
    Triple (fun s => s = w) (removeIf p v) (fun _ s => s = w.setTable p t') E := by
  refine .seq_eq (table_of hget) ?_
  rw [hr]
  exact setTable_spec p t'

theorem rollback_spec {p : ℕ} {t : HandleTable Handle} {E : Fail → World → Prop} :
    ∀ {added : List (RawHandle × Handle)} {w : World} {t₁ : HandleTable Handle},
    w.tables.get p = some t₁ → HandleTable.Plus t t₁ added →
    Triple (fun s => s = w) (rollback p (added.map Prod.fst))
      (fun _ s => ∃ t', s = w.setTable p t' ∧ HandleTable.Plus t t' []) E
  | [], w, t₁, hget, hplus => .pure fun _ h => ⟨t₁, by rw [World.setTable_eq_self hget, h], hplus⟩
  | (v, x) :: added, w, t₁, hget, hplus => by
    obtain ⟨t₂, hr, hplus₂⟩ := hplus.removeFirst
    refine .bind (removeIf_of hget hr) fun _ => ?_
    refine (rollback_spec (World.get_setTable hget t₂) hplus₂).post ?_
    rintro _ s ⟨t', rfl, hplus'⟩
    exact ⟨t', by rw [World.setTable_setTable], hplus'⟩

/-- **Every handle is inserted, or none is.** -/
theorem insertAll_spec {p : ℕ} {t : HandleTable Handle} {a : Answers} :
    ∀ {hs : List Handle} {added : List (RawHandle × Handle)} {w : World}
      {t₁ : HandleTable Handle},
    w.tables.get p = some t₁ → HandleTable.Plus t t₁ added →
    Triple (fun s => s = w) (insertAll p a hs (added.map Prod.fst))
      (fun inserted s => ∃ t' added', s = w.setTable p t' ∧ HandleTable.Plus t t' added' ∧
        added'.map Prod.fst = inserted ∧ added'.map Prod.snd = added.map Prod.snd ++ hs)
      (fun _ s => ∃ t', s = w.setTable p t' ∧ HandleTable.Plus t t' [])
  | [], added, w, t₁, hget, hplus => .pure fun _ h =>
      ⟨t₁, added, by rw [World.setTable_eq_self hget, h], hplus, rfl, (append_nil _).symm⟩
  | h :: hs, added, w, t₁, hget, hplus => by
    refine .seq_eq (table_of hget) ?_
    rcases hins : insertInto t₁ h a (added.map Prod.fst).length with e | ⟨v, t₂⟩
    · refine .bind (rollback_spec hget hplus) fun _ => fail_spec ?_
      exact fun _ hs => hs
    have hplus₂ := hplus.trans (hplus.ok.plus_insert (insertInto_eq_ok hins))
    refine .bind (setTable_spec p t₂) fun _ => ?_
    have ih := @insertAll_spec p t a hs _ _ _ (World.get_setTable hget t₂) hplus₂
    rw [map_append] at ih
    refine ih.conseq (fun _ h => h) ?_ ?_
    · rintro inserted s ⟨t', added', rfl, hplus', hfst, hsnd⟩
      refine ⟨t', added', by rw [World.setTable_setTable], hplus', hfst, ?_⟩
      rw [hsnd, map_append, append_assoc]
      rfl
    · rintro e s ⟨t', rfl, hplus'⟩
      exact ⟨t', by rw [World.setTable_setTable], hplus'⟩

/-- The same handles under the same values, and the same channels: what a call that fails
leaves. -/
structure Same (w s : World) : Prop where
  channels : s.channels = w.channels
  tables : ∀ q, (s.tables.get q).map (fun t => (t.get, t.count))
    = (w.tables.get q).map fun t => (t.get, t.count)
  inv : w.Inv [] → s.Inv []

theorem Same.refl (w : World) : Same w w := ⟨rfl, fun _ => rfl, fun h => h⟩

theorem Same.setTable {p : ℕ} {t t' : HandleTable Handle} (hget : w.tables.get p = some t)
    (hplus : HandleTable.Plus t t' []) : Same w (w.setTable p t') where
  channels := rfl
  tables q := by
    simp only [World.setTable, get_modify]
    split
    · rename_i hq
      subst hq
      rw [hget]
      simp only [Option.map_some, Option.some.injEq, Prod.mk.injEq]
      exact ⟨funext hplus.get_eq, by simpa using hplus.count⟩
    · rfl
  inv h := h.setTable hget hplus.ok fun weight => by simpa using hplus.sum weight

/-- **`channel_read` under its locks** moves a message's handles to the table, or leaves the
queue and what the table holds as they were. -/
theorem channelRead_spec (hinv : w.Inv []) (p : ℕ) (endpoint : Endpoint) (cap hcap : ℕ)
    (a : Answers) :
    Triple (fun s => s = w) (channelRead p endpoint cap hcap a) (fun _ s => s.Inv [])
      (fun _ s => Same w s) := by
  have hsame := Same.refl w
  refine .seq (table_spec hsame p) fun t hget => ?_
  refine .seq (side_spec hsame endpoint) fun own => ?_
  rintro ⟨c, hc, rfl⟩
  rcases hqueue : (c.ends endpoint.side).queue with - | ⟨front, rest⟩
  · refine .bind (side_spec hsame endpoint.peer) fun peer => ?_
    exact fail_spec fun s hs => unchanged hsame s hs.2
  simp only
  refine .ite (fun _ => .throw (unchanged hsame)) fun _ => ?_
  refine .ite (fun _ => fail_spec (unchanged hsame)) fun _ => ?_
  refine .bind (attempt_spec hsame _) fun _ => ?_
  have hok := hinv.tables p t hget
  refine .bind ((insertAll_spec hget (.refl hok)).error ?_) fun inserted => ?_
  · rintro _ s ⟨t', rfl, hplus⟩
    exact .setTable hget hplus
  refine .pointwise ?_
  rintro s ⟨t', added, rfl, hplus, rfl, hsnd⟩
  rcases a.copy 1 with - | e
  · refine .bind (onSide_spec _ _) fun _ => .pure fun s hs => ?_
    subst hs
    -- the message leaves its handles in hand, and they go into the table
    refine .setTable (hinv.pop hc hqueue) hget hplus.ok fun weight => ?_
    have := hplus.sum weight
    simp only [map_nil, nil_append] at hsnd
    rw [this, ← hsnd, append_nil, map_map]
    rfl
  · refine .bind (rollback_spec (World.get_setTable hget t') hplus) fun _ => fail_spec ?_
    rintro s ⟨t'', rfl, hplus'⟩
    rw [World.setTable_setTable]
    exact .setTable hget hplus'

/-! ### The other calls -/

theorem lookup_spec {R : World → Prop} (hR : R w) (p value : ℕ) (rights : Rights) :
    Triple (fun s => s = w) (lookup p value rights)
      (fun _ s => (∃ t, w.tables.get p = some t) ∧ s = w) (fun _ => R) := by
  refine .seq (table_spec hR p) fun t hget => ?_
  refine .seq (require_spec hR _) fun h _ => ?_
  exact .ite (fun _ => .pure fun _ hs => ⟨⟨t, hget⟩, hs⟩) fun _ => fail_spec (unchanged hR)

theorem typed_spec (p value : ℕ) (rights : Rights) :
    Triple (fun s => s = w) (typed p value rights) (fun _ s => s = w) (fun _ s => s = w) := by
  refine .seq (lookup_spec (by rfl) p value 0) fun h _ => ?_
  rcases h.endpoint with - | e
  · exact fail_spec fun _ h => h
  · exact .ite (fun _ => .skip) fun _ => fail_spec fun _ h => h

/-- From `w` the call ends in a good world, refused or not. -/
abbrev Keeps {α : Type} (w : World) (x : CallM α) : Prop :=
  Triple (fun s => s = w) x (fun _ s => s.Inv []) (fun _ s => s.Inv [])

/-- A handle in hand goes into a table, or is dropped. -/
theorem insert_spec {h : Handle} {p : ℕ} {t : HandleTable Handle} (hinv : w.Inv [h])
    (hget : w.tables.get p = some t) (a : Answers) : Keeps w (insert p h a) := by
  refine .seq_eq (table_of hget) ?_
  rcases hins : insertInto t h a 0 with e | ⟨v, t'⟩
  · refine .bind (forget_spec [h]) fun _ => fail_spec ?_
    rintro s rfl
    exact .forget [h] hinv
  have hplus := (hinv.tables p t hget).plus_insert (insertInto_eq_ok hins)
  refine .bind (setTable_spec p t') fun _ => .pure ?_
  rintro s rfl
  refine hinv.setTable hget hplus.ok fun weight => ?_
  rw [hplus.sum weight]
  rfl

theorem remove_spec {R : World → Prop} (hR : R w) (p : ℕ) (v : RawHandle) :
    Triple (fun s => s = w) (remove p v)
      (fun h s => ∃ t t', w.tables.get p = some t ∧ t.remove v = .ok (h, t') ∧
        s = w.setTable p t') (fun _ => R) := by
  refine .seq (table_spec hR p) fun t hget => ?_
  refine .seq (require_spec hR _) fun x hx => ?_
  exact .bind (setTable_spec p x.2) fun _ => .pure fun _ h => ⟨t, x.2, hget, hx, h⟩

theorem handleClose_spec (hinv : w.Inv []) (p value : ℕ) : Keeps w (handleClose p value) := by
  refine .seq (require_spec hinv _) fun v _ => ?_
  refine .bind (remove_spec hinv p v) fun h => .pointwise ?_
  rintro s ⟨t, t', hget, hr, rfl⟩
  have hok := hinv.tables p t hget
  refine (forget_spec [h]).post ?_
  rintro _ s rfl
  refine .forget [h] (hinv.setTable hget (hok.remove hr).1 fun weight => ?_)
  rw [(hok.plus_remove hr).sum weight]
  rfl

theorem handleDuplicate_spec (hinv : w.Inv []) (p value rights : ℕ) (a : Answers) :
    Keeps w (handleDuplicate p value rights a) := by
  refine .seq (lookup_spec hinv p value _) fun h => ?_
  rintro ⟨t, hget⟩
  rcases Rights.fromBits rights with - | rights
  · exact fail_spec (unchanged hinv)
  refine .ite (fun _ => ?_) fun _ => fail_spec (unchanged hinv)
  refine .seq_eq (newHandle_spec _ _) ?_
  exact insert_spec (hinv.newHandle h.object rights) hget a

theorem insertObject_spec (hinv : w.Inv []) (p id : ℕ) (rights : Rights) (a : Answers) :
    Keeps w (insertObject p id rights a) := by
  refine .seq (table_spec hinv p) fun t hget => ?_
  refine .seq_eq (newHandle_spec _ _) ?_
  exact insert_spec (hinv.newHandle _ rights) hget a

theorem beginWrite_spec (p value : ℕ) (payload : List UInt8) (values : List RawHandle)
    (a : Answers) :
    Triple (fun s => s = w) (beginWrite p value payload values a)
      (fun _ s => ∃ calls, s = { w with calls }) (fun _ s => s = w) := by
  refine .bind (typed_spec p value _) fun endpoint => ?_
  refine .ite (fun _ => fail_spec fun _ h => h) fun _ => ?_
  refine .bind (attempt_spec (by rfl) _) fun _ => .bind (attempt_spec (by rfl) _) fun _ => ?_
  refine .bind (attempt_spec (by rfl) _) fun _ => .update fun s hs => ?_
  subst hs
  exact ⟨_, rfl⟩

theorem beginRead_spec (p value cap hcap : ℕ) :
    Triple (fun s => s = w) (beginRead p value cap hcap) (fun _ s => ∃ calls, s = { w with calls })
      (fun _ s => s = w) := by
  refine .bind (typed_spec p value _) fun endpoint => .update fun s hs => ?_
  subst hs
  exact ⟨_, rfl⟩

theorem exit_spec (hinv : w.Inv []) (p : ℕ) : Keeps w (exit p) := by
  refine .seq (table_spec hinv p) fun t hget => ?_
  obtain ⟨hok, -, hzero, hsum⟩ := (hinv.tables p t hget).drain
  refine .bind (setTable_spec p _) fun _ => (forget_spec _).post ?_
  rintro _ s rfl
  refine .forget _ (hinv.setTable hget hok fun weight => ?_)
  have h1 := hzero weight
  have h2 := hsum weight
  rw [append_nil]
  show t.drain.2.sum weight + (t.drain.1.map weight).sum = t.sum weight + 0
  omega

/-! ### Handles for a process that starts -/

theorem namedOk_eq_ok {t : HandleTable Handle} :
    ∀ {done specs : List (RawHandle × List UInt8)}, namedOk t done specs = .ok () →
      (specs.map Prod.fst).Nodup ∧ (∀ e ∈ specs, e.1 ∉ done.map Prod.fst) ∧
        ∀ e ∈ specs, ∃ h, t.get e.1 = .ok h
  | _, [], _ => ⟨nodup_nil, nofun, nofun⟩
  | done, (v, name) :: rest, hn => by
    unfold namedOk at hn
    rcases hget : t.get v with e | h
    · rw [hget] at hn
      cases hn
    rw [hget] at hn
    simp only at hn
    split at hn
    · cases hn
    split at hn
    · cases hn
    rename_i hdone
    obtain ⟨hnodup, hnew, hlive⟩ := namedOk_eq_ok hn
    have hv : v ∉ done.map Prod.fst := by
      intro hmem
      obtain ⟨d, hd, rfl⟩ := mem_map.mp hmem
      refine hdone (Bool.or_eq_true_iff.mpr (.inr (any_eq_true.mpr ⟨d, hd, ?_⟩)))
      simp
    refine ⟨?_, fun e he => ?_, fun e he => ?_⟩
    · rw [map_cons, nodup_cons]
      refine ⟨fun hmem => ?_, hnodup⟩
      obtain ⟨e, he, hev⟩ := mem_map.mp hmem
      exact hnew e he (by rw [hev]; simp)
    · rcases mem_cons.mp he with rfl | he
      · exact hv
      · exact fun hmem => hnew e he (by rw [map_append]; exact mem_append_left _ hmem)
    · rcases mem_cons.mp he with rfl | he
      · exact ⟨h, hget⟩
      · exact hlive e he

theorem takeNamed_spec (hinv : w.Inv []) (p : ℕ) (specs : List (RawHandle × List UInt8)) :
    Triple (fun s => s = w) (takeNamed p specs) (fun moved s => s.Inv moved)
      (fun _ s => s.Inv []) := by
  refine .seq (table_spec hinv p) fun t hget => ?_
  refine .seq (require_spec hinv _) fun u hu => ?_
  obtain ⟨hnodup, -, hlive⟩ := namedOk_eq_ok hu
  have hok := hinv.tables p t hget
  have hlive' : ∀ v ∈ specs.map Prod.fst, ∃ h, t.get v = .ok h := by
    intro v hv
    obtain ⟨e, he, rfl⟩ := mem_map.mp hv
    exact hlive e he
  refine (takeAll_spec hget hok hnodup hlive').post ?_
  rintro moved s ⟨t', taken, rfl, hok', hplus, -, hsnd⟩
  refine hinv.setTable hget hok' fun weight => ?_
  rw [hplus.sum weight, ← hsnd, map_map]
  rfl

/-- Each handle in hand goes into the table, or is dropped. -/
theorem moveIn_spec {q : ℕ} {a : Answers} : ∀ {hs : List Handle} {i : ℕ} {w : World}
    {t : HandleTable Handle}, w.Inv hs → w.tables.get q = some t →
    Keeps w (moveIn q a hs i)
  | [], _, w, _, hinv, _ => .pure fun s hs => hs ▸ hinv
  | h :: hs, i, w, t, hinv, hget => by
    refine .seq_eq (table_of hget) ?_
    rcases hins : insertInto t h a i with e | ⟨v, t'⟩
    · refine .bind (forget_spec _) fun _ => fail_spec ?_
      rintro s rfl
      exact World.Inv.forget (h :: hs) (by rw [append_nil]; exact hinv)
    have hplus := (hinv.tables q t hget).plus_insert (insertInto_eq_ok hins)
    refine .bind (setTable_spec q t') fun _ => moveIn_spec ?_ (World.get_setTable hget t')
    refine hinv.setTable hget hplus.ok fun weight => ?_
    rw [hplus.sum weight, map_cons, sum_cons, add_assoc]
    rfl

theorem processGrant_spec (hinv : w.Inv []) (p q : ℕ) (specs : List (RawHandle × List UInt8))
    (a : Answers) : Keeps w (processGrant p q specs a) := by
  refine .bind (takeNamed_spec hinv p specs) fun moved => .pointwise fun s hs => ?_
  have hdrop : ∀ e, Triple (fun s' => s' = s) (do forget moved; fail e : CallM Unit)
      (fun _ s => s.Inv []) (fun _ s => s.Inv []) := by
    intro e
    refine .bind (forget_spec moved) fun _ => fail_spec ?_
    rintro s' rfl
    exact .forget moved (by rw [append_nil]; exact hs)
  rcases a.charge with - | e
  · refine .read fun s' hs' => ?_
    subst hs'
    rcases hget : s'.tables.get q with - | t
    · exact hdrop _
    · exact moveIn_spec hs hget
  · exact hdrop e

/-! ### New channels -/

theorem newChannel_inv {hand : List Handle} (h : w.Inv hand) :
    ({ w with channels := w.channels.insert .new } : World).Inv hand where
  tables := h.tables
  sides i ch b hch := by
    rcases get_insert_eq_some.mp hch with ⟨-, rfl⟩ | hch
    · exact ⟨nofun, rfl, prefix_rfl, fun _ => rfl⟩
    · exact h.sides i ch b hch
  acyclic := by
    refine acyclic_of_sinks h.acyclic ?_
    rintro e f ⟨ch, m, x, hch, hm, hx, hf⟩
    rcases get_insert_eq_some.mp hch with ⟨-, rfl⟩ | hch
    · cases hm
    · exact .inl ⟨ch, m, x, hch, hm, hx, hf⟩
  placed tag := by
    have h1 := sum_insert w.channels Channel.new fun _ c => c.sum (tagged tag)
    have h2 : Channel.new.sum (tagged tag) = 0 := rfl
    have h3 := h.placed tag
    simp only [World.sum] at h3 ⊢
    omega

theorem channelCreate_spec (hinv : w.Inv []) (p : ℕ) (a : Answers) :
    Keeps w (channelCreate p a) := by
  refine .bind (attempt_spec hinv _) fun _ => ?_
  refine .seq (table_spec hinv p) fun t hget => ?_
  refine .read fun s hs => ?_
  subst hs
  -- the world with the channel
  have hnew := newChannel_inv hinv
  refine .bind (Q := fun _ s' => s' = { s with channels := s.channels.insert .new })
    (Triple.update fun _ h => h ▸ rfl) fun _ => ?_
  have hget₁ : ({ s with channels := s.channels.insert .new } : World).tables.get p = some t := hget
  generalize ({ s with channels := s.channels.insert .new } : World) = w₁ at hnew hget₁ ⊢
  refine .ite (fun _ => fail_spec fun _ h => h ▸ hnew) fun _ => ?_
  refine .seq_eq (newHandle_spec _ _) ?_
  have hfirst := hnew.newHandle (.channel ⟨s.channels.next, false⟩) .channel
  rcases hins : insertInto t _ a 0 with e | ⟨v, t₁⟩
  · refine .bind (forget_spec _) fun _ => fail_spec ?_
    rintro _ rfl
    exact .forget [_] hfirst
  have hok := hnew.tables p t hget₁
  have hplus := hok.plus_insert (insertInto_eq_ok hins)
  refine .bind (setTable_spec p t₁) fun _ => ?_
  have hin : (({ w₁ with next := w₁.next + 1 } : World).setTable p t₁).Inv [] :=
    hfirst.setTable hget₁ hplus.ok fun weight => by
      rw [hplus.sum weight]
      rfl
  have hget₂ := World.get_setTable (w := { w₁ with next := w₁.next + 1 }) hget₁ t₁
  refine .seq_eq (newHandle_spec _ _) ?_
  have hsecond := hin.newHandle (.channel ⟨s.channels.next, true⟩) .channel
  rcases hins₂ : insertInto t₁ _ a 1 with e | ⟨v', t₂⟩
  · -- the first is taken out again
    obtain ⟨t₃, hr, -⟩ := hplus.removeFirst
    refine .seq_eq (remove_of hget₂ hr) ?_
    refine .bind (forget_spec _) fun _ => fail_spec ?_
    rintro _ rfl
    refine .forget [_, _] (hsecond.setTable hget₂ (hplus.ok.remove hr).1 fun weight => ?_)
    rw [(hplus.ok.plus_remove hr).sum weight]
    simp only [append_nil, map_cons, map_nil, sum_cons, sum_nil]
    omega
  · have hplus₂ := hplus.ok.plus_insert (insertInto_eq_ok hins₂)
    refine .bind (setTable_spec p t₂) fun _ => .pure ?_
    rintro _ rfl
    refine hsecond.setTable hget₂ hplus₂.ok fun weight => ?_
    rw [hplus₂.sum weight]
    rfl

end CallM

/-! ### Runs -/

namespace World

theorem after_of_triple {α : Type} {x : CallM α} {w : World} {R : World → Prop}
    (h : Triple (fun s => s = w) x (fun _ => R) (fun _ => R)) : R (after x w) := by
  have hx := h w rfl
  unfold after
  revert hx
  rcases x w with ⟨a, s⟩ | ⟨e, s⟩
  · exact id
  · exact id

theorem perform_spec {w : World} (h : w.Inv []) (a : Answers) (c : Call) :
    Triple (fun s => s = w) (perform a c) (fun _ s => s.Inv []) (fun _ s => CallM.Same w s) := by
  cases c with
  | write p e payload values =>
    exact (CallM.channelWrite_spec h p e payload values a).error fun _ s hs => hs ▸ .refl s
  | read p e cap hcap => exact CallM.channelRead_spec h p e cap hcap a

/-- **Every step keeps what holds of the world.** -/
theorem step_inv {w : World} (h : w.Inv []) (op : Op) : (w.step op).Inv [] := by
  have hcalls : ∀ s, (∃ calls, s = { w with calls := calls }) → s.Inv [] := by
    rintro _ ⟨calls, rfl⟩
    exact h.calls calls
  cases op with
  | spawn salt =>
    refine ⟨fun p t ht => ?_, h.sides, h.acyclic, fun tag => ?_⟩
    · rcases get_insert_eq_some.mp ht with ⟨-, rfl⟩ | ht
      · exact .new salt
      · exact h.tables p t ht
    have h1 := sum_insert w.tables (.new salt) fun _ t => t.sum (tagged tag)
    have h2 : (.new salt : HandleTable Handle).sum (tagged tag) = 0 := rfl
    have h3 := h.placed tag
    show (w.tables.insert (.new salt)).sum (fun _ t => t.sum (tagged tag)) +
      w.channels.sum (fun _ c => c.sum (tagged tag)) + (w.dropped.map (tagged tag)).sum + _
        = if tag < w.next then 1 else 0
    unfold World.sum at h3
    omega
  | channelCreate p a => exact after_of_triple (CallM.channelCreate_spec h p a)
  | insertObject p id rights a => exact after_of_triple (CallM.insertObject_spec h p id rights a)
  | handleClose p value => exact after_of_triple (CallM.handleClose_spec h p value)
  | handleDuplicate p value rights a =>
    exact after_of_triple (CallM.handleDuplicate_spec h p value rights a)
  | beginWrite p value payload values a =>
    exact after_of_triple ((CallM.beginWrite_spec p value payload values a).conseq
      (fun _ h => h) (fun _ => hcalls) fun _ s hs => hs ▸ h)
  | beginRead p value cap hcap =>
    exact after_of_triple ((CallM.beginRead_spec p value cap hcap).conseq
      (fun _ h => h) (fun _ => hcalls) fun _ s hs => hs ▸ h)
  | finish k a =>
    rcases hc : w.calls[k]? with - | c
    · rw [show w.step (.finish k a) = w by simp only [World.step, hc]]
      exact h
    · have hk := h.calls (w.calls.eraseIdx k)
      rw [show w.step (.finish k a) = after (perform a c) { w with calls := w.calls.eraseIdx k } by
        simp only [World.step, hc]]
      exact after_of_triple ((perform_spec hk a c).error fun _ s hs => hs.inv hk)
  | processGrant p q specs a => exact after_of_triple (CallM.processGrant_spec h p q specs a)
  | exit p => exact after_of_triple (CallM.exit_spec h p)
  | dropEndpoint e => exact h.dropEndpoint e

theorem empty_inv : empty.Inv [] where
  tables _ _ ht := by cases ht
  sides _ _ _ hch := by cases hch
  acyclic e hcycle := by
    obtain ⟨f, ⟨c, m, x, hc, -⟩, -⟩ := Relation.TransGen.head'_iff.mp hcycle
    cases hc
  placed _ := rfl

theorem run_inv (ops : List Op) {w : World} (h : w.Inv []) : (w.run ops).Inv [] := by
  induction ops generalizing w with
  | nil => exact h
  | cons op ops ih => exact ih (step_inv h op)

/-- Where the handle with a tag is: how often in a table, in a queued message, and among the
dropped. -/
def places (w : World) (tag : ℕ) : ℕ × ℕ × ℕ :=
  (w.tables.sum (fun _ t => t.sum (tagged tag)), w.channels.sum (fun _ c => c.sum (tagged tag)),
    (w.dropped.map (tagged tag)).sum)

/-- **Channels in every interleaving.**  No chain of queued endpoints closes on itself; what a
queue is said to carry is what it carries; every handle given out is in one place; what was
read is what was sent, in order and once; and a write or a read that fails, before its locks
or under them, leaves every queue and what every table holds as they were. -/
theorem run_conserves (ops : List Op) : (∀ e, ¬ Relation.TransGen (empty.run ops).Carries e e) ∧
    (∀ c ch b, (empty.run ops).channels.get c = some ch →
      (ch.ends b).carried = ((ch.ends b).queue.map fun m =>
        m.handles.countP fun h => h.endpoint.isSome).sum ∧
      (ch.ends b).delivered ++ (ch.ends b).queue <+: (ch.ends b).sent) ∧
    (∀ tag, tag < (empty.run ops).next →
      (empty.run ops).places tag ∈ [(1, 0, 0), (0, 1, 0), (0, 0, 1)]) ∧
    (∀ a c err s, perform a c (empty.run ops) = .error err s → CallM.Same (empty.run ops) s) ∧
    (∀ p value payload values a err s,
      CallM.beginWrite p value payload values a (empty.run ops) = .error err s →
        s = empty.run ops) ∧
    ∀ p value cap hcap err s,
      CallM.beginRead p value cap hcap (empty.run ops) = .error err s → s = empty.run ops := by
  have hinv := run_inv ops empty_inv
  generalize empty.run ops = w at hinv ⊢
  refine ⟨hinv.acyclic, fun c ch b hch => ?_, fun tag htag => ?_, fun a c err s herr => ?_,
    fun p value payload values a err s herr => ?_, fun p value cap hcap err s herr => ?_⟩
  · have hgood := hinv.sides c ch b hch
    refine ⟨hgood.carried.trans (congrArg List.sum (map_congr_left fun m hm => ?_)), hgood.order⟩
    exact hgood.counted m hm
  · have hplaced := hinv.placed tag
    rw [if_pos htag] at hplaced
    simp only [World.sum, map_nil, sum_nil] at hplaced
    unfold places
    generalize w.tables.sum (fun _ t => t.sum (tagged tag)) = x at hplaced ⊢
    generalize w.channels.sum (fun _ c => c.sum (tagged tag)) = y at hplaced ⊢
    generalize (w.dropped.map (tagged tag)).sum = z at hplaced ⊢
    simp only [mem_cons, Prod.mk.injEq, not_mem_nil, or_false]
    omega
  · exact (perform_spec hinv a c).of_error rfl herr
  · exact (CallM.beginWrite_spec p value payload values a).of_error rfl herr
  · exact (CallM.beginRead_spec p value cap hcap).of_error rfl herr

def granted : Answers := ⟨none, fun _ => none, fun _ => none, fun _ => true, fun _ => true⟩

/-- A process makes two channels and sends an end of the second through the first. -/
def sendsEnd : List Op :=
  [.spawn 0, .channelCreate 0 granted, .channelCreate 0 granted, .beginWrite 0 1 [] [3] granted,
    .finish 0 granted]

theorem run_conserves_sendsEnd :
    (empty.run sendsEnd).places 2 = (0, 1, 0) ∧ (empty.run sendsEnd).next = 4 ∧
      ∀ e, ¬ Relation.TransGen (empty.run sendsEnd).Carries e e :=
  ⟨by decide +kernel, by decide +kernel, (run_conserves sendsEnd).1⟩

end World

end Moruna.Kernel
