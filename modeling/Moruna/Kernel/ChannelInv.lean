/-
Moruna/Kernel/ChannelInv.lean

What holds of processes and their channels, and how each change of them keeps that.

A write only ever points a queue at endpoints whose own queues carry none, so no chain of
queued endpoints closes on itself (`acyclic_of_sinks`).  The handles are counted: each tag
given out is in one place, while those in a call's hands are kept beside the world.

* `Inv.setTable`, `Inv.onSide`, `Inv.push`, `Inv.pop`, `Inv.dropEndpoint` — one lemma for
  each change.
-/
import Moruna.Kernel.Channel

namespace Moruna.Kernel

open List Registry

/-! ### Cycles -/

/-- Edges that are new lead to where no edge leaves, so they are on no cycle. -/
theorem acyclic_of_sinks {α : Type} {r r' : α → α → Prop} (h : ∀ a, ¬ Relation.TransGen r a a)
    (hnew : ∀ a b, r' a b → r a b ∨ ∀ c, ¬ r' b c) (a : α) : ¬ Relation.TransGen r' a a := by
  -- a path that can be continued has no new edge
  have key : ∀ {x y}, Relation.TransGen r' x y → (∃ z, r' y z) → Relation.TransGen r x y := by
    intro x y hxy
    induction hxy with
    | single hxy =>
      rintro ⟨z, hz⟩
      exact .single ((hnew _ _ hxy).resolve_right fun hno => hno z hz)
    | tail _ hyz ih =>
      rintro ⟨u, hu⟩
      exact (ih ⟨_, hyz⟩).tail ((hnew _ _ hyz).resolve_right fun hno => hno u hu)
  intro hcycle
  obtain ⟨z, hz, -⟩ := Relation.TransGen.head'_iff.mp hcycle
  exact h a (key hcycle ⟨z, hz⟩)

/-! ### What holds of the world -/

namespace Side

/-- What a channel keeps for an endpoint: the counts are those of the queue, and what was
read and what is queued is what was sent, in order. -/
structure Good (s : Side) : Prop where
  counted : ∀ m ∈ s.queue, m.endpoints = m.handles.countP fun h => h.endpoint.isSome
  carried : s.carried = (s.queue.map Message.endpoints).sum
  order : s.delivered ++ s.queue <+: s.sent
  whole : s.isOpen = true → s.delivered ++ s.queue = s.sent

end Side

/-- Whether a handle is the one with the tag. -/
def tagged (tag : ℕ) (h : Handle) : ℕ := if h.tag = tag then 1 else 0

namespace World

variable {w : World}

/-- The weights of all handles, in tables, in messages and dropped, added up. -/
def sum (w : World) (weight : Handle → ℕ) : ℕ :=
  w.tables.sum (fun _ t => t.sum weight) + w.channels.sum (fun _ c => c.sum weight) +
    (w.dropped.map weight).sum

/-- A message queued towards `e` carries `f`. -/
def Carries (w : World) (e f : Endpoint) : Prop :=
  ∃ c m h, w.channels.get e.channel = some c ∧ m ∈ (c.ends e.side).queue ∧ h ∈ m.handles ∧
    h.endpoint = some f

/-- **What holds of the world**, with the handles `hand` in the hands of a call. -/
structure Inv (hand : List Handle) (w : World) : Prop where
  tables : ∀ p t, w.tables.get p = some t → t.Ok
  sides : ∀ c ch b, w.channels.get c = some ch → (ch.ends b).Good
  acyclic : ∀ e, ¬ Relation.TransGen w.Carries e e
  placed : ∀ tag, w.sum (tagged tag) + (hand.map (tagged tag)).sum = if tag < w.next then 1 else 0

/-! ### How the world changes -/

variable {t : HandleTable Handle} {e : Endpoint} {c : Channel} {hand : List Handle}
  {f : Side → Side}

variable {p : ℕ} {hand' : List Handle} {m : Message}

theorem sum_setTable (h : w.tables.get p = some t) (t' : HandleTable Handle) (weight : Handle → ℕ) :
    (w.setTable p t').sum weight + t.sum weight = w.sum weight + t'.sum weight := by
  have := sum_modify h (fun _ => t') fun _ t => t.sum weight
  simp only [sum, setTable]
  omega

theorem sum_modify_channel (c : Channel) (b : Bool) (f : Side → Side) (weight : Handle → ℕ) :
    (c.modify b f).sum weight + (c.ends b).sum weight
      = c.sum weight + (f (c.ends b)).sum weight := by
  cases b <;> simp [Channel.sum, Channel.modify] <;> omega

theorem sum_onSide (h : w.channels.get e.channel = some c) (f : Side → Side) (weight : Handle → ℕ) :
    (w.onSide e f).sum weight + (c.ends e.side).sum weight
      = w.sum weight + (f (c.ends e.side)).sum weight := by
  have h1 := sum_modify h (fun c => c.modify e.side f) fun _ c => c.sum weight
  have h2 := sum_modify_channel c e.side f weight
  simp only [sum, onSide]
  omega

theorem sum_forget (hs : List Handle) (weight : Handle → ℕ) :
    (w.forget hs).sum weight = w.sum weight + (hs.map weight).sum := by
  simp only [sum, forget, map_append, sum_append]
  omega

/-- A table changes against the handles in hand. -/
theorem Inv.setTable {t' : HandleTable Handle} (h : w.Inv hand)
    (hget : w.tables.get p = some t) (hok : t'.Ok)
    (hsum : ∀ weight, t'.sum weight + (hand'.map weight).sum =
      t.sum weight + (hand.map weight).sum) : (w.setTable p t').Inv hand' := { h with
  tables q u hu := by
    rcases get_modify_eq_some.mp hu with ⟨-, hu⟩ | ⟨-, x, -, rfl⟩
    · exact h.tables q u hu
    · exact hok
  placed tag := by
    have h1 := sum_setTable hget t' (tagged tag)
    have h2 := hsum (tagged tag)
    have h3 := h.placed tag
    show _ = if tag < w.next then 1 else 0
    omega }

theorem Inv.forget (hs : List Handle) (h : w.Inv (hs ++ hand)) : (w.forget hs).Inv hand := { h with
  placed tag := by
    have := h.placed tag
    rw [map_append, sum_append] at this
    rw [sum_forget]
    show _ = if tag < w.next then 1 else 0
    omega }

theorem Inv.calls (h : w.Inv hand) (calls : List Call) :
    ({ w with calls := calls } : World).Inv hand := ⟨h.tables, h.sides, h.acyclic, h.placed⟩

theorem Inv.newHandle (h : w.Inv hand) (object : Object) (rights : Rights) :
    ({ w with next := w.next + 1 } : World).Inv (⟨w.next, object, rights⟩ :: hand) := { h with
  placed tag := by
    have h1 := h.placed tag
    show w.sum (tagged tag) + _ = if tag < w.next + 1 then 1 else 0
    rw [map_cons]
    unfold tagged at h1 ⊢
    split at h1 <;> split <;> split <;> simp_all <;> omega }

/-! ### Queues -/

/-- The queue of an endpoint after a change of one side. -/
theorem get_onSide {i : ℕ} {c' : Channel} (h : (w.onSide e f).channels.get i = some c') :
    ∃ c, w.channels.get i = some c ∧
      ∀ b, c'.ends b = if i = e.channel ∧ b = e.side then f (c.ends b) else c.ends b := by
  rcases get_modify_eq_some.mp h with ⟨hne, hc⟩ | ⟨rfl, c, hc, rfl⟩
  · exact ⟨c', hc, fun b => by rw [if_neg fun hi => hne hi.1]⟩
  · refine ⟨c, hc, fun b => ?_⟩
    simp [Channel.modify]

/-- A side changes against the handles in hand; where its queue carries endpoints it did not,
they carry none. -/
theorem Inv.onSide (h : w.Inv hand) (hget : w.channels.get e.channel = some c)
    (hgood : (f (c.ends e.side)).Good)
    (hsum : ∀ weight, (f (c.ends e.side)).sum weight + (hand'.map weight).sum =
      (c.ends e.side).sum weight + (hand.map weight).sum)
    (hnew : ∀ m ∈ (f (c.ends e.side)).queue, ∀ x ∈ m.handles, ∀ g, x.endpoint = some g →
      m ∈ (c.ends e.side).queue ∨ g ≠ e ∧ ∀ k, ¬ w.Carries g k) :
    (w.onSide e f).Inv hand' where
  tables := h.tables
  sides i ch b hch := by
    obtain ⟨c', hc', hends⟩ := get_onSide hch
    rw [hends]
    split
    · rename_i hi
      obtain ⟨rfl, rfl⟩ := hi
      rw [hget] at hc'
      cases hc'
      exact hgood
    · exact h.sides i c' b hc'
  acyclic := by
    refine acyclic_of_sinks h.acyclic ?_
    rintro a b ⟨ch, m, x, hch, hm, hx, hb⟩
    obtain ⟨c', hc', hends⟩ := get_onSide hch
    rw [hends] at hm
    split at hm
    · rename_i ha
      have hae : a = e := by
        cases a
        cases e
        simp_all
      subst hae
      rw [hget] at hc'
      cases hc'
      rcases hnew m hm x hx b hb with hold | ⟨hne, hsink⟩
      · exact .inl ⟨c, m, x, hget, hold, hx, hb⟩
      -- a new edge: its end still carries nothing
      refine .inr fun k hk => ?_
      obtain ⟨ch', m', x', hch', hm', hx', hk'⟩ := hk
      obtain ⟨c'', hc'', hends'⟩ := get_onSide hch'
      rw [hends', if_neg] at hm'
      · exact hsink k ⟨c'', m', x', hc'', hm', hx', hk'⟩
      rintro ⟨h1, h2⟩
      apply hne
      cases a
      cases b
      simp_all
    · exact .inl ⟨c', m, x, hc', hm, hx, hb⟩
  placed tag := by
    have h1 := sum_onSide hget f (tagged tag)
    have h2 := hsum (tagged tag)
    have h3 := h.placed tag
    show _ = if tag < w.next then 1 else 0
    omega

/-- No message queued towards an endpoint with nothing carried carries one. -/
theorem Inv.not_carries (h : w.Inv hand) (hnone : CallM.carriesNone w e = true) (f : Endpoint) :
    ¬ w.Carries e f := by
  rintro ⟨c, m, x, hc, hm, hx, hf⟩
  unfold CallM.carriesNone at hnone
  rw [hc] at hnone
  have hgood := h.sides e.channel c e.side hc
  have hzero : (c.ends e.side).carried = 0 := by simpa using hnone
  have hle : m.endpoints ≤ ((c.ends e.side).queue.map Message.endpoints).sum :=
    single_le_sum (fun _ _ => Nat.zero_le _) _ (mem_map_of_mem hm)
  have hpos : 0 < m.endpoints := by
    rw [hgood.counted m hm]
    exact countP_pos_iff.mpr ⟨x, hx, by rw [hf]; rfl⟩
  rw [← hgood.carried] at hle
  omega

/-- **A message is queued**, with the handles in hand: the endpoints among them are of other
channels, and carry none. -/
theorem Inv.push (h : w.Inv (m.handles ++ hand))
    (hget : w.channels.get e.channel = some c) (hopen : (c.ends e.side).isOpen = true)
    (hcount : m.endpoints = m.handles.countP fun h => h.endpoint.isSome)
    (hrule : ∀ x ∈ m.handles, ∀ g, x.endpoint = some g → g.channel ≠ e.channel ∧
      CallM.carriesNone w g = true) :
    (w.onSide e fun s => (s.carry m.endpoints).push m).Inv hand := by
  have hgood := h.sides e.channel c e.side hget
  have hsent : (c.ends e.side).delivered ++ ((c.ends e.side).queue ++ [m])
      = (c.ends e.side).sent ++ [m] := by
    rw [← hgood.whole hopen, append_assoc]
  refine h.onSide hget ⟨fun m' hm' => ?_, ?_, ?_, fun _ => ?_⟩ (fun weight => ?_)
    fun m' hm' x hx g hg => ?_
  · rcases mem_append.mp hm' with hm' | hm'
    · exact hgood.counted m' hm'
    · rw [mem_singleton.mp hm']
      exact hcount
  · show (c.ends e.side).carried + m.endpoints = (((c.ends e.side).queue ++ [m]).map _).sum
    rw [hgood.carried, map_append]
    simp
  · exact ⟨[], (append_nil _).trans hsent⟩
  · exact hsent
  · simp only [Side.sum, Side.push, Side.carry, map_append, sum_append, map_cons,
      map_nil, sum_cons, sum_nil]
    omega
  · rcases mem_append.mp hm' with hm' | hm'
    · exact .inl hm'
    · rw [mem_singleton.mp hm'] at hx
      obtain ⟨hne, hnone⟩ := hrule x hx g hg
      exact .inr ⟨fun hge => hne (by rw [hge]), h.not_carries hnone⟩

/-- **A message is read**: its handles are in hand. -/
theorem Inv.pop {rest : List Message} (h : w.Inv hand)
    (hget : w.channels.get e.channel = some c) (hqueue : (c.ends e.side).queue = m :: rest) :
    (w.onSide e Side.pop).Inv (m.handles ++ hand) := by
  have hgood := h.sides e.channel c e.side hget
  have hpop : (c.ends e.side).pop = .uncarry m.endpoints
      { c.ends e.side with queue := rest, delivered := (c.ends e.side).delivered ++ [m] } := by
    unfold Side.pop
    rw [hqueue]
  have hcarried := hgood.carried
  have hcounted := hgood.counted
  have horder := hgood.order
  have hwhole := hgood.whole
  rw [hqueue] at hcarried hcounted horder hwhole
  refine h.onSide hget ?_ (fun weight => ?_) fun m' hm' x hx g hg => ?_
  · rw [hpop]
    refine ⟨fun m' hm' => hcounted m' (mem_cons_of_mem _ hm'), ?_, ?_, fun hopen => ?_⟩
    · show (c.ends e.side).carried - m.endpoints = (rest.map _).sum
      rw [hcarried, map_cons, sum_cons, Nat.add_sub_cancel_left]
    · show ((c.ends e.side).delivered ++ [m]) ++ rest <+: (c.ends e.side).sent
      rw [append_assoc]
      exact horder
    · show ((c.ends e.side).delivered ++ [m]) ++ rest = (c.ends e.side).sent
      rw [append_assoc]
      exact hwhole hopen
  · rw [hpop]
    simp only [Side.sum, Side.uncarry, hqueue, map_append, sum_append, map_cons, sum_cons]
    omega
  · rw [hpop] at hm'
    rw [hqueue]
    exact .inl (mem_cons_of_mem _ hm')

theorem sum_flatMap_handles (weight : Handle → ℕ) : ∀ queue : List Message,
    ((queue.flatMap Message.handles).map weight).sum
      = (queue.map fun m => (m.handles.map weight).sum).sum
  | [] => rfl
  | m :: queue => by
    rw [flatMap_cons, map_append, sum_append, sum_flatMap_handles weight queue, map_cons, sum_cons]

/-- **An endpoint closes**, and the handles queued towards it are dropped. -/
theorem Inv.dropEndpoint (h : w.Inv []) (e : Endpoint) : (w.dropEndpoint e).Inv [] := by
  unfold World.dropEndpoint
  rcases hget : w.channels.get e.channel with - | c
  · exact h
  simp only
  split
  swap
  · exact h
  have hgood := h.sides e.channel c e.side hget
  refine .forget _ (h.onSide hget ⟨nofun, ?_, ?_, nofun⟩ (fun weight => ?_) nofun)
  · show (c.ends e.side).carried - _ = 0
    rw [hgood.carried, Nat.sub_self]
  · show (c.ends e.side).delivered ++ [] <+: (c.ends e.side).sent
    rw [append_nil]
    exact (prefix_append _ _).trans hgood.order
  · rw [append_nil, sum_flatMap_handles]
    simp [Side.sum, Side.close]

theorem get_setTable (h : w.tables.get p = some t) (t' : HandleTable Handle) :
    (w.setTable p t').tables.get p = some t' := by
  simp [World.setTable, get_modify, h]

@[simp] theorem setTable_setTable (w : World) (p : ℕ) (t t' : HandleTable Handle) :
    (w.setTable p t).setTable p t' = w.setTable p t' := by
  simp only [World.setTable, modify_modify]
  rfl

theorem setTable_eq_self (h : w.tables.get p = some t) : w.setTable p t = w := by
  unfold World.setTable
  rw [modify_eq_self fun x hx => ?_]
  rw [h] at hx
  exact Option.some.inj hx

theorem onSide_onSide (w : World) (e : Endpoint) (f g : Side → Side) :
    (w.onSide e f).onSide e g = w.onSide e (g ∘ f) := by
  simp only [World.onSide, modify_modify]
  refine congrArg (fun r => ({ w with channels := r } : World)) (congrArg _ (funext fun c => ?_))
  simp only [Function.comp, Channel.modify, Channel.mk.injEq]
  funext b
  split <;> rfl

theorem onSide_eq_self (h : ∀ s, f s = s) : w.onSide e f = w := by
  unfold World.onSide
  rw [modify_eq_self fun c _ => ?_]
  unfold Channel.modify
  simp [h]

end World

end Moruna.Kernel
