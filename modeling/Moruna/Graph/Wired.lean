/-
Moruna/Graph/Wired.lean

What an accepted topology is: its tables and its links say the same.

`new` walks the links once and fills the tables of inputs and outputs as it goes, so the
invariant is about the links walked so far; `align` only marks stages.  From here on a proof
reads a topology through `Wired` and never through the walk.

* `Accepted.wired` — **every topology `new` and `align` accept is wired**.
-/
import Moruna.Lib.Slices
import Moruna.Graph.Topology

namespace Moruna.Graph

open List

/-! ### Lists of lists -/

/-- What is listed under index `i`. -/
def row {α : Type*} (l : List (List α)) (i : ℕ) : List α := l[i]?.getD []

theorem mem_row {α : Type*} {l : List (List α)} {i : ℕ} {x : α} :
    x ∈ row l i ↔ ∃ xs, l[i]? = some xs ∧ x ∈ xs := by
  unfold row
  cases l[i]? <;> simp

theorem mem_row_modify {α : Type*} {l : List (List α)} {i : ℕ} (hi : i < l.length) (x y : α)
    (j : ℕ) : y ∈ row (l.modify i (· ++ [x])) j ↔ y ∈ row l j ∨ (j = i ∧ y = x) := by
  unfold row
  rcases eq_or_ne i j with rfl | hne
  · simp [getElem?_eq_getElem hi]
  · simp [hne, hne.symm]

theorem row_set {α : Type*} {l : List (List α)} {i : ℕ} (hi : i < l.length) (x : List α) (j : ℕ) :
    row (l.set i x) j = if j = i then x else row l j := by
  unfold row
  rcases eq_or_ne i j with rfl | hne
  · simp [hi]
  · simp [hne, hne.symm]

/-! ### One link -/

namespace Wiring

/-- The producer is one the run has. -/
def ProducerOk (sources stages : ℕ) : Producer → Prop
  | .source i => i < sources
  | .kernel s => 1 ≤ s ∧ s ≤ stages

/-- The consumer is one the run has, and a stage's queue comes from a lower stage. -/
def ConsumerOk (stages sinks : ℕ) (producer : Producer) : Consumer → Prop
  | .kernel s _ => (1 ≤ s ∧ s ≤ stages) ∧ ∀ k, producer = .kernel k → k < s
  | .sink t => t < sinks

variable {w : Wiring}

theorem leave_spec {w' : Wiring} {sources stages q : ℕ} {producer : Producer}
    (hs : w.sourceOutputs.length = sources) (hk : w.stageOutputs.length = stages)
    (h : w.leave sources stages q producer = .ok w') :
    ProducerOk sources stages producer ∧
    w'.stageInputs = w.stageInputs ∧ w'.sinkInputs = w.sinkInputs ∧
    w'.sourceOutputs.length = sources ∧ w'.stageOutputs.length = stages ∧
    (∀ i x, x ∈ row w'.sourceOutputs i ↔
      x ∈ row w.sourceOutputs i ∨ (producer = .source i ∧ x = q)) ∧
    (∀ s x, 1 ≤ s → (x ∈ row w'.stageOutputs (s - 1) ↔
      x ∈ row w.stageOutputs (s - 1) ∨ (producer = .kernel s ∧ x = q))) := by
  cases producer with
  | source i =>
    simp only [leave] at h
    split at h
    · rename_i hi
      obtain rfl := Except.ok.inj h
      refine ⟨hi, rfl, rfl, by simpa using hs, hk, fun j x => ?_, fun s x _ => by simp⟩
      rw [mem_row_modify (by omega)]
      simp [eq_comm]
    · cases h
  | kernel k =>
    simp only [leave] at h
    split at h
    · rename_i hi
      obtain rfl := Except.ok.inj h
      refine ⟨hi, rfl, rfl, hs, by simpa using hk, fun j x => by simp, fun s x hs1 => ?_⟩
      rw [mem_row_modify (by omega)]
      have hiff : s - 1 = k - 1 ↔ k = s := by omega
      simp [hiff]
    · cases h

theorem getElem?_widen {ports : List (Option ℕ)} {port p q : ℕ} :
    (widen ports port)[p]? = some (some q) ↔ ports[p]? = some (some q) := by
  unfold widen
  rw [getElem?_append]
  split
  · rfl
  · have hnone : ports[p]? = none := getElem?_eq_none (by omega)
    rw [hnone, getElem?_replicate]
    split <;> simp

theorem plug_spec {w' : Wiring} {stage port q : ℕ} (hlt : stage - 1 < w.stageInputs.length)
    (h : arrive.plug q w stage port = .ok w') :
    w'.stageOutputs = w.stageOutputs ∧ w'.sourceOutputs = w.sourceOutputs ∧
    w'.sinkInputs = w.sinkInputs ∧ w'.stageInputs.length = w.stageInputs.length ∧
    (∀ s p x, (row w'.stageInputs s)[p]? = some (some x) ↔
      (row w.stageInputs s)[p]? = some (some x) ∨ (s = stage - 1 ∧ p = port ∧ x = q)) := by
  unfold arrive.plug at h
  simp only at h
  split at h
  · cases h
  rename_i hfree
  obtain rfl := Except.ok.inj h
  refine ⟨rfl, rfl, rfl, by simp, fun s p x => ?_⟩
  have hrow : w.stageInputs.getD (stage - 1) [] = row w.stageInputs (stage - 1) := rfl
  rw [hrow] at hfree ⊢
  rw [row_set hlt]
  rcases eq_or_ne s (stage - 1) with rfl | hne
  · rw [if_pos rfl, getElem?_set]
    rcases eq_or_ne port p with rfl | hp
    · -- the port was free, and has room after the widening
      have hlen : port < (widen (row w.stageInputs (stage - 1)) port).length := by
        unfold widen
        rw [length_append, length_replicate]
        omega
      have hold : (row w.stageInputs (stage - 1))[port]? ≠ some (some x) := by
        intro hx
        rw [← @getElem?_widen _ port] at hx
        simp [getD_eq_getElem?_getD, hx] at hfree
      simp [hlen, hold, eq_comm]
    · rw [if_neg hp, getElem?_widen]
      simp [hp.symm]
  · simp [hne]

theorem arrive_spec {w' : Wiring} {stages sinks q : ℕ} {link : Link}
    (hs : w.stageInputs.length = stages) (hk : w.sinkInputs.length = sinks)
    (h : w.arrive stages sinks q link = .ok w') :
    ConsumerOk stages sinks link.source link.target ∧
    w'.stageOutputs = w.stageOutputs ∧ w'.sourceOutputs = w.sourceOutputs ∧
    w'.stageInputs.length = stages ∧ w'.sinkInputs.length = sinks ∧
    (∀ s p x, 1 ≤ s → ((row w'.stageInputs (s - 1))[p]? = some (some x) ↔
      (row w.stageInputs (s - 1))[p]? = some (some x) ∨ (link.target = .kernel s p ∧ x = q))) ∧
    (∀ t x, x ∈ row w'.sinkInputs t ↔
      x ∈ row w.sinkInputs t ∨ (link.target = .sink t ∧ x = q)) := by
  obtain ⟨producer, consumer⟩ := link
  cases consumer with
  | kernel stage port =>
    simp only [arrive] at h
    split at h
    · rename_i hstage
      have hplug : arrive.plug q w stage port = .ok w' ∧
          ∀ k, producer = .kernel k → k < stage := by
        cases producer with
        | source i => exact ⟨h, by simp⟩
        | kernel k =>
          simp only at h
          split at h
          · cases h
          · refine ⟨h, fun k' hk' => ?_⟩
            cases hk'
            omega
      obtain ⟨hout, hsrc, hsink, hlen, hports⟩ := plug_spec (by omega) hplug.1
      refine ⟨⟨hstage, hplug.2⟩, hout, hsrc, hlen.trans hs, by rw [hsink, hk], ?_, ?_⟩
      · intro s p x hs1
        rw [hports]
        have hiff : s - 1 = stage - 1 ∧ p = port ∧ x = q ↔
            Consumer.kernel stage port = .kernel s p ∧ x = q := by
          rw [Consumer.kernel.injEq]
          constructor
          · rintro ⟨h₁, h₂, h₃⟩; exact ⟨⟨by omega, h₂.symm⟩, h₃⟩
          · rintro ⟨⟨h₁, h₂⟩, h₃⟩; exact ⟨by omega, h₂.symm, h₃⟩
        rw [hiff]
      · intro t x
        rw [hsink]
        simp
    · cases h
  | sink t =>
    simp only [arrive] at h
    split at h
    · rename_i ht
      obtain rfl := Except.ok.inj h
      refine ⟨ht, rfl, rfl, hs, by simpa using hk, fun s p x _ => by simp, fun j x => ?_⟩
      rw [mem_row_modify (by omega)]
      simp [eq_comm]
    · cases h

/-- The tables hold exactly the links walked so far, and each link names what the run has. -/
structure Wires (w : Wiring) (sources stages sinks : ℕ) (links : List Link) : Prop where
  inputs_length : w.stageInputs.length = stages
  outputs_length : w.stageOutputs.length = stages
  sources_length : w.sourceOutputs.length = sources
  sinks_length : w.sinkInputs.length = sinks
  port_iff : ∀ s p q, 1 ≤ s → ((row w.stageInputs (s - 1))[p]? = some (some q) ↔
    ∃ producer, links[q]? = some (Link.mk producer (.kernel s p)))
  output_iff : ∀ s q, 1 ≤ s → (q ∈ row w.stageOutputs (s - 1) ↔
    ∃ consumer, links[q]? = some (Link.mk (.kernel s) consumer))
  source_iff : ∀ i q, q ∈ row w.sourceOutputs i ↔
    ∃ consumer, links[q]? = some (Link.mk (.source i) consumer)
  sink_iff : ∀ t q, q ∈ row w.sinkInputs t ↔
    ∃ producer, links[q]? = some (Link.mk producer (.sink t))
  ends : ∀ (q : ℕ) (link : Link), links[q]? = some link →
    ProducerOk sources stages link.source ∧ ConsumerOk stages sinks link.source link.target

theorem Wires.empty (sources stages sinks : ℕ) :
    (Wiring.empty sources stages sinks).Wires sources stages sinks [] := by
  have hrow : ∀ {α : Type} (n i : ℕ), row (List.replicate n ([] : List α)) i = [] := by
    intro α n i
    unfold row
    rw [getElem?_replicate]
    split <;> rfl
  refine ⟨by simp [Wiring.empty], by simp [Wiring.empty], by simp [Wiring.empty],
    by simp [Wiring.empty], ?_, ?_, ?_, ?_, by simp⟩ <;> simp [Wiring.empty, hrow]

/-- **One link attached.** -/
theorem attach_wires {w' : Wiring} {sources stages sinks : ℕ} {links : List Link} {link : Link}
    (hw : w.Wires sources stages sinks links)
    (h : attach sources stages sinks w (link, links.length) = .ok w') :
    w'.Wires sources stages sinks (links ++ [link]) := by
  obtain ⟨v, hleave, harrive⟩ := seq_eq_ok.mp h
  obtain ⟨hp, hv₁, hv₂, hv₃, hv₄, hsrc, hout⟩ :=
    leave_spec hw.sources_length hw.outputs_length hleave
  obtain ⟨hc, hw₁, hw₂, hw₃, hw₄, hport, hsink⟩ :=
    arrive_spec (by rw [hv₁]; exact hw.inputs_length) (by rw [hv₂]; exact hw.sinks_length) harrive
  have hnew : ∀ {φ : Link → Prop} (q : ℕ), (∃ l, links[q]? = some l ∧ φ l) ∨
      (φ link ∧ q = links.length) ↔ ∃ l, (links ++ [link])[q]? = some l ∧ φ l := by
    intro φ q
    simp only [getElem?_concat_eq_some, or_and_right, exists_or]
    refine or_congr_right ⟨fun h => ⟨link, ⟨h.2, rfl⟩, h.1⟩, ?_⟩
    rintro ⟨l, ⟨hq, rfl⟩, hl⟩
    exact ⟨hl, hq⟩
  have hto : ∀ (c : Consumer) (ls : List Link) (q : ℕ),
      (∃ producer, ls[q]? = some (.mk producer c)) ↔ ∃ l, ls[q]? = some l ∧ l.target = c := by
    intro c ls q
    constructor
    · rintro ⟨p, h⟩; exact ⟨_, h, rfl⟩
    · rintro ⟨⟨p, c'⟩, h, rfl⟩; exact ⟨p, h⟩
  have hfrom : ∀ (p : Producer) (ls : List Link) (q : ℕ),
      (∃ consumer, ls[q]? = some (.mk p consumer)) ↔ ∃ l, ls[q]? = some l ∧ l.source = p := by
    intro p ls q
    constructor
    · rintro ⟨c, h⟩; exact ⟨_, h, rfl⟩
    · rintro ⟨⟨p', c⟩, h, rfl⟩; exact ⟨c, h⟩
  refine ⟨hw₃, by rw [hw₁]; exact hv₄, by rw [hw₂]; exact hv₃, hw₄, ?_, ?_, ?_, ?_, ?_⟩
  · intro s p q hs
    rw [hport s p q hs, hv₁, hw.port_iff s p q hs, hto, hto, ← hnew]
  · intro s q hs
    rw [hw₁, hout s q hs, hw.output_iff s q hs, hfrom, hfrom, ← hnew]
  · intro i q
    rw [hw₂, hsrc, hw.source_iff, hfrom, hfrom, ← hnew]
  · intro t q
    rw [hsink, hv₂, hw.sink_iff, hto, hto, ← hnew]
  · intro q l hl
    rcases getElem?_concat_eq_some.mp hl with hl | ⟨-, rfl⟩
    · exact hw.ends q l hl
    · exact ⟨hp, hc⟩

theorem wires_of_foldlM {sources stages sinks : ℕ} {links : List Link}
    (h : links.zipIdx.foldlM (attach sources stages sinks)
      (Wiring.empty sources stages sinks) = .ok w) :
    w.Wires sources stages sinks links := by
  induction links using List.reverseRecOn generalizing w with
  | nil =>
    obtain rfl := Except.ok.inj h
    exact .empty _ _ _
  | append_singleton links link ih =>
    rw [zipIdx_append, foldlM_append, seq_eq_ok] at h
    obtain ⟨v, hv, h⟩ := h
    obtain ⟨v', h, hnil⟩ := seq_eq_ok.mp h
    obtain rfl := Except.ok.inj hnil
    refine attach_wires (ih hv) ?_
    simpa using h

end Wiring

/-! ### Accepted topologies -/

namespace Topology

/-- The tables of a topology and its links say the same: port `p` of stage `s` takes the queue
that goes there, a stage's and a source's outputs are the queues that come from it, each sink
takes the one queue that goes there, and queues between stages go forward. -/
structure Wired (t : Topology) : Prop where
  input_iff : ∀ s p q, (t.inputs s)[p]? = some q ↔
    ∃ producer, t.link q = some ⟨producer, .kernel s p⟩
  output_iff : ∀ s q, q ∈ t.outputs s ↔ ∃ consumer, t.link q = some ⟨.kernel s, consumer⟩
  source_iff : ∀ i q, q ∈ row t.sourceOutputs i ↔ ∃ consumer, t.link q = some ⟨.source i, consumer⟩
  sink_iff : ∀ k q, t.sinkInput k = some q ↔ ∃ producer, t.link q = some ⟨producer, .sink k⟩
  producer_ok : ∀ q link, t.link q = some link → Wiring.ProducerOk t.sources t.stages link.source
  consumer_ok : ∀ q link, t.link q = some link →
    Wiring.ConsumerOk t.stages t.sinks link.source link.target
  inputs_ne_nil : ∀ s, 1 ≤ s → s ≤ t.stages → t.inputs s ≠ []
  sinks_length : t.sinkInputs.length = t.sinks
  sources_length : t.sourceOutputs.length = t.sources
  aligned_length : t.aligned.length = t.stages

/-- What `new` accepts, and what `align` makes of what was accepted. -/
inductive Accepted : Topology → Prop
  | new {sources stages sinks : ℕ} {links : List Link} {t : Topology} :
      new sources stages sinks links = .ok t → Accepted t
  | align {t t' : Topology} {stages : List ℕ} :
      Accepted t → t.align stages = .ok t' → Accepted t'

theorem checkPorts_eq_ok {ports : List (Option ℕ)} {stage : ℕ} {queues : List ℕ}
    (h : checkPorts ports stage = .ok queues) : ports = queues.map some ∧ queues ≠ [] := by
  unfold checkPorts at h
  split at h
  · cases h
  rename_i hne
  obtain ⟨hlen, hget⟩ := mapM_zipIdx_eq_ok h
  have heq : ports = queues.map some := by
    refine ext_getElem? fun i => ?_
    rw [getElem?_map]
    cases hi : ports[i]? with
    | none =>
      have : queues[i]? = none := getElem?_eq_none (by
        rw [hlen]
        exact getElem?_eq_none_iff.mp hi)
      rw [this]
      rfl
    | some x =>
      obtain ⟨y, hy, hx⟩ := hget i x hi
      rw [hy]
      cases x with
      | none => cases hx
      | some q =>
        obtain rfl := Except.ok.inj hx
        rfl
  refine ⟨heq, ?_⟩
  rintro rfl
  rw [heq] at hne
  exact hne rfl

theorem checkSink_eq_ok {queues : List ℕ} {index q : ℕ} (h : checkSink queues index = .ok q) :
    queues = [q] := by
  unfold checkSink at h
  split at h
  · obtain rfl := Except.ok.inj h
    rfl
  · cases h
  · cases h

theorem inputs_eq (t : Topology) (s : ℕ) :
    t.inputs s = if s = 0 then [] else row t.stageInputs (s - 1) := by
  unfold inputs ofStage
  split <;> rfl

theorem outputs_eq (t : Topology) (s : ℕ) :
    t.outputs s = if s = 0 then [] else row t.stageOutputs (s - 1) := by
  unfold outputs ofStage
  split <;> rfl

variable {t : Topology}

theorem new_eq_ok {sources stages sinks : ℕ} {links : List Link}
    (h : new sources stages sinks links = .ok t) :
    ∃ (w : Wiring) (inputs : List (List ℕ)) (sinkQueue : List ℕ)
      (paths : List (List (ℕ × Affine))),
      w.Wires sources stages sinks links ∧
      w.stageInputs.zipIdx.mapM (fun (ports, index) => checkPorts ports (index + 1)) =
        .ok inputs ∧
      w.sinkInputs.zipIdx.mapM (fun (queues, index) => checkSink queues index) = .ok sinkQueue ∧
      walkPaths ⟨links, sources, stages, sinks, inputs, w.stageOutputs, w.sourceOutputs, sinkQueue,
        [], List.replicate stages false⟩ = .ok paths ∧
      t = ⟨links, sources, stages, sinks, inputs, w.stageOutputs, w.sourceOutputs, sinkQueue,
        paths, List.replicate stages false⟩ := by
  obtain ⟨-, -, h⟩ := seq_eq_ok.mp h
  obtain ⟨-, -, h⟩ := seq_eq_ok.mp h
  obtain ⟨w, hw, h⟩ := seq_eq_ok.mp h
  obtain ⟨inputs, hi, h⟩ := seq_eq_ok.mp h
  obtain ⟨-, -, h⟩ := seq_eq_ok.mp h
  obtain ⟨-, -, h⟩ := seq_eq_ok.mp h
  obtain ⟨sinkQueue, hs, h⟩ := seq_eq_ok.mp h
  obtain ⟨paths, hp, h⟩ := seq_eq_ok.mp h
  exact ⟨w, inputs, sinkQueue, paths, Wiring.wires_of_foldlM hw, hi, hs, hp, (Except.ok.inj h).symm⟩

theorem new_wired {sources stages sinks : ℕ} {links : List Link}
    (h : new sources stages sinks links = .ok t) : t.Wired := by
  obtain ⟨w, inputs, sinkQueue, paths, hw, hi, hs, -, rfl⟩ := new_eq_ok h
  obtain ⟨hilen, higet⟩ := mapM_zipIdx_eq_ok hi
  obtain ⟨hslen, hsget⟩ := mapM_zipIdx_eq_ok hs
  -- the ports of a stage are the queues of its row, each one taken
  have hports : ∀ i, row w.stageInputs i = (row inputs i).map some := by
    intro i
    unfold row
    cases hx : w.stageInputs[i]? with
    | none =>
      have : inputs[i]? = none := getElem?_eq_none (by
        rw [hilen]
        exact getElem?_eq_none_iff.mp hx)
      rw [this]
      rfl
    | some ports =>
      obtain ⟨queues, hq, hc⟩ := higet i ports hx
      rw [hq]
      exact (checkPorts_eq_ok hc).1
  have hsinks : ∀ k q, sinkQueue[k]? = some q ↔ q ∈ row w.sinkInputs k := by
    intro k q
    unfold row
    cases hx : w.sinkInputs[k]? with
    | none =>
      have : sinkQueue[k]? = none := getElem?_eq_none (by
        rw [hslen]
        exact getElem?_eq_none_iff.mp hx)
      rw [this]
      simp
    | some queues =>
      obtain ⟨one, hq, hc⟩ := hsget k queues hx
      rw [hq, checkSink_eq_ok hc]
      simp [eq_comm]
  refine ⟨?_, ?_, hw.source_iff, fun k q => (hsinks k q).trans (hw.sink_iff k q),
    fun q l hl => (hw.ends q l hl).1, fun q l hl => (hw.ends q l hl).2, ?_,
    hslen.trans hw.sinks_length, hw.sources_length, length_replicate⟩
  · intro s p q
    rw [inputs_eq]
    rcases eq_zero_or_pos s with rfl | hs1
    · rw [if_pos rfl]
      simp only [getElem?_nil, reduceCtorEq, false_iff]
      rintro ⟨producer, hl⟩
      exact absurd (hw.ends q _ hl).2.1.1 (by omega)
    · rw [if_neg (by omega)]
      have hiff := hw.port_iff s p q hs1
      rw [hports, getElem?_map, Option.map_eq_some_iff] at hiff
      simp only [Option.some.injEq, exists_eq_right] at hiff
      exact hiff
  · intro s q
    rw [outputs_eq]
    rcases eq_zero_or_pos s with rfl | hs1
    · rw [if_pos rfl]
      simp only [not_mem_nil, false_iff]
      rintro ⟨consumer, hl⟩
      exact absurd (hw.ends q _ hl).1.1 (by omega)
    · rw [if_neg (by omega)]
      exact hw.output_iff s q hs1
  · intro s hs1 (hs2 : s ≤ stages)
    rw [inputs_eq, if_neg (by omega)]
    have hlt : s - 1 < w.stageInputs.length := by
      rw [hw.inputs_length]
      omega
    obtain ⟨queues, hq, hc⟩ := higet (s - 1) _ (getElem?_eq_getElem hlt)
    show (inputs[s - 1]?.getD []) ≠ []
    rw [hq]
    exact (checkPorts_eq_ok hc).2

theorem markAligned_eq_ok {t' : Topology} {stages : List ℕ} (h : t.markAligned stages = .ok t') :
    ∃ aligned, aligned.length = t.aligned.length ∧ t' = { t with aligned } := by
  induction stages generalizing t with
  | nil =>
    obtain rfl := Except.ok.inj h
    exact ⟨t.aligned, rfl, rfl⟩
  | cons stage rest ih =>
    simp only [markAligned] at h
    split at h
    · obtain ⟨aligned, hlen, rfl⟩ := ih h
      exact ⟨aligned, by simpa using hlen, rfl⟩
    · cases h

/-- `align` changes the marks, checks the stages it was given, and walks the paths again. -/
theorem align_eq_ok {t' : Topology} {stages : List ℕ} (h : t.align stages = .ok t') :
    ∃ m, t.markAligned stages = .ok m ∧ m.checkAligned stages = .ok () ∧
      ∃ paths, m.walkPaths = .ok paths ∧ t' = { m with paths } := by
  obtain ⟨m, hm, h⟩ := seq_eq_ok.mp h
  obtain ⟨u, hc, h⟩ := seq_eq_ok.mp h
  obtain ⟨paths, hp, h⟩ := seq_eq_ok.mp h
  exact ⟨m, hm, hc, paths, hp, (Except.ok.inj h).symm⟩

/-- **Every topology `new` and `align` accept is wired.** -/
theorem Accepted.wired (h : t.Accepted) : t.Wired := by
  induction h with
  | new h => exact new_wired h
  | align _ h ih =>
    obtain ⟨m, hm, -, paths, -, rfl⟩ := align_eq_ok h
    obtain ⟨aligned, hlen, rfl⟩ := markAligned_eq_ok hm
    exact ⟨ih.input_iff, ih.output_iff, ih.source_iff, ih.sink_iff, ih.producer_ok,
      ih.consumer_ok, ih.inputs_ne_nil, ih.sinks_length, ih.sources_length,
      hlen.trans ih.aligned_length⟩

/-- The paths are the walk's over the topology as it is. -/
theorem Accepted.walkPaths_eq (h : t.Accepted) : t.walkPaths = .ok t.paths := by
  cases h with
  | new h =>
    obtain ⟨w, inputs, sinkQueue, paths, -, -, -, hp, rfl⟩ := new_eq_ok h
    exact hp
  | align _ h =>
    obtain ⟨m, -, -, paths, hp, rfl⟩ := align_eq_ok h
    exact hp

end Topology

end Moruna.Graph
