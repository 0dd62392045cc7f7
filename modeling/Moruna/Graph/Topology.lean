/-
Moruna/Graph/Topology.lean

The shape of a run: sources, kernel stages and sinks joined by queues.

A queue is one edge of a DAG.  Each source numbers what it reads from 0; a stage with `k` input
ports numbers its output for input `s` on port `p` as `s * k + p`, and a stage that joins its
inputs by morsel keeps their number.  The model follows the functions as they are: `new` and
`align` with their checks, `arrivals` and the paths, the numbering and its inverse, and what a
partly known run says of the numbers a queue will carry.

Sequence numbers are natural numbers with the width of the machine word where a function reads
it: in the checked and the saturating operations.
-/
import Mathlib.Data.List.Sort
import Mathlib.Tactic
import Moruna.Lib.Checks

namespace Moruna.Graph

/-! ### Links -/

/-- What produces into a queue: a source, counted from 0, or a kernel stage, counted from 1. -/
inductive Producer
  | source (i : ℕ)
  | kernel (stage : ℕ)
  deriving DecidableEq

/-- What consumes from a queue: an input port of a kernel stage, or a sink. -/
inductive Consumer
  | kernel (stage port : ℕ)
  | sink (i : ℕ)
  deriving DecidableEq

/-- One queue: an edge of the run's DAG. -/
structure Link where
  source : Producer
  target : Consumer
  deriving DecidableEq

def Producer.debug : Producer → String
  | source i => s!"Source({i})"
  | kernel stage => s!"Kernel({stage})"

def Consumer.debug : Consumer → String
  | kernel stage port => s!"Kernel \x7b stage: {stage}, port: {port} \x7d"
  | sink i => s!"Sink({i})"

/-- A topology that is refused, and why. -/
inductive GraphError
  | plan (msg : String)
  deriving DecidableEq

/-! ### Maps of sequence numbers -/

/-- A number that fits a machine word. -/
def fits (x : ℕ) : Option ℕ := if x < 2 ^ 64 then some x else none

theorem fits_eq_some {x y : ℕ} : fits x = some y ↔ x < 2 ^ 64 ∧ x = y := by
  unfold fits
  split <;> simp_all

/-- How a path maps a source's numbers to a queue's: `seq * a + b`. -/
structure Affine where
  a : ℕ
  b : ℕ
  deriving DecidableEq

namespace Affine

/-- A path through stages that each take one input. -/
def IDENTITY : Affine := ⟨1, 0⟩

/-- The number `seq` maps to, `none` when it would not fit. -/
def apply (m : Affine) (seq : ℕ) : Option ℕ := do
  let scaled ← fits (seq * m.a)
  fits (scaled + m.b)

/-- The largest number whose image is at most `bound`. -/
def floorInverse (m : Affine) (bound : ℕ) : Option ℕ :=
  if bound < m.b then none else some ((bound - m.b) / m.a)

/-- This map followed by the one a stage with `ports` inputs applies on `port`. -/
def followedBy (m : Affine) (ports port : ℕ) : Option Affine :=
  if ports ≤ 1 then some m
  else do
    let a ← fits (m.a * ports)
    let b ← fits (m.b * ports)
    let b ← fits (b + port)
    return ⟨a, b⟩

variable {m : Affine}

theorem apply_eq_some {seq x : ℕ} :
    m.apply seq = some x ↔ seq * m.a + m.b < 2 ^ 64 ∧ x = seq * m.a + m.b := by
  constructor
  · intro h
    obtain ⟨y, hy, hx⟩ := Option.bind_eq_some_iff.mp h
    obtain ⟨-, rfl⟩ := fits_eq_some.mp hy
    obtain ⟨hlt, rfl⟩ := fits_eq_some.mp hx
    exact ⟨hlt, rfl⟩
  · rintro ⟨hlt, rfl⟩
    exact Option.bind_eq_some_iff.mpr
      ⟨_, fits_eq_some.mpr ⟨by omega, rfl⟩, fits_eq_some.mpr ⟨hlt, rfl⟩⟩

theorem followedBy_eq_some {m' : Affine} {ports port : ℕ}
    (h : m.followedBy ports port = some m') :
    (ports ≤ 1 ∧ m' = m) ∨ (1 < ports ∧ m' = ⟨m.a * ports, m.b * ports + port⟩) := by
  unfold followedBy at h
  split at h
  · exact .inl ⟨‹_›, (Option.some.inj h).symm⟩
  obtain ⟨a, ha, h⟩ := Option.bind_eq_some_iff.mp h
  obtain ⟨b, hb, h⟩ := Option.bind_eq_some_iff.mp h
  obtain ⟨c, hc, h⟩ := Option.bind_eq_some_iff.mp h
  obtain ⟨-, rfl⟩ := fits_eq_some.mp ha
  obtain ⟨-, rfl⟩ := fits_eq_some.mp hb
  obtain ⟨-, rfl⟩ := fits_eq_some.mp hc
  exact .inr ⟨by omega, (Option.some.inj h).symm⟩

/-- **`floorInverse` finds the largest number whose image is at most the bound.** -/
theorem floorInverse_eq_some (ha : 0 < m.a) {bound n : ℕ} :
    m.floorInverse bound = some n ↔
      n * m.a + m.b ≤ bound ∧ ∀ k, k * m.a + m.b ≤ bound → k ≤ n := by
  unfold floorInverse
  split
  · simp only [reduceCtorEq, false_iff]
    rintro ⟨h, -⟩
    omega
  · rw [Option.some.injEq]
    constructor
    · rintro rfl
      refine ⟨?_, fun k hk => ?_⟩
      · have := Nat.div_mul_le_self (bound - m.b) m.a
        omega
      · exact (Nat.le_div_iff_mul_le ha).mpr (by omega)
    · rintro ⟨hle, hmost⟩
      refine le_antisymm (hmost _ ?_) ((Nat.le_div_iff_mul_le ha).mpr (by omega))
      have := Nat.div_mul_le_self (bound - m.b) m.a
      omega

end Affine

/-! ### Topologies -/

/-- The most paths from the sources to the sinks a topology may have. -/
def MAX_PATHS : ℕ := 4096

/-- The shape of a run: how many sources, stages and sinks it has and the queues between them.
Stage `s` has its inputs under `stageInputs[s - 1]`, by port. -/
structure Topology where
  links : List Link
  sources : ℕ
  stages : ℕ
  sinks : ℕ
  stageInputs : List (List ℕ)
  stageOutputs : List (List ℕ)
  sourceOutputs : List (List ℕ)
  sinkInputs : List ℕ
  paths : List (List (ℕ × Affine))
  aligned : List Bool
  deriving DecidableEq

/-- The queues attached so far, while `new` walks the links. -/
structure Wiring where
  stageInputs : List (List (Option ℕ))
  stageOutputs : List (List ℕ)
  sourceOutputs : List (List ℕ)
  sinkInputs : List (List ℕ)
  deriving DecidableEq

namespace Wiring

def empty (sources stages sinks : ℕ) : Wiring :=
  ⟨List.replicate stages [], List.replicate stages [], List.replicate sources [],
    List.replicate sinks []⟩

def leave (w : Wiring) (sources stages q : ℕ) (producer : Producer) : Except GraphError Wiring :=
  match producer with
  | .source s =>
    if s < sources then .ok { w with sourceOutputs := w.sourceOutputs.modify s (· ++ [q]) }
    else .error (.plan s!"queue {q} comes from {producer.debug}, which the run does not have")
  | .kernel k =>
    if 1 ≤ k ∧ k ≤ stages then
      .ok { w with stageOutputs := w.stageOutputs.modify (k - 1) (· ++ [q]) }
    else .error (.plan s!"queue {q} comes from {producer.debug}, which the run does not have")

/-- The ports of a stage with room for one more. -/
def widen (ports : List (Option ℕ)) (port : ℕ) : List (Option ℕ) :=
  ports ++ List.replicate (port + 1 - ports.length) none

def arrive (w : Wiring) (stages sinks q : ℕ) (link : Link) : Except GraphError Wiring :=
  match link.target with
  | .kernel stage port =>
    if 1 ≤ stage ∧ stage ≤ stages then
      match link.source with
      | .kernel k =>
        if stage ≤ k then
          .error (.plan (s!"queue {q} goes from stage {k} to stage {stage}: stages are " ++
            "numbered so every queue goes forward, and a run has no cycle"))
        else plug w stage port
      | .source _ => plug w stage port
    else .error (.plan s!"queue {q} goes to {link.target.debug}, which the run does not have")
  | .sink t =>
    if t < sinks then .ok { w with sinkInputs := w.sinkInputs.modify t (· ++ [q]) }
    else .error (.plan s!"queue {q} goes to {link.target.debug}, which the run does not have")
where
  /-- The port takes the queue, unless it has one. -/
  plug (w : Wiring) (stage port : ℕ) : Except GraphError Wiring :=
    let ports := widen (w.stageInputs.getD (stage - 1) []) port
    if (ports.getD port none).isSome then
      .error (.plan s!"stage {stage} takes two queues on its port {port}")
    else .ok { w with stageInputs := w.stageInputs.set (stage - 1) (ports.set port (some q)) }

def attach (sources stages sinks : ℕ) (w : Wiring) (entry : Link × ℕ) :
    Except GraphError Wiring := do
  let w ← w.leave sources stages entry.2 entry.1.source
  w.arrive stages sinks entry.2 entry.1

end Wiring

/-- Adjacent equal elements once. -/
def dedup {α : Type*} [DecidableEq α] : List α → List α
  | [] => []
  | [x] => [x]
  | x :: y :: rest => if x = y then dedup (y :: rest) else x :: dedup (y :: rest)

def arrivalLE (x y : ℕ × Affine) : Bool :=
  x.1 < y.1 || (x.1 == y.1 && (x.2.a < y.2.a || (x.2.a == y.2.a && x.2.b ≤ y.2.b)))

namespace Topology

/-! ### Reading a topology -/

variable (t : Topology)

def link (q : ℕ) : Option Link := t.links[q]?

/-- What is kept for stage `stage`, counted from 1. -/
def ofStage {α : Type*} (l : List α) (stage : ℕ) : Option α :=
  if stage = 0 then none else l[stage - 1]?

variable (stage : ℕ)

/-- The queues stage `stage` takes, by port; empty for a stage the run does not have. -/
def inputs : List ℕ := (ofStage t.stageInputs stage).getD []

def outputs : List ℕ := (ofStage t.stageOutputs stage).getD []

def sinkInput (sink : ℕ) : Option ℕ := t.sinkInputs[sink]?

def sourceOf (q : ℕ) : Option ℕ :=
  match t.link q with
  | some ⟨.source i, _⟩ => some i
  | _ => none

/-- Every path from a source to sink `sink`. -/
def pathsOf (sink : ℕ) : List (ℕ × Affine) := t.paths[sink]?.getD []

/-- Stage `stage` joins its inputs by morsel. -/
def isAligned : Bool := (ofStage t.aligned stage).getD false

/-- How many ports a stage numbers its output by. -/
def numberingPorts : ℕ := if t.isAligned stage then 1 else (t.inputs stage).length

/-- The inputs whose morsels a stage's output carries on: port 0 of a join, every port of any
other stage. -/
def taken : List ℕ := if t.isAligned stage then (t.inputs stage).take 1 else t.inputs stage

/-! ### What each queue carries -/

def tooMany : GraphError :=
  .plan s!"the run's DAG has more than {MAX_PATHS} paths from its sources to its sinks"

/-- The arrivals of one input, each mapped to the stage's output. -/
def mapArrivals (ports port : ℕ) (arrived : List (ℕ × Affine)) :
    Except GraphError (List (ℕ × Affine)) :=
  arrived.mapM fun (source, map) =>
    match map.followedBy ports port with
    | some next => .ok (source, next)
    | none => .error
      (.plan "the run's DAG numbers its morsels past what a sequence number holds")

/-- What a stage's output carries, from what its inputs carry. -/
def carryOut (carried : List (List (ℕ × Affine))) (stage : ℕ) :
    Except GraphError (List (ℕ × Affine)) := do
  let out ← (t.taken stage).zipIdx.mapM fun (q, port) =>
    mapArrivals (t.numberingPorts stage) port (carried[q]?.getD [])
  let out := dedup (out.flatten.insertionSort fun x y => arrivalLE x y)
  if MAX_PATHS < out.length then .error tooMany else .ok out

/-- One stage of the walk: every output of it carries the same. -/
def carryStage (carried : List (List (ℕ × Affine))) (stage : ℕ) :
    Except GraphError (List (List (ℕ × Affine))) := do
  let out ← t.carryOut carried stage
  return (t.outputs stage).foldl (fun carried q => carried.set q out) carried

def carriedBySources : List (List (ℕ × Affine)) :=
  t.sourceOutputs.zipIdx.foldl (fun carried entry =>
    entry.1.foldl (fun carried q => carried.modify q (· ++ [(entry.2, Affine.IDENTITY)])) carried)
    (List.replicate t.links.length [])

/-- What each queue carries: every `(source, map)` such that it carries `map.apply s` for each
morsel `s` the source reads.  Computed stage by stage. -/
def arrivals : Except GraphError (List (List (ℕ × Affine))) :=
  (List.range t.stages).foldlM (fun carried i => t.carryStage carried (i + 1)) t.carriedBySources

/-- Every path from a source to each sink, as the map from the source's numbers to the sink's. -/
def walkPaths : Except GraphError (List (List (ℕ × Affine))) := do
  let carried ← t.arrivals
  let paths := t.sinkInputs.map fun q => carried[q]?.getD []
  if MAX_PATHS < (paths.map List.length).sum then .error tooMany else .ok paths

/-! ### Building a topology -/

def checkPorts (ports : List (Option ℕ)) (stage : ℕ) : Except GraphError (List ℕ) :=
  if ports.isEmpty then .error (.plan s!"stage {stage} takes no input")
  else ports.zipIdx.mapM fun (queue, port) =>
    match queue with
    | some q => .ok q
    | none => .error (.plan s!"stage {stage} has no queue on its port {port}")

def checkSink (queues : List ℕ) (index : ℕ) : Except GraphError ℕ :=
  match queues with
  | [one] => .ok one
  | [] => .error (.plan s!"sink {index} takes no input")
  | _ => .error (.plan s!"sink {index} takes {queues.length} queues, and a sink takes one")

def checkOutputs (outputs : List (List ℕ)) (what : ℕ → String) : Except GraphError Unit :=
  outputs.zipIdx.forM fun (queues, index) =>
    if queues.isEmpty then .error (.plan (what index)) else .ok ()

/-- A topology of `sources`, `stages` and `sinks` with the queues `links`, or why it is refused. -/
def new (sources stages sinks : ℕ) (links : List Link) : Except GraphError Topology := do
  rejectIf (sources = 0 ∨ sinks = 0) (.plan "a run has at least one source and at least one sink")
  rejectIf (65535 < links.length) (.plan s!"{links.length} queues is more than a run holds")
  let w ← links.zipIdx.foldlM (Wiring.attach sources stages sinks)
    (Wiring.empty sources stages sinks)
  let inputs ← w.stageInputs.zipIdx.mapM fun (ports, index) => checkPorts ports (index + 1)
  checkOutputs w.stageOutputs fun index => s!"nothing takes stage {index + 1}'s output"
  checkOutputs w.sourceOutputs fun index => s!"nothing takes source {index}'s output"
  let sinkQueue ← w.sinkInputs.zipIdx.mapM fun (queues, index) => checkSink queues index
  let topology : Topology := ⟨links, sources, stages, sinks, inputs, w.stageOutputs,
    w.sourceOutputs, sinkQueue, [], List.replicate stages false⟩
  let paths ← topology.walkPaths
  return { topology with paths }

/-- The first port of a stage that does not carry what its port 0 carries. -/
def misaligned : Except GraphError (Option ℕ) := do
  let carried ← t.arrivals
  match t.inputs stage with
  | [] => return none
  | first :: rest =>
    return (first :: rest).findIdx? fun q => carried[q]?.getD [] ≠ carried[first]?.getD []

/-- The flags of the stages that join their inputs, with more of them. -/
def markAligned (t : Topology) : List ℕ → Except GraphError Topology
  | [] => .ok t
  | stage :: rest =>
    if 1 ≤ stage ∧ stage ≤ t.aligned.length then
      markAligned { t with aligned := t.aligned.set (stage - 1) true } rest
    else .error (.plan
      s!"stage {stage} joins its inputs by morsel, and the run has no stage {stage}")

/-- Every one of these stages takes branches of one upstream, numbered alike. -/
def checkAligned (stages : List ℕ) : Except GraphError Unit :=
  stages.forM fun stage => do
    match ← t.misaligned stage with
    | some port => throw (.plan
        (s!"stage {stage} joins its inputs by morsel, and its port {port} does not carry the " ++
          "morsels its port 0 carries: every input of a join is a branch of one upstream that " ++
          "keeps its morsels and their numbers"))
    | none => return ()

/-- The same topology with the stages `stages` joining their inputs by morsel, or why it is
refused. -/
def align (stages : List ℕ) : Except GraphError Topology := do
  let t ← t.markAligned stages
  t.checkAligned stages
  let paths ← t.walkPaths
  return { t with paths }

/-! ### Numbers and their origin -/

/-- The number a stage gives its output for input `seq` taken on `port`. -/
def outSeq (stage port seq : ℕ) : ℕ :=
  let ports := t.numberingPorts stage
  if ports ≤ 1 then seq
  else min (min (seq * ports) (2 ^ 64 - 1) + port) (2 ^ 64 - 1)

/-- The queue and number the producer of queue `q` took morsel `seq` as. -/
def parent (q seq : ℕ) : Option (ℕ × ℕ) :=
  match t.link q with
  | some ⟨.kernel stage, _⟩ =>
    let ports := t.numberingPorts stage
    if ports ≤ 1 then (t.inputs stage).head?.map (·, seq)
    else (t.inputs stage)[seq % ports]?.map (·, seq / ports)
  | _ => none

/-- The loop of `root`: a queue's producer is lower at every turn, so no more turns than stages
are needed. -/
def rootWithin (t : Topology) : ℕ → ℕ → ℕ → Option (ℕ × ℕ)
  | 0, _, _ => none
  | fuel + 1, q, seq =>
    match t.sourceOf q with
    | some source => some (source, seq)
    | none => do
      let (q, seq) ← t.parent q seq
      rootWithin t fuel q seq

/-- The source morsel `seq` on queue `q` comes from. -/
def root (q seq : ℕ) : Option (ℕ × ℕ) := t.rootWithin (t.stages + 1) q seq

def endLE (x y : ℕ × ℕ) : Prop := x.1 < y.1 ∨ x.1 = y.1 ∧ x.2 ≤ y.2

instance : DecidableRel endLE := fun x y =>
  inferInstanceAs (Decidable (x.1 < y.1 ∨ x.1 = y.1 ∧ x.2 ≤ y.2))

/-- `toSinks`, for as many stages down as the run has. -/
def toSinksWithin (t : Topology) : ℕ → ℕ → ℕ → List (ℕ × ℕ)
  | 0, _, _ => []
  | fuel + 1, q, seq =>
    match t.link q with
    | some ⟨_, .sink k⟩ => [(k, seq)]
    | some ⟨_, .kernel stage port⟩ =>
      (t.outputs stage).flatMap fun o => toSinksWithin t fuel o (t.outSeq stage port seq)
    | none => []

/-- Where the morsel `seq` on queue `q` ends: the sink and the number it has there, for every
path from the queue to a sink. -/
def toSinks (q seq : ℕ) : List (ℕ × ℕ) := (t.toSinksWithin (t.stages + 1) q seq).insertionSort endLE

/-- The highest number source `source` read such that every sink it reaches has committed what
every morsel at or below it became there, given the sinks' watermarks. -/
def sourceWatermark (source : ℕ) (watermarks : List (Option ℕ)) : Option ℕ :=
  let below := (List.range t.sinks).flatMap fun sink =>
    ((t.pathsOf sink).filter fun entry => entry.1 = source).map fun entry =>
      (watermarks[sink]?).join.bind entry.2.floorInverse
  -- one path whose sink has committed nothing ends the walk; a source that reaches no sink has
  -- no watermark
  (below.mapM id).bind List.min?

/-! ### What a partly known run says of its numbers -/

/-- What the sources and stages have given so far: each source's count, each stage's finish,
and for each stage its finish base and the highest number its output carries. -/
structure Produced where
  read : List (Option ℕ)
  finished : List (Option ℕ)
  base : List (Option ℕ)
  last : List (Option (Option ℕ))
  deriving DecidableEq

/-- The highest of two known highest numbers, `none` (no morsel) the lowest. -/
def higher : Option ℕ → Option ℕ → Option ℕ
  | some x, some y => some (max x y)
  | x, none => x
  | none, y => y

/-- `x - 1`, `none` at 0. -/
def highestOf (count : ℕ) : Option ℕ := if count = 0 then none else some (count - 1)

/-- The highest number a queue carries, from what is known of its producer. -/
def carriedHighest (read : List (Option ℕ)) (last : List (Option (Option ℕ)))
    (q : ℕ) : Option (Option ℕ) :=
  match t.link q with
  | some ⟨.source i, _⟩ => (read[i]?).join.map highestOf
  | some ⟨.kernel k, _⟩ => (last[k - 1]?).join
  | none => none

/-- The highest number the inputs of a stage carry, mapped to its output's numbers; `none` while
one of them could still carry more. -/
def inputHighest (read : List (Option ℕ)) (last : List (Option (Option ℕ)))
    (stage : ℕ) : Option (Option ℕ) :=
  (t.inputs stage).zipIdx.foldl (fun input entry =>
    match input, t.carriedHighest read last entry.1 with
    | some soFar, some here => some (higher soFar (here.map (t.outSeq stage entry.2 ·)))
    | _, _ => none) (some none)

/-- One stage's finish base and the highest number of its output. -/
def produceStage (read finished : List (Option ℕ))
    (sofar : List (Option ℕ) × List (Option (Option ℕ))) (index : ℕ) :
    List (Option ℕ) × List (Option (Option ℕ)) :=
  let input := t.inputHighest read sofar.2 (index + 1)
  let base := input.map fun highest => highest.elim 0 fun h => min (h + 1) (2 ^ 64 - 1)
  let last := match (finished[index]?).join, input with
    | some 0, input => input
    | some count, some _ => base.map fun b => some (b + count - 1)
    | _, _ => none
  (sofar.1 ++ [base], sofar.2 ++ [last])

/-- What the run has given so far, from each source's count and each stage's finish. -/
def produced (read finished : List (Option ℕ)) : Produced :=
  let (base, last) := (List.range t.stages).foldl (t.produceStage read finished) ([], [])
  ⟨read, finished, base, last⟩

def Produced.baseOf (p : Produced) (stage : ℕ) : Option ℕ := (ofStage p.base stage).join

/-- `reaches`, for as many stages up as the run has. -/
def reachesWithin (t : Topology) (p : Produced) : ℕ → ℕ → ℕ → Option Bool
  | 0, _, _ => none
  | fuel + 1, q, seq =>
    match t.link q with
    | none => none
    | some ⟨.source i, _⟩ => (p.read[i]?).join.map fun count => decide (seq < count)
    | some ⟨.kernel stage, _⟩ =>
      let finished := (p.finished[stage - 1]?).join
      let base := (p.base[stage - 1]?).join
      if base.any (· ≤ seq) then
        -- one of the stage's finish's batches, or none
        finished.map fun count => decide (seq - base.getD 0 < count)
      else do
        let (source, at_from) ← t.parent q seq
        let upstream := reachesWithin t p fuel source at_from
        match base, finished with
        -- below the base, or a stage that gives nothing at its end: what its input carried
        | some _, _ | none, some 0 => upstream
        -- a number its input does not carry may still be one its finish gives
        | _, _ => upstream.filter id

/-- Whether a morsel numbered `seq` reaches queue `q`, `none` while that is not known. -/
def reaches (q seq : ℕ) (p : Produced) : Option Bool := t.reachesWithin p (t.stages + 1) q seq

/-- The highest number a morsel reaches sink `sink` with. -/
def lastAtSink (sink : ℕ) (p : Produced) : Option (Option ℕ) := do
  t.carriedHighest p.read p.last (← t.sinkInput sink)

end Topology

end Moruna.Graph
