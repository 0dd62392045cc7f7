/-
Moruna/Ipc/Walk.lean

The walk over a record batch's nodes and buffers, field by field and depth
first, that checks what the decoder relies on.  For a compressed batch the walk
hands every buffer to a plan, together with the rule its column gives for the
buffer's size.

The walk is written over any plan: what it can do to the plan is a sequence of
`take`s, and of the data of a string column it says more, namely which slot
holds the offsets the data goes with.

* `Plan.Keeps`, `walk_keeps` : **what every `take` keeps, the walk keeps**.
-/
import Moruna.Lib.Exec
import Moruna.Lib.Machine

namespace Moruna.Ipc

/-! ### Fields -/

mutual
/-- The types the walk tells apart (`Type` in the source). -/
inductive Kind
  | null
  | boolean
  /-- A fixed-width column; `none` when no width is stated. -/
  | primitive (width : Option ℕ)
  | fixedSizeBinary (width : ℤ)
  | text (width : ℕ)
  | view
  | list (width : ℕ) (child : Field)
  | listView (width : ℕ) (child : Field)
  | fixedSizeList (size : ℤ) (child : Field)
  | struct (children : List Field)
  | runEndEncoded (runEnds values : Field)
  | dictionary (keyWidth : ℕ)
  | union (dense : Bool) (children : List Field)
/-- A column of a schema, as the walk reads it. -/
inductive Field
  | mk (name : String) (kind : Kind)
end

def Field.name : Field → String
  | .mk name _ => name

def Field.kind : Field → Kind
  | .mk _ kind => kind

/-- The width of one value, for the types arrow calls primitive. -/
def Kind.primitiveWidth : Kind → Option ℕ
  | .primitive width => width
  | _ => none

/-! ### Rules and plans -/

/-- `u64` and `usize` arithmetic that stops at the largest value. -/
def U64_MAX : ℕ := 2 ^ 64 - 1

def satAdd (a b : ℕ) : ℕ := min (a + b) U64_MAX

def satMul (a b : ℕ) : ℕ := min (a * b) U64_MAX

structure Node where
  len : ℕ
  nulls : ℕ

/-- One buffer of a record batch; for a compressed one the length is the
uncompressed one and `slot` names the buffer in the plan. -/
structure Span where
  offset : ℕ
  len : ℕ
  slot : ℕ
deriving DecidableEq

/-- The size a buffer must have, from the message and what is already
inflated. -/
inductive Rule
  | free
  | exact (bytes : ℕ)
  | validity (len : ℕ)
  | offsets (len width : ℕ)
  | text (len width : ℕ)
  /-- The data of the column whose offsets are in this slot. -/
  | data (offsets : ℕ)
deriving DecidableEq

/-- `len` values of `width` bytes. -/
def Rule.values (len width : ℕ) : Rule := .exact (satMul len width)

/-- The values buffer of a column of `kind` and `len` values. -/
def Rule.ofValues (kind : Kind) (len : ℕ) : Rule :=
  match kind with
  | .boolean => .exact (ceilDiv len 8)
  | .fixedSizeBinary width => Rule.values len (if 0 ≤ width then width.toNat else U64_MAX)
  | other => match other.primitiveWidth with
    | none => .free
    | some width => Rule.values len width

/-- What a compressed batch's inflation does with each buffer. -/
structure Plan (σ : Type) where
  take : String → String → Span → Rule → EStateM String σ Span

/-! ### The walk -/

structure Body where
  len : ℕ
  addr : ℕ

/-- The parts of a `RecordBatch` table that are read. -/
structure Batch where
  length : ℤ
  nodes : Option (List (ℤ × ℤ))
  buffers : Option (List (ℤ × ℤ))
  variadic : List ℤ

/-- Where a walk stands, and its plan. -/
structure WalkState (σ : Type) where
  nodes : List (ℤ × ℤ)
  buffers : List (ℤ × ℤ)
  variadic : List ℤ
  spans : List Span
  columns : List (ℕ × ℕ)
  plan : σ

abbrev Walk (σ : Type) := EStateM String (WalkState σ)

variable {σ : Type} (body : Body) (version : ℤ) (plan : Option (Plan σ))

/-- Run the plan's part on the plan. -/
def onPlan {α : Type} (x : EStateM String σ α) : Walk σ α := fun s =>
  match x s.plan with
  | .ok a p => .ok a { s with plan := p }
  | .error e p => .error e { s with plan := p }

variable (field : Field)

def node : Walk σ Node := do
  let s ← get
  match s.nodes with
  | [] => throw s!"column {field.name.quote} has no field node; the record batch has too few"
  | (len, nulls) :: rest =>
    set { s with nodes := rest }
    if 0 ≤ len ∧ 0 ≤ nulls ∧ nulls ≤ len then return ⟨len.toNat, nulls.toNat⟩
    else throw s!"column {field.name.quote} has a field node of length {len} with {nulls} nulls"

/-- The next buffer of the message: inside the body, and for a compressed batch
of the size `rule` says its column needs. -/
def buffer (what : String) (rule : Rule) : Walk σ Span := do
  let s ← get
  match s.buffers with
  | [] => throw s!"column {field.name.quote} has no buffer left; the record batch has too few"
  | (offset, len) :: rest =>
    set { s with buffers := rest }
    if 0 ≤ offset ∧ 0 ≤ len ∧ offset + len ≤ body.len then
      let span : Span := ⟨offset.toNat, len.toNat, U64_MAX⟩
      let span ← match plan with
        | some plan => onPlan (plan.take field.name what span rule)
        | none => pure span
      modify fun s => { s with spans := s.spans ++ [span] }
      return span
    else
      throw (s!"column {field.name.quote} has a buffer of {len} bytes at {offset}, " ++
        s!"outside the body of {body.len} bytes")

/-- Stop the walk with `e` where `c` holds. -/
def refuse (c : Prop) [Decidable c] (e : String) : Walk σ Unit := if c then throw e else pure ()

/-- A buffer arrow reads as a slice of `width`-byte values. -/
def whole (span : Span) (width : ℕ) (what : String) : Walk σ Unit :=
  refuse (span.len % width ≠ 0)
    (s!"column {field.name.quote} has {what} of {span.len} bytes, " ++
      s!"not a whole number of {width}-byte values")

/-- A column with nulls has its validity bitmap read as `len` bits. -/
def nulls (node : Node) (validity : Span) : Walk σ Unit :=
  refuse (0 < node.nulls ∧ satMul validity.len 8 < node.len)
    (s!"column {field.name.quote} has {node.len} values and a validity bitmap of " ++
      s!"{validity.len} bytes")

/-- The offsets of a dense union. -/
def denseOwn (node : Node) : Walk σ Unit := do
  let offsets ← buffer body plan field "offsets" (.values node.len 4)
  refuse (2 ^ 64 ≤ node.len * 4 ∨ offsets.len < node.len * 4)
    (s!"column {field.name.quote} is a dense union of {node.len} values with " ++
      s!"{offsets.len} bytes of offsets")
  -- an inflated body places every buffer at a multiple of 64 from an arena buffer
  refuse (plan.isNone ∧ (body.addr + offsets.offset) % 2 ^ 64 % 4 ≠ 0)
    s!"column {field.name.quote} is a dense union whose offsets are not 4-byte aligned"

/-- A union's own buffers, which are read as typed buffers of the union's length
without the checks the other arrays get. -/
def unionOwn (dense : Bool) : Walk σ Unit := do
  let node ← node field
  (if version < 4 then discard <| buffer body plan field "validity" (.validity node.len)
    else pure ())
  let typeIds ← buffer body plan field "type ids" (.values node.len 1)
  refuse (typeIds.len < node.len)
    (s!"column {field.name.quote} is a union of {node.len} values with " ++
      s!"{typeIds.len} bytes of type ids")
  (if dense then denseOwn body plan field node else pure ())

mutual
/-- One column, its children, and, for a primitive column, the span of its
values. -/
def array : Field → Walk σ (Option Span)
  | .mk name (.text width) => do
    let field := Field.mk name (.text width)
    let node ← node field
    let validity ← buffer body plan field "validity" (.validity node.len)
    let offsets ← buffer body plan field "offsets" (.text node.len width)
    let _ ← buffer body plan field "data" (.data offsets.slot)
    whole field offsets width "offsets"
    nulls field node validity
    return none
  | .mk name .view => do
    let field := Field.mk name .view
    let s ← get
    match s.variadic with
    | [] => throw s!"column {name.quote} is a view with no variadic count"
    | count :: rest =>
      set { s with variadic := rest }
      refuse (count < 0) s!"column {name.quote} has a negative variadic count ({count})"
      let node ← node field
      let validity ← buffer body plan field "validity" (.validity node.len)
      let views ← buffer body plan field "views" (.values node.len 16)
      (List.range count.toNat).forM fun _ => do
        let _ ← buffer body plan field "view data" .free
      whole field views 16 "views"
      nulls field node validity
      return none
  | .mk name (.list width child) => do
    let field := Field.mk name (.list width child)
    let node ← node field
    let validity ← buffer body plan field "validity" (.validity node.len)
    let offsets ← buffer body plan field "offsets" (.offsets node.len width)
    whole field offsets width "offsets"
    nulls field node validity
    let _ ← array child
    return none
  | .mk name (.listView width child) => do
    let field := Field.mk name (.listView width child)
    let node ← node field
    let validity ← buffer body plan field "validity" (.validity node.len)
    let offsets ← buffer body plan field "offsets" (.values node.len width)
    whole field offsets width "offsets"
    let sizes ← buffer body plan field "sizes" (.values node.len width)
    whole field sizes width "sizes"
    nulls field node validity
    let _ ← array child
    return none
  | .mk name (.fixedSizeList size child) => do
    let field := Field.mk name (.fixedSizeList size child)
    let node ← node field
    let validity ← buffer body plan field "validity" (.validity node.len)
    nulls field node validity
    -- arrow's validation multiplies the two without a check
    refuse (2 ^ 64 ≤ node.len * size.toNat)
      (s!"column {name.quote} has {node.len} lists of {size.toNat} values, " ++
        "more than can be counted")
    let _ ← array child
    return none
  | .mk name (.struct children) => do
    let field := Field.mk name (.struct children)
    let node ← node field
    let validity ← buffer body plan field "validity" (.validity node.len)
    nulls field node validity
    arrays children
    return none
  | .mk name (.runEndEncoded runEnds values) => do
    let _ ← node (Field.mk name (.runEndEncoded runEnds values))
    -- the run ends are a primitive column that arrow's validation reads as typed values
    let ends ← array runEnds
    (match ends with
      | none => pure ()
      | some ends => whole runEnds ends (runEnds.kind.primitiveWidth.getD 1) "values")
    let _ ← array values
    return none
  | .mk name (.dictionary width) => do
    let field := Field.mk name (.dictionary width)
    let node ← node field
    let validity ← buffer body plan field "validity" (.validity node.len)
    let keys ← buffer body plan field "keys" (.values node.len width)
    whole field keys width "keys"
    nulls field node validity
    return none
  | .mk name (.union dense children) => do
    unionOwn body version plan (Field.mk name (.union dense children)) dense
    arrays children
    return none
  | .mk name .null => do
    let _ ← node (Field.mk name .null)
    return none
  | .mk name other => do
    let field := Field.mk name other
    let node ← node field
    let validity ← buffer body plan field "validity" (.validity node.len)
    let values ← buffer body plan field "values" (.ofValues other node.len)
    nulls field node validity
    return some values
def arrays : List Field → Walk σ Unit
  | [] => pure ()
  | f :: fs => do
    let _ ← array f
    arrays fs
end

/-- The top-level columns, each with the range of spans that belongs to it. -/
def columns : List Field → Walk σ Unit
  | [] => pure ()
  | field :: fields => do
    let start := (← get).spans.length
    let _ ← array body version plan field
    modify fun s => { s with columns := s.columns ++ [(start, s.spans.length)] }
    columns fields

/-- What a walk saw. -/
structure Walked where
  spans : List Span
  columns : List (ℕ × ℕ)

/-- Walk `batch` over `body` against `fields`. -/
def walk (compressed : Bool) (batch : Batch) (fields : List Field) : EStateM String σ Walked :=
  fun p =>
  if compressed ∧ plan.isNone then
    .error "the record batch is compressed and its reader inflates nothing" p
  else if batch.length < 0 then
    .error s!"the record batch has a negative row count ({batch.length})" p
  else match batch.nodes, batch.buffers with
    | none, _ => .error "the record batch has no field nodes" p
    | some _, none => .error "the record batch has no buffers" p
    | some nodes, some buffers =>
      match columns body version plan fields ⟨nodes, buffers, batch.variadic, [], [], p⟩ with
      | .error e s => .error e s.plan
      | .ok _ s =>
        if s.variadic ≠ [] then
          .error (s!"the record batch has {s.variadic.length} variadic buffer counts that " ++
            "no view column uses") s.plan
        else .ok ⟨s.spans, s.columns⟩ s.plan

/-! ### What the walk keeps -/

/-- One call of `take`: its rule, whether it was refused, and the plan before
and after it. -/
structure Took (σ : Type) where
  rule : Rule
  refused : Bool
  before : σ
  after : σ

/-- A plan that also records its calls. -/
def Plan.logged (plan : Plan σ) : Plan (List (Took σ) × σ) where
  take name what span rule := fun s =>
    match plan.take name what span rule s.2 with
    | .ok a p => .ok a (s.1 ++ [⟨rule, false, s.2, p⟩], p)
    | .error e p => .error e (s.1 ++ [⟨rule, true, s.2, p⟩], p)

/-- What a plan keeps: `I` at every `take`, whatever the buffer, the data of a
string column apart; for those, what the `take` of the offsets leaves
(`Ready`) is what the `take` of the data needs. -/
structure Plan.Keeps (plan : Plan σ) (I : σ → Prop) (Ready : String → Span → σ → Prop) : Prop where
  take : ∀ name what span rule, (∀ k, rule ≠ .data k) →
    Triple I (plan.take name what span rule) (fun _ => I) (fun _ => I)
  text : ∀ name what span len width,
    Triple I (plan.take name what span (.text len width)) (Ready name) (fun _ => I)
  ready : ∀ name span p, Ready name span p → I p
  data : ∀ name what span offsets, Triple (Ready name offsets)
    (plan.take name what span (.data offsets.slot)) (fun _ => I) (fun _ => I)

/-- `I` holds after every call of a record, and `R` of every call refused. -/
def Recorded (I : σ → Prop) (R : Rule → σ → σ → Prop) (log : List (Took σ)) : Prop :=
  ∀ t ∈ log, I t.after ∧ (t.refused = true → R t.rule t.before t.after)

variable {R : Rule → σ → σ → Prop}
variable {I : σ → Prop}

theorem Recorded.snoc {log : List (Took σ)} {t : Took σ} (h : Recorded I R log)
    (hI : I t.after) (hR : t.refused = true → R t.rule t.before t.after) :
    Recorded I R (log ++ [t]) := by
  intro u hu
  rcases List.mem_append.1 hu with hu | hu
  · exact h u hu
  · obtain rfl := List.mem_singleton.1 hu
    exact ⟨hI, hR⟩

/-- One call of a recording plan, from any precondition that has `I`. -/
theorem Plan.logged_take {plan : Plan σ} {P : σ → Prop} {Q : Span → σ → Prop} {name what : String}
    {span : Span} {rule : Rule} (hP : ∀ p, P p → I p) (hQ : ∀ a p, Q a p → I p)
    (ht : Triple P (plan.take name what span rule) Q (fun _ => I))
    (hR : ∀ p e p', I p → plan.take name what span rule p = .error e p' → R rule p p') :
    Triple (fun s => P s.2 ∧ Recorded I R s.1) (plan.logged.take name what span rule)
      (fun a s => Q a s.2 ∧ Recorded I R s.1) (fun _ s => I s.2 ∧ Recorded I R s.1) := by
  rintro ⟨log, p⟩ ⟨hp, hlog⟩
  have hrun := ht p hp
  unfold Plan.logged
  dsimp only
  cases hr : plan.take name what span rule p with
  | ok a p' =>
    rw [hr] at hrun
    exact ⟨hrun, hlog.snoc (hQ a p' hrun) nofun⟩
  | error e p' =>
    rw [hr] at hrun
    exact ⟨hrun, hlog.snoc hrun fun _ => hR p e p' (hP p hp) hr⟩

/-- A plan that keeps `I`, and `R` at each refusal, keeps both of its record. -/
theorem Plan.Keeps.logged {plan : Plan σ} {Ready : String → Span → σ → Prop}
    (h : plan.Keeps I Ready)
    (hR : ∀ name what span rule p e p', I p → plan.take name what span rule p = .error e p' →
      R rule p p') :
    plan.logged.Keeps (fun s => I s.2 ∧ Recorded I R s.1)
      (fun name span s => Ready name span s.2 ∧ Recorded I R s.1) where
  take _ _ _ _ hr :=
    Plan.logged_take (fun _ h => h) (fun _ _ h => h) (h.take _ _ _ _ hr) (hR _ _ _ _)
  text name _ _ _ _ :=
    Plan.logged_take (fun _ h => h) (h.ready name) (h.text _ _ _ _ _) (hR _ _ _ _)
  ready _ _ _ hs := ⟨h.ready _ _ _ hs.1, hs.2⟩
  data name _ _ offsets :=
    Plan.logged_take (h.ready name offsets) (fun _ _ h => h) (h.data _ _ _ _) (hR _ _ _ _)

section Keeps

variable {body version} {α β : Type} {I P : σ → Prop} {Q : Span → σ → Prop}
variable {Ready : String → Span → σ → Prop} {plan : Plan σ}

/-- A part of the walk that keeps `I` of the plan. -/
def Kept (I : σ → Prop) (x : Walk σ α) : Prop :=
  Triple (fun s => I s.plan) x (fun _ s => I s.plan) (fun _ s => I s.plan)

variable {x : Walk σ α} {c : Prop} {what : String} {rule : Rule}

theorem Kept.bind {f : α → Walk σ β} (hx : Kept I x) (hf : ∀ a, Kept I (f a)) :
    Kept I (x >>= f) := Triple.bind hx hf

theorem Kept.pure (a : α) : Kept I (pure a : Walk σ α) := Triple.skip

theorem Kept.throw (e : String) : Kept I (throw e : Walk σ α) := Triple.throw fun _ h => h

theorem Kept.ite [Decidable c] {y : Walk σ α} (hx : Kept I x) (hy : Kept I y) :
    Kept I (if c then x else y) := Triple.ite (fun _ => hx) (fun _ => hy)

variable {field : Field}

theorem node_kept : Kept I (node field : Walk σ Node) := by
  refine .read fun s hs => ?_
  cases hn : s.nodes with
  | nil =>
    refine .throw ?_
    rintro _ rfl
    exact hs
  | cons n rest =>
    refine .bind (Q := fun _ (s : WalkState σ) => I s.plan) ?_ fun _ =>
      Kept.ite (.pure _) (.throw _)
    rintro _ rfl
    exact hs

theorem refuse_kept [Decidable c] {e : String} : Kept I (refuse c e : Walk σ Unit) :=
  .ite (.throw _) (.pure _)

theorem onPlan_triple {E : String → σ → Prop} {x : EStateM String σ Span} (h : Triple P x Q E) :
    Triple (fun s => P s.plan) (onPlan x) (fun a s => Q a s.plan) (fun e s => E e s.plan) := by
  intro s hs
  unfold onPlan
  cases hr : x s.plan with
  | ok a p => exact h.of_ok hs hr
  | error e p => exact h.of_error hs hr

/-- A buffer does to the plan what its `take` does; where it fails before, the
plan is as it was. -/
theorem buffer_triple (hP : ∀ p, P p → I p)
    (h : ∀ span, Triple P (plan.take field.name what span rule) Q (fun _ => I)) :
    Triple (fun s => P s.plan) (buffer body (some plan) field what rule)
      (fun span s => Q span s.plan) (fun _ s => I s.plan) := by
  refine .read fun s hs => ?_
  cases hb : s.buffers with
  | nil =>
    refine .throw ?_
    rintro _ rfl
    exact hP _ hs
  | cons b rest =>
    refine .bind (Q := fun _ (s : WalkState σ) => P s.plan) ?_ fun _ => ?_
    · rintro _ rfl
      exact hs
    · refine .ite (fun _ => ?_) (fun _ => .throw fun s hs => hP _ hs)
      refine .bind (onPlan_triple (h _)) fun span => ?_
      refine .bind (Q := fun _ (s : WalkState σ) => Q span s.plan)
        (.update fun _ h => h) fun _ => ?_
      exact .pure fun _ h => h

theorem forM_kept {γ : Type} {f : γ → Walk σ PUnit} (hf : ∀ c, Kept I (f c)) (cs : List γ) :
    Kept I (cs.forM f) :=
  .forM (fun _ (s : WalkState σ) => I s.plan) fun _ c _ _ => hf c

theorem Rule.values_ne_data (len width k : ℕ) : Rule.values len width ≠ .data k := nofun

theorem Rule.ofValues_ne_data (kind : Kind) (len k : ℕ) : Rule.ofValues kind len ≠ .data k := by
  unfold Rule.ofValues
  split
  · nofun
  · nofun
  · split <;> nofun

variable (hplan : plan.Keeps I Ready)
include hplan

theorem buffer_kept (hr : ∀ k, rule ≠ .data k) :
    Kept I (buffer body (some plan) field what rule) :=
  buffer_triple (fun _ h => h) fun _ => hplan.take _ _ _ _ hr

/-- A column's node and its validity, before what its kind has. -/
theorem entry_kept {f : Node → Span → Walk σ α} (hf : ∀ node validity, Kept I (f node validity)) :
    Kept I (do
      let node ← node field
      let validity ← buffer body (some plan) field "validity" (.validity node.len)
      f node validity) :=
  .bind node_kept fun node => .bind (buffer_kept hplan nofun) (hf node)

theorem text_kept {len width : ℕ} {f : Span → Walk σ α} (hf : ∀ o, Kept I (f o)) : Kept I (do
      let offsets ← buffer body (some plan) field "offsets" (.text len width)
      let _ ← buffer body (some plan) field "data" (.data offsets.slot)
      f offsets) := by
  refine Triple.bind (buffer_triple (fun _ h => h) fun _ => hplan.text _ _ _ _ _) fun offsets => ?_
  exact .bind (buffer_triple (hplan.ready _ offsets) fun _ => hplan.data _ _ _ offsets)
    fun _ => hf offsets

theorem denseOwn_kept (field : Field) (node : Node) :
    Kept I (denseOwn body (some plan) field node) := by
  refine Kept.bind (buffer_kept hplan (Rule.values_ne_data _ _)) fun offsets => ?_
  exact .bind refuse_kept fun _ => refuse_kept

theorem unionOwn_kept (field : Field) (dense : Bool) :
    Kept I (unionOwn body version (some plan) field dense) := by
  refine .bind node_kept fun node => ?_
  refine .bind (.ite ?_ (.pure _)) fun _ => ?_
  · exact .bind (buffer_kept hplan nofun) fun _ => .pure _
  refine Kept.bind (buffer_kept hplan (Rule.values_ne_data _ _)) fun typeIds => ?_
  exact .bind refuse_kept fun _ => .ite (denseOwn_kept hplan _ _) (.pure _)

omit hplan

mutual
theorem array_kept (hplan : plan.Keeps I Ready) (f : Field) :
    Kept I (array body version (some plan) f) := by
  match f with
  | .mk name (.text width) =>
    unfold array
    refine entry_kept hplan fun node validity => ?_
    refine text_kept hplan fun offsets => ?_
    exact .bind refuse_kept fun _ => .bind refuse_kept fun _ => .pure _
  | .mk name .view =>
    unfold array
    refine .read fun s hs => ?_
    cases hv : s.variadic with
    | nil =>
      refine .throw ?_
      rintro _ rfl
      exact hs
    | cons count rest =>
      refine .bind (Q := fun _ (s : WalkState σ) => I s.plan) ?_ fun _ => ?_
      · rintro _ rfl
        exact hs
      refine .bind refuse_kept fun _ => entry_kept hplan fun node validity => ?_
      refine Kept.bind (buffer_kept hplan (Rule.values_ne_data _ _)) fun views => ?_
      refine .bind (forM_kept (fun _ => ?_) _) fun _ => ?_
      · exact .bind (buffer_kept hplan nofun) fun _ => .pure _
      · exact .bind refuse_kept fun _ => .bind refuse_kept fun _ => .pure _
  | .mk name (.list width child) =>
    unfold array
    refine entry_kept hplan fun node validity => ?_
    refine .bind (buffer_kept hplan nofun) fun offsets => ?_
    refine .bind refuse_kept fun _ => .bind refuse_kept fun _ => ?_
    exact .bind (array_kept hplan child) fun _ => .pure _
  | .mk name (.listView width child) =>
    unfold array
    refine entry_kept hplan fun node validity => ?_
    refine Kept.bind (buffer_kept hplan (Rule.values_ne_data _ _)) fun offsets => ?_
    refine .bind refuse_kept fun _ => ?_
    refine Kept.bind (buffer_kept hplan (Rule.values_ne_data _ _)) fun sizes => ?_
    refine .bind refuse_kept fun _ => .bind refuse_kept fun _ => ?_
    exact .bind (array_kept hplan child) fun _ => .pure _
  | .mk name (.fixedSizeList size child) =>
    unfold array
    refine entry_kept hplan fun node validity => ?_
    refine .bind refuse_kept fun _ => .bind refuse_kept fun _ => ?_
    exact .bind (array_kept hplan child) fun _ => .pure _
  | .mk name (.struct children) =>
    unfold array
    refine entry_kept hplan fun node validity => ?_
    refine .bind refuse_kept fun _ => ?_
    exact .bind (arrays_kept hplan children) fun _ => .pure _
  | .mk name (.runEndEncoded runEnds values) =>
    unfold array
    refine .bind node_kept fun node => .bind (array_kept hplan runEnds) fun ends => ?_
    refine .bind ?_ fun _ => .bind (array_kept hplan values) fun _ => .pure _
    cases ends with
    | none => exact .pure _
    | some ends => exact refuse_kept
  | .mk name (.dictionary width) =>
    unfold array
    refine entry_kept hplan fun node validity => ?_
    refine Kept.bind (buffer_kept hplan (Rule.values_ne_data _ _)) fun keys => ?_
    exact .bind refuse_kept fun _ => .bind refuse_kept fun _ => .pure _
  | .mk name (.union dense children) =>
    unfold array
    refine .bind (unionOwn_kept hplan _ _) fun _ => ?_
    exact .bind (arrays_kept hplan children) fun _ => .pure _
  | .mk name .null =>
    unfold array
    exact .bind node_kept fun _ => .pure _
  | .mk name .boolean | .mk name (.primitive _) | .mk name (.fixedSizeBinary _) =>
    unfold array
    refine entry_kept hplan fun node validity => ?_
    refine Kept.bind (buffer_kept hplan (Rule.ofValues_ne_data _ _)) fun values => ?_
    exact .bind refuse_kept fun _ => .pure _
theorem arrays_kept (hplan : plan.Keeps I Ready) (fs : List Field) :
    Kept I (arrays body version (some plan) fs) := by
  match fs with
  | [] =>
    unfold arrays
    exact .pure _
  | f :: fs =>
    unfold arrays
    exact .bind (array_kept hplan f) fun _ => arrays_kept hplan fs
end

theorem columns_kept (body : Body) (version : ℤ) (hplan : plan.Keeps I Ready) (fs : List Field) :
    Kept I (columns body version (some plan) fs) := by
  induction fs with
  | nil => exact .pure _
  | cons f fs ih =>
    refine .bind (.get fun _ h => h) fun _ => ?_
    refine .bind (array_kept hplan f) fun _ => ?_
    exact .bind (.update fun _ h => h) fun _ => ih

/-- **What every `take` keeps, the walk keeps**, whether it ends or refuses. -/
theorem walk_keeps (body : Body) (version : ℤ) (hplan : plan.Keeps I Ready) (compressed : Bool)
    (batch : Batch)
    (fields : List Field) : Stable I (walk body version (some plan) compressed batch fields) := by
  intro p hp
  unfold walk
  split
  · exact hp
  split
  · exact hp
  split
  · exact hp
  · exact hp
  rename_i nodes buffers _ _
  have hrun := columns_kept body version hplan fields ⟨nodes, buffers, batch.variadic, [], [], p⟩ hp
  split
  next e s heq => rw [heq] at hrun; exact hrun
  next s heq =>
    rw [heq] at hrun
    split <;> exact hrun

end Keeps

end Moruna.Ipc
