/-
Moruna/Sources/Pruning.lean

Row-group pruning of a Parquet source (`splits`, `prune`, `excludes`, `bounds` and
`compare` of moruna-sources/src/parquet/plan.rs) and the filters of a configuration
(`row_filter` of moruna-runtime/src/kinds/parquet.rs).

A group is skipped when one filter's literal lies outside the group's bounds of the
column.  The bounds are read as the physical type has them, a 64-bit word as a signed
number and bytes as a string, lossily (`lossy`); the column's own order may be another.
`Statistics.Wide` says that what is read still encloses the column's bounds.

* `pruning_sound_iff` : **no matching row is dropped exactly where the bounds are wide**;
* `unsigned_group_skipped` : those of an unsigned column are not.
-/
import Moruna.Lib.Checks
import Moruna.Lib.Codec
import Moruna.Lib.Machine
import Mathlib.Order.Compare

namespace Moruna.Sources

open List

/-! ### Filters -/

/-- `ScalarValue`: a literal, or a bound. -/
inductive ScalarValue
  | i64 (v : Int64)
  | u64 (v : UInt64)
  | f64 (v : Float)
  | str (s : String)
  | bool (b : Bool)

inductive RowFilter
  | gt (column : String) (value : ScalarValue)
  | lt (column : String) (value : ScalarValue)
  | eq (column : String) (value : ScalarValue)

def RowFilter.column : RowFilter → String
  | .gt column _ | .lt column _ | .eq column _ => column

def RowFilter.value : RowFilter → ScalarValue
  | .gt _ value | .lt _ value | .eq _ value => value

/-- A value of the configuration; what a list or an object holds is not read. -/
inductive Json
  | null
  | bool (b : Bool)
  | posInt (n : UInt64)
  | negInt (i : Int64) (h : i < 0)
  | float (f : Float)
  | string (s : String)
  | array
  | object

inductive FilterError
  | badValue
  | unknownOperator (op : String)
deriving DecidableEq

def scalar : Json → Except FilterError ScalarValue
  | .bool b => .ok (.bool b)
  | .string s => .ok (.str s)
  | .posInt n => .ok (if n.toNat < 2 ^ 63 then .i64 n.toInt64 else .u64 n)
  | .negInt i _ => .ok (.i64 i)
  | .float f => .ok (.f64 f)
  | _ => .error .badValue

/-- `row_filter`, of `[column, op, value]`. -/
def rowFilter (filter : String × String × Json) : Except FilterError RowFilter := do
  let (column, op, value) := filter
  let scalar ← scalar value
  if op ∈ [">", "gt"] then pure (.gt column scalar)
  else if op ∈ ["<", "lt"] then pure (.lt column scalar)
  else if op ∈ ["==", "=", "eq"] then pure (.eq column scalar)
  else .error (.unknownOperator op)

/-! ### Statistics -/

/-- The least and the largest value of a column chunk, by physical type. -/
inductive Statistics
  | boolean (min max : Option Bool)
  | int32 (min max : Option Int32)
  | int64 (min max : Option Int64)
  | float (min max : Option Float32)
  | double (min max : Option Float)
  | byteArray (min max : Option Bytes)
  | int96
  | fixedLenByteArray

def pair {α : Type} (wrap : α → ScalarValue) :
    Option α → Option α → Option (ScalarValue × ScalarValue)
  | some min, some max => some (wrap min, wrap max)
  | _, _ => none

def partialCmp (a b : Float) : Option Ordering :=
  if a < b then some .lt else if a == b then some .eq else if b < a then some .gt else none

def order {α : Type} [LinearOrder α] (a b : α) : Ordering := cmp a b

/-- `compare`: a bound against a literal. -/
def compare : ScalarValue → ScalarValue → Option Ordering
  | .i64 a, .i64 b => some (order a.toInt b.toInt)
  | .u64 a, .u64 b => some (order a.toNat b.toNat)
  | .i64 a, .u64 b => if 0 ≤ a.toInt then some (order a.toInt b.toNat) else none
  | .u64 a, .i64 b => if 0 ≤ b.toInt then some (order (a.toNat : ℤ) b.toInt) else none
  | .f64 a, .f64 b => partialCmp a b
  | .str a, .str b => some (order (utf8 a) (utf8 b))
  | .bool a, .bool b => some (order a b)
  | _, _ => none

/-- How a value that the filter keeps compares with its literal. -/
def RowFilter.order : RowFilter → Ordering
  | .gt .. => .gt
  | .lt .. => .lt
  | .eq .. => .eq

/-- The literal lies outside the bounds, which compare with it so. -/
def RowFilter.rejects (f : RowFilter) (atMin atMax : Option Ordering) : Bool :=
  match f with
  | .gt .. => atMax.any (· ≠ .gt)
  | .lt .. => atMin.any (· ≠ .lt)
  | .eq .. => atMax.any (· = .lt) || atMin.any (· = .gt)

/-! ### Files -/

/-- `ColumnChunkMetaData`; the count of nulls is part of the statistics. -/
structure Chunk where
  statistics : Option (Statistics × Option UInt64)
  dictionaryPageOffset : Option Int64
  dataPageOffset : Int64
  compressedSize : Int64
  uncompressedSize : Int64

/-- `RowGroupMetaData`: a chunk for every leaf column. -/
structure RowGroup where
  columns : List Chunk
  numRows : Int64

/-- `FileMeta`; `leaves` are the paths of the leaf columns. -/
structure FileMeta where
  len : UInt64
  leaves : List (List String)
  groups : List RowGroup
  projected : List ℕ

inductive SpanError
  | noChunk
  | negativeOffset (offset : ℤ)
  | negativeSize (size : ℤ)
  | startsPast (start : ℕ)
  | runsPast (stop : ℕ)
deriving DecidableEq

/-- A filter on a column the file lacks, or a chunk of split `next`, row group `rg` and
column `leaf` that is not inside its file. -/
inductive PlanError
  | noColumn (column : String)
  | span (next rg leaf : ℕ) (e : SpanError)
deriving DecidableEq

/-- The first leaf column below the top-level column. -/
def FileMeta.leaf (file : FileMeta) (column : String) : Option ℕ :=
  file.leaves.findIdx? (·.head? = some column)

def RowGroup.statistics (group : RowGroup) (leaf : ℕ) : Option Statistics :=
  (group.columns[leaf]?).bind fun chunk => chunk.statistics.map Prod.fst

def chunkSpan (group : RowGroup) (leaf : ℕ) (fileLen : UInt64) : Except SpanError (Chunk × ℕ × ℕ) :=
  match group.columns[leaf]? with
  | none => .error .noChunk
  | some chunk => do
    let offset := (chunk.dictionaryPageOffset.getD chunk.dataPageOffset).toInt
    rejectIf (offset < 0) (.negativeOffset offset)
    let size := chunk.compressedSize.toInt
    rejectIf (size < 0) (.negativeSize size)
    let start := offset.toNat
    let stop := start + size.toNat
    rejectIf (0 < size ∧ fileLen.toNat ≤ start) (.startsPast start)
    rejectIf (fileLen.toNat < stop) (.runsPast stop)
    pure (chunk, start, stop)

structure Split where
  id : ℕ
  rows : ℕ
  uncompressedBytes : ℕ
  columnBytes : List ℕ
  nullCounts : List (Option UInt64)

structure Entry where
  file : ℕ
  rowGroup : ℕ
deriving DecidableEq

/-- The split of a group that is kept. -/
def splitOf (file : FileMeta) (group : RowGroup) (rg next : ℕ) : Except PlanError Split := do
  let chunks ← file.projected.mapM fun leaf =>
    (chunkSpan group leaf file.len).mapError (.span next rg leaf)
  let columnBytes := chunks.map fun c => c.1.uncompressedSize.toInt.toNat
  pure {
    id := next
    rows := group.numRows.toInt.toNat
    uncompressedBytes := columnBytes.foldl (fun sum b => min (sum + b) (2 ^ 64 - 1)) 0
    columnBytes
    nullCounts := chunks.map fun c => c.1.statistics.bind Prod.snd }

/-- What `splits` has gathered. -/
structure Plan where
  entries : List Entry
  splits : List Split
  skipped : ℕ
  next : ℕ

section Pruning

variable (lossy : Bytes → String)

/-- `bounds`; `lossy` is `String::from_utf8_lossy`. -/
def bounds : Statistics → Option (ScalarValue × ScalarValue)
  | .int32 min max => pair (fun v => .i64 v.toInt64) min max
  | .int64 min max => pair .i64 min max
  | .float min max => pair (fun v => .f64 v.toFloat) min max
  | .double min max => pair .f64 min max
  | .boolean min max => pair .bool min max
  | .byteArray min max => pair (fun b => .str (lossy b)) min max
  | _ => none

def excludes (filter : RowFilter) (stats : Statistics) : Bool :=
  match bounds lossy stats with
  | none => false
  | some (min, max) => filter.rejects (compare min filter.value) (compare max filter.value)

def prune (file : FileMeta) (group : RowGroup) : List RowFilter → Except PlanError Bool
  | [] => .ok false
  | filter :: rest =>
    match file.leaf filter.column with
    | none => .error (.noColumn filter.column)
    | some leaf =>
      match group.statistics leaf with
      | none => prune file group rest
      | some stats => if excludes lossy filter stats then .ok true else prune file group rest

variable (filters : List RowFilter)

/-- One round of the loops of `splits`. -/
def planGroup (p : Plan) (x : Entry × FileMeta × RowGroup) : Except PlanError Plan := do
  let (entry, file, group) := x
  if ← prune lossy file group filters then pure { p with skipped := p.skipped + 1 }
  else
    let split ← splitOf file group entry.rowGroup p.next
    pure { p with
      entries := p.entries ++ [entry]
      splits := p.splits ++ [split]
      next := p.next + 1 }

/-- The row groups in the order of the loops: by file, then within it. -/
def groupsOf (files : List FileMeta) : List (Entry × FileMeta × RowGroup) :=
  files.zipIdx.flatMap fun (file, index) =>
    file.groups.zipIdx.map fun (group, rg) => (⟨index, rg⟩, file, group)

def splits (files : List FileMeta) : Except PlanError Plan :=
  (groupsOf files).foldlM (planGroup lossy filters) ⟨[], [], 0, 0⟩

end Pruning

/-! ### Rows and filters -/

/-- A value that is not null: the integer, the boolean or the bytes it is. -/
inductive Value
  | int (n : ℤ)
  | bool (b : Bool)
  | bytes (b : Bytes)

def Value.against : Value → Value → Option Ordering
  | .int m, .int n => some (order m n)
  | .bool a, .bool b => some (order a b)
  | .bytes a, .bytes b => some (order a b)
  | _, _ => none

/-- The order of a type. -/
inductive Value.Le : Value → Value → Prop
  | int {m n : ℤ} (h : m ≤ n) : Le (.int m) (.int n)
  | bool {a b : Bool} (h : a ≤ b) : Le (.bool a) (.bool b)
  | bytes {a b : Bytes} (h : a ≤ b) : Le (.bytes a) (.bytes b)

theorem Value.Le.refl (v : Value) : v.Le v := by cases v <;> constructor <;> exact le_rfl

theorem Value.Le.trans {u v w : Value} (h : u.Le v) (h' : v.Le w) : u.Le w := by
  cases h with
  | int h | bool h | bytes h =>
    rcases h' with h' | h' | h'
    constructor
    exact h.trans h'

def ScalarValue.value : ScalarValue → Option Value
  | .i64 v => some (.int v.toInt)
  | .u64 v => some (.int v.toNat)
  | .f64 _ => none
  | .str s => some (.bytes (utf8 s))
  | .bool b => some (.bool b)

def Json.value : Json → Option Value
  | .bool b => some (.bool b)
  | .posInt n => some (.int n.toNat)
  | .negInt i _ => some (.int i.toInt)
  | .string s => some (.bytes (utf8 s))
  | _ => none

/-- How a value must compare with the literal after the operator. -/
def orderOf (op : String) : Ordering :=
  if op ∈ [">", "gt"] then .gt else if op ∈ ["<", "lt"] then .lt else .eq

/-- The leaf columns of a row whose top-level column is no list or group. -/
abbrev Row := ℕ → Option Value

/-- The row's value of the named column is not null and compares as the filter asks. -/
def Row.Satisfies (file : FileMeta) (row : Row) (filter : String × String × Json) : Prop :=
  ∃ leaf v w, file.leaf filter.1 = some leaf ∧ row leaf = some v ∧ filter.2.2.value = some w ∧
    v.against w = some (orderOf filter.2.1)

/-- The bounds as the column's declared type has them. -/
def Statistics.extremes (unsigned : Bool) : Statistics → Option (Value × Value)
  | .boolean (some min) (some max) => some (.bool min, .bool max)
  | .int32 (some min) (some max) =>
    if unsigned then some (.int min.toUInt32.toNat, .int max.toUInt32.toNat)
    else some (.int min.toInt, .int max.toInt)
  | .int64 (some min) (some max) =>
    if unsigned then some (.int min.toUInt64.toNat, .int max.toUInt64.toNat)
    else some (.int min.toInt, .int max.toInt)
  | .byteArray (some min) (some max) => some (.bytes min, .bytes max)
  | _ => none

/-- The statistics bound the value. -/
def Statistics.Right (unsigned : Bool) (stats : Statistics) (v : Value) : Prop :=
  ∀ lo hi, stats.extremes unsigned = some (lo, hi) → lo.Le v ∧ v.Le hi

/-- The statistics are right for the row, with the unsigned columns as declared. -/
def Row.Within (group : RowGroup) (unsigned : ℕ → Bool) (row : Row) : Prop :=
  ∀ leaf stats v, group.statistics leaf = some stats → row leaf = some v →
    stats.Right (unsigned leaf) v

/-- The upper bound of an unsigned column has its top bit clear, and decoding moves no bound of
a column of bytes inwards.  Bounds in the wrong order bound nothing. -/
def Statistics.Wide (lossy : Bytes → String) (unsigned : Bool) : Statistics → Prop
  | .int32 (some min) (some max) =>
    unsigned → min.toUInt32.toNat ≤ max.toUInt32.toNat → max.toUInt32.toNat < 2 ^ 31
  | .int64 (some min) (some max) =>
    unsigned → min.toUInt64.toNat ≤ max.toUInt64.toNat → max.toUInt64.toNat < 2 ^ 63
  | .byteArray (some min) (some max) =>
    min ≤ max → utf8 (lossy min) ≤ min ∧ max ≤ utf8 (lossy max)
  | _ => True

/-! ### Outside the bounds -/

section Bounds

variable {f : RowFilter} {atMin atMax : Option Ordering} {stats : Statistics} {unsigned : Bool}

theorem ne_order_of_rejects {α : Type} [LinearOrder α] {lo x hi b : α} (hlo : lo ≤ x)
    (hhi : x ≤ hi) (hmin : ∀ o, atMin = some o → order lo b = o)
    (hmax : ∀ o, atMax = some o → order hi b = o) (h : f.rejects atMin atMax) :
    order x b ≠ f.order := by
  intro hx
  unfold order at *
  cases f with
  | gt column value =>
    obtain ⟨o, ho, hne⟩ := (Option.any_eq_true _ _).mp h
    have hgt := (cmp_eq_gt_iff _ _).mpr (((cmp_eq_gt_iff _ _).mp hx).trans_le hhi)
    rw [← hmax o ho, hgt] at hne
    cases hne
  | lt column value =>
    obtain ⟨o, ho, hne⟩ := (Option.any_eq_true _ _).mp h
    have hlt := (cmp_eq_lt_iff _ _).mpr (hlo.trans_lt ((cmp_eq_lt_iff _ _).mp hx))
    rw [← hmin o ho, hlt] at hne
    cases hne
  | eq column value =>
    obtain rfl := (cmp_eq_eq_iff _ _).mp hx
    rcases Bool.or_eq_true_iff.mp h with h | h
    · obtain ⟨o, ho, heq⟩ := (Option.any_eq_true _ _).mp h
      rw [← hmax o ho, decide_eq_true_eq, cmp_eq_lt_iff] at heq
      exact absurd heq hhi.not_gt
    · obtain ⟨o, ho, heq⟩ := (Option.any_eq_true _ _).mp h
      rw [← hmin o ho, decide_eq_true_eq, cmp_eq_gt_iff] at heq
      exact absurd heq hlo.not_gt

variable {v w : Value} {lossy : Bytes → String}

/-- The same of the values of one type. -/
theorem Value.Le.ne_order_of_rejects {lo hi : Value} (hlo : lo.Le v) (hhi : v.Le hi)
    (hmin : ∀ o, atMin = some o → lo.against w = some o)
    (hmax : ∀ o, atMax = some o → hi.against w = some o) (h : f.rejects atMin atMax) :
    v.against w ≠ some f.order := by
  intro heq
  cases hlo with
  | int hlo | bool hlo | bytes hlo =>
    rcases hhi with hhi | hhi | hhi
    cases w <;> first
      | cases heq
      | exact Sources.ne_order_of_rejects hlo hhi (fun o ho => Option.some.inj (hmin o ho))
          (fun o ho => Option.some.inj (hmax o ho)) h (Option.some.inj heq)

/-- A bound compares with a literal as the values they stand for do. -/
theorem against_of_compare {s l : ScalarValue} {o : Ordering}
    (h : compare s l = some o) (hs : s.value = some v) (hl : l.value = some w) :
    v.against w = some o := by
  cases s <;> cases l <;> cases hs <;> cases hl <;> try first | exact h | cases h
  case u64.u64 => exact congrArg some (Nat.strictMono_cast.cmp_map_eq ..)
  all_goals exact (Option.ite_none_right_eq_some.mp h).2

/-- Bounds are read where the declared type has them, or of a floating point column. -/
theorem extremes_of_bounds {min max : ScalarValue} (unsigned : Bool)
    (h : bounds lossy stats = some (min, max)) :
    (∃ lo hi, stats.extremes unsigned = some (lo, hi)) ∨ ∃ a b, min = .f64 a ∧ max = .f64 b := by
  cases stats with
  | float a b | double a b =>
    cases a <;> cases b <;> cases h
    exact .inr ⟨_, _, rfl, rfl⟩
  | boolean a b | byteArray a b | int32 a b | int64 a b =>
    cases a <;> cases b <;> cases h
    cases unsigned <;> exact .inl ⟨_, _, rfl⟩
  | _ => cases h

/-- Words read with a sign enclose themselves read without one as long as the upper has its top
bit clear. -/
theorem unsigned_encloses {n : ℕ} (x y : BitVec (n + 1)) : (x.toNat ≤ y.toNat → y.toNat < 2 ^ n) ↔
    ((x.toNat : ℤ) ≤ y.toNat → x.toInt ≤ x.toNat ∧ (y.toNat : ℤ) ≤ y.toInt) := by
  have := Nat.two_pow_pos n
  rw [BitVec.toInt_eq_toNat_cond, BitVec.toInt_eq_toNat_cond, pow_succ]
  split <;> split <;> omega

theorem Value.int_le {m n : ℤ} : Le (.int m) (.int n) ↔ m ≤ n := ⟨fun | .int h => h, .int⟩

theorem Value.bytes_le {a b : Bytes} : Le (.bytes a) (.bytes b) ↔ a ≤ b :=
  ⟨fun | .bytes h => h, .bytes⟩

/-- What is read of the statistics encloses the bounds of the column. -/
def Statistics.Enclosed (lossy : Bytes → String) (unsigned : Bool) (stats : Statistics) : Prop :=
  ∀ lo hi min max, stats.extremes unsigned = some (lo, hi) → lo.Le hi →
    bounds lossy stats = some (min, max) →
    ∃ lo' hi', min.value = some lo' ∧ max.value = some hi' ∧ lo'.Le lo ∧ hi.Le hi'

theorem enclosed_iff {lo hi lo' hi' : Value} {min max : ScalarValue}
    (he : stats.extremes unsigned = some (lo, hi)) (hb : bounds lossy stats = some (min, max))
    (hmin : min.value = some lo') (hmax : max.value = some hi') :
    stats.Enclosed lossy unsigned ↔ (lo.Le hi → lo'.Le lo ∧ hi.Le hi') := by
  constructor
  · intro h hle
    obtain ⟨_, _, hmin', hmax', h⟩ := h lo hi min max he hle hb
    cases hmin.symm.trans hmin'
    cases hmax.symm.trans hmax'
    exact h
  · intro h lo₁ hi₁ min₁ max₁ he₁ hle hb₁
    cases he.symm.trans he₁
    cases hb.symm.trans hb₁
    exact ⟨lo', hi', hmin, hmax, h hle⟩

theorem enclosed_of_none (he : stats.extremes unsigned = none) :
    stats.Enclosed lossy unsigned := by
  intro lo hi min max h
  cases he.symm.trans h

/-- **Wide statistics are those whose bounds, as `bounds` reads them, enclose the column's.** -/
theorem wide_iff_enclosed : stats.Wide lossy unsigned ↔ stats.Enclosed lossy unsigned := by
  cases stats with
  | boolean a b =>
    refine iff_of_true trivial ?_
    cases a <;> cases b <;> first
      | exact enclosed_of_none rfl
      | exact (enclosed_iff rfl rfl rfl rfl).mpr fun _ => ⟨.refl _, .refl _⟩
  | byteArray a b =>
    cases a <;> cases b <;> first
      | exact iff_of_true trivial (enclosed_of_none rfl)
      | rw [enclosed_iff rfl rfl rfl rfl]
        simp only [Statistics.Wide, Value.bytes_le]
  | int32 a b =>
    cases a <;> cases b <;> try exact iff_of_true trivial (enclosed_of_none rfl)
    rename_i a b
    cases unsigned <;> rw [enclosed_iff rfl rfl rfl rfl, Int32.toInt_toInt64, Int32.toInt_toInt64]
    · exact iff_of_true nofun fun _ => ⟨.refl _, .refl _⟩
    · simp only [Value.int_le]
      exact (forall_prop_of_true rfl).trans (unsigned_encloses a.toBitVec b.toBitVec)
  | int64 a b =>
    cases a <;> cases b <;> try exact iff_of_true trivial (enclosed_of_none rfl)
    rename_i a b
    cases unsigned <;> rw [enclosed_iff rfl rfl rfl rfl]
    · exact iff_of_true nofun fun _ => ⟨.refl _, .refl _⟩
    · simp only [Value.int_le]
      exact (forall_prop_of_true rfl).trans (unsigned_encloses a.toBitVec b.toBitVec)
  | _ => exact iff_of_true trivial (enclosed_of_none rfl)

theorem not_rejects_none : f.rejects none none = false := by cases f <;> rfl

/-- What wide statistics exclude, no value they bound is. -/
theorem ne_order_of_excludes (hwide : stats.Wide lossy unsigned)
    (hr : stats.Right unsigned v) (hw : f.value.value = some w)
    (h : excludes lossy f stats) : v.against w ≠ some f.order := by
  unfold excludes at h
  split at h
  · cases h
  rename_i min max hb
  rcases extremes_of_bounds unsigned hb with ⟨lo, hi, he⟩ | ⟨a, b, rfl, rfl⟩
  · obtain ⟨hlo, hhi⟩ := hr lo hi he
    obtain ⟨lo', hi', hmin, hmax, hlo', hhi'⟩ :=
      wide_iff_enclosed.mp hwide lo hi min max he (hlo.trans hhi) hb
    exact (hlo'.trans hlo).ne_order_of_rejects (hhi.trans hhi')
      (fun o ho => against_of_compare ho hmin hw) (fun o ho => against_of_compare ho hmax hw) h
  · -- a literal with a value is no floating point number
    have hnone (c : Float) : compare (.f64 c) f.value = none := by
      cases hv : f.value <;> first | rfl | (rw [hv] at hw; cases hw)
    rw [hnone, hnone, not_rejects_none] at h
    cases h

end Bounds

theorem rowFilter_eq_ok {filter : String × String × Json} {f : RowFilter}
    (h : rowFilter filter = .ok f) :
    f.column = filter.1 ∧ f.order = orderOf filter.2.1 ∧ f.value.value = filter.2.2.value := by
  obtain ⟨column, op, value⟩ := filter
  obtain ⟨s, hs, h⟩ := seq_eq_ok.mp h
  have hvalue : s.value = value.value := by
    cases value with
    | posInt n =>
      cases hs
      split
      · exact congrArg (some ∘ Value.int) (BitVec.toInt_eq_toNat_of_lt (x := n.toBitVec)
          (by rw [UInt64.toNat_toBitVec]; omega))
      · rfl
    | _ => cases hs <;> rfl
  unfold orderOf
  split_ifs at h ⊢ <;> cases h <;> exact ⟨rfl, rfl, hvalue⟩

/-! ### Skipped groups -/

section Plans

variable {lossy : Bytes → String} {filters : List RowFilter}

theorem prune_eq_true {file : FileMeta} {group : RowGroup}
    (h : prune lossy file group filters = .ok true) :
    ∃ f ∈ filters, ∃ leaf stats, file.leaf f.column = some leaf ∧
      group.statistics leaf = some stats ∧ excludes lossy f stats := by
  induction filters with
  | nil => cases h
  | cons f filters ih =>
    unfold prune at h
    split at h
    · cases h
    rename_i leaf hleaf
    split at h
    · obtain ⟨g, hg, hrest⟩ := ih h
      exact ⟨g, mem_cons_of_mem _ hg, hrest⟩
    rename_i stats hstats
    split at h
    · rename_i hex
      exact ⟨f, mem_cons_self, leaf, stats, hleaf, hstats, hex⟩
    · obtain ⟨g, hg, hrest⟩ := ih h
      exact ⟨g, mem_cons_of_mem _ hg, hrest⟩

variable (lossy filters) in
/-- The groups that pruning answers with `b` for. -/
def answered (b : Bool) (l : List (Entry × FileMeta × RowGroup)) : List Entry :=
  (l.filter fun x => prune lossy x.2.1 x.2.2 filters = .ok b).map Prod.fst

/-- The loops: what survives is numbered on, and the rest is counted. -/
theorem foldlM_planGroup {l : List (Entry × FileMeta × RowGroup)} {p q : Plan}
    (h : l.foldlM (planGroup lossy filters) p = .ok q) :
    q.entries = p.entries ++ answered lossy filters false l ∧
    q.splits.map Split.id = p.splits.map Split.id ++
      List.range' p.next (answered lossy filters false l).length ∧
    q.skipped = p.skipped + (answered lossy filters true l).length ∧
    l.length =
      (answered lossy filters false l).length + (answered lossy filters true l).length := by
  induction l generalizing p with
  | nil => cases h; simp [answered]
  | cons x l ih =>
    obtain ⟨p', hp, h⟩ := seq_eq_ok.mp h
    obtain ⟨b, hb, hp⟩ := seq_eq_ok.mp hp
    obtain ⟨h₁, h₂, h₃, h₄⟩ := ih h
    have hcons (b' : Bool) : answered lossy filters b' (x :: l) =
        if b = b' then x.1 :: answered lossy filters b' l else answered lossy filters b' l := by
      unfold answered
      rw [filter_cons, hb]
      cases b <;> cases b' <;> simp
    rw [hcons, hcons]
    cases b with
    | true =>
      cases hp
      refine ⟨h₁, h₂, ?_, ?_⟩
      · simp only [if_true, length_cons, h₃]
        omega
      · simp [h₄]
        omega
    | false =>
      obtain ⟨split, hs, hp⟩ := seq_eq_ok.mp hp
      obtain ⟨chunks, -, hs⟩ := seq_eq_ok.mp hs
      cases hs
      cases hp
      refine ⟨?_, ?_, h₃, ?_⟩
      · simp [h₁]
      · simp [h₂, range'_succ]
      · simp [h₄]
        omega

theorem exists_scalar_i64 (v : Int64) : ∃ j, scalar j = .ok (.i64 v) := by
  by_cases h : v < 0
  · exact ⟨.negInt v h, rfl⟩
  · have hv : v.toUInt64.toNat = v.toInt.toNat := Int64.toNat_toUInt64_of_le (Int64.not_lt.mp h)
    have hlt := v.toInt_lt
    exact ⟨.posInt v.toUInt64, congrArg _ (if_pos (by omega))⟩

variable {stats : Statistics} {max min : ScalarValue} {v : Value}

theorem exists_scalar_of_bounds (h : bounds lossy stats = some (min, max)) :
    (∃ j, scalar j = .ok min) ∧ ∃ j, scalar j = .ok max := by
  cases stats with
  | int32 a b | int64 a b =>
    cases a <;> cases b <;> cases h
    exact ⟨exists_scalar_i64 _, exists_scalar_i64 _⟩
  | float a b | double a b =>
    cases a <;> cases b <;> cases h
    exact ⟨⟨.float _, rfl⟩, .float _, rfl⟩
  | boolean a b =>
    cases a <;> cases b <;> cases h
    exact ⟨⟨.bool _, rfl⟩, .bool _, rfl⟩
  | byteArray a b =>
    cases a <;> cases b <;> cases h
    exact ⟨⟨.string _, rfl⟩, .string _, rfl⟩
  | _ => cases h

theorem Value.le_or_order {u : Value} {o : Ordering} (h : u.against v = some o) :
    (v.Le u ∨ u.against v = some .lt) ∧ (u.Le v ∨ u.against v = some .gt) := by
  cases u <;> cases v <;> cases h <;>
    refine ⟨(le_or_gt _ _).imp ?_ fun h => congrArg some ((cmp_eq_lt_iff _ _).mpr h),
      (le_or_gt _ _).imp ?_ fun h => congrArg some ((cmp_eq_gt_iff _ _).mpr h)⟩ <;>
    exact fun h => by constructor; exact h

/-- What is read encloses the column's bounds, or a value at them compares as a filter
asks with what is read. -/
theorem wide_or {unsigned : Bool} {lo hi : Value}
    (he : stats.extremes unsigned = some (lo, hi)) (hb : bounds lossy stats = some (min, max)) :
    ∃ lo' hi', min.value = some lo' ∧ max.value = some hi' ∧
      (lo'.Le lo ∨ lo.against lo' = some .lt) ∧ (hi.Le hi' ∨ hi.against hi' = some .gt) := by
  cases stats with
  | boolean a b | byteArray a b =>
    cases a <;> cases b <;> cases hb
    cases he
    exact ⟨_, _, rfl, rfl, (Value.le_or_order rfl).1, (Value.le_or_order rfl).2⟩
  | int32 a b | int64 a b =>
    cases a <;> cases b <;> cases hb
    cases unsigned <;> cases he <;>
      exact ⟨_, _, rfl, rfl, (Value.le_or_order rfl).1, (Value.le_or_order rfl).2⟩
  | _ => cases he

theorem compare_self {s : ScalarValue} (h : s.value = some v) :
    compare s s = some .eq := by
  cases s with
  | f64 => cases h
  | _ => exact congrArg some (cmp_self_eq_eq _)

/-- With wide bounds of the columns that the filters name, a skipped group has no row that all
of them keep. -/
theorem exists_not_satisfies {file : FileMeta} {group : RowGroup} {unsigned : ℕ → Bool}
    {raw : List (String × String × Json)} (hraw : List.mapM rowFilter raw = .ok filters)
    (hwide : ∀ filter ∈ raw, ∀ leaf stats, file.leaf filter.1 = some leaf →
      group.statistics leaf = some stats → stats.Wide lossy (unsigned leaf))
    (h : prune lossy file group filters = .ok true) (row : Row)
    (hrow : row.Within group unsigned) : ∃ filter ∈ raw, ¬ row.Satisfies file filter := by
  obtain ⟨f, hf, leaf, stats, hleaf, hs, hex⟩ := prune_eq_true h
  obtain ⟨i, hi, rfl⟩ := mem_iff_getElem.mp hf
  obtain ⟨hlen, hall⟩ := forall₂_iff_get.mp (mapM_eq_ok.mp hraw)
  obtain ⟨hcolumn, horder, hvalue⟩ := rowFilter_eq_ok (hall i (hlen ▸ hi) hi)
  refine ⟨raw.get ⟨i, hlen ▸ hi⟩, get_mem _ _, ?_⟩
  rintro ⟨leaf', v, w, hleaf', hv, hw, hcmp⟩
  obtain rfl := Option.some.inj (hleaf.symm.trans (hcolumn ▸ hleaf'))
  exact ne_order_of_excludes (hwide _ (get_mem _ _) _ _ (hcolumn ▸ hleaf) hs) (hrow _ _ _ hs hv)
    (hvalue.trans hw) hex (horder ▸ hcmp)

/-- **Pruning drops no matching row exactly where the bounds it reads are wide**, whatever the
filters and the rows that the statistics are right for.  A group is skipped for a column with
statistics only, and every group is either a split, numbered in order, or counted.  For given
filters it is enough that the bounds of the columns they name are wide. -/
theorem pruning_sound_iff (lossy : Bytes → String) (file : FileMeta) (group : RowGroup)
    (unsigned : ℕ → Bool) :
    ((∀ raw filters, List.mapM rowFilter raw = .ok filters →
        prune lossy file group filters = .ok true → ∀ row : Row, row.Within group unsigned →
          ∃ filter ∈ raw, ¬ row.Satisfies file filter) ↔
      ∀ column leaf stats, file.leaf column = some leaf → group.statistics leaf = some stats →
        stats.Wide lossy (unsigned leaf)) ∧
    (∀ raw filters, List.mapM rowFilter raw = .ok filters →
      (∀ filter ∈ raw, ∀ leaf stats, file.leaf filter.1 = some leaf →
        group.statistics leaf = some stats → stats.Wide lossy (unsigned leaf)) →
      prune lossy file group filters = .ok true → ∀ row : Row, row.Within group unsigned →
        ∃ filter ∈ raw, ¬ row.Satisfies file filter) ∧
    (∀ filters, prune lossy file group filters = .ok true → ∃ f ∈ filters, ∃ leaf stats,
      file.leaf f.column = some leaf ∧ group.statistics leaf = some stats ∧
        excludes lossy f stats) ∧
    ∀ filters files plan, splits lossy filters files = .ok plan →
      plan.entries = answered lossy filters false (groupsOf files) ∧
      plan.splits.map Split.id = List.range plan.entries.length ∧
      plan.skipped = (answered lossy filters true (groupsOf files)).length ∧
      (groupsOf files).length = plan.entries.length + plan.skipped := by
  refine ⟨⟨fun hsound column leaf stats hleaf hstats =>
      wide_iff_enclosed.mpr fun lo hi min max he hle hb => ?_,
    fun hwide raw filters hraw => exists_not_satisfies hraw fun filter _ => hwide filter.1⟩,
    fun raw filters hraw hwide => exists_not_satisfies hraw hwide, fun filters => prune_eq_true,
    fun filters files plan h => ?_⟩
  · obtain ⟨lo', hi', hmin, hmax, hlo, hhi⟩ := wide_or he hb
    obtain ⟨⟨jmin, hjmin⟩, jmax, hjmax⟩ := exists_scalar_of_bounds hb
    -- a value at a bound that is missed, with the bound read as the literal
    have hlost {op j f v} (hf : rowFilter (column, op, j) = .ok f) (hex : excludes lossy f stats)
        (hv : lo.Le v ∧ v.Le hi) {w} (hw : f.value.value = some w) :
        v.against w ≠ some (orderOf op) := by
      intro hcmp
      obtain ⟨hcolumn, -, hvalue⟩ := rowFilter_eq_ok hf
      obtain ⟨filter, hmem, hnot⟩ := hsound [(column, op, j)] [f]
        (mapM_eq_ok.mpr (.cons hf .nil))
        (by rw [prune, hcolumn, hleaf]; dsimp only; rw [hstats]; exact if_pos hex)
        (fun i => if i = leaf then some v else none) (by
          rintro i stats' v' hi hv' lo₁ hi₁ he₁
          obtain ⟨rfl, rfl⟩ : i = leaf ∧ v = v' := by simpa using hv'
          cases hstats.symm.trans hi
          cases he.symm.trans he₁
          exact hv)
      obtain rfl := mem_singleton.mp hmem
      exact hnot ⟨leaf, v, w, hleaf, if_pos rfl, hvalue.symm.trans hw, hcmp⟩
    refine ⟨lo', hi', hmin, hmax, hlo.resolve_right fun hcmp => ?_,
      hhi.resolve_right fun hcmp => ?_⟩
    · exact @hlost "<" jmin (.lt column min) lo (by simp [rowFilter, hjmin])
        (by rw [excludes, hb]; simp [RowFilter.rejects, RowFilter.value, compare_self hmin])
        ⟨.refl _, hle⟩ lo' hmin hcmp
    · exact @hlost ">" jmax (.gt column max) hi (by simp [rowFilter, hjmax])
        (by rw [excludes, hb]; simp [RowFilter.rejects, RowFilter.value, compare_self hmax])
        ⟨hle, .refl _⟩ hi' hmax hcmp
  · obtain ⟨h₁, h₂, h₃, h₄⟩ := foldlM_planGroup h
    simp only [nil_append, map_nil, zero_add] at h₁ h₂ h₃
    exact ⟨h₁, by rw [h₂, h₁, range_eq_range'], h₃, by rw [h₁, h₃, h₄]⟩

end Plans

/-- One row group, of the one column `c` of 64-bit words. -/
def wordGroup (min max : Int64) : RowGroup :=
  ⟨[⟨some (.int64 (some min) (some max), none), none, 4, 8, 8⟩], 1⟩

def wordFile (min max : Int64) : FileMeta := ⟨64, [["c"]], [wordGroup min max], [0]⟩

/-- **An unsigned column loses rows**: its largest value 2^63 is read as the least signed
one, so a group with a row that the filter asks for is skipped. -/
theorem unsigned_group_skipped :
    [("c", ">", Json.posInt 5)].mapM rowFilter = .ok [.gt "c" (.i64 5)] ∧
    Row.Within (wordGroup 1 Int64.minValue) (fun _ => true)
      (fun _ => some (.int 0x8000000000000000)) ∧
    prune (fun b => (fromUtf8 b).getD "") (wordFile 1 Int64.minValue)
      (wordGroup 1 Int64.minValue) [.gt "c" (.i64 5)] = .ok true ∧
    Row.Satisfies (wordFile 1 Int64.minValue) (fun _ => some (.int 0x8000000000000000))
      ("c", ">", .posInt 5) := by
  refine ⟨rfl, ?_, rfl, 0, _, _, rfl, rfl, rfl, by decide +kernel⟩
  intro leaf stats v h hv lo hi he
  obtain ⟨chunk, hc, h⟩ := Option.bind_eq_some_iff.mp h
  obtain rfl := mem_singleton.mp (mem_of_getElem? hc)
  cases h
  cases hv
  cases he
  exact ⟨.int (by decide +kernel), .int (by decide +kernel)⟩

end Moruna.Sources
