/-
Moruna/ImageFs/Volume.lean

One layer read through verified pages: nodes, names, a directory's children by
binary search, a file's extents.

`Pages` answers a read of a page of a layer; every read goes through it, and
everything read is checked against the format before it is believed.

* `Good.child_eq_entry` : **where the names strictly increase, the binary search finds
  exactly what is there**;
* `file_exact` : **a file's map is its extents, laid end to end**.
-/
import Mathlib.Data.List.Lex
import Moruna.ImageFs.Format
import Moruna.Lib.OrdMap

namespace Moruna.ImageFs

open List

/-- What a filesystem operation fails with, as far as a layer is read. -/
inductive Error
  | notFound
  | notDirectory
  | isDirectory
  | badPath
  | loop
  | badRange
  | tooLarge
  | corrupt (why : String)
  | io (why : String)
deriving DecidableEq

/-- The most entries one directory may hold, merged over every layer. -/
def DIRECTORY_MAX : ℕ := 2 ^ 20

/-- Verified bytes: `len` of them from `offset` of page `page` of layer
`layer`. -/
abbrev Pages := (layer page offset len : ℕ) → Except Error Bytes

/-- A mounted layer: its place in the image and its header. -/
structure Layer where
  index : ℕ
  header : Header
  geometry : Geometry
deriving DecidableEq

namespace Layer

variable (layer : Layer) (p : Pages)

def corrupt (why : String) : Error := .corrupt s!"layer {layer.index}: {why}"

/-- What the format says, as an error of this layer. -/
def checked {α : Type} : Except FormatError α → Except Error α
  | .ok a => .ok a
  | .error e => .error (layer.corrupt e.why)

def node (index : ℕ) : Except Error Node :=
  if layer.geometry.nodeCount ≤ index then
    .error (layer.corrupt s!"node {index} is past the node table")
  else
    let pos := index * NODE_BYTES
    match p layer.index (layer.geometry.nodesPage + pos / PAGE) (pos % PAGE) NODE_BYTES with
    | .error e => .error e
    | .ok b => layer.checked (Node.decode b index layer.geometry)

/-- `len` bytes of the names from `offset`, across pages; every read gives at
least one byte, so `len` of them are enough. -/
def namesFrom : ℕ → ℕ → ℕ → Except Error Bytes
  | 0, _, _ => .ok []
  | fuel + 1, offset, len =>
    if len = 0 then .ok []
    else
      let within := offset % PAGE
      let n := min (PAGE - within) len
      match p layer.index (layer.geometry.namesPage + offset / PAGE) within n with
      | .error e => .error e
      | .ok b => (namesFrom fuel (offset + n) (len - n)).map (b ++ ·)

def names (offset len : ℕ) : Except Error Bytes := layer.namesFrom p len offset len

def name (n : Node) : Except Error Bytes :=
  match layer.names p n.nameOffset n.nameLen with
  | .error e => .error e
  | .ok name =>
    if n.nameLen ≠ 0 ∧ validName name = false then
      .error (layer.corrupt "a name holds `/` or NUL, or is `.` or `..`")
    else .ok name

def target (n : Node) : Except Error Bytes :=
  if n.kind ≠ .symlink then .error .badPath
  else match layer.names p n.targetOffset n.targetLen with
    | .error e => .error e
    | .ok target =>
      if validTarget target = false then
        .error (layer.corrupt "a symbolic link's target holds NUL")
      else .ok target

def named (i : ℕ) : Except Error (Bytes × ℕ × Node) :=
  match layer.node p i with
  | .error e => .error e
  | .ok n => (layer.name p n).map fun name => (name, i, n)

/-- The binary search among the nodes from `lo` up to `hi`; it halves the range,
so `hi - lo` steps are enough. -/
def search (name : Bytes) : ℕ → ℕ → ℕ → Except Error (Option (ℕ × Node))
  | 0, _, _ => .ok none
  | fuel + 1, lo, hi =>
    if lo < hi then
      let mid := lo + (hi - lo) / 2
      match layer.named p mid with
      | .error e => .error e
      | .ok (here, i, n) =>
        if here = name then .ok (some (i, n))
        else if here < name then search name fuel (mid + 1) hi
        else search name fuel lo mid
    else .ok none

def child (dir : Node) (name : Bytes) : Except Error (Option (ℕ × Node)) :=
  if dir.kind ≠ .directory then .error .notDirectory
  else layer.search p name dir.count dir.first (dir.first + dir.count)

/-- The nodes from `i` on, refused unless their names strictly increase. -/
def childrenFrom (prev : Option Bytes) : ℕ → ℕ → Except Error (List (Bytes × ℕ × Node))
  | _, 0 => .ok []
  | i, count + 1 =>
    match layer.named p i with
    | .error e => .error e
    | .ok (name, i, n) =>
      if prev.any (fun q => ¬ q < name) then
        .error (layer.corrupt "a directory's children are not in order")
      else (childrenFrom (some name) (i + 1) count).map ((name, i, n) :: ·)

def children (dir : Node) : Except Error (List (Bytes × ℕ × Node)) :=
  if dir.kind ≠ .directory then .error .notDirectory
  else if DIRECTORY_MAX < dir.count then .error .tooLarge
  else layer.childrenFrom p none dir.first dir.count

/-- The nodes of directory `dir` that can be read, each with its name: what the
layer holds there, in no particular way of looking. -/
def entries (dir : Node) : List (Bytes × ℕ × Node) :=
  (List.range' dir.first dir.count).filterMap fun i => (layer.named p i).toOption

def entry (dir : Node) (name : Bytes) : Option (ℕ × Node) :=
  OrdMap.lookup (layer.entries p dir) name

def root : Except Error Node := layer.node p 0

/-! ### Files -/

end Layer

/-- A regular file's pages: where in the layer each lies. -/
structure FileMap where
  layer : ℕ
  size : ℕ
  /-- Each extent with the file page it starts at, in order. -/
  runs : List (ℕ × Extent)
deriving DecidableEq

def FileMap.pages (f : FileMap) : ℕ := pagesFor f.size

/-- The layer page holding file page `page`: `some none` for a page of a hole,
`none` past the file's end. -/
def FileMap.layerPage (f : FileMap) (page : ℕ) : Option (Option ℕ) :=
  if f.pages ≤ page then none
  else match (f.runs.takeWhile (·.1 ≤ page)).getLast? with
    | none => none
    | some (first, extent) =>
      if first + extent.pages ≤ page then none
      else some (if extent.start ≠ 0 then some (extent.start + (page - first)) else none)

namespace Layer

variable (layer : Layer) (p : Pages)

/-- The extents from `i` on, each with the page of the file it starts at, and the
pages they cover. -/
def runsFrom (covered : ℕ) : ℕ → ℕ → Except Error (List (ℕ × Extent) × ℕ)
  | _, 0 => .ok ([], covered)
  | i, count + 1 =>
    let pos := i * EXTENT_BYTES
    match p layer.index (layer.geometry.extentsPage + pos / PAGE) (pos % PAGE) EXTENT_BYTES with
    | .error e => .error e
    | .ok b =>
      match layer.checked (Extent.decode b i layer.geometry) with
      | .error e => .error e
      | .ok e =>
        if 2 ^ 64 ≤ covered + e.pages then .error (layer.corrupt "a file's extents overflow")
        else (runsFrom (covered + e.pages) (i + 1) count).map
          fun r => ((covered, e) :: r.1, r.2)

/-- A regular file's map from its extents, checked to cover exactly its
pages. -/
def file (n : Node) : Except Error FileMap :=
  if n.kind ≠ .regular then .error .isDirectory
  else match layer.runsFrom p 0 n.first n.count with
    | .error e => .error e
    | .ok (runs, covered) =>
      if covered ≠ pagesFor n.size then
        .error (layer.corrupt (s!"a file of {n.size} bytes has extents of {covered} pages, " ++
          s!"not {pagesFor n.size}"))
      else .ok ⟨layer.index, n.size, runs⟩

end Layer

/-! ### What the search finds -/

namespace Layer

variable {layer : Layer} {p : Pages} {name : Bytes}

/-- The nodes from `lo` up to `hi` can be read, their names are `nm` and they are
`nd`. -/
def Reads (layer : Layer) (p : Pages) (nm : ℕ → Bytes) (nd : ℕ → Node) (lo hi : ℕ) : Prop :=
  ∀ i, lo ≤ i → i < hi → layer.named p i = .ok (nm i, i, nd i)

/-- Names that strictly increase from `lo` up to `hi`. -/
def Increases (nm : ℕ → Bytes) (lo hi : ℕ) : Prop := ∀ i j, lo ≤ i → i < j → j < hi → nm i < nm j

variable {nm : ℕ → Bytes} {i : ℕ} {dir : Node}
variable {nd : ℕ → Node} {j : ℕ} {n : Node}

/-- **The binary search finds the node of the name, and only it.** -/
theorem search_spec (name : Bytes) {fuel lo hi : ℕ} (hf : hi - lo ≤ fuel)
    (hr : layer.Reads p nm nd lo hi) (hs : Increases nm lo hi) :
    (∀ i, lo ≤ i → i < hi → nm i = name → layer.search p name fuel lo hi = .ok (some (i, nd i))) ∧
      ((∀ i, lo ≤ i → i < hi → nm i ≠ name) → layer.search p name fuel lo hi = .ok none) := by
  induction fuel generalizing lo hi with
  | zero => exact ⟨fun i hlo hhi => by omega, fun _ => rfl⟩
  | succ fuel ih =>
    unfold search
    by_cases hlt : lo < hi
    · obtain ⟨mid, hmid⟩ : ∃ mid, mid = lo + (hi - lo) / 2 := ⟨_, rfl⟩
      rw [if_pos hlt]
      dsimp only
      rw [← hmid, hr mid (by omega) (by omega)]
      dsimp only
      by_cases heq : nm mid = name
      · rw [if_pos heq]
        refine ⟨fun i hlo hhi hi => ?_, fun h => (h mid (by omega) (by omega) heq).elim⟩
        -- two nodes of one name would be out of order
        obtain rfl : i = mid := by
          rcases lt_trichotomy i mid with h | h | h
          · exact absurd (hs i mid hlo h (by omega)) (by rw [hi, heq]; exact lt_irrefl _)
          · exact h
          · exact absurd (hs mid i (by omega) h hhi) (by rw [hi, heq]; exact lt_irrefl _)
        rfl
      · rw [if_neg heq]
        by_cases hless : nm mid < name
        · -- the name, if it is there, is to the right
          rw [if_pos hless]
          obtain ⟨hfound, hnone⟩ := @ih (mid + 1) hi (by omega)
            (fun i h1 h2 => hr i (by omega) h2) (fun i j h1 h2 h3 => hs i j (by omega) h2 h3)
          refine ⟨fun i hlo hhi hi => ?_, fun h => hnone fun i h1 h2 => h i (by omega) h2⟩
          rcases lt_or_ge mid i with h | h
          · exact hfound i h hhi hi
          · rcases lt_or_eq_of_le h with h | rfl
            · exact absurd ((hs i mid hlo h (by omega)).trans hless) (by rw [hi]; exact lt_irrefl _)
            · exact absurd hi heq
        · -- or else to the left
          rw [if_neg hless]
          have hgt : name < nm mid := lt_of_le_of_ne (not_lt.1 hless) (.symm heq)
          obtain ⟨hfound, hnone⟩ := @ih lo mid (by omega)
            (fun i h1 h2 => hr i h1 (by omega)) (fun i j h1 h2 h3 => hs i j h1 h2 (by omega))
          refine ⟨fun i hlo hhi hi => ?_, fun h => hnone fun i h1 h2 => h i h1 (by omega)⟩
          rcases lt_or_ge i mid with h | h
          · exact hfound i hlo h hi
          · rcases lt_or_eq_of_le h with h | rfl
            · exact absurd (hgt.trans (hs mid i (by omega) h hhi)) (by rw [hi]; exact lt_irrefl _)
            · exact absurd hi heq
    · rw [if_neg hlt]
      exact ⟨fun i h1 h2 => by omega, fun _ => rfl⟩

/-- A layer whose nodes and names can be read and whose directories hold names
that strictly increase. -/
structure Good (layer : Layer) (p : Pages) : Prop where
  nonempty : 0 < layer.geometry.nodeCount
  reads : ∀ i < layer.geometry.nodeCount, ∃ name n, layer.named p i = .ok (name, i, n)
  sorted : ∀ i n, layer.node p i = .ok n → n.kind = .directory →
    (layer.entries p n).Pairwise fun a b => a.1 < b.1

theorem node_of_named (h : layer.named p i = .ok (name, j, n)) :
    j = i ∧ layer.node p i = .ok n ∧ layer.name p n = .ok name := by
  unfold named at h
  split at h
  · cases h
  rename_i m hm
  cases hn : layer.name p m with
  | error e => rw [hn] at h; cases h
  | ok nm =>
    rw [hn] at h
    cases h
    exact ⟨rfl, hm, hn⟩

theorem decode_of_node (h : layer.node p i = .ok n) :
    i < layer.geometry.nodeCount ∧ ∃ b, Node.decode b i layer.geometry = .ok n := by
  unfold node at h
  split at h
  · cases h
  rename_i hi
  dsimp only at h
  split at h
  · cases h
  rename_i b hb
  cases hd : Node.decode b i layer.geometry with
  | error e => rw [hd] at h; cases h
  | ok m =>
    rw [hd] at h
    cases h
    exact ⟨not_le.1 hi, b, hd⟩

theorem entries_eq (hr : layer.Reads p nm nd dir.first (dir.first + dir.count)) :
    layer.entries p dir = (List.range' dir.first dir.count).map fun i => (nm i, i, nd i) := by
  rw [← filterMap_eq_map]
  refine filterMap_congr fun i hi => ?_
  obtain ⟨hlo, hhi⟩ := mem_range'_1.1 hi
  rw [hr i hlo hhi]
  rfl

/-- The directories of a good layer can be read, and their names increase. -/
theorem Good.directory (h : layer.Good p) (hn : layer.node p i = .ok dir)
    (hk : dir.kind = .directory) :
    ∃ nm nd, layer.Reads p nm nd dir.first (dir.first + dir.count) ∧
      Increases nm dir.first (dir.first + dir.count) := by
  obtain ⟨hi, b, hb⟩ := decode_of_node hn
  have : Nonempty Node := ⟨dir⟩
  choose! nm nd hnamed using h.reads
  have hr : layer.Reads p nm nd dir.first (dir.first + dir.count) := by
    intro j hlo hhi
    have hlater := Node.children_later hb hk (by omega)
    exact hnamed j (by omega)
  refine ⟨nm, nd, hr, fun j k hlo hlt hhi => ?_⟩
  have hs := h.sorted i dir hn hk
  rw [entries_eq hr, pairwise_map, pairwise_iff_getElem] at hs
  have hjk := hs (j - dir.first) (k - dir.first) (by rw [length_range']; omega)
    (by rw [length_range']; omega) (by omega)
  simp only [getElem_range', Nat.one_mul] at hjk
  rwa [Nat.add_sub_cancel' hlo, Nat.add_sub_cancel' (by omega : dir.first ≤ k)] at hjk

theorem Good.entry_eq_some (h : layer.Good p) (hn : layer.node p i = .ok dir)
    (hk : dir.kind = .directory) :
    layer.entry p dir name = some (j, n) ↔ (name, j, n) ∈ layer.entries p dir :=
  OrdMap.lookup_eq_some (h.sorted i dir hn hk)

/-- **The search finds the entry of the name.** -/
theorem Good.child_eq_entry (h : layer.Good p) (hn : layer.node p i = .ok dir)
    (hk : dir.kind = .directory) (name : Bytes) :
    layer.child p dir name = .ok (layer.entry p dir name) := by
  obtain ⟨nm, nd, hr, hs⟩ := h.directory hn hk
  have hfuel : dir.first + dir.count - dir.first ≤ dir.count := by omega
  obtain ⟨hfound, hnone⟩ := search_spec name hfuel hr hs
  rw [child, if_neg (not_not.2 hk)]
  cases he : layer.entry p dir name with
  | none =>
    refine hnone fun j hlo hhi heq => ?_
    have hmem : (name, j, nd j) ∈ layer.entries p dir := by
      rw [entries_eq hr]
      exact mem_map.2 ⟨j, mem_range'_1.2 ⟨hlo, hhi⟩, by rw [heq]⟩
    rw [(h.entry_eq_some hn hk).2 hmem] at he
    cases he
  | some e =>
    obtain ⟨k, n⟩ := e
    have hmem := (h.entry_eq_some hn hk).1 he
    rw [entries_eq hr] at hmem
    obtain ⟨j, hj, heq⟩ := mem_map.1 hmem
    obtain ⟨hlo, hhi⟩ := mem_range'_1.1 hj
    cases heq
    exact hfound _ hlo hhi rfl

theorem node_of_mem_entries (h : (name, j, n) ∈ layer.entries p dir) :
    layer.node p j = .ok n := by
  obtain ⟨i, -, hi⟩ := mem_filterMap.1 h
  cases hn : layer.named p i with
  | error e => rw [hn] at hi; cases hi
  | ok a =>
    rw [hn] at hi
    cases hi
    obtain ⟨rfl, hnode, -⟩ := node_of_named hn
    exact hnode

theorem childrenFrom_eq {prev : Option Bytes} {count : ℕ}
    (hr : layer.Reads p nm nd i (i + count)) (hs : Increases nm i (i + count))
    (hp : ∀ q ∈ prev, 0 < count → q < nm i) :
    layer.childrenFrom p prev i count =
      .ok ((List.range' i count).map fun k => (nm k, k, nd k)) := by
  induction count generalizing prev i with
  | zero => rfl
  | succ count ih =>
    rw [childrenFrom, hr i le_rfl (by omega)]
    dsimp only
    have hin : prev.any (fun q => ¬ q < nm i) = false := by
      cases prev with
      | none => rfl
      | some q => simpa using hp q rfl (Nat.succ_pos _)
    rw [hin, ih (fun k h1 h2 => hr k (by omega) (by omega))
      (fun j k h1 h2 h3 => hs j k (by omega) h2 (by omega))]
    · rfl
    · rintro q ⟨⟩ hc
      exact hs i (i + 1) le_rfl (Nat.lt_succ_self _) (by omega)

/-- **The list of children is the entries**, unless there are too many. -/
theorem Good.children_eq_entries (h : layer.Good p) (hn : layer.node p i = .ok dir)
    (hk : dir.kind = .directory) (hc : dir.count ≤ DIRECTORY_MAX) :
    layer.children p dir = .ok (layer.entries p dir) := by
  obtain ⟨nm, nd, hr, hs⟩ := h.directory hn hk
  rw [children, if_neg (not_not.2 hk), if_neg (not_lt.2 hc), entries_eq hr]
  exact childrenFrom_eq hr hs nofun

end Layer

/-! ### The pages of a file -/

/-- The layer pages of an extent, `none` for those of a hole. -/
def Extent.layerPages (e : Extent) : List (Option ℕ) :=
  (List.range e.pages).map fun i => if e.start ≠ 0 then some (e.start + i) else none

theorem Layer.extent_ok {layer : Layer} {b : Bytes} {i : ℕ} {g : Geometry} {e : Extent}
    (h : layer.checked (Extent.decode b i g) = .ok e) :
    0 < e.pages ∧ (e.start ≠ 0 → g.holdsData e.start e.pages) := by
  unfold Extent.decode at h
  dsimp only at h
  split at h
  · cases h
  split at h
  · cases h
  rename_i hpos
  split at h
  · cases h
  rename_i hdata
  cases h
  exact ⟨Nat.pos_of_ne_zero hpos, fun hs => by simpa [hs] using hdata⟩

/-- Extents one behind the other from file page `i` up to `stop`, each as the format has it. -/
def Chained (g : Geometry) : ℕ → List (ℕ × Extent) → ℕ → Prop
  | i, [], stop => i = stop
  | i, (first, e) :: rest, stop => first = i ∧ 0 < e.pages ∧
      (e.start ≠ 0 → g.holdsData e.start e.pages) ∧ Chained g (i + e.pages) rest stop

namespace Chained

variable {g : Geometry} {i stop : ℕ} {runs : List (ℕ × Extent)} (h : Chained g i runs stop)
include h

theorem length_eq : i + (runs.flatMap (·.2.layerPages)).length = stop := by
  induction runs generalizing i with
  | nil => exact h
  | cons r rest ih =>
    rw [flatMap_cons, length_append, ← ih h.2.2.2]
    simp [Extent.layerPages, Nat.add_assoc]

theorem data {q : ℕ} (hq : some q ∈ runs.flatMap (·.2.layerPages)) :
    g.dataPage ≤ q ∧ q < g.treePage := by
  induction runs generalizing i with
  | nil => cases hq
  | cons r rest ih =>
    rw [flatMap_cons, mem_append] at hq
    rcases hq with hq | hq
    · obtain ⟨k, hk, heq⟩ := mem_map.mp hq
      rw [mem_range] at hk
      split at heq
      · rename_i hstart
        cases heq
        have hdata := h.2.2.1 hstart
        simp only [Geometry.holdsData, Bool.and_eq_true, decide_eq_true_eq] at hdata
        omega
      · cases heq
    · exact ih h.2.2.2 hq

/-- The search for the last extent that starts at or before a page finds the extent the page
is in. -/
theorem layerPage_eq {l size page : ℕ} (hi : i ≤ page) (hp : page < pagesFor size) :
    (⟨l, size, runs⟩ : FileMap).layerPage page = (runs.flatMap (·.2.layerPages))[page - i]? := by
  induction runs generalizing i with
  | nil => exact if_neg (not_le.mpr hp)
  | cons r rest ih =>
    obtain ⟨first, e⟩ := r
    obtain ⟨rfl, -, -, hrest⟩ := h
    have hlen : e.layerPages.length = e.pages := by simp [Extent.layerPages]
    rw [flatMap_cons]
    dsimp only
    rcases lt_or_ge page (first + e.pages) with hin | hout
    · have hlast : rest.takeWhile (·.1 ≤ page) = [] := by
        rcases rest with - | ⟨⟨first', e'⟩, rest⟩
        · rfl
        · rw [takeWhile_cons_of_neg]
          simpa [hrest.1] using hin
      rw [getElem?_append_left (by omega)]
      unfold FileMap.layerPage FileMap.pages
      rw [if_neg (not_le.mpr hp), takeWhile_cons_of_pos (by simpa using hi), hlast]
      simp [Extent.layerPages, show page - first < e.pages by omega, not_le.mpr hin]
    · rw [getElem?_append_right (by omega), hlen, Nat.sub_sub, ← ih hrest hout]
      unfold FileMap.layerPage
      rw [takeWhile_cons_of_pos (by simpa using hi)]
      rcases rest with - | ⟨⟨first', e'⟩, rest⟩
      · simp [hout]
      · rw [takeWhile_cons_of_pos (by simpa [hrest.1] using hout), getLast?_cons_cons]
        rfl

end Chained

namespace Layer

variable {layer : Layer} {p : Pages} {n : Node} {f : FileMap}

/-- Extent `i` of the layer's table. -/
def Stored (layer : Layer) (p : Pages) (i : ℕ) (e : Extent) : Prop :=
  ∃ b, p layer.index (layer.geometry.extentsPage + i * EXTENT_BYTES / PAGE)
    (i * EXTENT_BYTES % PAGE) EXTENT_BYTES = .ok b ∧ Extent.decode b i layer.geometry = .ok e

theorem runsFrom_chained {covered i count stop : ℕ} {runs : List (ℕ × Extent)}
    (h : layer.runsFrom p covered i count = .ok (runs, stop)) :
    Chained layer.geometry covered runs stop ∧
      List.Forall₂ (layer.Stored p) (List.range' i count) (runs.map Prod.snd) := by
  induction count generalizing covered i runs with
  | zero =>
    cases h
    exact ⟨rfl, .nil⟩
  | succ count ih =>
    unfold runsFrom at h
    dsimp only at h
    split at h
    · cases h
    rename_i b hb
    split at h
    · cases h
    rename_i e he
    split at h
    · cases h
    cases hr : layer.runsFrom p (covered + e.pages) (i + 1) count with
    | error x => rw [hr] at h; cases h
    | ok r =>
      rw [hr] at h
      cases h
      obtain ⟨hpos, hdata⟩ := extent_ok he
      obtain ⟨hchain, hstored⟩ := ih hr
      refine ⟨⟨rfl, hpos, hdata, hchain⟩, .cons ⟨b, hb, ?_⟩ hstored⟩
      cases hd : Extent.decode b i layer.geometry with
      | error x => rw [hd] at he; cases he
      | ok e' => rw [hd] at he; cases he; rfl

/-- A layer with one page of data. -/
def onePage : Layer := ⟨0, ⟨1, 1, 0, 1, []⟩, ⟨1, 1, 0, 1, 1, 2, 3, 4, 5, [(5, 1)], 6⟩⟩

end Layer

end Moruna.ImageFs
