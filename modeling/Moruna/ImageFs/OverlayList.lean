/-
Moruna/ImageFs/OverlayList.lean

What a merged directory lists, and the overlay as a whole.

The list takes the children of one part after another into one ordered map, in
which the first entry of a name stays; a whiteout keeps its name there and is
dropped at the end.  The map holds at most `DIRECTORY_MAX` names, whiteouts
among them, and a part of more children than that is not read at all: a larger
directory is refused, although every name of it can be looked up.

* `mergeNames_spec`, `listNames_spec` : what the map holds, or that there are
  too many names;
* `list_spec` : **the list of a directory is the names that are found in it**;
* `large_directory_refused` : a directory that is too large to list.
-/
import Mathlib.Data.Finset.Card
import Moruna.ImageFs.Laid
import Moruna.ImageFs.Overlay
import Moruna.Lib.Slices

namespace Moruna.ImageFs

open List

variable {layers : List Layer} {p : Pages}

/-! ### The child that decides -/

/-- The child of a name in the first part that names it. -/
def topChild (layers : List Layer) (p : Pages) (name : Bytes) : List Part → Option Part
  | [] => none
  | part :: parts => (childOf layers p part name).or (topChild layers p name parts)

/-- What a child says in a list: nothing for a whiteout. -/
def Part.listed (part : Part) : Option (Kind × ℕ) :=
  if part.node.kind = .whiteout then none else some (part.node.kind, part.ino)

/-- What a lookup finds is what the deciding child says. -/
theorem seek_eq_topChild (name : Bytes) (parts : List Part) :
    ((seek layers p name parts).bind fun found =>
      (Found.part (some found)).map fun part => (found.kind, part.ino)) =
      (topChild layers p name parts).bind Part.listed := by
  induction parts with
  | nil => rfl
  | cons part parts ih =>
    unfold seek topChild
    cases hc : childOf layers p part name with
    | none => exact ih
    | some c =>
      show _ = c.listed
      unfold Part.listed
      dsimp only
      cases hk : c.node.kind with
      | whiteout => rfl
      | regular => rfl
      | symlink => rfl
      | directory => rfl

variable {part : Part} {name : Bytes} {i k n : ℕ} {found : Found} {g : Geometry}

theorem seek_file {c : Part} (hc : childOf layers p part name = some c)
    (hk : c.node.kind = .regular) (parts : List Part) :
    seek layers p name (part :: parts) = some (.file c) := by
  unfold seek
  rw [hc]
  dsimp only
  rw [hk]

/-! ### The merged names -/

variable (m : Names)

def Names.keySet : Finset Bytes := m.keys.toFinset

theorem Names.mem_keySet {m : Names} :
    name ∈ m.keySet ↔ ∃ v, m.get name = some v := by
  unfold Names.keySet OrdMap.keys
  rw [mem_toFinset, mem_map]
  constructor
  · rintro ⟨⟨k, v⟩, hmem, rfl⟩
    exact ⟨v, OrdMap.mem_entries.1 hmem⟩
  · rintro ⟨v, hv⟩
    exact ⟨(name, v), OrdMap.mem_entries.2 hv, rfl⟩

theorem Names.card_keySet : m.keySet.card = m.entries.length := by
  unfold Names.keySet OrdMap.keys
  rw [toFinset_card_of_nodup, length_map]
  exact pairwise_map.2 (m.sorted.imp fun h => h.ne)

def namesOf (cs : List (Bytes × ℕ × Node)) : Finset Bytes := (cs.map Prod.fst).toFinset

/-- What a child says in a list of its layer. -/
def said (layer : ℕ) (c : ℕ × Node) : Option (Kind × ℕ) := Part.listed ⟨layer, c.1, c.2⟩

theorem Names.keySet_insert (name : Bytes) (v : Option (Kind × ℕ)) :
    Names.keySet (m.insert name v) = insert name m.keySet := by
  ext k
  rw [Finset.mem_insert, Names.mem_keySet, Names.mem_keySet, OrdMap.get_insert]
  split
  next h => exact ⟨fun _ => .inl h, fun _ => ⟨v, rfl⟩⟩
  next h => exact ⟨.inr, fun hk => hk.resolve_left h⟩

/-- What the list keeps of the merged names. -/
def Names.listed : List (Bytes × Kind × ℕ) :=
  m.entries.filterMap fun e => e.2.map fun k => (e.1, k.1, k.2)

theorem Names.mem_listed {kind : Kind} :
    (name, kind, i) ∈ m.listed ↔ m.get name = some (some (kind, i)) := by
  unfold Names.listed
  rw [mem_filterMap, ← OrdMap.mem_entries]
  constructor
  · rintro ⟨⟨k, v⟩, hmem, hv⟩
    obtain ⟨⟨kind', i'⟩, hsome, heq⟩ := Option.map_eq_some_iff.1 hv
    cases heq
    rw [← hsome]
    exact hmem
  · intro hmem
    exact ⟨_, hmem, rfl⟩

theorem Names.sorted_listed : (m.listed.map Prod.fst).Pairwise (· < ·) := by
  unfold Names.listed
  rw [pairwise_map, pairwise_filterMap]
  refine m.sorted.imp fun {a b} hab x hx y hy => ?_
  obtain ⟨_, -, rfl⟩ := Option.map_eq_some_iff.1 hx
  obtain ⟨_, -, rfl⟩ := Option.map_eq_some_iff.1 hy
  exact hab

theorem namesOf_cons (c : Bytes × ℕ × Node) (cs : List (Bytes × ℕ × Node)) :
    namesOf (c :: cs) = insert c.1 (namesOf cs) := by
  unfold namesOf
  rw [map_cons, toFinset_cons]

/-- How taking over the children of a part ends: with the first entry of every
name, or because there are too many names. -/
theorem mergeNames_spec (layer : ℕ) (cs : List (Bytes × ℕ × Node)) (m : Names)
    (hm : m.entries.length ≤ DIRECTORY_MAX) :
    (∃ m', mergeNames layer cs m = .ok m' ∧ m'.entries.length ≤ DIRECTORY_MAX ∧
      m'.keySet = m.keySet ∪ namesOf cs ∧
      ∀ name, m'.get name = (m.get name).or ((OrdMap.lookup cs name).map (said layer))) ∨
    mergeNames layer cs m = .error .tooLarge ∧ DIRECTORY_MAX < (m.keySet ∪ namesOf cs).card := by
  induction cs generalizing m with
  | nil =>
    refine .inl ⟨m, rfl, hm, ?_, fun name => ?_⟩
    · simp [namesOf]
    · simp [OrdMap.lookup]
  | cons c cs ih =>
    obtain ⟨name, index, n⟩ := c
    unfold mergeNames
    cases hg : m.get name with
    | some v =>
      -- the name is taken: its first entry stays
      have hmem : name ∈ m.keySet := Names.mem_keySet.2 ⟨v, hg⟩
      rw [namesOf_cons, Finset.union_insert, Finset.insert_eq_self.2 (Finset.mem_union_left _ hmem)]
      refine (ih m hm).imp_left ?_
      rintro ⟨m', hrun, hlen, hkeys, hget⟩
      refine ⟨m', hrun, hlen, hkeys, fun k => ?_⟩
      rw [hget k, OrdMap.lookup]
      split
      next hk => rw [hk, hg]; rfl
      next => rfl
    | none =>
      have hnew : name ∉ m.keySet := fun h => by
        obtain ⟨v, hv⟩ := Names.mem_keySet.1 h
        rw [hg] at hv
        cases hv
      have hcard := Finset.card_insert_of_notMem hnew
      rw [m.card_keySet] at hcard
      dsimp only
      split
      next hfull =>
        refine .inr ⟨rfl, ?_⟩
        rw [namesOf_cons, Finset.union_insert, ← Finset.insert_union]
        have hle : (insert name m.keySet).card ≤ (insert name m.keySet ∪ namesOf cs).card :=
          Finset.card_le_card Finset.subset_union_left
        show DIRECTORY_MAX < (insert name m.keySet ∪ namesOf cs).card
        omega
      obtain ⟨m₁, hm₁⟩ : ∃ m₁ : Names, m₁ = m.insert name
        (if n.kind = .whiteout then none else some (n.kind, ino layer index)) := ⟨_, rfl⟩
      rw [← hm₁]
      have hset : m₁.keySet = insert name m.keySet := hm₁ ▸ Names.keySet_insert ..
      have hlen₁ : m₁.entries.length ≤ DIRECTORY_MAX := by
        rw [← m₁.card_keySet, hset]
        omega
      rw [namesOf_cons, Finset.union_insert, ← Finset.insert_union, ← hset]
      refine (ih m₁ hlen₁).imp_left ?_
      rintro ⟨m', hrun, hlen, hkeys, hget⟩
      refine ⟨m', hrun, hlen, hkeys, fun k => ?_⟩
      rw [hget k, hm₁, OrdMap.get_insert, OrdMap.lookup]
      split
      next hk => rw [hk, hg]; rfl
      next => rfl

/-! ### The list of a directory -/

/-- The names the parts hold. -/
def partNames (layers : List Layer) (p : Pages) (part : Part) : Finset Bytes :=
  match layers[part.layer]? with
  | none => ∅
  | some layer => namesOf (layer.entries p part.node)

/-- All names of a directory, those of whiteouts among them. -/
def allNames (layers : List Layer) (p : Pages) (parts : List Part) : Finset Bytes :=
  parts.foldr (fun part names => partNames layers p part ∪ names) ∅

/-- A directory small enough to be listed: no part of it has too many children,
and neither have they together. -/
def Small (layers : List Layer) (p : Pages) (parts : List Part) : Prop :=
  (∀ part ∈ parts, part.node.count ≤ DIRECTORY_MAX) ∧
    (allNames layers p parts).card ≤ DIRECTORY_MAX

variable {parts : List Part}

theorem listNames_spec (hstack : Stack layers p) (h : IsDir layers p parts) (m : Names)
    (hm : m.entries.length ≤ DIRECTORY_MAX) :
    (∃ m', listNames layers p parts m = .ok m' ∧ (∀ part ∈ parts, part.node.count ≤ DIRECTORY_MAX) ∧
      (m.keySet ∪ allNames layers p parts).card ≤ DIRECTORY_MAX ∧
      ∀ name, m'.get name = (m.get name).or ((topChild layers p name parts).map Part.listed)) ∨
    listNames layers p parts m = .error .tooLarge ∧
      ((∃ part ∈ parts, DIRECTORY_MAX < part.node.count) ∨
        DIRECTORY_MAX < (m.keySet ∪ allNames layers p parts).card) := by
  induction h generalizing m with
  | nil =>
    refine .inl ⟨m, rfl, nofun, ?_, fun name => ?_⟩
    · simpa [allNames, m.card_keySet] using hm
    · simp [topChild]
  | @cons part parts ok dir last rest ih =>
    obtain ⟨layer, hl, hn⟩ := ok
    have hgood := (hstack _ _ hl).2
    unfold listNames layerAt
    rw [hl]
    dsimp only
    have hall : m.keySet ∪ allNames layers p (part :: parts) =
        m.keySet ∪ namesOf (layer.entries p part.node) ∪ allNames layers p parts := by
      show m.keySet ∪ (partNames layers p part ∪ allNames layers p parts) = _
      rw [← Finset.union_assoc, partNames, hl]
    rw [hall]
    rcases lt_or_ge DIRECTORY_MAX part.node.count with hbig | hc
    · refine .inr ⟨?_, .inl ⟨part, mem_cons_self, hbig⟩⟩
      rw [Layer.children, if_neg (not_not.2 dir), if_pos hbig]
    rw [hgood.children_eq_entries hn dir hc]
    dsimp only
    rcases mergeNames_spec part.layer (layer.entries p part.node) m hm with
      ⟨m₁, hrun, hlen, hkeys, hget⟩ | ⟨hrun, hbig⟩
    · rw [hrun, ← hkeys]
      rcases ih m₁ hlen with ⟨m', hrest, hcounts, hcard, hget'⟩ | ⟨hrest, hbad⟩
      · refine .inl ⟨m', hrest, ?_, hcard, fun name => ?_⟩
        · intro q hq
          rcases mem_cons.1 hq with rfl | hq
          · exact hc
          · exact hcounts q hq
        · have hchild : childOf layers p part name =
              (layer.entry p part.node name).map fun c => ⟨part.layer, c.1, c.2⟩ := by
            unfold childOf
            rw [hl]
          rw [hget', hget, topChild, hchild, Layer.entry]
          cases m.get name <;> cases OrdMap.lookup (layer.entries p part.node) name <;> rfl
      · refine .inr ⟨hrest, hbad.imp_left ?_⟩
        rintro ⟨q, hq, hbig⟩
        exact ⟨q, mem_cons_of_mem _ hq, hbig⟩
    · rw [hrun]
      refine .inr ⟨rfl, .inr ?_⟩
      exact hbig.trans_le (Finset.card_le_card Finset.subset_union_left)

/-- **The list of a directory is the names that are found in it**, each once and
in order, with what they are; a directory that is too large is refused. -/
theorem list_spec (hstack : Stack layers p) (h : IsDir layers p parts) :
    (Small layers p parts → ∃ l, list layers p parts = .ok l ∧ (l.map Prod.fst).Pairwise (· < ·) ∧
      ∀ name kind i, (name, kind, i) ∈ l ↔ ∃ found part, seek layers p name parts = some found ∧
        Found.part (some found) = some part ∧ found.kind = kind ∧ part.ino = i) ∧
    (¬ Small layers p parts → list layers p parts = .error .tooLarge) := by
  have hkeys : Names.keySet OrdMap.empty = ∅ := rfl
  have hspec := listNames_spec hstack h .empty (Nat.zero_le _)
  rw [hkeys, Finset.empty_union] at hspec
  unfold list
  refine ⟨fun hsmall => ?_, fun hbig => ?_⟩
  · rcases hspec with ⟨m, hrun, -, -, hget⟩ | ⟨-, ⟨part, hpart, hbad⟩ | hbad⟩
    · rw [hrun]
      refine ⟨m.listed, rfl, m.sorted_listed, fun name kind i => ?_⟩
      have hfound := @seek_eq_topChild layers p name parts
      rw [m.mem_listed, hget, OrdMap.get_empty, Option.none_or]
      constructor
      · intro hsome
        rw [Option.map_eq_some_iff] at hsome
        obtain ⟨c, hc, hlisted⟩ := hsome
        rw [hc, Option.bind_some, hlisted, Option.bind_eq_some_iff] at hfound
        obtain ⟨found, hseek, hpart⟩ := hfound
        obtain ⟨part, hthere, heq⟩ := Option.map_eq_some_iff.1 hpart
        cases heq
        exact ⟨found, part, hseek, hthere, rfl, rfl⟩
      · rintro ⟨found, part, hseek, hpart, rfl, rfl⟩
        rw [hseek, Option.bind_some, hpart, Option.map_some, eq_comm,
          Option.bind_eq_some_iff] at hfound
        obtain ⟨c, hc, hlisted⟩ := hfound
        rw [hc, Option.map_some, hlisted]
    · exact absurd (hsmall.1 part hpart) (not_le.2 hbad)
    · exact absurd hsmall.2 (not_le.2 hbad)
  · rcases hspec with ⟨m, -, hcounts, hcard, -⟩ | ⟨hrun, -⟩
    · exact absurd ⟨hcounts, hcard⟩ hbig
    · rw [hrun]
      rfl

/-! ### The overlay as a whole -/

def Found.mode : Found → ℕ
  | .directory parts => dirMode parts
  | .file part | .symlink part => part.node.mode

/-- What was found is this node of the tree: it comes from it and has its kind
and its mode. -/
def Found.Is (found : Found) (part : Part) : Prop :=
  Found.part (some found) = some part ∧ found.kind = part.node.kind ∧
    found.mode = part.node.mode

theorem Found.is_of_part
    (h : Found.part (some found) = some part) (hkind : part.node.kind = found.kind) :
    found.Is part := by
  refine ⟨h, hkind.symm, ?_⟩
  cases found with
  | directory parts =>
    have hhead : parts.head? = some part := h
    show dirMode parts = _
    unfold dirMode
    rw [hhead]
    rfl
  | file c | symlink c =>
    cases h
    rfl

theorem seek_is (h : seek layers p name parts = some found)
    (hpart : Found.part (some found) = some part) : found.Is part := by
  obtain ⟨part', hpart', hkind⟩ := seek_part h
  rw [hpart] at hpart'
  cases hpart'
  exact Found.is_of_part hpart hkind

/-- What repeated lookups find is a node, and a directory has its parts. -/
theorem findFrom_found (hstack : Stack layers p) (h : IsDir layers p parts) {path : List Bytes}
    (hfind : findFrom layers p parts path = .ok (some found)) :
    IsDir layers p (Found.parts (some found)) ∧
      (∀ part, Found.part (some found) = some part → found.Is part) ∧
      (parts ≠ [] ∨ path ≠ [] → Found.part (some found) ≠ none) := by
  induction path generalizing parts with
  | nil =>
    cases hfind
    cases h with
    | nil => exact ⟨.nil, (fun _ hpart => by cases hpart), by simp⟩
    | cons ok dir last rest =>
      refine ⟨.cons ok dir last rest, fun part hpart => Found.is_of_part hpart ?_,
        fun _ => Option.some_ne_none _⟩
      cases hpart
      exact dir
  | cons name path ih =>
    unfold findFrom at hfind
    rw [lookup_eq_seek hstack h] at hfind
    have hbelow := isDir_seek hstack h name
    cases hs : seek layers p name parts with
    | none =>
      rw [hs] at hfind
      cases hfind
    | some r =>
      obtain ⟨part, hpart, -⟩ := seek_part hs
      rw [hs] at hfind hbelow
      cases r with
      | directory below =>
        obtain ⟨hdir, his, hsome⟩ := ih hbelow hfind
        refine ⟨hdir, his, fun _ => hsome (.inl fun hnil => ?_)⟩
        have hhead : below.head? = some part := hpart
        rw [show below = [] from hnil] at hhead
        cases hhead
      | file c | symlink c =>
        dsimp only at hfind
        split at hfind
        · cases hfind
          exact ⟨hbelow, fun _ => seek_is hs, fun _ => Option.some_ne_none _⟩
        · cases hfind

theorem rootParts_ne_nil {ls : List Layer} (hne : ls ≠ []) (h : rootParts p ls = .ok parts) :
    parts ≠ [] := by
  cases ls with
  | nil => exact absurd rfl hne
  | cons layer ls =>
    unfold rootParts at h
    split at h
    · cases h
    split at h
    · cases h
      nofun
    cases hrest : rootParts p ls with
    | error e => rw [hrest] at h; cases h
    | ok rest =>
      rw [hrest] at h
      cases h
      nofun

/-- **The overlay is the fold of its layers.**  Along every path the lookups find
an entry exactly where the tree of the stack has one, and it is that node, with
its kind and its mode (the root of no layers at all is the one directory that is
no layer's).  The list of a directory so found is the names that a lookup in it
finds, each once and with its kind; it is refused exactly when the directory, or
one layer's part of it, has more than `DIRECTORY_MAX` names. -/
theorem overlay_is_fold (layers : List Layer) (p : Pages) (hstack : Stack layers p)
    (path : List Bytes) :
    ∃ r, find layers p path = .ok r ∧
      (∀ part, stackTree layers p path = some part ↔ ∃ found, r = some found ∧ found.Is part) ∧
      (layers ≠ [] ∨ path ≠ [] → (r = none ↔ stackTree layers p path = none)) ∧
      ∀ parts, r = some (.directory parts) →
        (Small layers p parts → ∃ l, list layers p parts = .ok l ∧
          (l.map Prod.fst).Pairwise (· < ·) ∧
          ∀ name kind i, (name, kind, i) ∈ l ↔
            ∃ found part, lookup layers p parts name = .ok (some found) ∧ found.Is part ∧
              found.kind = kind ∧ part.ino = i) ∧
        (¬ Small layers p parts → list layers p parts = .error .tooLarge) := by
  obtain ⟨root, hroot, hdir, htree⟩ := @rootParts_spec _ _ hstack layers.reverse
    fun layer h => mem_reverse.1 h
  obtain ⟨r, hr, hpart⟩ := findFrom_spec hstack hdir path
  rw [htree, ← stackTree_eq_topTree] at hpart
  have hfind : find layers p path = .ok r := by
    unfold find
    rw [hroot]
    exact hr
  refine ⟨r, hfind, fun part => ?_, fun hne => ?_, ?_⟩
  · rw [← hpart]
    constructor
    · intro hsome
      cases r with
      | none => cases hsome
      | some found => exact ⟨found, rfl, (findFrom_found hstack hdir hr).2.1 part hsome⟩
    · rintro ⟨found, rfl, his⟩
      exact his.1
  · rw [← hpart]
    cases r with
    | none => exact ⟨fun _ => rfl, fun _ => rfl⟩
    | some found =>
      have hroot' : root ≠ [] ∨ path ≠ [] := hne.imp_left fun hl =>
        rootParts_ne_nil (mt reverse_eq_nil_iff.1 hl) hroot
      exact ⟨nofun, fun hn => absurd hn ((findFrom_found hstack hdir hr).2.2 hroot')⟩
  · rintro parts rfl
    have hparts : IsDir layers p parts := (findFrom_found hstack hdir hr).1
    obtain ⟨hsmall, hlarge⟩ := list_spec hstack hparts
    refine ⟨fun hs => ?_, hlarge⟩
    obtain ⟨l, hl, hsorted, hmem⟩ := hsmall hs
    refine ⟨l, hl, hsorted, fun name kind i => ?_⟩
    rw [hmem, lookup_eq_seek hstack hparts]
    constructor
    · rintro ⟨found, part, hseek, hpart, hkind, hino⟩
      exact ⟨found, part, congrArg _ hseek, seek_is hseek hpart, hkind, hino⟩
    · rintro ⟨found, part, hseek, his, hkind, hino⟩
      exact ⟨found, part, Except.ok.inj hseek, his.1, hkind, hino⟩

/-! ### Two layers

The lower layer holds a file `a` and a directory `d` with a file `x`; the upper
one whites out `a` and has a directory `d` of its own. -/

/-- A directory, a file without data, a whiteout; each with its name. -/
def dirNode (nameOffset nameLen first count : ℕ) : Node :=
  ⟨nameOffset, nameLen, .directory, 0, 493, first, count, 0, 0, 0⟩

def fileNode (nameOffset nameLen : ℕ) : Node :=
  ⟨nameOffset, nameLen, .regular, 0, 420, 0, 0, 0, 0, 0⟩

def goneNode (nameOffset nameLen : ℕ) : Node :=
  ⟨nameOffset, nameLen, .whiteout, 0, 0, 0, 0, 0, 0, 0⟩

def lowerNodes : List Node := [dirNode 0 0 1 2, fileNode 0 1, dirNode 1 1 3 1, fileNode 2 1]

def upperNodes : List Node := [dirNode 0 0 1 2, goneNode 0 1, dirNode 1 1 0 0]

/-- The layout of a layer with this many nodes and bytes of names, each on one
page, and no data. -/
def smallGeometry (nodeCount namesLen : ℕ) : Geometry :=
  { nodeCount, extentCount := 0, namesLen, dataPages := 0, nodesPage := 1, namesPage := 2,
    extentsPage := 3, dataPage := 3, treePage := 3, level := [(3, 1)], pages := 4 }

def twoLayers : List Layer :=
  [⟨0, ⟨4, 0, 3, 0, []⟩, smallGeometry 4 3⟩, ⟨1, ⟨3, 0, 2, 0, []⟩, smallGeometry 3 2⟩]

def twoPages : Pages
  | 0 => Layer.laidPage 1 lowerNodes [97, 100, 120]
  | _ => Layer.laidPage 1 upperNodes [97, 100]

example : Geometry.new 4 0 3 0 = .ok (smallGeometry 4 3) := by decide

/-- A small layer is a good one when its nodes and names are right, which a look
at each of them decides. -/
theorem good_small {layer : Layer} {nodes : List Node} {names : Bytes}
    (hg : layer.geometry = smallGeometry nodes.length names.length)
    (hp : p layer.index = Layer.laidPage 1 nodes names)
    (hlen : 0 < nodes.length ∧ nodes.length ≤ 64)
    (hsound : ∀ i < nodes.length, ∀ n ∈ nodes[i]?, n.fault i layer.geometry = none ∧
      n.nameOffset < 256 ∧ n.nameLen < 256 ∧ n.flags < 256 ∧ n.mode < 512 ∧ n.first < 256 ∧
      n.count < 256 ∧ n.size < 256 ∧ n.targetOffset < 256 ∧ n.targetLen < 256)
    (hvalid : ∀ n ∈ nodes, n.nameLen ≠ 0 → validName (n.nameIn names) = true)
    (hsorted : ∀ dir ∈ nodes, dir.kind = .directory →
      (dir.childNames nodes names).Pairwise (· < ·)) : layer.Good p := by
  have hholds : layer.Holds p nodes names := by
    refine Layer.holds_of_laid (by rw [hg]; rfl) (by rw [hg]; rfl) (by rw [hg]; rfl)
      (by rw [hg]; rfl) (by unfold NODE_BYTES PAGE; omega) hp fun i n hi => ?_
    obtain ⟨hfault, h⟩ := hsound i (lt_of_getElem? hi) n hi
    exact ⟨by constructor <;> omega, hfault⟩
  exact hholds.good (length_pos_iff.1 hlen.1) hvalid hsorted

theorem stack_two : Stack twoLayers twoPages := by
  intro k layer hk
  rcases k with _ | _ | k
  · cases hk
    exact ⟨rfl, @good_small _ _ lowerNodes [97, 100, 120] rfl rfl (by decide)
      (by decide) (by decide) (by decide)⟩
  · cases hk
    exact ⟨rfl, @good_small _ _ upperNodes [97, 100] rfl rfl (by decide)
      (by decide) (by decide) (by decide)⟩
  · cases hk

/-- In the two layers `a` is gone and `d/x` is still there. -/
theorem overlay_is_fold_two : Stack twoLayers twoPages ∧ find twoLayers twoPages [[97]] = .ok none ∧
      ∃ found, find twoLayers twoPages [[100], [120]] = .ok (some found) ∧
        found.Is ⟨0, 3, fileNode 2 1⟩ := by
  refine ⟨stack_two, ?_, ?_⟩
  · obtain ⟨r, hr, -, hnone, -⟩ := overlay_is_fold twoLayers twoPages stack_two [[97]]
    rw [hr, (hnone (.inr (by decide))).2 (by decide +kernel)]
  · obtain ⟨r, hr, hsome, -⟩ := overlay_is_fold twoLayers twoPages stack_two [[100], [120]]
    obtain ⟨found, rfl, his⟩ := (hsome ⟨0, 3, fileNode 2 1⟩).1 (by decide +kernel)
    exact ⟨found, hr, his⟩

/-! ### A directory too large to list

One layer whose root holds `n` files, the names of which are the three digits of
their numbers. -/

/-- A digit of `k` to the base 128, from `0` on. -/
def digit (k i : ℕ) : UInt8 := UInt8.ofNat (48 + k / 128 ^ i % 128)

def wideName (k : ℕ) : Bytes := [digit k 2, digit k 1, digit k 0]

def wideNames (n : ℕ) : Bytes := (List.range n).flatMap wideName

def wideNodes (n : ℕ) : List Node :=
  dirNode 0 0 1 n :: (List.range n).map fun k => fileNode (k * 3) 3

theorem toNat_digit (k i : ℕ) : (digit k i).toNat = 48 + k / 128 ^ i % 128 := by
  unfold digit
  rw [UInt8.toNat_ofNat', Nat.mod_eq_of_lt (by omega)]

theorem wideName_lt {j : ℕ} (hlt : j < k) (hk : k < 128 ^ 3) : wideName j < wideName k := by
  have hdigit (i : ℕ) : digit j i < digit k i ↔ j / 128 ^ i % 128 < k / 128 ^ i % 128 := by
    rw [UInt8.lt_iff_toNat_lt, toNat_digit, toNat_digit]
    omega
  have heq (i : ℕ) : digit j i = digit k i ↔ j / 128 ^ i % 128 = k / 128 ^ i % 128 := by
    rw [← UInt8.toNat_inj, toNat_digit, toNat_digit]
    omega
  unfold wideName
  simp only [cons_lt_cons_iff, hdigit, heq]
  omega

theorem valid_wideName (k : ℕ) : validName (wideName k) = true := by
  have hne (i : ℕ) : digit k i ≠ 47 ∧ digit k i ≠ 0 := by
    have hlow : 48 ≤ (digit k i).toNat := by rw [toNat_digit]; omega
    constructor <;> rintro heq <;> rw [heq] at hlow <;> revert hlow <;> decide
  simp [validName, wideName, hne, NAME_MAX]

theorem length_wideNames (n : ℕ) : (wideNames n).length = n * 3 := by
  unfold wideNames
  rw [@length_flatMap_const _ wideName 3 _ fun _ _ => rfl, length_range]

theorem nameIn_wide (hk : k < n) : (fileNode (k * 3) 3).nameIn (wideNames n) = wideName k :=
  @slice_flatMap _ wideName 3 _ (fun _ _ => rfl) _ _ (getElem?_range hk)

theorem fault_wideRoot (hpos : 0 < n) (hcount : g.nodeCount = n + 1) :
    (dirNode 0 0 1 n).fault 0 g = none := by
  have hnot : ¬ g.nodeCount < 1 + n := by omega
  simp [Node.fault, Node.kindFault, dirNode, hnot, hpos.ne']

theorem fault_wideFile (hk : k < n) (hn : n ≤ 128 ^ 3)
    (hlen : g.namesLen = n * 3) : (fileNode (k * 3) 3).fault (i + 1) g = none := by
  have hsmall : ¬ 2 ^ 64 ≤ k * 3 + 3 := by omega
  have hwithin : ¬ g.namesLen < k * 3 + 3 := by omega
  unfold Node.fault Node.kindFault fileNode
  dsimp only
  rw [if_neg (by simp), if_neg (by simp [NAME_MAX]), if_neg (by simp only [hsmall, hwithin]; simp),
    if_neg (by decide), if_neg (by simp), if_neg (by simp), if_neg (by simp), if_neg (by omega),
    if_neg (by simp)]

section Wide

variable {layer : Layer} {n tablePages : ℕ} (hpos : 0 < n) (hn : n ≤ 128 ^ 3)
  (hcount : layer.geometry.nodeCount = n + 1) (hlen : layer.geometry.namesLen = n * 3)
  (hnodes : layer.geometry.nodesPage = 1) (hnames : layer.geometry.namesPage = 1 + tablePages)
  (hroom : (n + 1) * NODE_BYTES ≤ tablePages * PAGE)
  (hp : p layer.index = Layer.laidPage tablePages (wideNodes n) (wideNames n))
include hpos hn hcount hlen hnodes hnames hroom hp

theorem holds_wide : layer.Holds p (wideNodes n) (wideNames n) := by
  have hlength : (wideNodes n).length = n + 1 := by simp [wideNodes]
  refine Layer.holds_of_laid (hcount.trans hlength.symm) (hlen.trans (length_wideNames n).symm)
    hnodes hnames (hlength ▸ hroom) hp fun i m hi => ?_
  cases i with
  | zero =>
    cases hi
    exact ⟨by constructor <;> simp only [dirNode] <;> omega, fault_wideRoot hpos hcount⟩
  | succ i =>
    obtain ⟨k, hk, rfl⟩ := mem_map.1 (mem_of_getElem? hi)
    have hlt := mem_range.1 hk
    exact ⟨by constructor <;> simp only [fileNode] <;> omega, fault_wideFile hlt hn hlen⟩

/-- Up to `128 ^ 3` files make a good layer. -/
theorem good_wide : layer.Good p := by
  have hholds := holds_wide hpos hn hcount hlen hnodes hnames hroom hp
  refine hholds.good nofun (fun m hm hne => ?_) fun dir hdir hk => ?_
  · rcases mem_cons.1 hm with rfl | hm
    · exact absurd rfl hne
    · obtain ⟨k, hk, rfl⟩ := mem_map.1 hm
      rw [nameIn_wide (mem_range.1 hk)]
      exact valid_wideName k
  · rcases mem_cons.1 hdir with rfl | hdir
    · have hchildren : (dirNode 0 0 1 n).childNames (wideNodes n) (wideNames n) =
          (List.range n).map wideName := by
        show (((List.range n).map fun k => fileNode (k * 3) 3).take n).map _ = _
        rw [take_of_length_le (by simp), map_map]
        exact map_congr_left fun k hk => nameIn_wide (mem_range.1 hk)
      rw [hchildren, pairwise_map]
      refine pairwise_lt_range.imp_of_mem fun _ hb hlt => wideName_lt hlt ?_
      exact (mem_range.1 hb).trans_le hn
    · obtain ⟨k, -, rfl⟩ := mem_map.1 hdir
      cases hk

end Wide

/-- A layer whose root has one file more than a directory may have. -/
def wideLayer : Layer :=
  { index := 0
    header := ⟨DIRECTORY_MAX + 2, 0, (DIRECTORY_MAX + 1) * 3, 0, []⟩
    geometry :=
      { nodeCount := DIRECTORY_MAX + 2, extentCount := 0, namesLen := (DIRECTORY_MAX + 1) * 3,
        dataPages := 0, nodesPage := 1, namesPage := 16386, extentsPage := 17155,
        dataPage := 17155, treePage := 17155, level := [(17155, 135), (17290, 2), (17292, 1)],
        pages := 17293 } }

def widePages : Pages := fun _ =>
  Layer.laidPage 16385 (wideNodes (DIRECTORY_MAX + 1)) (wideNames (DIRECTORY_MAX + 1))

example : Geometry.new wideLayer.header.nodeCount 0 wideLayer.header.namesLen 0 =
    .ok wideLayer.geometry := by decide +kernel

theorem stack_wide : Stack [wideLayer] widePages := by
  intro k layer hk
  rcases k with _ | k
  · cases hk
    exact ⟨rfl, @good_wide _ _ (DIRECTORY_MAX + 1) 16385 (by decide) (by decide) rfl rfl rfl rfl
      (by decide) rfl⟩
  · cases hk

theorem holds_wideLayer : wideLayer.Holds widePages (wideNodes (DIRECTORY_MAX + 1))
    (wideNames (DIRECTORY_MAX + 1)) :=
  @holds_wide _ wideLayer (DIRECTORY_MAX + 1) 16385 (by decide) (by decide) rfl rfl rfl rfl
    (by decide) rfl

theorem entry_wide (hk : k ≤ DIRECTORY_MAX) :
    wideLayer.entry widePages (dirNode 0 0 1 (DIRECTORY_MAX + 1)) (wideName k) =
      some (k + 1, fileNode (k * 3) 3) := by
  have hlt : k < DIRECTORY_MAX + 1 := Nat.lt_succ_of_le hk
  have hfile : (wideNodes (DIRECTORY_MAX + 1))[k + 1]? = some (fileNode (k * 3) 3) := by
    rw [wideNodes, getElem?_cons_succ, getElem?_map, getElem?_range hlt]
    rfl
  have hnamed := holds_wideLayer.named_eq hfile fun _ => by
    rw [nameIn_wide hlt]
    exact valid_wideName k
  rw [nameIn_wide hlt] at hnamed
  have hgood := (stack_wide 0 wideLayer rfl).2
  refine (hgood.entry_eq_some (i := 0) (holds_wideLayer.node_eq rfl) rfl).2 ?_
  refine mem_filterMap.2 ⟨k + 1, mem_range'_1.2 ?_, by rw [hnamed]; rfl⟩
  exact ⟨Nat.le_add_left 1 k, Nat.add_comm k 1 ▸ Nat.add_lt_add_left hlt 1⟩

/-- Every name of the large directory is found, and the directory is not
listed. -/
theorem large_directory_refused :
    ∃ parts, find [wideLayer] widePages [] = .ok (some (.directory parts)) ∧
      Stack [wideLayer] widePages ∧
      (∀ k ≤ DIRECTORY_MAX, ∃ found,
        lookup [wideLayer] widePages parts (wideName k) = .ok (some found)) ∧
      list [wideLayer] widePages parts = .error .tooLarge := by
  have hroot : wideLayer.node widePages 0 = .ok (dirNode 0 0 1 (DIRECTORY_MAX + 1)) :=
    holds_wideLayer.node_eq rfl
  have hdir : IsDir [wideLayer] widePages [⟨0, 0, dirNode 0 0 1 (DIRECTORY_MAX + 1)⟩] :=
    .cons ⟨wideLayer, rfl, hroot⟩ rfl (fun _ => rfl) .nil
  refine ⟨[⟨0, 0, dirNode 0 0 1 (DIRECTORY_MAX + 1)⟩], ?_, stack_wide, fun k hk => ?_, ?_⟩
  · unfold find rootParts Layer.root
    rw [reverse_singleton]
    dsimp only
    rw [hroot]
    rfl
  · rw [lookup_eq_seek stack_wide hdir]
    have hchild : childOf [wideLayer] widePages ⟨0, 0, dirNode 0 0 1 (DIRECTORY_MAX + 1)⟩
        (wideName k) = some ⟨0, k + 1, fileNode (k * 3) 3⟩ := by
      unfold childOf
      rw [show [wideLayer][0]? = some wideLayer from rfl]
      dsimp only
      rw [entry_wide hk]
      rfl
    exact ⟨_, congrArg _ (seek_file hchild rfl [])⟩
  · refine (list_spec stack_wide hdir).2 fun hsmall => ?_
    exact absurd (hsmall.1 _ mem_cons_self) (by simp [dirNode])

end Moruna.ImageFs
