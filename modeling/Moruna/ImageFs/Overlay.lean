/-
Moruna/ImageFs/Overlay.lean

The layers of an image as one tree.

The code looks for a name from the top layer down: the first layer that names it
decides, and a directory is merged with the same directory of the layers below
until one of them is opaque or names something else there.  What the image is,
on the other hand, is said bottom up: a tree says what is at each path, and
applying a layer to a tree (`overlayAt`) removes what the layer whites out, puts
what it holds in place of what was there, and merges a directory with a
directory.  `stackTree` applies all layers, the lowest first.

* `findFrom_spec`, `rootParts_spec` : **the code finds at every path what the tree
  has there**.
-/
import Moruna.ImageFs.Volume

namespace Moruna.ImageFs

/-! ### The code -/

/-- A node of the image: its layer, its index there, and the node. -/
structure Part where
  layer : ℕ
  index : ℕ
  node : Node
deriving DecidableEq

/-- What a name is in the merged tree; a directory is the layers' directories it
is made of, top first. -/
inductive Found
  | directory (parts : List Part)
  | file (part : Part)
  | symlink (part : Part)
deriving DecidableEq

/-- The mode of a directory is the top layer's. -/
def dirMode (parts : List Part) : ℕ := (parts.head?.map (·.node.mode)).getD 493

/-- An inode number unique over the image: the layer and the node. -/
def ino (layer index : ℕ) : ℕ := (layer + 1) * 2 ^ 32 + index

def Part.ino (part : Part) : ℕ := ImageFs.ino part.layer part.index

variable (layers : List Layer) (p : Pages)

def layerAt (index : ℕ) : Except Error Layer :=
  match layers[index]? with
  | none => .error .notFound
  | some layer => .ok layer

/-- The merged root, of the layers from the top down. -/
def rootParts : List Layer → Except Error (List Part)
  | [] => .ok []
  | layer :: below =>
    match layer.root p with
    | .error e => .error e
    | .ok n =>
      if n.isOpaque then .ok [⟨layer.index, 0, n⟩]
      else (rootParts below).map (⟨layer.index, 0, n⟩ :: ·)

/-- The child of one part, as a part. -/
def partChild (part : Part) (name : Bytes) : Except Error (Option Part) :=
  match layerAt layers part.layer with
  | .error e => .error e
  | .ok layer => (layer.child p part.node name).map fun found =>
      found.map fun c => ⟨part.layer, c.1, c.2⟩

/-- The first part that names `name`, and the parts below it. -/
def firstNamed (name : Bytes) : List Part → Except Error (Option (Part × List Part))
  | [] => .ok none
  | part :: parts =>
    match partChild layers p part name with
    | .error e => .error e
    | .ok none => firstNamed name parts
    | .ok (some c) => .ok (some (c, parts))

/-- The directories below that a directory is merged with. -/
def mergeRest (name : Bytes) : List Part → Except Error (List Part)
  | [] => .ok []
  | part :: parts =>
    match partChild layers p part name with
    | .error e => .error e
    | .ok none => mergeRest name parts
    | .ok (some c) =>
      if c.node.kind = .directory then
        if c.node.isOpaque then .ok [c] else (mergeRest name parts).map (c :: ·)
      else .ok []

/-- `name` in the directory made of `parts`. -/
def lookup (parts : List Part) (name : Bytes) : Except Error (Option Found) :=
  match firstNamed layers p name parts with
  | .error e => .error e
  | .ok none => .ok none
  | .ok (some (c, below)) =>
    match c.node.kind with
    | .whiteout => .ok none
    | .regular => .ok (some (.file c))
    | .symlink => .ok (some (.symlink c))
    | .directory =>
      if c.node.isOpaque then .ok (some (.directory [c]))
      else (mergeRest layers p name below).map fun m => some (.directory (c :: m))

/-- The merged names so far: a whiteout keeps its name and says nothing. -/
abbrev Names := OrdMap Bytes (Option (Kind × ℕ))

/-- Take over the children of one part, those that are not named yet. -/
def mergeNames (layer : ℕ) : List (Bytes × ℕ × Node) → Names → Except Error Names
  | [], m => .ok m
  | (name, index, n) :: rest, m =>
    match m.get name with
    | some _ => mergeNames layer rest m
    | none =>
      if DIRECTORY_MAX ≤ m.entries.length then .error .tooLarge
      else mergeNames layer rest
        (m.insert name (if n.kind = .whiteout then none else some (n.kind, ino layer index)))

def listNames : List Part → Names → Except Error Names
  | [], m => .ok m
  | part :: parts, m =>
    match layerAt layers part.layer with
    | .error e => .error e
    | .ok layer =>
      match layer.children p part.node with
      | .error e => .error e
      | .ok children =>
        match mergeNames part.layer children m with
        | .error e => .error e
        | .ok m => listNames parts m

/-- Every name in the directory, in order, with what it is. -/
def list (parts : List Part) : Except Error (List (Bytes × Kind × ℕ)) :=
  (listNames layers p parts .empty).map fun m =>
    m.entries.filterMap fun e => e.2.map fun k => (e.1, k.1, k.2)

/-- Repeated lookups down a path. -/
def findFrom (parts : List Part) : List Bytes → Except Error (Option Found)
  | [] => .ok (some (.directory parts))
  | name :: path =>
    match lookup layers p parts name with
    | .error e => .error e
    | .ok none => .ok none
    | .ok (some (.directory below)) => findFrom below path
    | .ok (some found) => .ok (if path = [] then some found else none)

def find (path : List Bytes) : Except Error (Option Found) :=
  match rootParts p layers.reverse with
  | .error e => .error e
  | .ok parts => findFrom layers p parts path

/-! ### The tree of a stack of layers -/

/-- What is at each path. -/
abbrev Tree := List Bytes → Option Part

namespace Tree

def empty : Tree := fun _ => none

def isDir (t : Tree) : Bool := (t []).any (·.node.kind = .directory)

def under (t : Tree) (name : Bytes) : Tree := fun path => t (name :: path)

/-- What a directory of the layer above keeps of the tree below, under a name:
nothing if it is opaque or there is no directory below. -/
def keeps (below : Tree) (dir : Part) (name : Bytes) : Tree :=
  if dir.node.isOpaque ∨ below.isDir = false then empty else below.under name

end Tree

/-- A layer's tree applied to the tree below, at a path.  What the layer does not
mention stays; a whiteout removes the name with all below it; a file or a link
replaces whatever was there; a directory takes the upper mode and merges with a
directory below, unless it is opaque. -/
def overlayAt : List Bytes → Tree → Tree → Option Part
  | [], upper, below =>
    match upper [] with
    | none => below []
    | some part => if part.node.kind = .whiteout then none else some part
  | name :: path, upper, below =>
    match upper [] with
    | none => below (name :: path)
    | some part =>
      if part.node.kind = .directory then overlayAt path (upper.under name) (below.keeps part name)
      else none

/-- What a layer holds under one of its nodes. -/
def Layer.viewFrom (layer : Layer) (p : Pages) : List Bytes → ℕ → Node → Option Part
  | [], i, n => some ⟨layer.index, i, n⟩
  | name :: path, _, n =>
    if n.kind = .directory then
      match layer.entry p n name with
      | none => none
      | some (j, c) => layer.viewFrom p path j c
    else none

def Layer.view (layer : Layer) (p : Pages) : Tree := fun path =>
  match layer.node p 0 with
  | .error _ => none
  | .ok n => layer.viewFrom p path 0 n

/-- The tree of the layers, the lowest first. -/
def stackTree : Tree :=
  layers.foldl (fun below layer path => overlayAt path (layer.view p) below) Tree.empty

/-! ### What a lookup finds -/

/-- The child of a part, read off the layer. -/
def childOf (part : Part) (name : Bytes) : Option Part :=
  match layers[part.layer]? with
  | none => none
  | some layer => (layer.entry p part.node name).map fun c => ⟨part.layer, c.1, c.2⟩

def Found.parts : Option Found → List Part
  | some (.directory parts) => parts
  | _ => []

/-- What a lookup finds, by recursion on the parts. -/
def seek (name : Bytes) : List Part → Option Found
  | [] => none
  | part :: parts =>
    match childOf layers p part name with
    | none => seek name parts
    | some c =>
      match c.node.kind with
      | .whiteout => none
      | .regular => some (.file c)
      | .symlink => some (.symlink c)
      | .directory =>
        some (.directory (c :: if c.node.isOpaque then [] else Found.parts (seek name parts)))

/-- Layers as an image has them: each knows its place and is a good one. -/
def Stack : Prop :=
  ∀ (k : ℕ) (layer : Layer), layers[k]? = some layer → layer.index = k ∧ layer.Good p

/-- A part is a node of its layer. -/
def Part.Ok (part : Part) : Prop :=
  ∃ layer, layers[part.layer]? = some layer ∧ layer.node p part.index = .ok part.node

/-- A directory's parts: directories, and nothing below an opaque one. -/
inductive IsDir : List Part → Prop
  | nil : IsDir []
  | cons {part : Part} {parts : List Part} (ok : part.Ok layers p)
      (dir : part.node.kind = .directory) (last : part.node.isOpaque = true → parts = [])
      (rest : IsDir parts) : IsDir (part :: parts)

variable {layers p} (hstack : Stack layers p)
include hstack

theorem partChild_eq {part : Part} (h : part.Ok layers p) (hk : part.node.kind = .directory)
    (name : Bytes) : partChild layers p part name = .ok (childOf layers p part name) := by
  obtain ⟨layer, hl, hn⟩ := h
  have hgood := (hstack _ _ hl).2
  unfold partChild childOf layerAt
  rw [hl]
  dsimp only
  rw [hgood.child_eq_entry hn hk]
  rfl

theorem childOf_ok {part c : Part} {name : Bytes} (h : part.Ok layers p)
    (hk : part.node.kind = .directory) (hc : childOf layers p part name = some c) :
    c.Ok layers p := by
  obtain ⟨layer, hl, hn⟩ := h
  have hgood := (hstack _ _ hl).2
  unfold childOf at hc
  rw [hl] at hc
  obtain ⟨⟨j, n⟩, he, rfl⟩ := Option.map_eq_some_iff.1 hc
  exact ⟨layer, hl, Layer.node_of_mem_entries ((hgood.entry_eq_some hn hk).1 he)⟩

variable {parts : List Part}

variable (h : IsDir layers p parts)

include h

theorem mergeRest_eq (name : Bytes) :
    mergeRest layers p name parts = .ok (Found.parts (seek layers p name parts)) := by
  induction h with
  | nil => rfl
  | @cons part parts ok dir last rest ih =>
    unfold mergeRest seek
    rw [partChild_eq hstack ok dir]
    cases hc : childOf layers p part name with
    | none => exact ih
    | some c =>
      dsimp only
      cases hk : c.node.kind with
      | directory =>
        cases ho : c.node.isOpaque with
        | true => rfl
        | false =>
          rw [ih]
          rfl
      | _ => rfl

/-- **A lookup finds what the recursion says.** -/
theorem lookup_eq_seek (name : Bytes) :
    lookup layers p parts name = .ok (seek layers p name parts) := by
  induction h with
  | nil => rfl
  | @cons part parts ok dir last rest ih =>
    unfold lookup at ih ⊢
    unfold firstNamed seek
    rw [partChild_eq hstack ok dir]
    cases hc : childOf layers p part name with
    | none => exact ih
    | some c =>
      dsimp only
      cases hk : c.node.kind with
      | directory =>
        cases ho : c.node.isOpaque with
        | true => rfl
        | false =>
          rw [mergeRest_eq hstack rest]
          rfl
      | _ => rfl

theorem isDir_seek (name : Bytes) : IsDir layers p (Found.parts (seek layers p name parts)) := by
  induction h with
  | nil => exact .nil
  | @cons part parts ok dir last rest ih =>
    unfold seek
    cases hc : childOf layers p part name with
    | none => exact ih
    | some c =>
      dsimp only
      cases hk : c.node.kind with
      | directory =>
        refine .cons (childOf_ok hstack ok dir hc) hk (fun ho => if_pos ho) ?_
        split
        · exact .nil
        · exact ih
      | _ => exact .nil

/-! ### A step of the code is a step of the tree -/

omit hstack

omit h

/-- What a part's layer holds under it. -/
def partView (layers : List Layer) (p : Pages) (part : Part) : Tree := fun path =>
  match layers[part.layer]? with
  | none => none
  | some layer => layer.viewFrom p path part.index part.node

/-- The tree of a directory's parts. -/
def partsTree (layers : List Layer) (p : Pages) (parts : List Part) : Tree :=
  parts.foldr (fun part below path => overlayAt path (partView layers p part) below) Tree.empty

theorem partsTree_cons (part : Part) (parts : List Part) (path : List Bytes) :
    partsTree layers p (part :: parts) path =
      overlayAt path (partView layers p part) (partsTree layers p parts) := rfl

theorem overlayAt_empty (path : List Bytes) (below : Tree) :
    overlayAt path Tree.empty below = below path := by
  cases path <;> rfl

/-- The part at a path that was found. -/
def Found.part : Option Found → Option Part
  | none => none
  | some (.directory parts) => parts.head?
  | some (.file part) | some (.symlink part) => some part

theorem partView_under {part : Part} (h : part.Ok layers p) (hk : part.node.kind = .directory)
    (name : Bytes) :
    (partView layers p part).under name =
      match childOf layers p part name with
      | none => Tree.empty
      | some c => partView layers p c := by
  obtain ⟨layer, hl, -⟩ := h
  funext path
  unfold Tree.under partView childOf
  rw [hl]
  dsimp only [Layer.viewFrom]
  rw [if_pos hk]
  cases he : layer.entry p part.node name with
  | none => rfl
  | some c =>
    dsimp only [Option.map]
    rw [hl]

/-- Two trees below a directory give the same when they have the same under it. -/
theorem overlayAt_congr {part : Part} {upper below below' : Tree} (path : List Bytes)
    (hu : upper [] = some part) (hk : part.node.kind = .directory)
    (h : ∀ name, below.keeps part name = below'.keeps part name) :
    overlayAt path upper below = overlayAt path upper below' := by
  cases path with
  | nil => simp only [overlayAt, hu]
  | cons name path => simp only [overlayAt, hu, hk, if_true, h]

def Found.kind : Found → Kind
  | .directory _ => .directory
  | .file _ => .regular
  | .symlink _ => .symlink

theorem seek_part {name : Bytes} {found : Found} (h : seek layers p name parts = some found) :
    ∃ part, Found.part (some found) = some part ∧ part.node.kind = found.kind := by
  induction parts with
  | nil => cases h
  | cons part parts ih =>
    unfold seek at h
    split at h
    · exact ih h
    rename_i c hc
    split at h
    · cases h
    next hk => cases h; exact ⟨c, rfl, hk⟩
    next hk => cases h; exact ⟨c, rfl, hk⟩
    next hk => cases h; exact ⟨c, rfl, hk⟩

include hstack

theorem partView_nil {part : Part} (h : part.Ok layers p) :
    partView layers p part [] = some part := by
  obtain ⟨layer, hl, -⟩ := h
  unfold partView
  rw [hl]
  dsimp only [Layer.viewFrom]
  rw [(hstack _ _ hl).1]

include h

/-- A directory's tree has the top part at its root. -/
theorem partsTree_nil : partsTree layers p parts [] = parts.head? := by
  cases h with
  | nil => rfl
  | @cons part parts ok dir last rest =>
    rw [partsTree_cons, overlayAt, partView_nil hstack ok]
    dsimp only
    rw [if_neg (by rw [dir]; nofun)]
    rfl

theorem isDir_partsTree : (partsTree layers p parts).isDir = !parts.isEmpty := by
  unfold Tree.isDir
  rw [partsTree_nil hstack h]
  cases h with
  | nil => rfl
  | cons ok dir last rest => simpa using dir

omit h in
/-- What a merged directory keeps under a name of the parts below its top one. -/
theorem keeps_partsTree {part : Part} (h : IsDir layers p (part :: parts)) (name : Bytes) :
    (partsTree layers p parts).keeps part name = (partsTree layers p parts).under name := by
  cases h with
  | cons ok dir last rest =>
    unfold Tree.keeps
    split
    next hc =>
      -- below an opaque part, and where there is no part, there is nothing
      have hnil : parts = [] := by
        rcases hc with hc | hc
        · exact last hc
        · rw [isDir_partsTree hstack rest] at hc
          simpa using hc
      subst hnil
      rfl
    next => rfl

/-- **A step down in the tree of a directory's parts is a lookup in them.** -/
theorem partsTree_seek (name : Bytes) (path : List Bytes) :
    partsTree layers p parts (name :: path) =
      match seek layers p name parts with
      | none => none
      | some (.directory below) => partsTree layers p below path
      | some found => if path = [] then Found.part (some found) else none := by
  induction h generalizing path with
  | nil => rfl
  | @cons part parts ok dir last rest ih =>
    have hwhole : IsDir layers p (part :: parts) := .cons ok dir last rest
    rw [partsTree_cons, overlayAt, partView_nil hstack ok]
    dsimp only
    rw [if_pos dir, partView_under ok dir, keeps_partsTree hstack hwhole]
    unfold seek
    cases hc : childOf layers p part name with
    | none =>
      rw [overlayAt_empty]
      exact ih path
    | some c =>
      have hcok := childOf_ok hstack ok dir hc
      have hroot := partView_nil hstack hcok
      dsimp only
      cases hk : c.node.kind with
      | whiteout => cases path <;> simp [overlayAt, hroot, hk]
      | regular => cases path <;> simp [overlayAt, hroot, hk, Found.part]
      | symlink => cases path <;> simp [overlayAt, hroot, hk, Found.part]
      | directory =>
        refine overlayAt_congr path hroot hk fun m => ?_
        by_cases ho : c.node.isOpaque = true
        · rw [Tree.keeps, Tree.keeps, if_pos (.inl ho), if_pos (.inl ho)]
        rw [if_neg ho]
        cases hs : seek layers p name parts with
        | none =>
          have hbelow : (partsTree layers p parts).under name = .empty := by
            funext q
            exact (ih q).trans (by rw [hs]; rfl)
          rw [hbelow]
          rfl
        | some found =>
          cases found with
          | directory below =>
            have hbelow : (partsTree layers p parts).under name = partsTree layers p below := by
              funext q
              exact (ih q).trans (by rw [hs])
            rw [hbelow]
            rfl
          | file d | symlink d =>
            -- a file below is no directory to merge with
            have hleaf : ((partsTree layers p parts).under name).isDir = false := by
              obtain ⟨_, ⟨⟩, hd⟩ := seek_part hs
              unfold Tree.isDir Tree.under
              rw [ih []]
              simp [hs, Found.part, Found.kind, hd]
            rw [Tree.keeps, Tree.keeps, if_pos (.inr hleaf), if_pos (.inr rfl)]

/-! ### Whole paths -/

/-- **Repeated lookups from a directory find what its tree has.** -/
theorem findFrom_spec (path : List Bytes) :
    ∃ r, findFrom layers p parts path = .ok r ∧ Found.part r = partsTree layers p parts path := by
  induction path generalizing parts with
  | nil => exact ⟨_, rfl, (partsTree_nil hstack h).symm⟩
  | cons name path ih =>
    unfold findFrom
    rw [lookup_eq_seek hstack h, partsTree_seek hstack h]
    have hbelow := isDir_seek hstack h name
    cases hs : seek layers p name parts with
    | none => exact ⟨none, rfl, rfl⟩
    | some found =>
      rw [hs] at hbelow
      cases found with
      | directory below => exact ih hbelow
      | file c | symlink c =>
        refine ⟨_, rfl, ?_⟩
        split <;> rfl

omit h

omit hstack

/-- The tree of the layers, the top one first. -/
def topTree (p : Pages) (layers : List Layer) : Tree :=
  layers.foldr (fun layer below path => overlayAt path (layer.view p) below) Tree.empty

theorem stackTree_eq_topTree (layers : List Layer) (p : Pages) :
    stackTree layers p = topTree p layers.reverse := by
  rw [topTree, List.foldr_reverse]
  rfl

theorem Layer.root_directory {layer : Layer} {n : Node} (h : layer.node p 0 = .ok n) :
    n.kind = .directory := by
  obtain ⟨-, b, hb⟩ := Layer.decode_of_node h
  have hf := Node.fault_of_decode hb
  unfold Node.fault at hf
  split at hf
  · cases hf
  next hroot =>
    by_contra hk
    exact hroot ⟨rfl, .inl hk⟩

include hstack

/-- **The merged root is the directory of the whole stack.** -/
theorem rootParts_spec {ls : List Layer} (hls : ∀ layer ∈ ls, layer ∈ layers) :
    ∃ parts, rootParts p ls = .ok parts ∧ IsDir layers p parts ∧
      partsTree layers p parts = topTree p ls := by
  induction ls with
  | nil => exact ⟨[], rfl, .nil, rfl⟩
  | cons layer ls ih =>
    obtain ⟨parts, hparts, hdir, htree⟩ := ih fun l hl => hls l (List.mem_cons_of_mem _ hl)
    obtain ⟨k, hk⟩ := List.mem_iff_getElem?.1 (hls layer List.mem_cons_self)
    obtain ⟨hidx, hgood⟩ := hstack k layer hk
    obtain ⟨name, n, hn⟩ := hgood.reads 0 hgood.nonempty
    have hnode := (Layer.node_of_named hn).2.1
    have hroot := Layer.root_directory hnode
    have hok : Part.Ok layers p ⟨layer.index, 0, n⟩ := ⟨layer, hidx ▸ hk, hnode⟩
    have hview : partView layers p ⟨layer.index, 0, n⟩ = layer.view p := by
      funext path
      unfold partView Layer.view
      rw [hidx, hk, hnode]
    have htop : topTree p (layer :: ls) =
        fun path => overlayAt path (layer.view p) (topTree p ls) := rfl
    unfold rootParts Layer.root
    rw [hnode]
    dsimp only
    cases ho : n.isOpaque with
    | true =>
      refine ⟨_, rfl, .cons hok hroot (fun _ => rfl) .nil, ?_⟩
      funext path
      rw [partsTree_cons, hview]
      refine overlayAt_congr path (hview ▸ partView_nil hstack hok) hroot fun name => ?_
      rw [Tree.keeps, Tree.keeps, if_pos (.inl ho), if_pos (.inl ho)]
    | false =>
      rw [hparts]
      refine ⟨_, rfl, .cons hok hroot (fun h => ?_) hdir, ?_⟩
      · rw [ho] at h
        cases h
      · rw [htop, ← htree, ← hview]
        rfl

end Moruna.ImageFs
