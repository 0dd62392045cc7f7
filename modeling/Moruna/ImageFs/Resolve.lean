/-
Moruna/ImageFs/Resolve.lean

Paths in a task's tree (kernel/imagefs/fs/src/fs.rs) and the directory views
given out over it (export_directory of kernel/imagefs/server/src/main.rs).

The tree is the merged image with the task's scratch directory at `/tmp` and
`/proc` and `/dev` where the image has neither.  A path is walked with a stack of
the directories it came through, the anchor at its bottom; a link's target is
put in front of the names still to come, and an absolute one cuts the stack back
to the anchor.  The walk ends because a link is followed at most `LINKS_MAX`
times and every other step takes a name.

* `view_confined` : **a directory view confines its holder**.
-/
import Moruna.ImageFs.Overlay
import Mathlib.Logic.Relation

namespace Moruna.ImageFs

def LINKS_MAX : ℕ := 40
def PATH_MAX : ℕ := 4096

/-- `tmp`, the scratch directory's name in the root. -/
def SCRATCH : Bytes := [0x74, 0x6d, 0x70]

/-- `dev` and `proc`, the directories the root always has. -/
def MOUNT_POINTS : List Bytes := [[0x64, 0x65, 0x76], [0x70, 0x72, 0x6f, 0x63]]

def SLASH : UInt8 := 0x2f
def DOT : Bytes := [0x2e]
def DOTDOT : Bytes := [0x2e, 0x2e]

/-! ### The tree of a task -/

/-- An entry of the scratch directory: a directory's names, or a file's length. -/
inductive Body
  | directory (children : Bytes → Option ℕ)
  | file (size : ℕ)

/-- The scratch directory, by entry number. -/
abbrev Scratch := ℕ → Option Body

def Scratch.lookup (s : Scratch) (dir : ℕ) (name : Bytes) : Except Error ℕ :=
  match s dir with
  | none => .error .notFound
  | some (.file _) => .error .notDirectory
  | some (.directory children) =>
    match children name with
    | none => .error .notFound
    | some id => .ok id

def Scratch.directory (s : Scratch) (id : ℕ) : Except Error Bool :=
  match s id with
  | none => .error .notFound
  | some (.file _) => .ok false
  | some (.directory _) => .ok true

/-- What a path names. -/
inductive Place
  | image (found : Found)
  | scratch (id : ℕ)
  | mountPoint (i : ℕ)
deriving DecidableEq

/-- The tree one task sees: the layers, their pages, and the scratch directory. -/
structure Fs where
  layers : List Layer
  pages : Pages
  scratch : Scratch

def Fs.root (t : Fs) : Except Error (List Part) := rootParts t.pages t.layers.reverse

/-- A directory on the way. -/
inductive Frame
  | image (dir : List Part)
  | scratch (id : ℕ)
  | mountPoint (i : ℕ)
deriving DecidableEq

def Frame.place : Frame → Place
  | .image dir => .image (.directory dir)
  | .scratch id => .scratch id
  | .mountPoint i => .mountPoint i

/-! ### Walking a path -/

/-- What a name is in a directory: a directory, a link, or something else. -/
inductive Step
  | frame (frame : Frame)
  | link (part : Part)
  | leaf (place : Place)

/-- `name` in the directory `top`; only the root of the whole tree has the scratch
directory and the mount points. -/
def Fs.enter (t : Fs) (atRoot : Bool) (top : Frame) (name : Bytes) : Except Error Step :=
  match top with
  | .image dir =>
    if atRoot ∧ name = SCRATCH then .ok (.frame (.scratch 0))
    else
      match lookup t.layers t.pages dir name with
      | .error e => .error e
      | .ok (some (.directory d)) => .ok (.frame (.image d))
      | .ok (some (.symlink part)) => .ok (.link part)
      | .ok (some (.file part)) => .ok (.leaf (.image (.file part)))
      | .ok none =>
        if atRoot ∧ name ∈ MOUNT_POINTS then .ok (.frame (.mountPoint (MOUNT_POINTS.idxOf name)))
        else .error .notFound
  | .scratch dir =>
    match t.scratch.lookup dir name with
    | .error e => .error e
    | .ok id =>
      match t.scratch.directory id with
      | .error e => .error e
      | .ok true => .ok (.frame (.scratch id))
      | .ok false => .ok (.leaf (.scratch id))
  | .mountPoint _ => .error .notFound

def Fs.target (t : Fs) (part : Part) : Except Error Bytes :=
  match layerAt t.layers part.layer with
  | .error e => .error e
  | .ok layer => layer.target t.pages part.node

/-- The names of a link's target, `.` and `..` among them. -/
def targetNames (target : Bytes) : List Bytes := (target.splitOn SLASH).filter (· ≠ [])

/-- Walks the names left in `queue` from the top (the head) of `stack`. -/
def Fs.walk (t : Fs) (ambient follow : Bool) (links : ℕ) (stack : List Frame)
    (queue : List Bytes) : Except Error Place :=
  match queue with
  | [] =>
    match stack with
    | top :: _ => .ok top.place
    | [] => (t.root).map fun root => .image (.directory root)
  | name :: rest =>
    if name = DOT then t.walk ambient follow links stack rest
    else if name = DOTDOT then
      if 1 < stack.length then t.walk ambient follow links stack.tail rest
      else if !ambient then .error .badPath
      else t.walk ambient follow links stack rest
    else if NAME_MAX < name.length then .error .badPath
    else
      match stack with
      | [] => .error .notFound
      | top :: below =>
        match t.enter (ambient && below.isEmpty) top name with
        | .error e => .error e
        | .ok (.frame frame) => t.walk ambient follow links (frame :: top :: below) rest
        | .ok (.leaf place) => if rest ≠ [] then .error .notDirectory else .ok place
        | .ok (.link part) =>
          if follow ∨ rest ≠ [] then
            if LINKS_MAX < links + 1 then .error .loop
            else
              match t.target part with
              | .error e => .error e
              | .ok target =>
                -- An absolute target starts over from the bottom of the stack.
                let stack := top :: below
                let stack := if target.head? = some SLASH then stack.drop below.length else stack
                t.walk ambient follow (links + 1) stack (targetNames target ++ rest)
          else .ok (.image (.symlink part))
termination_by (LINKS_MAX - links, queue.length)
decreasing_by
  all_goals simp_wf
  all_goals first
    | (right; omega)
    | (left; omega)

/-- The names of a path, which must be absolute and at most `PATH_MAX` bytes. -/
def components (path : Bytes) : Except Error (List Bytes) :=
  if path.head? ≠ some SLASH ∨ PATH_MAX < path.length ∨ 0 ∈ path then .error .badPath
  else .ok ((path.splitOn SLASH).filter fun c => c ≠ [] ∧ c ≠ DOT)

/-- The directory a walk starts in. -/
def Fs.first (t : Fs) (root : List Part) : Option Place → Except Error Frame
  | none => .ok (.image root)
  | some (.image (.directory dir)) => .ok (.image dir)
  | some (.image _) => .error .notDirectory
  | some (.scratch id) =>
    match t.scratch.directory id with
    | .error e => .error e
    | .ok true => .ok (.scratch id)
    | .ok false => .error .notDirectory
  | some (.mountPoint i) => .ok (.mountPoint i)

/-- What `path` names within the view anchored at `anchor`. -/
def Fs.resolveAt (t : Fs) (anchor : Option Place) (path : Bytes) (follow : Bool) :
    Except Error Place :=
  match components path with
  | .error e => .error e
  | .ok queue =>
    match t.root with
    | .error e => .error e
    | .ok root =>
      let ambient := anchor.all (· = .image (.directory root))
      match t.first root anchor with
      | .error e => .error e
      | .ok frame => t.walk ambient follow 0 [frame] queue

def Place.isDirectory (s : Scratch) : Place → Bool
  | .image (.directory _) | .mountPoint _ => true
  | .image _ => false
  | .scratch id => (s.directory id).toOption = some true

/-- The anchor of the view that a view anchored at `anchor` gives out for `path`. -/
def Fs.exportDirectory (t : Fs) (anchor : Option Place) (path : Bytes) : Except Error Place :=
  match t.resolveAt anchor path true with
  | .error e => .error e
  | .ok root => if root.isDirectory t.scratch then .ok root else .error .notDirectory

/-! ### Confinement -/

/-- One directory entry of the tree: a name of the image or of the scratch directory,
the root's `tmp`, or one of its mount points. -/
inductive Entry (t : Fs) : Place → Place → Prop
  | image {dir : List Part} {name : Bytes} {found : Found}
      (h : lookup t.layers t.pages dir name = .ok (some found)) :
      Entry t (.image (.directory dir)) (.image found)
  | scratch {dir id : ℕ} {name : Bytes} (h : t.scratch.lookup dir name = .ok id) :
      Entry t (.scratch dir) (.scratch id)
  | tmp {root : List Part} (h : t.root = .ok root) :
      Entry t (.image (.directory root)) (.scratch 0)
  | mountPoint {root : List Part} {name : Bytes} (h : t.root = .ok root)
      (hname : name ∈ MOUNT_POINTS) (hnone : lookup t.layers t.pages root name = .ok none) :
      Entry t (.image (.directory root)) (.mountPoint (MOUNT_POINTS.idxOf name))

/-- Reached from a place by directory entries only, or the place itself. -/
def Below (t : Fs) : Place → Place → Prop := Relation.ReflTransGen (Entry t)

/-- Where a step leads. -/
def Step.place : Step → Place
  | .frame f => f.place
  | .link part => .image (.symlink part)
  | .leaf place => place

variable {t : Fs} {follow : Bool} {place : Place}

/-- A name looked up in a directory is an entry of it. -/
theorem enter_below {atRoot : Bool} {top : Frame} {name : Bytes} {step : Step}
    (hroot : atRoot = true → ∃ root, t.root = .ok root ∧ top = .image root)
    (h : t.enter atRoot top name = .ok step) : Entry t top.place step.place := by
  unfold Fs.enter at h
  cases top with
  | image dir =>
    dsimp only at h
    split at h
    · rename_i htmp
      obtain ⟨root, hr, heq⟩ := hroot htmp.1
      cases heq
      cases h
      exact .tmp hr
    · split at h <;> rename_i hlookup
      · cases h
      · cases h
        exact .image hlookup
      · cases h
        exact .image hlookup
      · cases h
        exact .image hlookup
      · split at h
        · rename_i hmount
          obtain ⟨root, hr, heq⟩ := hroot hmount.1
          cases heq
          cases h
          exact .mountPoint hr hmount.2 hlookup
        · cases h
  | scratch dir =>
    dsimp only at h
    split at h
    · cases h
    · rename_i id hlookup
      split at h <;> cases h <;> exact .scratch hlookup
  | mountPoint i => cases h

/-- The stack of a walk: the anchor at the bottom, and above it directories below it. -/
def Stacked (t : Fs) (bottom : Frame) (stack : List Frame) : Prop :=
  ∃ above, stack = above ++ [bottom] ∧ ∀ frame ∈ above, Below t bottom.place frame.place

namespace Stacked

variable {t : Fs} {bottom top : Frame} {below stack : List Frame}

theorem below_top (h : Stacked t bottom (top :: below)) : Below t bottom.place top.place := by
  obtain ⟨above, heq, hall⟩ := h
  cases above with
  | nil => cases heq; exact .refl
  | cons f above => cases heq; exact hall _ List.mem_cons_self

theorem push {frame : Frame} (h : Stacked t bottom stack)
    (hf : Below t bottom.place frame.place) : Stacked t bottom (frame :: stack) := by
  obtain ⟨above, rfl, hall⟩ := h
  exact ⟨frame :: above, rfl, List.forall_mem_cons.mpr ⟨hf, hall⟩⟩

theorem tail (h : Stacked t bottom stack) (hlen : 1 < stack.length) :
    Stacked t bottom stack.tail := by
  obtain ⟨above, rfl, hall⟩ := h
  cases above with
  | nil => exact absurd hlen (lt_irrefl 1)
  | cons f above => exact ⟨above, rfl, (List.forall_mem_cons.mp hall).2⟩

theorem cut (h : Stacked t bottom (top :: below)) :
    Stacked t bottom ((top :: below).drop below.length) := by
  obtain ⟨above, heq, -⟩ := h
  have hlen : below.length = above.length := by
    have := congrArg List.length heq
    rw [List.length_append] at this
    exact Nat.succ.inj this
  refine ⟨[], ?_, fun _ hf => by cases hf⟩
  rw [heq, hlen, List.drop_left, List.nil_append]

theorem of_isEmpty (h : Stacked t bottom (top :: below)) (he : below.isEmpty) : top = bottom := by
  obtain ⟨above, heq, -⟩ := h
  rw [List.isEmpty_iff.mp he] at heq
  cases above with
  | nil => cases heq; rfl
  | cons f above => cases above <;> cases heq

end Stacked

/-- **Every walk stays below the bottom of its stack.** -/
theorem walk_below {ambient : Bool} {links : ℕ} {stack : List Frame}
    {queue : List Bytes} {bottom : Frame} (hs : Stacked t bottom stack)
    (hroot : ambient = true → ∃ root, t.root = .ok root ∧ bottom = .image root)
    (h : t.walk ambient follow links stack queue = .ok place) : Below t bottom.place place := by
  -- One case for each way through the loop; those that refuse are closed by `h`.
  have hstep : ∀ {top below name step}, Stacked t bottom (top :: below) →
      t.enter (ambient && below.isEmpty) top name = .ok step →
      Below t bottom.place step.place := by
    intro top below name step hs henter
    refine hs.below_top.tail (enter_below (fun hat => ?_) henter)
    rw [Bool.and_eq_true] at hat
    obtain ⟨root, hr, hbottom⟩ := hroot hat.1
    exact ⟨root, hr, (hs.of_isEmpty hat.2).trans hbottom⟩
  fun_induction Fs.walk t ambient follow links stack queue with
  | case1 links top below =>
    cases h
    exact hs.below_top
  | case2 links =>
    obtain ⟨above, heq, -⟩ := hs
    cases above <;> cases heq
  | case3 links stack rest ih => exact ih hs h
  | case4 links stack rest hlen _ ih => exact ih (hs.tail hlen) h
  | case6 links stack rest _ _ _ ih => exact ih hs h
  | case10 links name rest _ _ _ top below frame henter ih => exact ih (hs.push (hstep hs henter)) h
  | case12 links name rest _ _ _ top below leaf henter =>
    cases h
    exact hstep hs henter
  | case15 links name rest _ _ _ top below part henter _ _ target _ _ _ ih =>
    refine ih ?_ h
    show Stacked t bottom
      (if _ : target.head? = some SLASH then (top :: below).drop below.length else top :: below)
    split
    · exact hs.cut
    · exact hs
  | case16 links name rest _ _ _ top below part henter =>
    cases h
    exact hstep hs henter
  | _ => cases h

theorem resolveAt_below {anchor : Place} {path : Bytes}
    (h : t.resolveAt (some anchor) path follow = .ok place) : Below t anchor place := by
  unfold Fs.resolveAt at h
  split at h
  · cases h
  split at h
  · cases h
  rename_i root hroot
  split at h
  · cases h
  rename_i frame hfirst
  have hplace : frame.place = anchor := by
    unfold Fs.first at hfirst
    split at hfirst
    · rename_i hnone
      cases hnone
    · rename_i heq
      cases heq
      cases hfirst
      rfl
    · cases hfirst
    · rename_i heq
      cases heq
      split at hfirst <;> cases hfirst
      rfl
    · rename_i heq
      cases heq
      cases hfirst
      rfl
  have hstack : Stacked t frame [frame] := ⟨[], rfl, fun _ hf => by cases hf⟩
  refine hplace ▸ walk_below hstack (fun hamb => ⟨root, hroot, ?_⟩) h
  have hroot' : anchor = .image (.directory root) := of_decide_eq_true hamb
  rw [← hplace] at hroot'
  cases frame <;> cases hroot'
  rfl

/-- **A directory view confines its holder.**  Whatever the image (any link targets),
the scratch tree and the path, resolving in a view ends with an error or with a place
reached from the view's anchor by directory entries; and a view given out by a view is
anchored below it, so that what it resolves is below both. -/
theorem view_confined (t : Fs) (anchor : Place) :
    (∀ path follow, (∃ e, t.resolveAt (some anchor) path follow = .error e) ∨
      ∃ place, t.resolveAt (some anchor) path follow = .ok place ∧ Below t anchor place) ∧
    (∀ path view, t.exportDirectory (some anchor) path = .ok view → Below t anchor view ∧
      (∀ s path' follow place,
        ({ t with scratch := s } : Fs).resolveAt (some view) path' follow = .ok place →
        Below { t with scratch := s } view place) ∧
      (∀ path' follow place, t.resolveAt (some view) path' follow = .ok place →
        Below t view place ∧ Below t anchor place)) := by
  refine ⟨fun path follow => ?_, fun path view hview => ?_⟩
  · cases h : t.resolveAt (some anchor) path follow with
    | error e => exact .inl ⟨e, rfl⟩
    | ok place => exact .inr ⟨place, rfl, resolveAt_below h⟩
  have habove : Below t anchor view := by
    unfold Fs.exportDirectory at hview
    split at hview
    · cases hview
    · rename_i root hroot
      split at hview <;> cases hview
      exact resolveAt_below hroot
  refine ⟨habove, fun s path' follow place h => resolveAt_below h, fun path' follow place h => ?_⟩
  exact ⟨resolveAt_below h, habove.trans (resolveAt_below h)⟩

end Moruna.ImageFs
