/-
Moruna/ImageFs/Cache.lean

The page cache: verified layer pages, keyed by layer and page, bounded, and
evicting the least recently used page.

A page is read from its device only when something touches it, and believed only
after it matches its hash: the hash of a content page is in a tree page, which is
itself a cached page checked against its parent, up to the top page, which is
checked against the root the header carries.

The cache does not own memory or devices: a `Disk` holds the slots and moves
pages from the layers into them.  What a device holds is not known here, nor that
it stays; of the slots it is known that only a fetch into a slot changes it
(`Disk.bytes_fetch`) and that a copy gives what is there (`Disk.copy_eq`).

* `ensure_depth` : how deep `ensure` may recur is no bound in fact.
-/
import Moruna.ImageFs.Volume
import Moruna.ImageFs.Tree
import Moruna.Lib.Exec

namespace Moruna.ImageFs

/-- A page to read: page `page` of layer `layer` into slot `slot`. -/
structure Fetch where
  layer : ℕ
  page : ℕ
  slot : ℕ
deriving DecidableEq

/-- The slots and the devices behind the cache. -/
structure Disk (δ : Type) where
  /-- Reads every page named into its slot. -/
  fetch : List Fetch → δ → Except Error Unit × δ
  /-- Copies bytes out of a slot. -/
  copy : (slot offset len : ℕ) → δ → Except Error Bytes × δ
  /-- A layer's device length, in pages. -/
  devicePages : ℕ → δ → Except Error ℕ × δ
  /-- What the slots hold. -/
  bytes : δ → ℕ → Bytes
  length_bytes : ∀ d slot, (bytes d slot).length = PAGE
  bytes_fetch : ∀ reads d slot, slot ∉ reads.map Fetch.slot →
    bytes (fetch reads d).2 slot = bytes d slot
  bytes_copy : ∀ slot offset len d, bytes (copy slot offset len d).2 = bytes d
  copy_eq : ∀ slot offset len d out, (copy slot offset len d).1 = .ok out →
    out = ((bytes d slot).drop offset).take len
  bytes_devicePages : ∀ layer d, bytes (devicePages layer d).2 = bytes d

/-- The cache.  The list of recency stands for the links between the slots. -/
structure Cache (δ : Type) where
  disk : δ
  layers : List Layer
  /-- How many slots there are. -/
  slots : ℕ
  /-- The page each slot holds. -/
  key : ℕ → Option (ℕ × ℕ)
  /-- The slot of each page that is cached. -/
  index : ℕ × ℕ → Option ℕ
  /-- Free slots, the next one to be used first. -/
  free : List ℕ
  /-- Slots in use, the most recently used first. -/
  lru : List ℕ

/-- A cache of `slots` pages, or none for fewer than one read and the tree pages
above it could need at once. -/
def Cache.new {δ : Type} (disk : δ) (slots : ℕ) : Except Error (Cache δ) :=
  if 16 ≤ slots ∧ slots < 2 ^ 32 - 1 then
    .ok ⟨disk, [], slots, fun _ => none, fun _ => none, List.range slots, []⟩
  else .error .tooLarge

namespace Cache

variable {δ : Type}

/-- What the cache does: it may fail, and is left as it then is. -/
abbrev M (δ α : Type) := EStateM Error (Cache δ) α

def onDisk {α : Type} (f : δ → Except Error α × δ) : M δ α := fun c =>
  match f c.disk with
  | (.ok a, d) => .ok a { c with disk := d }
  | (.error e, d) => .error e { c with disk := d }

/-- Slots that are free again, the last of them to be used first. -/
def giveBack (slots : List ℕ) : M δ Unit :=
  modify fun c => { c with free := slots.reverse ++ c.free }

/-- A call that gives slots back when it fails. -/
def orGiveBack {α : Type} (x : M δ α) (slots : List ℕ) : M δ α :=
  tryCatch x fun e => giveBack slots *> throw e

/-- A slot leaves the list of recency and forgets its page. -/
def evict (c : Cache δ) (slot : ℕ) : Cache δ :=
  { c with
    lru := c.lru.erase slot
    key := Function.update c.key slot none
    index := match c.key slot with
      | none => c.index
      | some k => Function.update c.index k none }

/-- A slot to read into: a free one, or the least recently used page's. -/
def take : M δ ℕ := fun c =>
  match c.free with
  | slot :: free => .ok slot { c with free }
  | [] =>
    match c.lru.getLast? with
    | none => .error .tooLarge c
    | some slot => .ok slot (c.evict slot)

def touch (slot : ℕ) : M δ Unit := modify fun c => { c with lru := slot :: c.lru.erase slot }

def file (c : Cache δ) (k : ℕ × ℕ) (slot : ℕ) : Cache δ :=
  { c with
    key := Function.update c.key slot (some k)
    index := Function.update c.index k (some slot)
    lru := slot :: c.lru }

variable (D : Disk δ) (sha256 : Bytes → Bytes)

/-- The hash page `page` of `layer` must have, where `ensure` brings in a tree
page. -/
def expectedBy (ensure : ℕ → M δ ℕ) (layer page : ℕ) : M δ Bytes := do
  let c ← get
  match c.layers[layer]? with
  | none => throw (.corrupt s!"layer {layer} is not mounted")
  | some l =>
    match l.geometry.parent page with
    | some .root => pure l.header.root
    | some (.tree tree slot) => do
      let s ← ensure tree
      onDisk (D.copy s (slot * HASH_BYTES) HASH_BYTES)
    | some .header | none =>
      throw (.corrupt s!"layer {layer}: page {page} is not a page the tree covers")

/-- Check a slot just read against `expected`, and file it; a page that does not
match is refused and its slot freed. -/
def admitPage (layer page slot : ℕ) (expected : Bytes) : M δ Unit := do
  let bytes ← orGiveBack (onDisk (D.copy slot 0 PAGE)) [slot]
  if sha256 bytes ≠ expected then
    giveBack [slot] *> throw (.corrupt s!"layer {layer}: page {page} does not match its hash")
  else modify (·.file (layer, page) slot)

/-- The slot holding page `page` of `layer`, read and checked if it was not
cached; `depth` tree pages may be read above it. -/
def ensureWithin : ℕ → ℕ → ℕ → M δ ℕ
  | 0, _, _ => throw (.corrupt "the tree is deeper than its levels")
  | depth + 1, layer, page => do
    let c ← get
    match c.index (layer, page) with
    | some slot => touch slot *> pure slot
    | none => do
      let expected ← expectedBy D (ensureWithin depth layer) layer page
      let slot ← take
      orGiveBack (onDisk (D.fetch [⟨layer, page, slot⟩])) [slot]
      admitPage D sha256 layer page slot expected
      pure slot

/-- Levels enough for every layout, and the page itself. -/
def DEPTH : ℕ := LEVELS_MAX + 1

def ensure (layer page : ℕ) : M δ ℕ := ensureWithin D sha256 DEPTH layer page

def expected (layer page : ℕ) : M δ Bytes := expectedBy D (ensure D sha256 layer) layer page

/-! ### Batches -/

/-- The pages that are not cached, each once, with the hashes they must have. -/
def wantedOf (layer : ℕ) : List ℕ → List (ℕ × Bytes) → M δ (List (ℕ × Bytes))
  | [], wanted => pure wanted
  | page :: pages, wanted => do
    let c ← get
    if (c.index (layer, page)).isSome ∨ wanted.any (·.1 = page) then wantedOf layer pages wanted
    else do
      let hash ← expected D sha256 layer page
      wantedOf layer pages (wanted ++ [(page, hash)])

def readsOf (layer : ℕ) : List (ℕ × Bytes) → M δ (List Fetch)
  | [] => pure []
  | (page, _) :: wanted => do
    let slot ← take
    let reads ← readsOf layer wanted
    pure (⟨layer, page, slot⟩ :: reads)

/-- Check the pages that were read, one after another, and answer the first
failure. -/
def admitAll (layer : ℕ) : List (Fetch × Bytes) → Option Error → M δ (Option Error)
  | [], failed => pure failed
  | (read, hash) :: rest, failed => do
    let e ← tryCatch (admitPage D sha256 layer read.page read.slot hash *> pure none)
      fun e => pure (some e)
    admitAll layer rest (failed.or e)

def prefetchPart (layer : ℕ) (part : List ℕ) : M δ Unit := do
  let wanted ← wantedOf D sha256 layer part []
  if wanted = [] then pure ()
  else do
    let reads ← readsOf layer wanted
    orGiveBack (onDisk (D.fetch reads)) (reads.map Fetch.slot)
    let failed ← admitAll D sha256 layer (reads.zip (wanted.map Prod.snd)) none
    match failed with
    | none => pure ()
    | some e => throw e

/-- Read into the cache, in batches of at most half the cache, every page of
`pages` it does not hold. -/
def prefetch (layer : ℕ) (pages : List ℕ) : M δ Unit := do
  let c ← get
  (chunks (max (c.slots / 2) 1) pages).forM (prefetchPart D sha256 layer)

def read (layer page offset len : ℕ) : M δ Bytes :=
  if PAGE < offset + len then throw .badRange
  else do
    let slot ← ensure D sha256 layer page
    onDisk (D.copy slot offset len)

/-- Mount the next layer: read its header page, check it and that its device holds
the whole file, and answer its index. -/
def mount : M δ ℕ := do
  let c ← get
  let layer := c.layers.length
  let slot ← take
  let page ← orGiveBack
    (onDisk (D.fetch [⟨layer, 0, slot⟩]) *> onDisk (D.copy slot 0 PAGE)) [slot]
  giveBack [slot]
  match Header.parse sha256 page with
  | .error e => throw (.corrupt s!"layer {layer}: its header: {e.why}")
  | .ok (header, geometry) => do
    let device ← onDisk (D.devicePages layer)
    if device < geometry.pages then
      throw (.corrupt (s!"layer {layer}: the file is {geometry.pages} pages and its device " ++
        s!"holds {device}"))
    else do
      modify fun c => { c with layers := c.layers ++ [⟨layer, header, geometry⟩] }
      pure layer

/-! ### How deep `ensure` goes -/

variable {layer page : ℕ} {c : Cache δ}

theorem expectedBy_congr {bring bring' : ℕ → M δ ℕ}
    (h : ∀ l t slot, c.layers[layer]? = some l → l.geometry.parent page = some (.tree t slot) →
      bring t c = bring' t c) :
    expectedBy D bring layer page c = expectedBy D bring' layer page c := by
  show (match c.layers[layer]? with | none => _ | some l => _ : M δ Bytes) c =
    (match c.layers[layer]? with | none => _ | some l => _ : M δ Bytes) c
  cases hl : c.layers[layer]? with
  | none => rfl
  | some l =>
    dsimp only
    cases hp : l.geometry.parent page with
    | none => rfl
    | some parent =>
      cases parent with
      | header => rfl
      | root => rfl
      | tree t slot =>
        show EStateM.bind (bring t) _ c = EStateM.bind (bring' t) _ c
        rw [EStateM.bind, EStateM.bind, h l t slot hl hp]

/-- **Depth is no bound in fact**: more of it changes nothing once it is more than
the page's distance from the root, as `DEPTH` is for every layout. -/
theorem ensure_depth {depth : ℕ} (hpos : 0 < depth)
    (h : ∀ l, c.layers[layer]? = some l → l.geometry.Sound ∧ l.geometry.rank page < depth) :
    ensureWithin D sha256 depth layer page c = ensureWithin D sha256 (depth + 1) layer page c := by
  induction depth generalizing page with
  | zero => exact absurd hpos (lt_irrefl 0)
  | succ depth ih =>
    have hexpected : expectedBy D (ensureWithin D sha256 depth layer) layer page c =
        expectedBy D (ensureWithin D sha256 (depth + 1) layer) layer page c := by
      refine expectedBy_congr D fun l t slot hl hp => ih ?_ fun l' hl' => ?_
      · have := ((h l hl).1.above hp).2.2.2
        have := (h l hl).2
        omega
      rw [hl] at hl'
      cases hl'
      have hrank := ((h l hl).1.above hp).2.2.2
      have := (h l hl).2
      exact ⟨(h l hl).1, by omega⟩
    conv_lhs => unfold ensureWithin
    conv_rhs => unfold ensureWithin
    show (match c.index (layer, page) with | some slot => _ | none => _ : M δ ℕ) c =
      (match c.index (layer, page) with | some slot => _ | none => _ : M δ ℕ) c
    cases c.index (layer, page) with
    | some slot => rfl
    | none =>
      show EStateM.bind _ _ c = EStateM.bind _ _ c
      rw [EStateM.bind, EStateM.bind, hexpected]

end Cache

end Moruna.ImageFs
