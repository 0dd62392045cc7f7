/-
Moruna/ImageFs/Format.lean

The layer file, byte by byte: a header page, the node table, the names, the
extent table, the file data with every file starting on a page, and the hash
tree over all of it.  Every integer is little endian.

Nothing in the layout is stored that can be computed: `Geometry.new` derives
where everything is from the four counts a header carries, and the reader
computes the same.  The levels of the tree stand in an array of `LEVELS_MAX`
places; a tree that needed more would be an index out of bounds, which is
`FormatError.outOfLevels` here.

* `Node.decode_encode`, `Header.parse_encode` : **what was encoded is read back**.
-/
import Moruna.Lib.Codec
import Moruna.Lib.Machine

namespace Moruna.ImageFs

open List

/-! ### Sizes and bounds -/

def PAGE : ℕ := 4096
def VERSION : ℕ := 1
def NODE_BYTES : ℕ := 64
def EXTENT_BYTES : ℕ := 16
def HASH_BYTES : ℕ := 32
/-- Hashes in one page of the tree. -/
def FANOUT : ℕ := 128
def NAME_MAX : ℕ := 255
def TARGET_MAX : ℕ := 4095
def NODES_MAX : ℕ := 2 ^ 24
def EXTENTS_MAX : ℕ := 2 ^ 24
def NAMES_MAX : ℕ := 2 ^ 30
def DATA_PAGES_MAX : ℕ := 2 ^ 36
def LEVELS_MAX : ℕ := 7
def CHECKSUM_AT : ℕ := 88
def HEADER_USED : ℕ := 120

def MAGIC : Bytes := [77, 82, 78, 76, 65, 89, 82, 49]

/-- Why bytes are not a layer file. -/
inductive FormatError
  | bad (why : String)
  /-- The array of levels is full. -/
  | outOfLevels
deriving DecidableEq

def FormatError.why : FormatError → String
  | .bad why => why
  | .outOfLevels => "index out of bounds"

def uintAt (n : ℕ) (b : Bytes) (off : ℕ) : ℕ := leNat ((b.drop off).take n)

def pagesFor (bytes : ℕ) : ℕ := ceilDiv bytes PAGE

/-! ### The layout -/

/-- Where everything is. -/
structure Geometry where
  nodeCount : ℕ
  extentCount : ℕ
  namesLen : ℕ
  dataPages : ℕ
  nodesPage : ℕ
  namesPage : ℕ
  extentsPage : ℕ
  dataPage : ℕ
  /-- The first page of the tree; the pages from 1 up to it are the content. -/
  treePage : ℕ
  /-- Each level's first page and page count, the hashes of content first. -/
  level : List (ℕ × ℕ)
  /-- The file's length in pages. -/
  pages : ℕ
deriving DecidableEq

/-- What a page's hash is checked against. -/
inductive Parent
  | header
  | root
  | tree (page slot : ℕ)
deriving DecidableEq

/-- The levels over `covered` pages, the first of them at page `pos`, with room
for `room` of them. -/
def treeLevels : ℕ → ℕ → ℕ → Option (List (ℕ × ℕ))
  | 0, _, _ => none
  | room + 1, covered, pos =>
    let count := ceilDiv covered FANOUT
    if count = 1 then some [(pos, count)]
    else (treeLevels room count (pos + count)).map ((pos, count) :: ·)

def Geometry.new (nodeCount extentCount namesLen dataPages : ℕ) : Except FormatError Geometry :=
  if nodeCount = 0 ∨ NODES_MAX < nodeCount then
    .error (.bad s!"{nodeCount} nodes; a layer holds 1 to {NODES_MAX}")
  else if EXTENTS_MAX < extentCount then
    .error (.bad s!"{extentCount} extents; at most {EXTENTS_MAX}")
  else if NAMES_MAX < namesLen then
    .error (.bad s!"{namesLen} bytes of names; at most {NAMES_MAX}")
  else if DATA_PAGES_MAX < dataPages then
    .error (.bad s!"{dataPages} data pages; at most {DATA_PAGES_MAX}")
  else
    let nodesPage := 1
    let namesPage := nodesPage + pagesFor (nodeCount * NODE_BYTES)
    let extentsPage := namesPage + pagesFor namesLen
    let dataPage := extentsPage + pagesFor (extentCount * EXTENT_BYTES)
    let treePage := dataPage + dataPages
    match treeLevels LEVELS_MAX (treePage - 1) treePage with
    | none => .error .outOfLevels
    | some level => .ok
      { nodeCount, extentCount, namesLen, dataPages, nodesPage, namesPage, extentsPage, dataPage,
        treePage, level, pages := treePage + (level.map Prod.snd).sum }

/-- The top tree page, whose hash is the root. -/
def Geometry.top (g : Geometry) : ℕ := (g.level.getLast?.map Prod.fst).getD 0

/-- The parent of a page of the tree, among the levels from here up. -/
def parentIn (page : ℕ) : List (ℕ × ℕ) → Option Parent
  | [] => none
  | (first, count) :: above =>
    if first ≤ page ∧ page < first + count then
      match above with
      | [] => some .root
      | (next, _) :: _ => some (.tree (next + (page - first) / FANOUT) ((page - first) % FANOUT))
    else parentIn page above

/-- What page `page`'s hash is checked against; `none` past the file's end. -/
def Geometry.parent (g : Geometry) (page : ℕ) : Option Parent :=
  if page = 0 then some .header
  else if page < g.treePage then
    let first := (g.level.head?.map Prod.fst).getD 0
    some (.tree (first + (page - 1) / FANOUT) ((page - 1) % FANOUT))
  else parentIn page g.level

/-- Whether `start .. start + pages` lies inside the data region. -/
def Geometry.holdsData (g : Geometry) (start pages : ℕ) : Bool :=
  decide (g.dataPage ≤ start) && decide (start + pages < 2 ^ 64) &&
    decide (start + pages ≤ g.treePage)

/-! ### The header -/

/-- The header page's fields that are not derived. -/
structure Header where
  nodeCount : ℕ
  extentCount : ℕ
  namesLen : ℕ
  dataPages : ℕ
  root : Bytes
deriving DecidableEq

/-- The header page with these bytes in place of its checksum. -/
def Header.pageWith (h : Header) (g : Geometry) (sum : Bytes) : Bytes :=
  MAGIC ++ leBytes 4 VERSION ++ leBytes 4 PAGE ++ leBytes 8 g.pages ++ leBytes 4 h.nodeCount ++
    leBytes 4 h.extentCount ++ leBytes 8 h.namesLen ++ leBytes 8 h.dataPages ++
    leBytes 4 g.level.length ++ leBytes 4 0 ++ h.root ++ sum ++
    List.replicate (PAGE - HEADER_USED) 0

/-- The header page; `sha256` is the digest. -/
def Header.encode (sha256 : Bytes → Bytes) (h : Header) : Except FormatError Bytes := do
  let g ← Geometry.new h.nodeCount h.extentCount h.namesLen h.dataPages
  return h.pageWith g (sha256 (h.pageWith g (List.replicate HASH_BYTES 0)))

def zeroSum (p : Bytes) : Bytes :=
  p.take CHECKSUM_AT ++ List.replicate HASH_BYTES 0 ++ p.drop HEADER_USED

def Header.parse (sha256 : Bytes → Bytes) (p : Bytes) : Except FormatError (Header × Geometry) :=
  if p.length ≠ PAGE then .error (.bad s!"a header is one page, not {p.length} bytes")
  else if p.take 8 ≠ MAGIC then
    .error (.bad "the first eight bytes are not MRNLAYR1: this is not a layer file")
  else if sha256 (zeroSum p) ≠ (p.drop CHECKSUM_AT).take HASH_BYTES then
    .error (.bad "the header's checksum does not match its bytes")
  else if uintAt 4 p 8 ≠ VERSION then
    .error (.bad s!"version {uintAt 4 p 8}; this reader reads {VERSION}")
  else if uintAt 4 p 12 ≠ PAGE then
    .error (.bad s!"a page size of {uintAt 4 p 12}, not {PAGE}")
  else if uintAt 4 p 52 ≠ 0 ∨ (p.drop HEADER_USED).any (· ≠ 0) then
    .error (.bad "bytes the format keeps zero are not")
  else
    let header : Header :=
      ⟨uintAt 4 p 24, uintAt 4 p 28, uintAt 8 p 32, uintAt 8 p 40, (p.drop 56).take HASH_BYTES⟩
    match Geometry.new header.nodeCount header.extentCount header.namesLen header.dataPages with
    | .error e => .error e
    | .ok g =>
      if uintAt 8 p 16 ≠ g.pages ∨ uintAt 4 p 48 ≠ g.level.length then
        .error (.bad "the file's length or tree depth is not the one its counts give")
      else .ok (header, g)

/-! ### Nodes -/

inductive Kind
  | directory
  | regular
  | symlink
  | whiteout
deriving DecidableEq

def Kind.byte : Kind → UInt8
  | .directory => 1
  | .regular => 2
  | .symlink => 3
  | .whiteout => 4

def Kind.ofByte (b : UInt8) : Option Kind :=
  if b = 1 then some .directory
  else if b = 2 then some .regular
  else if b = 3 then some .symlink
  else if b = 4 then some .whiteout
  else none

/-- A directory's flag: it keeps nothing of the layers below. -/
def OPAQUE : ℕ := 1

structure Node where
  nameOffset : ℕ
  nameLen : ℕ
  kind : Kind
  flags : ℕ
  mode : ℕ
  /-- A directory's first child, a file's first extent, and how many. -/
  first : ℕ
  count : ℕ
  size : ℕ
  targetOffset : ℕ
  targetLen : ℕ
deriving DecidableEq

def Node.isOpaque (n : Node) : Bool := n.flags % 2 = 1

def Node.encode (n : Node) : Bytes :=
  leBytes 8 n.nameOffset ++ leBytes 2 n.nameLen ++ [n.kind.byte] ++ leBytes 1 n.flags ++
    leBytes 4 n.mode ++ leBytes 4 n.first ++ leBytes 4 n.count ++ leBytes 8 n.size ++
    leBytes 8 n.targetOffset ++ leBytes 4 n.targetLen ++ List.replicate 20 0

/-- What a node's kind asks of its fields: `none` when they are right, or what is
wrong with them. -/
def Node.kindFault (n : Node) (index : ℕ) (g : Geometry) : Option String :=
  let noTarget := n.targetOffset = 0 ∧ n.targetLen = 0
  match n.kind with
  | .directory =>
    if n.size ≠ 0 ∨ ¬ noTarget then some "a directory has no size or target"
    else if 0 < n.count ∧ (n.first ≤ index ∨ g.nodeCount < n.first + n.count) then
      some "a directory's children are later nodes inside the table"
    else if n.count = 0 ∧ n.first ≠ 0 then
      some "a directory with no children names no first child"
    else none
  | .regular =>
    if ¬ noTarget then some "a file has no target"
    else if n.count ≠ 0 ∧ n.size = 0 then some "an empty file has no extents"
    else if g.extentCount < n.first + n.count then
      some "a file's extents reach past the extent table"
    else if n.count = 0 ∧ (n.first ≠ 0 ∨ n.size ≠ 0) then some "a file with data has extents"
    else none
  | .symlink =>
    if n.first ≠ 0 ∨ n.count ≠ 0 ∨ n.size ≠ 0 then
      some "a symbolic link has no children, extents or size"
    else if n.targetLen = 0 ∨ TARGET_MAX < n.targetLen then some "a target is 1 to 4095 bytes"
    else if 2 ^ 64 ≤ n.targetOffset + n.targetLen ∨ g.namesLen < n.targetOffset + n.targetLen then
      some "its target reaches past the names"
    else none
  | .whiteout =>
    if n.first ≠ 0 ∨ n.count ≠ 0 ∨ n.size ≠ 0 ∨ ¬ noTarget then
      some "a whiteout is a name and nothing else"
    else if n.mode ≠ 0 then some "a whiteout has no mode"
    else none

/-- What is wrong with a node of the table, in the order the reader looks. -/
def Node.fault (n : Node) (index : ℕ) (g : Geometry) : Option String :=
  if index = 0 ∧ (n.kind ≠ .directory ∨ n.nameLen ≠ 0 ∨ n.nameOffset ≠ 0) then
    some "the first node is the root: a directory with no name"
  else if index ≠ 0 ∧ (n.nameLen = 0 ∨ NAME_MAX < n.nameLen) then some "a name is 1 to 255 bytes"
  else if 2 ^ 64 ≤ n.nameOffset + n.nameLen ∨ g.namesLen < n.nameOffset + n.nameLen then
    some "its name reaches past the names"
  else if 511 < n.mode then some "a mode is permission bits only"
  else if n.flags ≠ 0 ∧ ¬ (n.kind = .directory ∧ n.flags = OPAQUE) then
    some "only a directory carries a flag, and only OPAQUE"
  else n.kindFault index g

def Node.decode (b : Bytes) (index : ℕ) (g : Geometry) : Except FormatError Node :=
  if b.length ≠ NODE_BYTES then .error (.bad "a node is 64 bytes")
  else match Kind.ofByte (b.getD 10 0) with
    | none => .error (.bad s!"node {index} is of kind {(b.getD 10 0).toNat}, which no node is")
    | some kind =>
      let n : Node := ⟨uintAt 8 b 0, uintAt 2 b 8, kind, uintAt 1 b 11, uintAt 4 b 12,
        uintAt 4 b 16, uintAt 4 b 20, uintAt 8 b 24, uintAt 8 b 32, uintAt 4 b 40⟩
      if (b.drop 44).any (· ≠ 0) then
        .error (.bad s!"node {index}: bytes the format keeps zero are not")
      else match n.fault index g with
        | some why => .error (.bad s!"node {index}: {why}")
        | none => .ok n

/-! ### Extents and names -/

/-- One entry of the extent table: the first page in the file (0 for a hole), and
the pages. -/
structure Extent where
  start : ℕ
  pages : ℕ
deriving DecidableEq

def Extent.encode (e : Extent) : Bytes := leBytes 8 e.start ++ leBytes 8 e.pages

def Extent.decode (b : Bytes) (index : ℕ) (g : Geometry) : Except FormatError Extent :=
  if b.length ≠ EXTENT_BYTES then .error (.bad "an extent is 16 bytes")
  else
    let e : Extent := ⟨uintAt 8 b 0, uintAt 8 b 8⟩
    if e.pages = 0 then .error (.bad s!"extent {index} holds no pages")
    else if e.start ≠ 0 ∧ g.holdsData e.start e.pages = false then
      .error (.bad s!"extent {index} is not inside the data region")
    else .ok e

def validName (name : Bytes) : Bool :=
  decide (name ≠ []) && decide (name.length ≤ NAME_MAX) && decide (name ≠ [46]) &&
    decide (name ≠ [46, 46]) && !name.any (fun b => b == 47 || b == 0)

def validTarget (target : Bytes) : Bool :=
  decide (target ≠ []) && decide (target.length ≤ TARGET_MAX) && !target.contains 0

/-! ### What decodes -/

variable {g : Geometry}
variable {b : Bytes} {index : ℕ} {n : Node} {sha256 : Bytes → Bytes} {h : Header}

theorem Node.fault_of_decode (h : Node.decode b index g = .ok n) : n.fault index g = none := by
  unfold Node.decode at h
  split at h
  · cases h
  split at h
  · cases h
  dsimp only at h
  split at h
  · cases h
  split at h
  · cases h
  next hf =>
    cases h
    exact hf

/-- **The children of a directory that decodes are later nodes of the table.** -/
theorem Node.children_later (h : Node.decode b index g = .ok n)
    (hk : n.kind = .directory) (hc : 0 < n.count) :
    index < n.first ∧ n.first + n.count ≤ g.nodeCount := by
  have hf := Node.fault_of_decode h
  unfold Node.fault at hf
  repeat (split at hf; · cases hf)
  unfold Node.kindFault at hf
  rw [hk] at hf
  dsimp only at hf
  split at hf
  · cases hf
  split at hf
  · cases hf
  next hnot => omega

/-! ### What was encoded -/

theorem Kind.ofByte_byte (k : Kind) : Kind.ofByte k.byte = some k := by cases k <;> rfl

theorem uintAt_append {n : ℕ} {a : Bytes} {off : ℕ} (h : a.length ≤ off) :
    uintAt n (a ++ b) off = uintAt n b (off - a.length) := by
  unfold uintAt
  rw [drop_append, drop_of_length_le h, nil_append]

theorem uintAt_leBytes (n v : ℕ) (b : Bytes) : uintAt n (leBytes n v ++ b) 0 = v % 256 ^ n := by
  unfold uintAt
  rw [drop_zero, take_left' (length_leBytes n v), leNat_leBytes]

/-- The fields fit their places. -/
structure Node.Fits (n : Node) : Prop where
  nameOffset : n.nameOffset < 256 ^ 8
  nameLen : n.nameLen < 256 ^ 2
  flags : n.flags < 256 ^ 1
  mode : n.mode < 256 ^ 4
  first : n.first < 256 ^ 4
  count : n.count < 256 ^ 4
  size : n.size < 256 ^ 8
  targetOffset : n.targetOffset < 256 ^ 8
  targetLen : n.targetLen < 256 ^ 4

/-- **A node decodes to itself**, where nothing is wrong with it. -/
theorem Node.decode_encode (hfit : n.Fits) (hf : n.fault index g = none) :
    Node.decode n.encode index g = .ok n := by
  have hfields : (⟨uintAt 8 n.encode 0, uintAt 2 n.encode 8, n.kind, uintAt 1 n.encode 11,
      uintAt 4 n.encode 12, uintAt 4 n.encode 16, uintAt 4 n.encode 20, uintAt 8 n.encode 24,
      uintAt 8 n.encode 32, uintAt 4 n.encode 40⟩ : Node) = n := by
    obtain ⟨h1, h2, h3, h4, h5, h6, h7, h8, h9⟩ := hfit
    simp only [Node.encode, append_assoc]
    simp (disch := simp) only [uintAt_append, uintAt_leBytes, length_leBytes, length_cons,
      length_nil, Nat.reduceSub, Nat.reduceAdd]
    rw [Nat.mod_eq_of_lt h1, Nat.mod_eq_of_lt h2, Nat.mod_eq_of_lt h3, Nat.mod_eq_of_lt h4,
      Nat.mod_eq_of_lt h5, Nat.mod_eq_of_lt h6, Nat.mod_eq_of_lt h7, Nat.mod_eq_of_lt h8,
      Nat.mod_eq_of_lt h9]
  have hlen : n.encode.length = NODE_BYTES := by simp [Node.encode, NODE_BYTES]
  have hkind : n.encode.getD 10 0 = n.kind.byte := by simp [Node.encode]
  have hzero : (n.encode.drop 44).any (· ≠ 0) = false := by
    have hrest : n.encode.drop 44 = List.replicate 20 0 := by
      simp (disch := simp) [Node.encode, drop_append, drop_of_length_le]
    rw [hrest]
    decide
  unfold Node.decode
  rw [if_neg (not_not.2 hlen), hkind, Kind.ofByte_byte]
  dsimp only
  rw [hfields, hzero, if_neg Bool.false_ne_true, hf]

theorem Header.pageWith_split (h : Header) (g : Geometry) (hroot : h.root.length = HASH_BYTES) :
    ∃ front, front.length = CHECKSUM_AT ∧ front.take 8 = MAGIC ∧ front.drop 56 = h.root ∧
      ∀ sum, h.pageWith g sum = front ++ (sum ++ List.replicate (PAGE - HEADER_USED) 0) := by
  obtain ⟨counts, hcounts⟩ : ∃ counts, counts = leBytes 4 VERSION ++ (leBytes 4 PAGE ++
    (leBytes 8 g.pages ++ (leBytes 4 h.nodeCount ++ (leBytes 4 h.extentCount ++
    (leBytes 8 h.namesLen ++ (leBytes 8 h.dataPages ++ (leBytes 4 g.level.length ++
    leBytes 4 0))))))) := ⟨_, rfl⟩
  have hlen : (MAGIC ++ counts).length = 56 := by
    simp only [hcounts, length_append, length_leBytes]
    rfl
  refine ⟨MAGIC ++ counts ++ h.root, ?_, ?_, drop_left' hlen, fun sum => ?_⟩
  · rw [length_append, hlen, hroot]
    rfl
  · rw [append_assoc]
    exact take_left' rfl
  · simp only [Header.pageWith, hcounts, append_assoc]

/-- **A header page parses to what it was made of.** -/
theorem Header.parse_encode (hsha : ∀ b, (sha256 b).length = HASH_BYTES)
    (hg : Geometry.new h.nodeCount h.extentCount h.namesLen h.dataPages = .ok g)
    (hroot : h.root.length = HASH_BYTES) (hn : h.nodeCount < 256 ^ 4) (he : h.extentCount < 256 ^ 4)
    (hl : h.namesLen < 256 ^ 8) (hd : h.dataPages < 256 ^ 8) (hp : g.pages < 256 ^ 8)
    (hlev : g.level.length < 256 ^ 4) :
    ∃ page, Header.encode sha256 h = .ok page ∧ page.length = PAGE ∧
      Header.parse sha256 page = .ok (h, g) := by
  obtain ⟨sum, hsum⟩ : ∃ sum, sum = sha256 (h.pageWith g (List.replicate HASH_BYTES 0)) := ⟨_, rfl⟩
  have hsumlen : sum.length = HASH_BYTES := hsum ▸ hsha _
  have henc : Header.encode sha256 h = .ok (h.pageWith g sum) := by
    unfold Header.encode
    rw [hg, hsum]
    rfl
  obtain ⟨front, hfront, hmagic, hdrop, hsplit⟩ := h.pageWith_split g hroot
  have hafter (s : Bytes) : (h.pageWith g s).drop CHECKSUM_AT =
      s ++ List.replicate (PAGE - HEADER_USED) 0 := by
    rw [hsplit, drop_left' hfront]
  have hzeros : (h.pageWith g sum).drop HEADER_USED = List.replicate (PAGE - HEADER_USED) 0 := by
    rw [show HEADER_USED = CHECKSUM_AT + HASH_BYTES from rfl, ← drop_drop, hafter,
      drop_left' hsumlen]
    rfl
  have hzero : zeroSum (h.pageWith g sum) = h.pageWith g (List.replicate HASH_BYTES 0) := by
    unfold zeroSum
    rw [hzeros, hsplit, hsplit, take_left' hfront, append_assoc]
  have hlen : (h.pageWith g sum).length = PAGE := by
    rw [hsplit, length_append, length_append, hfront, hsumlen, length_replicate]
    rfl
  have hfields : uintAt 4 (h.pageWith g sum) 8 = VERSION ∧ uintAt 4 (h.pageWith g sum) 12 = PAGE ∧
      uintAt 4 (h.pageWith g sum) 52 = 0 ∧ uintAt 4 (h.pageWith g sum) 24 = h.nodeCount ∧
      uintAt 4 (h.pageWith g sum) 28 = h.extentCount ∧ uintAt 8 (h.pageWith g sum) 32 = h.namesLen ∧
      uintAt 8 (h.pageWith g sum) 40 = h.dataPages ∧ uintAt 8 (h.pageWith g sum) 16 = g.pages ∧
      uintAt 4 (h.pageWith g sum) 48 = g.level.length := by
    have hmagic : MAGIC.length = 8 := rfl
    simp only [Header.pageWith, append_assoc]
    simp (disch := simp [hmagic]) only [uintAt_append, uintAt_leBytes, length_leBytes, hmagic,
      Nat.reduceSub]
    rw [Nat.mod_eq_of_lt hn, Nat.mod_eq_of_lt he, Nat.mod_eq_of_lt hl, Nat.mod_eq_of_lt hd,
      Nat.mod_eq_of_lt hp, Nat.mod_eq_of_lt hlev]
    exact ⟨rfl, rfl, rfl, rfl, rfl, rfl, rfl, rfl, rfl⟩
  obtain ⟨h8, h12, h52, h24, h28, h32, h40, h16, h48⟩ := hfields
  have hmagic' : (h.pageWith g sum).take 8 = MAGIC := by
    rw [hsplit, take_append_of_le_length (by rw [hfront]; decide), hmagic]
  have hcheck : sha256 (zeroSum (h.pageWith g sum)) =
      ((h.pageWith g sum).drop CHECKSUM_AT).take HASH_BYTES := by
    rw [hzero, ← hsum, hafter, take_left' hsumlen]
  have hroot' : ((h.pageWith g sum).drop 56).take HASH_BYTES = h.root := by
    rw [hsplit, drop_append_of_le_length (by rw [hfront]; decide), hdrop, take_left' hroot]
  have hclean : ((h.pageWith g sum).drop HEADER_USED).any (· ≠ 0) = false := by
    rw [hzeros, any_eq_false]
    intro b hb
    simpa using eq_of_mem_replicate hb
  refine ⟨h.pageWith g sum, henc, hlen, ?_⟩
  unfold Header.parse
  rw [if_neg (not_not.2 hlen), if_neg (not_not.2 hmagic'), if_neg (not_not.2 hcheck),
    if_neg (not_not.2 h8), if_neg (not_not.2 h12), if_neg (by rw [h52, hclean]; simp)]
  dsimp only
  rw [h24, h28, h32, h40, hroot', hg]
  dsimp only
  rw [if_neg (by rw [h16, h48]; simp)]

/-- The layout of a header that parses is the one its counts give. -/
theorem Header.layout_of_parse {p : Bytes} (hp : Header.parse sha256 p = .ok (h, g)) :
    Geometry.new h.nodeCount h.extentCount h.namesLen h.dataPages = .ok g := by
  unfold Header.parse at hp
  iterate 6 (split at hp; · cases hp)
  dsimp only at hp
  split at hp
  · cases hp
  rename_i hg
  split at hp
  · cases hp
  · cases hp
    exact hg

end Moruna.ImageFs
