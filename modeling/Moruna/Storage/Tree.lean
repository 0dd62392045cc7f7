/-
Moruna/Storage/Tree.lean

The payload pages and the digest tree a put writes, and the proofs readers make from
them.

`extentWrites` is the part of a put between its plan and its commit record: one page for
each block of the payload, then one page for each node of the tree, level by level.  The
pages lie one behind the other from the start of the extent (`extentWrites_spec`).

* `block_proofs_complete_and_sound` — for every block of the payload the proof of the
  reader exists, it accepts the pages that were written, and a page it accepts is the one
  that was written unless two pages collide under the hash.
-/
import Moruna.StorageFormat.BlockProof

namespace Moruna

open List

/-! ### The pages of a put -/

/-- One page to write: its byte offset and its bytes. -/
abbrev PageWrite := ℕ × Bytes

def blockData (a : ℕ) (payload : Bytes) (block : ℕ) : Bytes :=
  (payload.drop (block * a)).take (min (payload.length - block * a) a)

def blockPage (a : ℕ) (payload : Bytes) (block : ℕ) : Bytes :=
  blockData a payload block ++ List.replicate (a - (blockData a payload block).length) 0

/-- The loop over the payload blocks `from, from + 1, …`: the page writes and the leaf
digests. -/
def blockWrites (hash : Bytes → Digest) (a offset : ℕ) (payload : Bytes) :
    (blocks first : ℕ) → Except Error (List PageWrite × List Digest)
  | 0, _ => .ok ([], [])
  | blocks + 1, block => do
    let digest ← leafDigest hash (blockData a payload block) a
    let (writes, digests) ← blockWrites hash a offset payload blocks (block + 1)
    .ok ((offset + block * a, blockPage a payload block) :: writes, digest :: digests)

def levelWrites (hash : Bytes → Digest) (a offset : ℕ) :
    List (List Digest) → (first : ℕ) → Except Error (List PageWrite × List Digest)
  | [], _ => .ok ([], [])
  | children :: rest, index => do
    let (page, digest) ← treeNode hash a children
    let (writes, parents) ← levelWrites hash a offset rest (index + 1)
    .ok ((offset + index * a, page) :: writes, digest :: parents)

/-- The loop over the levels: the page writes, and the digests of the last level. -/
def treeWrites (hash : Bytes → Digest) (a : ℕ) :
    List TreeLevel → List Digest → Except Error (List PageWrite × List Digest)
  | [], digests => .ok ([], digests)
  | level :: rest, digests => do
    let (writes, parents) ← levelWrites hash a level.offset.toNat (chunks (a / 32) digests) 0
    let (more, top) ← treeWrites hash a rest parents
    .ok (writes ++ more, top)

variable (hash : Bytes → Digest)

/-- Every page a put writes for a planned extent, in order, and the location with the root
digest of its tree. -/
def extentWrites (a : ℕ) (location : Location) (payload : Bytes) :
    Except Error (List PageWrite × Location) :=
  match location with
  | .file _ => .error .integrity
  | .extent offset paddedBytes tree root => do
    let (blocks, digests) ←
      blockWrites hash a offset.toNat payload (ceilDiv payload.length a) 0
    let (nodes, top) ← treeWrites hash a tree digests
    .ok (blocks ++ nodes, .extent offset paddedBytes tree (top.headD root))

/-! ### Where the pages lie -/

/-- Pages one behind the other from a byte offset on. -/
def layout (a : ℕ) : (start : ℕ) → List Bytes → List PageWrite
  | _, [] => []
  | start, page :: rest => (start, page) :: layout a (start + a) rest

theorem layout_append (a start : ℕ) (p q : List Bytes) :
    layout a start (p ++ q) = layout a start p ++ layout a (start + p.length * a) q := by
  induction p generalizing start with
  | nil => simp [layout]
  | cons page p ih =>
    rw [cons_append, layout, layout, ih, cons_append, length_cons, Nat.succ_mul,
      add_assoc, add_comm a]

theorem length_blockData (a : ℕ) (payload : Bytes) (block : ℕ) :
    (blockData a payload block).length = min (payload.length - block * a) a := by
  rw [blockData, length_take, length_drop]
  omega

@[simp] theorem length_blockPage (a : ℕ) (payload : Bytes) (block : ℕ) :
    (blockPage a payload block).length = a := by
  rw [blockPage, length_append, length_replicate, length_blockData]
  omega

section Pages

variable {a : ℕ}

variable (ha : 512 ≤ a) (hpow : ∃ k, a = 2 ^ k)

include ha hpow

theorem leafDigest_blockData (payload : Bytes) (block : ℕ) :
    leafDigest hash (blockData a payload block) a = .ok (hash (blockPage a payload block)) := by
  have hlen := length_blockData a payload block
  rw [leafDigest, pass_bind, padZeros_eq, blockPage]
  rw [Bool.or_eq_false_iff, Bool.or_eq_false_iff, decide_eq_false_iff_not, decide_eq_false_iff_not,
    Bool.not_eq_false', isPowerOfTwo_iff]
  exact ⟨⟨by omega, hpow⟩, by omega⟩

theorem treeNode_of {children : List Digest} (hc : children.length ≤ a / 32) :
    treeNode hash a children = .ok (nodePage a children, hash (nodePage a children)) := by
  rw [treeNode, pass_bind]
  rw [Bool.or_eq_false_iff, Bool.or_eq_false_iff, decide_eq_false_iff_not, decide_eq_false_iff_not,
    Bool.not_eq_false', isPowerOfTwo_iff]
  exact ⟨⟨by omega, hpow⟩, by omega⟩

theorem blockWrites_spec (offset : ℕ) (payload : Bytes) (blocks first : ℕ) :
    blockWrites hash a offset payload blocks first =
      .ok (layout a (offset + first * a) ((List.range' first blocks).map (blockPage a payload)),
        (List.range' first blocks).map fun block => hash (blockPage a payload block)) := by
  induction blocks generalizing first with
  | zero => rfl
  | succ blocks ih =>
    rw [blockWrites, leafDigest_blockData hash ha hpow]
    show (blockWrites hash a offset payload blocks (first + 1) >>= _) = _
    rw [ih, range'_succ, map_cons, map_cons, layout]
    show Except.ok _ = _
    rw [Nat.succ_mul, Nat.add_assoc]

theorem levelWrites_spec (offset : ℕ)
    (groups : List (List Digest)) (hg : ∀ g ∈ groups, g.length ≤ a / 32) (first : ℕ) :
    levelWrites hash a offset groups first =
      .ok (layout a (offset + first * a) (groups.map (nodePage a)),
        groups.map fun g => hash (nodePage a g)) := by
  induction groups generalizing first with
  | nil => rfl
  | cons g groups ih =>
    rw [levelWrites, treeNode_of hash ha hpow (hg g mem_cons_self)]
    show (levelWrites hash a offset groups (first + 1) >>= _) = _
    rw [ih (fun g hg' => hg g (mem_cons_of_mem _ hg')), map_cons, map_cons, layout]
    show Except.ok _ = _
    rw [Nat.succ_mul, Nat.add_assoc]

variable (s : Scheme Bytes Digest) (leaves : List Digest)

omit ha hpow

/-- The node pages of a tree over some leaves, level by level. -/
def treePages (levels : ℕ) : List Bytes :=
  (List.range levels).flatMap fun k => s.pages (s.tower leaves k)

theorem treePages_succ (levels : ℕ) :
    treePages s leaves (levels + 1) = s.pages leaves ++ treePages s (s.parents leaves) levels := by
  rw [treePages, range_succ_eq_map, flatMap_cons, flatMap_map]
  simp only [treePages, Scheme.tower_parents]
  rfl

/-- The digests of the node pages of a level are the digests one level up. -/
theorem map_nodePage (h32 : 32 ≤ a) (leaves : List Digest) :
    ((chunks (a / 32) leaves).map fun g => hash (nodePage a g)) =
      (treeScheme hash a h32).parents leaves := by
  rw [Scheme.parents, Scheme.pages, map_map]
  rfl

include ha hpow

variable {tree : List TreeLevel} {stop : ℕ} {page : Bytes}

theorem treeWrites_spec (h32 : 32 ≤ a) {leaves : List Digest} {cursor : ℕ}
    (h : Levels (a / 32) a tree leaves.length cursor stop) :
    treeWrites hash a tree leaves =
      .ok (layout a cursor (treePages (treeScheme hash a h32) leaves tree.length),
        (treeScheme hash a h32).tower leaves tree.length) := by
  induction tree generalizing leaves cursor with
  | nil => rfl
  | cons level rest ih =>
    obtain ⟨-, ho, -, hrest⟩ := h
    have hlevel := levelWrites_spec hash ha hpow level.offset.toNat (chunks (a / 32) leaves)
      (by
        intro g hg
        obtain ⟨i, -, rfl⟩ := mem_map.mp hg
        rw [length_take]
        omega) 0
    have hlen : ((treeScheme hash a h32).parents leaves).length = ceilDiv leaves.length (a / 32) :=
      Scheme.length_parents _ _
    rw [treeWrites, hlevel]
    show (treeWrites hash a rest
      ((chunks (a / 32) leaves).map fun g => hash (nodePage a g)) >>= _) = _
    rw [map_nodePage hash h32, ih (by rwa [hlen])]
    show Except.ok _ = _
    rw [length_cons, treePages_succ, layout_append, Scheme.length_pages, Scheme.tower_parents,
      ho, zero_mul]
    rfl

omit ha hpow

def payloadPages (a : ℕ) (payload : Bytes) : List Bytes :=
  (List.range (ceilDiv payload.length a)).map (blockPage a payload)

/-- Every page of an extent, in the order in which it lies on the medium. -/
def extentPages (a : ℕ) (payload : Bytes) (levels : ℕ) : List Bytes :=
  payloadPages a payload ++ treePages s ((payloadPages a payload).map s.hash) levels

@[simp] theorem length_payloadPages (payload : Bytes) :
    (payloadPages a payload).length = ceilDiv payload.length a := by
  simp [payloadPages]

theorem payloadPages_getElem? {payload : Bytes} {block : ℕ} (h : block < ceilDiv payload.length a) :
    (payloadPages a payload)[block]? = some (blockPage a payload block) := by
  simp [payloadPages, h]

include ha hpow

/-- **The pages of a planned extent lie one behind the other from its start**, and its root
is the digest on top of the tree. -/
theorem extentWrites_spec (h32 : 32 ≤ a) {start padded : UInt64} (root : Digest) {payload : Bytes}
    (hp : padded.toNat = ceilDiv payload.length a * a)
    (hl : payload.length ≠ 0 → Levels (a / 32) a tree (ceilDiv payload.length a)
      (start.toNat + padded.toNat) stop)
    (h0 : payload.length = 0 → tree = []) :
    extentWrites hash a (.extent start padded tree root) payload =
      .ok (layout a start.toNat (extentPages (treeScheme hash a h32) a payload tree.length),
        .extent start padded tree
          (((treeScheme hash a h32).tower ((payloadPages a payload).map hash) tree.length).headD
            root)) := by
  have hblocks := blockWrites_spec hash ha hpow start.toNat payload (ceilDiv payload.length a) 0
  rw [← range_eq_range', zero_mul] at hblocks
  have hleaves : ((List.range (ceilDiv payload.length a)).map fun block =>
      hash (blockPage a payload block)) = (payloadPages a payload).map hash := by
    rw [payloadPages, map_map]
    rfl
  have htree : treeWrites hash a tree ((payloadPages a payload).map hash) =
      .ok (layout a (start.toNat + padded.toNat)
        (treePages (treeScheme hash a h32) ((payloadPages a payload).map hash) tree.length),
        (treeScheme hash a h32).tower ((payloadPages a payload).map hash) tree.length) := by
    by_cases hz : payload.length = 0
    · rw [h0 hz]
      rfl
    have hlev : Levels (a / 32) a tree ((payloadPages a payload).map hash).length
        (start.toNat + padded.toNat) stop := by
      rw [length_map, length_payloadPages]
      exact hl hz
    exact treeWrites_spec hash ha hpow h32 hlev
  rw [extentWrites, hblocks]
  show (treeWrites hash a tree _ >>= _) = _
  rw [hleaves, htree]
  show Except.ok _ = _
  rw [extentPages, layout_append, length_payloadPages, hp]
  rfl

omit ha hpow

theorem treePages_snoc (levels : ℕ) :
    treePages s leaves (levels + 1) = treePages s leaves levels ++
      s.pages (s.tower leaves levels) := by
  rw [treePages, range_succ, flatMap_append, flatMap_singleton]
  rfl

theorem length_treePages (levels : ℕ) : (treePages s leaves levels).length =
      ∑ k ∈ Finset.range levels, ceilDiv leaves.length (s.fanout ^ (k + 1)) := by
  induction levels with
  | zero => rfl
  | succ levels ih =>
    rw [treePages_snoc, length_append, ih, Finset.sum_range_succ, Scheme.length_pages,
      Scheme.length_tower, ceilDiv_ceilDiv _ (Nat.pow_pos s.fanout_pos) s.fanout_pos, Nat.pow_succ]

/-- Node `j` of level `k` among the pages of the tree. -/
theorem treePages_getElem? {s : Scheme Bytes Digest} {leaves : List Digest} {levels k j : ℕ}
    (hk : k < levels) (hj : (s.pages (s.tower leaves k))[j]? = some page) :
    (treePages s leaves levels)[(∑ i ∈ Finset.range k,
      ceilDiv leaves.length (s.fanout ^ (i + 1))) + j]? = some page := by
  induction levels with
  | zero => omega
  | succ levels ih =>
    rw [treePages_snoc]
    rcases lt_or_ge k levels with h | h
    · have hm := ih h
      rw [List.getElem?_append_left (lt_of_getElem? hm)]
      exact hm
    · obtain rfl : k = levels := by omega
      rw [getElem?_append_right (by rw [length_treePages]; omega), length_treePages,
        Nat.add_sub_cancel_left]
      exact hj

theorem layout_lookup (ha : 0 < a) (start : ℕ) {pages : List Bytes} {i : ℕ}
    (h : pages[i]? = some page) : (layout a start pages).lookup (start + i * a) = some page := by
  induction pages generalizing start i with
  | nil => simp at h
  | cons p pages ih =>
    cases i with
    | zero =>
      rw [getElem?_cons_zero] at h
      rw [layout, zero_mul, add_zero, lookup_cons_self, h]
    | succ i =>
      have hne : (start + (i + 1) * a == start) = false := by
        rw [beq_eq_false_iff_ne, Nat.succ_mul]
        omega
      have hrec := @ih (start + a) i (by simpa using h)
      rw [layout, lookup_cons, hne]
      rw [Nat.add_assoc, Nat.add_comm a, ← Nat.succ_mul] at hrec
      exact hrec

end Pages

/-! ### Proofs over the written pages -/

variable {a block stop : ℕ} {tree : List TreeLevel}

/-- An alignment is a multiple of the digest length. -/
theorem dvd_of_pow (hmin : 512 ≤ a) (hpow : ∃ k, a = 2 ^ k) : 32 ∣ a := by
  obtain ⟨k, rfl⟩ := hpow
  have hk : 5 ≤ k := by
    by_contra hk
    have : 2 ^ k ≤ 2 ^ 4 := Nat.pow_le_pow_right (by decide) (by omega)
    omega
  exact pow_dvd_pow 2 hk

def Location.levels : Location → List TreeLevel
  | .file _ => []
  | .extent _ _ tree _ => tree

/-- Leaf `block` has the root of its tree as its ancestor on the top level. -/
theorem tower_root (s : Scheme Bytes Digest) {leaves : List Digest} {levels : ℕ} (d : Digest)
    (htop : ceilDiv leaves.length (s.fanout ^ levels) = 1) (hb : block < leaves.length) :
    (s.tower leaves levels)[block / s.fanout ^ levels]? =
      some ((s.tower leaves levels).headD d) := by
  have hle : leaves.length ≤ 1 * s.fanout ^ levels :=
    (ceilDiv_le_iff (Nat.pow_pos s.fanout_pos)).mp htop.le
  have hlen : (s.tower leaves levels).length = 1 := by rw [Scheme.length_tower, htop]
  obtain ⟨root, hroot⟩ := length_eq_one_iff.mp hlen
  rw [Nat.div_eq_of_lt (by omega), hroot]
  rfl

variable {payload : Bytes}

/-- The node of level `k` on the path of a block among the pages of its extent. -/
theorem pathPage_getElem? (h32 : 32 ≤ a) {start : ℕ} {level : TreeLevel} {k : ℕ}
    (hl : Levels (a / 32) a tree (ceilDiv payload.length a)
      (start + ceilDiv payload.length a * a) stop)
    (hk : tree[k]? = some level) (hb : block < ceilDiv payload.length a) :
    ∃ i, level.offset.toNat + block / (a / 32) ^ (k + 1) * a = start + i * a ∧
      (extentPages (treeScheme hash a h32) a payload tree.length)[i]? =
        some ((treeScheme hash a h32).pageAt ((payloadPages a payload).map hash) block k) := by
  have hF : 0 < a / 32 := Nat.div_pos h32 (by decide)
  have hlen : ((payloadPages a payload).map hash).length = ceilDiv payload.length a := by
    rw [List.length_map, length_payloadPages]
  have hb' : block < ((payloadPages a payload).map hash).length := by rwa [hlen]
  have hpage := treePages_getElem? (lt_of_getElem? hk)
    ((treeScheme hash a h32).pages_getElem? hb' k)
  rw [hlen] at hpage
  refine ⟨ceilDiv payload.length a + ((∑ j ∈ Finset.range k, ceilDiv (ceilDiv payload.length a)
    ((a / 32) ^ (j + 1))) + block / (a / 32) ^ (k + 1)), ?_, ?_⟩
  · rw [Levels.offset hF hl hk, ← Finset.sum_mul]
    ring
  · rw [extentPages, List.getElem?_append_right
      (by rw [length_payloadPages]; exact Nat.le_add_right _ _),
      length_payloadPages, Nat.add_sub_cancel_left]
    exact hpage

/-- The proof `p` starts at the root of the digest tree over the pages of a payload and asks
for the nodes on the path of `block`, which lie in the extent at `start`. -/
structure Leads (hash : Bytes → Digest) {a : ℕ} (h32 : 32 ≤ a) (start : ℕ) (tree : List TreeLevel)
    (payload : Bytes) (block : ℕ) (p : BlockProof) : Prop where
  first : p.next = 0
  page : p.blockBytes = a
  slots : p.steps.map (·.slot.toNat) = (treeScheme hash a h32).slots block tree.length
  root : ((treeScheme hash a h32).tower ((payloadPages a payload).map hash) tree.length)[
    block / (a / 32) ^ tree.length]? = some p.expected
  inside : ∀ step ∈ p.steps, ∃ level ∈ tree, level.offset.toNat ≤ step.offset.toNat ∧
    step.offset.toNat + a ≤ level.offset.toNat + level.nodes.toNat * a
  pages : List.Forall₂ (fun step node => ∃ i, step.offset.toNat = start + i * a ∧
      (extentPages (treeScheme hash a h32) a payload tree.length)[i]? = some node) p.steps
    ((treeScheme hash a h32).pathPages ((payloadPages a payload).map hash) block tree.length)

/-- Every block of a planned extent has a proof that leads to it. -/
theorem leads_of_planned {s : Superblock} (g : s.Geometry)
    (h32 : 32 ≤ s.align.toNat) {c : Commit} {start padded : UInt64}
    {d : Digest} (hn : c.Named s)
    (hp : Planned s start c.metadata.bytes padded tree stop)
    (hlen : payload.length = c.metadata.bytes.toNat)
    (hloc : c.location = .extent start padded tree
      (((treeScheme hash s.align.toNat h32).tower ((payloadPages s.align.toNat payload).map hash)
        tree.length).headD d)) {block : UInt64}
    (hb : block.toNat < ceilDiv payload.length s.align.toNat) :
    ∃ p, BlockProof.new hash c s block = .ok p ∧
      Leads hash h32 start.toNat tree payload block.toNat p := by
  have hF : 0 < s.align.toNat / 32 := Nat.div_pos h32 (by decide)
  have hsize := hp.size
  rw [← hlen] at hsize
  have hbytes : c.metadata.bytes ≠ 0 := by
    intro h0
    rw [hlen, h0, UInt64.toNat_zero, ceilDiv_zero (by omega)] at hb
    omega
  obtain ⟨-, hl⟩ := hp.levels hbytes
  rw [← hlen, hsize] at hl
  have hcount : ((payloadPages s.align.toNat payload).map hash).length =
      ceilDiv payload.length s.align.toNat := by rw [length_map, length_payloadPages]
  obtain ⟨steps, hnew, hslots, hsteps⟩ := BlockProof.new_of_planned hash g hn hp hloc (hlen ▸ hb)
  have hstepsLen : steps.length = tree.length := by simpa using congrArg List.length hslots
  refine ⟨_, hnew, rfl, s.toNat_align.symm, ?_, ?_, ?_, ?_⟩
  · show steps.reverse.map (·.slot.toNat) = _
    rw [map_reverse, hslots, Scheme.slots_eq]
    rfl
  · exact tower_root _ d (by rw [hcount]; exact Levels.top hF hl) (by rwa [hcount])
  · intro step hstep
    obtain ⟨k, hk⟩ := getElem?_of_mem (mem_reverse.mp hstep)
    have hkl : k < tree.length := hstepsLen ▸ (lt_of_getElem? hk)
    obtain ⟨hoff, hnode⟩ := hsteps k step _ hk (getElem?_eq_getElem hkl)
    refine ⟨tree[k], getElem_mem hkl, by omega, ?_⟩
    rw [hoff, Nat.add_assoc, ← Nat.succ_mul]
    exact Nat.add_le_add_left (Nat.mul_le_mul_right _ hnode) _
  · rw [Scheme.pathPages_eq]
    refine forall₂_reverse_iff.mpr (forall₂_iff_get.mpr ⟨by simp [hstepsLen], ?_⟩)
    intro k hks hkp
    have hkl : k < tree.length := hstepsLen ▸ hks
    obtain ⟨hoff, -⟩ := hsteps k _ _ (getElem?_eq_getElem hks) (getElem?_eq_getElem hkl)
    simp only [get_eq_getElem, getElem_map, getElem_range]
    rw [hoff]
    exact pathPage_getElem? hash h32 hl (getElem?_eq_getElem hkl) hb

theorem leaf_eq (h : block < ((payloadPages a payload).map hash).length) :
    ((payloadPages a payload).map hash)[block] = hash (blockPage a payload block) := by
  simp [payloadPages]

/-- **Block-digest tree proofs are complete and sound.**  For an extent planned at `start` and
the pages a put writes into it, every block of the payload has a proof: its steps are nodes
of the commit's own tree levels, the written nodes lead it to the written block, and any page
it accepts after any accepted nodes is that block, unless one of the supplied pages collides
with the written page in its place. -/
theorem block_proofs_complete_and_sound (hash : Bytes → Digest) {s : Superblock}
    {start bytes : UInt64} {payload : Bytes} {planned : Location}
    (hplan : s.extent hash start bytes = .ok planned) (hlen : payload.length = bytes.toNat) :
    ∃ writes location,
      extentWrites hash s.alignment.toNat planned payload = .ok (writes, location) ∧
      ∀ c : Commit, c.location = location → c.metadata.bytes = bytes → c.Named s →
      ∀ block : UInt64, block.toNat < ceilDiv bytes.toNat s.alignment.toNat →
      ∃ p nodes, BlockProof.new hash c s block = .ok p ∧
        (∀ step ∈ p.steps, ∃ level ∈ c.location.levels, level.offset.toNat ≤ step.offset.toNat ∧
          step.offset.toNat + s.alignment.toNat ≤
            level.offset.toNat + level.nodes.toNat * s.alignment.toNat) ∧
        List.Forall₂ (fun step node => writes.lookup step.offset.toNat = some node) p.steps nodes ∧
        writes.lookup (start.toNat + block.toNat * s.alignment.toNat) =
          some (blockPage s.alignment.toNat payload block.toNat) ∧
        (∃ q, p.acceptNodes hash nodes = .ok q ∧ q.nextNode = none ∧
          q.verifyData hash (blockPage s.alignment.toNat payload block.toNat) = .ok ()) ∧
        ∀ supplied q page, p.acceptNodes hash supplied = .ok q →
          q.verifyData hash page = .ok () →
          page = blockPage s.alignment.toNat payload block.toNat ∨
          ∃ x ∈ (supplied ++ [page]).zip
              (nodes ++ [blockPage s.alignment.toNat payload block.toNat]),
            x.1 ≠ x.2 ∧ hash x.1 = hash x.2 := by
  obtain ⟨g, padded, tree, stop, hp, rfl⟩ := Superblock.extent_eq_ok.mp hplan
  have halign := s.toNat_align
  have hmin := g.min
  have h32 : 32 ≤ s.align.toNat := by omega
  have hlevels : payload.length ≠ 0 → Levels (s.align.toNat / 32) s.align.toNat
      tree (ceilDiv payload.length s.align.toNat) (start.toNat + padded.toNat) stop := by
    intro hz
    rw [hlen]
    refine (hp.levels fun hb => hz ?_).2
    rw [hlen, hb]
    rfl
  have hwrites := extentWrites_spec hash hmin g.pow h32 (if bytes == 0 then hash [] else zeroDigest)
    (by rw [hp.size, hlen]) hlevels
    (fun hz => (hp.empty (UInt64.toNat_inj.mp (by rw [← hlen, hz]; rfl))).1)
  refine ⟨_, _, hwrites, ?_⟩
  rintro c hloc rfl hn block hblock
  rw [← hlen] at hblock
  have hi : block.toNat < ((payloadPages s.align.toNat payload).map hash).length := by
    rwa [length_map, length_payloadPages]
  obtain ⟨p, hnew, hleads⟩ := leads_of_planned hash g h32 hn hp hlen hloc hblock
  refine ⟨p, _, hnew, ?_, hleads.pages.imp ?_, ?_, ?_, ?_⟩
  · rw [hloc]
    exact hleads.inside
  · rintro step node ⟨i, hoff, hnode⟩
    rw [hoff]
    exact layout_lookup (by omega) _ hnode
  · refine layout_lookup (by omega) _ ?_
    rw [extentPages, getElem?_append_left (by rwa [length_payloadPages])]
    exact payloadPages_getElem? hblock
  · exact BlockProof.accepts_path hash h32 hi (Nat.mul_div_cancel' (dvd_of_pow hmin g.pow))
      s.align.toNat_lt hleads.first hleads.page hleads.slots hleads.root (leaf_eq hash hi)
      (length_blockPage _ payload block.toNat)
  · intro supplied q page hacc hver
    exact BlockProof.accepted_or_collides hash h32 hi hleads.first hleads.slots hleads.root
      (leaf_eq hash hi) hacc hver

/-- A small volume, and an object of it that is stored at `location`. -/
def sampleVolume : Superblock :=
  { capacity := 4608, alignment := 512, logOffset := 1024, logBytes := 1024, dataOffset := 2048
    role := .singleNodeHome, workspace := "w", bucket := "b" }

def sampleCommit (location : Location) : Commit :=
  { sequence := 1024
    metadata := { object := ⟨"w", "b", "k"⟩, version := ⟨some "e", none⟩, bytes := 3 }
    contentHash := zeroDigest
    location }

theorem block_proofs_sampleVolume : ∃ location p nodes q,
      BlockProof.new (fun _ => zeroDigest) (sampleCommit location) sampleVolume 0 = .ok p ∧
      p.acceptNodes (fun _ => zeroDigest) nodes = .ok q ∧
      q.verifyData (fun _ => zeroDigest) (blockPage 512 [1, 2, 3] 0) = .ok () := by
  have hplan : sampleVolume.extent (fun _ => zeroDigest) 2048 3 =
      .ok (.extent 2048 512 [⟨2560, 1⟩] zeroDigest) := rfl
  obtain ⟨writes, location, -, h⟩ :=
    block_proofs_complete_and_sound (fun _ => zeroDigest) hplan
      (show ([1, 2, 3] : Bytes).length = _ from rfl)
  have hobject : (Object.mk "w" "b" "k").validate = .ok () := by decide
  have hversion : (Version.mk (some "e") none).validate = .ok () := by decide
  have hkey : "k".isEmpty = false := by decide
  have hnamed : (sampleCommit location).Named sampleVolume := ⟨hobject, hversion, rfl, rfl, hkey⟩
  obtain ⟨p, nodes, hp, -, -, -, ⟨q, hq, -, hv⟩, -⟩ :=
    h (sampleCommit location) rfl rfl hnamed 0 (by decide)
  exact ⟨location, p, nodes, q, hp, hq, hv⟩

end Moruna
