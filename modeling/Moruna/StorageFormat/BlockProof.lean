/-
Moruna/StorageFormat/BlockProof.lean

Digest-tree nodes, leaf digests and the streaming proof of one block.

A node page is `treeNode`, and `treeScheme` makes it an instance of the general digest
trees.  `BlockProof` is the verifier of the source: it derives the node offsets from the
committed extent, takes one node page after another and last the data page.

* `acceptNodes_sound`, `acceptNodes_complete` — what a run of `acceptNode` calls accepts is
  what `Scheme.follow` accepts along the slots of the proof;
* `BlockProof.new_of_planned` — on a planned extent the proof of every block exists: its
  divisors do not overflow, and its steps are the path of the block.
-/
import Moruna.StorageFormat.Extent

namespace Moruna

open List

/-! ### Pages and digests -/

/-- Zero bytes behind `acc`, appended in runs of at most 4096 as the hasher is fed. -/
def padZeros (left : ℕ) (acc : Bytes) : Bytes :=
  if left = 0 then acc
  else padZeros (left - min left 4096) (acc ++ List.replicate (min left 4096) 0)
termination_by left

theorem padZeros_eq (left : ℕ) (acc : Bytes) :
    padZeros left acc = acc ++ List.replicate left 0 := by
  induction left using Nat.strong_induction_on generalizing acc with
  | _ left ih =>
    rw [padZeros]
    split
    · rename_i h
      rw [h, replicate_zero, append_nil]
    · rw [ih _ (by omega), append_assoc, replicate_append_replicate]
      congr 2
      omega

variable (hash : Bytes → Digest)

/-- The digest of an object's tail as a full zero-padded block. -/
def leafDigest (bytes : Bytes) (blockBytes : ℕ) : Except Error Digest := do
  rejectIf
    (decide (blockBytes < 512) || !isPowerOfTwo blockBytes || decide (blockBytes < bytes.length))
    .invalid
  .ok (hash (padZeros (blockBytes - bytes.length) bytes))

/-- The page of a node: the digests of its children and zero padding. -/
def nodePage (pageBytes : ℕ) (children : List Digest) : Bytes :=
  children.flatMap (·.val) ++ List.replicate (pageBytes - 32 * children.length) 0

/-- Encode a digest-tree node into a page of `pageBytes` bytes; the page and its digest. -/
def treeNode (pageBytes : ℕ) (children : List Digest) :
    Except Error (Bytes × Digest) := do
  rejectIf
    (decide (pageBytes < 512) || !isPowerOfTwo pageBytes ||
      decide (pageBytes / 32 < children.length))
    .invalid
  .ok (nodePage pageBytes children, hash (nodePage pageBytes children))

def digestAt (page : Bytes) (start : ℕ) : Option Digest :=
  if h : ((page.drop start).take 32).length = 32 then some ⟨(page.drop start).take 32, h⟩ else none

theorem length_flatMap_digests (ds : List Digest) :
    (ds.flatMap (·.val)).length = 32 * ds.length := by
  induction ds with
  | nil => rfl
  | cons d ds ih =>
    rw [flatMap_cons, length_append, length_cons]
    omega

@[simp] theorem length_nodePage {pageBytes : ℕ} {children : List Digest}
    (h : 32 * children.length ≤ pageBytes) : (nodePage pageBytes children).length = pageBytes := by
  rw [nodePage, length_append, length_flatMap_digests, length_replicate]
  omega

theorem digestAt_flatMap (ds : List Digest) (rest : Bytes) {i : ℕ} (h : i < ds.length) :
    digestAt (ds.flatMap (·.val) ++ rest) (i * 32) = some ds[i] := by
  induction ds generalizing i with
  | nil => cases h
  | cons d ds ih =>
    cases i with
    | zero =>
      have hd : ((d.val ++ (ds.flatMap (·.val) ++ rest)).drop 0).take 32 = d.val :=
        take_left' d.property
      simp only [digestAt, flatMap_cons, append_assoc, zero_mul]
      rw [dif_pos (by rw [hd, d.property])]
      exact congrArg some (Subtype.ext hd)
    | succ i =>
      have hdrop : (d.val ++ (ds.flatMap (·.val) ++ rest)).drop ((i + 1) * 32) =
          (ds.flatMap (·.val) ++ rest).drop (i * 32) := by
        rw [show (i + 1) * 32 = d.val.length + i * 32 by rw [d.property]; ring,
          drop_length_add_append]
      have := ih (i := i) (by simpa using h)
      simpa only [digestAt, flatMap_cons, append_assoc, hdrop, getElem_cons_succ]
        using this

/-- Digest trees with pages of `pageBytes` bytes. -/
def treeScheme (pageBytes : ℕ) (h : 32 ≤ pageBytes) : Scheme Bytes Digest where
  fanout := pageBytes / 32
  fanout_pos := Nat.div_pos h (by decide)
  page := nodePage pageBytes
  hash := hash
  slot := fun page i => (digestAt page (i * 32)).getD zeroDigest
  slot_page := fun ds i hi _ => by rw [nodePage, digestAt_flatMap ds _ hi, Option.getD_some]

/-! ### The streaming proof -/

/-- One metadata page needed to verify a raw block, root first. -/
structure ProofStep where
  offset : UInt64
  slot : UInt64
  deriving DecidableEq

/-- Streaming proof state.  Each accepted metadata node narrows the committed root to the
data block's digest. -/
structure BlockProof where
  steps : List ProofStep
  next : ℕ
  expected : Digest
  blockBytes : ℕ
  deriving DecidableEq

/-- The loop over the tree that collects the powers of the fanout. -/
def divisors (fanout : UInt64) : List TreeLevel → UInt64 → Except Error (List UInt64)
  | [], _ => .ok []
  | _ :: rest, divisor => do
    let next ← okOr (checkedMul divisor fanout) .limit
    let ds ← divisors fanout rest next
    .ok (divisor :: ds)

/-- The step of a block through one level. -/
def proofStep (align block : UInt64) (level : TreeLevel) (divisor : UInt64) :
    Except Error ProofStep := do
  let fanout := align / 32
  let child := block / divisor
  let node := child / fanout
  rejectIf (decide (level.nodes ≤ node)) .invalid
  let offset ← okOr ((checkedMul node align).bind (checkedAdd level.offset)) .limit
  .ok { offset, slot := child % fanout }

/-- The steps through some levels, one after the other. -/
def proofSteps (align block : UInt64) : List (TreeLevel × UInt64) → Except Error (List ProofStep)
  | [] => .ok []
  | (level, divisor) :: rest => do
    let step ← proofStep align block level divisor
    let steps ← proofSteps align block rest
    .ok (step :: steps)

namespace BlockProof

/-- Derive bounded metadata offsets from the committed extent and common geometry. -/
def new (commit : Commit) (volume : Superblock) (block : UInt64) :
    Except Error BlockProof := do
  commit.validateIn hash volume
  let align := volume.align
  rejectIf (decide (divCeil commit.metadata.bytes align ≤ block)) .invalid
  match commit.location with
  | .file _ => .error .invalid
  | .extent _ _ tree root => do
    let ds ← divisors (align / 32) tree 1
    -- the levels are walked from the root down
    let steps ← proofSteps align block (tree.zip ds).reverse
    .ok { steps, next := 0, expected := root, blockBytes := volume.alignment.toNat }

/-- Remaining exact node request, or none when the data block may be checked. -/
def nextNode (p : BlockProof) : Option ProofStep := p.steps[p.next]?

/-- Verify the next complete node against the currently committed digest. -/
def acceptNode (p : BlockProof) (node : Bytes) : Except Error BlockProof := do
  let step ← okOr p.nextNode .invalid
  rejectIf (node.length != p.blockBytes || hash node != p.expected) .integrity
  let start ← okOr (checkedMul step.slot 32) .limit
  let expected ← okOr (digestAt node start.toNat) .invalid
  .ok { p with expected, next := p.next + 1 }

def verifyData (p : BlockProof) (bytes : Bytes) : Except Error Unit := do
  rejectIf (p.next != p.steps.length || bytes.length != p.blockBytes) .invalid
  rejectIf (hash bytes != p.expected) .integrity

/-- A run of `acceptNode` calls, all of which succeed. -/
def acceptNodes (hash : Bytes → Digest) : BlockProof → List Bytes → Except Error BlockProof
  | p, [] => .ok p
  | p, node :: nodes => do
    let p ← p.acceptNode hash node
    p.acceptNodes hash nodes

/-! ### What a run accepts -/

variable (hash : Bytes → Digest)
variable {p : BlockProof} {tree : List TreeLevel}
variable {q : BlockProof} {nodes : List Bytes} {block padded start : UInt64} {level : TreeLevel}
variable {stop : ℕ} {s : Superblock}

theorem acceptNode_eq_ok {node : Bytes} :
    p.acceptNode hash node = .ok q ↔ ∃ step d, p.nextNode = some step ∧
      node.length = p.blockBytes ∧ hash node = p.expected ∧ step.slot.toNat * 32 < 2 ^ 64 ∧
      digestAt node (step.slot.toNat * 32) = some d ∧
      q = { p with expected := d, next := p.next + 1 } := by
  simp only [acceptNode, seq_eq_ok, okOr_eq_ok, rejectIf_test, Bool.or_eq_false_iff,
    bne_eq_false_iff_eq, checkedMul_eq_some, Except.ok.injEq]
  constructor
  · rintro ⟨step, hs, ⟨⟩, ⟨hlen, hh⟩, start, hstart, d, hd, rfl⟩
    have hlt := start.toNat_lt
    rw [hstart] at hd hlt
    exact ⟨step, d, hs, hlen, hh, hlt, hd, rfl⟩
  · rintro ⟨step, d, hs, hlen, hh, hlt, hd, rfl⟩
    have hstart : (step.slot * 32).toNat = step.slot.toNat * 32 := Nat.mod_eq_of_lt hlt
    exact ⟨step, hs, (), ⟨hlen, hh⟩, step.slot * 32, hstart, d, by rwa [hstart], rfl⟩

theorem drop_next {step : ProofStep} (h : p.nextNode = some step) :
    p.steps.drop p.next = step :: p.steps.drop (p.next + 1) := by
  obtain ⟨hlt, rfl⟩ := List.getElem?_eq_some_iff.mp h
  exact List.drop_eq_getElem_cons hlt

variable {pageBytes : ℕ} (hp : 32 ≤ pageBytes)

/-- Node pages that were accepted are full pages and lead along the slots of the proof. -/
theorem acceptNodes_sound (h : p.acceptNodes hash nodes = .ok q) :
    q.steps = p.steps ∧ q.next = p.next + nodes.length ∧
      (treeScheme hash pageBytes hp).follow p.expected
        (nodes.zip ((p.steps.drop p.next).map (·.slot.toNat))) = some q.expected := by
  induction nodes generalizing p with
  | nil =>
    cases h
    exact ⟨rfl, rfl, rfl⟩
  | cons node nodes ih =>
    obtain ⟨p', h1, h2⟩ := seq_eq_ok.mp h
    obtain ⟨step, d, hs, hlen, hh, -, hd, rfl⟩ := (acceptNode_eq_ok hash).mp h1
    obtain ⟨hsteps, hnext, hfollow⟩ := ih h2
    refine ⟨hsteps, ?_, ?_⟩
    · rw [hnext, length_cons, Nat.add_assoc, Nat.add_comm 1]
    have hslot : (treeScheme hash pageBytes hp).slot node step.slot.toNat = d := by
      show (digestAt node (step.slot.toNat * 32)).getD zeroDigest = d
      rw [hd, Option.getD_some]
    rw [drop_next hs, map_cons, zip_cons_cons, Scheme.follow,
      if_pos (show (treeScheme hash pageBytes hp).hash node = p.expected from hh), hslot]
    exact hfollow

/-- Full pages that lead along the slots of the proof are accepted. -/
theorem acceptNodes_complete {e : Digest}
    (hslots : ∀ step ∈ p.steps, step.slot.toNat < p.blockBytes / 32)
    (hbytes : p.blockBytes < 2 ^ 64) (hlen : nodes.length ≤ (p.steps.drop p.next).length)
    (hfull : ∀ node ∈ nodes, node.length = p.blockBytes)
    (hf : (treeScheme hash pageBytes hp).follow p.expected
      (nodes.zip ((p.steps.drop p.next).map (·.slot.toNat))) = some e) :
    p.acceptNodes hash nodes = .ok { p with expected := e, next := p.next + nodes.length } := by
  induction nodes generalizing p with
  | nil =>
    cases hf
    rfl
  | cons node nodes ih =>
    have hnext : p.next < p.steps.length := by
      rw [length_cons, length_drop] at hlen
      omega
    have hs : p.nextNode = some p.steps[p.next] := getElem?_eq_getElem hnext
    have hslot := hslots _ (getElem_mem hnext)
    have hnode : node.length = p.blockBytes := hfull _ mem_cons_self
    have hroom : ((node.drop (p.steps[p.next].slot.toNat * 32)).take 32).length = 32 := by
      refine length_field ?_
      omega
    have hd : digestAt node (p.steps[p.next].slot.toNat * 32) =
        some ⟨(node.drop (p.steps[p.next].slot.toNat * 32)).take 32, hroom⟩ := dif_pos hroom
    rw [drop_next hs, map_cons, zip_cons_cons, Scheme.follow] at hf
    split at hf
    · rename_i hh
      have h1 := (acceptNode_eq_ok hash).mpr
        ⟨_, _, hs, hnode, hh, by omega, hd, rfl⟩
      rw [acceptNodes, h1]
      show acceptNodes hash _ nodes = _
      rw [ih]
      · show Except.ok _ = _
        simp only [length_cons, add_assoc, add_comm 1]
      · exact hslots
      · exact hbytes
      · show nodes.length ≤ (p.steps.drop (p.next + 1)).length
        rw [length_drop]
        rw [length_cons, length_drop] at hlen
        omega
      · exact fun n hn => hfull n (mem_cons_of_mem _ hn)
      · have hpick : (treeScheme hash pageBytes hp).slot node p.steps[p.next].slot.toNat =
            ⟨(node.drop (p.steps[p.next].slot.toNat * 32)).take 32, hroom⟩ := by
          show (digestAt node (p.steps[p.next].slot.toNat * 32)).getD zeroDigest = _
          rw [hd, Option.getD_some]
        rw [hpick] at hf
        exact hf
    · cases hf

theorem verifyData_eq_ok {bytes : Bytes} : p.verifyData hash bytes = .ok () ↔
      p.next = p.steps.length ∧ bytes.length = p.blockBytes ∧ hash bytes = p.expected := by
  simp only [verifyData, bind_unit_eq_ok, rejectIf_test, Bool.or_eq_false_iff,
    bne_eq_false_iff_eq, and_assoc]

section Path

variable {leaves : List Digest} {i levels : ℕ} {p : BlockProof} {page : Bytes}

/-- The stored nodes lead a proof along the slots of leaf `i` to the leaf's page. -/
theorem accepts_path (hi : i < leaves.length) (hsize : 32 * (pageBytes / 32) = pageBytes)
    (hlt : pageBytes < 2 ^ 64) (hnext : p.next = 0) (hbytes : p.blockBytes = pageBytes)
    (hslots : p.steps.map (·.slot.toNat) = (treeScheme hash pageBytes hp).slots i levels)
    (hroot : ((treeScheme hash pageBytes hp).tower leaves levels)[i / (pageBytes / 32) ^ levels]? =
      some p.expected)
    (hleaf : leaves[i] = hash page) (hpage : page.length = pageBytes) :
    ∃ q, p.acceptNodes hash ((treeScheme hash pageBytes hp).pathPages leaves i levels) = .ok q ∧
      q.nextNode = none ∧ q.verifyData hash page = .ok () := by
  have hlen : p.steps.length = levels := by simpa using congrArg List.length hslots
  have hdrop : p.steps.drop p.next = p.steps := by rw [hnext, drop_zero]
  have hacc : p.acceptNodes hash ((treeScheme hash pageBytes hp).pathPages leaves i levels) =
      .ok { p with
        expected := leaves[i]
        next := p.next + ((treeScheme hash pageBytes hp).pathPages leaves i levels).length } :=
    acceptNodes_complete hash hp
    (by
      intro step hstep
      have hmem : step.slot.toNat ∈ p.steps.map (·.slot.toNat) :=
        mem_map_of_mem hstep
      rw [hslots, Scheme.slots_eq, mem_reverse] at hmem
      obtain ⟨k, -, hk⟩ := mem_map.mp hmem
      rw [← hk, hbytes]
      exact Nat.mod_lt _ (Nat.div_pos hp (by decide)))
    (by rw [hbytes]; exact hlt)
    (by rw [hdrop, Scheme.length_pathPages, hlen])
    (by
      intro node hnode
      rw [Scheme.pathPages_eq, mem_reverse] at hnode
      obtain ⟨k, -, rfl⟩ := mem_map.mp hnode
      rw [hbytes]
      refine length_nodePage ?_
      rw [length_take]
      have : (treeScheme hash pageBytes hp).fanout = pageBytes / 32 := rfl
      omega)
    (by
      rw [hdrop, hslots]
      exact Scheme.follow_path _ hi levels hroot)
  refine ⟨_, hacc, ?_, ?_⟩
  · refine getElem?_eq_none ?_
    show p.steps.length ≤ p.next + _
    rw [Scheme.length_pathPages, hnext, hlen, Nat.zero_add]
  · rw [verifyData_eq_ok]
    refine ⟨?_, hpage.trans hbytes.symm, hleaf.symm⟩
    show p.next + _ = p.steps.length
    rw [Scheme.length_pathPages, hnext, hlen, Nat.zero_add]

/-- A page such a proof accepts is the leaf's page, or some supplied page collides with the
stored page in its place. -/
theorem accepted_or_collides (hi : i < leaves.length) (hnext : p.next = 0)
    (hslots : p.steps.map (·.slot.toNat) = (treeScheme hash pageBytes hp).slots i levels)
    (hroot : ((treeScheme hash pageBytes hp).tower leaves levels)[i / (pageBytes / 32) ^ levels]? =
      some p.expected)
    (hleaf : leaves[i] = hash page) {supplied : List Bytes} {q : BlockProof} {data : Bytes}
    (hacc : p.acceptNodes hash supplied = .ok q) (hver : q.verifyData hash data = .ok ()) :
    data = page ∨ ∃ x ∈ (supplied ++ [data]).zip
        ((treeScheme hash pageBytes hp).pathPages leaves i levels ++ [page]),
      x.1 ≠ x.2 ∧ hash x.1 = hash x.2 := by
  have hlen : p.steps.length = levels := by simpa using congrArg List.length hslots
  obtain ⟨hsteps, hq, hfollow⟩ := acceptNodes_sound hash hp hacc
  obtain ⟨hdone, -, hdata⟩ := (verifyData_eq_ok hash).mp hver
  have hsup : supplied.length = levels := by
    rw [hsteps] at hdone
    omega
  rw [hnext, drop_zero, hslots] at hfollow
  rw [zip_append (by rw [hsup, Scheme.length_pathPages])]
  rcases Scheme.follow_sound _ hi levels hroot hsup hfollow with he | ⟨x, hx, hne, hcol⟩
  · -- case: the nodes led to the digest of the leaf
    by_cases heq : data = page
    · exact .inl heq
    · exact .inr ⟨(data, page), mem_append_right _ mem_cons_self, heq, hdata.trans (he.trans hleaf)⟩
  · exact .inr ⟨x, mem_append_left _ hx, hne, hcol⟩

end Path

/-! ### The proof of a block of a planned extent -/

/-- The divisors are the powers of the fanout, as long as they fit. -/
theorem divisors_spec {fanout : UInt64} (hF : 0 < fanout.toNat) (tree : List TreeLevel) (d : UInt64)
    (h : d.toNat * fanout.toNat ^ tree.length < 2 ^ 64) :
    ∃ ds, divisors fanout tree d = .ok ds ∧
      ds.map (·.toNat) = (List.range tree.length).map fun k => d.toNat * fanout.toNat ^ k := by
  induction tree generalizing d with
  | nil => exact ⟨[], rfl, rfl⟩
  | cons level rest ih =>
    rw [length_cons, pow_succ', ← mul_assoc] at h
    have hd : (d * fanout).toNat = d.toNat * fanout.toNat :=
      Nat.mod_eq_of_lt ((Nat.le_mul_of_pos_right _ (Nat.pow_pos hF)).trans_lt h)
    obtain ⟨ds, hds, hmap⟩ := ih (d * fanout) (by rwa [hd])
    refine ⟨d :: ds, ?_, ?_⟩
    · exact seq_eq_ok.mpr ⟨_, okOr_eq_ok.mpr (checkedMul_eq_some.mpr hd),
        seq_eq_ok.mpr ⟨_, hds, rfl⟩⟩
    rw [map_cons, hmap, length_cons, range_succ_eq_map, map_cons, map_map]
    congr 1
    · simp
    · refine map_congr_left fun k _ => ?_
      simp only [Function.comp_apply, hd, pow_succ', mul_assoc]

theorem proofSteps_of {align : UInt64} {f : TreeLevel × UInt64 → ProofStep}
    {l : List (TreeLevel × UInt64)} (h : ∀ x ∈ l, proofStep align block x.1 x.2 = .ok (f x)) :
    proofSteps align block l = .ok (l.map f) := by
  induction l with
  | nil => rfl
  | cons x l ih =>
    exact seq_eq_ok.mpr ⟨_, h _ mem_cons_self,
      seq_eq_ok.mpr ⟨_, ih fun x hx => h x (mem_cons_of_mem _ hx), rfl⟩⟩

/-- The step of a block through a level with that divisor, by machine arithmetic. -/
def stepOf (align block : UInt64) (x : TreeLevel × UInt64) : ProofStep :=
  { offset := x.1.offset + block / x.2 / (align / 32) * align, slot := block / x.2 % (align / 32) }

/-- A step stays inside its level. -/
theorem proofStep_of (align block : UInt64) (divisor : UInt64)
    (hnode : block.toNat / divisor.toNat / (align.toNat / 32) < level.nodes.toNat)
    (hstop : level.offset.toNat + level.nodes.toNat * align.toNat ≤ stop) (hlt : stop < 2 ^ 64) :
    proofStep align block level divisor = .ok (stepOf align block (level, divisor)) ∧
      (stepOf align block (level, divisor)).offset.toNat =
        level.offset.toNat + block.toNat / divisor.toNat / (align.toNat / 32) * align.toNat := by
  have hn : (block / divisor / (align / 32)).toNat =
      block.toNat / divisor.toNat / (align.toNat / 32) := by
    rw [UInt64.toNat_div, UInt64.toNat_div, toNat_fanout]
  have hle : block.toNat / divisor.toNat / (align.toNat / 32) * align.toNat ≤
      level.nodes.toNat * align.toNat := Nat.mul_le_mul_right _ hnode.le
  have hoff : (stepOf align block (level, divisor)).offset.toNat =
      level.offset.toNat + block.toNat / divisor.toNat / (align.toNat / 32) * align.toNat := by
    show (level.offset + block / divisor / (align / 32) * align).toNat = _
    rw [UInt64.toNat_add, UInt64.toNat_mul, hn, Nat.mod_eq_of_lt (a := _ * _) (by omega),
      Nat.mod_eq_of_lt (by omega)]
  refine ⟨?_, hoff⟩
  rw [proofStep, pass_bind (decide_eq_false (by rw [UInt64.le_iff_toNat_le]; omega)),
    show okOr ((checkedMul (block / divisor / (align / 32)) align).bind (checkedAdd level.offset))
      .limit = .ok (stepOf align block (level, divisor)).offset by
        rw [okOr_eq_ok, bind_checked_eq_some, hoff, hn]]
  rfl

/-- The divisors of a planned tree fit in 64 bits. -/
theorem pow_lt_of_planned {bytes : UInt64} (g : s.Geometry)
    (hp : Planned s start bytes padded tree stop) (hb : bytes ≠ 0) :
    (s.align.toNat / 32) ^ tree.length < 2 ^ 64 := by
  obtain ⟨hne, hl⟩ := hp.levels hb
  obtain ⟨level, rest, rfl⟩ := exists_cons_of_ne_nil hne
  have ha := g.min
  have hcap := s.capacity.toNat_lt
  have halign := s.alignment.toNat_lt
  have hle := hp.le.trans hp.capacity
  have hpos : 0 < ceilDiv bytes.toNat s.align.toNat :=
    ceilDiv_pos (by omega) (pos_of_ne_zero fun h => hb (UInt64.toNat_inj.mp h))
  rcases Levels.pow_lt (by omega) hl hpos with rfl | hlt
  · -- case: one level, and the fanout is less than the alignment
    rw [length_singleton, pow_one, s.toNat_align]
    omega
  -- case: the powers below the top are outnumbered by the blocks of the extent
  rw [pow_succ]
  calc (s.align.toNat / 32) ^ rest.length * (s.align.toNat / 32)
      ≤ ceilDiv bytes.toNat s.align.toNat * s.align.toNat :=
        Nat.mul_le_mul hlt.le (Nat.div_le_self _ _)
    _ ≤ s.capacity.toNat := by rw [← hp.size]; omega
    _ < 2 ^ 64 := hcap

/-- A level of a planned tree ends inside the extent. -/
theorem level_le_stop {fanout align : ℕ} {count cursor : ℕ}
    (h : Levels fanout align tree count cursor stop) (hk : level ∈ tree) :
    level.offset.toNat + level.nodes.toNat * align ≤ stop := by
  induction tree generalizing count cursor with
  | nil => cases hk
  | cons l rest ih =>
    obtain ⟨hn, ho, -, hrest⟩ := h
    rcases mem_cons.mp hk with rfl | hk
    · rw [ho, hn]
      exact Levels.le_stop hrest
    · exact ih hrest hk

/-- **The proof of every block exists**: it starts from the committed root, and its steps are
the nodes and slots on the path of the block, root first. -/
theorem new_of_planned {c : Commit} {root : Digest} (g : s.Geometry) (hn : c.Named s)
    (hp : Planned s start c.metadata.bytes padded tree stop)
    (hloc : c.location = .extent start padded tree root)
    (hb : block.toNat < ceilDiv c.metadata.bytes.toNat s.align.toNat) :
    ∃ steps : List ProofStep,
      new hash c s block = .ok ⟨steps.reverse, 0, root, s.alignment.toNat⟩ ∧
      steps.map (·.slot.toNat) = (List.range tree.length).map (fun k =>
        block.toNat / (s.align.toNat / 32) ^ k % (s.align.toNat / 32)) ∧
      ∀ k (step : ProofStep) (level : TreeLevel), steps[k]? = some step → tree[k]? = some level →
        step.offset.toNat = level.offset.toNat +
          block.toNat / (s.align.toNat / 32) ^ (k + 1) * s.align.toNat ∧
        block.toNat / (s.align.toNat / 32) ^ (k + 1) < level.nodes.toNat := by
  have ha : 0 < s.align.toNat := by have := g.min; omega
  have hF : 0 < s.align.toNat / 32 := by have := g.fanout_le; omega
  have hbytes : c.metadata.bytes ≠ 0 := by
    intro h0
    rw [h0, UInt64.toNat_zero, ceilDiv_zero ha] at hb
    omega
  obtain ⟨-, hl⟩ := hp.levels hbytes
  have hF' : 0 < (s.align / 32).toNat := by rwa [toNat_fanout]
  obtain ⟨ds, hds, hmap⟩ := divisors_spec hF' tree 1
    (by rw [UInt64.toNat_one, one_mul]; exact pow_lt_of_planned g hp hbytes)
  rw [toNat_fanout] at hmap
  have hlen : ds.length = tree.length := by simpa using congrArg List.length hmap
  have hdiv : ∀ k (d : UInt64), ds[k]? = some d → d.toNat = (s.align.toNat / 32) ^ k := by
    intro k d hd
    have hk := congrArg (fun l => l[k]?) hmap
    simp only [List.getElem?_map, hd, Option.map_some, UInt64.toNat_one, one_mul] at hk
    obtain ⟨j, hj, hdj⟩ := Option.map_eq_some_iff.mp hk.symm
    obtain ⟨hlt, rfl⟩ := List.getElem?_eq_some_iff.mp hj
    rw [← hdj, getElem_range]
  -- one level of the zipped list
  have hzip : ∀ (k : ℕ) (x : TreeLevel × UInt64), (tree.zip ds)[k]? = some x →
      proofStep s.align block x.1 x.2 = .ok (stepOf s.align block x) ∧
        (stepOf s.align block x).offset.toNat = x.1.offset.toNat +
          block.toNat / (s.align.toNat / 32) ^ (k + 1) * s.align.toNat ∧
        block.toNat / (s.align.toNat / 32) ^ (k + 1) < x.1.nodes.toNat ∧
        (stepOf s.align block x).slot.toNat =
          block.toNat / (s.align.toNat / 32) ^ k % (s.align.toNat / 32) := by
    rintro k ⟨level, d⟩ hx
    obtain ⟨hlevel, hd⟩ := getElem?_zip_eq_some.mp hx
    have hdk := hdiv k d hd
    have hnodes := Levels.nodes hF hl hlevel
    have hnode : block.toNat / (s.align.toNat / 32) ^ (k + 1) < level.nodes.toNat := by
      rw [hnodes, lt_ceilDiv_iff (Nat.pow_pos hF)]
      exact (Nat.div_mul_le_self _ _).trans_lt hb
    have hquot : block.toNat / d.toNat / (s.align.toNat / 32) =
        block.toNat / (s.align.toNat / 32) ^ (k + 1) := by
      rw [hdk, Nat.div_div_eq_div_mul, Nat.pow_succ]
    obtain ⟨hstep, hoff⟩ := proofStep_of s.align block d
      (by rwa [hquot]) (level_le_stop hl (mem_of_getElem? hlevel))
      (hp.capacity.trans_lt s.capacity.toNat_lt)
    rw [hquot] at hoff
    refine ⟨hstep, hoff, hnode, ?_⟩
    show (block / d % (s.align / 32)).toNat = _
    rw [UInt64.toNat_mod, UInt64.toNat_div, toNat_fanout, hdk]
  have hstepsOk : proofSteps s.align block (tree.zip ds).reverse =
      .ok ((tree.zip ds).reverse.map (stepOf s.align block)) := by
    refine proofSteps_of fun x hx => ?_
    obtain ⟨k, hk⟩ := getElem?_of_mem (mem_reverse.mp hx)
    exact (hzip k x hk).1
  refine ⟨(tree.zip ds).map (stepOf s.align block), ?_, ?_, ?_⟩
  · unfold new
    rw [(Commit.validateIn_iff_planned hloc).mpr ⟨g, hn, ⟨_, hp⟩, fun h => absurd h hbytes⟩, hloc]
    show (rejectIf _ _ >>= _) = _
    rw [pass_bind (decide_eq_false (by rw [UInt64.le_iff_toNat_le, toNat_divCeil_eq ha]; omega))]
    rw [← map_reverse]
    exact seq_eq_ok.mpr ⟨_, hds, seq_eq_ok.mpr ⟨_, hstepsOk, rfl⟩⟩
  · refine ext_getElem? fun k => ?_
    rw [map_map, getElem?_map, getElem?_map]
    rcases hx : (tree.zip ds)[k]? with - | x
    · rw [List.getElem?_eq_none_iff, List.length_zip, hlen] at hx
      rw [List.getElem?_eq_none (by simpa using hx)]
      rfl
    · obtain ⟨hk, -⟩ := List.getElem?_eq_some_iff.mp hx
      rw [length_zip, hlen, min_self] at hk
      rw [getElem?_range hk]
      exact congrArg some (hzip k x hx).2.2.2
  · intro k step level hstep hlevel
    rw [getElem?_map] at hstep
    obtain ⟨x, hx, rfl⟩ := Option.map_eq_some_iff.mp hstep
    obtain ⟨h1, -⟩ := getElem?_zip_eq_some.mp hx
    obtain rfl := Option.some.inj (hlevel.symm.trans h1)
    exact ⟨(hzip k x hx).2.1, (hzip k x hx).2.2.1⟩

end BlockProof

end Moruna
