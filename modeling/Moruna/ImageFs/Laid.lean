/-
Moruna/ImageFs/Laid.lean

A layer whose pages hold a given node table and given names, and what is read
of it.

`Layer.Holds` speaks of the pages alone: a read of a node's place gives the
encoded node, a read of the names gives a piece of them.  Everything the reader
makes of the layer follows: each node decodes to itself, a name that lies over
several pages is put together again, and the layer is a good one when the names
are valid and those of each directory increase.

* `Holds.node_eq_ok` : **the nodes that are read are those of the table**;
* `holds_of_laid` : pages made of nodes and names hold them.
-/
import Moruna.ImageFs.Volume

namespace Moruna.ImageFs

open List

/-- The name of a node, among the names of its layer. -/
def Node.nameIn (n : Node) (names : Bytes) : Bytes := (names.drop n.nameOffset).take n.nameLen

/-- The names of a directory's children, in the table's order. -/
def Node.childNames (dir : Node) (nodes : List Node) (names : Bytes) : List Bytes :=
  ((nodes.drop dir.first).take dir.count).map (·.nameIn names)

/-- A node with nothing wrong has its name among the names. -/
theorem Node.name_within {n : Node} {index : ℕ} {g : Geometry} (h : n.fault index g = none) :
    n.nameOffset + n.nameLen ≤ g.namesLen := by
  unfold Node.fault at h
  iterate 3 (split at h; · cases h)
  omega

namespace Layer

/-- The pages hold these nodes and these names. -/
structure Holds (layer : Layer) (p : Pages) (nodes : List Node) (names : Bytes) : Prop where
  nodeCount : layer.geometry.nodeCount = nodes.length
  namesLen : layer.geometry.namesLen = names.length
  node : ∀ i (n : Node), nodes[i]? = some n →
    p layer.index (layer.geometry.nodesPage + i * NODE_BYTES / PAGE) (i * NODE_BYTES % PAGE)
      NODE_BYTES = .ok n.encode
  names : ∀ offset len, offset % PAGE + len ≤ PAGE → offset + len ≤ names.length →
    p layer.index (layer.geometry.namesPage + offset / PAGE) (offset % PAGE) len =
      .ok ((names.drop offset).take len)
  sound : ∀ i (n : Node), nodes[i]? = some n → n.Fits ∧ n.fault i layer.geometry = none

variable {layer : Layer} {p : Pages} {nodes : List Node} {names : Bytes}

namespace Holds

variable (h : layer.Holds p nodes names)
include h

variable {i len offset : ℕ} {n : Node}

theorem node_eq (hi : nodes[i]? = some n) : layer.node p i = .ok n := by
  have hlt := lt_of_getElem? hi
  obtain ⟨hfits, hfault⟩ := h.sound i n hi
  unfold Layer.node
  rw [if_neg (by rw [h.nodeCount]; omega)]
  dsimp only
  rw [h.node i n hi]
  dsimp only
  rw [Node.decode_encode hfits hfault]
  rfl

/-- **The nodes that are read are those of the table.** -/
theorem node_eq_ok : layer.node p i = .ok n ↔ nodes[i]? = some n := by
  refine ⟨fun hn => ?_, h.node_eq⟩
  obtain ⟨hlt, -⟩ := decode_of_node hn
  rw [h.nodeCount] at hlt
  have hi := getElem?_eq_getElem hlt
  rw [h.node_eq hi] at hn
  cases hn
  exact hi

/-- A piece of the names: the reads of the pages it lies over, one after
another. -/
theorem namesFrom_eq {fuel : ℕ} (hf : len ≤ fuel) (hlen : offset + len ≤ names.length) :
    layer.namesFrom p fuel offset len = .ok ((names.drop offset).take len) := by
  induction fuel generalizing offset len with
  | zero =>
    obtain rfl := Nat.le_zero.1 hf
    rfl
  | succ fuel ih =>
    unfold Layer.namesFrom
    by_cases hzero : len = 0
    · rw [hzero]
      rfl
    rw [if_neg hzero]
    have hin : offset % PAGE < PAGE := Nat.mod_lt _ (by decide)
    obtain ⟨n, hn⟩ : ∃ n, n = min (PAGE - offset % PAGE) len := ⟨_, rfl⟩
    dsimp only
    rw [← hn, h.names offset n (by omega) (by omega)]
    rw [ih (by omega) (by omega)]
    have hsum : n + (len - n) = len := by omega
    show Except.ok ((names.drop offset).take n ++ (names.drop (offset + n)).take (len - n)) = _
    rw [← drop_drop, ← take_add, hsum]

theorem names_eq (hlen : offset + len ≤ names.length) :
    layer.names p offset len = .ok ((names.drop offset).take len) :=
  h.namesFrom_eq le_rfl hlen

theorem named_eq (hi : nodes[i]? = some n)
    (hvalid : n.nameLen ≠ 0 → validName (n.nameIn names) = true) :
    layer.named p i = .ok (n.nameIn names, i, n) := by
  have hwithin := Node.name_within (h.sound i n hi).2
  rw [h.namesLen] at hwithin
  unfold Layer.named Layer.name
  rw [h.node_eq hi]
  dsimp only
  rw [h.names_eq hwithin]
  dsimp only
  rw [if_neg]
  · rfl
  · rintro ⟨hne, hbad⟩
    rw [show (names.drop n.nameOffset).take n.nameLen = n.nameIn names from rfl, hvalid hne] at hbad
    cases hbad

/-- **A layer that holds valid names, which increase in each directory, is a good
one.** -/
theorem good (hne : nodes ≠ [])
    (hvalid : ∀ n ∈ nodes, n.nameLen ≠ 0 → validName (n.nameIn names) = true)
    (hsorted : ∀ dir ∈ nodes, dir.kind = .directory →
      (dir.childNames nodes names).Pairwise (· < ·)) : layer.Good p := by
  have hnamed (i : ℕ) (n : Node) (hi : nodes[i]? = some n) :=
    h.named_eq hi (hvalid n (mem_of_getElem? hi))
  refine ⟨?_, fun i hi => ?_, fun i dir hdir hk => ?_⟩
  · rw [h.nodeCount]
    exact length_pos_iff.2 hne
  · rw [h.nodeCount] at hi
    exact ⟨_, _, hnamed i _ (getElem?_eq_getElem hi)⟩
  have hmem := h.node_eq_ok.1 hdir
  rw [entries, pairwise_filterMap]
  refine pairwise_iff_getElem.2 fun j k hj hk' hlt a ha b hb => ?_
  rw [length_range'] at hj hk'
  rw [getElem_range', one_mul] at ha hb
  obtain ⟨-, bytes, hbytes⟩ := decode_of_node hdir
  have hlater := Node.children_later hbytes hk (by omega)
  rw [h.nodeCount] at hlater
  have hja := getElem?_eq_getElem (by omega : dir.first + j < nodes.length)
  have hkb := getElem?_eq_getElem (by omega : dir.first + k < nodes.length)
  rw [hnamed _ _ hja] at ha
  rw [hnamed _ _ hkb] at hb
  cases ha
  cases hb
  have hnames := hsorted dir (mem_of_getElem? hmem) hk
  rw [Node.childNames, pairwise_map, pairwise_iff_getElem] at hnames
  have hjk := hnames j k (by rw [length_take, length_drop]; omega)
    (by rw [length_take, length_drop]; omega) hlt
  rwa [getElem_take, getElem_drop, getElem_take, getElem_drop] at hjk

end Holds

/-! ### Pages made of nodes and names -/

/-- The pages of a node table and the names after it, of which `tablePages` are
the table's. -/
def laidPage (tablePages : ℕ) (nodes : List Node) (names : Bytes) (page offset len : ℕ) :
    Except Error Bytes :=
  if page ≤ tablePages then
    match nodes[((page - 1) * PAGE + offset) / NODE_BYTES]? with
    | none => .error .badRange
    | some n => .ok n.encode
  else .ok ((names.drop ((page - (1 + tablePages)) * PAGE + offset)).take len)

/-- A layer whose pages were so made holds what they were made of. -/
theorem holds_of_laid {tablePages : ℕ} (hcount : layer.geometry.nodeCount = nodes.length)
    (hlen : layer.geometry.namesLen = names.length) (hnodes : layer.geometry.nodesPage = 1)
    (hnames : layer.geometry.namesPage = 1 + tablePages)
    (hroom : nodes.length * NODE_BYTES ≤ tablePages * PAGE)
    (hp : p layer.index = laidPage tablePages nodes names)
    (hsound : ∀ i (n : Node), nodes[i]? = some n → n.Fits ∧ n.fault i layer.geometry = none) :
    layer.Holds p nodes names := by
  refine ⟨hcount, hlen, fun i n hi => ?_, fun offset len hin _ => ?_, hsound⟩
  · have hlt := lt_of_getElem? hi
    have hdiv : (1 + i * NODE_BYTES / PAGE - 1) * PAGE + i * NODE_BYTES % PAGE =
        i * NODE_BYTES := by
      rw [Nat.add_sub_cancel_left, Nat.div_add_mod']
    have hpage : 1 + i * NODE_BYTES / PAGE ≤ tablePages := by
      unfold NODE_BYTES PAGE at *
      omega
    rw [hp, hnodes, laidPage, if_pos hpage, hdiv, Nat.mul_div_cancel _ (by decide), hi]
  · have hdiv : (1 + tablePages + offset / PAGE - (1 + tablePages)) * PAGE + offset % PAGE =
        offset := by
      rw [Nat.add_sub_cancel_left, Nat.div_add_mod']
    have hpast : 1 + tablePages ≤ 1 + tablePages + offset / PAGE := Nat.le_add_right _ _
    rw [hp, hnames, laidPage, if_neg (by omega), hdiv]

end Layer

end Moruna.ImageFs
