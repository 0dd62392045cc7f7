/-
Moruna/ImageFs/Tree.lean

The hash tree of a layer file: where its pages are, and what they hold.

The layout knows the levels of the tree only as first pages and counts; `Levels`
says what such a list is: each level has a page for every `FANOUT` pages below
it, starts where the one below ends, and the last is one page.  The writer builds
the levels one after another from the hashes of the content (`treeOf`).

* `Geometry.new_spec` : **every layout has at most `LEVELS_MAX` levels**, and they
  are `Levels` over its content;
* `treeOf_spec` : **what is stored for a page in its parent is its hash**.
-/
import Moruna.ImageFs.Format
import Moruna.Lib.Merkle
import Moruna.Lib.Slices

namespace Moruna.ImageFs

open List

/-! ### Levels -/

/-- The levels over `covered` pages, the first of them at page `pos`. -/
inductive Levels : (covered pos : ℕ) → List (ℕ × ℕ) → Prop
  | top {covered pos : ℕ} (one : ceilDiv covered FANOUT = 1) : Levels covered pos [(pos, 1)]
  | level {covered pos count : ℕ} {above : List (ℕ × ℕ)} (some : ceilDiv covered FANOUT = count)
      (many : count ≠ 1) (rest : Levels count (pos + count) above) :
      Levels covered pos ((pos, count) :: above)

def levelPages (level : List (ℕ × ℕ)) : ℕ := (level.map Prod.snd).sum

theorem levelPages_cons (first count : ℕ) (above : List (ℕ × ℕ)) :
    levelPages ((first, count) :: above) = count + levelPages above := sum_cons

theorem treeLevels_levels {room covered pos : ℕ} {level : List (ℕ × ℕ)}
    (h : treeLevels room covered pos = some level) :
    Levels covered pos level ∧ level.length ≤ room := by
  induction room generalizing covered pos level with
  | zero => cases h
  | succ room ih =>
    unfold treeLevels at h
    dsimp only at h
    split at h
    next hone =>
      cases h
      rw [hone]
      exact ⟨.top hone, Nat.le_add_left 1 room⟩
    rename_i hmany
    obtain ⟨above, habove, rfl⟩ := Option.map_eq_some_iff.1 h
    obtain ⟨hlevels, hlen⟩ := ih habove
    exact ⟨.level rfl hmany hlevels, Nat.succ_le_succ hlen⟩

/-- Enough room for the levels over `covered` pages. -/
theorem treeLevels_isSome {room covered : ℕ} (hpos : 0 < covered)
    (hroom : covered ≤ FANOUT ^ (room + 1)) (pos : ℕ) :
    ∃ level, treeLevels (room + 1) covered pos = some level := by
  induction room generalizing covered pos with
  | zero =>
    rw [pow_one] at hroom
    have hone : ceilDiv covered FANOUT = 1 := by
      have hle := (ceilDiv_le_iff (by decide : 0 < FANOUT)).2 (by omega : covered ≤ 1 * FANOUT)
      have := ceilDiv_pos (by decide : 0 < FANOUT) hpos
      omega
    exact ⟨_, by rw [treeLevels]; exact if_pos hone⟩
  | succ room ih =>
    rw [treeLevels]
    split
    · exact ⟨_, rfl⟩
    · have hle : ceilDiv covered FANOUT ≤ FANOUT ^ (room + 1) :=
        (ceilDiv_le_iff (by decide)).2 (by rw [← pow_succ]; exact hroom)
      obtain ⟨level, hlevel⟩ := ih (ceilDiv_pos (by decide) hpos) hle (pos + ceilDiv covered FANOUT)
      exact ⟨_, by rw [hlevel]; rfl⟩

/-- How many levels begin after a page: how far it is from the root. -/
def rankIn (level : List (ℕ × ℕ)) (page : ℕ) : ℕ := level.countP fun l => page < l.1

theorem rankIn_mono {level : List (ℕ × ℕ)} {page t : ℕ} (h : page ≤ t) :
    rankIn level t ≤ rankIn level page :=
  countP_mono_left fun l _ hl => by
    simp only [decide_eq_true_eq] at hl ⊢
    omega

variable {covered pos : ℕ}

theorem Levels.head {level : List (ℕ × ℕ)} (h : Levels covered pos level) :
    ∃ above, level = (pos, ceilDiv covered FANOUT) :: above := by
  cases h with
  | top one => exact ⟨[], by rw [one]⟩
  | level some many rest => exact ⟨_, by rw [some]⟩

/-- Where a page of the tree is checked: the root for the last page, or a slot of
a later page that is nearer to the root. -/
theorem Levels.parentIn {covered pos : ℕ} {level : List (ℕ × ℕ)} (h : Levels covered pos level)
    {page : ℕ} (hlo : pos ≤ page) (hhi : page < pos + levelPages level) :
    (page + 1 = pos + levelPages level ∧ ImageFs.parentIn page level = some .root) ∨
      ∃ t slot, ImageFs.parentIn page level = some (.tree t slot) ∧ page < t ∧
        t < pos + levelPages level ∧ slot < FANOUT ∧ rankIn level t < rankIn level page := by
  induction h with
  | @top covered pos one =>
    obtain rfl : page = pos := by
      simp only [levelPages, map_cons, map_nil, sum_singleton] at hhi
      omega
    exact .inl ⟨rfl, if_pos ⟨le_rfl, Nat.lt_succ_self _⟩⟩
  | @level covered pos count above some many rest ih =>
    rw [levelPages_cons] at hhi ⊢
    obtain ⟨higher, rfl⟩ := rest.head
    have hcons (q : ℕ) (hq : pos ≤ q) : rankIn ((pos, count) :: (pos + count, _) :: higher) q =
        rankIn ((pos + count, ceilDiv count FANOUT) :: higher) q :=
      countP_cons_of_neg (by simpa using hq)
    unfold ImageFs.parentIn
    by_cases hin : page < pos + count
    · -- a page of this level: its hash is in the next one
      rw [if_pos ⟨hlo, hin⟩]
      have hslot : (page - pos) / FANOUT < ceilDiv count FANOUT :=
        (lt_ceilDiv_iff (by decide)).2 (by have := Nat.div_mul_le_self (page - pos) FANOUT; omega)
      have hnext : levelPages ((pos + count, ceilDiv count FANOUT) :: higher) =
          ceilDiv count FANOUT + levelPages higher := levelPages_cons _ _ _
      obtain ⟨t, ht⟩ : ∃ t, t = pos + count + (page - pos) / FANOUT := ⟨_, rfl⟩
      have hnot : pos + count ≤ t := ht ▸ Nat.le_add_right _ _
      have hpage : rankIn ((pos + count, ceilDiv count FANOUT) :: higher) page =
          rankIn higher page + 1 := countP_cons_of_pos (by simpa using hin)
      have hparent : rankIn ((pos + count, ceilDiv count FANOUT) :: higher) t = rankIn higher t :=
        countP_cons_of_neg (by simpa using hnot)
      refine .inr ⟨t, _, by rw [ht], by omega, by omega, Nat.mod_lt _ (by decide), ?_⟩
      rw [hcons _ hlo, hcons _ (by omega), hpage, hparent]
      exact Nat.lt_succ_of_le (rankIn_mono (by omega))
    · rw [if_neg (by tauto)]
      rcases ih (by omega) (by omega) with ⟨hlast, hroot⟩ | ⟨t, slot, ht, hlt, htop, hslot, hrank⟩
      · exact .inl ⟨by omega, hroot⟩
      · refine .inr ⟨t, slot, ht, hlt, by omega, hslot, ?_⟩
        rwa [hcons _ hlo, hcons _ (by omega)]

theorem Levels.parentIn_none {level : List (ℕ × ℕ)} (h : Levels covered pos level)
    {page : ℕ} (hout : pos + levelPages level ≤ page) : ImageFs.parentIn page level = none := by
  induction h with
  | @top covered pos one =>
    simp only [levelPages, map_cons, map_nil, sum_singleton] at hout
    exact if_neg (by omega)
  | @level covered pos count above some many rest ih =>
    rw [levelPages_cons] at hout
    unfold ImageFs.parentIn
    rw [if_neg (by omega)]
    exact ih (by omega)

theorem Levels.top_page {level : List (ℕ × ℕ)} (h : Levels covered pos level) :
    (level.getLast?.map Prod.fst).getD 0 + 1 = pos + levelPages level := by
  induction h with
  | top one => rfl
  | @level covered pos count above some many rest ih =>
    obtain ⟨higher, rfl⟩ := rest.head
    rw [levelPages_cons, getLast?_cons_cons]
    omega

/-! ### The layout -/

/-- A layout as `Geometry.new` makes it. -/
structure Geometry.Sound (g : Geometry) : Prop where
  content : 1 < g.treePage
  levels : Levels (g.treePage - 1) g.treePage g.level
  short : g.level.length ≤ LEVELS_MAX
  pages : g.pages = g.treePage + levelPages g.level

/-- What `Geometry.new` says of the counts it accepts: they are within bounds, and
everything lies one after another. -/
structure Geometry.Laid (nodeCount extentCount namesLen dataPages : ℕ) (g : Geometry) : Prop where
  nodes : 0 < nodeCount ∧ nodeCount ≤ NODES_MAX
  extents : extentCount ≤ EXTENTS_MAX
  names : namesLen ≤ NAMES_MAX
  data : dataPages ≤ DATA_PAGES_MAX
  counts : g.nodeCount = nodeCount ∧ g.extentCount = extentCount ∧ g.namesLen = namesLen ∧
    g.dataPages = dataPages
  nodesPage : g.nodesPage = 1
  namesPage : g.namesPage = 1 + pagesFor (nodeCount * NODE_BYTES)
  extentsPage : g.extentsPage = g.namesPage + pagesFor namesLen
  dataPage : g.dataPage = g.extentsPage + pagesFor (extentCount * EXTENT_BYTES)
  treePage : g.treePage = g.dataPage + dataPages
  sound : g.Sound

/-- **Every layout has at most `LEVELS_MAX` levels**: the array of levels has room
for the largest layer there may be. -/
theorem Geometry.new_spec (nodeCount extentCount namesLen dataPages : ℕ) :
    (∃ why, Geometry.new nodeCount extentCount namesLen dataPages = .error (.bad why)) ∨
      ∃ g, Geometry.new nodeCount extentCount namesLen dataPages = .ok g ∧
        g.Laid nodeCount extentCount namesLen dataPages := by
  unfold Geometry.new
  split
  · exact .inl ⟨_, rfl⟩
  next hnodes =>
  split
  · exact .inl ⟨_, rfl⟩
  next hextents =>
  split
  · exact .inl ⟨_, rfl⟩
  next hnames =>
  split
  · exact .inl ⟨_, rfl⟩
  next hdata =>
  right
  dsimp only
  obtain ⟨treePage, htree⟩ : ∃ t, t = 1 + pagesFor (nodeCount * NODE_BYTES) + pagesFor namesLen +
    pagesFor (extentCount * EXTENT_BYTES) + dataPages := ⟨_, rfl⟩
  rw [← htree]
  have hbig : 1 < treePage ∧ treePage - 1 ≤ FANOUT ^ (6 + 1) := by
    unfold pagesFor ceilDiv PAGE NODE_BYTES EXTENT_BYTES at htree
    unfold NODES_MAX at hnodes
    unfold EXTENTS_MAX at hextents
    unfold NAMES_MAX at hnames
    unfold DATA_PAGES_MAX at hdata
    unfold FANOUT
    omega
  obtain ⟨level, hlevel⟩ := treeLevels_isSome (by omega : 0 < treePage - 1) hbig.2 treePage
  rw [show LEVELS_MAX = 6 + 1 from rfl, hlevel]
  obtain ⟨hlevels, hshort⟩ := treeLevels_levels hlevel
  exact ⟨_, rfl, by omega, by omega, by omega, by omega, ⟨rfl, rfl, rfl, rfl⟩, rfl, rfl, rfl, rfl,
    htree, hbig.1, hlevels, hshort, rfl⟩

variable {g : Geometry}

theorem Geometry.laid_of_new {nodeCount extentCount namesLen dataPages : ℕ}
    (hg : Geometry.new nodeCount extentCount namesLen dataPages = .ok g) :
    g.Laid nodeCount extentCount namesLen dataPages := by
  rcases Geometry.new_spec nodeCount extentCount namesLen dataPages with ⟨why, h⟩ | ⟨g', h, hs⟩
  · rw [hg] at h
    cases h
  · rw [hg] at h
    cases h
    exact hs

/-- How far a page is from the root. -/
def Geometry.rank (g : Geometry) (page : ℕ) : ℕ := rankIn g.level page

theorem Geometry.Sound.rank_lt (h : g.Sound) (page : ℕ) : g.rank page < LEVELS_MAX + 1 :=
  Nat.lt_succ_of_le (countP_le_length.trans h.short)

theorem Geometry.Sound.top {g : Geometry} (h : g.Sound) : g.top + 1 = g.pages := by
  rw [h.pages]
  exact h.levels.top_page

theorem Geometry.Sound.treePage_lt (h : g.Sound) : g.treePage < g.pages := by
  have hpages := h.pages
  obtain ⟨above, habove⟩ := h.levels.head
  have hcount := h.content
  have := ceilDiv_pos (by decide : 0 < FANOUT) (by omega : 0 < g.treePage - 1)
  rw [habove, levelPages_cons] at hpages
  omega

/-- **Every page but the header and the top one has its hash in a slot of a later
tree page**, nearer to the root; the top page's hash is the root. -/
theorem Geometry.Sound.parent {g : Geometry} (h : g.Sound) {page : ℕ} (hlo : 0 < page)
    (hhi : page < g.pages) :
    (page = g.top ∧ g.parent page = some .root) ∨
      ∃ t slot, g.parent page = some (.tree t slot) ∧ page < t ∧ g.treePage ≤ t ∧ t < g.pages ∧
        slot < FANOUT ∧ g.rank t < g.rank page := by
  have htop := h.top
  have hpages := h.pages
  unfold Geometry.parent
  rw [if_neg (by omega)]
  by_cases hcontent : page < g.treePage
  · -- the first level holds the hashes of the content
    obtain ⟨above, habove⟩ := h.levels.head
    obtain ⟨t, ht⟩ : ∃ t, t = g.treePage + (page - 1) / FANOUT := ⟨_, rfl⟩
    have hslot : (page - 1) / FANOUT < ceilDiv (g.treePage - 1) FANOUT :=
      (lt_ceilDiv_iff (by decide)).2 (by have := Nat.div_mul_le_self (page - 1) FANOUT; omega)
    have hnot : g.treePage ≤ t := ht ▸ Nat.le_add_right _ _
    rw [habove, levelPages_cons] at hpages
    have hrank (q : ℕ) : g.rank q =
        rankIn ((g.treePage, ceilDiv (g.treePage - 1) FANOUT) :: above) q := by
      rw [Geometry.rank, habove]
    have hpage : g.rank page = rankIn above page + 1 :=
      (hrank page).trans (countP_cons_of_pos (by simpa using hcontent))
    have hparent : g.rank t = rankIn above t :=
      (hrank t).trans (countP_cons_of_neg (by simpa using hnot))
    rw [if_pos hcontent, habove]
    refine .inr ⟨t, _, by rw [ht]; rfl, by omega, hnot, by omega, Nat.mod_lt _ (by decide), ?_⟩
    rw [hpage, hparent]
    exact Nat.lt_succ_of_le (rankIn_mono (by omega))
  · rw [if_neg hcontent]
    rcases h.levels.parentIn (not_lt.1 hcontent) (by omega) with
      ⟨hlast, hroot⟩ | ⟨t, slot, ht, hlt, hend, hslot, hrank⟩
    · exact .inl ⟨by omega, hroot⟩
    · exact .inr ⟨t, slot, ht, hlt, by omega, by omega, hslot, hrank⟩

/-- Past the end there is nothing to check a page against. -/
theorem Geometry.Sound.parent_none (h : g.Sound) {page : ℕ} (hout : g.pages ≤ page) :
    g.parent page = none := by
  have hlt := h.treePage_lt
  have hpages := h.pages
  unfold Geometry.parent
  rw [if_neg (by omega), if_neg (by omega)]
  exact h.levels.parentIn_none (by omega)

/-- A tree page above a page is later and nearer to the root. -/
theorem Geometry.Sound.above (h : g.Sound) {page t slot : ℕ}
    (hp : g.parent page = some (.tree t slot)) :
    0 < t ∧ t < g.pages ∧ slot < FANOUT ∧ g.rank t < g.rank page := by
  have hpos : 0 < page := pos_of_ne_zero fun hzero => by
    rw [hzero] at hp
    cases hp
  have hlt : page < g.pages := not_le.1 fun hout => by
    rw [h.parent_none hout] at hp
    cases hp
  rcases h.parent hpos hlt with ⟨-, hroot⟩ | ⟨t', slot', htree, hlater, -, hin, hslot, hrank⟩
  · rw [hp] at hroot
    cases hroot
  · rw [hp] at htree
    cases htree
    exact ⟨by omega, hin, hslot, hrank⟩

/-! ### The tree the writer builds -/

def hashSlot (page : Bytes) (slot : ℕ) : Bytes := (page.drop (slot * HASH_BYTES)).take HASH_BYTES

def hashPage (hashes : List Bytes) : Bytes :=
  hashes.flatMap id ++ List.replicate (PAGE - hashes.length * HASH_BYTES) 0

/-- The pages of these levels over these hashes, the lowest level first, and the
hashes of the last level. -/
def treeOf (sha256 : Bytes → Bytes) :
    List (ℕ × ℕ) → List Bytes → Except FormatError (List Bytes × List Bytes)
  | [], hashes => .ok ([], hashes)
  | (_, count) :: above, hashes =>
    let pages := (chunks FANOUT hashes).map hashPage
    if pages.length ≠ count then .error (.bad "the tree is not the shape the layout gives")
    else (treeOf sha256 above (pages.map sha256)).map fun r => (pages ++ r.1, r.2)

/-- The pages of a layer file with this content: its header, the content and the
tree. -/
def assembleTree (sha256 : Bytes → Bytes) (nodeCount extentCount namesLen dataPages : ℕ)
    (content : List Bytes) : Except FormatError (List Bytes) :=
  match Geometry.new nodeCount extentCount namesLen dataPages with
  | .error e => .error e
  | .ok g =>
    if content.length ≠ g.treePage - 1 then
      .error (.bad "the layer's content is not the length its counts give")
    else match treeOf sha256 g.level (content.map sha256) with
      | .error e => .error e
      | .ok (tree, top) =>
        (Header.encode sha256
          ⟨g.nodeCount, g.extentCount, g.namesLen, g.dataPages, top.headD []⟩).map
          (· :: content ++ tree)

variable {hashes : List Bytes}

variable (h : ∀ b ∈ hashes, b.length = HASH_BYTES)

include h

theorem length_hashPage (hlen : hashes.length ≤ FANOUT) : (hashPage hashes).length = PAGE := by
  unfold hashPage
  rw [length_append, @length_flatMap_const _ id _ _ h, length_replicate]
  unfold FANOUT at hlen
  unfold PAGE HASH_BYTES
  omega

/-- The slots of a tree page hold its hashes. -/
theorem hashSlot_hashPage {i : ℕ}
    {b : Bytes} (hi : hashes[i]? = some b) : hashSlot (hashPage hashes) i = b := by
  have hlt := lt_of_getElem? hi
  unfold hashSlot hashPage
  rw [slice_append_left]
  · exact slice_flatMap h hi
  · rw [@length_flatMap_const _ id _ _ h, ← Nat.succ_mul]
    exact Nat.mul_le_mul_right _ hlt

omit h in
/-- What the tree over some pages holds: `pages` are its pages, the first of them
page `pos` of the file; `root` is its root, `hashes` the hashes it is over. -/
structure Hashed (sha256 : Bytes → Bytes) (pos : ℕ) (level : List (ℕ × ℕ)) (hashes : List Bytes)
    (pages : List Bytes) (root : Bytes) : Prop where
  length : pages.length = levelPages level
  page : ∀ b ∈ pages, b.length = PAGE
  first : ∀ i b, hashes[i]? = some b →
    ∃ page, pages[i / FANOUT]? = some page ∧ hashSlot page (i % FANOUT) = b
  root : ∀ i b, pages[i]? = some b → parentIn (pos + i) level = some .root → sha256 b = root
  tree : ∀ i b t slot, pages[i]? = some b → parentIn (pos + i) level = some (.tree t slot) →
    ∃ page, pages[t - pos]? = some page ∧ hashSlot page slot = sha256 b

theorem hashSlot_chunks {i : ℕ} {b : Bytes} (hi : hashes[i]? = some b) :
    ∃ page, ((chunks FANOUT hashes).map hashPage)[i / FANOUT]? = some page ∧
      hashSlot page (i % FANOUT) = b := by
  have hlt := lt_of_getElem? hi
  have hchunk : i / FANOUT < ceilDiv hashes.length FANOUT :=
    (lt_ceilDiv_iff (by decide)).2 (by have := Nat.div_mul_le_self i FANOUT; omega)
  refine ⟨_, by rw [List.getElem?_map, chunks_getElem? hchunk]; rfl, hashSlot_hashPage ?_ ?_⟩
  · exact fun b hb => h b (List.mem_of_mem_drop (List.mem_of_mem_take hb))
  · have hmod := Nat.mod_lt i (by decide : 0 < FANOUT)
    rw [List.getElem?_take_of_lt hmod, List.getElem?_drop, Nat.div_add_mod']
    exact hi

theorem length_pages_chunks : ∀ page ∈ (chunks FANOUT hashes).map hashPage, page.length = PAGE := by
  intro page hpage
  obtain ⟨chunk, hchunk, rfl⟩ := mem_map.1 hpage
  obtain ⟨i, -, rfl⟩ := mem_map.1 hchunk
  refine length_hashPage (fun b hb => h b ?_) (length_take_le _ _)
  exact mem_of_mem_drop (mem_of_mem_take hb)

omit h

variable {sha256 : Bytes → Bytes}

/-- One page over all hashes. -/
theorem Hashed.top {pos : ℕ} {page : Bytes} (hhash : ∀ b ∈ hashes, b.length = HASH_BYTES)
    (hpage : (chunks FANOUT hashes).map hashPage = [page]) :
    Hashed sha256 pos [(pos, 1)] hashes [page] (sha256 page) := by
  have hparent (i : ℕ) (b : Bytes) (hi : [page][i]? = some b) :
      b = page ∧ parentIn (pos + i) [(pos, 1)] = some .root := by
    cases i with
    | zero =>
      cases hi
      exact ⟨rfl, if_pos ⟨le_rfl, Nat.lt_succ_self _⟩⟩
    | succ i => cases hi
  refine ⟨rfl, hpage ▸ length_pages_chunks hhash, fun i b hi => ?_, fun i b hi _ => ?_,
    fun i b t slot hi ht => ?_⟩
  · rw [← hpage]
    exact hashSlot_chunks hhash hi
  · rw [(hparent i b hi).1]
  · rw [(hparent i b hi).2] at ht
    cases ht

/-- A level under the tree over its hashes. -/
theorem Hashed.level {pos count : ℕ} {above : List (ℕ × ℕ)}
    {hashes low high : List Bytes} {root : Bytes} (rest : Levels count (pos + count) above)
    (hhash : ∀ b ∈ hashes, b.length = HASH_BYTES)
    (hlow : low = (chunks FANOUT hashes).map hashPage) (hcount : low.length = count)
    (hrest : Hashed sha256 (pos + count) above (low.map sha256) high root) :
    Hashed sha256 pos ((pos, count) :: above) hashes (low ++ high) root := by
  obtain ⟨higher, rfl⟩ := rest.head
  have hhere (i : ℕ) (hi : i < count) :
      parentIn (pos + i) ((pos, count) :: (pos + count, ceilDiv count FANOUT) :: higher) =
        some (.tree (pos + count + i / FANOUT) (i % FANOUT)) := by
    unfold parentIn
    rw [if_pos ⟨Nat.le_add_right _ _, Nat.add_lt_add_left hi _⟩, Nat.add_sub_cancel_left]
  have hthere (i : ℕ) (hi : count ≤ i) :
      parentIn (pos + i) ((pos, count) :: (pos + count, ceilDiv count FANOUT) :: higher) =
        parentIn (pos + count + (i - count)) ((pos + count, ceilDiv count FANOUT) :: higher) := by
    conv_lhs => unfold parentIn
    rw [if_neg (by omega), Nat.add_assoc, Nat.add_sub_cancel' hi]
  refine ⟨?_, fun b hb => ?_, fun i b hi => ?_, fun i b hi hr => ?_, fun i b t slot hi ht => ?_⟩
  · rw [length_append, hcount, hrest.length]
    exact (levelPages_cons _ _ _).symm
  · rcases mem_append.1 hb with hb | hb
    · rw [hlow] at hb
      exact length_pages_chunks hhash b hb
    · exact hrest.page b hb
  · obtain ⟨page, hpage, hslot⟩ := hashSlot_chunks hhash hi
    rw [← hlow] at hpage
    exact ⟨page, by rw [List.getElem?_append_left (lt_of_getElem? hpage), hpage],
      hslot⟩
  · rcases lt_or_ge i count with hlt | hge
    · rw [hhere i hlt] at hr
      cases hr
    · rw [hthere i hge] at hr
      rw [getElem?_append_right (by omega), hcount] at hi
      exact hrest.root _ b hi hr
  · rcases lt_or_ge i count with hlt | hge
    · -- a page of this level: its hash is the next level's to hold
      rw [hhere i hlt] at ht
      cases ht
      rw [getElem?_append_left (by omega)] at hi
      obtain ⟨page, hpage, hslot⟩ := hrest.first i (sha256 b) (by rw [getElem?_map, hi]; rfl)
      refine ⟨page, ?_, hslot⟩
      have hsub : pos + count + i / FANOUT - pos = low.length + i / FANOUT := by
        rw [hcount, Nat.add_assoc, Nat.add_sub_cancel_left]
      rw [hsub, getElem?_append_right (Nat.le_add_right _ _), Nat.add_sub_cancel_left, hpage]
    · rw [hthere i hge] at ht
      rw [getElem?_append_right (by omega), hcount] at hi
      have hin : i - count < levelPages ((pos + count, ceilDiv count FANOUT) :: higher) :=
        hrest.length ▸ (lt_of_getElem? hi)
      have hlater : pos + count ≤ t := by
        rcases rest.parentIn (Nat.le_add_right _ (i - count)) (Nat.add_lt_add_left hin _) with
          ⟨-, hr⟩ | ⟨t', slot', ht', hlt, -⟩
        · rw [ht] at hr
          cases hr
        · rw [ht] at ht'
          cases ht'
          omega
      obtain ⟨page, hpage, hslot⟩ := hrest.tree _ b t slot hi ht
      refine ⟨page, ?_, hslot⟩
      rw [getElem?_append_right (by omega), hcount, Nat.sub_sub, hpage]

/-- **What is stored for a page in its parent is its hash**, up to the root. -/
theorem treeOf_spec (hsha : ∀ b, (sha256 b).length = HASH_BYTES)
    {level : List (ℕ × ℕ)} (h : Levels covered pos level)
    (hlen : hashes.length = covered) (hhash : ∀ b ∈ hashes, b.length = HASH_BYTES) :
    ∃ pages root, treeOf sha256 level hashes = .ok (pages, [root]) ∧ root.length = HASH_BYTES ∧
      Hashed sha256 pos level hashes pages root := by
  induction h generalizing hashes with
  | @top covered pos one =>
    obtain ⟨page, hpage⟩ : ∃ page, (chunks FANOUT hashes).map hashPage = [page] :=
      length_eq_one_iff.1 (by rw [length_map, length_chunks, hlen, one])
    refine ⟨[page], sha256 page, ?_, hsha page, .top hhash hpage⟩
    unfold treeOf
    rw [hpage]
    rfl
  | @level covered pos count above some many rest ih =>
    obtain ⟨low, hlow⟩ : ∃ low, low = (chunks FANOUT hashes).map hashPage := ⟨_, rfl⟩
    have hcount : low.length = count := by rw [hlow, length_map, length_chunks, hlen, some]
    obtain ⟨high, root, htree, hroot, hrest⟩ := @ih (low.map sha256) (by rw [length_map, hcount])
      (fun b hb => by obtain ⟨page, -, rfl⟩ := mem_map.1 hb; exact hsha page)
    refine ⟨low ++ high, root, ?_, hroot, .level rest hhash hlow hcount hrest⟩
    unfold treeOf
    rw [← hlow, if_neg (not_not.2 hcount), htree]
    rfl

/-! ### The whole file -/

/-- A layer file all of whose pages lead to the root its header carries. -/
structure Sealed (sha256 : Bytes → Bytes) (h : Header) (g : Geometry) (file : List Bytes) :
    Prop where
  layout : Geometry.new h.nodeCount h.extentCount h.namesLen h.dataPages = .ok g
  length : file.length = g.pages
  page : ∀ b ∈ file, b.length = PAGE
  header : ∃ head, file[0]? = some head ∧ Header.parse sha256 head = .ok (h, g)
  root : ∀ page b, 0 < page → file[page]? = some b → g.parent page = some .root → sha256 b = h.root
  tree : ∀ page b t slot, 0 < page → file[page]? = some b → g.parent page = some (.tree t slot) →
    ∃ tb, file[t]? = some tb ∧ hashSlot tb slot = sha256 b

theorem Levels.pages_le {level : List (ℕ × ℕ)} (h : Levels covered pos level)
    (hpos : 0 < covered) : levelPages level ≤ level.length * covered := by
  induction h with
  | top one =>
    show 1 + 0 ≤ 1 * _
    omega
  | @level covered pos count above some many rest ih =>
    have hle : count ≤ covered := by
      rw [← some, ceilDiv_le_iff (by decide)]
      exact Nat.le_mul_of_pos_right _ (by decide)
    have hcount : 0 < count := some ▸ ceilDiv_pos (by decide) hpos
    rw [levelPages_cons, length_cons, Nat.succ_mul]
    have := (ih hcount).trans (Nat.mul_le_mul_left _ hle)
    omega

theorem Geometry.Laid.pages_lt {n e l d : ℕ} (h : g.Laid n e l d) : g.pages < 256 ^ 8 := by
  have hcontent := h.sound.content
  have hle := h.sound.levels.pages_le (by omega)
  have hlevels := hle.trans (Nat.mul_le_mul_right _ h.sound.short)
  have hpages := h.sound.pages
  obtain ⟨⟨-, hn⟩, he, hl, hd, -, -, hnames, hextents, hdata, htree, -⟩ := h
  unfold pagesFor ceilDiv PAGE NODE_BYTES at hnames
  unfold pagesFor ceilDiv PAGE at hextents
  unfold pagesFor ceilDiv PAGE EXTENT_BYTES at hdata
  unfold LEVELS_MAX at hlevels
  unfold NODES_MAX at hn
  unfold EXTENTS_MAX at he
  unfold NAMES_MAX at hl
  unfold DATA_PAGES_MAX at hd
  omega

/-- **The file the writer makes of a content is sealed**, and has the content after
its header. -/
theorem assembleTree_spec (hsha : ∀ b, (sha256 b).length = HASH_BYTES)
    {n e l d : ℕ} {g : Geometry} (hg : Geometry.new n e l d = .ok g) {content : List Bytes}
    (hlen : content.length = g.treePage - 1) (hpage : ∀ b ∈ content, b.length = PAGE) :
    ∃ head tree root, assembleTree sha256 n e l d content = .ok (head :: (content ++ tree)) ∧
      Sealed sha256 ⟨n, e, l, d, root⟩ g (head :: (content ++ tree)) := by
  have hlaid := Geometry.laid_of_new hg
  have hcontent := hlaid.sound.content
  obtain ⟨tree, root, htree, hroot, hhashed⟩ := treeOf_spec hsha hlaid.sound.levels
    (by rw [length_map, hlen] : (content.map sha256).length = g.treePage - 1)
    (fun b hb => by obtain ⟨page, -, rfl⟩ := mem_map.1 hb; exact hsha page)
  obtain ⟨head, henc, hheadlen, hparse⟩ := @Header.parse_encode g sha256 ⟨n, e, l, d, root⟩ hsha hg
    hroot (hlaid.nodes.2.trans_lt (by decide)) (hlaid.extents.trans_lt (by decide))
    (hlaid.names.trans_lt (by decide)) (hlaid.data.trans_lt (by decide)) hlaid.pages_lt
    (hlaid.sound.short.trans_lt (by decide))
  obtain ⟨hn, he, hl, hd⟩ := hlaid.counts
  have hlow (page : ℕ) (hpos : 0 < page) (hlt : page < g.treePage) :
      (head :: (content ++ tree))[page]? = content[page - 1]? := by
    obtain ⟨k, rfl⟩ : ∃ k, page = k + 1 := ⟨page - 1, by omega⟩
    rw [getElem?_cons_succ, getElem?_append_left (by omega), Nat.add_sub_cancel]
  have hhigh (page : ℕ) (hge : g.treePage ≤ page) :
      (head :: (content ++ tree))[page]? = tree[page - g.treePage]? := by
    obtain ⟨k, rfl⟩ : ∃ k, page = k + 1 := ⟨page - 1, by omega⟩
    rw [getElem?_cons_succ, getElem?_append_right (by omega)]
    congr 1
    omega
  have hfirst : (g.level.head?.map Prod.fst).getD 0 = g.treePage := by
    obtain ⟨above, habove⟩ := hlaid.sound.levels.head
    rw [habove]
    rfl
  refine ⟨head, tree, root, ?_, hg, ?_, ?_, ⟨head, rfl, hparse⟩, fun page b hpos hb hp => ?_,
    fun page b t slot hpos hb hp => ?_⟩
  · unfold assembleTree
    rw [hg]
    dsimp only
    rw [if_neg (not_not.2 hlen), htree]
    dsimp only
    rw [hn, he, hl, hd, headD_cons, henc]
    rfl
  · rw [length_cons, length_append, hhashed.length, hlaid.sound.pages]
    omega
  · intro b hb
    rcases mem_cons.1 hb with rfl | hb
    · exact hheadlen
    · exact (mem_append.1 hb).elim (hpage b) (hhashed.page b)
  · unfold Geometry.parent at hp
    rw [if_neg (by omega)] at hp
    split at hp
    · cases hp
    next hge =>
      rw [hhigh page (not_lt.1 hge)] at hb
      exact hhashed.root _ b hb (by rw [Nat.add_sub_cancel' (not_lt.1 hge)]; exact hp)
  · unfold Geometry.parent at hp
    rw [if_neg (by omega)] at hp
    split at hp
    next hlt =>
      -- the first level holds the hashes of the content
      rw [hfirst] at hp
      cases hp
      rw [hlow page hpos hlt] at hb
      obtain ⟨tb, htb, hslot⟩ := hhashed.first (page - 1) (sha256 b)
        (by rw [getElem?_map, hb]; rfl)
      refine ⟨tb, ?_, hslot⟩
      rw [hhigh _ (Nat.le_add_right _ _), Nat.add_sub_cancel_left, htb]
    rename_i hge
    have hge := not_lt.1 hge
    rw [hhigh page hge] at hb
    obtain ⟨tb, htb, hslot⟩ := hhashed.tree _ b t slot hb
      (by rw [Nat.add_sub_cancel' hge]; exact hp)
    refine ⟨tb, ?_, hslot⟩
    rw [hhigh t ?_, htb]
    have hin := lt_of_getElem? hb
    rw [hhashed.length] at hin
    rcases hlaid.sound.levels.parentIn hge (by omega) with ⟨-, hr⟩ | ⟨t', slot', ht', hlt, -⟩
    · rw [hp] at hr
      cases hr
    · rw [hp] at ht'
      cases ht'
      omega

end Moruna.ImageFs
