/-
Moruna/ImageFs/CacheRun.lean

What the cache hands out is what the header of its layer stands for.

`Authentic` is the chain of hashes itself: the bytes of a page hash to what its
parent holds for it, the parent's bytes are authentic, and the top page hashes to
the root.  The invariant `Inv` says that every page the cache would find is so
checked, and that every slot is free, in use or held by the operation at work;
held slots are the only ones a device may write to.

One statement covers both directions: a call that fails leaves the invariant, and
it fails only if the device does not serve a sealed file (`Serves`) or there is no
such page.

* `pages_authenticated` : **every byte handed out is authenticated by the header,
  and every page of a sealed file can be read**;
* `header_page_refused` : the header page itself is not.
-/
import Moruna.ImageFs.Cache

namespace Moruna.ImageFs

open List Function

/-! ### Authentic bytes -/

/-- The bytes of a page of a layer, checked up to the root its header carries. -/
inductive Authentic (sha256 : Bytes → Bytes) (h : Header) (g : Geometry) : ℕ → Bytes → Prop
  | root {page : ℕ} {b : Bytes} (top : g.parent page = some .root) (length : b.length = PAGE)
      (hash : sha256 b = h.root) : Authentic sha256 h g page b
  | tree {page t slot : ℕ} {b tb : Bytes} (parent : g.parent page = some (.tree t slot))
      (above : Authentic sha256 h g t tb) (length : b.length = PAGE)
      (hash : sha256 b = hashSlot tb slot) : Authentic sha256 h g page b

/-- **Without collisions among pages, a page has one authentic content.** -/
theorem Authentic.unique {sha256 : Bytes → Bytes} {h : Header} {g : Geometry}
    (hinj : ∀ a b : Bytes, a.length = PAGE → b.length = PAGE → sha256 a = sha256 b → a = b)
    {page : ℕ} {a b : Bytes} (ha : Authentic sha256 h g page a) (hb : Authentic sha256 h g page b) :
    a = b := by
  induction ha generalizing b with
  | root top length hash =>
    cases hb with
    | root top' length' hash' => exact hinj _ _ length length' (hash.trans hash'.symm)
    | tree parent' above' length' hash' =>
      rw [top] at parent'
      cases parent'
  | tree parent above length hash ih =>
    cases hb with
    | root top' length' hash' =>
      rw [parent] at top'
      cases top'
    | tree parent' above' length' hash' =>
      rw [parent] at parent'
      cases parent'
      -- the parents are one page, so the slots hold one hash
      rw [← ih above'] at hash'
      exact hinj _ _ length length' (hash.trans hash'.symm)

/-- A disk that serves these files: every read of their pages succeeds and gives
them. -/
structure Serves {δ : Type} (D : Disk δ) (files : ℕ → List Bytes) : Prop where
  fetch : ∀ reads d, (reads.map Fetch.slot).Nodup →
    (∀ r ∈ reads, r.page < (files r.layer).length) → (D.fetch reads d).1 = .ok () ∧
      ∀ r ∈ reads, (files r.layer)[r.page]? = some (D.bytes (D.fetch reads d).2 r.slot)
  copy : ∀ slot offset len d, offset + len ≤ PAGE → ∃ out, (D.copy slot offset len d).1 = .ok out
  devicePages : ∀ layer d, files layer ≠ [] → (D.devicePages layer d).1 = .ok (files layer).length

namespace Cache

variable {δ : Type} (D : Disk δ) (sha256 : Bytes → Bytes) (files : ℕ → List Bytes)
  (ls : List Layer)

/-- The layer is mounted, and the disk serves it as a sealed file. -/
def Honest (l : ℕ) : Prop :=
  Serves D files ∧ ∃ L, ls[l]? = some L ∧ Sealed sha256 L.header L.geometry (files l)

/-- A page of the layer that the tree covers. -/
def Covered (l p : ℕ) : Prop := ∃ L, ls[l]? = some L ∧ 0 < p ∧ p < L.geometry.pages

/-- The bytes are what page `p` of layer `l` must be. -/
def Right (l p : ℕ) (b : Bytes) : Prop :=
  (∃ L, ls[l]? = some L ∧ Authentic sha256 L.header L.geometry p b) ∧
    (Honest D sha256 files ls l → (files l)[p]? = some b)

/-- The hash that page `p` of layer `l` must have. -/
def Demanded (l p : ℕ) (hash : Bytes) : Prop :=
  ∃ L, ls[l]? = some L ∧ ((L.geometry.parent p = some .root ∧ hash = L.header.root) ∨
    ∃ t slot tb, L.geometry.parent p = some (.tree t slot) ∧ Right D sha256 files ls l t tb ∧
      hash = hashSlot tb slot)

/-- What holds of a cache between two steps; `held` are the slots taken and not
yet filed or given back. -/
structure Inv (n : ℕ) (held : List ℕ) (c : Cache δ) : Prop where
  layers : c.layers = ls
  slots : c.slots = n
  perm : (held ++ (c.free ++ c.lru)).Perm (List.range n)
  listed : ∀ s, s ∈ c.lru ↔ ∃ k, c.key s = some k
  indexed : ∀ k s, c.index k = some s → c.key s = some k
  right : ∀ l p s, c.index (l, p) = some s → Right D sha256 files ls l p (D.bytes c.disk s)

/-- Layers as mounting leaves them. -/
def Mounted (ls : List Layer) : Prop :=
  ∀ (l : ℕ) (L : Layer), ls[l]? = some L → L.index = l ∧
    Geometry.new L.header.nodeCount L.header.extentCount L.header.namesLen L.header.dataPages =
      .ok L.geometry

/-- The call keeps the invariant; `Q` holds if it succeeds, and it fails only if layer `l`
is not honest or `φ` does not hold. -/
abbrev Brings (n : ℕ) (held : List ℕ) (l : ℕ) (φ : Prop) {α : Type} (x : M δ α)
    (Q : α → Cache δ → Prop) : Prop :=
  Triple (Inv D sha256 files ls n held) x (fun a c => Inv D sha256 files ls n held c ∧ Q a c)
    fun _ c => Inv D sha256 files ls n held c ∧ ¬ (Honest D sha256 files ls l ∧ φ)

variable {D sha256 files ls}

/-- A page with the hash that is demanded is authentic. -/
theorem Demanded.authentic {l p : ℕ} {hash b : Bytes} (h : Demanded D sha256 files ls l p hash)
    (hlen : b.length = PAGE) (hb : sha256 b = hash) :
    ∃ L, ls[l]? = some L ∧ Authentic sha256 L.header L.geometry p b := by
  obtain ⟨L, hL, ⟨htop, rfl⟩ | ⟨t, slot, tb, hparent, ⟨⟨L', hL', htb⟩, -⟩, rfl⟩⟩ := h
  · exact ⟨L, hL, .root htop hlen hb⟩
  · rw [hL] at hL'
    cases hL'
    exact ⟨L, hL, .tree hparent htb hlen hb⟩

theorem Mounted.sound (hm : Mounted ls) {l : ℕ} {L : Layer} (hL : ls[l]? = some L) :
    L.geometry.Sound := (Geometry.laid_of_new (hm l L hL).2).sound

/-- A page whose hash is known is one the tree covers. -/
theorem Demanded.covered (hm : Mounted ls) {l p : ℕ} {hash : Bytes}
    (h : Demanded D sha256 files ls l p hash) : Covered ls l p := by
  obtain ⟨L, hL, hdemand⟩ := h
  have hparent : L.geometry.parent p ≠ none ∧ L.geometry.parent p ≠ some .header := by
    rcases hdemand with ⟨htop, -⟩ | ⟨t, slot, tb, hparent, -⟩
    · rw [htop]
      exact ⟨nofun, nofun⟩
    · rw [hparent]
      exact ⟨nofun, nofun⟩
  refine ⟨L, hL, pos_of_ne_zero fun hzero => hparent.2 ?_, not_le.1 fun hout => hparent.1 ?_⟩
  · rw [hzero]
    rfl
  · exact (hm.sound hL).parent_none hout

/-- A page of a sealed file has the hash that is demanded. -/
theorem Demanded.matches (hm : Mounted ls) {l p : ℕ} {hash b : Bytes}
    (h : Demanded D sha256 files ls l p hash) (hh : Honest D sha256 files ls l)
    (hb : (files l)[p]? = some b) : sha256 b = hash := by
  obtain ⟨-, -, hp, -⟩ := h.covered hm
  obtain ⟨L, hL, hdemand⟩ := h
  obtain ⟨-, L', hL', hsealed⟩ := id hh
  rw [hL] at hL'
  cases hL'
  rcases hdemand with ⟨htop, rfl⟩ | ⟨t, slot, tb, hparent, ⟨-, htb⟩, rfl⟩
  · exact hsealed.root p b hp hb htop
  · obtain ⟨tb', htb', hslot⟩ := hsealed.tree p b t slot hp hb hparent
    rw [htb hh] at htb'
    cases htb'
    exact hslot.symm

/-- The file of an honest layer has every page the tree covers. -/
theorem Honest.page_lt {l p : ℕ} (hh : Honest D sha256 files ls l) (hp : Covered ls l p) :
    p < (files l).length := by
  obtain ⟨-, L, hL, hsealed⟩ := hh
  obtain ⟨L', hL', -, hlt⟩ := hp
  rw [hL] at hL'
  cases hL'
  rwa [hsealed.length]

/-! ### What each change of the cache keeps -/

namespace Inv

variable {n : ℕ} {held : List ℕ} {c : Cache δ}

variable (h : Inv D sha256 files ls n held c)
include h

theorem nodup : (held ++ (c.free ++ c.lru)).Nodup := h.perm.nodup_iff.2 nodup_range

theorem not_held {s : ℕ} (hs : s ∈ c.lru) : s ∉ held :=
  fun hheld => (nodup_append'.1 h.nodup).2.2 hheld (mem_append_right _ hs)

theorem mem_lru {k : ℕ × ℕ} {s : ℕ}
    (hk : c.index k = some s) : s ∈ c.lru := (h.listed s).2 ⟨k, h.indexed k s hk⟩

theorem nodup_lru : c.lru.Nodup := (nodup_append'.1 (nodup_append'.1 h.nodup).2.1).2.1

theorem disk {d : δ} (hd : ∀ s ∉ held, D.bytes d s = D.bytes c.disk s) :
    Inv D sha256 files ls n held { c with disk := d } := by
  refine { h with right := fun l p s hs => ?_ }
  have hbytes := hd s (h.not_held (h.mem_lru hs))
  exact (congrArg (Right D sha256 files ls l p) hbytes).mpr (h.right l p s hs)

theorem free {s : ℕ} {rest : List ℕ} (hfree : c.free = s :: rest) :
    Inv D sha256 files ls n (s :: held) { c with free := rest } := by
  refine { h with perm := ?_ }
  have hperm := h.perm
  rw [hfree] at hperm
  exact perm_middle.symm.trans hperm

theorem evict {s : ℕ} (hs : s ∈ c.lru) : Inv D sha256 files ls n (s :: held) (c.evict s) := by
  obtain ⟨k₀, hk₀⟩ := (h.listed s).1 hs
  have hindex : (c.evict s).index = update c.index k₀ none := by
    unfold Cache.evict
    rw [hk₀]
  have hold (k : ℕ × ℕ) (s' : ℕ) (hk : (c.evict s).index k = some s') :
      c.index k = some s' ∧ s' ≠ s := by
    rw [hindex] at hk
    by_cases hkk : k = k₀
    · rw [hkk, update_self] at hk
      cases hk
    · rw [update_of_ne hkk] at hk
      refine ⟨hk, ?_⟩
      rintro rfl
      exact hkk (Option.some.inj ((h.indexed k s' hk).symm.trans hk₀))
  refine ⟨h.layers, h.slots, ?_, fun s' => ?_, fun k s' hk => ?_, fun l p s' hk => ?_⟩
  · refine List.Perm.trans ?_ h.perm
    refine perm_middle.symm.trans (List.Perm.append_left held ?_)
    exact perm_middle.symm.trans (List.Perm.append_left c.free (perm_cons_erase hs).symm)
  · show s' ∈ c.lru.erase s ↔ ∃ k, update c.key s none s' = some k
    rw [h.nodup_lru.mem_erase_iff, h.listed]
    by_cases hss : s' = s
    · simp [hss]
    · simp [hss]
  · obtain ⟨hk, hne⟩ := hold k s' hk
    exact (update_of_ne hne _ _).trans (h.indexed k s' hk)
  · exact h.right l p s' (hold _ s' hk).1

omit h in
theorem giveBack {slots : List ℕ} (h : Inv D sha256 files ls n (slots ++ held) c) :
    Inv D sha256 files ls n held { c with free := slots.reverse ++ c.free } := by
  refine { h with perm := List.Perm.trans ?_ h.perm }
  show (held ++ (slots.reverse ++ c.free ++ c.lru)).Perm (slots ++ held ++ (c.free ++ c.lru))
  rw [append_assoc slots.reverse, append_assoc slots]
  refine perm_append_comm_assoc held slots.reverse _ |>.trans ?_
  exact (reverse_perm slots).append_right _

omit h in
theorem file {l p s : ℕ} (h : Inv D sha256 files ls n (s :: held) c)
    (hright : Right D sha256 files ls l p (D.bytes c.disk s)) :
    Inv D sha256 files ls n held (c.file (l, p) s) := by
  have hunused : s ∉ c.lru := fun hs => h.not_held hs mem_cons_self
  have hne {k : ℕ × ℕ} {s' : ℕ} (hk : c.index k = some s') : s' ≠ s := by
    rintro rfl
    exact hunused (h.mem_lru hk)
  refine ⟨h.layers, h.slots, ?_, fun s' => ?_, fun k s' hk => ?_, fun l' p' s' hk => ?_⟩
  · refine List.Perm.trans ?_ h.perm
    refine List.Perm.trans (List.Perm.append_left held ?_) perm_middle
    exact perm_middle
  · show s' ∈ s :: c.lru ↔ ∃ k, update c.key s (some (l, p)) s' = some k
    rw [mem_cons, h.listed]
    by_cases hss : s' = s
    · simp [hss]
    · simp [hss]
  · have hk : update c.index (l, p) (some s) k = some s' := hk
    show update c.key s (some (l, p)) s' = some k
    by_cases hkk : k = (l, p)
    · rw [hkk, update_self] at hk
      cases hk
      rw [update_self, hkk]
    · rw [update_of_ne hkk] at hk
      rw [update_of_ne (hne hk), h.indexed k s' hk]
  · have hk : update c.index (l, p) (some s) (l', p') = some s' := hk
    by_cases hkk : (l', p') = (l, p)
    · rw [hkk, update_self] at hk
      cases hk
      cases hkk
      exact hright
    · rw [update_of_ne hkk] at hk
      exact h.right l' p' s' hk

theorem of_perm {held' : List ℕ} (hp : held'.Perm held) : Inv D sha256 files ls n held' c :=
  { h with perm := (hp.append_right _).trans h.perm }

theorem touch {s : ℕ} (hs : s ∈ c.lru) :
    Inv D sha256 files ls n held { c with lru := s :: c.lru.erase s } := by
  have hperm : (s :: c.lru.erase s).Perm c.lru := (perm_cons_erase hs).symm
  refine { h with perm := ?_, listed := fun s' => ?_ }
  · exact ((hperm.append_left c.free).append_left held).trans h.perm
  · exact hperm.mem_iff.trans (h.listed s')

end Inv

/-! ### The steps of a call -/

section Steps

variable {n : ℕ} {held : List ℕ} {F : (ℕ → Bytes) → Prop}

/-- There is a slot to take as long as not all are held. -/
theorem take_spec (hroom : held.length < n) :
    Triple (Inv D sha256 files ls n held) take (fun s => Inv D sha256 files ls n (s :: held))
      (fun _ _ => False) := by
  intro c h
  unfold take
  cases hfree : c.free with
  | cons s rest => exact h.free hfree
  | nil =>
    cases hlast : c.lru.getLast? with
    | some s => exact h.evict (mem_of_getLast? hlast)
    | none =>
      -- every slot is held
      have hlen := h.perm.length_eq
      rw [hfree, getLast?_eq_none_iff.1 hlast, append_nil, append_nil, length_range] at hlen
      omega

/-- A copy gives what the slot holds and changes none. -/
theorem copy_spec {s offset len : ℕ} (hin : offset + len ≤ PAGE) :
    Triple (fun c => Inv D sha256 files ls n held c ∧ F (D.bytes c.disk))
      (onDisk (D.copy s offset len))
      (fun out c => (Inv D sha256 files ls n held c ∧ F (D.bytes c.disk)) ∧
        out = ((D.bytes c.disk s).drop offset).take len)
      (fun _ c => (Inv D sha256 files ls n held c ∧ F (D.bytes c.disk)) ∧ ¬ Serves D files) := by
  rintro c ⟨h, hF⟩
  have hbytes := D.bytes_copy s offset len c.disk
  have heq := D.copy_eq s offset len c.disk
  have hkept : Inv D sha256 files ls n held { c with disk := (D.copy s offset len c.disk).2 } ∧
      F (D.bytes (D.copy s offset len c.disk).2) :=
    ⟨h.disk fun s' _ => congrFun hbytes s', hbytes ▸ hF⟩
  unfold onDisk
  rcases hcopy : D.copy s offset len c.disk with ⟨out | out, d⟩
  · rw [hcopy] at hkept
    refine ⟨hkept, fun hserves => ?_⟩
    obtain ⟨_, hok⟩ := hserves.copy s offset len c.disk hin
    rw [hcopy] at hok
    cases hok
  · rw [hcopy] at hkept hbytes heq
    refine ⟨hkept, ?_⟩
    show out = ((D.bytes d s).drop offset).take len
    rw [hbytes]
    exact heq out rfl

/-- A copy from a cached page gives bytes of the right page. -/
theorem copyOf_spec {l p s offset len : ℕ} (hin : offset + len ≤ PAGE) :
    Triple (fun c => Inv D sha256 files ls n held c ∧ c.index (l, p) = some s)
      (onDisk (D.copy s offset len))
      (fun out c => Inv D sha256 files ls n held c ∧
        ∃ b, Right D sha256 files ls l p b ∧ out = (b.drop offset).take len)
      (fun _ c => Inv D sha256 files ls n held c ∧ ¬ Serves D files) := by
  have hcopy := @copy_spec δ D sha256 files ls n held (fun B => Right D sha256 files ls l p (B s)) s
    offset len hin
  refine hcopy.conseq ?_ ?_ ?_
  · exact fun c ⟨hinv, hs⟩ => ⟨hinv, hinv.right l p s hs⟩
  · exact fun out c ⟨⟨hinv, hright⟩, hout⟩ => ⟨hinv, _, hright, hout⟩
  · exact fun _ c ⟨⟨hinv, _⟩, hserves⟩ => ⟨hinv, hserves⟩

/-- A fetch into held slots; a disk that serves the pages brings them in. -/
theorem fetch_spec {reads : List Fetch} (hheld : ∀ r ∈ reads, r.slot ∈ held)
    (hnodup : (reads.map Fetch.slot).Nodup) :
    Triple (Inv D sha256 files ls n held) (onDisk (D.fetch reads))
      (fun _ c => Inv D sha256 files ls n held c ∧
        (Serves D files → (∀ r ∈ reads, r.page < (files r.layer).length) →
          ∀ r ∈ reads, (files r.layer)[r.page]? = some (D.bytes c.disk r.slot)))
      (fun _ c => Inv D sha256 files ls n held c ∧
        ¬ (Serves D files ∧ ∀ r ∈ reads, r.page < (files r.layer).length)) := by
  intro c h
  have hkept : Inv D sha256 files ls n held { c with disk := (D.fetch reads c.disk).2 } := by
    refine h.disk fun s hs => D.bytes_fetch reads c.disk s fun hmem => ?_
    obtain ⟨r, hr, rfl⟩ := mem_map.1 hmem
    exact hs (hheld r hr)
  unfold onDisk
  rcases hfetch : D.fetch reads c.disk with ⟨e | u, d⟩
  · rw [hfetch] at hkept
    refine ⟨hkept, fun ⟨hserves, hpages⟩ => ?_⟩
    have hok := (hserves.fetch reads c.disk hnodup hpages).1
    rw [hfetch] at hok
    cases hok
  · rw [hfetch] at hkept
    refine ⟨hkept, fun hserves hpages => ?_⟩
    have hthere := (hserves.fetch reads c.disk hnodup hpages).2
    rwa [hfetch] at hthere

/-- A fetch that gives its slots back when it fails; it brings in the pages of an
honest layer. -/
theorem fetchOrGiveBack_spec {l : ℕ} {reads : List Fetch} (hnodup : (reads.map Fetch.slot).Nodup)
    (hlayer : ∀ r ∈ reads, r.layer = l) (hcov : ∀ r ∈ reads, Covered ls l r.page) :
    Triple (Inv D sha256 files ls n (reads.map Fetch.slot ++ held))
      (orGiveBack (onDisk (D.fetch reads)) (reads.map Fetch.slot))
      (fun _ c => Inv D sha256 files ls n (reads.map Fetch.slot ++ held) c ∧
        ∀ r ∈ reads, Honest D sha256 files ls l →
          (files l)[r.page]? = some (D.bytes c.disk r.slot))
      (fun _ c => Inv D sha256 files ls n held c ∧ ¬ Honest D sha256 files ls l) := by
  have hheld : ∀ r ∈ reads, r.slot ∈ reads.map Fetch.slot ++ held := fun r hr =>
    mem_append_left _ (mem_map_of_mem hr)
  have hpages (hh : Honest D sha256 files ls l) : ∀ r ∈ reads, r.page < (files r.layer).length :=
    fun r hr => (hlayer r hr).symm ▸ hh.page_lt (hcov r hr)
  refine .handle (F := fun _ c => Inv D sha256 files ls n (reads.map Fetch.slot ++ held) c ∧
    ¬ Honest D sha256 files ls l) ((fetch_spec hheld hnodup).conseq (fun _ h => h) ?_ ?_) ?_
  · rintro _ c ⟨hinv, hthere⟩
    refine ⟨hinv, fun r hr hh => ?_⟩
    have := hthere hh.1 (hpages hh) r hr
    rwa [hlayer r hr] at this
  · exact fun _ c ⟨hinv, hnot⟩ => ⟨hinv, fun hh => hnot ⟨hh.1, hpages hh⟩⟩
  · rintro e c ⟨hinv, hnot⟩
    exact ⟨hinv.giveBack, hnot⟩

theorem devicePages_spec (l : ℕ) : Triple (Inv D sha256 files ls n held) (onDisk (D.devicePages l))
      (fun device c => Inv D sha256 files ls n held c ∧
        (Serves D files → files l ≠ [] → device = (files l).length))
      (fun _ c => Inv D sha256 files ls n held c ∧ ¬ (Serves D files ∧ files l ≠ [])) := by
  intro c h
  have hkept : Inv D sha256 files ls n held { c with disk := (D.devicePages l c.disk).2 } :=
    h.disk fun s _ => congrFun (D.bytes_devicePages l c.disk) s
  unfold onDisk
  rcases hdev : D.devicePages l c.disk with ⟨e | device, d⟩
  · rw [hdev] at hkept
    refine ⟨hkept, fun ⟨hserves, hne⟩ => ?_⟩
    have hok := hserves.devicePages l c.disk hne
    rw [hdev] at hok
    cases hok
  · rw [hdev] at hkept
    refine ⟨hkept, fun hserves hne => ?_⟩
    have hok := hserves.devicePages l c.disk hne
    rw [hdev] at hok
    exact Except.ok.inj hok

theorem orGiveBack_spec {α : Type} {P : Cache δ → Prop} {Q : α → Cache δ → Prop} {x : M δ α}
    {slots : List ℕ} {φ : Prop}
    (h : Triple P x Q fun _ c =>
      (Inv D sha256 files ls n (slots ++ held) c ∧ F (D.bytes c.disk)) ∧ φ) :
    Triple P (orGiveBack x slots) Q fun _ c =>
      (Inv D sha256 files ls n held c ∧ F (D.bytes c.disk)) ∧ φ := by
  refine .handle h fun e => ?_
  rintro c ⟨⟨hinv, hF⟩, hφ⟩
  exact ⟨⟨hinv.giveBack, hF⟩, hφ⟩

/-- A page that was read is filed if it has the hash that is demanded; it does
when it is the page of a sealed file. -/
theorem admitPage_spec (hm : Mounted ls) {l p s : ℕ} {hash : Bytes}
    (hdem : Demanded D sha256 files ls l p hash)
    (hfile : ∀ B, F B → Honest D sha256 files ls l → (files l)[p]? = some (B s)) :
    Triple (fun c => Inv D sha256 files ls n (s :: held) c ∧ F (D.bytes c.disk))
      (admitPage D sha256 l p s hash)
      (fun _ c => (Inv D sha256 files ls n held c ∧ F (D.bytes c.disk)) ∧ c.index (l, p) = some s)
      (fun _ c => (Inv D sha256 files ls n held c ∧ F (D.bytes c.disk)) ∧
        ¬ Honest D sha256 files ls l) := by
  refine .bind (Triple.error (orGiveBack_spec (copy_spec (zero_add PAGE).le)) ?_) fun bytes => ?_
  · exact fun _ _ ⟨h, hserves⟩ => ⟨h, fun hh => hserves hh.1⟩
  rintro c ⟨⟨hinv, hF⟩, hbytes⟩
  rw [drop_zero, take_of_length_le (D.length_bytes c.disk s).le] at hbytes
  show Post _ _ ((if sha256 bytes ≠ hash then _ else _ : M δ Unit) c)
  split
  next hbad =>
    refine ⟨⟨hinv.giveBack, hF⟩, fun hh => hbad ?_⟩
    exact hdem.matches hm hh (by rw [hfile _ hF hh, hbytes])
  rename_i hgood
  have hauth := hdem.authentic (b := bytes) (by rw [hbytes, D.length_bytes]) (not_not.1 hgood)
  rw [hbytes] at hauth
  exact ⟨⟨hinv.file ⟨hauth, hfile _ hF⟩, hF⟩, update_self ..⟩

/-- The hash of a page, given that the tree page above it can be brought in. -/
theorem expectedBy_spec (hm : Mounted ls) {l p : ℕ} {bring : ℕ → M δ ℕ}
    (hbring : ∀ L t slot, ls[l]? = some L → L.geometry.parent p = some (.tree t slot) →
      Brings D sha256 files ls n held l (Covered ls l t) (bring t)
        fun s c => c.index (l, t) = some s) :
    Brings D sha256 files ls n held l (Covered ls l p) (expectedBy D bring l p)
      fun hash _ => Demanded D sha256 files ls l p hash := by
  refine .read fun c hc => ?_
  rw [hc.layers]
  cases hL : ls[l]? with
  | none =>
    rintro _ rfl
    refine ⟨hc, fun ⟨_, L, hL', _⟩ => ?_⟩
    rw [hL] at hL'
    cases hL'
  | some L =>
    dsimp only
    have hthrow (hnot : ∀ parent, L.geometry.parent p = some parent → parent = .header) :
        ¬ Covered ls l p := by
      rintro ⟨L', hL', hpos, hlt⟩
      rw [hL] at hL'
      cases hL'
      rcases (hm.sound hL).parent hpos hlt with ⟨-, hroot⟩ | ⟨t, slot, htree, -⟩
      · cases hnot _ hroot
      · cases hnot _ htree
    cases hparent : L.geometry.parent p with
    | none =>
      rintro _ rfl
      exact ⟨hc, fun ⟨_, hcov⟩ => hthrow (by rw [hparent]; nofun) hcov⟩
    | some parent =>
      cases parent with
      | header =>
        rintro _ rfl
        refine ⟨hc, fun ⟨_, hcov⟩ => hthrow (fun parent h => ?_) hcov⟩
        rw [hparent] at h
        exact (Option.some.inj h).symm
      | root =>
        rintro _ rfl
        exact ⟨hc, L, hL, .inl ⟨hparent, rfl⟩⟩
      | tree t slot =>
        obtain ⟨hpos, hlt, hslot, -⟩ := (hm.sound hL).above hparent
        have hpage : slot * HASH_BYTES + HASH_BYTES ≤ PAGE := by
          unfold FANOUT at hslot
          unfold HASH_BYTES PAGE
          omega
        refine .bind (((hbring L t slot hL hparent).of_eq hc).error ?_) fun s => ?_
        · rintro _ c' ⟨hinv, hnot⟩
          exact ⟨hinv, fun ⟨hh, _⟩ => hnot ⟨hh, L, hL, hpos, hlt⟩⟩
        · refine (copyOf_spec hpage).conseq (fun _ h => h) ?_ ?_
          · rintro out c' ⟨hinv, tb, hright, rfl⟩
            exact ⟨hinv, L, hL, .inr ⟨t, slot, tb, hparent, hright, rfl⟩⟩
          · exact fun _ c' ⟨hinv, hserves⟩ => ⟨hinv, fun ⟨hh, _⟩ => hserves hh.1⟩

/-- A page whose hash is known is read, checked and filed. -/
theorem fill_spec (hm : Mounted ls) (hroom : held.length < n) {l p : ℕ} {hash : Bytes}
    (hdem : Demanded D sha256 files ls l p hash) :
    Brings D sha256 files ls n held l (Covered ls l p)
      (do
        let slot ← take
        orGiveBack (onDisk (D.fetch [⟨l, p, slot⟩])) [slot]
        admitPage D sha256 l p slot hash
        pure slot)
      fun s c => c.index (l, p) = some s := by
  have hcov := hdem.covered hm
  refine .bind ((take_spec hroom).error fun _ _ h => h.elim) fun s => ?_
  have hfetch := @fetchOrGiveBack_spec δ D sha256 files ls n held l [⟨l, p, s⟩]
    (nodup_singleton _) (by simp) (by simpa using hcov)
  refine .bind (hfetch.error fun _ c ⟨hinv, hnot⟩ => ⟨hinv, fun hh => hnot hh.1⟩) fun _ => ?_
  have hadm := @admitPage_spec δ D sha256 files ls n held
    (fun B => Honest D sha256 files ls l → (files l)[p]? = some (B s)) hm l p s hash hdem
    fun _ hF => hF
  refine .bind (hadm.conseq ?_ (fun _ _ h => h) ?_) fun _ => ?_
  · exact fun c ⟨hinv, hthere⟩ => ⟨hinv, hthere _ mem_cons_self⟩
  · exact fun _ c ⟨⟨hinv, _⟩, hnot⟩ => ⟨hinv, fun hh => hnot hh.1⟩
  · exact .pure fun c ⟨⟨hinv, _⟩, hindex⟩ => ⟨hinv, hindex⟩

/-- **A page that is brought in is the right one**, and one of a sealed file is
brought in. -/
theorem ensureWithin_spec (hm : Mounted ls) (hroom : held.length < n) {l p depth : ℕ}
    (hdepth : ∀ L, ls[l]? = some L → L.geometry.rank p < depth) :
    Brings D sha256 files ls n held l (Covered ls l p) (ensureWithin D sha256 depth l p)
      fun s c => c.index (l, p) = some s := by
  induction depth generalizing p with
  | zero =>
    intro c hc
    refine ⟨hc, fun ⟨_, L, hL, _⟩ => ?_⟩
    exact absurd (hdepth L hL) (Nat.not_lt_zero _)
  | succ depth ih =>
    refine .read fun c hc => ?_
    cases hindex : c.index (l, p) with
    | some s =>
      rintro _ rfl
      exact ⟨hc.touch (hc.mem_lru hindex), hindex⟩
    | none =>
      refine .seq_right (.of_eq (expectedBy_spec hm fun L t slot hL ht => ih fun L' hL' => ?_) hc)
        fun hash hdem => fill_spec hm hroom hdem
      rw [hL] at hL'
      cases hL'
      have hrank := ((hm.sound hL).above ht).2.2.2
      have := hdepth L hL
      omega

end Steps

/-! ### The calls -/

section Calls

variable {n : ℕ}

theorem ensure_spec (hm : Mounted ls) {held : List ℕ} (hroom : held.length < n) (l p : ℕ) :
    Brings D sha256 files ls n held l (Covered ls l p) (ensure D sha256 l p)
      fun s c => c.index (l, p) = some s :=
  ensureWithin_spec hm hroom fun _ hL => (hm.sound hL).rank_lt p

theorem expected_spec (hm : Mounted ls) {held : List ℕ} (hroom : held.length < n) (l p : ℕ) :
    Brings D sha256 files ls n held l (Covered ls l p) (expected D sha256 l p)
      fun hash _ => Demanded D sha256 files ls l p hash :=
  expectedBy_spec hm fun _ t _ _ _ => ensure_spec hm hroom l t

/-- Bytes that are read are bytes of the right page. -/
theorem read_spec (hm : Mounted ls) (hn : 0 < n) (l p offset len : ℕ) :
    Brings D sha256 files ls n [] l (Covered ls l p ∧ offset + len ≤ PAGE)
      (read D sha256 l p offset len)
      fun out _ => ∃ b, Right D sha256 files ls l p b ∧ out = (b.drop offset).take len := by
  refine .ite (fun hout => ?_) fun hin => ?_
  · exact .throw fun c hc => ⟨hc, fun ⟨_, _, hin⟩ => absurd hin (not_le.2 hout)⟩
  · refine .bind ((ensure_spec hm hn l p).error ?_) fun s => ?_
    · exact fun _ c ⟨hinv, hnot⟩ => ⟨hinv, fun ⟨hh, hcov, _⟩ => hnot ⟨hh, hcov⟩⟩
    · refine (copyOf_spec (not_lt.1 hin)).error ?_
      exact fun _ c ⟨hinv, hserves⟩ => ⟨hinv, fun ⟨hh, _⟩ => hserves hh.1⟩

/-- The pages a batch wants, with their hashes. -/
theorem wantedOf_spec (hm : Mounted ls) (hn : 0 < n) {l : ℕ} (pages : List ℕ)
    {wanted : List (ℕ × Bytes)} (hw : ∀ x ∈ wanted, Demanded D sha256 files ls l x.1 x.2) :
    Brings D sha256 files ls n [] l (∀ p ∈ pages, Covered ls l p)
      (wantedOf D sha256 l pages wanted)
      fun w _ => (∀ x ∈ w, Demanded D sha256 files ls l x.1 x.2) ∧
        w.length ≤ wanted.length + pages.length := by
  induction pages generalizing wanted with
  | nil => exact .pure fun c hc => ⟨hc, hw, Nat.le_add_right _ _⟩
  | cons page pages ih =>
    have hrest {w : List (ℕ × Bytes)} (hlen : w.length ≤ wanted.length + 1)
        (hw : ∀ x ∈ w, Demanded D sha256 files ls l x.1 x.2) :
        Brings D sha256 files ls n [] l (∀ p ∈ page :: pages, Covered ls l p)
          (wantedOf D sha256 l pages w)
          fun w _ => (∀ x ∈ w, Demanded D sha256 files ls l x.1 x.2) ∧
            w.length ≤ wanted.length + (page :: pages).length := by
      refine (ih hw).conseq (fun _ h => h) ?_ ?_
      · rintro w' c ⟨hinv, hw', hlen'⟩
        exact ⟨hinv, hw', by rw [length_cons]; omega⟩
      · rintro _ c ⟨hinv, hnot⟩
        exact ⟨hinv, fun ⟨hh, hcov⟩ => hnot ⟨hh, fun p hp => hcov p (mem_cons_of_mem _ hp)⟩⟩
    refine .read fun c hc => .ite (fun _ => ?_) fun _ => ?_
    · exact (hrest (Nat.le_succ _) hw).of_eq hc
    refine .seq_right (((expected_spec hm hn l page).of_eq hc).error ?_) fun hash hdem => ?_
    · exact fun _ c' ⟨hinv, hnot⟩ => ⟨hinv, fun ⟨hh, hcov⟩ => hnot ⟨hh, hcov page mem_cons_self⟩⟩
    refine hrest (by rw [length_append]; rfl) fun x hx => ?_
    rcases mem_append.1 hx with hx | hx
    · exact hw x hx
    · rw [mem_singleton.1 hx]
      exact hdem

/-- Slots for a batch that is not larger than the cache. -/
theorem readsOf_spec {held : List ℕ} {l : ℕ} {wanted : List (ℕ × Bytes)}
    (hdem : ∀ x ∈ wanted, Demanded D sha256 files ls l x.1 x.2)
    (hroom : held.length + wanted.length ≤ n) :
    Triple (Inv D sha256 files ls n held) (readsOf l wanted)
      (fun reads c => Inv D sha256 files ls n (reads.map Fetch.slot ++ held) c ∧
        Forall₂ (fun r hash => r.layer = l ∧ Demanded D sha256 files ls l r.page hash) reads
          (wanted.map Prod.snd))
      (fun _ _ => False) := by
  induction wanted generalizing held with
  | nil => exact .pure fun c hc => ⟨hc, .nil⟩
  | cons w wanted ih =>
    rw [length_cons] at hroom
    refine .bind (take_spec (by omega)) fun s => ?_
    refine .bind (ih (fun x hx => hdem x (mem_cons_of_mem _ hx)) (by rw [length_cons]; omega))
      fun reads => ?_
    refine .pure fun c ⟨hinv, hreads⟩ => ⟨hinv.of_perm perm_middle.symm, ?_⟩
    exact .cons ⟨rfl, hdem w mem_cons_self⟩ hreads

/-- The pages of a batch are filed, those of an honest layer all of them. -/
theorem admitAll_spec (hm : Mounted ls) {l : ℕ} {F : (ℕ → Bytes) → Prop}
    (pairs : List (Fetch × Bytes)) (failed : Option Error)
    (hdem : ∀ x ∈ pairs, Demanded D sha256 files ls l x.1.page x.2)
    (hfile : ∀ B, F B → ∀ x ∈ pairs, Honest D sha256 files ls l →
      (files l)[x.1.page]? = some (B x.1.slot)) :
    Triple (fun c => Inv D sha256 files ls n (pairs.map (·.1.slot)) c ∧ F (D.bytes c.disk))
      (admitAll D sha256 l pairs failed)
      (fun e c => Inv D sha256 files ls n [] c ∧ (Honest D sha256 files ls l → e = failed))
      (fun _ _ => False) := by
  induction pairs generalizing failed with
  | nil => exact .pure fun c ⟨hinv, _⟩ => ⟨hinv, fun _ => rfl⟩
  | cons x pairs ih =>
    obtain ⟨read, hash⟩ := x
    have hadm := @admitPage_spec δ D sha256 files ls n (pairs.map (·.1.slot)) F hm l read.page
      read.slot hash (hdem _ mem_cons_self)
      fun B hB => hfile B hB _ mem_cons_self
    have hone : Triple (fun c => Inv D sha256 files ls n (read.slot :: pairs.map (·.1.slot)) c ∧
          F (D.bytes c.disk))
        (tryCatch (admitPage D sha256 l read.page read.slot hash *> pure none)
          fun e => pure (some e))
        (fun e c => (Inv D sha256 files ls n (pairs.map (·.1.slot)) c ∧ F (D.bytes c.disk)) ∧
          (Honest D sha256 files ls l → e = none)) (fun _ _ => False) := by
      refine .handle (F := fun _ c => (Inv D sha256 files ls n (pairs.map (·.1.slot)) c ∧
        F (D.bytes c.disk)) ∧ ¬ Honest D sha256 files ls l) ?_ fun e => ?_
      · refine .bind hadm fun _ => ?_
        exact .pure fun c ⟨hinv, _⟩ => ⟨hinv, fun _ => rfl⟩
      · exact .pure fun c ⟨hinv, hnot⟩ => ⟨hinv, fun hh => absurd hh hnot⟩
    refine .seq_right hone fun e he =>
      (ih (failed.or e) (fun x hx => hdem x (mem_cons_of_mem _ hx))
        (fun B hB x hx => hfile B hB x (mem_cons_of_mem _ hx))).post ?_
    rintro e' c ⟨hinv, he'⟩
    refine ⟨hinv, fun hh => ?_⟩
    rw [he' hh, he hh, Option.or_none]

theorem prefetchPart_spec (hm : Mounted ls) (hn : 0 < n) (l : ℕ) {part : List ℕ}
    (hlen : part.length ≤ n) :
    Triple (Inv D sha256 files ls n []) (prefetchPart D sha256 l part)
      (fun _ => Inv D sha256 files ls n [])
      (fun _ c => Inv D sha256 files ls n [] c ∧
        ¬ (Honest D sha256 files ls l ∧ ∀ p ∈ part, Covered ls l p)) := by
  refine .seq_right (wantedOf_spec hm hn part nofun) fun wanted ⟨hdem, hwlen⟩ => ?_
  rw [length_nil] at hwlen
  refine .ite (fun _ => .skip) fun _ => ?_
  refine .bind ((readsOf_spec hdem (by rw [length_nil]; omega)).error
    fun _ _ h => h.elim) fun reads => ?_
  refine .pointwise fun c ⟨hc, hreads⟩ => ?_
  have hnodup : (reads.map Fetch.slot).Nodup := (nodup_append'.1 (append_nil
    (reads.map Fetch.slot) ▸ hc.nodup)).1
  obtain ⟨hlen', hzip⟩ := forall₂_iff_zip.1 hreads
  have hfst : (reads.zip (wanted.map Prod.snd)).map Prod.fst = reads := map_fst_zip hlen'.le
  have hread (r : Fetch) (hr : r ∈ reads) : r.layer = l ∧ Covered ls l r.page := by
    rw [← hfst] at hr
    obtain ⟨x, hx, rfl⟩ := mem_map.1 hr
    exact ⟨(hzip hx).1, (hzip hx).2.covered hm⟩
  have hslots : (reads.zip (wanted.map Prod.snd)).map (·.1.slot) = reads.map Fetch.slot := by
    conv_rhs => rw [← hfst, map_map]
    rfl
  have hfetch := @fetchOrGiveBack_spec δ D sha256 files ls n [] l reads hnodup
    (fun r hr => (hread r hr).1) fun r hr => (hread r hr).2
  refine .bind ((hfetch.of_eq hc).error fun _ c' ⟨hinv, hnot⟩ =>
    ⟨hinv, fun hh => hnot hh.1⟩) fun _ => ?_
  have hadm := @admitAll_spec δ D sha256 files ls n hm l
    (fun B => ∀ r ∈ reads, Honest D sha256 files ls l → (files l)[r.page]? = some (B r.slot))
    (reads.zip (wanted.map Prod.snd)) none (fun x hx => (hzip hx).2)
    (fun B hB x hx => hB _ (hfst ▸ mem_map_of_mem hx))
  rw [hslots] at hadm
  refine .bind (hadm.conseq ?_ (fun _ _ h => h) fun _ _ h => h.elim) fun failed => ?_
  · exact fun c' ⟨hinv, hthere⟩ => ⟨(append_nil (reads.map Fetch.slot)) ▸ hinv, hthere⟩
  cases failed with
  | none => exact .pure fun c' ⟨hinv, _⟩ => hinv
  | some e =>
    refine .throw fun c' ⟨hinv, hfailed⟩ => ⟨hinv, fun ⟨hh, _⟩ => ?_⟩
    cases hfailed hh

/-- **A prefetch keeps the cache right**, and succeeds for the pages of a sealed
file. -/
theorem prefetch_spec (hm : Mounted ls) (hn : 0 < n) (l : ℕ) (pages : List ℕ) :
    Triple (Inv D sha256 files ls n []) (prefetch D sha256 l pages)
      (fun _ => Inv D sha256 files ls n [])
      (fun _ c => Inv D sha256 files ls n [] c ∧
        ¬ (Honest D sha256 files ls l ∧ ∀ p ∈ pages, Covered ls l p)) := by
  refine .read fun c hc => ?_
  rw [hc.slots]
  refine .of_eq (P := Inv D sha256 files ls n []) ?_ hc
  refine .forM (fun _ => Inv D sha256 files ls n []) fun pre part post hparts => ?_
  have hpart : part ∈ chunks (max (n / 2) 1) pages := hparts ▸ mem_append_right _ mem_cons_self
  obtain ⟨i, -, rfl⟩ := mem_map.1 hpart
  refine (prefetchPart_spec hm hn l ((length_take_le _ _).trans (by omega))).error ?_
  rintro _ c' ⟨hinv, hnot⟩
  refine ⟨hinv, fun ⟨hh, hcov⟩ => hnot ⟨hh, fun p hp => hcov p ?_⟩⟩
  exact mem_of_mem_drop (mem_of_mem_take hp)

/-- What is right stays right when another layer is mounted. -/
theorem Inv.mounted {c : Cache δ} (h : Inv D sha256 files ls n [] c) (L : Layer) :
    Inv D sha256 files (ls ++ [L]) n [] { c with layers := c.layers ++ [L] } := by
  refine ⟨congrArg (· ++ [L]) h.layers, h.slots, h.perm, h.listed, h.indexed, fun l p s hs => ?_⟩
  obtain ⟨⟨L', hL', hauth⟩, hfile⟩ := h.right l p s hs
  have hlt := lt_of_getElem? hL'
  have hsame : (ls ++ [L])[l]? = ls[l]? := List.getElem?_append_left hlt
  refine ⟨⟨L', hsame.trans hL', hauth⟩, fun ⟨hserves, L'', hL'', hsealed⟩ => hfile ?_⟩
  exact ⟨hserves, L'', hsame ▸ hL'', hsealed⟩

/-- **Mounting gives the layer that its header page says**, and succeeds for a
sealed file. -/
theorem mount_spec (hn : 0 < n) : Triple (Inv D sha256 files ls n []) (mount D sha256)
      (fun i c => i = ls.length ∧ ∃ L : Layer, L.index = i ∧
        Geometry.new L.header.nodeCount L.header.extentCount L.header.namesLen L.header.dataPages =
          .ok L.geometry ∧
        Inv D sha256 files (ls ++ [L]) n [] c ∧
        (Serves D files → ∀ h g, Sealed sha256 h g (files i) → L.header = h ∧ L.geometry = g))
      (fun _ c => Inv D sha256 files ls n [] c ∧
        ¬ (Serves D files ∧ ∃ h g, Sealed sha256 h g (files ls.length))) := by
  have hnonempty {h : Header} {g : Geometry} (hs : Sealed sha256 h g (files ls.length)) :
      0 < (files ls.length).length := by
    obtain ⟨head, hhead, -⟩ := hs.header
    exact lt_of_getElem? hhead
  refine .read fun c hc => ?_
  rw [hc.layers]
  refine .bind (((take_spec hn).of_eq hc).error fun _ _ h => h.elim) fun s => ?_
  -- the first page of the file, where the disk serves one
  obtain ⟨F, hF⟩ : ∃ F : (ℕ → Bytes) → Prop, F = fun B => Serves D files →
    0 < (files ls.length).length → (files ls.length)[0]? = some (B s) := ⟨_, rfl⟩
  have hfetch := @fetch_spec δ D sha256 files ls n [s] [⟨ls.length, 0, s⟩] (by simp)
    (nodup_singleton _)
  have hpage : Triple (Inv D sha256 files ls n [s])
      (orGiveBack (onDisk (D.fetch [⟨ls.length, 0, s⟩]) *> onDisk (D.copy s 0 PAGE)) [s])
      (fun page c => (Inv D sha256 files ls n [s] c ∧ F (D.bytes c.disk)) ∧
        page = ((D.bytes c.disk s).drop 0).take PAGE)
      (fun _ c => (Inv D sha256 files ls n [] c ∧ True) ∧
        ¬ (Serves D files ∧ 0 < (files ls.length).length)) := by
    refine @orGiveBack_spec δ D sha256 files ls n [] (fun _ => True) _ _ _ _ [s] _ ?_
    refine .bind (Q := fun _ c => Inv D sha256 files ls n [s] c ∧ F (D.bytes c.disk))
      (hfetch.conseq (fun _ h => h) ?_ ?_) fun _ => ?_
    · rintro _ c' ⟨hinv, hthere⟩
      refine ⟨hinv, ?_⟩
      rw [hF]
      exact fun hserves hlen => hthere hserves (by simpa using hlen) _ mem_cons_self
    · rintro _ c' ⟨hinv, hnot⟩
      exact ⟨⟨hinv, trivial⟩, fun ⟨hserves, hlen⟩ => hnot ⟨hserves, by simpa using hlen⟩⟩
    · refine (copy_spec (zero_add PAGE).le).error ?_
      exact fun _ c' ⟨⟨hinv, _⟩, hserves⟩ => ⟨⟨hinv, trivial⟩, fun h => hserves h.1⟩
  refine .bind (hpage.error ?_) fun page => ?_
  · rintro _ c' ⟨⟨hinv, -⟩, hnot⟩
    exact ⟨hinv, fun ⟨hserves, h, g, hs⟩ => hnot ⟨hserves, hnonempty hs⟩⟩
  refine .pointwise fun c' ⟨⟨hc', hF'⟩, hpage'⟩ => ?_
  rw [drop_zero, take_of_length_le (D.length_bytes c'.disk s).le] at hpage'
  have hparsed (hserves : Serves D files) {h : Header} {g : Geometry}
      (hs : Sealed sha256 h g (files ls.length)) : Header.parse sha256 page = .ok (h, g) := by
    obtain ⟨head, hhead, hparse⟩ := hs.header
    rw [hF] at hF'
    rw [hF' hserves (hnonempty hs), ← hpage'] at hhead
    cases hhead
    exact hparse
  refine .bind (Q := fun _ => Inv D sha256 files ls n []) ?_ fun _ => ?_
  · rintro _ rfl
    exact hc'.giveBack
  cases hparse : Header.parse sha256 page with
  | error e =>
    refine .throw fun c'' hc'' => ⟨hc'', fun ⟨hserves, h, g, hs⟩ => ?_⟩
    rw [hparsed hserves hs] at hparse
    cases hparse
  | ok parsed =>
    obtain ⟨header, geometry⟩ := parsed
    have hsame (hserves : Serves D files) {h : Header} {g : Geometry}
        (hs : Sealed sha256 h g (files ls.length)) : header = h ∧ geometry = g := by
      have := (hparsed hserves hs).symm.trans hparse
      cases this
      exact ⟨rfl, rfl⟩
    refine .bind ((devicePages_spec ls.length).error ?_) fun device => ?_
    · rintro _ c'' ⟨hinv, hnot⟩
      refine ⟨hinv, fun ⟨hserves, h, g, hs⟩ => hnot ⟨hserves, ?_⟩⟩
      exact length_pos_iff.1 (hnonempty hs)
    refine .ite (fun hshort => ?_) fun _ => ?_
    · refine .throw fun c'' ⟨hinv, hdevice⟩ => ⟨hinv, fun ⟨hserves, h, g, hs⟩ => ?_⟩
      obtain ⟨-, rfl⟩ := hsame hserves hs
      rw [hdevice hserves (length_pos_iff.1 (hnonempty hs)), hs.length] at hshort
      exact lt_irrefl _ hshort
    · rintro c'' ⟨hinv, -⟩
      refine ⟨rfl, ⟨ls.length, header, geometry⟩, rfl, Header.layout_of_parse hparse,
        hinv.mounted _, fun hserves h g hs => hsame hserves hs⟩

end Calls

/-! ### Runs -/

/-- A call of the cache. -/
inductive Op
  | mount
  | ensure (layer page : ℕ)
  | prefetch (layer : ℕ) (pages : List ℕ)
  | read (layer page offset len : ℕ)
deriving DecidableEq

def left {α : Type} : EStateM.Result Error (Cache δ) α → Cache δ
  | .ok _ c | .error _ c => c

variable (D sha256) in
def Op.after (c : Cache δ) : Op → Cache δ
  | .mount => left (Cache.mount D sha256 c)
  | .ensure layer page => left (Cache.ensure D sha256 layer page c)
  | .prefetch layer pages => left (Cache.prefetch D sha256 layer pages c)
  | .read layer page offset len => left (Cache.read D sha256 layer page offset len c)

variable (D sha256) in
/-- A cache that calls lead to from a new one. -/
def Reached (c : Cache δ) : Prop :=
  ∃ (disk : δ) (slots : ℕ) (c₀ : Cache δ) (ops : List Op), Cache.new disk slots = .ok c₀ ∧
    c = ops.foldl (Op.after D sha256) c₀

variable (D sha256 files) in
/-- What holds of every cache that is reached: the invariant, and that layers
served as sealed files are mounted as those. -/
def Kept (n : ℕ) (c : Cache δ) : Prop :=
  Mounted c.layers ∧ Inv D sha256 files c.layers n [] c ∧
    (Serves D files → ∀ (l : ℕ) (L : Layer), c.layers[l]? = some L → ∀ h g,
      Sealed sha256 h g (files l) → L.header = h ∧ L.geometry = g)

theorem Kept.honest {n : ℕ} {c : Cache δ} (h : Kept D sha256 files n c) (hserves : Serves D files)
    {l : ℕ} (hl : l < c.layers.length) {hd : Header} {g : Geometry}
    (hs : Sealed sha256 hd g (files l)) :
    Honest D sha256 files c.layers l ∧ ∃ L, c.layers[l]? = some L ∧ L.geometry = g := by
  have hL := getElem?_eq_getElem hl
  obtain ⟨rfl, rfl⟩ := h.2.2 hserves l _ hL hd g hs
  exact ⟨⟨hserves, _, hL, hs⟩, _, hL, rfl⟩

theorem Kept.of_inv {n : ℕ} {c c' : Cache δ} (h : Kept D sha256 files n c)
    (h' : Inv D sha256 files c.layers n [] c') : Kept D sha256 files n c' := by
  obtain ⟨hm, -, hsync⟩ := h
  have hl := h'.layers
  exact ⟨hl ▸ hm, hl ▸ h', hl ▸ hsync⟩

theorem left_of_post {α : Type} {P : Cache δ → Prop} {r : EStateM.Result Error (Cache δ) α}
    {Q : α → Cache δ → Prop} {E : Error → Cache δ → Prop} (h : Post Q E r)
    (hQ : ∀ a c, Q a c → P c) (hE : ∀ e c, E e c → P c) : P (left r) := by
  cases r with
  | ok a c => exact hQ a c h
  | error e c => exact hE e c h

theorem Kept.after {n : ℕ} (hn : 0 < n) {c : Cache δ} (h : Kept D sha256 files n c) (op : Op) :
    Kept D sha256 files n (op.after D sha256 c) := by
  obtain ⟨hm, hinv, hsync⟩ := id h
  cases op with
  | mount =>
    refine left_of_post (mount_spec hn c hinv) ?_ fun _ c' h' => h.of_inv h'.1
    rintro i c' ⟨rfl, L, hidx, hlayout, hinv', hL⟩
    have hl := hinv'.layers
    have hcase {l : ℕ} {L' : Layer} (hl' : c'.layers[l]? = some L') :
        c.layers[l]? = some L' ∨ l = c.layers.length ∧ L' = L :=
      getElem?_concat_eq_some.mp (hl ▸ hl')
    refine ⟨fun l L' hl' => ?_, hl ▸ hinv', fun hserves l L' hl' => ?_⟩
    · rcases hcase hl' with hl' | ⟨rfl, rfl⟩
      · exact hm l L' hl'
      · exact ⟨hidx, hlayout⟩
    · rcases hcase hl' with hl' | ⟨rfl, rfl⟩
      · exact hsync hserves l L' hl'
      · exact hL hserves
  | ensure l p =>
    exact left_of_post (ensure_spec hm hn l p c hinv) (fun _ _ h' => h.of_inv h'.1)
      fun _ _ h' => h.of_inv h'.1
  | prefetch l pages =>
    exact left_of_post (prefetch_spec hm hn l pages c hinv) (fun _ _ h' => h.of_inv h')
      fun _ _ h' => h.of_inv h'.1
  | read l p offset len =>
    exact left_of_post (read_spec hm hn l p offset len c hinv) (fun _ _ h' => h.of_inv h'.1)
      fun _ _ h' => h.of_inv h'.1

variable (files) in
/-- **Every cache that is reached is right.** -/
theorem Reached.kept {c : Cache δ} (h : Reached D sha256 c) :
    ∃ n, 0 < n ∧ Kept D sha256 files n c := by
  obtain ⟨disk, slots, c₀, ops, hnew, rfl⟩ := h
  unfold Cache.new at hnew
  split at hnew
  next hroom =>
    have hn : 0 < slots := by omega
    refine ⟨slots, hn, ?_⟩
    have hstart : Kept D sha256 files slots c₀ := by
      cases hnew
      refine ⟨nofun, ⟨rfl, rfl, ?_, by simp, nofun, nofun⟩, nofun⟩
      rw [nil_append, append_nil]
    clear hnew
    induction ops generalizing c₀ with
    | nil => exact hstart
    | cons op ops ih => exact ih _ (hstart.after hn op)
  next => cases hnew

theorem Reached.read_authentic {c c' : Cache δ} (h : Reached D sha256 c) {l p offset len : ℕ}
    {out : Bytes} (hread : read D sha256 l p offset len c = .ok out c') :
    ∃ L b, c'.layers[l]? = some L ∧ Authentic sha256 L.header L.geometry p b ∧
      Geometry.new L.header.nodeCount L.header.extentCount L.header.namesLen L.header.dataPages =
        .ok L.geometry ∧ out = (b.drop offset).take len := by
  obtain ⟨n, hn, hm, hinv, -⟩ := h.kept fun _ => []
  obtain ⟨hinv', b, ⟨⟨L, hL, hauth⟩, -⟩, rfl⟩ := (read_spec hm hn l p offset len).of_ok hinv hread
  exact ⟨L, b, by rw [hinv'.layers, hL], hauth, (hm l L hL).2, rfl⟩

/-- The slot that is handed out holds an authentic page. -/
theorem Reached.ensure_authentic {c c' : Cache δ} (h : Reached D sha256 c) {l p s : ℕ}
    (hensure : ensure D sha256 l p c = .ok s c') :
    ∃ L, c'.layers[l]? = some L ∧
      Authentic sha256 L.header L.geometry p (D.bytes c'.disk s) := by
  obtain ⟨n, hn, hm, hinv, -⟩ := h.kept fun _ => []
  obtain ⟨hinv', hindex⟩ := (ensure_spec hm hn l p).of_ok hinv hensure
  obtain ⟨⟨L, hL, hauth⟩, -⟩ := hinv'.right l p s hindex
  exact ⟨L, by rw [hinv'.layers, hL], hauth⟩

/-- A sealed file that is served can be mounted, and then all of it is read but its
header page. -/
theorem Reached.serves_all {c : Cache δ} (h : Reached D sha256 c) (hserves : Serves D files) {l : ℕ}
    {hd : Header} {g : Geometry} (hs : Sealed sha256 hd g (files l)) :
    (l = c.layers.length → ∃ c', mount D sha256 c = .ok l c') ∧
    (l < c.layers.length → ∀ p b, 0 < p → (files l)[p]? = some b → ∀ offset len,
      offset + len ≤ PAGE →
        ∃ c', read D sha256 l p offset len c = .ok ((b.drop offset).take len) c') := by
  obtain ⟨n, hn, hkept⟩ := h.kept files
  obtain ⟨hm, hinv, -⟩ := id hkept
  constructor
  · rintro rfl
    rcases hr : mount D sha256 c with ⟨i, c'⟩ | ⟨e, c'⟩
    · obtain ⟨rfl, -⟩ := (mount_spec hn).of_ok hinv hr
      exact ⟨c', rfl⟩
    · exact absurd ⟨hserves, hd, g, hs⟩ ((mount_spec hn).of_error hinv hr).2
  · intro hl p b hpos hb offset len hin
    obtain ⟨hh, L, hL, rfl⟩ := hkept.honest hserves hl hs
    have hlt : p < L.geometry.pages := hs.length ▸ (lt_of_getElem? hb)
    rcases hr : read D sha256 l p offset len c with ⟨out, c'⟩ | ⟨e, c'⟩
    · obtain ⟨-, b', ⟨-, hfile⟩, rfl⟩ := (read_spec hm hn l p offset len).of_ok hinv hr
      rw [hfile hh] at hb
      cases hb
      exact ⟨c', rfl⟩
    · exact absurd ⟨hh, ⟨L, hL, hpos, hlt⟩, hin⟩
        ((read_spec hm hn l p offset len).of_error hinv hr).2

end Cache

/-! ### Every byte handed out is authenticated -/

/-- **Every byte handed out is authenticated by the header of its layer**, whatever
the devices hold; so without collisions among pages two layers with one header
never give different bytes for one page.  Of a file as the writer makes it, every
page but the header's can be read.  No layout has more than `LEVELS_MAX` levels,
and every page but the header's and the top one has its hash in one slot of one
tree page of the file. -/
theorem pages_authenticated (sha256 : Bytes → Bytes) :
    (∀ (δ : Type) (D : Disk δ) (c c' : Cache δ), Cache.Reached D sha256 c →
      (∀ l p offset len out, Cache.read D sha256 l p offset len c = .ok out c' →
        ∃ L b, c'.layers[l]? = some L ∧ Authentic sha256 L.header L.geometry p b ∧
          out = (b.drop offset).take len) ∧
      (∀ l p s, Cache.ensure D sha256 l p c = .ok s c' → ∃ L, c'.layers[l]? = some L ∧
          Authentic sha256 L.header L.geometry p (D.bytes c'.disk s))) ∧
    ((∀ a b : Bytes, a.length = PAGE → b.length = PAGE → sha256 a = sha256 b → a = b) →
      ∀ (δ₁ δ₂ : Type) (D₁ : Disk δ₁) (D₂ : Disk δ₂) (c₁ c₁' : Cache δ₁) (c₂ c₂' : Cache δ₂),
        Cache.Reached D₁ sha256 c₁ → Cache.Reached D₂ sha256 c₂ →
        ∀ l₁ l₂ p offset len out₁ out₂, Cache.read D₁ sha256 l₁ p offset len c₁ = .ok out₁ c₁' →
          Cache.read D₂ sha256 l₂ p offset len c₂ = .ok out₂ c₂' →
          (c₁'.layers[l₁]?).map Layer.header = (c₂'.layers[l₂]?).map Layer.header → out₁ = out₂) ∧
    ((∀ b, (sha256 b).length = HASH_BYTES) → ∀ n e l d g content,
      Geometry.new n e l d = .ok g → content.length = g.treePage - 1 →
      (∀ b ∈ content, b.length = PAGE) →
        ∃ file, assembleTree sha256 n e l d content = .ok file ∧ file.length = g.pages ∧
          ∀ (δ : Type) (D : Disk δ) (files : ℕ → List Bytes) (k : ℕ) (c : Cache δ),
            Serves D files → files k = file → Cache.Reached D sha256 c →
            (k = c.layers.length → ∃ c', Cache.mount D sha256 c = .ok k c') ∧
            (k < c.layers.length → ∀ p, 0 < p → p < g.pages → ∀ offset len, offset + len ≤ PAGE →
              ∃ b c', file[p]? = some b ∧
                Cache.read D sha256 k p offset len c = .ok ((b.drop offset).take len) c')) ∧
    (∀ n e l d, Geometry.new n e l d ≠ .error .outOfLevels ∧
      ∀ g, Geometry.new n e l d = .ok g → g.level.length ≤ LEVELS_MAX ∧
        g.parent g.top = some .root ∧
        ∀ page, 0 < page → page < g.pages → page ≠ g.top →
          ∃! s : ℕ × ℕ, g.parent page = some (.tree s.1 s.2) ∧ g.treePage ≤ s.1 ∧
            s.1 < g.pages ∧ s.2 < FANOUT) := by
  refine ⟨fun δ D c c' hc => ⟨fun l p offset len out hread => ?_, fun l p s h =>
    hc.ensure_authentic h⟩, fun hinj δ₁ δ₂ D₁ D₂ c₁ c₁' c₂ c₂' h₁ h₂ l₁ l₂ p offset len out₁ out₂
    hr₁ hr₂ hsame => ?_, fun hsha n e l d g content hg hlen hpage => ?_, fun n e l d => ⟨?_, ?_⟩⟩
  · obtain ⟨L, b, hL, hauth, -, hout⟩ := hc.read_authentic hread
    exact ⟨L, b, hL, hauth, hout⟩
  · -- one header gives one layout, and a page one content
    obtain ⟨L₁, b₁, hL₁, ha₁, hg₁, rfl⟩ := h₁.read_authentic hr₁
    obtain ⟨L₂, b₂, hL₂, ha₂, hg₂, rfl⟩ := h₂.read_authentic hr₂
    rw [hL₁, hL₂] at hsame
    have hheader : L₁.header = L₂.header := Option.some.inj hsame
    rw [hheader] at ha₁ hg₁
    have hgeometry : L₁.geometry = L₂.geometry := Except.ok.inj (hg₁.symm.trans hg₂)
    rw [hgeometry] at ha₁
    rw [ha₁.unique hinj ha₂]
  · obtain ⟨head, tree, root, hfile, hsealed⟩ := assembleTree_spec hsha hg hlen hpage
    refine ⟨_, hfile, hsealed.length, fun δ D files k c hserves hk hc => ?_⟩
    rw [← hk] at hsealed ⊢
    obtain ⟨hmount, hread⟩ := hc.serves_all hserves hsealed
    refine ⟨hmount, fun hlt p hpos hp offset len hin => ?_⟩
    have hb := getElem?_eq_getElem (hsealed.length.symm ▸ hp : p < (files k).length)
    obtain ⟨c', hc'⟩ := hread hlt p _ hpos hb offset len hin
    exact ⟨_, c', hb, hc'⟩
  · rcases Geometry.new_spec n e l d with ⟨why, h⟩ | ⟨g, h, -⟩ <;> rw [h] <;> nofun
  · intro g hg
    have hsound := (Geometry.laid_of_new hg).sound
    have htop := hsound.top
    have htree := hsound.treePage_lt
    have hcontent := hsound.content
    refine ⟨hsound.short, ?_, fun page hpos hlt hne => ?_⟩
    · rcases hsound.parent (by omega : 0 < g.top) (by omega) with
        ⟨-, hr⟩ | ⟨t, _, -, hlater, -, ht, -⟩
      · exact hr
      · omega
    rcases hsound.parent hpos hlt with ⟨heq, -⟩ | ⟨t, slot, hp, -, hge, ht, hslot, -⟩
    · exact absurd heq hne
    · refine ⟨(t, slot), ⟨hp, hge, ht, hslot⟩, fun s hs => ?_⟩
      have := hp.symm.trans hs.1
      cases this
      rfl

/-! ### A disk in memory -/

/-- The slots of a disk in memory. -/
abbrev Slots := ℕ → { b : Bytes // b.length = PAGE }

/-- A page brought into its slot; a page that is not there leaves it. -/
def Slots.put (files : ℕ → List Bytes) (d : Slots) (r : Fetch) : Slots :=
  match (files r.layer)[r.page]? with
  | none => d
  | some b => if h : b.length = PAGE then update d r.slot ⟨b, h⟩ else d

variable {files : ℕ → List Bytes}

theorem Slots.put_of_ne {d : Slots} {r : Fetch} {s : ℕ} (h : s ≠ r.slot) :
    d.put files r s = d s := by
  unfold Slots.put
  cases (files r.layer)[r.page]? with
  | none => rfl
  | some b =>
    by_cases hb : b.length = PAGE
    · simp only [dif_pos hb, update_of_ne h]
    · simp only [dif_neg hb]

theorem Slots.foldl_put_of_notMem (reads : List Fetch) (d : Slots) {s : ℕ}
    (h : s ∉ reads.map Fetch.slot) : reads.foldl (Slots.put files) d s = d s := by
  induction reads generalizing d with
  | nil => rfl
  | cons r reads ih =>
    rw [map_cons, mem_cons, not_or] at h
    rw [foldl_cons, ih _ h.2, Slots.put_of_ne h.1]

/-- A disk that holds these files, its slots in memory. -/
def memoryDisk (files : ℕ → List Bytes) : Disk Slots where
  fetch reads d := (.ok (), reads.foldl (Slots.put files) d)
  copy slot offset len d := (.ok (((d slot).1.drop offset).take len), d)
  devicePages layer d := (.ok (files layer).length, d)
  bytes d slot := (d slot).1
  length_bytes d slot := (d slot).2
  bytes_fetch reads d _ h := congrArg Subtype.val (Slots.foldl_put_of_notMem reads d h)
  bytes_copy _ _ _ _ := rfl
  copy_eq _ _ _ _ _ h := (Except.ok.inj h).symm
  bytes_devicePages _ _ := rfl

theorem serves_memoryDisk (h : ∀ l, ∀ b ∈ files l, b.length = PAGE) :
    Serves (memoryDisk files) files := by
  refine ⟨fun reads d hnodup hpages => ⟨rfl, ?_⟩, fun _ _ _ _ _ => ⟨_, rfl⟩, fun _ _ _ => rfl⟩
  show ∀ r ∈ reads, _ = some (reads.foldl (.put files) d r.slot).1
  induction reads generalizing d with
  | nil => nofun
  | cons r reads ih =>
    rw [map_cons, nodup_cons] at hnodup
    intro q hq
    rw [foldl_cons]
    rcases mem_cons.1 hq with rfl | hq
    · -- later reads go into other slots
      have hb := getElem?_eq_getElem (hpages q mem_cons_self)
      have hlen := h q.layer _ (mem_of_getElem? hb)
      rw [Slots.foldl_put_of_notMem reads _ hnodup.1, Slots.put, hb]
      dsimp only
      rw [dif_pos hlen, update_self]
    · exact ih (d.put files r) hnodup.2 (fun r hr => hpages r (mem_cons_of_mem _ hr)) q hq

/-- A digest of one value. -/
def flatHash : Bytes → Bytes := fun _ => List.replicate HASH_BYTES 0

/-- **The header page of a mounted layer is not read**: no slot of the tree holds
its hash. -/
theorem header_page_refused :
    ∃ (files : ℕ → List Bytes) (h : Header) (g : Geometry) (c : Cache Slots),
      Sealed flatHash h g (files 0) ∧ Serves (memoryDisk files) files ∧
      Cache.Reached (memoryDisk files) flatHash c ∧ 0 < c.layers.length ∧
      g.parent 0 = some .header ∧
      ∀ offset len out c',
      Cache.read (memoryDisk files) flatHash 0 0 offset len c ≠ .ok out c' := by
  obtain ⟨g, hg, hlaid⟩ : ∃ g, Geometry.new 1 0 0 0 = .ok g ∧ g.treePage = 2 := ⟨_, rfl, by decide⟩
  obtain ⟨head, tree, root, -, hsealed⟩ := @assembleTree_spec flatHash
    (fun _ => length_replicate) 1 0 0 0 g hg [List.replicate PAGE 0] (by rw [hlaid]; rfl)
    (by intro b hb; rw [mem_singleton.1 hb]; exact length_replicate)
  obtain ⟨files, hfiles⟩ : ∃ files : ℕ → List Bytes,
    files = fun _ => head :: ([List.replicate PAGE 0] ++ tree) := ⟨_, rfl⟩
  have hserves : Serves (memoryDisk files) files := by
    refine serves_memoryDisk fun l b hb => hsealed.page b ?_
    rwa [hfiles] at hb
  obtain ⟨c₀, hnew⟩ : ∃ c₀, Cache.new (fun _ => ⟨List.replicate PAGE 0, length_replicate⟩ : Slots)
    16 = .ok c₀ := ⟨_, rfl⟩
  have hlayers : c₀.layers = [] := by
    cases hnew
    rfl
  have hstart : Cache.Reached (memoryDisk files) flatHash c₀ := ⟨_, _, c₀, [], hnew, rfl⟩
  have hsealed' : Sealed flatHash ⟨1, 0, 0, 0, root⟩ g (files 0) := by
    rw [hfiles]
    exact hsealed
  obtain ⟨c, hmount⟩ := (hstart.serves_all hserves hsealed').1 (by rw [hlayers]; rfl)
  have hc : Cache.Reached (memoryDisk files) flatHash c := by
    refine ⟨_, _, c₀, [.mount], hnew, ?_⟩
    show c = Cache.left (Cache.mount (memoryDisk files) flatHash c₀)
    rw [hmount]
    rfl
  refine ⟨files, _, g, c, hsealed', hserves, hc, ?_, rfl, fun offset len out c' hread => ?_⟩
  · obtain ⟨n, hn, -, hinv, -⟩ := hstart.kept files
    obtain ⟨-, L, -, -, hinv', -⟩ := (Cache.mount_spec hn).of_ok hinv hmount
    rw [hinv'.layers, length_append]
    exact Nat.succ_pos _
  · obtain ⟨L, b, -, hauth, -⟩ := hc.read_authentic hread
    cases hauth with
    | root top _ _ => cases top
    | tree parent _ _ _ => cases parent

end Moruna.ImageFs
