/-
Moruna/Kernel/Handles.lean

A process's handle table.

A handle value is a slot index and a 16-bit generation, XORed with the table's salt.
Freeing a slot advances its generation, so a closed value should name nothing; the
free slots are a stack, so the slot freed last is the next one used.

The generation wraps.  A run is therefore followed with two things the table does not
keep: how often each slot's generation has been advanced (its age), and the history of
the values issued and removed.

* `churn_revives` — a run that wraps one slot brings a removed value back.
-/
import Moruna.Lib.Slices
import Moruna.Kernel.Abi

namespace Moruna.Kernel

open List Function

/-- What names an entry of a table. -/
abbrev RawHandle := UInt32

/-- One slot of a table: its generation, and the entry it holds. -/
structure HandleSlot (T : Type*) where
  generation : UInt16
  entry : Option T
  deriving DecidableEq

/-- A handle table: its slots, the stack of the free ones (its top first), the salt of
its values, and how many slots are in use. -/
structure HandleTable (T : Type*) where
  slots : List (HandleSlot T)
  free : List ℕ
  salt : UInt32
  count : ℕ
  deriving DecidableEq

namespace HandleTable

variable {T : Type*}

def new (salt : UInt32) : HandleTable T := ⟨[], [], salt, 0⟩

/-! ### Values -/

/-- A slot and its generation in one word. -/
def pack (slot : ℕ) (generation : UInt16) : UInt32 :=
  (generation.toUInt32 <<< 16) ||| (UInt32.ofNat slot + 1)

variable (t : HandleTable T)

def encode (slot : ℕ) (generation : UInt16) : RawHandle := pack slot generation ^^^ t.salt

def decode (value : RawHandle) : Option (ℕ × UInt16) :=
  let x := value ^^^ t.salt
  let index := (x &&& 0xffff).toNat
  if index = 0 then none else some (index - 1, (x >>> 16).toUInt16)

/-! ### Operations -/

/-- `handle` put in `slot`.  A generation whose value would be zero is passed over. -/
def fill (slot : ℕ) (handle : T) : RawHandle × HandleTable T :=
  let old := (t.slots.getD slot ⟨0, none⟩).generation
  let generation := if t.encode slot old = 0 then old + 1 else old
  (t.encode slot generation,
    { t with slots := t.slots.set slot ⟨generation, some handle⟩, count := t.count + 1 })

/-- Inserts `handle`, or gives it back with why not.  `reserve` says whether the kernel
has memory for one more slot. -/
def insertOrReturn (handle : T) (reserve : Bool) : Except (Error × T) (RawHandle × HandleTable T) :=
  if Limits.HANDLES_PER_PROCESS ≤ t.count then .error (.limit, handle)
  else match t.free with
    | slot :: free => .ok (fill { t with free } slot handle)
    | [] =>
      if reserve then
        .ok (fill { t with slots := t.slots ++ [⟨0, none⟩] } t.slots.length handle)
      else .error (.noMemory, handle)

def insert (handle : T) (reserve : Bool) : Except Error (RawHandle × HandleTable T) :=
  (t.insertOrReturn handle reserve).mapError Prod.fst

def get (value : RawHandle) : Except Error T :=
  match t.decode value with
  | none => .error .badHandle
  | some (slot, generation) =>
    match t.slots[slot]? with
    | some ⟨g, some handle⟩ => if g = generation then .ok handle else .error .badHandle
    | _ => .error .badHandle

def remove (value : RawHandle) : Except Error (T × HandleTable T) :=
  match t.get value, t.decode value with
  | .ok handle, some (slot, _) =>
    .ok (handle, { t with
      slots := t.slots.modify slot fun s => ⟨s.generation + 1, none⟩
      free := slot :: t.free
      count := t.count - 1 })
  | .error e, _ => .error e
  | .ok _, none => .error .badHandle

def drain : List T × HandleTable T :=
  (t.slots.filterMap HandleSlot.entry, { t with
    slots := t.slots.map fun s => ⟨s.generation + 1, none⟩
    free := (List.range t.slots.length).reverse
    count := 0 })

/-! ### Packing -/

theorem toNat_pack {slot : ℕ} (h : slot + 1 < 65536) (g : UInt16) :
    (pack slot g).toNat = g.toNat * 65536 + (slot + 1) := by
  have hg := g.toNat_lt
  have hs : (UInt32.ofNat slot + 1).toNat = slot + 1 := by
    rw [UInt32.toNat_add, UInt32.toNat_ofNat', UInt32.toNat_one]
    omega
  have hl : (g.toUInt32 <<< 16).toNat = g.toNat <<< 16 := by
    show g.toNat <<< 16 % 2 ^ 32 = _
    omega
  rw [pack, UInt32.toNat_or, hl, hs, ← Nat.shiftLeft_add_eq_or_of_lt h, Nat.shiftLeft_eq]

variable {i j : ℕ} {g g' : UInt16} {h x : T} {slot : HandleSlot T} {reserve : Bool}

theorem pack_inj (hi : i + 1 < 65536) (hj : j + 1 < 65536)
    (h : pack i g = pack j g') : i = j ∧ g = g' := by
  have h' := congrArg UInt32.toNat h
  rw [toNat_pack hi, toNat_pack hj] at h'
  exact ⟨by omega, UInt16.toNat_inj.mp (by omega)⟩

variable {t t' : HandleTable T} {v : RawHandle}

theorem encode_inj (hi : i + 1 < 65536) (hj : j + 1 < 65536)
    (h : t.encode i g = t.encode j g') : i = j ∧ g = g' :=
  pack_inj hi hj (by simpa [encode, UInt32.xor_assoc] using congrArg (· ^^^ t.salt) h)

/-- A value decodes to the slot and the generation it packs, and to nothing else. -/
theorem decode_eq_some :
    t.decode v = some (i, g) ↔ i + 1 < 65536 ∧ v = t.encode i g := by
  have hx : ∀ x : UInt32, (x &&& 0xffff).toNat = x.toNat % 65536 := fun x => by
    exact Nat.and_two_pow_sub_one_eq_mod _ 16
  have hy : ∀ x : UInt32, ((x >>> 16).toUInt16).toNat = x.toNat / 65536 := fun x => by
    have := x.toNat_lt
    show x.toNat >>> 16 % 65536 = _
    omega
  have hv : v = t.encode i g ↔ v ^^^ t.salt = pack i g := by
    rw [encode]
    constructor
    · rintro rfl
      rw [UInt32.xor_assoc, UInt32.xor_self, UInt32.xor_zero]
    · intro h
      rw [← h, UInt32.xor_assoc, UInt32.xor_self, UInt32.xor_zero]
  rw [hv]
  simp only [decode]
  generalize v ^^^ t.salt = x
  rw [hx]
  constructor
  · intro h
    split at h
    · cases h
    rw [Option.some.injEq, Prod.mk.injEq] at h
    have hg := congrArg UInt16.toNat h.2
    rw [hy] at hg
    have hi : i + 1 < 65536 := by omega
    refine ⟨hi, UInt32.toNat_inj.mp ?_⟩
    rw [toNat_pack hi]
    omega
  · rintro ⟨hi, rfl⟩
    have hp := toNat_pack hi g
    rw [if_neg (by omega), Option.some.injEq, Prod.mk.injEq]
    refine ⟨by omega, UInt16.toNat_inj.mp ?_⟩
    rw [hy]
    omega

/-! ### What each operation does -/

/-- What `get` finds: an occupied slot whose value it is. -/
theorem get_eq_ok (ht : t.slots.length < 65536) :
    t.get v = .ok h ↔ ∃ i g, t.slots[i]? = some ⟨g, some h⟩ ∧ v = t.encode i g := by
  constructor
  · intro hv
    unfold get at hv
    split at hv
    · cases hv
    rename_i i g hd
    split at hv
    · rename_i g' h' hs
      split at hv
      · rename_i hg
        cases hv
        exact ⟨i, g, hg ▸ hs, (decode_eq_some.mp hd).2⟩
      · cases hv
    · cases hv
  · rintro ⟨i, g, hs, rfl⟩
    have hi := lt_of_getElem? hs
    have hd : t.decode (t.encode i g) = some (i, g) := decode_eq_some.mpr ⟨by omega, rfl⟩
    simp [get, hd, hs]

def freed (t : HandleTable T) (i : ℕ) : HandleTable T :=
  { t with
    slots := t.slots.modify i fun s => ⟨s.generation + 1, none⟩
    free := i :: t.free
    count := t.count - 1 }

theorem remove_eq_ok (ht : t.slots.length < 65536) : t.remove v = .ok (h, t') ↔
      ∃ i g, t.slots[i]? = some ⟨g, some h⟩ ∧ v = t.encode i g ∧ t' = t.freed i := by
  constructor
  · intro hv
    unfold remove at hv
    split at hv
    · rename_i handle i g hget hd
      obtain ⟨rfl, rfl⟩ := hv
      obtain ⟨j, g', hs, rfl⟩ := (get_eq_ok ht).mp hget
      have hj := lt_of_getElem? hs
      rw [decode_eq_some.mpr ⟨by omega, rfl⟩, Option.some.injEq, Prod.mk.injEq] at hd
      obtain ⟨rfl, rfl⟩ := hd
      exact ⟨j, g', hs, rfl, rfl⟩
    · cases hv
    · cases hv
  · rintro ⟨i, g, hs, rfl, rfl⟩
    have hi := lt_of_getElem? hs
    have hd : t.decode (t.encode i g) = some (i, g) := decode_eq_some.mpr ⟨by omega, rfl⟩
    have hg : t.get (t.encode i g) = .ok h := (get_eq_ok ht).mpr ⟨i, g, hs, rfl⟩
    simp [remove, hd, hg, freed]

/-- The slot an insert takes. -/
def taken (t : HandleTable T) (reserve : Bool) : Option ℕ :=
  if Limits.HANDLES_PER_PROCESS ≤ t.count then none
  else match t.free with
    | slot :: _ => some slot
    | [] => if reserve then some t.slots.length else none

/-- The table whose taken slot is off the stack, or made. -/
def opened (t : HandleTable T) : HandleTable T :=
  match t.free with
  | _ :: free => { t with free }
  | [] => { t with slots := t.slots ++ [⟨0, none⟩] }

theorem insertOrReturn_eq (t : HandleTable T) (h : T) (reserve : Bool) :
    (∃ i, t.taken reserve = some i ∧ t.insertOrReturn h reserve = .ok (t.opened.fill i h)) ∨
      (t.taken reserve = none ∧ ∃ e, t.insertOrReturn h reserve = .error (e, h)) := by
  unfold taken insertOrReturn opened
  split
  · exact .inr ⟨rfl, _, rfl⟩
  rcases t.free with _ | ⟨i, free⟩
  · cases reserve with
    | false => exact .inr ⟨rfl, _, rfl⟩
    | true => exact .inl ⟨_, rfl, rfl⟩
  · exact .inl ⟨_, rfl, rfl⟩

@[simp] theorem salt_opened (t : HandleTable T) : t.opened.salt = t.salt := by
  unfold opened
  split <;> rfl

@[simp] theorem count_opened (t : HandleTable T) : t.opened.count = t.count := by
  unfold opened
  split <;> rfl

theorem encode_congr (h : t'.salt = t.salt) : t'.encode = t.encode := by
  funext i g
  rw [encode, encode, h]

/-! ### The table as a map

What a table keeps about its slots does not depend on how old they are: the free stack
holds each empty slot once, and the count is that of the occupied ones.  With it, an insert
adds one value that named nothing and leaves every other as it was, and a remove takes one
away; the generations only decide which value is added. -/

/-- The weights of the handles in the table, added up. -/
def sum (t : HandleTable T) (w : T → ℕ) : ℕ := (t.slots.map fun s => s.entry.elim 0 w).sum

/-- What every operation keeps of the slots. -/
structure Ok (t : HandleTable T) : Prop where
  small : t.slots.length ≤ Limits.HANDLES_PER_PROCESS
  free_nodup : t.free.Nodup
  free_iff : ∀ i, i ∈ t.free ↔ ∃ g, t.slots[i]? = some ⟨g, none⟩
  count_eq : t.count = t.slots.countP fun slot => slot.entry.isSome

theorem Ok.new (salt : UInt32) : (HandleTable.new salt : HandleTable T).Ok :=
  ⟨Nat.zero_le _, nodup_nil, by simp [HandleTable.new], rfl⟩

theorem lt_of_small {n : ℕ} (h : n ≤ Limits.HANDLES_PER_PROCESS) : n < 65536 := by
  unfold Limits.HANDLES_PER_PROCESS at h
  omega

theorem Ok.lt (h : t.Ok) : t.slots.length < 65536 := lt_of_small h.small

theorem sum_map_set {α : Type*} (f : α → ℕ) : ∀ (l : List α) (i : ℕ) (x y : α), l[i]? = some x →
    ((l.set i y).map f).sum + f x = (l.map f).sum + f y
  | z :: l, 0, x, y, h => by
    cases h
    simp only [set_cons_zero, map_cons, sum_cons]
    omega
  | z :: l, i + 1, x, y, h => by
    have := sum_map_set f l i x y h
    simp only [set_cons_succ, map_cons, sum_cons]
    omega

/-- A slot that becomes another: the table otherwise as it was. -/
theorem getElem?_set_slot {l : List (HandleSlot T)} (hi : i < l.length) (s : HandleSlot T)
    (j : ℕ) : (l.set i s)[j]? = if j = i then some s else l[j]? := by
  rw [getElem?_set]
  rcases eq_or_ne j i with rfl | hj
  · simp [hi]
  · rw [if_neg (Ne.symm hj), if_neg hj]

theorem getElem?_freed (hi : t.slots[i]? = some slot) :
    (t.freed i).slots = t.slots.set i ⟨slot.generation + 1, none⟩ ∧ ∀ j, (t.freed i).slots[j]?
      = if j = i then some ⟨slot.generation + 1, none⟩ else t.slots[j]? := by
  have hilt := lt_of_getElem? hi
  have hset : (t.freed i).slots = t.slots.set i ⟨slot.generation + 1, none⟩ := by
    refine List.ext_getElem? fun j => ?_
    rw [freed]
    rcases eq_or_ne i j with rfl | hj
    · simp [hilt, (List.getElem?_eq_some_iff.mp hi).2]
    · simp [hj]
  exact ⟨hset, fun j => by rw [hset, getElem?_set_slot hilt]⟩

/-- A slot that is taken and filled: the table otherwise as it was. -/
theorem getElem?_set_opened (hi : i < t.opened.slots.length)
    (hothers : ∀ j, j ≠ i → t.opened.slots[j]? = t.slots[j]?) (s : HandleSlot T) (j : ℕ) :
    (t.opened.slots.set i s)[j]? = if j = i then some s else t.slots[j]? := by
  rw [getElem?_set_slot hi]
  split
  · rfl
  · rename_i hj
    exact hothers j hj

/-- What an insert finds at the slot it takes: nothing, in a table that is otherwise as it
was. -/
theorem Ok.opens (h : t.Ok) (hi : t.taken reserve = some i) :
    (∃ old, t.opened.slots[i]? = some ⟨old, none⟩) ∧ (∀ g x, t.slots[i]? ≠ some ⟨g, some x⟩) ∧
      (∀ j, j ≠ i → t.opened.slots[j]? = t.slots[j]?) ∧
      t.opened.slots.length ≤ Limits.HANDLES_PER_PROCESS ∧
      (∀ j, j ∈ t.opened.free ↔ j ≠ i ∧ j ∈ t.free) ∧ t.opened.free.Nodup ∧
      t.count = (t.opened.slots.countP fun slot => slot.entry.isSome) ∧
      ∀ w, t.opened.sum w = t.sum w := by
  unfold taken at hi
  split at hi
  · cases hi
  rcases hf : t.free with _ | ⟨j, free⟩
  · -- no slot is free, so every slot is counted, and one more is made
    have hopen : t.opened = { t with slots := t.slots ++ [⟨0, none⟩] } := by simp [opened, hf]
    have hall : t.count = t.slots.length := by
      rw [h.count_eq, countP_eq_length]
      intro slot hslot
      obtain ⟨j, hj⟩ := mem_iff_getElem?.mp hslot
      rcases slot with ⟨g, _ | x⟩
      · exact absurd ((h.free_iff j).mpr ⟨g, hj⟩) (by simp [hf])
      · rfl
    have hlen : i = t.slots.length := by cases reserve <;> simp_all
    subst hlen
    refine ⟨⟨0, by simp [hopen]⟩, by simp, fun j hj => ?_, ?_, by simp [hopen, hf],
      by simp [hopen, hf], by simp [hopen, h.count_eq], fun w => by simp [hopen, sum]⟩
    · rw [hopen]
      rcases lt_or_ge j t.slots.length with hlt | hge
      · exact getElem?_append_left hlt
      · rw [getElem?_eq_none hge, getElem?_eq_none (by simp; omega)]
    · simp [hopen]
      omega
  · have hopen : t.opened = { t with free } := by simp [opened, hf]
    have hij : j = i := by simpa [hf] using hi
    subst hij
    obtain ⟨old, hold⟩ := (h.free_iff j).mp (by simp [hf])
    have hnodup := h.free_nodup
    rw [hf, nodup_cons] at hnodup
    refine ⟨⟨old, by simpa [hopen] using hold⟩, by simp [hold], by simp [hopen],
      by simpa [hopen] using h.small, fun k => ?_, by simpa [hopen] using hnodup.2,
      by simpa [hopen] using h.count_eq, fun w => by rw [hopen]; rfl⟩
    rw [hopen, mem_cons]
    constructor
    · exact fun hk => ⟨fun hkj => hnodup.1 (hkj ▸ hk), .inr hk⟩
    · exact fun hk => hk.2.resolve_left hk.1

/-- **Insert.**  One value more, which named nothing. -/
theorem Ok.insert (h : t.Ok) (hins : t.insertOrReturn x reserve = .ok (v, t')) :
    t'.Ok ∧ (∀ y, t.get v ≠ .ok y) ∧
      (∀ u y, t'.get u = .ok y ↔ u = v ∧ y = x ∨ t.get u = .ok y) ∧
      t'.count = t.count + 1 ∧ ∀ w, t'.sum w = t.sum w + w x := by
  rcases t.insertOrReturn_eq x reserve with ⟨i, hi, heq⟩ | ⟨-, e, heq⟩
  swap
  · rw [heq] at hins
    cases hins
  obtain ⟨⟨old, hempty⟩, hfree, hothers, hsmall, hmem, hnodup, hcount, hsum⟩ := h.opens hi
  have hilt := lt_of_getElem? hempty
  have hlen : i + 1 < 65536 := lt_of_small (hilt.trans_le hsmall)
  rw [heq, fill] at hins
  generalize (if t.opened.encode i (t.opened.slots.getD i ⟨0, none⟩).generation = 0 then
    (t.opened.slots.getD i ⟨0, none⟩).generation + 1
    else (t.opened.slots.getD i ⟨0, none⟩).generation) = g at hins
  obtain ⟨rfl, rfl⟩ := hins
  have hslot := getElem?_set_opened hilt hothers ⟨g, some x⟩
  have hcode : t.opened.encode = t.encode := encode_congr t.salt_opened
  have hcode' : ∀ (l : List (HandleSlot T)) (c : ℕ),
      ({ t.opened with slots := l, count := c } : HandleTable T).encode = t.encode :=
    fun _ _ => encode_congr t.salt_opened
  refine ⟨⟨by simpa using hsmall, hnodup, fun j => ?_, ?_⟩, fun y hy => ?_, fun u y => ?_, ?_,
    fun w => ?_⟩
  · rw [hmem, h.free_iff]
    rcases eq_or_ne j i with rfl | hj <;> simp_all
  · show t.opened.count + 1 = _
    rw [count_opened, List.countP_set hilt, hcount, (List.getElem?_eq_some_iff.mp hempty).2]
    simp
  · obtain ⟨j, g', hj, he⟩ := (get_eq_ok h.lt).mp hy
    rw [hcode] at he
    have hj' := lt_of_getElem? hj
    have := h.lt
    obtain ⟨rfl, rfl⟩ := encode_inj hlen (by omega) he
    exact hfree _ _ hj
  · rw [get_eq_ok (by simpa using lt_of_small hsmall), get_eq_ok h.lt]
    simp only [hslot, hcode']
    constructor
    · rintro ⟨j, g', hj, rfl⟩
      split at hj
      · rename_i hji
        cases hj
        exact .inl ⟨by rw [hji], rfl⟩
      · exact .inr ⟨j, g', hj, rfl⟩
    · rintro (⟨rfl, rfl⟩ | ⟨j, g', hj, rfl⟩)
      · exact ⟨i, g, by simp, rfl⟩
      refine ⟨j, g', ?_, rfl⟩
      rw [if_neg]
      · exact hj
      · rintro rfl
        exact hfree _ _ hj
  · exact congrArg (· + 1) t.count_opened
  · have := sum_map_set (fun s : HandleSlot T => s.entry.elim 0 w) t.opened.slots i _
      ⟨g, some x⟩ hempty
    rw [← hsum w]
    exact this

/-- A value that names a handle can be removed. -/
theorem Ok.remove_of_get (h : t.Ok) (hv : t.get v = .ok x) :
    ∃ t', t.remove v = .ok (x, t') := by
  obtain ⟨i, g, hs, rfl⟩ := (get_eq_ok h.lt).mp hv
  exact ⟨t.freed i, (remove_eq_ok h.lt).mpr ⟨i, g, hs, rfl, rfl⟩⟩

/-- **Remove.**  One value less. -/
theorem Ok.remove (h : t.Ok) (hr : t.remove v = .ok (x, t')) :
    t'.Ok ∧ t.get v = .ok x ∧ (∀ u y, t'.get u = .ok y ↔ u ≠ v ∧ t.get u = .ok y) ∧
      t'.count + 1 = t.count ∧ ∀ w, t'.sum w + w x = t.sum w := by
  obtain ⟨i, g, hi, rfl, rfl⟩ := (remove_eq_ok h.lt).mp hr
  have hilt := lt_of_getElem? hi
  have hlt := h.lt
  obtain ⟨hset, hslot⟩ := getElem?_freed hi
  have hlen : (t.freed i).slots.length = t.slots.length := by simp [hset]
  have hfree : i ∉ t.free := by
    intro hmem
    obtain ⟨g', hg'⟩ := (h.free_iff i).mp hmem
    simp [hi] at hg'
  have hpos : 0 < t.count := by
    rw [h.count_eq, List.countP_pos_iff]
    exact ⟨_, List.mem_of_getElem? hi, rfl⟩
  refine ⟨⟨hlen ▸ h.small, List.nodup_cons.mpr ⟨hfree, h.free_nodup⟩, fun j => ?_, ?_⟩,
    (get_eq_ok h.lt).mpr ⟨i, g, hi, rfl⟩, fun u y => ?_, ?_, fun w => ?_⟩
  · show j ∈ i :: t.free ↔ _
    rw [List.mem_cons, h.free_iff]
    rcases eq_or_ne j i with rfl | hj <;> simp_all
  · show t.count - 1 = _
    rw [hset, List.countP_set hilt, h.count_eq, (List.getElem?_eq_some_iff.mp hi).2]
    simp
  · rw [get_eq_ok (hlen ▸ h.lt), get_eq_ok h.lt]
    simp only [hslot]
    constructor
    · rintro ⟨j, g', hj, rfl⟩
      split at hj
      · cases hj
      · rename_i hji
        refine ⟨fun he => hji ?_, j, g', hj, rfl⟩
        have hj' := lt_of_getElem? hj
        exact (encode_inj (by omega) (by omega) he).1
    · rintro ⟨hne, j, g', hj, rfl⟩
      refine ⟨j, g', ?_, rfl⟩
      rw [if_neg]
      · exact hj
      · rintro rfl
        rw [hi] at hj
        cases hj
        exact hne rfl
  · show t.count - 1 + 1 = t.count
    omega
  · have := sum_map_set (fun s : HandleSlot T => s.entry.elim 0 w) t.slots i _ ⟨g + 1, none⟩ hi
    rw [← hset] at this
    exact this

theorem sum_filterMap_entry (w : T → ℕ) : ∀ l : List (HandleSlot T),
    ((l.filterMap HandleSlot.entry).map w).sum = (l.map fun s => s.entry.elim 0 w).sum
  | [] => rfl
  | ⟨g, none⟩ :: l => by simpa using sum_filterMap_entry w l
  | ⟨g, some x⟩ :: l => by simpa using sum_filterMap_entry w l

theorem getElem?_drain : t.drain.2.slots[j]? = some slot ↔
    ∃ old, t.slots[j]? = some old ∧ ⟨old.generation + 1, none⟩ = slot := by
  rw [drain, getElem?_map, Option.map_eq_some_iff]

/-- **Drain.**  Every handle comes out. -/
theorem Ok.drain (h : t.Ok) :
    t.drain.2.Ok ∧ (∀ u y, t.drain.2.get u ≠ .ok y) ∧ (∀ w, t.drain.2.sum w = 0) ∧
      ∀ w, (t.drain.1.map w).sum = t.sum w := by
  have hlen : t.drain.2.slots.length = t.slots.length := length_map _
  refine ⟨⟨hlen ▸ h.small, ?_, fun j => ?_, ?_⟩, fun u y hu => ?_, fun w => ?_,
    fun w => sum_filterMap_entry w t.slots⟩
  · exact nodup_reverse.mpr nodup_range
  · show j ∈ (List.range t.slots.length).reverse ↔ _
    rw [mem_reverse, mem_range]
    constructor
    · intro hj
      exact ⟨_, getElem?_drain.mpr ⟨_, getElem?_eq_getElem hj, rfl⟩⟩
    · rintro ⟨g, hg⟩
      obtain ⟨slot, hs, -⟩ := getElem?_drain.mp hg
      exact lt_of_getElem? hs
  · show 0 = (t.slots.map fun s : HandleSlot T => HandleSlot.mk (s.generation + 1) none).countP _
    rw [countP_map]
    exact (countP_eq_zero.mpr fun _ _ => by simp).symm
  · obtain ⟨i, g, hi, -⟩ := (get_eq_ok (hlen ▸ h.lt)).mp hu
    obtain ⟨slot, -, he⟩ := getElem?_drain.mp hi
    cases he
  · show ((t.slots.map fun s : HandleSlot T => HandleSlot.mk (s.generation + 1) none).map _).sum = 0
    rw [map_map]
    exact sum_eq_zero fun n hn => by
      obtain ⟨s, -, rfl⟩ := mem_map.mp hn
      rfl

end HandleTable

/-! ### Runs -/

/-- What happens to values: one is issued for an entry, one is removed, all are. -/
inductive HandleEvent (T : Type*) where
  | issued (value : RawHandle) (handle : T)
  | removed (value : RawHandle)
  | drained
  deriving DecidableEq

/-- The values a history (latest first) has issued. -/
def issued {T : Type*} : List (HandleEvent T) → List RawHandle
  | [] => []
  | .issued v _ :: past => v :: issued past
  | _ :: past => issued past

/-- The entry a value was issued for, while it has not been removed since. -/
def named {T : Type*} : List (HandleEvent T) → RawHandle → Option T
  | [], _ => none
  | .issued v h :: past, w => if w = v then some h else named past w
  | .removed v :: past, w => if w = v then none else named past w
  | .drained :: _, _ => none

/-- A call on a table. -/
inductive HandleOp (T : Type*) where
  | insert (handle : T) (reserve : Bool)
  | get (value : RawHandle)
  | remove (value : RawHandle)
  | drain
  deriving DecidableEq

/-- A table with its history, and how often each slot's generation was advanced. -/
structure Handled (T : Type*) where
  table : HandleTable T
  ages : ℕ → ℕ
  history : List (HandleEvent T)

namespace Handled

open HandleTable

variable {T : Type*}

def new (salt : UInt32) : Handled T := ⟨.new salt, fun _ => 0, []⟩

/-- How old a slot is when an insert fills it: an insert that passes a value over
advances the generation too. -/
def filledAge (s : Handled T) (i : ℕ) : ℕ :=
  let old := (s.table.opened.slots.getD i ⟨0, none⟩).generation
  if s.table.encode i old = 0 then s.ages i + 1 else s.ages i

def step (s : Handled T) : HandleOp T → Handled T
  | .insert h reserve =>
    match s.table.insertOrReturn h reserve, s.table.taken reserve with
    | .ok (v, table), some i => ⟨table, update s.ages i (s.filledAge i), .issued v h :: s.history⟩
    | _, _ => s
  | .get _ => s
  | .remove v =>
    match s.table.remove v, s.table.decode v with
    | .ok (_, table), some (i, _) =>
      ⟨table, update s.ages i (s.ages i + 1), .removed v :: s.history⟩
    | _, _ => s
  | .drain =>
    ⟨s.table.drain.2, fun i => if i < s.table.slots.length then s.ages i + 1 else s.ages i,
      .drained :: s.history⟩

def run (s : Handled T) (ops : List (HandleOp T)) : Handled T := ops.foldl step s

/-- An insert takes a slot whose generation has not been all the way round. -/
def Young (s : Handled T) : HandleOp T → Prop
  | .insert _ reserve => ∀ i, s.table.taken reserve = some i → s.filledAge i < 65536
  | _ => True

/-- Every step of a run is one. -/
def YoungRun (s : Handled T) : List (HandleOp T) → Prop
  | [] => True
  | op :: ops => s.Young op ∧ (s.step op).YoungRun ops

/-- **What a table promises**: its live values differ and none is zero; `get` and
`remove` answer for exactly the values issued and not removed since; no value is issued
twice, and one that has gone stays gone; the free stack holds each empty slot once, and
the count is that of the occupied ones. -/
structure Sound (s : Handled T) : Prop where
  distinct : ∀ i j g g' h h', s.table.slots[i]? = some ⟨g, some h⟩ →
    s.table.slots[j]? = some ⟨g', some h'⟩ → s.table.encode i g = s.table.encode j g' → i = j
  nonzero : 0 ∉ issued s.history
  get_iff : ∀ v h, s.table.get v = .ok h ↔ named s.history v = some h
  remove_iff : ∀ v h, (∃ t, s.table.remove v = .ok (h, t)) ↔ named s.history v = some h
  once : (issued s.history).Nodup
  gone : ∀ later earlier v, s.history = later ++ earlier → v ∈ issued earlier →
    named earlier v = none → ∀ h, s.table.get v ≠ .ok h
  free_nodup : s.table.free.Nodup
  free_iff : ∀ i, i ∈ s.table.free ↔ ∃ g, s.table.slots[i]? = some ⟨g, none⟩
  count_eq : s.table.count = s.table.slots.countP fun slot => slot.entry.isSome

/-- What every step keeps.  A value issued for slot `i` carries a generation below the
slot's age, or is the one that fills it. -/
structure Inv (s : Handled T) : Prop where
  small : s.table.slots.length ≤ Limits.HANDLES_PER_PROCESS
  free_nodup : s.table.free.Nodup
  free_iff : ∀ i, i ∈ s.table.free ↔ ∃ g, s.table.slots[i]? = some ⟨g, none⟩
  count_eq : s.table.count = s.table.slots.countP fun slot => slot.entry.isSome
  age : ∀ i slot, s.table.slots[i]? = some slot → slot.generation.toNat = s.ages i % 65536
  unborn : ∀ i, s.table.slots.length ≤ i → s.ages i = 0
  filled : ∀ i g h, s.table.slots[i]? = some ⟨g, some h⟩ → s.ages i < 65536
  past : ∀ v ∈ issued s.history, v ≠ 0 ∧ ∃ i g, i < s.table.slots.length ∧
    v = s.table.encode i g ∧
    (g.toNat < s.ages i ∨ ∃ h, s.table.slots[i]? = some ⟨g, some h⟩)
  once : (issued s.history).Nodup
  names : ∀ v h, named s.history v = some h ↔
    ∃ i g, s.table.slots[i]? = some ⟨g, some h⟩ ∧ v = s.table.encode i g

theorem Inv.new (salt : UInt32) : Inv (Handled.new salt : Handled T) where
  small := by simp [Handled.new, HandleTable.new]
  free_nodup := nodup_nil
  free_iff := by simp [Handled.new, HandleTable.new]
  count_eq := rfl
  age := by simp [Handled.new, HandleTable.new]
  unborn := fun _ _ => rfl
  filled := by simp [Handled.new, HandleTable.new]
  past := by simp [Handled.new, issued]
  once := nodup_nil
  names := by simp [Handled.new, HandleTable.new, named]

variable {s : Handled T}

variable (hs : s.Inv)

include hs

variable {i : ℕ} {reserve : Bool} {h : T}

/-- An occupied slot is one of the at most 4096 a value has room for. -/
theorem Inv.lt {slot : HandleSlot T} (hi : s.table.slots[i]? = some slot) : i + 1 < 65536 :=
  lt_of_small ((lt_of_getElem? hi).trans_le hs.small)

omit hs in
/-- What an insert finds at the slot it takes: nothing, under a generation that is the
slot's age, in a table that is otherwise as it was. -/
structure Opens (s : Handled T) (i : ℕ) (old : UInt16) : Prop where
  empty : s.table.opened.slots[i]? = some ⟨old, none⟩
  free : ∀ g h, s.table.slots[i]? ≠ some ⟨g, some h⟩
  others : ∀ j, j ≠ i → s.table.opened.slots[j]? = s.table.slots[j]?
  small : s.table.opened.slots.length ≤ Limits.HANDLES_PER_PROCESS
  le : s.table.slots.length ≤ s.table.opened.slots.length
  age : old.toNat = s.ages i % 65536
  mem_free : ∀ j, j ∈ s.table.opened.free ↔ j ≠ i ∧ j ∈ s.table.free
  nodup : s.table.opened.free.Nodup
  count : s.table.count = s.table.opened.slots.countP fun slot => slot.entry.isSome

theorem Inv.ok : s.table.Ok := ⟨hs.small, hs.free_nodup, hs.free_iff, hs.count_eq⟩

theorem Inv.get_iff (v : RawHandle) (h : T) :
    s.table.get v = .ok h ↔ named s.history v = some h := by
  rw [get_eq_ok hs.ok.lt, hs.names]

/-- One slot becomes another and is `a` advances old; a value it had carries an earlier
generation. -/
theorem Inv.of_slot {t : HandleTable T} {a : ℕ} {g : UInt16} {x : Option T}
    {history : List (HandleEvent T)} (hok : t.Ok) (hcode : t.encode = s.table.encode)
    (hslot : ∀ j, t.slots[j]? = if j = i then some ⟨g, x⟩ else s.table.slots[j]?)
    (hlen : s.table.slots.length ≤ t.slots.length) (hage : g.toNat = a % 65536)
    (hle : s.ages i ≤ a) (hfilled : ∀ h, x = some h → a < 65536)
    (hbefore : ∀ g' h, s.table.slots[i]? = some ⟨g', some h⟩ → g'.toNat < a)
    (hpast : ∀ v ∈ issued history, v ∉ issued s.history →
      v ≠ 0 ∧ v = s.table.encode i g ∧ ∃ h, x = some h)
    (honce : (issued history).Nodup)
    (hnames : ∀ v h, named history v = some h ↔ t.get v = .ok h) :
    Inv ⟨t, update s.ages i a, history⟩ := by
  have hi : i < t.slots.length := lt_of_getElem? ((hslot i).trans (if_pos rfl))
  refine ⟨hok.small, hok.free_nodup, hok.free_iff, hok.count_eq, fun j slot hj => ?_,
    fun j hj => ?_, fun j g' h hj => ?_, fun v hv => ?_, honce,
    fun v h => (hnames v h).trans (get_eq_ok hok.lt)⟩
  · rw [hslot] at hj
    split at hj
    · rename_i hji
      cases hj
      simpa only [hji, update_self] using hage
    · rename_i hji
      simpa only [update_of_ne hji] using hs.age _ _ hj
  · have hji : j ≠ i := (hi.trans_le hj).ne'
    simpa only [update_of_ne hji] using hs.unborn j (hlen.trans hj)
  · rw [hslot] at hj
    split at hj
    · rename_i hji
      cases hj
      simpa only [hji, update_self] using hfilled h rfl
    · rename_i hji
      simpa only [update_of_ne hji] using hs.filled _ _ _ hj
  · simp only [hcode, hslot]
    by_cases hv' : v ∈ issued s.history
    · obtain ⟨hv0, j, g', hj, he, hold⟩ := hs.past v hv'
      refine ⟨hv0, j, g', hj.trans_le hlen, he, ?_⟩
      rcases eq_or_ne j i with rfl | hji
      · rw [update_self]
        exact .inl (hold.elim hle.trans_lt' fun ⟨h, hh⟩ => hbefore g' h hh)
      · simpa only [update_of_ne hji, if_neg hji] using hold
    · obtain ⟨hv0, rfl, h, rfl⟩ := hpast v hv hv'
      exact ⟨hv0, i, g, hi, rfl, .inr ⟨h, if_pos rfl⟩⟩

theorem Inv.opens (hi : s.table.taken reserve = some i) :
    ∃ old, s.Opens i old := by
  obtain ⟨⟨old, hempty⟩, hfree, hothers, hsmall, hmem, hnodup, hcount, -⟩ := hs.ok.opens hi
  have hslots : s.table.opened.slots = s.table.slots ∨
      s.table.opened.slots = s.table.slots ++ [⟨0, none⟩] := by
    unfold opened
    split
    · exact .inl rfl
    · exact .inr rfl
  refine ⟨old, hempty, hfree, hothers, hsmall, ?_, ?_, hmem, hnodup, hcount⟩
  · rcases hslots with h | h <;> simp [h]
  rcases hslots with h | h
  · exact hs.age _ _ (h ▸ hempty)
  rw [h] at hempty
  rcases getElem?_concat_eq_some.mp hempty with hold | ⟨rfl, hnew⟩
  · exact hs.age _ _ hold
  · -- a slot made for this insert has no age
    rw [hs.unborn _ le_rfl]
    cases hnew
    rfl

omit hs in
/-- An insert into a young slot fills it under its age, with a value that is not zero. -/
theorem Opens.fill {old : UInt16} (ho : s.Opens i old) (hy : s.filledAge i < 65536) (h : T) :
    ∃ g : UInt16, s.table.opened.fill i h = (s.table.encode i g, { s.table.opened with
          slots := s.table.opened.slots.set i ⟨g, some h⟩, count := s.table.count + 1 }) ∧
      g.toNat = s.filledAge i ∧ s.ages i ≤ g.toNat ∧ s.table.encode i g ≠ 0 := by
  have hget : (s.table.opened.slots.getD i ⟨0, none⟩).generation = old := by
    rw [getD_eq_getElem?_getD, ho.empty]
    rfl
  have henc : s.table.opened.encode = s.table.encode := encode_congr s.table.salt_opened
  have hi : i + 1 < 65536 :=
    lt_of_small ((lt_of_getElem? ho.empty).trans_le ho.small)
  have hage := ho.age
  unfold filledAge at hy ⊢
  rw [hget] at hy ⊢
  rcases eq_or_ne (s.table.encode i old) 0 with hz | hz
  · -- the value would be zero: the generation after it is used
    simp only [hz, if_true] at hy ⊢
    have hnext : (old + 1).toNat = s.ages i + 1 := by
      rw [UInt16.toNat_add, UInt16.toNat_one]
      omega
    refine ⟨old + 1, ?_, hnext, by omega, ?_⟩
    · simp [HandleTable.fill, ho.empty, henc, hz]
    · intro hz'
      have := (encode_inj hi hi (hz'.trans hz.symm)).2
      have := congrArg UInt16.toNat this
      omega
  · simp only [hz, if_false] at hy ⊢
    exact ⟨old, by simp [HandleTable.fill, ho.empty, henc, hz], by omega, by omega, hz⟩

/-- **Insert step.**  A young insert keeps the invariant: the value it issues is older
than every one its slot has had. -/
theorem Inv.insert (hy : s.Young (.insert h reserve)) :
    (s.step (.insert h reserve)).Inv := by
  rcases s.table.insertOrReturn_eq h reserve with ⟨i, hi, hins⟩ | ⟨hi, e, hins⟩
  swap
  · simpa [step, hi, hins] using hs
  obtain ⟨old, ho⟩ := hs.opens hi
  obtain ⟨g, hfill, hg, hle, hz⟩ := ho.fill (hy i hi) h
  rw [hfill] at hins
  have hilt := lt_of_getElem? ho.empty
  have hlen : i + 1 < 65536 := lt_of_small (hilt.trans_le ho.small)
  simp only [step, hins, hi]
  have hnew : s.table.encode i g ∉ issued s.history := by
    intro hmem
    obtain ⟨-, j, g', hj, he, hlt⟩ := hs.past _ hmem
    have := hs.ok.lt
    obtain ⟨rfl, rfl⟩ := encode_inj hlen (by omega) he
    rcases hlt with hlt | ⟨h', hh⟩
    · omega
    · exact ho.free _ _ hh
  obtain ⟨hok, hnone, hget, -⟩ := hs.ok.insert hins
  refine hs.of_slot hok (encode_congr s.table.salt_opened) (getElem?_set_opened hilt ho.others _)
    (by rw [List.length_set]; exact ho.le) ?_ (hg ▸ hle) (fun _ _ => hg ▸ g.toNat_lt)
    (fun g' h' hh => absurd hh (ho.free g' h')) (fun v hv hv' => ?_)
    (List.nodup_cons.mpr ⟨hnew, hs.once⟩) ?_
  · rw [← hg, Nat.mod_eq_of_lt g.toNat_lt]
  · rw [issued, List.mem_cons] at hv
    obtain rfl := hv.resolve_right hv'
    exact ⟨hz, rfl, h, rfl⟩
  intro v h'
  rw [hget, hs.get_iff, named]
  split
  · rename_i hv
    have := hnone h'
    rw [← hv, Ne, hs.get_iff] at this
    simp [hv, hv ▸ this, eq_comm]
  · rename_i hv
    simp [hv]

/-- **Remove step.**  The slot that is given back is one older than its last value. -/
theorem Inv.remove (v : RawHandle) : (s.step (.remove v)).Inv := by
  rcases hr : s.table.remove v with e | ⟨h, t'⟩
  · simpa [step, hr] using hs
  obtain ⟨i, g, hi, rfl, rfl⟩ := (remove_eq_ok hs.ok.lt).mp hr
  have hlt := hs.lt hi
  have hd : s.table.decode (s.table.encode i g) = some (i, g) := decode_eq_some.mpr ⟨hlt, rfl⟩
  simp only [step, hr, hd]
  have hage : g.toNat = s.ages i % 65536 := hs.age _ _ hi
  obtain ⟨hset, hslot⟩ := getElem?_freed hi
  have hlen : (s.table.freed i).slots.length = s.table.slots.length := by simp [hset]
  obtain ⟨hok, -, hget, -⟩ := hs.ok.remove hr
  refine hs.of_slot hok (encode_congr rfl) hslot hlen.ge ?_ (Nat.le_succ _) nofun
    (fun g' h' hh => ?_) (fun v hv hv' => absurd hv hv') hs.once ?_
  · rw [UInt16.toNat_add, UInt16.toNat_one, hage]
    omega
  · rw [hi] at hh
    cases hh
    omega
  intro w h'
  rw [hget, hs.get_iff, named]
  split
  · rename_i hw
    simp [hw]
  · rename_i hw
    simp [hw]

/-- **Drain step.**  Every slot is empty and one older. -/
theorem Inv.drain : (s.step .drain).Inv := by
  have hlen : s.table.drain.2.slots.length = s.table.slots.length := List.length_map _
  have hcode : s.table.drain.2.encode = s.table.encode := encode_congr rfl
  obtain ⟨hok, hnone, -, -⟩ := hs.ok.drain
  refine ⟨hok.small, hok.free_nodup, hok.free_iff, hok.count_eq, ?_, ?_, ?_, ?_, hs.once,
    fun v h => ⟨nofun, fun hv => absurd ((get_eq_ok hok.lt).mpr hv) (hnone v h)⟩⟩
  · intro j slot hj
    obtain ⟨old, hold, rfl⟩ := getElem?_drain.mp hj
    have hage := hs.age _ _ hold
    simp only [step, if_pos (lt_of_getElem? hold)]
    rw [UInt16.toNat_add, UInt16.toNat_one]
    omega
  · intro j hj
    have hj' : s.table.slots.length ≤ j := hlen ▸ hj
    simp only [step, if_neg (not_lt.mpr hj')]
    exact hs.unborn j hj'
  · intro j g h hj
    obtain ⟨_, _, hcon⟩ := getElem?_drain.mp hj
    cases hcon
  · intro v hv
    obtain ⟨hv0, j, g, hj, he, hold⟩ := hs.past v hv
    refine ⟨hv0, j, g, hlen.symm ▸ hj, by rw [← hcode] at he; exact he, .inl ?_⟩
    simp only [step, if_pos hj]
    rcases hold with hold | ⟨h, hh⟩
    · omega
    · have hage : g.toNat = s.ages j % 65536 := hs.age _ _ hh
      omega

theorem Inv.step {op : HandleOp T} (hy : s.Young op) : (s.step op).Inv := by
  cases op with
  | insert h reserve => exact hs.insert hy
  | get v => exact hs
  | remove v => exact hs.remove v
  | drain => exact hs.drain

/-- **Run lemma.** -/
theorem run_inv {ops : List (HandleOp T)} (hy : s.YoungRun ops) : (s.run ops).Inv := by
  induction ops generalizing s with
  | nil => exact hs
  | cons op ops ih => exact ih (hs.step hy.1) hy.2

omit hs

/-- A value that is not issued again names what it named before. -/
theorem named_of_append {later earlier : List (HandleEvent T)} {v : RawHandle}
    (hv : v ∉ issued later) (hn : named (later ++ earlier) v = some h) :
    named earlier v = some h := by
  induction later with
  | nil => exact hn
  | cons e later ih =>
    cases e with
    | issued w h' =>
      rw [issued, mem_cons, not_or] at hv
      rw [cons_append, named, if_neg hv.1] at hn
      exact ih hv.2 hn
    | removed w =>
      rw [cons_append, named] at hn
      split at hn
      · cases hn
      · exact ih hv hn
    | drained => cases hn

theorem issued_append (later earlier : List (HandleEvent T)) :
    issued (later ++ earlier) = issued later ++ issued earlier := by
  induction later with
  | nil => rfl
  | cons e later ih => cases e <;> simp [issued, ih]

theorem Inv.sound (hs : s.Inv) : s.Sound := by
  refine ⟨?_, ?_, hs.get_iff, ?_, hs.once, ?_, hs.free_nodup, hs.free_iff, hs.count_eq⟩
  · intro i j g g' h h' hi hj he
    exact (encode_inj (hs.lt hi) (hs.lt hj) he).1
  · exact fun h0 => (hs.past 0 h0).1 rfl
  · intro v h
    rw [← hs.get_iff]
    exact ⟨fun ⟨_, ht⟩ => (hs.ok.remove ht).2.1, hs.ok.remove_of_get⟩
  · intro later earlier v hcut hv hnone h hok
    have honce := hs.once
    rw [hcut, issued_append] at honce
    have hfresh : v ∉ issued later := fun hl => (disjoint_of_nodup_append honce) hl hv
    have := named_of_append hfresh (hcut ▸ (hs.get_iff v h).mp hok)
    rw [hnone] at this
    cases this

/-- **Handle values are unforgeable while generations last.**  A run of inserts, gets,
removals and drains, of any length, whose inserts take slots advanced fewer than
`2 ^ 16` times, keeps every promise of the table. -/
theorem run_sound (salt : UInt32) (ops : List (HandleOp T))
    (hy : (Handled.new salt : Handled T).YoungRun ops) : ((Handled.new salt).run ops).Sound :=
  (run_inv (.new salt) hy).sound

/-- Two entries, the second in the slot of the first; the first value names nothing. -/
theorem run_sound_reuse : let ops : List (HandleOp ℕ) := [.insert 7 true, .remove 1, .insert 8 true]
    (Handled.new 0 : Handled ℕ).YoungRun ops ∧ ((Handled.new 0).run ops).Sound ∧
      ((Handled.new 0).run ops).table.get 1 = .error .badHandle ∧
      ((Handled.new 0).run ops).table.get 65537 = .ok 8 := by
  have hy : (.new 0 : Handled ℕ).YoungRun [.insert 7 true, .remove 1, .insert 8 true] := by
    refine ⟨?_, trivial, ?_, trivial⟩ <;> intro i hi <;> cases hi <;> decide
  exact ⟨hy, run_sound 0 _ hy, by decide, by decide⟩

/-! ### The generation wraps -/

/-- One entry is inserted, and then `n` times removed and replaced by the next. -/
def churn : ℕ → List (HandleOp ℕ)
  | 0 => [.insert 0 true]
  | n + 1 => churn n ++ [.remove (pack 0 (UInt16.ofNat n)), .insert (n + 1) true]

/-- The table after `n` rounds: one slot, `n` generations on. -/
def churned (n : ℕ) : HandleTable ℕ := ⟨[⟨UInt16.ofNat n, some n⟩], [], 0, 1⟩

theorem encode_churned (n i : ℕ) (g : UInt16) : (churned n).encode i g = pack i g := by
  simp [encode, churned]

theorem step_churned {s : Handled ℕ} {n : ℕ} (hs : s.table = churned n) :
    ((s.step (.remove (pack 0 (UInt16.ofNat n)))).step
      (.insert (n + 1) true)).table = churned (n + 1) ∧
    ∃ later, ((s.step (.remove (pack 0 (UInt16.ofNat n)))).step (.insert (n + 1) true)).history
        = later ++ .removed (pack 0 (UInt16.ofNat n)) :: s.history := by
  have hr : s.table.remove (pack 0 (UInt16.ofNat n))
      = .ok (n, (churned n).freed 0) := by
    rw [hs]
    exact (remove_eq_ok (by simp [churned])).mpr
      ⟨0, UInt16.ofNat n, rfl, (encode_churned _ _ _).symm, rfl⟩
  have hd : s.table.decode (pack 0 (UInt16.ofNat n)) = some (0, UInt16.ofNat n) := by
    rw [hs]
    exact decode_eq_some.mpr ⟨by norm_num, (encode_churned _ _ _).symm⟩
  have hz : pack 0 (UInt16.ofNat n + 1) ^^^ (churned n).salt ≠ 0 := by
    intro h0
    have h0 : pack 0 (UInt16.ofNat n + 1) = 0 := by simpa [churned] using h0
    have := congrArg UInt32.toNat h0
    rw [toNat_pack (by norm_num)] at this
    simp at this
  have hins : ((churned n).freed 0).insertOrReturn (n + 1) true
      = .ok (pack 0 (UInt16.ofNat n + 1), churned (n + 1)) := by
    simp [insertOrReturn, freed, churned, HandleTable.fill,
      encode, Limits.HANDLES_PER_PROCESS] at hz ⊢
    simp [hz]
  have htaken : ((churned n).freed 0).taken true = some 0 := by
    simp [taken, freed, churned, Limits.HANDLES_PER_PROCESS]
  simp only [step, hr, hd, hins, htaken]
  exact ⟨trivial, [_], rfl⟩

/-- After any number of rounds the first value has been removed, and the one slot is that
many generations on. -/
theorem run_churn (n : ℕ) : ((Handled.new 0).run (churn n)).table = churned n ∧
    (0 < n → ∃ later, ((Handled.new 0).run (churn n)).history
      = later ++ [.removed 1, .issued 1 0]) := by
  induction n with
  | zero => exact ⟨by decide, fun h => absurd h (lt_irrefl 0)⟩
  | succ n ih =>
    obtain ⟨htable, hpast⟩ := ih
    have hrun : (Handled.new 0).run (churn (n + 1))
        = (((Handled.new 0).run (churn n)).step
            (.remove (pack 0 (UInt16.ofNat n)))).step (.insert (n + 1) true) := by
      simp [run, churn]
    obtain ⟨htable', later, hlater⟩ := step_churned htable
    rw [hrun]
    refine ⟨htable', fun _ => ?_⟩
    rw [hlater]
    rcases n with _ | n
    · exact ⟨later, rfl⟩
    · obtain ⟨later', hlater'⟩ := hpast (Nat.succ_pos n)
      exact ⟨later ++ .removed (pack 0 (UInt16.ofNat (n + 1))) :: later', by
        rw [hlater', append_assoc]; rfl⟩

/-- **A removed value comes back.**  After `2 ^ 16` rounds on one slot, the value issued
for the first entry, removed in the first round, names the latest entry. -/
theorem churn_revives : let s := (Handled.new 0).run (churn 65536)
    (∃ later, s.history = later ++ [.removed 1, .issued 1 0]) ∧
      s.table.get 1 = .ok 65536 ∧ ¬ s.Sound := by
  obtain ⟨htable, hpast⟩ := run_churn 65536
  obtain ⟨later, hlater⟩ := hpast (by norm_num)
  have hget : ((Handled.new 0).run (churn 65536)).table.get 1 = .ok 65536 := by
    rw [htable]
    exact (get_eq_ok (by simp [churned])).mpr ⟨0, 0, rfl, by decide⟩
  exact ⟨⟨later, hlater⟩, hget, fun hs =>
    hs.gone later _ 1 hlater (by decide) (by decide) 65536 hget⟩

end Handled

end Moruna.Kernel
