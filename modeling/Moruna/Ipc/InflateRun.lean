/-
Moruna/Ipc/InflateRun.lean

What the plan of an inflation keeps, and what `finish` makes of it.

Sizes are declared by the message and nothing about them is trusted; the
arithmetic on them saturates.  A declared size is below `2 ^ 63`, so no sum or
product that decides anything comes near the largest value: the plan agrees
with the exact arithmetic (`up`), and so does the placement.

* `inflate_sound` : **a batch is inflated within its ceiling, every size is in
  the range its rule allows, and the buffers lie where the message says**;
* `refused_after_allocation` : offsets that fall are refused, but only after
  their bytes have been allocated.
-/
import Mathlib.Data.List.Chain
import Moruna.Lib.Slices
import Moruna.Ipc.Inflate

namespace Moruna.Ipc

open List

variable {env : Env} {body : Bytes} {name what : String} {ceiling : ℕ}

/-! ### Exact arithmetic -/

/-- `n` rounded up to a multiple of `unit`. -/
def up (n unit : ℕ) : ℕ := ceilDiv n unit * unit

variable {left low m n o unit : ℕ} {b frame : Bytes} {form : Form} {α : Type} {orNone : Bool}
variable {entry : Span} {p' : Packed} {batch : Batch} {version : ℤ}

theorem le_up (h : 0 < unit) : n ≤ up n unit := le_ceilDiv_mul h

theorem dvd_up (n unit : ℕ) : unit ∣ up n unit := Dvd.intro_left _ rfl

theorem up_le (h : 0 < unit) (hn : n ≤ m * unit) : up n unit ≤ m * unit :=
  Nat.mul_le_mul_right _ ((ceilDiv_le_iff h).2 hn)

theorem roundUp_le_up (n unit : ℕ) : roundUp n unit ≤ up n unit := min_le_left _ _

/-- A size below `2 ^ 63` is placed without saturation. -/
theorem roundUp_eq_up (hn : n < 2 ^ 63) : roundUp n ALIGNMENT = up n ALIGNMENT := by
  have hup : up n ALIGNMENT ≤ 2 ^ 57 * ALIGNMENT := up_le (by decide) (by unfold ALIGNMENT; omega)
  refine min_eq_left (hup.trans ?_)
  decide

theorem i64_of_lt (h : n < 2 ^ 63) : i64 n = n := by
  unfold i64
  rw [Nat.mod_eq_of_lt (by omega), if_pos h]

theorem leInt_lt (hb : b.length = 8) : leInt b < 2 ^ 63 := by
  have hlt := leNat_lt b
  unfold leInt
  rw [hb] at hlt ⊢
  split <;> omega

/-! ### What a declared size is -/

variable {size pos : ℕ} {out : Bytes} {slots : List Slot} {allowed : Option (ℕ × ℕ)} {rule : Rule}
  {slot : Slot} {p : Packed}

variable {bytes : Bytes}

theorem declared_spec (hb : bytes.length < 2 ^ 63)
    (h : declared name what bytes = .ok (form, size)) :
    size < 2 ^ 63 ∧ (form = .stored → bytes.length = PREFIX + size) := by
  unfold declared at h
  split at h
  · cases h
    exact ⟨by decide, nofun⟩
  split at h
  · cases h
  rename_i hlen
  have hpre : (bytes.take PREFIX).length = 8 := by
    rw [length_take]
    exact min_eq_left (not_lt.1 hlen)
  dsimp only at h
  split at h
  · cases h
    refine ⟨by omega, fun _ => ?_⟩
    omega
  split at h
  · cases h
    exact ⟨by decide, nofun⟩
  split at h
  · cases h
    have := leInt_lt hpre
    exact ⟨by omega, nofun⟩
  · cases h

/-! ### What the offsets say -/

/-- The offsets of a column of `len` values, from the bytes they were inflated
to. -/
def offsetsOf (b : Bytes) (len width : ℕ) : List ℤ :=
  (chunksExact width (b.take ((len + 1) * width))).map leInt

/-- Offsets that start at 0 and never fall, and end at `data`. -/
structure Offsets (offsets : List ℤ) (data : ℕ) : Prop where
  first : offsets.head? = some 0
  sorted : offsets.Pairwise (· ≤ ·)
  last : offsets.getLast? = some (data : ℤ)

theorem lastOffsetFrom_ok {width index : ℕ} {previous last : ℤ} {chunks : List Bytes}
    (h : lastOffsetFrom width index previous chunks = .ok last) :
    (previous :: chunks.map leInt).IsChain (· ≤ ·) ∧
      (previous :: chunks.map leInt).getLast? = some last ∧
      (chunks ≠ [] → width = 4 ∨ width = 8) ∧
      (index = 0 → ∀ c ∈ chunks.head?, leInt c = 0) := by
  induction chunks generalizing index previous with
  | nil =>
    cases h
    exact ⟨isChain_singleton _, rfl, fun h => (h rfl).elim, nofun⟩
  | cons chunk chunks ih =>
    unfold lastOffsetFrom at h
    split at h
    · cases h
    rename_i value hvalue
    unfold offsetAt at hvalue
    split at hvalue
    next hwidth =>
      cases hvalue
      split at h
      · cases h
      rename_i hfirst
      split at h
      · cases h
      rename_i hle
      obtain ⟨hchain, hlast, -, -⟩ := ih h
      refine ⟨isChain_cons_cons.2 ⟨not_lt.1 hle, hchain⟩, ?_, fun _ => hwidth, ?_⟩
      · exact hlast
      · rintro hzero c ⟨⟩
        by_contra hne
        exact hfirst ⟨hzero, hne⟩
    next => cases hvalue

/-- **What `last_offset` accepts starts at 0, never falls and ends at the size
it gives.** -/
theorem lastOffset_ok {len width data : ℕ} (hw : 0 < width) (hb : (len + 1) * width ≤ b.length)
    (h : lastOffset (b.take ((len + 1) * width)) width = .ok data) :
    Offsets (offsetsOf b len width) data ∧ (offsetsOf b len width).length = len + 1 ∧
      (width = 4 ∨ width = 8) := by
  have hlen : (chunksExact width (b.take ((len + 1) * width))).length = len + 1 := by
    rw [chunksExact, length_map, length_range, length_take, min_eq_left hb,
      Nat.mul_div_cancel _ hw]
  unfold lastOffset at h
  split at h
  · cases h
  rename_i last hfrom
  obtain ⟨hchain, hlast, hwidth, hfirst⟩ := lastOffsetFrom_ok hfrom
  split at h
  · cases h
    next hnonneg =>
    unfold offsetsOf
    obtain ⟨c, cs, hcs⟩ : ∃ c cs, chunksExact width (b.take ((len + 1) * width)) = c :: cs := by
      refine exists_cons_of_length_pos ?_
      omega
    rw [hcs] at hchain hlast hwidth hfirst hlen ⊢
    refine ⟨⟨?_, ?_, ?_⟩, ?_, hwidth nofun⟩
    · rw [map_cons, head?_cons, hfirst rfl c rfl]
    · exact isChain_iff_pairwise.1 (isChain_cons_cons.1 hchain).2
    · rw [map_cons, getLast?_cons_cons] at hlast
      rw [map_cons, hlast, Int.toNat_of_nonneg hnonneg]
    · rw [length_map, hlen]
  · cases h

/-! ### What a buffer inflates to -/

theorem lz4_length (h : lz4 env frame size = .ok out) : out.length = size := by
  unfold lz4 at h
  dsimp only at h
  split at h
  · cases h
  split at h
  · cases h
  split at h
  · cases h
  · cases h
    omega

theorem zstd_length (h : zstd env frame size = .ok out) : out.length = size := by
  unfold zstd at h
  split at h
  · cases h
  split at h
  · cases h
  split at h
  · cases h
  split at h
  · split at h
    · cases h
      assumption
    · cases h
  · split at h <;> cases h

theorem mapError_eq_ok {ε ε' : Type} {f : ε → ε'} {x : Except ε α} {a : α}
    (h : x.mapError f = .ok a) : x = .ok a := by
  cases x with
  | ok b => cases h; rfl
  | error e => cases h

variable {codec : Codec}

/-- Where a stored buffer has the size it declares, what it inflates to has it
too. -/
theorem fill_length (hstored : form = .stored → bytes.length = PREFIX + size)
    (h : fill env name what codec form bytes size = .ok out) : out.length = size := by
  unfold fill at h
  split at h
  · cases h
    exact length_replicate
  · cases h
    rw [length_drop, hstored rfl, Nat.add_sub_cancel_left]
  split at h
  · exact lz4_length (mapError_eq_ok h)
  · split at h
    · cases h
    · exact zstd_length (mapError_eq_ok h)

/-! ### One buffer taken -/

/-- The sizes a rule allows, in exact arithmetic; those of the data of a string
or binary column are `DataOf`'s. -/
def Rule.Allows (size : ℕ) : Rule → Prop
  | .free => True
  | .exact n => n ≤ size ∧ size ≤ up n 8
  | .validity len => ceilDiv len 8 ≤ size ∧ size ≤ up (ceilDiv len 8) 8 ∨ size = 0
  | .offsets len width | .text len width =>
    (len + 1) * width ≤ size ∧ size ≤ up ((len + 1) * width) 8 ∨ len = 0 ∧ size = 0
  | .data _ => True

/-- What the offsets of a string or binary column are: none for no values (or
offsets of no bytes), or inflated, and then they start at 0, never fall, and end at the size of the
data. -/
def Slot.IsText (slot : Slot) (len width : ℕ) : Prop :=
  (len = 0 ∨ width = 0) ∧ slot.size = 0 ∧ slot.data = 0 ∧ slot.offsets = none ∨
    ∃ b, slot.offsets = some b ∧ (offsetsOf b len width).length = len + 1 ∧
      (width = 4 ∨ width = 8) ∧ Offsets (offsetsOf b len width) slot.data

structure Slot.Ok (body : Bytes) (slot : Slot) : Prop where
  small : slot.size < 2 ^ 63
  inside : slot.offset + slot.stored ≤ body.length
  stored : slot.form = .stored → slot.stored = PREFIX + slot.size
  inflated : ∀ b, slot.offsets = some b → b.length = slot.size
  allows : slot.rule.Allows slot.size
  text : ∀ len width, slot.rule = .text len width → slot.IsText len width

/-- The data in `slot` goes with the offsets in slot `o` of `slots`. -/
def DataOf (slots : List Slot) (slot : Slot) (o : ℕ) : Prop :=
  ∃ t, slots[o]? = some t ∧ t.data ≤ slot.size ∧ slot.size ≤ up t.data 64

variable {len width : ℕ}

/-- A product that is no larger than a size below `2 ^ 63` was not cut off. -/
theorem satMul_eq_of_le (hs : size < 2 ^ 63)
    (h : satMul (satAdd len 1) width ≤ size) : satMul (satAdd len 1) width = (len + 1) * width := by
  unfold satMul satAdd U64_MAX at *
  rcases eq_zero_or_pos width with rfl | hw
  · omega
  by_cases hlen : len + 1 ≤ 2 ^ 64 - 1
  · rw [min_eq_left hlen] at h ⊢
    omega
  · rw [min_eq_right (show 2 ^ 64 - 1 ≤ len + 1 by omega)] at h
    omega

theorem checkSize_some {high : ℕ}
    (h : checkSize name what size orNone (some (low, high)) = .ok ()) :
    low ≤ size ∧ size ≤ high ∨ orNone = true ∧ size = 0 := by
  unfold checkSize at h
  dsimp only at h
  split at h
  · cases h
  next hnot =>
    by_contra hout
    exact hnot ⟨fun hin => hout (.inl hin), fun hnone => hout (.inr hnone)⟩

/-- **A size that passes the check is one the rule allows.** -/
theorem allows_of_checkSize (hs : size < 2 ^ 63)
    (ha : allowedSizes name what slots rule = .ok (allowed, orNone))
    (hc : checkSize name what size orNone allowed = .ok ()) : rule.Allows size := by
  cases rule with
  | free => trivial
  | exact n =>
    cases ha
    rcases checkSize_some hc with ⟨hlow, hhigh⟩ | ⟨h, -⟩
    · exact ⟨hlow, hhigh.trans (roundUp_le_up _ _)⟩
    · cases h
  | validity len =>
    cases ha
    rcases checkSize_some hc with ⟨hlow, hhigh⟩ | ⟨-, h⟩
    · exact .inl ⟨hlow, hhigh.trans (roundUp_le_up _ _)⟩
    · exact .inr h
  | offsets len width | text len width =>
    cases ha
    rcases checkSize_some hc with ⟨hlow, hhigh⟩ | ⟨hzero, h⟩
    · have hn := satMul_eq_of_le hs hlow
      rw [hn] at hlow hhigh
      exact .inl ⟨hlow, hhigh.trans (roundUp_le_up _ _)⟩
    · exact .inr ⟨beq_iff_eq.1 hzero, h⟩
  | data o => trivial

/-- The data of a string or binary column is no smaller than its offsets say. -/
theorem dataOf_of_checkSize (ha : allowedSizes name what slots (.data o) = .ok (allowed, orNone))
    (hc : checkSize name what slot.size orNone allowed = .ok ()) : DataOf slots slot o := by
  unfold allowedSizes at ha
  dsimp only at ha
  split at ha
  · cases ha
  rename_i t ht
  cases ha
  rcases checkSize_some hc with ⟨hlow, hhigh⟩ | ⟨h, -⟩
  · exact ⟨t, ht, hlow, hhigh.trans (roundUp_le_up _ _)⟩
  · cases h

/-- What a refusal leaves: the plan as it was, and nothing allocated but for the
offsets of a string or binary column whose size had passed. -/
def Refused (rule : Rule) (p p' : Packed) : Prop :=
  p' = p ∨ ∃ len width size, rule = .text len width ∧ rule.Allows size ∧
    p.used + p.setAside + up size ALIGNMENT + size ≤ p.ceiling ∧
    p' = { p with allocs := p.allocs ++ [size] }

/-- What an accepted buffer adds to the plan. -/
structure Accepted (body : Bytes) (name : String) (rule : Rule) (p p' : Packed) (span : Span)
    (slot : Slot) : Prop where
  ok : slot.Ok body
  byRule : slot.rule = rule
  column : slot.column = name
  fits : p.used + p.setAside + up slot.size ALIGNMENT + rule.aside slot.size ≤ p.ceiling
  used : p'.used = p.used + up slot.size ALIGNMENT
  setAside : p'.setAside = p.setAside + rule.aside slot.size
  slots : p'.slots = p.slots ++ [slot]
  same : p'.codec = p.codec ∧ p'.ceiling = p.ceiling
  span : span.slot = p.slots.length
  data : ∀ o, rule = .data o → DataOf p.slots slot o

/-- What is left of the ceiling covers the place and what is set aside, exactly. -/
theorem fits_of_checkLeft {aside held : ℕ} (hs : size < 2 ^ 63) (haside : aside ≤ size)
    (hp : p.used + p.setAside ≤ p.ceiling) (hceil : p.ceiling < 2 ^ 64)
    (hheld : held = satAdd p.used p.setAside) (hleft : left = p.ceiling - held)
    (h : checkLeft name what size p.ceiling held (satAdd (roundUp size ALIGNMENT) aside) left =
      .ok ()) :
    p.used + p.setAside + up size ALIGNMENT + aside ≤ p.ceiling := by
  unfold checkLeft at h
  split at h
  · cases h
  rename_i hle
  have hup : up size ALIGNMENT ≤ 2 ^ 57 * ALIGNMENT :=
    up_le (by decide) (by unfold ALIGNMENT; omega)
  rw [roundUp_eq_up hs] at hle
  unfold satAdd U64_MAX at *
  unfold ALIGNMENT at *
  omega

/-- A part that reads nothing keeps the state it was given. -/
theorem Triple.lift_eq {x : Except String α} {E : String → Packed → Prop} (hE : ∀ e, E e p) :
    Triple (fun s => s = p) (liftExcept x) (fun a s => x = .ok a ∧ s = p) E := by
  refine .lift ?_ ?_
  · rintro a ha _ rfl
    exact ⟨ha, rfl⟩
  · rintro e _ rfl
    exact hE e

theorem storedBytes_ok (h : storedBytes body name what entry = .ok bytes) :
    entry.offset + entry.len ≤ body.length ∧ bytes.length = entry.len := by
  unfold storedBytes at h
  split at h
  next hle =>
    cases h
    exact ⟨hle, length_field hle⟩
  next => cases h

theorem allocate_spec : Triple (fun s => s = p) (allocate env name what size)
      (fun b s => b.length = size ∧ s = { p with allocs := p.allocs ++ [size] })
      (fun _ s => s = p) := by
  rintro s rfl
  unfold allocate
  cases ha : env.alloc s.allocs size with
  | ok b => exact ⟨(env.alloc_length _ _ _ ha).1, rfl⟩
  | error e => exact rfl

/-- The offsets of a string or binary column, inflated: what was allocated, and
what they say. -/
theorem inflateOffsets_spec (hw : 0 < width) (hlow : (len + 1) * width ≤ size)
    (hstored : form = .stored → bytes.length = PREFIX + size) :
    Triple (fun s => s = p)
      (inflateOffsets env name what codec form bytes size ((len + 1) * width) width)
      (fun r s => s = { p with allocs := p.allocs ++ [size] } ∧
        ∃ b, r.2 = some b ∧ b.length = size ∧ (offsetsOf b len width).length = len + 1 ∧
          (width = 4 ∨ width = 8) ∧ Offsets (offsetsOf b len width) r.1)
      (fun _ s => s = p ∨ s = { p with allocs := p.allocs ++ [size] }) := by
  refine .bind (allocate_spec.error fun _ _ => .inl) fun buffer => ?_
  refine .of_pre fun hbuffer => ?_
  rw [hbuffer]
  refine .seq (Triple.lift_eq fun _ => .inr rfl) fun filled hfill => ?_
  have hlen := fill_length hstored hfill
  refine .seq (Triple.lift_eq fun _ => .inr rfl) fun data hdata => ?_
  rw [min_eq_left hlow] at hdata
  obtain ⟨hoff, hcount, hwidth⟩ := lastOffset_ok hw (hlow.trans hlen.ge) (mapError_eq_ok hdata)
  exact .pure fun s hs => ⟨hs, filled, rfl, hlen, hcount, hwidth, hoff⟩

/-- Sizes that are allowed and not 0 come with offsets of some width. -/
theorem width_pos_of_allows (hsize : 0 < size)
    (h : (Rule.text len width).Allows size) : 0 < width ∧ (len + 1) * width ≤ size := by
  rcases h with ⟨hlow, hhigh⟩ | ⟨-, h⟩
  · refine ⟨pos_of_ne_zero ?_, hlow⟩
    rintro rfl
    rw [mul_zero] at hhigh
    exact absurd (hsize.trans_le hhigh) (by decide)
  · omega

theorem settleRule_spec (hallows : rule.Allows size)
    (hlow : ∀ len width, rule = .text len width → 0 < size → low = (len + 1) * width)
    (hstored : form = .stored → bytes.length = PREFIX + size) :
    Triple (fun s => s = p) (settleRule env name what p form bytes size low left rule)
      (fun r s => (∃ allocs, s = { p with allocs := allocs }) ∧
        (∀ b, r.2 = some b → b.length = size) ∧
        ∀ len width, rule = .text len width →
          (len = 0 ∨ width = 0) ∧ size = 0 ∧ r.1 = 0 ∧ r.2 = none ∨
          ∃ b, r.2 = some b ∧ (offsetsOf b len width).length = len + 1 ∧
            (width = 4 ∨ width = 8) ∧ Offsets (offsetsOf b len width) r.1)
      (fun _ s => s = p ∨
        (∃ len width, rule = .text len width) ∧ s = { p with allocs := p.allocs ++ [size] }) := by
  cases rule with
  | text len width =>
    refine .seq (Triple.lift_eq fun _ => .inl rfl) fun _ _ => ?_
    refine .ite (fun hpos => ?_) fun hzero => ?_
    · obtain ⟨hw, hle⟩ := width_pos_of_allows hpos hallows
      rw [hlow len width rfl hpos]
      refine (inflateOffsets_spec hw hle hstored).conseq (fun _ h => h) ?_ ?_
      · rintro r s ⟨hs, b, hb, hlen, hcount, hwidth, hoff⟩
        refine ⟨⟨_, hs⟩, fun c hc => ?_, ?_⟩
        · rw [hb] at hc
          exact Option.some.inj hc ▸ hlen
        · rintro _ _ ⟨⟩
          exact .inr ⟨b, hb, hcount, hwidth, hoff⟩
      · rintro _ s (hs | hs)
        · exact .inl hs
        · exact .inr ⟨⟨len, width, rfl⟩, hs⟩
    · refine .pure fun s hs => ⟨⟨p.allocs, hs⟩, nofun, ?_⟩
      rintro _ _ ⟨⟩
      have hz : size = 0 := by omega
      refine .inl ⟨?_, hz, rfl, rfl⟩
      rcases hallows with ⟨hle, -⟩ | ⟨hl, -⟩
      · rw [hz, Nat.le_zero, Nat.mul_eq_zero] at hle
        exact .inr (hle.resolve_left (Nat.succ_ne_zero len))
      · exact .inl hl
  | free | exact n | validity len | offsets len width | data o =>
    refine .seq (Triple.lift_eq fun _ => .inl rfl) fun _ _ => ?_
    exact .pure fun s hs => ⟨⟨p.allocs, hs⟩, nofun, nofun⟩

theorem Rule.aside_le (size : ℕ) (rule : Rule) : rule.aside size ≤ size := by
  cases rule <;> simp [Rule.aside]

theorem satAdd_eq {a b : ℕ} (h : a + b < 2 ^ 64) : satAdd a b = a + b :=
  min_eq_left (by unfold U64_MAX; omega)

theorem low_of_text (hs : size < 2 ^ 63) (hpos : 0 < size)
    (ha : allowedSizes name what slots (.text len width) = .ok (allowed, orNone))
    (hc : checkSize name what size orNone allowed = .ok ()) :
    (allowed.map Prod.fst).getD size = (len + 1) * width := by
  cases ha
  rcases checkSize_some hc with ⟨hlow, -⟩ | ⟨-, h⟩
  · exact satMul_eq_of_le hs hlow
  · omega

/-- **What one `take` can do.** -/
theorem take_spec (hbody : body.length < 2 ^ 63)
    (hp : p.used + p.setAside ≤ p.ceiling) (hceil : p.ceiling < 2 ^ 64) :
    Triple (fun s => s = p) (take env body name what entry rule)
      (fun span p' => ∃ slot, Accepted body name rule p p' span slot)
      (fun _ p' => Refused rule p p') := by
  refine .read ?_
  rintro s rfl
  refine .seq (Triple.lift_eq fun _ => .inl rfl) fun bytes hbytes => ?_
  obtain ⟨hin, hlen⟩ := storedBytes_ok hbytes
  refine .bind (Triple.lift_eq fun _ => .inl rfl) ?_
  rintro ⟨form, size⟩
  refine .of_pre fun hdecl => ?_
  obtain ⟨hsmall, hstored⟩ := declared_spec (by omega) hdecl
  refine .bind (Triple.lift_eq fun _ => .inl rfl) ?_
  rintro ⟨allowed, orNone⟩
  refine .of_pre fun hallowed => ?_
  refine .seq (Triple.lift_eq fun _ => .inl rfl) fun _ hsize => ?_
  refine .seq (Triple.lift_eq fun _ => .inl rfl) fun _ hleft => ?_
  have hallows := allows_of_checkSize hsmall hallowed hsize
  have hfits := fits_of_checkLeft hsmall (rule.aside_le size) hp hceil rfl rfl hleft
  refine .bind ((settleRule_spec hallows ?_ hstored).error ?_) ?_
  · -- only the offsets themselves, not the padding after them
    rintro len width rfl hpos
    exact low_of_text hsmall hpos hallowed hsize
  · rintro _ s' (rfl | ⟨⟨len, width, rfl⟩, rfl⟩)
    · exact .inl rfl
    · exact .inr ⟨len, width, size, rfl, hallows, hfits, rfl⟩
  rintro ⟨data, offsets⟩ s' ⟨⟨allocs, rfl⟩, hinf, htext⟩
  refine Exists.intro ⟨name, what, entry.offset, entry.len, form, size, data, offsets, rule⟩
    ⟨?_, rfl, rfl, hfits, ?_, ?_, rfl, ⟨rfl, rfl⟩, rfl, ?_⟩
  · exact ⟨hsmall, hin, fun h => hlen ▸ hstored h, hinf, hallows, htext⟩
  · rw [← roundUp_eq_up hsmall] at hfits ⊢
    exact satAdd_eq (show s.used + roundUp size ALIGNMENT < 2 ^ 64 by omega)
  · exact satAdd_eq (show s.setAside + rule.aside size < 2 ^ 64 by omega)
  · rintro o rfl
    exact dataOf_of_checkSize hallowed hsize

/-! ### Every point of a walk -/

/-- **What the plan has at every point.** -/
structure Planned (body : Bytes) (ceiling : ℕ) (p : Packed) : Prop where
  same : p.ceiling = ceiling
  bound : p.ceiling < 2 ^ 64
  within : p.used + p.setAside ≤ p.ceiling
  total : p.used = (p.slots.map fun slot => up slot.size ALIGNMENT).sum
  slots : ∀ slot ∈ p.slots, slot.Ok body
  /-- The data of a string or binary column comes right after its offsets, and
  is no smaller than the last of them. -/
  data : ∀ k slot o, p.slots[k]? = some slot → slot.rule = .data o →
    k = o + 1 ∧ DataOf p.slots slot o ∧
      ∃ t len width, p.slots[o]? = some t ∧ t.rule = .text len width ∧ t.column = slot.column

/-- The offsets of the column `name` are the last slot of the plan. -/
def TextLast (body : Bytes) (ceiling : ℕ) (name : String) (span : Span) (p : Packed) : Prop :=
  Planned body ceiling p ∧ p.slots.length = span.slot + 1 ∧
    ∃ t len width, p.slots[span.slot]? = some t ∧ t.rule = .text len width ∧ t.column = name

theorem DataOf.append (more : List Slot) (h : DataOf slots slot o) :
    DataOf (slots ++ more) slot o := by
  obtain ⟨t, ht, hle⟩ := h
  refine ⟨t, ?_, hle⟩
  rw [List.getElem?_append_left (lt_of_getElem? ht), ht]

theorem Planned.refused (h : Planned body ceiling p) (hr : Refused rule p p') :
    Planned body ceiling p' := by
  rcases hr with rfl | ⟨_, _, _, _, _, _, rfl⟩
  · exact h
  · exact { h with }

/-- An accepted buffer leaves a plan that is as good, if the data of a string or
binary column comes right after its offsets. -/
theorem Planned.accepted {span : Span} (h : Planned body ceiling p)
    (ha : Accepted body name rule p p' span slot)
    (hd : ∀ o, rule = .data o → p.slots.length = o + 1 ∧ ∃ t len width, p.slots[o]? = some t ∧
      t.rule = .text len width ∧ t.column = name) :
    Planned body ceiling p' := by
  refine ⟨ha.same.2.trans h.same, ha.same.2 ▸ h.bound, ?_, ?_, ?_, ?_⟩
  · rw [ha.used, ha.setAside, ha.same.2]
    have := ha.fits
    omega
  · rw [ha.used, ha.slots, h.total]
    simp
  · intro s hs
    rw [ha.slots] at hs
    rcases mem_append.1 hs with hs | hs
    · exact h.slots s hs
    · obtain rfl := mem_singleton.1 hs
      exact ha.ok
  · intro k s o hk hrule
    rw [ha.slots] at hk ⊢
    rcases getElem?_concat_eq_some.mp hk with hk | ⟨rfl, rfl⟩
    · have hlt := lt_of_getElem? hk
      obtain ⟨hko, hof, t, len, width, ht, htext⟩ := h.data k s o hk hrule
      refine ⟨hko, hof.append _, t, len, width, ?_, htext⟩
      rw [getElem?_append_left (by omega), ht]
    · obtain ⟨hlast, t, len, width, ht, htext, hcol⟩ := hd o (ha.byRule.symm.trans hrule)
      refine ⟨by omega, (ha.data o (ha.byRule.symm.trans hrule)).append _, t, len, width, ?_,
        htext, hcol.trans ha.column.symm⟩
      rw [getElem?_append_left (by omega), ht]

/-- **`take` keeps a plan good**, and a refusal leaves it as it was. -/
theorem packed_keeps (env : Env) (ceiling : ℕ) (hbody : body.length < 2 ^ 63) :
    (packed env body).Keeps (Planned body ceiling) (TextLast body ceiling) where
  take name what span rule hr := by
    refine .pointwise fun p hp => ?_
    refine (take_spec hbody hp.within hp.bound).conseq (fun _ h => h) ?_ fun _ _ => hp.refused
    rintro span p' ⟨slot, ha⟩
    exact hp.accepted ha fun o h => (hr o h).elim
  text name what span len width := by
    refine .pointwise fun p hp => ?_
    refine (take_spec hbody hp.within hp.bound).conseq (fun _ h => h) ?_ fun _ _ => hp.refused
    rintro span p' ⟨slot, ha⟩
    refine ⟨hp.accepted ha nofun, ?_, slot, len, width, ?_, ha.byRule, ha.column⟩
    · rw [ha.slots, ha.span, length_append]
      rfl
    · rw [ha.slots, ha.span, getElem?_append_right le_rfl, Nat.sub_self]
      rfl
  ready _ _ _ h := h.1
  data name what span offsets := by
    refine .pointwise fun p hp => ?_
    obtain ⟨hplan, hlast, htext⟩ := hp
    refine (take_spec hbody hplan.within hplan.bound).conseq (fun _ h => h) ?_
      fun _ _ => hplan.refused
    rintro span p' ⟨slot, ha⟩
    refine hplan.accepted ha ?_
    rintro _ ⟨⟩
    exact ⟨hlast, htext⟩

/-! ### Where the buffers go -/

def slice (b : Bytes) (pos n : ℕ) : Bytes := (b.drop pos).take n

theorem slice_of_take_eq {c : Bytes} (h : b.take m = c.take m) (hle : pos + n ≤ m) :
    slice b pos n = slice c pos n := by
  have key : ∀ d : Bytes, slice d pos n = slice (d.take m) pos n := by
    intro d
    unfold slice
    rw [drop_take, take_take, min_eq_left (by omega)]
  rw [key b, key c, h]

/-- The places of the slots from `pos` on, with their sizes. -/
def layout : ℕ → List Slot → List (ℕ × ℕ)
  | _, [] => []
  | pos, slot :: slots => (pos, slot.size) :: layout (pos + up slot.size ALIGNMENT) slots

def extent (slots : List Slot) : ℕ := (slots.map fun slot => up slot.size ALIGNMENT).sum

theorem extent_cons (slot : Slot) (slots : List Slot) :
    extent (slot :: slots) = up slot.size ALIGNMENT + extent slots := rfl

theorem map_snd_layout (pos : ℕ) (slots : List Slot) :
    (layout pos slots).map Prod.snd = slots.map Slot.size := by
  induction slots generalizing pos with
  | nil => rfl
  | cons slot slots ih => exact congrArg (slot.size :: ·) (ih _)

theorem length_layout (pos : ℕ) (slots : List Slot) : (layout pos slots).length = slots.length := by
  simpa using congrArg List.length (map_snd_layout pos slots)

theorem size_le_up (slot : Slot) : slot.size ≤ up slot.size ALIGNMENT := le_up (by decide)

/-- Every place is a multiple of 64, after `pos` and before the end. -/
theorem mem_layout (hpos : ALIGNMENT ∣ pos) :
    ∀ e ∈ layout pos slots, ALIGNMENT ∣ e.1 ∧ pos ≤ e.1 ∧ e.1 + e.2 ≤ pos + extent slots := by
  induction slots generalizing pos with
  | nil => nofun
  | cons slot slots ih =>
    intro e he
    have hsize := size_le_up slot
    rw [extent_cons]
    rcases mem_cons.1 he with rfl | he
    · exact ⟨hpos, le_rfl, by dsimp only; omega⟩
    · obtain ⟨hdvd, hle, hend⟩ := ih (hpos.add (dvd_up _ _)) e he
      exact ⟨hdvd, by omega, by omega⟩

/-- The places come in order and do not overlap. -/
theorem pairwise_layout (hpos : ALIGNMENT ∣ pos) :
    (layout pos slots).Pairwise fun x y => x.1 + x.2 ≤ y.1 := by
  induction slots generalizing pos with
  | nil => exact .nil
  | cons slot slots ih =>
    have hnext : ALIGNMENT ∣ pos + up slot.size ALIGNMENT := hpos.add (dvd_up _ _)
    refine .cons (fun e he => ?_) (ih hnext)
    have hsize := size_le_up slot
    have hle := (mem_layout hnext e he).2.1
    omega

/-! ### The body -/

theorem slotBytes_length (h : slot.Ok body)
    (hb : slotBytes env body codec slot = .ok b) : b.length = slot.size := by
  unfold slotBytes at hb
  split at hb
  next offsets hoff =>
    cases hb
    rw [length_take, h.inflated offsets hoff, min_self]
  next =>
    split at hb
    · refine fill_length (fun hstored => ?_) (mapError_eq_ok hb)
      rw [length_field h.inside]
      exact h.stored hstored
    · cases hb

/-- A slot that was planned lies inside the compressed body. -/
theorem slotBytes_error {e : FinishError} (h : slot.Ok body)
    (he : slotBytes env body codec slot = .error e) : ∃ msg, e = .refused msg := by
  unfold slotBytes at he
  split at he
  · cases he
  rw [if_pos h.inside] at he
  cases hf : fill env slot.column slot.what codec slot.form
      ((body.drop slot.offset).take slot.stored) slot.size with
  | ok b => rw [hf] at he; cases he
  | error msg =>
    rw [hf] at he
    cases he
    exact ⟨msg, rfl⟩

/-- What is at a place of the body. -/
def Filled (env : Env) (body : Bytes) (codec : Codec) (pos : ℕ) (slots : List Slot) (out : Bytes) :
    Prop :=
  ∀ (k : ℕ) slot, slots[k]? = some slot → slot.size ≠ 0 →
    ∃ a, (layout pos slots)[k]? = some (a, slot.size) ∧
      slotBytes env body codec slot = .ok (slice out a slot.size)

/-- Where one slot goes when the body has room for it. -/
theorem place_spec (env : Env) (codec : Codec) (hok : slot.Ok body)
    (hroom : pos + slot.size ≤ out.length) :
    (∃ msg, slot.size ≠ 0 ∧ slotBytes env body codec slot = .error (.refused msg) ∧
      place env body codec slot pos (some out) = .error (.refused msg)) ∨
    ∃ b, place env body codec slot pos (some out) = .ok (some b) ∧ b.length = out.length ∧
      b.take pos = out.take pos ∧
      (slot.size ≠ 0 → slotBytes env body codec slot = .ok (slice b pos slot.size)) := by
  unfold place
  dsimp only
  by_cases hne : slot.size = 0
  · rw [if_pos hne]
    exact .inr ⟨out, rfl, rfl, rfl, fun h => (h hne).elim⟩
  rw [if_neg hne, if_pos hroom]
  have hpos : (out.take pos).length = pos := by
    rw [length_take]
    omega
  cases hb : slotBytes env body codec slot with
  | error e =>
    obtain ⟨msg, rfl⟩ := slotBytes_error hok hb
    exact .inl ⟨msg, hne, rfl, rfl⟩
  | ok c =>
    have hc := slotBytes_length hok hb
    refine .inr ⟨_, rfl, ?_, ?_, fun _ => ?_⟩
    · simp only [length_append, length_drop, hpos, hc]
      omega
    · rw [append_assoc, take_left' hpos]
    · unfold slice
      rw [append_assoc, drop_left' hpos, take_left' hc]

/-- How the loop of `finish` can end when the body has room: with every slot in
its place, or because one of them does not inflate. -/
theorem placeAll_spec (env : Env) (codec : Codec) (hok : ∀ slot ∈ slots, slot.Ok body)
    (hroom : pos + extent slots ≤ out.length) (hout : out.length < 2 ^ 63) :
    (∃ slot ∈ slots, ∃ msg, slot.size ≠ 0 ∧ slotBytes env body codec slot = .error (.refused msg) ∧
      placeAll env body codec slots pos (some out) = .error (.refused msg)) ∨
    ∃ b, placeAll env body codec slots pos (some out) =
        .ok ((layout pos slots).map fun e => ((e.1 : ℤ), (e.2 : ℤ)), some b) ∧
      b.length = out.length ∧ b.take pos = out.take pos ∧ Filled env body codec pos slots b := by
  induction slots generalizing pos out with
  | nil => exact .inr ⟨out, rfl, rfl, rfl, fun k slot h => by simp at h⟩
  | cons slot slots ih =>
    have hslot := hok slot mem_cons_self
    have hsize := size_le_up slot
    rw [extent_cons] at hroom
    have hfits : pos + slot.size ≤ out.length := by omega
    rcases place_spec env codec hslot hfits with
      ⟨msg, hne, hbytes, hplace⟩ | ⟨mid, hplace, hlen, hkept, hbytes⟩
    · refine .inl ⟨slot, mem_cons_self, msg, hne, hbytes, ?_⟩
      rw [placeAll, hplace]
      rfl
    -- the rest goes after this slot and leaves it alone
    have hrest := @ih (pos + up slot.size ALIGNMENT) mid
      (fun s hs => hok s (mem_cons_of_mem _ hs)) (by omega) (by omega)
    rw [placeAll, hplace, roundUp_eq_up hslot.small]
    rcases hrest with ⟨s, hs, msg, hne, hbad, hrun⟩ | ⟨b, hrun, hblen, hbkept, hfilled⟩
    · refine .inl ⟨s, mem_cons_of_mem _ hs, msg, hne, hbad, ?_⟩
      show (placeAll env body codec slots _ (some mid) >>= _) = _
      rw [hrun]
      rfl
    · refine .inr ⟨b, ?_, hblen.trans hlen, ?_, ?_⟩
      · show (placeAll env body codec slots _ (some mid) >>= _) = _
        rw [hrun]
        show Except.ok ((i64 pos, i64 slot.size) :: _, some b) = _
        rw [i64_of_lt (by omega), i64_of_lt hslot.small]
        rfl
      · rw [← hkept]
        have hle : pos ≤ pos + up slot.size ALIGNMENT := Nat.le_add_right _ _
        rw [← min_eq_left hle, ← take_take, hbkept, take_take]
      · intro k s hk hne
        cases k with
        | zero =>
          obtain rfl : slot = s := Option.some.inj hk
          refine ⟨pos, rfl, ?_⟩
          rw [hbytes hne, slice_of_take_eq hbkept (by omega)]
        | succ k => exact hfilled k s hk hne

/-- With nothing planned there is no body, and the entries are the same. -/
theorem placeAll_none (hok : ∀ slot ∈ slots, slot.Ok body) (hend : pos + extent slots < 2 ^ 63) :
    placeAll env body codec slots pos none =
      .ok ((layout pos slots).map fun e => ((e.1 : ℤ), (e.2 : ℤ)), none) := by
  induction slots generalizing pos with
  | nil => rfl
  | cons slot slots ih =>
    have hslot := hok slot mem_cons_self
    rw [extent_cons] at hend
    rw [placeAll, roundUp_eq_up hslot.small]
    show (placeAll env body codec slots _ none >>= _) = _
    rw [ih (fun s hs => hok s (mem_cons_of_mem _ hs)) (by omega)]
    show Except.ok ((i64 pos, i64 slot.size) :: _, none) = _
    rw [i64_of_lt (by omega), i64_of_lt hslot.small]
    rfl

/-- What `finish` makes of a plan: every buffer at its own place in a body of
exactly the planned size, and a message that says so. -/
structure Laid (env : Env) (body : Bytes) (p : Packed) (batch : Batch) (version : ℤ) (wrap : Wrap)
    (r : Inflated) : Prop where
  length : r.body.length = p.used
  count : r.message.buffers.length = p.slots.length
  places : ∀ (k : ℕ) slot, p.slots[k]? = some slot → ∃ a : ℕ,
    r.message.buffers[k]? = some ((a : ℤ), (slot.size : ℤ)) ∧ ALIGNMENT ∣ a ∧
    a + slot.size ≤ p.used ∧
    (slot.size ≠ 0 → slotBytes env body p.codec slot = .ok (slice r.body a slot.size))
  ordered : r.message.buffers.Pairwise fun x y => x.1 + x.2 ≤ y.1
  describes : r.message.bodyLength = p.used ∧ r.message.version = version ∧
    r.message.wrap = wrap ∧ r.message.length = batch.length ∧
    r.message.nodes = batch.nodes.getD [] ∧ r.message.variadic = batch.variadic

theorem laid_of_layout {wrap : Wrap} (out : Bytes)
    (h : Planned body ceiling p) (hlen : out.length = p.used) (hused : p.used < 2 ^ 63)
    (hfilled : Filled env body p.codec 0 p.slots out) :
    Laid env body p batch version wrap
      ⟨⟨version, wrap, batch.length, batch.nodes.getD [],
        (layout 0 p.slots).map fun e => ((e.1 : ℤ), (e.2 : ℤ)), batch.variadic, i64 p.used⟩,
        out⟩ where
  length := hlen
  count := by rw [length_map, length_layout]
  places k slot hk := by
    have hsize : ((layout 0 p.slots)[k]?).map Prod.snd = some slot.size := by
      rw [← getElem?_map, map_snd_layout, getElem?_map, hk]
      rfl
    obtain ⟨⟨a, n⟩, he, rfl⟩ := Option.map_eq_some_iff.1 hsize
    obtain ⟨hdvd, -, hend⟩ := mem_layout (.intro 0 rfl) _ (mem_of_getElem? he)
    refine ⟨a, ?_, hdvd, ?_, fun hne => ?_⟩
    · rw [getElem?_map, he]
      rfl
    · rw [h.total]
      simpa [extent] using hend
    · obtain ⟨a', ha', hbytes⟩ := hfilled k slot hk hne
      rw [he] at ha'
      cases ha'
      exact hbytes
  ordered := by
    refine pairwise_map.2 ((pairwise_layout (.intro 0 rfl)).imp fun hle => ?_)
    dsimp only
    exact_mod_cast hle
  describes := ⟨i64_of_lt hused, rfl, rfl, rfl, rfl, rfl⟩

/-- **How `finish` can end**: with every buffer laid where the message says, or
because the arena refuses the body or a buffer does not inflate. -/
theorem finish_spec (env : Env) (batch : Batch) (version : ℤ) (wrap : Wrap)
    (h : Planned body ceiling p) :
    (∃ msg, finish env body p batch version wrap = .error (.refused msg) ∧
      (p.used ≠ 0 ∧ (∃ e, env.alloc p.allocs p.used = .error e) ∨ ∃ slot ∈ p.slots, slot.size ≠ 0 ∧
          slotBytes env body p.codec slot = .error (.refused msg))) ∨
    ∃ r, finish env body p batch version wrap = .ok r ∧ Laid env body p batch version wrap r := by
  have htotal : p.used = extent p.slots := h.total
  unfold finish
  by_cases hzero : p.used = 0
  · rw [if_pos hzero]
    refine .inr ⟨_, ?_, laid_of_layout [] h hzero.symm (by omega) ?_⟩
    · show (placeAll env body p.codec p.slots 0 none >>= _) = _
      rw [placeAll_none h.slots (by omega)]
      rfl
    -- nothing is planned, so no slot has a size
    intro k slot hk hne
    have hmem := mem_of_getElem? hk
    have hle := single_le_sum (fun _ _ => Nat.zero_le _) _
      (mem_map_of_mem (f := fun slot : Slot => up slot.size ALIGNMENT) hmem)
    have hsize := size_le_up slot
    rw [← h.total] at hle
    omega
  · rw [if_neg hzero]
    cases ha : env.alloc p.allocs p.used with
    | error e => exact .inl ⟨_, rfl, .inl ⟨hzero, e, rfl⟩⟩
    | ok out =>
      obtain ⟨hlen, hsmall⟩ := env.alloc_length _ _ _ ha
      have hroom : 0 + extent p.slots ≤ out.length := by omega
      rcases placeAll_spec env p.codec h.slots hroom (by omega) with
        ⟨slot, hs, msg, hne, hbad, hrun⟩ | ⟨b, hrun, hblen, -, hfilled⟩
      · refine .inl ⟨msg, ?_, .inr ⟨slot, hs, hne, hbad⟩⟩
        show (placeAll env body p.codec p.slots 0 (some out) >>= _) = _
        rw [hrun]
        rfl
      · refine .inr ⟨_, ?_, laid_of_layout b h (hblen.trans hlen) hsmall hfilled⟩
        show (placeAll env body p.codec p.slots 0 (some out) >>= _) = _
        rw [hrun]
        rfl

/-! ### The whole inflation -/

theorem Planned.new {compression : Compression} {method : Option String}
    {versionName : String} (hceil : ceiling < 2 ^ 64)
    (h : Packed.new compression method version versionName ceiling = .ok p) :
    Planned body ceiling p := by
  have key : ∀ codec, Planned body ceiling ⟨codec, ceiling, [], 0, 0, []⟩ := fun codec =>
    ⟨rfl, hceil, Nat.zero_le _, rfl, nofun, fun k slot o hk => by simp at hk⟩
  unfold Packed.new at h
  split at h
  · cases h
  split at h
  · cases h
  split at h
  · cases h
    exact key _
  · cases h
    exact key _
  · cases h

/-- The calls of `take` that the walk over a message makes, in order. -/
def history (env : Env) (body : Bytes) (addr : ℕ) (version : ℤ) (batch : Batch)
    (fields : List Field) (p : Packed) : List (Took Packed) :=
  match walk ⟨body.length, addr⟩ version (some (packed env body).logged) true batch fields ([], p)
    with
  | .ok _ s => s.1
  | .error _ s => s.1

theorem history_recorded {addr : ℕ} {fields : List Field}
    (hbody : body.length < 2 ^ 63) (h : Planned body ceiling p) :
    Recorded (Planned body ceiling) Refused (history env body addr version batch fields p) := by
  have hkeeps := (packed_keeps env ceiling hbody).logged (R := Refused)
    fun _ _ _ _ _ _ _ hp he => (take_spec hbody hp.within hp.bound).of_error rfl he
  have hrun := walk_keeps ⟨body.length, addr⟩ version hkeeps true batch fields ([], p) ⟨h, nofun⟩
  unfold history
  split
  next heq => rw [heq] at hrun; exact hrun.2
  next heq => rw [heq] at hrun; exact hrun.2

/-- **Inflating a compressed batch keeps to its ceiling and misplaces nothing.**
At every point of the walk the plan is a good one, and a refusal leaves it as it
was, with nothing allocated but, after they have passed the checks of their
size, the offsets of a string or binary column.  When the walk is over, `finish`
fails only because the arena refuses or a buffer does not inflate; otherwise it
lays every buffer where the message it builds says. -/
theorem inflate_sound (env : Env) (body : Bytes) (addr : ℕ) (ceiling : ℕ)
    (compression : Compression) (method : Option String) (version : ℤ) (versionName : String)
    (batch : Batch) (fields : List Field) (wrap : Wrap) (p₀ : Packed)
    (hbody : body.length < 2 ^ 63) (hceil : ceiling < 2 ^ 64)
    (hnew : Packed.new compression method version versionName ceiling = .ok p₀) :
    (∀ t ∈ history env body addr version batch fields p₀, Planned body ceiling t.after ∧
      (t.refused = true → Refused t.rule t.before t.after)) ∧
    ∀ w p, walk ⟨body.length, addr⟩ version (some (packed env body)) true batch fields p₀ =
      .ok w p →
      (∀ e, finish env body p batch version wrap = .error e → e ≠ .outsidePlan ∧ e ≠ .outsideBody) ∧
      ((p.used ≠ 0 → ∃ b, env.alloc p.allocs p.used = .ok b) →
        (∀ slot ∈ p.slots, slot.size ≠ 0 → ∃ b, slotBytes env body p.codec slot = .ok b) →
        ∃ r, finish env body p batch version wrap = .ok r ∧
          Laid env body p batch version wrap r) := by
  have hstart : Planned body ceiling p₀ := .new hceil hnew
  refine ⟨history_recorded hbody hstart, fun w p hwalk => ?_⟩
  have hrun := walk_keeps ⟨body.length, addr⟩ version (packed_keeps env ceiling hbody) true batch
    fields p₀ hstart
  rw [hwalk] at hrun
  have hspec := finish_spec env batch version wrap hrun
  refine ⟨fun e he => ?_, fun halloc hfill => ?_⟩
  · rcases hspec with ⟨msg, hmsg, -⟩ | ⟨r, hr, -⟩
    · rw [hmsg] at he
      cases he
      exact ⟨nofun, nofun⟩
    · rw [hr] at he
      cases he
  · rcases hspec with ⟨msg, -, hcause⟩ | hok
    · rcases hcause with ⟨hne, e, he⟩ | ⟨slot, hs, hne, hbad⟩
      · obtain ⟨b, hb⟩ := halloc hne
        rw [he] at hb
        cases hb
      · obtain ⟨b, hb⟩ := hfill slot hs hne
        rw [hbad] at hb
        cases hb
    · exact hok

/-- An arena that grants what it can and no decompressor: enough for buffers
that are stored as they are. -/
def storedEnv : Env where
  lz4 := fun _ => ⟨[], some "no frame"⟩
  zstdStart := none
  zstdSize := fun _ => none
  zstd := fun _ _ => .error "no frame"
  zstdTooSmall := fun _ => false
  alloc := fun _ n => if n < 2 ^ 63 then .ok (List.replicate n 0) else .error "too much"
  alloc_length := by
    intro _ n b h
    split at h
    next hn =>
      cases h
      exact ⟨length_replicate, hn⟩
    next => cases h

/-- The body of a string column of one value: its offsets, the first of them
`first`, and then its data, both stored. -/
def textBody (first : UInt8) : Bytes :=
  List.replicate 8 255 ++ [first, 0, 0, 0, 1, 0, 0, 0] ++ List.replicate 8 255 ++ [97]

def textBatch : Batch := ⟨1, some [(1, 0)], some [(0, 0), (0, 16), (16, 9)], []⟩

def textField : Field := .mk "name" (.text 4)

theorem inflate_sound_text :
    (match walk ⟨25, 0⟩ 4 (some (packed storedEnv (textBody 0))) true textBatch [textField]
        ⟨.zstd, 136, [], 0, 0, []⟩ with
      | .ok _ p => (finish storedEnv (textBody 0) p textBatch 4 .batch).toOption.map
          (fun r => (r.message.buffers, r.body.length)) == some ([(0, 0), (0, 8), (64, 1)], 128)
      | .error _ _ => false) = true ∧
    ∀ t ∈ history storedEnv (textBody 0) 0 4 textBatch [textField] ⟨.zstd, 136, [], 0, 0, []⟩,
      t.after.used + t.after.setAside ≤ 136 := by
  refine ⟨by decide +kernel, fun t ht => ?_⟩
  have h := (inflate_sound storedEnv (textBody 0) 0 136 .zstd none 4 "V5" textBatch [textField]
    .batch ⟨.zstd, 136, [], 0, 0, []⟩ (by decide) (by decide) rfl).1 t ht
  exact h.1.same ▸ h.1.within

/-- **Offsets are judged after they have been allocated**: offsets that start at
1 are refused, and the arena has given 8 bytes for them. -/
theorem refused_after_allocation :
    (history storedEnv (textBody 1) 0 4 textBatch [textField] ⟨.zstd, 136, [], 0, 0, []⟩).any
      (fun t => t.refused && t.before.allocs == [] && t.after.allocs == [8]) = true := by
  decide +kernel

end Moruna.Ipc
