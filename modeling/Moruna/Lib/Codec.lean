/-
Moruna/Lib/Codec.lean

Length-bounded byte writers and consuming byte readers, over an arbitrary error
type.  A writer is a state computation on the bytes written so far, a reader one
on the bytes still to read.

Two judgements carry every codec proof:

* `Writes limit e p out` — the writer `p` appends exactly `out`, and fails with
  `e` exactly when the result would be longer than `limit`;
* `Decodes p enc ok` — the reader `p` accepts exactly the encodings `enc a` of
  the values with `ok a`, and leaves what follows them.

Both are closed under sequencing (`Writes.seq`, `Decodes.sound`), so a record codec
is proved by chaining the lemmas of its fields.
-/
import Mathlib.Tactic

namespace Moruna

open List

/-- Raw bytes, as they lie on a wire or a medium. -/
abbrev Bytes := List UInt8

/-! ### Fixed-width little-endian numbers -/

/-- The `k` low bytes of `n`, least significant first. -/
def leBytes : (k n : ℕ) → Bytes
  | 0, _ => []
  | k + 1, n => UInt8.ofNat (n % 256) :: leBytes k (n / 256)

/-- The number a little-endian byte string stands for. -/
def leNat : Bytes → ℕ
  | [] => 0
  | b :: bs => b.toNat + 256 * leNat bs

@[simp] theorem length_leBytes (k n : ℕ) : (leBytes k n).length = k := by
  induction k generalizing n with
  | zero => rfl
  | succ k ih => simp [leBytes, ih]

theorem leNat_leBytes (k n : ℕ) : leNat (leBytes k n) = n % 256 ^ k := by
  induction k generalizing n with
  | zero => simp [leBytes, leNat, Nat.mod_one]
  | succ k ih =>
    have hb : (UInt8.ofNat (n % 256)).toNat = n % 256 := Nat.mod_mod n 256
    rw [leBytes, leNat, ih, hb, Nat.pow_succ, Nat.mul_comm (256 ^ k), Nat.mod_mul]

theorem leNat_lt (bs : Bytes) : leNat bs < 256 ^ bs.length := by
  induction bs with
  | nil => simp [leNat]
  | cons b bs ih =>
    have := b.toNat_lt
    rw [leNat, length_cons]
    omega

theorem leBytes_leNat (bs : Bytes) : leBytes bs.length (leNat bs) = bs := by
  induction bs with
  | nil => rfl
  | cons b bs ih =>
    have hb := b.toNat_lt
    have hmod : (b.toNat + 256 * leNat bs) % 256 = b.toNat := by omega
    have hdiv : (b.toNat + 256 * leNat bs) / 256 = leNat bs := by omega
    rw [leNat, length_cons, leBytes, hmod, hdiv, ih, UInt8.ofNat_toNat]

theorem ofNat_leNat_leBytes_u32 (n : UInt32) : UInt32.ofNat (leNat (leBytes 4 n.toNat)) = n := by
  have hn : n.toNat < 256 ^ 4 := n.toNat_lt
  rw [leNat_leBytes, Nat.mod_eq_of_lt hn, UInt32.ofNat_toNat]

theorem ofNat_leNat_leBytes_u64 (n : UInt64) : UInt64.ofNat (leNat (leBytes 8 n.toNat)) = n := by
  have hn : n.toNat < 256 ^ 8 := n.toNat_lt
  rw [leNat_leBytes, Nat.mod_eq_of_lt hn, UInt64.ofNat_toNat]

variable {b : Bytes}

theorem leBytes_ofNat_leNat_u32 (hb : b.length = 4) :
    leBytes 4 (UInt32.ofNat (leNat b)).toNat = b := by
  have hlt : leNat b < 2 ^ 32 := by
    have := leNat_lt b
    rwa [hb] at this
  rw [UInt32.toNat_ofNat', Nat.mod_eq_of_lt hlt, ← hb, leBytes_leNat]

theorem leBytes_ofNat_leNat_u64 (hb : b.length = 8) :
    leBytes 8 (UInt64.ofNat (leNat b)).toNat = b := by
  have hlt : leNat b < 2 ^ 64 := by
    have := leNat_lt b
    rwa [hb] at this
  rw [UInt64.toNat_ofNat', Nat.mod_eq_of_lt hlt, ← hb, leBytes_leNat]

/-! ### Cutting fields out of a byte string -/

/-- Cut the field `x` off a byte string that starts with it at offset `n`. -/
theorem cut_field {b x r : Bytes} {n k : ℕ} (h : b.drop n = x ++ r) (hk : x.length = k) :
    (b.drop n).take k = x ∧ b.drop (n + k) = r := by
  refine ⟨?_, ?_⟩
  · rw [h, take_left' hk]
  · rw [← drop_drop, h, drop_left' hk]

theorem lt_of_getElem? {α : Type*} {l : List α} {i : ℕ} {x : α} (h : l[i]? = some x) :
    i < l.length :=
  (List.getElem?_eq_some_iff.mp h).1

theorem length_field {n k : ℕ} (h : n + k ≤ b.length) : ((b.drop n).take k).length = k := by
  rw [length_take, length_drop]
  omega

theorem eq_replicate_of_any_eq_false (h : b.any (· != 0) = false) :
    b = List.replicate b.length 0 := by
  rw [eq_replicate_iff]
  refine ⟨rfl, fun x hx => ?_⟩
  have := any_eq_false.mp h x hx
  simpa using this

/-! ### UTF-8 text -/

def utf8 (s : String) : Bytes := s.toByteArray.data.toList

/-- The string some bytes are the UTF-8 encoding of. -/
def fromUtf8 (b : Bytes) : Option String := String.fromUTF8? ⟨b.toArray⟩

@[simp] theorem length_utf8 (s : String) : (utf8 s).length = s.utf8ByteSize := rfl

@[simp] theorem fromUtf8_utf8 (s : String) : fromUtf8 (utf8 s) = some s := by
  have hb : (⟨(utf8 s).toArray⟩ : ByteArray) = s.toByteArray := rfl
  unfold fromUtf8 String.fromUTF8?
  rw [hb, dif_pos s.isValidUTF8]
  rfl

theorem utf8_of_fromUtf8 {s : String} (h : fromUtf8 b = some s) : utf8 s = b := by
  unfold fromUtf8 String.fromUTF8? at h
  split at h
  · rw [← Option.some.inj h]
    rfl
  · cases h

/-! ### Sequencing of state computations that may fail -/

variable {ε σ α β : Type}
variable {p : StateT σ (Except ε) α} {f : α → StateT σ (Except ε) β}

/-- A sequence succeeds exactly when both parts do, the second from the state the first
left. -/
theorem bind_eq_ok {i : σ} {r : β × σ} :
    (p >>= f) i = .ok r ↔ ∃ a j, p i = .ok (a, j) ∧ f a j = .ok r := by
  show (p i >>= fun x => f x.1 x.2) = .ok r ↔ _
  cases h : p i with
  | error e =>
    constructor
    · intro h'; exact absurd h' (by simp [bind, Except.bind])
    · rintro ⟨a, j, h', -⟩; cases h'
  | ok x =>
    obtain ⟨a, j⟩ := x
    constructor
    · intro h'; exact ⟨a, j, rfl, h'⟩
    · rintro ⟨a', j', h', h''⟩
      cases h'
      exact h''

theorem bind_of_ok {i j : σ} {a : α} (h : p i = .ok (a, j)) : (p >>= f) i = f a j := by
  show (p i >>= fun x => f x.1 x.2) = _
  rw [h]
  rfl

theorem bind_of_error {i : σ} {e : ε} (h : p i = .error e) : (p >>= f) i = .error e := by
  show (p i >>= fun x => f x.1 x.2) = _
  rw [h]
  rfl

@[simp] theorem pure_eq_ok {a : α} {i : σ} {r : α × σ} :
    (pure a : StateT σ (Except ε) α) i = .ok r ↔ (a, i) = r := by
  show Except.ok (a, i) = .ok r ↔ _
  rw [Except.ok.injEq]

@[simp] theorem throw_ne_ok {e : ε} {i : σ} {r : α × σ} :
    (throw e : StateT σ (Except ε) α) i = .ok r ↔ False := by
  show Except.error e = .ok r ↔ _
  simp

theorem lift_bind_eq_ok {x : Except ε α} {i : σ} {r : β × σ} :
    (StateT.lift x >>= f) i = .ok r ↔ ∃ a, x = .ok a ∧ f a i = .ok r := by
  rw [bind_eq_ok]
  cases x with
  | error e =>
    constructor
    · rintro ⟨a, j, h, -⟩; exact absurd h (by simp [StateT.lift, bind, Except.bind])
    · rintro ⟨a, h, -⟩; cases h
  | ok b =>
    constructor
    · rintro ⟨a, j, h, h'⟩
      cases h
      exact ⟨b, rfl, h'⟩
    · rintro ⟨a, h, h'⟩
      cases h
      exact ⟨b, i, rfl, h'⟩

theorem lift_bind_of_ok {x : Except ε α} {a : α} (h : x = .ok a)
    (i : σ) : (StateT.lift x >>= f) i = f a i := by
  subst h
  rfl

/-- The computation succeeds from no state. -/
def Fails (p : StateT σ (Except ε) α) : Prop := ∀ i r, p i ≠ .ok r

theorem Fails.bind (h : ∀ a, Fails (f a)) : Fails (p >>= f) := by
  intro i r hr
  obtain ⟨a, j, -, hf⟩ := bind_eq_ok.mp hr
  exact h a j r hf

theorem fails_throw (e : ε) : Fails (throw e : StateT σ (Except ε) α) :=
  fun _ _ h => throw_ne_ok.mp h

/-! ### Writers -/

/-- Append some bytes, or fail with `e` past `limit`. -/
def put (limit : ℕ) (e : ε) (b : Bytes) : StateT Bytes (Except ε) Unit := fun w =>
  if w.length + b.length ≤ limit then .ok ((), w ++ b) else .error e

/-- From a buffer within `limit` the writer appends exactly `out`; it fails, with `e`,
exactly when the result is past `limit`. -/
def Writes (limit : ℕ) (e : ε) (p : StateT Bytes (Except ε) Unit) (out : Bytes) : Prop :=
  ∀ w : Bytes, w.length ≤ limit →
    p w = if w.length + out.length ≤ limit then .ok ((), w ++ out) else .error e

theorem writes_put (limit : ℕ) (e : ε) (b : Bytes) : Writes limit e (put limit e b) b :=
  fun _ _ => rfl

theorem writes_pure (limit : ℕ) (e : ε) : Writes limit e (pure ()) [] := by
  intro w hw
  rw [length_nil, add_zero, if_pos hw, append_nil]
  rfl

theorem Writes.seq {limit : ℕ} {e : ε} {p q : StateT Bytes (Except ε) Unit} {b c : Bytes}
    (hp : Writes limit e p b) (hq : Writes limit e q c) :
    Writes limit e (p >>= fun _ => q) (b ++ c) := by
  intro w hw
  by_cases h : w.length + b.length ≤ limit
  · rw [bind_of_ok (by rw [hp w hw, if_pos h]), hq (w ++ b) (by simpa using h)]
    simp only [length_append, add_assoc, append_assoc]
  · rw [bind_of_error (by rw [hp w hw, if_neg h]), if_neg]
    rw [length_append]
    omega

/-- A writer that refuses before it writes, where its output would not fit anyway. -/
theorem Writes.guard {limit : ℕ} {e : ε} {p : StateT Bytes (Except ε) Unit} {c : Prop}
    [Decidable c] (hp : ¬ c → Writes limit e p b) (hc : c → limit < b.length) :
    Writes limit e (if c then throw e else p) b := by
  intro w hw
  split
  · rename_i h
    have := hc h
    rw [if_neg (by omega)]
    rfl
  · rename_i h
    exact hp h w hw

/-- A loop of writers appends the concatenation of what its rounds append. -/
theorem Writes.forM {γ : Type} {limit : ℕ} {e : ε} {p : γ → StateT Bytes (Except ε) Unit}
    {enc : γ → Bytes} (hp : ∀ x, Writes limit e (p x) (enc x)) :
    ∀ l : List γ, Writes limit e (l.forM p) (l.flatMap enc)
  | [] => writes_pure limit e
  | x :: l => (hp x).seq (Writes.forM hp l)

/-- What a writer leaves behind from the empty buffer. -/
theorem Writes.run {limit : ℕ} {e : ε} {p : StateT Bytes (Except ε) Unit} {out : Bytes}
    (hp : Writes limit e p out) :
    p [] = if out.length ≤ limit then .ok ((), out) else .error e := by
  have h := hp [] (Nat.zero_le _)
  simpa only [length_nil, zero_add, nil_append] using h

/-! ### Readers -/

/-- The next `n` bytes, or `e` when fewer are left. -/
def take (e : ε) (n : ℕ) : StateT Bytes (Except ε) Bytes := fun i =>
  if n ≤ i.length then .ok (i.take n, i.drop n) else .error e

/-- The reader accepts exactly the encodings of the values with `ok`, and leaves what
follows them. -/
structure Decodes (p : StateT Bytes (Except ε) α) (enc : α → Bytes) (ok : α → Prop) : Prop where
  complete : ∀ a rest, ok a → p (enc a ++ rest) = .ok (a, rest)
  sound : ∀ i a rest, p i = .ok (a, rest) → ok a ∧ i = enc a ++ rest

namespace Decodes

variable {p : StateT Bytes (Except ε) α} {enc : α → Bytes} {ok : α → Prop}

theorem complete_bind (h : Decodes p enc ok) {f : α → StateT Bytes (Except ε) β} {a : α}
    (ha : ok a) (rest : Bytes) : (p >>= f) (enc a ++ rest) = f a rest :=
  bind_of_ok (h.complete a rest ha)

theorem sound_bind (h : Decodes p enc ok) {f : α → StateT Bytes (Except ε) β} {i : Bytes}
    {r : β × Bytes} (hr : (p >>= f) i = .ok r) : ∃ a j, ok a ∧ i = enc a ++ j ∧ f a j = .ok r := by
  obtain ⟨a, j, hp, hf⟩ := bind_eq_ok.mp hr
  obtain ⟨ha, rfl⟩ := h.sound i a j hp
  exact ⟨a, j, ha, rfl, hf⟩

end Decodes

theorem decodes_take (e : ε) (n : ℕ) : Decodes (take e n) (fun b => b) fun b => b.length = n where
  complete a rest ha := by
    subst ha
    unfold take
    rw [if_pos (by simp), take_left', drop_left'] <;> rfl
  sound i a rest h := by
    unfold take at h
    split at h
    · rename_i hn
      cases h
      exact ⟨by simpa using hn, (take_append_drop n i).symm⟩
    · cases h

/-- `n` values in a row. -/
def many (p : StateT Bytes (Except ε) α) : ℕ → StateT Bytes (Except ε) (List α)
  | 0 => pure []
  | n + 1 => do
    let a ← p
    let as ← many p n
    pure (a :: as)

theorem Decodes.many {p : StateT Bytes (Except ε) α} {enc : α → Bytes} {ok : α → Prop}
    (h : Decodes p enc ok) (n : ℕ) :
    Decodes (many p n) (fun l => l.flatMap enc) fun l => l.length = n ∧ ∀ a ∈ l, ok a where
  complete l rest hl := by
    obtain ⟨rfl, hok⟩ := hl
    induction l with
    | nil => rfl
    | cons a l ih =>
      simp only [length_cons, Moruna.many, flatMap_cons, append_assoc]
      rw [h.complete_bind (hok a (by simp)), bind_of_ok (ih fun b hb => hok b (by simp [hb]))]
      rfl
  sound i l rest hr := by
    induction n generalizing i l rest with
    | zero =>
      cases pure_eq_ok.mp hr
      exact ⟨⟨rfl, by simp⟩, rfl⟩
    | succ n ih =>
      obtain ⟨a, j, ha, rfl, hrest⟩ := h.sound_bind hr
      obtain ⟨as, k, has, hpure⟩ := bind_eq_ok.mp hrest
      cases pure_eq_ok.mp hpure
      obtain ⟨⟨hlen, hall⟩, rfl⟩ := ih _ _ _ has
      refine ⟨⟨by simp [hlen], ?_⟩, by simp⟩
      intro b hb
      rcases mem_cons.mp hb with rfl | hb
      · exact ha
      · exact hall b hb

end Moruna
