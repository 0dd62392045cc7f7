/-
Moruna/Host/JsonLines.lean

The renderer of a run's messages (`JsonLines` of `host/events.rs`): lines pass through, and
the frame of an event (`moruna-event`, `frame.rs`) is replaced by the event's own line.

Bytes arrive in writes cut anywhere, so a message may begin in one write and end in another;
what is not a whole message yet is kept.  A message is recognised by its front alone
(`next_append`), which is why the cuts do not matter: `writes_eq_write`.  The writer below is a
parameter and may fail; the writes stop there.
-/
import Moruna.RecordRing.Codec

namespace Moruna.Host

open List RecordRing

/-- The first byte of a frame. -/
def FRAME : UInt8 := 0

structure JsonLines (ω : Type) where
  out : ω
  pending : Bytes

namespace JsonLines

variable (decode : Bytes → Except String Bytes)

/-- The first message of `rest`, rendered, and its length; `none` if it is not whole.  An
event is decoded and rendered by `decode`. -/
def next (rest : Bytes) : Except String (Option (Bytes × ℕ)) :=
  if rest.head? = some FRAME then
    if rest.length < 5 then .ok none
    else
      let len := leNat ((rest.drop 1).take 4)
      if ¬ (FIXED - 4 ≤ len ∧ len ≤ MAX_RECORD) then
        .error s!"a frame's record says it has {len} bytes, which no record has"
      else if rest.length < 5 + len then .ok none
      else match decode ((rest.drop 1).take (4 + len)) with
        | .error e => .error s!"a frame that is not an event: {e}"
        | .ok line => .ok (some (line, 5 + len))
  else if rest.idxOf 10 < rest.length then
    .ok (some (rest.take (rest.idxOf 10 + 1), rest.idxOf 10 + 1))
  else .ok none

variable {decode} {rest : Bytes} {text : Bytes} {n : ℕ}

theorem next_some (h : next decode rest = .ok (some (text, n))) : 0 < n ∧ n ≤ rest.length := by
  unfold next at h
  split at h
  · dsimp only at h
    split at h
    · cases h
    split at h
    · cases h
    split at h
    · cases h
    split at h
    · cases h
    · cases h
      omega
  · split at h
    · cases h
      omega
    · cases h

/-- **A message is recognised by its front**: what follows it changes nothing. -/
theorem next_append (more : Bytes) (h : next decode rest ≠ .ok none) :
    next decode (rest ++ more) = next decode rest := by
  rcases rest with - | ⟨b, bs⟩
  · exact absurd rfl h
  have htake : ∀ k ≤ bs.length, (((b :: bs) ++ more).drop 1).take k = ((b :: bs).drop 1).take k :=
    fun k hk => take_append_of_le_length hk
  have hlen : ((b :: bs) ++ more).length = bs.length + 1 + more.length := length_append
  generalize hr : next decode (b :: bs) = r at h ⊢
  unfold next at hr ⊢
  rw [show ((b :: bs) ++ more).head? = (b :: bs).head? from rfl]
  split at hr
  · rename_i hmark
    rw [if_pos hmark]
    dsimp only at hr ⊢
    split at hr
    · exact absurd hr.symm h
    rename_i h5
    rw [length_cons] at h5
    rw [htake 4 (by omega), if_neg (by omega)]
    split at hr
    · rename_i hrange
      rw [if_pos hrange, hr]
    rename_i hrange
    rw [if_neg hrange]
    split at hr
    · exact absurd hr.symm h
    rename_i htotal
    rw [length_cons] at htotal
    rw [if_neg (by omega), htake _ (by omega), hr]
  · rename_i hline
    rw [if_neg hline]
    split at hr
    · rename_i hlt
      rw [idxOf_append_of_mem (idxOf_lt_length_iff.mp hlt), if_pos (by rw [length_append]; omega),
        take_append_of_le_length hlt, ← hr]
    · exact absurd hr.symm h

variable (decode) {ω : Type} (writeAll : ω → Bytes → Except (String × ω) ω)

/-- `drain`: the loop over the whole messages.  An error, of a message or of the writer, comes
with the writer as it then is. -/
def drain (s : JsonLines ω) : Except (String × ω) (JsonLines ω) :=
  match _h : next decode s.pending with
  | .error e => .error (e, s.out)
  | .ok none => .ok s
  | .ok (some (text, n)) =>
    match writeAll s.out text with
    | .error e => .error e
    | .ok out => drain ⟨out, s.pending.drop n⟩
termination_by s.pending.length
decreasing_by
  have := next_some _h
  simp
  omega

def write (s : JsonLines ω) (bytes : Bytes) : Except (String × ω) (JsonLines ω) :=
  drain decode writeAll { s with pending := s.pending ++ bytes }

variable {decode} {writeAll}

theorem drain_append (s : JsonLines ω) (more : Bytes) :
    drain decode writeAll { s with pending := s.pending ++ more } = (drain decode writeAll s).bind
      fun t => drain decode writeAll { t with pending := t.pending ++ more } := by
  fun_induction drain decode writeAll s with
  | case1 s e he =>
    have hnext : next decode (s.pending ++ more) = _ := next_append more (by rw [he]; nofun)
    rw [drain]
    split <;> simp_all [Except.bind]
  | case2 s hs => rfl
  | case3 s text n hs e he =>
    have hnext : next decode (s.pending ++ more) = _ := next_append more (by rw [hs]; nofun)
    rw [drain]
    split <;> simp_all [Except.bind]
  | case4 s text n hs out ho ih =>
    have hnext : next decode (s.pending ++ more) = _ := next_append more (by rw [hs]; nofun)
    have hle := (next_some hs).2
    rw [drain]
    split <;> simp_all [Except.bind, drop_append_of_le_length]

/-- **The cuts do not matter.**  For any writer and any bytes in any writes, up to the first that
fails: what is printed, what is kept and where it fails are as if they had come in one write. -/
theorem writes_eq_write (out : ω) (chunks : List Bytes) :
    chunks.foldlM (write decode writeAll) ⟨out, []⟩ =
      write decode writeAll ⟨out, []⟩ chunks.flatten := by
  induction chunks using List.reverseRecOn with
  | nil =>
    show _ = drain decode writeAll _
    rw [drain]
    rfl
  | append_singleton chunks chunk ih =>
    -- what the earlier writes left pending goes before the last one
    rw [foldlM_append, ih, flatten_append, flatten_singleton]
    show _ = drain decode writeAll ⟨out, [] ++ (chunks.flatten ++ chunk)⟩
    rw [← append_assoc, drain_append ⟨out, [] ++ chunks.flatten⟩]
    simp
    rfl

end JsonLines

end Moruna.Host
