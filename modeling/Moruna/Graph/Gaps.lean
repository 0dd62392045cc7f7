/-
Moruna/Graph/Gaps.lean

The numbers no morsel will have.

A complete run has a count for each source and a number of finish batches for each stage; the
finish batches are numbered from one past the highest number the stage's inputs carry.  `On`
says which numbers are on a queue then.  While the run is going some of the counts and finishes
are not known, and `produced`, `reaches` and `lastAtSink` answer from what is known.
-/
import Moruna.Graph.Numbers

namespace Moruna.Graph

open List

namespace Topology

/-! ### Complete runs -/

/-- What a run gives in the end: how many morsels each source reads, how many batches each
stage's finish gives, and the number each stage's finish starts from. -/
structure Outcome where
  count : ℕ → ℕ
  finish : ℕ → ℕ
  base : ℕ → ℕ

/-- A morsel numbered `seq` is on queue `q`. -/
inductive On (t : Topology) (o : Outcome) : ℕ → ℕ → Prop
  | source {q i seq : ℕ} {c : Consumer} : t.link q = some ⟨.source i, c⟩ → seq < o.count i →
      On t o q seq
  | carried {q s p q' m : ℕ} {c : Consumer} : t.link q = some ⟨.kernel s, c⟩ →
      (t.taken s)[p]? = some q' → On t o q' m → On t o q (t.outSeq s p m)
  | finish {q s k : ℕ} {c : Consumer} : t.link q = some ⟨.kernel s, c⟩ → k < o.finish s →
      On t o q (o.base s + k)

variable (t : Topology)

/-- An input of stage `s`, on any port, carries a morsel the stage numbers `seq`. -/
def Arrives (o : Outcome) (s seq : ℕ) : Prop :=
  ∃ p q m : ℕ, (t.inputs s)[p]? = some q ∧ t.On o q m ∧ seq = t.outSeq s p m

/-- A port that stage `s` takes carries a morsel the stage numbers `seq`. -/
def PassedOn (o : Outcome) (s seq : ℕ) : Prop :=
  ∃ p q m : ℕ, (t.taken s)[p]? = some q ∧ t.On o q m ∧ seq = t.outSeq s p m

/-- Stage `s` gives to a port of stage `s'`. -/
def Feeds (s s' : ℕ) : Prop :=
  ∃ (p q : ℕ) (c : Consumer), (t.inputs s')[p]? = some q ∧ t.link q = some ⟨.kernel s, c⟩

/-- The outcome is one a run can have: a stage's finish starts one past the highest number its
inputs carry, and the numbers are machine words. -/
structure Outcome.Lawful (o : Outcome) (t : Topology) : Prop where
  base_least : ∀ s, 1 ≤ s → s ≤ t.stages →
    IsLeast {b | ∀ seq, t.Arrives o s seq → seq < b} (o.base s)
  finish_fits : ∀ s, 1 ≤ s → s ≤ t.stages → o.base s + o.finish s < 2 ^ 64
  count_fits : ∀ i, o.count i < 2 ^ 64

/-- No stage before a join gives a finish batch. -/
def Outcome.Quiet (o : Outcome) (t : Topology) : Prop :=
  ∀ s j, t.isAligned j → Relation.TransGen t.Feeds s j → o.finish s = 0

/-- Every join takes branches of one upstream, numbered alike. -/
def Joined : Prop := ∀ s, t.isAligned s → t.misaligned s = .ok none

/-- The ports of every join carry the same numbers. -/
def Alike (o : Outcome) : Prop :=
  ∀ s p q q₀ : ℕ, t.isAligned s → (t.inputs s)[p]? = some q → (t.inputs s)[0]? = some q₀ →
    ∀ m, t.On o q m ↔ t.On o q₀ m

variable {t : Topology} {o : Outcome}

theorem on_source_iff {q i seq : ℕ} {c : Consumer} (hl : t.link q = some ⟨.source i, c⟩) :
    t.On o q seq ↔ seq < o.count i := by
  constructor
  · intro h
    cases h with
    | source hl' hn => rw [hl] at hl'; cases hl'; exact hn
    | carried hl' => rw [hl] at hl'; cases hl'
    | finish hl' => rw [hl] at hl'; cases hl'
  · exact .source hl

theorem on_kernel_iff {q s seq : ℕ} {c : Consumer} (hl : t.link q = some ⟨.kernel s, c⟩) :
    t.On o q seq ↔ t.PassedOn o s seq ∨ ∃ k < o.finish s, seq = o.base s + k := by
  constructor
  · intro h
    cases h with
    | source hl' => rw [hl] at hl'; cases hl'
    | carried hl' hp hm => rw [hl] at hl'; cases hl'; exact .inl ⟨_, _, _, hp, hm, rfl⟩
    | finish hl' hk => rw [hl] at hl'; cases hl'; exact .inr ⟨_, hk, rfl⟩
  · rintro (⟨p, q', m, hp, hm, rfl⟩ | ⟨k, hk, rfl⟩)
    · exact .carried hl hp hm
    · exact .finish hl hk

theorem PassedOn.arrives {s seq : ℕ} (h : t.PassedOn o s seq) : t.Arrives o s seq := by
  obtain ⟨p, q, m, hp, hm, rfl⟩ := h
  exact ⟨p, q, m, getElem?_inputs_of_taken hp, hm, rfl⟩

/-- With the ports of a join alike, port 0 passes on everything that arrives. -/
theorem Arrives.passedOn (ha : t.Alike o) {s seq : ℕ} (h : t.Arrives o s seq) :
    t.PassedOn o s seq := by
  obtain ⟨p, q, m, hp, hm, rfl⟩ := h
  by_cases hal : t.isAligned s = true
  · obtain ⟨q₀, h₀⟩ : ∃ q₀, (t.inputs s)[0]? = some q₀ := by
      have := lt_of_getElem? hp
      exact ⟨_, List.getElem?_eq_getElem (by omega)⟩
    have hports : t.numberingPorts s = 1 := by simp [numberingPorts, hal]
    refine ⟨0, q₀, m, ?_, (ha s p q q₀ hal hp h₀ m).mp hm, by simp [outSeq, hports]⟩
    simp [taken, hal, h₀]
  · refine ⟨p, q, m, ?_, hm, rfl⟩
    simp only [taken, hal]
    exact hp

theorem outSeq_mono {s p m m' : ℕ} (h : m ≤ m') : t.outSeq s p m ≤ t.outSeq s p m' := by
  unfold outSeq
  simp only
  split
  · exact h
  · have : m * t.numberingPorts s ≤ m' * t.numberingPorts s := Nat.mul_le_mul_right _ h
    omega

theorem Arrives.lt_base (hl : o.Lawful t) {s seq : ℕ} (h₁ : 1 ≤ s) (h₂ : s ≤ t.stages)
    (h : t.Arrives o s seq) : seq < o.base s :=
  (hl.base_least s h₁ h₂).1 seq h

theorem Arrives.outSeq_eq (hl : o.Lawful t) {s p q m : ℕ} (h₁ : 1 ≤ s) (h₂ : s ≤ t.stages)
    (hp : p < t.numberingPorts s) (hin : (t.inputs s)[p]? = some q) (hm : t.On o q m) :
    t.outSeq s p m = m * t.numberingPorts s + p := by
  have hlt := Arrives.lt_base hl h₁ h₂ ⟨p, q, m, hin, hm, rfl⟩
  have hfit := hl.finish_fits s h₁ h₂
  unfold outSeq at *
  simp only at *
  split at hlt
  · have h1 : t.numberingPorts s = 1 := by omega
    rw [h1]
    simp only [le_refl, if_true]
    omega
  · rename_i hports
    rw [if_neg hports]
    omega

/-! ### Highest numbers -/

/-- `l` is the highest number of a set, `none` when the set is empty. -/
def IsHighest (S : ℕ → Prop) : Option ℕ → Prop
  | none => ∀ n, ¬ S n
  | some h => S h ∧ ∀ n, S n → n ≤ h

variable {l : Option ℕ}

theorem IsHighest.congr {S S' : ℕ → Prop} (h : IsHighest S l) (hiff : ∀ n, S n ↔ S' n) :
    IsHighest S' l := by
  obtain rfl : S = S' := funext fun n => propext (hiff n)
  exact h

theorem IsHighest.unique {S : ℕ → Prop} {l' : Option ℕ} (h : IsHighest S l) (h' : IsHighest S l') :
    l = l' := by
  cases l with
  | none =>
    cases l' with
    | none => rfl
    | some x => exact absurd h'.1 (h x)
  | some x =>
    cases l' with
    | none => exact absurd h.1 (h' x)
    | some y => exact congrArg some (le_antisymm (h'.2 x h.1) (h.2 y h'.1))

theorem IsHighest.or {S S' : ℕ → Prop} {l' : Option ℕ} (h : IsHighest S l) (h' : IsHighest S' l') :
    IsHighest (fun n => S n ∨ S' n) (higher l l') := by
  cases l with
  | none =>
    cases l' with
    | none => exact fun n hn => hn.elim (h n) (h' n)
    | some y => exact ⟨.inr h'.1, fun n hn => hn.elim (fun hn => absurd hn (h n)) (h'.2 n)⟩
  | some x =>
    cases l' with
    | none => exact ⟨.inl h.1, fun n hn => hn.elim (h.2 n) fun hn => absurd hn (h' n)⟩
    | some y =>
      refine ⟨?_, fun n hn => ?_⟩
      · rcases le_total x y with hxy | hxy
        · exact .inr (by rw [max_eq_right hxy]; exact h'.1)
        · exact .inl (by rw [max_eq_left hxy]; exact h.1)
      · exact hn.elim (fun hn => le_max_of_le_left (h.2 n hn)) fun hn =>
          le_max_of_le_right (h'.2 n hn)

/-- A monotone map takes the highest number to the highest. -/
theorem IsHighest.map {S : ℕ → Prop} {f : ℕ → ℕ} (hf : ∀ {m m'}, m ≤ m' → f m ≤ f m')
    (h : IsHighest S l) : IsHighest (fun n => ∃ m, S m ∧ n = f m) (l.map f) := by
  cases l with
  | none =>
    rintro n ⟨m, hm, -⟩
    exact h m hm
  | some x =>
    refine ⟨⟨x, h.1, rfl⟩, ?_⟩
    rintro n ⟨m, hm, rfl⟩
    exact hf (h.2 m hm)

theorem isHighest_highestOf (count : ℕ) : IsHighest (· < count) (highestOf count) := by
  unfold highestOf
  split
  · exact fun n => by omega
  · exact ⟨by omega, fun n hn => by omega⟩

/-! ### What is known of a run -/

/-- What is known is right: any of the counts and finishes may be missing. -/
structure Knows (o : Outcome) (read finished : List (Option ℕ)) : Prop where
  read_eq : ∀ (i c : ℕ), (read[i]?).join = some c → c = o.count i
  finished_eq : ∀ (s c : ℕ), 1 ≤ s → (finished[s - 1]?).join = some c → c = o.finish s

/-- What gives to queue `q`, itself or through stages. -/
inductive Behind (t : Topology) (q : ℕ) : Producer → Prop
  | here {link : Link} : t.link q = some link → Behind t q link.source
  | up {s p q' : ℕ} {link : Link} : Behind t q (.kernel s) → (t.inputs s)[p]? = some q' →
      t.link q' = some link → Behind t q link.source

/-- Everything behind queue `q` is known; what the rest of the run gives need not be. -/
structure KnowsAll (t : Topology) (o : Outcome) (q : ℕ) (read finished : List (Option ℕ)) :
    Prop where
  read_eq : ∀ i, t.Behind q (.source i) → (read[i]?).join = some (o.count i)
  finished_eq : ∀ s, t.Behind q (.kernel s) → (finished[s - 1]?).join = some (o.finish s)

variable {read finished : List (Option ℕ)} {last : List (Option (Option ℕ))}

/-- What is known of the stages up to `k` is right. -/
def LastOk (t : Topology) (o : Outcome) (last : List (Option (Option ℕ))) (k : ℕ) : Prop :=
  ∀ (s : ℕ) (q : ℕ) (c : Consumer) (l : Option ℕ), 1 ≤ s → s ≤ k → (last[s - 1]?).join = some l →
    t.link q = some ⟨.kernel s, c⟩ → IsHighest (t.On o q) l

theorem carriedHighest_spec (hk : Knows o read finished) {q k : ℕ} {link : Link}
    (hl : t.link q = some link) (hpos : ∀ s, link.source = .kernel s → 1 ≤ s ∧ s ≤ k)
    (hlast : t.LastOk o last k) (h : t.carriedHighest read last q = some l) :
    IsHighest (t.On o q) l := by
  obtain ⟨producer, c⟩ := link
  unfold carriedHighest at h
  rw [hl] at h
  cases producer with
  | source i =>
    obtain ⟨n, hn, rfl⟩ := Option.map_eq_some_iff.mp h
    obtain rfl := hk.read_eq i n hn
    exact (isHighest_highestOf _).congr fun n => (on_source_iff hl).symm
  | kernel s =>
    obtain ⟨h₁, h₂⟩ := hpos s rfl
    exact hlast s q c l h₁ h₂ h hl

/-- The stages that feed an input stand before its stage. -/
theorem Wired.behind (hw : t.Wired) {s p q : ℕ} (h : (t.inputs s)[p]? = some q) :
    ∃ link, t.link q = some link ∧ ∀ k, link.source = .kernel k → 1 ≤ k ∧ k ≤ s - 1 := by
  obtain ⟨link, hl, hlow⟩ := hw.lower h
  refine ⟨link, hl, fun k hk => ?_⟩
  have := hlow k hk
  exact ⟨(hw.stage_ok hl hk).1, by omega⟩

/-- The highest number that arrives, when it is known. -/
theorem inputHighest_spec (hw : t.Wired) (hk : Knows o read finished) {s : ℕ}
    (hlast : t.LastOk o last (s - 1)) (h : t.inputHighest read last s = some l) :
    IsHighest (t.Arrives o s) l := by
  -- the ports walked so far, from any prefix
  have hfold : ∀ {f : Option (Option ℕ) → ℕ × ℕ → Option (Option ℕ)}
      (_ : ∀ input e x, f input e = some x → ∃ soFar here, input = some soFar ∧
        t.carriedHighest read last e.1 = some here ∧
        higher soFar (here.map (t.outSeq s e.2 ·)) = x)
      (entries : List (ℕ × ℕ)) (S : ℕ → Prop) (input : Option (Option ℕ)),
      (∀ e ∈ entries, (t.inputs s)[e.2]? = some e.1) →
      (∀ x, input = some x → IsHighest S x) → entries.foldl f input = some l →
      IsHighest (fun n => S n ∨ ∃ e ∈ entries, ∃ m, t.On o e.1 m ∧ n = t.outSeq s e.2 m) l := by
    intro f hf entries
    induction entries with
    | nil =>
      intro S input _ hin hl
      exact (hin l hl).congr fun n => by simp
    | cons e entries ih =>
      intro S input he hin hl
      have hstep := ih (fun n => S n ∨ ∃ m, t.On o e.1 m ∧ n = t.outSeq s e.2 m) _
        (fun e' he' => he e' (mem_cons_of_mem _ he')) ?_ hl
      · refine hstep.congr fun n => ?_
        simp only [mem_cons, or_and_right, exists_or, exists_eq_left, or_assoc]
      intro x hx
      obtain ⟨soFar, here, hsofar, hhere, rfl⟩ := hf _ _ _ hx
      obtain ⟨link, hl', hlow⟩ := hw.behind (he e mem_cons_self)
      exact (hin soFar hsofar).or
        ((carriedHighest_spec hk hl' hlow hlast hhere).map outSeq_mono)
  have := hfold (fun input e x hx => ?_) (t.inputs s).zipIdx (fun _ => False) (some none)
    (fun e he => mk_mem_zipIdx_iff_getElem?.mp he) (fun x hx => by cases hx; exact fun _ h => h) h
  · refine this.congr fun n => ?_
    simp only [false_or]
    constructor
    · rintro ⟨⟨q, p⟩, he, m, hm, rfl⟩
      exact ⟨p, q, m, mk_mem_zipIdx_iff_getElem?.mp he, hm, rfl⟩
    · rintro ⟨p, q, m, hp, hm, rfl⟩
      exact ⟨(q, p), mk_mem_zipIdx_iff_getElem?.mpr hp, m, hm, rfl⟩
  · cases input with
    | none => cases hx
    | some soFar =>
      cases hhere : t.carriedHighest read last e.1 with
      | none => rw [hhere] at hx; cases hx
      | some here => rw [hhere] at hx; exact ⟨soFar, here, rfl, rfl, Option.some.inj hx⟩

theorem base_of_highest (hl : o.Lawful t) {s : ℕ} (h₁ : 1 ≤ s) (h₂ : s ≤ t.stages)
    (h : IsHighest (t.Arrives o s) l) :
    l.elim 0 (fun h => min (h + 1) (2 ^ 64 - 1)) = o.base s := by
  have hleast := hl.base_least s h₁ h₂
  have hfit := hl.finish_fits s h₁ h₂
  cases l with
  | none =>
    have : o.base s ≤ 0 := hleast.2 fun seq hseq => absurd hseq (h seq)
    show 0 = o.base s
    omega
  | some x =>
    have hup : o.base s ≤ x + 1 := hleast.2 fun seq hseq => Nat.lt_succ_of_le (h.2 seq hseq)
    have hlow := hleast.1 x h.1
    show min (x + 1) (2 ^ 64 - 1) = o.base s
    omega

/-- The highest number of a stage's output, from the highest that arrives. -/
theorem highest_of_output (hl : o.Lawful t) (ha : t.Alike o) {s : ℕ} (h₁ : 1 ≤ s)
    (h₂ : s ≤ t.stages) {q : ℕ} {c : Consumer} (hq : t.link q = some ⟨.kernel s, c⟩)
    (h : IsHighest (t.Arrives o s) l) :
    IsHighest (t.On o q) (if o.finish s = 0 then l else some (o.base s + o.finish s - 1)) := by
  split
  · refine h.congr fun n => ?_
    rw [on_kernel_iff hq]
    constructor
    · exact fun hn => .inl (hn.passedOn ha)
    · rintro (hn | ⟨k, hk, -⟩)
      · exact hn.arrives
      · omega
  · refine ⟨(on_kernel_iff hq).mpr (.inr ⟨o.finish s - 1, by omega, by omega⟩), fun n hn => ?_⟩
    rcases (on_kernel_iff hq).mp hn with hn | ⟨k, hk, rfl⟩
    · have := hn.arrives.lt_base hl h₁ h₂
      omega
    · omega

/-- **Stage by stage**: what a stage's base and highest number have when the stages before
it have it, those of every stage have. -/
theorem produced_induct {B : ℕ → Option ℕ → Prop} {L : ℕ → Option (Option ℕ) → Prop}
    (step : ∀ k < t.stages, ∀ sofar base last, (∀ s, 1 ≤ s → s ≤ k → L s (sofar.2[s - 1]?).join) →
      t.produceStage read finished sofar k = (sofar.1 ++ [base], sofar.2 ++ [last]) →
      B (k + 1) base ∧ L (k + 1) last) {s : ℕ} (h₁ : 1 ≤ s) (h₂ : s ≤ t.stages) :
    B s ((t.produced read finished).base[s - 1]?).join ∧
      L s ((t.produced read finished).last[s - 1]?).join := by
  have hwalk : ∀ k ≤ t.stages,
      let sofar := (List.range k).foldl (t.produceStage read finished) ([], [])
      sofar.1.length = k ∧ sofar.2.length = k ∧
      ∀ s, 1 ≤ s → s ≤ k → B s (sofar.1[s - 1]?).join ∧ L s (sofar.2[s - 1]?).join := by
    intro k
    induction k with
    | zero => exact fun _ => ⟨rfl, rfl, fun s h₁ h₂ => by omega⟩
    | succ k ih =>
      intro hle
      obtain ⟨hb, hl, ih⟩ := ih (by omega)
      simp only [range_succ, foldl_append, foldl_cons, foldl_nil]
      set sofar := (List.range k).foldl (t.produceStage read finished) ([], [])
      obtain ⟨base, last, heq⟩ : ∃ base last, t.produceStage read finished sofar k =
        (sofar.1 ++ [base], sofar.2 ++ [last]) := ⟨_, _, rfl⟩
      have hnew := step k hle sofar base last (fun s h₁ h₂ => (ih s h₁ h₂).2) heq
      rw [heq]
      refine ⟨by simp [hb], by simp [hl], fun s h₁ h₂ => ?_⟩
      rcases lt_or_ge k s with hlt | hge
      · obtain rfl : s = k + 1 := by omega
        have hbase : (sofar.1 ++ [base])[k]? = some base := by rw [← hb, getElem?_concat_length]
        have hlast : (sofar.2 ++ [last])[k]? = some last := by rw [← hl, getElem?_concat_length]
        simpa only [Nat.add_sub_cancel, hbase, hlast, Option.join_some] using hnew
      · rw [getElem?_append_left (by omega), getElem?_append_left (by omega)]
        exact ih s h₁ hge
  exact (hwalk t.stages le_rfl).2.2 s h₁ h₂

variable (hw : t.Wired)
include hw

/-- **Every base and every highest number that is known is right.** -/
theorem produced_spec (hl : o.Lawful t) (ha : t.Alike o) (hk : Knows o read finished) :
    (∀ s b, 1 ≤ s → s ≤ t.stages → (t.produced read finished).baseOf s = some b → b = o.base s) ∧
    t.LastOk o (t.produced read finished).last t.stages := by
  have hall := @produced_induct t read finished (fun s base => ∀ b, base = some b → b = o.base s)
    (fun s last => ∀ q c l, last = some l → t.link q = some ⟨.kernel s, c⟩ →
      IsHighest (t.On o q) l) fun k hle sofar base last ihl heq => by
    have hin : ∀ l, t.inputHighest read sofar.2 (k + 1) = some l →
        IsHighest (t.Arrives o (k + 1)) l := fun l h =>
      inputHighest_spec hw hk (fun s q c l h₁ h₂ => ihl s h₁ h₂ q c l) h
    have h₁ : 1 ≤ k + 1 := Nat.succ_pos k
    simp only [produceStage, Prod.mk.injEq, append_cancel_left_eq, List.cons.injEq, and_true] at heq
    obtain ⟨rfl, rfl⟩ := heq
    refine ⟨fun b hs => ?_, fun q c l hs hq => ?_⟩
    · obtain ⟨l, hlh, rfl⟩ := Option.map_eq_some_iff.mp hs
      exact base_of_highest hl h₁ hle (hin l hlh)
    split at hs
    · -- the finish gave nothing
      rename_i hf
      have h0 := hk.finished_eq (k + 1) 0 h₁ hf
      have := highest_of_output hl ha h₁ hle hq (hin l hs)
      rwa [if_pos h0.symm] at this
    · rename_i count x hne hf hx
      have hcount := hk.finished_eq (k + 1) count h₁ hf
      rw [hx, Option.map_some, Option.map_some, Option.some.injEq] at hs
      subst hs
      have hbase := base_of_highest hl h₁ hle (hin x hx)
      have := highest_of_output hl ha h₁ hle hq (hin x hx)
      have hpos : count ≠ 0 := hne
      rw [if_neg (by omega)] at this
      rw [hbase, hcount]
      exact this
    · cases hs
  refine ⟨fun s b h₁ h₂ hs => (hall h₁ h₂).1 b ?_, fun s q c l h₁ h₂ => (hall h₁ h₂).2 q c l⟩
  unfold Produced.baseOf ofStage at hs
  rw [if_neg (by omega)] at hs
  exact hs

/-! ### Answers of `reaches` -/

theorem numberingPorts_pos {s : ℕ} (h₁ : 1 ≤ s) (h₂ : s ≤ t.stages) : 0 < t.numberingPorts s := by
  unfold numberingPorts
  split
  · exact one_pos
  · exact length_pos_iff.mpr (hw.inputs_ne_nil s h₁ h₂)

omit hw in
theorem taken_eq_inputs {s : ℕ} (h : 1 < t.numberingPorts s) : t.taken s = t.inputs s := by
  unfold numberingPorts at h
  unfold taken
  split at h
  · omega
  · rename_i ha
    rw [if_neg ha]

omit hw in
theorem taken_zero {s q : ℕ} (h : (t.inputs s)[0]? = some q) : (t.taken s)[0]? = some q := by
  unfold taken
  split
  · rw [getElem?_take_of_lt one_pos]
    exact h
  · exact h

theorem Wired.first_input {s : ℕ} (h₁ : 1 ≤ s) (h₂ : s ≤ t.stages) :
    ∃ q : ℕ, (t.inputs s)[0]? = some q :=
  ⟨_, getElem?_eq_getElem (length_pos_iff.mpr (hw.inputs_ne_nil s h₁ h₂))⟩

/-- **A stage passes on number `seq` exactly when its parent is there.** -/
theorem passedOn_iff_parent (hl : o.Lawful t) {q s seq : ℕ} {c : Consumer}
    (hq : t.link q = some ⟨.kernel s, c⟩) (hseq : seq < 2 ^ 64) :
    ∃ p q' m : ℕ, (t.taken s)[p]? = some q' ∧ t.parent q seq = some (q', m) ∧
      (t.PassedOn o s seq ↔ t.On o q' m) := by
  obtain ⟨h₁, h₂⟩ := hw.stage_ok hq rfl
  have hports := numberingPorts_pos hw h₁ h₂
  unfold parent
  simp only [hq]
  split
  · have h1 : t.numberingPorts s = 1 := by omega
    obtain ⟨q₀, h₀⟩ := hw.first_input h₁ h₂
    refine ⟨0, q₀, seq, taken_zero h₀, by rw [head?_eq_getElem?, h₀]; rfl, ?_⟩
    constructor
    · rintro ⟨p, q', m, hp, hm, heq⟩
      obtain rfl : p = 0 := by
        have := lt_numberingPorts hp
        omega
      obtain rfl : q₀ = q' := Option.some.inj ((taken_zero h₀).symm.trans hp)
      rw [heq, outSeq]
      simpa [h1] using hm
    · intro hm
      exact ⟨0, q₀, seq, taken_zero h₀, hm, by simp [outSeq, h1]⟩
  · rename_i hgt
    have htaken := taken_eq_inputs (t := t) (s := s) (by omega)
    have hlen : t.numberingPorts s ≤ (t.inputs s).length := by
      unfold numberingPorts at *
      split at hgt <;> simp_all
    have hmod := Nat.mod_lt seq hports
    have hdiv := Nat.div_add_mod' seq (t.numberingPorts s)
    obtain ⟨q₀, hget⟩ : ∃ q₀, (t.inputs s)[seq % t.numberingPorts s]? = some q₀ :=
      ⟨_, getElem?_eq_getElem (by omega)⟩
    have hget' : (t.taken s)[seq % t.numberingPorts s]? = some q₀ := by rw [htaken, hget]
    refine ⟨seq % t.numberingPorts s, q₀, seq / t.numberingPorts s, hget', by rw [hget]; rfl, ?_⟩
    constructor
    · rintro ⟨p, q', m, hp, hm, heq⟩
      have hlt := lt_numberingPorts hp
      have hin := getElem?_inputs_of_taken hp
      rw [Arrives.outSeq_eq hl h₁ h₂ hlt hin hm] at heq
      have hp' : seq % t.numberingPorts s = p := by rw [heq, Nat.mul_add_mod', Nat.mod_eq_of_lt hlt]
      have hm' : seq / t.numberingPorts s = m := by
        rw [heq, Nat.add_comm, Nat.add_mul_div_right _ _ hports, Nat.div_eq_of_lt hlt, Nat.zero_add]
      subst hp' hm'
      obtain rfl := Option.some.inj (hget.symm.trans hin)
      exact hm
    · intro hm
      refine ⟨_, q₀, _, hget', hm, ?_⟩
      rw [Topology.outSeq_eq hmod (by omega), hdiv]

omit hw in
theorem parent_lt {q seq q' m : ℕ} (h : t.parent q seq = some (q', m)) (hseq : seq < 2 ^ 64) :
    m < 2 ^ 64 := by
  unfold parent at h
  split at h
  · simp only at h
    split at h
    · obtain ⟨x, -, hx⟩ := Option.map_eq_some_iff.mp h
      cases hx
      exact hseq
    · obtain ⟨x, -, hx⟩ := Option.map_eq_some_iff.mp h
      cases hx
      exact lt_of_le_of_lt (Nat.div_le_self _ _) hseq
  · cases h

/-- **An answer of `reaches` is right.** -/
theorem reaches_sound (hl : o.Lawful t) (ha : t.Alike o)
    (hk : Knows o read finished) {q seq : ℕ} (hseq : seq < 2 ^ 64) {b : Bool}
    (h : t.reaches q seq (t.produced read finished) = some b) : b = true ↔ t.On o q seq := by
  have hbase := (produced_spec hw hl ha hk).1
  have hwithin : ∀ fuel q seq b, seq < 2 ^ 64 →
      t.reachesWithin (t.produced read finished) fuel q seq = some b →
      (b = true ↔ t.On o q seq) := by
    intro fuel
    induction fuel with
    | zero => exact fun q seq b _ h => absurd h (by simp [reachesWithin])
    | succ fuel ih =>
      intro q seq b hseq h
      unfold reachesWithin at h
      cases hq : t.link q with
      | none =>
        rw [hq] at h
        cases h
      | some link =>
        obtain ⟨producer, c⟩ := link
        rw [hq] at h
        cases producer with
        | source i =>
          obtain ⟨n, hn, rfl⟩ := Option.map_eq_some_iff.mp h
          obtain rfl := hk.read_eq i n hn
          rw [on_source_iff hq, decide_eq_true_iff]
        | kernel s =>
          obtain ⟨h₁, h₂⟩ := hw.stage_ok hq rfl
          have hb : ∀ x, ((t.produced read finished).base[s - 1]?).join = some x →
              x = o.base s := by
            intro x hx
            refine hbase s x h₁ h₂ ?_
            unfold Produced.baseOf ofStage
            rwa [if_neg (by omega)]
          obtain ⟨p, q', m, hp, hparent, hiff⟩ := passedOn_iff_parent hw hl hq hseq
          have hup : ∀ b, t.reachesWithin (t.produced read finished) fuel q' m = some b →
              (b = true ↔ t.PassedOn o s seq) :=
            fun b hb => (ih q' m b (parent_lt hparent hseq) hb).trans hiff.symm
          rw [on_kernel_iff hq]
          simp only [hparent, Option.bind_eq_bind, Option.bind_some] at h
          cases hx : ((t.produced read finished).base[s - 1]?).join with
          | some x =>
            obtain rfl := hb x hx
            rw [hx] at h
            simp only [Option.any_some, decide_eq_true_eq, Option.getD_some] at h
            split at h
            · -- at or above the base only the finish gives numbers
              obtain ⟨n, hn, rfl⟩ := Option.map_eq_some_iff.mp h
              obtain rfl := hk.finished_eq s n h₁ hn
              rw [decide_eq_true_iff]
              constructor
              · exact fun hlt => .inr ⟨_, hlt, by omega⟩
              · rintro (hpass | ⟨k, hkf, rfl⟩)
                · have := hpass.arrives.lt_base hl h₁ h₂
                  omega
                · omega
            · -- below it only the inputs do
              rw [hup b h]
              constructor
              · exact .inl
              · rintro (hpass | ⟨k, -, rfl⟩)
                · exact hpass
                · omega
          | none =>
            rw [hx] at h
            have hsome :
                ∀ b, Option.filter id (t.reachesWithin (t.produced read finished) fuel q' m) =
                some b →
                (b = true ↔ t.PassedOn o s seq ∨ ∃ k < o.finish s, seq = o.base s + k) := by
              -- only a number that is there is answered
              intro b h
              obtain ⟨hmem, hid⟩ := Option.filter_eq_some_iff.mp h
              obtain rfl : b = true := hid
              exact ⟨fun _ => .inl ((hup true hmem).mp rfl), fun _ => rfl⟩
            cases hf : ((t.produced read finished).finished[s - 1]?).join with
            | none =>
              rw [hf] at h
              exact hsome b h
            | some n =>
              rw [hf] at h
              cases n with
              | zero =>
                have h0 := hk.finished_eq s 0 h₁ hf
                rw [hup b h]
                constructor
                · exact .inl
                · rintro (hpass | ⟨k, hkf, -⟩)
                  · exact hpass
                  · omega
              | succ n => exact hsome b h
  exact hwithin _ q seq b hseq h

/-! ### With everything known -/

variable {q₀ : ℕ}

/-- Of the stages up to `k` everything is known that is behind `q₀`. -/
def LastAll (t : Topology) (q₀ : ℕ) (last : List (Option (Option ℕ))) (k : ℕ) : Prop :=
  ∀ s : ℕ, 1 ≤ s → s ≤ k → t.Behind q₀ (.kernel s) → ∃ l, (last[s - 1]?).join = some l

/-- When the whole run is known, what is behind a queue is. -/
theorem KnowsAll.of_run (hread : ∀ i < t.sources, (read[i]?).join = some (o.count i))
    (hfin : ∀ s, 1 ≤ s → s ≤ t.stages → (finished[s - 1]?).join = some (o.finish s)) :
    t.KnowsAll o q₀ read finished := by
  have hlink : ∀ {p}, t.Behind q₀ p → ∃ q link, t.link q = some link ∧ link.source = p := by
    rintro _ (hl | ⟨-, -, hl⟩) <;> exact ⟨_, _, hl, rfl⟩
  constructor
  · intro i h
    obtain ⟨q, ⟨_, c⟩, hl, rfl⟩ := hlink h
    exact hread i (hw.producer_ok q _ hl)
  · intro s h
    obtain ⟨q, link, hl, hs⟩ := hlink h
    obtain ⟨h₁, h₂⟩ := hw.stage_ok hl hs
    exact hfin s h₁ h₂

variable (hk : t.KnowsAll o q₀ read finished)
include hk

omit hw in
theorem carriedHighest_total {q k : ℕ} {link : Link} (hb : t.Behind q₀ link.source)
    (hl : t.link q = some link) (hpos : ∀ s, link.source = .kernel s → 1 ≤ s ∧ s ≤ k)
    (hlast : t.LastAll q₀ last k) : ∃ l, t.carriedHighest read last q = some l := by
  obtain ⟨producer, c⟩ := link
  unfold carriedHighest
  rw [hl]
  cases producer with
  | source i => exact ⟨highestOf (o.count i), by simp only [hk.read_eq i hb, Option.map_some]⟩
  | kernel s =>
    obtain ⟨h₁, h₂⟩ := hpos s rfl
    exact hlast s h₁ h₂ hb

theorem inputHighest_total {s : ℕ} (hb : t.Behind q₀ (.kernel s))
    (hlast : t.LastAll q₀ last (s - 1)) : ∃ l, t.inputHighest read last s = some l := by
  have hfold : ∀ {f : Option (Option ℕ) → ℕ × ℕ → Option (Option ℕ)}
      (_ : ∀ soFar e here, t.carriedHighest read last e.1 = some here →
        ∃ l, f (some soFar) e = some l)
      (entries : List (ℕ × ℕ)) (input : Option ℕ),
      (∀ e ∈ entries, (t.inputs s)[e.2]? = some e.1) →
      ∃ l, entries.foldl f (some input) = some l := by
    intro f hf entries
    induction entries with
    | nil => exact fun input _ => ⟨input, rfl⟩
    | cons e entries ih =>
      intro input he
      obtain ⟨link, hl, hlow⟩ := hw.behind (he e mem_cons_self)
      obtain ⟨here, hhere⟩ :=
        carriedHighest_total hk (hb.up (he e mem_cons_self) hl) hl hlow hlast
      obtain ⟨l, hstep⟩ := hf input e here hhere
      rw [foldl_cons, hstep]
      exact ih _ fun e' he' => he e' (mem_cons_of_mem _ he')
  exact hfold (fun soFar e here h => ⟨_, by rw [h]⟩) _ none fun e he =>
    mk_mem_zipIdx_iff_getElem?.mp he

theorem produced_total : (∀ s : ℕ, 1 ≤ s → s ≤ t.stages → t.Behind q₀ (.kernel s) →
      ∃ b, ((t.produced read finished).base[s - 1]?).join = some b) ∧
    t.LastAll q₀ (t.produced read finished).last t.stages := by
  have hall := @produced_induct t read finished
    (fun s base => t.Behind q₀ (.kernel s) → ∃ b, base = some b)
    (fun s last => t.Behind q₀ (.kernel s) → ∃ l, last = some l)
    fun k _ sofar base last ihl heq => by
    by_cases hb : t.Behind q₀ (.kernel (k + 1))
    · obtain ⟨l, hin⟩ := inputHighest_total hw hk hb ihl
      have hf := hk.finished_eq (k + 1) hb
      rw [Nat.add_sub_cancel] at hf
      simp only [produceStage, Prod.mk.injEq, append_cancel_left_eq, List.cons.injEq, and_true,
        hin, hf, Option.map_some] at heq
      obtain ⟨rfl, rfl⟩ := heq
      cases o.finish (k + 1) <;> exact ⟨fun _ => ⟨_, rfl⟩, fun _ => ⟨_, rfl⟩⟩
    · exact ⟨fun h => absurd h hb, fun h => absurd h hb⟩
  exact ⟨fun s h₁ h₂ => (hall h₁ h₂).1, fun s h₁ h₂ => (hall h₁ h₂).2⟩

/-- **With everything behind a queue known there is an answer.** -/
theorem reaches_total (hl : o.Lawful t) {seq : ℕ} {link : Link} (hq : t.link q₀ = some link)
    (hseq : seq < 2 ^ 64) : ∃ b, t.reaches q₀ seq (t.produced read finished) = some b := by
  have hbase := (produced_total hw hk).1
  refine hw.induct (P := fun fuel q => (∀ link, t.link q = some link → t.Behind q₀ link.source) →
    ∀ seq < 2 ^ 64, ∃ b, t.reachesWithin (t.produced read finished) fuel q seq = some b) ?_ ?_ hq
    (fun _ => .here) seq hseq
  · intro fuel q i c hq hb seq _
    have hr : ((t.produced read finished).read[i]?).join = some (o.count i) :=
      hk.read_eq i (hb _ hq)
    unfold reachesWithin
    rw [hq]
    exact ⟨_, by simp only [hr, Option.map_some]; rfl⟩
  · intro fuel q s c hq h₁ h₂ ih hb seq hseq
    obtain ⟨b, hbs⟩ := hbase s h₁ h₂ (hb _ hq)
    have hf : ((t.produced read finished).finished[s - 1]?).join = some (o.finish s) :=
      hk.finished_eq s (hb _ hq)
    obtain ⟨p, q', m, hp, hparent, -⟩ := passedOn_iff_parent hw hl hq hseq
    have hin := getElem?_inputs_of_taken hp
    obtain ⟨up, hup⟩ := ih p q' hin (fun _ => .up (hb _ hq) hin) m (parent_lt hparent hseq)
    unfold reachesWithin
    rw [hq]
    simp only [hbs, hf, hparent, hup, Option.bind_eq_bind, Option.bind_some, Option.map_some]
    split
    · exact ⟨_, rfl⟩
    · exact ⟨_, rfl⟩

theorem lastAtSink_total {sink : ℕ} (hq : t.sinkInput sink = some q₀) :
    ∃ l, t.lastAtSink sink (t.produced read finished) = some l := by
  obtain ⟨producer, hlink⟩ := (hw.sink_iff sink q₀).mp hq
  unfold lastAtSink
  rw [hq]
  exact carriedHighest_total hk (.here hlink) hlink (fun s => hw.stage_ok hlink)
    (produced_total hw hk).2

omit hk

/-! ### Joins -/

/-- The numbers along a route fit, and are on the queue. -/
theorem on_of_route (hl : o.Lawful t) {q i n : ℕ} {path : List ℕ} {m : Affine}
    (h : t.Route q path i m) (hn : n < o.count i) :
    t.On o q (n * m.a + m.b) ∧ n * m.a + m.b < 2 ^ 64 := by
  induction h with
  | source hq =>
    have : n * Affine.IDENTITY.a + Affine.IDENTITY.b = n := by simp [Affine.IDENTITY]
    rw [this]
    exact ⟨.source hq hn, hn.trans (hl.count_fits _)⟩
  | @stage q s p q' i c path m m' hq hp hr hm ih =>
    obtain ⟨hon, -⟩ := ih hn
    obtain ⟨h₁, h₂⟩ := hw.stage_ok hq rfl
    have hlt := lt_numberingPorts hp
    have hin := getElem?_inputs_of_taken hp
    have heq := Arrives.outSeq_eq hl h₁ h₂ hlt hin hon
    rw [followedBy_apply hlt hm, ← heq]
    refine ⟨.carried hq hp hon, ?_⟩
    have hb := Arrives.lt_base hl h₁ h₂ ⟨p, q', _, hin, hon, rfl⟩
    have hfit := hl.finish_fits s h₁ h₂
    omega

theorem Outcome.Lawful.fits (hl : o.Lawful t) : t.Fits o.count :=
  fun _ _ _ _ hr _ hn => (on_of_route hw hl hr hn).2

/-- Before a join the queues carry only what the sources read. -/
theorem on_iff_carries (hquiet : o.Quiet t) {j q : ℕ} (hj : t.isAligned j)
    {link : Link} (hq : t.link q = some link)
    (hup : ∀ s c, t.link q = some ⟨.kernel s, c⟩ → Relation.TransGen t.Feeds s j) (seq : ℕ) :
    t.On o q seq ↔ ∃ path i n, t.Carries o.count q path i n seq := by
  refine hw.induct (P := fun _ q =>
    (∀ s c, t.link q = some ⟨.kernel s, c⟩ → Relation.TransGen t.Feeds s j) → ∀ seq,
      t.On o q seq ↔ ∃ path i n, t.Carries o.count q path i n seq) ?_ ?_ hq hup seq
  · intro _ q i c hq _ seq
    rw [on_source_iff hq]
    constructor
    · exact fun h => ⟨[], i, seq, .source hq h⟩
    · rintro ⟨path, i', n, hc⟩
      cases hc with
      | source hq' hn => rw [hq] at hq'; cases hq'; exact hn
      | stage hq' => rw [hq] at hq'; cases hq'
  · intro _ q s c hq _ _ ih hup seq
    rw [on_kernel_iff hq, hquiet s j hj (hup s c hq)]
    -- the inputs of the stage are before the same join
    have hinput (p q' : ℕ) (hp : (t.taken s)[p]? = some q') :=
      ih p q' (getElem?_inputs_of_taken hp) fun s' c' hl' =>
        .head ⟨p, q', c', getElem?_inputs_of_taken hp, hl'⟩ (hup s c hq)
    constructor
    · rintro (⟨p, q', m, hp, hm, rfl⟩ | ⟨k, hk, -⟩)
      · obtain ⟨path, i, n, hc⟩ := (hinput p q' hp m).mp hm
        exact ⟨p :: path, i, n, .stage hq hp hc⟩
      · omega
    · rintro ⟨path, i, n, hc⟩
      obtain ⟨p, q', rest, m, -, hp, hcr, rfl⟩ := hc.of_kernel hq
      exact .inl ⟨p, q', m, hp, (hinput p q' hp m).mpr ⟨rest, i, n, hcr⟩, rfl⟩

omit hw in
/-- **In a run without finish batches before a join, its ports carry alike.** -/
theorem alike_of_joined (ht : t.Accepted) (hj : t.Joined) (hl : o.Lawful t) (hquiet : o.Quiet t) :
    t.Alike o := by
  have hw := ht.wired
  obtain ⟨carried, hc, -⟩ := ht.pathsOf_eq
  have hfits := hl.fits hw
  intro s p q q₀ ha hp h₀ m
  have hside : ∀ p q : ℕ, (t.inputs s)[p]? = some q → (t.On o q m ↔
      ∃ i n M, (i, M) ∈ row carried q ∧ n < o.count i ∧ m = n * M.a + M.b) := by
    intro p q hp
    obtain ⟨link, hq, -⟩ := hw.lower hp
    rw [on_iff_carries hw hquiet ha hq fun k c hk => .single ⟨p, q, c, hp, hk⟩]
    simp only [carries_iff hw hc hfits]
    constructor
    · rintro ⟨path, i, n, M, hr, hn, rfl⟩
      exact ⟨i, n, M, ((arrivals_spec hw hc).1 q link hq i M).mpr ⟨path, hr⟩, hn, rfl⟩
    · rintro ⟨i, n, M, hmem, hn, rfl⟩
      obtain ⟨path, hr⟩ := ((arrivals_spec hw hc).1 q link hq i M).mp hmem
      exact ⟨path, i, n, M, hr, hn, rfl⟩
  rw [hside p q hp, hside 0 q₀ h₀, misaligned_eq_none hc (hj s ha) hp h₀]

/-- The highest number of a sink's queue, when it is known, is right. -/
theorem lastAtSink_spec (hl : o.Lawful t) (ha : t.Alike o)
    (hk : Knows o read finished) {sink q : ℕ} (hq : t.sinkInput sink = some q)
    (h : t.lastAtSink sink (t.produced read finished) = some l) : IsHighest (t.On o q) l := by
  obtain ⟨producer, hlink⟩ := (hw.sink_iff sink q).mp hq
  have h' : t.carriedHighest read (t.produced read finished).last q = some l := by
    unfold lastAtSink at h
    rwa [hq] at h
  exact carriedHighest_spec hk hlink (fun s => hw.stage_ok hlink) (produced_spec hw hl ha hk).2 h'

end Topology

end Moruna.Graph
